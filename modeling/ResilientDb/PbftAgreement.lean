/-
**Agreement of PBFT in one view.**

In every run that meets `Pbft.ConsistentHashes`, no two correct replicas execute different data for
the same sequence number.  A correct replica sends COMMITs for one hash per sequence number, since its
collector passes from `READY_PREPARE` to `READY_COMMIT` once.  What a correct replica executes has the
hash of a quorum of COMMITs, two such quorums share a correct replica, and PRE-PREPAREs with the same
hash carry the same data.

Without the condition agreement fails with an equivocating primary: a replica executes the main
request it holds, whatever hash the COMMITs name.

Main definitions:

* `Pbft.Network.facts` — what the network knows about its messages;
* `Pbft.NetInv` — the invariant.

Main results:

* `Pbft.agreement` — agreement under the condition;
* `Pbft.agreement_fails` — a run that breaks it.
-/

import ResilientDb.PbftNetwork
import ResilientDb.Quorum

set_option autoImplicit false

namespace Pbft

/-! ### The invariant -/

namespace Network

/-- A PRE-PREPARE with this content has been delivered. -/
def Proposed (n : Network) (seq : ℕ) (hash data : String) : Prop :=
  ∃ p ∈ n.proposals, p.seq = seq ∧ p.hash = hash ∧ p.data = data

/-- Replica `j` is Byzantine, or has sent a COMMIT for the hash. -/
def Vouches (s : Setup) (n : Network) (j seq : ℕ) (hash : String) : Prop :=
  j ∈ s.members ∧ (j ∈ s.byzantine ∨ n.HasCommittedTo j seq hash)

/-- A quorum vouches for the hash. -/
def Backed (s : Setup) (n : Network) (seq : ℕ) (hash : String) : Prop :=
  ∃ Q : Finset ℕ, s.cfg.minDataReceiveNum ≤ Q.card ∧ ∀ j ∈ Q, n.Vouches s j seq hash

/-- What the network knows.  A request may be executed if it was proposed and a quorum vouches for its
hash. -/
def facts (s : Setup) (n : Network) (i : ℕ) : Facts where
  proposed := n.Proposed
  vouches := n.Vouches s
  committed := n.HasCommitted i
  executed := fun queue => ∀ q ∈ queue, n.Proposed q.seq q.hash q.data ∧ n.Backed s q.seq q.hash

end Network

/-- The invariant. -/
structure NetInv (s : Setup) (n : Network) : Prop where
  replicas : ∀ i, s.IsCorrect i → ReplicaInv (n.facts s i) i (n.replicas i)
  commitOnce : ∀ i, s.IsCorrect i → ∀ seq h h', n.HasCommittedTo i seq h →
    n.HasCommittedTo i seq h' → h = h'
  proposals : ∀ p ∈ n.proposals, ∀ q ∈ n.proposals, p.seq = q.seq → p.hash = q.hash →
    p.data = q.data

section

variable {s : Setup} {n n' : Network} {i : ℕ} {r r' : Replica} {info : RequestInfo} {pick : ℕ}
  {o : Outcome}

/-- **Agreement follows from the invariant**: two quorums share a correct replica. -/
theorem NetInv.agrees (h : NetInv s n) {f : ℕ} (hn : s.cfg.totalNum = 3 * f + 1)
    (hf : s.byzantine.card ≤ f) : Agreement s n := by
  intro i j hi hj a ha b hb hseq
  obtain ⟨⟨p, hp, hps, hph, hpd⟩, Q, hQ, hQv⟩ := (h.replicas i hi).executed a ha
  obtain ⟨⟨q, hq, hqs, hqh, hqd⟩, Q', hQ', hQv'⟩ := (h.replicas j hj).executed b hb
  have hmin : s.cfg.minDataReceiveNum = 2 * f + 1 := by
    unfold Config.minDataReceiveNum
    omega
  have hcard : s.members.card = 3 * f + 1 := by
    unfold Setup.members
    rw [Nat.card_Icc]
    omega
  obtain ⟨v, hv, hv', hgood⟩ : ∃ v ∈ Q, v ∈ Q' ∧ v ∉ s.byzantine :=
    exists_common_of_card (fun j hj => (hQv j hj).1) (fun j hj => (hQv' j hj).1) (by omega)
  obtain ⟨hmem, hvote⟩ := hQv v hv
  have hvote' := (hQv' v hv').2
  rw [← hseq] at hvote'
  have hhash : a.hash = b.hash :=
    h.commitOnce v ⟨hmem, hgood⟩ a.seq _ _ (hvote.resolve_left hgood) (hvote'.resolve_left hgood)
  calc a.data = p.data := hpd.symm
    _ = q.data := h.proposals p hp q hq (by rw [hps, hqs, hseq]) (by rw [hph, hqh, hhash])
    _ = b.data := hqd

/-! ### Steps of the network -/

variable {seq : ℕ} {hash : String}

theorem Network.HasCommittedTo.hasCommitted
    (h : n.HasCommittedTo i seq hash) : n.HasCommitted i seq := by
  obtain ⟨q, hq, htype, hsender, hseq, -⟩ := h
  exact ⟨q, hq, htype, hsender, hseq⟩

variable {j : ℕ}

theorem Network.Vouches.mono (hsent : n.sent ⊆ n'.sent)
    (h : n.Vouches s j seq hash) : n'.Vouches s j seq hash :=
  ⟨h.1, h.2.imp_right fun ⟨q, hq, hrest⟩ => ⟨q, hsent hq, hrest⟩⟩

theorem Network.Proposed.mono (hprop : n.proposals ⊆ n'.proposals) {data : String}
    (h : n.Proposed seq hash data) : n'.Proposed seq hash data := by
  obtain ⟨p, hp, hrest⟩ := h
  exact ⟨p, hprop hp, hrest⟩

/-- More messages and proposals keep the invariant, as long as new COMMITs of the replica itself come
from collectors that are ready to commit. -/
theorem ReplicaInv.mono (h : ReplicaInv (n.facts s i) i r) (hprop : n.proposals ⊆ n'.proposals)
    (hsent : n.sent ⊆ n'.sent) (hcommit : ∀ seq, n'.HasCommitted i seq → n.HasCommitted i seq ∨
      TransactionStatue.readyCommit.code ≤ (r.pool.getCollector seq).status.code) :
    ReplicaInv (n'.facts s i) i r := by
  refine h.imp (fun _ _ _ hp => hp.mono hprop) (fun _ _ _ hv => hv.mono hsent) hcommit ?_
  intro hexec q hq
  obtain ⟨hp, Q, hQ, hvotes⟩ := hexec q hq
  exact ⟨hp.mono hprop, Q, hQ, fun j hj => (hvotes j hj).mono hsent⟩

/-- What a handler has to ensure: it keeps the replica's invariant and sends at most one message, and
if that is a COMMIT, it repeats one, or it is the first one for the sequence number and the collector
has moved on. -/
structure SafeOutcome (s : Setup) (n : Network) (i : ℕ) (o : Outcome) : Prop where
  replica : ReplicaInv (n.facts s i) i o.replica
  length : o.broadcast.length ≤ 1
  sender : ∀ q ∈ o.broadcast, q.senderId = i
  commit : ∀ q ∈ o.broadcast, q.type = .commit → n.HasCommittedTo i q.seq q.hash ∨
    (¬ n.HasCommitted i q.seq ∧
      TransactionStatue.readyCommit.code ≤ (o.replica.pool.getCollector q.seq).status.code)

theorem SafeOutcome.silent (h : ReplicaInv (n.facts s i) i r) (ret : ℤ) :
    SafeOutcome s n i ⟨r, [], ret⟩ :=
  ⟨h, by simp, by simp, by simp⟩

theorem hasCommittedTo_update (ho : SafeOutcome s n i o)
    (h : (n.update i o).HasCommittedTo j seq hash) : n.HasCommittedTo j seq hash ∨
      (j = i ∧ ∃ q ∈ o.broadcast, q.type = .commit ∧ q.seq = seq ∧ q.hash = hash) := by
  obtain ⟨q, hq, htype, hsender, hrest⟩ := h
  rcases List.mem_append.1 hq with hq | hq
  · exact .inl ⟨q, hq, htype, hsender, hrest⟩
  · exact .inr ⟨hsender.symm.trans (ho.sender q hq), q, hq, htype, hrest⟩

theorem hasCommitted_update (ho : SafeOutcome s n i o)
    (h : (n.update i o).HasCommitted j seq) : n.HasCommitted j seq ∨
      (j = i ∧ TransactionStatue.readyCommit.code ≤
        (o.replica.pool.getCollector seq).status.code) := by
  obtain ⟨q, hq, htype, hsender, hseq⟩ := h
  rcases hasCommittedTo_update ho ⟨q, hq, htype, hsender, hseq, rfl⟩ with
    h | ⟨rfl, q', hq', htype', hseq', -⟩
  · exact .inl h.hasCommitted
  · rw [← hseq']
    exact (ho.commit q' hq' htype').imp (fun h => h.hasCommitted) fun h => ⟨rfl, h.2⟩

/-- **A handler that meets its obligations keeps the invariant.** -/
theorem NetInv.update (h : NetInv s n) (ho : SafeOutcome s n i o) : NetInv s (n.update i o) where
  replicas := by
    intro j hj
    have hsent : n.sent ⊆ (n.update i o).sent := List.subset_append_left _ _
    by_cases hji : j = i
    · subst hji
      simp only [Network.update, Function.update_self]
      refine ho.replica.mono (fun _ h => h) hsent fun seq hseq => ?_
      exact (hasCommitted_update ho hseq).imp_right fun h => h.2
    · simp only [Network.update, Function.update_of_ne hji]
      refine (h.replicas j hj).mono (fun _ h => h) hsent fun seq hseq => ?_
      exact (hasCommitted_update ho hseq).imp_right fun h => absurd h.1 hji
  commitOnce := by
    intro j hj seq h₁ h₂ hc₁ hc₂
    have hone : ∀ q ∈ o.broadcast, ∀ q' ∈ o.broadcast, q = q' := by
      intro q hq q' hq'
      cases hb : o.broadcast with
      | nil => simp [hb] at hq
      | cons x l =>
        have hlen := ho.length
        rw [hb, List.length_cons] at hlen
        obtain rfl : l = [] := List.length_eq_zero_iff.1 (by omega)
        rw [hb, List.mem_singleton] at hq hq'
        rw [hq, hq']
    -- a COMMIT of this step agrees with the earlier ones
    have hnew : ∀ q ∈ o.broadcast, q.type = .commit → ∀ hash,
        n.HasCommittedTo i q.seq hash → s.IsCorrect i → hash = q.hash := by
      intro q hq htype hash hc hi
      rcases ho.commit q hq htype with hold | ⟨hnone, -⟩
      · exact h.commitOnce i hi q.seq _ _ hc hold
      · exact absurd hc.hasCommitted hnone
    rcases hasCommittedTo_update ho hc₁ with hold₁ | ⟨rfl, q, hq, htype, hseq, hhash⟩ <;>
      rcases hasCommittedTo_update ho hc₂ with hold₂ | ⟨hji, q', hq', htype', hseq', hhash'⟩
    · exact h.commitOnce j hj seq _ _ hold₁ hold₂
    · subst hji hseq' hhash'
      exact hnew q' hq' htype' _ hold₁ hj
    · subst hseq hhash
      exact (hnew q hq htype _ hold₂ hj).symm
    · rw [← hhash, ← hhash', hone q hq q' hq']
  proposals := h.proposals

theorem NetInv.record (h : NetInv s n) {request : Request}
    (hcond : request.type = .prePrepare → ∀ q ∈ n.proposals, q.seq = request.seq →
      q.hash = request.hash → q.data = request.data) : NetInv s (n.record request) := by
  unfold Network.record
  split
  · rename_i htype
    refine ⟨?_, h.commitOnce, ?_⟩
    · exact fun j hj => (h.replicas j hj).mono (List.subset_append_left _ _) (fun _ h => h)
        fun _ h => .inl h
    · intro p hp q hq hseq hhash
      rcases List.mem_append.1 hp with hp' | hp' <;> rcases List.mem_append.1 hq with hq' | hq'
      · exact h.proposals p hp' q hq' hseq hhash
      · rw [List.mem_singleton] at hq'
        subst hq'
        exact hcond htype p hp' hseq hhash
      · rw [List.mem_singleton] at hp'
        subst hp'
        exact (hcond htype q hq' hseq.symm hhash.symm).symm
      · rw [List.mem_singleton] at hp' hq'
        rw [hp', hq']
  · exact h

theorem NetInv.start (s : Setup) : NetInv s (.start s) where
  replicas := by
    intro i _
    refine ⟨rfl, fun k => CollectorInv.fresh _ k, ?_, ?_, ?_⟩
    · simp [Network.start, Replica.construct, OrderedMap.empty]
    · simp [Network.start, Network.facts, Network.HasCommitted]
    · simp [Network.start, Network.facts, Replica.construct]
  commitOnce := by simp [Network.start, Network.HasCommittedTo]
  proposals := by simp [Network.start]

theorem allow_of_consistent {request : Request} (h : ReplicaInv (n.facts s i) i r)
    (hvote : n.Vouches s request.senderId request.seq request.hash)
    (hcond : (r.pool.getCollector request.seq).Completes s.cfg request →
      ∀ main ∈ (r.pool.getCollector request.seq).mainRequest, main.request.hash = request.hash) :
    (n.facts s i).Allow s.cfg (r.pool.getCollector request.seq) request := by
  intro hcomp main hmain q hseq hhash hdata queue hqueue q' hq'
  rcases List.mem_append.1 hq' with hq' | hq'
  · exact hqueue q' hq'
  rw [List.mem_singleton] at hq'
  subst hq'
  have hc := h.collectors (r.pool.slot request.seq)
  obtain ⟨hcseq, hprop⟩ := hc.holds main (.inl hmain)
  have hqseq : q'.seq = request.seq := by
    rw [hseq, ← hcseq]
    exact hcomp.1
  refine ⟨?_, insert request.senderId
    ((r.pool.getCollector request.seq).senders .commit request.hash), hcomp.2.2, ?_⟩
  · rw [hseq, hhash, hdata]
    exact hprop
  · intro j hj
    rw [hqseq, hhash, hcond hcomp main hmain]
    rcases Finset.mem_insert.1 hj with rfl | hj
    · exact hvote
    · have := hc.votes _ j hj
      rw [show (r.pool.collector (r.pool.slot request.seq)).seq = request.seq from hcomp.1] at this
      exact this

theorem receive_safe (h : NetInv s (n.record info.request)) (hi : s.IsCorrect i)
    (hauth : n.Authentic s info.request)
    (hcond : ConsistentMessage s.cfg n i info.request info.request.type)
    (ho : (n.replicas i).receive s.cfg info pick = some o) :
    SafeOutcome s (n.record info.request) i o := by
  have hsame : (n.record info.request).replicas = n.replicas ∧
      (n.record info.request).sent = n.sent := by
    unfold Network.record
    split <;> exact ⟨rfl, rfl⟩
  have hr := h.replicas i hi
  rw [hsame.1] at hr
  have hvote : info.request.type = .commit → (n.record info.request).Vouches s
      info.request.senderId info.request.seq info.request.hash := by
    intro htype
    refine ⟨hauth.1, hauth.2.imp_right fun hsent => ?_⟩
    exact ⟨info.request, hsame.2 ▸ hsent, htype, rfl, rfl, rfl⟩
  obtain ⟨hlen, hb⟩ := receive_broadcast ho
  refine ⟨receive_inv hr ?_ hvote ?_ ho, hlen, fun q hq => (hb q hq).1.trans hr.id, ?_⟩
  · intro htype
    exact ⟨info.request, by simp [Network.record, htype], rfl, rfl, rfl⟩
  · intro htype
    rw [htype] at hcond
    exact allow_of_consistent hr (hvote htype) hcond
  · intro q hq hcommit
    obtain ⟨htype, hrec, hseq, hhash, hstate⟩ := (hb q hq).2 hcommit
    rw [hseq, hhash]
    rcases hstate with ⟨hvalid, hcommitted⟩ | ⟨hcseq, hready, hnew⟩
    · rw [htype] at hcond
      obtain ⟨p, hp, hrest⟩ := hcond hrec hvalid hcommitted
      exact .inl ⟨p, hsame.2 ▸ hp, hrest⟩
    · refine .inr ⟨?_, by rw [hnew]⟩
      -- the collector was not yet ready to commit
      intro hold
      have := hr.commits _ hold hcseq
      rw [hready] at this
      exact absurd this (by decide)

theorem processNewRequest_safe (h : ReplicaInv (n.facts s i) i r) (request : Request) :
    SafeOutcome s n i (r.processNewRequest s.cfg request) := by
  obtain ⟨-, hlen, hb⟩ := processNewRequest_spec s.cfg r request
  exact ⟨processNewRequest_inv h s.cfg request, hlen, fun q hq => (hb q hq).1.trans h.id,
    fun q hq hc => absurd hc (hb q hq).2⟩

/-- **Every step that meets the condition keeps the invariant.** -/
theorem NetInv.step {act : Action} (h : NetInv s n) (hok : ConsistentHashes s n act)
    (hs : n.step s act = some n') : NetInv s n' := by
  cases act <;> simp only [Network.step, bind, Option.bind_eq_some_iff, Option.guard_eq_some'] at hs
  case newRequest i request =>
    obtain ⟨-, hi, hs⟩ := hs
    cases hs
    exact h.update (processNewRequest_safe (h.replicas i hi) request)
  case deliver i info pick =>
    obtain ⟨-, hi, -, hauth, o, ho, hs⟩ := hs
    cases hs
    have hcomm : (n.update i o).record info.request = (n.record info.request).update i o := by
      unfold Network.record
      split <;> rfl
    rw [hcomm]
    have hrec : NetInv s (n.record info.request) := by
      refine h.record fun htype => ?_
      have hcond : ConsistentMessage s.cfg n i info.request info.request.type := hok
      rw [htype] at hcond
      exact hcond
    exact hrec.update (receive_safe hrec hi hauth hok ho)
  case orderMessage i =>
    obtain ⟨-, hi, r, hr, hs⟩ := hs
    cases hs
    exact h.update (.silent (orderMessage_inv (h.replicas i hi) hok hr) 0)
  case execute i =>
    obtain ⟨-, hi, r, hr, hs⟩ := hs
    cases hs
    exact h.update (.silent ((h.replicas i hi).congr (execute_sameCore hr).1) 0)
  case updateCheckPointStatus i =>
    obtain ⟨-, hi, r, hr, hs⟩ := hs
    cases hs
    exact h.update (.silent ((h.replicas i hi).congr (updateCheckPointStatus_sameCore hr).1) 0)
  case updateRecentHash i hash =>
    obtain ⟨-, hi, hs⟩ := hs
    cases hs
    refine h.update (.silent ?_ 0)
    exact (h.replicas i hi).congr ⟨rfl, rfl, rfl, rfl⟩

/-- **Agreement**: in every run that meets the condition, correct replicas execute the same data. -/
theorem agreement {f : ℕ} (hn : s.cfg.totalNum = 3 * f + 1) (hf : s.byzantine.card ≤ f)
    (h : (pbftSystem s).Reachable (ConsistentHashes s) n) : Agreement s n := by
  have hinv : NetInv s n := by
    refine h.invariant (I := NetInv s) ?_ ?_
    · rintro n rfl
      exact NetInv.start s
    · intro n act n' hinv hok hs
      exact hinv.step hok hs
  exact hinv.agrees hn hf

end

/-! ### Two runs of four replicas -/

/-- Four replicas, the first of which is Byzantine and the primary of view 1.  Client signatures are
taken for valid. -/
def fourReplicas : Setup where
  cfg :=
    { totalNum := 4
      enableViewchange := false
      maxProcessTxn := 64
      needQc := false
      isFaulty := fun _ => false
      preVerify := fun _ => true
      verifyMessage := fun _ _ => true
      signMessage := fun _ _ => none }
  byzantine := {1}
  view := 1
  primary := 1

/-- The primary sends a PRE-PREPARE for sequence number 1. -/
def sendPropose (i : ℕ) (hash data : String) : Action :=
  let request : Request :=
    { type := .prePrepare, currentView := 1, seq := 1, senderId := 1, hash := hash, data := data }
  .deliver i ⟨request, ⟨1, ""⟩⟩ 0

/-- The PREPARE of a replica for sequence number 1 arrives. -/
def sendPrepare (i sender : ℕ) (hash : String) : Action :=
  let request : Request :=
    { type := .prepare, currentView := 1, seq := 1, senderId := sender, hash := hash }
  .deliver i ⟨request, ⟨sender, ""⟩⟩ 0

/-- The COMMIT of a replica for sequence number 1 arrives. -/
def sendCommit (i sender : ℕ) (hash : String) : Action :=
  let request : Request :=
    { type := .commit
      currentView := 1
      seq := 1
      senderId := sender
      hash := hash
      dataSignature := some ⟨0, ""⟩ }
  .deliver i ⟨request, ⟨sender, ""⟩⟩ 0

/-- The sequence numbers and data that a replica has executed. -/
def Replica.executedData (r : Replica) : List (ℕ × String) :=
  r.commitQueue.map fun q => (q.seq, q.data)

/-- Replicas 2 and 3 agree on the request of the primary. -/
def agreedRun : List Action :=
  [2, 3, 4].map (fun i => sendPropose i "a" "x") ++
    ([2, 3].flatMap fun i => [2, 3, 4].map fun j => sendPrepare i j "a") ++
    ([2, 3].flatMap fun i => [1, 2, 3].map fun j => sendCommit i j "a")

theorem agreement_agreedRun :
    ∃ n, (pbftSystem fourReplicas).run (.start fourReplicas) agreedRun = some n ∧
      (n.replicas 2).executedData = [(1, "x")] ∧ Agreement fourReplicas n := by
  obtain ⟨n, hn, hreach, hdata⟩ := (pbftSystem fourReplicas).exists_run
    (C := ConsistentHashes fourReplicas) (P := fun n => (n.replicas 2).executedData = [(1, "x")])
    agreedRun rfl (by decide +kernel) (by decide +kernel)
  exact ⟨n, hn, hdata, agreement (f := 1) (by decide) (by decide) hreach⟩

/-- The primary proposes one request to replicas 2 and 3 and another one to replica 4. -/
def equivocationRun : List Action :=
  [sendPropose 2 "a" "x", sendPropose 3 "a" "x", sendPropose 4 "b" "y"] ++
    ([2, 4].flatMap fun i => [1, 2, 3].map fun j => sendPrepare i j "a") ++
    ([2, 4].flatMap fun i => [1, 2, 4].map fun j => sendCommit i j "a")

/-- Replica 4 executes the request it holds, although all votes were for the other one. -/
theorem agreement_fails :
    ¬ ∀ (s : Setup) (f : ℕ) (n : Network), s.cfg.totalNum = 3 * f + 1 → s.byzantine.card ≤ f →
      (pbftSystem s).Reachable TransitionSystem.always n → Agreement s n := by
  intro h
  obtain ⟨n, hreach, h2, h4⟩ := (pbftSystem fourReplicas).exists_reachable_always
    (P := fun n => (n.replicas 2).executedData = [(1, "x")] ∧
      (n.replicas 4).executedData = [(1, "y")]) equivocationRun rfl (by decide +kernel)
  have hagree := h fourReplicas 1 n (by decide) (by decide) hreach
  have hx : (1, "x") ∈ (n.replicas 2).executedData := by simp [h2]
  have hy : (1, "y") ∈ (n.replicas 4).executedData := by simp [h4]
  obtain ⟨a, ha, hax⟩ := List.mem_map.1 hx
  obtain ⟨b, hb, hby⟩ := List.mem_map.1 hy
  simp only [Prod.mk.injEq] at hax hby
  have heq := hagree 2 4 (by decide) (by decide) a ha b hb (hax.1.trans hby.1.symm)
  rw [hax.2, hby.2] at heq
  exact absurd heq (by decide)

end Pbft
