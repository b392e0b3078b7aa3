/-
**The PoE replicas.**

A replica numbers the transactions of its clients and broadcasts a Propose.  A replica that receives
a Propose stores the transaction under the hash it carries and broadcasts a Prepare with the hash;
`2f + 1` Prepares for the hash of a stored transaction commit it.

Votes are collected for hashes, and the sequence number comes with the transaction: two proposers
give out the same numbers, and no replica looks at whether a number is taken.  The transaction is
removed when it is committed, the votes are not: a Propose that arrives once more is committed again
by the next Prepare (`Poe.poe_agreement_fails`).

Main definitions:

* `Poe.PoE` — a replica, with its three handlers;
* `Poe.Network`, `Poe.poeSystem` — replicas and Byzantine senders on a network;
* `Poe.Agreement` — the property;
* `Poe.FreshPropose` — the condition on the delivery of a Propose.

Main results:

* `Poe.Network.Inv.step` — what every step keeps;
* `Poe.poe_agreement` — under the condition the replicas agree.
-/

import ResilientDb.PrefixOrder
import ResilientDb.Quorum
import ResilientDb.Transition
import ResilientDb.Wire

set_option autoImplicit false

namespace Poe

open Function (forall_update_iff update update_of_ne update_self)
open List (mem_singleton)
open Wire (Bytes)

/-! ### A replica -/

/-- `Transaction`. -/
structure Transaction where
  data : Bytes
  hash : Bytes
  proxyId : ℤ
  proposer : ℕ
  uid : ℤ
  createTime : ℕ
  seq : ℤ
deriving DecidableEq

/-- What the client has sent. -/
def Transaction.request (txn : Transaction) : Bytes × ℤ × ℤ := (txn.data, txn.proxyId, txn.uid)

/-- `Proposal`. -/
structure Proposal where
  hash : Bytes
  proposer : ℕ
  seq : ℤ
deriving DecidableEq

/-- `PoE`. -/
structure PoE where
  id : ℕ
  seq : ℤ
  received : Bytes → Finset ℕ
  data : Bytes → Option Transaction

namespace PoE

/-- The constructor. -/
def start (id : ℕ) : PoE := ⟨id, 0, fun _ => ∅, fun _ => none⟩

/-- `ReceiveTransaction`, with the Propose it broadcasts. -/
def receiveTransaction (r : PoE) (txn : Transaction) (now : ℕ) : PoE × Transaction :=
  ({ r with seq := r.seq + 1 }, { txn with createTime := now, seq := r.seq, proposer := r.id })

/-- `ReceivePropose`, with the Prepare it broadcasts. -/
def receivePropose (r : PoE) (txn : Transaction) : PoE × Proposal :=
  ({ r with data := update r.data txn.hash (some txn) }, ⟨txn.hash, r.id, txn.seq⟩)

/-- `ReceivePrepare`, with the transaction it passes to `commit_`. -/
def receivePrepare (f : ℕ) (r : PoE) (proposal : Proposal) : PoE × Option Transaction :=
  let votes := insert proposal.proposer (r.received proposal.hash)
  let r := { r with received := update r.received proposal.hash votes }
  match r.data proposal.hash with
  | none => (r, none)
  | some txn =>
    if 2 * f + 1 ≤ votes.card then
      ({ r with data := update r.data proposal.hash none }, some txn)
    else (r, none)

end PoE

/-! ### The network -/

/-- The number of replicas, the number of faults, and the Byzantine replicas. -/
structure Setup where
  totalNum : ℕ
  f : ℕ
  byzantine : Finset ℕ

namespace Setup

/-- The ids of the replicas. -/
def members (c : Setup) : Finset ℕ := Finset.Icc 1 c.totalNum

/-- A replica that runs the code. -/
def IsCorrect (c : Setup) (i : ℕ) : Prop := i ∈ c.members ∧ i ∉ c.byzantine

instance (c : Setup) (i : ℕ) : Decidable (c.IsCorrect i) := inferInstanceAs (Decidable (_ ∧ _))

end Setup

/-- The replicas, what correct replicas have broadcast, and what each replica has been proposed and
has committed. -/
structure Network where
  replicas : ℕ → PoE
  proposes : List Transaction
  prepares : List Proposal
  proposed : ℕ → List Transaction
  committed : ℕ → List Transaction

/-- A client's transaction, a Propose or a Prepare reaches a replica. -/
inductive Action
  | newTransaction (i : ℕ) (txn : Transaction) (now : ℕ)
  | propose (i : ℕ) (txn : Transaction)
  | prepare (i : ℕ) (proposal : Proposal)

namespace Network

/-- No messages yet. -/
def start : Network := ⟨PoE.start, [], [], fun _ => [], fun _ => []⟩

/-- A correct replica acts under an id only if it has sent the message; a Byzantine one sends what it
likes.  A message that was sent may be delivered any number of times, or never. -/
def Authentic (c : Setup) (sender : ℕ) (sent : Prop) : Prop :=
  sender ∈ c.members ∧ (sender ∈ c.byzantine ∨ sent)

instance (c : Setup) (sender : ℕ) (sent : Prop) [Decidable sent] : Decidable (Authentic c sender sent) :=
  inferInstanceAs (Decidable (_ ∧ _))

/-- One action. -/
def step (c : Setup) (s : Network) : Action → Option Network
  | .newTransaction i txn now => do
      guard (c.IsCorrect i)
      let (r, propose) := (s.replicas i).receiveTransaction txn now
      some { s with
        replicas := update s.replicas i r
        proposes := s.proposes ++ [propose] }
  | .propose i txn => do
      guard (c.IsCorrect i)
      guard (Authentic c txn.proposer (txn ∈ s.proposes))
      let (r, prepare) := (s.replicas i).receivePropose txn
      some { s with
        replicas := update s.replicas i r
        prepares := s.prepares ++ [prepare]
        proposed := update s.proposed i (s.proposed i ++ [txn]) }
  | .prepare i proposal => do
      guard (c.IsCorrect i)
      guard (Authentic c proposal.proposer (proposal ∈ s.prepares))
      let (r, txn) := (s.replicas i).receivePrepare c.f proposal
      some { s with
        replicas := update s.replicas i r
        committed := update s.committed i (s.committed i ++ txn.toList) }

end Network

/-- The runs of the replicas. -/
def poeSystem (c : Setup) : TransitionSystem Network Action where
  init s := s = .start
  step := Network.step c

/-- No two correct replicas commit different transactions with one number, and none commits a
transaction twice. -/
structure Agreement (c : Setup) (s : Network) : Prop where
  same : ∀ i j, c.IsCorrect i → c.IsCorrect j → ∀ a ∈ s.committed i, ∀ b ∈ s.committed j,
    a.seq = b.seq → a = b
  once : ∀ i, c.IsCorrect i → (s.committed i).Pairwise fun a b => a.request ≠ b.request

/-- What a replica does not check on a Propose: a hash or a request that a replica has been proposed
before stands for the same transaction, the number has not been proposed to this replica with another
hash, and this replica has not committed the transaction. -/
def FreshPropose (c : Setup) (s : Network) : Action → Prop
  | .propose i txn =>
    (∀ j ∈ c.members, ∀ t ∈ s.proposed j,
      t.hash = txn.hash ∨ t.request = txn.request → t = txn) ∧
    (∀ t ∈ s.proposed i, t.seq = txn.seq → t.hash = txn.hash) ∧
    ∀ t ∈ s.committed i, t.hash ≠ txn.hash
  | _ => True

instance (c : Setup) (s : Network) (a : Action) : Decidable (FreshPropose c s a) := by
  unfold FreshPropose
  split <;> infer_instance

/-! ### The invariant -/

/-- The replica is Byzantine or has been proposed a transaction with the hash. -/
def Vouches (c : Setup) (proposed : ℕ → List Transaction) (hash : Bytes) (i : ℕ) : Prop :=
  i ∈ c.members ∧ (i ∈ c.byzantine ∨ ∃ t ∈ proposed i, t.hash = hash)

/-- The votes that a replica has counted are backed by a Propose with the hash; the transactions it
stores have been proposed to it and are not committed. -/
structure PoE.Ok (c : Setup) (s : Network) (i : ℕ) (r : PoE) : Prop where
  id : r.id = i
  votes : ∀ hash, ∀ v ∈ r.received hash, Vouches c s.proposed hash v
  data : ∀ hash t, r.data hash = some t →
    t.hash = hash ∧ t ∈ s.proposed i ∧ ∀ t' ∈ s.committed i, t'.hash ≠ hash

/-- Replicas and messages are backed by Proposes, and these are consistent. -/
structure Network.Inv (c : Setup) (s : Network) : Prop where
  replicas : ∀ i, (s.replicas i).Ok c s i
  prepares : ∀ p ∈ s.prepares, ∃ t ∈ s.proposed p.proposer, t.hash = p.hash
  same : ∀ i ∈ c.members, ∀ j ∈ c.members, ∀ t ∈ s.proposed i, ∀ t' ∈ s.proposed j,
    t.hash = t'.hash ∨ t.request = t'.request → t = t'
  number : ∀ i, ∀ t ∈ s.proposed i, ∀ t' ∈ s.proposed i, t.seq = t'.seq → t.hash = t'.hash
  quorum : ∀ i, ∀ t ∈ s.committed i, t ∈ s.proposed i ∧
    ∃ Q : Finset ℕ, 2 * c.f + 1 ≤ Q.card ∧ ∀ v ∈ Q, Vouches c s.proposed t.hash v
  once : ∀ i, (s.committed i).Pairwise fun a b => a.request ≠ b.request

section Invariant

variable {c : Setup} {s s' : Network}

theorem Vouches.mono {p p' : ℕ → List Transaction} {hash : Bytes} {v : ℕ} (h : Vouches c p hash v)
    (hle : ∀ i, p i ⊆ p' i) : Vouches c p' hash v := by
  refine ⟨h.1, h.2.imp_right ?_⟩
  rintro ⟨t, ht, hhash⟩
  exact ⟨t, hle v ht, hhash⟩

namespace Network

theorem inv_start (c : Setup) : Inv c start where
  replicas _ := ⟨rfl, by simp [start, PoE.start], by simp [start, PoE.start]⟩
  prepares := by simp [start]
  same := by simp [start]
  number := by simp [start]
  quorum := by simp [start]
  once _ := .nil

variable {i : ℕ}

/-- A client's transaction gets a number. -/
theorem Inv.newTransaction (hs : s.Inv c) {txn : Transaction} {now : ℕ}
    (h : s.step c (.newTransaction i txn now) = some s') : s'.Inv c := by
  obtain ⟨_, -, h⟩ := Option.bind_eq_some_iff.1 h
  cases h
  refine ⟨?_, hs.prepares, hs.same, hs.number, hs.quorum, hs.once⟩
  refine (forall_update_iff _ fun j (r : PoE) => r.Ok c _ j).2 ⟨?_, fun j _ => ?_⟩
  · have hi := hs.replicas i
    exact ⟨hi.id, hi.votes, hi.data⟩
  · have hj := hs.replicas j
    exact ⟨hj.id, hj.votes, hj.data⟩

/-- A fresh Propose is stored under its hash. -/
theorem Inv.propose (hs : s.Inv c) {txn : Transaction} (hok : FreshPropose c s (.propose i txn))
    (h : s.step c (.propose i txn) = some s') : s'.Inv c := by
  obtain ⟨_, -, h⟩ := Option.bind_eq_some_iff.1 h
  obtain ⟨_, -, h⟩ := Option.bind_eq_some_iff.1 h
  cases h
  obtain ⟨hsame, hnumber, hfresh⟩ := hok
  have hle := subset_update_append s.proposed i [txn]
  have hnew : txn ∈ update s.proposed i (s.proposed i ++ [txn]) i := by
    rw [update_self]
    exact List.mem_append_right _ (mem_singleton.2 rfl)
  refine ⟨?_, ?_, ?_, ?_, ?_, hs.once⟩
  · refine (forall_update_iff _ fun j (r : PoE) => r.Ok c _ j).2 ⟨?_, fun j _ => ?_⟩
    · have hi := hs.replicas i
      refine ⟨hi.id, fun hash v hv => (hi.votes hash v hv).mono hle, fun hash t ht => ?_⟩
      rcases eq_or_ne hash txn.hash with rfl | hne
      · cases (update_self ..).symm.trans ht
        exact ⟨rfl, hnew, hfresh⟩
      · replace ht := (update_of_ne hne ..).symm.trans ht
        obtain ⟨hhash, ht, hcommitted⟩ := hi.data hash t ht
        exact ⟨hhash, hle i ht, hcommitted⟩
    · have hj := hs.replicas j
      refine ⟨hj.id, fun hash v hv => (hj.votes hash v hv).mono hle, fun hash t ht => ?_⟩
      obtain ⟨hhash, ht, hcommitted⟩ := hj.data hash t ht
      exact ⟨hhash, hle j ht, hcommitted⟩
  · intro p hp
    rcases List.mem_append.1 hp with hp | hp
    · obtain ⟨t, ht, hhash⟩ := hs.prepares p hp
      exact ⟨t, hle _ ht, hhash⟩
    · rw [mem_singleton.1 hp]
      refine ⟨txn, ?_, rfl⟩
      rw [(hs.replicas i).id]
      exact hnew
  · intro j hj k hk t ht t' ht' heq
    rcases mem_update_append ht with ht | ⟨-, ht⟩ <;> rcases mem_update_append ht' with ht' | ⟨-, ht'⟩
    · exact hs.same j hj k hk t ht t' ht' heq
    · rw [mem_singleton.1 ht'] at heq ⊢
      exact hsame j hj t ht heq
    · rw [mem_singleton.1 ht] at heq ⊢
      exact (hsame k hk t' ht' (heq.imp Eq.symm Eq.symm)).symm
    · rw [mem_singleton.1 ht, mem_singleton.1 ht']
  · intro j t ht t' ht' heq
    rcases mem_update_append ht with ht | ⟨hj, ht⟩ <;>
      rcases mem_update_append ht' with ht' | ⟨hj', ht'⟩
    · exact hs.number j t ht t' ht' heq
    · rw [mem_singleton.1 ht'] at heq ⊢
      rw [hj'] at ht
      exact hnumber t ht heq
    · rw [mem_singleton.1 ht] at heq ⊢
      rw [hj] at ht'
      exact (hnumber t' ht' heq.symm).symm
    · rw [mem_singleton.1 ht, mem_singleton.1 ht']
  · intro j t ht
    obtain ⟨hproposed, Q, hcard, hQ⟩ := hs.quorum j t ht
    exact ⟨hle j hproposed, Q, hcard, fun v hv => (hQ v hv).mono hle⟩

variable {proposal : Proposal}

theorem Inv.vouches (hs : s.Inv c) (h : Authentic c proposal.proposer (proposal ∈ s.prepares)) :
    Vouches c s.proposed proposal.hash proposal.proposer :=
  ⟨h.1, h.2.imp_right (hs.prepares proposal)⟩

/-- A Prepare is counted, and may complete a quorum. -/
theorem receivePrepare_cases {f : ℕ} {r r' : PoE} {txn : Option Transaction}
    (h : r.receivePrepare f proposal = (r', txn)) : r'.id = r.id ∧
    r'.received = update r.received proposal.hash
      (insert proposal.proposer (r.received proposal.hash)) ∧ (txn = none ∧ r'.data = r.data ∨
      ∃ t, txn = some t ∧ r.data proposal.hash = some t ∧
        r'.data = update r.data proposal.hash none ∧
        2 * f + 1 ≤ (insert proposal.proposer (r.received proposal.hash)).card) := by
  unfold PoE.receivePrepare at h
  dsimp only at h
  split at h
  · cases h
    exact ⟨rfl, rfl, .inl ⟨rfl, rfl⟩⟩
  · rename_i t ht
    split at h
    · rename_i hcard
      cases h
      exact ⟨rfl, rfl, .inr ⟨t, rfl, ht, rfl, hcard⟩⟩
    · cases h
      exact ⟨rfl, rfl, .inl ⟨rfl, rfl⟩⟩

theorem Inv.votes_insert (hs : s.Inv c)
    (hvote : Vouches c s.proposed proposal.hash proposal.proposer) :
    ∀ v ∈ insert proposal.proposer ((s.replicas i).received proposal.hash),
      Vouches c s.proposed proposal.hash v := by
  intro v hv
  rcases Finset.mem_insert.1 hv with rfl | hv
  · exact hvote
  · exact (hs.replicas i).votes _ v hv

/-- A Prepare adds a vote, and what is committed has a quorum. -/
theorem Inv.prepare (hs : s.Inv c) (h : s.step c (.prepare i proposal) = some s') : s'.Inv c := by
  obtain ⟨_, hcorrect, h⟩ := Option.bind_eq_some_iff.1 h
  obtain ⟨_, hauth, h⟩ := Option.bind_eq_some_iff.1 h
  have hmember := ((Option.guard_eq_some' _).1 hcorrect).1
  have hvotes := hs.votes_insert (i := i) (hs.vouches ((Option.guard_eq_some' _).1 hauth))
  have hi := hs.replicas i
  rcases hr : (s.replicas i).receivePrepare c.f proposal with ⟨r, txn⟩
  rw [hr] at h
  cases h
  obtain ⟨hid, hreceived, hcases⟩ := receivePrepare_cases hr
  have hrvotes : ∀ hash, ∀ v ∈ r.received hash, Vouches c s.proposed hash v := by
    intro hash v hv
    rw [hreceived] at hv
    rcases eq_or_ne hash proposal.hash with rfl | hne
    · rw [update_self] at hv
      exact hvotes v hv
    · rw [update_of_ne hne] at hv
      exact hi.votes hash v hv
  rcases hcases with ⟨rfl, hdata⟩ | ⟨t, rfl, ht, hdata, hcard⟩
  case inl =>
    have hcommitted : update s.committed i (s.committed i ++ Option.none.toList) =
        s.committed := by
      rw [Option.toList_none, List.append_nil, Function.update_eq_self]
    rw [hcommitted]
    refine ⟨?_, hs.prepares, hs.same, hs.number, hs.quorum, hs.once⟩
    refine (forall_update_iff _ fun j (r : PoE) => r.Ok c _ j).2 ⟨?_, fun j _ => ?_⟩
    · exact ⟨hid.trans hi.id, hrvotes, by rw [hdata]; exact hi.data⟩
    · have hj := hs.replicas j
      exact ⟨hj.id, hj.votes, hj.data⟩
  case inr =>
    obtain ⟨hhash, hproposed, hfresh⟩ := hi.data _ t ht
    refine ⟨?_, hs.prepares, hs.same, hs.number, ?_, ?_⟩
    · refine (forall_update_iff _ fun j (r : PoE) => r.Ok c _ j).2 ⟨?_, fun j hne => ?_⟩
      · refine ⟨hid.trans hi.id, hrvotes, fun hash t' ht' => ?_⟩
        rw [hdata] at ht'
        rcases eq_or_ne hash proposal.hash with rfl | hne
        · rw [update_self] at ht'
          cases ht'
        · rw [update_of_ne hne] at ht'
          obtain ⟨hhash', hproposed', hfresh'⟩ := hi.data hash t' ht'
          refine ⟨hhash', hproposed', fun t'' ht'' => ?_⟩
          rcases mem_update_append ht'' with ht'' | ⟨-, ht''⟩
          · exact hfresh' t'' ht''
          · rw [mem_singleton.1 ht'', hhash]
            exact hne.symm
      · have hj := hs.replicas j
        refine ⟨hj.id, hj.votes, ?_⟩
        simp only [update_of_ne hne]
        exact hj.data
    · intro j t' ht'
      rcases mem_update_append ht' with hold | ⟨rfl, hnew⟩
      · exact hs.quorum j t' hold
      · rw [mem_singleton.1 hnew]
        refine ⟨hproposed, _, hcard, ?_⟩
        rw [hhash]
        exact hvotes
    · refine (forall_update_iff _ fun _ (ts : List Transaction) =>
        ts.Pairwise fun a b => a.request ≠ b.request).2 ⟨?_, fun j _ => hs.once j⟩
      refine List.pairwise_append.2 ⟨hs.once i, List.pairwise_singleton _ _, ?_⟩
      intro a ha b hb heq
      rw [mem_singleton.1 hb] at heq
      have hsame := hs.same i hmember i hmember a (hs.quorum i a ha).1 t hproposed (.inr heq)
      exact hfresh a ha (by rw [hsame, hhash])

/-- Every step that meets the condition keeps the invariant. -/
theorem Inv.step {a : Action} (hs : s.Inv c) (hok : FreshPropose c s a)
    (h : Network.step c s a = some s') : s'.Inv c := by
  cases a with
  | newTransaction i txn now => exact hs.newTransaction h
  | propose i txn => exact hs.propose hok h
  | prepare i proposal => exact hs.prepare h

/-- Two quorums share a correct replica, which was proposed one hash for a number. -/
theorem Inv.same_committed (hs : s.Inv c) (hn : c.totalNum = 3 * c.f + 1) (hf : c.byzantine.card ≤ c.f)
    {j : ℕ} (hi : i ∈ c.members) (hj : j ∈ c.members) {a b : Transaction} (ha : a ∈ s.committed i)
    (hb : b ∈ s.committed j) (hseq : a.seq = b.seq) : a = b := by
  obtain ⟨haProposed, A, hA, hAv⟩ := hs.quorum i a ha
  obtain ⟨hbProposed, B, hB, hBv⟩ := hs.quorum j b hb
  have hmembers : c.members.card = 3 * c.f + 1 := by
    rw [Setup.members, Nat.card_Icc, hn]
    rfl
  obtain ⟨v, hvA, hvB, hvF⟩ := exists_common_of_card (F := c.byzantine)
    (fun v hv => (hAv v hv).1) (fun v hv => (hBv v hv).1) (by omega)
  obtain ⟨t, ht, hta⟩ := (hAv v hvA).2.resolve_left hvF
  obtain ⟨t', ht', htb⟩ := (hBv v hvB).2.resolve_left hvF
  have hv := (hAv v hvA).1
  obtain rfl := hs.same v hv i hi t ht a haProposed (.inl hta)
  obtain rfl := hs.same v hv j hj t' ht' b hbProposed (.inl htb)
  exact hs.same i hi j hj t haProposed t' hbProposed (.inl (hs.number v t ht t' ht' hseq))

end Network

/-- **Agreement.**  With `3f + 1` replicas of which at most `f` are Byzantine, in every run in which
every Propose that is delivered is fresh, the replicas agree and commit nothing twice. -/
theorem poe_agreement (hn : c.totalNum = 3 * c.f + 1) (hf : c.byzantine.card ≤ c.f)
    (hs : (poeSystem c).Reachable (FreshPropose c) s) : Agreement c s := by
  have hinv : s.Inv c := by
    refine hs.invariant ?_ ?_
    · rintro _ rfl
      exact Network.inv_start c
    · intro s a s' hs hok h
      exact hs.step hok h
  refine ⟨fun i j hi hj a ha b hb hseq => ?_, fun i _ => hinv.once i⟩
  exact hinv.same_committed hn hf hi.1 hj.1 ha hb hseq

end Invariant

/-- Four replicas, all of them correct. -/
def fourReplicas : Setup := ⟨4, 1, ∅⟩

/-- A client's transaction. -/
def clientTxn (n : Wire.Byte) : Transaction := ⟨[n], [n], 1, 0, n.val, 0, 0⟩

/-- The Propose of replica `i` for a transaction to which it gives the number `seq`. -/
def proposeOf (i : ℕ) (seq : ℤ) (n : Wire.Byte) : Transaction :=
  { clientTxn n with proposer := i, seq := seq }

/-- Three replicas get the Propose. -/
def proposed (txn : Transaction) : List Action := [.propose 1 txn, .propose 2 txn, .propose 3 txn]

/-- Their Prepares reach replica `k`. -/
def prepared (k : ℕ) (txn : Transaction) : List Action :=
  [.prepare k ⟨txn.hash, 1, txn.seq⟩, .prepare k ⟨txn.hash, 2, txn.seq⟩,
    .prepare k ⟨txn.hash, 3, txn.seq⟩]

/-- Replica 1 proposes two transactions.  The first replica commits both of them, and the second one the
later one. -/
def orderedRun : List Action :=
  [.newTransaction 1 (clientTxn 7) 0, .newTransaction 1 (clientTxn 8) 0] ++
    proposed (proposeOf 1 0 7) ++ proposed (proposeOf 1 1 8) ++ prepared 1 (proposeOf 1 0 7) ++
    prepared 1 (proposeOf 1 1 8) ++ prepared 2 (proposeOf 1 1 8)

theorem poe_agreement_ordered :
    ∃ s, (poeSystem fourReplicas).run .start orderedRun = some s ∧
      s.committed 1 = [proposeOf 1 0 7, proposeOf 1 1 8] ∧ s.committed 2 = [proposeOf 1 1 8] ∧
      Agreement fourReplicas s := by
  refine ⟨_, rfl, by decide, by decide, poe_agreement rfl (by decide) ?_⟩
  exact (TransitionSystem.Reachable.init rfl).run orderedRun (by decide +kernel) rfl

/-- Two replicas give their first transactions the same number, and both are committed; a Propose that
arrives again after the commit is committed again. -/
theorem poe_agreement_fails :
    (∃ s, (poeSystem fourReplicas).run .start
        (.newTransaction 1 (clientTxn 7) 0 :: .newTransaction 2 (clientTxn 8) 0 ::
          proposed (proposeOf 1 0 7) ++ prepared 1 (proposeOf 1 0 7) ++
            proposed (proposeOf 2 0 8) ++ prepared 2 (proposeOf 2 0 8)) = some s ∧
      proposeOf 1 0 7 ∈ s.committed 1 ∧ proposeOf 2 0 8 ∈ s.committed 2 ∧
        (proposeOf 1 0 7).seq = (proposeOf 2 0 8).seq ∧ ¬ Agreement fourReplicas s) ∧
    ∃ s, (poeSystem fourReplicas).run .start
        (.newTransaction 1 (clientTxn 7) 0 ::
          proposed (proposeOf 1 0 7) ++ prepared 1 (proposeOf 1 0 7) ++
            [.propose 1 (proposeOf 1 0 7), .prepare 1 ⟨[7], 2, 0⟩]) = some s ∧
      s.committed 1 = [proposeOf 1 0 7, proposeOf 1 0 7] ∧ ¬ Agreement fourReplicas s := by
  refine ⟨⟨_, rfl, by decide, by decide, by decide, fun h => ?_⟩, _, rfl, by decide, fun h => ?_⟩
  · have := h.same 1 2 (by decide) (by decide) (proposeOf 1 0 7) (by decide) (proposeOf 2 0 8)
      (by decide) rfl
    revert this
    decide
  · have := h.once 1 (by decide)
    revert this
    decide

end Poe
