/-
**Remote recovery.**

A replica that has fallen behind takes requests out of the recovery responses of others, and hands them
to the handlers of the three phases.  Those handlers count votes by the `sender_id` of a message, and
neither the response nor the requests in it are checked against the signatures they come with.  So a
request should reach the executor only if a quorum of replicas has signed a COMMIT for it, and it does
if the condition of authentic votes is met; a single response may forge a whole quorum.

Main definitions:

* `Pbft.Server.Backed` — a quorum of replicas has signed COMMITs for a request;
* `Pbft.RecoveryChecked` — the condition.

Main results:

* `Pbft.recovery_safe` — under the condition, what is executed is backed;
* `Pbft.recovery_safe_fails` — a response that forges all votes.
-/

import ResilientDb.PbftServer

set_option autoImplicit false

namespace Pbft

/-! ### The property and the condition -/

/-- A quorum of replicas has signed COMMITs for the request. -/
def Server.Backed (cfg : Config) (s : Server) (q : Request) : Prop :=
  ∃ Q ⊆ Finset.Icc 1 cfg.totalNum, cfg.minDataReceiveNum ≤ Q.card ∧
    ∀ j ∈ Q, s.HasVoted j .commit q.seq q.hash

/-- Whatever was passed to the executor is backed. -/
def Server.RecoverySafe (p : ServerSetup) (s : Server) : Prop :=
  ∀ q ∈ s.node.replica.commitQueue, s.Backed p.cfg q

/-- A COMMIT comes from a replica and, if it completes a quorum, it is for the hash of the main
request. -/
def Server.SoundVote (p : ServerSetup) (s : Server) (q : Request) : Prop :=
  q.type = .commit → q.senderId ∈ Finset.Icc 1 p.cfg.totalNum ∧
    ((s.node.replica.pool.getCollector q.seq).Completes p.cfg q →
      ∀ main ∈ (s.node.replica.pool.getCollector q.seq).mainRequest, main.request.hash = q.hash)

instance (p : ServerSetup) (s : Server) (q : Request) : Decidable (s.SoundVote p q) :=
  inferInstanceAs (Decidable (_ → _ ∧ (_ → ∀ main ∈ TransactionCollector.mainRequest _, _)))

/-- The condition: messages are signed by the sender they name, and COMMITs are sound. -/
def RecoveryChecked (p : ServerSetup) (s : Server) (a : ServerAction) : Prop :=
  FromSender s a ∧ ∀ q ∈ s.taken a, s.SoundVote p q

instance (p : ServerSetup) (s : Server) (a : ServerAction) : Decidable (RecoveryChecked p s a) :=
  inferInstanceAs (Decidable (_ ∧ ∀ q ∈ s.taken a, _))

/-! ### The invariant -/

/-- What is known of the messages: COMMITs are signed by replicas, and what is executed is backed. -/
def recoveryFacts (p : ServerSetup) (s : Server) : Facts where
  proposed := fun _ _ _ => True
  vouches := fun j seq hash => j ∈ Finset.Icc 1 p.cfg.totalNum ∧ s.HasVoted j .commit seq hash
  committed := fun _ => False
  executed := fun queue => ∀ q ∈ queue, s.Backed p.cfg q

structure RecoveryInv (p : ServerSetup) (s : Server) : Prop where
  server : ServerInv p s
  replica : ReplicaInv (recoveryFacts p s) s.node.replica.id s.node.replica

section

variable {p : ServerSetup} {s s' : Server} {a : ServerAction} {i : ℕ} {r : Replica}

theorem Server.HasVoted.mono {j seq : ℕ} {type : RequestType} {hash : String}
    (h : s.HasVoted j type seq hash) (hsigned : s.signed ⊆ s'.signed) :
    s'.HasVoted j type seq hash :=
  Server.HasSigned.mono h hsigned fun _ h => h

theorem Server.Backed.mono {cfg : Config} {q : Request} (h : s.Backed cfg q)
    (hsigned : s.signed ⊆ s'.signed) : s'.Backed cfg q := by
  obtain ⟨Q, hsub, hcard, hall⟩ := h
  exact ⟨Q, hsub, hcard, fun j hj => (hall j hj).mono hsigned⟩

theorem ReplicaInv.moreSigned (h : ReplicaInv (recoveryFacts p s) i r)
    (hsigned : s.signed ⊆ s'.signed) : ReplicaInv (recoveryFacts p s') i r :=
  h.imp (fun _ _ _ h => h) (fun _ _ _ h => ⟨h.1, h.2.mono hsigned⟩) (fun _ h => .inl h)
    fun hq q hmem => (hq q hmem).mono hsigned

theorem backed_of_completes {c : TransactionCollector} {request : Request} {main : RequestInfo}
    {q : Request} (hc : CollectorInv (recoveryFacts p s) c)
    (hvote : (recoveryFacts p s).vouches request.senderId request.seq request.hash)
    (hcomp : c.Completes p.cfg request) (hmain : main ∈ c.mainRequest)
    (hhash : main.request.hash = request.hash) (hqseq : q.seq = main.request.seq)
    (hqhash : q.hash = main.request.hash) : s.Backed p.cfg q := by
  obtain ⟨hseq, -, hcard⟩ := hcomp
  obtain ⟨hmainSeq, -⟩ := hc.holds main (.inl hmain)
  have hseq' : q.seq = request.seq := by rw [hqseq, ← hmainSeq, hseq]
  -- everybody who is counted, and the sender of the COMMIT
  have hall : ∀ j ∈ insert request.senderId (c.senders .commit request.hash),
      (recoveryFacts p s).vouches j request.seq request.hash := by
    intro j hj
    rcases Finset.mem_insert.1 hj with rfl | hj
    · exact hvote
    · rw [← hseq]
      exact hc.votes request.hash j hj
  refine ⟨_, fun j hj => (hall j hj).1, hcard, fun j hj => ?_⟩
  rw [hseq', hqhash, hhash]
  exact (hall j hj).2

theorem Server.SoundVote.congr {q q' : Request} (h : s.SoundVote p q)
    (hq : q.unmarked = q'.unmarked) : s.SoundVote p q' := by
  obtain ⟨htype, hseq, hhash, -, hsender⟩ := Request.fields_of_unmarked hq
  unfold Server.SoundVote TransactionCollector.Completes at h ⊢
  rw [← htype, ← hseq, ← hhash, ← hsender]
  exact h

theorem RecoveryInv.quiet (h : RecoveryInv p s) (hsigned : s.signed ⊆ s'.signed)
    (hs : QuietStep s a s'.node) :
    ReplicaInv (recoveryFacts p s') s.node.replica.id s'.node.replica := by
  have hreplica := h.replica.moreSigned hsigned
  rcases hs.replica with hcore | horder
  · exact hreplica.congr hcore
  · exact orderMessage_inv hreplica id horder

theorem RecoveryInv.taking (h : RecoveryInv p s) (hok : RecoveryChecked p s a)
    (hsigned : s.signed ⊆ s'.signed) {info : RequestInfo} {pick : ℕ} {n : Node}
    (hs : TakingStep p s a s'.node info pick n) :
    ReplicaInv (recoveryFacts p s') s.node.replica.id s'.node.replica := by
  have hreplica := (h.replica.moreSigned hsigned).congr hs.replica
  rcases hs.spec.replica with hcore | ⟨o, ho, hr⟩
  · exact hreplica.congr hcore
  rw [hr]
  obtain ⟨q, hq, hmarks⟩ := hs.taken
  have hsound : s.SoundVote p info.request := (hok.2 q hq).congr hmarks
  have hsender := (h.server.trusted hok.1 hs.trusted).mono hsigned
  have hvote : info.request.type = .commit → (recoveryFacts p s').vouches info.request.senderId
      info.request.seq info.request.hash := by
    intro htype
    exact ⟨(hsound htype).1, htype ▸ hsender.hasVoted⟩
  refine receive_inv hreplica (fun _ => True.intro) hvote ?_ ho
  intro htype hcomp main hmain q' hqseq hqhash _ queue hqueue q'' hq''
  rcases List.mem_append.1 hq'' with hold | hnew
  · exact hqueue q'' hold
  rw [List.mem_singleton.1 hnew]
  have hpool : n.replica.pool = s.node.replica.pool := hs.replica.pool
  have hhash : main.request.hash = info.request.hash := by
    rw [hpool] at hcomp hmain
    exact (hsound htype).2 hcomp main hmain
  exact backed_of_completes (hreplica.collectors _) (hvote htype) hcomp hmain hhash hqseq hqhash

/-- **Every step that meets the condition keeps the invariant.** -/
theorem RecoveryInv.step (h : RecoveryInv p s) (hok : RecoveryChecked p s a)
    (hs : s.step p a = some s') : RecoveryInv p s' := by
  obtain ⟨hnode, hsigned⟩ := Server.step_signed hs
  have hreplica : ReplicaInv (recoveryFacts p s') s.node.replica.id s'.node.replica := by
    rcases Server.nodeStep_cases hnode with hquiet | ⟨info, pick, n, htaking⟩
    · exact h.quiet hsigned hquiet
    · exact h.taking hok hsigned htaking
  refine ⟨h.server.step hok.1 hs, ?_⟩
  rw [hreplica.id]
  exact hreplica

theorem RecoveryInv.init (h : (serverSystem p).init s) : RecoveryInv p s := by
  refine ⟨.init h, ?_⟩
  obtain ⟨view, primary, id, _, _, rfl⟩ := h
  refine ⟨rfl, fun k => .fresh _ k, ?_, ?_, ?_⟩
  · rintro e ⟨⟩
  · rintro seq ⟨⟩
  · rintro q ⟨⟩

/-- **Remote recovery is safe**, if the messages in a response are checked: whatever is passed to the
executor, a quorum of replicas has signed COMMITs for it. -/
theorem recovery_safe (h : (serverSystem p).Reachable (RecoveryChecked p) s) : s.RecoverySafe p := by
  have hinv : RecoveryInv p s := by
    refine h.invariant (fun s hinit => .init hinit) ?_
    intro s a s' hinv hok hs
    exact hinv.step hok hs
  exact hinv.replica.executed

end

/-! ### Two runs of four replicas -/

/-- A PRE-PREPARE of replica 2 and the votes of three replicas, as they are logged. -/
def loggedRequests : List Request :=
  let logged : Request := { currentView := 2, seq := 1, hash := "a", isRecovery := true }
  { logged with type := .prePrepare, senderId := 2, data := "x" } ::
    [2, 3, 4].map (fun j => { logged with type := .prepare, senderId := j }) ++
    [2, 3, 4].map (fun j => { logged with type := .commit, senderId := j })

/-- The recovery response with these requests. -/
def loggedCodec : Codec where
  checkPoint := fun _ => none
  viewChange := fun _ => none
  newView := fun _ => none
  recovery := fun data =>
    if data = "log" then
      some ⟨loggedRequests, loggedRequests.map fun q => ⟨q.senderId, "signature"⟩⟩
    else none

def fourRecovering : ServerSetup := ⟨plainConfig 4 true, 5, loggedCodec, none⟩

/-- Replica 4 sends the response, and replica 1 takes the requests out of it. -/
def responseRun : List ServerAction :=
  let response : Request := { type := .recoveryDataResp, data := "log", senderId := 4 }
  [.sign 4 response, .process ⟨response, some ⟨4, "signature"⟩⟩ 0, .popRecovery] ++
    loggedRequests.map fun _ => .recover 0

/-- All replicas have signed their votes before. -/
def signedRun : List ServerAction :=
  loggedRequests.map (fun q => .sign q.senderId q.unmarked) ++ responseRun

theorem recovery_safe_signedRun :
    ∃ s, (serverSystem fourRecovering).run (serverStart fourRecovering) signedRun = some s ∧
      s.node.replica.commitQueue.map (fun q => (q.seq, q.hash)) = [(1, "a")] ∧
      s.RecoverySafe fourRecovering := by
  obtain ⟨s, hs, hreach, hqueue⟩ := (serverSystem fourRecovering).exists_run
    (C := RecoveryChecked fourRecovering)
    (P := fun s => s.node.replica.commitQueue.map (fun q => (q.seq, q.hash)) = [(1, "a")]) signedRun
    (serverStart_init fourRecovering) (by decide +kernel) (by decide +kernel)
  exact ⟨s, hs, hqueue, recovery_safe hreach⟩

/-- A request is passed to the executor, and no replica has signed a COMMIT. -/
theorem recovery_safe_fails :
    ∃ s, (serverSystem fourRecovering).Reachable TransitionSystem.always s ∧
      s.node.replica.commitQueue.map (fun q => (q.seq, q.hash)) = [(1, "a")] ∧
      s.signed.filter (fun e => e.2.type = .commit) = [] ∧ ¬ s.RecoverySafe fourRecovering := by
  obtain ⟨s, hreach, hqueue, hsigned⟩ := (serverSystem fourRecovering).exists_reachable_always
    (P := fun s => s.node.replica.commitQueue.map (fun q => (q.seq, q.hash)) = [(1, "a")] ∧
      s.signed.filter (fun e => e.2.type = .commit) = []) responseRun
    (serverStart_init fourRecovering) (by decide +kernel)
  refine ⟨s, hreach, hqueue, hsigned, ?_⟩
  intro h
  have hmem : (1, "a") ∈ s.node.replica.commitQueue.map fun q => (q.seq, q.hash) := by simp [hqueue]
  obtain ⟨q, hq, -⟩ := List.mem_map.1 hmem
  obtain ⟨Q, -, hcard, hall⟩ := h q hq
  -- a quorum has a member, and nobody has signed a COMMIT
  obtain ⟨j, hj⟩ := Finset.card_pos.1 (lt_of_lt_of_le (by decide : 0 < 3) hcard)
  obtain ⟨e, he, -, -, htype, -⟩ := hall j hj
  have hfilter : e ∈ s.signed.filter fun e => e.2.type = .commit :=
    List.mem_filter.2 ⟨he, by simp [htype]⟩
  rw [hsigned] at hfilter
  cases hfilter

end Pbft
