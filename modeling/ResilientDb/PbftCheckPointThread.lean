/-
**The thread that follows the commits.**

The model of `UpdateCheckPointStatus` and of what other threads do to its state: `AddCommitState`,
`AddCommitData` and `SetLastCommit`.  The thread takes committed requests in the order of their numbers,
keeps those that come early, folds their hashes, and forgets the committed status of the numbers it has
passed.  An iteration of its loop is one step.

Main definitions:

* `Pbft.CheckPointThread`, `Pbft.CheckPointThread.updateCheckPointStatus`, `Pbft.threadSystem`;
* `Pbft.ClearsPassed`, `Pbft.SetsCurrent` — the conditions, on `SetLastCommit`;
* `Pbft.chain` — the fold of the hashes of the requests up to a number.

Main results:

* `Pbft.committed_status_iff` — a number that was committed is not so any more only while it is
  `last_seq_`;
* `Pbft.checkpoint_hash_chain` — every request that came is taken in its turn, and equal numbers have equal
  hashes.
-/

import ResilientDb.PbftReplica
import ResilientDb.Transition

set_option autoImplicit false

namespace Pbft

/-- The state of the thread.  `last_seq_` and `committed_status_` are those of the replica; `arrived` lists
the requests of all calls of `AddCommitData`, and `broadcast` the checkpoints. -/
structure CheckPointThread where
  replica : Replica
  lastHash : String := ""
  pendings : OrderedMap ℕ Request := .empty
  dataQueue : List Request := []
  arrived : List Request := []
  broadcast : List (ℕ × String) := []

/-- `CalculateHash`, the water mark and the hashes of the requests that are committed. -/
structure ThreadSetup where
  calculateHash : String → String
  waterMark : ℕ
  hashOf : ℕ → String

/-- `GetHash`. -/
def ThreadSetup.getHash (p : ThreadSetup) (h₁ h₂ : String) : String := p.calculateHash (h₁ ++ h₂)

/-- `SetLastCommit`. -/
def Replica.setLastCommit (r : Replica) (seq : ℕ) : Replica :=
  { r with lastSeq := seq, committedStatus := [] }

namespace CheckPointThread

/-- The request that an iteration works on: the first that has waited, if it is its turn, or else the next
of the queue. -/
def next (t : CheckPointThread) : Option (Request × CheckPointThread) :=
  match t.pendings.begin.filter fun e => e.2.seq = t.replica.lastSeq + 1 with
  | some e => some (e.2, { t with pendings := t.pendings.eraseBegin })
  | none =>
    match t.dataQueue with
    | [] => none
    | request :: rest => some (request, { t with dataQueue := rest })

/-- The request is the next one: its hash is folded, and maybe there is a checkpoint. -/
def advance (p : ThreadSetup) (t : CheckPointThread) (request : Request) : CheckPointThread :=
  let hash := p.getHash t.lastHash request.hash
  { t with
    replica := { t.replica with lastSeq := t.replica.lastSeq + 1 }.clearCommittedStatus request.seq
    lastHash := hash
    broadcast := if 0 < request.seq ∧ request.seq % p.waterMark = 0 then
      t.broadcast ++ [(request.seq, hash)] else t.broadcast }

/-- The rest of the iteration. -/
def take (p : ThreadSetup) (t : CheckPointThread) (request : Request) : CheckPointThread :=
  if request.seq = t.replica.lastSeq + 1 then t.advance p request
  else if t.replica.lastSeq + 1 < request.seq then
    { t with pendings := t.pendings.set request.seq request }
  else t

/-- An iteration of `UpdateCheckPointStatus`; `none` if it waits for the queue. -/
def updateCheckPointStatus (p : ThreadSetup) (t : CheckPointThread) : Option CheckPointThread :=
  t.next.map fun e => e.2.take p e.1

end CheckPointThread

/-- What can happen. -/
inductive ThreadAction
  | addCommitState (seq : ℕ)
  | addCommitData (request : Request)
  | updateCheckPointStatus
  | setLastCommit (seq : ℕ)

namespace CheckPointThread

/-- One action.  The requests that are handed over are those that are committed. -/
def step (p : ThreadSetup) (t : CheckPointThread) : ThreadAction → Option CheckPointThread
  | .addCommitState seq => some { t with replica := t.replica.addCommitState seq }
  | .addCommitData request => do
      guard (request.hash = p.hashOf request.seq)
      some { t with dataQueue := t.dataQueue ++ [request], arrived := t.arrived ++ [request] }
  | .updateCheckPointStatus => t.updateCheckPointStatus p
  | .setLastCommit seq => some { t with replica := t.replica.setLastCommit seq }

end CheckPointThread

/-- The runs of the thread. -/
def threadSystem (p : ThreadSetup) : TransitionSystem CheckPointThread ThreadAction where
  init t := ∃ r : Replica, r.lastSeq = 0 ∧ r.committedStatus = [] ∧ t = { replica := r }
  step := CheckPointThread.step p

/-! ### The committed status -/

/-- The condition: `SetLastCommit` does not go back, and forgets no number above the new one. -/
def ClearsPassed (t : CheckPointThread) : ThreadAction → Prop
  | .setLastCommit seq =>
    t.replica.lastSeq ≤ seq ∧ ∀ key ∈ t.replica.committedStatus, key ≤ seq
  | _ => True

instance (t : CheckPointThread) (a : ThreadAction) : Decidable (ClearsPassed t a) := by
  unfold ClearsPassed
  split <;> infer_instance

section

variable {p : ThreadSetup} {t t' : CheckPointThread} {a : ThreadAction} {request : Request} {seq : ℕ}

theorem next_replica {e : Request × CheckPointThread} (h : t.next = some e) :
    e.2.replica = t.replica := by
  unfold CheckPointThread.next at h
  split at h
  · cases h
    rfl
  · split at h
    · cases h
    · cases h
      rfl

theorem mem_clearCommittedStatus {r : Replica} {key : ℕ} (h : key ∈ r.committedStatus)
    (hseq : seq < key) : key ∈ (r.clearCommittedStatus seq).committedStatus := by
  unfold Replica.clearCommittedStatus
  split
  · exact h
  · exact List.mem_filter.2 ⟨h, by simpa using hseq⟩

theorem advance_lastSeq (p : ThreadSetup) (t : CheckPointThread) (request : Request) :
    (t.advance p request).replica.lastSeq = t.replica.lastSeq + 1 := by
  unfold CheckPointThread.advance Replica.clearCommittedStatus
  split <;> rfl

/-- The number is passed, or it is recorded. -/
def CheckPointThread.Settled (t : CheckPointThread) (seq : ℕ) : Prop :=
  seq ≤ t.replica.lastSeq ∨ seq ∈ t.replica.committedStatus

theorem isCommitted_iff {r : Replica} (hseq : seq < 2 ^ 32) :
    r.isCommitted seq = true ↔ seq < r.lastSeq ∨ seq ∈ r.committedStatus := by
  rw [Replica.isCommitted, Replica.statusKey, Nat.mod_eq_of_lt hseq, decide_eq_true_iff]

theorem CheckPointThread.Settled.take (h : t.Settled seq) : (t.take p request).Settled seq := by
  unfold CheckPointThread.take
  split_ifs with hnext
  · rw [Settled, advance_lastSeq]
    by_cases hle : seq ≤ t.replica.lastSeq + 1
    · exact .inl hle
    · refine .inr (mem_clearCommittedStatus (h.resolve_left fun hold => ?_) ?_)
      · omega
      · omega
  · exact h
  · exact h

theorem CheckPointThread.Settled.step (h : t.Settled seq) (hok : ClearsPassed t a)
    (hstep : t.step p a = some t') : t'.Settled seq := by
  cases a with
  | addCommitState new =>
    cases hstep
    exact h.imp_right (List.mem_cons_of_mem _)
  | addCommitData request =>
    obtain ⟨-, -, hstep⟩ := Option.bind_eq_some_iff.1 hstep
    cases hstep
    exact h
  | updateCheckPointStatus =>
    obtain ⟨e, he, rfl⟩ := Option.map_eq_some_iff.1 hstep
    have hsame : e.2.Settled seq := by
      rw [Settled, next_replica he]
      exact h
    exact hsame.take
  | setLastCommit new =>
    cases hstep
    exact .inl (h.elim (fun hle => hle.trans hok.1) (hok.2 seq))

theorem CheckPointThread.Settled.run : ∀ (as : List ThreadAction) {t : CheckPointThread}, t.Settled seq →
    (threadSystem p).Guarded ClearsPassed t as → (threadSystem p).run t as = some t' → t'.Settled seq
  | [], t, h, _, hrun => by
    cases hrun
    exact h
  | a :: as, t, h, hok, hrun => by
    obtain ⟨t₁, hstep, hrun⟩ := Option.bind_eq_some_iff.1 hrun
    have hrest := hok.2
    rw [hstep] at hrest
    exact Settled.run as (h.step hok.1 hstep) hrest hrun

end

/-- **The committed status.**  A number that was committed in a state is committed in a later one, unless
it is `last_seq_` there and was not recorded again. -/
theorem committed_status_iff (p : ThreadSetup) {t t' : CheckPointThread} {as : List ThreadAction}
    (hok : (threadSystem p).Guarded ClearsPassed t as) (hrun : (threadSystem p).run t as = some t')
    {seq : ℕ} (hseq : seq < 2 ^ 32) (h : t.replica.isCommitted seq = true) :
    t'.replica.isCommitted seq = true ↔
      t'.replica.lastSeq ≠ seq ∨ seq ∈ t'.replica.committedStatus := by
  have hsettled : t'.Settled seq :=
    CheckPointThread.Settled.run as (((isCommitted_iff hseq).1 h).imp_left le_of_lt) hok hrun
  rw [isCommitted_iff hseq]
  constructor
  · exact fun hnow => hnow.imp_left ne_of_gt
  · rintro (hne | hmem)
    · exact hsettled.imp_left fun hle => lt_of_le_of_ne hle hne.symm
    · exact .inr hmem

/-- Hashes that are concatenated, and a checkpoint at every second number. -/
def plainThread : ThreadSetup := ⟨id, 2, fun seq => toString seq⟩

/-- A replica of a cluster with four replicas. -/
def threadStart : CheckPointThread :=
  { replica := .construct ⟨4, true, 1, false, fun _ => false, fun _ => true, fun _ _ => true,
    fun _ _ => none⟩ 1 1 1 }

/-- A request is committed, executed and seen by the thread. -/
def commitOf (seq : ℕ) : List ThreadAction :=
  [.addCommitState seq, .addCommitData { seq := seq, hash := toString seq }, .updateCheckPointStatus]

theorem committed_status_iff_twoCommits : ∃ t t',
    (threadSystem plainThread).run threadStart [.addCommitState 1] = some t ∧
    (threadSystem plainThread).run t ((commitOf 1).tail ++ commitOf 2) = some t' ∧
    t'.replica.isCommitted 1 = true := by
  have hok : (threadSystem plainThread).Guarded ClearsPassed
      { threadStart with replica := threadStart.replica.addCommitState 1 }
      ((commitOf 1).tail ++ commitOf 2) := by decide +kernel
  exact ⟨_, _, rfl, rfl, (committed_status_iff plainThread hok rfl (by norm_num) (by decide)).2
    (.inl (by decide +kernel))⟩

/-- The thread sees the request that was just committed, and its status is gone. -/
theorem committed_status_fails : ∃ t t',
    (threadSystem plainThread).run threadStart [.addCommitState 1] = some t ∧
    t.replica.isCommitted 1 = true ∧
    (threadSystem plainThread).run t (commitOf 1).tail = some t' ∧
    t'.replica.isCommitted 1 = false :=
  ⟨_, _, rfl, by decide, rfl, by decide +kernel⟩

/-! ### The chain of hashes -/

/-- The fold of the hashes of the requests up to a number. -/
def chain (p : ThreadSetup) : ℕ → String
  | 0 => ""
  | seq + 1 => p.getHash (chain p seq) (p.hashOf (seq + 1))

/-- The condition: `SetLastCommit` is called with the number that `last_seq_` is. -/
def SetsCurrent (t : CheckPointThread) : ThreadAction → Prop
  | .setLastCommit seq => seq = t.replica.lastSeq
  | _ => True

instance (t : CheckPointThread) (a : ThreadAction) : Decidable (SetsCurrent t a) := by
  unfold SetsCurrent
  split <;> infer_instance

/-- What is folded is the chain, and what waits is later. -/
structure ChainInv (p : ThreadSetup) (t : CheckPointThread) : Prop where
  lastHash : t.lastHash = chain p t.replica.lastSeq
  broadcast : ∀ e ∈ t.broadcast, e.2 = chain p e.1
  taken : ∀ seq, 1 ≤ seq → seq ≤ t.replica.lastSeq → ∃ request ∈ t.arrived, request.seq = seq
  queue : ∀ request ∈ t.dataQueue, request ∈ t.arrived ∧ request.hash = p.hashOf request.seq
  pending : ∀ e ∈ t.pendings.entries, e.1 = e.2.seq ∧ t.replica.lastSeq < e.1 ∧ e.2 ∈ t.arrived ∧
    e.2.hash = p.hashOf e.1

/-- A request is folded, or it waits in its place. -/
def CheckPointThread.Kept (t : CheckPointThread) (request : Request) : Prop :=
  request.seq ≤ t.replica.lastSeq ∨ request ∈ t.dataQueue ∨ request.seq ∈ t.pendings.keys

section

variable {p : ThreadSetup} {t t' : CheckPointThread} {a : ThreadAction} {request : Request} {seq : ℕ}

/-- Requests wait in order, so only the first may be the next one. -/
theorem ChainInv.next_notMem (h : ChainInv p t)
    (hbegin : t.pendings.begin.filter (fun e => e.2.seq = t.replica.lastSeq + 1) = none) :
    t.replica.lastSeq + 1 ∉ t.pendings.keys := by
  intro hmem
  obtain ⟨e, he, hkey⟩ := List.mem_map.1 hmem
  have hsorted := t.pendings.sorted
  cases hentries : t.pendings.entries with
  | nil =>
    rw [hentries] at he
    exact absurd he List.not_mem_nil
  | cons first rest =>
    have hfirst := h.pending first (hentries ▸ List.mem_cons_self)
    rw [OrderedMap.begin, hentries, List.head?_cons] at hbegin
    have hne : first.2.seq ≠ t.replica.lastSeq + 1 := by simpa using hbegin
    rw [hentries, List.pairwise_cons] at hsorted
    rw [hentries] at he
    rcases List.mem_cons.1 he with rfl | he
    · exact hne (hfirst.1.symm.trans hkey)
    · have hlt := hsorted.1 e he
      omega

/-- What an iteration works on is taken out; everything else stays where it is. -/
theorem ChainInv.next (h : ChainInv p t) (hnext : t.next = some (request, t')) :
    ChainInv p t' ∧ t'.arrived = t.arrived ∧
      (request ∈ t'.arrived ∧ request.hash = p.hashOf request.seq) ∧
      t'.replica.lastSeq + 1 ∉ t'.pendings.keys ∧
      ∀ r, t.Kept r → r.seq = request.seq ∨ t'.Kept r := by
  unfold CheckPointThread.next at hnext
  split at hnext
  · rename_i e he
    obtain ⟨rfl, rfl⟩ := Prod.mk.inj (Option.some.inj hnext)
    obtain ⟨hbegin, hturn⟩ := Option.filter_eq_some_iff.1 he
    obtain ⟨rest, hentries⟩ := List.head?_eq_some_iff.1 hbegin
    have hfirst := h.pending e (hentries ▸ List.mem_cons_self)
    have hsorted := t.pendings.sorted
    rw [hentries, List.pairwise_cons] at hsorted
    have hrest : t.pendings.eraseBegin.entries = rest := congrArg List.tail hentries
    have hkeys : t.pendings.keys = e.1 :: t.pendings.eraseBegin.keys := by
      rw [OrderedMap.keys, OrderedMap.keys, hentries, hrest, List.map_cons]
    refine ⟨⟨h.lastHash, h.broadcast, h.taken, h.queue, fun e' he' =>
      h.pending e' (List.mem_of_mem_tail he')⟩, rfl, ⟨hfirst.2.2.1, hfirst.1 ▸ hfirst.2.2.2⟩, ?_, ?_⟩
    · intro hmem
      obtain ⟨e', he', hkey⟩ := List.mem_map.1 hmem
      have hkey : e'.1 = t.replica.lastSeq + 1 := hkey
      have hlt := hsorted.1 e' (hrest ▸ he')
      omega
    · rintro r (hle | hmem | hmem)
      · exact .inr (.inl hle)
      · exact .inr (.inr (.inl hmem))
      · rw [hkeys] at hmem
        rcases List.mem_cons.1 hmem with hkey | hmem
        · exact .inl (hkey.trans hfirst.1)
        · exact .inr (.inr (.inr hmem))
  · rename_i hbegin
    split at hnext
    · cases hnext
    · rename_i first rest hqueue
      obtain ⟨rfl, rfl⟩ := Prod.mk.inj (Option.some.inj hnext)
      refine ⟨⟨h.lastHash, h.broadcast, h.taken, fun r hr =>
        h.queue r (hqueue ▸ List.mem_cons_of_mem _ hr), h.pending⟩, rfl,
        h.queue first (hqueue ▸ List.mem_cons_self), h.next_notMem hbegin, ?_⟩
      rintro r (hle | hmem | hmem)
      · exact .inr (.inl hle)
      · rw [hqueue] at hmem
        rcases List.mem_cons.1 hmem with rfl | hmem
        · exact .inl rfl
        · exact .inr (.inr (.inl hmem))
      · exact .inr (.inr (.inr hmem))

/-- The request that is worked on is folded if it is the next one, and waits if it is a later one. -/
theorem ChainInv.take (h : ChainInv p t)
    (hrequest : request ∈ t.arrived ∧ request.hash = p.hashOf request.seq)
    (hnext : t.replica.lastSeq + 1 ∉ t.pendings.keys) :
    ChainInv p (t.take p request) ∧ (t.take p request).arrived = t.arrived ∧
      ∀ r, r.seq = request.seq ∨ t.Kept r → (t.take p request).Kept r := by
  unfold CheckPointThread.take
  split_ifs with hturn hlater
  · have hhash : p.getHash t.lastHash request.hash = chain p (t.replica.lastSeq + 1) := by
      rw [chain, ← hturn, hrequest.2, h.lastHash]
    refine ⟨⟨?_, ?_, ?_, h.queue, ?_⟩, rfl, ?_⟩
    · rw [advance_lastSeq]
      exact hhash
    · intro e he
      unfold CheckPointThread.advance at he
      split_ifs at he
      · rcases List.mem_append.1 he with he | he
        · exact h.broadcast e he
        · obtain rfl := List.mem_singleton.1 he
          exact hhash.trans (by rw [hturn])
      · exact h.broadcast e he
    · intro seq hpos hle
      rw [advance_lastSeq] at hle
      rcases Nat.lt_or_ge t.replica.lastSeq seq with hlt | hold
      · exact ⟨request, hrequest.1, by omega⟩
      · exact h.taken seq hpos hold
    · intro e he
      obtain ⟨hkey, hlt, hmem⟩ := h.pending e he
      rw [advance_lastSeq]
      refine ⟨hkey, ?_, hmem⟩
      exact lt_of_le_of_ne hlt fun heq => hnext (heq ▸ List.mem_map_of_mem he)
    · rintro r hr
      rw [CheckPointThread.Kept, advance_lastSeq]
      rcases hr with heq | hle | hkept
      · exact .inl (heq.trans hturn).le
      · exact .inl (hle.trans (Nat.le_succ _))
      · exact .inr hkept
  · refine ⟨⟨h.lastHash, h.broadcast, h.taken, h.queue, ?_⟩, rfl, ?_⟩
    · rintro ⟨key, r⟩ he
      rcases OrderedMap.mem_set.1 he with ⟨rfl, rfl⟩ | ⟨-, he⟩
      · exact ⟨rfl, (Nat.lt_succ_self _).trans hlater, hrequest.1, hrequest.2⟩
      · exact h.pending _ he
    · rintro r (heq | hle | hmem | hmem)
      · exact .inr (.inr ((OrderedMap.mem_keys_insertWith _ _ _ _).2 (.inl heq)))
      · exact .inl hle
      · exact .inr (.inl hmem)
      · exact .inr (.inr ((OrderedMap.mem_keys_insertWith _ _ _ _).2 (.inr hmem)))
  · refine ⟨h, rfl, ?_⟩
    rintro r (heq | hkept)
    · exact .inl (by omega)
    · exact hkept

/-- The invariant of runs. -/
def Chained (p : ThreadSetup) (t : CheckPointThread) : Prop :=
  ChainInv p t ∧ ∀ request ∈ t.arrived, t.Kept request

theorem Chained.update (h : Chained p t) (hstep : t.updateCheckPointStatus p = some t') :
    Chained p t' := by
  obtain ⟨⟨request, t₁⟩, hnext, rfl⟩ := Option.map_eq_some_iff.1 hstep
  obtain ⟨hinv, harrived, hrequest, hturn, hkept⟩ := h.1.next hnext
  obtain ⟨hinv', harrived', hkept'⟩ := hinv.take hrequest hturn
  refine ⟨hinv', fun r hr => hkept' r (hkept r (h.2 r ?_))⟩
  rw [← harrived, ← harrived']
  exact hr

theorem Chained.step (h : Chained p t) (hok : SetsCurrent t a) (hstep : t.step p a = some t') :
    Chained p t' := by
  obtain ⟨hinv, hkept⟩ := h
  cases a with
  | addCommitState seq =>
    cases hstep
    exact ⟨⟨hinv.lastHash, hinv.broadcast, hinv.taken, hinv.queue, hinv.pending⟩, hkept⟩
  | addCommitData request =>
    obtain ⟨_, hhash, hstep⟩ := Option.bind_eq_some_iff.1 hstep
    have hhash : request.hash = p.hashOf request.seq := by simpa using hhash
    cases hstep
    refine ⟨⟨hinv.lastHash, hinv.broadcast, fun seq hpos hle => ?_, fun r hr => ?_, fun e he => ?_⟩,
      fun r hr => ?_⟩
    · obtain ⟨r, hr, hseq⟩ := hinv.taken seq hpos hle
      exact ⟨r, List.mem_append_left _ hr, hseq⟩
    · rcases List.mem_append.1 hr with hr | hr
      · exact ⟨List.mem_append_left _ (hinv.queue r hr).1, (hinv.queue r hr).2⟩
      · obtain rfl := List.mem_singleton.1 hr
        exact ⟨List.mem_append_right _ hr, hhash⟩
    · obtain ⟨hkey, hlt, hmem, heq⟩ := hinv.pending e he
      exact ⟨hkey, hlt, List.mem_append_left _ hmem, heq⟩
    · rcases List.mem_append.1 hr with hr | hr
      · exact (hkept r hr).imp_right (Or.imp_left (List.mem_append_left _))
      · exact .inr (.inl (List.mem_append_right _ hr))
  | updateCheckPointStatus => exact Chained.update ⟨hinv, hkept⟩ hstep
  | setLastCommit seq =>
    cases hstep
    obtain rfl : seq = t.replica.lastSeq := hok
    exact ⟨⟨hinv.lastHash, hinv.broadcast, hinv.taken, hinv.queue, hinv.pending⟩, hkept⟩

theorem Chained.of_reachable (h : (threadSystem p).Reachable SetsCurrent t) : Chained p t := by
  refine h.invariant (I := Chained p) ?_ fun s a s' hs hok hstep => hs.step hok hstep
  rintro t ⟨r, hlast, -, rfl⟩
  refine ⟨⟨by rw [hlast]; rfl, by simp, fun seq hpos hle => ?_, by simp, by simp [OrderedMap.empty]⟩,
    by simp⟩
  have hle : seq ≤ r.lastSeq := hle
  omega

/-- The loop, until it waits for the queue. -/
def CheckPointThread.drain (p : ThreadSetup) : ℕ → CheckPointThread → CheckPointThread
  | 0, t => t
  | n + 1, t => ((t.updateCheckPointStatus p).map (drain p n)).getD t

/-- The iterations that are left, at most. -/
def CheckPointThread.work (t : CheckPointThread) : ℕ :=
  2 * t.dataQueue.length + t.pendings.entries.length

theorem work_take_le (p : ThreadSetup) (t : CheckPointThread) (request : Request) :
    (t.take p request).work ≤ t.work + 1 := by
  unfold CheckPointThread.take
  split_ifs
  · exact Nat.le_succ _
  · have hlen := OrderedMap.length_set_le t.pendings request.seq request
    simp only [CheckPointThread.work]
    omega
  · exact Nat.le_succ _

theorem work_lt (h : t.updateCheckPointStatus p = some t') : t'.work < t.work := by
  obtain ⟨⟨request, t₁⟩, hnext, rfl⟩ := Option.map_eq_some_iff.1 h
  unfold CheckPointThread.next at hnext
  split at hnext
  · rename_i e he
    cases hnext
    obtain ⟨hbegin, hturn⟩ := Option.filter_eq_some_iff.1 he
    obtain ⟨rest, hentries⟩ := List.head?_eq_some_iff.1 hbegin
    -- the request has waited for its turn, so it does not wait again
    rw [CheckPointThread.take, if_pos (by simpa using hturn)]
    simp [CheckPointThread.work, CheckPointThread.advance, OrderedMap.eraseBegin, hentries]
  · split at hnext
    · cases hnext
    · rename_i first rest hqueue
      cases hnext
      refine (Nat.lt_succ_of_le (work_take_le p _ _)).trans_le ?_
      simp only [CheckPointThread.work, hqueue, List.length_cons]
      omega

theorem update_arrived (h : t.updateCheckPointStatus p = some t') : t'.arrived = t.arrived := by
  obtain ⟨⟨request, t₁⟩, hnext, rfl⟩ := Option.map_eq_some_iff.1 h
  have hnext : t₁.arrived = t.arrived := by
    unfold CheckPointThread.next at hnext
    split at hnext
    · obtain ⟨-, rfl⟩ := Prod.mk.inj (Option.some.inj hnext)
      rfl
    · split at hnext
      · cases hnext
      · obtain ⟨-, rfl⟩ := Prod.mk.inj (Option.some.inj hnext)
        rfl
  unfold CheckPointThread.take
  split_ifs <;> exact hnext

/-- With this many iterations the loop comes to wait. -/
theorem Chained.drain : ∀ (n : ℕ) {t : CheckPointThread}, t.work ≤ n → Chained p t →
    Chained p (t.drain p n) ∧ (t.drain p n).next = none ∧ (t.drain p n).arrived = t.arrived
  | n, t, hwork, h => by
    cases hstep : t.updateCheckPointStatus p with
    | none =>
      have hdrain : t.drain p n = t := by
        cases n with
        | zero => rfl
        | succ n => rw [CheckPointThread.drain, hstep, Option.map_none, Option.getD_none]
      rw [hdrain]
      exact ⟨h, Option.map_eq_none_iff.1 hstep, rfl⟩
    | some t' =>
      have hlt := work_lt hstep
      cases n with
      | zero => omega
      | succ n =>
        rw [CheckPointThread.drain, hstep, ← update_arrived hstep]
        exact Chained.drain n (by omega) (h.update hstep)

theorem next_eq_none (h : t.next = none) : t.dataQueue = [] ∧
    t.pendings.begin.filter (fun e => e.2.seq = t.replica.lastSeq + 1) = none := by
  unfold CheckPointThread.next at h
  split at h
  · cases h
  · rename_i hbegin
    split at h
    · rename_i hqueue
      exact ⟨hqueue, hbegin⟩
    · cases h

end

/-- **The chain of checkpoint hashes.**  When the loop has taken what it can, it has taken the requests up
to the first number that has not come, and the last hash is the fold of theirs.  All checkpoints of all
replicas with the same requests have the hashes of that fold. -/
theorem checkpoint_hash_chain {p : ThreadSetup} {t : CheckPointThread}
    (h : (threadSystem p).Reachable SetsCurrent t) {p' : ThreadSetup} {t' : CheckPointThread}
    (h' : (threadSystem p').Reachable SetsCurrent t')
    (hhash : p'.calculateHash = p.calculateHash) (hsame : p'.hashOf = p.hashOf) :
    (∃ n, (t.drain p n).next = none ∧ (t.drain p n).arrived = t.arrived ∧
      (∀ seq, 1 ≤ seq → seq ≤ (t.drain p n).replica.lastSeq → ∃ request ∈ t.arrived, request.seq = seq) ∧
      (∀ request ∈ t.arrived, request.seq ≠ (t.drain p n).replica.lastSeq + 1) ∧
      (t.drain p n).lastHash = chain p (t.drain p n).replica.lastSeq) ∧
    ∀ e ∈ t.broadcast, ∀ e' ∈ t'.broadcast, e.1 = e'.1 → e.2 = e'.2 := by
  constructor
  · obtain ⟨⟨hinv, hkept⟩, hnext, harrived⟩ := (Chained.of_reachable h).drain t.work le_rfl
    obtain ⟨hqueue, hbegin⟩ := next_eq_none hnext
    refine ⟨t.work, hnext, harrived, harrived ▸ hinv.taken, fun request hmem hturn => ?_, hinv.lastHash⟩
    rcases hkept request (harrived ▸ hmem) with hle | hwaits | hwaits
    · omega
    · rw [hqueue] at hwaits
      exact absurd hwaits List.not_mem_nil
    · exact hinv.next_notMem hbegin (hturn ▸ hwaits)
  · intro e he e' he' hseq
    have hchain : ∀ seq, chain p' seq = chain p seq := by
      intro seq
      induction seq with
      | zero => rfl
      | succ seq ih => rw [chain, chain, ih, ThreadSetup.getHash, ThreadSetup.getHash, hhash, hsame]
    rw [(Chained.of_reachable h).1.broadcast e he, (Chained.of_reachable h').1.broadcast e' he', hchain,
      hseq]

/-- Two requests in the wrong order, the second of them twice. -/
def crossedRun : List ThreadAction :=
  [.addCommitData { seq := 2, hash := "2" }, .updateCheckPointStatus, .setLastCommit 0,
    .addCommitData { seq := 1, hash := "1" }, .addCommitData { seq := 2, hash := "2" },
    .updateCheckPointStatus, .updateCheckPointStatus]

theorem checkpoint_hash_chain_crossedRun : ∃ t,
    (threadSystem plainThread).run threadStart crossedRun = some t ∧ t.broadcast = [(2, "12")] ∧
    ∃ n, (t.drain plainThread n).next = none ∧
      (t.drain plainThread n).lastHash = chain plainThread (t.drain plainThread n).replica.lastSeq := by
  have hinit : (threadSystem plainThread).init threadStart := ⟨_, rfl, rfl, rfl⟩
  have hok : (threadSystem plainThread).Guarded SetsCurrent threadStart crossedRun := by decide +kernel
  have hreach := (TransitionSystem.Reachable.init hinit).run crossedRun hok rfl
  obtain ⟨⟨n, hnext, -, -, -, hlast⟩, -⟩ := checkpoint_hash_chain hreach hreach rfl rfl
  exact ⟨_, rfl, by decide +kernel, n, hnext, hlast⟩

/-- A replica that has not restarted, and one that has restarted from a checkpoint at 2. -/
theorem checkpoint_hash_chain_fails : ∃ t t',
    (threadSystem plainThread).run threadStart (commitOf 1 ++ commitOf 2 ++ commitOf 3 ++ commitOf 4) =
      some t ∧
    (threadSystem plainThread).run threadStart ([.setLastCommit 2] ++ commitOf 3 ++ commitOf 4) =
      some t' ∧
    (4, "1234") ∈ t.broadcast ∧ (4, "34") ∈ t'.broadcast ∧
    t'.lastHash ≠ chain plainThread t'.replica.lastSeq :=
  ⟨_, _, rfl, rfl, by decide +kernel, by decide +kernel, by decide +kernel⟩

end Pbft
