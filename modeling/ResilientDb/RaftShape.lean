/-
**The shape of the log.**

The log of a replica starts with a sentinel that stands for the truncated prefix.  Two points describe
what was cut off: the index and the term of the last truncated entry, and those of the last entry of the
snapshot, which is later by up to `snapshot_buffer_amount_` entries.  Every handler keeps both points,
the truncation of a prefix moves them apart, and the installation of a snapshot and a restart bring
them together.

A checkpoint is taken at a number that the executor was given, so the index passed to
`TruncatePrefixLocked` was committed once.  After the installation of an older snapshot it need not be
committed any more.

Main definitions:

* `Raft.Replica.LogShape` — the counters are in order, and the sentinel has the term of the last
  truncated entry;
* `Raft.Checkpointer`, `Raft.checkpointSystem` — a replica with the numbers its executor was given, with
  restarts;
* `Raft.KeepsShape`, `Raft.SameTermSnapshots` — the conditions;
* `Raft.Replica.RangeSafe` — no lookup fails while an `AppendEntries` message is handled.

Main results:

* `Raft.Replica.LogSteps.keepsStart` — what handlers leave alone;
* `Raft.log_shape` — the shape of the log over runs, and the assertions that follow from it;
* `Raft.prev_log_term_true` — the term that a message names is the one of the log;
* `Raft.range_safe_iff` — the messages that a follower survives.
-/

import ResilientDb.RaftDelivery
import ResilientDb.RaftElection
import ResilientDb.RaftMerge
import ResilientDb.RaftReplay

set_option autoImplicit false

namespace Raft

namespace Replica

variable {cfg : Config} {r r' : Replica} {ae : AppendEntries}

/-! ### What handlers leave alone -/

/-- The sentinel is the same, and so are the points behind which the log and the snapshot end. -/
structure KeepsStart (r r' : Replica) : Prop where
  head : r'.log.head? = r.log.head?
  snapshotLastIndex : r'.snapshotLastIndex = r.snapshotLastIndex
  snapshotLastTerm : r'.snapshotLastTerm = r.snapshotLastTerm
  truncatedLastIndex : r'.truncatedLastIndex = r.truncatedLastIndex
  truncatedLastTerm : r'.truncatedLastTerm = r.truncatedLastTerm

theorem KeepsStart.of_sameLog (h : SameLog r r') : KeepsStart r r' where
  head := congrArg List.head? h.log
  snapshotLastIndex := h.snapshotLastIndex
  snapshotLastTerm := h.snapshotLastTerm
  truncatedLastIndex := h.truncatedLastIndex
  truncatedLastTerm := h.truncatedLastTerm

theorem KeepsStart.trans {r'' : Replica} (h : KeepsStart r r') (h' : KeepsStart r' r'') :
    KeepsStart r r'' where
  head := h'.head.trans h.head
  snapshotLastIndex := h'.snapshotLastIndex.trans h.snapshotLastIndex
  snapshotLastTerm := h'.snapshotLastTerm.trans h.snapshotLastTerm
  truncatedLastIndex := h'.truncatedLastIndex.trans h.truncatedLastIndex
  truncatedLastTerm := h'.truncatedLastTerm.trans h.truncatedLastTerm

/-- A step on the log keeps its start. -/
theorem LogStep.keepsStart (hr : r.WellFormed) (h : LogStep r r') : KeepsStart r r' := by
  obtain ⟨first, rest, hlog⟩ := List.exists_cons_of_ne_nil hr.nonempty
  cases h with
  | same h => exact .of_sameLog h
  | addToLog entries h =>
    obtain rfl := addToLog_spec h
    exact ⟨by simp [hlog], rfl, rfl, rfl, rfl⟩
  | truncateLog firstIndex h =>
    obtain ⟨hcommit, _, rfl⟩ := truncateLog_cases h
    have htruncated := hr.truncated_le_commit
    -- the sentinel lies before the cut
    obtain ⟨k, hk⟩ : ∃ k, firstIndex - r.truncatedLastIndex = k + 1 :=
      ⟨firstIndex - r.truncatedLastIndex - 1, by omega⟩
    exact ⟨by simp [hlog, hk], rfl, rfl, rfl, rfl⟩
  | raiseCommitIndex leaderCommit h =>
    rw [← h, raiseCommitIndex_eq]
    exact ⟨rfl, rfl, rfl, rfl, rfl⟩
  | advanceCommitIndex cfg h =>
    obtain rfl | ⟨_, _, _, _, rfl⟩ := advanceCommitIndex_cases h
    · exact ⟨rfl, rfl, rfl, rfl, rfl⟩
    · exact ⟨rfl, rfl, rfl, rfl, rfl⟩
  | prepareCommit cfg requests h =>
    rw [prepareCommit_eq h]
    exact ⟨rfl, rfl, rfl, rfl, rfl⟩

theorem LogSteps.keepsStart (hr : r.WellFormed) (h : LogSteps r r') : KeepsStart r r' := by
  induction h with
  | refl => exact .of_sameLog (.refl r)
  | tail hsteps hstep ih => exact ih.trans (hstep.keepsStart (LogSteps.movesOn hsteps hr).1)

/-! ### The shape -/

/-- The shape of the log. -/
structure LogShape (r : Replica) : Prop extends WellFormed r where
  head : r.log.head?.map Entry.term = some r.truncatedLastTerm
  truncated_le_snapshot : r.truncatedLastIndex ≤ r.snapshotLastIndex
  snapshot_le : r.snapshotLastIndex ≤ r.commitIndex

namespace LogShape

theorem logSteps (hr : r.LogShape) (h : LogSteps r r') : r'.LogShape := by
  obtain ⟨hr', hadvances⟩ := h.movesOn hr.toWellFormed
  have hstart := h.keepsStart hr.toWellFormed
  refine ⟨hr', ?_, ?_, ?_⟩
  · rw [hstart.head, hstart.truncatedLastTerm]
    exact hr.head
  · rw [hstart.truncatedLastIndex, hstart.snapshotLastIndex]
    exact hr.truncated_le_snapshot
  · rw [hstart.snapshotLastIndex]
    exact hr.snapshot_le.trans hadvances.commitIndex

theorem of_sameLog (hr : r.LogShape) (h : SameLog r r') : r'.LogShape := hr.logSteps (.of_sameLog h)

theorem installSnapshot (r : Replica) (index term : ℕ) : (r.installSnapshot index term).LogShape where
  toWellFormed := wellFormed_installSnapshot r index term
  head := rfl
  truncated_le_snapshot := le_rfl
  snapshot_le := le_rfl

theorem construct (id : ℕ) : (construct id).LogShape where
  toWellFormed := wellFormed_construct id
  head := rfl
  truncated_le_snapshot := le_rfl
  snapshot_le := le_rfl

theorem recoverFromLogs {id : ℕ} {metadata : Metadata} {records : List WalRecord}
    (h : (Replica.construct id).recoverFromLogs metadata records = some r) : r.LogShape := by
  rw [Replica.recoverFromLogs_def] at h
  obtain ⟨r₀, h₀, h⟩ := Option.bind_eq_some_iff.1 h
  cases h₀
  refine LogShape.logSteps ⟨⟨List.cons_ne_nil _ _, ?_, le_rfl, le_rfl, le_rfl⟩, rfl, le_rfl, le_rfl⟩
    (LogSteps.replayAll h)
  exact Nat.add_comm _ _

end LogShape

variable {amount index : ℕ}

theorem truncationIndex_le (h : r.truncatedLastIndex < r.truncationIndex amount index) :
    r.truncationIndex amount index ≤ index := by
  unfold truncationIndex at h ⊢
  split_ifs at h ⊢ <;> omega

theorem LogShape.truncatePrefix {write : Bool} (hr : r.LogShape) (hindex : index ≤ r.lastCommitted)
    (h : r.truncatePrefix cfg amount index = some (r', write)) : r'.LogShape := by
  have hr' := (MovesOn.truncatePrefix h hr.toWellFormed).1
  obtain rfl | ⟨first, rest, term, term', hlog, hlt, _, _, _, hsame⟩ :=
    truncatePrefix_cases hr.toWellFormed h
  · exact hr
  · refine ⟨hr', ?_, ?_, ?_⟩
    · rw [hsame.log, hsame.truncatedLastTerm]
      rfl
    · rw [hsame.truncatedLastIndex, hsame.snapshotLastIndex]
      exact truncationIndex_le hlt
    · rw [hsame.snapshotLastIndex, hsame.commitIndex]
      exact hindex.trans hr.committed_le

/-! ### The assertions -/

namespace WellFormed

theorem addToLog_isSome (hr : r.WellFormed) (entries : List Entry) :
    (r.addToLog entries).isSome = true := by
  rw [addToLog_eq hr.last]
  rfl

theorem truncatePrefix_isSome (hr : r.WellFormed) (hindex : index ≤ r.lastCommitted) :
    (r.truncatePrefix cfg amount index).isSome = true := by
  unfold truncatePrefix
  dsimp only
  split_ifs with hle
  · rfl
  · have hlt := not_le.1 hle
    have htarget := truncationIndex_le hlt
    have hcommitted := hr.committed_le
    have hcommit := hr.commit_le
    have hlength := hr.log_length
    obtain ⟨first, rest, hlog⟩ := List.exists_cons_of_ne_nil hr.nonempty
    obtain ⟨term, hterm⟩ := hr.exists_logTermAt hlt.le (by omega)
    obtain ⟨term', hterm'⟩ := hr.exists_logTermAt (i := index) (by omega) (by omega)
    rw [hlog, List.length_cons] at hlength
    have hsize : r.lastLogIndex =
        (rest.drop (r.truncationIndex amount index - r.truncatedLastIndex)).length + 1 +
          r.truncationIndex amount index - 1 := by
      rw [List.length_drop]
      omega
    simp [htarget.trans hindex, hterm, hterm', hlog, setSnapshotLastIndexAndTerm, logicalLogSize, hsize]

end WellFormed

end Replica

theorem Delivers.within {cfg : Config} {r : Replica} {added : List Entry} {o : Outcome}
    (h : Delivers cfg r added o) : ∀ q ∈ o.applied, q.seq ≤ o.replica.lastCommitted := by
  cases h with
  | nothing happlied hlast =>
    rw [happlied]
    intro q hq
    cases hq
  | commits r₁ r₂ hextends hprepare hlast =>
    simp only [Replica.prepareCommit, bind, Option.bind_eq_some_iff] at hprepare
    obtain ⟨requests, hrequests, hprepare⟩ := hprepare
    obtain ⟨hreplica, happlied⟩ := Prod.mk.inj (Option.some.inj hprepare)
    intro q hq
    rw [← happlied] at hq
    have hle := (Replica.commitRequests_seq _ hrequests q hq).2
    rw [hlast, ← hreplica]
    dsimp only
    omega

/-! ### A replica that takes checkpoints -/

section

variable {σ : Type}

/-- A replica, and the numbers that its executor was given since the process was started. -/
structure Checkpointer (σ : Type) where
  server : Server σ
  executed : List ℕ

namespace Checkpointer

/-- The replica. -/
def replica (c : Checkpointer σ) : Replica := c.server.receiver.replica

/-- The replica has just been started. -/
def Starts (c : Checkpointer σ) : Prop := c.server.Starts ∧ c.executed = []

end Checkpointer

/-- What can happen to a replica and its process. -/
inductive CheckpointAction (σ : Type)
  | replica (a : ReplicaAction)
  /-- The process is started again, with the files, the storage, the metadata and the records that it
  finds. -/
  | restart (id : ℕ) (files : FileSystem SnapshotFile) (storage : σ) (metadata : Metadata)
      (records : List WalRecord)

/-- The index of a checkpoint. -/
def Call.checkpoint : Call → Option ℕ
  | .truncatePrefix snapshotIndex => some snapshotIndex
  | _ => none

variable {cfg : Config} {snapshotBufferAmount : ℕ} {c c' : Checkpointer σ} {a : CheckpointAction σ}

theorem Checkpointer.Starts.logShape (h : c.Starts) : c.replica.LogShape := by
  obtain ⟨⟨⟨id, hconstruct | ⟨metadata, records, hrecover⟩⟩, _⟩, _⟩ := h
  · rw [replica, hconstruct]
    exact .construct id
  · exact .recoverFromLogs hrecover

/-- The condition: snapshots are installed forward, and a restart finds records that describe a log
behind the snapshot. -/
def KeepsShape (c : Checkpointer σ) : CheckpointAction σ → Prop
  | .replica a => InstallsForward c.server a
  | .restart _ _ _ metadata records =>
    (applyRecords metadata.snapshotLastIndex [] records).isSome = true

instance (c : Checkpointer σ) (a : CheckpointAction σ) : Decidable (KeepsShape c a) := by
  unfold KeepsShape
  split <;> infer_instance

/-- The calls of `AddToLogLocked`, `TruncateLogLocked` and `TruncatePrefixLocked` that an action makes
pass their assertions.  The merge of entries makes calls of the first two. -/
def Checkpointer.Passes (cfg : Config) (snapshotBufferAmount : ℕ) (c : Checkpointer σ) :
    CheckpointAction σ → Prop
  | .replica (.handle (.receiveTransaction serialized _)) =>
    (c.replica.addToLog [⟨c.replica.currentTerm, serialized⟩]).isSome = true
  | .replica (.handle (.receiveAppendEntries ae)) =>
    c.replica.accepts ae = true → ((c.replica.acceptTerm ae).appendFrom ae).isSome = true
  | .replica (.handle (.receiveRequestVoteResponse rvr)) =>
    (({ c.replica with votes := c.replica.votes ++ [rvr.voterId] }.becomeLeader cfg).addToLog
      [⟨c.replica.currentTerm, "RAFT_NO_OP"⟩]).isSome = true
  | .replica (.handle (.truncatePrefix index)) =>
    index ∈ c.executed →
      (c.replica.truncatePrefix cfg snapshotBufferAmount index).isSome = true
  | .restart id _ _ metadata records =>
    ((Replica.construct id).recoverFromLogs metadata records).isSome = true
  | _ => True

/-- The invariant: the shape, and what was executed is committed. -/
structure ShapeInv (c : Checkpointer σ) : Prop where
  shape : c.replica.LogShape
  executed_le : ∀ k ∈ c.executed, k ≤ c.replica.lastCommitted

/-- Under the condition no assertion fails. -/
theorem ShapeInv.passes (h : ShapeInv c) (hok : KeepsShape c a) :
    c.Passes cfg snapshotBufferAmount a := by
  have hwf := h.shape.toWellFormed
  unfold Checkpointer.Passes
  split
  · exact hwf.addToLog_isSome _
  · rename_i ae
    intro haccept
    have hlog := Replica.acceptTerm_sameLog c.replica ae
    have hprev : ae.prevLogIndex ≤ (c.replica.acceptTerm ae).lastLogIndex :=
      hlog.lastLogIndex ▸ Replica.prevLogIndex_le_of_accepts hwf haccept
    have hshape := h.shape.of_sameLog hlog
    rw [Option.isSome_iff_ne_none, ne_eq, hshape.appendFrom_eq_none_iff hprev, not_lt]
    exact hshape.snapshot_le
  · rename_i rvr
    have hlead : Replica.SameLog c.replica
        ({ c.replica with votes := c.replica.votes ++ [rvr.voterId] }.becomeLeader cfg) :=
      ⟨rfl, rfl, rfl, rfl, rfl, rfl, rfl, rfl⟩
    exact (Replica.MovesOn.of_sameLog hlead hwf).1.addToLog_isSome _
  · intro hindex
    exact hwf.truncatePrefix_isSome (h.executed_le _ hindex)
  · rename_i id _ _ metadata records
    obtain ⟨log, hlog⟩ := Option.isSome_iff_exists.1 hok
    obtain ⟨r, hr, _⟩ := Replica.recoverFromLogs_eq id hlog
    rw [hr]
    rfl
  · trivial

/-- The condition: where a prefix is truncated, its last entry has the term of the last entry of the
snapshot. -/
def SameTermSnapshots (snapshotBufferAmount : ℕ) (c : Checkpointer σ) : CheckpointAction σ → Prop
  | .replica (.handle call) => ∀ index ∈ call.checkpoint,
      c.replica.truncatedLastIndex < c.replica.truncationIndex snapshotBufferAmount index →
        c.replica.logTermAt (c.replica.truncationIndex snapshotBufferAmount index) =
          c.replica.logTermAt index
  | _ => True

instance (snapshotBufferAmount : ℕ) (c : Checkpointer σ) (a : CheckpointAction σ) :
    Decidable (SameTermSnapshots snapshotBufferAmount c a) := by
  unfold SameTermSnapshots
  split <;> infer_instance

variable [Kv.Storage σ]

/-- One action.  A checkpoint is taken at a number that was executed. -/
def Checkpointer.step (cfg : Config) (snapshotBufferAmount : ℕ) (c : Checkpointer σ) :
    CheckpointAction σ → Option (Checkpointer σ)
  | .replica (.handle call) => do
      guard (∀ index ∈ call.checkpoint, index ∈ c.executed)
      let o ← c.replica.handle cfg snapshotBufferAmount call
      some ⟨c.server.setReplica o.replica, c.executed ++ o.applied.map Request.seq⟩
  | .replica (.snapshot a) =>
    (c.server.snapshotStep a).map fun s => { c with server := s.1 }
  | .restart id files storage metadata records => do
      let r ← (Replica.construct id).recoverFromLogs metadata records
      some ⟨⟨⟨r, fun _ => none, files, storage, metadata, []⟩, []⟩, []⟩

/-- The runs of a replica that takes checkpoints. -/
def checkpointSystem (σ : Type) [Kv.Storage σ] (cfg : Config) (snapshotBufferAmount : ℕ) :
    TransitionSystem (Checkpointer σ) (CheckpointAction σ) where
  init := Checkpointer.Starts
  step := Checkpointer.step cfg snapshotBufferAmount

/-- What an action does to the replica and to the numbers. -/
inductive Checkpointer.Moves (cfg : Config) (snapshotBufferAmount : ℕ) (c c' : Checkpointer σ) :
    CheckpointAction σ → Prop
  | steps (b : ReplicaAction) (hsteps : Replica.LogSteps c.replica c'.replica)
      (hexecuted : ∀ k ∈ c'.executed, k ∈ c.executed ∨ k ≤ c'.replica.lastCommitted) :
      Moves cfg snapshotBufferAmount c c' (.replica b)
  | truncates (index : ℕ) (write : Bool) (hindex : index ∈ c.executed)
      (h : c.replica.truncatePrefix cfg snapshotBufferAmount index = some (c'.replica, write))
      (hexecuted : ∀ k ∈ c'.executed, k ∈ c.executed ∨ k ≤ c'.replica.lastCommitted) :
      Moves cfg snapshotBufferAmount c c' (.replica (.handle (.truncatePrefix index)))
  | installs (b : ReplicaAction) (index term : ℕ)
      (hforward : InstallsForward c.server b → c.replica.commitIndex ≤ index)
      (h : c'.replica = c.replica.installSnapshot index term) (hexecuted : c'.executed = c.executed) :
      Moves cfg snapshotBufferAmount c c' (.replica b)
  | restarts (id : ℕ) (files : FileSystem SnapshotFile) (storage : σ) (metadata : Metadata)
      (records : List WalRecord)
      (h : (Replica.construct id).recoverFromLogs metadata records = some c'.replica)
      (hexecuted : c'.executed = []) :
      Moves cfg snapshotBufferAmount c c' (.restart id files storage metadata records)

open Checkpointer (Moves)

theorem Checkpointer.moves_of_handle {call : Call}
    (hs : c.step cfg snapshotBufferAmount (.replica (.handle call)) = some c') :
    Moves cfg snapshotBufferAmount c c' (.replica (.handle call)) := by
  simp only [Checkpointer.step, bind, Option.bind_eq_some_iff, Option.guard_eq_some'] at hs
  obtain ⟨_, hcheckpoint, o, ho, hs⟩ := hs
  cases hs
  have hexecuted : ∀ k ∈ c.executed ++ o.applied.map Request.seq,
      k ∈ c.executed ∨ k ≤ o.replica.lastCommitted := by
    intro k hk
    refine (List.mem_append.1 hk).imp_right fun hk => ?_
    obtain ⟨q, hq, rfl⟩ := List.mem_map.1 hk
    exact (Delivers.handle ho).within q hq
  obtain hsteps | ⟨index, write, rfl, htruncate⟩ := Replica.LogSteps.handle ho
  · exact .steps _ hsteps hexecuted
  · exact .truncates index write (hcheckpoint index rfl) htruncate hexecuted

theorem Checkpointer.moves_of_snapshot {a : SnapshotAction}
    (hs : c.step cfg snapshotBufferAmount (.replica (.snapshot a)) = some c') :
    Moves cfg snapshotBufferAmount c c' (.replica (.snapshot a)) := by
  obtain ⟨⟨s, response⟩, hstep, rfl⟩ := Option.map_eq_some_iff.1 hs
  obtain hsame | ⟨index, term, hforward, hinstall⟩ := Server.snapshotStep_cases hstep
  · exact .steps _ (.of_sameLog hsame) fun k hk => .inl hk
  · exact .installs _ index term hforward hinstall rfl

theorem Checkpointer.step_moves
    (hs : c.step cfg snapshotBufferAmount a = some c') : Moves cfg snapshotBufferAmount c c' a := by
  cases a with
  | replica b =>
    cases b with
    | handle call => exact moves_of_handle hs
    | snapshot a => exact moves_of_snapshot hs
  | restart id files storage metadata records =>
    obtain ⟨r, hr, hs⟩ := Option.bind_eq_some_iff.1 hs
    cases hs
    exact .restarts id files storage metadata records hr rfl

theorem Checkpointer.wellFormed {ok : Checkpointer σ → CheckpointAction σ → Prop}
    (h : (checkpointSystem σ cfg snapshotBufferAmount).Reachable ok c) : c.replica.WellFormed := by
  refine h.invariant (I := fun c => c.replica.WellFormed) ?_ ?_
  · intro c hc
    exact hc.logShape.toWellFormed
  · intro c a c' hwf _ hs
    cases step_moves hs with
    | steps b hsteps _ => exact (hsteps.movesOn hwf).1
    | truncates index write _ htruncate _ => exact (Replica.MovesOn.truncatePrefix htruncate hwf).1
    | installs b index term _ hinstall _ =>
      rw [hinstall]
      exact Replica.wellFormed_installSnapshot _ _ _
    | restarts id files storage metadata records hrecover _ =>
      exact Replica.wellFormed_recoverFromLogs hrecover

/-! ### The shape over runs -/

/-- Every step that meets the condition keeps the shape. -/
theorem ShapeInv.step (h : ShapeInv c) (hok : KeepsShape c a)
    (hs : c.step cfg snapshotBufferAmount a = some c') : ShapeInv c' := by
  have hwf := h.shape.toWellFormed
  cases Checkpointer.step_moves hs with
  | steps b hsteps hexecuted =>
    refine ⟨h.shape.logSteps hsteps, ?_⟩
    intro k hk
    obtain hk | hk := hexecuted k hk
    · exact (h.executed_le k hk).trans (hsteps.movesOn hwf).2.lastCommitted
    · exact hk
  | truncates index write hindex htruncate hexecuted =>
    refine ⟨h.shape.truncatePrefix (h.executed_le index hindex) htruncate, ?_⟩
    intro k hk
    obtain hk | hk := hexecuted k hk
    · exact (h.executed_le k hk).trans
        (Replica.MovesOn.truncatePrefix htruncate hwf).2.lastCommitted
    · exact hk
  | installs b index term hforward hinstall hexecuted =>
    refine ⟨hinstall ▸ .installSnapshot _ _ _, ?_⟩
    intro k hk
    rw [hexecuted] at hk
    rw [hinstall]
    exact (h.executed_le k hk).trans (hwf.committed_le.trans (hforward hok))
  | restarts id files storage metadata records hrecover hexecuted =>
    refine ⟨.recoverFromLogs hrecover, ?_⟩
    rw [hexecuted]
    intro k hk
    cases hk

/-- **The shape of the log.**  If snapshots are installed forward and restarts find records that fit,
the log has its shape in every state of a run, and no action fails an assertion on it. -/
theorem log_shape (h : (checkpointSystem σ cfg snapshotBufferAmount).Reachable KeepsShape c) :
    c.replica.LogShape ∧
      ∀ a, KeepsShape c a → c.Passes cfg snapshotBufferAmount a := by
  have hinv : ShapeInv c := by
    refine h.invariant (I := ShapeInv) ?_ ?_
    · intro c hc
      refine ⟨hc.logShape, ?_⟩
      rw [hc.2]
      intro k hk
      cases hk
    · intro c a c' hinv hok hs
      exact hinv.step hok hs
  exact ⟨hinv.shape, fun a hok => hinv.passes hok⟩

/-! ### The term before the entries of a message -/

variable {r : Replica}

theorem Replica.gatherAeFields_prevLogTerm {followerId : ℕ} {fields : AeFields}
    (h : r.gatherAeFields cfg followerId = some fields) :
    r.prevLogTerm fields.prevLogIndex = some fields.prevLogTerm := by
  simp only [gatherAeFields, bind, Option.bind_eq_some_iff] at h
  obtain ⟨prevLogTerm, hprev, _, _, h⟩ := h
  split at h
  · cases h
    exact hprev
  · obtain ⟨_, _, h⟩ := Option.bind_eq_some_iff.1 h
    cases h
    exact hprev

theorem Replica.recoverFromLogs_sameTerm {r r' : Replica} {m : Metadata} {records : List WalRecord}
    (h : r.recoverFromLogs m records = some r') : r'.snapshotLastTerm = r'.truncatedLastTerm := by
  obtain ⟨_, _, rfl⟩ := recoverFromLogs_frame h
  rfl

theorem Checkpointer.sameTerm (h : (checkpointSystem σ cfg snapshotBufferAmount).Reachable
      (SameTermSnapshots snapshotBufferAmount) c) :
    c.replica.WellFormed ∧ c.replica.snapshotLastTerm = c.replica.truncatedLastTerm := by
  refine h.invariant (I := fun c => c.replica.WellFormed ∧
    c.replica.snapshotLastTerm = c.replica.truncatedLastTerm) ?_ ?_
  · rintro c hc
    refine ⟨hc.logShape.toWellFormed, ?_⟩
    obtain ⟨⟨⟨id, hconstruct | ⟨metadata, records, hrecover⟩⟩, _⟩, _⟩ := hc
    · rw [replica, hconstruct]
      rfl
    · exact Replica.recoverFromLogs_sameTerm hrecover
  · rintro c a c' ⟨hwf, hterm⟩ hok hs
    cases step_moves hs with
    | steps b hsteps _ =>
      have hstart := hsteps.keepsStart hwf
      refine ⟨(hsteps.movesOn hwf).1, ?_⟩
      rw [hstart.snapshotLastTerm, hstart.truncatedLastTerm]
      exact hterm
    | truncates index write _ htruncate _ =>
      refine ⟨(Replica.MovesOn.truncatePrefix htruncate hwf).1, ?_⟩
      obtain heq | ⟨first, rest, term, term', _, hlt, _, htarget, hindex, hsame⟩ :=
        Replica.truncatePrefix_cases hwf htruncate
      · rw [heq]
        exact hterm
      · rw [hsame.snapshotLastTerm, hsame.truncatedLastTerm]
        have hequal := hok index rfl hlt
        rw [htarget, hindex] at hequal
        exact (Option.some.inj hequal).symm
    | installs b index term _ hinstall _ =>
      rw [hinstall]
      exact ⟨Replica.wellFormed_installSnapshot _ _ _, rfl⟩
    | restarts id files storage metadata records hrecover _ =>
      exact ⟨Replica.wellFormed_recoverFromLogs hrecover,
        Replica.recoverFromLogs_sameTerm hrecover⟩

/-- **The term before the entries.**  If no term changes between the end of a truncated prefix and the
end of its snapshot, a message from the truncated prefix on names the term of the log. -/
theorem prev_log_term_true (h : (checkpointSystem σ cfg snapshotBufferAmount).Reachable
      (SameTermSnapshots snapshotBufferAmount) c) {followerId : ℕ} {fields : AeFields}
    (hfields : c.replica.gatherAeFields cfg followerId = some fields)
    (hle : c.replica.truncatedLastIndex ≤ fields.prevLogIndex) :
    c.replica.logTermAt fields.prevLogIndex = some fields.prevLogTerm := by
  obtain ⟨hwf, hterm⟩ := Checkpointer.sameTerm h
  have hprev := Replica.gatherAeFields_prevLogTerm hfields
  unfold Replica.prevLogTerm at hprev
  split_ifs at hprev with hend
  · have hindex : fields.prevLogIndex = c.replica.truncatedLastIndex := le_antisymm hend hle
    have hlast := hwf.last
    have htruncated := hwf.truncated_le_last
    rw [hindex, Replica.logTermAt, if_pos ⟨le_rfl, by omega⟩, if_pos rfl, ← hterm]
    exact hprev
  · exact hprev

/-! ### Lookups of a follower -/

/-- No lookup is out of range: the handler comes to its end, or it stops at the assertion on the
snapshot index, which stands before the lookups of the merge. -/
def Replica.RangeSafe (cfg : Config) (r : Replica) (ae : AppendEntries) : Prop :=
  (r.receiveAppendEntries cfg ae).isSome = true ∨
    r.accepts ae = true ∧ r.commitIndex < r.snapshotLastIndex

instance (cfg : Config) (r : Replica) (ae : AppendEntries) : Decidable (r.RangeSafe cfg ae) :=
  inferInstanceAs (Decidable (_ ∨ _))

/-- **The messages that a follower survives.**  In every state of a replica, a message leads to a lookup
under the truncated prefix exactly if it is stale and its index lies below the truncated prefix. -/
theorem range_safe_iff
    (h : (checkpointSystem σ cfg snapshotBufferAmount).Reachable TransitionSystem.always c)
    (ae : AppendEntries) :
    c.replica.RangeSafe cfg ae ↔ ae.leaderId = c.replica.id ∨
      (ae.term < c.replica.currentTerm → c.replica.truncatedLastIndex ≤ ae.prevLogIndex) := by
  have hnone : c.replica.receiveAppendEntries cfg ae = none ↔ _ :=
    Replica.receiveAppendEntries_eq_none_iff (Checkpointer.wellFormed h)
  unfold Replica.RangeSafe
  rw [Option.isSome_iff_ne_none, ne_eq, hnone]
  constructor
  · rintro (hnot | ⟨haccept, _⟩)
    · by_contra hneg
      obtain ⟨hid, hneg⟩ := not_or.1 hneg
      obtain ⟨hstale, hlt⟩ := Classical.not_imp.1 hneg
      exact hnot ⟨hid, .inr ⟨hstale, not_le.1 hlt⟩⟩
    · right
      intro hstale
      exact absurd hstale (not_lt.2 (Replica.accepts_iff_currentTerm_le.1 haccept).1)
  · intro hsafe
    by_cases hsnapshot :
        c.replica.accepts ae = true ∧ c.replica.commitIndex < c.replica.snapshotLastIndex
    · exact .inr hsnapshot
    · left
      rintro ⟨hid, haccept | ⟨hstale, hlt⟩⟩
      · exact hsnapshot haccept
      · exact absurd (hsafe.resolve_left hid hstale) (not_le.2 hlt)

end

/-! ### Runs -/

/-- Replica 2 without a past. -/
def freshCheckpointer : Checkpointer Kv.MemoryDB := ⟨freshServer, []⟩

theorem freshCheckpointer_starts {amount : ℕ} :
    (checkpointSystem Kv.MemoryDB threeReplicas amount).init freshCheckpointer :=
  ⟨freshServer_starts, rfl⟩

/-- The state of replica 2 after a list of actions. -/
def checkpointerAfter (amount : ℕ) (actions : List ReplicaAction) :
    Option (Checkpointer Kv.MemoryDB) :=
  (checkpointSystem Kv.MemoryDB threeReplicas amount).run freshCheckpointer
    (actions.map CheckpointAction.replica)

/-- Two entries are committed, and a checkpoint is taken at the first. -/
def committedCheckpointRun : List ReplicaAction :=
  overtakenRun ++ [.handle (.truncatePrefix 1)]

theorem log_shape_committedCheckpointRun :
    ∃ c, checkpointerAfter 0 committedCheckpointRun = some c ∧ c.replica.truncatedLastIndex = 1 ∧
      c.replica.lastLogIndex = 2 ∧ c.replica.LogShape := by
  obtain ⟨c, hc, hreach, htruncated, hlast⟩ :=
    (checkpointSystem Kv.MemoryDB threeReplicas 0).exists_run (C := KeepsShape) (P := fun c =>
      c.replica.truncatedLastIndex = 1 ∧ c.replica.lastLogIndex = 2)
      (committedCheckpointRun.map .replica) freshCheckpointer_starts (by decide +kernel) (by decide +kernel)
  exact ⟨c, hc, htruncated, hlast, (log_shape hreach).1⟩

/-- Records of a log that a snapshot at index 5 has replaced: two entries, a truncation of the second
and another one. -/
def overtakenRecords : List WalRecord :=
  [.entry 1 ⟨1, "a"⟩, .entry 2 ⟨1, "b"⟩, .truncation 2 1, .entry 2 ⟨2, "c"⟩]

/-- Two entries are executed, an older snapshot takes the commit index back to 1, and the checkpoint at
index 2 comes to its end.  A restart behind a snapshot replays a truncation below it. -/
theorem log_shape_fails :
    ∃ c, (checkpointSystem Kv.MemoryDB threeReplicas 0).Reachable TransitionSystem.always c ∧
      ¬ c.Passes threeReplicas 0 (.replica (.handle (.truncatePrefix 2))) ∧
      ¬ c.Passes threeReplicas 0 (.restart 2 c.server.receiver.files c.server.receiver.storage
        ⟨2, none, 5, 2⟩ overtakenRecords) := by
  have hresult : (checkpointerAfter 0 (overtakenRun ++ lastChunkRun)).map
      (fun c => (c.executed, (c.replica.truncatePrefix threeReplicas 0 2).isSome)) =
      some ([1, 2], false) := by decide +kernel
  obtain ⟨c, hc, hsummary⟩ := Option.map_eq_some_iff.1 hresult
  obtain ⟨hexecuted, hnone⟩ := Prod.mk.inj hsummary
  refine ⟨c, TransitionSystem.reachable_of_run freshCheckpointer_starts hc, ?_, ?_⟩
  · intro hpasses
    have hsome := hpasses (by rw [hexecuted]; decide)
    rw [hnone] at hsome
    cases hsome
  · change ¬ ((Replica.construct 2).recoverFromLogs ⟨2, none, 5, 2⟩ overtakenRecords).isSome = true
    decide +kernel

/-- Replica 2 has an entry of term 1, is elected in term 2 by replica 3, and commits its no-op at index
2. -/
def newTermRun : List ReplicaAction :=
  [.handle (.receiveAppendEntries ⟨1, 1, 0, 0, [⟨1, "a"⟩], 0⟩), .handle .startElection,
    .handle (.receiveRequestVoteResponse ⟨2, true, 3⟩), .handle (.sendHeartbeat stillClock),
    .handle (.receiveAppendEntriesResponse ⟨2, true, 3, 1, 0, 0⟩ stillClock),
    .handle (.receiveAppendEntriesResponse ⟨2, true, 3, 2, 0, 0⟩ stillClock)]

theorem prev_log_term_true_newTermRun : ∃ c fields,
    checkpointerAfter 0 (newTermRun ++ [.handle (.truncatePrefix 1)]) = some c ∧
      c.replica.gatherAeFields threeReplicas 1 = some fields ∧
      c.replica.truncatedLastIndex = 1 ∧ fields.prevLogIndex = 1 ∧
      c.replica.logTermAt fields.prevLogIndex = some fields.prevLogTerm := by
  have hresult : (checkpointerAfter 0 (newTermRun ++ [.handle (.truncatePrefix 1)])).map
      (fun c => (c.replica.truncatedLastIndex,
        (c.replica.gatherAeFields threeReplicas 1).map AeFields.prevLogIndex)) =
      some (1, some 1) := by decide +kernel
  obtain ⟨c, hc, hsummary⟩ := Option.map_eq_some_iff.1 hresult
  obtain ⟨htruncated, hgather⟩ := Prod.mk.inj hsummary
  obtain ⟨fields, hfields, hprev⟩ := Option.map_eq_some_iff.1 hgather
  refine ⟨c, fields, hc, hfields, htruncated, hprev, prev_log_term_true
    ((TransitionSystem.Reachable.init freshCheckpointer_starts).run _ (by decide +kernel) hc)
    hfields ?_⟩
  rw [htruncated, hprev]

/-- With a buffer of one entry the prefix ends at index 1 and the snapshot at index 2.  The message to
replica 1 names the term of the snapshot for index 1. -/
theorem prev_log_term_true_fails : ∃ c fields,
    (checkpointSystem Kv.MemoryDB threeReplicas 1).Reachable TransitionSystem.always c ∧
      c.replica.role = .leader ∧ c.replica.gatherAeFields threeReplicas 1 = some fields ∧
      fields.prevLogIndex = c.replica.truncatedLastIndex ∧
      c.replica.logTermAt fields.prevLogIndex = some 1 ∧ fields.prevLogTerm = 2 := by
  have hrun : checkpointerAfter 1 (newTermRun ++ [.handle (.truncatePrefix 2)]) = some _ := rfl
  exact ⟨_, _, TransitionSystem.reachable_of_run freshCheckpointer_starts hrun, by decide +kernel, rfl,
    by decide +kernel, by decide +kernel, by decide +kernel⟩

/-- The message that brought the entries is delivered once more, below the truncated prefix. -/
theorem range_safe_iff_committedCheckpointRun :
    ∃ c, checkpointerAfter 0 committedCheckpointRun = some c ∧ c.replica.truncatedLastIndex = 1 ∧
      twoCommitted.prevLogIndex = 0 ∧ c.replica.RangeSafe threeReplicas twoCommitted := by
  obtain ⟨c, hc, hreach, htruncated, hterm⟩ :=
    (checkpointSystem Kv.MemoryDB threeReplicas 0).exists_run (P := fun c =>
      c.replica.truncatedLastIndex = 1 ∧ c.replica.currentTerm = 1)
      (committedCheckpointRun.map .replica) freshCheckpointer_starts
      (TransitionSystem.guarded_always _ _) (by decide +kernel)
  refine ⟨c, hc, htruncated, rfl, (range_safe_iff hreach twoCommitted).2 (.inr ?_)⟩
  rw [hterm]
  intro hstale
  exact absurd hstale (by decide)

/-- An entry is committed, replica 2 takes a checkpoint at it and starts an election. -/
def staleMessageRun : List LifeAction :=
  comeUp 1 ++ comeUp 2 ++ comeUp 3 ++ [.act (.receiveTransaction 1 "a" stillClock), .act (.finishTransaction 1 1),
    .act (.deliver 0 stillClock), .act (.deliver 2 stillClock),
    .act (.sendHeartbeat 1 stillClock), .act (.deliver 3 stillClock), .truncatePrefix 2 1,
    .act (.startElection 2)]

/-- The first message to replica 2 is delivered a second time: it is stale by now, and its index lies
under the truncated prefix. -/
theorem range_safe_fails : ∃ d p ae,
    (deploymentSystem recoverableReplicas).run (.start recoverableReplicas) staleMessageRun = some d ∧
      d.cluster.sent[0]? = some p ∧ p.dst = 2 ∧ p.message = .appendEntries ae ∧
      (d.cluster.replicas 2).truncatedLastIndex = 1 ∧ ae.prevLogIndex = 0 ∧
      ¬ (d.cluster.replicas 2).RangeSafe threeReplicas ae :=
  ⟨_, _, _, rfl, rfl, rfl, rfl, by decide +kernel, by decide +kernel, by decide +kernel⟩

end Raft
