/-
**The commit index does not go back.**

The counters of a replica fit its log (`Raft.Replica.WellFormed`), and every function that touches the
log moves them forward and keeps the entries up to the commit index, except for those that fall under
the truncated prefix (`Raft.Replica.Advances`).  The installation of a snapshot is different: it sets
the counters to the index of the snapshot, whatever they are.  That the snapshot is not older than the
log was checked when its first chunk came in, and entries may have been committed since.

Main definitions:

* `Raft.Replica.WellFormed`, `Raft.Replica.Advances` — what is kept, and what a step may do;
* `Raft.Replica.LogStep`, `Raft.Replica.LogSteps` — the functions that handlers are made of;
* `Raft.Call`, `Raft.Replica.handle` — the handlers that take the lock once;
* `Raft.ReplicaAction`, `Raft.serverSystem` — everything that happens to a replica that is not
  restarted, with calls of `ReceiveInstallSnapshot` under way;
* `Raft.InstallsForward` — a snapshot that is about to be installed does not end before the commit
  index.

Main results:

* `Raft.Replica.LogSteps.handle` — every handler but the truncation of a prefix consists of such steps;
* `Raft.Replica.LogStep.movesOn`, `Raft.Replica.MovesOn.truncatePrefix` — the steps move on;
* `Raft.commit_index_monotone` — the commit index of a run never goes back, nor are committed entries
  removed, if snapshots are installed forward.
-/

import ResilientDb.RaftInstall
import ResilientDb.RaftLeader
import ResilientDb.RaftCluster

set_option autoImplicit false

namespace Raft

open Kv (MemoryDB Storage)
open Option (bind_eq_some_iff map_eq_some_iff)

namespace Replica

/-! ### The counters fit the log -/

/-- The counters are in order, and the last index is where the log ends. -/
structure WellFormed (r : Replica) : Prop where
  nonempty : r.log ≠ []
  last : r.lastLogIndex + 1 = r.logicalLogSize
  commit_le : r.commitIndex ≤ r.lastLogIndex
  committed_le : r.lastCommitted ≤ r.commitIndex
  truncated_le : r.truncatedLastIndex ≤ r.lastCommitted

instance (r : Replica) : Decidable r.WellFormed :=
  decidable_of_iff (r.log ≠ [] ∧ r.lastLogIndex + 1 = r.logicalLogSize ∧
    r.commitIndex ≤ r.lastLogIndex ∧ r.lastCommitted ≤ r.commitIndex ∧
    r.truncatedLastIndex ≤ r.lastCommitted)
    ⟨fun h => ⟨h.1, h.2.1, h.2.2.1, h.2.2.2.1, h.2.2.2.2⟩,
      fun h => ⟨h.nonempty, h.last, h.commit_le, h.committed_le, h.truncated_le⟩⟩

/-- The counters do not go back, and an entry up to the commit index stays where it is or falls under
the truncated prefix. -/
structure Advances (r r' : Replica) : Prop where
  commitIndex : r.commitIndex ≤ r'.commitIndex
  lastCommitted : r.lastCommitted ≤ r'.lastCommitted
  truncatedLastIndex : r.truncatedLastIndex ≤ r'.truncatedLastIndex
  entries : ∀ i e, i ≤ r.commitIndex → r.logEntryAt i = some e →
    r'.logEntryAt i = some e ∨ i ≤ r'.truncatedLastIndex

theorem Advances.trans {r₁ r₂ r₃ : Replica} (h : Advances r₁ r₂) (h' : Advances r₂ r₃) :
    Advances r₁ r₃ where
  commitIndex := h.commitIndex.trans h'.commitIndex
  lastCommitted := h.lastCommitted.trans h'.lastCommitted
  truncatedLastIndex := h.truncatedLastIndex.trans h'.truncatedLastIndex
  entries := by
    intro i e hi he
    obtain he | hle := h.entries i e hi he
    · exact h'.entries i e (hi.trans h.commitIndex) he
    · exact .inr (hle.trans h'.truncatedLastIndex)

/-- A step of a replica whose counters fit its log: they still do, and nothing goes back. -/
def MovesOn (r r' : Replica) : Prop := r.WellFormed → r'.WellFormed ∧ Advances r r'

theorem MovesOn.trans {r₁ r₂ r₃ : Replica} (h : MovesOn r₁ r₂) (h' : MovesOn r₂ r₃) :
    MovesOn r₁ r₃ := by
  intro hr
  obtain ⟨hr₂, h₁₂⟩ := h hr
  obtain ⟨hr₃, h₂₃⟩ := h' hr₂
  exact ⟨hr₃, h₁₂.trans h₂₃⟩

/-- An index has an entry if it lies in the log behind the truncated part. -/
theorem logEntryAt_eq_some {r : Replica} {i : ℕ} {e : Entry} : r.logEntryAt i = some e ↔
      r.truncatedLastIndex < i ∧ r.log[i - r.truncatedLastIndex]? = some e := by
  unfold logEntryAt logicalLogSize
  constructor
  · intro h
    split_ifs at h with hi
    exact ⟨hi.1, h⟩
  · rintro ⟨hlt, h⟩
    have hbound := (List.getElem?_eq_some_iff.1 h).1
    rw [if_pos ⟨hlt, by omega⟩]
    exact h

variable {cfg : Config} {r r' : Replica}

theorem SameLog.logEntryAt (h : SameLog r r') (i : ℕ) : r'.logEntryAt i = r.logEntryAt i := by
  rw [Replica.logEntryAt, Replica.logEntryAt, logicalLogSize, logicalLogSize, h.log,
    h.truncatedLastIndex]

theorem wellFormed_installSnapshot (r : Replica) (index term : ℕ) :
    (r.installSnapshot index term).WellFormed where
  nonempty := List.cons_ne_nil _ _
  last := Nat.add_comm _ _
  commit_le := le_rfl
  committed_le := le_rfl
  truncated_le := le_rfl

/-- A checkpoint changes nothing, or drops entries up to an index that has been applied. -/
theorem truncatePrefix_cases {amount index : ℕ} {write : Bool} (hr : r.WellFormed)
    (h : r.truncatePrefix cfg amount index = some (r', write)) :
    r' = r ∨ ∃ first rest term term', r.log = first :: rest ∧
      r.truncatedLastIndex < r.truncationIndex amount index ∧
      r.truncationIndex amount index ≤ r.lastCommitted ∧
      r.logTermAt (r.truncationIndex amount index) = some term ∧ r.logTermAt index = some term' ∧
      SameLog { r with
        snapshotLastIndex := index
        snapshotLastTerm := term'
        truncatedLastIndex := r.truncationIndex amount index
        truncatedLastTerm := term
        log := { first with term := term } ::
          rest.drop (r.truncationIndex amount index - r.truncatedLastIndex) } r' := by
  unfold truncatePrefix at h
  dsimp only at h
  split at h
  case isTrue =>
    cases h
    exact .inl rfl
  case isFalse hlt =>
    simp only [bind, bind_eq_some_iff, Option.guard_eq_some'] at h
    obtain ⟨_, hle, term, hterm, term', hterm', r₁, hset, _, _, h⟩ := h
    obtain ⟨first, rest, hlog⟩ := List.exists_cons_of_ne_nil hr.nonempty
    rw [setSnapshotLastIndexAndTerm, hlog] at hset
    cases hset
    refine .inr ⟨first, rest, term, term', hlog, not_le.1 hlt, hle, hterm, hterm', ?_⟩
    cases h
    split <;> exact ⟨rfl, rfl, rfl, rfl, rfl, rfl, rfl, rfl⟩

namespace MovesOn

theorem of_sameLog (h : SameLog r r') : MovesOn r r' := by
  intro hr
  refine ⟨⟨?_, ?_, ?_, ?_, ?_⟩, ⟨?_, ?_, ?_, ?_⟩⟩
  · rw [h.log]
    exact hr.nonempty
  · rw [logicalLogSize, h.lastLogIndex, h.log, h.truncatedLastIndex]
    exact hr.last
  · rw [h.commitIndex, h.lastLogIndex]
    exact hr.commit_le
  · rw [h.lastCommitted, h.commitIndex]
    exact hr.committed_le
  · rw [h.truncatedLastIndex, h.lastCommitted]
    exact hr.truncated_le
  · exact h.commitIndex.ge
  · exact h.lastCommitted.ge
  · exact h.truncatedLastIndex.ge
  · intro i e _ he
    exact .inl ((h.logEntryAt i).trans he)

theorem refl (r : Replica) : MovesOn r r := of_sameLog (.refl r)

/-! ### The log -/

theorem addToLog {entries : List Entry} (h : r.addToLog entries = some r') : MovesOn r r' := by
  intro hr
  obtain rfl := addToLog_spec h
  have hlast := hr.last
  refine ⟨⟨?_, ?_, ?_, hr.committed_le, hr.truncated_le⟩, ⟨le_rfl, le_rfl, le_rfl, ?_⟩⟩
  · exact List.append_ne_nil_of_left_ne_nil hr.nonempty entries
  · rw [logicalLogSize] at hlast ⊢
    dsimp only
    rw [List.length_append]
    omega
  · exact hr.commit_le.trans (Nat.le_add_right _ _)
  · intro i e _ he
    obtain ⟨hlt, he⟩ := logEntryAt_eq_some.1 he
    have hbound := (List.getElem?_eq_some_iff.1 he).1
    exact .inl (logEntryAt_eq_some.2 ⟨hlt, (List.getElem?_append_left hbound).trans he⟩)

/-- Only entries behind the commit index are cut off. -/
theorem truncateLog {firstIndex : ℕ} (h : r.truncateLog firstIndex = some r') : MovesOn r r' := by
  intro hr
  obtain ⟨hcommit, hle, rfl⟩ := truncateLog_cases h
  have hlast := hr.last
  have htrunc := hr.truncated_le
  have hcommitted := hr.committed_le
  -- the log ends at the last index, so that nothing remains behind the truncation
  have hdrop : r.log.drop (r.lastLogIndex - r.truncatedLastIndex + 1) = [] := by
    rw [logicalLogSize] at hlast
    exact List.drop_eq_nil_of_le (by omega)
  have hlen : (r.log.take (firstIndex - r.truncatedLastIndex)).length =
      firstIndex - r.truncatedLastIndex := by
    rw [logicalLogSize] at hlast
    rw [List.length_take]
    omega
  refine ⟨⟨?_, ?_, ?_, hr.committed_le, hr.truncated_le⟩, ⟨le_rfl, le_rfl, le_rfl, ?_⟩⟩
  · rw [hdrop, List.append_nil, ← List.length_pos_iff, hlen]
    omega
  · rw [logicalLogSize]
    dsimp only
    rw [hdrop, List.append_nil, hlen]
    omega
  · dsimp only
    omega
  · intro i e hi he
    obtain ⟨hlt, he⟩ := logEntryAt_eq_some.1 he
    refine .inl (logEntryAt_eq_some.2 ⟨hlt, ?_⟩)
    dsimp only
    rw [hdrop, List.append_nil, List.getElem?_take, if_pos (by omega)]
    exact he

/-! ### Committing -/

variable {index : ℕ}

theorem of_commitIndex (hle : r.commitIndex ≤ index) (hlast : index ≤ r.lastLogIndex) :
    MovesOn r { r with commitIndex := index } := by
  intro hr
  refine ⟨⟨hr.nonempty, hr.last, hlast, hr.committed_le.trans hle, hr.truncated_le⟩,
    ⟨hle, le_rfl, le_rfl, ?_⟩⟩
  intro i e _ he
  exact .inl he

theorem raiseCommitIndex (r : Replica) (leaderCommit : ℕ) :
    MovesOn r (r.raiseCommitIndex leaderCommit) := by
  unfold Replica.raiseCommitIndex
  split
  case isTrue hlt =>
    intro hr
    have hcommit := hr.commit_le
    exact of_commitIndex (by omega) (by omega) hr
  case isFalse => exact refl r

/-- A leader raises its commit index to an index of its log. -/
theorem advanceCommitIndex (h : r.advanceCommitIndex cfg = some r') : MovesOn r r' := by
  intro hr
  obtain rfl | ⟨index, _, hlt, hterm, rfl⟩ := advanceCommitIndex_cases h
  · exact refl _ hr
  · -- the index has a term, so it is an index of the log
    have hsize : index < r.logicalLogSize := by
      unfold logTermAt at hterm
      split_ifs at hterm with hbound
      · exact hbound.2
      · exact hbound.2
    have hlast := hr.last
    exact of_commitIndex hlt.le (by omega) hr

theorem prepareCommit {requests : List Request} (h : r.prepareCommit cfg = some (r', requests)) :
    MovesOn r r' := by
  rw [prepareCommit_eq h]
  intro hr
  have hcommitted := hr.committed_le
  refine ⟨⟨hr.nonempty, hr.last, hr.commit_le, ?_, ?_⟩, ⟨le_rfl, le_max_left _ _, le_rfl, ?_⟩⟩
  · exact max_le hcommitted (min_le_left _ _)
  · exact hr.truncated_le.trans (le_max_left _ _)
  · intro i e _ he
    exact .inl he

/-! ### Snapshots -/

/-- The entries that a checkpoint drops are below `last_committed_`. -/
theorem of_truncated {first : Entry} {rest : List Entry} {target term : ℕ}
    (hlog : r.log = first :: rest) (hlt : r.truncatedLastIndex < target)
    (hle : target ≤ r.lastCommitted) (snapshotLastIndex snapshotLastTerm : ℕ) : MovesOn r { r with
      snapshotLastIndex := snapshotLastIndex, snapshotLastTerm := snapshotLastTerm
      truncatedLastIndex := target, truncatedLastTerm := term
      log := { first with term := term } :: rest.drop (target - r.truncatedLastIndex) } := by
  intro hr
  have hlast := hr.last
  have hcommitted := hr.committed_le
  have hcommit := hr.commit_le
  rw [logicalLogSize, hlog, List.length_cons] at hlast
  refine ⟨⟨List.cons_ne_nil _ _, ?_, hr.commit_le, hr.committed_le, hle⟩,
    ⟨le_rfl, le_rfl, hlt.le, ?_⟩⟩
  · rw [logicalLogSize]
    dsimp only
    rw [List.length_cons, List.length_drop]
    omega
  · intro i e _ he
    obtain ⟨hi, he⟩ := logEntryAt_eq_some.1 he
    by_cases hcut : i ≤ target
    · exact .inr hcut
    · refine .inl (logEntryAt_eq_some.2 ⟨not_le.1 hcut, ?_⟩)
      -- behind the end of the prefix, index `i` is at the same distance from the end of the log
      obtain ⟨k, rfl⟩ : ∃ k, i = target + k + 1 := ⟨i - target - 1, by omega⟩
      have h₁ : target + k + 1 - r.truncatedLastIndex = target - r.truncatedLastIndex + k + 1 := by
        omega
      have h₂ : target + k + 1 - target = k + 1 := by omega
      rw [hlog, h₁, List.getElem?_cons_succ] at he
      rw [h₂, List.getElem?_cons_succ, List.getElem?_drop]
      exact he

theorem truncatePrefix {amount : ℕ} {write : Bool}
    (h : r.truncatePrefix cfg amount index = some (r', write)) : MovesOn r r' := by
  intro hr
  obtain rfl | ⟨first, rest, term, term', hlog, hlt, hle, _, _, hsame⟩ := truncatePrefix_cases hr h
  · exact refl _ hr
  · exact (of_truncated hlog hlt hle index term').trans (of_sameLog hsame) hr

/-- A snapshot that is not below the commit index. -/
theorem installSnapshot (hle : r.commitIndex ≤ index) (term : ℕ) :
    MovesOn r (r.installSnapshot index term) := by
  intro hr
  have hcommitted := hr.committed_le
  have htruncated := hr.truncated_le
  refine ⟨wellFormed_installSnapshot r index term, ⟨hle, hcommitted.trans hle, ?_, ?_⟩⟩
  · exact htruncated.trans (hcommitted.trans hle)
  · intro i e hi _
    exact .inr (hi.trans hle)

end MovesOn

/-! ### The steps of a handler -/

theorem receiveRequestVote_sameLog {rv : RequestVote} {o : Outcome}
    (h : r.receiveRequestVote rv = some o) : SameLog r o.replica ∧ o.applied = [] := by
  cases receiveRequestVote_branch h with
  | own _ => exact ⟨.refl r, rfl⟩
  | answered granted _ hheeds _ _ =>
    have h₁ := hheeds.sameLog
    refine ⟨?_, rfl⟩
    dsimp only
    split <;> exact ⟨h₁.1, h₁.2, h₁.3, h₁.4, h₁.5, h₁.6, h₁.7, h₁.8⟩

theorem startElection_sameLog {o : Outcome} (h : r.startElection cfg = some o) :
    SameLog r o.replica ∧ o.applied = [] := by
  obtain ⟨-, rfl⟩ | ⟨-, _, -, rfl⟩ := startElection_cases h
  · exact ⟨.refl r, rfl⟩
  · exact ⟨⟨rfl, rfl, rfl, rfl, rfl, rfl, rfl, rfl⟩, rfl⟩

theorem receiveInstallSnapshotResponse_sameLog {response : InstallSnapshotResponse} {o : Outcome}
    {offset : Option ℕ} (h : r.receiveInstallSnapshotResponse cfg response = some (o, offset)) :
    SameLog r o.replica ∧ o.applied = [] := by
  cases receiveInstallSnapshotResponse_branch h with
  | ignored hheeds => exact ⟨hheeds.sameLog, rfl⟩
  | answered _ _ _ _ => exact ⟨(setProgress_sameButView r _ _).toSameLog, rfl⟩

/-- A step of a handler, as far as the log and its counters go. -/
inductive LogStep (r r' : Replica) : Prop
  | same (h : SameLog r r')
  | addToLog (entries : List Entry) (h : r.addToLog entries = some r')
  | truncateLog (firstIndex : ℕ) (h : r.truncateLog firstIndex = some r')
  | raiseCommitIndex (leaderCommit : ℕ) (h : r.raiseCommitIndex leaderCommit = r')
  | advanceCommitIndex (cfg : Config) (h : r.advanceCommitIndex cfg = some r')
  | prepareCommit (cfg : Config) (requests : List Request)
      (h : r.prepareCommit cfg = some (r', requests))

/-- What the handlers do, except for snapshots. -/
def LogSteps : Replica → Replica → Prop := Relation.ReflTransGen LogStep

/-- No single step lowers the commit index. -/
theorem LogStep.movesOn (h : LogStep r r') : MovesOn r r' := by
  cases h with
  | same h => exact .of_sameLog h
  | addToLog entries h => exact .addToLog h
  | truncateLog firstIndex h => exact .truncateLog h
  | raiseCommitIndex leaderCommit h =>
    rw [← h]
    exact .raiseCommitIndex r leaderCommit
  | advanceCommitIndex cfg h => exact .advanceCommitIndex h
  | prepareCommit cfg requests h => exact .prepareCommit h

namespace LogSteps

theorem movesOn (h : LogSteps r r') : MovesOn r r' := by
  induction h with
  | refl => exact .refl r
  | tail _ hstep ih => exact ih.trans hstep.movesOn

theorem refl (r : Replica) : LogSteps r r := Relation.ReflTransGen.refl

theorem trans {r'' : Replica} (h : LogSteps r r') (h' : LogSteps r' r'') :
    LogSteps r r'' := Relation.ReflTransGen.trans h h'

theorem of_step (h : LogStep r r') : LogSteps r r' := Relation.ReflTransGen.single h

theorem of_sameLog (h : SameLog r r') : LogSteps r r' := of_step (.same h)

theorem addToLog {entries : List Entry} (h : r.addToLog entries = some r') : LogSteps r r' :=
  of_step (.addToLog entries h)

theorem prepareCommit {requests : List Request} (h : r.prepareCommit cfg = some (r', requests)) :
    LogSteps r r' := of_step (.prepareCommit cfg requests h)

theorem appendFrom {ae : AppendEntries} (h : r.appendFrom ae = some r') : LogSteps r r' := by
  obtain ⟨r₁, rest, rfl | ⟨firstIndex, htruncate⟩, _, hadd⟩ := appendFrom_cases h
  · exact addToLog hadd
  · exact (of_step (.truncateLog firstIndex htruncate)).trans (addToLog hadd)

variable {o : Outcome}

theorem receiveTransaction {serialized : String} {now : ℕ → ℕ} {index : Option ℕ}
    (h : r.receiveTransaction cfg serialized now = some (o, index)) : LogSteps r o.replica := by
  cases receiveTransaction_branch h with
  | redirected _ => exact refl r
  | appended _ hadd hannounce =>
    exact (addToLog hadd).trans (of_sameLog hannounce.keepsMatch.toSameLog)

/-- The follower demotes itself, appends, and commits what the leader has committed. -/
theorem receiveAppendEntries {ae : AppendEntries}
    (h : r.receiveAppendEntries cfg ae = some o) : LogSteps r o.replica := by
  have hterm : LogSteps r (r.acceptTerm ae) := of_sameLog (acceptTerm_sameLog r ae)
  cases receiveAppendEntries_branch h with
  | own _ => exact refl r
  | rejected _ _ _ => exact hterm
  | accepted _ _ happend hprepare =>
    exact ((hterm.trans (appendFrom happend)).trans (of_step (.raiseCommitIndex _ rfl))).trans
      (prepareCommit hprepare)

theorem handleSuccess {aer : AppendEntriesResponse} {requests : List Request}
    (h : r.handleSuccess cfg aer = some (r', requests)) : LogSteps r r' := by
  simp only [Replica.handleSuccess, bind, bind_eq_some_iff] at h
  obtain ⟨p, _, r₂, hadvance, hprepare⟩ := h
  have hview : LogSteps r (r.setProgress aer.id p) :=
    of_sameLog (setProgress_sameButView r _ p).toSameLog
  exact (hview.trans (of_step (.advanceCommitIndex cfg hadvance))).trans (prepareCommit hprepare)

/-- The leader may advance its commit index before it goes on sending. -/
theorem receiveAppendEntriesResponse {aer : AppendEntriesResponse} {now : ℕ → ℕ}
    (h : r.receiveAppendEntriesResponse cfg aer now = some o) : LogSteps r o.replica := by
  cases receiveAppendEntriesResponse_branch h with
  | ignored _ hheeds => exact of_sameLog hheeds.sameLog
  | stale hconsiders _ _ => exact of_sameLog hconsiders.keepsMatch.1.toSameLog
  | success hconsiders _ _ hsuccess hmore =>
    exact ((of_sameLog hconsiders.keepsMatch.1.toSameLog).trans (handleSuccess hsuccess)).trans
      (of_sameLog hmore.keepsMatch.toSameLog)
  | failure hconsiders _ hfailure hmore =>
    exact of_sameLog ((hconsiders.keepsMatch.1.trans (handleFailure_keepsMatch hfailure)).trans
      hmore.keepsMatch).toSameLog

theorem receiveRequestVoteResponse {rvr : RequestVoteResponse}
    (h : r.receiveRequestVoteResponse cfg rvr = some o) : LogSteps r o.replica := by
  cases receiveRequestVoteResponse_branch h with
  | ignored hheeds => exact of_sameLog hheeds.sameLog
  | counted _ _ _ _ => exact of_sameLog ⟨rfl, rfl, rfl, rfl, rfl, rfl, rfl, rfl⟩
  | @won r₁ _ _ _ _ _ hadd =>
    -- the winner appends a no-op
    have hlead : SameLog r ({ r with votes := r.votes ++ [rvr.voterId] }.becomeLeader cfg) :=
      ⟨rfl, rfl, rfl, rfl, rfl, rfl, rfl, rfl⟩
    exact ((of_sameLog hlead).trans (addToLog hadd)).trans
      (of_sameLog (setProgress_sameButView r₁ _ _).toSameLog)

end LogSteps

/-! ### A replica at its start -/

theorem wellFormed_construct (id : ℕ) : (construct id).WellFormed where
  nonempty := List.cons_ne_nil _ _
  last := rfl
  commit_le := le_rfl
  committed_le := le_rfl
  truncated_le := le_rfl

theorem LogSteps.replayAll {records : List WalRecord} (h : records.foldlM replay r = some r') :
    LogSteps r r' := by
  refine TransitionSystem.foldlM_invariant (I := LogSteps r) ?_ (.refl r) h
  intro r₁ record r₂ _ h₁ h₂
  cases record with
  | entry seq e => exact h₁.trans (.addToLog h₂)
  | truncation index term => exact h₁.trans (.of_step (.truncateLog index h₂))

/-- A replica that has recovered from its disk is well formed. -/
theorem wellFormed_recoverFromLogs {id : ℕ} {metadata : Metadata} {records : List WalRecord}
    (h : (construct id).recoverFromLogs metadata records = some r) : r.WellFormed := by
  rw [recoverFromLogs_def] at h
  obtain ⟨r₀, h₀, h⟩ := bind_eq_some_iff.1 h
  cases h₀
  refine ((LogSteps.replayAll h).movesOn ⟨List.cons_ne_nil _ _, ?_, le_rfl, le_rfl, le_rfl⟩).1
  exact Nat.add_comm _ _

end Replica

/-! ### A replica that is not restarted -/

open Replica (Advances LogSteps MovesOn)

/-- The calls that a replica handles under one lock, with the readings of the clock. -/
inductive Call
  | receiveTransaction (serialized : String) (now : ℕ → ℕ)
  | finishTransaction (myLogIndex : ℕ)
  | receiveAppendEntries (ae : AppendEntries)
  | receiveAppendEntriesResponse (aer : AppendEntriesResponse) (now : ℕ → ℕ)
  | receiveRequestVote (rv : RequestVote)
  | receiveRequestVoteResponse (rvr : RequestVoteResponse)
  | startElection
  | sendHeartbeat (now : ℕ → ℕ)
  | receiveInstallSnapshotResponse (response : InstallSnapshotResponse)
  /-- A checkpoint is finished. -/
  | truncatePrefix (snapshotIndex : ℕ)

/-- Handle one call. -/
def Replica.handle (cfg : Config) (snapshotBufferAmount : ℕ) (r : Replica) : Call → Option Outcome
  | .receiveTransaction serialized now =>
    (r.receiveTransaction cfg serialized now).map Prod.fst
  | .finishTransaction myLogIndex => some ⟨r.finishTransaction myLogIndex, [], []⟩
  | .receiveAppendEntries ae => r.receiveAppendEntries cfg ae
  | .receiveAppendEntriesResponse aer now => r.receiveAppendEntriesResponse cfg aer now
  | .receiveRequestVote rv => r.receiveRequestVote rv
  | .receiveRequestVoteResponse rvr => r.receiveRequestVoteResponse cfg rvr
  | .startElection => r.startElection cfg
  | .sendHeartbeat now => r.sendHeartbeat cfg now
  | .receiveInstallSnapshotResponse response =>
    (r.receiveInstallSnapshotResponse cfg response).map Prod.fst
  | .truncatePrefix snapshotIndex =>
    (r.truncatePrefix cfg snapshotBufferAmount snapshotIndex).map fun p => ⟨p.1, [], []⟩

/-- Every handler is a sequence of steps on the log; a checkpoint is one of its own. -/
theorem Replica.LogSteps.handle {cfg : Config} {snapshotBufferAmount : ℕ} {r : Replica} {a : Call}
    {o : Outcome} (h : r.handle cfg snapshotBufferAmount a = some o) :
    LogSteps r o.replica ∨ ∃ snapshotIndex write, a = .truncatePrefix snapshotIndex ∧
      r.truncatePrefix cfg snapshotBufferAmount snapshotIndex = some (o.replica, write) := by
  cases a with
  | receiveTransaction serialized now =>
    obtain ⟨⟨o, index⟩, ho, rfl⟩ := map_eq_some_iff.1 h
    exact .inl (.receiveTransaction ho)
  | finishTransaction myLogIndex =>
    cases h
    exact .inl (.of_sameLog (Replica.finishTransaction_sameButView _ _).toSameLog)
  | receiveAppendEntries ae => exact .inl (.receiveAppendEntries h)
  | receiveAppendEntriesResponse aer now => exact .inl (.receiveAppendEntriesResponse h)
  | receiveRequestVote rv => exact .inl (.of_sameLog (receiveRequestVote_sameLog h).1)
  | receiveRequestVoteResponse rvr => exact .inl (.receiveRequestVoteResponse h)
  | startElection => exact .inl (.of_sameLog (startElection_sameLog h).1)
  | sendHeartbeat now => exact .inl (.of_sameLog (Replica.sendHeartbeat_keepsMatch h).1.toSameLog)
  | receiveInstallSnapshotResponse response =>
    obtain ⟨⟨o, offset⟩, ho, rfl⟩ := map_eq_some_iff.1 h
    exact .inl (.of_sameLog (receiveInstallSnapshotResponse_sameLog ho).1)
  | truncatePrefix snapshotIndex =>
    obtain ⟨⟨r', write⟩, hr, rfl⟩ := map_eq_some_iff.1 h
    exact .inr ⟨snapshotIndex, write, rfl, hr⟩

theorem Replica.MovesOn.handle {cfg : Config} {snapshotBufferAmount : ℕ} {r : Replica} {a : Call}
    {o : Outcome} (h : r.handle cfg snapshotBufferAmount a = some o) : MovesOn r o.replica := by
  obtain hsteps | ⟨snapshotIndex, write, _, htruncate⟩ := LogSteps.handle h
  · exact hsteps.movesOn
  · exact .truncatePrefix htruncate

/-- What can happen to a replica while it runs. -/
inductive ReplicaAction
  | handle (call : Call)
  /-- A section of a call of `ReceiveInstallSnapshot`. -/
  | snapshot (a : SnapshotAction)

/-- The log is about to be started over. -/
def Stage.isInstall : Stage → Bool
  | .install _ => true
  | _ => false

section

variable {σ : Type}

/-- Replace the replica. -/
def Server.setReplica (s : Server σ) (r : Replica) : Server σ :=
  { s with receiver := { s.receiver with replica := r } }

/-- The replica as constructed, or as it comes back from its logs; no transfer is under way. -/
def Server.Starts (s : Server σ) : Prop :=
  (∃ id, s.receiver.replica = .construct id ∨ ∃ metadata records,
    (Replica.construct id).recoverFromLogs metadata records = some s.receiver.replica) ∧
  (∀ leaderId, s.receiver.pendingSnapshotChunks leaderId = none) ∧ s.handlers = []

/-- The snapshot that a handler is about to install does not end before the commit index. -/
def InstallsForward (s : Server σ) : ReplicaAction → Prop
  | .snapshot (.advance k _) => ∀ h ∈ s.handlers[k]?, h.stage.isInstall = true →
      s.receiver.replica.commitIndex ≤ h.message.lastIncludedIndex
  | _ => True

instance (s : Server σ) (a : ReplicaAction) : Decidable (InstallsForward s a) := by
  unfold InstallsForward
  split <;> infer_instance

variable {s s' : Server σ}

theorem Server.Starts.wellFormed (h : s.Starts) : s.receiver.replica.WellFormed := by
  obtain ⟨⟨id, hconstruct | ⟨metadata, records, hrecover⟩⟩, _⟩ := h
  · rw [hconstruct]
    exact Replica.wellFormed_construct id
  · exact Replica.wellFormed_recoverFromLogs hrecover

variable [Storage σ]

/-- One action. -/
def Server.step (cfg : Config) (snapshotBufferAmount : ℕ) (s : Server σ) :
    ReplicaAction → Option (Server σ)
  | .handle call =>
    (s.receiver.replica.handle cfg snapshotBufferAmount call).map fun o => s.setReplica o.replica
  | .snapshot a => (s.snapshotStep a).map Prod.fst

/-- The runs of a replica. -/
def serverSystem (σ : Type) [Storage σ] (cfg : Config) (snapshotBufferAmount : ℕ) :
    TransitionSystem (Server σ) ReplicaAction where
  init := Server.Starts
  step := Server.step cfg snapshotBufferAmount

variable {cfg : Config} {snapshotBufferAmount : ℕ} {a : SnapshotAction}
  {response : Option InstallSnapshotResponse}

/-- The sections of `ReceiveInstallSnapshot` demote the replica or install a snapshot. -/
theorem Server.snapshotStep_replica (hs : s.snapshotStep a = some (s', response)) :
    s'.receiver.replica = s.receiver.replica ∨
      (∃ term, s'.receiver.replica = s.receiver.replica.demoteSelf term) ∨
      ∃ k io h, a = .advance k io ∧ s.handlers[k]? = some h ∧ h.stage.isInstall = true ∧
        s'.receiver.replica = s.receiver.replica.installSnapshot h.message.lastIncludedIndex
          h.message.lastIncludedTerm := by
  cases a with
  | accept message fd =>
    obtain ⟨⟨receiver, h⟩, haccept, hs⟩ := bind_eq_some_iff.1 hs
    cases hs
    exact (Receiver.accept_replica haccept).imp_right fun hdemoted => .inl ⟨_, hdemoted⟩
  | advance k io =>
    obtain ⟨h, hk, hs⟩ := bind_eq_some_iff.1 hs
    obtain ⟨⟨receiver, h'⟩, hadvance, hs⟩ := bind_eq_some_iff.1 hs
    cases hs
    obtain hsame | ⟨⟨tmpPath, hstage⟩, hinstall⟩ := Receiver.advance_replica hadvance
    · exact .inl hsame
    · refine .inr (.inr ⟨k, io, h, rfl, hk, ?_, hinstall⟩)
      rw [hstage]
      rfl
  | reply k =>
    simp only [Server.snapshotStep, bind, bind_eq_some_iff] at hs
    obtain ⟨h, _, _, _, hs⟩ := hs
    cases hs
    exact .inl rfl

theorem Server.snapshotStep_cases (hs : s.snapshotStep a = some (s', response)) :
    Replica.SameLog s.receiver.replica s'.receiver.replica ∨ ∃ index term,
      (InstallsForward s (.snapshot a) → s.receiver.replica.commitIndex ≤ index) ∧
      s'.receiver.replica = s.receiver.replica.installSnapshot index term := by
  obtain hsame | ⟨term, hdemoted⟩ | ⟨k, io, h, rfl, hk, hstage, hinstall⟩ := snapshotStep_replica hs
  · rw [hsame]
    exact .inl (.refl _)
  · rw [hdemoted]
    exact .inl (Replica.demoteSelf_sameLog _ _)
  · exact .inr ⟨_, _, fun hok => hok h hk hstage, hinstall⟩

theorem Server.snapshotStep_movesOn (hok : InstallsForward s (.snapshot a))
    (hs : s.snapshotStep a = some (s', response)) :
    MovesOn s.receiver.replica s'.receiver.replica := by
  obtain hsame | ⟨index, term, hforward, hinstall⟩ := snapshotStep_cases hs
  · exact .of_sameLog hsame
  · rw [hinstall]
    exact .installSnapshot (hforward hok) term

/-- A step that meets the condition does not lower the commit index. -/
theorem Server.step_movesOn {a : ReplicaAction} (hok : InstallsForward s a)
    (hs : s.step cfg snapshotBufferAmount a = some s') :
    MovesOn s.receiver.replica s'.receiver.replica := by
  cases a with
  | handle call =>
    obtain ⟨o, ho, rfl⟩ := map_eq_some_iff.1 hs
    exact .handle ho
  | snapshot a =>
    obtain ⟨⟨s₁, response⟩, hs₁, rfl⟩ := map_eq_some_iff.1 hs
    exact snapshotStep_movesOn hok hs₁

/-- So a run does not, either. -/
theorem Server.run_movesOn (actions : List ReplicaAction) : ∀ {s s' : Server σ},
    (serverSystem σ cfg snapshotBufferAmount).Guarded InstallsForward s actions →
    (serverSystem σ cfg snapshotBufferAmount).run s actions = some s' →
    MovesOn s.receiver.replica s'.receiver.replica := by
  induction actions with
  | nil =>
    intro s s' _ hr
    cases hr
    exact .refl _
  | cons a actions ih =>
    intro s s' hg hr
    obtain ⟨s₁, hs₁, hr⟩ := bind_eq_some_iff.1 hr
    obtain ⟨hok, hg⟩ := hg
    rw [hs₁] at hg
    exact (step_movesOn hok hs₁).trans (ih hg hr)

/-- From any state that a replica reaches, its commit index and `last_committed_` do not go back, and
the entries up to the commit index stay until a prefix is truncated over them, if snapshots are
installed forward. -/
theorem commit_index_monotone {actions : List ReplicaAction}
    (h : (serverSystem σ cfg snapshotBufferAmount).Reachable InstallsForward s)
    (hg : (serverSystem σ cfg snapshotBufferAmount).Guarded InstallsForward s actions)
    (hr : (serverSystem σ cfg snapshotBufferAmount).run s actions = some s') :
    s.receiver.replica.commitIndex ≤ s'.receiver.replica.commitIndex ∧
      s.receiver.replica.lastCommitted ≤ s'.receiver.replica.lastCommitted ∧
      ∀ i e, i ≤ s.receiver.replica.commitIndex → s.receiver.replica.logEntryAt i = some e →
        s'.receiver.replica.logEntryAt i = some e ∨ i ≤ s'.receiver.replica.truncatedLastIndex := by
  have hwf : s.receiver.replica.WellFormed := by
    refine h.invariant (I := fun s => s.receiver.replica.WellFormed) ?_ ?_
    · intro s hs
      exact hs.wellFormed
    · intro s a s' hwf hok hs
      exact (Server.step_movesOn hok hs hwf).1
  have hadvances := (Server.run_movesOn actions hg hr hwf).2
  exact ⟨hadvances.commitIndex, hadvances.lastCommitted, hadvances.entries⟩

end

/-! ### A snapshot that has fallen behind -/

/-- Replica 2 without a past. -/
def freshServer : Server MemoryDB := ⟨.start 2 {}, []⟩

/-- The first part of a snapshot that ends at index 1. -/
def firstChunk : InstallSnapshot where
  term := 1
  leaderId := 1
  lastIncludedIndex := 1
  lastIncludedTerm := 1
  offset := 0
  data := [7]
  done := false

/-- Two entries that are committed. -/
def twoCommitted : AppendEntries where
  term := 1
  leaderId := 1
  prevLogIndex := 0
  prevLogTerm := 0
  entries := [⟨1, "a"⟩, ⟨1, "b"⟩]
  leaderCommitIndex := 2

/-- The first chunk is stored, and two entries are replicated and committed before the second. -/
def overtakenRun : List ReplicaAction :=
  [.snapshot (.accept firstChunk (some 3)), .snapshot (.advance 0 { writes := [1] }),
    .snapshot (.advance 0 {}), .snapshot (.reply 0), .handle (.receiveAppendEntries twoCommitted)]

/-- The second chunk is the last one. -/
def lastChunkRun : List ReplicaAction :=
  [.snapshot (.accept { firstChunk with offset := 1, done := true } none),
    .snapshot (.advance 0 { writes := [1] }), .snapshot (.advance 0 {}),
    .snapshot (.advance 0 {}), .snapshot (.advance 0 {}), .snapshot (.advance 0 {})]

/-- A later snapshot, in one chunk. -/
def laterSnapshotRun : List ReplicaAction :=
  [.snapshot (.accept { firstChunk with lastIncludedIndex := 5, done := true } (some 3)),
    .snapshot (.advance 0 { writes := [1] }), .snapshot (.advance 0 {}),
    .snapshot (.advance 0 {}), .snapshot (.advance 0 {}), .snapshot (.advance 0 {})]

theorem freshServer_starts : (serverSystem MemoryDB threeReplicas 0).init freshServer :=
  ⟨⟨2, .inl rfl⟩, fun _ => rfl, rfl⟩

theorem commit_index_monotone_laterSnapshotRun :
    ∃ s s', (serverSystem MemoryDB threeReplicas 0).Reachable InstallsForward s ∧
      (serverSystem MemoryDB threeReplicas 0).run s laterSnapshotRun = some s' ∧
      s.receiver.replica.commitIndex = 2 ∧ s'.receiver.replica.commitIndex = 5 ∧
      s.receiver.replica.commitIndex ≤ s'.receiver.replica.commitIndex := by
  let summary (s : Server MemoryDB) := (s.receiver.replica.commitIndex,
    decide ((serverSystem MemoryDB threeReplicas 0).Guarded InstallsForward s laterSnapshotRun),
    ((serverSystem MemoryDB threeReplicas 0).run s laterSnapshotRun).map
      (fun s' => s'.receiver.replica.commitIndex))
  have hresult : ((serverSystem MemoryDB threeReplicas 0).run freshServer overtakenRun).map
      summary = some (2, true, some 5) := by decide +kernel
  obtain ⟨s, hs, hsummary⟩ := map_eq_some_iff.1 hresult
  simp only [summary, Prod.mk.injEq, decide_eq_true_eq] at hsummary
  obtain ⟨hcommit, hguarded, hlater⟩ := hsummary
  obtain ⟨s', hs', hcommit'⟩ := map_eq_some_iff.1 hlater
  have hreach : (serverSystem MemoryDB threeReplicas 0).Reachable InstallsForward s :=
    (TransitionSystem.Reachable.init freshServer_starts).run overtakenRun (by decide +kernel) hs
  exact ⟨s, s', hreach, hs', hcommit, hcommit', (commit_index_monotone hreach hguarded hs').1⟩

/-- The last chunk of the older snapshot takes the commit index from 2 back to 1, and the entry at
index 2 is gone. -/
theorem commit_index_monotone_fails :
    ∃ s s', (serverSystem MemoryDB threeReplicas 0).Reachable TransitionSystem.always s ∧
      (serverSystem MemoryDB threeReplicas 0).run s lastChunkRun = some s' ∧
      s.receiver.replica.commitIndex = 2 ∧ s'.receiver.replica.commitIndex = 1 ∧
      s.receiver.replica.lastCommitted = 2 ∧ s'.receiver.replica.lastCommitted = 1 ∧
      s.receiver.replica.logEntryAt 2 = some ⟨1, "b"⟩ ∧ s'.receiver.replica.logEntryAt 2 = none ∧
      s'.receiver.replica.truncatedLastIndex = 1 := by
  have hrun : (serverSystem MemoryDB threeReplicas 0).run freshServer overtakenRun = some _ := rfl
  exact ⟨_, _, TransitionSystem.reachable_of_run freshServer_starts hrun, rfl, by decide +kernel,
    by decide +kernel, by decide +kernel, by decide +kernel, by decide +kernel, by decide +kernel,
    by decide +kernel⟩

end Raft
