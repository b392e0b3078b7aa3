/-
**Replaying the write-ahead log of a Raft replica.**

The records of the write-ahead log describe a log: an entry is appended at its index, and a truncation
takes the end off.  `RecoverFromLogs` does not look at the indices of the entries: it appends each of
them to whatever log it has by then.  This module relates the two.

Main definitions:

* `Raft.applyRecords` — the entries behind an index that a list of records describes, if each record
  fits to those before it.

Main results:

* `Raft.Replica.recoverFromLogs_eq` — records that fit are replayed to exactly that log.
-/

import ResilientDb.RaftRecovery

set_option autoImplicit false

namespace Raft

/-! ### The log that records describe -/

/-- One more record, for a log that starts behind `base`. -/
def applyRecord (base : ℕ) (log : List Entry) : WalRecord → Option (List Entry)
  | .entry seq entry => if seq = base + log.length + 1 then some (log ++ [entry]) else none
  | .truncation truncateFromIndex _ =>
    if base < truncateFromIndex ∧ truncateFromIndex ≤ base + log.length then
      some (log.take (truncateFromIndex - base - 1))
    else none

/-- The log that records describe. -/
def applyRecords (base : ℕ) (log : List Entry) (records : List WalRecord) : Option (List Entry) :=
  records.foldlM (applyRecord base) log

/-! ### Recovery -/

namespace Replica

/-- The log of the replica starts behind `base` and has these entries. -/
structure HasLog (r : Replica) (base : ℕ) (log : List Entry) : Prop where
  truncated : r.truncatedLastIndex = base
  commit : r.commitIndex = base
  last : r.lastLogIndex = base + log.length
  entries : ∃ first, r.log = first :: log

variable {base : ℕ} {log : List Entry}

theorem HasLog.replay {r : Replica} {log' : List Entry} (h : r.HasLog base log)
    {record : WalRecord} (hrecord : applyRecord base log record = some log') :
    ∃ r', r.replay record = some r' ∧ r'.HasLog base log' := by
  obtain ⟨first, hlog⟩ := h.entries
  cases record with
  | entry seq entry =>
    rw [applyRecord] at hrecord
    split_ifs at hrecord with hseq
    cases hrecord
    refine ⟨{ r with log := r.log ++ [entry], lastLogIndex := r.lastLogIndex + 1 }, ?_, ?_⟩
    · have hguard : r.lastLogIndex + 1 = (r.log ++ [entry]).length + r.truncatedLastIndex - 1 := by
        rw [h.last, h.truncated, hlog, List.length_append, List.length_cons, List.length_singleton]
        omega
      exact congrArg (Option.bind · _) (if_pos hguard)
    · refine ⟨h.truncated, h.commit, ?_, first, by rw [hlog, List.cons_append]⟩
      change r.lastLogIndex + 1 = _
      rw [h.last, List.length_append, List.length_singleton]
      omega
  | truncation first' term =>
    rw [applyRecord] at hrecord
    split_ifs at hrecord with hfirst
    cases hrecord
    obtain ⟨k, hk⟩ : ∃ k, first' = base + k + 1 := ⟨first' - base - 1, by omega⟩
    have htake : r.log.take (first' - r.truncatedLastIndex) ++
        r.log.drop (r.lastLogIndex - r.truncatedLastIndex + 1) =
          first :: log.take (first' - base - 1) := by
      have h₁ : first' - r.truncatedLastIndex = k + 1 := by
        rw [h.truncated]
        omega
      have h₂ : r.lastLogIndex - r.truncatedLastIndex + 1 = log.length + 1 := by
        rw [h.truncated, h.last]
        omega
      have h₃ : first' - base - 1 = k := by omega
      rw [h₁, h₂, h₃, hlog, List.take_succ_cons, List.drop_succ_cons, List.drop_length,
        List.append_nil]
    have hlen : (log.take (first' - base - 1)).length = k := by
      rw [List.length_take]
      omega
    have hlast : r.lastLogIndex - (r.lastLogIndex - first' + 1) = base + k := by
      rw [h.last]
      omega
    refine ⟨{ r with
      log := first :: log.take (first' - base - 1)
      lastLogIndex := base + k }, ?_, h.truncated, h.commit, ?_, first, rfl⟩
    · have hcommit : r.commitIndex < first' := by
        rw [h.commit]
        exact hfirst.1
      have hle : first' ≤ r.lastLogIndex := by
        rw [h.last]
        exact hfirst.2
      have hguard : base + k =
          (first :: log.take (first' - base - 1)).length + r.truncatedLastIndex - 1 := by
        rw [List.length_cons, hlen, h.truncated]
        omega
      simp only [Replica.replay, truncateLog, hcommit, hle, htake, hlast]
      exact congrArg (Option.bind · _) (if_pos hguard)
    · rw [hlen]

theorem HasLog.replayAll : ∀ {records : List WalRecord} {r : Replica}
    {log log' : List Entry}, r.HasLog base log → applyRecords base log records = some log' →
    ∃ r', records.foldlM Replica.replay r = some r' ∧ r'.HasLog base log'
  | [], r, log, log', h, hrecords => by
    cases hrecords
    exact ⟨r, rfl, h⟩
  | record :: records, r, log, log', h, hrecords => by
    obtain ⟨log₁, h₁, hrecords⟩ := Option.bind_eq_some_iff.1 hrecords
    obtain ⟨r₁, hr₁, hlog₁⟩ := h.replay h₁
    obtain ⟨r', hr', hlog'⟩ := hlog₁.replayAll hrecords
    refine ⟨r', ?_, hlog'⟩
    rw [List.foldlM_cons, hr₁]
    exact hr'

theorem recoverFromLogs_eq (id : ℕ) {metadata : Metadata} {records : List WalRecord}
    (h : applyRecords metadata.snapshotLastIndex [] records = some log) :
    ∃ r, (construct id).recoverFromLogs metadata records = some r ∧
      r.HasLog metadata.snapshotLastIndex log := by
  obtain ⟨r₀, hr₀, hlog₀⟩ : ∃ r₀, setSnapshotLastIndexAndTerm
      { construct id with currentTerm := metadata.currentTerm, votedFor := metadata.votedFor }
      metadata.snapshotLastIndex metadata.snapshotLastTerm metadata.snapshotLastIndex
      metadata.snapshotLastTerm false = some r₀ ∧ r₀.HasLog metadata.snapshotLastIndex [] :=
    ⟨_, rfl, rfl, rfl, rfl, _, rfl⟩
  obtain ⟨r, hr, hlog⟩ := hlog₀.replayAll h
  refine ⟨r, ?_, hlog⟩
  rw [recoverFromLogs_def, hr₀]
  exact hr

end Replica

end Raft
