/-
**How a follower merges entries into its log.**

An accepted `AppendEntries` message is merged, not written over the log: entries up to the commit index
are skipped, entries whose term the log has at their index are passed over, and only at the first
entry of another term is the log cut and the rest of the message appended.  The log may start behind
a truncated prefix, and the message may end below the commit index.

The merge compares terms and not entries, and it does not touch what lies behind the last entry of
the message unless some entry has another term.  The commit index may then be raised over entries
that the message says nothing about.

Main definitions:

* `Raft.Replica.splice` — the log up to an index, followed by entries;
* `Raft.Replica.Conflicts` — an entry behind the commit index has another term than the log;
* `Raft.Replica.TailVerified` — the condition under which only verified entries are committed.

Main results:

* `Raft.Replica.appendFrom_eq` — what the merge does: it ends, and the log is spliced at the first
  entry that the log does not have;
* `Raft.Replica.commit_verified_iff` — when the commit index stays within what was verified;
* `Raft.Replica.append_merges` — the handler returns, and the log after the merge;
* `Raft.Replica.receiveAppendEntries_eq_none_iff` — the messages at which a follower stops.
-/

import ResilientDb.RaftCommitIndex
import ResilientDb.RaftSafety

set_option autoImplicit false

namespace Raft

open Option (bind_eq_some_iff bind_some guard_eq_some' map_eq_some_iff mem_def pure_def)

namespace Replica

variable {cfg : Config} {r : Replica} {ae : AppendEntries}

/-! ### Lookups -/

variable {index : ℕ}

theorem logTermAt_of_lt (h : r.truncatedLastIndex < index) :
    r.logTermAt index = (r.logEntryAt index).map Entry.term := by
  unfold logTermAt logEntryAt
  by_cases hsize : index < r.logicalLogSize
  · rw [if_pos ⟨h.le, hsize⟩, if_neg h.ne', if_pos ⟨h, hsize⟩]
  · rw [if_neg fun hi => hsize hi.2, if_neg fun hi => hsize hi.2]
    rfl

variable {e : Entry}

theorem logTermAt_of_logEntryAt (h : r.logEntryAt index = some e) :
    r.logTermAt index = some e.term := by
  rw [logTermAt_of_lt (logEntryAt_eq_some.1 h).1, h]
  rfl

namespace WellFormed

section

variable (hr : r.WellFormed)
include hr

theorem log_length : r.log.length = r.lastLogIndex - r.truncatedLastIndex + 1 := by
  have hlast := hr.last
  have htruncated := hr.truncated_le
  have hcommitted := hr.committed_le
  have hcommit := hr.commit_le
  rw [logicalLogSize] at hlast
  omega

theorem truncated_le_commit : r.truncatedLastIndex ≤ r.commitIndex :=
  hr.truncated_le.trans hr.committed_le

theorem truncated_le_last : r.truncatedLastIndex ≤ r.lastLogIndex :=
  hr.truncated_le_commit.trans hr.commit_le

theorem exists_logEntryAt {i : ℕ} (hlt : r.truncatedLastIndex < i)
    (hle : i ≤ r.lastLogIndex) : ∃ e, r.logEntryAt i = some e := by
  have hlength := hr.log_length
  have hbound : i - r.truncatedLastIndex < r.log.length := by omega
  exact ⟨_, logEntryAt_eq_some.2 ⟨hlt, List.getElem?_eq_getElem hbound⟩⟩

theorem exists_logTermAt {i : ℕ} (hle : r.truncatedLastIndex ≤ i)
    (hle' : i ≤ r.lastLogIndex) : ∃ term, r.logTermAt i = some term := by
  obtain rfl | hlt := hle.eq_or_lt
  · refine ⟨r.truncatedLastTerm, ?_⟩
    have hlast := hr.last
    rw [logTermAt, if_pos ⟨le_rfl, by omega⟩, if_pos rfl]
  · obtain ⟨e, he⟩ := hr.exists_logEntryAt hlt hle'
    exact ⟨e.term, logTermAt_of_logEntryAt he⟩

theorem le_of_logTermAt {index term : ℕ} (h : r.logTermAt index = some term) :
    r.truncatedLastIndex ≤ index ∧ index ≤ r.lastLogIndex := by
  have hlast := hr.last
  unfold logTermAt at h
  split_ifs at h with hrange <;> omega

theorem le_of_logEntryAt {index : ℕ} {e : Entry}
    (h : r.logEntryAt index = some e) : index ≤ r.lastLogIndex :=
  (hr.le_of_logTermAt (logTermAt_of_logEntryAt h)).2

end

end WellFormed

/-! ### Splicing -/

/-- The log up to `index - 1`, followed by the entries. -/
def splice (r : Replica) (index : ℕ) (entries : List Entry) : Replica :=
  { r with
    log := r.log.take (index - r.truncatedLastIndex) ++ entries
    lastLogIndex := index - 1 + entries.length }

theorem splice_last (hr : r.WellFormed) : r.splice (r.lastLogIndex + 1) [] = r := by
  have hlength := hr.log_length
  have htruncated := hr.truncated_le_last
  have htake : r.log.take (r.lastLogIndex + 1 - r.truncatedLastIndex) = r.log :=
    List.take_of_length_le (by omega)
  rw [splice, htake, List.append_nil]
  rfl

theorem logEntryAt_splice_of_lt {i : ℕ} (hi : i < index) (hle : index ≤ r.lastLogIndex + 1)
    (hr : r.WellFormed) (entries : List Entry) :
    (r.splice index entries).logEntryAt i = r.logEntryAt i := by
  have hlength := hr.log_length
  by_cases hlt : r.truncatedLastIndex < i
  · have hbound : i - r.truncatedLastIndex <
        (r.log.take (index - r.truncatedLastIndex)).length := by
      rw [List.length_take]
      omega
    ext e
    rw [logEntryAt_eq_some, logEntryAt_eq_some]
    change _ ∧ (r.log.take (index - r.truncatedLastIndex) ++ entries)[i - r.truncatedLastIndex]? =
      some e ↔ _
    rw [List.getElem?_append_left hbound, List.getElem?_take, if_pos (by omega)]
    rfl
  · ext e
    rw [logEntryAt_eq_some, logEntryAt_eq_some]
    exact ⟨fun h => absurd h.1 hlt, fun h => absurd h.1 hlt⟩

theorem logEntryAt_splice (hlt : r.truncatedLastIndex < index)
    (hle : index ≤ r.lastLogIndex + 1) (hr : r.WellFormed) (entries : List Entry) (k : ℕ) :
    (r.splice index entries).logEntryAt (index + k) = entries[k]? := by
  have hlength := hr.log_length
  have htake : (r.log.take (index - r.truncatedLastIndex)).length =
      index - r.truncatedLastIndex := by
    rw [List.length_take]
    omega
  have hsub : index + k - r.truncatedLastIndex = index - r.truncatedLastIndex + k := by omega
  ext e
  rw [logEntryAt_eq_some]
  change r.truncatedLastIndex < index + k ∧
    (r.log.take (index - r.truncatedLastIndex) ++ entries)[index + k - r.truncatedLastIndex]? =
      some e ↔ _
  rw [List.getElem?_append_right (by omega), htake, hsub, Nat.add_sub_cancel_left]
  exact ⟨fun h => h.2, fun h => ⟨by omega, h⟩⟩

theorem truncateLog_eq (hr : r.WellFormed) (hlt : r.commitIndex < index)
    (hle : index ≤ r.lastLogIndex) : r.truncateLog index = some (r.splice index []) := by
  have hlength := hr.log_length
  have htruncated := hr.truncated_le_commit
  have hdrop : r.log.drop (r.lastLogIndex - r.truncatedLastIndex + 1) = [] :=
    List.drop_eq_nil_of_le hlength.le
  have hlast : r.lastLogIndex - (r.lastLogIndex - index + 1) = index - 1 := by omega
  have hsize : (r.splice index []).lastLogIndex = (r.splice index []).logicalLogSize - 1 := by
    change index - 1 = (r.log.take (index - r.truncatedLastIndex) ++ []).length +
      r.truncatedLastIndex - 1
    rw [List.append_nil, List.length_take]
    omega
  simp only [truncateLog, hdrop, hlast, hlt, hle, guard_true, pure_def, bind, bind_some]
  exact bind_eq_some_iff.2 ⟨(), (guard_eq_some' _).2 hsize, rfl⟩

theorem addToLog_eq (hlast : r.lastLogIndex + 1 = r.logicalLogSize) (entries : List Entry) :
    r.addToLog entries = some { r with
      log := r.log ++ entries, lastLogIndex := r.lastLogIndex + entries.length } := by
  unfold addToLog
  split_ifs with hnil
  · simp [hnil]
  · refine bind_eq_some_iff.2 ⟨(), (guard_eq_some' _).2 ?_, rfl⟩
    rw [logicalLogSize] at hlast ⊢
    dsimp only
    rw [List.length_append]
    omega

theorem addToLog_splice (hr : r.WellFormed) (hlt : r.truncatedLastIndex < index)
    (hle : index ≤ r.lastLogIndex + 1) (entries : List Entry) :
    (r.splice index []).addToLog entries = some (r.splice index entries) := by
  have hlength := hr.log_length
  rw [addToLog_eq]
  · simp [splice]
  · change index - 1 + 0 + 1 = (r.log.take (index - r.truncatedLastIndex) ++ []).length +
      r.truncatedLastIndex
    rw [List.append_nil, List.length_take]
    omega

/-! ### The comparison -/

/-- The first `count` of the entries have the terms of the log from `index` on. -/
def HasTerms (r : Replica) (index : ℕ) (entries : List Entry) (count : ℕ) : Prop :=
  ∀ k < count, ∀ e ∈ entries[k]?, r.logTermAt (index + k) = some e.term

/-- The log ends before `index`, or it has another term there. -/
def Diverges (r : Replica) (index : ℕ) (entry : Entry) : Prop :=
  index = r.lastLogIndex + 1 ∨ ∃ term ∈ r.logTermAt index, entry.term ≠ term

/-- The loop passes over entries that agree with the log, and cuts the log at the first one that does
not. -/
theorem matchEntries_eq (hr : r.WellFormed) (entries : List Entry) : ∀ {index : ℕ},
    r.commitIndex < index → index ≤ r.lastLogIndex + 1 → ∃ count, r.HasTerms index entries count ∧
        (count = entries.length ∧ r.matchEntries index entries = some (r, []) ∨
          ∃ entry ∈ entries[count]?, r.Diverges (index + count) entry ∧
            index + count ≤ r.lastLogIndex + 1 ∧ r.matchEntries index entries =
              some (r.splice (index + count) [], entries.drop count)) := by
  have hlast := hr.last
  induction entries with
  | nil =>
    intro index _ _
    exact ⟨0, fun k hk => absurd hk (Nat.not_lt_zero k), .inl ⟨rfl, rfl⟩⟩
  | cons entry entries ih =>
    intro index hcommit hle
    by_cases hend : index = r.lastLogIndex + 1
    · refine ⟨0, fun k hk => absurd hk (Nat.not_lt_zero k), .inr ⟨entry, rfl, .inl hend, hle, ?_⟩⟩
      rw [matchEntries, if_neg (by omega), hend, splice_last hr]
      rfl
    · have htruncated := hr.truncated_le_commit
      obtain ⟨term, hterm⟩ := hr.exists_logTermAt (i := index) (by omega) (by omega)
      by_cases heq : entry.term = term
      · obtain ⟨count, hagrees, hresult⟩ := @ih (index + 1) (by omega) (by omega)
        have hstep : r.matchEntries index (entry :: entries) =
            r.matchEntries (index + 1) entries := by
          rw [matchEntries, if_pos (by omega), hterm]
          simp [heq]
        have hindex : index + (count + 1) = index + 1 + count := by omega
        refine ⟨count + 1, ?_, ?_⟩
        · intro k hk e he
          cases k with
          | zero =>
            cases he
            rw [heq]
            exact hterm
          | succ k =>
            have hk' : index + (k + 1) = index + 1 + k := by omega
            rw [hk']
            exact hagrees k (by omega) e (by simpa using he)
        · rw [hstep, hindex]
          simpa using hresult
      · refine ⟨0, fun k hk => absurd hk (Nat.not_lt_zero k), .inr ⟨entry, rfl,
          .inr ⟨term, hterm, heq⟩, hle, ?_⟩⟩
        rw [matchEntries, if_pos (by omega), hterm]
        simp [heq, truncateLog_eq hr hcommit (by omega)]

/-- The entries of the message that lie behind the commit index. -/
def newEntries (r : Replica) (ae : AppendEntries) : List Entry :=
  ae.entries.drop (r.commitIndex - ae.prevLogIndex)

/-- The index before the first of them. -/
def mergeIndex (r : Replica) (ae : AppendEntries) : ℕ := max ae.prevLogIndex r.commitIndex

/-- **The merge.**  It comes to its end, and leaves the log as it is or splices it at the first entry
that the log does not have. -/
theorem appendFrom_eq (hr : r.WellFormed) (hsnapshot : r.snapshotLastIndex ≤ r.commitIndex)
    (hprev : ae.prevLogIndex ≤ r.lastLogIndex) :
    ∃ count, r.HasTerms (r.mergeIndex ae + 1) (r.newEntries ae) count ∧
      (count = (r.newEntries ae).length ∧ r.appendFrom ae = some r ∨
        ∃ entry ∈ (r.newEntries ae)[count]?, r.Diverges (r.mergeIndex ae + 1 + count) entry ∧
          r.mergeIndex ae + 1 + count ≤ r.lastLogIndex + 1 ∧ r.appendFrom ae = some
            (r.splice (r.mergeIndex ae + 1 + count) ((r.newEntries ae).drop count))) := by
  have hcommit := hr.commit_le
  have htruncated := hr.truncated_le_commit
  -- both branches start the loop behind the commit index
  have hloop : r.appendFrom ae =
      (r.matchEntries (r.mergeIndex ae + 1) (r.newEntries ae)).bind fun x => x.1.addToLog x.2 := by
    unfold appendFrom mergeIndex newEntries
    simp only [hsnapshot, guard_true, pure_def, bind, bind_some]
    split_ifs with hskip
    · have hdrop : r.commitIndex - (ae.prevLogIndex + 1) + 1 = r.commitIndex - ae.prevLogIndex := by
        omega
      rw [hdrop, max_eq_right (by omega)]
    · have hdrop : r.commitIndex - ae.prevLogIndex = 0 := by omega
      rw [hdrop, max_eq_left (by omega), List.drop_zero]
  have hlt : r.commitIndex < r.mergeIndex ae + 1 := by
    unfold mergeIndex
    omega
  have hle : r.mergeIndex ae + 1 ≤ r.lastLogIndex + 1 := by
    unfold mergeIndex
    omega
  obtain ⟨count, hagrees, ⟨hcount, hmatch⟩ | ⟨entry, hentry, hdiverges, hend, hmatch⟩⟩ :=
    matchEntries_eq hr (r.newEntries ae) hlt hle
  · refine ⟨count, hagrees, .inl ⟨hcount, ?_⟩⟩
    rw [hloop, hmatch]
    rfl
  · refine ⟨count, hagrees, .inr ⟨entry, hentry, hdiverges, hend, ?_⟩⟩
    rw [hloop, hmatch]
    exact addToLog_splice hr (by omega) hend _

/-! ### The handler -/

/-- The entries, their indices and their number are the same. -/
structure SameEntries (r r' : Replica) : Prop where
  log : r'.log = r.log
  lastLogIndex : r'.lastLogIndex = r.lastLogIndex
  truncatedLastIndex : r'.truncatedLastIndex = r.truncatedLastIndex

theorem SameEntries.logEntryAt {r' : Replica} (h : SameEntries r r') (i : ℕ) :
    r'.logEntryAt i = r.logEntryAt i := by
  rw [Replica.logEntryAt, Replica.logEntryAt, logicalLogSize, logicalLogSize, h.log,
    h.truncatedLastIndex]

theorem accepts_iff_currentTerm_le : r.accepts ae = true ↔ r.currentTerm ≤ ae.term ∧
    (ae.prevLogIndex ≤ r.truncatedLastIndex ∨
      ae.prevLogIndex < r.logicalLogSize ∧ r.logTermAt ae.prevLogIndex = some ae.prevLogTerm) := by
  simp [accepts, hasMatchingPrevLogEntry, termCheck_eq_stale]

theorem prevLogIndex_le_of_accepts (hr : r.WellFormed) (h : r.accepts ae = true) :
    ae.prevLogIndex ≤ r.lastLogIndex := by
  have hlast := hr.last
  have htruncated := hr.truncated_le_last
  obtain ⟨_, hprev⟩ := accepts_iff_currentTerm_le.1 h
  omega

theorem receiveAppendEntries_of_accepts (hid : ae.leaderId ≠ r.id) (haccept : r.accepts ae = true) :
    r.receiveAppendEntries cfg ae = ((r.acceptTerm ae).appendFrom ae).bind fun r₂ =>
      ((r₂.raiseCommitIndex ae.leaderCommitIndex).prepareCommit cfg).map fun p =>
        ⟨p.1, [(ae.leaderId, .appendEntriesResponse
          ⟨p.1.currentTerm, true, p.1.id, r₂.lastLogIndex, 0, 0⟩)], p.2⟩ := by
  simp only [receiveAppendEntries, if_neg hid, haccept, Bool.not_true, Bool.false_eq_true, if_false]
  refine congrArg _ (funext fun r₂ => ?_)
  cases (r₂.raiseCommitIndex ae.leaderCommitIndex).prepareCommit cfg <;> rfl

theorem receiveAppendEntries_of_not_accepts (hid : ae.leaderId ≠ r.id)
    (haccept : ¬ r.accepts ae = true) :
    r.receiveAppendEntries cfg ae = ((r.acceptTerm ae).conflict ae).map fun p =>
      ⟨r.acceptTerm ae, [(ae.leaderId, .appendEntriesResponse ⟨(r.acceptTerm ae).currentTerm, false,
        (r.acceptTerm ae).id, (r.acceptTerm ae).lastLogIndex, p.1, p.2⟩)], []⟩ := by
  simp only [receiveAppendEntries, if_neg hid, haccept, bind]
  cases (r.acceptTerm ae).conflict ae <;> rfl

theorem prepareCommit_sameEntries {r' : Replica} {requests : List Request}
    (h : r.prepareCommit cfg = some (r', requests)) :
    SameEntries r r' ∧ r'.commitIndex = r.commitIndex := by
  simp only [prepareCommit, bind, bind_eq_some_iff] at h
  obtain ⟨_, _, h⟩ := h
  cases h
  exact ⟨⟨rfl, rfl, rfl⟩, rfl⟩

/-- **An accepted message.**  The log is merged, and the commit index is raised to what the leader has
committed, but not over the end of the log. -/
theorem receiveAppendEntries_merge (hr : r.WellFormed) (hid : ae.leaderId ≠ r.id)
    (haccept : r.accepts ae = true) {o : Outcome} (h : r.receiveAppendEntries cfg ae = some o) :
    o.replica.commitIndex = (if r.commitIndex < ae.leaderCommitIndex then
        min ae.leaderCommitIndex o.replica.lastLogIndex else r.commitIndex) ∧
      ∃ count, r.HasTerms (r.mergeIndex ae + 1) (r.newEntries ae) count ∧
        (count = (r.newEntries ae).length ∧ SameEntries r o.replica ∨
          ∃ entry ∈ (r.newEntries ae)[count]?, r.Diverges (r.mergeIndex ae + 1 + count) entry ∧
            r.mergeIndex ae + 1 + count ≤ r.lastLogIndex + 1 ∧
            SameEntries (r.splice (r.mergeIndex ae + 1 + count) ((r.newEntries ae).drop count))
              o.replica) := by
  rw [receiveAppendEntries_of_accepts hid haccept] at h
  obtain ⟨r₂, happend, h⟩ := bind_eq_some_iff.1 h
  obtain ⟨⟨r₃, requests⟩, hprepare, rfl⟩ := map_eq_some_iff.1 h
  obtain ⟨hsame₃, hcommit₃⟩ := prepareCommit_sameEntries hprepare
  rw [raiseCommitIndex_eq] at hsame₃ hcommit₃
  have hlog := acceptTerm_sameLog r ae
  have hr₁ : (r.acceptTerm ae).WellFormed := (MovesOn.of_sameLog hlog hr).1
  have hsnapshot : (r.acceptTerm ae).snapshotLastIndex ≤ (r.acceptTerm ae).commitIndex := by
    simp only [appendFrom, bind, bind_eq_some_iff, guard_eq_some'] at happend
    exact happend.choose_spec.1
  have hprev : ae.prevLogIndex ≤ (r.acceptTerm ae).lastLogIndex := by
    rw [hlog.lastLogIndex]
    exact prevLogIndex_le_of_accepts hr haccept
  have hindex : (r.acceptTerm ae).mergeIndex ae = r.mergeIndex ae := by
    rw [mergeIndex, mergeIndex, hlog.commitIndex]
  have hnew : (r.acceptTerm ae).newEntries ae = r.newEntries ae := by
    rw [newEntries, newEntries, hlog.commitIndex]
  obtain ⟨count, hagrees, hresult⟩ := appendFrom_eq hr₁ hsnapshot hprev
  rw [hindex, hnew] at hagrees hresult
  have hcommit₂ : r₂.commitIndex = r.commitIndex := by
    obtain ⟨_, heq⟩ | ⟨_, _, _, _, heq⟩ := hresult
    · rw [happend] at heq
      cases heq
      exact hlog.commitIndex
    · rw [happend] at heq
      cases heq
      exact hlog.commitIndex
  refine ⟨?_, count, ?_, ?_⟩
  · rw [hcommit₃, hsame₃.lastLogIndex, hcommit₂]
  · intro k hk e he
    rw [← hlog.logTermAt]
    exact hagrees k hk e he
  · obtain ⟨hcount, heq⟩ | ⟨entry, hentry, hdiverges, hend, heq⟩ := hresult
    · rw [happend] at heq
      cases heq
      refine .inl ⟨hcount, hsame₃.log.trans hlog.log, ?_, ?_⟩
      · exact hsame₃.lastLogIndex.trans hlog.lastLogIndex
      · exact hsame₃.truncatedLastIndex.trans hlog.truncatedLastIndex
    · rw [happend] at heq
      cases heq
      rw [Diverges, hlog.lastLogIndex, hlog.logTermAt] at hdiverges
      rw [hlog.lastLogIndex] at hend
      refine .inr ⟨entry, hentry, hdiverges, hend, hsame₃.log.trans ?_, hsame₃.lastLogIndex, ?_⟩
      · simp only [splice, hlog.log, hlog.truncatedLastIndex]
      · exact hsame₃.truncatedLastIndex.trans hlog.truncatedLastIndex

/-! ### Which entries are committed -/

/-- An entry of the message behind the commit index has another term than the log at its index. -/
def Conflicts (r : Replica) (ae : AppendEntries) : Prop :=
  ∃ k, ∃ e ∈ ae.entries[k]?, r.commitIndex < ae.prevLogIndex + 1 + k ∧
    ∃ term ∈ r.logTermAt (ae.prevLogIndex + 1 + k), e.term ≠ term

/-- The condition.  The leader has committed nothing behind the entries of the message, or the log has
nothing there, or it is going to be cut. -/
def TailVerified (r : Replica) (ae : AppendEntries) : Prop :=
  ae.leaderCommitIndex ≤ max r.commitIndex (ae.prevLogIndex + ae.entries.length) ∨
    r.lastLogIndex ≤ max r.commitIndex (ae.prevLogIndex + ae.entries.length) ∨ r.Conflicts ae

theorem newEntries_getElem? (r : Replica) (ae : AppendEntries) (k : ℕ) :
    (r.newEntries ae)[k]? = ae.entries[r.commitIndex - ae.prevLogIndex + k]? ∧
      r.mergeIndex ae + 1 + k = ae.prevLogIndex + 1 + (r.commitIndex - ae.prevLogIndex + k) := by
  refine ⟨List.getElem?_drop, ?_⟩
  unfold mergeIndex
  omega

variable {k : ℕ}

theorem exists_newEntries (h : r.commitIndex < ae.prevLogIndex + 1 + k) :
    ∃ j, (r.newEntries ae)[j]? = ae.entries[k]? ∧
      r.mergeIndex ae + 1 + j = ae.prevLogIndex + 1 + k := by
  have hk : r.commitIndex - ae.prevLogIndex + (k - (r.commitIndex - ae.prevLogIndex)) = k := by
    omega
  have hget := newEntries_getElem? r ae (k - (r.commitIndex - ae.prevLogIndex))
  rw [hk] at hget
  exact ⟨_, hget⟩

theorem not_conflicts_of_hasTerms
    (h : r.HasTerms (r.mergeIndex ae + 1) (r.newEntries ae) (r.newEntries ae).length) :
    ¬ r.Conflicts ae := by
  rintro ⟨k, e, he, hcommit, term, hterm, hne⟩
  obtain ⟨j, hj, hindex⟩ := exists_newEntries hcommit
  have hlt : j < (r.newEntries ae).length := by
    rw [← hj] at he
    exact (List.getElem?_eq_some_iff.1 he).1
  have hagrees := h j hlt e (hj.trans he)
  rw [hindex, mem_def.1 hterm] at hagrees
  exact hne (Option.some.inj hagrees).symm

theorem conflicts_of_new (he : (r.newEntries ae)[k]? = some e) {term : ℕ}
    (hterm : r.logTermAt (r.mergeIndex ae + 1 + k) = some term) (hne : e.term ≠ term) :
    r.Conflicts ae := by
  obtain ⟨hget, hindex⟩ := newEntries_getElem? r ae k
  refine ⟨_, e, hget.symm.trans he, ?_, term, hindex ▸ hterm, hne⟩
  omega

theorem splice_lastLogIndex {count : ℕ} (hlt : count < (r.newEntries ae).length) :
    (r.splice (r.mergeIndex ae + 1 + count) ((r.newEntries ae).drop count)).lastLogIndex =
        ae.prevLogIndex + ae.entries.length ∧
      r.commitIndex < ae.prevLogIndex + ae.entries.length := by
  have hlength : (r.newEntries ae).length =
      ae.entries.length - (r.commitIndex - ae.prevLogIndex) := List.length_drop
  have hindex : r.mergeIndex ae = max ae.prevLogIndex r.commitIndex := rfl
  constructor
  · change r.mergeIndex ae + 1 + count - 1 + ((r.newEntries ae).drop count).length = _
    rw [List.length_drop]
    omega
  · omega

/-- After an accepted message the commit index is within what was committed before and what the message
has verified exactly under the condition. -/
theorem commit_verified_iff (hr : r.WellFormed) (hid : ae.leaderId ≠ r.id)
    (haccept : r.accepts ae = true) {o : Outcome} (h : r.receiveAppendEntries cfg ae = some o) :
    o.replica.commitIndex ≤ max r.commitIndex
        (min ae.leaderCommitIndex (ae.prevLogIndex + ae.entries.length)) ↔ r.TailVerified ae := by
  obtain ⟨hcommit, count, hagrees, ⟨hcount, hsame⟩ | ⟨entry, hentry, hdiverges, hend, hsame⟩⟩ :=
    receiveAppendEntries_merge hr hid haccept h
  · -- the log is as before
    have hnot : ¬ r.Conflicts ae := not_conflicts_of_hasTerms (hcount ▸ hagrees)
    rw [hcommit, hsame.lastLogIndex]
    simp only [TailVerified, hnot, or_false]
    split_ifs <;> omega
  · -- the log ends with the message
    obtain ⟨hlast, hgt⟩ := splice_lastLogIndex (List.getElem?_eq_some_iff.1 hentry).1
    have hlt := (List.getElem?_eq_some_iff.1 hentry).1
    have hbound : r.mergeIndex ae + 1 + count ≤ ae.prevLogIndex + ae.entries.length := by
      have hlength : (r.newEntries ae).length =
          ae.entries.length - (r.commitIndex - ae.prevLogIndex) := List.length_drop
      have hindex : r.mergeIndex ae = max ae.prevLogIndex r.commitIndex := rfl
      omega
    rw [hcommit, hsame.lastLogIndex, hlast]
    have hverified : r.TailVerified ae := by
      obtain hnext | ⟨term, hterm, hne⟩ := hdiverges
      · exact .inr (.inl (by omega))
      · exact .inr (.inr (conflicts_of_new hentry hterm hne))
    refine ⟨fun _ => hverified, fun _ => ?_⟩
    split_ifs <;> omega

/-- Replica 3 has the entry that the heartbeat names, and nothing behind it. -/
theorem commit_verified_iff_heartbeat : ∃ c ae o,
    clusterAfter (commitRun ++ [.sendHeartbeat 2 stillClock]) = some c ∧
      (c.sent[15]?.map fun p => (p.dst, p.message)) = some (3, .appendEntries ae) ∧
      (c.replicas 3).receiveAppendEntries threeReplicas ae = some o ∧
      (c.replicas 3).commitIndex = 0 ∧ o.replica.commitIndex = 1 ∧
      o.replica.commitIndex ≤ max (c.replicas 3).commitIndex
        (min ae.leaderCommitIndex (ae.prevLogIndex + ae.entries.length)) := by
  refine ⟨_, _, _, rfl, rfl, rfl, by decide +kernel, by decide +kernel, ?_⟩
  refine (@commit_verified_iff threeReplicas _ _ (by decide +kernel) (by decide +kernel)
    (by decide +kernel) _ rfl).2 (.inr (.inl ?_))
  decide +kernel

/-- The heartbeat to replica 1 compares the sentinel only.  Replica 1 commits its own entry at index
1, which is not the leader's. -/
theorem commit_verified_fails : ∃ c ae o,
    clusterAfter (commitRun ++ [.sendHeartbeat 2 stillClock]) = some c ∧
      (c.sent[14]?.map fun p => (p.dst, p.message)) = some (1, .appendEntries ae) ∧
      ae = ⟨2, 2, 0, 0, [], 1⟩ ∧ (c.replicas 1).log = [sentinel, ⟨1, "a"⟩] ∧
      (c.replicas 1).accepts ae = true ∧
      (c.replicas 1).receiveAppendEntries threeReplicas ae = some o ∧
      ¬ o.replica.commitIndex ≤ max (c.replicas 1).commitIndex
        (min ae.leaderCommitIndex (ae.prevLogIndex + ae.entries.length)) :=
  ⟨_, _, _, rfl, rfl, by decide +kernel, by decide +kernel, by decide +kernel, rfl,
    by decide +kernel⟩

/-! ### The messages at which a follower stops -/

namespace WellFormed

section

variable (hr : r.WellFormed)
include hr

theorem exists_commitRequests (cfg : Config) (count : ℕ) : ∀ {index : ℕ},
    r.truncatedLastIndex ≤ index → index + count ≤ r.lastLogIndex →
    ∃ requests, commitRequests cfg r index count = some requests := by
  induction count with
  | zero =>
    intro index _ _
    exact ⟨[], rfl⟩
  | succ count ih =>
    intro index hle hlast
    obtain ⟨entry, hentry⟩ := hr.exists_logEntryAt (i := index + 1) (by omega) (by omega)
    obtain ⟨rest, hrest⟩ := @ih (index + 1) (by omega) (by omega)
    refine ⟨(requestOf cfg entry (index + 1)).toList ++ rest, ?_⟩
    simp only [commitRequests, hentry, hrest, bind, bind_some]

theorem exists_prepareCommit (cfg : Config) : ∃ p, r.prepareCommit cfg = some p := by
  have hcommit := hr.commit_le
  have hcommitted := hr.committed_le
  have hcount : r.lastCommitted + (min r.commitIndex (r.logicalLogSize - 1) - r.lastCommitted) ≤
      r.lastLogIndex := by omega
  obtain ⟨requests, hrequests⟩ := hr.exists_commitRequests cfg _ hr.truncated_le hcount
  simp only [prepareCommit, hrequests, bind]
  exact ⟨_, rfl⟩

theorem exists_firstLogIndexWithTerm (term : ℕ) : ∀ {index : ℕ},
    index ≤ r.lastLogIndex → ∃ first, r.firstLogIndexWithTerm term index = some first := by
  intro index
  induction index with
  | zero =>
    intro _
    exact ⟨0, rfl⟩
  | succ index ih =>
    intro hle
    unfold firstLogIndexWithTerm
    split_ifs with hcommit
    · have htruncated := hr.truncated_le_commit
      obtain ⟨term', hterm'⟩ := hr.exists_logTermAt (i := index) (by omega) (by omega)
      rw [hterm', Option.bind_eq_bind, bind_some]
      split_ifs
      · exact ih (by omega)
      · exact ⟨_, rfl⟩
    · exact ⟨_, rfl⟩

theorem conflict_eq_none_iff : r.conflict ae = none ↔ ae.prevLogIndex < r.truncatedLastIndex := by
  have htruncated := hr.truncated_le_last
  unfold conflict
  by_cases hshort : r.lastLogIndex < ae.prevLogIndex
  · rw [if_pos hshort]
    exact ⟨fun h => (nomatch h), fun h => by omega⟩
  rw [if_neg hshort]
  rw [not_lt] at hshort
  by_cases hle : r.truncatedLastIndex ≤ ae.prevLogIndex
  · obtain ⟨term, hterm⟩ := hr.exists_logTermAt hle hshort
    obtain ⟨first, hfirst⟩ := hr.exists_firstLogIndexWithTerm term hshort
    rw [hterm, Option.bind_eq_bind, bind_some, hfirst]
    refine ⟨fun h => ?_, fun h => by omega⟩
    split_ifs at h
    exact nomatch h
  · have hnone : r.logTermAt ae.prevLogIndex = none := if_neg fun h => hle h.1
    rw [hnone]
    exact ⟨fun _ => not_le.1 hle, fun _ => rfl⟩

theorem appendFrom_eq_none_iff (hprev : ae.prevLogIndex ≤ r.lastLogIndex) :
    r.appendFrom ae = none ↔ r.commitIndex < r.snapshotLastIndex := by
  constructor
  · intro h
    by_contra hle
    obtain ⟨_, _, ⟨_, hsome⟩ | ⟨_, _, _, _, hsome⟩⟩ := appendFrom_eq hr (not_lt.1 hle) hprev
    · exact nomatch h.symm.trans hsome
    · exact nomatch h.symm.trans hsome
  · intro hlt
    simp only [appendFrom, not_le.2 hlt, guard_false, Option.failure_eq_none, bind,
      Option.bind_none]

end

end WellFormed

/-- **Where a follower stops.**  It is the assertion on the snapshot index in front of the merge, or
the lookup of a term under the truncated prefix for the answer to a stale message. -/
theorem receiveAppendEntries_eq_none_iff (hr : r.WellFormed) :
    r.receiveAppendEntries cfg ae = none ↔ ae.leaderId ≠ r.id ∧
      (r.accepts ae = true ∧ r.commitIndex < r.snapshotLastIndex ∨
        ae.term < r.currentTerm ∧ ae.prevLogIndex < r.truncatedLastIndex) := by
  have hlog := acceptTerm_sameLog r ae
  have hr₁ : (r.acceptTerm ae).WellFormed := (MovesOn.of_sameLog hlog hr).1
  by_cases hid : ae.leaderId = r.id
  · rw [receiveAppendEntries, if_pos hid]
    exact ⟨fun h => (nomatch h), fun h => absurd hid h.1⟩
  rw [and_iff_right hid]
  by_cases haccept : r.accepts ae = true
  · have hprev : ae.prevLogIndex ≤ (r.acceptTerm ae).lastLogIndex :=
      hlog.lastLogIndex ▸ prevLogIndex_le_of_accepts hr haccept
    have hstale : ¬ ae.term < r.currentTerm := not_lt.2 (accepts_iff_currentTerm_le.1 haccept).1
    -- what follows the merge comes to its end
    have hmerge : r.receiveAppendEntries cfg ae = none ↔ (r.acceptTerm ae).appendFrom ae = none := by
      rw [receiveAppendEntries_of_accepts hid haccept]
      cases happend : (r.acceptTerm ae).appendFrom ae with
      | none => exact ⟨fun _ => rfl, fun _ => rfl⟩
      | some r₂ =>
        have hr₂ := ((LogSteps.appendFrom happend).movesOn.trans
          (.raiseCommitIndex r₂ ae.leaderCommitIndex) hr₁).1
        obtain ⟨p, hp⟩ := hr₂.exists_prepareCommit cfg
        rw [bind_some, hp]
        exact ⟨fun h => (nomatch h), fun h => (nomatch h)⟩
    rw [hmerge, hr₁.appendFrom_eq_none_iff hprev, hlog.commitIndex, hlog.snapshotLastIndex]
    exact ⟨fun h => .inl ⟨haccept, h⟩, fun h => h.elim And.right fun h => absurd h.1 hstale⟩
  · -- a message of the current or a newer term has an index behind the truncated prefix
    have hstale : ae.prevLogIndex < r.truncatedLastIndex → ae.term < r.currentTerm := by
      intro hlt
      by_contra hle
      exact haccept (accepts_iff_currentTerm_le.2 ⟨not_lt.1 hle, .inl hlt.le⟩)
    rw [receiveAppendEntries_of_not_accepts hid haccept, Option.map_eq_none_iff,
      hr₁.conflict_eq_none_iff, hlog.truncatedLastIndex]
    exact ⟨fun h => .inr ⟨hstale h, h⟩, fun h => h.elim (fun h => absurd h.1 haccept) And.right⟩

/-! ### The log after the merge -/

/-- The message names the entry that the log has at an index by its term: this is what log matching
gives for the messages of a leader. -/
def NamesEntries (r : Replica) (ae : AppendEntries) : Prop :=
  ∀ k, ∀ e ∈ ae.entries[k]?, ∀ e' ∈ r.logEntryAt (ae.prevLogIndex + 1 + k), e'.term = e.term → e' = e

/-- The message has the entries of the log up to the commit index. -/
def AgreesCommitted (r : Replica) (ae : AppendEntries) : Prop :=
  ∀ k, ∀ e ∈ ae.entries[k]?, ae.prevLogIndex + 1 + k ≤ r.commitIndex →
    ∀ e' ∈ r.logEntryAt (ae.prevLogIndex + 1 + k), e' = e

/-- Some entry of the message has another term than the entry of the log at its index. -/
def TermDiffers (r : Replica) (ae : AppendEntries) : Prop :=
  ∃ k, ∃ e ∈ ae.entries[k]?, ∃ e' ∈ r.logEntryAt (ae.prevLogIndex + 1 + k), e.term ≠ e'.term

theorem termDiffers_iff_conflicts (hr : r.WellFormed) (hcommitted : r.AgreesCommitted ae) :
    r.TermDiffers ae ↔ r.Conflicts ae := by
  constructor
  · rintro ⟨k, e, he, e', he', hne⟩
    refine ⟨k, e, he, ?_, e'.term, logTermAt_of_logEntryAt he', hne⟩
    by_contra hle
    exact hne (by rw [hcommitted k e he (not_lt.1 hle) e' he'])
  · rintro ⟨k, e, he, hcommit, term, hterm, hne⟩
    have hlt : r.truncatedLastIndex < ae.prevLogIndex + 1 + k :=
      hr.truncated_le_commit.trans_lt hcommit
    rw [logTermAt_of_lt hlt] at hterm
    obtain ⟨e', he', rfl⟩ := map_eq_some_iff.1 hterm
    exact ⟨k, e, he, e', he', hne⟩

theorem NamesEntries.logEntryAt (hr : r.WellFormed) (hnames : r.NamesEntries ae)
    (he : ae.entries[k]? = some e) (hcommit : r.commitIndex < ae.prevLogIndex + 1 + k)
    (hterm : r.logTermAt (ae.prevLogIndex + 1 + k) = some e.term) :
    r.logEntryAt (ae.prevLogIndex + 1 + k) = some e := by
  have hlt : r.truncatedLastIndex < ae.prevLogIndex + 1 + k :=
    hr.truncated_le_commit.trans_lt hcommit
  rw [logTermAt_of_lt hlt] at hterm
  obtain ⟨e', he', hterm⟩ := map_eq_some_iff.1 hterm
  rw [he', hnames k e he e' he' hterm]

/-- An accepted message is handled to the end if the snapshot is not ahead of the commit index, as the
code asserts. -/
theorem exists_receiveAppendEntries (hr : r.WellFormed) (hsnapshot : r.snapshotLastIndex ≤ r.commitIndex)
    (haccept : r.accepts ae = true) : ∃ o, r.receiveAppendEntries cfg ae = some o := by
  rw [← Option.ne_none_iff_exists', ne_eq, receiveAppendEntries_eq_none_iff hr]
  rintro ⟨-, ⟨-, hahead⟩ | ⟨hstale, -⟩⟩
  · exact absurd hahead (not_lt.2 hsnapshot)
  · exact absurd hstale (not_lt.2 (accepts_iff_currentTerm_le.1 haccept).1)

/-- **The merge.**  The handler returns.  If the message agrees with the log up to the commit index, then
in front of its entries the log is as before, and what it had behind them is removed exactly if some term
differs.  If the message also names entries by their terms, then behind the commit index the log has the
entries of the message. -/
theorem append_merges (hr : r.WellFormed) (hsnapshot : r.snapshotLastIndex ≤ r.commitIndex)
    (hid : ae.leaderId ≠ r.id) (haccept : r.accepts ae = true) (hcommitted : r.AgreesCommitted ae) :
    ∃ o, r.receiveAppendEntries cfg ae = some o ∧
      (r.NamesEntries ae → ∀ k, ∀ e ∈ ae.entries[k]?, r.commitIndex < ae.prevLogIndex + 1 + k →
        o.replica.logEntryAt (ae.prevLogIndex + 1 + k) = some e) ∧
      (∀ i, i ≤ ae.prevLogIndex ∨ i ≤ r.commitIndex → o.replica.logEntryAt i = r.logEntryAt i) ∧
      (r.TermDiffers ae → ∀ i, ae.prevLogIndex + ae.entries.length < i →
        o.replica.logEntryAt i = none) ∧
      (¬ r.TermDiffers ae → ∀ i, ae.prevLogIndex + ae.entries.length < i →
        o.replica.logEntryAt i = r.logEntryAt i) := by
  obtain ⟨o, h⟩ := @exists_receiveAppendEntries cfg r ae hr hsnapshot haccept
  refine ⟨o, h, ?_⟩
  rw [termDiffers_iff_conflicts hr hcommitted]
  have htruncated := hr.truncated_le_commit
  have hbase : r.mergeIndex ae = max ae.prevLogIndex r.commitIndex := rfl
  obtain ⟨_, count, hagrees, ⟨hcount, hsame⟩ | ⟨entry, hentry, hdiverges, hend, hsame⟩⟩ :=
    receiveAppendEntries_merge hr hid haccept h
  · -- every new entry agrees, and the log is as before
    have hnot : ¬ r.Conflicts ae := not_conflicts_of_hasTerms (hcount ▸ hagrees)
    refine ⟨?_, fun i _ => hsame.logEntryAt i, fun hconflict => absurd hconflict hnot,
      fun _ i _ => hsame.logEntryAt i⟩
    intro hnames k e he hcommit
    obtain ⟨j, hj, hindex⟩ := exists_newEntries hcommit
    have hlt : j < (r.newEntries ae).length := by
      rw [← hj] at he
      exact (List.getElem?_eq_some_iff.1 he).1
    have hterm := hagrees j (hcount ▸ hlt) e (hj.trans he)
    rw [hindex] at hterm
    rw [hsame.logEntryAt]
    exact hnames.logEntryAt hr he hcommit hterm
  · obtain ⟨hlast, _⟩ := splice_lastLogIndex (List.getElem?_eq_some_iff.1 hentry).1
    have hfirst : r.truncatedLastIndex < r.mergeIndex ae + 1 + count := by omega
    have hbehind : ∀ i, ae.prevLogIndex + ae.entries.length < i → o.replica.logEntryAt i = none := by
      intro i hi
      rw [← hlast] at hi
      change r.mergeIndex ae + 1 + count - 1 + ((r.newEntries ae).drop count).length < i at hi
      obtain ⟨k, rfl⟩ : ∃ k, i = r.mergeIndex ae + 1 + count + k :=
        ⟨i - (r.mergeIndex ae + 1 + count), by omega⟩
      rw [hsame.logEntryAt, logEntryAt_splice hfirst hend hr, List.getElem?_eq_none_iff]
      omega
    refine ⟨?_, ?_, fun _ => hbehind, ?_⟩
    · intro hnames k e he hcommit
      obtain ⟨j, hj, hindex⟩ := exists_newEntries hcommit
      rw [hsame.logEntryAt]
      by_cases hlt : j < count
      · -- passed over by the loop
        have hterm := hagrees j hlt e (hj.trans he)
        rw [hindex] at hterm
        rw [logEntryAt_splice_of_lt (by omega) hend hr]
        exact hnames.logEntryAt hr he hcommit hterm
      · -- appended
        have hsplit : ae.prevLogIndex + 1 + k = r.mergeIndex ae + 1 + count + (j - count) := by omega
        have hdrop : count + (j - count) = j := by omega
        rw [hsplit, logEntryAt_splice hfirst hend hr, List.getElem?_drop, hdrop, hj]
        exact he
    · intro i hi
      rw [hsame.logEntryAt, logEntryAt_splice_of_lt (by omega) hend hr]
    · intro hnot i hi
      obtain hnext | ⟨term, hterm, hne⟩ := hdiverges
      · have hlength := (List.getElem?_eq_some_iff.1 hentry).1
        have hnew : (r.newEntries ae).length =
            ae.entries.length - (r.commitIndex - ae.prevLogIndex) := List.length_drop
        rw [hbehind i hi, eq_comm, Option.eq_none_iff_forall_ne_some]
        intro e he
        have hle := hr.le_of_logEntryAt he
        omega
      · exact absurd (conflicts_of_new hentry hterm hne) hnot

/-- Replica 2 holds two entries of term 1; the leader of term 2 has another second entry. -/
theorem append_merges_conflict : ∃ before o,
    (construct 2).receiveAppendEntries threeReplicas ⟨1, 1, 0, 0, [⟨1, "a"⟩, ⟨1, "b"⟩, ⟨1, "c"⟩], 1⟩ =
        some before ∧
      before.replica.receiveAppendEntries threeReplicas ⟨2, 3, 1, 1, [⟨2, "d"⟩], 1⟩ = some o ∧
      before.replica.logEntryAt 3 = some ⟨1, "c"⟩ ∧
      o.replica.logEntryAt 2 = some ⟨2, "d"⟩ ∧ o.replica.logEntryAt 3 = none := by
  obtain ⟨before, hbefore, hr, hsnapshot, hid, haccept, hcommit, hsecond, hthird⟩ : ∃ before,
      (construct 2).receiveAppendEntries threeReplicas
          ⟨1, 1, 0, 0, [⟨1, "a"⟩, ⟨1, "b"⟩, ⟨1, "c"⟩], 1⟩ = some before ∧
        before.replica.WellFormed ∧
        before.replica.snapshotLastIndex ≤ before.replica.commitIndex ∧ 3 ≠ before.replica.id ∧
        before.replica.accepts ⟨2, 3, 1, 1, [⟨2, "d"⟩], 1⟩ = true ∧
        before.replica.commitIndex = 1 ∧ before.replica.logEntryAt 2 = some ⟨1, "b"⟩ ∧
        before.replica.logEntryAt 3 = some ⟨1, "c"⟩ :=
    ⟨_, rfl, by decide +kernel, by decide +kernel, by decide +kernel, by decide +kernel,
      by decide +kernel, by decide +kernel, by decide +kernel⟩
  have honly : ∀ (k : ℕ) (e : Entry), ([⟨2, "d"⟩] : List Entry)[k]? = some e →
      k = 0 ∧ e = ⟨2, "d"⟩ := by
    intro k e he
    cases k with
    | zero => exact ⟨rfl, (Option.some.inj he).symm⟩
    | succ k => exact absurd he (by simp)
  have hcommitted : before.replica.AgreesCommitted ⟨2, 3, 1, 1, [⟨2, "d"⟩], 1⟩ := by
    intro k e he hle
    obtain ⟨rfl, rfl⟩ := honly k e he
    rw [hcommit] at hle
    exact absurd hle (by decide)
  have hnames : before.replica.NamesEntries ⟨2, 3, 1, 1, [⟨2, "d"⟩], 1⟩ := by
    intro k e he e' he' hterm
    obtain ⟨rfl, rfl⟩ := honly k e he
    obtain rfl := Option.some.inj (hsecond.symm.trans he')
    exact absurd hterm (by decide)
  obtain ⟨o, ho, hentries, _, hremoved, _⟩ :=
    @append_merges threeReplicas _ _ hr hsnapshot hid haccept hcommitted
  refine ⟨before, o, hbefore, ho, hthird, hentries hnames 0 ⟨2, "d"⟩ rfl (by rw [hcommit]; decide), ?_⟩
  exact hremoved ⟨0, _, rfl, _, hsecond, by decide⟩ 3 (by decide)

/-- The loop compares terms.  An entry of the message with the term of the entry of the log is passed
over, whatever its command. -/
theorem append_merges_fails : ∃ before o,
    (construct 2).receiveAppendEntries threeReplicas ⟨1, 1, 0, 0, [⟨1, "a"⟩], 0⟩ = some before ∧
      before.replica.WellFormed ∧ before.replica.commitIndex = 0 ∧
      before.replica.accepts ⟨1, 1, 0, 0, [⟨1, "b"⟩], 0⟩ = true ∧
      before.replica.receiveAppendEntries threeReplicas ⟨1, 1, 0, 0, [⟨1, "b"⟩], 0⟩ = some o ∧
      o.replica.logEntryAt 1 ≠ some ⟨1, "b"⟩ :=
  ⟨_, _, rfl, by decide +kernel, by decide +kernel, by decide +kernel, rfl, by decide +kernel⟩

end Replica

end Raft
