/-
**What a Raft replica does to its log.**

Specifications of the functions that change the log, and of the handler of `AppendEntries`, in the
terms the cluster's invariants need.  They are about replicas of which nothing has been truncated
(`Raft.Replica.Intact`).

Main results:

* `Raft.Replica.Intact.appendFrom` — accepting entries of a log that is compatible with one's own
  only ever extends one's own;
* `Raft.Replica.receiveAppendEntries_accept` — what a follower does with a message it accepts.

The leader's handlers are in `ResilientDb/RaftLeader.lean`.
-/

import ResilientDb.PrefixOrder
import ResilientDb.RaftHandlers

set_option autoImplicit false

namespace Raft

namespace Replica

/-! ### What a step leaves alone -/

/-- The log and the counters are the same. -/
structure SameLog (r r' : Replica) : Prop where
  log : r'.log = r.log
  lastLogIndex : r'.lastLogIndex = r.lastLogIndex
  commitIndex : r'.commitIndex = r.commitIndex
  lastCommitted : r'.lastCommitted = r.lastCommitted
  truncatedLastIndex : r'.truncatedLastIndex = r.truncatedLastIndex
  truncatedLastTerm : r'.truncatedLastTerm = r.truncatedLastTerm
  snapshotLastIndex : r'.snapshotLastIndex = r.snapshotLastIndex
  snapshotLastTerm : r'.snapshotLastTerm = r.snapshotLastTerm

theorem SameLog.refl (r : Replica) : SameLog r r := ⟨rfl, rfl, rfl, rfl, rfl, rfl, rfl, rfl⟩

variable {r r' : Replica}

theorem SameLog.logTermAt (h : SameLog r r') (i : ℕ) : r'.logTermAt i = r.logTermAt i := by
  rw [Replica.logTermAt, Replica.logTermAt, logicalLogSize, logicalLogSize, h.log,
    h.truncatedLastIndex, h.truncatedLastTerm]

/-- The replica keeps its term, vote and role. -/
structure SameRole (r r' : Replica) : Prop where
  id : r'.id = r.id
  currentTerm : r'.currentTerm = r.currentTerm
  votedFor : r'.votedFor = r.votedFor
  role : r'.role = r.role
  votes : r'.votes = r.votes

theorem SameRole.refl (r : Replica) : SameRole r r := ⟨rfl, rfl, rfl, rfl, rfl⟩

theorem SameRole.trans {r₁ r₂ r₃ : Replica} (h : SameRole r₁ r₂) (h' : SameRole r₂ r₃) :
    SameRole r₁ r₃ :=
  ⟨h'.id.trans h.id, h'.currentTerm.trans h.currentTerm, h'.votedFor.trans h.votedFor,
    h'.role.trans h.role, h'.votes.trans h.votes⟩

/-- The replica is a follower afterwards; a new term starts without a vote. -/
structure StepsDown (r r' : Replica) : Prop where
  id : r'.id = r.id
  role : r'.role = .follower
  term : (r'.currentTerm = r.currentTerm ∧ r'.votedFor = r.votedFor) ∨
    (r.currentTerm < r'.currentTerm ∧ r'.votedFor = none)

/-- It keeps its view of the other replicas, too. -/
structure Demoted (r r' : Replica) : Prop extends StepsDown r r' where
  progress : r'.progress = r.progress

theorem Demoted.term_le (h : Demoted r r') : r.currentTerm ≤ r'.currentTerm := by
  rcases h.term with ⟨h, -⟩ | ⟨h, -⟩ <;> omega

theorem demoteSelf_sameLog (r : Replica) (term : ℕ) : SameLog r (r.demoteSelf term) := by
  unfold demoteSelf
  by_cases ht : r.currentTerm < term <;> by_cases hr : r.role = .follower <;>
    constructor <;> simp [ht, hr]

theorem SameLog.lastLogTerm (h : SameLog r r') : r'.lastLogTerm = r.lastLogTerm := by
  rw [Replica.lastLogTerm, Replica.lastLogTerm, h.logTermAt, h.lastLogIndex, h.truncatedLastIndex,
    h.truncatedLastTerm]

/-- A replica that demotes itself is a follower of the later term. -/
theorem demoteSelf_demoted (r : Replica) (term : ℕ) : Demoted r (r.demoteSelf term) := by
  unfold demoteSelf
  by_cases ht : r.currentTerm < term <;> by_cases hr : r.role = .follower <;>
    refine ⟨⟨?_, ?_, ?_⟩, ?_⟩ <;> simp [ht, hr]

theorem demoteSelf_currentTerm (r : Replica) (term : ℕ) :
    (r.demoteSelf term).currentTerm = max r.currentTerm term := by
  unfold demoteSelf
  by_cases ht : r.currentTerm < term
  · by_cases hr : r.role = .follower <;> simp [ht, hr] <;> omega
  · by_cases hr : r.role = .follower <;> simp [ht, hr] <;> omega

/-! ### Intact replicas -/

/-- A replica of which nothing has been truncated: its log starts with the sentinel, and the
counters point into it. -/
structure Intact (r : Replica) : Prop where
  truncatedIndex : r.truncatedLastIndex = 0
  truncatedTerm : r.truncatedLastTerm = 0
  snapshotIndex : r.snapshotLastIndex = 0
  snapshotTerm : r.snapshotLastTerm = 0
  first : r.log[0]? = some sentinel
  last : r.lastLogIndex + 1 = r.log.length
  commit : r.commitIndex ≤ r.lastLogIndex
  committed : r.lastCommitted ≤ r.commitIndex

namespace Intact

variable {r : Replica}

/-- Without a truncated part, an index is a position. -/
theorem logTermAt (h : r.Intact) (k : ℕ) : r.logTermAt k = (r.log[k]?).map Entry.term := by
  unfold Replica.logTermAt logicalLogSize
  rw [h.truncatedIndex, h.truncatedTerm]
  by_cases hk : k < r.log.length
  · by_cases h0 : k = 0
    · rw [h0] at hk ⊢
      rw [h.first, if_pos (by omega)]
      rfl
    · simp [hk, h0]
  · simp [hk]

theorem logEntryAt (h : r.Intact) {k : ℕ} {e : Entry} (he : r.logEntryAt k = some e) :
    0 < k ∧ r.log[k]? = some e := by
  unfold Replica.logEntryAt at he
  rw [h.truncatedIndex] at he
  split at he
  · rename_i hk
    exact ⟨hk.1, he⟩
  · cases he

theorem lastLogTerm (h : r.Intact) : r.lastLogTerm = (r.log[r.lastLogIndex]?).map Entry.term := by
  unfold Replica.lastLogTerm
  rw [h.truncatedIndex, h.truncatedTerm]
  split
  · rename_i h0
    simp [Nat.le_zero.1 h0, h.first, sentinel]
  · exact h.logTermAt _

/-- A log that nothing touches stays intact. -/
theorem of_sameLog (h : r.Intact) {r' : Replica} (hs : SameLog r r') : r'.Intact where
  truncatedIndex := hs.truncatedLastIndex.trans h.truncatedIndex
  truncatedTerm := hs.truncatedLastTerm.trans h.truncatedTerm
  snapshotIndex := hs.snapshotLastIndex.trans h.snapshotIndex
  snapshotTerm := hs.snapshotLastTerm.trans h.snapshotTerm
  first := hs.log ▸ h.first
  last := by rw [hs.lastLogIndex, hs.log, h.last]
  commit := by rw [hs.commitIndex, hs.lastLogIndex]; exact h.commit
  committed := by rw [hs.lastCommitted, hs.commitIndex]; exact h.committed

end Intact

theorem intact_construct (id : ℕ) : (construct id).Intact := by
  constructor <;> simp [construct]

/-! ### The log -/

/-- Entries are put at the end. -/
theorem addToLog_spec {entries : List Entry} (ha : r.addToLog entries = some r') : r' = { r with
      log := r.log ++ entries, lastLogIndex := r.lastLogIndex + entries.length } := by
  unfold addToLog at ha
  split at ha
  · rename_i hnil
    cases ha
    simp [hnil]
  · simp only [bind, Option.bind_eq_some_iff] at ha
    obtain ⟨-, -, ha⟩ := ha
    exact (Option.some.inj ha).symm

theorem Intact.addToLog {entries : List Entry} (h : r.Intact)
    (ha : r.addToLog entries = some r') : r'.Intact := by
  obtain rfl := addToLog_spec ha
  have hlast := h.last
  have hcommit := h.commit
  refine ⟨h.truncatedIndex, h.truncatedTerm, h.snapshotIndex, h.snapshotTerm, ?_, ?_, ?_,
    h.committed⟩
  · exact getElem?_of_isPrefix (List.prefix_append _ _) h.first
  · simp only [List.length_append]
    omega
  · simp only
    omega

variable {leaderLog : List Entry}

/-- Entries of a log that is compatible with one's own never conflict with it: nothing is truncated,
and what remains to be appended starts where one's own log ends. -/
theorem matchEntries_spec (h : r.Intact) (hc : Compatible r.log leaderLog) :
    ∀ (entries : List Entry) (logIdx : ℕ), entries <+: leaderLog.drop logIdx →
      logIdx ≤ r.log.length →
        r.matchEntries logIdx entries = some (r, entries.drop (r.log.length - logIdx))
  | [], logIdx, _, _ => by simp [matchEntries]
  | e :: entries, logIdx, hp, hle => by
    unfold matchEntries
    have hsize : r.logicalLogSize = r.log.length := by
      rw [logicalLogSize, h.truncatedIndex, Nat.add_zero]
    rw [hsize]
    split
    · rename_i hlt
      have hlead : leaderLog[logIdx]? = some e := by
        have := getElem?_of_isPrefix hp (k := 0) rfl
        simpa using this
      have hown : r.log[logIdx]? = some e := by
        have hget := List.getElem?_eq_getElem hlt
        rw [hget, hc.getElem? hget hlead]
      have htail : entries <+: leaderLog.drop (logIdx + 1) := by
        have := hp.drop 1
        simpa [List.drop_drop, Nat.add_comm] using this
      rw [h.logTermAt, hown]
      simp only [Option.map_some, bind, Option.bind_some, ne_eq, not_true, if_false]
      rw [matchEntries_spec h hc entries (logIdx + 1) htail hlt]
      have hdrop : r.log.length - logIdx = (r.log.length - (logIdx + 1)) + 1 := by omega
      rw [hdrop, List.drop_succ_cons]
    · have hzero : r.log.length - logIdx = 0 := by omega
      rw [hzero, List.drop_zero]

variable {ae : AppendEntries}

/-- **Accepting entries of a compatible log.**  The log is only ever extended, and only along the
leader's. -/
theorem Intact.appendFrom (h : r.Intact) (hc : Compatible r.log leaderLog)
    (hp : ae.entries <+: leaderLog.drop (ae.prevLogIndex + 1))
    (hprev : ae.prevLogIndex < r.log.length) (ha : r.appendFrom ae = some r') :
    ∃ rest, r' = { r with log := r.log ++ rest, lastLogIndex := r.lastLogIndex + rest.length } ∧
      r'.Intact ∧ (rest = [] ∨ r.log ++ rest <+: leaderLog) := by
  have hcommit : r.commitIndex < r.log.length := by
    have := h.last
    have := h.commit
    omega
  -- either way the loop starts at an index `logIdx` of the log, at the entry for that index
  obtain ⟨logIdx, entries, hle, hpre, hm⟩ : ∃ logIdx entries, logIdx ≤ r.log.length ∧
      entries <+: leaderLog.drop logIdx ∧
        (r.matchEntries logIdx entries).bind (fun x => x.1.addToLog x.2) = some r' := by
    unfold Replica.appendFrom at ha
    simp only [bind, Option.bind_eq_some_iff] at ha
    obtain ⟨-, -, ha⟩ := ha
    split at ha
    · refine ⟨r.commitIndex + 1, ae.entries.drop (r.commitIndex - (ae.prevLogIndex + 1) + 1),
        hcommit, ?_, ha⟩
      have hd := hp.drop (r.commitIndex - (ae.prevLogIndex + 1) + 1)
      rw [List.drop_drop] at hd
      have hidx : ae.prevLogIndex + 1 + (r.commitIndex - (ae.prevLogIndex + 1) + 1) =
          r.commitIndex + 1 := by omega
      rwa [hidx] at hd
    · exact ⟨ae.prevLogIndex + 1, ae.entries, hprev, hp, ha⟩
  rw [matchEntries_spec h hc entries logIdx hpre hle] at hm
  refine ⟨_, addToLog_spec hm, h.addToLog hm, ?_⟩
  by_cases hlen : logIdx + entries.length ≤ r.log.length
  · exact .inl (List.drop_eq_nil_of_le (by omega))
  · right
    have hll : r.log.length ≤ leaderLog.length := by
      have := hpre.length_le
      rw [List.length_drop] at this
      omega
    obtain ⟨t, rfl⟩ := hc.prefix_of_length_le hll
    have hd := hpre.drop (r.log.length - logIdx)
    rw [List.drop_drop, Nat.add_sub_cancel' hle, List.drop_left] at hd
    exact (List.prefix_append_right_inj _).2 hd

/-! ### Committing -/

variable {cfg : Config}

/-- The requests are those of the entries. -/
theorem commitRequests_spec (h : r.Intact) :
    ∀ {count index : ℕ} {requests : List Request},
      commitRequests cfg r index count = some requests → ∀ q ∈ requests,
        ∃ k e, index < k ∧ k ≤ index + count ∧ r.log[k]? = some e ∧ requestOf cfg e k = some q
  | 0, index, requests, hc, q, hq => by
    obtain rfl : [] = requests := by simpa [commitRequests] using hc
    cases hq
  | count + 1, index, requests, hc, q, hq => by
    simp only [commitRequests, bind, Option.bind_eq_some_iff] at hc
    obtain ⟨e, he, rest, hrest, hc⟩ := hc
    cases hc
    rcases List.mem_append.1 hq with hq | hq
    · exact ⟨index + 1, e, by omega, by omega, (h.logEntryAt he).2, by simpa using hq⟩
    · obtain ⟨k, e, hlt, hle, hk, hr⟩ := commitRequests_spec h hrest q hq
      exact ⟨k, e, by omega, by omega, hk, hr⟩

/-- What is committed is passed on, and `last_committed_` is raised. -/
theorem prepareCommit_spec {requests : List Request} (h : r.Intact)
    (hp : r.prepareCommit cfg = some (r', requests)) :
    r' = { r with lastCommitted := r.commitIndex } ∧
      ∀ q ∈ requests, ∃ k e, k ≤ r.commitIndex ∧ r.log[k]? = some e ∧
        requestOf cfg e k = some q := by
  unfold prepareCommit at hp
  have hsize : min r.commitIndex (r.logicalLogSize - 1) = r.commitIndex := by
    have := h.last
    have := h.commit
    rw [logicalLogSize, h.truncatedIndex]
    omega
  simp only [hsize, bind, Option.bind_eq_some_iff] at hp
  obtain ⟨reqs, hreqs, rfl, rfl⟩ := hp
  refine ⟨by rw [max_eq_right h.committed], ?_⟩
  intro q hq
  obtain ⟨k, e, -, hle, hk, hr⟩ := commitRequests_spec h hreqs q hq
  have := h.committed
  exact ⟨k, e, by omega, hk, hr⟩

theorem Intact.prepareCommit {requests : List Request}
    (h : r.Intact) (hp : r.prepareCommit cfg = some (r', requests)) : r'.Intact := by
  obtain ⟨rfl, -⟩ := prepareCommit_spec h hp
  exact ⟨h.truncatedIndex, h.truncatedTerm, h.snapshotIndex, h.snapshotTerm, h.first, h.last,
    h.commit, le_refl _⟩

/-! ### AppendEntries -/

variable {term : ℕ}

theorem termCheck_eq_stale : r.termCheck term = .stale ↔ term < r.currentTerm := by
  unfold termCheck
  split_ifs <;> simp_all

theorem termCheck_eq_current : r.termCheck term = .current ↔ term = r.currentTerm := by
  unfold termCheck
  split_ifs <;> simp <;> omega

theorem termCheck_eq_new : r.termCheck term = .new ↔ r.currentTerm < term := by
  unfold termCheck
  split_ifs <;> simp <;> omega

/-- When the log of a follower matches the message. -/
theorem accepts_iff (h : r.Intact) :
    r.accepts ae = true ↔ r.currentTerm ≤ ae.term ∧ ae.prevLogIndex < r.log.length ∧
      (ae.prevLogIndex = 0 ∨ (r.log[ae.prevLogIndex]?).map Entry.term = some ae.prevLogTerm) := by
  have hlen : 0 < r.log.length := by
    have := h.last
    omega
  unfold accepts hasMatchingPrevLogEntry logicalLogSize
  rw [h.truncatedIndex, h.logTermAt]
  simp only [ne_eq, termCheck_eq_stale, Bool.and_eq_true, decide_eq_true_eq, not_lt, Nat.le_zero]
  constructor
  · rintro ⟨ht, h0 | ⟨hlt, hterm⟩⟩
    · exact ⟨ht, by omega, .inl h0⟩
    · exact ⟨ht, hlt, .inr hterm⟩
  · rintro ⟨ht, hlt, h0 | hterm⟩
    · exact ⟨ht, .inl h0⟩
    · exact ⟨ht, .inr ⟨hlt, hterm⟩⟩

theorem acceptTerm_sameLog (r : Replica) (ae : AppendEntries) : SameLog r (r.acceptTerm ae) := by
  unfold acceptTerm
  have hd := demoteSelf_sameLog r ae.term
  split
  · exact SameLog.refl _
  · split_ifs
    · exact ⟨hd.1, hd.2, hd.3, hd.4, hd.5, hd.6, hd.7, hd.8⟩
    · exact ⟨rfl, rfl, rfl, rfl, rfl, rfl, rfl, rfl⟩
  · exact ⟨hd.1, hd.2, hd.3, hd.4, hd.5, hd.6, hd.7, hd.8⟩

theorem acceptTerm_stale (h : ae.term < r.currentTerm) : r.acceptTerm ae = r := by
  unfold acceptTerm
  rw [termCheck_eq_stale.2 h]

theorem acceptTerm_demoted (h : r.currentTerm ≤ ae.term) :
    Demoted r (r.acceptTerm ae) ∧ (r.acceptTerm ae).currentTerm = ae.term := by
  have hd := demoteSelf_demoted r ae.term
  have ht := demoteSelf_currentTerm r ae.term
  rw [max_eq_right h] at ht
  unfold acceptTerm
  cases hc : r.termCheck ae.term with
  | stale => exact absurd (termCheck_eq_stale.1 hc) (by omega)
  | current =>
    have heq := termCheck_eq_current.1 hc
    by_cases hr : r.role = .follower
    · simp only [hr, ne_eq, not_true, if_false]
      exact ⟨⟨⟨rfl, rfl, .inl ⟨rfl, rfl⟩⟩, rfl⟩, heq.symm⟩
    · simp only [ne_eq, hr]
      exact ⟨⟨⟨hd.id, hd.role, hd.term⟩, hd.progress⟩, ht⟩
  | new => exact ⟨⟨⟨hd.id, hd.role, hd.term⟩, hd.progress⟩, ht⟩

variable {o : Outcome}

/-- The answer to a message that does not match. -/
theorem receiveAppendEntries_reject (hne : ae.leaderId ≠ r.id) (hacc : r.accepts ae = false)
    (ho : r.receiveAppendEntries cfg ae = some o) :
    ∃ report, (r.acceptTerm ae).conflict ae = some report ∧
      o = ⟨r.acceptTerm ae, [(ae.leaderId, .appendEntriesResponse ⟨(r.acceptTerm ae).currentTerm,
        false, (r.acceptTerm ae).id, (r.acceptTerm ae).lastLogIndex, report.1, report.2⟩)], []⟩ := by
  unfold receiveAppendEntries at ho
  simp only [hne, if_false, hacc, Bool.not_false, if_true, bind, Option.bind_eq_some_iff] at ho
  obtain ⟨report, hreport, ho⟩ := ho
  exact ⟨report, hreport, (Option.some.inj ho).symm⟩

theorem acceptTerm_id (r : Replica) (ae : AppendEntries) : (r.acceptTerm ae).id = r.id := by
  by_cases h : ae.term < r.currentTerm
  · rw [acceptTerm_stale h]
  · exact (acceptTerm_demoted (not_lt.1 h)).1.id

theorem raiseCommitIndex_eq (r : Replica) (leaderCommit : ℕ) :
    r.raiseCommitIndex leaderCommit = { r with
      commitIndex := if r.commitIndex < leaderCommit then min leaderCommit r.lastLogIndex
        else r.commitIndex } := by
  unfold raiseCommitIndex
  split <;> rfl

theorem raiseCommitIndex_intact (h : r.Intact) (leaderCommit : ℕ) :
    (r.raiseCommitIndex leaderCommit).Intact := by
  have hc := h.commit
  have hcd := h.committed
  rw [raiseCommitIndex_eq]
  refine ⟨h.truncatedIndex, h.truncatedTerm, h.snapshotIndex, h.snapshotTerm, h.first, h.last,
    ?_, ?_⟩
  · simp only
    split <;> omega
  · simp only
    split <;> omega

/-- **An accepted `AppendEntries`.**  The replica follows the sender's term, extends its log along
the sender's, and answers with the index of its own last entry. -/
theorem receiveAppendEntries_accept (h : r.Intact) (hne : ae.leaderId ≠ r.id) (hacc : r.accepts ae = true)
    (hc : Compatible r.log leaderLog) (hp : ae.entries <+: leaderLog.drop (ae.prevLogIndex + 1))
    (ho : r.receiveAppendEntries cfg ae = some o) :
    ∃ rest, o.replica.Intact ∧ Demoted r o.replica ∧ o.replica.currentTerm = ae.term ∧
      o.replica.log = r.log ++ rest ∧ (rest = [] ∨ r.log ++ rest <+: leaderLog) ∧
      o.replica.commitIndex = (if r.commitIndex < ae.leaderCommitIndex then
        min ae.leaderCommitIndex o.replica.lastLogIndex else r.commitIndex) ∧
      o.sent = [(ae.leaderId, .appendEntriesResponse
        ⟨ae.term, true, r.id, o.replica.lastLogIndex, 0, 0⟩)] ∧
      ∀ q ∈ o.applied, ∃ k e, k ≤ o.replica.commitIndex ∧ o.replica.log[k]? = some e ∧
        requestOf cfg e k = some q := by
  obtain ⟨hterm, hprev, -⟩ := (accepts_iff h).1 hacc
  obtain ⟨hd, hct⟩ := acceptTerm_demoted hterm
  have hsl := acceptTerm_sameLog r ae
  have h₁ := h.of_sameLog hsl
  unfold receiveAppendEntries at ho
  simp only [hne, if_false, hacc, Bool.not_true, Bool.false_eq_true, bind,
    Option.bind_eq_some_iff] at ho
  obtain ⟨r₂, happ, ⟨r₃, requests⟩, hprep, ho⟩ := ho
  cases ho
  obtain ⟨rest, hr₂, h₂, hrest⟩ := h₁.appendFrom (by rw [hsl.log]; exact hc) hp
    (by rw [hsl.log]; exact hprev) happ
  obtain ⟨hr₃, hreq⟩ := prepareCommit_spec (raiseCommitIndex_intact h₂ ae.leaderCommitIndex) hprep
  have h₃ := (raiseCommitIndex_intact h₂ ae.leaderCommitIndex).prepareCommit hprep
  rw [raiseCommitIndex_eq] at hr₃ hreq
  subst hr₃ hr₂
  have hid := hd.id
  refine ⟨rest, h₃, ⟨⟨hid, hd.role, hd.term⟩, hd.progress⟩, hct, by simp [hsl.log], ?_, ?_, ?_, hreq⟩
  · rw [hsl.log] at hrest
    exact hrest
  · simp only [hsl.commitIndex]
  · simp only [hct, hid]

/-! ### Votes -/

/-- **A request for a vote.**  The replica may first step down to the request's term; it grants its
vote only if it has not given it to another candidate and the candidate's log is not behind. -/
theorem startElection_cases (hr : r.startElection cfg = some o) :
    r.role = .leader ∧ o = { replica := r } ∨ r.role ≠ .leader ∧ ∃ t, r.lastLogTerm = some t ∧
      o = ⟨{ r with
          role := .candidate
          currentTerm := r.currentTerm + 1
          votedFor := some r.id
          votes := [r.id] },
        (List.range' 1 cfg.totalNum).map fun i =>
          (i, .requestVote ⟨r.currentTerm + 1, r.id, r.lastLogIndex, t⟩), []⟩ := by
  unfold startElection at hr
  split at hr
  · cases hr
    exact .inl ⟨‹_›, rfl⟩
  · obtain ⟨t, ht, hr⟩ := Option.bind_eq_some_iff.1 hr
    cases hr
    exact .inr ⟨‹_›, t, ht, rfl⟩

end Replica

end Raft
