/-
**The branches of the Raft handlers.**

A handler of a replica is a chain of small functions with a few exits.  For each of them this module
lists the exits, with what has been computed on the way: an invariant is then proved with one case for
each exit, and from what the small functions do.

Main results:

* `Raft.Replica.receiveTransaction_branch`, `Raft.Replica.receiveAppendEntries_branch`,
  `Raft.Replica.receiveAppendEntriesResponse_branch`, `Raft.Replica.receiveRequestVote_branch`,
  `Raft.Replica.receiveRequestVoteResponse_branch` — the handlers;
* `Raft.Replica.appendFrom_cases` — entries are appended after at most one truncation.
-/

import ResilientDb.RaftRecovery
import ResilientDb.RaftSpecs
import ResilientDb.Transition

set_option autoImplicit false

namespace Raft

open Option (bind_eq_some_iff)

namespace Replica

variable {cfg : Config} {r r' : Replica}

/-! ### The small functions -/

theorem truncateLog_cases {firstIndex : ℕ} (h : r.truncateLog firstIndex = some r') :
    r.commitIndex < firstIndex ∧ firstIndex ≤ r.lastLogIndex ∧ r' = { r with
      log := r.log.take (firstIndex - r.truncatedLastIndex) ++
        r.log.drop (r.lastLogIndex - r.truncatedLastIndex + 1)
      lastLogIndex := r.lastLogIndex - (r.lastLogIndex - firstIndex + 1) } := by
  simp only [truncateLog, bind, bind_eq_some_iff, Option.guard_eq_some'] at h
  obtain ⟨_, hcommit, _, hle, _, _, h⟩ := h
  exact ⟨hcommit, hle, (Option.some.inj h).symm⟩

theorem matchEntries_cases {entries rest : List Entry} : ∀ {logIdx : ℕ},
    r.matchEntries logIdx entries = some (r', rest) →
      (r' = r ∨ ∃ firstIndex, r.truncateLog firstIndex = some r') ∧ rest ⊆ entries := by
  induction entries with
  | nil =>
    intro logIdx h
    cases h
    exact ⟨.inl rfl, List.Subset.refl _⟩
  | cons entry entries ih =>
    intro logIdx h
    unfold matchEntries at h
    split at h
    · obtain ⟨term, _, h⟩ := bind_eq_some_iff.1 h
      split at h
      · obtain ⟨r₁, h₁, h⟩ := bind_eq_some_iff.1 h
        cases h
        exact ⟨.inr ⟨logIdx, h₁⟩, List.Subset.refl _⟩
      · obtain ⟨hr', hrest⟩ := ih h
        exact ⟨hr', List.subset_cons_of_subset _ hrest⟩
    · cases h
      exact ⟨.inl rfl, List.Subset.refl _⟩

/-- Entries are appended after at most one truncation. -/
theorem appendFrom_cases {ae : AppendEntries} (h : r.appendFrom ae = some r') :
    ∃ r₁ rest, (r₁ = r ∨ ∃ firstIndex, r.truncateLog firstIndex = some r₁) ∧
      rest ⊆ ae.entries ∧ r₁.addToLog rest = some r' := by
  simp only [appendFrom, bind, bind_eq_some_iff] at h
  obtain ⟨_, _, h⟩ := h
  split at h
  · obtain ⟨⟨r₁, rest⟩, hmatch, hadd⟩ := bind_eq_some_iff.1 h
    obtain ⟨hr₁, hrest⟩ := matchEntries_cases hmatch
    exact ⟨r₁, rest, hr₁, List.Subset.trans hrest (List.drop_subset _ _), hadd⟩
  · obtain ⟨⟨r₁, rest⟩, hmatch, hadd⟩ := bind_eq_some_iff.1 h
    obtain ⟨hr₁, hrest⟩ := matchEntries_cases hmatch
    exact ⟨r₁, rest, hr₁, hrest, hadd⟩

theorem prepareCommit_eq {requests : List Request} (h : r.prepareCommit cfg = some (r', requests)) :
    r' = { r with lastCommitted := max r.lastCommitted (min r.commitIndex (r.logicalLogSize - 1)) } := by
  simp only [prepareCommit, bind, bind_eq_some_iff, Option.some.injEq, Prod.mk.injEq] at h
  obtain ⟨_, _, hr', _⟩ := h
  exact hr'.symm

theorem advanceCommitIndex_cases (h : r.advanceCommitIndex cfg = some r') :
    r' = r ∨ ∃ index, r.lastReplicatedIndex cfg = some index ∧ r.commitIndex < index ∧
      r.logTermAt index = some r.currentTerm ∧ r' = { r with commitIndex := index } := by
  simp only [advanceCommitIndex, bind, bind_eq_some_iff] at h
  obtain ⟨index, hindex, _, _, h⟩ := h
  split at h
  case isTrue hlt =>
    obtain ⟨term, hterm, h⟩ := bind_eq_some_iff.1 h
    split at h
    case isTrue heq => exact .inr ⟨index, hindex, hlt, heq ▸ hterm, (Option.some.inj h).symm⟩
    case isFalse => exact .inl (Option.some.inj h).symm
  case isFalse => exact .inl (Option.some.inj h).symm

/-- The truncation of the prefix leaves the counters and the places of the followers. -/
theorem truncatePrefix_frame {amount index : ℕ} {write : Bool}
    (h : r.truncatePrefix cfg amount index = some (r', write)) :
    SameRole r r' ∧ r'.lastLogIndex = r.lastLogIndex ∧ r'.commitIndex = r.commitIndex ∧
      r'.lastCommitted = r.lastCommitted ∧
      ∀ j, (r'.progress j).matchIndex = (r.progress j).matchIndex ∧
        (r'.progress j).nextIndex = (r.progress j).nextIndex := by
  unfold truncatePrefix at h
  dsimp only at h
  split at h
  · cases h
    exact ⟨.refl r, rfl, rfl, rfl, fun j => ⟨rfl, rfl⟩⟩
  · simp only [bind, bind_eq_some_iff] at h
    obtain ⟨_, _, _, _, _, _, r₁, hset, _, _, h⟩ := h
    cases h
    unfold setSnapshotLastIndexAndTerm at hset
    split at hset <;> cases hset
    split
    · refine ⟨⟨rfl, rfl, rfl, rfl, rfl⟩, rfl, rfl, rfl, fun j => ?_⟩
      dsimp only [sendSnapshotsToBehindFollowers]
      split <;> exact ⟨rfl, rfl⟩
    · exact ⟨⟨rfl, rfl, rfl, rfl, rfl⟩, rfl, rfl, rfl, fun j => ⟨rfl, rfl⟩⟩

theorem replay_frame {record : WalRecord} (h : r.replay record = some r') :
    ∃ log lastLogIndex, r' = { r with log := log, lastLogIndex := lastLogIndex } := by
  cases record with
  | entry seq entry => exact ⟨_, _, addToLog_spec h⟩
  | truncation index term =>
    obtain ⟨_, _, h⟩ := truncateLog_cases h
    exact ⟨_, _, h⟩

/-- Recovery takes over the metadata, and the records only change the log. -/
theorem recoverFromLogs_frame {m : Metadata} {records : List WalRecord}
    (h : r.recoverFromLogs m records = some r') :
    ∃ log lastLogIndex, r' = { r.installSnapshot m.snapshotLastIndex m.snapshotLastTerm with
      currentTerm := m.currentTerm, votedFor := m.votedFor, log := log
      lastLogIndex := lastLogIndex } := by
  rw [recoverFromLogs_def] at h
  obtain ⟨r₀, hset, h⟩ := bind_eq_some_iff.1 h
  obtain ⟨log, lastLogIndex, rfl⟩ : ∃ log lastLogIndex,
      r' = { r₀ with log := log, lastLogIndex := lastLogIndex } := by
    refine TransitionSystem.foldlM_invariant (I := fun r' => ∃ log lastLogIndex,
      r' = { r₀ with log := log, lastLogIndex := lastLogIndex }) ?_ ⟨_, _, rfl⟩ h
    rintro _ record r₂ _ ⟨_, _, rfl⟩ h
    obtain ⟨log, lastLogIndex, h⟩ := replay_frame h
    exact ⟨log, lastLogIndex, h⟩
  unfold setSnapshotLastIndexAndTerm at hset
  split at hset <;> cases hset
  exact ⟨log, lastLogIndex, rfl⟩

/-- The calls of the constructor.  The term and the vote are loaded one after the other; nothing else
touches them. -/
theorem recover_cases {startup startup' : Startup} {a : RecoveryAction}
    (h : r.recover startup a = some (r', startup')) :
    (∃ m, startup = .opened m .setCurrentTerm ∧ startup' = .opened m .setVotedFor ∧
        r' = { r with currentTerm := m.currentTerm }) ∨
      (∃ m, startup = .opened m .setVotedFor ∧ startup' = .opened m .setSnapshotLastIndexAndTerm ∧
        r' = { r with votedFor := m.votedFor }) ∨
      startup.Loaded ∧ startup'.Loaded ∧ SameRole r r' := by
  cases startup with
  | opened m next =>
    cases a with
    | setStartPoint =>
      obtain ⟨r₁, hr, heq⟩ := Option.map_eq_some_iff.1 h
      cases heq
      cases next with
      | setCurrentTerm =>
        cases hr
        exact .inl ⟨m, rfl, rfl, rfl⟩
      | setVotedFor =>
        cases hr
        exact .inr (.inl ⟨m, rfl, rfl, rfl⟩)
      | setSnapshotLastIndexAndTerm =>
        simp only [setStartPoint] at hr
        unfold setSnapshotLastIndexAndTerm at hr
        split at hr <;> cases hr
        exact .inr (.inr ⟨trivial, trivial, rfl, rfl, rfl, rfl, rfl⟩)
    | replay record => cases h
    | initProtocol => cases h
  | replaying =>
    cases a with
    | setStartPoint => cases h
    | replay record =>
      obtain ⟨r₁, hr, heq⟩ := Option.map_eq_some_iff.1 h
      cases heq
      obtain ⟨_, _, rfl⟩ := replay_frame hr
      exact .inr (.inr ⟨trivial, trivial, rfl, rfl, rfl, rfl, rfl⟩)
    | initProtocol =>
      cases h
      exact .inr (.inr ⟨trivial, trivial, .refl r⟩)
  | ready => cases a <;> cases h

/-- What a message's term does to a replica: a later one demotes it. -/
inductive Heeds (r : Replica) (term : ℕ) : Replica → Prop
  | same : Heeds r term r
  | demoted (h : r.currentTerm < term) : Heeds r term (r.demoteSelf term)

theorem Heeds.sameLog {term : ℕ} (h : Heeds r term r') : SameLog r r' := by
  cases h with
  | same => exact .refl r
  | demoted => exact demoteSelf_sameLog r term

theorem Heeds.demoted_or_eq {term : ℕ} (h : Heeds r term r') : r' = r ∨ Demoted r r' := by
  cases h with
  | same => exact .inl rfl
  | demoted => exact .inr (demoteSelf_demoted r term)

theorem Heeds.id {term : ℕ} (h : Heeds r term r') : r'.id = r.id := by
  cases h with
  | same => rfl
  | demoted => exact (demoteSelf_demoted r term).id

/-- What a request for a vote leads to.  A vote is for the candidate of the current term whose log is not
behind. -/
inductive RequestBranch (r : Replica) (rv : RequestVote) : Outcome → Prop
  | own (h : rv.candidateId = r.id) : RequestBranch r rv ⟨r, [], []⟩
  | answered {r₁ : Replica} (granted : Bool) (hne : rv.candidateId ≠ r.id)
      (hheeds : Heeds r rv.term r₁) (hle : rv.term ≤ r₁.currentTerm)
      (hgrant : granted = true → rv.term = r₁.currentTerm ∧
        (r₁.votedFor = none ∨ r₁.votedFor = some rv.candidateId) ∧
        ∃ t, r.lastLogTerm = some t ∧ isValidCandidate rv t r.lastLogIndex = true) :
      RequestBranch r rv ⟨if granted then { r₁ with votedFor := some rv.candidateId } else r₁,
        [(rv.candidateId, .requestVoteResponse ⟨r₁.currentTerm, granted, r₁.id⟩)], []⟩

theorem receiveRequestVote_branch {rv : RequestVote} {o : Outcome}
    (h : r.receiveRequestVote rv = some o) : RequestBranch r rv o := by
  unfold receiveRequestVote at h
  split_ifs at h with hself
  · cases h
    exact .own hself
  split at h
  case h_1 hstale =>
    cases h
    exact .answered false hself .same (termCheck_eq_stale.1 hstale).le (by simp)
  case h_2 hfresh =>
    obtain ⟨r₁, hr₁⟩ : ∃ r₁, r₁ = if r.termCheck rv.term = .new then r.demoteSelf rv.term else r :=
      ⟨_, rfl⟩
    rw [← hr₁] at h
    obtain ⟨hheeds, hterm⟩ : Heeds r rv.term r₁ ∧ rv.term = r₁.currentTerm := by
      rw [hr₁]
      cases hc : r.termCheck rv.term with
      | stale => exact absurd hc hfresh
      | current => exact ⟨.same, termCheck_eq_current.1 hc⟩
      | new =>
        have hlt := termCheck_eq_new.1 hc
        refine ⟨.demoted hlt, ?_⟩
        rw [if_pos rfl, demoteSelf_currentTerm, max_eq_right hlt.le]
    have hlog := hheeds.sameLog
    obtain ⟨t, ht, h⟩ := bind_eq_some_iff.1 h
    rw [hlog.lastLogTerm] at ht
    split_ifs at h with hinvalid hvote
    · cases h
      exact .answered false hself hheeds hterm.le (by simp)
    · cases h
      exact .answered true hself hheeds hterm.le
        fun _ => ⟨hterm, hvote, t, ht, by simpa [hlog.lastLogIndex] using hinvalid⟩
    · cases h
      exact .answered false hself hheeds hterm.le (by simp)

/-- The first test of a handler of a response: only the leader of its term looks at it. -/
theorem heeds_or_leads (r : Replica) (term : ℕ) :
    (∃ r', Heeds r term r' ∧ (if r.termCheck term = .new then r.demoteSelf term else r) = r' ∧
        (r'.role ≠ .leader ∨ r.termCheck term = .stale) ∧
        ¬ (r.role = .leader ∧ r.currentTerm = term)) ∨
      (if r.termCheck term = .new then r.demoteSelf term else r) = r ∧ r.role = .leader ∧
        r.currentTerm = term ∧ ¬ (r.role ≠ .leader ∨ r.termCheck term = .stale) := by
  by_cases hnew : r.termCheck term = .new
  · have hlt := termCheck_eq_new.1 hnew
    rw [if_pos hnew]
    refine .inl ⟨_, .demoted hlt, rfl, .inl ?_, fun h => hlt.ne h.2⟩
    rw [(demoteSelf_demoted r term).role]
    decide
  · rw [if_neg hnew]
    rw [termCheck_eq_new, not_lt] at hnew
    by_cases hleads : r.role = .leader ∧ r.currentTerm = term
    · refine .inr ⟨rfl, hleads.1, hleads.2, ?_⟩
      rw [termCheck_eq_stale, hleads.2]
      exact not_or.2 ⟨not_not.2 hleads.1, lt_irrefl term⟩
    · refine .inl ⟨r, .same, rfl, ?_, hleads⟩
      by_cases hrole : r.role = .leader
      · exact .inr (termCheck_eq_stale.2 (lt_of_le_of_ne hnew fun h => hleads ⟨hrole, h.symm⟩))
      · exact .inl hrole

/-! ### Transactions and heartbeats -/

/-- The end of `ReceiveTransaction` before the wait: the leader prunes its view and, unless it waits
for a batch, sends to its followers. -/
def Announces (cfg : Config) (now : ℕ → ℕ) (r r' : Replica) (msgs : List AeFields) : Prop :=
  ∃ r₁, (r.setProgress r.id { r.progress r.id with nextIndex := r.lastLogIndex + 1
      }).pruneExpiredInFlightMsgs cfg (now 0) = some r₁ ∧
    (r' = r₁ ∧ msgs = [] ∨
      { r₁ with timestampSinceLastTransactionBatch := now 1 }.gatherAeFieldsForBroadcast cfg =
          some msgs ∧
        r' = { r₁ with timestampSinceLastTransactionBatch := now 1 }.recordBroadcast msgs (now 1))

inductive TransactionBranch (cfg : Config) (r : Replica) (serialized : String) (now : ℕ → ℕ) :
    Outcome × Option ℕ → Prop
  | redirected (hrole : r.role ≠ .leader) :
      TransactionBranch cfg r serialized now (⟨r, [], []⟩, none)
  | appended {r₁ r₂ : Replica} {msgs : List AeFields} (hleader : r.role = .leader)
      (hadd : r.addToLog [⟨r.currentTerm, serialized⟩] = some r₁)
      (hannounce : Announces cfg now r₁ r₂ msgs) :
      TransactionBranch cfg r serialized now
        (⟨r₂, msgs.map AeFields.toMessage, []⟩, some r₁.lastLogIndex)

theorem receiveTransaction_branch {serialized : String} {now : ℕ → ℕ} {out : Outcome × Option ℕ}
    (h : r.receiveTransaction cfg serialized now = some out) :
    TransactionBranch cfg r serialized now out := by
  unfold receiveTransaction at h
  split at h
  case isTrue hrole =>
    cases h
    exact .redirected hrole
  case isFalse hrole =>
    simp only [bind, bind_eq_some_iff] at h
    obtain ⟨r₁, hadd, r₂, hprune, h⟩ := h
    split at h
    · obtain ⟨msgs, hgather, h⟩ := bind_eq_some_iff.1 h
      cases h
      exact .appended (not_not.1 hrole) hadd ⟨r₂, hprune, .inr ⟨hgather, rfl⟩⟩
    · cases h
      have hannounce : Announces cfg now r₁ r₂ [] := ⟨r₂, hprune, .inl ⟨rfl, rfl⟩⟩
      exact .appended (not_not.1 hrole) hadd hannounce

/-! ### AppendEntries -/

inductive AppendBranch (cfg : Config) (r : Replica) (ae : AppendEntries) : Outcome → Prop
  | own (hself : ae.leaderId = r.id) : AppendBranch cfg r ae ⟨r, [], []⟩
  | rejected {report : ℕ × ℕ} (hne : ae.leaderId ≠ r.id) (hreject : r.accepts ae = false)
      (hreport : (r.acceptTerm ae).conflict ae = some report) :
      AppendBranch cfg r ae ⟨r.acceptTerm ae, [(ae.leaderId, .appendEntriesResponse
        ⟨(r.acceptTerm ae).currentTerm, false, (r.acceptTerm ae).id, (r.acceptTerm ae).lastLogIndex,
          report.1, report.2⟩)], []⟩
  | accepted {r₁ r₂ : Replica} {requests : List Request} (hne : ae.leaderId ≠ r.id)
      (haccept : r.accepts ae = true) (happend : (r.acceptTerm ae).appendFrom ae = some r₁)
      (hprepare : (r₁.raiseCommitIndex ae.leaderCommitIndex).prepareCommit cfg =
        some (r₂, requests)) :
      AppendBranch cfg r ae ⟨r₂, [(ae.leaderId, .appendEntriesResponse
        ⟨r₂.currentTerm, true, r₂.id, r₁.lastLogIndex, 0, 0⟩)], requests⟩

theorem receiveAppendEntries_branch {ae : AppendEntries} {o : Outcome}
    (h : r.receiveAppendEntries cfg ae = some o) : AppendBranch cfg r ae o := by
  unfold receiveAppendEntries at h
  split at h
  case isTrue hself =>
    cases h
    exact .own hself
  case isFalse hne =>
    simp only [bind] at h
    split at h
    case isTrue hreject =>
      obtain ⟨report, hreport, h⟩ := bind_eq_some_iff.1 h
      cases h
      exact .rejected hne (by simpa using hreject) hreport
    case isFalse haccept =>
      obtain ⟨r₁, happend, h⟩ := bind_eq_some_iff.1 h
      obtain ⟨⟨r₂, requests⟩, hprepare, h⟩ := bind_eq_some_iff.1 h
      cases h
      exact .accepted hne (by simpa using haccept) happend hprepare

/-! ### Responses to AppendEntries -/

/-- The leader of the response's term looks at it, after it has pruned what it knows to be in
flight. -/
structure Considers (cfg : Config) (aer : AppendEntriesResponse) (now : ℕ → ℕ) (r r' : Replica) :
    Prop where
  leader : r.role = .leader
  term : r.currentTerm = aer.term
  pruned : ∃ r₁, r.pruneRedundantInFlightMsgs aer.id aer.lastLogIndex = some r₁ ∧
    r₁.pruneExpiredInFlightMsgs cfg (now 0) = some r'

/-- The follower is sent more, unless it has everything. -/
def Continues (cfg : Config) (aer : AppendEntriesResponse) (shouldSendSnapshot : Bool) (now : ℕ → ℕ)
    (r r' : Replica) (msgs : List AeFields) : Prop :=
  r' = r ∧ msgs = [] ∨
    r.catchUp cfg aer shouldSendSnapshot (fun k => now (k + 1)) = some (r', msgs)

inductive ResponseBranch (cfg : Config) (r : Replica) (aer : AppendEntriesResponse) (now : ℕ → ℕ) :
    Outcome → Prop
  | ignored {r' : Replica} (hnot : ¬ (r.role = .leader ∧ r.currentTerm = aer.term))
      (hheeds : Heeds r aer.term r') : ResponseBranch cfg r aer now ⟨r', [], []⟩
  | stale {r₁ : Replica} (hconsiders : Considers cfg aer now r r₁) (hsuccess : aer.success = true)
      (hstale : aer.lastLogIndex < (r₁.progress aer.id).matchIndex) :
      ResponseBranch cfg r aer now ⟨r₁, [], []⟩
  | success {r₁ r₂ r₃ : Replica} {requests : List Request} {msgs : List AeFields}
      (hconsiders : Considers cfg aer now r r₁) (hsuccess : aer.success = true)
      (hfresh : (r₁.progress aer.id).matchIndex ≤ aer.lastLogIndex)
      (hhandle : r₁.handleSuccess cfg aer = some (r₂, requests))
      (hmore : Continues cfg aer false now r₂ r₃ msgs) :
      ResponseBranch cfg r aer now ⟨r₃, msgs.map AeFields.toMessage, requests⟩
  | failure {r₁ r₂ r₃ : Replica} {shouldSendSnapshot : Bool} {msgs : List AeFields}
      (hconsiders : Considers cfg aer now r r₁) (hfailure : aer.success ≠ true)
      (hhandle : r₁.handleFailure aer = some (r₂, shouldSendSnapshot))
      (hmore : Continues cfg aer shouldSendSnapshot now r₂ r₃ msgs) :
      ResponseBranch cfg r aer now ⟨r₃, msgs.map AeFields.toMessage, []⟩

theorem receiveAppendEntriesResponse_branch {aer : AppendEntriesResponse} {now : ℕ → ℕ} {o : Outcome}
    (h : r.receiveAppendEntriesResponse cfg aer now = some o) : ResponseBranch cfg r aer now o := by
  unfold receiveAppendEntriesResponse at h
  simp only [bind] at h
  obtain ⟨r', hheeds, hr', hexit, hnot⟩ | ⟨hr', hleader, hterm, hstay⟩ := heeds_or_leads r aer.term
  · rw [hr', if_pos hexit] at h
    cases h
    exact .ignored hnot hheeds
  · rw [hr', if_neg hstay] at h
    obtain ⟨r₁, h₁, h⟩ := bind_eq_some_iff.1 h
    obtain ⟨r₂, h₂, h⟩ := bind_eq_some_iff.1 h
    have hconsiders : Considers cfg aer now r r₂ := ⟨hleader, hterm, r₁, h₁, h₂⟩
    split at h
    case isTrue hsuccess =>
      split at h
      case isTrue hstale =>
        cases h
        exact .stale hconsiders hsuccess hstale
      case isFalse hfresh =>
        obtain ⟨⟨r₃, requests⟩, h₃, h⟩ := bind_eq_some_iff.1 h
        split at h
        · obtain ⟨⟨r₄, msgs⟩, h₄, h⟩ := bind_eq_some_iff.1 h
          cases h
          exact .success hconsiders hsuccess (not_lt.1 hfresh) h₃ (.inr h₄)
        · cases h
          have hmore : Continues cfg aer false now r₃ r₃ [] := .inl ⟨rfl, rfl⟩
          exact .success hconsiders hsuccess (not_lt.1 hfresh) h₃ hmore
    case isFalse hfailure =>
      obtain ⟨⟨r₃, shouldSendSnapshot⟩, h₃, h⟩ := bind_eq_some_iff.1 h
      obtain ⟨⟨r₄, msgs⟩, h₄, h⟩ := bind_eq_some_iff.1 h
      cases h
      exact .failure hconsiders hfailure h₃ (.inr h₄)

/-! ### Votes -/

inductive VoteBranch (cfg : Config) (r : Replica) (rvr : RequestVoteResponse) : Outcome → Prop
  | ignored {r' : Replica} (hheeds : Heeds r rvr.term r') : VoteBranch cfg r rvr ⟨r', [], []⟩
  | counted (hcandidate : r.role = .candidate) (hterm : rvr.term = r.currentTerm)
      (hgranted : rvr.voteGranted = true) (hnew : rvr.voterId ∉ r.votes) :
      VoteBranch cfg r rvr ⟨{ r with votes := r.votes ++ [rvr.voterId] }, [], []⟩
  | won {r₁ : Replica} (hcandidate : r.role = .candidate) (hterm : rvr.term = r.currentTerm)
      (hgranted : rvr.voteGranted = true) (hnew : rvr.voterId ∉ r.votes)
      (hquorum : cfg.quorum ≤ r.votes.length + 1)
      (hadd : ({ r with votes := r.votes ++ [rvr.voterId] }.becomeLeader cfg).addToLog
        [⟨r.currentTerm, "RAFT_NO_OP"⟩] = some r₁) :
      VoteBranch cfg r rvr ⟨r₁.setProgress r₁.id { r₁.progress r₁.id with
        nextIndex := r₁.lastLogIndex + 1, matchIndex := r₁.lastLogIndex }, [], []⟩

theorem receiveRequestVoteResponse_branch {rvr : RequestVoteResponse} {o : Outcome}
    (h : r.receiveRequestVoteResponse cfg rvr = some o) : VoteBranch cfg r rvr o := by
  unfold receiveRequestVoteResponse at h
  split at h
  case h_1 =>
    cases h
    exact .ignored .same
  case h_2 hnew =>
    cases h
    exact .ignored (.demoted (termCheck_eq_new.1 hnew))
  case h_3 hcurrent =>
    have hterm := termCheck_eq_current.1 hcurrent
    split at h
    case isTrue =>
      cases h
      exact .ignored .same
    case isFalse hcandidate =>
      simp only [Bool.not_eq_true', not_or, not_not, Bool.not_eq_false] at hcandidate
      split at h
      case isTrue =>
        cases h
        exact .ignored .same
      case isFalse hnew =>
        dsimp only at h
        split at h
        case isTrue hquorum =>
          obtain ⟨r₁, hadd, h⟩ := bind_eq_some_iff.1 h
          cases h
          rw [List.length_append] at hquorum
          exact .won hcandidate.1 hterm hcandidate.2 hnew hquorum hadd
        case isFalse =>
          cases h
          exact .counted hcandidate.1 hterm hcandidate.2 hnew

end Replica

end Raft
