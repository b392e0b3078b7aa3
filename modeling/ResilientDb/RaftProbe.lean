/-
**Probing ends.**

A leader that does not know where the log of a follower leaves its own sends entry-less messages.  The
follower rejects a message whose index it does not have, or has with another term; in the second case
it reports the term and the first index it has of that term, as far as entries are not committed.  The
leader passes over its own entries of that term from this index on, and probes before the next one.

Both logs stay as they are.  A message behind the end of the follower's log is rejected at most once.
After a conflict the next probe finds an entry of the reported term in both logs, or an entry that is
committed or matched, or it lies before all entries of that term.  Since the terms of a log do not
decrease, every conflict that follows reports a smaller term.

Term 0 is the exception: a report without a conflict has term 0, so a conflict at an entry of term 0
looks like a log that is too short, and the leader probes at its end again.  Replica 1 leads term 0 when
it comes up without metadata on its disk.

Main definitions:

* `Raft.Replica.exchange` — a message of the leader, the answer, and what the leader makes of it;
* `Raft.Replica.probe` — exchanges until a message is accepted;
* `Raft.Probing` — a leader and a follower whose logs match;
* `Raft.Replica.termsUpTo`, `Raft.Replica.distinctTerms` — the terms of a log;
* `Raft.Probing.SharesZero` — the leader has the follower's entries of term 0.

Main results:

* `Raft.Probing.exchange_rejects` — one exchange;
* `Raft.Probing.Stuck.not_accepted` — an entry of term 0 that only the follower has stops the probing;
* `Raft.probing_terminates_iff` — the number of exchanges otherwise.
-/

import ResilientDb.RaftElection
import ResilientDb.RaftMerge

set_option autoImplicit false

namespace Raft

open Option (bind_eq_bind bind_eq_some_iff bind_some)

namespace Replica

/-! ### Exchanges -/

/-- The leader sends its message for the follower, the follower answers, and the leader handles a
rejection.  The first component says whether the message was accepted. -/
def exchange (cfg : Config) (now : ℕ → ℕ) (l f : Replica) : Option (Bool × Replica × Replica) := do
  let fields ← l.gatherAeFields cfg f.id
  let o ← f.receiveAppendEntries cfg fields.toAppendEntries
  match o.sent with
  | [(_, .appendEntriesResponse aer)] =>
    if aer.success then some (true, l, o.replica)
    else do
      let o' ← l.receiveAppendEntriesResponse cfg aer now
      some (false, o'.replica, o.replica)
  | _ => none

/-- The index that the leader's message for a follower names. -/
def probedIndex (l f : Replica) : ℕ := (l.progress f.id).nextIndex - 1

/-- Exchanges until a message is accepted, at most `rounds` of them: the indices that were probed, and
whether the last message was accepted.  `clock` has the readings of the leader's clock. -/
def probe (cfg : Config) (clock : ℕ → ℕ → ℕ) : ℕ → Replica → Replica → Option (List ℕ × Bool)
  | 0, _, _ => some ([], false)
  | rounds + 1, l, f => do
      let (accepted, l', f') ← exchange cfg (clock rounds) l f
      if accepted then some ([probedIndex l f], true)
      else do
        let (indices, result) ← probe cfg clock rounds l' f'
        some (probedIndex l f :: indices, result)

/-- The terms of the entries up to an index. -/
def termsUpTo (r : Replica) (index : ℕ) : Finset ℕ :=
  ((r.log.take (index + 1)).tail.map Entry.term).toFinset

/-- The number of distinct terms in a log. -/
def distinctTerms (r : Replica) : ℕ := (r.log.tail.map Entry.term).toFinset.card

variable {cfg : Config} {r r' l f : Replica} {ae : AppendEntries} {aer : AppendEntriesResponse}

theorem Intact.wellFormed (h : r.Intact) : r.WellFormed where
  nonempty := by
    intro hnil
    have hfirst := h.first
    rw [hnil] at hfirst
    cases hfirst
  last := by
    rw [logicalLogSize, h.truncatedIndex]
    exact h.last
  commit_le := h.commit
  committed_le := h.committed
  truncated_le := h.truncatedIndex ▸ Nat.zero_le _

variable {i : ℕ}

theorem Intact.exists_logTermAt (h : r.Intact) (hi : i ≤ r.lastLogIndex) :
    ∃ term, r.logTermAt i = some term :=
  h.wellFormed.exists_logTermAt (h.truncatedIndex ▸ Nat.zero_le i) hi

theorem Intact.prevLogTerm (h : r.Intact) (i : ℕ) : r.prevLogTerm i = r.logTermAt i := by
  unfold Replica.prevLogTerm
  split_ifs with hi
  · rw [h.truncatedIndex, Nat.le_zero] at hi
    rw [hi, h.logTermAt, h.first, h.snapshotTerm]
    rfl
  · rfl

/-! ### The answer of the follower -/

variable {term : ℕ}

/-- The entries from the index that is found up to the index of the message have the term; the search
has stopped at an entry of another term or at a committed one. -/
theorem firstLogIndexWithTerm_spec : ∀ {index first : ℕ},
    r.firstLogIndexWithTerm term index = some first → r.logTermAt index = some term →
    first ≤ index ∧ (∀ j, first ≤ j → j ≤ index → r.logTermAt j = some term) ∧
      (first = 0 ∨ first ≤ r.commitIndex ∨ ∃ term' ≠ term, r.logTermAt (first - 1) = some term') := by
  intro index
  induction index with
  | zero =>
    intro first h hterm
    cases h
    refine ⟨le_rfl, ?_, .inl rfl⟩
    intro j _ hj
    rw [Nat.le_zero.1 hj]
    exact hterm
  | succ index ih =>
    intro first h hterm
    have hhere : ∀ j, index + 1 ≤ j → j ≤ index + 1 → r.logTermAt j = some term := by
      intro j hle hge
      rw [le_antisymm hge hle]
      exact hterm
    unfold firstLogIndexWithTerm at h
    split at h
    · obtain ⟨term', hterm', h⟩ := bind_eq_some_iff.1 h
      split at h
      case isTrue heq =>
        obtain ⟨hle, hbetween, hstop⟩ := ih h (heq ▸ hterm')
        refine ⟨hle.trans (Nat.le_succ index), ?_, hstop⟩
        intro j hfirst hj
        obtain hj | rfl := Nat.le_succ_iff.1 hj
        · exact hbetween j hfirst hj
        · exact hterm
      case isFalse hne =>
        cases h
        exact ⟨le_rfl, hhere, .inr (.inr ⟨term', hne, hterm'⟩)⟩
    case isFalse hcommit =>
      cases h
      exact ⟨le_rfl, hhere, .inr (.inl (by omega))⟩

/-- What a rejection reports: nothing if the log is too short, and otherwise the term at the index of the
message and where it begins. -/
def Reports (r : Replica) (index term conflictingIndex conflictingTerm : ℕ) : Prop :=
  r.lastLogIndex < index ∧ conflictingIndex = 0 ∧ conflictingTerm = 0 ∨
    conflictingTerm ≠ term ∧ conflictingIndex ≤ index ∧
      (∀ j, conflictingIndex ≤ j → j ≤ index → r.logTermAt j = some conflictingTerm) ∧
      (conflictingIndex = 0 ∨ conflictingIndex ≤ r.commitIndex ∨
        ∃ term' ≠ conflictingTerm, r.logTermAt (conflictingIndex - 1) = some term')

variable {conflictingIndex conflictingTerm : ℕ}

/-- What a follower reports about a conflict. -/
theorem conflict_reports (h : r.conflict ae = some (conflictingIndex, conflictingTerm))
    (hne : r.logTermAt ae.prevLogIndex ≠ some ae.prevLogTerm) :
    r.Reports ae.prevLogIndex ae.prevLogTerm conflictingIndex conflictingTerm := by
  unfold conflict at h
  split at h
  case isTrue hshort =>
    cases h
    exact .inl ⟨hshort, rfl, rfl⟩
  case isFalse =>
    obtain ⟨term, hterm, h⟩ := bind_eq_some_iff.1 h
    split at h
    case isTrue hdiffers =>
      obtain ⟨first, hfirst, h⟩ := bind_eq_some_iff.1 h
      cases h
      exact .inr ⟨Ne.symm hdiffers, firstLogIndexWithTerm_spec hfirst hterm⟩
    case isFalse hsame =>
      rw [not_not.1 hsame] at hne
      exact absurd hterm hne

variable {index : ℕ}

theorem Reports.of_sameLog (h : SameLog r r')
    (hreports : r'.Reports index term conflictingIndex conflictingTerm) :
    r.Reports index term conflictingIndex conflictingTerm := by
  unfold Reports at hreports ⊢
  simp only [h.lastLogIndex, h.commitIndex, h.logTermAt] at hreports
  exact hreports

/-- A follower accepts a probe if it has the entry. -/
theorem Intact.accepts_iff (h : r.Intact) (hterm : r.currentTerm ≤ ae.term)
    (hpos : 0 < ae.prevLogIndex) :
    r.accepts ae = true ↔ r.logTermAt ae.prevLogIndex = some ae.prevLogTerm := by
  rw [accepts_iff_currentTerm_le, and_iff_right hterm, h.truncatedIndex, Nat.le_zero,
    or_iff_right hpos.ne', and_iff_right_iff_imp]
  intro hprev
  have hle := (h.wellFormed.le_of_logTermAt hprev).2
  have hlast := h.wellFormed.last
  omega

/-- A probe for an entry that the follower does not have is rejected. -/
theorem Intact.receiveAppendEntries_rejects (h : r.Intact) (cfg : Config) (hid : ae.leaderId ≠ r.id)
    (hterm : r.currentTerm ≤ ae.term) (hpos : 0 < ae.prevLogIndex)
    (hne : r.logTermAt ae.prevLogIndex ≠ some ae.prevLogTerm) : ∃ conflictingIndex conflictingTerm,
      r.receiveAppendEntries cfg ae = some ⟨r.acceptTerm ae, [(ae.leaderId, .appendEntriesResponse
        ⟨ae.term, false, r.id, r.lastLogIndex, conflictingIndex, conflictingTerm⟩)], []⟩ ∧
      r.Reports ae.prevLogIndex ae.prevLogTerm conflictingIndex conflictingTerm := by
  have hlog := acceptTerm_sameLog r ae
  obtain ⟨hdemoted, hcurrent⟩ := acceptTerm_demoted hterm
  have hconflict : (r.acceptTerm ae).conflict ae ≠ none := by
    rw [ne_eq, (h.of_sameLog hlog).wellFormed.conflict_eq_none_iff, hlog.truncatedLastIndex,
      h.truncatedIndex]
    exact Nat.not_lt_zero _
  obtain ⟨⟨conflictingIndex, conflictingTerm⟩, hreport⟩ := Option.ne_none_iff_exists'.1 hconflict
  refine ⟨conflictingIndex, conflictingTerm, ?_, ?_⟩
  · rw [receiveAppendEntries_of_not_accepts hid fun haccept =>
      hne ((h.accepts_iff hterm hpos).1 haccept), hreport, hcurrent, hdemoted.id, hlog.lastLogIndex]
    rfl
  · exact .of_sameLog hlog (conflict_reports hreport (by rwa [hlog.logTermAt]))

theorem Intact.receiveAppendEntries_accepts (h : r.Intact) (cfg : Config) (hid : ae.leaderId ≠ r.id)
    (haccept : r.accepts ae = true) : ∃ r' lastLogIndex requests, r.receiveAppendEntries cfg ae =
      some ⟨r', [(ae.leaderId, .appendEntriesResponse
        ⟨r'.currentTerm, true, r'.id, lastLogIndex, 0, 0⟩)], requests⟩ := by
  have hsome : r.receiveAppendEntries cfg ae ≠ none := by
    rw [ne_eq, receiveAppendEntries_eq_none_iff h.wellFormed, h.snapshotIndex, h.truncatedIndex]
    rintro ⟨_, ⟨_, hlt⟩ | ⟨_, hlt⟩⟩
    · exact Nat.not_lt_zero _ hlt
    · exact Nat.not_lt_zero _ hlt
  obtain ⟨o, ho⟩ := Option.ne_none_iff_exists'.1 hsome
  rw [receiveAppendEntries_of_accepts hid haccept] at ho ⊢
  obtain ⟨r₂, hr₂, ho⟩ := bind_eq_some_iff.1 ho
  obtain ⟨⟨r₃, requests⟩, hr₃, _⟩ := Option.map_eq_some_iff.1 ho
  rw [hr₂, bind_some, hr₃]
  exact ⟨r₃, r₂.lastLogIndex, requests, rfl⟩

/-! ### The leader -/

theorem canSend_of_probe (hleader : r.role = .leader) (hstate : (r.progress i).state = .probe) :
    r.canSend cfg i = some (!(r.progress i).probeInFlight &&
      !decide ((r.progress i).nextIndex ≤ r.truncatedLastIndex)) := by
  simp only [canSend, hleader, hstate]
  split_ifs with hle
  · simp [hle]
  · simp [hle]

theorem gatherAeFields_of_probe (hleader : r.role = .leader)
    (hstate : (r.progress i).state = .probe)
    (hterm : r.prevLogTerm ((r.progress i).nextIndex - 1) = some term) :
    r.gatherAeFields cfg i = some ⟨r.currentTerm, r.id, (r.progress i).nextIndex - 1, term, [],
      r.commitIndex, i⟩ := by
  simp [gatherAeFields, hterm, canSend_of_probe hleader hstate, hstate]

/-- In the state of probing one message is sent. -/
theorem resend_of_probe (cfg : Config) (now : ℕ → ℕ) (hleader : r.role = .leader)
    (rounds : ℕ) (hstate : (r.progress i).state = .probe)
    (hterm : r.prevLogTerm ((r.progress i).nextIndex - 1) = some term) :
    ∃ r' messages, resend cfg i true now (rounds + 2) r = some (r', messages) ∧
      (r'.progress i).state = .probe ∧ (r'.progress i).matchIndex = (r.progress i).matchIndex ∧
      (r'.progress i).nextIndex = (r.progress i).nextIndex := by
  have hcan : r.canSend cfg i = _ := canSend_of_probe hleader hstate
  have hgather : r.gatherAeFields cfg i = _ := gatherAeFields_of_probe hleader hstate hterm
  unfold resend
  rw [hcan, bind_eq_bind, bind_some]
  split
  · exact ⟨r, [], rfl, hstate, rfl, rfl⟩
  · -- the second round finds the probe under way
    have hmark : r.recordNewInFlightMsg ⟨r.currentTerm, r.id, (r.progress i).nextIndex - 1, term, [],
        r.commitIndex, i⟩ (now (rounds + 1)) =
        r.setProgress i { r.progress i with probeInFlight := true } := by
      simp [recordNewInFlightMsg, hstate]
    have hcan' : (r.setProgress i { r.progress i with probeInFlight := true }).canSend cfg i =
        some false := by
      have hrole : (r.setProgress i { r.progress i with probeInFlight := true }).role = .leader :=
        hleader
      rw [canSend_of_probe hrole (by simpa using hstate), setProgress_self]
      rfl
    rw [hgather, bind_eq_bind, bind_some, if_neg (by simp), hmark]
    unfold resend
    simp only [hcan']
    exact ⟨_, _, rfl, by simpa using hstate, by simp, by simp⟩

/-- The leader skips the entries of the term that is in conflict. -/
theorem WellFormed.skipConflictingTerm_spec (hr : r.WellFormed) {stop : ℕ}
    (hstop : stop ≤ r.lastLogIndex) (hne : r.logTermAt stop ≠ some term) (count : ℕ) : ∀ {index : ℕ},
    r.truncatedLastIndex ≤ index → index ≤ stop →
    ∃ next, r.skipConflictingTerm term index count = some next ∧ index ≤ next ∧ next ≤ stop ∧
      ∀ j, index ≤ j → j < next → r.logTermAt j = some term := by
  induction count with
  | zero =>
    intro index _ hle
    refine ⟨index, rfl, le_rfl, hle, ?_⟩
    intro j hj hlt
    omega
  | succ count ih =>
    intro index htruncated hle
    obtain ⟨term', hterm'⟩ := hr.exists_logTermAt htruncated (hle.trans hstop)
    by_cases heq : term' = term
    · rw [heq] at hterm'
      -- the entry to stop at has another term, so it lies behind this one
      have hbehind : index < stop := lt_of_le_of_ne hle fun heq => hne (heq ▸ hterm')
      obtain ⟨next, hnext, hfrom, hto, hbetween⟩ := @ih (index + 1) (by omega) hbehind
      refine ⟨next, ?_, (Nat.le_succ index).trans hfrom, hto, ?_⟩
      · have hguard : index + 1 ≤ r.lastLogIndex := hbehind.trans_le hstop
        simp [skipConflictingTerm, hterm', hguard, hnext]
      · intro j hj hlt
        obtain rfl | hj := hj.eq_or_lt
        · exact hterm'
        · exact hbetween j hj hlt
    · refine ⟨index, ?_, le_rfl, hle, ?_⟩
      · simp [skipConflictingTerm, hterm', heq]
      · intro j hj hlt
        omega

theorem SameLog.skipConflictingTerm (h : SameLog r r') (term count : ℕ) : ∀ index,
    r'.skipConflictingTerm term index count = r.skipConflictingTerm term index count := by
  induction count with
  | zero =>
    intro index
    rfl
  | succ count ih =>
    intro index
    simp only [Replica.skipConflictingTerm, h.logTermAt, h.lastLogIndex, ih]

theorem SameButView.indexToSend (h : SameButView r r') (aer : AppendEntriesResponse) :
    r'.indexToSend aer = r.indexToSend aer := by
  simp only [Replica.indexToSend, h.lastLogIndex, h.currentTerm, h.truncatedLastIndex,
    h.truncatedLastTerm, h.toSameLog.skipConflictingTerm]

theorem exists_pruneRedundantInFlightMsgs (last : ℕ) (hleader : r.role = .leader)
    (hpos : 0 < i) (hne : i ≠ r.id) (hstate : (r.progress i).state = .probe) :
    ∃ r', r.pruneRedundantInFlightMsgs i last = some r' ∧ (r'.progress i).state = .probe := by
  simp only [pruneRedundantInFlightMsgs, hleader, hpos, hne, ne_eq]
  exact ⟨_, rfl, by simpa using hstate⟩

theorem pruneExpired_state {now : ℕ} {p : FollowerProgress} (h : p.state = .probe) :
    (pruneExpired 0 now p).state = .probe := by
  unfold pruneExpired
  split
  · simp [h]
  · exact h

theorem exists_pruneExpiredInFlightMsgs (cfg : Config) (now : ℕ) (hleader : r.role = .leader)
    (htruncated : r.truncatedLastIndex = 0) (hstate : (r.progress i).state = .probe) :
    ∃ r', r.pruneExpiredInFlightMsgs cfg now = some r' ∧ (r'.progress i).state = .probe := by
  simp only [pruneExpiredInFlightMsgs, hleader, htruncated]
  refine ⟨_, rfl, ?_⟩
  dsimp only
  split_ifs
  · exact pruneExpired_state hstate
  · exact hstate

theorem handleFailure_of_probe (hstate : (r.progress aer.id).state = .probe)
    (hindex : r.indexToSend aer = some (index, false)) :
    r.handleFailure aer = some (r.setProgress aer.id { r.progress aer.id with
      nextIndex := max (min index (r.lastLogIndex + 1)) ((r.progress aer.id).matchIndex + 1) },
      false) := by
  simp [handleFailure, hstate, hindex]

theorem Intact.catchUp_of_probe (h : r.Intact) (cfg : Config) (aer : AppendEntriesResponse)
    (hleader : r.role = .leader)
    (hstate : (r.progress aer.id).state = .probe) (hpos : 0 < (r.progress aer.id).nextIndex)
    (hle : (r.progress aer.id).nextIndex ≤ r.lastLogIndex + 1) (now : ℕ → ℕ) :
    ∃ r' messages, r.catchUp cfg aer false now = some (r', messages) ∧
      (r'.progress aer.id).state = .probe ∧
      (r'.progress aer.id).matchIndex = (r.progress aer.id).matchIndex ∧
      (r'.progress aer.id).nextIndex = (r.progress aer.id).nextIndex := by
  obtain ⟨term, hterm⟩ := @Intact.exists_logTermAt r ((r.progress aer.id).nextIndex - 1) h (by omega)
  rw [← h.prevLogTerm] at hterm
  obtain ⟨r', messages, hresend, hprogress⟩ :=
    resend_of_probe cfg now hleader r.lastLogIndex hstate hterm
  refine ⟨r', messages, ?_, hprogress⟩
  simp [catchUp, h.truncatedIndex, hpos, hstate, hresend]

/-- After a rejection the leader sends the next probe. -/
theorem Intact.receiveAppendEntriesResponse_rejected (h : r.Intact) (cfg : Config)
    (hleader : r.role = .leader)
    (hterm : aer.term = r.currentTerm) (hfailure : aer.success = false) (hpos : 0 < aer.id)
    (hne : aer.id ≠ r.id) (hstate : (r.progress aer.id).state = .probe)
    (hmatch : (r.progress aer.id).matchIndex ≤ r.lastLogIndex)
    (hindex : r.indexToSend aer = some (index, false)) (now : ℕ → ℕ) :
    ∃ o, r.receiveAppendEntriesResponse cfg aer now = some o ∧ SameButView r o.replica ∧
      (o.replica.progress aer.id).state = .probe ∧
      (o.replica.progress aer.id).matchIndex = (r.progress aer.id).matchIndex ∧
      (o.replica.progress aer.id).nextIndex =
        max (min index (r.lastLogIndex + 1)) ((r.progress aer.id).matchIndex + 1) := by
  obtain ⟨r₁, hr₁, hstate₁⟩ :=
    exists_pruneRedundantInFlightMsgs aer.lastLogIndex hleader hpos hne hstate
  obtain ⟨hview₁, _⟩ := pruneRedundantInFlightMsgs_keepsMatch hr₁
  obtain ⟨r₂, hr₂, hstate₂⟩ := exists_pruneExpiredInFlightMsgs cfg (now 0)
    (hview₁.role.trans hleader) (hview₁.truncatedLastIndex.trans h.truncatedIndex) hstate₁
  have hview₂ := hview₁.trans (pruneExpiredInFlightMsgs_keepsMatch hr₂)
  have hmatch₂ := hview₂.sameMatch aer.id
  have hr₃ := handleFailure_of_probe hstate₂ ((hview₂.indexToSend aer).trans hindex)
  have hview₃ := hview₂.trans (handleFailure_keepsMatch hr₃)
  rw [hmatch₂, hview₂.lastLogIndex] at hr₃ hview₃
  obtain ⟨r₄, messages, hr₄, hstate₄, hmatch₄, hnext₄⟩ :=
    (h.of_sameLog hview₃.toSameLog).catchUp_of_probe cfg aer
      (hview₃.role.trans hleader) (by simpa using hstate₂) (by simp)
      (by simp [hview₃.lastLogIndex, hmatch]) (fun k => now (k + 1))
  refine ⟨⟨r₄, messages.map AeFields.toMessage, []⟩, ?_,
    (hview₃.trans (catchUp_keepsMatch hr₄)).toSameButView, hstate₄, ?_, ?_⟩
  · simp [receiveAppendEntriesResponse, termCheck_eq_current.2 hterm, hleader, hr₁, hr₂, hfailure, hr₃, hr₄]
  · rw [hmatch₄, setProgress_self]
    exact hmatch₂
  · rw [hnext₄, setProgress_self]

/-! ### The terms of a log -/

/-- The terms of the entries up to an index. -/
theorem Intact.mem_termsUpTo (h : r.Intact) :
    term ∈ r.termsUpTo index ↔ ∃ k, 1 ≤ k ∧ k ≤ index ∧ r.logTermAt k = some term := by
  simp only [termsUpTo, List.mem_toFinset, List.mem_map, h.logTermAt, Option.map_eq_some_iff]
  constructor
  · rintro ⟨e, he, rfl⟩
    obtain ⟨k, hk⟩ := List.mem_iff_getElem?.1 he
    rw [List.getElem?_tail, List.getElem?_take] at hk
    split_ifs at hk with hle
    exact ⟨k + 1, by omega, by omega, e, hk, rfl⟩
  · rintro ⟨k, hpos, hle, e, he, rfl⟩
    refine ⟨e, List.mem_iff_getElem?.2 ⟨k - 1, ?_⟩, rfl⟩
    have hk : k - 1 + 1 = k := by omega
    rw [List.getElem?_tail, List.getElem?_take, hk, if_pos (by omega)]
    exact he

theorem card_termsUpTo_le (r : Replica) (index : ℕ) : (r.termsUpTo index).card ≤ r.distinctTerms := by
  refine Finset.card_le_card ?_
  intro term hterm
  simp only [termsUpTo, List.mem_toFinset, List.mem_map] at hterm ⊢
  obtain ⟨e, he, rfl⟩ := hterm
  exact ⟨e, List.Sublist.mem he (List.take_sublist _ _).tail, rfl⟩

end Replica

/-! ### A leader and a follower -/

open Replica (SameButView)

/-- A leader that probes a follower.  Nothing is truncated on either side.  The terms of the follower's
log do not decrease and are at most the follower's own; its entries of the leader's term are the
leader's.  The logs match: they agree before an index at which they have the same term, up to the
follower's commit index and up to the matched index. -/
structure Probing (l f : Replica) : Prop where
  leader : l.role = .leader
  intact : l.Intact
  follower : f.Intact
  pos : 0 < f.id
  ne : f.id ≠ l.id
  term_le : f.currentTerm ≤ l.currentTerm
  terms_le : ∀ k term, f.logTermAt k = some term → term ≤ f.currentTerm
  sorted : ∀ j k term term', j ≤ k → f.logTermAt j = some term → f.logTermAt k = some term' →
    term ≤ term'
  own : ∀ k, f.logTermAt k = some l.currentTerm → l.logTermAt k = some l.currentTerm
  matching : ∀ j k term, j ≤ k → l.logTermAt k = some term → f.logTermAt k = some term →
    l.logTermAt j = f.logTermAt j
  committed : ∀ k ≤ f.commitIndex, l.logTermAt k = f.logTermAt k
  matched_le : (l.progress f.id).matchIndex ≤ f.lastLogIndex
  matched : ∀ k ≤ (l.progress f.id).matchIndex, l.logTermAt k = f.logTermAt k
  state : (l.progress f.id).state = .probe
  next_pos : 0 < (l.progress f.id).nextIndex
  next_le : (l.progress f.id).nextIndex ≤ l.lastLogIndex + 1

namespace Probing

variable {cfg : Config} {l l' f f' : Replica}

/-- The logs have the same term at the index that is probed. -/
def Meets (l f : Replica) : Prop := f.logTermAt (l.probedIndex f) = l.logTermAt (l.probedIndex f)

variable (h : Probing l f)
include h

theorem probedIndex_le : l.probedIndex f ≤ l.lastLogIndex := by
  have hle := h.next_le
  unfold Replica.probedIndex
  omega

variable {term : ℕ}

theorem gatherAeFields_eq (hterm : l.logTermAt (l.probedIndex f) = some term) :
    l.gatherAeFields cfg f.id =
      some ⟨l.currentTerm, l.id, l.probedIndex f, term, [], l.commitIndex, f.id⟩ :=
  Replica.gatherAeFields_of_probe h.leader h.state ((h.intact.prevLogTerm _).trans hterm)

theorem probedIndex_pos (hnot : ¬ Meets l f) : 0 < l.probedIndex f := by
  refine Nat.pos_of_ne_zero fun hzero => hnot ?_
  rw [Meets, hzero]
  exact (h.committed 0 (Nat.zero_le _)).symm

/-- A probe that meets is accepted. -/
theorem exchange_accepts (cfg : Config) (now : ℕ → ℕ) (hmeets : Meets l f) :
    ∃ f', Replica.exchange cfg now l f = some (true, l, f') := by
  obtain ⟨term, hterm⟩ := h.intact.exists_logTermAt h.probedIndex_le
  have hgather : l.gatherAeFields cfg f.id = _ := h.gatherAeFields_eq hterm
  have haccept : f.accepts ⟨l.currentTerm, l.id, l.probedIndex f, term, [], l.commitIndex⟩ = true := by
    obtain hzero | hpos := Nat.eq_zero_or_pos (l.probedIndex f)
    · refine Replica.accepts_iff_currentTerm_le.2 ⟨h.term_le, .inl ?_⟩
      exact hzero.le.trans (Nat.zero_le _)
    · exact (h.follower.accepts_iff h.term_le hpos).2 (hmeets.trans hterm)
  obtain ⟨f', lastLogIndex, requests, hreceive⟩ :=
    h.follower.receiveAppendEntries_accepts cfg h.ne.symm haccept
  refine ⟨f', ?_⟩
  simp [Replica.exchange, hgather, AeFields.toAppendEntries, hreceive]

/-- After a rejection, probing goes on. -/
theorem of_rejected (hleader : SameButView l l') (hlog : Replica.SameLog f f')
    (hid : f'.id = f.id) (hterm : f'.currentTerm = l.currentTerm)
    (hstate : (l'.progress f.id).state = .probe)
    (hmatch : (l'.progress f.id).matchIndex = (l.progress f.id).matchIndex)
    (hpos : 0 < (l'.progress f.id).nextIndex)
    (hle : (l'.progress f.id).nextIndex ≤ l.lastLogIndex + 1) : Probing l' f' := by
  have hl : l'.logTermAt = l.logTermAt := funext hleader.toSameLog.logTermAt
  have hf : f'.logTermAt = f.logTermAt := funext hlog.logTermAt
  constructor
  case leader => exact hleader.role.trans h.leader
  case intact => exact h.intact.of_sameLog hleader.toSameLog
  case follower => exact h.follower.of_sameLog hlog
  case terms_le =>
    rw [hf, hterm]
    exact fun k term hk => (h.terms_le k term hk).trans h.term_le
  all_goals simp only [hid, hl, hf, hterm, hmatch, hleader.id, hleader.currentTerm, hleader.lastLogIndex,
    hlog.commitIndex, hlog.lastLogIndex]
  case pos => exact h.pos
  case ne => exact h.ne
  case term_le => exact le_rfl
  case sorted => exact h.sorted
  case own => exact h.own
  case matching => exact h.matching
  case committed => exact h.committed
  case matched_le => exact h.matched_le
  case matched => exact h.matched
  case state => exact hstate
  case next_pos => exact hpos
  case next_le => exact hle

/-- The leader has looked behind its own entries of the reported term. -/
structure LooksBefore (l f : Replica) (conflictingIndex conflictingTerm index : ℕ) : Prop where
  term_pos : 0 < conflictingTerm
  follower : f.logTermAt (l.probedIndex f) = some conflictingTerm
  first : f.logTermAt conflictingIndex = some conflictingTerm
  pos : 0 < conflictingIndex
  le : conflictingIndex ≤ index
  le_probed : index ≤ l.probedIndex f
  skipped : ∀ j, conflictingIndex ≤ j → j < index →
    l.logTermAt j = some conflictingTerm ∧ f.logTermAt j = some conflictingTerm
  stopped : conflictingIndex ≤ f.commitIndex ∨
    ∃ term < conflictingTerm, f.logTermAt (conflictingIndex - 1) = some term

variable {conflictingIndex conflictingTerm : ℕ}

/-- Where the leader looks next: behind the end of the follower's log, or before an entry of another
term.  A report of term 0 reads like the report of a log that is too short. -/
theorem indexToSend_eq (hterm : l.logTermAt (l.probedIndex f) = some term)
    (hreports : f.Reports (l.probedIndex f) term conflictingIndex conflictingTerm) :
    ∃ index, l.indexToSend ⟨l.currentTerm, false, f.id, f.lastLogIndex, conflictingIndex,
        conflictingTerm⟩ = some (index, false) ∧
      ((f.lastLogIndex < l.probedIndex f ∨ f.logTermAt (l.probedIndex f) = some 0) ∧
          index = f.lastLogIndex + 1 ∨ LooksBefore l f conflictingIndex conflictingTerm index) := by
  have hlast := h.probedIndex_le
  obtain ⟨hshort, rfl, rfl⟩ | ⟨hne, hle, hbetween, hstop⟩ := hreports
  · exact ⟨f.lastLogIndex + 1, rfl, .inl ⟨.inl hshort, rfl⟩⟩
  · have hprobed := hbetween _ hle le_rfl
    obtain rfl | hterm_pos := Nat.eq_zero_or_pos conflictingTerm
    · exact ⟨f.lastLogIndex + 1, rfl, .inl ⟨.inr hprobed, rfl⟩⟩
    have hend := (h.follower.wellFormed.le_of_logTermAt hprobed).2
    have hterm_lt : conflictingTerm < l.currentTerm := by
      refine lt_of_le_of_ne ((h.terms_le _ _ hprobed).trans h.term_le) fun heq => hne ?_
      rw [heq] at hprobed ⊢
      exact Option.some.inj ((h.own _ hprobed).symm.trans hterm)
    -- the sentinel has term 0
    have hindex_pos : 0 < conflictingIndex := by
      refine Nat.pos_of_ne_zero fun hzero => hterm_pos.ne ?_
      have hfirst := hbetween 0 hzero.le (Nat.zero_le _)
      rw [h.follower.logTermAt, h.follower.first] at hfirst
      exact Option.some.inj hfirst
    obtain ⟨index, hskip, hfrom, hto, hskipped⟩ :=
      h.intact.wellFormed.skipConflictingTerm_spec hlast
        (fun heq => hne (Option.some.inj (heq.symm.trans hterm)))
        (f.lastLogIndex + 1 - conflictingIndex) (h.intact.truncatedIndex ▸ Nat.zero_le _) hle
    refine ⟨index, ?_, .inr ⟨hterm_pos, hprobed, hbetween _ le_rfl hle, hindex_pos, hfrom, hto, ?_, ?_⟩⟩
    · simp [Replica.indexToSend, hterm_pos.ne', hle.trans hend, hindex_pos, hle.trans hlast, hterm_lt,
        h.intact.truncatedIndex, hindex_pos.ne', hskip]
    · intro j hj hlt
      exact ⟨hskipped j hj hlt, hbetween j hj (hlt.le.trans hto)⟩
    · obtain hzero | hcommit | ⟨term', hne', hterm'⟩ := hstop
      · exact absurd hzero hindex_pos.ne'
      · exact .inl hcommit
      · refine .inr ⟨term', lt_of_le_of_ne ?_ hne', hterm'⟩
        exact h.sorted _ _ _ _ (by omega) hterm' hprobed

variable {index : ℕ}

/-- The next probe meets, or finds a smaller term. -/
theorem LooksBefore.meets (hlooks : LooksBefore l f conflictingIndex conflictingTerm index) :
    f.logTermAt (max index ((l.progress f.id).matchIndex + 1) - 1) =
        l.logTermAt (max index ((l.progress f.id).matchIndex + 1) - 1) ∨ ∃ term < conflictingTerm,
        f.logTermAt (max index ((l.progress f.id).matchIndex + 1) - 1) = some term := by
  by_cases hmatched : index ≤ (l.progress f.id).matchIndex + 1
  · rw [max_eq_right hmatched]
    exact .inl (h.matched _ (Nat.add_sub_cancel _ _).le).symm
  · rw [max_eq_left (not_le.1 hmatched).le]
    obtain hskipped | hnone := hlooks.le.lt_or_eq
    · obtain ⟨hleader, hfollower⟩ := hlooks.skipped (index - 1) (by omega) (by omega)
      exact .inl (hfollower.trans hleader.symm)
    · rw [← hnone]
      refine hlooks.stopped.imp_left fun hcommit => ?_
      exact (h.committed _ ((Nat.sub_le _ _).trans hcommit)).symm

variable {k : ℕ}

theorem LooksBefore.le_of_zero (hlooks : LooksBefore l f conflictingIndex conflictingTerm index)
    (hk : f.logTermAt k = some 0) : k < index := by
  refine lt_of_lt_of_le ?_ hlooks.le
  by_contra hle
  exact absurd (h.sorted _ _ _ _ (not_lt.1 hle) hlooks.first hk) (not_le.2 hlooks.term_pos)

/-- The index that is probed after a rejection. -/
inductive NextProbe (l f : Replica) (index : ℕ) : Prop
  /-- The log was too short: its end. -/
  | atEnd (hshort : f.lastLogIndex < l.probedIndex f) (hindex : index = f.lastLogIndex)
  /-- An entry of term 0 was reported: the end of the shorter log. -/
  | again (hzero : f.logTermAt (l.probedIndex f) = some 0)
      (hindex : index = min f.lastLogIndex l.lastLogIndex)
  /-- Another term was reported: an index where the logs meet, or one of a smaller term. -/
  | before (term : ℕ) (hterm : f.logTermAt (l.probedIndex f) = some term)
      (hlt : index < l.probedIndex f)
      (hmeets : f.logTermAt index = l.logTermAt index ∨
        ∃ term' < term, f.logTermAt index = some term')
      (hzero : ∀ k, f.logTermAt k = some 0 → k ≤ index)

/-- **One exchange** that ends with a rejection. -/
theorem exchange_rejects (cfg : Config) (now : ℕ → ℕ) (hnot : ¬ Meets l f) :
    ∃ l' f', Replica.exchange cfg now l f = some (false, l', f') ∧ Probing l' f' ∧
      Replica.SameLog l l' ∧ Replica.SameLog f f' ∧ NextProbe l f (l'.probedIndex f') := by
  have hpos := h.probedIndex_pos hnot
  have hlast := h.probedIndex_le
  obtain ⟨term, hterm⟩ := h.intact.exists_logTermAt hlast
  have hgather : l.gatherAeFields cfg f.id = _ := h.gatherAeFields_eq hterm
  let ae : AppendEntries := ⟨l.currentTerm, l.id, l.probedIndex f, term, [], l.commitIndex⟩
  obtain ⟨conflictingIndex, conflictingTerm, hreceive, hreports⟩ :=
    @Replica.Intact.receiveAppendEntries_rejects f ae h.follower cfg h.ne.symm h.term_le hpos
      fun heq => hnot (heq.trans hterm.symm)
  have hlog := Replica.acceptTerm_sameLog f ae
  obtain ⟨hdemoted, hcurrent⟩ := @Replica.acceptTerm_demoted f ae h.term_le
  obtain ⟨index, hindex, hlooks⟩ := h.indexToSend_eq hterm hreports
  -- what is matched lies before the probe
  have hmatch : (l.progress f.id).matchIndex < l.probedIndex f := by
    by_contra hle
    exact hnot (h.matched _ (not_lt.1 hle)).symm
  obtain ⟨o, hresponse, hview, hstate, hmatch', hnext⟩ :=
    h.intact.receiveAppendEntriesResponse_rejected cfg h.leader rfl rfl h.pos h.ne h.state
      (hmatch.le.trans hlast) hindex now
  dsimp only at hstate hmatch' hnext
  have hmatched_le := h.matched_le
  have hprobed : o.replica.probedIndex (f.acceptTerm ae) =
      max (min index (l.lastLogIndex + 1)) ((l.progress f.id).matchIndex + 1) - 1 := by
    rw [Replica.probedIndex, hdemoted.id, hnext]
  refine ⟨o.replica, f.acceptTerm ae, ?_, ?_, hview.toSameLog, hlog, ?_⟩
  · rw [Replica.exchange, hgather]
    change (f.receiveAppendEntries cfg ae).bind _ = _
    rw [hreceive]
    change (l.receiveAppendEntriesResponse cfg ⟨l.currentTerm, false, f.id, f.lastLogIndex,
      conflictingIndex, conflictingTerm⟩ now).bind _ = _
    rw [hresponse]
    rfl
  · refine h.of_rejected hview hlog hdemoted.id hcurrent hstate hmatch' ?_ ?_ <;> rw [hnext] <;> omega
  · obtain ⟨hshort | hzero, rfl⟩ | hlooks := hlooks
    · refine .atEnd hshort ?_
      omega
    · refine .again hzero ?_
      omega
    · have hle := hlooks.le_probed
      rw [min_eq_left (by omega)] at hprobed
      rw [hprobed]
      refine .before conflictingTerm hlooks.follower (by omega) (hlooks.meets h) ?_
      intro k hk
      have hlt := hlooks.le_of_zero h hk
      omega

omit h

/-! ### The number of exchanges -/

/-- In at most `n` exchanges a message is accepted, and every probe lies before the one it follows. -/
def Converges (cfg : Config) (n : ℕ) (l f : Replica) : Prop :=
  ∀ clock rounds, n ≤ rounds → ∃ indices, Replica.probe cfg clock rounds l f = some (indices, true) ∧
    indices.Pairwise (· > ·) ∧ ∀ i ∈ indices, i ≤ l.probedIndex f

theorem Converges.mono {n m : ℕ} (h : Converges cfg n l f) (hle : n ≤ m) : Converges cfg m l f :=
  fun clock rounds hrounds => h clock rounds (hle.trans hrounds)

theorem converges_of_meets (h : Probing l f) (hmeets : Meets l f) : Converges cfg 1 l f := by
  intro clock rounds hrounds
  obtain ⟨rounds, rfl⟩ : ∃ k, rounds = k + 1 := ⟨rounds - 1, by omega⟩
  obtain ⟨f', hexchange⟩ := h.exchange_accepts cfg (clock rounds) hmeets
  refine ⟨[l.probedIndex f], ?_, List.pairwise_singleton _ _, ?_⟩
  · simp [Replica.probe, hexchange]
  · intro i hi
    exact (List.mem_singleton.1 hi).le

theorem converges_of_rejected {n : ℕ} (h : ∀ now, ∃ l' f',
      Replica.exchange cfg now l f = some (false, l', f') ∧
      l'.probedIndex f' < l.probedIndex f ∧ Converges cfg n l' f') : Converges cfg (n + 1) l f := by
  intro clock rounds hrounds
  obtain ⟨rounds, rfl⟩ : ∃ k, rounds = k + 1 := ⟨rounds - 1, by omega⟩
  obtain ⟨l', f', hexchange, hlt, hconverges⟩ := h (clock rounds)
  obtain ⟨indices, hprobe, hsorted, hbound⟩ := hconverges clock rounds (by omega)
  refine ⟨l.probedIndex f :: indices, ?_, List.pairwise_cons.2 ⟨?_, hsorted⟩, ?_⟩
  · simp [Replica.probe, hexchange, hprobe]
  · intro i hi
    exact (hbound i hi).trans_lt hlt
  · intro i hi
    obtain rfl | hi := List.mem_cons.1 hi
    · exact le_rfl
    · exact (hbound i hi).trans hlt.le

theorem card_termsUpTo_lt (h : Probing l f) {i j term' : ℕ} (hij : i < j)
    (hi : f.logTermAt i = some term') (hj : f.logTermAt j = some term) (hlt : term' < term) :
    (f.termsUpTo i).card < (f.termsUpTo j).card := by
  refine Finset.card_lt_card (Finset.ssubset_iff_of_subset ?_ |>.2 ⟨term, ?_, ?_⟩)
  · intro t ht
    obtain ⟨k, hpos, hle, hk⟩ := h.follower.mem_termsUpTo.1 ht
    exact h.follower.mem_termsUpTo.2 ⟨k, hpos, hle.trans hij.le, hk⟩
  · exact h.follower.mem_termsUpTo.2 ⟨j, by omega, le_rfl, hj⟩
  · intro hterm
    obtain ⟨k, _, hle, hk⟩ := h.follower.mem_termsUpTo.1 hterm
    exact absurd (h.sorted k i _ _ hle hk hi) (not_le.2 hlt)

/-- The leader has term 0 wherever the follower has it. -/
def SharesZero (l f : Replica) : Prop := ∀ k, 0 < k → f.logTermAt k = some 0 → l.logTermAt k = some 0

theorem SharesZero.of_sameLog (h : SharesZero l f) (hleader : Replica.SameLog l l')
    (hlog : Replica.SameLog f f') : SharesZero l' f' := by
  intro k hpos hk
  rw [hlog.logTermAt] at hk
  rw [hleader.logTermAt]
  exact h k hpos hk

/-- Every rejection leaves fewer terms to probe. -/
theorem converges_within (h : Probing l f) (hshares : SharesZero l f)
    (hle : l.probedIndex f ≤ f.lastLogIndex) :
    Converges cfg ((f.termsUpTo (l.probedIndex f)).card + 1) l f := by
  induction hindex : l.probedIndex f using Nat.strong_induction_on generalizing l f with
  | h index ih =>
    by_cases hmeets : Meets l f
    · exact (h.converges_of_meets hmeets).mono (Nat.le_add_left _ _)
    · refine converges_of_rejected fun now => ?_
      obtain ⟨l', f', hexchange, hprobing, hleader, hlog, hnext⟩ := h.exchange_rejects cfg now hmeets
      cases hnext with
      | atEnd hshort _ => exact absurd hle (not_le.2 hshort)
      | again hzero _ =>
        exact absurd (hzero.trans (hshares _ (h.probedIndex_pos hmeets) hzero).symm) hmeets
      | before term hterm hlt hnext _ =>
        refine ⟨l', f', hexchange, hlt, ?_⟩
        rw [hindex] at hterm hlt
        obtain hmeets' | ⟨term', hterm_lt, hterm'⟩ := hnext
        · rw [← hlog.logTermAt, ← hleader.logTermAt] at hmeets'
          refine (hprobing.converges_of_meets hmeets').mono (Finset.card_pos.2 ⟨term, ?_⟩)
          exact h.follower.mem_termsUpTo.2 ⟨index, by omega, le_rfl, hterm⟩
        · have hle' : l'.probedIndex f' ≤ f'.lastLogIndex := by
            rw [hlog.lastLogIndex]
            omega
          refine (ih _ hlt hprobing (hshares.of_sameLog hleader hlog) hle' rfl).mono ?_
          have hterms : f'.termsUpTo (l'.probedIndex f') = f.termsUpTo (l'.probedIndex f') := by
            rw [Replica.termsUpTo, Replica.termsUpTo, hlog.log]
          rw [hterms]
          exact h.card_termsUpTo_lt hlt hterm' hterm hterm_lt

/-- A first probe behind the log of the follower takes one round more. -/
theorem converges (h : Probing l f) (hshares : SharesZero l f) :
    Converges cfg (f.distinctTerms + 2) l f := by
  by_cases hle : l.probedIndex f ≤ f.lastLogIndex
  · refine (h.converges_within hshares hle).mono ?_
    have hcard := f.card_termsUpTo_le (l.probedIndex f)
    omega
  · have hnone : ∀ term, f.logTermAt (l.probedIndex f) ≠ some term := fun term hterm =>
      hle (h.follower.wellFormed.le_of_logTermAt hterm).2
    have hnot : ¬ Meets l f := by
      obtain ⟨term, hterm⟩ := h.intact.exists_logTermAt h.probedIndex_le
      exact fun hmeets => hnone term (hmeets.trans hterm)
    refine converges_of_rejected fun now => ?_
    obtain ⟨l', f', hexchange, hprobing, hleader, hlog, hnext⟩ := h.exchange_rejects cfg now hnot
    cases hnext with
    | atEnd hshort hend =>
      refine ⟨l', f', hexchange, by rwa [hend], ?_⟩
      rw [← hlog.lastLogIndex] at hend
      refine (hprobing.converges_within (hshares.of_sameLog hleader hlog) hend.le).mono ?_
      have hterms : f'.distinctTerms = f.distinctTerms := by
        rw [Replica.distinctTerms, Replica.distinctTerms, hlog.log]
      have hcard := f'.card_termsUpTo_le (l'.probedIndex f')
      omega
    | again hzero _ => exact absurd hzero (hnone 0)
    | before term hterm _ _ _ => exact absurd hterm (hnone term)

/-! ### An entry of term 0 that the leader does not have -/

/-- The follower has an entry of term 0, at or before the probe, where the leader has another term. -/
structure Stuck (l f : Replica) (k : ℕ) : Prop where
  follower : f.logTermAt k = some 0
  leader : l.logTermAt k ≠ some 0
  le : k ≤ l.probedIndex f

theorem Stuck.not_meets (h : Probing l f) (hstuck : Stuck l f k) : ¬ Meets l f := by
  intro hmeets
  obtain ⟨term, hterm⟩ := h.intact.exists_logTermAt h.probedIndex_le
  refine hstuck.leader ?_
  rw [h.matching k _ term hstuck.le hterm (hmeets.trans hterm)]
  exact hstuck.follower

/-- The next probe is not before the entry of term 0. -/
theorem Stuck.next (h : Probing l f) (hstuck : Stuck l f k)
    (hnext : NextProbe l f index) : k ≤ index := by
  have hfollower := (h.follower.wellFormed.le_of_logTermAt hstuck.follower).2
  have hle := hstuck.le.trans h.probedIndex_le
  cases hnext with
  | atEnd _ hindex =>
    rw [hindex]
    exact hfollower
  | again _ hindex =>
    rw [hindex]
    exact le_min hfollower hle
  | before _ _ _ _ hzero => exact hzero k hstuck.follower

/-- No number of rounds is enough. -/
theorem Stuck.not_accepted (clock : ℕ → ℕ → ℕ) (rounds : ℕ) : ∀ {l f : Replica},
    Probing l f → Stuck l f k → ∀ indices, Replica.probe cfg clock rounds l f ≠ some (indices, true) := by
  induction rounds with
  | zero =>
    intro l f _ _ indices h
    cases h
  | succ rounds ih =>
    intro l f h hstuck indices hprobe
    obtain ⟨l', f', hexchange, hprobing, hleader, hlog, hnext⟩ :=
      h.exchange_rejects cfg (clock rounds) (hstuck.not_meets h)
    have hstuck' : Stuck l' f' k := by
      refine ⟨?_, ?_, hstuck.next h hnext⟩
      · rw [hlog.logTermAt]
        exact hstuck.follower
      · rw [hleader.logTermAt]
        exact hstuck.leader
    simp only [Replica.probe, hexchange, bind, bind_some] at hprobe
    obtain ⟨⟨rest, result⟩, hrest, hprobe⟩ := bind_eq_some_iff.1 hprobe
    cases hprobe
    exact ih hprobing hstuck' rest hrest

end Probing

/-- **Probing ends**, after at most as many rejections as the follower has distinct terms, and one more,
with every probe at a smaller index than the one before, exactly if the first message is accepted or the
leader has the follower's entries of term 0. -/
theorem probing_terminates_iff {l f : Replica} (h : Probing l f) (cfg : Config) (clock : ℕ → ℕ → ℕ) :
    (∃ indices, Replica.probe cfg clock (f.distinctTerms + 2) l f = some (indices, true) ∧
      indices.Pairwise (· > ·)) ↔ Probing.Meets l f ∨ Probing.SharesZero l f := by
  constructor
  · rintro ⟨indices, hprobe, _⟩
    by_contra hneg
    obtain ⟨hnot, hshares⟩ := not_or.1 hneg
    obtain ⟨k, hk⟩ := not_forall.1 hshares
    obtain ⟨hpos, hk⟩ := Classical.not_imp.1 hk
    obtain ⟨hzero, hne⟩ := Classical.not_imp.1 hk
    -- the entry itself, or the one at the probe before it
    obtain ⟨j, hstuck⟩ : ∃ j, Probing.Stuck l f j := by
      by_cases hle : k ≤ l.probedIndex f
      · exact ⟨k, hzero, hne, hle⟩
      · have hend := (h.follower.wellFormed.le_of_logTermAt hzero).2
        obtain ⟨term, hterm⟩ := @Replica.Intact.exists_logTermAt f (l.probedIndex f) h.follower
          (by omega)
        have hterm_le := h.sorted _ _ _ _ (not_le.1 hle).le hterm hzero
        rw [Nat.le_zero.1 hterm_le] at hterm
        exact ⟨l.probedIndex f, hterm, fun heq => hnot (hterm.trans heq.symm), le_rfl⟩
    exact hstuck.not_accepted clock _ h indices hprobe
  · intro hcondition
    have hconverges : Probing.Converges cfg (f.distinctTerms + 2) l f := by
      obtain hmeets | hshares := hcondition
      · exact (h.converges_of_meets hmeets).mono (by omega)
      · exact h.converges hshares
    obtain ⟨indices, hprobe, hsorted, _⟩ := hconverges clock _ le_rfl
    exact ⟨indices, hprobe, hsorted⟩

/-- A leader of term 3, with two entries of term 2 before its no-op. -/
def probingLeader : Replica :=
  { Replica.construct 2 with
    currentTerm := 3
    role := .leader
    log := [sentinel, ⟨2, "x"⟩, ⟨2, "y"⟩, ⟨3, "RAFT_NO_OP"⟩]
    lastLogIndex := 3
    progress := fun _ => { nextIndex := 3 } }

/-- A follower with one entry of term 1. -/
def probedFollower : Replica :=
  { Replica.construct 3 with
    currentTerm := 1
    log := [sentinel, ⟨1, "a"⟩]
    lastLogIndex := 1 }

theorem probedFollower_logTermAt {k term : ℕ} (h : probedFollower.logTermAt k = some term) :
    term = k ∧ k ≤ 1 := by
  obtain _ | _ | k := k
  · cases h
    exact ⟨rfl, by decide⟩
  · cases h
    exact ⟨rfl, by decide⟩
  · have hrange : ¬ (0 ≤ k + 2 ∧ k + 2 < 2) := by omega
    exact nomatch h.symm.trans (if_neg hrange)

theorem probingLeader_probing : Probing probingLeader probedFollower where
  leader := rfl
  intact := ⟨rfl, rfl, rfl, rfl, rfl, rfl, Nat.zero_le _, le_rfl⟩
  follower := ⟨rfl, rfl, rfl, rfl, rfl, rfl, Nat.zero_le _, le_rfl⟩
  pos := by decide
  ne := by decide
  term_le := by decide
  terms_le := by
    intro k term h
    obtain ⟨rfl, hle⟩ := probedFollower_logTermAt h
    exact hle
  sorted := by
    intro j k term term' hjk hj hk
    obtain ⟨rfl, _⟩ := probedFollower_logTermAt hj
    obtain ⟨rfl, _⟩ := probedFollower_logTermAt hk
    exact hjk
  own := by
    intro k h
    obtain ⟨rfl, hle⟩ := probedFollower_logTermAt h
    exact absurd hle (by decide)
  matching := by
    intro j k term hjk hl hf
    obtain ⟨rfl, hle⟩ := probedFollower_logTermAt hf
    obtain rfl | rfl := Nat.le_one_iff_eq_zero_or_eq_one.1 hle
    · rw [Nat.le_zero.1 hjk]
      rfl
    · cases hl
  committed := by
    intro k hk
    rw [Nat.le_zero.1 hk]
    rfl
  matched_le := by decide
  matched := by
    intro k hk
    rw [Nat.le_zero.1 hk]
    rfl
  state := rfl
  next_pos := by decide
  next_le := by decide

/-- The first probe is behind the end of the follower's log, the second finds another term, the third is
accepted. -/
theorem probing_terminates_iff_probingLeader :
    (∃ indices, Replica.probe threeReplicas (fun _ => stillClock) 3 probingLeader probedFollower =
      some (indices, true) ∧ indices.Pairwise (· > ·)) ∧
    Replica.probe threeReplicas (fun _ => stillClock) 3 probingLeader probedFollower =
      some ([2, 1, 0], true) := by
  refine ⟨(probing_terminates_iff probingLeader_probing threeReplicas fun _ => stillClock).2
    (.inr ?_), by decide +kernel⟩
  intro k hpos hzero
  obtain ⟨rfl, _⟩ := probedFollower_logTermAt hzero
  exact absurd hpos (lt_irrefl 0)

/-- Replica 1 comes up without metadata and so leads term 0.  Its first entry reaches the others, the
second does not.  Replica 2 leads term 1 and replicates its no-op to replica 3, which leads term 2. -/
def zeroTermRun : List LifeAction :=
  comeUp 1 ++ comeUp 2 ++ comeUp 3 ++
  [.act (.receiveTransaction 1 "a" stillClock), .act (.deliver 0 stillClock),
    .act (.deliver 1 stillClock), .act (.receiveTransaction 1 "b" stillClock),
    .act (.startElection 2), .act (.deliver 8 stillClock), .act (.deliver 9 stillClock),
    .act (.sendHeartbeat 2 stillClock), .act (.deliver 11 stillClock),
    .act (.deliver 12 stillClock), .act (.deliver 13 stillClock), .act (.startElection 3),
    .act (.deliver 16 stillClock), .act (.deliver 18 stillClock)]

/-- Replica 3 probes replica 1 at index 2.  The term of the conflict is 0, so the leader takes the log for
too short and probes at the end of it, at index 2 again. -/
theorem probing_terminates_fails :
    ∃ d, (deploymentSystem recoverableReplicas).run (.start recoverableReplicas) zeroTermRun = some d ∧
      (d.cluster.replicas 3).role = .leader ∧ (d.cluster.replicas 3).currentTerm = 2 ∧
      (d.cluster.replicas 3).log =
        [sentinel, ⟨0, "a"⟩, ⟨1, "RAFT_NO_OP"⟩, ⟨2, "RAFT_NO_OP"⟩] ∧
      ((d.cluster.replicas 3).progress 1).matchIndex = 0 ∧
      (d.cluster.replicas 1).currentTerm = 0 ∧
      (d.cluster.replicas 1).log = [sentinel, ⟨0, "a"⟩, ⟨0, "b"⟩] ∧
      (d.cluster.replicas 1).commitIndex = 0 ∧ (d.cluster.replicas 1).distinctTerms = 1 ∧
      Replica.probe threeReplicas (fun _ => stillClock) 3 (d.cluster.replicas 3)
        (d.cluster.replicas 1) = some ([2, 2, 2], false) :=
  ⟨_, rfl, by decide +kernel, by decide +kernel, by decide +kernel, by decide +kernel,
    by decide +kernel, by decide +kernel, by decide +kernel, by decide +kernel, by decide +kernel⟩

end Raft
