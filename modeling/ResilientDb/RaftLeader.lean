/-
**The leader's view of its followers.**

A leader keeps a `FollowerProgress` for every follower and sends entries only to followers in state
`REPLICATE`.  This module says what the leader's handlers do to that view and what they send.  The
view is described relative to a relation `acked j m`, which later stands for "follower `j` has
acknowledged, in this term, a log that ends at or below `m`"; here only its monotonicity matters.

Main definitions:

* `Raft.FollowerOk`, `Raft.Replica.ViewOk` — a follower in state `REPLICATE` has acknowledged
  something at or below its `match_index`, which is below its `next_index`;
* `Raft.SliceOf` — an `AppendEntries` message is a slice of a leader's log.

Main results:

* `Raft.Replica.gatherAeFields_spec` — what is sent to a follower is a slice of the leader's log,
  and holds entries only if the follower has acknowledged something at or below its start;
* `Raft.Replica.receiveTransaction_spec`, `Raft.Replica.sendHeartbeat_spec`,
  `Raft.Replica.receiveAppendEntriesResponse_spec` — the leader's handlers.
-/

import ResilientDb.RaftBranches

set_option autoImplicit false

namespace Raft

open Option (bind_eq_some_iff guard_eq_some')

/-! ### Slices and views -/

/-- The message is a slice of the log of the replica, from the entry before its entries on. -/
structure SliceOf (r : Replica) (ae : AppendEntries) : Prop where
  term : ae.term = r.currentTerm
  leaderId : ae.leaderId = r.id
  commit : ae.leaderCommitIndex = r.commitIndex
  prev : (r.log[ae.prevLogIndex]?).map Entry.term = some ae.prevLogTerm
  entries : ae.entries <+: r.log.drop (ae.prevLogIndex + 1)

/-- What holds of the view that a leader with last index `last` has of follower `j`. -/
structure FollowerOk (acked : ℕ → ℕ → Prop) (last j : ℕ) (p : FollowerProgress) : Prop where
  state : p.state ≠ .snapshot
  acked : p.state = .replicate → acked j p.matchIndex
  next : p.matchIndex < p.nextIndex
  le : p.matchIndex ≤ last

variable {p : FollowerProgress}

/-- What is known of a follower stays true when the log grows. -/
theorem FollowerOk.mono {acked : ℕ → ℕ → Prop} {last last' j : ℕ}
    (h : FollowerOk acked last j p) (hle : last ≤ last') : FollowerOk acked last' j p :=
  ⟨h.state, h.acked, h.next, h.le.trans hle⟩

namespace Replica

/-- The view of every follower is in order. -/
def ViewOk (cfg : Config) (acked : ℕ → ℕ → Prop) (r : Replica) : Prop :=
  ∀ j, cfg.IsMember j → j ≠ r.id → FollowerOk acked r.lastLogIndex j (r.progress j)

/-- A message that a leader may send: a slice of its log to a member, with entries only if the
member has acknowledged something at or below its start. -/
def MaySend (cfg : Config) (acked : ℕ → ℕ → Prop) (r : Replica) (m : ℕ × Message) : Prop :=
  ∃ ae, m.2 = .appendEntries ae ∧ SliceOf r ae ∧ cfg.IsMember m.1 ∧
    (ae.entries ≠ [] → acked m.1 ae.prevLogIndex)

/-- Only the view of the followers and the batching timestamp may differ. -/
structure SameButView (r r' : Replica) : Prop extends SameRole r r', SameLog r r'

theorem SameButView.refl (r : Replica) : SameButView r r := ⟨SameRole.refl r, SameLog.refl r⟩

variable {r₁ r₂ r₃ : Replica}

theorem SameButView.trans (h : SameButView r₁ r₂) (h' : SameButView r₂ r₃) : SameButView r₁ r₃ where
  toSameRole := h.toSameRole.trans h'.toSameRole
  log := h'.log.trans h.log
  lastLogIndex := h'.lastLogIndex.trans h.lastLogIndex
  commitIndex := h'.commitIndex.trans h.commitIndex
  lastCommitted := h'.lastCommitted.trans h.lastCommitted
  truncatedLastIndex := h'.truncatedLastIndex.trans h.truncatedLastIndex
  truncatedLastTerm := h'.truncatedLastTerm.trans h.truncatedLastTerm
  snapshotLastIndex := h'.snapshotLastIndex.trans h.snapshotLastIndex
  snapshotLastTerm := h'.snapshotLastTerm.trans h.snapshotLastTerm

/-- A slice of the log is one of every replica with that log. -/
theorem SliceOf_of_sameButView {r r' : Replica} (h : SameButView r r') {ae : AppendEntries}
    (ha : SliceOf r ae) : SliceOf r' ae :=
  ⟨by rw [h.currentTerm, ha.term], by rw [h.id, ha.leaderId], by rw [h.commitIndex, ha.commit],
    by rw [h.log, ha.prev], by rw [h.log]; exact ha.entries⟩

/-- The stored `match_index` of every follower is the same. -/
def SameMatch (r r' : Replica) : Prop :=
  ∀ j, (r'.progress j).matchIndex = (r.progress j).matchIndex

theorem SameMatch.refl (r : Replica) : SameMatch r r := fun _ => rfl

theorem SameMatch.trans (h : SameMatch r₁ r₂) (h' : SameMatch r₂ r₃) :
    SameMatch r₁ r₃ := fun j => (h' j).trans (h j)

/-- Only the view may differ, and no `match_index`. -/
structure KeepsMatch (r r' : Replica) : Prop extends SameButView r r' where
  sameMatch : SameMatch r r'

theorem KeepsMatch.refl (r : Replica) : KeepsMatch r r := ⟨.refl r, .refl r⟩

theorem KeepsMatch.trans (h : KeepsMatch r₁ r₂) (h' : KeepsMatch r₂ r₃) :
    KeepsMatch r₁ r₃ := ⟨h.toSameButView.trans h'.toSameButView, h.sameMatch.trans h'.sameMatch⟩

/-! ### Operations that only touch the view -/

section

variable {cfg : Config} {r r' : Replica} {now : ℕ → ℕ} {msgs : List AeFields}

theorem setProgress_sameButView (r : Replica) (i : ℕ) (p : FollowerProgress) :
    SameButView r (r.setProgress i p) :=
  ⟨⟨rfl, rfl, rfl, rfl, rfl⟩, ⟨rfl, rfl, rfl, rfl, rfl, rfl, rfl, rfl⟩⟩

theorem finishTransaction_sameButView (r : Replica) (myLogIndex : ℕ) :
    SameButView r (r.finishTransaction myLogIndex) := by
  unfold finishTransaction
  split
  · exact setProgress_sameButView r _ _
  · exact SameButView.refl r

theorem keepsMatch_of_progress {progress : ℕ → FollowerProgress}
    (h : ∀ j, (progress j).matchIndex = (r.progress j).matchIndex) :
    KeepsMatch r { r with progress := progress } :=
  ⟨⟨⟨rfl, rfl, rfl, rfl, rfl⟩, ⟨rfl, rfl, rfl, rfl, rfl, rfl, rfl, rfl⟩⟩, h⟩

theorem setProgress_sameMatch {i : ℕ}
    (hm : p.matchIndex = (r.progress i).matchIndex) : SameMatch r (r.setProgress i p) := by
  intro j
  by_cases hj : j = i
  · subst hj
    rw [setProgress_self, hm]
  · rw [setProgress_of_ne r hj]

theorem setProgress_keepsMatch {i : ℕ}
    (hm : p.matchIndex = (r.progress i).matchIndex) : KeepsMatch r (r.setProgress i p) :=
  keepsMatch_of_progress (setProgress_sameMatch hm)

theorem pruneExpired_matchIndex (t now : ℕ) (p : FollowerProgress) :
    (pruneExpired t now p).matchIndex = p.matchIndex := by
  unfold pruneExpired
  split <;> rfl

/-- Messages that were not answered in time are forgotten. -/
theorem pruneExpiredInFlightMsgs_keepsMatch {now : ℕ}
    (h : r.pruneExpiredInFlightMsgs cfg now = some r') : KeepsMatch r r' := by
  simp only [pruneExpiredInFlightMsgs, bind, bind_eq_some_iff] at h
  obtain ⟨-, -, h⟩ := h
  cases h
  refine keepsMatch_of_progress fun j => ?_
  split
  · exact pruneExpired_matchIndex _ _ _
  · rfl

theorem pruneRedundantInFlightMsgs_keepsMatch {followerId last : ℕ}
    (h : r.pruneRedundantInFlightMsgs followerId last = some r') :
    KeepsMatch r r' ∧ followerId ≠ r.id := by
  simp only [pruneRedundantInFlightMsgs, bind, bind_eq_some_iff, guard_eq_some'] at h
  obtain ⟨-, -, -, -, -, hne, h⟩ := h
  cases h
  exact ⟨setProgress_keepsMatch rfl, hne⟩

theorem recordNewInFlightMsg_keepsMatch (r : Replica) (msg : AeFields) (timestamp : ℕ) :
    KeepsMatch r (r.recordNewInFlightMsg msg timestamp) := by
  unfold recordNewInFlightMsg
  dsimp only
  split_ifs
  · exact setProgress_keepsMatch rfl
  · exact KeepsMatch.refl r
  · exact setProgress_keepsMatch rfl

theorem recordBroadcast_keepsMatch (timestamp : ℕ) (msgs : List AeFields) :
    ∀ r : Replica, KeepsMatch r (r.recordBroadcast msgs timestamp) := by
  induction msgs with
  | nil =>
    intro r
    exact KeepsMatch.refl r
  | cons msg msgs ih =>
    intro r
    exact (recordNewInFlightMsg_keepsMatch r msg timestamp).trans (ih _)

/-- Sending again changes no match index. -/
theorem resend_keepsMatch {followerId : ℕ} {isBeingProbed : Bool} {rounds : ℕ} :
    ∀ {r r' : Replica} {msgs : List AeFields},
      resend cfg followerId isBeingProbed now rounds r = some (r', msgs) → KeepsMatch r r' := by
  induction rounds with
  | zero =>
    intro r r' msgs h
    cases h
    exact KeepsMatch.refl r
  | succ rounds ih =>
    intro r r' msgs h
    simp only [resend, bind, bind_eq_some_iff] at h
    obtain ⟨can, -, h⟩ := h
    split at h
    · cases h
      exact KeepsMatch.refl r
    · obtain ⟨fields, -, h⟩ := bind_eq_some_iff.1 h
      split at h
      · cases h
        exact KeepsMatch.refl r
      · obtain ⟨⟨r₂, rest⟩, hrest, h⟩ := bind_eq_some_iff.1 h
        cases h
        exact (recordNewInFlightMsg_keepsMatch r fields _).trans (ih hrest)

variable {aer : AppendEntriesResponse} {shouldSendSnapshot : Bool}

/-- A follower that is behind gets more entries. -/
theorem catchUp_keepsMatch
    (h : r.catchUp cfg aer shouldSendSnapshot now = some (r', msgs)) : KeepsMatch r r' := by
  unfold catchUp at h
  split at h
  · cases h
    exact setProgress_keepsMatch rfl
  · simp only [bind, bind_eq_some_iff] at h
    obtain ⟨-, -, ⟨r₁, msgs₁⟩, hres, h⟩ := h
    cases h
    split
    · exact (resend_keepsMatch hres).trans (setProgress_keepsMatch rfl)
    · exact resend_keepsMatch hres

theorem handleFailure_keepsMatch
    (h : r.handleFailure aer = some (r', shouldSendSnapshot)) : KeepsMatch r r' := by
  simp only [handleFailure, bind, bind_eq_some_iff] at h
  obtain ⟨⟨index, snap⟩, -, h⟩ := h
  cases h
  refine setProgress_keepsMatch ?_
  split <;> rfl

/-- A heartbeat changes no match index. -/
theorem sendHeartbeat_keepsMatch {o : Outcome} (h : r.sendHeartbeat cfg now = some o) :
    KeepsMatch r o.replica ∧ o.applied = [] := by
  unfold sendHeartbeat at h
  split at h
  · cases h
    exact ⟨.refl r, rfl⟩
  · simp only [bind, bind_eq_some_iff] at h
    obtain ⟨r₁, hprune, msgs, -, h⟩ := h
    cases h
    refine ⟨((pruneExpiredInFlightMsgs_keepsMatch hprune).trans
      (recordBroadcast_keepsMatch (now 1) msgs r₁)).trans (keepsMatch_of_progress fun j => ?_), rfl⟩
    split <;> rfl

/-- What is announced is recorded as being in flight. -/
theorem Announces.keepsMatch (h : Announces cfg now r r' msgs) : KeepsMatch r r' := by
  obtain ⟨r₁, hprune, hsent⟩ := h
  have hr₁ : KeepsMatch r r₁ :=
    .trans (setProgress_keepsMatch (by rfl)) (pruneExpiredInFlightMsgs_keepsMatch hprune)
  obtain ⟨rfl, _⟩ | ⟨_, rfl⟩ := hsent
  · exact hr₁
  · have hstamp : KeepsMatch r₁ { r₁ with timestampSinceLastTransactionBatch := now 1 } :=
      ⟨⟨⟨rfl, rfl, rfl, rfl, rfl⟩, ⟨rfl, rfl, rfl, rfl, rfl, rfl, rfl, rfl⟩⟩, .refl r₁⟩
    exact (hr₁.trans hstamp).trans (recordBroadcast_keepsMatch _ _ _)

theorem Considers.keepsMatch (h : Considers cfg aer now r r') :
    KeepsMatch r r' ∧ aer.id ≠ r.id := by
  obtain ⟨r₁, hredundant, hexpired⟩ := h.pruned
  obtain ⟨hr₁, hne⟩ := pruneRedundantInFlightMsgs_keepsMatch hredundant
  exact ⟨hr₁.trans (pruneExpiredInFlightMsgs_keepsMatch hexpired), hne⟩

theorem Continues.keepsMatch
    (h : Continues cfg aer shouldSendSnapshot now r r' msgs) : KeepsMatch r r' := by
  obtain ⟨rfl, _⟩ | h := h
  · exact KeepsMatch.refl r'
  · exact catchUp_keepsMatch h

end

/-- A change of the view that keeps `match_index`. -/
structure ViewStep (cfg : Config) (acked : ℕ → ℕ → Prop) (r r' : Replica) : Prop extends
    SameButView r r' where
  sameMatch : SameMatch r r'
  viewOk : r.ViewOk cfg acked → r'.ViewOk cfg acked

variable {cfg : Config} {acked : ℕ → ℕ → Prop}

theorem ViewStep.refl (r : Replica) : ViewStep cfg acked r r :=
  ⟨SameButView.refl r, SameMatch.refl r, fun h => h⟩

theorem ViewStep.trans
    (h : ViewStep cfg acked r₁ r₂) (h' : ViewStep cfg acked r₂ r₃) : ViewStep cfg acked r₁ r₃ :=
  ⟨h.toSameButView.trans h'.toSameButView, h.sameMatch.trans h'.sameMatch, h'.viewOk ∘ h.viewOk⟩

/-! ### Updating the view -/

theorem setProgress_viewStep {r : Replica} {i : ℕ} (hm : p.matchIndex = (r.progress i).matchIndex)
    (hok : cfg.IsMember i → i ≠ r.id → FollowerOk acked r.lastLogIndex i (r.progress i) →
      FollowerOk acked r.lastLogIndex i p) : ViewStep cfg acked r (r.setProgress i p) where
  toSameButView := ⟨⟨rfl, rfl, rfl, rfl, rfl⟩, ⟨rfl, rfl, rfl, rfl, rfl, rfl, rfl, rfl⟩⟩
  sameMatch := setProgress_sameMatch hm
  viewOk := by
    intro hv j hj hne
    by_cases hji : j = i
    · subst hji
      rw [setProgress_self]
      exact hok hj hne (hv j hj hne)
    · rw [setProgress_of_ne r hji]
      exact hv j hj hne

section

variable {cfg : Config} {acked : ℕ → ℕ → Prop}

variable {r : Replica}

theorem recordNewInFlightMsg_viewStep {msg : AeFields} {timestamp : ℕ}
    (hm : (r.progress msg.followerId).matchIndex ≤ msg.prevLogIndex) :
    ViewStep cfg acked r (r.recordNewInFlightMsg msg timestamp) := by
  unfold recordNewInFlightMsg
  simp only
  split_ifs
  · exact setProgress_viewStep rfl fun _ _ h => ⟨h.state, h.acked, h.next, h.le⟩
  · exact ViewStep.refl r
  · refine setProgress_viewStep rfl fun _ _ h => ⟨h.state, h.acked, ?_, h.le⟩
    simp only
    omega

/-- The messages of a broadcast are recorded one after the other. -/
theorem recordBroadcast_viewStep {timestamp : ℕ} : ∀ {msgs : List AeFields} {r : Replica},
    (∀ msg ∈ msgs, (r.progress msg.followerId).matchIndex ≤ msg.prevLogIndex) →
      ViewStep cfg acked r (r.recordBroadcast msgs timestamp)
  | [], r, _ => ViewStep.refl r
  | msg :: msgs, r, h => by
    have h₁ : ViewStep cfg acked r (r.recordNewInFlightMsg msg timestamp) :=
      recordNewInFlightMsg_viewStep (h msg List.mem_cons_self)
    refine h₁.trans (recordBroadcast_viewStep ?_)
    intro msg' hmsg'
    rw [h₁.sameMatch]
    exact h msg' (List.mem_cons_of_mem _ hmsg')

variable {last j : ℕ}

theorem pruneExpired_ok {now : ℕ} (h : FollowerOk acked last j p) :
    FollowerOk acked last j (pruneExpired 0 now p) := by
  unfold pruneExpired
  split
  · refine ⟨?_, ?_, Nat.lt_succ_self _, h.le⟩
    · simp only [Nat.le_zero, Nat.succ_ne_zero, if_false]
      split
      · simp
      · exact h.state
    · intro hs
      simp only [Nat.le_zero, Nat.succ_ne_zero, if_false] at hs
      split at hs
      · cases hs
      · exact h.acked hs
  · exact h

variable {r' : Replica}

theorem pruneExpiredInFlightMsgs_viewStep {now : ℕ} (h : r.Intact)
    (hp : r.pruneExpiredInFlightMsgs cfg now = some r') : ViewStep cfg acked r r' := by
  have hkeeps := pruneExpiredInFlightMsgs_keepsMatch hp
  refine ⟨hkeeps.toSameButView, hkeeps.sameMatch, ?_⟩
  simp only [pruneExpiredInFlightMsgs, bind, bind_eq_some_iff] at hp
  obtain ⟨-, -, hp⟩ := hp
  cases hp
  intro hv j hj hne
  simp only [h.truncatedIndex]
  split
  · exact pruneExpired_ok (hv j hj hne)
  · exact hv j hj hne

theorem pruneRedundantInFlightMsgs_viewStep {followerId : ℕ}
    (hp : r.pruneRedundantInFlightMsgs followerId last = some r') :
    ViewStep cfg acked r r' ∧ followerId ≠ r.id := by
  unfold pruneRedundantInFlightMsgs at hp
  simp only [bind, bind_eq_some_iff, guard_eq_some'] at hp
  obtain ⟨-, -, -, -, -, hne, hp⟩ := hp
  cases hp
  exact ⟨setProgress_viewStep rfl fun _ _ h => ⟨h.state, h.acked, h.next, h.le⟩, hne⟩

/-! ### Gathering messages -/

/-- The entries of a message are a beginning of the log behind its index. -/
theorem gatherEntries_isPrefix (h : r.Intact) {firstNew : ℕ} :
    ∀ {count msgBytes index : ℕ} {entries : List Entry},
      r.gatherEntries cfg firstNew msgBytes index count = some entries →
        entries <+: r.log.drop index
  | 0, msgBytes, index, entries, hg => by
    obtain rfl : [] = entries := by simpa [gatherEntries] using hg
    exact List.nil_prefix
  | count + 1, msgBytes, index, entries, hg => by
    simp only [gatherEntries, bind, bind_eq_some_iff] at hg
    obtain ⟨e, he, hg⟩ := hg
    split at hg
    · cases hg
      exact List.nil_prefix
    · obtain ⟨rest, hrest, hg⟩ := bind_eq_some_iff.1 hg
      cases hg
      have hget := (h.logEntryAt he).2
      obtain ⟨hlt, rfl⟩ := List.getElem?_eq_some_iff.1 hget
      rw [List.drop_eq_getElem_cons hlt]
      exact (List.prefix_cons_inj _).2 (gatherEntries_isPrefix h hrest)

/-- **What is sent to a follower.** -/
theorem gatherAeFields_spec (h : r.Intact) (hmono : ∀ j, Monotone (acked j))
    (hj : FollowerOk acked last j (r.progress j)) {fields : AeFields}
    (hg : r.gatherAeFields cfg j = some fields) :
    fields.followerId = j ∧ SliceOf r fields.toAppendEntries ∧
      (r.progress j).matchIndex ≤ fields.prevLogIndex ∧
        (fields.entries ≠ [] → acked j fields.prevLogIndex) := by
  have hnext := hj.next
  unfold gatherAeFields at hg
  simp only [bind, bind_eq_some_iff] at hg
  obtain ⟨prevLogTerm, hprev, can, -, hg⟩ := hg
  have hprev' : (r.log[(r.progress j).nextIndex - 1]?).map Entry.term = some prevLogTerm := by
    unfold Replica.prevLogTerm at hprev
    rw [h.truncatedIndex, h.snapshotTerm, h.logTermAt] at hprev
    split at hprev
    · rename_i h0
      rw [Nat.le_zero.1 h0, h.first]
      exact hprev
    · exact hprev
  split at hg
  · cases hg
    exact ⟨rfl, ⟨rfl, rfl, rfl, hprev', List.nil_prefix⟩, by simp only; omega, by simp⟩
  · rename_i hcan
    obtain ⟨entries, hent, hg⟩ := bind_eq_some_iff.1 hg
    cases hg
    have hs : (r.progress j).state = .replicate := by
      by_contra hs
      exact hcan (.inr hs)
    refine ⟨rfl, ⟨rfl, rfl, rfl, hprev', ?_⟩, by simp only; omega, fun _ => ?_⟩
    · have hidx : (r.progress j).nextIndex - 1 + 1 = (r.progress j).nextIndex := by omega
      simp only [AeFields.toAppendEntries, hidx]
      exact gatherEntries_isPrefix h hent
    · exact hmono j (by simp only; omega) (hj.acked hs)

/-- A message may be sent by every replica with the same log and role. -/
theorem MaySend.of_sameButView (h : SameButView r r') {m : ℕ × Message}
    (hm : r.MaySend cfg acked m) : r'.MaySend cfg acked m := by
  obtain ⟨ae, hae, hslice, hmem, hacked⟩ := hm
  exact ⟨ae, hae, SliceOf_of_sameButView h hslice, hmem, hacked⟩

theorem gatherAeFieldsFor_mem : ∀ {ids : List ℕ} {msgs : List AeFields},
    r.gatherAeFieldsFor cfg ids = some msgs → ∀ fields ∈ msgs,
      ∃ j ∈ ids, j ≠ r.id ∧ r.gatherAeFields cfg j = some fields
  | [], msgs, hg, fields, hf => by
    obtain rfl : [] = msgs := by simpa [gatherAeFieldsFor] using hg
    cases hf
  | i :: ids, msgs, hg, fields, hf => by
    unfold gatherAeFieldsFor at hg
    split at hg
    · obtain ⟨j, hj, hrest⟩ := gatherAeFieldsFor_mem hg fields hf
      exact ⟨j, List.mem_cons_of_mem _ hj, hrest⟩
    · rename_i hne
      simp only [bind, bind_eq_some_iff] at hg
      obtain ⟨first, hfirst, rest, hrest, hg⟩ := hg
      cases hg
      rcases List.mem_cons.1 hf with rfl | hf
      · exact ⟨i, List.mem_cons_self, hne, hfirst⟩
      · obtain ⟨j, hj, hrest⟩ := gatherAeFieldsFor_mem hrest fields hf
        exact ⟨j, List.mem_cons_of_mem _ hj, hrest⟩

/-- A broadcast sends slices of the log, and keeps what is known of the followers. -/
theorem broadcast_spec (h : r.Intact) (hmono : ∀ j, Monotone (acked j)) (hv : r.ViewOk cfg acked)
    {msgs : List AeFields} (hg : r.gatherAeFieldsForBroadcast cfg = some msgs) (timestamp : ℕ) :
    ViewStep cfg acked r (r.recordBroadcast msgs timestamp) ∧
      ∀ m ∈ msgs.map AeFields.toMessage, r.MaySend cfg acked m := by
  unfold gatherAeFieldsForBroadcast at hg
  simp only [bind, bind_eq_some_iff] at hg
  obtain ⟨-, -, hg⟩ := hg
  have key : ∀ fields ∈ msgs, cfg.IsMember fields.followerId ∧
      SliceOf r fields.toAppendEntries ∧
      (r.progress fields.followerId).matchIndex ≤ fields.prevLogIndex ∧
      (fields.entries ≠ [] → acked fields.followerId fields.prevLogIndex) := by
    intro fields hf
    obtain ⟨j, hj, hne, hgj⟩ := gatherAeFieldsFor_mem hg fields hf
    have hmem : cfg.IsMember j := by
      rw [List.mem_range'_1] at hj
      exact ⟨hj.1, by omega⟩
    obtain ⟨rfl, hslice, hmatch, hack⟩ := gatherAeFields_spec h hmono (hv j hmem hne) hgj
    exact ⟨hmem, hslice, hmatch, hack⟩
  refine ⟨recordBroadcast_viewStep fun fields hf => (key fields hf).2.2.1, ?_⟩
  intro m hm
  obtain ⟨fields, hf, rfl⟩ := List.mem_map.1 hm
  obtain ⟨hmem, hslice, -, hack⟩ := key fields hf
  exact ⟨_, rfl, hslice, hmem, hack⟩

variable {now : ℕ → ℕ}

/-- So does sending again to a follower that is behind. -/
theorem resend_spec (hmono : ∀ j, Monotone (acked j)) (hj : cfg.IsMember j) {isBeingProbed : Bool} :
    ∀ {rounds : ℕ} {r r' : Replica} {msgs : List AeFields}, r.Intact → j ≠ r.id →
      r.ViewOk cfg acked → resend cfg j isBeingProbed now rounds r = some (r', msgs) →
        ViewStep cfg acked r r' ∧ ∀ m ∈ msgs.map AeFields.toMessage, r.MaySend cfg acked m
  | 0, r, r', msgs, _, _, _, hr => by
    obtain ⟨rfl, rfl⟩ := hr
    exact ⟨ViewStep.refl r, by simp⟩
  | rounds + 1, r, r', msgs, h, hne, hv, hr => by
    simp only [resend, bind, bind_eq_some_iff] at hr
    obtain ⟨can, -, hr⟩ := hr
    split at hr
    · cases hr
      exact ⟨ViewStep.refl r, by simp⟩
    · obtain ⟨fields, hg, hr⟩ := bind_eq_some_iff.1 hr
      obtain ⟨hid, hslice, hmatch, hack⟩ := gatherAeFields_spec h hmono (hv j hj hne) hg
      split at hr
      · cases hr
        exact ⟨ViewStep.refl r, by simp⟩
      · obtain ⟨⟨r₂, rest⟩, hrest, hr⟩ := bind_eq_some_iff.1 hr
        cases hr
        have hstep : ViewStep cfg acked r (r.recordNewInFlightMsg fields (now rounds)) :=
          recordNewInFlightMsg_viewStep (by rw [hid]; exact hmatch)
        obtain ⟨hstep', hsent⟩ := resend_spec hmono hj (h.of_sameLog hstep.toSameLog)
          (by rw [hstep.id]; exact hne) (hstep.viewOk hv) hrest
        refine ⟨hstep.trans hstep', ?_⟩
        intro m hm
        rcases List.mem_cons.1 hm with rfl | hm
        · exact ⟨_, rfl, hslice, by rw [AeFields.toMessage, hid]; exact hj, by
            rw [AeFields.toMessage, hid]; exact hack⟩
        · obtain ⟨ae, hae, hs, hmem, hacked⟩ := hsent m hm
          refine ⟨ae, hae, ?_, hmem, hacked⟩
          exact ⟨hs.term.trans hstep.currentTerm, hs.leaderId.trans hstep.id,
            hs.commit.trans hstep.commitIndex, hstep.log ▸ hs.prev, hstep.log ▸ hs.entries⟩

/-! ### The leader's handlers -/

/-- What a leader's handler does apart from committing: the log grows by `entries`, the view stays
in order, and what is sent may be sent. -/
structure LeaderStep (cfg : Config) (acked : ℕ → ℕ → Prop) (r : Replica) (entries : List Entry)
    (o : Outcome) : Prop where
  intact : o.replica.Intact
  sameRole : SameRole r o.replica
  log : o.replica.log = r.log ++ entries
  viewOk : o.replica.ViewOk cfg acked
  sent : ∀ m ∈ o.sent, o.replica.MaySend cfg acked m

variable {o : Outcome}

/-- A leader appends the transaction and announces it. -/
theorem receiveTransaction_spec (h : r.Intact) (hmono : ∀ j, Monotone (acked j))
    (hv : r.ViewOk cfg acked) (hl : r.role = .leader) {serialized : String} {idx : Option ℕ}
    (hr : r.receiveTransaction cfg serialized now = some (o, idx)) :
    LeaderStep cfg acked r [⟨r.currentTerm, serialized⟩] o ∧ o.applied = [] ∧
      o.replica.commitIndex = r.commitIndex ∧ SameMatch r o.replica := by
  obtain hrole | @⟨r₁, r₂, msgs, _, hadd, r₃, hprune, hsent⟩ := receiveTransaction_branch hr
  · exact absurd hl hrole
  have h₁ := h.addToLog hadd
  have hr₁ := addToLog_spec hadd
  have hv₁ : r₁.ViewOk cfg acked := by
    rw [hr₁]
    exact fun j hj hne => (hv j hj hne).mono (Nat.le_add_right _ _)
  -- the leader's own entry of the view is not a follower's
  have hown : ViewStep cfg acked r₁
      (r₁.setProgress r₁.id { r₁.progress r₁.id with nextIndex := r₁.lastLogIndex + 1 }) :=
    setProgress_viewStep rfl fun _ hne => absurd rfl hne
  have hstep := hown.trans (pruneExpiredInFlightMsgs_viewStep (h₁.of_sameLog hown.toSameLog) hprune)
  have hrole : SameRole r r₁ := by
    rw [hr₁]
    exact ⟨rfl, rfl, rfl, rfl, rfl⟩
  have hlog : r₁.log = r.log ++ [⟨r.currentTerm, serialized⟩] := by rw [hr₁]
  have hcommit : r₁.commitIndex = r.commitIndex := by rw [hr₁]
  have hmatch : SameMatch r r₁ := by
    rw [hr₁]
    exact SameMatch.refl r
  obtain ⟨rfl, rfl⟩ | ⟨hmsgs, rfl⟩ := hsent
  · exact ⟨⟨h₁.of_sameLog hstep.toSameLog, hrole.trans hstep.toSameRole, hstep.log.trans hlog,
      hstep.viewOk hv₁, by simp⟩, rfl, hstep.commitIndex.trans hcommit,
      hmatch.trans hstep.sameMatch⟩
  · have hstamp : ViewStep cfg acked r₁
        { r₃ with timestampSinceLastTransactionBatch := now 1 } :=
      hstep.trans ⟨⟨⟨rfl, rfl, rfl, rfl, rfl⟩, ⟨rfl, rfl, rfl, rfl, rfl, rfl, rfl, rfl⟩⟩,
        SameMatch.refl r₃, fun h => h⟩
    obtain ⟨hrec, hsent⟩ := broadcast_spec (h₁.of_sameLog hstamp.toSameLog) hmono
      (hstamp.viewOk hv₁) hmsgs (now 1)
    have hall := hstamp.trans hrec
    exact ⟨⟨h₁.of_sameLog hall.toSameLog, hrole.trans hall.toSameRole, hall.log.trans hlog,
      hall.viewOk hv₁, fun m hm => (hsent m hm).of_sameButView hrec.toSameButView⟩, rfl,
      hall.commitIndex.trans hcommit, hmatch.trans hall.sameMatch⟩

/-- A heartbeat carries what the followers are missing. -/
theorem sendHeartbeat_spec (h : r.Intact) (hmono : ∀ j, Monotone (acked j))
    (hv : r.ViewOk cfg acked) (hl : r.role = .leader) (hr : r.sendHeartbeat cfg now = some o) :
    LeaderStep cfg acked r [] o ∧ o.applied = [] ∧ o.replica.commitIndex = r.commitIndex ∧
      SameMatch r o.replica := by
  unfold sendHeartbeat at hr
  simp only [hl, ne_eq, not_true, if_false, bind, bind_eq_some_iff] at hr
  obtain ⟨r₁, hprune, msgs, hmsgs, hr⟩ := hr
  cases hr
  have hstep : ViewStep cfg acked r r₁ := pruneExpiredInFlightMsgs_viewStep h hprune
  have h₁ := h.of_sameLog hstep.toSameLog
  obtain ⟨hrec, hsent⟩ := broadcast_spec h₁ hmono (hstep.viewOk hv) hmsgs (now 1)
  have hall := hstep.trans hrec
  have hv' := hall.viewOk hv
  -- no follower is behind a truncated prefix, as nothing is truncated
  have htrunc := (h₁.of_sameLog hrec.toSameLog).truncatedIndex
  generalize hr₂ : r₁.recordBroadcast msgs (now 1) = r₂ at *
  have hlast : ViewStep cfg acked r₂ { r₂ with
      progress := fun i =>
        if 1 ≤ i ∧ i ≤ cfg.totalNum ∧ i ≠ r₂.id ∧ (r₂.progress i).nextIndex ≤ r₂.truncatedLastIndex
        then { r₂.progress i with state := .snapshot } else r₂.progress i } := by
    refine ⟨⟨⟨rfl, rfl, rfl, rfl, rfl⟩, ⟨rfl, rfl, rfl, rfl, rfl, rfl, rfl, rfl⟩⟩, ?_, ?_⟩
    · intro j
      simp only
      split <;> rfl
    · intro _ j hj hne
      simp only
      split
      · have := (hv' j hj hne).next
        omega
      · exact hv' j hj hne
  have hfin := hall.trans hlast
  exact ⟨⟨h.of_sameLog hfin.toSameLog, hfin.toSameRole, by rw [hfin.log, List.append_nil],
    hfin.viewOk hv, fun m hm =>
      (hsent m hm).of_sameButView (hrec.toSameButView.trans hlast.toSameButView)⟩, rfl,
    hfin.commitIndex, hfin.sameMatch⟩

theorem lastReplicatedIndex_congr (h : SameMatch r r') :
    r'.lastReplicatedIndex cfg = r.lastReplicatedIndex cfg := by
  unfold lastReplicatedIndex
  simp only [h _]

/-- What a leader may do to its commit index: raise it to an entry of its own term that a quorum has
matched. -/
def CommitStep (cfg : Config) (r r' : Replica) : Prop :=
  r'.commitIndex = r.commitIndex ∨
    (r.commitIndex < r'.commitIndex ∧ r'.lastReplicatedIndex cfg = some r'.commitIndex ∧
      (r'.log[r'.commitIndex]?).map Entry.term = some r'.currentTerm)

/-- The commit index goes to an index of the current term that a quorum has. -/
theorem advanceCommitIndex_spec (h : r.Intact) (ha : r.advanceCommitIndex cfg = some r') :
    r' = { r with commitIndex := r'.commitIndex } ∧ CommitStep cfg r r' ∧ r'.Intact := by
  obtain rfl | ⟨k, hk, hlt, hterm, rfl⟩ := advanceCommitIndex_cases ha
  · exact ⟨rfl, .inl rfl, h⟩
  · rw [h.logTermAt] at hterm
    have hlen : k < r.log.length := by
      by_contra hge
      rw [List.getElem?_eq_none (not_lt.1 hge)] at hterm
      cases hterm
    have hlast := h.last
    have hcom := h.committed
    refine ⟨rfl, .inr ⟨hlt, hk, hterm⟩, h.truncatedIndex, h.truncatedTerm, h.snapshotIndex,
      h.snapshotTerm, h.first, h.last, ?_, ?_⟩
    · simp only
      omega
    · simp only
      omega

/-- An acknowledgement raises the match index of its follower. -/
theorem successProgress_spec {followerLast : ℕ} {p p' : FollowerProgress}
    (hack : acked j followerLast) (hmono : ∀ j, Monotone (acked j))
    (hstale : p.matchIndex ≤ followerLast) (hs : successProgress last followerLast p = some p') :
    p'.matchIndex = min followerLast last ∧
      (FollowerOk acked last j p → FollowerOk acked last j p') := by
  unfold successProgress at hs
  split at hs
  · obtain ⟨_, hg, hs⟩ := bind_eq_some_iff.1 hs
    have hle : followerLast ≤ last := by simpa using hg
    cases hs
    refine ⟨rfl, fun _ => ⟨by simp, fun _ => ?_, ?_, min_le_right _ _⟩⟩
    · simp only [min_eq_left hle]
      exact hack
    · simp only
      omega
  · cases hs
    refine ⟨rfl, fun hp => ⟨hp.state, fun hst => ?_, ?_, min_le_right _ _⟩⟩
    · exact hmono j (le_min hstale hp.le) (hp.acked hst)
    · simp only
      omega

variable {aer : AppendEntriesResponse}

section

variable (h : r.Intact)
include h

/-- The success branch: the response's index, cut off at the leader's last one, becomes the
follower's `match_index`. -/
theorem handleSuccess_spec (hmono : ∀ j, Monotone (acked j)) (hv : r.ViewOk cfg acked)
    {requests : List Request} (hack : acked aer.id aer.lastLogIndex)
    (hstale : (r.progress aer.id).matchIndex ≤ aer.lastLogIndex)
    (hs : r.handleSuccess cfg aer = some (r', requests)) :
    r'.Intact ∧ SameRole r r' ∧ r'.log = r.log ∧ r'.ViewOk cfg acked ∧ CommitStep cfg r r' ∧
      (∀ q ∈ requests, ∃ k e, k ≤ r'.commitIndex ∧ r'.log[k]? = some e ∧
        requestOf cfg e k = some q) ∧ ∀ j, (r'.progress j).matchIndex =
        if j = aer.id then min aer.lastLogIndex r.lastLogIndex else (r.progress j).matchIndex := by
  unfold handleSuccess at hs
  simp only [bind, bind_eq_some_iff] at hs
  obtain ⟨p, hp, r₂, hadv, hprep⟩ := hs
  obtain ⟨hpm, hpok⟩ := successProgress_spec hack hmono hstale hp
  have h₁ : (r.setProgress aer.id p).Intact :=
    h.of_sameLog ⟨rfl, rfl, rfl, rfl, rfl, rfl, rfl, rfl⟩
  obtain ⟨hr₂, hcs, h₂⟩ := advanceCommitIndex_spec h₁ hadv
  obtain ⟨hr', hreq⟩ := prepareCommit_spec h₂ hprep
  have hprog : r'.progress = (r.setProgress aer.id p).progress := by rw [hr', hr₂]
  have hlog : r'.log = r.log := by rw [hr', hr₂, setProgress]
  have hlast : r'.lastLogIndex = r.lastLogIndex := by rw [hr', hr₂, setProgress]
  have hrole : SameRole r r' := by
    rw [hr', hr₂]
    exact ⟨rfl, rfl, rfl, rfl, rfl⟩
  refine ⟨h₂.prepareCommit hprep, hrole, hlog, ?_, ?_, ?_, ?_⟩
  · intro j hj hne
    rw [hlast, hprog]
    by_cases hja : j = aer.id
    · subst hja
      rw [setProgress_self]
      exact hpok (hv _ hj (by rwa [← hrole.id]))
    · rw [setProgress_of_ne r hja]
      exact hv j hj (by rwa [← hrole.id])
  · have hci : r'.commitIndex = r₂.commitIndex := by rw [hr']
    rcases hcs with hcs | ⟨hlt, hrep, hterm⟩
    · exact .inl (hci.trans hcs)
    · refine .inr ⟨by rw [hci]; exact hlt, ?_, ?_⟩
      · rw [hci, ← hrep]
        exact lastReplicatedIndex_congr (r := r₂) (by rw [hr']; exact SameMatch.refl _)
      · rw [hci, hr']
        exact hterm
  · intro q hq
    obtain ⟨k, e, hk, he, hqe⟩ := hreq q hq
    exact ⟨k, e, by rw [hr']; exact hk, by rw [hr']; exact he, hqe⟩
  · intro j
    rw [hprog]
    by_cases hja : j = aer.id
    · subst hja
      simp [hpm]
    · simp [setProgress_of_ne r hja, hja]

theorem indexToSend_snd {index : ℕ}
    {shouldSendSnapshot : Bool} (hi : r.indexToSend aer = some (index, shouldSendSnapshot)) :
    shouldSendSnapshot = false := by
  unfold indexToSend at hi
  split at hi
  · simp only [Option.some.injEq, Prod.mk.injEq] at hi
    exact hi.2.symm
  · simp only [bind, bind_eq_some_iff, guard_eq_some', h.truncatedIndex] at hi
    obtain ⟨-, -, -, hpos, -, -, -, -, hi⟩ := hi
    have hc : ¬ (aer.conflictingIndex ≤ 0 ∧ r.truncatedLastTerm = aer.conflictingTerm) := by omega
    rw [if_neg hc, if_pos hpos] at hi
    obtain ⟨i, -, hi⟩ := bind_eq_some_iff.1 hi
    simp only [Option.some.injEq, Prod.mk.injEq] at hi
    exact hi.2.symm

theorem handleFailure_spec
    {shouldSendSnapshot : Bool} (hf : r.handleFailure aer = some (r', shouldSendSnapshot)) :
    ViewStep cfg acked r r' ∧ shouldSendSnapshot = false := by
  unfold handleFailure at hf
  simp only [bind, bind_eq_some_iff] at hf
  obtain ⟨⟨index, snap⟩, hi, hf⟩ := hf
  cases hf
  refine ⟨setProgress_viewStep ?_ ?_, indexToSend_snd h hi⟩
  · split <;> rfl
  · intro _ _ hok
    split
    · exact ⟨by simp, by simp, by simp only; omega, hok.le⟩
    · rename_i hs
      exact ⟨hok.state, fun hst => absurd hst hs, by simp only; omega, hok.le⟩

/-- After an answer the leader sends what it may send. -/
theorem Continues.spec (hmono : ∀ j, Monotone (acked j)) (hv : r.ViewOk cfg acked)
    (hmem : cfg.IsMember aer.id) (hne : aer.id ≠ r.id) {msgs : List AeFields}
    (hc : Continues cfg aer false now r r' msgs) :
    ViewStep cfg acked r r' ∧ ∀ m ∈ msgs.map AeFields.toMessage, r.MaySend cfg acked m := by
  obtain ⟨rfl, rfl⟩ | hc := hc
  · exact ⟨ViewStep.refl r', by simp⟩
  unfold catchUp at hc
  simp only [h.truncatedIndex, Nat.not_lt_zero, if_false, bind, bind_eq_some_iff] at hc
  obtain ⟨-, -, ⟨r₁, msgs₁⟩, hres, hc⟩ := hc
  cases hc
  exact resend_spec hmono hmem h hne hv hres

theorem Considers.viewStep (hc : Considers cfg aer now r r') :
    ViewStep cfg acked r r' ∧ r'.Intact ∧ aer.id ≠ r'.id := by
  obtain ⟨r₁, hred, hexp⟩ := hc.pruned
  obtain ⟨hstep₁, hne⟩ : ViewStep cfg acked r r₁ ∧ aer.id ≠ r.id :=
    pruneRedundantInFlightMsgs_viewStep hred
  have hstep := hstep₁.trans
    (pruneExpiredInFlightMsgs_viewStep (h.of_sameLog hstep₁.toSameLog) hexp)
  exact ⟨hstep, h.of_sameLog hstep.toSameLog, by rw [hstep.id]; exact hne⟩

/-- **A response to `AppendEntries`.**  Either it is not for a leader of its term, and at most
demotes the replica, or the leader updates its view and its commit index and sends more. -/
theorem receiveAppendEntriesResponse_spec (hmono : ∀ j m m', acked j m → m ≤ m' → acked j m')
    (hv : r.role = .leader → r.ViewOk cfg acked) (hmem : cfg.IsMember aer.id)
    (hack : aer.success = true → r.role = .leader → r.currentTerm = aer.term →
      acked aer.id aer.lastLogIndex) (hr : r.receiveAppendEntriesResponse cfg aer now = some o) :
    (¬ (r.role = .leader ∧ r.currentTerm = aer.term) ∧ o.sent = [] ∧ o.applied = [] ∧
      SameLog r o.replica ∧ (o.replica = r ∨ Demoted r o.replica)) ∨
    (r.role = .leader ∧ r.currentTerm = aer.term ∧ LeaderStep cfg acked r [] o ∧
      CommitStep cfg r o.replica ∧
      (∀ q ∈ o.applied, ∃ k e, k ≤ o.replica.commitIndex ∧ o.replica.log[k]? = some e ∧
        requestOf cfg e k = some q) ∧ ∀ j, (o.replica.progress j).matchIndex =
        if j = aer.id ∧ aer.success = true ∧ (r.progress j).matchIndex ≤ aer.lastLogIndex then
          min aer.lastLogIndex r.lastLogIndex else (r.progress j).matchIndex) := by
  have hmono : ∀ j, Monotone (acked j) := fun j m m' hle hm => hmono j m m' hm hle
  cases receiveAppendEntriesResponse_branch hr with
  | ignored hnot hheeds => exact .inl ⟨hnot, rfl, rfl, hheeds.sameLog, hheeds.demoted_or_eq⟩
  | @stale r₁ hcons hsucc hstale =>
    obtain ⟨hstep, h₁, -⟩ := hcons.viewStep h
    refine .inr ⟨hcons.leader, hcons.term, ?_⟩
    rw [hstep.sameMatch] at hstale
    refine ⟨⟨h₁, hstep.toSameRole, by rw [hstep.log, List.append_nil],
      hstep.viewOk (hv hcons.leader), by simp⟩, .inl hstep.commitIndex, by simp, ?_⟩
    intro j
    rw [if_neg (by rintro ⟨rfl, -, hle⟩; omega)]
    exact hstep.sameMatch j
  | @success r₁ r₂ r₃ requests msgs hcons hsucc hfresh hsuc hmore =>
    obtain ⟨hstep, h₁, hne⟩ := hcons.viewStep h
    refine .inr ⟨hcons.leader, hcons.term, ?_⟩
    obtain ⟨h₂, hrole₂, hlog₂, hv₂, hcs, hreq, hmat⟩ := handleSuccess_spec h₁ hmono
      (hstep.viewOk (hv hcons.leader)) (hack hsucc hcons.leader hcons.term) hfresh hsuc
    obtain ⟨hst₃, hsent⟩ := hmore.spec h₂ hmono hv₂ hmem (by rw [hrole₂.id]; exact hne)
    have hlog : r₃.log = r.log := hst₃.log.trans (hlog₂.trans hstep.log)
    refine ⟨⟨h₂.of_sameLog hst₃.toSameLog,
      (hstep.toSameRole.trans hrole₂).trans hst₃.toSameRole, by rw [hlog, List.append_nil],
      hst₃.viewOk hv₂, fun m hm => (hsent m hm).of_sameButView hst₃.toSameButView⟩, ?_, ?_, ?_⟩
    · unfold CommitStep at hcs ⊢
      rw [hst₃.commitIndex, hst₃.log, hst₃.currentTerm, lastReplicatedIndex_congr hst₃.sameMatch]
      rwa [hstep.commitIndex] at hcs
    · simp only [hst₃.commitIndex, hst₃.log]
      exact hreq
    · intro j
      rw [hstep.sameMatch] at hfresh
      rw [hst₃.sameMatch, hmat j, hstep.lastLogIndex, hstep.sameMatch]
      by_cases hj : j = aer.id
      · subst hj
        simp [hsucc, hfresh]
      · simp [hj]
  | @failure r₁ r₂ r₃ snap msgs hcons hfail hf hmore =>
    obtain ⟨hstep, h₁, hne⟩ := hcons.viewStep h
    have hv₁ := hstep.viewOk (hv hcons.leader)
    obtain ⟨hst₂, rfl⟩ : ViewStep cfg acked r₁ r₂ ∧ snap = false := handleFailure_spec h₁ hf
    obtain ⟨hst₃, hsent⟩ := hmore.spec (h₁.of_sameLog hst₂.toSameLog) hmono (hst₂.viewOk hv₁)
      hmem (by rw [hst₂.id]; exact hne)
    have hall := (hstep.trans hst₂).trans hst₃
    refine .inr ⟨hcons.leader, hcons.term, ⟨h.of_sameLog hall.toSameLog, hall.toSameRole,
      by rw [hall.log, List.append_nil], hall.viewOk (hv hcons.leader),
      fun m hm => (hsent m hm).of_sameButView hst₃.toSameButView⟩, .inl hall.commitIndex,
      by simp, ?_⟩
    intro j
    rw [if_neg (by rintro ⟨-, hs, -⟩; exact hfail hs)]
    exact hall.sameMatch j

end

/-! ### Winning an election -/

/-- **A vote.**  Either it changes nothing but possibly the role, or it is counted, or it is the one
that makes the candidate leader: it appends a no-op and starts to probe everyone. -/
theorem receiveRequestVoteResponse_spec {rvr : RequestVoteResponse}
    (hr : r.receiveRequestVoteResponse cfg rvr = some o) : o.sent = [] ∧ o.applied = [] ∧
      ((SameLog r o.replica ∧ (o.replica = r ∨ Demoted r o.replica)) ∨
      (r.role = .candidate ∧ rvr.term = r.currentTerm ∧ rvr.voteGranted = true ∧
        rvr.voterId ∉ r.votes ∧ (o.replica = { r with votes := r.votes ++ [rvr.voterId] } ∨
        (cfg.quorum ≤ r.votes.length + 1 ∧ (r.Intact → o.replica.Intact) ∧
          o.replica.id = r.id ∧ o.replica.role = .leader ∧ o.replica.currentTerm = r.currentTerm ∧
          o.replica.votedFor = r.votedFor ∧ o.replica.votes = r.votes ++ [rvr.voterId] ∧
          o.replica.log = r.log ++ [⟨r.currentTerm, "RAFT_NO_OP"⟩] ∧
          o.replica.commitIndex = r.commitIndex ∧
          ∀ j, j ≠ r.id → (o.replica.progress j).matchIndex =
              (if cfg.IsMember j then 0 else (r.progress j).matchIndex) ∧
            (cfg.IsMember j → (o.replica.progress j).state = .probe ∧
              (o.replica.progress j).nextIndex = r.lastLogIndex + 1))))) := by
  cases receiveRequestVoteResponse_branch hr with
  | ignored hheeds => exact ⟨rfl, rfl, .inl ⟨hheeds.sameLog, hheeds.demoted_or_eq⟩⟩
  | counted hcand hterm hgranted hdup =>
    exact ⟨rfl, rfl, .inr ⟨hcand, hterm, hgranted, hdup, .inl rfl⟩⟩
  | @won r₁ hcand hterm hgranted hdup hq hadd =>
    have hr₁ := addToLog_spec hadd
    have h₁ : r.Intact → r₁.Intact := by
      intro h
      refine Intact.addToLog ?_ hadd
      exact h.of_sameLog ⟨rfl, rfl, rfl, rfl, rfl, rfl, rfl, rfl⟩
    have hid : r₁.id = r.id := by rw [hr₁, becomeLeader]
    refine ⟨rfl, rfl, .inr ⟨hcand, hterm, hgranted, hdup, .inr ⟨hq,
      fun h => (h₁ h).of_sameLog ⟨rfl, rfl, rfl, rfl, rfl, rfl, rfl, rfl⟩, hid, ?_⟩⟩⟩
    refine ⟨by rw [hr₁]; rfl, by rw [hr₁]; rfl, by rw [hr₁]; rfl, by rw [hr₁]; rfl,
      by rw [hr₁]; rfl, by rw [hr₁]; rfl, ?_⟩
    intro j hj
    have hprog : ((r₁.setProgress r₁.id { r₁.progress r₁.id with
        nextIndex := r₁.lastLogIndex + 1, matchIndex := r₁.lastLogIndex }).progress j) =
        if cfg.IsMember j then { nextIndex := r.lastLogIndex + 1 }
        else { r.progress j with inFlight := [] } := by
      rw [setProgress_of_ne _ (by rw [hid]; exact hj), hr₁]
      rfl
    rw [hprog]
    by_cases hm : cfg.IsMember j <;> simp [hm]

end

end Replica

end Raft
