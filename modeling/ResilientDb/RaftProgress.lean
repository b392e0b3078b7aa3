/-
**What a leader notes about its followers.**

A leader keeps a `match_index` and a `next_index` for every follower.  Success, rejection, the messages
it sends and their expiry all leave `next_index` behind `match_index` and within the log, whatever the
responses say, and they never take `match_index` back.  The end of a snapshot transfer is the exception:
`next_index` is set to the end of the snapshot without regard to `match_index`, so that an answer that
arrives late, or twice, leaves it too small.

Main definitions:

* `Raft.FollowerProgress.Within`, `Raft.Replica.NextWithin` — the view lies within the log;
* `Raft.Replica.Tracks` — a leader that stays leader keeps it there, and no `match_index` goes back;
* `Raft.SoundResponses` — the condition on the answers to snapshots.

Main results:

* `Raft.Replica.Tracks.handle` — the calls;
* `Raft.progress_within` — the runs of a replica.
-/

import ResilientDb.RaftElection
import ResilientDb.RaftShape

set_option autoImplicit false

namespace Raft

open Option (bind_eq_some_iff map_eq_some_iff)

/-- What a leader whose log ends at `last` notes about a follower. -/
structure FollowerProgress.Within (last : ℕ) (p : FollowerProgress) : Prop where
  matched : p.matchIndex < p.nextIndex
  next : p.nextIndex ≤ last + 1

namespace Replica

variable {cfg : Config} {r r' r'' : Replica}

/-- The view of every follower lies within the log. -/
def NextWithin (cfg : Config) (r : Replica) : Prop :=
  ∀ j, cfg.IsMember j → j ≠ r.id → (r.progress j).Within r.lastLogIndex

/-- A change of the view that keeps every `match_index` and stays within the log. -/
structure ViewMoves (cfg : Config) (r r' : Replica) : Prop extends SameButView r r' where
  sameMatch : SameMatch r r'
  within : r.NextWithin cfg → r'.NextWithin cfg

theorem ViewMoves.refl (r : Replica) : ViewMoves cfg r r := ⟨.refl r, .refl r, fun h => h⟩

theorem ViewMoves.trans (h : ViewMoves cfg r r') (h' : ViewMoves cfg r' r'') : ViewMoves cfg r r'' :=
  ⟨h.toSameButView.trans h'.toSameButView, h.sameMatch.trans h'.sameMatch, h'.within ∘ h.within⟩

/-! ### Changes of the view -/

variable {p : FollowerProgress}

/-- Only the follower whose progress is set has to be looked at. -/
theorem NextWithin.setProgress {i : ℕ} (h : r.NextWithin cfg)
    (hp : cfg.IsMember i → i ≠ r.id → (r.progress i).Within r.lastLogIndex →
      p.Within r.lastLogIndex) : (r.setProgress i p).NextWithin cfg := by
  intro j hj hne
  by_cases hji : j = i
  · subst hji
    rw [setProgress_self]
    exact hp hj hne (h j hj hne)
  · rw [setProgress_of_ne r hji]
    exact h j hj hne

theorem setProgress_viewMoves {i : ℕ} (hmatch : p.matchIndex = (r.progress i).matchIndex)
    (hp : cfg.IsMember i → i ≠ r.id → (r.progress i).Within r.lastLogIndex →
      p.Within r.lastLogIndex) : ViewMoves cfg r (r.setProgress i p) :=
  ⟨setProgress_sameButView r i p, setProgress_sameMatch hmatch, fun h => h.setProgress hp⟩

theorem enqueueSnapshot_viewMoves (cfg : Config) (r : Replica) (i : ℕ) :
    ViewMoves cfg r (r.enqueueSnapshot i) :=
  setProgress_viewMoves rfl fun _ _ h => ⟨h.matched, h.next⟩

variable {last : ℕ}

theorem pruneExpired_within {truncatedLastIndex now : ℕ}
    (h : p.Within last) : (pruneExpired truncatedLastIndex now p).Within last := by
  unfold pruneExpired
  split
  · exact ⟨Nat.lt_succ_self _, (Nat.succ_le_of_lt h.matched).trans h.next⟩
  · exact h

theorem pruneExpiredInFlightMsgs_viewMoves {now : ℕ}
    (h : r.pruneExpiredInFlightMsgs cfg now = some r') : ViewMoves cfg r r' := by
  have hkeeps := pruneExpiredInFlightMsgs_keepsMatch h
  refine ⟨hkeeps.toSameButView, hkeeps.sameMatch, ?_⟩
  simp only [pruneExpiredInFlightMsgs, bind, bind_eq_some_iff] at h
  obtain ⟨_, _, h⟩ := h
  cases h
  intro hwithin j hj hne
  dsimp only
  split
  · exact pruneExpired_within (hwithin j hj hne)
  · exact hwithin j hj hne

theorem pruneRedundantInFlightMsgs_viewMoves {followerId : ℕ}
    (h : r.pruneRedundantInFlightMsgs followerId last = some r') : ViewMoves cfg r r' := by
  simp only [pruneRedundantInFlightMsgs, bind, bind_eq_some_iff] at h
  obtain ⟨_, _, _, _, _, _, h⟩ := h
  cases h
  exact setProgress_viewMoves rfl fun _ _ h => ⟨h.matched, h.next⟩

/-- A message whose entries end within the log, and not before what the follower is known to have. -/
def Sendable (cfg : Config) (r : Replica) (msg : AeFields) : Prop :=
  cfg.IsMember msg.followerId → msg.followerId ≠ r.id →
    (r.progress msg.followerId).matchIndex ≤ msg.prevLogIndex + msg.entries.length ∧
      msg.prevLogIndex + msg.entries.length ≤ r.lastLogIndex

/-- A message can still be sent after the view of a follower has moved. -/
theorem Sendable.of_moves {msg : AeFields} (h : r.Sendable cfg msg) (hmoves : ViewMoves cfg r r') :
    r'.Sendable cfg msg := by
  intro hmember hne
  rw [hmoves.sameMatch, hmoves.lastLogIndex]
  exact h hmember (hmoves.id ▸ hne)

theorem recordNewInFlightMsg_viewMoves {msg : AeFields} (h : r.Sendable cfg msg) (timestamp : ℕ) :
    ViewMoves cfg r (r.recordNewInFlightMsg msg timestamp) := by
  unfold recordNewInFlightMsg
  dsimp only
  split_ifs
  · exact setProgress_viewMoves rfl fun _ _ h => ⟨h.matched, h.next⟩
  · exact .refl r
  · exact setProgress_viewMoves rfl fun hmember hne _ =>
      ⟨Nat.lt_succ_of_le (h hmember hne).1, Nat.succ_le_succ (h hmember hne).2⟩

/-- All messages of a broadcast are recorded. -/
theorem recordBroadcast_viewMoves (timestamp : ℕ) (msgs : List AeFields) : ∀ {r : Replica},
    (∀ msg ∈ msgs, r.Sendable cfg msg) → ViewMoves cfg r (r.recordBroadcast msgs timestamp) := by
  induction msgs with
  | nil =>
    intro r _
    exact .refl r
  | cons msg msgs ih =>
    intro r h
    have hstep := recordNewInFlightMsg_viewMoves (h msg List.mem_cons_self) timestamp
    exact hstep.trans (ih fun msg' hmsg' => (h msg' (List.mem_cons_of_mem _ hmsg')).of_moves hstep)

/-! ### What a leader sends -/

/-- No more entries are gathered than the log has. -/
theorem gatherEntries_length {firstNew : ℕ} (count : ℕ) : ∀ {msgBytes index : ℕ} {entries : List Entry},
    r.gatherEntries cfg firstNew msgBytes index count = some entries → entries.length ≤ count := by
  induction count with
  | zero =>
    intro msgBytes index entries h
    cases h
    exact le_rfl
  | succ count ih =>
    intro msgBytes index entries h
    simp only [gatherEntries, bind, bind_eq_some_iff] at h
    obtain ⟨entry, _, h⟩ := h
    split at h
    · cases h
      exact Nat.zero_le _
    · obtain ⟨rest, hrest, h⟩ := bind_eq_some_iff.1 h
      cases h
      exact Nat.succ_le_succ (ih hrest)

/-- **A message for a follower.** -/
theorem gatherAeFields_sendable (hwithin : r.NextWithin cfg) {j : ℕ} {fields : AeFields}
    (h : r.gatherAeFields cfg j = some fields) : r.Sendable cfg fields := by
  simp only [gatherAeFields, bind, bind_eq_some_iff] at h
  obtain ⟨prevLogTerm, _, can, _, h⟩ := h
  split at h
  · cases h
    intro hmember hne
    obtain ⟨hmatched, hnext⟩ := hwithin j hmember hne
    change (r.progress j).matchIndex ≤ (r.progress j).nextIndex - 1 + 0 ∧ _ - 1 + 0 ≤ r.lastLogIndex
    omega
  · obtain ⟨entries, hentries, h⟩ := bind_eq_some_iff.1 h
    cases h
    have hlength := gatherEntries_length _ hentries
    intro hmember hne
    obtain ⟨hmatched, hnext⟩ := hwithin j hmember hne
    change (r.progress j).matchIndex ≤ (r.progress j).nextIndex - 1 + entries.length ∧
      _ - 1 + entries.length ≤ r.lastLogIndex
    split at hlength <;> omega

variable {msgs : List AeFields}

theorem broadcast_viewMoves (hwithin : r.NextWithin cfg)
    (h : r.gatherAeFieldsForBroadcast cfg = some msgs) (timestamp : ℕ) :
    ViewMoves cfg r (r.recordBroadcast msgs timestamp) := by
  simp only [gatherAeFieldsForBroadcast, bind, bind_eq_some_iff] at h
  obtain ⟨_, _, h⟩ := h
  refine recordBroadcast_viewMoves timestamp msgs fun fields hfields => ?_
  obtain ⟨j, _, _, hgather⟩ := gatherAeFieldsFor_mem h fields hfields
  exact gatherAeFields_sendable hwithin hgather

variable {now : ℕ → ℕ}

/-- Sending again stays within the log. -/
theorem resend_viewMoves {j : ℕ} {isBeingProbed : Bool} (rounds : ℕ) :
    ∀ {r r' : Replica} {msgs : List AeFields}, r.NextWithin cfg →
    resend cfg j isBeingProbed now rounds r = some (r', msgs) → ViewMoves cfg r r' := by
  induction rounds with
  | zero =>
    intro r r' msgs _ h
    cases h
    exact .refl r
  | succ rounds ih =>
    intro r r' msgs hwithin h
    simp only [resend, bind, bind_eq_some_iff] at h
    obtain ⟨can, _, h⟩ := h
    split at h
    · cases h
      exact .refl r
    · obtain ⟨fields, hgather, h⟩ := bind_eq_some_iff.1 h
      split at h
      · cases h
        exact .refl r
      · obtain ⟨⟨r₂, rest⟩, hrest, h⟩ := bind_eq_some_iff.1 h
        cases h
        have hstep := recordNewInFlightMsg_viewMoves (gatherAeFields_sendable hwithin hgather)
          (now rounds)
        exact hstep.trans (ih (hstep.within hwithin) hrest)

variable {aer : AppendEntriesResponse} {shouldSendSnapshot : Bool}

theorem catchUp_viewMoves (hwithin : r.NextWithin cfg)
    (h : r.catchUp cfg aer shouldSendSnapshot now = some (r', msgs)) : ViewMoves cfg r r' := by
  unfold catchUp at h
  split at h
  · cases h
    exact enqueueSnapshot_viewMoves cfg r _
  · simp only [bind, bind_eq_some_iff] at h
    obtain ⟨_, _, ⟨r₁, msgs₁⟩, hresend, h⟩ := h
    cases h
    have hmoves := resend_viewMoves _ hwithin hresend
    split
    · exact hmoves.trans (enqueueSnapshot_viewMoves cfg r₁ _)
    · exact hmoves

theorem handleFailure_viewMoves
    (h : r.handleFailure aer = some (r', shouldSendSnapshot)) : ViewMoves cfg r r' := by
  have hkeeps := handleFailure_keepsMatch h
  refine ⟨hkeeps.toSameButView, hkeeps.sameMatch, fun hwithin => ?_⟩
  simp only [handleFailure, bind, bind_eq_some_iff] at h
  obtain ⟨⟨index, _⟩, _, h⟩ := h
  cases h
  refine hwithin.setProgress fun _ _ hp => ?_
  obtain ⟨hmatched, hnext⟩ := hp
  split <;> constructor <;> dsimp only <;> omega

theorem Considers.viewMoves (h : Considers cfg aer now r r') : ViewMoves cfg r r' := by
  obtain ⟨r₁, hredundant, hexpired⟩ := h.pruned
  exact (pruneRedundantInFlightMsgs_viewMoves hredundant).trans
    (pruneExpiredInFlightMsgs_viewMoves hexpired)

theorem Continues.viewMoves (hwithin : r.NextWithin cfg)
    (h : Continues cfg aer shouldSendSnapshot now r r' msgs) : ViewMoves cfg r r' := by
  obtain ⟨rfl, _⟩ | h := h
  · exact .refl r'
  · exact catchUp_viewMoves hwithin h

/-! ### A success -/

/-- An acknowledgement is cut off at the end of the log. -/
theorem successProgress_within {followerLast : ℕ} {p' : FollowerProgress}
    (h : successProgress last followerLast p = some p') :
    p'.matchIndex = min followerLast last ∧ (p.Within last → p'.Within last) := by
  unfold successProgress at h
  split at h
  · simp only [bind, bind_eq_some_iff, Option.guard_eq_some'] at h
    obtain ⟨_, hle, h⟩ := h
    cases h
    refine ⟨rfl, fun ⟨_, _⟩ => ⟨?_, ?_⟩⟩ <;> dsimp only <;> omega
  · cases h
    refine ⟨rfl, fun ⟨_, _⟩ => ⟨?_, ?_⟩⟩ <;> dsimp only <;> omega

theorem handleSuccess_eq {requests : List Request}
    (h : r.handleSuccess cfg aer = some (r', requests)) : ∃ p commitIndex lastCommitted,
      successProgress r.lastLogIndex aer.lastLogIndex (r.progress aer.id) = some p ∧
      r' = { r.setProgress aer.id p with
        commitIndex := commitIndex, lastCommitted := lastCommitted } := by
  simp only [handleSuccess, bind, bind_eq_some_iff] at h
  obtain ⟨p, hp, r₁, hadvance, hprepare⟩ := h
  rw [prepareCommit_eq hprepare]
  obtain rfl | ⟨index, _, _, _, rfl⟩ := advanceCommitIndex_cases hadvance
  · exact ⟨p, _, _, hp, rfl⟩
  · exact ⟨p, index, _, hp, rfl⟩

/-! ### The calls of a leader -/

/-- The view of a leader lies within its log. -/
def Tracked (cfg : Config) (r : Replica) : Prop := r.role = .leader → r.NextWithin cfg

/-- What a call does that does not win an election: a leader was leader before and has its view within
the log, and no `match_index` has gone back. -/
structure Tracks (cfg : Config) (r r' : Replica) : Prop where
  id : r'.id = r.id
  leader : r'.role = .leader → r.role = .leader ∧ r'.currentTerm = r.currentTerm
  tracked : r'.Tracked cfg
  mono : r'.role = .leader → ∀ j, cfg.IsMember j → j ≠ r.id →
    (r.progress j).matchIndex ≤ (r'.progress j).matchIndex

/-- The condition on the answer to a snapshot: a transfer that it completes ends within the log, and not
before what the follower is known to have. -/
def SoundResponse (r : Replica) (response : InstallSnapshotResponse) : Prop :=
  response.transferComplete = true → response.term = r.currentTerm →
    (r.progress response.id).matchIndex ≤ response.lastIncludedIndex ∧
      response.lastIncludedIndex ≤ r.lastLogIndex

instance (r : Replica) (response : InstallSnapshotResponse) : Decidable (r.SoundResponse response) :=
  inferInstanceAs (Decidable (_ → _ → _ ∧ _))

namespace Tracks

theorem trans (h : Tracks cfg r r') (h' : Tracks cfg r' r'') : Tracks cfg r r'' where
  id := h'.id.trans h.id
  leader := by
    intro hleader
    obtain ⟨hleader', hterm⟩ := h'.leader hleader
    exact ⟨(h.leader hleader').1, hterm.trans (h.leader hleader').2⟩
  tracked := h'.tracked
  mono := by
    intro hleader j hj hne
    exact (h.mono (h'.leader hleader).1 j hj hne).trans (h'.mono hleader j hj (h.id ▸ hne))

theorem of_moves (hr : r.Tracked cfg) (h : ViewMoves cfg r r') : Tracks cfg r r' where
  id := h.id
  leader := fun hleader => ⟨h.role ▸ hleader, h.currentTerm⟩
  tracked := fun hleader => h.within (hr (h.role ▸ hleader))
  mono := fun _ j _ _ => (h.sameMatch j).ge

theorem refl (hr : r.Tracked cfg) : Tracks cfg r r := .of_moves hr (.refl r)

theorem andThen (h : Tracks cfg r r') (hmoves : ViewMoves cfg r' r'') : Tracks cfg r r'' :=
  h.trans (.of_moves h.tracked hmoves)

theorem of_not_leader (hid : r'.id = r.id) (hrole : r'.role ≠ .leader) : Tracks cfg r r' :=
  ⟨hid, fun h => absurd h hrole, fun h => absurd h hrole, fun h => absurd h hrole⟩

theorem of_stepsDown (h : StepsDown r r') : Tracks cfg r r' :=
  .of_not_leader h.id (by simp [h.role])

variable (hr : r.Tracked cfg)
include hr

theorem of_heeds {term : ℕ} (h : Heeds r term r') : Tracks cfg r r' := by
  cases h with
  | same => exact .refl hr
  | demoted => exact .of_stepsDown (demoteSelf_demoted r term).toStepsDown

/-- The log grows, and the progress is kept. -/
theorem of_grows (hid : r'.id = r.id) (hrole : r'.role = r.role)
    (hterm : r'.currentTerm = r.currentTerm) (hlast : r.lastLogIndex ≤ r'.lastLogIndex)
    (hprogress : ∀ j, (r'.progress j).matchIndex = (r.progress j).matchIndex ∧
      (r'.progress j).nextIndex = (r.progress j).nextIndex) : Tracks cfg r r' where
  id := hid
  leader := fun hleader => ⟨hrole ▸ hleader, hterm⟩
  tracked := by
    intro hleader j hj hne
    obtain ⟨hmatched, hnext⟩ := hr (hrole ▸ hleader) j hj (hid ▸ hne)
    obtain ⟨hmatch, hsucc⟩ := hprogress j
    exact ⟨by omega, by omega⟩
  mono := fun _ j _ _ => (hprogress j).1.ge

variable {now : ℕ → ℕ} {o : Outcome}

theorem receiveTransaction {serialized : String} {index : Option ℕ}
    (h : r.receiveTransaction cfg serialized now = some (o, index)) : Tracks cfg r o.replica := by
  obtain _ | @⟨r₁, r₂, msgs, hleader, hadd, r₃, hprune, hsent⟩ := receiveTransaction_branch h
  · exact .refl hr
  have hsame := addToLog_sameRole hadd
  have hgrows : Tracks cfg r r₁ := by
    rw [addToLog_spec hadd]
    exact .of_grows hr rfl rfl rfl (Nat.le_add_right _ _) fun j => ⟨rfl, rfl⟩
  -- the leader's own entry of the view is not a follower's
  have hown : ViewMoves cfg r₁
      (r₁.setProgress r₁.id { r₁.progress r₁.id with nextIndex := r₁.lastLogIndex + 1 }) :=
    setProgress_viewMoves rfl fun _ hne => absurd rfl hne
  have hpruned := (hgrows.andThen hown).andThen (pruneExpiredInFlightMsgs_viewMoves hprune)
  obtain ⟨rfl, _⟩ | ⟨hgather, rfl⟩ := hsent
  · exact hpruned
  · have hstamp : ViewMoves cfg r₃ { r₃ with timestampSinceLastTransactionBatch := now 1 } :=
      ⟨⟨⟨rfl, rfl, rfl, rfl, rfl⟩, ⟨rfl, rfl, rfl, rfl, rfl, rfl, rfl, rfl⟩⟩, .refl r₃, fun h => h⟩
    have hleader₃ : r₃.role = .leader :=
      (pruneExpiredInFlightMsgs_keepsMatch hprune).role.trans (hsame.role.trans hleader)
    have hstamped := hpruned.andThen hstamp
    exact hstamped.andThen (broadcast_viewMoves (hstamped.tracked hleader₃) hgather (now 1))

theorem sendHeartbeat (h : r.sendHeartbeat cfg now = some o) : Tracks cfg r o.replica := by
  unfold Replica.sendHeartbeat at h
  split at h
  · cases h
    exact .refl hr
  case isFalse hrole =>
    simp only [bind, bind_eq_some_iff] at h
    obtain ⟨r₁, hprune, msgs, hgather, h⟩ := h
    cases h
    have hpruned : ViewMoves cfg r r₁ := pruneExpiredInFlightMsgs_viewMoves hprune
    have hsent := (Tracks.of_moves hr hpruned).andThen
      (broadcast_viewMoves (hpruned.within (hr (not_not.1 hrole))) hgather (now 1))
    -- followers behind the truncated prefix are marked
    refine hsent.trans (.of_grows hsent.tracked rfl rfl rfl le_rfl fun j => ?_)
    dsimp only
    split <;> exact ⟨rfl, rfl⟩

theorem finishTransaction (myLogIndex : ℕ) : Tracks cfg r (r.finishTransaction myLogIndex) := by
  unfold Replica.finishTransaction
  split
  · refine ⟨rfl, fun hleader => ⟨hleader, rfl⟩, fun hleader => ?_, fun _ j _ hne => ?_⟩
    · exact (hr hleader).setProgress fun _ hne => absurd rfl hne
    · rw [setProgress_of_ne r hne]
  · exact .refl hr

theorem handleSuccess {aer : AppendEntriesResponse} {requests : List Request}
    (hle : (r.progress aer.id).matchIndex ≤ aer.lastLogIndex)
    (h : r.handleSuccess cfg aer = some (r', requests)) : Tracks cfg r r' := by
  obtain ⟨p, commitIndex, lastCommitted, hp, rfl⟩ := handleSuccess_eq h
  obtain ⟨hmatch, hwithin⟩ := successProgress_within hp
  refine ⟨rfl, fun hleader => ⟨hleader, rfl⟩, fun hleader => ?_, fun hleader j hj hne => ?_⟩
  · exact (hr hleader).setProgress fun _ _ h => hwithin h
  · by_cases hji : j = aer.id
    · obtain ⟨hmatched, hnext⟩ := hr hleader j hj hne
      rw [← hji] at hle ⊢
      rw [setProgress_self, hmatch]
      omega
    · rw [setProgress_of_ne r hji]

/-- The leader takes an answer: an old one does not lower the match index. -/
theorem receiveAppendEntriesResponse {aer : AppendEntriesResponse}
    (h : r.receiveAppendEntriesResponse cfg aer now = some o) : Tracks cfg r o.replica := by
  cases receiveAppendEntriesResponse_branch h with
  | ignored _ hheeds => exact .of_heeds hr hheeds
  | stale hconsiders _ _ => exact .of_moves hr hconsiders.viewMoves
  | success hconsiders _ hfresh hsuccess hmore =>
    have hpruned := Tracks.of_moves hr hconsiders.viewMoves
    have hnoted := hpruned.trans (handleSuccess hpruned.tracked hfresh hsuccess)
    have hleader := (handleSuccess_sameRole hsuccess).role.trans
      (hconsiders.viewMoves.role.trans hconsiders.leader)
    exact hnoted.andThen (hmore.viewMoves (hnoted.tracked hleader))
  | failure hconsiders _ hfailure hmore =>
    have hmoves := hconsiders.viewMoves.trans (handleFailure_viewMoves hfailure)
    exact .of_moves hr (hmoves.trans (hmore.viewMoves (hmoves.within (hr hconsiders.leader))))

theorem setProgress {i : ℕ} {p : FollowerProgress} (hrole : r.role = .leader)
    (hmono : (r.progress i).matchIndex ≤ p.matchIndex)
    (hp : (r.progress i).Within r.lastLogIndex → p.Within r.lastLogIndex) :
    Tracks cfg r (r.setProgress i p) := by
  refine ⟨rfl, fun hleader => ⟨hleader, rfl⟩, fun _ => (hr hrole).setProgress fun _ _ => hp, ?_⟩
  intro _ j _ _
  by_cases hji : j = i
  · rw [hji, setProgress_self]
    exact hmono
  · rw [setProgress_of_ne r hji]

/-- An answer that is sound raises the match index at most to the end of the log. -/
theorem receiveInstallSnapshotResponse {response : InstallSnapshotResponse}
    {offset : Option ℕ} (hsound : r.SoundResponse response)
    (h : r.receiveInstallSnapshotResponse cfg response = some (o, offset)) :
    Tracks cfg r o.replica := by
  cases receiveInstallSnapshotResponse_branch h with
  | ignored hheeds => exact .of_heeds hr hheeds
  | answered hleader hterm hp _ =>
    obtain rfl | ⟨hcomplete, rfl⟩ | rfl := hp
    · exact .of_moves hr (enqueueSnapshot_viewMoves cfg r _)
    · obtain ⟨hmatch, hlast⟩ := hsound hcomplete hterm.symm
      exact .setProgress hr hleader (le_max_left _ _) fun _ =>
        ⟨Nat.lt_succ_of_le (max_le hmatch le_rfl), Nat.succ_le_succ hlast⟩
    · exact .setProgress hr hleader le_rfl fun h => ⟨h.matched, h.next⟩

/-! ### The other calls -/

theorem receiveAppendEntries {ae : AppendEntries}
    (h : r.receiveAppendEntries cfg ae = some o) : Tracks cfg r o.replica := by
  obtain hsame | hdown := (receiveAppendEntries_role h).1
  · rw [hsame]
    exact .refl hr
  · exact .of_stepsDown hdown

theorem receiveRequestVote {rv : RequestVote}
    (h : r.receiveRequestVote rv = some o) : Tracks cfg r o.replica := by
  cases receiveRequestVote_branch h with
  | own _ => exact .refl hr
  | @answered r₁ granted _ hheeds _ _ =>
    have hterm : Tracks cfg r r₁ := .of_heeds hr hheeds
    dsimp only
    split
    · exact ⟨hterm.id, hterm.leader, hterm.tracked, hterm.mono⟩
    · exact hterm

theorem startElection (h : r.startElection cfg = some o) : Tracks cfg r o.replica := by
  obtain ⟨-, rfl⟩ | ⟨-, _, -, rfl⟩ := startElection_cases h
  · exact .refl hr
  · exact .of_not_leader rfl (by simp)

theorem receiveRequestVoteResponse {rvr : RequestVoteResponse}
    (h : r.receiveRequestVoteResponse cfg rvr = some o) :
    Tracks cfg r o.replica ∨ r.role = .candidate ∧ o.replica.NextWithin cfg := by
  cases receiveRequestVoteResponse_branch h with
  | ignored hheeds => exact .inl (.of_heeds hr hheeds)
  | counted _ _ _ _ => exact .inl (.of_grows hr rfl rfl rfl le_rfl fun _ => ⟨rfl, rfl⟩)
  | @won r₁ hcandidate _ _ _ _ hadd =>
    refine .inr ⟨hcandidate, fun j hj hne => ?_⟩
    have hne' : j ≠ r₁.id := hne
    have hprobe : (becomeLeader cfg { r with votes := r.votes ++ [rvr.voterId] }).progress j =
        { nextIndex := r.lastLogIndex + 1 } := if_pos hj
    rw [setProgress_of_ne _ hne', addToLog_spec hadd]
    rw [hprobe]
    exact ⟨Nat.succ_pos _, Nat.le_succ _⟩

theorem truncatePrefix {amount index : ℕ} {write : Bool}
    (h : r.truncatePrefix cfg amount index = some (r', write)) : Tracks cfg r r' := by
  obtain ⟨hsame, hlast, _, _, hprogress⟩ := truncatePrefix_frame h
  exact .of_grows hr hsame.id hsame.role hsame.currentTerm hlast.ge hprogress

/-- **The calls of a replica.** -/
theorem handle {amount : ℕ} {call : Call}
    (hsound : ∀ response, call = .receiveInstallSnapshotResponse response → r.SoundResponse response)
    (h : r.handle cfg amount call = some o) :
    Tracks cfg r o.replica ∨ r.role = .candidate ∧ o.replica.NextWithin cfg := by
  cases call with
  | receiveTransaction serialized now =>
    obtain ⟨⟨o, index⟩, ho, rfl⟩ := map_eq_some_iff.1 h
    exact .inl (.receiveTransaction hr ho)
  | finishTransaction myLogIndex =>
    cases h
    exact .inl (.finishTransaction hr myLogIndex)
  | receiveAppendEntries ae => exact .inl (.receiveAppendEntries hr h)
  | receiveAppendEntriesResponse aer now => exact .inl (.receiveAppendEntriesResponse hr h)
  | receiveRequestVote rv => exact .inl (.receiveRequestVote hr h)
  | receiveRequestVoteResponse rvr => exact receiveRequestVoteResponse hr h
  | startElection => exact .inl (.startElection hr h)
  | sendHeartbeat now => exact .inl (.sendHeartbeat hr h)
  | receiveInstallSnapshotResponse response =>
    obtain ⟨⟨o, offset⟩, ho, rfl⟩ := map_eq_some_iff.1 h
    exact .inl (.receiveInstallSnapshotResponse hr (hsound response rfl) ho)
  | truncatePrefix index =>
    obtain ⟨⟨r₁, write⟩, ho, rfl⟩ := map_eq_some_iff.1 h
    exact .inl (.truncatePrefix hr ho)

omit hr

end Tracks

theorem recoverFromLogs_progress {metadata : Metadata} {records : List WalRecord}
    (h : r.recoverFromLogs metadata records = some r') : r'.progress = r.progress := by
  obtain ⟨_, _, rfl⟩ := recoverFromLogs_frame h
  rfl

theorem nextWithin_of_construct {id : ℕ} (h : r.progress = (construct id).progress) :
    r.NextWithin cfg := by
  intro j hj _
  have hnew : (construct id).progress j = { state := .replicate } :=
    if_neg (Nat.pos_iff_ne_zero.1 hj.1)
  rw [h, hnew]
  exact ⟨Nat.one_pos, Nat.le_add_left _ _⟩

end Replica

/-! ### Runs -/

section

variable {σ : Type} {cfg : Config} {amount : ℕ} {s s' : Server σ}

/-- The condition on a step: answers to snapshots are sound, and no leader installs a snapshot. -/
def SoundResponses (s : Server σ) : ReplicaAction → Prop
  | .handle (.receiveInstallSnapshotResponse response) => s.receiver.replica.SoundResponse response
  | .snapshot (.advance k _) => ∀ h ∈ s.handlers[k]?, h.stage.isInstall = true →
      s.receiver.replica.role ≠ .leader
  | _ => True

instance (s : Server σ) (a : ReplicaAction) : Decidable (SoundResponses s a) := by
  unfold SoundResponses
  rcases a with call | a
  · cases call <;> infer_instance
  · cases a <;> infer_instance

variable [Kv.Storage σ]

/-- Every step that meets the condition keeps the progress within the log. -/
theorem Server.step_tracks {a : ReplicaAction} (hr : s.receiver.replica.Tracked cfg)
    (hok : SoundResponses s a) (hs : s.step cfg amount a = some s') :
    s.receiver.replica.Tracks cfg s'.receiver.replica ∨
      s.receiver.replica.role = .candidate ∧ s'.receiver.replica.NextWithin cfg := by
  cases a with
  | handle call =>
    obtain ⟨o, ho, rfl⟩ := map_eq_some_iff.1 hs
    refine Replica.Tracks.handle hr ?_ ho
    rintro response rfl
    exact hok
  | snapshot a =>
    obtain ⟨⟨s₁, response⟩, hs₁, rfl⟩ := map_eq_some_iff.1 hs
    refine .inl ?_
    obtain hsame | ⟨term, hdemoted⟩ | ⟨k, io, h, rfl, hk, hstage, hinstall⟩ :=
      Server.snapshotStep_replica hs₁
    · rw [hsame]
      exact .refl hr
    · rw [hdemoted]
      exact .of_stepsDown (Replica.demoteSelf_demoted _ _).toStepsDown
    · rw [hinstall]
      exact .of_not_leader rfl (hok h hk hstage)

/-- **Progress.**  If answers to snapshots are sound, every follower of a leader has `match_index` before
`next_index` and `next_index` at most one behind the log, and no step of a leader that stays leader takes
a `match_index` back. -/
theorem progress_within (h : (serverSystem σ cfg amount).Reachable SoundResponses s)
    (hleader : s.receiver.replica.role = .leader) {j : ℕ} (hj : cfg.IsMember j)
    (hne : j ≠ s.receiver.replica.id) :
    (s.receiver.replica.progress j).matchIndex < (s.receiver.replica.progress j).nextIndex ∧
      (s.receiver.replica.progress j).nextIndex ≤ s.receiver.replica.lastLogIndex + 1 ∧
      ∀ a s', SoundResponses s a → s.step cfg amount a = some s' →
        s'.receiver.replica.role = .leader →
        (s.receiver.replica.progress j).matchIndex ≤ (s'.receiver.replica.progress j).matchIndex := by
  have hinv : s.receiver.replica.Tracked cfg := by
    refine h.invariant (I := fun s => s.receiver.replica.Tracked cfg) ?_ ?_
    · rintro s ⟨⟨id, hconstruct | ⟨metadata, records, hrecover⟩⟩, _⟩ _
      · exact Replica.nextWithin_of_construct (congrArg Replica.progress hconstruct)
      · exact Replica.nextWithin_of_construct (Replica.recoverFromLogs_progress hrecover)
    · intro s a s' hr hok hs
      exact (Server.step_tracks hr hok hs).elim Replica.Tracks.tracked fun h _ => h.2
  obtain ⟨hmatched, hnext⟩ := hinv hleader j hj hne
  refine ⟨hmatched, hnext, fun a s' hok hs hleader' => ?_⟩
  obtain htracks | ⟨hcandidate, _⟩ := Server.step_tracks hinv hok hs
  · exact htracks.mono hleader' j hj hne
  · exact nomatch hcandidate.symm.trans hleader

end

/-! ### An answer that arrives twice -/

/-- Replica 1, the leader of term 1. -/
def leaderServer : Server Kv.MemoryDB := ⟨.start 1 {}, []⟩

/-- Replica 2 has installed the snapshot that ends at index 1. -/
def installedResponse : InstallSnapshotResponse where
  term := 1
  id := 2
  needSnapshot := false
  bytesStored := 1
  lastIncludedIndex := 1
  transferComplete := true

/-- The first entry is committed with replica 3 and truncated, and replica 2 is sent a snapshot instead.
It then acknowledges the second entry. -/
def snapshotSentRun : List ReplicaAction :=
  [.handle (.receiveTransaction "a" stillClock), .handle (.finishTransaction 1),
    .handle (.receiveAppendEntriesResponse ⟨1, true, 3, 1, 0, 0⟩ stillClock),
    .handle (.truncatePrefix 1), .handle (.receiveInstallSnapshotResponse installedResponse),
    .handle (.receiveTransaction "b" stillClock),
    .handle (.receiveAppendEntriesResponse ⟨1, true, 2, 2, 0, 0⟩ stillClock)]

theorem leaderServer_starts : (serverSystem Kv.MemoryDB threeReplicas 0).init leaderServer :=
  ⟨⟨1, .inl rfl⟩, fun _ => rfl, rfl⟩

theorem progress_within_snapshotSentRun : ∃ s,
    (serverSystem Kv.MemoryDB threeReplicas 0).run leaderServer snapshotSentRun = some s ∧
      (s.receiver.replica.progress 2).matchIndex = 2 ∧
      (s.receiver.replica.progress 2).matchIndex < (s.receiver.replica.progress 2).nextIndex := by
  obtain ⟨s, hs, hreach, hleader, hne, hmatch⟩ :=
    (serverSystem Kv.MemoryDB threeReplicas 0).exists_run (C := SoundResponses)
      (P := fun s => s.receiver.replica.role = .leader ∧ 2 ≠ s.receiver.replica.id ∧
        (s.receiver.replica.progress 2).matchIndex = 2) snapshotSentRun leaderServer_starts
      (by decide +kernel) (by decide +kernel)
  exact ⟨s, hs, hmatch, (progress_within hreach hleader (by decide) hne).1⟩

/-- The answer to the snapshot arrives once more, and `next_index` is set back to `match_index`. -/
theorem progress_within_fails : ∃ s,
    (serverSystem Kv.MemoryDB threeReplicas 0).Reachable TransitionSystem.always s ∧
      s.receiver.replica.role = .leader ∧ (s.receiver.replica.progress 2).matchIndex = 2 ∧
      (s.receiver.replica.progress 2).nextIndex = 2 :=
  (serverSystem Kv.MemoryDB threeReplicas 0).exists_reachable_always
    (snapshotSentRun ++ [.handle (.receiveInstallSnapshotResponse installedResponse)])
    leaderServer_starts (by decide +kernel)

end Raft
