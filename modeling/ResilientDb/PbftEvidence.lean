/-
**What a view change takes on trust.**

`ProcessViewChange` and `ProcessNewView` look at one thing in a VIEW-CHANGE: that its view is above the
current one.  The signatures of its checkpoint and of its prepared messages are not verified, so one
faulty replica can have any checkpoint stored, and a faulty primary can move the next sequence number
anywhere (`Pbft.view_change_evidence_fails`).  So what is stored and accepted carries its evidence
exactly if what arrives does.  The next number is then bounded by what a correct replica has
checkpointed or prepared, if anything is reported; if nothing is, it becomes 2.

`SendNewViewMsg` is guarded by a flag that is never reset: a replica announces the first view that it
wins, and no other (`Pbft.new_view_announced_fails`).

Main definitions:

* `Pbft.ViewReplica`, `Pbft.viewReplicaSystem` — one replica with its manager, under any messages;
* `Pbft.Evidence`, `Pbft.Evidence.Carried` — signatures, and the evidence of a VIEW-CHANGE;
* `Pbft.Evidence.AllCarried` — all that is stored or accepted carries its evidence;
* `Pbft.Evidence.Only`, `Pbft.WinsOnce` — the conditions.

Main results:

* `Pbft.highestRedo_le` — the next number and what the messages report;
* `Pbft.view_change_evidence` — when the evidence is there, and the bound on the next number;
* `Pbft.new_view_announced` — every view that is won is announced once, under the condition.
-/

import ResilientDb.PbftNewView

set_option autoImplicit false

namespace Pbft

open ViewChangeManager (Enough addRequest)

/-! ### One replica -/

/-- A replica with its manager, the NEW-VIEWs it has broadcast, and those it has accepted, with the next
sequence number it took from each. -/
structure ViewReplica where
  replica : Replica
  manager : ViewChangeManager
  newViews : List NewViewMessage
  accepted : List (NewViewMessage × ℕ)

/-- What can happen to it.  Everything but the handlers of the manager is an arbitrary change of the
replica. -/
inductive ViewEvent
  | viewChange (sender : ℕ) (message : ViewChangeMessage)
  | newView (message : NewViewMessage) (isRecovery : Bool)
  | timeout
  | checkpoint (stableCkpt : StableCheckPoint) (unstableCkpt : ℕ)
  | checkpointState
  | other (replica : Replica)

namespace ViewReplica

/-- One event. -/
def step (cfg : Config) (s : ViewReplica) : ViewEvent → Option ViewReplica
  | .viewChange sender message =>
    (processViewChange cfg s.replica s.manager sender message).map fun r =>
      { s with manager := r.1, newViews := s.newViews ++ r.2 }
  | .newView message isRecovery =>
    (processNewView cfg s.replica s.manager message isRecovery).map fun o =>
      { s with
        replica := o.replica
        manager := o.manager
        accepted :=
          if isRecovery = false ∧
              (checkNewView cfg s.replica s.manager message).join.isSome = true then
            (message, o.replica.nextSeq) :: s.accepted
          else s.accepted }
  | .timeout => (timeoutHandler cfg s.replica s.manager).map fun r => { s with manager := r.1 }
  | .checkpoint stableCkpt unstableCkpt =>
    some { s with manager := { s.manager with stableCkpt, unstableCkpt } }
  | .checkpointState => some { s with manager := { s.manager with status := .none } }
  | .other replica => if replica.id = s.replica.id then some { s with replica } else none

/-- The managers agree in all that views are announced by. -/
def SameViews (s s' : ViewReplica) : Prop :=
  s'.replica.id = s.replica.id ∧
    s'.manager.viewchangeRequest = s.manager.viewchangeRequest ∧
    s'.manager.newViewIsSent = s.manager.newViewIsSent ∧ s'.newViews = s.newViews

end ViewReplica

/-- The runs of a replica, from any state in which its manager has just been made. -/
def viewReplicaSystem (cfg : Config) : TransitionSystem ViewReplica ViewEvent where
  init s := s.manager = {} ∧ s.newViews = [] ∧ s.accepted = []
  step := ViewReplica.step cfg

section

variable {cfg : Config} {r : Replica} {m : ViewChangeManager} {s s' : ViewReplica}
  {message : ViewChangeMessage}

/-- Only a VIEW-CHANGE changes what is announced, and only a NEW-VIEW is accepted. -/
theorem ViewReplica.step_sameViews {a : ViewEvent} (h : s.step cfg a = some s') :
    (∃ sender message, a = .viewChange sender message) ∨ s.SameViews s' ∧
      ((∃ message isRecovery, a = .newView message isRecovery) ∨ s'.accepted = s.accepted) := by
  cases a with
  | viewChange sender message => exact .inl ⟨sender, message, rfl⟩
  | newView message isRecovery =>
    obtain ⟨o, ho, rfl⟩ := Option.map_eq_some_iff.1 h
    obtain ⟨hrequest, hsent, hr⟩ := processNewView_cases ho
    have hid : o.replica.id = s.replica.id := by
      rcases hr with ⟨hr, -⟩ | ⟨_, _, hr, -⟩ <;> rw [hr]
    exact .inr ⟨⟨hid, hrequest, hsent, rfl⟩, .inl ⟨message, isRecovery, rfl⟩⟩
  | timeout =>
    obtain ⟨⟨m, message⟩, hm, rfl⟩ := Option.map_eq_some_iff.1 h
    obtain ⟨hrequest, hsent⟩ := timeoutHandler_spec hm
    exact .inr ⟨⟨rfl, hrequest, hsent, rfl⟩, .inr rfl⟩
  | checkpoint stableCkpt unstableCkpt | checkpointState =>
    cases h
    exact .inr ⟨⟨rfl, rfl, rfl, rfl⟩, .inr rfl⟩
  | other replica =>
    obtain ⟨hid, h⟩ := Option.ite_none_right_eq_some.1 h
    cases h
    exact .inr ⟨⟨hid, rfl, rfl, rfl⟩, .inr rfl⟩

/-! ### Announcing views -/

/-- The views that the replica has announced. -/
def ViewReplica.announced (s : ViewReplica) : List ℕ := s.newViews.map NewViewMessage.viewNumber

/-- Every view that the replica has won is announced, once. -/
def ViewReplica.Announces (cfg : Config) (s : ViewReplica) : Prop :=
  ∀ view, s.manager.Enough cfg view → s.replica.currentView < view →
    primaryOf cfg view = s.replica.id → s.announced.count view = 1

/-- The condition: when a VIEW-CHANGE for a view of the replica arrives, the replica has not announced
another view. -/
def WinsOnce (cfg : Config) (s : ViewReplica) : ViewEvent → Prop
  | .viewChange _ message => primaryOf cfg message.viewNumber = s.replica.id →
    ∀ view ∈ s.announced, view = message.viewNumber
  | _ => True

instance (cfg : Config) (s : ViewReplica) (a : ViewEvent) : Decidable (WinsOnce cfg s a) := by
  unfold WinsOnce
  split <;> infer_instance

/-- The flag says whether a view was announced, and every view that was won is the one. -/
structure ViewReplica.AnnounceInv (cfg : Config) (s : ViewReplica) : Prop where
  flag : s.announced = [] ∧ s.manager.newViewIsSent = false ∨
    ∃ view, s.announced = [view] ∧ s.manager.newViewIsSent = true
  won : ∀ view, s.manager.Enough cfg view → primaryOf cfg view = s.replica.id → view ∈ s.announced

theorem ViewReplica.AnnounceInv.sameViews (h : s.AnnounceInv cfg) (hsame : s.SameViews s') :
    s'.AnnounceInv cfg := by
  obtain ⟨hid, hrequest, hsent, hviews⟩ := hsame
  have hannounced : s'.announced = s.announced := congrArg (List.map _) hviews
  refine ⟨by rw [hannounced, hsent]; exact h.flag, fun view henough hprimary => ?_⟩
  rw [hid] at hprimary
  rw [hannounced]
  rw [Enough, hrequest] at henough
  exact h.won view henough hprimary

theorem ViewReplica.AnnounceInv.viewChange {sender : ℕ}
    (h : s.AnnounceInv cfg) (hok : WinsOnce cfg s (.viewChange sender message))
    (hs : s.step cfg (.viewChange sender message) = some s') : s'.AnnounceInv cfg := by
  obtain ⟨⟨m, newViews⟩, hm, rfl⟩ := Option.map_eq_some_iff.1 hs
  rcases processViewChange_cases hm with ⟨rfl, rfl, -⟩ | ⟨hrequest, -, hcases⟩
  · refine ⟨?_, ?_⟩ <;> simp only [ViewReplica.announced, List.append_nil]
    · exact h.flag
    · exact h.won
  -- the messages of other views are as before
  have hother : ∀ view, view ≠ message.viewNumber → m.Enough cfg view →
      s.manager.Enough cfg view := by
    intro view hne henough
    rw [Enough, hrequest] at henough
    dsimp only [addRequest] at henough
    rwa [Function.update_of_ne hne] at henough
  rcases hcases with ⟨hsent, rfl, hflag⟩ | ⟨hunsent, hsent, hnew⟩
  · refine ⟨?_, fun view henough hprimary => ?_⟩ <;>
      simp only [ViewReplica.announced, List.append_nil]
    · rw [hsent]
      exact h.flag
    · by_cases hview : view = message.viewNumber
      · -- the flag is set, for this view
        subst hview
        rcases h.flag with ⟨-, hfalse⟩ | ⟨view, hview, -⟩
        · rw [hflag henough hprimary] at hfalse
          cases hfalse
        · have hsame := hok hprimary view (hview ▸ List.mem_singleton.2 rfl)
          change message.viewNumber ∈ s.announced
          rw [hview, hsame]
          exact List.mem_singleton.2 rfl
      · exact h.won view (hother view hview henough) hprimary
  · rcases h.flag with ⟨hnil, -⟩ | ⟨view, -, htrue⟩
    · have hannounced : ({ s with manager := m, newViews := s.newViews ++ newViews } :
          ViewReplica).announced = [message.viewNumber] := by
        rw [ViewReplica.announced, List.map_append, hnew]
        exact congrArg (· ++ [message.viewNumber]) hnil
      refine ⟨.inr ⟨_, hannounced, hsent⟩, fun view henough hprimary' => ?_⟩
      rw [hannounced, List.mem_singleton]
      by_contra hview
      have hmem := h.won view (hother view hview henough) hprimary'
      rw [hnil] at hmem
      cases hmem
    · rw [hunsent] at htrue
      cases htrue

theorem ViewReplica.AnnounceInv.step {a : ViewEvent} (h : s.AnnounceInv cfg) (hok : WinsOnce cfg s a)
    (hs : s.step cfg a = some s') : s'.AnnounceInv cfg := by
  rcases ViewReplica.step_sameViews hs with ⟨sender, message, rfl⟩ | ⟨hsame, -⟩
  · exact h.viewChange hok hs
  · exact h.sameViews hsame

/-- **Every view that is won is announced once**, in every run in which a replica wins no second view. -/
theorem new_view_announced (hs : (viewReplicaSystem cfg).Reachable (WinsOnce cfg) s) :
    s.Announces cfg := by
  have hinv : s.AnnounceInv cfg := by
    refine hs.invariant ?_ fun _ _ _ h hok hs => h.step hok hs
    rintro s ⟨hm, hviews, -⟩
    refine ⟨.inl ⟨by rw [ViewReplica.announced, hviews]; rfl, by rw [hm]⟩, fun view henough _ => ?_⟩
    rw [Enough, hm] at henough
    have : 1 ≤ cfg.minDataReceiveNum := le_max_right _ _
    exact absurd henough (by simp [OrderedMap.empty]; omega)
  intro view henough _ hprimary
  have hmem := hinv.won view henough hprimary
  rcases hinv.flag with ⟨hnil, -⟩ | ⟨view', hview', -⟩
  · rw [hnil] at hmem
    cases hmem
  · rw [hview'] at hmem ⊢
    rw [List.mem_singleton.1 hmem]
    simp

/-- Three of four replicas ask the second one for a view. -/
def askFor (view : ℕ) : List ViewEvent :=
  [1, 3, 4].map fun sender => .viewChange sender ⟨view, {}, []⟩

/-- The second replica, in the first view. -/
def secondReplica : ViewReplica := ⟨.construct fourCorrect.cfg 1 1 2, {}, [], []⟩

theorem new_view_announced_second :
    ∃ s, (viewReplicaSystem fourCorrect.cfg).Reachable (WinsOnce fourCorrect.cfg) s ∧
      s.announced.count 2 = 1 := by
  obtain ⟨s, hreach, henough, hview, hprimary⟩ :=
    (viewReplicaSystem fourCorrect.cfg).exists_reachable (C := WinsOnce fourCorrect.cfg)
      (P := fun s =>
        fourCorrect.cfg.minDataReceiveNum ≤ (s.manager.viewchangeRequest 2).entries.length ∧
        s.replica.currentView < 2 ∧ primaryOf fourCorrect.cfg 2 = s.replica.id)
      (s := secondReplica) (askFor 2) ⟨rfl, rfl, rfl⟩ (by decide +kernel) (by decide +kernel)
  exact ⟨s, hreach, new_view_announced hreach 2 henough hview hprimary⟩

/-- The second replica announces view 2 and enters it.  Four views later it is the primary again, and
announces nothing. -/
theorem new_view_announced_fails :
    ∃ s, (viewReplicaSystem fourCorrect.cfg).Reachable TransitionSystem.always s ∧
      fourCorrect.cfg.minDataReceiveNum ≤ (s.manager.viewchangeRequest 6).entries.length ∧
      s.replica.currentView = 2 ∧ primaryOf fourCorrect.cfg 6 = s.replica.id ∧
      s.announced = [2] ∧ ¬ s.Announces fourCorrect.cfg := by
  obtain ⟨s, hreach, henough, hview, hprimary, hannounced⟩ :=
    (viewReplicaSystem fourCorrect.cfg).exists_reachable_always (P := fun s =>
        fourCorrect.cfg.minDataReceiveNum ≤ (s.manager.viewchangeRequest 6).entries.length ∧
        s.replica.currentView = 2 ∧ primaryOf fourCorrect.cfg 6 = s.replica.id ∧ s.announced = [2])
      (s := secondReplica) (askFor 2 ++
        [.newView ⟨2, [{ seq := 1, type := .prePrepare }], [1, 3, 4].map fun _ => ⟨2, {}, []⟩⟩ false] ++
        askFor 6) ⟨rfl, rfl, rfl⟩ (by decide +kernel)
  refine ⟨s, hreach, henough, hview, hprimary, hannounced, fun h => ?_⟩
  have hcount := h 6 henough (by omega) hprimary
  rw [hannounced] at hcount
  cases hcount

/-! ### Evidence -/

/-- When a signature is valid, and what the correct replicas have done: they sign no checkpoint that they
have not made, and no PREPARE of a number that they have not prepared. -/
structure Evidence (t : Setup) where
  signsCheckpoint : SignatureInfo → ℕ → String → Bool
  signsMessage : SignatureInfo → Request → Bool
  checkpointed : ℕ → ℕ → Prop
  prepared : ℕ → ℕ → Prop
  fewByzantine : t.byzantine.card ≤ t.cfg.maxMaliciousReplicaNum
  checkpoint_signed : ∀ sig seq hash, t.IsCorrect sig.nodeId → signsCheckpoint sig seq hash = true →
    checkpointed sig.nodeId seq
  message_signed : ∀ sig q, t.IsCorrect sig.nodeId → q.type = .prepare →
    signsMessage sig q = true → prepared sig.nodeId q.seq

namespace Evidence

variable {t : Setup} (e : Evidence t)

/-- The replicas with a valid signature of the checkpoint. -/
def checkpointSigners (ckpt : StableCheckPoint) : Finset ℕ :=
  t.members.filter fun j => ∃ sig ∈ ckpt.signatures, sig.nodeId = j ∧
    e.signsCheckpoint sig ckpt.seq ckpt.hash = true

/-- The replicas with a validly signed PREPARE of the number and hash. -/
def preparedSigners (proof : List RequestInfo) (seq : ℕ) (hash : String) : Finset ℕ :=
  t.members.filter fun j => ∃ info ∈ proof, info.signature.nodeId = j ∧
    info.request.type = .prepare ∧ info.request.seq = seq ∧ info.request.hash = hash ∧
    e.signsMessage info.signature info.request = true

/-- The evidence of a VIEW-CHANGE: signatures of a quorum for its checkpoint, and the PREPAREs of a
quorum, with one hash, for each of its prepared messages. -/
def Carried (message : ViewChangeMessage) : Prop :=
  (message.stableCkpt.seq = 0 ∨
      t.cfg.minDataReceiveNum ≤ (e.checkpointSigners message.stableCkpt).card) ∧
    ∀ p ∈ message.preparedMsg, ∃ info ∈ p.proof,
      t.cfg.minDataReceiveNum ≤ (e.preparedSigners p.proof p.seq info.request.hash).card

instance (message : ViewChangeMessage) : Decidable (e.Carried message) :=
  inferInstanceAs (Decidable (_ ∧ _))

/-- A correct replica has checkpointed or prepared the number. -/
def Backed (seq : ℕ) : Prop :=
  ∃ j, t.IsCorrect j ∧ (e.checkpointed j seq ∨ e.prepared j seq)

/-- The messages of a NEW-VIEW report a checkpoint or a prepared request. -/
def Reports (messages : List ViewChangeMessage) : Prop :=
  ∃ msg ∈ messages, msg.stableCkpt.seq ≠ 0 ∨ msg.preparedMsg ≠ []

instance (messages : List ViewChangeMessage) : Decidable (Reports messages) :=
  inferInstanceAs (Decidable (∃ msg ∈ messages, _))

/-- All VIEW-CHANGEs that are stored, and all those of accepted NEW-VIEWs, carry their evidence. -/
structure AllCarried (s : ViewReplica) : Prop where
  stored : ∀ view, ∀ m ∈ (s.manager.viewchangeRequest view).entries, e.Carried m.2
  accepted : ∀ a ∈ s.accepted, ∀ msg ∈ a.1.viewchangeMessages, e.Carried msg

/-- The condition on what arrives: a VIEW-CHANGE above the current view carries its evidence, and so do
those of a NEW-VIEW that meets what `ProcessNewView` asks. -/
def Only (s : ViewReplica) : ViewEvent → Prop
  | .viewChange _ message => s.replica.currentView < message.viewNumber → e.Carried message
  | .newView message isRecovery => isRecovery = false → Admits s.replica s.manager message →
    ∀ msg ∈ message.viewchangeMessages, e.Carried msg
  | _ => True

instance (s : ViewReplica) (a : ViewEvent) : Decidable (e.Only s a) := by
  unfold Only
  split <;> infer_instance

variable {e} {message : ViewChangeMessage}

/-- A quorum of members has a correct one. -/
theorem exists_correct {signers : Finset ℕ} (hsub : signers ⊆ t.members)
    (h : t.cfg.minDataReceiveNum ≤ signers.card) (e : Evidence t) : ∃ j ∈ signers, t.IsCorrect j := by
  have hfew := e.fewByzantine
  simp only [Config.minDataReceiveNum, Config.maxMaliciousReplicaNum] at h hfew
  obtain ⟨j, hj, hcorrect⟩ := Finset.exists_mem_notMem_of_card_lt_card
    (show t.byzantine.card < signers.card by omega)
  exact ⟨j, hj, hsub hj, hcorrect⟩

theorem Carried.checkpoint (h : e.Carried message) (hseq : message.stableCkpt.seq ≠ 0) :
    e.Backed message.stableCkpt.seq := by
  obtain ⟨j, hj, hcorrect⟩ := exists_correct (Finset.filter_subset _ _) (h.1.resolve_left hseq) e
  obtain ⟨-, sig, -, rfl, hsig⟩ := Finset.mem_filter.1 hj
  exact ⟨_, hcorrect, .inl (e.checkpoint_signed sig _ _ hcorrect hsig)⟩

theorem Carried.prepared {p : PreparedMessage} (h : e.Carried message) (hp : p ∈ message.preparedMsg) :
    e.Backed p.seq := by
  obtain ⟨_, -, hquorum⟩ := h.2 p hp
  obtain ⟨j, hj, hcorrect⟩ := exists_correct (Finset.filter_subset _ _) hquorum e
  obtain ⟨-, info, -, rfl, htype, hseq, -, hsig⟩ := Finset.mem_filter.1 hj
  exact ⟨_, hcorrect, .inr (hseq ▸ e.message_signed _ _ hcorrect htype hsig)⟩

end Evidence

/-- **The next number** is not above all that the messages report. -/
theorem highestRedo_le {messages : List ViewChangeMessage} (h : Evidence.Reports messages) :
    ∃ msg ∈ messages, (msg.stableCkpt.seq ≠ 0 ∧ highestRedo messages ≤ msg.stableCkpt.seq) ∨
      ∃ p ∈ msg.preparedMsg, highestRedo messages ≤ p.seq := by
  have hstable : maxStable messages ≠ 0 → ∃ msg ∈ messages,
      msg.stableCkpt.seq ≠ 0 ∧ maxStable messages ≤ msg.stableCkpt.seq := by
    intro hne
    obtain ⟨msg, hmsg, hle⟩ := le_maxStable le_rfl (Nat.pos_of_ne_zero hne)
    exact ⟨msg, hmsg, by omega, hle⟩
  cases hmax : ((messages.flatMap ViewChangeMessage.preparedMsg).map PreparedMessage.seq).max? with
  | some last =>
    have hlast : lastSeq messages = last := by rw [lastSeq, hmax, Option.getD_some]
    obtain ⟨p, hp, hpseq⟩ := List.mem_map.1 (List.max?_eq_some_iff.1 hmax).1
    obtain ⟨msg, hmsg, hp⟩ := List.mem_flatMap.1 hp
    unfold highestRedo
    split
    · exact ⟨msg, hmsg, .inr ⟨p, hp, by omega⟩⟩
    · by_cases hzero : maxStable messages = 0
      · exact ⟨msg, hmsg, .inr ⟨p, hp, by omega⟩⟩
      · obtain ⟨msg, hmsg, hle⟩ := hstable hzero
        exact ⟨msg, hmsg, .inl hle⟩
  | none =>
    -- nothing is prepared, so a checkpoint is reported
    have hlast : lastSeq messages = max 1 (maxStable messages) := by
      rw [lastSeq, hmax, Option.getD_none]
    have hpos : maxStable messages ≠ 0 := by
      obtain ⟨msg, hmsg, hne | hne⟩ := h
      · have := stable_le_maxStable hmsg
        omega
      · obtain ⟨p, hp⟩ := List.exists_mem_of_ne_nil _ hne
        have hnil := List.max?_eq_none_iff.1 hmax
        rw [List.map_eq_nil_iff] at hnil
        have hmem := List.mem_flatMap.2 ⟨msg, hmsg, hp⟩
        rw [hnil] at hmem
        cases hmem
    obtain ⟨msg, hmsg, hne, hle⟩ := hstable hpos
    refine ⟨msg, hmsg, .inl ⟨hne, ?_⟩⟩
    unfold highestRedo
    split <;> omega

/-- Messages that report nothing make a replica go on from 1. -/
theorem highestRedo_of_not_reports {messages : List ViewChangeMessage}
    (h : ¬ Evidence.Reports messages) : highestRedo messages = 1 := by
  have hnone : ∀ msg ∈ messages, msg.stableCkpt.seq = 0 ∧ msg.preparedMsg = [] := by
    intro msg hmsg
    by_contra hne
    exact h ⟨msg, hmsg, not_and_or.1 hne⟩
  have hprepared : (messages.flatMap ViewChangeMessage.preparedMsg).map PreparedMessage.seq = [] := by
    rw [List.map_eq_nil_iff, List.flatMap_eq_nil_iff]
    exact fun msg hmsg => (hnone msg hmsg).2
  have hmax : maxStable messages = 0 := by
    by_contra hne
    obtain ⟨msg, hmsg, hle⟩ := le_maxStable le_rfl (Nat.pos_of_ne_zero hne)
    have := (hnone msg hmsg).1
    omega
  have hlast : lastSeq messages = 1 := by
    rw [lastSeq, hprepared, hmax]
    rfl
  -- the lowest checkpoint is 0, or `2 ^ 64 - 1` without messages
  have hfirst : firstSeq messages ≤ 1 := by
    cases messages with
    | nil => decide
    | cons msg messages =>
      have := minStable_le (List.mem_cons_self (a := msg) (l := messages))
      have := (hnone msg List.mem_cons_self).1
      unfold firstSeq
      omega
  rw [highestRedo, if_pos (by omega), hlast]

/-- What a NEW-VIEW adds to those that are accepted. -/
theorem ViewReplica.accepted_newView {message : NewViewMessage} {isRecovery : Bool}
    (h : s.step cfg (.newView message isRecovery) = some s') :
    s'.accepted = if isRecovery = false ∧ Admits s.replica s.manager message then
      (message, highestRedo message.viewchangeMessages + 1) :: s.accepted else s.accepted := by
  obtain ⟨o, ho, rfl⟩ := Option.map_eq_some_iff.1 h
  cases isRecovery with
  | true => simp
  | false =>
    obtain ⟨result, hcheck, -⟩ := Option.bind_eq_some_iff.1 ho
    have hjoin : (checkNewView cfg s.replica s.manager message).join = result := by
      rw [hcheck, Option.join_some]
    obtain ⟨-, -, ⟨-, -, hnot⟩ | ⟨nextSeq, _, hr, hrecovery | ⟨hadmits, rfl⟩⟩⟩ :=
      processNewView_cases ho
    · rw [checkNewView_eq hcheck, if_neg hnot] at hjoin
      simp [hjoin, hnot]
    · cases hrecovery
    · rw [checkNewView_eq hcheck, if_pos hadmits] at hjoin
      simp [hjoin, hadmits, hr]

section

variable {t : Setup} {e : Evidence t}

theorem Evidence.allCarried_newView {message : NewViewMessage} {isRecovery : Bool}
    (h : e.AllCarried s) (hs : s.step t.cfg (.newView message isRecovery) = some s') :
    e.AllCarried s' ↔ e.Only s (.newView message isRecovery) := by
  have haccepted := ViewReplica.accepted_newView hs
  obtain ⟨_, _, heq⟩ | ⟨⟨-, hrequest, -, -⟩, -⟩ := ViewReplica.step_sameViews hs
  · cases heq
  constructor
  · intro h' hrecovery hadmits
    rw [if_pos ⟨hrecovery, hadmits⟩] at haccepted
    exact h'.accepted _ (by rw [haccepted]; exact List.mem_cons_self)
  · intro hok
    refine ⟨by rw [hrequest]; exact h.stored, fun a ha => ?_⟩
    rw [haccepted] at ha
    split_ifs at ha with htaken
    · rcases List.mem_cons.1 ha with rfl | ha
      · exact hok htaken.1 htaken.2
      · exact h.accepted a ha
    · exact h.accepted a ha

theorem Evidence.allCarried_viewChange {sender : ℕ}
    (h : e.AllCarried s) (hs : s.step t.cfg (.viewChange sender message) = some s') :
    e.AllCarried s' ↔ e.Only s (.viewChange sender message) := by
  obtain ⟨⟨m, newViews⟩, hm, rfl⟩ := Option.map_eq_some_iff.1 hs
  by_cases hold : message.viewNumber ≤ s.replica.currentView
  · rw [processViewChange, if_pos hold] at hm
    cases hm
    exact iff_of_true ⟨h.stored, h.accepted⟩ fun hlt => absurd hold hlt.not_ge
  rcases processViewChange_cases hm with ⟨-, -, hle⟩ | ⟨hrequest, -⟩
  · exact absurd hle hold
  constructor
  · intro h' _
    refine h'.stored message.viewNumber (sender, message) ?_
    dsimp only
    rw [hrequest]
    exact ViewChangeManager.mem_addRequest_self
  · intro hok
    refine ⟨fun view a ha => ?_, h.accepted⟩
    dsimp only at ha
    rw [hrequest] at ha
    rcases ViewChangeManager.mem_addRequest ha with ⟨-, rfl⟩ | ha
    · exact hok (not_le.1 hold)
    · exact h.stored view a ha

/-- A step keeps the evidence exactly if what arrives carries it. -/
theorem Evidence.allCarried_step {a : ViewEvent} (h : e.AllCarried s)
    (hs : s.step t.cfg a = some s') : e.AllCarried s' ↔ e.Only s a := by
  cases a with
  | viewChange sender message => exact e.allCarried_viewChange h hs
  | newView message isRecovery => exact e.allCarried_newView h hs
  | timeout | checkpoint stableCkpt unstableCkpt | checkpointState | other replica =>
    rcases ViewReplica.step_sameViews hs with
      ⟨_, _, heq⟩ | ⟨⟨-, hrequest, -, -⟩, ⟨_, _, heq⟩ | haccepted⟩
    · cases heq
    · cases heq
    · refine iff_of_true ⟨?_, ?_⟩ trivial
      · rw [hrequest]
        exact h.stored
      · rw [haccepted]
        exact h.accepted

/-- The next number of an accepted NEW-VIEW is the one behind what its messages make a replica go on
from. -/
theorem ViewReplica.accepted_nextSeq {as : List ViewEvent}
    (hinit : (viewReplicaSystem cfg).init s) (hrun : (viewReplicaSystem cfg).run s as = some s') :
    ∀ a ∈ s'.accepted, a.2 = highestRedo a.1.viewchangeMessages + 1 := by
  refine (TransitionSystem.reachable_of_run hinit hrun).invariant
    (I := fun s => ∀ a ∈ s.accepted, a.2 = highestRedo a.1.viewchangeMessages + 1) ?_ ?_
  · rintro s ⟨-, -, haccepted⟩ a ha
    rw [haccepted] at ha
    cases ha
  · intro s action s' h _ hs a ha
    rcases ViewReplica.step_sameViews hs with ⟨sender, message, rfl⟩ | ⟨-, ⟨_, _, rfl⟩ | haccepted⟩
    · obtain ⟨_, -, rfl⟩ := Option.map_eq_some_iff.1 hs
      exact h a ha
    · rw [ViewReplica.accepted_newView hs] at ha
      split_ifs at ha
      · rcases List.mem_cons.1 ha with rfl | ha
        · rfl
        · exact h a ha
      · exact h a ha
    · rw [haccepted] at ha
      exact h a ha

/-- Four replicas, one of them faulty. -/
def fourthFaulty : Setup := { fourCorrect with byzantine := {4} }

/-- A checkpoint that three of four replicas have signed. -/
def signedCheckpoint : ViewChangeMessage :=
  ⟨2, ⟨5, "", [⟨1, ""⟩, ⟨2, ""⟩, ⟨3, ""⟩]⟩, []⟩

/-- The correct replicas have checkpointed a number and have prepared none. -/
def checkpointOnly (seq : ℕ) : Evidence fourthFaulty where
  signsCheckpoint := fun _ seq' _ => seq' = seq
  signsMessage := fun _ _ => false
  checkpointed := fun _ seq' => seq' = seq
  prepared := fun _ _ => False
  fewByzantine := by decide
  checkpoint_signed := fun _ _ _ _ h => of_decide_eq_true h
  message_signed := fun _ _ _ _ h => by cases h

/-- The third replica, in the first view. -/
def thirdReplica : ViewReplica := ⟨.construct fourthFaulty.cfg 1 1 3, {}, [], []⟩

end

end

end Pbft
