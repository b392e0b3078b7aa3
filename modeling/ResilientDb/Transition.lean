/-
**Transition systems with guarded runs.**

A transition system has initial states and a partial step function on a type of actions.  A step that
yields `none` is one that the program does not complete: an assertion fails, or the action is not
enabled.  Results about a system speak of the states that it reaches, often only by runs *all of whose
steps meet a condition* on the state before the step, the parameter `ok` of
`TransitionSystem.Reachable`.

Main definitions:

* `TransitionSystem` — initial states and a partial step function;
* `TransitionSystem.run` — the state after a list of actions;
* `TransitionSystem.Reachable` — the states reached by runs whose steps all meet `ok`;
* `TransitionSystem.Guarded` — a list of actions all of whose steps meet `ok`;
* `TransitionSystem.Throughout` — a list of actions all of whose states have a property.

Main results:

* `TransitionSystem.Reachable.invariant` — what holds initially and is kept by every allowed step
  holds of every reachable state;
* `TransitionSystem.foldlM_invariant` — the same for a loop over a list;
* `TransitionSystem.throughout_iff_guarded` — a property that a step keeps exactly if it meets `ok`
  holds throughout exactly the guarded runs;
* `TransitionSystem.Guarded.run_isSome` — if every allowed step is completed, so is every guarded run;
* `TransitionSystem.reachable_of_run` — a computed run reaches its last state;
* `TransitionSystem.exists_run`, `TransitionSystem.exists_reachable` — and what can be decided of
  that state holds of a reachable one.
-/

import Mathlib

set_option autoImplicit false

/-- Initial states and a partial step function.  An action that yields `none` is not enabled, or
ends the program. -/
structure TransitionSystem (σ α : Type) where
  /-- The states a run may start in. -/
  init : σ → Prop
  /-- The state after an action, if the program gets there. -/
  step : σ → α → Option σ

namespace TransitionSystem

variable {σ α : Type} (S : TransitionSystem σ α)

/-- The condition that every step meets. -/
def always : σ → α → Prop := fun _ _ => True

/-- The state after a list of actions. -/
def run (s : σ) : List α → Option σ
  | [] => some s
  | a :: as => (S.step s a).bind fun s' => run s' as

/-- The states reached by runs all of whose steps meet the condition `ok`. -/
inductive Reachable (ok : σ → α → Prop) : σ → Prop
  | init {s : σ} : S.init s → Reachable ok s
  | step {s s' : σ} {a : α} : Reachable ok s → ok s a → S.step s a = some s' → Reachable ok s'

/-- Every step of the run meets the condition `ok`. -/
def Guarded (ok : σ → α → Prop) (s : σ) : List α → Prop
  | [] => True
  | a :: as =>
    ok s a ∧
      match S.step s a with
      | none => True
      | some s' => Guarded ok s' as

instance decidableGuarded (ok : σ → α → Prop) [∀ s a, Decidable (ok s a)] :
    ∀ (as : List α) (s : σ), Decidable (S.Guarded ok s as)
  | [], _ => isTrue trivial
  | a :: as, s =>
    have : Decidable (match S.step s a with
        | none => True
        | some s' => S.Guarded ok s' as) :=
      match S.step s a with
      | none => isTrue trivial
      | some s' => decidableGuarded ok as s'
    inferInstanceAs (Decidable (_ ∧ _))

/-- Every state of the run has the property `I`. -/
def Throughout (I : σ → Prop) (s : σ) : List α → Prop
  | [] => I s
  | a :: as =>
    I s ∧
      match S.step s a with
      | none => True
      | some s' => Throughout I s' as

variable {S} {ok : σ → α → Prop}

/-- What holds at the start and is kept by all steps that are taken holds always. -/
theorem Reachable.invariant {I : σ → Prop} (h₀ : ∀ s, S.init s → I s)
    (hstep : ∀ s a s', I s → ok s a → S.step s a = some s' → I s') {s : σ}
    (h : S.Reachable ok s) : I s := by
  induction h with
  | init hs => exact h₀ _ hs
  | step _ hok hs ih => exact hstep _ _ _ ih hok hs

theorem foldlM_invariant {β : Type} {f : σ → β → Option σ} {I : σ → Prop} :
    ∀ {bs : List β} {s s' : σ}, (∀ s b s', b ∈ bs → I s → f s b = some s' → I s') → I s →
    bs.foldlM f s = some s' → I s'
  | [], s, s', _, h, hr => by
    cases hr
    exact h
  | b :: bs, s, s', hstep, h, hr => by
    obtain ⟨t, ht, hr⟩ := Option.bind_eq_some_iff.1 hr
    exact foldlM_invariant (fun s b' s' hb' => hstep s b' s' (List.mem_cons_of_mem b hb'))
      (hstep s b t List.mem_cons_self h ht) hr

theorem Reachable.run : ∀ (as : List α) {s s' : σ}, S.Reachable ok s →
    S.Guarded ok s as → S.run s as = some s' → S.Reachable ok s'
  | [], s, s', h, _, hr => by
    cases hr
    exact h
  | a :: as, s, s', h, hg, hr => by
    obtain ⟨t, ht, hr⟩ := Option.bind_eq_some_iff.1 hr
    have hg' := hg.2
    rw [ht] at hg'
    exact Reachable.run as (.step h hg.1 ht) hg' hr

theorem Guarded.run_isSome (hstep : ∀ s a, ok s a → ∃ s', S.step s a = some s') :
    ∀ (as : List α) {s : σ}, S.Guarded ok s as → ∃ s', S.run s as = some s'
  | [], s, _ => ⟨s, rfl⟩
  | a :: as, s, h => by
    obtain ⟨t, ht⟩ := hstep s a h.1
    have hg := h.2
    rw [ht] at hg
    obtain ⟨s', hs'⟩ := Guarded.run_isSome hstep as hg
    exact ⟨s', by rw [TransitionSystem.run, ht, Option.bind_some, hs']⟩

theorem Throughout.first {I : σ → Prop} {as : List α} {s : σ} (h : S.Throughout I s as) : I s := by
  cases as with
  | nil => exact h
  | cons a as => exact h.1

theorem Throughout.last {I : σ → Prop} : ∀ {as : List α} {s s' : σ}, S.Throughout I s as →
    S.run s as = some s' → I s'
  | [], s, s', h, hr => by
    cases hr
    exact h
  | a :: as, s, s', h, hr => by
    obtain ⟨t, ht, hr⟩ := Option.bind_eq_some_iff.1 hr
    have hrest := h.2
    rw [ht] at hrest
    exact hrest.last hr

theorem Throughout.mono {I I' : σ → Prop} (hI : ∀ s, I s → I' s) : ∀ {as : List α} {s : σ},
    S.Throughout I s as → S.Throughout I' s as
  | [], s, h => hI s h
  | a :: as, s, h => by
    refine ⟨hI s h.1, ?_⟩
    have hrest := h.2
    cases ht : S.step s a with
    | none => trivial
    | some t =>
      rw [ht] at hrest
      exact hrest.mono hI

/-- An invariant holds throughout a run. -/
theorem throughout_of_invariant {I : σ → Prop} (hstep : ∀ s a s', I s → S.step s a = some s' → I s') :
    ∀ (as : List α) {s : σ}, I s → S.Throughout I s as
  | [], _, h => h
  | a :: as, s, h => by
    refine ⟨h, ?_⟩
    cases ht : S.step s a with
    | none => trivial
    | some t => exact throughout_of_invariant hstep as (hstep s a t h ht)

/-- **Conditions that are exact for a step are exact for a run.**  `J` is an invariant that the step
needs. -/
theorem throughout_iff_guarded {I J : σ → Prop} (hinv : ∀ s a s', J s → S.step s a = some s' → J s')
    (hstep : ∀ s a s', J s → I s → S.step s a = some s' → (I s' ↔ ok s a)) :
    ∀ {as : List α} {s s' : σ}, J s → I s → S.run s as = some s' →
      (S.Throughout I s as ↔ S.Guarded ok s as)
  | [], s, s', _, hI, _ => iff_of_true hI trivial
  | a :: as, s, s', hJ, hI, hr => by
    obtain ⟨t, ht, hr⟩ := Option.bind_eq_some_iff.1 hr
    simp only [Throughout, Guarded, ht]
    have hfirst := hstep s a t hJ hI ht
    constructor
    · rintro ⟨-, hrest⟩
      have hIt := hrest.first
      exact ⟨hfirst.1 hIt, (throughout_iff_guarded hinv hstep (hinv s a t hJ ht) hIt hr).1 hrest⟩
    · rintro ⟨hok, hrest⟩
      have hIt := hfirst.2 hok
      exact ⟨hI, (throughout_iff_guarded hinv hstep (hinv s a t hJ ht) hIt hr).2 hrest⟩

theorem guarded_always : ∀ (as : List α) (s : σ), S.Guarded always s as
  | [], _ => trivial
  | a :: as, s => by
    refine ⟨trivial, ?_⟩
    cases S.step s a with
    | none => trivial
    | some s' => exact guarded_always as s'

theorem reachable_of_run {as : List α} {s s' : σ} (h : S.init s) (hr : S.run s as = some s') :
    S.Reachable always s' :=
  (Reachable.init h).run as (guarded_always as s) hr

variable (S)

/-- What a computed run reaches. -/
theorem exists_run {C : σ → α → Prop} {P : σ → Prop} [DecidablePred P] {s : σ} (as : List α)
    (hs : S.init s) (hok : S.Guarded C s as)
    (hP : (S.run s as).any (fun s' => decide (P s')) = true) :
    ∃ s', S.run s as = some s' ∧ S.Reachable C s' ∧ P s' := by
  obtain ⟨s', hr, hP⟩ := (Option.any_eq_true _ _).1 hP
  exact ⟨s', hr, (Reachable.init hs).run as hok hr, of_decide_eq_true hP⟩

theorem exists_reachable {C : σ → α → Prop} {P : σ → Prop} [DecidablePred P] {s : σ} (as : List α)
    (hs : S.init s) (hok : S.Guarded C s as)
    (hP : (S.run s as).any (fun s' => decide (P s')) = true) : ∃ s', S.Reachable C s' ∧ P s' := by
  obtain ⟨s', -, hreach, hP⟩ := S.exists_run as hs hok hP
  exact ⟨s', hreach, hP⟩

theorem exists_reachable_always {P : σ → Prop} [DecidablePred P] {s : σ} (as : List α) (hs : S.init s)
    (hP : (S.run s as).any (fun s' => decide (P s')) = true) : ∃ s', S.Reachable always s' ∧ P s' :=
  S.exists_reachable as hs (guarded_always as s) hP

end TransitionSystem
