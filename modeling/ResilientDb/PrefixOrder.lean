/-
**Compatible lists.**

Two lists are compatible when one of them extends the other: the relation between two states of one
growing log.  Replicated logs are compared by it throughout.

Main definitions:

* `Compatible` — one of two lists extends the other.

Main results:

* `getElem?_of_isPrefix` — a list agrees with its beginnings;
* `Compatible.of_isPrefix` — beginnings of one list are compatible;
* `Compatible.getElem?`, `Compatible.take_eq` — compatible lists agree wherever both are defined;
* `subset_update_append`, `mem_update_append` — extending one of several logs.
-/

import Mathlib

set_option autoImplicit false

variable {α : Type}

theorem getElem?_of_isPrefix {l l' : List α} (h : l <+: l') {k : ℕ} {a : α} (hk : l[k]? = some a) :
    l'[k]? = some a := by
  obtain ⟨hlt, rfl⟩ := List.getElem?_eq_some_iff.1 hk
  exact List.prefix_iff_getElem?.1 h k hlt

/-- One of two lists extends the other. -/
def Compatible (l l' : List α) : Prop := l <+: l' ∨ l' <+: l

namespace Compatible

variable {l l' l₁ l₂ : List α}

theorem of_isPrefix (h₁ : l₁ <+: l) (h₂ : l₂ <+: l) : Compatible l₁ l₂ :=
  List.prefix_or_prefix_of_prefix h₁ h₂

theorem mono (h : Compatible l l') (h₁ : l₁ <+: l) (h₂ : l₂ <+: l') : Compatible l₁ l₂ := by
  rcases h with h | h
  · exact of_isPrefix (h₁.trans h) h₂
  · exact of_isPrefix h₁ (h₂.trans h)

theorem prefix_of_length_le (h : Compatible l l') (hlen : l.length ≤ l'.length) : l <+: l' := by
  rcases h with h | h
  · exact h
  · exact (h.eq_of_length (le_antisymm h.length_le hlen)) ▸ List.prefix_refl _

theorem getElem? (h : Compatible l l') {k : ℕ} {a a' : α} (hk : l[k]? = some a)
    (hk' : l'[k]? = some a') : a = a' := by
  rcases h with h | h
  · exact Option.some.inj ((getElem?_of_isPrefix h hk).symm.trans hk')
  · exact Option.some.inj (hk.symm.trans (getElem?_of_isPrefix h hk'))

theorem take_eq (h : Compatible l l') {k : ℕ} (hk : k ≤ l.length) (hk' : k ≤ l'.length) :
    l.take k = l'.take k := by
  have h₁ : (l.take k).length = (l'.take k).length := by simp [hk, hk']
  have h₂ : Compatible (l.take k) (l'.take k) := h.mono (List.take_prefix _ _) (List.take_prefix _ _)
  exact (h₂.prefix_of_length_le h₁.le).eq_of_length h₁

end Compatible

/-! ### Logs of several participants -/

section Logs

variable {ι : Type} [DecidableEq ι]

theorem subset_update_append (p : ι → List α) (i : ι) (l : List α) (j : ι) :
    p j ⊆ Function.update p i (p i ++ l) j := by
  rcases eq_or_ne j i with rfl | hj
  · rw [Function.update_self]
    exact List.subset_append_left _ _
  · rw [Function.update_of_ne hj]
    exact List.Subset.refl _

theorem mem_update_append {p : ι → List α} {i j : ι} {l : List α} {a : α}
    (h : a ∈ Function.update p i (p i ++ l) j) : a ∈ p j ∨ j = i ∧ a ∈ l := by
  rcases eq_or_ne j i with rfl | hj
  · rw [Function.update_self, List.mem_append] at h
    exact h.imp_right fun h => ⟨rfl, h⟩
  · rw [Function.update_of_ne hj] at h
    exact .inl h

end Logs
