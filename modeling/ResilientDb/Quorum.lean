/-
**Quorums.**

A vote is decided by a quorum: a subset of the participants that is large enough for two quorums to
share a participant, and with faulty participants around, a correct one.  This module has the
intersection argument in the form the protocols use it, and the other fact about counting that they
rest on: the `q`-th largest of a list of numbers is reached by at least `q` of them.

Main results:

* `exists_common_of_card` — two quorums share a participant outside a small set;
* `le_countP_of_getElem?_insertionSort` — the `q`-th largest element is reached by `q` elements;
* `exists_finset_of_getElem?_insertionSort` — the same, with the participants collected in a set.
-/

import Mathlib

set_option autoImplicit false

section Intersection

variable {V : Type} [DecidableEq V]

theorem card_add_card_le_card_inter {S A B : Finset V} (hA : A ⊆ S) (hB : B ⊆ S) :
    A.card + B.card ≤ S.card + (A ∩ B).card := by
  have hle : (A ∪ B).card ≤ S.card := Finset.card_le_card (Finset.union_subset hA hB)
  have hadd := Finset.card_union_add_card_inter A B
  omega

/-- Two sets of participants that together outnumber the participants and the faulty ones share a
participant that is not faulty. -/
theorem exists_common_of_card {S A B F : Finset V} (hA : A ⊆ S) (hB : B ⊆ S)
    (h : S.card + F.card < A.card + B.card) : ∃ v ∈ A, v ∈ B ∧ v ∉ F := by
  have hinter := card_add_card_le_card_inter hA hB
  obtain ⟨v, hv, hF⟩ := Finset.exists_mem_notMem_of_card_lt_card
    (show F.card < (A ∩ B).card by omega)
  exact ⟨v, Finset.mem_of_mem_inter_left hv, Finset.mem_of_mem_inter_right hv, hF⟩

end Intersection

section Sorting

variable {α : Type} [LinearOrder α]

theorem le_countP_of_getElem? {l : List α} (h : l.Pairwise (· ≥ ·)) {q : ℕ} {a : α}
    (ha : l[q]? = some a) : q + 1 ≤ l.countP fun b => decide (a ≤ b) := by
  obtain ⟨hq, rfl⟩ := List.getElem?_eq_some_iff.1 ha
  have hall : ∀ b ∈ l.take (q + 1), l[q] ≤ b := by
    intro b hb
    obtain ⟨k, hk, rfl⟩ := List.mem_iff_getElem.1 hb
    rw [List.length_take] at hk
    rw [List.getElem_take]
    rcases Nat.lt_or_ge k q with hlt | hge
    · exact List.pairwise_iff_getElem.1 h k q (by omega) hq hlt
    · obtain rfl : k = q := by omega
      exact le_rfl
  calc q + 1 = (l.take (q + 1)).length := by rw [List.length_take]; omega
    _ = (l.take (q + 1)).countP fun b => decide (l[q] ≤ b) := by
        rw [List.countP_eq_length.2]
        intro b hb
        exact decide_eq_true (hall b hb)
    _ ≤ l.countP fun b => decide (l[q] ≤ b) := (List.take_sublist _ _).countP_le

theorem le_countP_of_getElem?_insertionSort {l : List α} {q : ℕ} {a : α}
    (ha : (l.insertionSort (· ≥ ·))[q]? = some a) : q + 1 ≤ l.countP fun b => decide (a ≤ b) := by
  rw [← (List.perm_insertionSort (· ≥ ·) l).countP_eq]
  exact le_countP_of_getElem? (List.pairwise_insertionSort (· ≥ ·) l) ha

theorem exists_finset_of_getElem?_insertionSort {f : ℕ → α} {n q : ℕ} {a : α}
    (ha : (((List.range n).map f).insertionSort (· ≥ ·))[q]? = some a) :
    ∃ Q : Finset ℕ, q + 1 ≤ Q.card ∧ ∀ i ∈ Q, i < n ∧ a ≤ f i := by
  refine ⟨(Finset.range n).filter fun i => a ≤ f i, ?_, ?_⟩
  · have hcount := le_countP_of_getElem?_insertionSort ha
    rw [List.countP_map, List.countP_eq_length_filter] at hcount
    exact hcount
  · intro i hi
    simpa using hi

end Sorting
