/-
**Prefix scans and terminated words.**

A store with ordered keys is asked for the keys that start with a word by a seek and a walk: the
cursor goes to the first key that is not below the word and moves on while the word is a prefix.
In the lexicographic order the walk finds all of them.

Compound keys are written as words with a terminator behind each.  Where no word contains the
terminator, the words of a key can be read off, and a list of terminated words is a prefix of
another exactly when the list is.

Main definitions:

* `OrderedMap.scanPrefix` — the seek and the walk;
* `terminated` — words, each with a terminator behind it;
* `cutAt` — cutting a text at the terminators.

Main results:

* `OrderedMap.scanPrefix_eq_filter` — the walk finds the keys that start with the word;
* `terminated_isPrefix_iff` — prefixes of terminated words;
* `cutAt_terminated` — cutting finds the words, and a last one that is not empty.
-/

import ResilientDb.OrderedMap

set_option autoImplicit false

/-! ### Prefix scans -/

section Scan

variable {α : Type} [LinearOrder α]

theorem not_lt_of_isPrefix : ∀ {w k : List α}, w <+: k → ¬ k < w
  | [], k, _ => List.not_lt_nil k
  | a :: w, k, h => by
    obtain ⟨t, rfl⟩ := h
    rw [List.cons_append, List.cons_lt_cons_iff]
    rintro (hlt | ⟨-, hlt⟩)
    · exact lt_irrefl a hlt
    · exact not_lt_of_isPrefix (List.prefix_append w t) hlt

theorem isPrefix_of_not_lt_of_lt : ∀ {w a b : List α}, ¬ a < w → a < b → w <+: b → w <+: a
  | [], a, _, _, _, _ => List.nil_prefix
  | x :: w, [], b, hwa, _, _ => absurd (List.nil_lt_cons x w) hwa
  | x :: w, y :: a, b, hwa, hab, hwb => by
    obtain ⟨t, rfl⟩ := hwb
    rw [List.cons_append, List.cons_lt_cons_iff] at hab
    rw [List.cons_lt_cons_iff, not_or, not_and] at hwa
    rcases hab with hyx | ⟨rfl, hab⟩
    · exact absurd hyx hwa.1
    · have ih := isPrefix_of_not_lt_of_lt (hwa.2 rfl) hab (List.prefix_append w t)
      exact List.cons_prefix_cons.2 ⟨rfl, ih⟩

variable {V : Type}

/-- Seek to the first key that is not below the word, and walk as long as the word is a prefix. -/
def OrderedMap.scanPrefix (m : OrderedMap (List α) V) (word : List α) : List (List α) :=
  (m.keys.dropWhile fun k => decide (k < word)).takeWhile fun k => word.isPrefixOf k

theorem takeWhile_eq_filter_of_le {word : List α} : ∀ {ks : List (List α)}, ks.Pairwise (· < ·) →
    (∀ k ∈ ks, ¬ k < word) →
      ks.takeWhile (fun k => word.isPrefixOf k) = ks.filter fun k => word.isPrefixOf k
  | [], _, _ => rfl
  | k :: ks, hs, hle => by
    obtain ⟨hk, hs⟩ := List.pairwise_cons.1 hs
    have ih := takeWhile_eq_filter_of_le hs fun k' hk' => hle k' (List.mem_cons_of_mem _ hk')
    by_cases h : word <+: k
    · rw [List.takeWhile_cons_of_pos (List.isPrefixOf_iff_prefix.2 h),
        List.filter_cons_of_pos (List.isPrefixOf_iff_prefix.2 h), ih]
    · -- no later key starts with the word either
      have hlater : ∀ k' ∈ ks, ¬ word <+: k' := fun k' hk' h' =>
        h (isPrefix_of_not_lt_of_lt (hle k List.mem_cons_self) (hk k' hk') h')
      rw [List.takeWhile_cons_of_neg (mt List.isPrefixOf_iff_prefix.1 h),
        List.filter_cons_of_neg (mt List.isPrefixOf_iff_prefix.1 h), eq_comm,
        List.filter_eq_nil_iff]
      exact fun k' hk' => mt List.isPrefixOf_iff_prefix.1 (hlater k' hk')

theorem scan_eq_filter {word : List α} : ∀ {ks : List (List α)}, ks.Pairwise (· < ·) →
    (ks.dropWhile fun k => decide (k < word)).takeWhile (fun k => word.isPrefixOf k) =
      ks.filter fun k => word.isPrefixOf k
  | [], _ => rfl
  | k :: ks, hs => by
    obtain ⟨hk, htail⟩ := List.pairwise_cons.1 hs
    by_cases h : k < word
    · have hnot : ¬ word.isPrefixOf k := fun hp =>
        not_lt_of_isPrefix (List.isPrefixOf_iff_prefix.1 hp) h
      rw [List.dropWhile_cons, if_pos (decide_eq_true h), scan_eq_filter htail,
        List.filter_cons_of_neg hnot]
    · rw [List.dropWhile_cons, if_neg (by simpa using h)]
      refine takeWhile_eq_filter_of_le hs fun k' hk' hlt => ?_
      rcases List.mem_cons.1 hk' with rfl | hk'
      · exact h hlt
      · exact h ((hk k' hk').trans hlt)

theorem OrderedMap.pairwise_keys {K : Type} [LinearOrder K] (m : OrderedMap K V) :
    m.keys.Pairwise (· < ·) :=
  List.pairwise_map.2 m.sorted

/-- **The scan finds the keys that start with the word.** -/
theorem OrderedMap.scanPrefix_eq_filter (m : OrderedMap (List α) V) (word : List α) :
    m.scanPrefix word = m.keys.filter fun k => word.isPrefixOf k :=
  scan_eq_filter m.pairwise_keys

theorem OrderedMap.pairwise_scanPrefix (m : OrderedMap (List α) V) (word : List α) :
    (m.scanPrefix word).Pairwise (· < ·) := by
  rw [scanPrefix_eq_filter]
  exact m.pairwise_keys.filter _

theorem OrderedMap.mem_scanPrefix {m : OrderedMap (List α) V} {word k : List α} :
    k ∈ m.scanPrefix word ↔ k ∈ m.keys ∧ word <+: k := by
  rw [scanPrefix_eq_filter, List.mem_filter, List.isPrefixOf_iff_prefix]

end Scan

/-! ### Terminated words -/

section Terminated

variable {α : Type} {z : α}

/-- The words, each with the terminator behind it. -/
def terminated (z : α) (ws : List (List α)) : List α := ws.flatMap fun w => w ++ [z]

@[simp] theorem terminated_nil : terminated z [] = [] := rfl

@[simp] theorem terminated_cons (w : List α) (ws : List (List α)) :
    terminated z (w :: ws) = w ++ z :: terminated z ws := by
  simp [terminated]

theorem append_cons_isPrefix_iff : ∀ {v w a b : List α}, z ∉ v → z ∉ w →
    (v ++ z :: a <+: w ++ z :: b ↔ v = w ∧ a <+: b)
  | [], [], a, b, _, _ => by simp
  | [], y :: w, a, b, _, hw => by
    have hne : z ≠ y := fun h => hw (h ▸ List.mem_cons_self)
    simp [List.cons_prefix_cons, hne]
  | x :: v, [], a, b, hv, _ => by
    have hne : x ≠ z := fun h => hv (h ▸ List.mem_cons_self)
    simp [List.cons_prefix_cons, hne]
  | x :: v, y :: w, a, b, hv, hw => by
    have ih := append_cons_isPrefix_iff (a := a) (b := b)
      (fun h => hv (List.mem_cons_of_mem _ h)) fun h => hw (List.mem_cons_of_mem _ h)
    rw [List.cons_append, List.cons_append, List.cons_prefix_cons, ih, List.cons.injEq, and_assoc]

/-- **Prefixes of terminated words**, with a last word that has no terminator. -/
theorem terminated_isPrefix_iff {t : List α} (ht : z ∉ t) : ∀ {vs ws : List (List α)},
    (∀ v ∈ vs, z ∉ v) → (∀ w ∈ ws, z ∉ w) →
      (terminated z vs <+: terminated z ws ++ t ↔ vs <+: ws)
  | [], ws, _, _ => by simp
  | v :: vs, [], _, _ => by
    simp only [List.prefix_nil, reduceCtorEq, iff_false]
    intro h
    exact ht (h.subset (by simp))
  | v :: vs, w :: ws, hv, hw => by
    have ih := terminated_isPrefix_iff ht (fun v' h => hv v' (List.mem_cons_of_mem _ h))
      fun w' h => hw w' (List.mem_cons_of_mem _ h)
    rw [terminated_cons, terminated_cons, List.append_assoc, List.cons_append,
      append_cons_isPrefix_iff (hv v List.mem_cons_self) (hw w List.mem_cons_self), ih,
      List.cons_prefix_cons]

theorem terminated_append_inj {t t' : List α} (ht : z ∉ t) (ht' : z ∉ t') {vs ws : List (List α)}
    (hv : ∀ v ∈ vs, z ∉ v) (hw : ∀ w ∈ ws, z ∉ w)
    (h : terminated z vs ++ t = terminated z ws ++ t') : vs = ws ∧ t = t' := by
  have hvw : vs <+: ws := (terminated_isPrefix_iff ht' hv hw).1 (h ▸ List.prefix_append _ _)
  have hwv : ws <+: vs := (terminated_isPrefix_iff ht hw hv).1 (h ▸ List.prefix_append _ _)
  obtain rfl := hvw.eq_of_length (le_antisymm hvw.length_le hwv.length_le)
  exact ⟨rfl, List.append_cancel_left h⟩

/-- Cut a text at the terminators, with the letters of the current word so far.  An empty rest is not
a word. -/
def cutAt [DecidableEq α] (z : α) (word : List α) : List α → List (List α)
  | [] => if word = [] then [] else [word]
  | a :: text => if a = z then word :: cutAt z [] text else cutAt z (word ++ [a]) text

section Cut

variable [DecidableEq α] {t : List α}

theorem cutAt_of_notMem : ∀ {t : List α} (word : List α), z ∉ t →
    cutAt z word t = if word ++ t = [] then [] else [word ++ t]
  | [], word, _ => by rw [cutAt, List.append_nil]
  | a :: t, word, h => by
    have hne : a ≠ z := fun h' => h (h' ▸ List.mem_cons_self)
    rw [cutAt, if_neg hne, cutAt_of_notMem _ fun h' => h (List.mem_cons_of_mem _ h')]
    simp

theorem cutAt_append_cons (text : List α) : ∀ {w : List α} (word : List α), z ∉ w →
    cutAt z word (w ++ z :: text) = (word ++ w) :: cutAt z [] text
  | [], word, _ => by simp [cutAt]
  | a :: w, word, h => by
    have hne : a ≠ z := fun h' => h (h' ▸ List.mem_cons_self)
    rw [List.cons_append, cutAt, if_neg hne,
      cutAt_append_cons text _ fun h' => h (List.mem_cons_of_mem _ h')]
    simp

/-- **Cutting finds the terminated words**, and the last one if it is not empty. -/
theorem cutAt_terminated (ht : z ∉ t) : ∀ {ws : List (List α)}, (∀ w ∈ ws, z ∉ w) →
    cutAt z [] (terminated z ws ++ t) = ws ++ if t = [] then [] else [t]
  | [], _ => by simp [cutAt_of_notMem [] ht]
  | w :: ws, hw => by
    rw [terminated_cons, List.append_assoc, List.cons_append,
      cutAt_append_cons _ _ (hw w List.mem_cons_self),
      cutAt_terminated ht fun w' h => hw w' (List.mem_cons_of_mem _ h)]
    simp

/-- Every text is a list of terminated words with a rest. -/
theorem exists_terminated (z : α) : ∀ text : List α, ∃ ws t, text = terminated z ws ++ t ∧
    (∀ w ∈ ws, z ∉ w) ∧ z ∉ t
  | [] => ⟨[], [], rfl, by simp, by simp⟩
  | a :: text => by
    obtain ⟨ws, t, rfl, hws, ht⟩ := exists_terminated z text
    by_cases ha : a = z
    · refine ⟨[] :: ws, t, by simp [ha], ?_, ht⟩
      exact List.forall_mem_cons.2 ⟨List.not_mem_nil, hws⟩
    have hcons : ∀ w, z ∉ w → z ∉ a :: w := fun w hw => by
      rw [List.mem_cons, not_or]
      exact ⟨Ne.symm ha, hw⟩
    -- the letter goes to the first word, or to the rest where there is no word
    cases ws with
    | nil => exact ⟨[], a :: t, rfl, by simp, hcons t ht⟩
    | cons w ws =>
      obtain ⟨hw, hws⟩ := List.forall_mem_cons.1 hws
      exact ⟨(a :: w) :: ws, t, by simp, List.forall_mem_cons.2 ⟨hcons w hw, hws⟩, ht⟩

end Cut

end Terminated
