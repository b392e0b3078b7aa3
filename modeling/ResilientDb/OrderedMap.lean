/-
**Ordered maps.**

A map with ordered keys, kept as the list of its entries in increasing key order: the model of
`std::map` and of an ordered key-value store.  The order is a field of the structure, so that the
first entry is the one with the least key in every map that can be built.

Main definitions:

* `OrderedMap.insertWith` — insertion with a rule for a key that is already there; `insert` keeps
  the old value, as `std::map::insert` does;
* `OrderedMap.find?`, `OrderedMap.set`, `OrderedMap.setAll` — lookup and assignment;
* `OrderedMap.filterMap` — the entries that a function keeps;
* `OrderedMap.begin`, `OrderedMap.eraseBegin` — the entry with the least key, and its removal.

Main results:

* `OrderedMap.mem_keys_insertWith` — the keys after an insertion;
* `OrderedMap.find?_set`, `OrderedMap.find?_setAll` — lookup after assignments;
* `OrderedMap.begin_le`, `OrderedMap.le_last` — the first key is the least one, the last the greatest.
-/

import Mathlib

set_option autoImplicit false

/-- A map with ordered keys, as the list of its entries in key order. -/
structure OrderedMap (K V : Type) [LinearOrder K] where
  /-- The entries. -/
  entries : List (K × V)
  /-- The keys increase along the list. -/
  sorted : entries.Pairwise fun a b => a.1 < b.1

namespace OrderedMap

open List (mem_cons mem_cons_of_mem mem_cons_self mem_map pairwise_cons)

variable {K V : Type} [LinearOrder K]

instance [DecidableEq V] : DecidableEq (OrderedMap K V)
  | ⟨entries, _⟩, ⟨entries', _⟩ => decidable_of_iff (entries = entries') (by rw [mk.injEq])

/-- The map without entries. -/
def empty : OrderedMap K V := ⟨[], List.Pairwise.nil⟩

/-- The keys, in order. -/
def keys (m : OrderedMap K V) : List K := m.entries.map Prod.fst

/-! ### Insertion -/

/-- Insert an entry into a list ordered by key; `f old new` is the value of a key already there. -/
def insertList (f : V → V → V) (k : K) (v : V) : List (K × V) → List (K × V)
  | [] => [(k, v)]
  | e :: l =>
    if k < e.1 then (k, v) :: e :: l
    else if k = e.1 then (e.1, f e.2 v) :: l
    else e :: insertList f k v l

variable {k' : K}

theorem mem_keys_insertList (f : V → V → V) (k : K) (v : V) :
    ∀ l : List (K × V), k' ∈ (insertList f k v l).map Prod.fst ↔ k' = k ∨ k' ∈ l.map Prod.fst
  | [] => by simp [insertList]
  | e :: l => by
    unfold insertList
    split_ifs with hlt heq
    · simp
    · simp [heq]
    · simp only [List.map_cons, mem_cons, mem_keys_insertList f k v l]
      tauto

/-- Insertion keeps the order of the keys. -/
theorem sorted_insertList (f : V → V → V) (k : K) (v : V) :
    ∀ l : List (K × V), (l.Pairwise fun a b => a.1 < b.1) →
      (insertList f k v l).Pairwise fun a b => a.1 < b.1
  | [], _ => by simp [insertList]
  | e :: l, h => by
    obtain ⟨he, hl⟩ := pairwise_cons.1 h
    unfold insertList
    split_ifs with hlt heq
    · refine pairwise_cons.2 ⟨?_, h⟩
      intro b hb
      rcases mem_cons.1 hb with rfl | hb
      · exact hlt
      · exact hlt.trans (he b hb)
    · exact pairwise_cons.2 ⟨he, hl⟩
    · refine pairwise_cons.2 ⟨?_, sorted_insertList f k v l hl⟩
      intro b hb
      have hb' : b.1 ∈ (insertList f k v l).map Prod.fst := List.mem_map_of_mem hb
      rcases (mem_keys_insertList f k v l).1 hb' with hk | hk
      · rw [hk]
        exact lt_of_le_of_ne (not_lt.1 hlt) fun h => heq h.symm
      · obtain ⟨c, hc, hcb⟩ := mem_map.1 hk
        exact hcb ▸ he c hc

/-- Insertion; `f old new` is the value of a key already there. -/
def insertWith (f : V → V → V) (m : OrderedMap K V) (k : K) (v : V) : OrderedMap K V :=
  ⟨insertList f k v m.entries, sorted_insertList f k v m.entries m.sorted⟩

/-- `std::map::insert`, which leaves a key that is already there as it is. -/
def insert (m : OrderedMap K V) (k : K) (v : V) : OrderedMap K V :=
  m.insertWith (fun old _ => old) k v

theorem mem_keys_insertWith (f : V → V → V) (m : OrderedMap K V) (k : K) (v : V) :
    k' ∈ (m.insertWith f k v).keys ↔ k' = k ∨ k' ∈ m.keys :=
  mem_keys_insertList f k v m.entries

@[simp] theorem mem_keys_insert (m : OrderedMap K V) (k : K) (v : V) :
    k' ∈ (m.insert k v).keys ↔ k' = k ∨ k' ∈ m.keys :=
  mem_keys_insertWith _ m k v

variable {e : K × V}

/-- An entry is an old one, the new one, or the old one combined with the new one. -/
theorem mem_insertList {f : V → V → V} (k : K) (v : V) :
    ∀ {l : List (K × V)}, e ∈ insertList f k v l →
      e ∈ l ∨ e = (k, v) ∨ ∃ old, (k, old) ∈ l ∧ e = (k, f old v)
  | [], h => .inr (.inl (List.mem_singleton.1 h))
  | e' :: l, h => by
    unfold insertList at h
    split_ifs at h with hlt heq
    · rcases mem_cons.1 h with h | h
      · exact .inr (.inl h)
      · exact .inl h
    · rcases mem_cons.1 h with h | h
      · rw [← heq] at h
        exact .inr (.inr ⟨e'.2, by simp [heq], h⟩)
      · exact .inl (mem_cons_of_mem _ h)
    · rcases mem_cons.1 h with h | h
      · exact .inl (h ▸ mem_cons_self)
      · rcases mem_insertList k v h with h | h | ⟨old, hold, h⟩
        · exact .inl (mem_cons_of_mem _ h)
        · exact .inr (.inl h)
        · exact .inr (.inr ⟨old, mem_cons_of_mem _ hold, h⟩)

variable {k : K} {v : V} {l : List (K × V)}

theorem mem_insertList_replace
    (h : e ∈ insertList (fun _ new => new) k v l) : e = (k, v) ∨ e ∈ l := by
  rcases mem_insertList k v h with h | h | ⟨_, _, h⟩
  · exact .inr h
  · exact .inl h
  · exact .inl h

variable {m : OrderedMap K V}

theorem mem_insert (h : e ∈ (m.insert k v).entries) : e = (k, v) ∨ e ∈ m.entries := by
  rcases mem_insertList k v h with h | h | ⟨old, hold, rfl⟩
  · exact .inr h
  · exact .inl h
  · exact .inr hold

/-! ### Lookup -/

/-- The value of the first entry with this key. -/
def lookup (k : K) (l : List (K × V)) : Option V := l.lookup k

/-- The value of a key. -/
def find? (m : OrderedMap K V) (k : K) : Option V := lookup k m.entries

/-- `m[k] = v`. -/
def set (m : OrderedMap K V) (k : K) (v : V) : OrderedMap K V :=
  m.insertWith (fun _ new => new) k v

@[simp] theorem find?_empty (k : K) : (empty : OrderedMap K V).find? k = none := rfl

@[simp] theorem lookup_nil (k : K) : lookup k ([] : List (K × V)) = none := rfl

/-- The earlier list decides. -/
theorem lookup_append (k : K) (l l' : List (K × V)) :
    lookup k (l ++ l') = (lookup k l).or (lookup k l') :=
  List.lookup_append

theorem lookup_cons (k : K) (e : K × V) (l : List (K × V)) :
    lookup k (e :: l) = if k = e.1 then some e.2 else lookup k l := by
  rw [lookup, List.lookup]
  split_ifs with h
  · simp [h]
  · simp [beq_false_of_ne h, lookup]

theorem lookup_eq_none : ∀ {l : List (K × V)}, (∀ e ∈ l, e.1 ≠ k) → lookup k l = none
  | [], _ => rfl
  | e :: l, h => by
    rw [lookup_cons, if_neg (h e mem_cons_self).symm]
    exact lookup_eq_none fun e he => h e (mem_cons_of_mem _ he)

theorem lookup_insertList_replace (k : K) (v : V) (k' : K) : ∀ l : List (K × V),
    lookup k' (insertList (fun _ new => new) k v l) = if k' = k then some v else lookup k' l
  | [] => lookup_cons k' (k, v) []
  | e :: l => by
    unfold insertList
    by_cases hlt : k < e.1
    · rw [if_pos hlt, lookup_cons]
    rw [if_neg hlt]
    by_cases heq : k = e.1
    · rw [if_pos heq, lookup_cons, lookup_cons, ← heq]
      by_cases hk : k' = k <;> simp [hk]
    · rw [if_neg heq, lookup_cons, lookup_cons, lookup_insertList_replace k v k' l]
      by_cases hk : k' = k
      · rw [hk, if_neg heq, if_pos rfl, if_pos rfl]
      · rw [if_neg hk, if_neg hk]

theorem length_insertList_le (f : V → V → V) (k : K) (v : V) : ∀ l : List (K × V),
    (insertList f k v l).length ≤ l.length + 1
  | [] => le_rfl
  | e :: l => by
    rw [insertList]
    split_ifs
    · exact le_rfl
    · exact Nat.le_succ _
    · exact Nat.succ_le_succ (length_insertList_le f k v l)

/-- Setting a key adds at most one entry. -/
theorem length_set_le (m : OrderedMap K V) (k : K) (v : V) :
    (m.set k v).entries.length ≤ m.entries.length + 1 :=
  length_insertList_le _ k v m.entries

@[simp] theorem find?_set (m : OrderedMap K V) (k : K) (v : V) (k' : K) :
    (m.set k v).find? k' = if k' = k then some v else m.find? k' :=
  lookup_insertList_replace k v k' m.entries

/-- If the keys are distinct, lookup finds every entry. -/
theorem lookup_eq_some_iff_mem (h : l.Pairwise fun a b => a.1 ≠ b.1) :
    lookup k l = some v ↔ (k, v) ∈ l := by
  rw [lookup, List.lookup_eq_some_iff]
  constructor
  · rintro ⟨l₁, l₂, rfl, -⟩
    simp
  · intro hv
    obtain ⟨l₁, l₂, rfl⟩ := List.append_of_mem hv
    refine ⟨l₁, l₂, rfl, fun p hp => ?_⟩
    exact bne_iff_ne.2 ((List.pairwise_append.1 h).2.2 p hp (k, v) mem_cons_self).symm

theorem distinct (m : OrderedMap K V) : m.entries.Pairwise fun a b => a.1 ≠ b.1 :=
  m.sorted.imp LT.lt.ne

theorem find?_eq_some_iff : m.find? k = some v ↔ (k, v) ∈ m.entries :=
  lookup_eq_some_iff_mem m.distinct

theorem mem_of_find? (h : m.find? k = some v) : (k, v) ∈ m.entries :=
  find?_eq_some_iff.1 h

theorem find?_of_mem (h : e ∈ m.entries) : m.find? e.1 = some e.2 :=
  find?_eq_some_iff.2 h

/-! ### The entries that a function keeps -/

/-- The map of the values that `f` gives, without the keys for which it gives none. -/
def filterMap {W : Type} (f : K → V → Option W) (m : OrderedMap K V) : OrderedMap K W where
  entries := m.entries.filterMap fun e => (f e.1 e.2).map fun w => (e.1, w)
  sorted := by
    refine m.sorted.filterMap _ ?_
    intro a a' hlt b hb b' hb'
    obtain ⟨w, -, rfl⟩ := Option.map_eq_some_iff.1 hb
    obtain ⟨w', -, rfl⟩ := Option.map_eq_some_iff.1 hb'
    exact hlt

variable {W : Type}

/-- What is left after a filter. -/
theorem mem_filterMap {f : K → V → Option W} {w : W} :
    (k, w) ∈ (m.filterMap f).entries ↔ ∃ v, (k, v) ∈ m.entries ∧ f k v = some w := by
  simp only [filterMap, List.mem_filterMap, Option.map_eq_some_iff, Prod.mk.injEq]
  constructor
  · rintro ⟨⟨k', v⟩, hv, w', hw, rfl, rfl⟩
    exact ⟨v, hv, hw⟩
  · rintro ⟨v, hv, hw⟩
    exact ⟨(k, v), hv, w, hw, rfl, rfl⟩

theorem find?_filterMap (f : K → V → Option W) (m : OrderedMap K V) (k : K) :
    (m.filterMap f).find? k = (m.find? k).bind (f k) := by
  ext w
  simp only [find?_eq_some_iff, mem_filterMap, Option.bind_eq_some_iff]

/-- Maps are equal if they give the same answers. -/
theorem ext_find? {m' : OrderedMap K V} (h : ∀ k, m.find? k = m'.find? k) : m = m' := by
  have hentries : m.entries = m'.entries := by
    refine m.sorted.eq_of_mem_iff m'.sorted fun e => ?_
    rw [← find?_eq_some_iff, ← find?_eq_some_iff, h]
  obtain ⟨entries, sorted⟩ := m
  cases hentries
  rfl

/-- `erase`. -/
def erase (m : OrderedMap K V) (k : K) : OrderedMap K V :=
  m.filterMap fun k' v => if k' = k then none else some v

theorem mem_erase : (k', v) ∈ (m.erase k).entries ↔ k' ≠ k ∧ (k', v) ∈ m.entries := by
  rw [erase, mem_filterMap]
  constructor
  · rintro ⟨w, hw, hif⟩
    split_ifs at hif with hk
    cases hif
    exact ⟨hk, hw⟩
  · rintro ⟨hk, hv⟩
    exact ⟨v, hv, if_neg hk⟩

theorem mem_keys_erase : k' ∈ (m.erase k).keys ↔ k' ≠ k ∧ k' ∈ m.keys := by
  simp only [keys, mem_map, Prod.exists, exists_and_right, exists_eq_right, mem_erase,
    exists_and_left]

/-- The entries after a key has been set. -/
theorem mem_set {w : V} :
    (k', w) ∈ (m.set k v).entries ↔ k' = k ∧ w = v ∨ k' ≠ k ∧ (k', w) ∈ m.entries := by
  rw [← find?_eq_some_iff, find?_set, ← find?_eq_some_iff]
  split_ifs with hk
  · simp [hk, eq_comm]
  · simp [hk]

theorem insertList_append (f : V → V → V) (k : K) (v : V) (l' : List (K × V)) :
    ∀ l : List (K × V), (∀ e ∈ l, e.1 < k) → insertList f k v (l ++ l') = l ++ insertList f k v l'
  | [], _ => rfl
  | e :: l, h => by
    have he : e.1 < k := h e mem_cons_self
    rw [List.cons_append, insertList, if_neg he.not_gt, if_neg he.ne',
      insertList_append f k v l' l fun e' he' => h e' (mem_cons_of_mem _ he')]
    rfl

/-- A key above all others goes to the end. -/
theorem entries_set_new (v : V) (h : ∀ e ∈ m.entries, e.1 < k) :
    (m.set k v).entries = m.entries ++ [(k, v)] := by
  have hinsert := insertList_append (fun _ new => new) k v [] m.entries h
  rwa [List.append_nil] at hinsert

/-- A key that is there keeps its place. -/
theorem entries_set_of_mem {l' : List (K × V)} {old : V} (v : V)
    (h : m.entries = l ++ (k, old) :: l') : (m.set k v).entries = l ++ (k, v) :: l' := by
  have hsorted := m.sorted
  rw [h, List.pairwise_append] at hsorted
  have hlt : ∀ e ∈ l, e.1 < k := fun e he => hsorted.2.2 e he _ mem_cons_self
  have hinsert := insertList_append (fun _ new => new) k v ((k, old) :: l') l hlt
  rw [← h] at hinsert
  refine hinsert.trans ?_
  rw [insertList, if_neg (lt_irrefl k), if_pos rfl]

theorem entries_erase_last {old : V}
    (h : m.entries = l ++ [(k, old)]) : (m.erase k).entries = l := by
  have hsorted := m.sorted
  rw [h, List.pairwise_append] at hsorted
  have hne : ∀ e ∈ l, e.1 ≠ k := fun e he => (hsorted.2.2 e he _ mem_cons_self).ne
  have hentries : (m.erase k).entries =
      m.entries.filterMap fun e => (if e.1 = k then none else some e.2).map fun w => (e.1, w) := rfl
  rw [hentries, h, List.filterMap_append]
  have hkeep : (l.filterMap fun e => (if e.1 = k then none else some e.2).map fun w => (e.1, w)) =
      l := by
    refine (List.filterMap_congr fun e he => ?_).trans List.filterMap_some
    rw [if_neg (hne e he), Option.map_some]
  rw [hkeep]
  simp

theorem filterMap_eq_empty {f : K → V → Option W}
    (h : ∀ e ∈ m.entries, f e.1 e.2 = none) : m.filterMap f = empty := by
  have hnil : (m.filterMap f).entries = [] := by
    refine List.filterMap_eq_nil_iff.2 fun e he => ?_
    rw [h e he, Option.map_none]
  cases hm : m.filterMap f
  rw [hm] at hnil
  cases hnil
  rfl

/-! ### Writing a list of entries -/

/-- Write the entries one after the other. -/
def setAll (m : OrderedMap K V) (l : List (K × V)) : OrderedMap K V :=
  l.foldl (fun m e => m.set e.1 e.2) m

/-- The last value that was set for a key counts, and else the old one. -/
theorem find?_setAll (k : K) : ∀ (l : List (K × V)) (m : OrderedMap K V),
    (m.setAll l).find? k = (lookup k l.reverse).or (m.find? k)
  | [], m => rfl
  | e :: l, m => by
    rw [setAll, List.foldl_cons, ← setAll, find?_setAll k l, List.reverse_cons, lookup_append,
      Option.or_assoc, find?_set]
    congr 1
    by_cases h : k = e.1 <;> simp [lookup_cons, h]

theorem mem_keys_setAll : ∀ {l : List (K × V)} {m : OrderedMap K V},
    k ∈ (m.setAll l).keys ↔ k ∈ l.map Prod.fst ∨ k ∈ m.keys
  | [], m => by simp [setAll]
  | e :: l, m => by
    rw [setAll, List.foldl_cons, ← setAll, mem_keys_setAll, set, mem_keys_insertWith, List.map_cons,
      mem_cons]
    tauto

/-! ### The first entry -/

/-- The entry with the least key. -/
def begin (m : OrderedMap K V) : Option (K × V) := m.entries.head?

/-- The map without its first entry. -/
def eraseBegin (m : OrderedMap K V) : OrderedMap K V :=
  ⟨m.entries.tail, m.sorted.tail⟩

section

variable (h : m.begin = some e)
include h

theorem entries_of_begin : m.entries = e :: m.entries.tail :=
  (List.cons_head?_tail h).symm

theorem mem_keys_of_begin : k ∈ m.keys ↔ k = e.1 ∨ k ∈ m.eraseBegin.keys := by
  simp only [keys, eraseBegin]
  rw [entries_of_begin h]
  simp

theorem begin_lt_of_mem_eraseBegin (hk : k ∈ m.eraseBegin.keys) : e.1 < k := by
  have hs := m.sorted
  rw [entries_of_begin h] at hs
  obtain ⟨b, hb, rfl⟩ := mem_map.1 hk
  exact (pairwise_cons.1 hs).1 b hb

/-- The first key is the smallest. -/
theorem begin_le (hk : k ∈ m.keys) : e.1 ≤ k := by
  rcases (mem_keys_of_begin h).1 hk with rfl | hk
  · exact le_rfl
  · exact (begin_lt_of_mem_eraseBegin h hk).le

end

theorem keys_of_begin_none (h : m.begin = none) : m.keys = [] := by
  rw [begin, List.head?_eq_none_iff] at h
  simp [keys, h]

/-- The last key is the largest. -/
theorem le_last (h : m.entries.getLast? = some e) (hk : k ∈ m.keys) : k ≤ e.1 := by
  obtain ⟨l, hl⟩ := List.getLast?_eq_some_iff.1 h
  have hs := m.sorted
  rw [hl, List.pairwise_append] at hs
  obtain ⟨b, hb, rfl⟩ := mem_map.1 hk
  rw [hl] at hb
  rcases List.mem_append.1 hb with hb | hb
  · exact (hs.2.2 b hb e (List.mem_singleton.2 rfl)).le
  · rw [List.mem_singleton.1 hb]

end OrderedMap
