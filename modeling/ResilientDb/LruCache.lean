/-
**The cache of recently used keys.**

`LRUCache` keeps a list of its keys, the most recently used one first, and a map from keys to values.
Its third member maps every key to its node in the list and only saves a search: `splice` with that
node moves the key to the front.

Main definitions:

* `LruCache` — the list and the map, which have the same keys;
* `LruCache.get`, `LruCache.put`, `LruCache.flush` — the functions of the source.

Main results:

* `LruCache.lookup_put` — a value in the cache after `Put` is the one put, or was there before.
-/

import Mathlib

set_option autoImplicit false

/-- `LRUCache`. -/
structure LruCache (K V : Type) [DecidableEq K] where
  /-- The number of keys that are kept. -/
  capacity : ℕ
  /-- The keys, the most recently used one first. -/
  keyList : List K
  /-- The value of a key. -/
  lookup : K → Option V
  /-- A key has one node in the list. -/
  nodup : keyList.Nodup
  /-- The list and the map have the same keys. -/
  mem_keyList : ∀ k, k ∈ keyList ↔ (lookup k).isSome

namespace LruCache

open Function (update update_apply update_of_ne)

variable {K V : Type} [DecidableEq K]

/-- The constructor. -/
def construct (capacity : ℕ) : LruCache K V where
  capacity := capacity
  keyList := []
  lookup := fun _ => none
  nodup := List.nodup_nil
  mem_keyList := by simp

/-- A key that is in the cache moves to the front. -/
def touch (c : LruCache K V) (key : K) (h : key ∈ c.keyList) : LruCache K V :=
  { c with
    keyList := key :: c.keyList.erase key
    nodup := List.nodup_cons.2 ⟨c.nodup.not_mem_erase, c.nodup.erase key⟩
    mem_keyList := fun k => by
      rw [← c.mem_keyList, List.mem_cons, c.nodup.mem_erase_iff]
      by_cases hk : k = key
      · simp [hk, h]
      · simp [hk] }

theorem mem_touch (c : LruCache K V) (key : K) (h : key ∈ c.keyList) :
    key ∈ (c.touch key h).keyList :=
  List.mem_cons_self

/-- Write the value of a key that is in the cache. -/
def write (c : LruCache K V) (key : K) (value : V) (h : key ∈ c.keyList) : LruCache K V :=
  { c with
    lookup := update c.lookup key (some value)
    mem_keyList := fun k => by
      by_cases hk : k = key
      · simp [hk, h]
      · rw [update_of_ne hk, c.mem_keyList] }

/-- Take in a key that is not in the cache. -/
def pushFront (c : LruCache K V) (key : K) (value : V) (h : key ∉ c.keyList) : LruCache K V :=
  { c with
    keyList := key :: c.keyList
    lookup := update c.lookup key (some value)
    nodup := List.nodup_cons.2 ⟨h, c.nodup⟩
    mem_keyList := fun k => by
      by_cases hk : k = key
      · simp [hk]
      · rw [update_of_ne hk, List.mem_cons, c.mem_keyList]
        simp [hk] }

/-- Remove the last key of the list. -/
def popBack (c : LruCache K V) (lruKey : K) (h : c.keyList.getLast? = some lruKey) : LruCache K V :=
  { c with
    keyList := c.keyList.dropLast
    lookup := update c.lookup lruKey none
    nodup := c.nodup.sublist (List.dropLast_sublist _)
    mem_keyList := fun k => by
      have hsplit := List.dropLast_append_getLast? lruKey h
      have hnodup := c.nodup
      rw [← hsplit, List.nodup_append] at hnodup
      by_cases hk : k = lruKey
      · have hnot : lruKey ∉ c.keyList.dropLast := fun hm =>
          hnodup.2.2 lruKey hm lruKey List.mem_cons_self rfl
        simp [hk, hnot]
      · rw [update_of_ne hk, ← c.mem_keyList]
        nth_rewrite 2 [← hsplit]
        simp [hk] }

theorem not_mem_popBack {c : LruCache K V} {key : K} (hk : key ∉ c.keyList) (lruKey : K)
    (h : c.keyList.getLast? = some lruKey) : key ∉ (c.popBack lruKey h).keyList :=
  fun hm => hk (List.dropLast_subset _ hm)

/-- `Get`.  A key that is not in the cache has the default value. -/
def get [Inhabited V] (c : LruCache K V) (key : K) : V × LruCache K V :=
  if h : key ∈ c.keyList then ((c.lookup key).getD default, c.touch key h) else (default, c)

/-- `Put`.  With capacity 0 it takes the last element of an empty list, which is undefined. -/
def put (c : LruCache K V) (key : K) (value : V) : Option (LruCache K V) :=
  if h : key ∈ c.keyList then
    some ((c.touch key h).write key value (c.mem_touch key h))
  else if c.keyList.length = c.capacity then
    match hl : c.keyList.getLast? with
    | none => none
    | some lruKey =>
      some ((c.popBack lruKey hl).pushFront key value (not_mem_popBack h lruKey hl))
  else some (c.pushFront key value h)

/-- `Flush`. -/
def flush (c : LruCache K V) : LruCache K V := construct c.capacity

/-- A read changes no answer. -/
@[simp] theorem lookup_get [Inhabited V] (c : LruCache K V) (key : K) :
    (c.get key).2.lookup = c.lookup := by
  unfold get
  split_ifs <;> rfl

theorem get_fst [Inhabited V] (c : LruCache K V) (key : K) :
    (c.get key).1 = (c.lookup key).getD default := by
  unfold get
  split_ifs with h
  · rfl
  · rw [c.mem_keyList, Bool.not_eq_true, Option.isSome_eq_false_iff, Option.isNone_iff_eq_none] at h
    simp [h]

@[simp] theorem capacity_get [Inhabited V] (c : LruCache K V) (key : K) :
    (c.get key).2.capacity = c.capacity := by
  unfold get
  split_ifs <;> rfl

theorem capacity_put {c c' : LruCache K V} {key : K} {value : V} (h : c.put key value = some c') :
    c'.capacity = c.capacity := by
  unfold put at h
  split_ifs at h
  · cases h
    rfl
  · split at h
    · cases h
    · cases h
      rfl
  · cases h
    rfl

theorem put_isSome {c : LruCache K V} (h : c.capacity ≠ 0) (key : K) (value : V) :
    (c.put key value).isSome := by
  unfold put
  split_ifs with hmem hfull
  · rfl
  · split
    · rename_i hlast
      rw [List.getLast?_eq_none_iff] at hlast
      rw [hlast] at hfull
      exact absurd hfull.symm h
    · rfl
  · rfl

theorem lookup_write_apply (c : LruCache K V) (key : K) (value : V) (h : key ∈ c.keyList) (k : K) :
    (c.write key value h).lookup k = if k = key then some value else c.lookup k :=
  update_apply _ _ _ _

theorem lookup_pushFront_apply (c : LruCache K V) (key : K) (value : V) (h : key ∉ c.keyList)
    (k : K) : (c.pushFront key value h).lookup k = if k = key then some value else c.lookup k :=
  update_apply _ _ _ _

theorem lookup_popBack_apply (c : LruCache K V) (lruKey : K) (h : c.keyList.getLast? = some lruKey)
    (k : K) : (c.popBack lruKey h).lookup k = if k = lruKey then none else c.lookup k :=
  update_apply _ _ _ _

/-- After a write the key has the value, and others have theirs or none. -/
theorem lookup_put {c c' : LruCache K V} {key k : K} {value v : V} (h : c.put key value = some c')
    (hv : c'.lookup k = some v) : k = key ∧ v = value ∨ k ≠ key ∧ c.lookup k = some v := by
  unfold put at h
  split_ifs at h
  · cases h
    rw [lookup_write_apply] at hv
    split_ifs at hv with hk
    · exact .inl ⟨hk, (Option.some.inj hv).symm⟩
    · exact .inr ⟨hk, hv⟩
  · split at h
    · cases h
    · cases h
      rw [lookup_pushFront_apply] at hv
      split_ifs at hv with hk
      · exact .inl ⟨hk, (Option.some.inj hv).symm⟩
      · -- the key that had to go is not the one that is found
        rw [lookup_popBack_apply] at hv
        split_ifs at hv
        exact .inr ⟨hk, hv⟩
  · cases h
    rw [lookup_pushFront_apply] at hv
    split_ifs at hv with hk
    · exact .inl ⟨hk, (Option.some.inj hv).symm⟩
    · exact .inr ⟨hk, hv⟩

end LruCache
