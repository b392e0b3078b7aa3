/-
**The nodes of the cache.**

`LRUCache` finds the node of a key in its list through a third member, a map from keys to iterators.
Here a node has an address, and an iterator is the address of its node.  The three members change
together: with them the cache does what `LruCache` does without the iterators, and keeps the keys that
were used last.

Main definitions:

* `Lru.NodeCache` — the three members;
* `Lru.NodeCache.Refines` — they agree with a cache without iterators;
* `Lru.Reference` — the keys that were used last.

Main results:

* `Lru.NodeCache.Refines.step` — every function keeps the agreement;
* `Lru.cache_refines_reference` — in every run the cache has the keys of the reference.
-/

import ResilientDb.LruCache
import ResilientDb.Transition

set_option autoImplicit false

namespace Lru

open Function (update update_of_ne)

variable {K V : Type} [DecidableEq K]

/-! ### The three members -/

/-- `LRUCache`.  A node of the list is its address and its key. -/
structure NodeCache (K V : Type) where
  capacity : ℕ
  keyList : List (ℕ × K)
  lookup : K → Option V
  rlookup : K → Option ℕ

/-- A new node gets an address that no node of the list has. -/
structure Allocator where
  address : List ℕ → ℕ
  fresh : ∀ nodes, address nodes ∉ nodes

namespace NodeCache

/-- The constructor. -/
def construct (capacity : ℕ) : NodeCache K V := ⟨capacity, [], fun _ => none, fun _ => none⟩

/-- `splice` of the node of a key to the front.  `none` is an iterator that is not valid. -/
def splice (c : NodeCache K V) (key : K) : Option (NodeCache K V) := do
  let it ← c.rlookup key
  let node ← c.keyList.find? fun node => node.1 = it
  some { c with keyList := node :: c.keyList.erase node }

/-- The last key is removed.  `none` is the last element of an empty list. -/
def popBack (c : NodeCache K V) : Option (NodeCache K V) := do
  let node ← c.keyList.getLast?
  some { c with
    keyList := c.keyList.dropLast
    lookup := update c.lookup node.2 none
    rlookup := update c.rlookup node.2 none }

/-- `Get`. -/
def get [Inhabited V] (c : NodeCache K V) (key : K) : Option (V × NodeCache K V) :=
  match c.lookup key with
  | none => some (default, c)
  | some value => (c.splice key).map fun c => (value, c)

/-- `push_front`, and its iterator. -/
def pushFront (alloc : Allocator) (c : NodeCache K V) (key : K) : NodeCache K V :=
  let it := alloc.address (c.keyList.map Prod.fst)
  { c with keyList := (it, key) :: c.keyList, rlookup := update c.rlookup key (some it) }

/-- `Put`. -/
def put (alloc : Allocator) (c : NodeCache K V) (key : K) (value : V) : Option (NodeCache K V) := do
  let c ← if (c.lookup key).isNone then
      (if c.keyList.length = c.capacity then c.popBack else some c).map (·.pushFront alloc key)
    else c.splice key
  some { c with lookup := update c.lookup key (some value) }

/-- The loop of `SetCapacity`, which removes at most as many keys as there are. -/
def shrink (newCapacity : ℕ) : ℕ → NodeCache K V → Option (NodeCache K V)
  | 0, c => some c
  | fuel + 1, c =>
    if newCapacity < c.keyList.length then c.popBack.bind (shrink newCapacity fuel) else some c

/-- `SetCapacity`. -/
def setCapacity (c : NodeCache K V) (newCapacity : ℕ) : Option (NodeCache K V) :=
  (if newCapacity < c.capacity then shrink newCapacity c.keyList.length c else some c).map
    fun c => { c with capacity := newCapacity }

/-- `Flush`. -/
def flush (c : NodeCache K V) : NodeCache K V := construct c.capacity

/-- The members agree with a cache without iterators. -/
structure Refines (c : NodeCache K V) (a : LruCache K V) : Prop where
  capacity : c.capacity = a.capacity
  keyList : c.keyList.map Prod.snd = a.keyList
  lookup : c.lookup = a.lookup
  nodes : (c.keyList.map Prod.fst).Nodup
  rlookup : ∀ key it, c.rlookup key = some it ↔ (it, key) ∈ c.keyList

variable {c : NodeCache K V} {a a' : LruCache K V} {key : K}

theorem Refines.isNone_lookup (h : c.Refines a) : (c.lookup key).isNone ↔ key ∉ a.keyList := by
  rw [h.lookup, a.mem_keyList, ← Option.not_isSome, Bool.not_eq_true, Bool.not_eq_true']

/-- `splice` moves the key to the front. -/
theorem Refines.splice (h : c.Refines a) (hkey : key ∈ a.keyList) :
    ∃ c', c.splice key = some c' ∧ c'.Refines (a.touch key hkey) := by
  obtain ⟨⟨it, key⟩, hnode, rfl⟩ := List.mem_map.1 (h.keyList ▸ hkey)
  have hfind : c.keyList.find? (fun node => node.1 = it) = some (it, key) := by
    have hsome : (c.keyList.find? fun node => node.1 = it).isSome :=
      List.find?_isSome.2 ⟨_, hnode, decide_eq_true rfl⟩
    obtain ⟨node, hfind⟩ := Option.isSome_iff_exists.1 hsome
    have hit : node.1 = it := by simpa using List.find?_some hfind
    rw [hfind, List.inj_on_of_nodup_map h.nodes (List.mem_of_find?_eq_some hfind) hnode hit]
  have hrest : (c.keyList.erase (it, key)).map Prod.snd = a.keyList.erase key := by
    rw [h.nodes.of_map.erase_eq_filter, a.nodup.erase_eq_filter, ← h.keyList, List.filter_map]
    refine congrArg _ (List.filter_congr fun node hmem => ?_)
    have hiff : node = (it, key) ↔ node.2 = key :=
      ⟨fun heq => heq ▸ rfl, List.inj_on_of_nodup_map (h.keyList ▸ a.nodup) hmem hnode⟩
    simp [bne, hiff]
  have hperm := (List.perm_cons_erase hnode).symm
  refine ⟨{ c with keyList := (it, key) :: c.keyList.erase (it, key) }, ?_, h.capacity, ?_, h.lookup,
    (hperm.map _).nodup_iff.2 h.nodes, fun key it => ?_⟩
  · rw [NodeCache.splice, (h.rlookup key it).2 hnode]
    simp [hfind]
  · rw [List.map_cons, hrest]
    rfl
  · rw [h.rlookup, hperm.mem_iff]

/-- A value is written. -/
theorem Refines.write (h : c.Refines a) (value : V) (hkey : key ∈ a.keyList) :
    Refines { c with lookup := update c.lookup key (some value) } (a.write key value hkey) :=
  ⟨h.capacity, h.keyList, congrArg (update · key _) h.lookup, h.nodes, h.rlookup⟩

/-- The last key leaves. -/
theorem Refines.popBack (h : c.Refines a) {lruKey : K} (hlast : a.keyList.getLast? = some lruKey) :
    ∃ c', c.popBack = some c' ∧ c'.Refines (a.popBack lruKey hlast) := by
  have hnodes := hlast
  rw [← h.keyList, List.getLast?_map] at hnodes
  obtain ⟨⟨it, key⟩, hnode, rfl⟩ := Option.map_eq_some_iff.1 hnodes
  have hkeys : c.keyList.dropLast.map Prod.snd = a.keyList.dropLast := by
    rw [List.map_dropLast, h.keyList]
  have hnot : key ∉ c.keyList.dropLast.map Prod.snd := by
    rw [hkeys]
    simpa [LruCache.popBack] using (a.popBack key hlast).mem_keyList key
  unfold NodeCache.popBack
  rw [hnode]
  refine ⟨_, rfl, h.capacity, hkeys, congrArg (update · key _) h.lookup,
    h.nodes.sublist ((List.dropLast_sublist _).map _), fun k it' => ?_⟩
  rcases eq_or_ne k key with rfl | hne
  · simpa using fun hmem => hnot (List.mem_map_of_mem hmem)
  · dsimp only
    rw [update_of_ne hne, h.rlookup]
    nth_rewrite 1 [← List.dropLast_append_getLast? _ hnode]
    simp [hne]

/-- A new key becomes the first one. -/
theorem Refines.pushFront (alloc : Allocator) (h : c.Refines a) (value : V) (hkey : key ∉ a.keyList) :
    Refines { c.pushFront alloc key with lookup := update c.lookup key (some value) }
      (a.pushFront key value hkey) := by
  have hfresh := alloc.fresh (c.keyList.map Prod.fst)
  refine ⟨h.capacity, congrArg (key :: ·) h.keyList, congrArg (update · key _) h.lookup,
    List.nodup_cons.2 ⟨hfresh, h.nodes⟩, fun k it => ?_⟩
  rcases eq_or_ne k key with rfl | hne
  · have hnode : (it, k) ∉ c.keyList := fun hmem => hkey (h.keyList ▸ List.mem_map_of_mem hmem)
    simp [NodeCache.pushFront, hnode, eq_comm]
  · simp [NodeCache.pushFront, hne, h.rlookup]

theorem Refines.get [Inhabited V] (h : c.Refines a) (key : K) :
    ∃ c', c.get key = some ((a.get key).1, c') ∧ c'.Refines (a.get key).2 := by
  unfold NodeCache.get LruCache.get
  split_ifs with hkey
  · obtain ⟨value, hvalue⟩ := Option.isSome_iff_exists.1 ((a.mem_keyList key).1 hkey)
    obtain ⟨c', hsplice, h'⟩ := h.splice hkey
    rw [h.lookup, hvalue]
    exact ⟨c', by rw [hsplice]; rfl, h'⟩
  · rw [Option.isNone_iff_eq_none.1 (h.isNone_lookup.2 hkey)]
    exact ⟨c, rfl, h⟩

theorem Refines.put (alloc : Allocator) (h : c.Refines a) {value : V}
    (hput : a.put key value = some a') : ∃ c', c.put alloc key value = some c' ∧ c'.Refines a' := by
  have hnone : (c.lookup key).isNone ↔ key ∉ a.keyList := h.isNone_lookup
  have hlen : c.keyList.length = a.keyList.length := by rw [← h.keyList, List.length_map]
  unfold LruCache.put at hput
  unfold NodeCache.put
  split_ifs at hput with hkey hfull
  · cases hput
    obtain ⟨c', hsplice, h'⟩ := h.splice hkey
    rw [if_neg (by simpa [hnone] using hkey), hsplice]
    exact ⟨_, rfl, h'.write value _⟩
  · split at hput
    case h_1 => cases hput
    case h_2 lruKey hlast =>
      cases hput
      obtain ⟨c', hpop, h'⟩ := h.popBack hlast
      rw [if_pos (hnone.2 hkey), if_pos (by rw [hlen, h.capacity, hfull]), hpop]
      exact ⟨_, rfl, h'.pushFront alloc value _⟩
  · cases hput
    rw [if_pos (hnone.2 hkey), if_neg (by rwa [hlen, h.capacity])]
    exact ⟨_, rfl, h.pushFront alloc value _⟩

/-- The loop keeps the first keys. -/
theorem Refines.shrink {n : ℕ} : ∀ {fuel : ℕ} {c : NodeCache K V} {a : LruCache K V}, c.Refines a →
    a.keyList.length ≤ n + fuel →
    ∃ c' a', NodeCache.shrink n fuel c = some c' ∧ c'.Refines a' ∧ a'.keyList = a.keyList.take n ∧
      ∀ key value, a'.lookup key = some value → a.lookup key = some value
  | 0, c, a, h, hlen => ⟨c, a, rfl, h, (List.take_of_length_le hlen).symm, fun _ _ => id⟩
  | fuel + 1, c, a, h, hlen => by
    rw [NodeCache.shrink, ← List.length_map Prod.snd, h.keyList]
    split_ifs with hlt
    · obtain ⟨lruKey, hlast⟩ : ∃ lruKey, a.keyList.getLast? = some lruKey := by
        rw [← Option.isSome_iff_exists, List.getLast?_isSome]
        exact List.ne_nil_of_length_pos (by omega)
      obtain ⟨c₁, hpop, h₁⟩ := h.popBack hlast
      have hkeys : (a.popBack lruKey hlast).keyList = a.keyList.dropLast := rfl
      obtain ⟨c', a', hshrink, h', hkeys', hlookup⟩ := @Refines.shrink n fuel c₁ _ h₁
        (by rw [hkeys, List.length_dropLast]; omega)
      rw [hkeys, List.dropLast_eq_take, List.take_take, Nat.min_eq_left (by omega)] at hkeys'
      refine ⟨c', a', by rw [hpop]; exact hshrink, h', hkeys', fun key value hvalue => ?_⟩
      have hfound := hlookup key value hvalue
      rw [LruCache.lookup_popBack_apply] at hfound
      split_ifs at hfound
      exact hfound
    · exact ⟨c, a, rfl, h, (List.take_of_length_le (not_lt.1 hlt)).symm, fun _ _ => id⟩

theorem Refines.setCapacity (h : c.Refines a) (hlen : a.keyList.length ≤ a.capacity) (n : ℕ) :
    ∃ c' a', c.setCapacity n = some c' ∧ c'.Refines a' ∧ a'.capacity = n ∧
      a'.keyList = a.keyList.take n ∧
      ∀ key value, a'.lookup key = some value → a.lookup key = some value := by
  unfold NodeCache.setCapacity
  rw [h.capacity, ← List.length_map Prod.snd, h.keyList]
  split_ifs with hlt
  · obtain ⟨c', a', hshrink, h', hkeys, hlookup⟩ :=
      @Refines.shrink _ _ _ n a.keyList.length c a h (Nat.le_add_left _ _)
    rw [hshrink]
    exact ⟨_, { a' with capacity := n }, rfl, ⟨rfl, h'.2, h'.3, h'.4, h'.5⟩, rfl, hkeys, hlookup⟩
  · refine ⟨_, { a with capacity := n }, rfl, ⟨rfl, h.2, h.3, h.4, h.5⟩, rfl, ?_, fun _ _ => id⟩
    rw [List.take_of_length_le (hlen.trans (not_lt.1 hlt))]

end NodeCache

/-! ### The reference -/

/-- A call. -/
inductive Call (K V : Type)
  | get (key : K)
  | put (key : K) (value : V)
  | setCapacity (newCapacity : ℕ)
  | flush

/-- The keys that were used last, the last one first. -/
structure Reference (K : Type) where
  capacity : ℕ
  keys : List K

/-- The reference after a call.  What is beyond the capacity is dropped. -/
def Reference.step (r : Reference K) : Call K V → Reference K
  | .get key => { r with keys := if key ∈ r.keys then key :: r.keys.erase key else r.keys }
  | .put key _ => { r with keys := (key :: r.keys.erase key).take r.capacity }
  | .setCapacity newCapacity => ⟨newCapacity, r.keys.take newCapacity⟩
  | .flush => { r with keys := [] }

/-- A cache, its reference, and the last value that was put for each key. -/
structure Run (K V : Type) where
  cache : NodeCache K V
  reference : Reference K
  lastPut : K → Option V

variable [Inhabited V]

/-- The cache after a call. -/
def NodeCache.step (alloc : Allocator) (c : NodeCache K V) : Call K V → Option (NodeCache K V)
  | .get key => (c.get key).map Prod.snd
  | .put key value => c.put alloc key value
  | .setCapacity newCapacity => c.setCapacity newCapacity
  | .flush => some c.flush

/-- All calls. -/
def runSystem (alloc : Allocator) (capacity : ℕ) : TransitionSystem (Run K V) (Call K V) where
  init s := s = ⟨.construct capacity, ⟨capacity, []⟩, fun _ => none⟩
  step s call := (s.cache.step alloc call).map fun c => ⟨c, s.reference.step call,
    match call with
    | .put key value => update s.lastPut key (some value)
    | _ => s.lastPut⟩

/-- Capacities are positive. -/
def Positive (_ : Run K V) : Call K V → Prop
  | .setCapacity newCapacity => 0 < newCapacity
  | _ => True

/-- The cache has the keys of the reference, with their last values. -/
structure Run.Inv (s : Run K V) (a : LruCache K V) : Prop where
  refines : s.cache.Refines a
  reference : s.reference = ⟨a.capacity, a.keyList⟩
  lastPut : ∀ key value, a.lookup key = some value → s.lastPut key = some value
  length : a.keyList.length ≤ a.capacity
  positive : 0 < a.capacity

variable {s s' : Run K V} {a : LruCache K V} {alloc : Allocator} {capacity : ℕ}

omit [Inhabited V] in
theorem keyList_put {a a' : LruCache K V} {key : K} {value : V} (h : a.put key value = some a')
    (hlen : a.keyList.length ≤ a.capacity) (hpos : 0 < a.capacity) :
    a'.keyList = (key :: a.keyList.erase key).take a.capacity := by
  unfold LruCache.put at h
  split_ifs at h with hkey hfull
  · cases h
    rw [List.take_of_length_le]
    · rfl
    · rw [(List.perm_cons_erase hkey).symm.length_eq]
      exact hlen
  · split at h
    case h_1 => cases h
    case h_2 lruKey hlast =>
      cases h
      obtain ⟨n, hn⟩ := Nat.exists_eq_succ_of_ne_zero hpos.ne'
      rw [List.erase_of_not_mem hkey, hn, List.take_succ_cons, show n = a.keyList.length - 1 by omega,
        ← List.dropLast_eq_take]
      rfl
  · cases h
    rw [List.erase_of_not_mem hkey, List.take_of_length_le]
    · rfl
    · rw [List.length_cons]
      omega

/-- Every call succeeds, and does to the cache what it does to the reference. -/
theorem Run.Inv.step {call : Call K V} (h : s.Inv a) (hcall : Positive s call) :
    ∃ s' a', (runSystem alloc capacity).step s call = some s' ∧ s'.Inv a' := by
  obtain ⟨c, r, lastPut⟩ := s
  obtain ⟨hrefines, rfl, hlast, hlen, hpos⟩ := h
  cases call with
  | get key =>
    obtain ⟨c', hget, hrefines⟩ := hrefines.get key
    have hkeys : (a.get key).2.keyList =
        if key ∈ a.keyList then key :: a.keyList.erase key else a.keyList := by
      unfold LruCache.get
      split_ifs <;> rfl
    refine ⟨_, _, congrArg (Option.map _) (congrArg (Option.map Prod.snd) hget), hrefines, ?_, ?_, ?_,
      ?_⟩
    · rw [hkeys, LruCache.capacity_get]
      rfl
    · rw [LruCache.lookup_get]
      exact hlast
    · rw [hkeys, LruCache.capacity_get]
      split_ifs with hkey
      · rwa [(List.perm_cons_erase hkey).symm.length_eq]
      · exact hlen
    · rw [LruCache.capacity_get]
      exact hpos
  | put key value =>
    obtain ⟨a', hput⟩ := Option.isSome_iff_exists.1 (a.put_isSome hpos.ne' key value)
    obtain ⟨c', hput', hrefines⟩ := hrefines.put alloc hput
    have hkeys := keyList_put hput hlen hpos
    have hcap := LruCache.capacity_put hput
    refine ⟨_, a', congrArg (Option.map _) hput', hrefines, ?_, fun k v hv => ?_, ?_, hcap ▸ hpos⟩
    · rw [hkeys, hcap]
      rfl
    · rcases LruCache.lookup_put hput hv with ⟨rfl, rfl⟩ | ⟨hne, hv⟩
      · exact Function.update_self _ _ _
      · exact (update_of_ne hne _ _).trans (hlast k v hv)
    · rw [hkeys, hcap]
      exact List.length_take_le _ _
  | setCapacity newCapacity =>
    obtain ⟨c', a', hset, hrefines, rfl, hkeys, hlookup⟩ := hrefines.setCapacity hlen newCapacity
    refine ⟨_, a', congrArg (Option.map _) hset, hrefines, ?_,
      fun k v hv => hlast k v (hlookup k v hv), ?_, hcall⟩
    · rw [hkeys]
      rfl
    · rw [hkeys]
      exact List.length_take_le _ _
  | flush =>
    exact ⟨_, .construct a.capacity, rfl, ⟨hrefines.capacity, rfl, rfl, List.nodup_nil, by
      simp [NodeCache.flush, NodeCache.construct]⟩, rfl, by simp [LruCache.construct],
      Nat.zero_le _, hpos⟩

/-- **The cache is the reference**: after any calls with positive capacities, no iterator is dangling,
the three members have the keys that were used last, and a key has the value that was put last. -/
theorem cache_refines_reference (hcap : 0 < capacity)
    (h : (runSystem alloc capacity).Reachable Positive s) :
    (∀ call, Positive s call → ((runSystem alloc capacity).step s call).isSome) ∧
      s.cache.keyList.map Prod.snd = s.reference.keys ∧
      (s.reference.keys.Nodup ∧ s.reference.keys.length ≤ s.cache.capacity) ∧
      (∀ key, key ∈ s.reference.keys ↔ (s.cache.lookup key).isSome) ∧
      (∀ key it, s.cache.rlookup key = some it ↔ (it, key) ∈ s.cache.keyList) ∧
      ∀ key ∈ s.reference.keys, ∃ value c, s.lastPut key = some value ∧
        s.cache.get key = some (value, c) := by
  obtain ⟨a, hinv⟩ : ∃ a, s.Inv a := by
    refine h.invariant (I := fun s => ∃ a, s.Inv a) ?_ ?_
    · rintro _ rfl
      exact ⟨.construct capacity, ⟨rfl, rfl, rfl, List.nodup_nil, by simp [NodeCache.construct]⟩, rfl,
        nofun, Nat.zero_le _, hcap⟩
    · rintro s call s' ⟨a, ha⟩ hcall hs
      obtain ⟨t, a', ht, hinv⟩ := ha.step hcall
      cases hs.symm.trans ht
      exact ⟨a', hinv⟩
  have hrefines := hinv.refines
  rw [hrefines.keyList, hrefines.lookup, hrefines.capacity, hinv.reference]
  refine ⟨fun call hcall => ?_, rfl, ⟨a.nodup, hinv.length⟩, a.mem_keyList, hrefines.rlookup,
    fun key hkey => ?_⟩
  · obtain ⟨s', a', hs, -⟩ := hinv.step hcall
    rw [hs]
    rfl
  · obtain ⟨value, hvalue⟩ := Option.isSome_iff_exists.1 ((a.mem_keyList key).1 hkey)
    obtain ⟨c, hget, -⟩ := hrefines.get key
    rw [LruCache.get_fst, hvalue] at hget
    exact ⟨value, c, hinv.lastPut key value hvalue, hget⟩

/-- An address beyond all others. -/
def nextAddress : Allocator where
  address nodes := nodes.sum + 1
  fresh _ hmem := absurd (List.single_le_sum (fun _ _ => Nat.zero_le _) _ hmem) (Nat.not_succ_le_self _)

/-- The second key takes the place of the first. -/
theorem cache_refines_reference_two :
    ∃ s : Run ℕ ℕ, (runSystem nextAddress 1).Reachable Positive s ∧
      s.cache.keyList.map Prod.snd = [2] :=
  have h : (runSystem nextAddress 1).Reachable Positive _ :=
    .step (a := .put 2 20) (.step (a := .put 1 10) (.init rfl) trivial rfl) trivial rfl
  ⟨_, h, (cache_refines_reference Nat.one_pos h).2.1⟩

end Lru
