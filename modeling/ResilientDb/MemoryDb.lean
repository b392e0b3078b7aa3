/-
**The storage in memory.**

`MemoryDB` keeps three maps that do not know of each other: plain values, values with versions and
values with sequence numbers.  A snapshot lists the second one and is applied to the first one, so
that the second and the third are empty afterwards.

Main definitions:

* `Kv.MemoryDB` — the storage, with its functions as an instance of `Kv.Storage`;
* `Kv.MemoryDB.Blank` — no version was written, and no value is read by sequence number.

Main results:

* `Kv.MemoryDB.transfer_sameAnswers_iff` — a transfer keeps the answers of exactly the blank storages.
-/

import ResilientDb.KvStorage

set_option autoImplicit false

namespace Kv

open Wire (Bytes)

/-! ### Searching a history -/

/-- The loop that looks for a sequence number, the newest value first; 0 stops at the newest one. -/
def scanSeq (seq : ℕ) : List (Bytes × ℕ) → Option (Bytes × ℕ)
  | [] => none
  | e :: l => if e.2 = seq ∨ seq = 0 then some e else if e.2 < seq then none else scanSeq seq l

/-- The loop that looks for a version, the newest value first. -/
def scanVersion (version : ℤ) : List (Bytes × ℤ) → Option (Bytes × ℤ)
  | [] => none
  | e :: l => if e.2 = version then some e else if e.2 < version then none else scanVersion version l

/-- The loop of `GetHistory`, the newest value first. -/
def scanHistory (minVersion maxVersion : ℤ) : List (Bytes × ℤ) → List (Bytes × ℤ)
  | [] => []
  | e :: l =>
    if e.2 < minVersion then []
    else if e.2 ≤ maxVersion then e :: scanHistory minVersion maxVersion l
    else scanHistory minVersion maxVersion l

/-- The next version; the increment of the greatest `int` is undefined. -/
def nextVersion (version : ℤ) : Option ℤ := if version = 2 ^ 31 - 1 then none else some (version + 1)

/-- Drop the oldest values until at most `maxHistory` are left. -/
def trim {α : Type} (maxHistory : ℕ) (l : List α) : List α := l.drop (l.length - maxHistory)

/-- The values of a key with their versions, oldest first.  There is one as soon as there is a list. -/
structure VersionList where
  /-- The values. -/
  values : List (Bytes × ℤ)
  /-- A list is made with its first value. -/
  nonempty : values ≠ []
  deriving DecidableEq

/-- The newest value. -/
def VersionList.back (l : VersionList) : Bytes × ℤ := l.values.getLast l.nonempty

/-- `push_back`, also on the list that `operator[]` has just made. -/
def VersionList.pushBack (l : Option VersionList) (e : Bytes × ℤ) : VersionList :=
  ⟨(l.map VersionList.values).getD [] ++ [e], by simp⟩

/-! ### The storage -/

/-- `MemoryDB`.  Nothing depends on the order in which its hash maps are traversed. -/
structure MemoryDB where
  /-- The plain view. -/
  kvMap : OrderedMap Bytes Bytes := .empty
  /-- The view with versions. -/
  kvMapWithV : OrderedMap Bytes VersionList := .empty
  /-- The view with sequence numbers, oldest value first. -/
  kvMapWithSeq : OrderedMap Bytes (List (Bytes × ℕ)) := .empty
  /-- How many values with sequence numbers a key keeps. -/
  maxHistory : ℕ := 10
  deriving DecidableEq

namespace MemoryDB

/-- `SetValue`. -/
def setValue (st : MemoryDB) (key value : Bytes) : ℤ × MemoryDB :=
  (0, { st with kvMap := st.kvMap.set key value })

/-- The entry is added and the oldest ones are dropped. -/
def pushSeq (st : MemoryDB) (key : Bytes) (l : List (Bytes × ℕ)) : MemoryDB :=
  { st with kvMapWithSeq := st.kvMapWithSeq.set key (trim st.maxHistory l) }

/-- `SetValueWithSeq`.  With `maxHistory = 0` a list may be empty, and then `back` is undefined. -/
def setValueWithSeq (st : MemoryDB) (key value : Bytes) (seq : ℕ) : Option (ℤ × MemoryDB) :=
  match st.kvMapWithSeq.find? key with
  | none => some (0, st.pushSeq key [(value, seq)])
  | some l =>
    match l.getLast? with
    | none => none
    | some last =>
      if last.2 > seq then some (-2, st) else some (0, st.pushSeq key (l ++ [(value, seq)]))

/-- `GetValueWithSeq`. -/
def getValueWithSeq (st : MemoryDB) (key : Bytes) (seq : ℕ) : Bytes × ℕ :=
  ((st.kvMapWithSeq.find? key).bind fun l => scanSeq seq l.reverse).getD ([], 0)

/-- `SetValueWithVersion`. -/
def setValueWithVersion (st : MemoryDB) (key value : Bytes) (version : ℤ) : Option (ℤ × MemoryDB) :=
  let l := st.kvMapWithV.find? key
  if (l.map fun l => l.back.2).getD 0 ≠ version then some (-2, st)
  else
    (nextVersion version).map fun next =>
      (0, { st with kvMapWithV := st.kvMapWithV.set key (VersionList.pushBack l (value, next)) })

/-- `GetValueWithVersion`. -/
def getValueWithVersion (st : MemoryDB) (key : Bytes) (version : ℤ) : Bytes × ℤ :=
  match st.kvMapWithV.find? key with
  | none => ([], 0)
  | some l => (scanVersion version l.values.reverse).getD l.back

/-- `GetAllItems`. -/
def getAllItems (st : MemoryDB) : OrderedMap Bytes (Bytes × ℤ) :=
  st.kvMapWithV.filterMap fun _ l => some l.back

/-- `GetKeyRange`. -/
def getKeyRange (st : MemoryDB) (minKey maxKey : Bytes) : OrderedMap Bytes (Bytes × ℤ) :=
  st.kvMapWithV.filterMap fun key l =>
    if minKey ≤ key ∧ key ≤ maxKey then some l.back else none

/-- `GetHistory`. -/
def getHistory (st : MemoryDB) (key : Bytes) (minVersion maxVersion : ℤ) : List (Bytes × ℤ) :=
  match st.kvMapWithV.find? key with
  | none => []
  | some l => scanHistory minVersion maxVersion l.values.reverse

/-- `GetTopHistory`.  The loop adds a value before it looks at the number, and a negative number is a
large one as `size_t`. -/
def getTopHistory (st : MemoryDB) (key : Bytes) (topNumber : ℤ) : List (Bytes × ℤ) :=
  match st.kvMapWithV.find? key with
  | none => []
  | some l =>
    if topNumber < 0 then l.values.reverse else l.values.reverse.take (max 1 topNumber.toNat)

/-- `Clear`. -/
def clear (st : MemoryDB) : MemoryDB :=
  { st with
    kvMap := .empty
    kvMapWithV := .empty
    kvMapWithSeq := .empty }

instance : Storage MemoryDB where
  setValue st key value := some (st.setValue key value)
  setValueWithSeq := setValueWithSeq
  getValueWithSeq st key seq := (st.getValueWithSeq key seq, st)
  setValueWithVersion := setValueWithVersion
  getValueWithVersion st key version := (st.getValueWithVersion key version, st)
  getAllItems := getAllItems
  getKeyRange := getKeyRange
  getHistory st key minVersion maxVersion := (st.getHistory key minVersion maxVersion, st)
  getTopHistory st key topNumber := (st.getTopHistory key topNumber, st)
  clear := clear
  flush st := st

/-! ### What a transfer does -/

/-- No version was written, and the latest value of every key with sequence numbers is the answer for
a key without one. -/
def Blank (st : MemoryDB) : Prop :=
  st.kvMapWithV.entries = [] ∧
    ∀ e ∈ st.kvMapWithSeq.entries, e.2.getLast?.getD ([], 0) = ([], 0)

instance (st : MemoryDB) : Decidable st.Blank :=
  inferInstanceAs (Decidable (st.kvMapWithV.entries = [] ∧ ∀ e ∈ st.kvMapWithSeq.entries, _))

/-- A storage that was just made: it has settings, and nothing else. -/
def Fresh (st : MemoryDB) : Prop := st = { maxHistory := st.maxHistory }

theorem applyItems_views : ∀ (fuel : ℕ) (raw : Bytes) (st : MemoryDB),
    ∃ st', applyItems fuel raw st = some st' ∧ st'.kvMapWithV = st.kvMapWithV ∧
      st'.kvMapWithSeq = st.kvMapWithSeq
  | 0, _, st => ⟨st, rfl, rfl, rfl⟩
  | fuel + 1, raw, st => by
    rw [applyItems]
    cases readItem raw with
    | none => exact ⟨st, rfl, rfl, rfl⟩
    | some item => exact applyItems_views fuel item.2 (st.setValue item.1.1 item.1.2).2

theorem transfer_views (src dst : MemoryDB) :
    ∃ dst', transfer src dst = some dst' ∧ dst'.kvMapWithV = .empty ∧ dst'.kvMapWithSeq = .empty := by
  obtain ⟨st, hst, hv, hseq⟩ :=
    applyItems_views (serializeSnapshot src).length (serializeSnapshot src) dst.clear
  exact ⟨st, Option.map_eq_some_iff.2 ⟨st, hst, rfl⟩, hv, hseq⟩

theorem getValueWithSeq_zero (st : MemoryDB) (key : Bytes) : st.getValueWithSeq key 0 =
      ((st.kvMapWithSeq.find? key).bind List.getLast?).getD ([], 0) := by
  have hscan : ∀ l : List (Bytes × ℕ), scanSeq 0 l.reverse = l.getLast? := by
    intro l
    rw [← List.head?_reverse]
    cases l.reverse with
    | nil => rfl
    | cons e l => simp [scanSeq]
  simp only [getValueWithSeq, hscan]

theorem Blank.getValueWithSeq {st : MemoryDB} (h : st.Blank) (key : Bytes) :
    st.getValueWithSeq key 0 = ([], 0) := by
  rw [getValueWithSeq_zero]
  cases hl : st.kvMapWithSeq.find? key with
  | none => rfl
  | some l => exact h.2 (key, l) (OrderedMap.mem_of_find? hl)

theorem getValueWithVersion_of_nil {st : MemoryDB} (h : st.kvMapWithV.entries = []) (key : Bytes)
    (version : ℤ) : st.getValueWithVersion key version = ([], 0) := by
  simp [getValueWithVersion, OrderedMap.find?, h]

theorem getKeyRange_of_nil {st : MemoryDB} (h : st.kvMapWithV.entries = []) (minKey maxKey : Bytes) :
    st.getKeyRange minKey maxKey = .empty := by
  refine OrderedMap.filterMap_eq_empty fun e he => ?_
  rw [h] at he
  cases he

theorem transfer_sameAnswers_iff (src dst : MemoryDB) :
    (∃ dst', transfer src dst = some dst' ∧ SameAnswers src dst') ↔ src.Blank := by
  obtain ⟨dst', hdst, hv, hseq⟩ := transfer_views src dst
  have hblank : dst'.Blank := by
    rw [Blank, hv, hseq]
    exact ⟨rfl, nofun⟩
  constructor
  · rintro ⟨dst'', hdst'', hseqs, -, hrange⟩
    obtain rfl : dst' = dst'' := Option.some.inj (hdst.symm.trans hdst'')
    constructor
    · -- a key with versions would be in its own range
      refine List.eq_nil_iff_forall_not_mem.2 fun e he => ?_
      have hmem : (e.1, e.2.back) ∈ (src.getKeyRange e.1 e.1).entries :=
        OrderedMap.mem_filterMap.2 ⟨e.2, he, by simp⟩
      rw [show src.getKeyRange e.1 e.1 = dst'.getKeyRange e.1 e.1 from hrange e.1 e.1,
        getKeyRange_of_nil hblank.1] at hmem
      exact List.not_mem_nil hmem
    · intro e he
      have hread : src.getValueWithSeq e.1 0 = dst'.getValueWithSeq e.1 0 := hseqs e.1
      rw [hblank.getValueWithSeq, getValueWithSeq_zero, OrderedMap.find?_of_mem he] at hread
      exact hread
  · intro h
    refine ⟨dst', hdst, ?_, ?_, ?_⟩
    · intro key
      exact (h.getValueWithSeq key).trans (hblank.getValueWithSeq key).symm
    · intro key
      exact (getValueWithVersion_of_nil h.1 key 0).trans
        (getValueWithVersion_of_nil hblank.1 key 0).symm
    · intro minKey maxKey
      exact (getKeyRange_of_nil h.1 minKey maxKey).trans
        (getKeyRange_of_nil hblank.1 minKey maxKey).symm

end MemoryDB

end Kv
