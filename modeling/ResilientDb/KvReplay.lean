/-
**Executing committed batches again.**

After a crash, recovery executes the batches of the log from a checkpoint on, over a storage that may
have their effects already.  Executing the last batches twice leaves the latest values as they are, in
memory and on disk, unless a request was rejected the first time because it named a version that its
key had not reached yet: the second time the key may be there, and the request is accepted.

On disk the two kinds of writes share one history, writes have to reach leveldb before the next read,
and a message of 2 GiB is not written.

Main definitions:

* `Kv.MemoryDB.cellModel` — two cells for a key, one for each kind of write;
* `Kv.ResLevelDB.cellModel` — one cell for a key.

Main results:

* `Kv.replay_idempotent` — repeating the last batches changes no answer, if no write was ahead;
* `Kv.replay_idempotent_fails` — a rejected write that is accepted the second time.
-/

import ResilientDb.KvCells
import ResilientDb.SnapshotTransfer

set_option autoImplicit false

namespace Kv

open OrderedMap (ext_find? find?_filterMap find?_set)
open Function (update update_apply update_eq_self update_of_ne update_self)
open Option (bind_some getD_some map_eq_some_iff map_some)
open Wire (Bytes ofText)

/-- The newest value stays when old ones are dropped. -/
theorem getLast?_trim {α : Type} {maxHistory : ℕ} (h : maxHistory ≠ 0) (l : List α) (x : α) :
    (trim maxHistory (l ++ [x])).getLast? = some x := by
  have hle : (l ++ [x]).length - maxHistory ≤ l.length := by
    rw [List.length_append, List.length_singleton]
    omega
  rw [trim, List.drop_append_of_le_length hle, List.getLast?_append]
  rfl

/-- The newest value after a write. -/
theorem Write.getLast?_extend {maxHistory : ℕ} (w : Write) (h : w.version = none → maxHistory ≠ 0)
    (vs : List Value) : (w.extend maxHistory vs).getLast? = w.next vs.getLast? := by
  unfold Write.extend Write.next
  split
  · next hw =>
    split_ifs
    · rfl
    · exact getLast?_trim (h hw) _ _
  · split_ifs
    · rfl
    · exact List.getLast?_concat

theorem getLast?_update {ι : Type} [DecidableEq ι] {f : ι → List Value} {g : ι → Option Value}
    (hfg : ∀ i, g i = (f i).getLast?) (i : ι) (vs : List Value) :
    (fun j => (update f i vs j).getLast?) = update g i vs.getLast? := by
  funext j
  rw [update_apply, update_apply]
  split_ifs
  · rfl
  · exact (hfg j).symm

/-! ### In memory -/

namespace MemoryDB

/-- The lists are not empty, and versions are positive. -/
structure ReplayInv (st : MemoryDB) : Prop where
  seqs : ∀ {key : Bytes} {l : List (Bytes × ℕ)}, st.kvMapWithSeq.find? key = some l → l ≠ []
  versions : ∀ {key : Bytes} {l : VersionList}, st.kvMapWithV.find? key = some l →
    ∀ e ∈ l.values, 0 < e.2

/-- The last value of a key with a version, or the last one with a sequence number. -/
def cell (st : MemoryDB) : Bytes × Bool → Option Value
  | (key, true) =>
    (st.kvMapWithV.find? key).map fun l => { value := l.back.1, version := l.back.2 }
  | (key, false) =>
    ((st.kvMapWithSeq.find? key).bind List.getLast?).map fun e => { value := e.1, seq := e.2 }

/-- The values of a key with versions, or with sequence numbers. -/
def storedValues (st : MemoryDB) : Bytes × Bool → List Value
  | (key, true) =>
    ((st.kvMapWithV.find? key).map fun l =>
      l.values.map fun e => { value := e.1, version := e.2 }).getD []
  | (key, false) =>
    ((st.kvMapWithSeq.find? key).map fun l =>
      l.map fun e => { value := e.1, seq := e.2 }).getD []

variable {st : MemoryDB} {key value : Bytes}

/-- The cell of a key is the newest value that is stored for it. -/
theorem cell_eq (st : MemoryDB) : ∀ slot, st.cell slot = (st.storedValues slot).getLast?
  | (key, true) => by
    rw [cell, storedValues]
    cases st.kvMapWithV.find? key with
    | none => rfl
    | some l =>
      rw [map_some, map_some, getD_some, List.getLast?_map,
        List.getLast?_eq_some_getLast l.nonempty]
      rfl
  | (key, false) => by
    rw [cell, storedValues]
    cases st.kvMapWithSeq.find? key with
    | none => rfl
    | some l => rw [bind_some, map_some, getD_some, List.getLast?_map]

theorem trim_map {α β : Type} (maxHistory : ℕ) (f : α → β) (l : List α) :
    trim maxHistory (l.map f) = (trim maxHistory l).map f := by
  rw [trim, trim, List.length_map, List.map_drop]

theorem ReplayInv.pushSeq (h : ReplayInv st) (hmax : st.maxHistory ≠ 0) (l : List (Bytes × ℕ))
    (seq : ℕ) : ReplayInv (st.pushSeq key (l ++ [(value, seq)])) ∧
      (st.pushSeq key (l ++ [(value, seq)])).storedValues =
        update st.storedValues (key, false) (trim st.maxHistory
          (l.map (fun e => { value := e.1, seq := e.2 }) ++ [{ value := value, seq := seq }])) := by
  constructor
  · refine ⟨fun {k l'} hl' => ?_, h.versions⟩
    rw [MemoryDB.pushSeq, find?_set] at hl'
    split_ifs at hl' with hk
    · cases hl'
      intro hnil
      have hlast := getLast?_trim hmax l (value, seq)
      rw [hnil] at hlast
      cases hlast
    · exact h.seqs hl'
  · funext slot
    obtain ⟨k, kind⟩ := slot
    cases kind with
    | true => rw [update_of_ne (by simp)]; rfl
    | false =>
      by_cases hk : k = key
      · rw [hk, update_self, storedValues, MemoryDB.pushSeq, find?_set,
          if_pos rfl, map_some, ← trim_map, List.map_append]
        rfl
      · rw [update_of_ne (by simp [hk]), storedValues, MemoryDB.pushSeq, find?_set, if_neg hk]
        rfl

theorem ReplayInv.setValueWithSeq (h : ReplayInv st) (hmax : st.maxHistory ≠ 0) (w : Write)
    (hw : w.version = none) : ∃ r, st.setValueWithSeq w.key w.value w.seq = some r ∧ ReplayInv r.2 ∧
      r.2.maxHistory = st.maxHistory ∧ r.2.storedValues = update st.storedValues (w.key, false)
        (w.extend st.maxHistory (st.storedValues (w.key, false))) := by
  unfold MemoryDB.setValueWithSeq Write.extend
  rw [hw, ← cell_eq]
  cases hl : st.kvMapWithSeq.find? w.key with
  | none =>
    have hcell : st.cell (w.key, false) = none := by
      rw [cell, hl]
      rfl
    have hvalues : st.storedValues (w.key, false) = [] := by
      rw [storedValues, hl]
      rfl
    rw [hcell, if_neg (show ¬ w.seq < cellSeq none from Nat.not_lt_zero _), hvalues]
    exact ⟨_, rfl, (h.pushSeq hmax [] w.seq).1, rfl, (h.pushSeq hmax [] w.seq).2⟩
  | some l =>
    obtain ⟨last, hlast⟩ := Option.ne_none_iff_exists'.1
      (mt List.getLast?_eq_none_iff.1 (h.seqs hl))
    have hseq : cellSeq (st.cell (w.key, false)) = last.2 := by
      rw [cell, hl, bind_some, hlast]
      rfl
    have hvalues : st.storedValues (w.key, false) =
        l.map fun e => { value := e.1, seq := e.2 } := by
      rw [storedValues, hl]
      rfl
    dsimp only
    rw [hlast, hseq]
    dsimp only
    split_ifs with hlt
    · refine ⟨_, rfl, h, rfl, ?_⟩
      rw [update_eq_self]
    · rw [hvalues]
      exact ⟨_, rfl, (h.pushSeq hmax l w.seq).1, rfl, (h.pushSeq hmax l w.seq).2⟩

theorem cellVersion_cell (st : MemoryDB) (key : Bytes) :
    cellVersion (st.cell (key, true)) = ((st.kvMapWithV.find? key).map fun l => l.back.2).getD 0 := by
  rw [cell, cellVersion]
  cases st.kvMapWithV.find? key <;> rfl

theorem ReplayInv.setValueWithVersion (h : ReplayInv st) (w : Write) {version : ℤ}
    (hw : w.version = some version) {r : ℤ × MemoryDB}
    (hs : st.setValueWithVersion w.key w.value version = some r) :
    ReplayInv r.2 ∧ r.2.maxHistory = st.maxHistory ∧
      r.2.storedValues = update st.storedValues (w.key, true)
        (w.extend st.maxHistory (st.storedValues (w.key, true))) := by
  unfold MemoryDB.setValueWithVersion at hs
  dsimp only at hs
  rw [Write.extend, hw, ← cell_eq]
  dsimp only
  rw [cellVersion_cell]
  split_ifs at hs with hne
  · cases hs
    rw [if_pos hne, update_eq_self]
    exact ⟨h, rfl, rfl⟩
  · obtain ⟨next, hnext, rfl⟩ := map_eq_some_iff.1 hs
    rw [if_neg hne]
    unfold nextVersion at hnext
    split_ifs at hnext
    cases hnext
    refine ⟨⟨h.seqs, fun {k l} hl e he => ?_⟩, rfl, ?_⟩
    · rw [find?_set] at hl
      split_ifs at hl with hk
      · cases hl
        -- the new version is the successor of the last one, or of 0
        rcases List.mem_append.1 he with he | he
        · cases hold : st.kvMapWithV.find? w.key with
          | none =>
            rw [hold] at he
            cases he
          | some l =>
            rw [hold] at he
            exact h.versions hold e he
        · rw [List.mem_singleton.1 he]
          have hversion := not_not.1 hne
          cases hold : st.kvMapWithV.find? w.key with
          | none =>
            rw [hold] at hversion
            rw [← hversion]
            exact Int.zero_lt_one
          | some l =>
            rw [hold] at hversion
            have hpos := h.versions hold l.back (List.getLast_mem l.nonempty)
            rw [← hversion]
            exact hpos.trans (lt_add_one _)
      · exact h.versions hl e he
    · funext slot
      obtain ⟨k, kind⟩ := slot
      cases kind with
      | false => rw [update_of_ne (by simp)]; rfl
      | true =>
        by_cases hk : k = w.key
        · rw [hk, update_self, storedValues, storedValues, find?_set, VersionList.pushBack]
          cases st.kvMapWithV.find? w.key <;> simp
        · rw [update_of_ne (by simp [hk]), storedValues, find?_set, if_neg hk]
          rfl

theorem ReplayInv.apply (h : ReplayInv st) {w : Write} {r : ℤ × MemoryDB}
    (hmax : w.version = none → st.maxHistory ≠ 0) (hs : w.apply st = some r) :
    ReplayInv r.2 ∧ r.2.maxHistory = st.maxHistory ∧
      r.2.storedValues = update st.storedValues (w.key, w.version.isSome)
        (w.extend st.maxHistory (st.storedValues (w.key, w.version.isSome))) := by
  unfold Write.apply at hs
  split at hs
  · rename_i hw
    obtain ⟨r', hr', hspec⟩ := h.setValueWithSeq (hmax hw) w hw
    obtain rfl : r' = r := Option.some.inj (hr'.symm.trans hs)
    rw [hw]
    exact hspec
  · rename_i version hw
    rw [hw]
    exact h.setValueWithVersion w hw hs

theorem cell_extend {st' : MemoryDB} {w : Write} {slot : Bytes × Bool}
    (hmax : w.version = none → st.maxHistory ≠ 0) (hvalues : st'.storedValues =
      update st.storedValues slot (w.extend st.maxHistory (st.storedValues slot))) :
    st'.cell = update st.cell slot (w.next (st.cell slot)) := by
  rw [funext st'.cell_eq, hvalues, getLast?_update st.cell_eq, w.getLast?_extend hmax,
    st.cell_eq slot]

/-- Version 0 asks for the newest value. -/
theorem ReplayInv.getValueWithVersion_zero (h : ReplayInv st) (key : Bytes) :
    st.getValueWithVersion key 0 =
      ((st.cell (key, true)).map fun v => (v.value, v.version)).getD ([], 0) := by
  -- no version is 0, and so the search finds none
  have hscan : ∀ l : List (Bytes × ℤ), (∀ e ∈ l, 0 < e.2) → scanVersion 0 l = none := by
    intro l hl
    induction l with
    | nil => rfl
    | cons e l ih =>
      have hpos := hl e List.mem_cons_self
      rw [scanVersion, if_neg hpos.ne', if_neg hpos.not_gt]
      exact ih fun e he => hl e (List.mem_cons_of_mem _ he)
  unfold getValueWithVersion
  rw [cell]
  cases hl : st.kvMapWithV.find? key with
  | none => rfl
  | some l =>
    dsimp only
    rw [hscan _ fun e he => h.versions hl e (List.mem_reverse.1 he)]
    rfl

theorem getValueWithSeq_cell (st : MemoryDB) (key : Bytes) : st.getValueWithSeq key 0 =
      ((st.cell (key, false)).map fun v => (v.value, v.seq)).getD ([], 0) := by
  rw [getValueWithSeq_zero, cell]
  cases (st.kvMapWithSeq.find? key).bind List.getLast? <;> rfl

theorem find?_getKeyRange (st : MemoryDB) (minKey maxKey key : Bytes) :
    (st.getKeyRange minKey maxKey).find? key = (st.cell (key, true)).bind fun v =>
      if minKey ≤ key ∧ key ≤ maxKey then some (v.value, v.version) else none := by
  rw [getKeyRange, find?_filterMap, cell]
  cases st.kvMapWithV.find? key <;> rfl

/-- **In memory, a key has two cells.** -/
def cellModel : CellModel MemoryDB (Bytes × Bool) where
  inv := fun st => ReplayInv st ∧ st.maxHistory ≠ 0
  cell := cell
  slot := fun w => (w.key, w.version.isSome)
  ok := fun _ _ => True
  reads := fun c => ⟨fun _ _ h => h, fun _ _ h => h, fun _ _ _ h => h, fun _ _ h => h⟩
  write := fun {st w r} h _ hs => by
    obtain ⟨hinv, hmax, hvalues⟩ := h.1.apply (fun _ => h.2) hs
    exact ⟨⟨hinv, hmax ▸ h.2⟩, cell_extend (fun _ => h.2) hvalues⟩
  defined := fun {st w} h _ hversion => by
    unfold Write.apply
    split
    · rename_i hw
      obtain ⟨r, hr, -⟩ := h.1.setValueWithSeq h.2 w hw
      exact Option.isSome_iff_exists.2 ⟨r, hr⟩
    · rename_i version hw
      change (st.setValueWithVersion w.key w.value version).isSome
      unfold MemoryDB.setValueWithVersion nextVersion
      dsimp only
      split_ifs with hne hmax
      · rfl
      · rw [hw, hmax] at hversion
        exact absurd rfl hversion
      · rfl
  current := fun {st w} h hw => by
    change (st.getValueWithVersion w.key 0).2 = _
    rw [h.1.getValueWithVersion_zero, hw]
    cases st.cell (w.key, true) <;> rfl
  answers := fun {st st'} h h' hcell => by
    refine ⟨fun key => ?_, fun key => ?_, fun minKey maxKey => ?_⟩
    · change st.getValueWithSeq key 0 = st'.getValueWithSeq key 0
      rw [getValueWithSeq_cell, getValueWithSeq_cell, hcell]
    · change st.getValueWithVersion key 0 = st'.getValueWithVersion key 0
      rw [h.1.getValueWithVersion_zero, h'.1.getValueWithVersion_zero, hcell]
    · refine ext_find? fun key => ?_
      change (st.getKeyRange minKey maxKey).find? key = (st'.getKeyRange minKey maxKey).find? key
      rw [find?_getKeyRange, find?_getKeyRange, hcell]

theorem Fresh.replayInv (h : st.Fresh) : ReplayInv st := by
  rw [h]
  constructor
  · intro key l hl
    cases hl
  · intro key l hl
    cases hl

theorem Fresh.cell (h : st.Fresh) (slot : Bytes × Bool) : st.cell slot = none := by
  rw [h]
  obtain ⟨key, kind⟩ := slot
  cases kind <;> rfl

end MemoryDB

/-! ### On disk -/

namespace ValueHistory

variable {history : ValueHistory}

theorem Plain.lastVersion (hplain : history.Plain) :
    -2 ^ 31 ≤ history.lastVersion ∧ history.lastVersion < 2 ^ 31 := by
  rw [ValueHistory.lastVersion]
  cases hlast : history.value.getLast? with
  | none => exact ⟨by norm_num, by norm_num⟩
  | some last => exact (hplain.1 last (List.mem_of_getLast? hlast)).1

/-- A value with a sequence number is put at the end of a plain history. -/
theorem withSeq_spec (hplain : history.Plain) {maxHistory : ℕ} (hmax : maxHistory ≠ 0)
    (value : Bytes) {seq : ℕ} (hseq : seq < 2 ^ 64) : (history.withSeq maxHistory value seq).Plain ∧
      (history.withSeq maxHistory value seq).value.getLast? = some { value := value, seq := seq } ∧
      (history.withSeq maxHistory value seq).size ≤ history.size + value.length + 80 := by
  have hsub : (history.withSeq maxHistory value seq).value.Sublist
      (history.value ++ [{ value := value, seq := seq }]) := List.drop_sublist _ _
  refine ⟨⟨fun v hv => ?_, hplain.2⟩, getLast?_trim hmax _ _, ?_⟩
  · rcases List.mem_append.1 (hsub.subset hv) with hv | hv
    · exact hplain.1 v hv
    · rw [List.mem_singleton.1 hv]
      exact ⟨by norm_num, hseq, rfl⟩
  · have hsum := (hsub.map fun v : Value => v.value.length + 80).sum_le_sum (by simp)
    rw [List.map_append, List.sum_append] at hsum
    exact hsum

/-- So is one with a version. -/
theorem withVersion_spec (hplain : history.Plain) (value : Bytes) {version : ℤ}
    (hversion : -2 ^ 31 ≤ version ∧ version < 2 ^ 31) : (history.withVersion value version).Plain ∧
      (history.withVersion value version).value.getLast? =
        some { value := value, version := version } ∧
      (history.withVersion value version).size = history.size + value.length + 80 := by
  refine ⟨⟨fun v hv => ?_, hplain.2⟩, List.getLast?_concat, ?_⟩
  · rcases List.mem_append.1 hv with hv | hv
    · exact hplain.1 v hv
    · rw [List.mem_singleton.1 hv]
      exact ⟨hversion, by norm_num, rfl⟩
  · rw [size, withVersion, List.map_append, List.sum_append]
    rfl

end ValueHistory

namespace ResLevelDB

variable {env : LevelDbEnv} {st : ResLevelDB env} {key value : Bytes}

/-- Every write reaches the write batch size, and so leveldb, at once. -/
def WritesThrough (st : ResLevelDB env) : Prop :=
  ∀ e : Bytes × Bytes, st.writeBatchSize ≤ env.approximateSize [e]

/-- No write is pending, and none is refused by the cache. -/
structure Direct (st : ResLevelDB env) : Prop where
  level : LevelInv st
  batch : st.batch = []
  through : st.WritesThrough
  room : st.CacheRoom

theorem Direct.latest (h : Direct st) (key : Bytes) : st.latest key = st.db.find? key := by
  rw [ResLevelDB.latest, h.batch]
  rfl

variable {r : ℤ × ResLevelDB env}

theorem setValue_settings (hs : st.setValue key value = some r) :
    r.2.writeBatchSize = st.writeBatchSize ∧ r.2.maxHistory = st.maxHistory ∧
      (st.batch = [] → st.WritesThrough → r.2.batch = []) := by
  obtain ⟨cache, -, rfl⟩ := map_eq_some_iff.1 hs
  dsimp only
  split_ifs with hsize
  · exact ⟨rfl, rfl, fun _ _ => rfl⟩
  · refine ⟨rfl, rfl, fun hbatch hthrough => absurd ?_ hsize⟩
    rw [hbatch]
    exact hthrough (key, value)

theorem direct_rule (env : LevelDbEnv) : WriteRule env Direct fun key => key.length < 2 ^ 32 where
  ckpt := (levelInv_rule env).ckpt
  getValue := fun {st} key h => by
    have hlevel := h.level.getValue key
    have hroom := (cacheRoom_rule env).getValue key h.room
    rcases getValue_snd st key with hsnd | ⟨cache, -, hsnd⟩
    · rw [hsnd]
      exact h
    · rw [hsnd] at hlevel hroom ⊢
      exact ⟨hlevel, h.batch, h.through, hroom⟩
  settings := fun _ _ h =>
    ⟨(levelInv_rule env).settings _ _ h.level, h.batch, h.through, h.room⟩
  setValue := fun {st key value r} h hkey hs => by
    obtain ⟨hsize, -, hbatch⟩ := setValue_settings hs
    refine ⟨h.level.setValue hkey hs, hbatch h.batch h.through, ?_,
      (cacheRoom_rule env).setValue h.room trivial hs⟩
    rw [WritesThrough, hsize]
    exact h.through

/-- A write goes through to the database. -/
theorem Direct.find?_setValue (h : Direct st) (hkey : key.length < 2 ^ 32)
    (hs : st.setValue key value = some r) (k : Bytes) :
    r.2.db.find? k = if k = key then some value else st.db.find? k := by
  rw [← ((direct_rule env).setValue h hkey hs).latest, (setValue_spec hs).1, h.latest]

/-- The histories are those that were written. -/
structure ReplayInv (st : ResLevelDB env) : Prop where
  direct : Direct st
  stored : ∀ key, key ≠ ckptKey →
    ∃ h, env.codec.parse ((st.db.find? key).getD []) = some h ∧ h.Plain
  ckpt : st.lastValue ckptKey = none

/-- The values of a key, the oldest first. -/
def storedValues (st : ResLevelDB env) (key : Bytes) : List Value :=
  ((env.codec.parse ((st.db.find? key).getD [])).map ValueHistory.value).getD []

theorem lastValue_eq (st : ResLevelDB env) (key : Bytes) :
    st.lastValue key = (st.storedValues key).getLast? := by
  rw [lastValue, storedValues]
  cases env.codec.parse ((st.db.find? key).getD []) <;> rfl

variable {st' : ResLevelDB env}

theorem lastValue_of_storedValues (h : st'.storedValues = st.storedValues) :
    st'.lastValue = st.lastValue := by
  funext key
  rw [lastValue_eq, lastValue_eq, h]

section

variable (h : ReplayInv st)
include h

theorem ReplayInv.storedValues_ckptKey : st.storedValues ckptKey = [] := by
  rw [← List.getLast?_eq_none_iff, ← lastValue_eq]
  exact h.ckpt

theorem ReplayInv.congr (hdirect : Direct st')
    (hdb : st'.db = st.db) : ReplayInv st' ∧ st'.storedValues = st.storedValues := by
  have hvalues : st'.storedValues = st.storedValues := by
    funext key
    rw [storedValues, storedValues, hdb]
  refine ⟨⟨hdirect, fun key hkey => ?_, ?_⟩, hvalues⟩
  · rw [hdb]
    exact h.stored key hkey
  · rw [lastValue_of_storedValues hvalues]
    exact h.ckpt

theorem ReplayInv.getValue (key : Bytes) :
    ReplayInv (st.getValue key).2 ∧ (st.getValue key).2.storedValues = st.storedValues := by
  refine h.congr ((direct_rule env).getValue key h.direct) ?_
  rcases getValue_snd st key with hsnd | ⟨cache, -, hsnd⟩ <;> rw [hsnd]

theorem ReplayInv.getValue_fst (key : Bytes) : (st.getValue key).1 = (st.db.find? key).getD [] :=
  h.direct.level.getValue_fst h.direct.batch key

/-- The checkpoint has a key of its own. -/
theorem ReplayInv.updateLastCkpt (hcodec : env.codec.Fits) {seq : ℕ}
    (hs : st.updateLastCkpt seq = some st') :
    ReplayInv st' ∧ st'.storedValues = st.storedValues := by
  have hdirect := (direct_rule env).updateLastCkpt h.direct hs
  obtain ⟨lastCkpt, updateTime, rfl | ⟨r, hr, rfl⟩⟩ := updateLastCkpt_cases hs
  · exact h.congr hdirect rfl
  · have hfind := ((direct_rule env).settings lastCkpt updateTime h.direct).find?_setValue
      (direct_rule env).ckpt hr
    have hvalues : ({ r.2 with updateTime := 0 } : ResLevelDB env).storedValues = st.storedValues := by
      funext key
      by_cases hkey : key = ckptKey
      · rw [hkey, h.storedValues_ckptKey, storedValues]
        rw [hfind, if_pos rfl, getD_some]
        cases hparse : env.codec.parse (ofText (toString lastCkpt)) with
        | none => rfl
        | some history => exact hcodec.parse_decimal hparse
      · rw [storedValues, storedValues]
        rw [hfind, if_neg hkey]
    refine ⟨⟨hdirect, fun key hkey => ?_, ?_⟩, hvalues⟩
    · rw [hfind, if_neg hkey]
      exact h.stored key hkey
    · rw [lastValue_of_storedValues hvalues]
      exact h.ckpt

theorem ReplayInv.setValue (hcodec : env.codec.Fits) {w : Write}
    {history : ValueHistory} {v : Value} (hplain : history.Plain)
    (hlast : history.value.getLast? = some v) (hsize : history.size < 2 ^ 31) (hkey : w.key ≠ ckptKey)
    (hs : st.setValue w.key (env.codec.serialize history) = some r) :
    ReplayInv r.2 ∧ r.2.storedValues = update st.storedValues w.key history.value := by
  have hlen : w.key.length < 2 ^ 32 := w.key_size.trans (by norm_num)
  have hfind := h.direct.find?_setValue hlen hs
  have hne : history.value ≠ [] := List.ne_nil_of_mem (List.mem_of_getLast? hlast)
  have hparse : env.codec.parse (env.codec.serialize history) = some history :=
    (env.codec.parse_serialize hplain).resolve_left (hcodec.serialize_ne_nil hplain hne hsize)
  have hvalues : r.2.storedValues = update st.storedValues w.key history.value := by
    funext k
    rw [update_apply, storedValues, hfind]
    split_ifs with hk
    · rw [getD_some, hparse]
      rfl
    · rfl
  refine ⟨⟨(direct_rule env).setValue h.direct hlen hs, fun k hk => ?_, ?_⟩, hvalues⟩
  · rw [hfind]
    split_ifs with hkk
    · exact ⟨history, hparse, hplain⟩
    · exact h.stored k hk
  · rw [lastValue_eq, hvalues, update_of_ne hkey.symm, ← lastValue_eq]
    exact h.ckpt

/-- The size of the history of a key. -/
def historySize (st : ResLevelDB env) (key : Bytes) : ℕ :=
  ((env.codec.parse (st.getValue key).1).map ValueHistory.size).getD 0

/-- A write that is not to the key of the storage itself, for which the message has room.  Sequence
numbers have 64 bits. -/
def HasRoom (st : ResLevelDB env) (w : Write) : Prop :=
  w.key ≠ ckptKey ∧ st.historySize w.key + w.value.length + 80 < 2 ^ 31 ∧ w.seq < 2 ^ 64

instance (st : ResLevelDB env) (w : Write) : Decidable (st.HasRoom w) :=
  inferInstanceAs (Decidable (_ ∧ _ ∧ _))

/-- What a key holds is a history that parses. -/
theorem ReplayInv.history (hkey : key ≠ ckptKey) :
    ∃ history, env.codec.parse (st.getValue key).1 = some history ∧ history.Plain ∧
      st.storedValues key = history.value ∧ st.historySize key = history.size := by
  obtain ⟨history, hparse, hplain⟩ := h.stored key hkey
  have hread : env.codec.parse (st.getValue key).1 = some history := by
    rw [h.getValue_fst]
    exact hparse
  refine ⟨history, hread, hplain, ?_, ?_⟩
  · rw [storedValues, hparse]
    rfl
  · rw [historySize, hread]
    rfl

theorem ReplayInv.setValueWithSeq (hcodec : env.codec.Fits) (hmax : st.maxHistory ≠ 0) {w : Write}
    (hw : w.version = none) (hroom : st.HasRoom w)
    (hs : st.setValueWithSeq w.key w.value w.seq = some r) :
    ReplayInv r.2 ∧ r.2.storedValues = update st.storedValues w.key
      (w.extend st.maxHistory (st.storedValues w.key)) := by
  obtain ⟨hkey, hsize, hseq⟩ := hroom
  obtain ⟨history, hparse, hplain, hvalues, hhistory⟩ := h.history hkey
  obtain ⟨hread, hreadValues⟩ := h.getValue w.key
  rw [Write.extend, hw]
  have hcases := setValueWithSeq_cases hs
  rw [hparse] at hcases
  obtain ⟨⟨⟩, -⟩ | ⟨_, ⟨⟩, hcases⟩ := hcases
  have hcell : cellSeq (st.storedValues w.key).getLast? = history.lastSeq := by
    rw [hvalues]
    rfl
  rw [hcell]
  rcases hcases with ⟨hlt, -, hckpt⟩ | ⟨hlt, -, r', hset, hckpt⟩
  · obtain ⟨hinv, hckptValues⟩ := hread.updateLastCkpt hcodec hckpt
    rw [if_pos hlt, update_eq_self, hckptValues, hreadValues]
    exact ⟨hinv, rfl⟩
  · rw [← maxHistory_getValue st w.key] at hmax
    obtain ⟨hplain', hlast', hsize'⟩ := ValueHistory.withSeq_spec hplain hmax w.value hseq
    rw [hhistory] at hsize
    obtain ⟨hinv', hsetValues⟩ :=
      hread.setValue hcodec hplain' hlast' (hsize'.trans_lt hsize) hkey hset
    obtain ⟨hinv, hckptValues⟩ := hinv'.updateLastCkpt hcodec hckpt
    rw [if_neg hlt, hckptValues, hsetValues, hreadValues, hvalues, maxHistory_getValue]
    exact ⟨hinv, rfl⟩

theorem ReplayInv.setValueWithVersion (hcodec : env.codec.Fits) {w : Write}
    {version : ℤ} (hw : w.version = some version) (hroom : st.HasRoom w)
    (hs : st.setValueWithVersion w.key w.value version = some r) :
    ReplayInv r.2 ∧ r.2.storedValues = update st.storedValues w.key
      (w.extend st.maxHistory (st.storedValues w.key)) := by
  obtain ⟨hkey, hsize, -⟩ := hroom
  obtain ⟨history, hparse, hplain, hvalues, hhistory⟩ := h.history hkey
  obtain ⟨hread, hreadValues⟩ := h.getValue w.key
  rw [Write.extend, hw]
  dsimp only
  have hcases := setValueWithVersion_cases hs
  rw [hparse] at hcases
  obtain ⟨⟨⟩, -⟩ | ⟨_, ⟨⟩, hcases⟩ := hcases
  have hcell : cellVersion (st.storedValues w.key).getLast? = history.lastVersion := by
    rw [hvalues]
    rfl
  rw [hcell]
  rcases hcases with ⟨hne, rfl⟩ | ⟨heq, hmax, hset⟩
  · rw [if_pos hne, update_eq_self]
    exact ⟨hread, hreadValues⟩
  · have hversion : -2 ^ 31 ≤ version + 1 ∧ version + 1 < 2 ^ 31 := by
      have hrange := hplain.lastVersion
      omega
    obtain ⟨hplain', hlast', hsize'⟩ := ValueHistory.withVersion_spec hplain w.value hversion
    rw [hhistory] at hsize
    obtain ⟨hinv, hsetValues⟩ :=
      hread.setValue hcodec hplain' hlast' (hsize'.trans_lt hsize) hkey hset
    rw [if_neg (not_not.2 heq), hsetValues, hreadValues, hvalues]
    exact ⟨hinv, rfl⟩

end

/-- No write changes `max_history_`. -/
theorem maxHistory_rule (env : LevelDbEnv) (maxHistory : ℕ) :
    WriteRule env (fun st => st.maxHistory = maxHistory) fun _ => True where
  ckpt := trivial
  getValue := fun key h => by rw [maxHistory_getValue, h]
  settings := fun _ _ h => h
  setValue := fun h _ hs => by rw [(setValue_settings hs).2.1, h]

theorem ReplayInv.apply (hcodec : env.codec.Fits) (h : ReplayInv st) {w : Write}
    (hmax : w.version = none → st.maxHistory ≠ 0) (hroom : st.HasRoom w)
    (hs : w.apply st = some r) : ReplayInv r.2 ∧ r.2.maxHistory = st.maxHistory ∧
      r.2.storedValues = update st.storedValues w.key
        (w.extend st.maxHistory (st.storedValues w.key)) := by
  unfold Write.apply at hs
  split at hs
  · rename_i hw
    obtain ⟨hinv, hvalues⟩ := h.setValueWithSeq hcodec (hmax hw) hw hroom hs
    exact ⟨hinv, (maxHistory_rule env _).setValueWithSeq rfl trivial hs, hvalues⟩
  · rename_i version hw
    obtain ⟨hinv, hvalues⟩ := h.setValueWithVersion hcodec hw hroom hs
    exact ⟨hinv, (maxHistory_rule env _).setValueWithVersion rfl trivial hs, hvalues⟩

theorem lastValue_extend {w : Write} (hmax : w.version = none → st.maxHistory ≠ 0)
    (hvalues : st'.storedValues = update st.storedValues w.key
      (w.extend st.maxHistory (st.storedValues w.key))) :
    st'.lastValue = update st.lastValue w.key (w.next (st.lastValue w.key)) := by
  rw [funext st'.lastValue_eq, hvalues, getLast?_update st.lastValue_eq,
    w.getLast?_extend hmax, st.lastValue_eq w.key]

theorem find?_getKeyRange (st : ResLevelDB env) (minKey maxKey key : Bytes) :
    (st.getKeyRange minKey maxKey).find? key = (st.lastValue key).bind fun v =>
      if minKey ≤ key ∧ key ≤ maxKey ∧ hidden key = false then some (v.value, v.version)
      else none := by
  rw [getKeyRange, find?_filterMap]
  cases hb : st.db.find? key with
  | none =>
    rw [lastValue_of_find?_none hb]
    rfl
  | some b =>
    rw [lastValue, hb, bind_some, item]
    by_cases hshown : minKey ≤ key ∧ key ≤ maxKey
    · cases hhidden : hidden key with
      | true => simp
      | false => simp [hshown, head?_versions, Option.map_eq_bind, Option.bind_assoc]
    · rw [if_neg hshown]
      have hno : ¬ (minKey ≤ key ∧ key ≤ maxKey ∧ hidden key = false) :=
        fun h => hshown ⟨h.1, h.2.1⟩
      simp [hno]

/-- **On disk, a key has one cell.** -/
def cellModel (hcodec : env.codec.Fits) : CellModel (ResLevelDB env) Bytes where
  inv := fun st => ReplayInv st ∧ st.maxHistory ≠ 0
  cell := lastValue
  slot := Write.key
  ok := HasRoom
  reads := fun c => by
    have hread : ∀ {st : ResLevelDB env} (key : Bytes),
        (ReplayInv st ∧ st.maxHistory ≠ 0) ∧ st.lastValue = c →
        (ReplayInv (st.getValue key).2 ∧ (st.getValue key).2.maxHistory ≠ 0) ∧
          (st.getValue key).2.lastValue = c := by
      rintro st key ⟨⟨h, hmax⟩, rfl⟩
      obtain ⟨hinv, hvalues⟩ := h.getValue key
      rw [← maxHistory_getValue st key] at hmax
      exact ⟨⟨hinv, hmax⟩, lastValue_of_storedValues hvalues⟩
    exact ⟨fun key _ h => hread key h, fun key _ h => hread key h, fun key _ _ h => hread key h,
      fun key _ h => hread key h⟩
  write := fun {st w r} h hroom hs => by
    obtain ⟨hinv, hmax, hvalues⟩ := h.1.apply hcodec (fun _ => h.2) hroom hs
    exact ⟨⟨hinv, hmax ▸ h.2⟩, lastValue_extend (fun _ => h.2) hvalues⟩
  defined := fun {st w} h _ hversion => by
    unfold Write.apply
    split
    · exact setValueWithSeq_isSome h.1.direct.room w.key w.value w.seq
    · rename_i version hw
      refine setValueWithVersion_isSome h.1.direct.room w.key w.value fun hmax => hversion ?_
      rw [hw, hmax]
  current := fun {st w} h _ => by
    change (st.getValueWithVersion w.key 0).1.2 = _
    rw [getValueWithVersion_zero h.1.direct.level h.1.direct.batch]
    cases st.lastValue w.key <;> rfl
  answers := fun {st st'} h h' hlast => by
    refine ⟨fun key => ?_, fun key => ?_, fun minKey maxKey => ?_⟩
    · change (st.getValueWithSeq key 0).1 = (st'.getValueWithSeq key 0).1
      rw [getValueWithSeq_zero h.1.direct.level h.1.direct.batch,
        getValueWithSeq_zero h'.1.direct.level h'.1.direct.batch, hlast]
    · change (st.getValueWithVersion key 0).1 = (st'.getValueWithVersion key 0).1
      rw [getValueWithVersion_zero h.1.direct.level h.1.direct.batch,
        getValueWithVersion_zero h'.1.direct.level h'.1.direct.batch, hlast]
    · refine ext_find? fun key => ?_
      change (st.getKeyRange minKey maxKey).find? key = (st'.getKeyRange minKey maxKey).find? key
      rw [find?_getKeyRange, find?_getKeyRange, hlast]

theorem Fresh.replayInv (h : st.Fresh) (hroom : st.CacheRoom) (hthrough : st.WritesThrough) :
    ReplayInv st where
  direct := ⟨h.levelInv, h.2.1, hthrough, hroom⟩
  stored := fun key _ => by
    rw [h.1]
    exact ⟨{}, env.codec.parse_nil, nofun, rfl⟩
  ckpt := lastValue_of_find?_none (by rw [h.1]; rfl)

theorem Fresh.lastValue (h : st.Fresh) (key : Bytes) : st.lastValue key = none :=
  lastValue_of_find?_none (by rw [h.1]; rfl)

end ResLevelDB

/-! ### Repeated batches -/

theorem meets_true {σ : Type} [Storage σ] (e : KVExecutor σ) (bs : List Batch) :
    Meets (fun _ _ => True) e bs := by
  have hguarded : ∀ (as : List RequestAction) (e : KVExecutor σ),
      (requestSystem σ).Guarded (OnWrites fun _ _ => True) e as := by
    intro as
    induction as with
    | nil =>
      intro e
      trivial
    | cons a as ih =>
      intro e
      constructor
      · cases a with
        | begin seq => trivial
        | request q =>
          cases q with
          | none => trivial
          | some q => exact fun w _ => trivial
      · cases (requestSystem σ).step e a with
        | none => trivial
        | some e' => exact ih e'
  exact hguarded _ e

/-- **Executing the last batches again changes no answer about the latest values**, in memory and on
disk, if none of their requests named a version above the one that its key had when it was executed the
first time. -/
theorem replay_idempotent (env : LevelDbEnv) (hcodec : env.codec.Fits) (pre suf : List Batch)
    (hsorted : (pre ++ suf).Pairwise fun b b' => b.seq ≤ b'.seq) :
    (∀ (st : MemoryDB) (e₁ e₂ : KVExecutor MemoryDB), st.Fresh → st.maxHistory ≠ 0 →
      replay ⟨st, 0⟩ pre = some e₁ → replay e₁ suf = some e₂ → Meets NotAhead e₁ suf →
      ∃ e₃, replay e₂ suf = some e₃ ∧ SameAnswers e₂.storage e₃.storage) ∧
    ∀ (st : ResLevelDB env) (e₁ e₂ : KVExecutor (ResLevelDB env)), st.Fresh → st.maxHistory ≠ 0 →
      st.CacheRoom → st.WritesThrough →
      replay ⟨st, 0⟩ pre = some e₁ → replay e₁ suf = some e₂ → Meets NotAhead e₁ suf →
      Meets ResLevelDB.HasRoom ⟨st, 0⟩ pre → Meets ResLevelDB.HasRoom e₁ suf →
      Meets ResLevelDB.HasRoom e₂ suf →
      ∃ e₃, replay e₂ suf = some e₃ ∧ SameAnswers e₂.storage e₃.storage := by
  constructor
  · intro st e₁ e₂ hfresh hmax h₁ h₂ hahead
    have hinv : MemoryDB.cellModel.inv (⟨st, 0⟩ : KVExecutor MemoryDB).storage :=
      ⟨hfresh.replayInv, hmax⟩
    exact CellModel.replay_same hinv hfresh.cell hsorted h₁ h₂ (meets_true _ _) (meets_true _ _)
      (meets_true _ _) hahead
  · intro st e₁ e₂ hfresh hmax hcache hthrough h₁ h₂ hahead hok₁ hok₂ hok₃
    have hinv : (ResLevelDB.cellModel hcodec).inv (⟨st, 0⟩ : KVExecutor (ResLevelDB env)).storage :=
      ⟨hfresh.replayInv hcache hthrough, hmax⟩
    exact CellModel.replay_same hinv hfresh.lastValue hsorted h₁ h₂ hok₁ hok₂ hok₃ hahead

/-! ### A request that is accepted late -/

/-- A write of a version to the key `k`. -/
def versionOf (value : String) (version : ℤ) : Option KVRequest :=
  some { cmd := .setWithVersion, key := ofText "k", value := ofText value,
         version := version, key_size := size_k }

/-- A first version. -/
def firstBatch : Batch := { seq := 1, requests := [versionOf "a" 0] }

/-- A plain write, and a version that is behind. -/
def behindBatch : Batch where
  seq := 2
  requests :=
    [some { cmd := .set, key := ofText "j", value := ofText "c" }, versionOf "b" 0]

/-- A version that is still to come, and then the one before it. -/
def aheadBatches : List Batch :=
  [{ seq := 1, requests := [versionOf "b" 1] }, { seq := 2, requests := [versionOf "a" 0] }]

/-- A storage on disk that was just opened, with the default settings. -/
def opened : KVExecutor (ResLevelDB wireEnv) := ⟨{}, 0⟩

theorem opened_spec : opened.storage.Fresh ∧ opened.storage.WritesThrough := by
  refine ⟨⟨rfl, rfl, fun c hc => by cases hc⟩, fun e => ?_⟩
  change 1 ≤ 12 + _
  omega

/-- The batch with a version that is behind comes twice, in memory and on disk. -/
theorem replay_idempotent_behind :
    (∃ e₁ e₂ e₃ : KVExecutor MemoryDB, replay ⟨{}, 0⟩ [firstBatch] = some e₁ ∧
      replay e₁ [behindBatch] = some e₂ ∧ replay e₂ [behindBatch] = some e₃ ∧
      SameAnswers e₂.storage e₃.storage) ∧
    ∃ e₁ e₂ e₃ : KVExecutor (ResLevelDB wireEnv), replay opened [firstBatch] = some e₁ ∧
      replay e₁ [behindBatch] = some e₂ ∧ replay e₂ [behindBatch] = some e₃ ∧
      SameAnswers e₂.storage e₃.storage := by
  have hsorted : ([firstBatch] ++ [behindBatch]).Pairwise fun b b' => b.seq ≤ b'.seq := by
    simp [firstBatch, behindBatch]
  obtain ⟨hmemory, hdisk⟩ :=
    replay_idempotent wireEnv wireCodec_fits [firstBatch] [behindBatch] hsorted
  constructor
  · have hresult : ((replay (⟨{}, 0⟩ : KVExecutor MemoryDB) [firstBatch]).bind fun e₁ =>
        (replay e₁ [behindBatch]).map fun _ => decide (Meets NotAhead e₁ [behindBatch])) =
          some true := by decide +kernel
    obtain ⟨e₁, h₁, hresult⟩ := Option.bind_eq_some_iff.1 hresult
    obtain ⟨e₂, h₂, hahead⟩ := map_eq_some_iff.1 hresult
    obtain ⟨e₃, h₃, hsame⟩ :=
      hmemory {} e₁ e₂ rfl (by decide) h₁ h₂ (of_decide_eq_true hahead)
    exact ⟨e₁, e₂, e₃, h₁, h₂, h₃, hsame⟩
  · have hresult : ((replay opened [firstBatch]).bind fun e₁ =>
        (replay e₁ [behindBatch]).map fun e₂ => decide (Meets NotAhead e₁ [behindBatch] ∧
          Meets ResLevelDB.HasRoom opened [firstBatch] ∧
          Meets ResLevelDB.HasRoom e₁ [behindBatch] ∧
          Meets ResLevelDB.HasRoom e₂ [behindBatch])) = some true := by decide +kernel
    obtain ⟨e₁, h₁, hresult⟩ := Option.bind_eq_some_iff.1 hresult
    obtain ⟨e₂, h₂, hok⟩ := map_eq_some_iff.1 hresult
    obtain ⟨hahead, hok₁, hok₂, hok₃⟩ := of_decide_eq_true hok
    obtain ⟨e₃, h₃, hsame⟩ := hdisk opened.storage e₁ e₂ opened_spec.1 (by decide) (by decide)
      opened_spec.2 h₁ h₂ hahead hok₁ hok₂ hok₃
    exact ⟨e₁, e₂, e₃, h₁, h₂, h₃, hsame⟩

theorem not_sameAnswers_of_versions {σ : Type} [Storage σ] {e : KVExecutor σ} {bs : List Batch}
    (key : Bytes) {once twice : Bytes × ℤ} (hne : once ≠ twice)
    (hresult : ((replay e bs).bind fun e₂ => (replay e₂ bs).map fun e₃ =>
      ((Storage.getValueWithVersion e₂.storage key 0).1,
        (Storage.getValueWithVersion e₃.storage key 0).1)) = some (once, twice)) :
    ∃ e₂ e₃ : KVExecutor σ, replay e bs = some e₂ ∧ replay e₂ bs = some e₃ ∧
      ¬ SameAnswers e₂.storage e₃.storage := by
  obtain ⟨e₂, h₂, hresult⟩ := Option.bind_eq_some_iff.1 hresult
  obtain ⟨e₃, h₃, hvalues⟩ := map_eq_some_iff.1 hresult
  obtain ⟨honce, htwice⟩ := Prod.mk.inj hvalues
  refine ⟨e₂, e₃, h₂, h₃, fun hsame => hne ?_⟩
  rw [← honce, ← htwice]
  exact hsame.2.1 key

/-- The version that was still to come is accepted the second time, in memory and on disk. -/
theorem replay_idempotent_fails :
    (∃ e₂ e₃ : KVExecutor MemoryDB, replay ⟨{}, 0⟩ aheadBatches = some e₂ ∧
      replay e₂ aheadBatches = some e₃ ∧ ¬ SameAnswers e₂.storage e₃.storage) ∧
    ∃ e₂ e₃ : KVExecutor (ResLevelDB wireEnv), replay opened aheadBatches = some e₂ ∧
      replay e₂ aheadBatches = some e₃ ∧ ¬ SameAnswers e₂.storage e₃.storage := by
  have hne : (ofText "a", (1 : ℤ)) ≠ (ofText "b", 2) := by decide
  constructor
  · exact not_sameAnswers_of_versions (ofText "k") hne (by decide +kernel)
  · exact not_sameAnswers_of_versions (ofText "k") hne (by decide +kernel)

end Kv
