/-
**Reading what was written.**

A value of `ResLevelDB` may be in the cache, among the pending writes or in leveldb, and `GetValue`
looks in the cache and in leveldb only.  So it returns the value of the last write of a key if that
write is not pending any more, or if the cache still has it and it is not empty; and as writes with a
sequence number or a version add to the history that `GetValue` returns, a write that is overlooked is
lost.

The storage is compared with a plain map from keys to values, `Kv.Mirror.written`, to which the same
calls are made.

Main definitions:

* `Kv.ResLevelDB.latest` — the value that was written last, pending or on disk;
* `Kv.ResLevelDB.CacheInv` — the cache agrees with it;
* `Kv.WriteRule` — what makes a property one that the writes keep;
* `Kv.Mirror`, `Kv.mirrorSystem` — a storage and the map, with the codes that both return;
* `Kv.ResLevelDB.Readable`, `Kv.ReadsLatest` — the condition.

Main results:

* `Kv.ResLevelDB.CacheInv.getValue_fst` — what a read returns;
* `Kv.reads_own_writes` — under the condition, the storage behaves like the map;
* `Kv.reads_own_writes_fails` — a write that is lost.
-/

import ResilientDb.LevelDb
import ResilientDb.Transition

set_option autoImplicit false

namespace Kv

open Function (update update_apply)
open Option (isSome_map map_eq_some_iff)
open Wire (Bytes ofText)

/-! ### Histories -/

namespace ValueHistory

/-- The sequence number of the last value. -/
def lastSeq (history : ValueHistory) : ℕ := (history.value.getLast?.map Value.seq).getD 0

/-- The version of the last value. -/
def lastVersion (history : ValueHistory) : ℤ := (history.value.getLast?.map Value.version).getD 0

/-- The history with one more value, as a write with a sequence number extends it. -/
def withSeq (history : ValueHistory) (maxHistory : ℕ) (value : Bytes) (seq : ℕ) : ValueHistory :=
  { history with value := trim maxHistory (history.value ++ [{ value := value, seq := seq }]) }

/-- The history with one more value, as a write of a version extends it. -/
def withVersion (history : ValueHistory) (value : Bytes) (version : ℤ) : ValueHistory :=
  { history with value := history.value ++ [{ value := value, version := version }] }

end ValueHistory

namespace ResLevelDB

variable {env : LevelDbEnv} {st : ResLevelDB env}

/-! ### Pending writes and the cache -/

/-- The value that was written last, whether leveldb has it or not. -/
def latest (st : ResLevelDB env) (key : Bytes) : Option Bytes :=
  (OrderedMap.lookup key st.batch.reverse).or (st.db.find? key)

/-- The cache holds values that were written last. -/
def CacheInv (st : ResLevelDB env) : Prop :=
  ∀ c ∈ st.blockCache, ∀ {key value : Bytes}, c.lookup key = some value →
    st.latest key = some value

/-- Every write finds room in the cache. -/
def CacheRoom (st : ResLevelDB env) : Prop := ∀ c ∈ st.blockCache, c.capacity ≠ 0

instance (st : ResLevelDB env) : Decidable st.CacheRoom :=
  inferInstanceAs (Decidable (∀ c ∈ st.blockCache, _))

/-- Writing the batch out changes no answer. -/
theorem latest_writeBatch (st : ResLevelDB env) (key : Bytes) :
    st.writeBatch.latest key = st.latest key := by
  simp [latest, writeBatch, OrderedMap.find?_setAll]

/-- A read touches the cache only. -/
theorem getValue_snd (st : ResLevelDB env) (key : Bytes) :
    ((st.getValue key).2 = st ∨ ∃ cache, st.blockCache = some cache ∧
      (st.getValue key).2 = { st with blockCache := some (cache.get key).2 }) := by
  unfold ResLevelDB.getValue
  split
  · exact .inl rfl
  · rename_i cache hcache
    exact .inr ⟨cache, hcache, rfl⟩

theorem latest_getValue (st : ResLevelDB env) (key k : Bytes) :
    (st.getValue key).2.latest k = st.latest k := by
  rcases getValue_snd st key with h | ⟨cache, -, h⟩
  · rw [h]
  · rw [h]
    rfl

theorem maxHistory_getValue (st : ResLevelDB env) (key : Bytes) :
    (st.getValue key).2.maxHistory = st.maxHistory := by
  rcases getValue_snd st key with h | ⟨cache, -, h⟩ <;> rw [h]

/-- A write of the key is pending, and no value in the cache hides that. -/
def Overlooked (st : ResLevelDB env) (key : Bytes) : Prop :=
  (∃ e ∈ st.batch, e.1 = key) ∧
    ∀ c ∈ st.blockCache, ∀ value ∈ c.lookup key, value = []

instance (st : ResLevelDB env) (key : Bytes) : Decidable (st.Overlooked key) :=
  inferInstanceAs (Decidable ((∃ e ∈ st.batch, _) ∧
    ∀ c ∈ st.blockCache, ∀ value ∈ LruCache.lookup c key, _))

variable {key : Bytes}

theorem latest_of_not_pending (h : ¬ ∃ e ∈ st.batch, e.1 = key) :
    st.latest key = st.db.find? key := by
  have hnone : OrderedMap.lookup key st.batch.reverse = none :=
    OrderedMap.lookup_eq_none fun e he heq => h ⟨e, List.mem_reverse.1 he, heq⟩
  rw [latest, hnone, Option.none_or]

/-- **What a read returns**: the value that was written last, unless it is overlooked. -/
theorem CacheInv.getValue_fst (h : CacheInv st) (hread : ¬ st.Overlooked key) :
    (st.getValue key).1 = (st.latest key).getD [] := by
  -- without a value in the cache, leveldb has to have the last write
  have hdb : (∀ c ∈ st.blockCache, ∀ value ∈ c.lookup key, value = []) →
      (st.db.find? key).getD [] = (st.latest key).getD [] := by
    intro hcache
    rw [latest_of_not_pending fun hpending => hread ⟨hpending, hcache⟩]
  unfold ResLevelDB.getValue
  split
  · rename_i hnone
    refine hdb fun c hc => ?_
    rw [hnone] at hc
    cases hc
  · rename_i cache hcache
    dsimp only
    rw [LruCache.get_fst]
    split_ifs with hne
    · cases hv : cache.lookup key with
      | none =>
        rw [hv] at hne
        exact absurd rfl hne
      | some value =>
        rw [h cache hcache hv]
        rfl
    · refine hdb fun c hc value hv => ?_
      rw [hcache] at hc
      cases hc
      rw [hv] at hne
      exact not_not.1 hne

variable {value : Bytes} {r : ℤ × ResLevelDB env}

/-- A write is seen at once, and is put into the cache. -/
theorem setValue_spec (hs : st.setValue key value = some r) :
    (∀ k, r.2.latest k = if k = key then some value else st.latest k) ∧
      ∃ cache, putCache st.blockCache key value = some cache ∧ r.2.blockCache = cache := by
  obtain ⟨cache, hcache, rfl⟩ := map_eq_some_iff.1 hs
  have hlatest : ∀ k, (({ st with
      blockCache := cache
      batch := st.batch ++ [(key, value)] } : ResLevelDB env).latest k) =
        if k = key then some value else st.latest k := by
    intro k
    rw [latest, List.reverse_append, List.reverse_singleton, List.singleton_append,
      OrderedMap.lookup_cons]
    split_ifs with hk
    · rfl
    · rfl
  dsimp only
  split_ifs
  · refine ⟨fun k => ?_, cache, hcache, rfl⟩
    rw [latest_writeBatch]
    exact hlatest k
  · exact ⟨hlatest, cache, hcache, rfl⟩

theorem setValue_code (hs : st.setValue key value = some r) : r.1 = 0 := by
  obtain ⟨cache, -, rfl⟩ := map_eq_some_iff.1 hs
  dsimp only
  split_ifs <;> rfl

/-- The write is refused, or the history gets the value. -/
theorem setValueWithSeq_cases {seq : ℕ} (hs : st.setValueWithSeq key value seq = some r) :
    (env.codec.parse (st.getValue key).1 = none ∧ r = (-2, (st.getValue key).2)) ∨
      ∃ history, env.codec.parse (st.getValue key).1 = some history ∧
        ((seq < history.lastSeq ∧ r.1 = -2 ∧
            (st.getValue key).2.updateLastCkpt history.lastSeq = some r.2) ∨
          (¬ seq < history.lastSeq ∧ r.1 = 0 ∧
            ∃ r', (st.getValue key).2.setValue key (env.codec.serialize
                (history.withSeq (st.getValue key).2.maxHistory value seq)) = some r' ∧
              r'.2.updateLastCkpt seq = some r.2)) := by
  unfold ResLevelDB.setValueWithSeq at hs
  dsimp only at hs
  split at hs
  · rename_i hparse
    cases hs
    exact .inl ⟨hparse, rfl⟩
  · rename_i history hparse
    refine .inr ⟨history, hparse, ?_⟩
    split_ifs at hs with hlast
    · obtain ⟨st', hst', rfl⟩ := map_eq_some_iff.1 hs
      exact .inl ⟨hlast, rfl, hst'⟩
    · obtain ⟨r', hr', hs⟩ := Option.bind_eq_some_iff.1 hs
      rw [if_neg (not_not.2 (setValue_code hr'))] at hs
      obtain ⟨st', hst', rfl⟩ := map_eq_some_iff.1 hs
      exact .inr ⟨hlast, rfl, r', hr', hst'⟩

theorem updateLastCkpt_cases {seq : ℕ} {st' : ResLevelDB env}
    (hs : st.updateLastCkpt seq = some st') :
    ∃ lastCkpt updateTime, st' = { st with lastCkpt := lastCkpt, updateTime := updateTime } ∨
      ∃ r, ({ st with lastCkpt := lastCkpt, updateTime := updateTime } : ResLevelDB env).setValue
          ckptKey (ofText (toString lastCkpt)) = some r ∧ st' = { r.2 with updateTime := 0 } := by
  unfold updateLastCkpt at hs
  split_ifs at hs
  · cases hs
    exact ⟨st.lastCkpt, st.updateTime, .inl rfl⟩
  · dsimp only at hs
    refine ⟨seq, st.updateTime + 1, ?_⟩
    split_ifs at hs
    · obtain ⟨r, hr, rfl⟩ := map_eq_some_iff.1 hs
      exact .inr ⟨r, hr, rfl⟩
    · cases hs
      exact .inl rfl

/-- The same for a write with a version. -/
theorem setValueWithVersion_cases {version : ℤ}
    (hs : st.setValueWithVersion key value version = some r) :
    (env.codec.parse (st.getValue key).1 = none ∧ r = (-2, (st.getValue key).2)) ∨
      ∃ history, env.codec.parse (st.getValue key).1 = some history ∧
        ((history.lastVersion ≠ version ∧ r = (-2, (st.getValue key).2)) ∨
          (history.lastVersion = version ∧ version ≠ 2 ^ 31 - 1 ∧ (st.getValue key).2.setValue key
              (env.codec.serialize (history.withVersion value (version + 1))) = some r)) := by
  unfold ResLevelDB.setValueWithVersion at hs
  dsimp only at hs
  split at hs
  · rename_i hparse
    cases hs
    exact .inl ⟨hparse, rfl⟩
  · rename_i history hparse
    refine .inr ⟨history, hparse, ?_⟩
    split_ifs at hs with hlast
    · cases hs
      exact .inl ⟨hlast, rfl⟩
    · obtain ⟨next, hnext, hs⟩ := Option.bind_eq_some_iff.1 hs
      unfold nextVersion at hnext
      split_ifs at hnext with hmax
      cases hnext
      exact .inr ⟨not_not.1 hlast, hmax, hs⟩

end ResLevelDB

/-! ### What the writes keep -/

open ResLevelDB

/-- A property that reads and plain writes keep, the latter for keys that satisfy `K`. -/
structure WriteRule (env : LevelDbEnv) (P : ResLevelDB env → Prop) (K : Bytes → Prop) : Prop where
  ckpt : K ckptKey
  getValue : ∀ {st : ResLevelDB env} (key : Bytes), P st → P (st.getValue key).2
  settings : ∀ {st : ResLevelDB env} (lastCkpt updateTime : ℕ), P st →
    P { st with lastCkpt := lastCkpt, updateTime := updateTime }
  setValue : ∀ {st : ResLevelDB env} {key value : Bytes} {r : ℤ × ResLevelDB env}, P st → K key →
    st.setValue key value = some r → P r.2

namespace WriteRule

variable {env : LevelDbEnv} {P : ResLevelDB env → Prop} {K : Bytes → Prop} {st : ResLevelDB env}
  {key value : Bytes} {r : ℤ × ResLevelDB env}

theorem updateLastCkpt (h : WriteRule env P K) {seq : ℕ} {st' : ResLevelDB env} (hst : P st)
    (hs : st.updateLastCkpt seq = some st') : P st' := by
  obtain ⟨lastCkpt, updateTime, rfl | ⟨r, hr, rfl⟩⟩ := updateLastCkpt_cases hs
  · exact h.settings lastCkpt updateTime hst
  · exact h.settings r.2.lastCkpt 0 (h.setValue (h.settings lastCkpt updateTime hst) h.ckpt hr)

theorem setValueWithSeq (h : WriteRule env P K) {seq : ℕ} (hst : P st) (hkey : K key)
    (hs : st.setValueWithSeq key value seq = some r) : P r.2 := by
  have hread := h.getValue key hst
  rcases setValueWithSeq_cases hs with ⟨-, rfl⟩ | ⟨history, -, hrejected | haccepted⟩
  · exact hread
  · obtain ⟨-, -, hckpt⟩ := hrejected
    exact h.updateLastCkpt hread hckpt
  · obtain ⟨-, -, r', hset, hckpt⟩ := haccepted
    exact h.updateLastCkpt (h.setValue hread hkey hset) hckpt

theorem setValueWithVersion (h : WriteRule env P K) {version : ℤ} (hst : P st) (hkey : K key)
    (hs : st.setValueWithVersion key value version = some r) : P r.2 := by
  have hread := h.getValue key hst
  rcases setValueWithVersion_cases hs with ⟨-, rfl⟩ | ⟨history, -, ⟨-, rfl⟩ | ⟨-, -, hset⟩⟩
  · exact hread
  · exact hread
  · exact h.setValue hread hkey hset

end WriteRule

section

variable {env : LevelDbEnv} {st : ResLevelDB env} {key value : Bytes} {r : ℤ × ResLevelDB env}

theorem ResLevelDB.CacheInv.setValue (h : CacheInv st) (hs : st.setValue key value = some r) :
    CacheInv r.2 := by
  obtain ⟨hlatest, cache, hcache, hr⟩ := setValue_spec hs
  intro c hc k v hv
  rw [hr] at hc
  rw [hlatest]
  unfold putCache at hcache
  split at hcache
  · cases hcache
    cases hc
  · rename_i old hold
    obtain ⟨c', hput, rfl⟩ := map_eq_some_iff.1 hcache
    obtain rfl : c' = c := Option.some.inj hc
    rcases LruCache.lookup_put hput hv with ⟨rfl, rfl⟩ | ⟨hne, hv⟩
    · rw [if_pos rfl]
    · rw [if_neg hne]
      exact h old hold hv

theorem ResLevelDB.CacheInv.getValue (h : CacheInv st) (key : Bytes) :
    CacheInv (st.getValue key).2 := by
  rcases getValue_snd st key with hsnd | ⟨cache, hcache, hsnd⟩
  · rw [hsnd]
    exact h
  · intro c hc k v hv
    rw [latest_getValue]
    rw [hsnd] at hc
    obtain rfl : (cache.get key).2 = c := Option.some.inj hc
    rw [LruCache.lookup_get] at hv
    exact h cache hcache hv

theorem ResLevelDB.CacheInv.writeBatch (h : CacheInv st) : CacheInv st.writeBatch := by
  intro c hc k v hv
  rw [latest_writeBatch]
  exact h c hc hv

theorem cacheInv_clear (st : ResLevelDB env) : CacheInv st.clear := by
  intro c hc k v hv
  obtain ⟨c', -, rfl⟩ := map_eq_some_iff.1 hc
  cases hv

theorem cacheInv_rule (env : LevelDbEnv) : WriteRule env CacheInv fun _ => True where
  ckpt := trivial
  getValue := fun key h => h.getValue key
  settings := fun _ _ h => h
  setValue := fun h _ hs => h.setValue hs

/-- The capacity of the cache does not change. -/
theorem cacheRoom_rule (env : LevelDbEnv) : WriteRule env CacheRoom fun _ => True where
  ckpt := trivial
  getValue := fun {st} key h => by
    rcases getValue_snd st key with hsnd | ⟨cache, hcache, hsnd⟩
    · rw [hsnd]
      exact h
    · intro c hc
      rw [hsnd] at hc
      obtain rfl : (cache.get key).2 = c := Option.some.inj hc
      rw [LruCache.capacity_get]
      exact h cache hcache
  settings := fun _ _ h => h
  setValue := fun {st key value r} h _ hs => by
    obtain ⟨-, cache, hcache, hr⟩ := setValue_spec hs
    intro c hc
    rw [hr] at hc
    unfold putCache at hcache
    split at hcache
    · cases hcache
      cases hc
    · rename_i old hold
      obtain ⟨c', hput, rfl⟩ := map_eq_some_iff.1 hcache
      obtain rfl : c' = c := Option.some.inj hc
      rw [LruCache.capacity_put hput]
      exact h old hold

theorem latest_rule (env : LevelDbEnv) (f : Bytes → Option Bytes) :
    WriteRule env (fun st => ∀ k, k ≠ ckptKey → st.latest k = f k) fun key => key = ckptKey where
  ckpt := rfl
  getValue := fun key h k hk => by
    rw [latest_getValue]
    exact h k hk
  settings := fun _ _ h => h
  setValue := fun h hkey hs k hk => by
    rw [(setValue_spec hs).1, if_neg (by rw [hkey]; exact hk)]
    exact h k hk

/-- With room in the cache, a write returns. -/
theorem setValue_isSome (h : st.CacheRoom) (key value : Bytes) :
    (st.setValue key value).isSome := by
  rw [ResLevelDB.setValue, isSome_map]
  unfold putCache
  split
  · rfl
  · rename_i cache hcache
    rw [isSome_map]
    exact LruCache.put_isSome (h cache hcache) key value

theorem updateLastCkpt_isSome (h : st.CacheRoom) (seq : ℕ) : (st.updateLastCkpt seq).isSome := by
  unfold updateLastCkpt
  split_ifs
  · rfl
  · dsimp only
    split_ifs
    · rw [isSome_map]
      exact setValue_isSome ((cacheRoom_rule env).settings seq (st.updateTime + 1) h) _ _
    · rfl

theorem setValueWithSeq_isSome (h : st.CacheRoom) (key value : Bytes) (seq : ℕ) :
    (st.setValueWithSeq key value seq).isSome := by
  have hread := (cacheRoom_rule env).getValue key h
  unfold setValueWithSeq
  dsimp only
  split
  · rfl
  · split_ifs
    · rw [isSome_map]
      exact updateLastCkpt_isSome hread _
    · obtain ⟨r, hr⟩ := Option.isSome_iff_exists.1 (setValue_isSome hread key
        (env.codec.serialize _))
      rw [hr, Option.bind_some]
      split_ifs
      · rfl
      · rw [isSome_map]
        exact updateLastCkpt_isSome ((cacheRoom_rule env).setValue hread trivial hr) seq

theorem setValueWithVersion_isSome (h : st.CacheRoom) (key value : Bytes) {version : ℤ}
    (hversion : version ≠ 2 ^ 31 - 1) : (st.setValueWithVersion key value version).isSome := by
  have hread := (cacheRoom_rule env).getValue key h
  unfold setValueWithVersion
  dsimp only
  split
  · rfl
  · split_ifs
    · rfl
    · rw [nextVersion, if_neg hversion]
      exact setValue_isSome hread _ _

end

/-! ### The storage and a map -/

/-- The calls. -/
inductive StorageCall where
  | setValue (key value : Bytes)
  | setValueWithSeq (key value : Bytes) (seq : ℕ)
  | setValueWithVersion (key value : Bytes) (version : ℤ)
  | getValue (key : Bytes)
  | flush
  | clear

/-- A write with a sequence number to a map. -/
def writtenWithSeq (env : LevelDbEnv) (maxHistory : ℕ) (written : Bytes → Bytes)
    (key value : Bytes) (seq : ℕ) : ℤ × (Bytes → Bytes) :=
  match env.codec.parse (written key) with
  | none => (-2, written)
  | some history =>
    if seq < history.lastSeq then (-2, written)
    else
      (0, update written key
        (env.codec.serialize (history.withSeq maxHistory value seq)))

/-- A write of a version to a map. -/
def writtenWithVersion (env : LevelDbEnv) (written : Bytes → Bytes) (key value : Bytes)
    (version : ℤ) : ℤ × (Bytes → Bytes) :=
  match env.codec.parse (written key) with
  | none => (-2, written)
  | some history =>
    if history.lastVersion ≠ version then (-2, written)
    else
      (0, update written key
        (env.codec.serialize (history.withVersion value (version + 1))))

/-- A storage, and a map to which the same calls are made. -/
structure Mirror (env : LevelDbEnv) where
  storage : ResLevelDB env
  /-- The value of the last accepted write of a key. -/
  written : Bytes → Bytes
  /-- What the writes returned, and what they return for the map. -/
  codes : List (ℤ × ℤ) := []

namespace Mirror

variable {env : LevelDbEnv}

/-- Both have answered. -/
def answered (m : Mirror env) (r : ℤ × ResLevelDB env) (w : ℤ × (Bytes → Bytes)) : Mirror env where
  storage := r.2
  written := w.2
  codes := m.codes ++ [(r.1, w.1)]

/-- One call. -/
def step (m : Mirror env) : StorageCall → Option (Mirror env)
  | .setValue key value =>
    (m.storage.setValue key value).map fun r =>
      m.answered r (0, update m.written key value)
  | .setValueWithSeq key value seq =>
    (m.storage.setValueWithSeq key value seq).map fun r =>
      m.answered r (writtenWithSeq env m.storage.maxHistory m.written key value seq)
  | .setValueWithVersion key value version =>
    (m.storage.setValueWithVersion key value version).map fun r =>
      m.answered r (writtenWithVersion env m.written key value version)
  | .getValue key => some { m with storage := (m.storage.getValue key).2 }
  | .flush => some { m with storage := m.storage.writeBatch }
  | .clear =>
    some { m with
           storage := m.storage.clear
           written := fun _ => [] }

end Mirror

/-- The storage is opened with any settings, over what leveldb has. -/
def mirrorSystem (env : LevelDbEnv) : TransitionSystem (Mirror env) StorageCall where
  init := fun m => m.storage.batch = [] ∧
    (∀ c ∈ m.storage.blockCache, ∃ capacity, c = LruCache.construct capacity) ∧
    (∀ key, m.written key = (m.storage.db.find? key).getD []) ∧ m.codes = []
  step := Mirror.step

/-- A read sees the last write: the key is not the one that the storage uses itself, and no pending
write of it is overlooked. -/
def ResLevelDB.Readable {env : LevelDbEnv} (st : ResLevelDB env) (key : Bytes) : Prop :=
  key ≠ ckptKey ∧ ¬ st.Overlooked key

instance {env : LevelDbEnv} (st : ResLevelDB env) (key : Bytes) : Decidable (st.Readable key) :=
  inferInstanceAs (Decidable (_ ∧ _))

/-- The writes that extend a history can read it, the cache has room, and versions stay in range. -/
def ReadsLatest {env : LevelDbEnv} (m : Mirror env) : StorageCall → Prop
  | .setValue _ _ => m.storage.CacheRoom
  | .setValueWithSeq key _ _ => m.storage.CacheRoom ∧ m.storage.Readable key
  | .setValueWithVersion key _ version =>
    m.storage.CacheRoom ∧ m.storage.Readable key ∧ version ≠ 2 ^ 31 - 1
  | .getValue _ => True
  | .flush => True
  | .clear => True

instance {env : LevelDbEnv} (m : Mirror env) (call : StorageCall) :
    Decidable (ReadsLatest m call) := by
  unfold ReadsLatest
  split <;> infer_instance

/-- The last writes are those of the map. -/
structure MirrorInv {env : LevelDbEnv} (m : Mirror env) : Prop where
  latest : ∀ key, key ≠ ckptKey → (m.storage.latest key).getD [] = m.written key
  cache : m.storage.CacheInv
  codes : ∀ c ∈ m.codes, c.1 = c.2

namespace MirrorInv

variable {env : LevelDbEnv} {m : Mirror env} {key value : Bytes}

theorem getValue_fst (h : MirrorInv m) (hread : m.storage.Readable key) :
    (m.storage.getValue key).1 = m.written key := by
  rw [h.cache.getValue_fst hread.2]
  exact h.latest key hread.1

theorem latest_read (h : MirrorInv m) (key : Bytes) : ∀ k, k ≠ ckptKey →
    ((m.storage.getValue key).2.latest k).getD [] = m.written k := by
  intro k hk
  rw [latest_getValue]
  exact h.latest k hk

variable {r : ℤ × ResLevelDB env}

/-- The mirror after an answer. -/
theorem answered (h : MirrorInv m) {w : ℤ × (Bytes → Bytes)}
    (hcode : r.1 = w.1) (hcache : r.2.CacheInv)
    (hlatest : ∀ key, key ≠ ckptKey → (r.2.latest key).getD [] = w.2 key) :
    MirrorInv (m.answered r w) where
  latest := hlatest
  cache := hcache
  codes := fun c hc => by
    rcases List.mem_append.1 hc with hc | hc
    · exact h.codes c hc
    · rw [List.mem_singleton.1 hc]
      exact hcode

theorem latest_setValue (h : MirrorInv m) {st' : ResLevelDB env}
    (hs : (m.storage.getValue key).2.setValue key value = some r)
    (hlast : ∀ k, k ≠ ckptKey → st'.latest k = r.2.latest k) :
    ∀ k, k ≠ ckptKey → (st'.latest k).getD [] = update m.written key value k := by
  intro k hk
  rw [hlast k hk, (setValue_spec hs).1, latest_getValue, update_apply]
  split_ifs
  · rfl
  · exact h.latest k hk

theorem latest_updateLastCkpt {st st' : ResLevelDB env} {seq : ℕ}
    (hs : st.updateLastCkpt seq = some st') : ∀ k, k ≠ ckptKey → st'.latest k = st.latest k :=
  (latest_rule env st.latest).updateLastCkpt (fun _ _ => rfl) hs

theorem setValueWithSeq (h : MirrorInv m) {seq : ℕ} (hread : m.storage.Readable key)
    (hs : m.storage.setValueWithSeq key value seq = some r) :
    MirrorInv (m.answered r (writtenWithSeq env m.storage.maxHistory m.written key value seq)) := by
  have hcache := (cacheInv_rule env).setValueWithSeq h.cache trivial hs
  have hold := h.latest_read key
  have hcases := setValueWithSeq_cases hs
  rw [h.getValue_fst hread, maxHistory_getValue] at hcases
  unfold writtenWithSeq
  rcases hcases with ⟨hparse, rfl⟩ |
    ⟨history, hparse, ⟨hlast, hcode, hckpt⟩ | ⟨hlast, hcode, r', hset, hckpt⟩⟩
  · rw [hparse]
    exact h.answered rfl hcache hold
  · rw [hparse]
    dsimp only
    rw [if_pos hlast]
    refine h.answered hcode hcache fun k hk => ?_
    rw [latest_updateLastCkpt hckpt k hk]
    exact hold k hk
  · rw [hparse]
    dsimp only
    rw [if_neg hlast]
    exact h.answered hcode hcache (h.latest_setValue hset (latest_updateLastCkpt hckpt))

theorem setValueWithVersion (h : MirrorInv m) {version : ℤ} (hread : m.storage.Readable key)
    (hs : m.storage.setValueWithVersion key value version = some r) :
    MirrorInv (m.answered r (writtenWithVersion env m.written key value version)) := by
  have hcache := (cacheInv_rule env).setValueWithVersion h.cache trivial hs
  have hold := h.latest_read key
  have hcases := setValueWithVersion_cases hs
  rw [h.getValue_fst hread] at hcases
  unfold writtenWithVersion
  rcases hcases with ⟨hparse, rfl⟩ | ⟨history, hparse, ⟨hlast, rfl⟩ | ⟨hlast, -, hset⟩⟩
  · rw [hparse]
    exact h.answered rfl hcache hold
  · rw [hparse]
    dsimp only
    rw [if_pos hlast]
    exact h.answered rfl hcache hold
  · rw [hparse]
    dsimp only
    rw [if_neg (not_not.2 hlast)]
    exact h.answered (setValue_code hset) hcache (h.latest_setValue hset fun _ _ => rfl)

theorem setValue (h : MirrorInv m) (hs : m.storage.setValue key value = some r) :
    MirrorInv (m.answered r (0, update m.written key value)) := by
  refine h.answered (setValue_code hs) (h.cache.setValue hs) fun k hk => ?_
  rw [(setValue_spec hs).1]
  dsimp only
  rw [update_apply]
  split_ifs
  · rfl
  · exact h.latest k hk

end MirrorInv

/-- If reads see the latest write, the mirror stays a mirror. -/
theorem mirrorInv_of_reachable {env : LevelDbEnv} {m : Mirror env}
    (h : (mirrorSystem env).Reachable ReadsLatest m) : MirrorInv m := by
  refine h.invariant ?_ ?_
  · rintro m ⟨hbatch, hcache, hwritten, hcodes⟩
    refine ⟨fun key _ => ?_, fun c hc key value hv => ?_, fun c hc => ?_⟩
    · rw [hwritten, latest_of_not_pending]
      rw [hbatch]
      simp
    · obtain ⟨capacity, rfl⟩ := hcache c hc
      cases hv
    · rw [hcodes] at hc
      cases hc
  · intro m call m' hinv hok hs
    cases call with
    | setValue key value =>
      obtain ⟨r, hr, rfl⟩ := map_eq_some_iff.1 hs
      exact hinv.setValue hr
    | setValueWithSeq key value seq =>
      obtain ⟨r, hr, rfl⟩ := map_eq_some_iff.1 hs
      exact hinv.setValueWithSeq hok.2 hr
    | setValueWithVersion key value version =>
      obtain ⟨r, hr, rfl⟩ := map_eq_some_iff.1 hs
      exact hinv.setValueWithVersion hok.2.1 hr
    | getValue key =>
      cases hs
      exact ⟨hinv.latest_read key, hinv.cache.getValue key, hinv.codes⟩
    | flush =>
      cases hs
      refine ⟨fun k hk => ?_, hinv.cache.writeBatch, hinv.codes⟩
      rw [latest_writeBatch]
      exact hinv.latest k hk
    | clear =>
      cases hs
      exact ⟨fun _ _ => rfl, cacheInv_clear _, hinv.codes⟩

/-- A storage all of whose histories were read before they were extended behaves like a map: a read
that can see the last write returns it, the writes return the codes of the map, and no call fails. -/
theorem reads_own_writes {env : LevelDbEnv} {m : Mirror env}
    (h : (mirrorSystem env).Reachable ReadsLatest m) :
    (∀ key, m.storage.Readable key → (m.storage.getValue key).1 = m.written key) ∧
      (∀ c ∈ m.codes, c.1 = c.2) ∧
      ∀ call, ReadsLatest m call → ((mirrorSystem env).step m call).isSome := by
  have hinv := mirrorInv_of_reachable h
  refine ⟨fun key hread => hinv.getValue_fst hread, hinv.codes, fun call hok => ?_⟩
  cases call with
  | setValue key value =>
    exact isSome_map.trans (setValue_isSome hok key value)
  | setValueWithSeq key value seq =>
    exact isSome_map.trans (setValueWithSeq_isSome hok.1 key value seq)
  | setValueWithVersion key value version =>
    exact isSome_map.trans (setValueWithVersion_isSome hok.1 key value hok.2.2)
  | getValue _ | flush | clear => rfl

/-! ### A write that is kept and one that is lost -/

/-- Two writes to one key. -/
def twoWrites : List StorageCall :=
  [.setValueWithSeq (ofText "k") (ofText "a") 1,
    .setValueWithSeq (ofText "k") (ofText "b") 2]

/-- What they leave, if none is lost. -/
def bothWrites : Bytes :=
  wireEnv.codec.serialize
    { value := [{ value := ofText "a", seq := 1 }, { value := ofText "b", seq := 2 }] }

/-- A storage with room for two values in the cache, where writes wait for a flush. -/
def cachedStorage : Mirror wireEnv where
  storage := { writeBatchSize := 1000, blockCache := some (LruCache.construct 2) }
  written := fun _ => []

/-- The same without a cache. -/
def uncachedStorage : Mirror wireEnv where
  storage := { writeBatchSize := 1000 }
  written := fun _ => []

/-- With a cache, the second write extends what the first one wrote. -/
theorem reads_own_writes_cached :
    ∃ m, (mirrorSystem wireEnv).Reachable ReadsLatest m ∧
      (m.storage.getValue (ofText "k")).1 = m.written (ofText "k") ∧
      m.written (ofText "k") = bothWrites := by
  obtain ⟨m, hreach, hread, hwritten⟩ := (mirrorSystem wireEnv).exists_reachable (C := ReadsLatest)
    (P := fun m => m.storage.Readable (ofText "k") ∧ m.written (ofText "k") = bothWrites)
    (s := cachedStorage) twoWrites
    ⟨rfl, fun c hc => ⟨2, (Option.some.inj hc).symm⟩, fun _ => rfl, rfl⟩
    (by decide +kernel) (by decide +kernel)
  exact ⟨m, hreach, (reads_own_writes hreach).1 _ hread, hwritten⟩

/-- Without one, the second write does not see the first, which is pending, and replaces it. -/
theorem reads_own_writes_fails :
    ∃ m, (mirrorSystem wireEnv).Reachable TransitionSystem.always m ∧
      m.storage.batch = [] ∧ m.written (ofText "k") = bothWrites ∧
      (m.storage.getValue (ofText "k")).1 ≠ bothWrites := by
  have hinit : (mirrorSystem wireEnv).init uncachedStorage := by
    refine ⟨rfl, fun c hc => ?_, fun _ => rfl, rfl⟩
    cases hc
  exact (mirrorSystem wireEnv).exists_reachable_always (twoWrites ++ [.flush]) hinit
    (by decide +kernel)

end Kv
