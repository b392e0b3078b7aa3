/-
**What a snapshot transfer preserves.**

The storage that a follower has after a transfer should answer the reads of the latest values as the
leader's storage does.  It never does so for a storage in which a value was written: in memory the
views that are read are empty afterwards, and on disk the bare value is read as a message, which cannot
contain itself.

Main definitions:

* `Kv.ResLevelDB.LevelInv` — the cache agrees with the last writes, and keys are shorter than 4 GiB;
* `Kv.ResLevelDB.Blank` — the histories that may be there.

Main results:

* `Kv.ResLevelDB.levelInv_keeps` — the functions keep the invariant;
* `Kv.snapshot_transfer` — for both storages, a transfer keeps the answers of exactly the blank ones;
* `Kv.snapshot_transfer_fails` — one write is enough.
-/

import ResilientDb.LevelDbReads

set_option autoImplicit false

namespace Kv

open MemoryDB (Fresh)
open TransitionSystem (always guarded_always)
open OrderedMap (find?_of_mem lookup mem_of_find?)
open Wire (Bytes)

namespace ResLevelDB

variable {env : LevelDbEnv} {st : ResLevelDB env}

/-! ### Pending writes and the cache -/

/-- The cache holds values that were written last, and keys are shorter than 4 GiB. -/
structure LevelInv (st : ResLevelDB env) : Prop where
  cache : ∀ c ∈ st.blockCache, ∀ {key value : Bytes}, c.lookup key = some value →
    st.latest key = some value
  keys : ∀ {key value : Bytes}, st.latest key = some value → key.length < 2 ^ 32

theorem LevelInv.writeBatch (h : LevelInv st) : LevelInv st.writeBatch where
  cache := CacheInv.writeBatch h.cache
  keys := fun {key value} hv => by
    rw [latest_writeBatch] at hv
    exact h.keys hv

theorem LevelInv.getValue (h : LevelInv st) (key : Bytes) : LevelInv (st.getValue key).2 where
  cache := CacheInv.getValue h.cache key
  keys := fun {key' value} hv => by
    rw [latest_getValue] at hv
    exact h.keys hv

/-- A read returns what is in the database. -/
theorem LevelInv.getValue_fst (h : LevelInv st) (hbatch : st.batch = []) (key : Bytes) :
    (st.getValue key).1 = (st.db.find? key).getD [] := by
  have hpending : ¬ ∃ e ∈ st.batch, e.1 = key := by
    rw [hbatch]
    simp
  rw [CacheInv.getValue_fst h.cache fun hover => hpending hover.1, latest_of_not_pending hpending]

variable {key value : Bytes}

theorem LevelInv.setValue (h : LevelInv st) {r : ℤ × ResLevelDB env}
    (hkey : key.length < 2 ^ 32) (hs : st.setValue key value = some r) : LevelInv r.2 where
  cache := CacheInv.setValue h.cache hs
  keys := fun {k v} hv => by
    rw [(setValue_spec hs).1] at hv
    split_ifs at hv with hk
    · rw [hk]
      exact hkey
    · exact h.keys hv

theorem levelInv_rule (env : LevelDbEnv) : WriteRule env LevelInv fun key => key.length < 2 ^ 32 where
  ckpt := by decide
  getValue := fun key h => h.getValue key
  settings := fun _ _ h => ⟨h.cache, h.keys⟩
  setValue := fun h hkey hs => h.setValue hkey hs

theorem levelInv_keeps : Keeps (fun st : ResLevelDB env => LevelInv st) where
  setValueWithSeq := fun h hkey hs =>
    (levelInv_rule env).setValueWithSeq h (hkey.trans (by norm_num)) hs
  setValueWithVersion := fun h hkey hs =>
    (levelInv_rule env).setValueWithVersion h (hkey.trans (by norm_num)) hs
  getValueWithSeq := fun key _ h => LevelInv.getValue h key
  getValueWithVersion := fun key _ h => LevelInv.getValue h key
  getHistory := fun key _ _ h => LevelInv.getValue h key
  getTopHistory := fun key _ h => LevelInv.getValue h key
  flush := fun h => LevelInv.writeBatch h

/-- A storage that was just opened: it has settings, and nothing else. -/
def Fresh (st : ResLevelDB env) : Prop :=
  st.db = .empty ∧ st.batch = [] ∧ ∀ c ∈ st.blockCache, ∃ capacity, c = LruCache.construct capacity

theorem Fresh.latest (h : st.Fresh) (key : Bytes) : st.latest key = none := by
  rw [ResLevelDB.latest, h.1, h.2.1]
  rfl

theorem Fresh.levelInv (h : st.Fresh) : LevelInv st where
  cache := fun c hc key value hv => by
    obtain ⟨capacity, rfl⟩ := h.2.2 c hc
    cases hv
  keys := fun {key value} hv => by
    rw [h.latest] at hv
    cases hv

theorem fresh_clear (st : ResLevelDB env) : st.clear.Fresh := by
  refine ⟨rfl, rfl, fun c hc => ?_⟩
  obtain ⟨c', -, rfl⟩ := Option.map_eq_some_iff.1 hc
  exact ⟨c'.capacity, rfl⟩

/-! ### What a transfer does -/

/-- The only histories with values are those of hidden keys, and their latest value is the answer for
a key without one. -/
def Blank (st : ResLevelDB env) : Prop :=
  ∀ e ∈ st.db.entries,
    ∀ last ∈ (env.codec.parse e.2).bind fun history => history.value.getLast?,
      hidden e.1 = true ∧ last.value = [] ∧ last.version = 0 ∧ last.seq = 0

instance (st : ResLevelDB env) : Decidable st.Blank :=
  inferInstanceAs (Decidable (∀ e ∈ st.db.entries, ∀ last ∈ Option.bind _ _, _))

/-- The items of the snapshot are written one after the other. -/
theorem setItems_latest : ∀ {items : List (Bytes × Bytes)} {st st' : ResLevelDB env},
    LevelInv st → (∀ e ∈ items, e.1.length < 2 ^ 32) → setItems items st = some st' →
    LevelInv st' ∧ ∀ key, st'.latest key = (lookup key items.reverse).or (st.latest key)
  | [], st, st', h, _, hs => by
    cases hs
    exact ⟨h, fun key => rfl⟩
  | item :: items, st, st', h, hkeys, hs => by
    obtain ⟨r, hr, hs⟩ := Option.bind_eq_some_iff.1 hs
    have hset := h.setValue (hkeys item List.mem_cons_self) hr
    obtain ⟨hinv, hlatest⟩ :=
      setItems_latest hset (fun e he => hkeys e (List.mem_cons_of_mem _ he)) hs
    refine ⟨hinv, fun key => ?_⟩
    rw [hlatest, (setValue_spec hr).1, List.reverse_cons, OrderedMap.lookup_append,
      Option.or_assoc, OrderedMap.lookup_cons]
    split_ifs <;> rfl

theorem head?_versions (history : ValueHistory) :
    (versions history).head? = history.value.getLast?.map fun v => (v.value, v.version) := by
  rw [versions, List.head?_map, List.head?_reverse]

variable {b : Bytes}

/-- What `GetAllItems` shows of a key. -/
theorem item_eq_some_iff {version : ℤ} :
    item env key b = some (value, version) ↔ hidden key = false ∧
      ∃ history, env.codec.parse b = some history ∧
        ∃ last ∈ history.value.getLast?, last.value = value ∧ last.version = version := by
  unfold item
  split_ifs with hhidden
  · simp [hhidden]
  · simp [hhidden, head?_versions, Option.bind_eq_some_iff]

theorem LevelInv.plainItems_size (h : LevelInv st) (hbatch : st.batch = []) :
    ∀ e ∈ plainItems st, e.1.length < 2 ^ 32 ∧ e.2.length < 2 ^ 32 := by
  intro e he
  obtain ⟨⟨key, value, version⟩, hitem, rfl⟩ := List.mem_map.1 he
  obtain ⟨b, hb, hitem⟩ := OrderedMap.mem_filterMap.1 hitem
  obtain ⟨-, history, hparse, last, hlast, rfl, -⟩ := item_eq_some_iff.1 hitem
  constructor
  · have hlatest : st.latest key = some b := by
      rw [latest, hbatch]
      exact find?_of_mem hb
    exact h.keys hlatest
  · exact (env.codec.value_size hparse last (List.mem_of_getLast? hlast)).2.trans (by norm_num)

/-- After a transfer a key has its newest value, without the history. -/
theorem transfer_db {src dst dst' : ResLevelDB env} (h : LevelInv src) (hbatch : src.batch = [])
    (ht : transfer src dst = some dst') : LevelInv dst' ∧ dst'.batch = [] ∧
      ∀ key, dst'.db.find? key = (src.getAllItems.find? key).map Prod.fst := by
  rw [transfer_eq dst (h.plainItems_size hbatch)] at ht
  obtain ⟨st, hst, rfl⟩ := Option.map_eq_some_iff.1 ht
  have hfresh : dst.clear.Fresh := fresh_clear dst
  obtain ⟨hinv, hlatest⟩ :=
    setItems_latest hfresh.levelInv (fun e he => (h.plainItems_size hbatch e he).1) hst
  refine ⟨hinv.writeBatch, rfl, fun key => ?_⟩
  -- the keys of the items are distinct, so that the order of the writes does not matter
  have hlookup : lookup key (plainItems src).reverse =
      (src.getAllItems.find? key).map Prod.fst := by
    have hdistinct : (plainItems src).reverse.Pairwise fun a b => a.1 ≠ b.1 := by
      rw [List.pairwise_reverse]
      exact List.pairwise_map.2 (src.getAllItems.distinct.imp fun hne => hne.symm)
    ext value
    rw [OrderedMap.lookup_eq_some_iff_mem hdistinct, List.mem_reverse, Option.map_eq_some_iff]
    constructor
    · intro hmem
      obtain ⟨⟨k, v⟩, he, heq⟩ := List.mem_map.1 hmem
      cases heq
      exact ⟨v, find?_of_mem he, rfl⟩
    · rintro ⟨v, hv, rfl⟩
      exact List.mem_map.2 ⟨(key, v), mem_of_find? hv, rfl⟩
  have hwrite := latest_writeBatch st key
  rw [hlatest, hfresh.latest, Option.or_none, hlookup] at hwrite
  exact hwrite

/-- The latest value in the history that leveldb has for a key. -/
def lastValue (st : ResLevelDB env) (key : Bytes) : Option Value :=
  (env.codec.parse ((st.db.find? key).getD [])).bind fun history => history.value.getLast?

theorem lastValue_of_find?_none (h : st.db.find? key = none) : st.lastValue key = none := by
  rw [lastValue, h, Option.getD_none, env.codec.parse_nil]
  rfl

/-- What a blank storage holds is hidden and empty. -/
theorem Blank.lastValue (h : st.Blank) {last : Value} (hlast : st.lastValue key = some last) :
    hidden key = true ∧ last.value = [] ∧ last.version = 0 ∧ last.seq = 0 := by
  cases hb : st.db.find? key with
  | none =>
    rw [lastValue_of_find?_none hb] at hlast
    cases hlast
  | some b =>
    rw [ResLevelDB.lastValue, hb] at hlast
    exact h (key, b) (mem_of_find? hb) last hlast

theorem Blank.item_eq_none (h : st.Blank) (hb : (key, b) ∈ st.db.entries) :
    item env key b = none := by
  refine Option.eq_none_iff_forall_ne_some.2 fun e he => ?_
  obtain ⟨hshown, history, hparse, last, hlast, -⟩ := item_eq_some_iff.1 he
  have hhidden := (h (key, b) hb last (Option.bind_eq_some_iff.2 ⟨history, hparse, hlast⟩)).1
  rw [hshown] at hhidden
  cases hhidden

theorem Blank.getAllItems (h : st.Blank) : st.getAllItems = .empty :=
  OrderedMap.filterMap_eq_empty fun _ hb => h.item_eq_none hb

theorem Blank.getKeyRange (h : st.Blank) (minKey maxKey : Bytes) :
    st.getKeyRange minKey maxKey = .empty := by
  refine OrderedMap.filterMap_eq_empty fun e hb => ?_
  rw [h.item_eq_none hb, ite_self]

section Reads

variable (h : LevelInv st) (hbatch : st.batch = [])

include h hbatch

theorem getValueWithSeq_zero (key : Bytes) :
    (st.getValueWithSeq key 0).1 = ((st.lastValue key).map fun v => (v.value, v.seq)).getD ([], 0) := by
  simp [getValueWithSeq, h.getValue_fst hbatch, lastValue]

theorem getValueWithVersion_zero (key : Bytes) : (st.getValueWithVersion key 0).1 =
      ((st.lastValue key).map fun v => (v.value, v.version)).getD ([], 0) := by
  simp [getValueWithVersion, h.getValue_fst hbatch, lastValue, versions, Option.map_bind]

theorem Blank.getValueWithSeq (hblank : st.Blank) (key : Bytes) :
    (st.getValueWithSeq key 0).1 = ([], 0) := by
  rw [getValueWithSeq_zero h hbatch]
  cases hlast : st.lastValue key with
  | none => rfl
  | some last =>
    obtain ⟨-, hvalue, -, hseq⟩ := hblank.lastValue hlast
    simp [hvalue, hseq]

theorem Blank.getValueWithVersion (hblank : st.Blank) (key : Bytes) :
    (st.getValueWithVersion key 0).1 = ([], 0) := by
  rw [getValueWithVersion_zero h hbatch]
  cases hlast : st.lastValue key with
  | none => rfl
  | some last =>
    obtain ⟨-, hvalue, hversion, -⟩ := hblank.lastValue hlast
    simp [hvalue, hversion]

end Reads

theorem not_shown_of_sameAnswers {src dst' : ResLevelDB env} (hr : SameAnswers src dst')
    (hdb : ∀ key, dst'.db.find? key = (src.getAllItems.find? key).map Prod.fst)
    {version : ℤ} (hb : (key, b) ∈ src.db.entries) : item env key b ≠ some (value, version) := by
  intro hitem
  have hall : src.getAllItems.find? key = some (value, version) :=
    find?_of_mem (OrderedMap.mem_filterMap.2 ⟨b, hb, hitem⟩)
  have hrange : (key, (value, version)) ∈ (dst'.getKeyRange key key).entries := by
    rw [← show src.getKeyRange key key = dst'.getKeyRange key key from hr.2.2 key key]
    exact OrderedMap.mem_filterMap.2 ⟨b, hb, by simp [hitem]⟩
  obtain ⟨b', hb', hitem'⟩ := OrderedMap.mem_filterMap.1 hrange
  -- the bare value is read as a message, which would have to contain itself
  have hbare : b' = value := by
    have hfind := hdb key
    rw [find?_of_mem hb', hall] at hfind
    exact Option.some.inj hfind
  rw [if_pos ⟨le_rfl, le_rfl⟩] at hitem'
  obtain ⟨-, history, hparse, last, hlast, hvalue, -⟩ := item_eq_some_iff.1 hitem'
  have hsize := (env.codec.value_size hparse last (List.mem_of_getLast? hlast)).1
  rw [hvalue, hbare] at hsize
  exact lt_irrefl _ hsize

/-- A transfer keeps the answers of blank storages only. -/
theorem transfer_sameAnswers_iff {src dst : ResLevelDB env} (h : LevelInv src)
    (hbatch : src.batch = []) :
    (∃ dst', transfer src dst = some dst' ∧ SameAnswers src dst') ↔ src.Blank := by
  constructor
  · rintro ⟨dst', ht, hr⟩
    obtain ⟨hinv, hbatch', hdb⟩ := transfer_db h hbatch ht
    intro e he last hlastValue
    obtain ⟨history, hparse, hlast⟩ := Option.bind_eq_some_iff.1 hlastValue
    have hshown : item env e.1 e.2 ≠ some (last.value, last.version) :=
      not_shown_of_sameAnswers hr hdb he
    have hhidden : hidden e.1 = true := by
      rw [← Bool.not_eq_false]
      exact fun hh => hshown (item_eq_some_iff.2 ⟨hh, history, hparse, last, hlast, rfl, rfl⟩)
    -- a hidden key is not listed, and so it is gone
    have hgone : dst'.lastValue e.1 = none := by
      refine lastValue_of_find?_none ?_
      rw [hdb, Option.map_eq_none_iff]
      refine Option.eq_none_iff_forall_ne_some.2 fun v hv => ?_
      obtain ⟨b, -, hitem⟩ := OrderedMap.mem_filterMap.1 (mem_of_find? hv)
      rw [item, if_pos hhidden] at hitem
      cases hitem
    have hlastValue : src.lastValue e.1 = some last := by
      rw [lastValue, find?_of_mem he]
      exact hlastValue
    have hseq := hr.1 e.1
    have hversion := hr.2.1 e.1
    change (src.getValueWithSeq e.1 0).1 = (dst'.getValueWithSeq e.1 0).1 at hseq
    change (src.getValueWithVersion e.1 0).1 = (dst'.getValueWithVersion e.1 0).1 at hversion
    rw [getValueWithSeq_zero h hbatch, getValueWithSeq_zero hinv hbatch', hgone, hlastValue] at hseq
    rw [getValueWithVersion_zero h hbatch, getValueWithVersion_zero hinv hbatch', hgone, hlastValue]
      at hversion
    exact ⟨hhidden, congrArg Prod.fst hseq, congrArg Prod.snd hversion, congrArg Prod.snd hseq⟩
  · intro hblank
    have hitems : plainItems src = [] := by
      rw [plainItems, show Storage.getAllItems src = src.getAllItems from rfl, hblank.getAllItems]
      rfl
    have ht : transfer src dst = some dst.clear.writeBatch := by
      rw [transfer_eq dst (h.plainItems_size hbatch), hitems]
      rfl
    obtain ⟨hinv, hbatch', hdb⟩ := transfer_db h hbatch ht
    have hblank' : dst.clear.writeBatch.Blank := by
      rintro e ⟨⟩
    refine ⟨_, ht, fun key => ?_, fun key => ?_, fun minKey maxKey => ?_⟩
    · exact (hblank.getValueWithSeq h hbatch key).trans
        (hblank'.getValueWithSeq hinv hbatch' key).symm
    · exact (hblank.getValueWithVersion h hbatch key).trans
        (hblank'.getValueWithVersion hinv hbatch' key).symm
    · exact (hblank.getKeyRange minKey maxKey).trans (hblank'.getKeyRange minKey maxKey).symm

/-- The invariant holds in every run. -/
theorem levelInv_of_reachable {e : KVExecutor (ResLevelDB env)}
    (h : (executorSystem Fresh).Reachable always e) : LevelInv e.storage :=
  levelInv_keeps.reachable (fun _ hfresh => hfresh.levelInv) h

end ResLevelDB

/-! ### Both storages -/

/-- For every storage that a run of the executor reaches, and whatever the follower has, the transfer
gives a storage with the same answers exactly if the storage is blank. -/
theorem snapshot_transfer (env : LevelDbEnv) :
    (∀ src dst : KVExecutor MemoryDB,
      (executorSystem Fresh).Reachable always src →
      (executorSystem Fresh).Reachable always dst →
      ((∃ st, transfer src.storage dst.storage = some st ∧ SameAnswers src.storage st) ↔
        src.storage.Blank)) ∧
    ∀ src dst : KVExecutor (ResLevelDB env),
      (executorSystem ResLevelDB.Fresh).Reachable always src →
      (executorSystem ResLevelDB.Fresh).Reachable always dst →
      src.storage.batch = [] →
      ((∃ st, transfer src.storage dst.storage = some st ∧ SameAnswers src.storage st) ↔
        src.storage.Blank) := by
  constructor
  · intro src dst _ _
    exact MemoryDB.transfer_sameAnswers_iff src.storage dst.storage
  · intro src dst hsrc _ hbatch
    exact ResLevelDB.transfer_sameAnswers_iff (ResLevelDB.levelInv_of_reachable hsrc) hbatch

theorem memoryDb_init : (executorSystem Fresh).init ⟨{}, 0⟩ := ⟨rfl, rfl⟩

theorem levelDb_init :
    (executorSystem ResLevelDB.Fresh).init (⟨{}, 0⟩ : KVExecutor (ResLevelDB wireEnv)) :=
  ⟨⟨rfl, rfl, fun c hc => by cases hc⟩, rfl⟩

/-- The batch with one write of an empty value, to a key that range scans hide. -/
def hiddenWrite : List Command :=
  [.executeBatchWithSeq 0 [some { cmd := .set, key := ckPrefix }]]

/-- The batch with one write of a version. -/
def versionWrite : List Command :=
  [.executeBatchWithSeq 1
    [some { cmd := .setWithVersion, key := Wire.ofText "k", value := Wire.ofText "v" }]]

theorem size_k : (Wire.ofText "k").length < 2 ^ 31 := by decide

/-- An empty value of a hidden key is transferred. -/
theorem snapshot_transfer_hiddenWrite :
    (∃ src : KVExecutor MemoryDB, (executorSystem Fresh).run ⟨{}, 0⟩ hiddenWrite = some src ∧
      ∃ st, transfer src.storage src.storage = some st ∧ SameAnswers src.storage st) ∧
    ∃ src : KVExecutor (ResLevelDB wireEnv),
      (executorSystem ResLevelDB.Fresh).run ⟨{}, 0⟩ hiddenWrite = some src ∧
      ∃ st, transfer src.storage src.storage = some st ∧ SameAnswers src.storage st := by
  constructor
  · obtain ⟨src, hsrc, hr, hblank⟩ := (executorSystem Fresh).exists_run
      (P := fun e => e.storage.Blank) hiddenWrite memoryDb_init
      (guarded_always _ _) (by decide +kernel)
    exact ⟨src, hsrc, ((snapshot_transfer wireEnv).1 src src hr hr).2 hblank⟩
  · obtain ⟨src, hsrc, hr, hbatch, hblank⟩ := (executorSystem ResLevelDB.Fresh).exists_run
      (P := fun e : KVExecutor (ResLevelDB wireEnv) => e.storage.batch = [] ∧ e.storage.Blank)
      hiddenWrite levelDb_init (guarded_always _ _) (by decide +kernel)
    exact ⟨src, hsrc, ((snapshot_transfer wireEnv).2 src src hr hr hbatch).2 hblank⟩

/-- A storage with one version is not transferred, by neither of the two. -/
theorem snapshot_transfer_fails :
    (∃ src : KVExecutor MemoryDB,
      (executorSystem Fresh).Reachable always src ∧
      ¬ ∃ st, transfer src.storage src.storage = some st ∧ SameAnswers src.storage st) ∧
    ∃ src : KVExecutor (ResLevelDB wireEnv),
      (executorSystem ResLevelDB.Fresh).Reachable always src ∧
      src.storage.batch = [] ∧
      ¬ ∃ st, transfer src.storage src.storage = some st ∧ SameAnswers src.storage st := by
  constructor
  · obtain ⟨src, hr, hblank⟩ := (executorSystem Fresh).exists_reachable_always
      (P := fun e => ¬ e.storage.Blank) versionWrite memoryDb_init (by decide +kernel)
    exact ⟨src, hr, fun h => hblank ((MemoryDB.transfer_sameAnswers_iff _ _).1 h)⟩
  · obtain ⟨src, hr, hbatch, hblank⟩ := (executorSystem ResLevelDB.Fresh).exists_reachable_always
      (P := fun e : KVExecutor (ResLevelDB wireEnv) => e.storage.batch = [] ∧ ¬ e.storage.Blank)
      versionWrite levelDb_init (by decide +kernel)
    refine ⟨src, hr, hbatch, fun h => ?_⟩
    have hinv := ResLevelDB.levelInv_of_reachable hr
    exact hblank ((ResLevelDB.transfer_sameAnswers_iff hinv hbatch).1 h)

end Kv
