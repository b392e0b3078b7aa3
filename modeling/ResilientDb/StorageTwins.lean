/-
**The storage in memory and the storage on disk.**

`KVExecutor` runs on `MemoryDB` or on `ResLevelDB`, and a client should not see which.  In memory the
values with sequence numbers and the values with versions of a key are kept apart; on disk they share
one history.  The answers are the same as long as every key is used in one of the two ways only.

Four more things show the difference: `GET_TOP` with the number 0 returns a value in memory, ranges on
disk hide the keys of secondary indexes, `leveldb_checkpoint` belongs to the storage on disk, and
messages end at 2 GiB (`Kv.storages_interchangeable_fails`).

Main definitions:

* `Kv.Twins`, `Kv.twinSystem` — the two executors under one sequence of requests;
* `Kv.OneKind` — the condition on a request;
* `Kv.Matches` — every key has the same values in both storages.

Main results:

* `Kv.Matches.apply` — a write keeps the match;
* `Kv.Matches.executeData` — a request has one answer;
* `Kv.storages_interchangeable` — all answers of a run are the same.
-/

import ResilientDb.KvReplay

set_option autoImplicit false

namespace Kv

open Wire (Bytes ofText)

/-! ### Runs -/

/-- The executor over both storages, and what each has answered.  An answer is `none` where the source
is undefined, and for a request that cannot be parsed. -/
structure Twins (env : LevelDbEnv) where
  memory : KVExecutor MemoryDB
  level : KVExecutor (ResLevelDB env)
  answers : List (Option KVResponse × Option KVResponse)

variable {env : LevelDbEnv}

/-- Both executors take one step. -/
def Twins.step (s : Twins env) : RequestAction → Option (Twins env)
  | .begin seq => some { s with
      memory := { s.memory with seq := seq }
      level := { s.level with seq := seq } }
  | .request none => some { s with answers := s.answers ++ [(none, none)] }
  | .request (some q) =>
    let a := executeData s.memory q
    let b := executeData s.level q
    some
      { memory := (a.map Prod.snd).getD s.memory
        level := (b.map Prod.snd).getD s.level
        answers := s.answers ++ [(a.map Prod.fst, b.map Prod.fst)] }

variable (env) in
/-- Both executors start with new storages with the same settings; the one on disk is written through. -/
def twinSystem : TransitionSystem (Twins env) RequestAction where
  init s := s.memory.storage.Fresh ∧ s.level.storage.Fresh ∧ s.level.storage.CacheRoom ∧
    s.level.storage.WritesThrough ∧ s.memory.storage.maxHistory ≠ 0 ∧
    s.memory.storage.maxHistory = s.level.storage.maxHistory ∧ s.memory.seq = s.level.seq ∧
    s.answers = []
  step := Twins.step

/-- The request uses its key in the way in which it has been used before; it does not ask for the top 0
values of a key that has some, and no range over keys that only one storage shows. -/
def OneKind (s : Twins env) (q : KVRequest) : Prop :=
  let memory := s.memory.storage
  (∀ w ∈ q.write s.memory.seq, s.level.storage.HasRoom w) ∧
  match q.cmd with
  | .set => memory.kvMapWithV.find? q.key = none
  | .get => memory.kvMapWithV.find? q.key = none
  | .setWithVersion => memory.kvMapWithSeq.find? q.key = none
  | .getWithVersion => memory.kvMapWithSeq.find? q.key = none
  | .getHistory => memory.kvMapWithSeq.find? q.key = none
  | .getTop => memory.kvMapWithSeq.find? q.key = none ∧
      (q.topNumber = 0 → memory.kvMapWithV.find? q.key = none)
  | .getKeyRange =>
    (∀ key ∈ memory.kvMapWithSeq.keys, ¬ (q.minKey ≤ key ∧ key ≤ q.maxKey)) ∧
    ∀ key ∈ memory.kvMapWithV.keys, hidden key = true → ¬ (q.minKey ≤ key ∧ key ≤ q.maxKey)
  | .getAllValues => True
  | .getAllItems => True

instance (s : Twins env) (q : KVRequest) : Decidable (OneKind s q) := by
  unfold OneKind
  refine @instDecidableAnd _ _ (inferInstanceAs (Decidable (∀ w ∈ q.write s.memory.seq, _))) ?_
  split <;> infer_instance

/-- The condition on a step. -/
def OneKindStep (s : Twins env) : RequestAction → Prop
  | .request (some q) => OneKind s q
  | _ => True

instance (s : Twins env) (a : RequestAction) : Decidable (OneKindStep s a) :=
  match a with
  | .begin _ | .request none => inferInstanceAs (Decidable True)
  | .request (some q) => inferInstanceAs (Decidable (OneKind s q))

/-! ### Matching storages -/

/-- Every key has the same values in both storages, of one kind. -/
structure Matches (memory : MemoryDB) (level : ResLevelDB env) : Prop where
  memoryInv : memory.ReplayInv
  levelInv : level.ReplayInv
  maxHistory : memory.maxHistory = level.maxHistory
  keeps : level.maxHistory ≠ 0
  values : ∀ key, level.storedValues key =
    memory.storedValues (key, false) ++ memory.storedValues (key, true)
  oneKind : ∀ key, memory.storedValues (key, false) = [] ∨ memory.storedValues (key, true) = []

namespace Matches

variable {memory : MemoryDB} {level : ResLevelDB env} {key : Bytes}

section

variable (h : Matches memory level)
include h

/-- A key without versions holds the same values in both storages. -/
theorem values_of_seq (hv : memory.storedValues (key, true) = []) :
    level.storedValues key = memory.storedValues (key, false) := by
  rw [h.values, hv, List.append_nil]

theorem values_of_version (hs : memory.storedValues (key, false) = []) :
    level.storedValues key = memory.storedValues (key, true) := by
  rw [h.values, hs, List.nil_append]

theorem getValue (key : Bytes) : Matches memory (level.getValue key).2 := by
  obtain ⟨hlevel, hvalues⟩ := h.levelInv.getValue key
  refine ⟨h.memoryInv, hlevel, ?_, ?_, ?_, h.oneKind⟩
  · rw [ResLevelDB.maxHistory_getValue]
    exact h.maxHistory
  · rw [ResLevelDB.maxHistory_getValue]
    exact h.keeps
  · rw [hvalues]
    exact h.values

/-- A write does the same to both. -/
theorem apply (hcodec : env.codec.Fits) {w : Write}
    (hroom : level.HasRoom w) (hother : memory.storedValues (w.key, !w.version.isSome) = [])
    {r : ℤ × MemoryDB} {r' : ℤ × ResLevelDB env} (hr : w.apply memory = some r)
    (hr' : w.apply level = some r') : Matches r.2 r'.2 := by
  obtain ⟨hmemory, hmax, hvalues⟩ := h.memoryInv.apply (fun _ => h.maxHistory ▸ h.keeps) hr
  obtain ⟨hlevel, hmax', hvalues'⟩ := h.levelInv.apply hcodec (fun _ => h.keeps) hroom hr'
  have hslot : level.storedValues w.key = memory.storedValues (w.key, w.version.isSome) := by
    cases hkind : w.version.isSome <;> rw [hkind] at hother
    · exact h.values_of_seq hother
    · exact h.values_of_version hother
  have hne : (w.key, !w.version.isSome) ≠ (w.key, w.version.isSome) := fun heq =>
    Bool.not_ne_self _ (Prod.mk.inj heq).2
  -- the other kind stays empty
  have hother' : r.2.storedValues (w.key, !w.version.isSome) = [] := by
    rw [hvalues, Function.update_of_ne hne]
    exact hother
  have hnew : r'.2.storedValues w.key = r.2.storedValues (w.key, w.version.isSome) := by
    rw [hvalues, hvalues', Function.update_self, Function.update_self, hslot, h.maxHistory]
  have hold : ∀ k, k ≠ w.key → ∀ kind, r.2.storedValues (k, kind) = memory.storedValues (k, kind) := by
    intro k hk kind
    rw [hvalues, Function.update_of_ne (by simp [hk])]
  refine ⟨hmemory, hlevel, by rw [hmax, hmax', h.maxHistory], hmax' ▸ h.keeps, fun k => ?_,
    fun k => ?_⟩
  · rcases eq_or_ne k w.key with rfl | hk
    · rw [hnew]
      cases hkind : w.version.isSome <;> rw [hkind] at hother'
      · rw [show r.2.storedValues (w.key, true) = [] from hother', List.append_nil]
      · rw [show r.2.storedValues (w.key, false) = [] from hother', List.nil_append]
    · rw [hvalues', Function.update_of_ne hk, h.values, hold k hk, hold k hk]
  · rcases eq_or_ne k w.key with rfl | hk
    · cases hkind : w.version.isSome <;> rw [hkind] at hother'
      · exact .inr hother'
      · exact .inl hother'
    · rw [hold k hk, hold k hk]
      exact h.oneKind k

end

end Matches

/-! ### Reads -/

/-- The values with their versions, the newest first. -/
def valueVersions (vs : List Value) : List (Bytes × ℤ) := vs.reverse.map fun v => (v.value, v.version)

/-- The answer for a version: the value with it, or else the newest one. -/
def answerVersion (version : ℤ) (vs : List (Bytes × ℤ)) : Bytes × ℤ :=
  ((scanVersion version vs).or vs.head?).getD ([], 0)

namespace MemoryDB

variable {st : MemoryDB}

theorem storedValues_seq_eq_nil {key : Bytes} (h : st.kvMapWithSeq.find? key = none) :
    st.storedValues (key, false) = [] := by
  rw [storedValues, h]
  rfl

theorem storedValues_version_eq_nil {key : Bytes} (h : st.kvMapWithV.find? key = none) :
    st.storedValues (key, true) = [] := by
  rw [storedValues, h]
  rfl

theorem valueVersions_storedValues (st : MemoryDB) (key : Bytes) :
    valueVersions (st.storedValues (key, true)) =
      ((st.kvMapWithV.find? key).map fun l => l.values.reverse).getD [] := by
  rw [storedValues]
  cases st.kvMapWithV.find? key with
  | none => rfl
  | some l =>
    rw [Option.map_some, Option.getD_some, valueVersions, ← List.map_reverse, List.map_map]
    exact List.map_id _

theorem getValueWithVersion_eq (st : MemoryDB) (key : Bytes) (version : ℤ) :
    st.getValueWithVersion key version =
      answerVersion version (valueVersions (st.storedValues (key, true))) := by
  rw [getValueWithVersion, valueVersions_storedValues]
  cases st.kvMapWithV.find? key with
  | none => rfl
  | some l =>
    have hhead : l.values.reverse.head? = some l.back := by
      rw [List.head?_reverse, List.getLast?_eq_some_getLast l.nonempty]
      rfl
    rw [Option.map_some, Option.getD_some, answerVersion, hhead]
    dsimp only
    cases scanVersion version l.values.reverse <;> rfl

theorem getHistory_eq (st : MemoryDB) (key : Bytes) (minVersion maxVersion : ℤ) :
    st.getHistory key minVersion maxVersion =
      scanHistory minVersion maxVersion (valueVersions (st.storedValues (key, true))) := by
  rw [getHistory, valueVersions_storedValues]
  cases st.kvMapWithV.find? key <;> rfl

theorem getTopHistory_eq (st : MemoryDB) (key : Bytes) (topNumber : ℤ) :
    st.getTopHistory key topNumber =
      if topNumber < 0 then valueVersions (st.storedValues (key, true))
      else (valueVersions (st.storedValues (key, true))).take (max 1 topNumber.toNat) := by
  rw [getTopHistory, valueVersions_storedValues]
  cases st.kvMapWithV.find? key with
  | none => simp
  | some l => rfl

theorem ReplayInv.valueVersions_pos (h : ReplayInv st) (key : Bytes) :
    ∀ e ∈ valueVersions (st.storedValues (key, true)), 0 < e.2 := by
  rw [valueVersions_storedValues]
  cases hl : st.kvMapWithV.find? key with
  | none => simp
  | some l => exact fun e he => h.versions hl e (List.mem_reverse.1 he)

end MemoryDB

theorem scanVersion_eq_none {version : ℤ} (hversion : version ≤ 0) : ∀ {vs : List (Bytes × ℤ)},
    (∀ e ∈ vs, 0 < e.2) → scanVersion version vs = none
  | [], _ => rfl
  | e :: vs, hvs => by
    have hpos := hvs e List.mem_cons_self
    rw [scanVersion, if_neg (by omega), if_neg (by omega)]
    exact scanVersion_eq_none hversion fun e he => hvs e (List.mem_cons_of_mem _ he)

namespace ResLevelDB.ReplayInv

variable {st : ResLevelDB env}

theorem parse_getValue (h : ReplayInv st) (key : Bytes) :
    ((env.codec.parse (st.getValue key).1).map ValueHistory.value).getD [] = st.storedValues key := by
  rw [h.getValue_fst]
  rfl

theorem getValueWithVersion_eq (h : ReplayInv st) (key : Bytes) (version : ℤ) :
    (st.getValueWithVersion key version).1 =
      if version > 0 then answerVersion version (valueVersions (st.storedValues key))
      else (valueVersions (st.storedValues key)).head?.getD ([], 0) := by
  rw [← h.parse_getValue, getValueWithVersion]
  cases env.codec.parse (st.getValue key).1 with
  | none | some _ => split_ifs <;> rfl

theorem getHistory_eq (h : ReplayInv st) (key : Bytes) (minVersion maxVersion : ℤ) :
    (st.getHistory key minVersion maxVersion).1 =
      scanHistory minVersion maxVersion (valueVersions (st.storedValues key)) := by
  rw [← h.parse_getValue, getHistory]
  cases env.codec.parse (st.getValue key).1 <;> rfl

theorem getTopHistory_eq (h : ReplayInv st) (key : Bytes) (topNumber : ℤ) :
    (st.getTopHistory key topNumber).1 = if topNumber < 0 then valueVersions (st.storedValues key)
      else (valueVersions (st.storedValues key)).take topNumber.toNat := by
  rw [← h.parse_getValue, getTopHistory]
  cases env.codec.parse (st.getValue key).1 with
  | none => simp [valueVersions]
  | some history => rfl

end ResLevelDB.ReplayInv

namespace Matches

variable {memory : MemoryDB} {level : ResLevelDB env} {key : Bytes}

section

variable (h : Matches memory level)
include h

theorem getValueWithSeq_eq (hv : memory.kvMapWithV.find? key = none) :
    memory.getValueWithSeq key 0 = (level.getValueWithSeq key 0).1 := by
  rw [MemoryDB.getValueWithSeq_cell, memory.cell_eq,
    ResLevelDB.getValueWithSeq_zero h.levelInv.direct.level h.levelInv.direct.batch,
    level.lastValue_eq, h.values_of_seq (MemoryDB.storedValues_version_eq_nil hv)]

theorem getValueWithVersion_eq (hs : memory.kvMapWithSeq.find? key = none) (version : ℤ) :
    memory.getValueWithVersion key version = (level.getValueWithVersion key version).1 := by
  rw [MemoryDB.getValueWithVersion_eq, h.levelInv.getValueWithVersion_eq,
    h.values_of_version (MemoryDB.storedValues_seq_eq_nil hs)]
  split_ifs with hversion
  · rfl
  · rw [answerVersion,
      scanVersion_eq_none (not_lt.1 hversion) (h.memoryInv.valueVersions_pos key), Option.none_or]

theorem getHistory_eq (hs : memory.kvMapWithSeq.find? key = none) (minVersion maxVersion : ℤ) :
    memory.getHistory key minVersion maxVersion = (level.getHistory key minVersion maxVersion).1 := by
  rw [MemoryDB.getHistory_eq, h.levelInv.getHistory_eq,
    h.values_of_version (MemoryDB.storedValues_seq_eq_nil hs)]

theorem getTopHistory_eq (hs : memory.kvMapWithSeq.find? key = none)
    {topNumber : ℤ} (htop : topNumber = 0 → memory.kvMapWithV.find? key = none) :
    memory.getTopHistory key topNumber = (level.getTopHistory key topNumber).1 := by
  rw [MemoryDB.getTopHistory_eq, h.levelInv.getTopHistory_eq,
    h.values_of_version (MemoryDB.storedValues_seq_eq_nil hs)]
  rcases eq_or_ne topNumber 0 with rfl | hne
  · rw [MemoryDB.storedValues_version_eq_nil (htop rfl)]
    rfl
  · split_ifs
    · rfl
    · rw [max_eq_right (by omega)]

theorem getKeyRange_eq {minKey maxKey : Bytes}
    (hs : ∀ key ∈ memory.kvMapWithSeq.keys, ¬ (minKey ≤ key ∧ key ≤ maxKey))
    (hv : ∀ key ∈ memory.kvMapWithV.keys, hidden key = true → ¬ (minKey ≤ key ∧ key ≤ maxKey)) :
    memory.getKeyRange minKey maxKey = level.getKeyRange minKey maxKey := by
  refine OrderedMap.ext_find? fun key => ?_
  rw [MemoryDB.find?_getKeyRange, ResLevelDB.find?_getKeyRange, memory.cell_eq, level.lastValue_eq]
  by_cases hrange : minKey ≤ key ∧ key ≤ maxKey
  · have hseq : memory.kvMapWithSeq.find? key = none :=
      Option.eq_none_iff_forall_ne_some.2 fun l hl =>
        hs key (List.mem_map_of_mem (OrderedMap.mem_of_find? hl)) hrange
    rw [h.values_of_version (MemoryDB.storedValues_seq_eq_nil hseq)]
    cases hl : memory.kvMapWithV.find? key with
    | none =>
      rw [MemoryDB.storedValues_version_eq_nil hl]
      rfl
    | some l =>
      have hshown : hidden key = false := Bool.eq_false_iff.2 fun hhidden =>
        hv key (List.mem_map_of_mem (OrderedMap.mem_of_find? hl)) hhidden hrange
      simp [hrange, hshown]
  · have hno : ¬ (minKey ≤ key ∧ key ≤ maxKey ∧ hidden key = false) :=
      fun h => hrange ⟨h.1, h.2.1⟩
    simp [hrange, hno]

/-- A write returns in both or in none. -/
theorem apply_isSome {w : Write} (hkey : w.key ≠ ckptKey)
    (hother : memory.storedValues (w.key, !w.version.isSome) = []) :
    (w.apply memory).isSome = (w.apply level).isSome := by
  unfold Write.apply
  split
  · rename_i hw
    obtain ⟨r, hr, -⟩ := h.memoryInv.setValueWithSeq (h.maxHistory ▸ h.keeps) w hw
    have hlevel := setValueWithSeq_isSome h.levelInv.direct.room w.key w.value w.seq
    exact (Option.isSome_iff_exists.2 ⟨r, hr⟩).trans hlevel.symm
  · rename_i version hw
    rw [hw] at hother
    -- the current version is the same one
    obtain ⟨history, hparse, -, hvalues, -⟩ := h.levelInv.history hkey
    have hcurrent : ((memory.kvMapWithV.find? w.key).map fun l => l.back.2).getD 0 =
        (history.value.getLast?.map Value.version).getD 0 := by
      rw [← MemoryDB.cellVersion_cell, memory.cell_eq, ← hvalues, h.values_of_version hother]
      rfl
    change (memory.setValueWithVersion w.key w.value version).isSome =
      (level.setValueWithVersion w.key w.value version).isSome
    unfold MemoryDB.setValueWithVersion ResLevelDB.setValueWithVersion
    dsimp only
    rw [hparse, hcurrent]
    dsimp only
    split_ifs
    · rfl
    · cases nextVersion version with
      | none => rfl
      | some next =>
        exact (setValue_isSome ((cacheRoom_rule env).getValue w.key h.levelInv.direct.room) _ _).symm

end

end Matches

/-! ### Requests -/

/-- What the two executors do with a request. -/
structure SameStep (s : Twins env) (q : KVRequest) : Prop where
  answer : (executeData s.memory q).map Prod.fst = (executeData s.level q).map Prod.fst
  seq : (((executeData s.memory q).map Prod.snd).getD s.memory).seq =
    (((executeData s.level q).map Prod.snd).getD s.level).seq
  storages : Matches (((executeData s.memory q).map Prod.snd).getD s.memory).storage
    (((executeData s.level q).map Prod.snd).getD s.level).storage

/-- The executors are at the same batch, and their storages match. -/
structure Twins.Inv (s : Twins env) : Prop where
  seq : s.memory.seq = s.level.seq
  storages : Matches s.memory.storage s.level.storage
  answers : ∀ a ∈ s.answers, a.1 = a.2

namespace Twins.Inv

variable {s s' : Twins env} {q : KVRequest}

theorem write (hcodec : env.codec.Fits) (hs : s.Inv) {w : Write} (hq : q.write s.memory.seq = some w)
    (hroom : s.level.storage.HasRoom w)
    (hother : s.memory.storage.storedValues (w.key, !w.version.isSome) = []) : SameStep s q := by
  have hq' : q.write s.level.seq = some w := by rw [← hs.seq, hq]
  have hsome := hs.storages.apply_isSome hroom.1 hother
  cases hr : w.apply s.memory.storage with
  | none =>
    rw [hr] at hsome
    have hr' := Option.not_isSome_iff_eq_none.1 (Bool.eq_false_iff.1 hsome.symm)
    constructor <;> rw [executeData_of_write hq, executeData_of_write hq', hr, hr']
    · rfl
    · exact hs.seq
    · exact hs.storages
  | some r =>
    rw [hr] at hsome
    obtain ⟨r', hr'⟩ := Option.isSome_iff_exists.1 hsome.symm
    constructor <;> rw [executeData_of_write hq, executeData_of_write hq', hr, hr']
    · rfl
    · exact hs.seq
    · exact hs.storages.apply hcodec hroom hother hr hr'

/-- A request gets the same answer from both. -/
theorem sameStep (hcodec : env.codec.Fits) (hs : s.Inv) (hq : OneKind s q) : SameStep s q := by
  obtain ⟨hroom, hq⟩ := hq
  have hm := hs.storages
  cases hcmd : q.cmd <;> rw [hcmd] at hq
  case set =>
    have hw : q.write s.memory.seq = some ⟨q.key, q.value, s.memory.seq, none, q.key_size⟩ := by
      rw [KVRequest.write, hcmd]
    exact hs.write hcodec hw (hroom _ hw) (MemoryDB.storedValues_version_eq_nil hq)
  case setWithVersion =>
    have hw : q.write s.memory.seq =
        some ⟨q.key, q.value, s.memory.seq, some q.version, q.key_size⟩ := by
      rw [KVRequest.write, hcmd]
    exact hs.write hcodec hw (hroom _ hw) (MemoryDB.storedValues_seq_eq_nil hq)
  case get =>
    refine ⟨?_, ?_, ?_⟩ <;> simp only [executeData, hcmd]
    · exact congrArg (fun v : Bytes × ℕ => some ({ value := v.1 } : KVResponse))
        (hm.getValueWithSeq_eq hq)
    · exact hs.seq
    · exact hm.getValue q.key
  case getWithVersion =>
    refine ⟨?_, ?_, ?_⟩ <;> simp only [executeData, hcmd]
    · exact congrArg (fun v => some ({ valueInfo := some v } : KVResponse))
        (hm.getValueWithVersion_eq hq q.version)
    · exact hs.seq
    · exact hm.getValue q.key
  case getHistory =>
    refine ⟨?_, ?_, ?_⟩ <;> simp only [executeData, hcmd]
    · exact congrArg (fun vs : List (Bytes × ℤ) =>
        some ({ items := some (vs.map fun v => (q.key, v)) } : KVResponse))
        (hm.getHistory_eq hq q.minVersion q.maxVersion)
    · exact hs.seq
    · exact hm.getValue q.key
  case getTop =>
    refine ⟨?_, ?_, ?_⟩ <;> simp only [executeData, hcmd]
    · exact congrArg (fun vs : List (Bytes × ℤ) =>
        some ({ items := some (vs.map fun v => (q.key, v)) } : KVResponse))
        (hm.getTopHistory_eq hq.1 hq.2)
    · exact hs.seq
    · exact hm.getValue q.key
  case getKeyRange =>
    refine ⟨?_, ?_, ?_⟩ <;> simp only [executeData, hcmd]
    · exact congrArg (fun m : OrderedMap Bytes (Bytes × ℤ) =>
        some ({ items := some m.entries } : KVResponse)) (hm.getKeyRange_eq hq.1 hq.2)
    · exact hs.seq
    · exact hm
  all_goals
    refine ⟨?_, ?_, ?_⟩ <;> simp only [executeData, hcmd]
    · rfl
    · exact hs.seq
    · exact hm

theorem init (h : (twinSystem env).init s) : s.Inv := by
  obtain ⟨hmemory, hlevel, hcache, hthrough, hmax, hsame, hseq, hanswers⟩ := h
  have hnil : ∀ slot, s.memory.storage.storedValues slot = [] := fun slot => by
    rw [← List.getLast?_eq_none_iff, ← MemoryDB.cell_eq]
    exact hmemory.cell slot
  refine ⟨hseq, ⟨hmemory.replayInv, hlevel.replayInv hcache hthrough, hsame, hsame ▸ hmax,
    fun key => ?_, fun key => .inl (hnil _)⟩, ?_⟩
  · rw [hnil, hnil, List.append_nil, ← List.getLast?_eq_none_iff, ← ResLevelDB.lastValue_eq]
    exact hlevel.lastValue key
  · rw [hanswers]
    exact fun a ha => nomatch ha

/-- Every step that meets the condition keeps them alike. -/
theorem step (hcodec : env.codec.Fits) {a : RequestAction} (hs : s.Inv) (hok : OneKindStep s a)
    (h : s.step a = some s') : s'.Inv := by
  have hanswers : ∀ p : Option KVResponse × Option KVResponse, p.1 = p.2 →
      ∀ a ∈ s.answers ++ [p], a.1 = a.2 := by
    intro p hp a ha
    rcases List.mem_append.1 ha with ha | ha
    · exact hs.answers a ha
    · rw [List.mem_singleton.1 ha]
      exact hp
  match a, hok, h with
  | .begin seq, _, h =>
    cases h
    exact ⟨rfl, hs.storages, hs.answers⟩
  | .request none, _, h =>
    cases h
    exact ⟨hs.seq, hs.storages, hanswers _ rfl⟩
  | .request (some q), hok, h =>
    cases h
    have hsame := hs.sameStep hcodec hok
    exact ⟨hsame.seq, hsame.storages, hanswers _ hsame.answer⟩

end Twins.Inv

/-- **The storages are interchangeable**: in every run of requests that use each key in one way, the
executor over `MemoryDB` and the executor over a `ResLevelDB` that is written through give the same
answers. -/
theorem storages_interchangeable (hcodec : env.codec.Fits) {s : Twins env}
    (hs : (twinSystem env).Reachable OneKindStep s) : ∀ a ∈ s.answers, a.1 = a.2 := by
  have hinv : s.Inv :=
    hs.invariant (fun _ h => .init h) fun _ _ _ hs hok h => hs.step hcodec hok h
  exact hinv.answers

/-- Two new storages. -/
def newTwins : Twins wireEnv := ⟨⟨{}, 0⟩, ⟨{}, 0⟩, []⟩

theorem newTwins_init : (twinSystem wireEnv).init newTwins :=
  ⟨rfl, opened_spec.1, by decide, opened_spec.2, by decide, rfl, rfl, rfl⟩

/-- A request about the key `k`. -/
def requestOf (cmd : Cmd) (value : Bytes) : RequestAction :=
  .request (some { cmd := cmd, key := ofText "k", value := value, maxKey := ofText "k",
                   maxVersion := 1, key_size := size_k })

/-- A key that is used with versions only. -/
def versionedRun : List RequestAction :=
  [.begin 1, requestOf .setWithVersion (ofText "a"), requestOf .getWithVersion [],
    requestOf .getHistory [], requestOf .getKeyRange []]

theorem storages_interchangeable_versioned :
    ∃ s, (twinSystem wireEnv).run newTwins versionedRun = some s ∧ s.answers.length = 4 ∧
      ∀ a ∈ s.answers, a.1 = a.2 := by
  refine ⟨_, rfl, by decide +kernel, storages_interchangeable wireCodec_fits ?_⟩
  exact (TransitionSystem.Reachable.init newTwins_init).run versionedRun (by decide +kernel) rfl

/-- The answers of both storages to the last request of a run. -/
def lastAnswers (run : List RequestAction) : Option (Option KVResponse × Option KVResponse) :=
  ((twinSystem wireEnv).run newTwins run).bind fun s => s.answers.getLast?

/-- The values of the key after a write of the other kind, and the top 0 values. -/
theorem storages_interchangeable_fails :
    lastAnswers [.begin 1, requestOf .setWithVersion (ofText "a"), requestOf .get []] =
        some (some { value := [] }, some { value := ofText "a" }) ∧
      lastAnswers [.begin 1, requestOf .set (ofText "a"), requestOf .getWithVersion []] =
        some (some { valueInfo := some ([], 0) }, some { valueInfo := some (ofText "a", 0) }) ∧
      lastAnswers [.begin 1, requestOf .setWithVersion (ofText "a"), requestOf .getTop []] =
        some (some { items := some [(ofText "k", ofText "a", 1)] },
          some { items := some [] }) := by
  refine ⟨?_, ?_, ?_⟩ <;> decide +kernel

end Kv
