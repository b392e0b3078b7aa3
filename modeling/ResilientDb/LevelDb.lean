/-
**The storage on disk.**

`ResLevelDB` has one view only: the value of a key in leveldb is a `ValueHistory` message, to which a
write with a sequence number or with a version adds a value.  `SetValue` writes the bytes of the
message; the snapshot transfer uses it to write a bare value, which every read then takes for a
message.

leveldb itself is an ordered map.  The message format is a parameter, `Kv.HistoryCodec`, with the
properties that are used of it; `Kv.wireCodec` is the format of the protocol buffers.

Main definitions:

* `Kv.ValueHistory`, `Kv.HistoryCodec`, `Kv.wireCodec` — the message and its format;
* `Kv.ResLevelDB` — the storage, with its functions as an instance of `Kv.Storage`.

Main results:

* `Kv.ValueHistory.parse_serialize` — a message is read as it was written.
-/

import ResilientDb.LruCache
import ResilientDb.MemoryDb

set_option autoImplicit false

namespace Kv

open Wire (Bytes Record encode ofText)

/-! ### The messages -/

/-- `Value`, with the fields that the format does not know. -/
structure Value where
  value : Bytes := []
  version : ℤ := 0
  seq : ℕ := 0
  unknownFields : List Record := []
  deriving DecidableEq

/-- `ValueHistory`, the oldest value first. -/
structure ValueHistory where
  value : List Value := []
  unknownFields : List Record := []
  deriving DecidableEq

/-- The numbers have the widths of the message, and there are no unknown fields. -/
def Value.Plain (v : Value) : Prop :=
  (-2 ^ 31 ≤ v.version ∧ v.version < 2 ^ 31) ∧ v.seq < 2 ^ 64 ∧ v.unknownFields = []

def ValueHistory.Plain (h : ValueHistory) : Prop :=
  (∀ v ∈ h.value, v.Plain) ∧ h.unknownFields = []

/-- `ParseFromString` and `SerializeToString` of `ValueHistory`, with what is used of them. -/
structure HistoryCodec where
  parse : Bytes → Option ValueHistory
  serialize : ValueHistory → Bytes
  /-- The value of a key that is not there is the empty string, a message without values. -/
  parse_nil : parse [] = some {}
  /-- A value is shorter than the message it is read from, and shorter than 2 GiB. -/
  value_size : ∀ {b : Bytes} {h : ValueHistory}, parse b = some h →
    ∀ v ∈ h.value, v.value.length < b.length ∧ v.value.length < 2 ^ 31
  /-- A message of 2 GiB or more is not written; others are read as they were written. -/
  parse_serialize : ∀ {h : ValueHistory}, h.Plain → serialize h = [] ∨ parse (serialize h) = some h

/-! ### The storage -/

/-- What `ResLevelDB` uses of other libraries. -/
structure LevelDbEnv where
  /-- The message format. -/
  codec : HistoryCodec
  /-- `WriteBatch::ApproximateSize`. -/
  approximateSize : List (Bytes × Bytes) → ℕ

/-- `ResLevelDB`. -/
structure ResLevelDB (env : LevelDbEnv) where
  /-- What leveldb holds. -/
  db : OrderedMap Bytes Bytes := .empty
  /-- The writes that leveldb has not got yet. -/
  batch : List (Bytes × Bytes) := []
  /-- The cache, if it is enabled. -/
  blockCache : Option (LruCache Bytes Bytes) := none
  writeBatchSize : ℕ := 1
  lastCkpt : ℕ := 0
  updateTime : ℕ := 0
  /-- How many values a write with a sequence number keeps. -/
  maxHistory : ℕ := 10

/-- The key of the last checkpoint. -/
def ckptKey : Bytes := ofText "leveldb_checkpoint"

/-- `kCompositeKeyNamespace` and `kCompositeKeyDelim`. -/
def ckPrefix : Bytes := ofText "ck" ++ [0]

/-- The entries of secondary indexes, which range scans hide. -/
def hidden (key : Bytes) : Bool := ckPrefix.isPrefixOf key

namespace ResLevelDB

variable {env : LevelDbEnv}

/-- `GetValue`. -/
def getValue (st : ResLevelDB env) (key : Bytes) : Bytes × ResLevelDB env :=
  match st.blockCache with
  | none => ((st.db.find? key).getD [], st)
  | some cache =>
    let r := cache.get key
    (if r.1 ≠ [] then r.1 else (st.db.find? key).getD [], { st with blockCache := some r.2 })

/-- The cache takes the value that is written. -/
def putCache (cache : Option (LruCache Bytes Bytes)) (key value : Bytes) :
    Option (Option (LruCache Bytes Bytes)) :=
  match cache with
  | none => some none
  | some cache => (cache.put key value).map some

/-- leveldb gets the pending writes. -/
def writeBatch (st : ResLevelDB env) : ResLevelDB env :=
  { st with
    db := st.db.setAll st.batch
    batch := [] }

/-- `SetValue`. -/
def setValue (st : ResLevelDB env) (key value : Bytes) : Option (ℤ × ResLevelDB env) :=
  (putCache st.blockCache key value).map fun cache =>
    let st := { st with
                blockCache := cache
                batch := st.batch ++ [(key, value)] }
    if env.approximateSize st.batch ≥ st.writeBatchSize then (0, st.writeBatch) else (0, st)

/-- `SetLastCheckpoint`. -/
def setLastCheckpoint (st : ResLevelDB env) (ckpt : ℕ) : Option (ℤ × ResLevelDB env) :=
  st.setValue ckptKey (ofText (toString ckpt))

/-- `UpdateLastCkpt`. -/
def updateLastCkpt (st : ResLevelDB env) (seq : ℕ) : Option (ResLevelDB env) :=
  if st.lastCkpt > seq then some st
  else
    let st := { st with
                lastCkpt := seq
                updateTime := st.updateTime + 1 }
    if st.updateTime % 100 = 0 ∧ st.lastCkpt > 0 then
      (st.setLastCheckpoint st.lastCkpt).map fun r => { r.2 with updateTime := 0 }
    else some st

/-- `SetValueWithSeq`. -/
def setValueWithSeq (st : ResLevelDB env) (key value : Bytes) (seq : ℕ) :
    Option (ℤ × ResLevelDB env) :=
  let old := st.getValue key
  match env.codec.parse old.1 with
  | none => some (-2, old.2)
  | some history =>
    let lastSeq := (history.value.getLast?.map Value.seq).getD 0
    if lastSeq > seq then (old.2.updateLastCkpt lastSeq).map fun st => (-2, st)
    else
      let values := trim old.2.maxHistory (history.value ++ [{ value := value, seq := seq }])
      (old.2.setValue key (env.codec.serialize { history with value := values })).bind fun r =>
        if r.1 ≠ 0 then some r else (r.2.updateLastCkpt seq).map fun st => (0, st)

/-- `GetValueWithSeq`. -/
def getValueWithSeq (st : ResLevelDB env) (key : Bytes) (seq : ℕ) : (Bytes × ℕ) × ResLevelDB env :=
  let r := st.getValue key
  let found :=
    (env.codec.parse r.1).bind fun history =>
      if seq > 0 then history.value.reverse.find? fun v => v.seq = seq else history.value.getLast?
  ((found.map fun v => (v.value, v.seq)).getD ([], 0), r.2)

/-- `SetValueWithVersion`. -/
def setValueWithVersion (st : ResLevelDB env) (key value : Bytes) (version : ℤ) :
    Option (ℤ × ResLevelDB env) :=
  let old := st.getValue key
  match env.codec.parse old.1 with
  | none => some (-2, old.2)
  | some history =>
    if (history.value.getLast?.map Value.version).getD 0 ≠ version then some (-2, old.2)
    else
      (nextVersion version).bind fun next =>
        let values := history.value ++ [{ value := value, version := next }]
        old.2.setValue key (env.codec.serialize { history with value := values })

/-- The values with their versions, the newest first. -/
def versions (history : ValueHistory) : List (Bytes × ℤ) :=
  history.value.reverse.map fun v => (v.value, v.version)

/-- `GetValueWithVersion`. -/
def getValueWithVersion (st : ResLevelDB env) (key : Bytes) (version : ℤ) :
    (Bytes × ℤ) × ResLevelDB env :=
  let r := st.getValue key
  let found :=
    (env.codec.parse r.1).bind fun history =>
      if version > 0 then (scanVersion version (versions history)).or (versions history).head?
      else (versions history).head?
  (found.getD ([], 0), r.2)

/-- The latest value of the entry of a key, with its version, if a range scan shows it. -/
def item (env : LevelDbEnv) (key b : Bytes) : Option (Bytes × ℤ) :=
  if hidden key then none else (env.codec.parse b).bind fun history => (versions history).head?

/-- `GetAllItems`. -/
def getAllItems (st : ResLevelDB env) : OrderedMap Bytes (Bytes × ℤ) :=
  st.db.filterMap (item env)

/-- `GetKeyRange`. -/
def getKeyRange (st : ResLevelDB env) (minKey maxKey : Bytes) : OrderedMap Bytes (Bytes × ℤ) :=
  st.db.filterMap fun key b =>
    if minKey ≤ key ∧ key ≤ maxKey then item env key b else none

/-- `GetHistory`. -/
def getHistory (st : ResLevelDB env) (key : Bytes) (minVersion maxVersion : ℤ) :
    List (Bytes × ℤ) × ResLevelDB env :=
  let r := st.getValue key
  (((env.codec.parse r.1).map fun history =>
    scanHistory minVersion maxVersion (versions history)).getD [], r.2)

/-- `GetTopHistory`.  A negative number is a large one as `size_t`. -/
def getTopHistory (st : ResLevelDB env) (key : Bytes) (topNumber : ℤ) :
    List (Bytes × ℤ) × ResLevelDB env :=
  let r := st.getValue key
  (((env.codec.parse r.1).map fun history =>
    if topNumber < 0 then versions history
    else (versions history).take topNumber.toNat).getD [], r.2)

/-- `Clear`. -/
def clear (st : ResLevelDB env) : ResLevelDB env :=
  { st with
    db := .empty
    batch := []
    blockCache := st.blockCache.map LruCache.flush }

instance : Storage (ResLevelDB env) where
  setValue := setValue
  setValueWithSeq := setValueWithSeq
  getValueWithSeq := getValueWithSeq
  setValueWithVersion := setValueWithVersion
  getValueWithVersion := getValueWithVersion
  getAllItems := getAllItems
  getKeyRange := getKeyRange
  getHistory := getHistory
  getTopHistory := getTopHistory
  clear := clear
  flush := writeBatch

end ResLevelDB

/-! ### The message format -/

/-- The number that an `int32` is written as. -/
def ofInt32 (v : ℤ) : ℕ := (v % 2 ^ 64).toNat

/-- The `int32` that is read from a number. -/
def toInt32 (n : ℕ) : ℤ :=
  let low : ℕ := n % 2 ^ 32
  if low < 2 ^ 31 then low else low - 2 ^ 32

theorem toInt32_ofInt32 {v : ℤ} (h : -2 ^ 31 ≤ v ∧ v < 2 ^ 31) : toInt32 (ofInt32 v) = v := by
  unfold toInt32 ofInt32
  dsimp only
  split_ifs <;> omega

theorem ofInt32_lt (v : ℤ) : ofInt32 v < 2 ^ 64 := by
  rw [ofInt32]
  omega

/-- The records of a value.  Fields that have their default value are not written. -/
def Value.records (v : Value) : List Record :=
  (if v.value = [] then [] else [⟨1, .bytes v.value⟩]) ++
    (if v.version = 0 then [] else [⟨2, .varint (ofInt32 v.version)⟩]) ++
    (if v.seq = 0 then [] else [⟨3, .varint v.seq⟩]) ++ v.unknownFields

/-- Take in one record; a later one replaces an earlier one. -/
def Value.merge (v : Value) (r : Record) : Value :=
  match r with
  | ⟨1, .bytes b⟩ => { v with value := b }
  | ⟨2, .varint n⟩ => { v with version := toInt32 n }
  | ⟨3, .varint n⟩ => { v with seq := n }
  | r => { v with unknownFields := v.unknownFields ++ [r] }

/-- Read a value. -/
def Value.parse (b : Bytes) : Option Value :=
  (Wire.decode b).map fun rs => rs.foldl Value.merge {}

/-- The records of a history. -/
def ValueHistory.records (h : ValueHistory) : List Record :=
  (h.value.map fun v => ⟨1, .bytes (encode v.records)⟩) ++ h.unknownFields

/-- Take in one record. -/
def ValueHistory.merge (h : ValueHistory) (r : Record) : Option ValueHistory :=
  match r with
  | ⟨1, .bytes b⟩ => (Value.parse b).map fun v => { h with value := h.value ++ [v] }
  | r => some { h with unknownFields := h.unknownFields ++ [r] }

/-- `ParseFromString`. -/
def ValueHistory.parse (b : Bytes) : Option ValueHistory :=
  (Wire.decode b).bind fun rs => rs.foldlM ValueHistory.merge {}

/-- `SerializeToString`, which writes nothing if there are 2 GiB or more to write. -/
def ValueHistory.serialize (h : ValueHistory) : Bytes :=
  let b := encode h.records
  if b.length < 2 ^ 31 then b else []

theorem Value.foldl_merge_records {v : Value} (h : v.Plain) :
    v.records.foldl Value.merge {} = v := by
  obtain ⟨value, version, seq, unknownFields⟩ := v
  obtain ⟨hversion, hseq, hunknown⟩ := h
  subst hunknown
  have hint := toInt32_ofInt32 hversion
  -- each of the three fields is there or has its default value
  by_cases h1 : value = [] <;> by_cases h2 : version = 0 <;> by_cases h3 : seq = 0 <;>
    simp [Value.records, Value.merge, h1, h2, h3, hint]

theorem Value.records_valid {v : Value} (h : v.Plain) (hlen : v.value.length < 2 ^ 31) :
    ∀ r ∈ v.records, r.Valid := by
  intro r hr
  have hone : ∀ {p : Prop} [Decidable p] {r' : Record}, (r ∈ if p then [] else [r']) → r = r' := by
    intro p _ r' hr
    split_ifs at hr
    · cases hr
    · exact List.mem_singleton.1 hr
  simp only [Value.records, h.2.2, List.append_nil, List.mem_append] at hr
  rcases hr with (hr | hr) | hr
  · rw [hone hr]
    exact ⟨by norm_num, by norm_num, hlen⟩
  · rw [hone hr]
    exact ⟨by norm_num, by norm_num, ofInt32_lt _⟩
  · rw [hone hr]
    exact ⟨by norm_num, by norm_num, h.2.1⟩

theorem Value.parse_encode {v : Value} (h : v.Plain) (hlen : (encode v.records).length < 2 ^ 31) :
    Value.parse (encode v.records) = some v := by
  have hvalue : v.value.length < 2 ^ 31 := by
    by_cases hv : v.value = []
    · rw [hv]
      norm_num
    · have hmem : (⟨1, .bytes v.value⟩ : Record) ∈ v.records := by simp [Value.records, hv]
      have h1 := Wire.length_encode_le hmem
      have h2 := Wire.length_lt_encode_bytes 1 v.value
      omega
  rw [Value.parse, Wire.decode_encode (Value.records_valid h hvalue), Option.map_some,
    Value.foldl_merge_records h]

theorem ValueHistory.foldlM_merge : ∀ {vs : List Value} (h : ValueHistory),
    (∀ v ∈ vs, v.Plain ∧ (encode v.records).length < 2 ^ 31) →
    (vs.map fun v => (⟨1, .bytes (encode v.records)⟩ : Record)).foldlM ValueHistory.merge h =
      some { h with value := h.value ++ vs }
  | [], h, _ => by simp
  | v :: vs, h, hvs => by
    obtain ⟨hplain, hlen⟩ := hvs v List.mem_cons_self
    have ih := foldlM_merge { h with value := h.value ++ [v] } fun v hv =>
      hvs v (List.mem_cons_of_mem _ hv)
    simp only [List.map_cons, List.foldlM_cons, ValueHistory.merge, Value.parse_encode hplain hlen,
      Option.map_some, bind, Option.bind_some]
    rw [ih]
    simp

theorem ValueHistory.parse_serialize {h : ValueHistory} (hp : h.Plain) :
    h.serialize = [] ∨ ValueHistory.parse h.serialize = some h := by
  unfold ValueHistory.serialize
  dsimp only
  split_ifs with hlen
  · have hrecords : h.records = h.value.map fun v => ⟨1, .bytes (encode v.records)⟩ := by
      rw [ValueHistory.records, hp.2, List.append_nil]
    have hvalue : ∀ v ∈ h.value, (encode v.records).length < 2 ^ 31 := by
      intro v hv
      have hmem : (⟨1, .bytes (encode v.records)⟩ : Record) ∈ h.records := by
        rw [hrecords]
        exact List.mem_map_of_mem hv
      have h1 := Wire.length_encode_le hmem
      have h2 := Wire.length_lt_encode_bytes 1 (encode v.records)
      omega
    have hvalid : ∀ r ∈ h.records, r.Valid := by
      intro r hr
      rw [hrecords] at hr
      obtain ⟨v, hv, rfl⟩ := List.mem_map.1 hr
      exact ⟨by norm_num, by norm_num, hvalue v hv⟩
    rw [ValueHistory.parse, Wire.decode_encode hvalid, Option.bind_some, hrecords,
      ValueHistory.foldlM_merge _ fun v hv => ⟨hp.1 v hv, hvalue v hv⟩]
    obtain ⟨value, unknownFields⟩ := h
    obtain rfl : unknownFields = [] := hp.2
    simp
  · exact .inl rfl

theorem Value.value_merge (v : Value) (r : Record) :
    (v.merge r).value = v.value ∨ r.field = .bytes (v.merge r).value := by
  unfold Value.merge
  split <;> simp

theorem Value.value_foldl_merge {P : Bytes → Prop} : ∀ (rs : List Record) (v : Value),
    (∀ r ∈ rs, ∀ b, r.field = .bytes b → P b) → P v.value → P (rs.foldl Value.merge v).value
  | [], v, _, hv => hv
  | r :: rs, v, h, hv => by
    refine value_foldl_merge rs _ (fun r hr => h r (List.mem_cons_of_mem _ hr)) ?_
    rcases v.value_merge r with heq | heq
    · rwa [heq]
    · exact h r List.mem_cons_self _ heq

theorem ValueHistory.value_foldlM_merge {bound : ℕ} {rs : List Record} {h : ValueHistory}
    (hrs : ∀ r ∈ rs, r.field.Within bound) (hs : rs.foldlM ValueHistory.merge {} = some h) :
    ∀ v ∈ h.value, v.value.length < bound ∧ v.value.length < 2 ^ 31 := by
  refine TransitionSystem.foldlM_invariant
    (I := fun h => ∀ v ∈ h.value, v.value.length < bound ∧ v.value.length < 2 ^ 31) ?_
    (nofun) hs
  intro h₁ r h₂ hr hv hmerge
  replace hr := hrs r hr
  unfold ValueHistory.merge at hmerge
  split at hmerge
  · rename_i b
    obtain ⟨v, hparse, rfl⟩ := Option.map_eq_some_iff.1 hmerge
    obtain ⟨rs', hrs', rfl⟩ := Option.map_eq_some_iff.1 hparse
    have hwithin := @Value.value_foldl_merge (fun c => c.length ≤ b.length ∧ c.length < 2 ^ 31) rs' {}
      (fun r hr c hc => by
        have hc' := Wire.size_lt_of_decode hrs' hr
        rw [hc] at hc'
        exact ⟨hc'.1.le, hc'.2⟩) ⟨Nat.zero_le _, by norm_num⟩
    intro v' hv'
    rcases List.mem_append.1 hv' with hv' | hv'
    · exact hv v' hv'
    · rw [List.mem_singleton.1 hv']
      exact ⟨hwithin.1.trans_lt hr.1, hwithin.2⟩
  · cases hmerge
    exact hv

/-- The format of the protocol buffers. -/
def wireCodec : HistoryCodec where
  parse := ValueHistory.parse
  serialize := ValueHistory.serialize
  parse_nil := rfl
  value_size := fun {b h} hp v hv => by
    obtain ⟨rs, hrs, hs⟩ := Option.bind_eq_some_iff.1 hp
    exact ValueHistory.value_foldlM_merge (fun r hr => Wire.size_lt_of_decode hrs hr) hs v hv
  parse_serialize := ValueHistory.parse_serialize

/-! ### Lengths and numbers -/

/-- The length of a history as a message, at most: the fields of a value take at most 80 bytes beside
its own. -/
def ValueHistory.size (h : ValueHistory) : ℕ := (h.value.map fun v => v.value.length + 80).sum

/-- What is used of the message format. -/
structure HistoryCodec.Fits (codec : HistoryCodec) : Prop where
  /-- A history that is shorter than 2 GiB is written. -/
  serialize_ne_nil : ∀ {h : ValueHistory}, h.Plain → h.value ≠ [] → h.size < 2 ^ 31 →
    codec.serialize h ≠ []
  /-- A decimal number is no history with values. -/
  parse_decimal : ∀ {n : ℕ} {h : ValueHistory},
    codec.parse (ofText (toString n)) = some h → h.value = []

/-- Decimal digits. -/
def Decimal (b : Bytes) : Prop := ∀ x ∈ b, 48 ≤ x.val ∧ x.val < 58

theorem decimal_toString (n : ℕ) : Decimal (ofText (toString n)) := by
  intro x hx
  obtain ⟨c, hc, rfl⟩ := List.mem_map.1 hx
  have hdigit : c.isDigit = true := by
    refine Nat.isDigit_of_mem_toDigits (b := 10) (n := n) (by norm_num) (by norm_num) ?_
    simpa [Nat.toString_eq_repr, Nat.repr] using hc
  have hrange : 48 ≤ c.toNat ∧ c.toNat ≤ 57 := by
    simp only [Char.isDigit, Bool.and_eq_true, decide_eq_true_eq] at hdigit
    exact ⟨hdigit.1, hdigit.2⟩
  rw [Fin.val_ofNat]
  omega

theorem Decimal.decode {bs rest : Bytes} (hbs : Decimal bs) {r : Record}
    (h : Wire.Record.decode bs = some (r, rest)) : r.number ≠ 1 ∧ Decimal rest := by
  obtain ⟨tag, htag, h⟩ := Option.bind_eq_some_iff.1 h
  split_ifs at h
  obtain ⟨f, hf, heq⟩ := Option.map_eq_some_iff.1 h
  cases heq
  cases bs with
  | nil => cases htag
  | cons b bs =>
    obtain ⟨hlow, hhigh⟩ := hbs b List.mem_cons_self
    rw [Wire.decodeVarint, Wire.decodeVarintAux, if_pos (by omega)] at htag
    cases htag
    refine ⟨?_, fun x hx => hbs x (List.mem_cons_of_mem _ ((Wire.Field.decode_within hf).2.subset hx))⟩
    change b.val % 2 ^ 64 / 8 ≠ 1
    omega

theorem Decimal.decodeAux (fuel : ℕ) : ∀ {bs : Bytes} {rs : List Record}, Decimal bs →
    Wire.decodeAux fuel bs = some rs → ∀ r ∈ rs, r.number ≠ 1 := by
  induction fuel with
  | zero =>
    intro bs rs _ h r hr
    cases bs with
    | nil =>
      cases h
      cases hr
    | cons b bs => cases h
  | succ fuel ih =>
    intro bs rs hbs h r hr
    cases bs with
    | nil =>
      cases h
      cases hr
    | cons b bs =>
      obtain ⟨r', hr', h⟩ := Option.bind_eq_some_iff.1 h
      obtain ⟨rs', hrs', rfl⟩ := Option.map_eq_some_iff.1 h
      obtain ⟨hnumber, hrest⟩ := hbs.decode hr'
      rcases List.mem_cons.1 hr with rfl | hr
      · exact hnumber
      · exact ih hrest hrs' r hr

theorem ValueHistory.value_foldlM_merge_ne {rs : List Record} {h : ValueHistory}
    (hrs : ∀ r ∈ rs, r.number ≠ 1) (hs : rs.foldlM ValueHistory.merge {} = some h) : h.value = [] := by
  refine TransitionSystem.foldlM_invariant (I := fun h => h.value = []) ?_ rfl hs
  intro h₁ r h₂ hr hvalue hmerge
  unfold ValueHistory.merge at hmerge
  split at hmerge
  · exact absurd rfl (hrs _ hr)
  · cases hmerge
    exact hvalue

theorem Value.length_encode_records_le {v : Value} (h : v.Plain) :
    (encode v.records).length ≤ v.value.length + 60 := by
  have h1 := Wire.Record.length_encode_bytes_le 1 v.value
  have h2 := Wire.Record.length_encode_varint_le 2 (ofInt32 v.version)
  have h3 := Wire.Record.length_encode_varint_le 3 v.seq
  simp only [Value.records, h.2.2, encode, List.flatMap_append, List.length_append]
  -- each field is left out or takes what the bounds say
  split_ifs <;> simp only [List.flatMap_nil, List.flatMap_singleton, List.length_nil] <;> omega

theorem ValueHistory.length_encode_records_le {h : ValueHistory} (hp : h.Plain) :
    (encode h.records).length ≤ h.size := by
  rw [ValueHistory.records, hp.2, List.append_nil, encode, List.flatMap_map, List.length_flatMap]
  refine List.sum_le_sum fun v hv => ?_
  have hbytes := Wire.Record.length_encode_bytes_le 1 (encode v.records)
  have hvalue := Value.length_encode_records_le (hp.1 v hv)
  omega

theorem wireCodec_fits : wireCodec.Fits where
  serialize_ne_nil := fun {h} hplain hne hsize => by
    have hlen := (ValueHistory.length_encode_records_le hplain).trans_lt hsize
    have hrecords : 0 < h.records.length := by
      rw [ValueHistory.records, List.length_append, List.length_map]
      exact Nat.add_pos_left (List.length_pos_of_ne_nil hne) _
    change h.serialize ≠ []
    rw [ValueHistory.serialize, if_pos hlen]
    exact List.ne_nil_of_length_pos (hrecords.trans_le (Wire.length_le_encode h.records))
  parse_decimal := fun {n h} hparse => by
    obtain ⟨rs, hrs, hmerge⟩ := Option.bind_eq_some_iff.1 hparse
    exact ValueHistory.value_foldlM_merge_ne ((decimal_toString n).decodeAux _ hrs) hmerge

/-- The libraries of the source: protocol buffers, and the size of a batch with its header. -/
def wireEnv : LevelDbEnv where
  codec := wireCodec
  approximateSize := fun batch => 12 + (batch.map fun e => e.1.length + e.2.length + 3).sum

end Kv
