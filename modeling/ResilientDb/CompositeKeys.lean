/-
**Secondary indexes: composite keys and prefix scans.**

An entry of a secondary index is a key without a value: the namespace `ck`, the name of the index, the
attributes and the primary key, with a null byte in between.  `MemoryDB` keeps these keys in a map of
their own, `ResLevelDB` among all other keys.  `GetByCompositeKeyPrefix` walks over the keys that start
with an encoded prefix.

`EncodeCompositeKeyPrefix` writes a null byte behind the last attribute, and one byte too many when
there is none: the prefix of the empty attribute list is that of a list with one empty attribute, and
misses the other keys of the index.  Where an attribute has a null byte the prefix is empty, and the
walk returns every key there is (`Kv.prefix_scan_exact_fails`).

Main definitions:

* `Kv.encodeCompositeKey`, `Kv.encodeCompositeKeyPrefix`, `Kv.decodeCompositeKey` — the codec;
* `Kv.IndexedStores`, `Kv.indexSystem` — both backends under one sequence of calls;
* `Kv.ExactScan` — the property of a scan;
* `Kv.ScanCovered` — the condition.

Main results:

* `Kv.encodeCompositeKeyPrefix_isPrefix_iff` — what a byte prefix says about the attributes;
* `Kv.encodeCompositeKey_inj` — keys can be told apart;
* `Kv.compositeKey_codec` — which keys come back from the codec, and what it decodes;
* `Kv.prefix_scan_exact` — the scans of both backends are exact under the condition, and only then.
-/

import ResilientDb.LevelDb
import ResilientDb.PrefixScan

set_option autoImplicit false

namespace Kv

open Wire (Byte Bytes ofText)

/-! ### The codec -/

/-- `kCompositeKeyNamespace`. -/
def ckNamespace : Bytes := ofText "ck"

/-- `kCompositeKeyDelim`. -/
def ckDelim : Byte := 0

/-- `EncodeCompositeKey`. -/
def encodeCompositeKey (indexName : Bytes) (attributes : List Bytes) (primaryKey : Bytes) : Bytes :=
  if ckDelim ∈ indexName ∨ ckDelim ∈ primaryKey then []
  else if ∃ attr ∈ attributes, ckDelim ∈ attr then []
  else ckNamespace ++ [ckDelim] ++ indexName ++ [ckDelim] ++
    attributes.flatMap (fun attr => attr ++ [ckDelim]) ++ primaryKey

/-- `EncodeCompositeKeyPrefix`. -/
def encodeCompositeKeyPrefix (indexName : Bytes) (attributePrefix : List Bytes) : Bytes :=
  if ckDelim ∈ indexName then []
  else if ∃ attr ∈ attributePrefix, ckDelim ∈ attr then []
  else ckNamespace ++ [ckDelim] ++ indexName ++ [ckDelim] ++
    [ckDelim].intercalate attributePrefix ++ [ckDelim]

/-- The parts of a composite key. -/
structure CompositeKey where
  indexName : Bytes
  attributes : List Bytes
  primaryKey : Bytes
deriving DecidableEq

namespace CompositeKey

/-- No part has the delimiter. -/
def DelimFree (k : CompositeKey) : Prop :=
  ckDelim ∉ k.indexName ∧ (∀ attr ∈ k.attributes, ckDelim ∉ attr) ∧ ckDelim ∉ k.primaryKey

instance (k : CompositeKey) : Decidable k.DelimFree := inferInstanceAs (Decidable (_ ∧ _))

/-- The encoded key. -/
def encode (k : CompositeKey) : Bytes := encodeCompositeKey k.indexName k.attributes k.primaryKey

theorem encode_eq {k : CompositeKey} (h : k.DelimFree) :
    k.encode = terminated ckDelim (ckNamespace :: k.indexName :: k.attributes) ++ k.primaryKey := by
  obtain ⟨hname, hattr, hkey⟩ := h
  rw [encode, encodeCompositeKey, if_neg (not_or.2 ⟨hname, hkey⟩), if_neg (by simpa using hattr)]
  simp [terminated]

theorem encode_eq_nil {k : CompositeKey} (h : ¬ k.DelimFree) : k.encode = [] := by
  rw [encode, encodeCompositeKey]
  split
  · rfl
  · next hparts =>
    by_contra hattr
    refine h ⟨fun hname => hparts (.inl hname), ?_, fun hkey => hparts (.inr hkey)⟩
    simpa using hattr

end CompositeKey

theorem ckDelim_notMem_ckNamespace : ckDelim ∉ ckNamespace := by decide

variable {indexName : Bytes}

theorem notMem_words {attributes : List Bytes} (hname : ckDelim ∉ indexName)
    (hattr : ∀ attr ∈ attributes, ckDelim ∉ attr) :
    ∀ w ∈ ckNamespace :: indexName :: attributes, ckDelim ∉ w := by
  intro w hw
  rcases List.mem_cons.1 hw with rfl | hw
  · exact ckDelim_notMem_ckNamespace
  rcases List.mem_cons.1 hw with rfl | hw
  · exact hname
  · exact hattr w hw

/-- **Keys can be told apart.** -/
theorem encodeCompositeKey_inj {k k' : CompositeKey} (hk : k.DelimFree) (hk' : k'.DelimFree)
    (h : k.encode = k'.encode) : k = k' := by
  rw [CompositeKey.encode_eq hk, CompositeKey.encode_eq hk'] at h
  obtain ⟨hwords, hkey⟩ := terminated_append_inj hk.2.2 hk'.2.2 (notMem_words hk.1 hk.2.1)
    (notMem_words hk'.1 hk'.2.1) h
  cases k
  simp_all

/-- The attributes that a prefix stands for: behind no attribute there is a delimiter as behind an
empty one. -/
def scannedAttributes (attributePrefix : List Bytes) : List Bytes :=
  if attributePrefix = [] then [[]] else attributePrefix

theorem intercalate_append_delim : ∀ (ws : List Bytes), ws ≠ [] →
    [ckDelim].intercalate ws ++ [ckDelim] = terminated ckDelim ws
  | [], h => absurd rfl h
  | [w], _ => by simp [List.intercalate]
  | w :: v :: ws, _ => by
    have ih := intercalate_append_delim (v :: ws) (by simp)
    rw [terminated_cons, ← ih]
    simp [List.intercalate]

variable {p : List Bytes}

theorem encodeCompositeKeyPrefix_eq (hname : ckDelim ∉ indexName)
    (hp : ∀ attr ∈ p, ckDelim ∉ attr) : encodeCompositeKeyPrefix indexName p =
      terminated ckDelim (ckNamespace :: indexName :: scannedAttributes p) := by
  rw [encodeCompositeKeyPrefix, if_neg hname, if_neg (by simpa using hp), scannedAttributes]
  split
  case isTrue h =>
    rw [h]
    simp [terminated, List.intercalate]
  case isFalse h =>
    rw [terminated_cons, terminated_cons, ← intercalate_append_delim p h]
    simp

/-- **What a byte prefix says about the attributes.** -/
theorem encodeCompositeKeyPrefix_isPrefix_iff {k : CompositeKey}
    (hname : ckDelim ∉ indexName) (hp : ∀ attr ∈ p, ckDelim ∉ attr) (hk : k.DelimFree) :
    encodeCompositeKeyPrefix indexName p <+: k.encode ↔
      k.indexName = indexName ∧ scannedAttributes p <+: k.attributes := by
  have hscanned : ∀ attr ∈ scannedAttributes p, ckDelim ∉ attr := by
    unfold scannedAttributes
    split
    · simp
    · exact hp
  rw [encodeCompositeKeyPrefix_eq hname hp, CompositeKey.encode_eq hk,
    terminated_isPrefix_iff hk.2.2 (notMem_words hname hscanned) (notMem_words hk.1 hk.2.1)]
  simp [eq_comm]

theorem encodeCompositeKeyPrefix_of_delim
    (h : ∃ attr ∈ p, ckDelim ∈ attr) : encodeCompositeKeyPrefix indexName p = [] := by
  rw [encodeCompositeKeyPrefix, if_pos h, ite_self]

/-! ### Decoding -/

/-- `DecodeCompositeKey`; the byte behind the namespace is skipped. -/
def decodeCompositeKey (encoded : Bytes) : Option CompositeKey :=
  if encoded.length < ckNamespace.length + 1 ∨ encoded.take ckNamespace.length ≠ ckNamespace then none
  else
    match cutAt ckDelim [] (encoded.drop (ckNamespace.length + 1)) with
    | indexName :: part :: parts =>
      some ⟨indexName, (part :: parts).dropLast, (part :: parts).getLast (by simp)⟩
    | _ => none

theorem decodeCompositeKey_of_header (c : Byte) (rest : Bytes) :
    decodeCompositeKey (ckNamespace ++ c :: rest) = match cutAt ckDelim [] rest with
      | indexName :: part :: parts =>
        some ⟨indexName, (part :: parts).dropLast, (part :: parts).getLast (by simp)⟩
      | _ => none := by
  rw [decodeCompositeKey, if_neg (by simp)]
  have hdrop : (ckNamespace ++ c :: rest).drop (ckNamespace.length + 1) = rest := by
    rfl
  rw [hdrop]

/-- A decoded text starts with the namespace and a byte. -/
theorem decodeCompositeKey_header {encoded : Bytes} {k : CompositeKey}
    (h : decodeCompositeKey encoded = some k) : ∃ c rest, encoded = ckNamespace ++ c :: rest := by
  rw [decodeCompositeKey] at h
  split at h
  case isTrue => cases h
  case isFalse hns =>
    obtain ⟨hlen, htake⟩ := not_or.1 hns
    have hne : encoded.drop ckNamespace.length ≠ [] := by
      rw [Ne, List.drop_eq_nil_iff]
      omega
    obtain ⟨c, rest, hdrop⟩ := List.exists_cons_of_ne_nil hne
    refine ⟨c, rest, ?_⟩
    rw [← hdrop, ← not_not.1 htake, List.length_take, Nat.min_eq_left (by omega),
      List.take_append_drop]

/-- The words of a key, cut and put together again. -/
theorem decodeCompositeKey_encode {k : CompositeKey} (hk : k.DelimFree) :
    decodeCompositeKey k.encode = if k.primaryKey = [] then
        k.attributes.getLast?.map fun last => ⟨k.indexName, k.attributes.dropLast, last⟩
      else some k := by
  have hwords : ∀ w ∈ k.indexName :: k.attributes, ckDelim ∉ w :=
    List.forall_mem_cons.2 ⟨hk.1, hk.2.1⟩
  rw [CompositeKey.encode_eq hk, terminated_cons, List.append_assoc, List.cons_append,
    decodeCompositeKey_of_header, cutAt_terminated hk.2.2 hwords]
  split_ifs with hkey
  · cases hattr : k.attributes with
    | nil => rfl
    | cons a as => simp [List.getLast?_eq_some_getLast]
  · obtain ⟨indexName, attributes, primaryKey⟩ := k
    cases attributes with
    | nil => rfl
    | cons a as =>
      have hlast : (a :: (as ++ [primaryKey])).dropLast = a :: as := by
        rw [← List.cons_append, List.dropLast_concat]
      simp [hlast]

/-- **The codec.**  A key comes back exactly if its primary key is not empty, and a decoded text has been
encoded exactly if the delimiter stands behind the namespace. -/
theorem compositeKey_codec (k : CompositeKey) (encoded : Bytes) :
    (k.DelimFree → (decodeCompositeKey k.encode = some k ↔ k.primaryKey ≠ [])) ∧
      ∀ k', decodeCompositeKey encoded = some k' →
        ((∃ source : CompositeKey, encoded = source.encode) ↔
          encoded[ckNamespace.length]? = some ckDelim) := by
  constructor
  · intro hk
    rw [decodeCompositeKey_encode hk]
    split_ifs with hkey
    · refine iff_of_false (fun h => ?_) (not_not.2 hkey)
      -- one attribute is missing
      obtain ⟨last, hlast, heq⟩ := Option.map_eq_some_iff.1 h
      have hlen := congrArg (fun k => k.attributes.length) heq
      have hne : k.attributes ≠ [] := by
        rintro hnil
        rw [hnil] at hlast
        cases hlast
      have := List.length_pos_iff.2 hne
      simp only [List.length_dropLast] at hlen
      omega
    · exact iff_of_true rfl hkey
  · intro k' hdecoded
    obtain ⟨c, rest, rfl⟩ := decodeCompositeKey_header hdecoded
    constructor
    · rintro ⟨source, hsource⟩
      have hfree : source.DelimFree := by
        refine of_not_not fun hfree => ?_
        rw [CompositeKey.encode_eq_nil hfree] at hsource
        simp at hsource
      rw [CompositeKey.encode_eq hfree] at hsource
      exact congrArg some (List.cons.inj (List.append_cancel_left hsource)).1
    · intro hc
      cases hc
      obtain ⟨ws, t, rfl, hws, ht⟩ := exists_terminated ckDelim rest
      cases ws with
      | nil =>
        rw [decodeCompositeKey_of_header, cutAt_terminated ht hws] at hdecoded
        split_ifs at hdecoded <;> cases hdecoded
      | cons w ws =>
        obtain ⟨hw, hws⟩ := List.forall_mem_cons.1 hws
        refine ⟨⟨w, ws, t⟩, ?_⟩
        rw [CompositeKey.encode_eq ⟨hw, hws, ht⟩]
        simp

/-- The index `i` with an entry for the attribute `a` and the primary key `k`. -/
def oneEntry : CompositeKey := ⟨ofText "i", [ofText "a"], ofText "k"⟩

theorem compositeKey_codec_oneEntry :
    decodeCompositeKey oneEntry.encode = some oneEntry ∧
      ∃ source : CompositeKey, oneEntry.encode = source.encode := by
  have hdecoded : decodeCompositeKey oneEntry.encode = some oneEntry := by decide +kernel
  obtain ⟨hback, hsource⟩ := compositeKey_codec oneEntry oneEntry.encode
  exact ⟨(hback (by decide)).2 (by decide), (hsource _ hdecoded).2 (by decide +kernel)⟩

/-- With an empty primary key the last attribute comes back as the primary key, and without attributes
nothing; a text with a letter behind the namespace is decoded. -/
theorem compositeKey_codec_fails :
    (∃ k : CompositeKey, k.DelimFree ∧
      decodeCompositeKey k.encode = some ⟨ofText "i", [], ofText "a"⟩ ∧
      k.attributes = [ofText "a"] ∧ k.primaryKey = []) ∧
    decodeCompositeKey (CompositeKey.encode ⟨ofText "i", [], []⟩) = none ∧
    decodeCompositeKey (ofText "ckxi" ++ ckDelim :: ofText "k") =
      some ⟨ofText "i", [], ofText "k"⟩ ∧
    ∀ source : CompositeKey, source.encode ≠ ofText "ckxi" ++ ckDelim :: ofText "k" := by
  refine ⟨⟨⟨ofText "i", [ofText "a"], []⟩, by decide, by decide +kernel, rfl, rfl⟩,
    by decide +kernel, by decide +kernel, fun source h => ?_⟩
  by_cases hfree : source.DelimFree
  · rw [CompositeKey.encode_eq hfree] at h
    have hbyte := congrArg (fun text => text[2]?) h
    revert hbyte
    simp [ckNamespace, ofText, ckDelim]
  · rw [CompositeKey.encode_eq_nil hfree] at h
    cases h

/-! ### The backends -/

/-- `ck_map_` of `MemoryDB`. -/
abbrev CkMap := OrderedMap Bytes Bytes

namespace CkMap

/-- `MemoryDB::CreateCompositeKey`; all these calls return 0. -/
def createCompositeKey (m : CkMap) (compositeKey : Bytes) : CkMap := OrderedMap.set m compositeKey []

/-- `MemoryDB::DeleteCompositeKey`. -/
def deleteCompositeKey (m : CkMap) (compositeKey : Bytes) : CkMap := OrderedMap.erase m compositeKey

/-- `MemoryDB::UpdateCompositeKey`. -/
def updateCompositeKey (m : CkMap) (oldCompositeKey newCompositeKey : Bytes) : CkMap :=
  OrderedMap.set (OrderedMap.erase m oldCompositeKey) newCompositeKey []

/-- `MemoryDB::GetByCompositeKeyPrefix`. -/
def getByCompositeKeyPrefix (m : CkMap) (word : Bytes) : List Bytes := OrderedMap.scanPrefix m word

end CkMap

namespace ResLevelDB

variable {env : LevelDbEnv}

/-- `ResLevelDB::CreateCompositeKey`, which goes to leveldb at once. -/
def createCompositeKey (st : ResLevelDB env) (compositeKey : Bytes) : ResLevelDB env :=
  { st with db := st.db.set compositeKey [] }

/-- `ResLevelDB::DeleteCompositeKey`. -/
def deleteCompositeKey (st : ResLevelDB env) (compositeKey : Bytes) : ResLevelDB env :=
  { st with db := st.db.erase compositeKey }

/-- `ResLevelDB::UpdateCompositeKey`. -/
def updateCompositeKey (st : ResLevelDB env) (oldCompositeKey newCompositeKey : Bytes) :
    ResLevelDB env :=
  { st with db := (st.db.erase oldCompositeKey).set newCompositeKey [] }

/-- `ResLevelDB::GetByCompositeKeyPrefix`. -/
def getByCompositeKeyPrefix (st : ResLevelDB env) (word : Bytes) : List Bytes := st.db.scanPrefix word

end ResLevelDB

/-- Both backends, and the composite keys that have been created and not deleted. -/
structure IndexedStores (env : LevelDbEnv) where
  memory : CkMap
  level : ResLevelDB env
  created : List CompositeKey

/-- A call on both backends.  `SetValue` leaves the composite keys of `MemoryDB` alone. -/
inductive IndexAction
  | create (k : CompositeKey)
  | delete (k : CompositeKey)
  | update (old new : CompositeKey)
  | setValue (key value : Bytes)
  | clear

/-- One call. -/
def IndexedStores.step {env : LevelDbEnv} (s : IndexedStores env) : IndexAction →
    Option (IndexedStores env)
  | .create k => some
      { memory := s.memory.createCompositeKey k.encode
        level := s.level.createCompositeKey k.encode
        created := k :: s.created }
  | .delete k => some
      { memory := s.memory.deleteCompositeKey k.encode
        level := s.level.deleteCompositeKey k.encode
        created := s.created.filter (· ≠ k) }
  | .update old new => some
      { memory := s.memory.updateCompositeKey old.encode new.encode
        level := s.level.updateCompositeKey old.encode new.encode
        created := new :: s.created.filter (· ≠ old) }
  | .setValue key value => (s.level.setValue key value).map fun r => { s with level := r.2 }
  | .clear => some ⟨.empty, s.level.clear, []⟩

/-- The calls on both backends, from an empty index. -/
def indexSystem (env : LevelDbEnv) : TransitionSystem (IndexedStores env) IndexAction where
  init s := s.memory = .empty ∧ s.created = [] ∧ (∀ key ∈ s.level.db.keys, hidden key = false) ∧
    ∀ e ∈ s.level.batch, hidden e.1 = false
  step := IndexedStores.step

/-- Composite keys have no delimiter in their parts, and other keys are not in their namespace. -/
def Separated {env : LevelDbEnv} (_ : IndexedStores env) : IndexAction → Prop
  | .create k => k.DelimFree
  | .delete k => k.DelimFree
  | .update old new => old.DelimFree ∧ new.DelimFree
  | .setValue key _ => hidden key = false
  | .clear => True

/-- The scan has returned the created keys of the index whose attributes start with `p`, in order and
each once. -/
structure ExactScan (created : List CompositeKey) (indexName : Bytes) (p : List Bytes)
    (result : List Bytes) : Prop where
  increasing : result.Pairwise (· < ·)
  exact : ∀ key, key ∈ result ↔
    ∃ k ∈ created, k.indexName = indexName ∧ p <+: k.attributes ∧ key = k.encode

/-- The condition: where an attribute of the prefix has a delimiter there is no key at all; where the
prefix has no attributes, the first attribute of every key of the index is empty. -/
def ScanCovered {env : LevelDbEnv} (s : IndexedStores env) (indexName : Bytes) (p : List Bytes) :
    Prop :=
  if ∃ attr ∈ p, ckDelim ∈ attr then s.level.db.keys = []
  else p = [] → ∀ k ∈ s.created, k.indexName = indexName → k.attributes.head? = some []

instance {env : LevelDbEnv} (s : IndexedStores env) (indexName : Bytes) (p : List Bytes) :
    Decidable (ScanCovered s indexName p) := by
  unfold ScanCovered
  split <;> infer_instance

/-! ### The keys of the index -/

/-- A key is in the map exactly if it encodes a created composite key. -/
def Mirrors (m : OrderedMap Bytes Bytes) (created : List CompositeKey) (key : Bytes) : Prop :=
  key ∈ m.keys ↔ ∃ k ∈ created, key = k.encode

section Mirrors

variable {m : OrderedMap Bytes Bytes} {created : List CompositeKey} {key : Bytes}

theorem Mirrors.set (h : Mirrors m created key) (k : CompositeKey) :
    Mirrors (m.set k.encode []) (k :: created) key := by
  rw [Mirrors, OrderedMap.set, OrderedMap.mem_keys_insertWith, show key ∈ m.keys ↔ _ from h]
  simp

theorem Mirrors.erase (h : Mirrors m created key) (hfree : ∀ k ∈ created, k.DelimFree)
    {k : CompositeKey} (hk : k.DelimFree) :
    Mirrors (m.erase k.encode) (created.filter (· ≠ k)) key := by
  rw [Mirrors, OrderedMap.mem_keys_erase, show key ∈ m.keys ↔ _ from h]
  constructor
  · rintro ⟨hne, k', hk', rfl⟩
    refine ⟨k', List.mem_filter.2 ⟨hk', decide_eq_true ?_⟩, rfl⟩
    rintro rfl
    exact hne rfl
  · rintro ⟨k', hk', rfl⟩
    obtain ⟨hk', hne⟩ := List.mem_filter.1 hk'
    refine ⟨fun heq => of_decide_eq_true hne ?_, k', hk', rfl⟩
    exact encodeCompositeKey_inj (hfree k' hk') hk heq

end Mirrors

/-- The keys of the index are those of the created composite keys, in both backends. -/
structure IndexedStores.Inv {env : LevelDbEnv} (s : IndexedStores env) : Prop where
  free : ∀ k ∈ s.created, k.DelimFree
  memory : ∀ key, Mirrors s.memory s.created key
  level : ∀ key, hidden key = true → Mirrors s.level.db s.created key
  batch : ∀ e ∈ s.level.batch, hidden e.1 = false

namespace IndexedStores

variable {env : LevelDbEnv} {s s' : IndexedStores env}

theorem Inv.init (h : (indexSystem env).init s) : s.Inv := by
  obtain ⟨hmemory, hcreated, hlevel, hbatch⟩ := h
  refine ⟨by simp [hcreated], ?_, ?_, hbatch⟩
  · intro key
    simp [Mirrors, hmemory, hcreated, OrderedMap.keys, OrderedMap.empty]
  · intro key hkey
    refine iff_of_false (fun h => ?_) (by simp [hcreated])
    rw [hlevel key h] at hkey
    cases hkey

theorem Inv.setValue (hs : s.Inv) {key value : Bytes} (hkey : hidden key = false)
    (h : s.step (.setValue key value) = some s') : s'.Inv := by
  obtain ⟨r, hr, rfl⟩ := Option.map_eq_some_iff.1 h
  obtain ⟨cache, -, rfl⟩ := Option.map_eq_some_iff.1 hr
  have hbatch : ∀ e ∈ s.level.batch ++ [(key, value)], hidden e.1 = false := by
    intro e he
    rcases List.mem_append.1 he with he | he
    · exact hs.batch e he
    · rw [List.mem_singleton.1 he]
      exact hkey
  dsimp only
  split
  · refine ⟨hs.free, hs.memory, fun key' hkey' => ?_, by simp [ResLevelDB.writeBatch]⟩
    -- the written keys are not hidden
    refine Iff.trans ?_ (hs.level key' hkey')
    rw [ResLevelDB.writeBatch, OrderedMap.mem_keys_setAll]
    refine or_iff_right fun hmem => ?_
    obtain ⟨e, he, rfl⟩ := List.mem_map.1 hmem
    rw [hbatch e he] at hkey'
    cases hkey'
  · exact ⟨hs.free, hs.memory, hs.level, hbatch⟩

theorem Inv.step {a : IndexAction} (hs : s.Inv) (hok : Separated s a) (h : s.step a = some s') :
    s'.Inv := by
  have hfilter : ∀ k, ∀ k' ∈ s.created.filter (· ≠ k), k'.DelimFree := fun _ k' hk' =>
    hs.free k' (List.mem_of_mem_filter hk')
  cases a with
  | create k =>
    cases h
    refine ⟨List.forall_mem_cons.2 ⟨hok, hs.free⟩, fun key => (hs.memory key).set k,
      fun key hkey => (hs.level key hkey).set k, hs.batch⟩
  | delete k =>
    cases h
    exact ⟨hfilter k, fun key => (hs.memory key).erase hs.free hok,
      fun key hkey => (hs.level key hkey).erase hs.free hok, hs.batch⟩
  | update old new =>
    cases h
    exact ⟨List.forall_mem_cons.2 ⟨hok.2, hfilter old⟩,
      fun key => ((hs.memory key).erase hs.free hok.1).set new,
      fun key hkey => ((hs.level key hkey).erase hs.free hok.1).set new, hs.batch⟩
  | setValue key value => exact hs.setValue hok h
  | clear =>
    cases h
    exact ⟨by simp, by simp [Mirrors, OrderedMap.keys, OrderedMap.empty],
      by simp [Mirrors, OrderedMap.keys, OrderedMap.empty, ResLevelDB.clear],
      by simp [ResLevelDB.clear]⟩

end IndexedStores

/-! ### The scans -/

section Scans

variable {indexName : Bytes} {p : List Bytes}

theorem hidden_of_isPrefix {key : Bytes} (hname : ckDelim ∉ indexName)
    (hp : ∀ attr ∈ p, ckDelim ∉ attr) (h : encodeCompositeKeyPrefix indexName p <+: key) :
    hidden key = true := by
  rw [encodeCompositeKeyPrefix_eq hname hp] at h
  refine List.isPrefixOf_iff_prefix.2 (List.IsPrefix.trans ?_ h)
  exact (List.prefix_append_right_inj _).2 (List.cons_prefix_cons.2 ⟨rfl, List.nil_prefix⟩)

variable {m : OrderedMap Bytes Bytes} {created : List CompositeKey}

theorem mem_scanPrefix_iff
    (hm : ∀ key, hidden key = true → Mirrors m created key) (hfree : ∀ k ∈ created, k.DelimFree)
    (hname : ckDelim ∉ indexName) (hp : ∀ attr ∈ p, ckDelim ∉ attr) (key : Bytes) :
    key ∈ m.scanPrefix (encodeCompositeKeyPrefix indexName p) ↔
      ∃ k ∈ created, k.indexName = indexName ∧ scannedAttributes p <+: k.attributes ∧
        key = k.encode := by
  rw [OrderedMap.mem_scanPrefix]
  constructor
  · rintro ⟨hkey, hpre⟩
    obtain ⟨k, hk, rfl⟩ := (hm key (hidden_of_isPrefix hname hp hpre)).1 hkey
    obtain ⟨hindex, hattr⟩ := (encodeCompositeKeyPrefix_isPrefix_iff hname hp (hfree k hk)).1 hpre
    exact ⟨k, hk, hindex, hattr, rfl⟩
  · rintro ⟨k, hk, hindex, hattr, rfl⟩
    have hpre := (encodeCompositeKeyPrefix_isPrefix_iff hname hp (hfree k hk)).2 ⟨hindex, hattr⟩
    exact ⟨(hm _ (hidden_of_isPrefix hname hp hpre)).2 ⟨k, hk, rfl⟩, hpre⟩

theorem exactScan_iff
    (hm : ∀ key, hidden key = true → Mirrors m created key) (hfree : ∀ k ∈ created, k.DelimFree)
    (hname : ckDelim ∉ indexName) (hp : ∀ attr ∈ p, ckDelim ∉ attr) :
    ExactScan created indexName p (m.scanPrefix (encodeCompositeKeyPrefix indexName p)) ↔
      (p = [] → ∀ k ∈ created, k.indexName = indexName → k.attributes.head? = some []) := by
  have hmem := mem_scanPrefix_iff hm hfree hname hp
  constructor
  · rintro h rfl k hk hindex
    obtain ⟨k', hk', -, hattr, heq⟩ := (hmem k.encode).1 ((h.exact k.encode).2
      ⟨k, hk, hindex, List.nil_prefix, rfl⟩)
    obtain rfl := encodeCompositeKey_inj (hfree k hk) (hfree k' hk') heq
    obtain ⟨rest, hrest⟩ := hattr
    rw [← hrest]
    rfl
  · intro h
    refine ⟨m.pairwise_scanPrefix _, fun key => (hmem key).trans ?_⟩
    refine exists_congr fun k => and_congr_right fun hk => and_congr_right fun hindex =>
      and_congr_left fun _ => ?_
    by_cases hnil : p = []
    · obtain ⟨rest, hrest⟩ := List.head?_eq_some_iff.1 (h hnil k hk hindex)
      rw [scannedAttributes, if_pos hnil, hnil, hrest]
      simp
    · rw [scannedAttributes, if_neg hnil]

theorem exactScan_iff_of_delim
    (hfree : ∀ k ∈ created, k.DelimFree) (hp : ∃ attr ∈ p, ckDelim ∈ attr) :
    ExactScan created indexName p (m.scanPrefix (encodeCompositeKeyPrefix indexName p)) ↔
      m.keys = [] := by
  have hmem : ∀ key, key ∈ m.scanPrefix (encodeCompositeKeyPrefix indexName p) ↔ key ∈ m.keys := by
    intro key
    rw [OrderedMap.mem_scanPrefix, encodeCompositeKeyPrefix_of_delim hp]
    exact and_iff_left List.nil_prefix
  -- no created key has an attribute with a delimiter
  have hnone : ∀ key, ¬ ∃ k ∈ created, k.indexName = indexName ∧ p <+: k.attributes ∧
      key = k.encode := by
    rintro key ⟨k, hk, -, hattr, -⟩
    obtain ⟨attr, hattr', hdelim⟩ := hp
    exact (hfree k hk).2.1 attr (hattr.subset hattr') hdelim
  constructor
  · intro h
    refine List.eq_nil_iff_forall_not_mem.2 fun key hkey => ?_
    exact hnone key ((h.exact key).1 ((hmem key).2 hkey))
  · intro h
    refine ⟨m.pairwise_scanPrefix _, fun key => iff_of_false (fun hkey => ?_) (hnone key)⟩
    rw [hmem, h] at hkey
    cases hkey

/-- **The prefix scans of both backends are exact** under the condition, and only then: for every run
of calls, every index and every list of attributes. -/
theorem prefix_scan_exact {env : LevelDbEnv} {s : IndexedStores env}
    (hs : (indexSystem env).Reachable Separated s) (hname : ckDelim ∉ indexName) :
    (ExactScan s.created indexName p
        (s.memory.getByCompositeKeyPrefix (encodeCompositeKeyPrefix indexName p)) ∧
      ExactScan s.created indexName p
        (s.level.getByCompositeKeyPrefix (encodeCompositeKeyPrefix indexName p))) ↔
      ScanCovered s indexName p := by
  have hinv : s.Inv := hs.invariant (fun _ h => .init h) fun _ _ _ hs hok h => hs.step hok h
  unfold ScanCovered
  split
  case isTrue hp =>
    refine Iff.trans (and_congr (exactScan_iff_of_delim hinv.free hp)
      (exactScan_iff_of_delim hinv.free hp)) (and_iff_right_of_imp fun h => ?_)
    -- leveldb has every key of the index
    refine List.eq_nil_iff_forall_not_mem.2 fun key hkey => ?_
    obtain ⟨k, hk, rfl⟩ := (hinv.memory key).1 hkey
    have hhidden : hidden k.encode = true := by
      rw [CompositeKey.encode_eq (hinv.free k hk)]
      exact List.isPrefixOf_iff_prefix.2 ⟨terminated ckDelim (k.indexName :: k.attributes) ++
        k.primaryKey, by simp [ckPrefix, ckNamespace, ckDelim]⟩
    have hlevel := (hinv.level _ hhidden).2 ⟨k, hk, rfl⟩
    rw [h] at hlevel
    cases hlevel
  case isFalse hp =>
    have hp' : ∀ attr ∈ p, ckDelim ∉ attr := fun attr hattr hdelim => hp ⟨attr, hattr, hdelim⟩
    exact (and_congr (exactScan_iff (fun key _ => hinv.memory key) hinv.free hname hp')
      (exactScan_iff hinv.level hinv.free hname hp')).trans and_self_iff

end Scans

/-- Both backends with the entry. -/
def oneEntryStores : IndexedStores wireEnv :=
  ⟨CkMap.createCompositeKey .empty oneEntry.encode, ResLevelDB.createCompositeKey {} oneEntry.encode,
    [oneEntry]⟩

theorem oneEntryStores_reachable : (indexSystem wireEnv).Reachable Separated oneEntryStores := by
  have h₀ : (indexSystem wireEnv).Reachable Separated ⟨.empty, {}, []⟩ :=
    .init ⟨rfl, rfl, by simp [OrderedMap.keys, OrderedMap.empty], by simp⟩
  exact h₀.step (a := IndexAction.create oneEntry) (show oneEntry.DelimFree by decide) rfl

theorem prefix_scan_exact_oneEntry :
    ckDelim ∉ ofText "i" ∧ ExactScan [oneEntry] (ofText "i") [ofText "a"]
      (oneEntryStores.level.getByCompositeKeyPrefix
        (encodeCompositeKeyPrefix (ofText "i") [ofText "a"])) :=
  ⟨by decide, ((prefix_scan_exact oneEntryStores_reachable (by decide)).2 (by decide)).2⟩

/-- The scan for the empty list of attributes misses the entry, in both backends; the scan for an
attribute with a null byte returns it. -/
theorem prefix_scan_exact_fails :
    (indexSystem wireEnv).Reachable Separated oneEntryStores ∧
      oneEntryStores.memory.getByCompositeKeyPrefix
        (encodeCompositeKeyPrefix (ofText "i") []) = [] ∧
      oneEntryStores.level.getByCompositeKeyPrefix
        (encodeCompositeKeyPrefix (ofText "i") []) = [] ∧
      ¬ ExactScan oneEntryStores.created (ofText "i") [] [] ∧
      oneEntryStores.memory.getByCompositeKeyPrefix
        (encodeCompositeKeyPrefix (ofText "i") [[0]]) = [oneEntry.encode] := by
  refine ⟨oneEntryStores_reachable, by decide +kernel, by decide +kernel, fun h => ?_,
    by decide +kernel⟩
  have hmem := (h.exact oneEntry.encode).2 ⟨oneEntry, List.mem_singleton.2 rfl, rfl, List.nil_prefix, rfl⟩
  cases hmem

end Kv
