/-
**Storage, the key-value executor, and the transfer of a snapshot.**

The state machine of a replica is a `Storage`: a key-value store that is written with a sequence
number or with a version, and in addition through a plain view.  `KVExecutor` runs the commands of the
committed batches on it.  A Raft leader sends its storage to a follower that is far behind: it writes
every item that `GetAllItems` lists into one byte string, and the follower clears its storage and
passes the items to `SetValue`.

Main definitions:

* `Kv.Storage` — the virtual functions of a storage;
* `Kv.executeData`, `Kv.executeAll`, `Kv.executeBatchWithSeq`, `Kv.executorSystem` — the executor and
  its runs;
* `Kv.serializeSnapshot`, `Kv.applySnapshot` — the transfer;
* `Kv.SameAnswers` — two storages answer all reads of the latest values in the same way.

Main results:

* `Kv.transfer_eq` — the transfer passes exactly the listed items to `SetValue`;
* `Kv.Keeps.reachable` — what the functions keep holds in every storage that a run reaches.
-/

import ResilientDb.OrderedMap
import ResilientDb.Transition
import ResilientDb.Wire

set_option autoImplicit false

namespace Kv

open Wire (Bytes leBytes leValue length_leBytes leValue_leBytes)

/-! ### The interface -/

/-- The virtual functions of `Storage`.  Writes return the code of the source; they yield `none` where
its behaviour is undefined.  Reads return a storage too, as a read may reorder a cache. -/
class Storage (σ : Type) where
  /-- The plain view. -/
  setValue : σ → Bytes → Bytes → Option (ℤ × σ)
  /-- Write a value with a sequence number. -/
  setValueWithSeq : σ → Bytes → Bytes → ℕ → Option (ℤ × σ)
  /-- The value of a sequence number; 0 asks for the latest one. -/
  getValueWithSeq : σ → Bytes → ℕ → (Bytes × ℕ) × σ
  /-- Write a value if the version given is the current one. -/
  setValueWithVersion : σ → Bytes → Bytes → ℤ → Option (ℤ × σ)
  /-- The value of a version; 0 asks for the latest one. -/
  getValueWithVersion : σ → Bytes → ℤ → (Bytes × ℤ) × σ
  /-- The latest value of every key, with its version. -/
  getAllItems : σ → OrderedMap Bytes (Bytes × ℤ)
  /-- The latest value of every key between two keys, with its version. -/
  getKeyRange : σ → Bytes → Bytes → OrderedMap Bytes (Bytes × ℤ)
  /-- The values with versions between two versions, the latest first. -/
  getHistory : σ → Bytes → ℤ → ℤ → List (Bytes × ℤ) × σ
  /-- The values with the highest versions, the latest first. -/
  getTopHistory : σ → Bytes → ℤ → List (Bytes × ℤ) × σ
  /-- Remove all keys. -/
  clear : σ → σ
  /-- Write what is pending to disk. -/
  flush : σ → σ

/-- The storages answer every read of the latest values in the same way. -/
def SameAnswers {σ : Type} [Storage σ] (st st' : σ) : Prop :=
  (∀ key, (Storage.getValueWithSeq st key 0).1 = (Storage.getValueWithSeq st' key 0).1) ∧
    (∀ key, (Storage.getValueWithVersion st key 0).1 = (Storage.getValueWithVersion st' key 0).1) ∧
    ∀ minKey maxKey, Storage.getKeyRange st minKey maxKey = Storage.getKeyRange st' minKey maxKey

/-! ### The executor -/

/-- The commands of `KVRequest`. -/
inductive Cmd
  | set
  | get
  | getAllValues
  | setWithVersion
  | getWithVersion
  | getAllItems
  | getKeyRange
  | getHistory
  | getTop
  deriving DecidableEq

/-- `KVRequest`, as it is read from a message, which is shorter than 2 GiB. -/
structure KVRequest where
  cmd : Cmd
  key : Bytes := []
  value : Bytes := []
  version : ℤ := 0
  minKey : Bytes := []
  maxKey : Bytes := []
  minVersion : ℤ := 0
  maxVersion : ℤ := 0
  topNumber : ℤ := 0
  /-- The key is shorter than the message. -/
  key_size : key.length < 2 ^ 31 := by decide
  deriving DecidableEq

/-- `KVResponse`. -/
structure KVResponse where
  value : Bytes := []
  valueInfo : Option (Bytes × ℤ) := none
  items : Option (List (Bytes × Bytes × ℤ)) := none
  deriving DecidableEq

/-- `KVExecutor`: a storage, and the sequence number of the batch being executed. -/
structure KVExecutor (σ : Type) where
  storage : σ
  seq : ℕ := 0
  deriving DecidableEq

/-- The loop of `ExecuteBatch` and `ExecuteBatchData`: one request after the other, each with the
executor that the one before it has left. -/
def executeAll {ε α β : Type} (execute : ε → α → Option (β × ε)) : ε → List α → Option (List β × ε)
  | e, [] => some ([], e)
  | e, a :: as => do
      let (b, e) ← execute e a
      let (bs, e) ← executeAll execute e as
      some (b :: bs, e)

section

variable {σ : Type} [Storage σ]

/-- `ExecuteData` on a request that was parsed. -/
def executeData (e : KVExecutor σ) (q : KVRequest) : Option (KVResponse × KVExecutor σ) :=
  match q.cmd with
  | .set =>
    (Storage.setValueWithSeq e.storage q.key q.value e.seq).map fun r =>
      ({}, { e with storage := r.2 })
  | .get =>
    let r := Storage.getValueWithSeq e.storage q.key 0
    some ({ value := r.1.1 }, { e with storage := r.2 })
  | .getAllValues => some ({}, e)
  | .setWithVersion =>
    (Storage.setValueWithVersion e.storage q.key q.value q.version).map fun r =>
      ({}, { e with storage := r.2 })
  | .getWithVersion =>
    let r := Storage.getValueWithVersion e.storage q.key q.version
    some ({ valueInfo := some r.1 }, { e with storage := r.2 })
  | .getAllItems => some ({ items := some [] }, e)
  | .getKeyRange =>
    some ({ items := some (Storage.getKeyRange e.storage q.minKey q.maxKey).entries }, e)
  | .getHistory =>
    let r := Storage.getHistory e.storage q.key q.minVersion q.maxVersion
    some ({ items := some (r.1.map fun v => (q.key, v)) }, { e with storage := r.2 })
  | .getTop =>
    let r := Storage.getTopHistory e.storage q.key q.topNumber
    some ({ items := some (r.1.map fun v => (q.key, v)) }, { e with storage := r.2 })

/-- `ExecuteData`.  A request that cannot be parsed (`none`) has the empty response. -/
def executeParsed (e : KVExecutor σ) : Option KVRequest → Option (Option KVResponse × KVExecutor σ)
  | none => some (none, e)
  | some q => (executeData e q).map fun r => (some r.1, r.2)

/-- `ExecuteBatch`. -/
def executeBatch (e : KVExecutor σ) (qs : List (Option KVRequest)) :
    Option (List (Option KVResponse) × KVExecutor σ) :=
  executeAll executeParsed e qs

/-- `ExecuteBatchWithSeq`. -/
def executeBatchWithSeq (e : KVExecutor σ) (seq : ℕ) (qs : List (Option KVRequest)) :
    Option (List (Option KVResponse) × KVExecutor σ) :=
  executeBatch { e with seq := seq } qs

/-- What happens to a storage: a batch is executed, or pending writes go to disk. -/
inductive Command
  | executeBatchWithSeq (seq : ℕ) (requests : List (Option KVRequest))
  | flush

/-- The runs of an executor whose storage starts as `init` says. -/
def executorSystem (init : σ → Prop) : TransitionSystem (KVExecutor σ) Command where
  init e := init e.storage ∧ e.seq = 0
  step e
    | .executeBatchWithSeq seq qs => (executeBatchWithSeq e seq qs).map Prod.snd
    | .flush => some { e with storage := Storage.flush e.storage }

/-! ### What every function keeps -/

/-- Reads keep a property of the storage. -/
structure KeepsReads (P : σ → Prop) : Prop where
  getValueWithSeq : ∀ {st : σ} (key : Bytes) (seq : ℕ), P st →
    P (Storage.getValueWithSeq st key seq).2
  getValueWithVersion : ∀ {st : σ} (key : Bytes) (version : ℤ), P st →
    P (Storage.getValueWithVersion st key version).2
  getHistory : ∀ {st : σ} (key : Bytes) (minVersion maxVersion : ℤ), P st →
    P (Storage.getHistory st key minVersion maxVersion).2
  getTopHistory : ∀ {st : σ} (key : Bytes) (topNumber : ℤ), P st →
    P (Storage.getTopHistory st key topNumber).2

/-- All functions that the executor calls keep a property of the storage. -/
structure Keeps (P : σ → Prop) : Prop extends KeepsReads P where
  setValueWithSeq : ∀ {st : σ} {key value : Bytes} {seq : ℕ} {r : ℤ × σ}, P st →
    key.length < 2 ^ 31 → Storage.setValueWithSeq st key value seq = some r → P r.2
  setValueWithVersion : ∀ {st : σ} {key value : Bytes} {version : ℤ} {r : ℤ × σ}, P st →
    key.length < 2 ^ 31 → Storage.setValueWithVersion st key value version = some r → P r.2
  flush : ∀ {st : σ}, P st → P (Storage.flush st)

variable {P : σ → Prop}

/-- A request keeps what the functions keep. -/
theorem Keeps.executeData (h : Keeps P) {e e' : KVExecutor σ} {q : KVRequest} {a : KVResponse}
    (he : P e.storage) (hs : executeData e q = some (a, e')) : P e'.storage := by
  unfold Kv.executeData at hs
  cases hcmd : q.cmd <;> rw [hcmd] at hs
  case set =>
    obtain ⟨r, hr, heq⟩ := Option.map_eq_some_iff.1 hs
    cases heq
    exact h.setValueWithSeq he q.key_size hr
  case setWithVersion =>
    obtain ⟨r, hr, heq⟩ := Option.map_eq_some_iff.1 hs
    cases heq
    exact h.setValueWithVersion he q.key_size hr
  case get =>
    cases hs
    exact h.getValueWithSeq _ _ he
  case getWithVersion =>
    cases hs
    exact h.getValueWithVersion _ _ he
  case getHistory =>
    cases hs
    exact h.getHistory _ _ _ he
  case getTop =>
    cases hs
    exact h.getTopHistory _ _ he
  all_goals
    cases hs
    exact he

/-- A batch keeps what each request keeps. -/
theorem executeAll_invariant {ε α β : Type} {execute : ε → α → Option (β × ε)} {I : ε → Prop}
    (hstep : ∀ e a r, I e → execute e a = some r → I r.2) : ∀ {as : List α} {e : ε} {r : List β × ε},
      I e → executeAll execute e as = some r → I r.2
  | [], e, r, he, h => by
    cases h
    exact he
  | a :: as, e, r, he, h => by
    obtain ⟨b, hb, h⟩ := Option.bind_eq_some_iff.1 h
    obtain ⟨bs, hbs, h⟩ := Option.bind_eq_some_iff.1 h
    cases h
    have hrest : I bs.2 := executeAll_invariant hstep (hstep e a b he hb) hbs
    exact hrest

theorem Keeps.executeBatch (h : Keeps P) {qs : List (Option KVRequest)} {e : KVExecutor σ}
    {r : List (Option KVResponse) × KVExecutor σ} (he : P e.storage)
    (hs : executeBatch e qs = some r) : P r.2.storage := by
  refine executeAll_invariant (I := fun e => P e.storage) (fun e q r he hs => ?_) he hs
  cases q with
  | none =>
    cases hs
    exact he
  | some q =>
    obtain ⟨r, hr, rfl⟩ := Option.map_eq_some_iff.1 hs
    exact h.executeData he hr

theorem Keeps.reachable (h : Keeps P) {init : σ → Prop} (hinit : ∀ st, init st → P st)
    {e : KVExecutor σ} (hr : (executorSystem init).Reachable TransitionSystem.always e) :
    P e.storage := by
  refine hr.invariant (I := fun e => P e.storage) ?_ ?_
  · intro e he
    exact hinit _ he.1
  intro e a e' he _ hs
  cases a with
  | executeBatchWithSeq seq qs =>
    obtain ⟨r, hr, rfl⟩ := Option.map_eq_some_iff.1 hs
    exact h.executeBatch (e := { e with seq := seq }) he hr
  | flush =>
    cases hs
    exact h.flush he

/-! ### The transfer of a snapshot -/

/-- One item: the length of the key in 4 bytes, the key, the length of the value, the value. -/
def serializeItem (key value : Bytes) : Bytes :=
  leBytes 4 key.length ++ key ++ leBytes 4 value.length ++ value

/-- `SerializeSnapshot`. -/
def serializeSnapshot (st : σ) : Bytes :=
  (Storage.getAllItems st).entries.flatMap fun e => serializeItem e.1 e.2.1

/-- The item at the start of `raw`, and what comes after it; `none` where the loop of `ApplySnapshot`
ends. -/
def readItem (raw : Bytes) : Option ((Bytes × Bytes) × Bytes) :=
  if raw.length < 8 then none
  else
    let keyLength := leValue (raw.take 4)
    let afterLength := raw.drop 4
    if afterLength.length < keyLength then none
    else
      let key := afterLength.take keyLength
      let afterKey := afterLength.drop keyLength
      if afterKey.length < 4 then none
      else
        let valueLength := leValue (afterKey.take 4)
        let afterValueLength := afterKey.drop 4
        if afterValueLength.length < valueLength then none
        else some ((key, afterValueLength.take valueLength), afterValueLength.drop valueLength)

/-- The loop of `ApplySnapshot`.  Every item takes some bytes, so that `fuel` bounds their number. -/
def applyItems : ℕ → Bytes → σ → Option σ
  | 0, _, st => some st
  | fuel + 1, raw, st =>
    match readItem raw with
    | none => some st
    | some (item, rest) =>
      (Storage.setValue st item.1 item.2).bind fun r => applyItems fuel rest r.2

/-- `ApplySnapshot`.  The early return for an empty snapshot is the loop without a turn. -/
def applySnapshot (st : σ) (raw : Bytes) : Option σ :=
  (applyItems raw.length raw (Storage.clear st)).map Storage.flush

/-- What a follower with storage `dst` has after the snapshot of `src` is installed. -/
def transfer (src dst : σ) : Option σ := applySnapshot dst (serializeSnapshot src)

/-- Pass the items to `SetValue` one after the other. -/
def setItems : List (Bytes × Bytes) → σ → Option σ
  | [], st => some st
  | item :: items, st => (Storage.setValue st item.1 item.2).bind fun r => setItems items r.2

end

theorem length_serializeItem (key value : Bytes) :
    (serializeItem key value).length = key.length + value.length + 8 := by
  simp only [serializeItem, List.length_append, length_leBytes]
  omega

/-- An item of a snapshot is read back. -/
theorem readItem_serializeItem {key value : Bytes} (hkey : key.length < 2 ^ 32)
    (hvalue : value.length < 2 ^ 32) (rest : Bytes) :
    readItem (serializeItem key value ++ rest) = some ((key, value), rest) := by
  have hlen : ¬ (serializeItem key value ++ rest).length < 8 := by
    rw [List.length_append, length_serializeItem]
    omega
  have hk : leValue (leBytes 4 key.length) = key.length := leValue_leBytes 4 hkey
  have hv : leValue (leBytes 4 value.length) = value.length := leValue_leBytes 4 hvalue
  -- the four parts in the order in which they are read
  have hsplit : serializeItem key value ++ rest =
      leBytes 4 key.length ++ (key ++ (leBytes 4 value.length ++ (value ++ rest))) := by
    simp [serializeItem]
  unfold readItem
  rw [if_neg hlen, hsplit]
  simp [List.take_left', List.drop_left', hk, hv]

variable {σ : Type} [Storage σ]

/-- So are all of them. -/
theorem applyItems_serialize : ∀ (items : List (Bytes × Bytes)) {fuel : ℕ} (st : σ),
    (∀ e ∈ items, e.1.length < 2 ^ 32 ∧ e.2.length < 2 ^ 32) → items.length ≤ fuel →
    applyItems fuel (items.flatMap fun e => serializeItem e.1 e.2) st = setItems items st
  | [], fuel, st, _, _ => by
    cases fuel <;> rfl
  | item :: items, fuel + 1, st, h, hfuel => by
    obtain ⟨hkey, hvalue⟩ := h item List.mem_cons_self
    have hread := readItem_serializeItem hkey hvalue
      (items.flatMap fun e => serializeItem e.1 e.2)
    rw [List.flatMap_cons, applyItems, hread, setItems]
    refine Option.bind_congr fun r _ => ?_
    exact applyItems_serialize items r.2 (fun e he => h e (List.mem_cons_of_mem _ he))
      (Nat.le_of_succ_le_succ hfuel)

theorem length_le_serialize : ∀ items : List (Bytes × Bytes),
    items.length ≤ (items.flatMap fun e => serializeItem e.1 e.2).length
  | [] => le_rfl
  | item :: items => by
    have ih := length_le_serialize items
    rw [List.flatMap_cons, List.length_append, length_serializeItem, List.length_cons]
    omega

/-- The items that the transfer takes over: keys with their values, without the versions. -/
def plainItems (st : σ) : List (Bytes × Bytes) :=
  (Storage.getAllItems st).entries.map fun e => (e.1, e.2.1)

/-- A transfer writes the items of the source. -/
theorem transfer_eq {src : σ} (dst : σ)
    (h : ∀ e ∈ plainItems src, e.1.length < 2 ^ 32 ∧ e.2.length < 2 ^ 32) :
    transfer src dst = (setItems (plainItems src) (Storage.clear dst)).map Storage.flush := by
  have hraw : serializeSnapshot src =
      (plainItems src).flatMap fun e => serializeItem e.1 e.2 := by
    simp [serializeSnapshot, plainItems, List.flatMap_map]
  rw [transfer, applySnapshot, hraw, applyItems_serialize _ _ h (length_le_serialize _)]

end Kv
