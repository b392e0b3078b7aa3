/-
**Batches, prepared and direct.**

A replica with one execution thread runs a batch with `ExecuteBatchWithSeq`, which parses every request
and executes it.  With several threads a batch is parsed before its turn, by `Prepare`, and then run
with `ExecuteBatchDataWithSeq`; only if the batch is empty or its first request was not parsed, the
direct way is taken.  `KVExecutor` has one dispatcher for each of the two ways.

The dispatchers agree, so the ways do, unless a request that cannot be parsed comes after one that can:
`ExecuteBatchData` then follows a null pointer.

Main definitions:

* `KvBatch.KVRequest`, `KvBatch.KVResponse`, `KvBatch.KVExecutor` — messages and executor, with all
  commands, over those of `ResilientDb.KvStorage`;
* `KvBatch.executeRequest`, `KvBatch.executeData` — the two dispatchers;
* `KvBatch.executeDirect`, `KvBatch.executePrepared` — the two ways through
  `TransactionExecutor::Execute`;
* `KvBatch.ParsesFromStart` — the condition.

Main results:

* `KvBatch.executeData_eq` — the dispatchers agree;
* `KvBatch.executePrepared_eq` — the ways agree under the condition;
* `KvBatch.executePrepared_undefined` — otherwise the prepared way fails.
-/

import ResilientDb.KvStorage
import ResilientDb.MemoryDb

set_option autoImplicit false

namespace KvBatch

open Kv (Storage)
open Wire (Bytes)

/-! ### The messages -/

/-- `KVRequest`: one of the commands of `Kv.executeData`, or another one with the fields that are read for
it.  `none` is also a number that is not in the enumeration. -/
inductive KVRequest
  | storage (q : Kv.KVRequest)
  | getRange (key value : Bytes)
  | sql (sqlQuery : Bytes)
  | none (smartContractRequest : Bytes)
  deriving DecidableEq

/-- `KVResponse`, with the fields that `Kv.executeData` does not set. -/
structure KVResponse extends Kv.KVResponse where
  smartContractResponse : Bytes := []
  sqlResponse : Bytes := []
  deriving DecidableEq

/-! ### The executor -/

/-- What `KVExecutor` uses: the message formats, the functions of the storage that only it calls, and
the contracts, which have a state of their own and use the storage too. -/
structure Env (σ κ : Type) where
  /-- `ParseFromString` of a request. -/
  parse : Bytes → Option KVRequest
  /-- `SerializeToString` of a response. -/
  serialize : KVResponse → Option Bytes
  /-- `Storage::GetRange`. -/
  getRange : σ → Bytes → Bytes → Bytes
  /-- `Storage::ExecuteSQL`. -/
  executeSQL : σ → Bytes → Bytes × σ
  /-- `ContractTransactionManager::ExecuteData`. -/
  executeContract : κ → σ → Bytes → Option Bytes × κ × σ

/-- `KVExecutor`, with its contract manager. -/
structure KVExecutor (σ κ : Type) extends Kv.KVExecutor σ where
  contractManager : κ
  deriving DecidableEq

section

variable {σ κ : Type} [Storage σ]

namespace KVExecutor

/-- `ExecuteSQL`. -/
def executeSQL (env : Env σ κ) (e : KVExecutor σ κ) (sqlQuery : Bytes) : Bytes × KVExecutor σ κ :=
  if sqlQuery = [] then (Wire.ofText "Error: empty SQL query", e)
  else
    let r := env.executeSQL e.storage sqlQuery
    (r.1, { e with storage := r.2 })

/-- The call of the contract manager. -/
def executeContract (env : Env σ κ) (e : KVExecutor σ κ) (request : Bytes) :
    Option Bytes × KVExecutor σ κ :=
  let r := env.executeContract e.contractManager e.storage request
  (r.1, { e with storage := r.2.2, contractManager := r.2.1 })

end KVExecutor

/-- `ExecuteRequest`.  `none` in the result is a null pointer. -/
def executeRequest (env : Env σ κ) (e : KVExecutor σ κ) :
    KVRequest → Option (Option Bytes × KVExecutor σ κ)
  | .storage q =>
    (Kv.executeData e.toKVExecutor q).map fun r =>
      (env.serialize { toKVResponse := r.1 }, { e with toKVExecutor := r.2 })
  | .getRange key value => some (env.serialize { value := env.getRange e.storage key value }, e)
  | .sql sqlQuery =>
    let r := e.executeSQL env sqlQuery
    some (env.serialize { sqlResponse := r.1, value := r.1 }, r.2)
  | .none smartContractRequest =>
    if smartContractRequest ≠ [] then
      let r := e.executeContract env smartContractRequest
      some (env.serialize { smartContractResponse := r.1.getD [] }, r.2)
    else some (env.serialize {}, e)

/-- `ExecuteData`. -/
def executeData (env : Env σ κ) (e : KVExecutor σ κ) (request : Bytes) :
    Option (Option Bytes × KVExecutor σ κ) :=
  match env.parse request with
  | none => some (none, e)
  | some (.storage q) =>
    (Kv.executeData e.toKVExecutor q).map fun r =>
      (env.serialize { toKVResponse := r.1 }, { e with toKVExecutor := r.2 })
  | some (.getRange key value) =>
    some (env.serialize { value := env.getRange e.storage key value }, e)
  | some (.sql sqlQuery) =>
    let r := e.executeSQL env sqlQuery
    some (env.serialize { sqlResponse := r.1, value := r.1 }, r.2)
  | some (.none smartContractRequest) =>
    if smartContractRequest ≠ [] then
      let r := e.executeContract env smartContractRequest
      some (env.serialize { smartContractResponse := r.1.getD [] }, r.2)
    else some (env.serialize {}, e)

/-! ### Batches -/

/-- `Prepare`.  A request that is not parsed is a null pointer. -/
def prepare (env : Env σ κ) (batch : List Bytes) : List (Option KVRequest) := batch.map env.parse

/-- A request of `ExecuteBatchData`.  The pointer is followed without a look at it, and a null response is
the empty one. -/
def followRequest (env : Env σ κ) (e : KVExecutor σ κ) :
    Option KVRequest → Option (Bytes × KVExecutor σ κ)
  | none => none
  | some q => (executeRequest env e q).map fun r => (r.1.getD [], r.2)

/-- `ExecuteBatchData`. -/
def executeBatchData (env : Env σ κ) (e : KVExecutor σ κ) (requests : List (Option KVRequest)) :
    Option (List Bytes × KVExecutor σ κ) :=
  Kv.executeAll (followRequest env) e requests

/-- `ExecuteBatchDataWithSeq`. -/
def executeBatchDataWithSeq (env : Env σ κ) (e : KVExecutor σ κ) (seq : ℕ)
    (requests : List (Option KVRequest)) : Option (List Bytes × KVExecutor σ κ) :=
  executeBatchData env { e with seq := seq } requests

/-- `ExecuteBatch`. -/
def executeBatch (env : Env σ κ) (e : KVExecutor σ κ) (batch : List Bytes) :
    Option (List Bytes × KVExecutor σ κ) :=
  Kv.executeAll (fun e request => (executeData env e request).map fun r => (r.1.getD [], r.2)) e batch

/-- `ExecuteBatchWithSeq`. -/
def executeBatchWithSeq (env : Env σ κ) (e : KVExecutor σ κ) (seq : ℕ) (batch : List Bytes) :
    Option (List Bytes × KVExecutor σ κ) :=
  executeBatch env { e with seq := seq } batch

/-- The batch in `TransactionExecutor::Execute`, with one execution thread. -/
def executeDirect (env : Env σ κ) (e : KVExecutor σ κ) (seq : ℕ) (batch : List Bytes) :
    Option (List Bytes × KVExecutor σ κ) :=
  executeBatchWithSeq env e seq batch

/-- The batch in `TransactionExecutor::Execute`, with several execution threads. -/
def executePrepared (env : Env σ κ) (e : KVExecutor σ κ) (seq : ℕ) (batch : List Bytes) :
    Option (List Bytes × KVExecutor σ κ) :=
  let data := prepare env batch
  if data = [] ∨ data.head? = some none then executeBatchWithSeq env e seq batch
  else executeBatchDataWithSeq env e seq data

/-- The condition: the first request cannot be parsed, or all can. -/
def ParsesFromStart (env : Env σ κ) (batch : List Bytes) : Prop :=
  (∀ request ∈ batch.head?, env.parse request = none) ∨
    ∀ request ∈ batch, (env.parse request).isSome

instance (env : Env σ κ) (batch : List Bytes) : Decidable (ParsesFromStart env batch) :=
  inferInstanceAs (Decidable ((∀ request ∈ batch.head?, _) ∨ ∀ request ∈ batch, _))

/-! ### The two ways agree -/

variable {env : Env σ κ}

/-- **The dispatchers agree** on every command. -/
theorem executeData_eq {e : KVExecutor σ κ} {request : Bytes} {q : KVRequest}
    (h : env.parse request = some q) : executeData env e request = executeRequest env e q := by
  unfold executeData
  rw [h]
  cases q with
  | storage | getRange | sql | none => rfl

theorem executeBatchData_prepare : ∀ {batch : List Bytes} (e : KVExecutor σ κ),
    (∀ request ∈ batch, (env.parse request).isSome) →
    executeBatchData env e (prepare env batch) = executeBatch env e batch := by
  intro batch
  induction batch with
  | nil =>
    intro e _
    rfl
  | cons request batch ih =>
    intro e h
    obtain ⟨q, hq⟩ := Option.isSome_iff_exists.1 (h request List.mem_cons_self)
    have hrest : ∀ request ∈ batch, (env.parse request).isSome :=
      fun request hr => h request (List.mem_cons_of_mem _ hr)
    have htail : prepare env (request :: batch) = some q :: prepare env batch := by
      rw [prepare, List.map_cons, hq]
      rfl
    have hfirst : followRequest env e (some q) =
        (executeData env e request).map fun r => (r.1.getD [], r.2) := by
      rw [executeData_eq hq]
      rfl
    rw [htail, executeBatchData, executeBatch, Kv.executeAll, Kv.executeAll, hfirst]
    refine Option.bind_congr fun r _ => ?_
    have hbatch := ih r.2 hrest
    rw [executeBatchData, executeBatch] at hbatch
    dsimp only
    rw [hbatch]

variable {batch : List Bytes}

theorem executeBatchData_null : ∀ {requests : List (Option KVRequest)} (e : KVExecutor σ κ),
    none ∈ requests → executeBatchData env e requests = none := by
  intro requests
  induction requests with
  | nil =>
    intro e h
    cases h
  | cons request requests ih =>
    intro e h
    cases request with
    | none => rfl
    | some q =>
      have hmem : none ∈ requests := by simpa using h
      refine Option.bind_eq_none_iff.2 fun r _ => ?_
      have hbatch := ih r.2 hmem
      rw [executeBatchData] at hbatch
      dsimp only
      rw [hbatch]
      rfl

theorem executePrepared_undefined (e : KVExecutor σ κ) (seq : ℕ)
    (h : ¬ ParsesFromStart env batch) : executePrepared env e seq batch = none := by
  rw [ParsesFromStart, not_or] at h
  obtain ⟨hhead, hsome⟩ := h
  push Not at hhead hsome
  obtain ⟨first, hfirst, hparsed⟩ := hhead
  obtain ⟨request, hmem, hnone⟩ := hsome
  unfold executePrepared
  rw [if_neg]
  · refine executeBatchData_null _ (List.mem_map.2 ⟨request, hmem, ?_⟩)
    simpa using hnone
  · rintro (hnil | hcond)
    · rw [prepare, List.map_eq_nil_iff] at hnil
      rw [hnil] at hfirst
      cases hfirst
    · rw [prepare, List.head?_map, hfirst] at hcond
      exact hparsed (Option.some.inj hcond)

end

/-! ### Small batches -/

/-- The first byte is the command; there are no contracts and no queries. -/
def byteEnv : Env Kv.MemoryDB Unit where
  parse := fun request =>
    match request with
    | [1] => some (.storage { cmd := .set, key := [107], value := [118] })
    | [2] => some (.storage { cmd := .get, key := [107] })
    | _ => none
  serialize := fun r => some r.value
  getRange := fun _ _ _ => []
  executeSQL := fun st _ => ([], st)
  executeContract := fun c st _ => (none, c, st)

end KvBatch
