/-
**The global order of Geo-PBFT.**

Every region orders its own requests; `GeoGlobalExecutor` merges the regions.  Requests arrive through
`OrderGeoRequest` in any order.  The thread `OrderRound` moves them one by one into `execute_map_`,
which is ordered by sequence number and region, and executes the first one as long as it is the next
of the order `(1, 1), …, (1, R), (2, 1), …`.

The map has no entry below the next key as long as no request comes back that was executed before.
One that does is the first entry of the map from then on, and `GetNextMap` looks no further.

Main definitions:

* `Geo.Executor`, `Geo.Executor.orderRound` — the state and one step of the thread;
* `Geo.Ordered` — what the executor is for: the order without gap and repetition, and no waiting
  for a request that is there;
* `Geo.NotExecuted` — the request that `AddData` takes has not been executed.

Main results:

* `Geo.ordered_of_notExecuted` — every run that takes no request again is ordered;
* `Geo.ordered_fails_of_duplicate` — a second copy of an executed request blocks all others.
-/

import ResilientDb.OrderedMap
import ResilientDb.Transition

set_option autoImplicit false

namespace Geo

open List (mem_append mem_singleton not_mem_nil)

/-! ### The executor -/

/-- The part of a `Request` that the global order touches. -/
structure Request where
  seq : ℕ
  regionId : ℕ
  data : String
deriving DecidableEq

/-- The key of a request in `execute_map_`: pairs are compared in lexicographic order. -/
def Request.key (request : Request) : ℕ ×ₗ ℕ := toLex (request.seq, request.regionId)

/-- Where the thread `OrderRound` stands. -/
inductive Pc
  /-- At the test of the outer loop. -/
  | loop
  /-- About to call `AddData`. -/
  | add
  /-- At the test of the inner loop. -/
  | drain
  /-- Returned. -/
  | done
deriving DecidableEq

/-- `GeoGlobalExecutor`.  `executed` lists the requests handed to `Execute`, `received` those handed to
`OrderGeoRequest`. -/
structure Executor where
  orderQueue : List Request
  executeMap : OrderedMap (ℕ ×ₗ ℕ) Request
  nextSeq : ℕ
  nextRegion : ℕ
  isStop : Bool
  pc : Pc
  executed : List Request
  received : List Request

namespace Executor

/-- The executor as constructed. -/
def start : Executor where
  orderQueue := []
  executeMap := .empty
  nextSeq := 1
  nextRegion := 1
  isStop := false
  pc := .loop
  executed := []
  received := []

/-- The key that `GetNextMap` looks for. -/
def nextKey (e : Executor) : ℕ ×ₗ ℕ := toLex (e.nextSeq, e.nextRegion)

/-- `OrderGeoRequest`. -/
def orderGeoRequest (e : Executor) (request : Request) : Executor :=
  { e with orderQueue := e.orderQueue ++ [request], received := e.received ++ [request] }

/-- `AddData`.  `Pop` gives up after a while if the queue stays empty. -/
def addData (e : Executor) : Executor :=
  match e.orderQueue with
  | [] => e
  | request :: queue =>
    { e with orderQueue := queue, executeMap := e.executeMap.set request.key request }

/-- The end of `GetNextMap`: the next region, or the first one with the next sequence number.  The
counter of the sequence numbers is a `uint64_t`. -/
def advance (regionSize : ℕ) (e : Executor) : Executor :=
  { e with
    nextSeq := if regionSize < e.nextRegion + 1 then (e.nextSeq + 1) % 2 ^ 64 else e.nextSeq
    nextRegion := if regionSize < e.nextRegion + 1 then 1 else e.nextRegion + 1 }

/-- `GetNextMap`. -/
def getNextMap (regionSize : ℕ) (e : Executor) : Option (Request × Executor) :=
  match e.executeMap.begin with
  | none => none
  | some (key, request) =>
    if key = e.nextKey then
      some (request, { e with executeMap := e.executeMap.eraseBegin }.advance regionSize)
    else none

/-- One step of `OrderRound`. -/
def orderRound (regionSize : ℕ) (e : Executor) : Option Executor :=
  match e.pc with
  | .loop => some { e with pc := if e.isStop then .done else .add }
  | .add => some { e.addData with pc := .drain }
  | .drain =>
    if e.isStop then some { e with pc := .loop }
    else
      match e.getNextMap regionSize with
      | none => some { e with pc := .loop }
      | some (request, e) => some { e with executed := e.executed ++ [request] }
  | .done => none

/-- The keys of the requests that were executed, in order. -/
def executedKeys (e : Executor) : List (ℕ ×ₗ ℕ) := e.executed.map Request.key

/-- The thread waits in `Pop` for a request. -/
def Waits (e : Executor) : Prop := e.pc = .add ∧ e.orderQueue = []

instance (e : Executor) : Decidable e.Waits := inferInstanceAs (Decidable (_ ∧ _))

end Executor

/-- What can happen next. -/
inductive Action
  /-- Some thread hands in a request. -/
  | orderGeoRequest (request : Request)
  /-- The executor is asked to stop. -/
  | stop
  /-- The thread `OrderRound` takes a step. -/
  | orderRound

/-- One action. -/
def Executor.step (regionSize : ℕ) (e : Executor) : Action → Option Executor
  | .orderGeoRequest request => some (e.orderGeoRequest request)
  | .stop => some { e with isStop := true }
  | .orderRound => e.orderRound regionSize

/-- The runs of the executor. -/
def executorSystem (regionSize : ℕ) : TransitionSystem Executor Action where
  init e := e = .start
  step := Executor.step regionSize

/-! ### What the executor is for -/

/-- The keys of requests: sequence numbers from 1, and one of the regions. -/
def InRange (regionSize : ℕ) (key : ℕ ×ₗ ℕ) : Prop :=
  (1 ≤ (ofLex key).1 ∧ (ofLex key).1 < 2 ^ 64) ∧ 1 ≤ (ofLex key).2 ∧ (ofLex key).2 ≤ regionSize

instance (regionSize : ℕ) (key : ℕ ×ₗ ℕ) : Decidable (InRange regionSize key) :=
  inferInstanceAs (Decidable (_ ∧ _))

/-- The global order. -/
structure Ordered (regionSize : ℕ) (e : Executor) : Prop where
  /-- Only requests that were handed in are executed. -/
  received : ∀ request ∈ e.executed, request ∈ e.received
  /-- Execution follows the order of the keys, and no key is repeated. -/
  sorted : e.executedKeys.Pairwise (· < ·)
  /-- Nothing is left out: what comes before an executed key has been executed. -/
  noGap : ∀ key ∈ e.executedKeys, ∀ key', InRange regionSize key' → key' ≤ key →
    key' ∈ e.executedKeys
  /-- When the thread waits, a request that is next and has been handed in has been executed. -/
  prompt : e.Waits → ∀ request ∈ e.received,
    (∀ key, InRange regionSize key → key < request.key → key ∈ e.executedKeys) →
      request.key ∈ e.executedKeys

/-- Requests name one of the regions. -/
def WithinRegions (regionSize : ℕ) : Action → Prop
  | .orderGeoRequest request => InRange regionSize request.key
  | _ => True

instance (regionSize : ℕ) (a : Action) : Decidable (WithinRegions regionSize a) := by
  unfold WithinRegions
  split <;> infer_instance

/-- The condition: the request that `AddData` is about to take is not one that was executed, as its
key is not below the next one. -/
def NotExecuted (e : Executor) : Action → Prop
  | .orderRound => e.pc = .add → ∀ request ∈ e.orderQueue.head?, e.nextKey ≤ request.key
  | _ => True

instance (e : Executor) (a : Action) : Decidable (NotExecuted e a) := by
  unfold NotExecuted
  split <;> infer_instance

/-! ### Keys -/

theorem toLex_lt {a b c d : ℕ} : (toLex (a, b) : ℕ ×ₗ ℕ) < toLex (c, d) ↔ a < c ∨ a = c ∧ b < d :=
  Prod.Lex.toLex_lt_toLex

theorem toLex_le {a b c d : ℕ} : (toLex (a, b) : ℕ ×ₗ ℕ) ≤ toLex (c, d) ↔ a < c ∨ a = c ∧ b ≤ d :=
  Prod.Lex.toLex_le_toLex

/-- The next key. -/
def succKey (regionSize seq region : ℕ) : ℕ × ℕ :=
  if regionSize < region + 1 then (seq + 1, 1) else (seq, region + 1)

/-- No key lies between a key and its successor. -/
theorem lt_succKey_iff {regionSize seq region : ℕ} {key : ℕ ×ₗ ℕ} (hkey : InRange regionSize key) :
    key < toLex (succKey regionSize seq region) ↔ key ≤ toLex (seq, region) := by
  obtain ⟨a, b⟩ := key
  obtain ⟨_, hb, hle⟩ := hkey
  change 1 ≤ b at hb
  change b ≤ regionSize at hle
  change toLex (a, b) < _ ↔ toLex (a, b) ≤ _
  unfold succKey
  split_ifs with hlast
  · rw [toLex_lt, toLex_le]
    omega
  · rw [toLex_lt, toLex_le]
    omega

theorem succKey_fst (regionSize seq region : ℕ) :
    seq ≤ (succKey regionSize seq region).1 ∧ (succKey regionSize seq region).1 ≤ seq + 1 := by
  unfold succKey
  split_ifs <;> simp

theorem succKey_snd (regionSize seq region : ℕ) : 1 ≤ (succKey regionSize seq region).2 ∧
      (succKey regionSize seq region).2 ≤ max 1 regionSize := by
  unfold succKey
  split_ifs with hlast
  · simp
  · omega

/-! ### The invariant -/

/-- The requests with keys below `(seq, next_region_)` have been executed.  The number `seq` is
`next_seq_` as long as the counter has not wrapped around, when no request is left. -/
structure ExecutorInv (regionSize seq : ℕ) (e : Executor) : Prop where
  nextSeq : e.nextSeq = seq % 2 ^ 64
  seq_pos : 1 ≤ seq
  seq_le : seq ≤ 2 ^ 64
  region_pos : 1 ≤ e.nextRegion
  region_le : e.nextRegion ≤ max 1 regionSize
  sorted : e.executedKeys.Pairwise (· < ·)
  mem_executedKeys : ∀ key,
    key ∈ e.executedKeys ↔ InRange regionSize key ∧ key < toLex (seq, e.nextRegion)
  keyed : ∀ entry ∈ e.executeMap.entries, entry.2.key = entry.1 ∧ entry.2 ∈ e.received
  pending : ∀ key ∈ e.executeMap.keys, e.nextKey ≤ key
  inRange : ∀ request ∈ e.received, InRange regionSize request.key
  executed_received : ∀ request ∈ e.executed, request ∈ e.received
  queue_received : ∀ request ∈ e.orderQueue, request ∈ e.received
  seen : ∀ request ∈ e.received, request ∈ e.orderQueue ∨ request.key ∈ e.executeMap.keys ∨
    request.key ∈ e.executedKeys
  /-- At the points from which the thread may wait, the next key is not in the map. -/
  drained : e.pc = .add ∨ e.pc = .loop ∧ e.isStop = false → e.nextKey ∉ e.executeMap.keys
  stopped : e.pc = .done → e.isStop = true

variable {regionSize seq : ℕ} {e e' : Executor}

theorem ExecutorInv.start : ExecutorInv regionSize 1 .start where
  nextSeq := rfl
  seq_pos := le_rfl
  seq_le := by norm_num
  region_pos := le_rfl
  region_le := le_max_left _ _
  sorted := List.Pairwise.nil
  mem_executedKeys := by
    rintro ⟨a, b⟩
    refine ⟨nofun, ?_⟩
    rintro ⟨⟨⟨ha, _⟩, hb, _⟩, hlt⟩
    change 1 ≤ a at ha
    change 1 ≤ b at hb
    have hlt := toLex_lt.1 hlt
    simp only [Executor.start] at hlt
    omega
  keyed := nofun
  pending := nofun
  inRange := nofun
  executed_received := nofun
  queue_received := nofun
  seen := nofun
  drained := fun _ => not_mem_nil
  stopped := fun h => absurd h (by simp [Executor.start])

variable {request : Request}

/-- A request is put into the queue. -/
theorem ExecutorInv.orderGeoRequest (he : ExecutorInv regionSize seq e)
    (hrange : InRange regionSize request.key) :
    ExecutorInv regionSize seq (e.orderGeoRequest request) := by
  refine { he with
    keyed := ?_, inRange := ?_, executed_received := ?_, queue_received := ?_, seen := ?_ }
  · intro entry hentry
    obtain ⟨hkey, hmem⟩ := he.keyed entry hentry
    exact ⟨hkey, List.mem_append_left _ hmem⟩
  · intro r hr
    obtain hr | hr := mem_append.1 hr
    · exact he.inRange r hr
    · rw [mem_singleton.1 hr]
      exact hrange
  · intro r hr
    exact List.mem_append_left _ (he.executed_received r hr)
  · intro r hr
    obtain hr | hr := mem_append.1 hr
    · exact List.mem_append_left _ (he.queue_received r hr)
    · exact List.mem_append_right _ hr
  · intro r hr
    obtain hr | hr := mem_append.1 hr
    · exact (he.seen r hr).imp_left (List.mem_append_left _)
    · exact .inl (List.mem_append_right _ hr)

theorem ExecutorInv.stop (he : ExecutorInv regionSize seq e) :
    ExecutorInv regionSize seq { e with isStop := true } :=
  { he with
    drained := fun h => he.drained (h.imp_right fun h => absurd h.2 (by simp))
    stopped := fun _ => rfl }

/-- A request goes from the queue to the map. -/
theorem ExecutorInv.addData (he : ExecutorInv regionSize seq e)
    (hnew : ∀ request ∈ e.orderQueue.head?, e.nextKey ≤ request.key) :
    ExecutorInv regionSize seq { e.addData with pc := .drain } := by
  cases hqueue : e.orderQueue with
  | nil =>
    have hadd : e.addData = e := by simp [Executor.addData, hqueue]
    rw [hadd]
    exact { he with drained := by simp, stopped := by simp }
  | cons request queue =>
    have hadd : e.addData = { e with
        orderQueue := queue, executeMap := e.executeMap.set request.key request } := by
      simp [Executor.addData, hqueue]
    have hmem : request ∈ e.orderQueue := by simp [hqueue]
    rw [hadd]
    refine { he with
      keyed := ?_, pending := ?_, queue_received := ?_, seen := ?_, drained := by simp,
      stopped := by simp }
    · rintro ⟨key, r⟩ hentry
      obtain ⟨rfl, rfl⟩ | ⟨_, hold⟩ := OrderedMap.mem_set.1 hentry
      · exact ⟨rfl, he.queue_received r hmem⟩
      · exact he.keyed _ hold
    · intro key hkey
      obtain rfl | hkey := (OrderedMap.mem_keys_insertWith _ _ _ _).1 hkey
      · exact hnew request (by simp [hqueue])
      · exact he.pending key hkey
    · intro r hr
      exact he.queue_received r (by simp [hqueue, hr])
    · intro r hr
      have hmap : ∀ key, key ∈ (e.executeMap.set request.key request).keys ↔
          key = request.key ∨ key ∈ e.executeMap.keys :=
        fun key => OrderedMap.mem_keys_insertWith _ _ _ _
      simp only [hmap]
      obtain hr | hr | hr := he.seen r hr
      · rw [hqueue] at hr
        obtain rfl | hr := List.mem_cons.1 hr
        · exact .inr (.inl (.inl rfl))
        · exact .inl hr
      · exact .inr (.inl (.inr hr))
      · exact .inr (.inr hr)

theorem getNextMap_some (h : e.getNextMap regionSize = some (request, e')) :
    e.executeMap.begin = some (e.nextKey, request) ∧
      e' = { e with executeMap := e.executeMap.eraseBegin }.advance regionSize := by
  unfold Executor.getNextMap at h
  split at h
  · cases h
  · rename_i key r hbegin
    split_ifs at h with hkey
    cases h
    rw [hbegin, hkey]
    exact ⟨rfl, rfl⟩

theorem ExecutorInv.getNextMap_none (he : ExecutorInv regionSize seq e)
    (h : e.getNextMap regionSize = none) : e.nextKey ∉ e.executeMap.keys := by
  intro hmem
  unfold Executor.getNextMap at h
  split at h
  · rename_i hbegin
    simp [OrderedMap.keys_of_begin_none hbegin] at hmem
  · rename_i key r hbegin
    split_ifs at h with hkey
    have hle : key ≤ e.nextKey := OrderedMap.begin_le hbegin hmem
    have hge : e.nextKey ≤ key := he.pending key ((OrderedMap.mem_keys_of_begin hbegin).2 (.inl rfl))
    exact hkey (le_antisymm hle hge)

theorem advance_nextSeq (h : e.nextSeq = seq) (hlt : seq < 2 ^ 64) :
    (e.advance regionSize).nextSeq = (succKey regionSize seq e.nextRegion).1 % 2 ^ 64 := by
  simp only [Executor.advance, succKey, h]
  split_ifs
  · rfl
  · exact (Nat.mod_eq_of_lt hlt).symm

theorem advance_nextRegion (regionSize seq : ℕ) (e : Executor) :
    (e.advance regionSize).nextRegion = (succKey regionSize seq e.nextRegion).2 := by
  simp only [Executor.advance, succKey]
  split_ifs <;> rfl

theorem nextKey_advance_le {key : ℕ ×ₗ ℕ} (h : e.nextSeq = seq) (hlt : seq < 2 ^ 64)
    (hkey : InRange regionSize key) (hgt : toLex (seq, e.nextRegion) < key) :
    (e.advance regionSize).nextKey ≤ key := by
  have hle : toLex (succKey regionSize seq e.nextRegion) ≤ key := by
    rw [← not_lt, lt_succKey_iff hkey]
    exact hgt.not_ge
  rw [Executor.nextKey, advance_nextSeq h hlt, advance_nextRegion regionSize seq]
  refine le_trans ?_ hle
  rw [toLex_le]
  omega

/-- The request whose turn it is is executed. -/
theorem ExecutorInv.getNextMap (he : ExecutorInv regionSize seq e) (hpc : e.pc = .drain)
    (h : e.getNextMap regionSize = some (request, e')) :
    ExecutorInv regionSize (succKey regionSize seq e.nextRegion).1
      { e' with executed := e'.executed ++ [request] } := by
  obtain ⟨hbegin, rfl⟩ := getNextMap_some h
  obtain ⟨hkey, hreceived⟩ := he.keyed _ (List.mem_of_mem_head? hbegin)
  change request.key = e.nextKey at hkey
  have hrange : InRange regionSize e.nextKey := hkey ▸ he.inRange request hreceived
  have hpos : 1 ≤ e.nextSeq := hrange.1.1
  -- the counter has not wrapped around, as numbers of requests are positive
  have hlt : seq < 2 ^ 64 := by
    refine lt_of_le_of_ne he.seq_le fun hseq => ?_
    have hzero := he.nextSeq
    omega
  have hseq : e.nextSeq = seq := he.nextSeq.trans (Nat.mod_eq_of_lt hlt)
  have hnext : e.nextKey = toLex (seq, e.nextRegion) := by rw [Executor.nextKey, hseq]
  have hkeys : (e.executed ++ [request]).map Request.key = e.executedKeys ++ [e.nextKey] := by
    simp [Executor.executedKeys, hkey]
  have hmap : ∀ entry ∈ e.executeMap.eraseBegin.entries, entry ∈ e.executeMap.entries :=
    fun entry hentry => List.mem_of_mem_tail hentry
  exact {
    nextSeq := advance_nextSeq hseq hlt
    seq_pos := he.seq_pos.trans (succKey_fst _ _ _).1
    seq_le := (succKey_fst _ _ _).2.trans hlt
    region_pos := (advance_nextRegion regionSize seq _).symm ▸ (succKey_snd _ _ _).1
    region_le := (advance_nextRegion regionSize seq _).symm ▸ (succKey_snd _ _ _).2
    sorted := by
      change ((e.executed ++ [request]).map Request.key).Pairwise _
      rw [hkeys, List.pairwise_append]
      refine ⟨he.sorted, List.pairwise_singleton _ _, ?_⟩
      intro key hmem key' hmem'
      rw [mem_singleton.1 hmem', hnext]
      exact ((he.mem_executedKeys key).1 hmem).2
    mem_executedKeys := by
      intro key
      have hregion := advance_nextRegion regionSize seq
        { e with executeMap := e.executeMap.eraseBegin }
      change key ∈ (e.executed ++ [request]).map Request.key ↔
        _ ∧ key < toLex ((succKey regionSize seq e.nextRegion).1, Executor.nextRegion _)
      rw [hregion, hkeys, mem_append, mem_singleton, he.mem_executedKeys]
      constructor
      · rintro (⟨hkey, hlt⟩ | rfl)
        · exact ⟨hkey, (lt_succKey_iff hkey).2 hlt.le⟩
        · exact ⟨hrange, (lt_succKey_iff hrange).2 hnext.le⟩
      · rintro ⟨hkey, hlt⟩
        rw [hnext]
        exact ((lt_succKey_iff hkey).1 hlt).lt_or_eq.imp_left fun h => ⟨hkey, h⟩
    keyed := fun entry hentry => he.keyed entry (hmap entry hentry)
    pending := by
      intro key hmem
      have hgt := OrderedMap.begin_lt_of_mem_eraseBegin hbegin hmem
      have hold : key ∈ e.executeMap.keys := (OrderedMap.mem_keys_of_begin hbegin).2 (.inr hmem)
      obtain ⟨entry, hentry, rfl⟩ := List.mem_map.1 hold
      obtain ⟨hkey, hreceived⟩ := he.keyed entry hentry
      refine nextKey_advance_le (e := { e with executeMap := _ }) hseq hlt ?_ (hnext ▸ hgt)
      rw [← hkey]
      exact he.inRange _ hreceived
    inRange := he.inRange
    executed_received := by
      intro r hr
      obtain hr | hr := mem_append.1 hr
      · exact he.executed_received r hr
      · rw [mem_singleton.1 hr]
        exact hreceived
    queue_received := he.queue_received
    seen := by
      intro r hr
      change _ ∨ _ ∨ r.key ∈ (e.executed ++ [request]).map Request.key
      rw [hkeys, mem_append, mem_singleton]
      obtain hr | hr | hr := he.seen r hr
      · exact .inl hr
      · obtain hr | hr := (OrderedMap.mem_keys_of_begin hbegin).1 hr
        · exact .inr (.inr (.inr hr))
        · exact .inr (.inl hr)
      · exact .inr (.inr (.inl hr))
    drained := by
      intro hadd
      change e.pc = _ ∨ e.pc = _ ∧ _ at hadd
      simp [hpc] at hadd
    stopped := by
      intro hdone
      change e.pc = _ at hdone
      simp [hpc] at hdone }

/-- A round of the thread keeps the invariant. -/
theorem ExecutorInv.orderRound (he : ExecutorInv regionSize seq e)
    (hok : NotExecuted e .orderRound) (h : e.orderRound regionSize = some e') :
    ∃ seq', ExecutorInv regionSize seq' e' := by
  unfold Executor.orderRound at h
  split at h
  case h_1 hpc =>
    cases h
    refine ⟨seq, { he with drained := ?_, stopped := ?_ }⟩
    · intro hadd
      refine he.drained (.inr ⟨hpc, ?_⟩)
      cases hstop : e.isStop <;> simp [hstop] at hadd ⊢
    · intro hdone
      cases hstop : e.isStop <;> simp [hstop] at hdone ⊢
  case h_2 hpc =>
    cases h
    exact ⟨seq, he.addData (hok hpc)⟩
  case h_3 hpc =>
    split_ifs at h with hstop
    · cases h
      exact ⟨seq, { he with drained := by simp [hstop], stopped := by simp }⟩
    · split at h
      · rename_i hnone
        cases h
        exact ⟨seq, { he with drained := fun _ => he.getNextMap_none hnone, stopped := by simp }⟩
      · rename_i request e₁ hsome
        cases h
        exact ⟨_, he.getNextMap hpc hsome⟩
  case h_4 => cases h

/-- The condition on a step: requests name one of the regions, and none comes back that was
executed. -/
def InOrder (regionSize : ℕ) (e : Executor) (a : Action) : Prop :=
  WithinRegions regionSize a ∧ NotExecuted e a

instance (regionSize : ℕ) (e : Executor) (a : Action) : Decidable (InOrder regionSize e a) :=
  inferInstanceAs (Decidable (_ ∧ _))

theorem exists_executorInv (h : (executorSystem regionSize).Reachable (InOrder regionSize) e) :
    ∃ seq, ExecutorInv regionSize seq e := by
  refine h.invariant (I := fun e => ∃ seq, ExecutorInv regionSize seq e) ?_ ?_
  · rintro _ rfl
    exact ⟨1, .start⟩
  · rintro e a e' ⟨seq, he⟩ ⟨hrange, hnew⟩ hs
    cases a with
    | orderGeoRequest request =>
      cases hs
      exact ⟨seq, he.orderGeoRequest hrange⟩
    | stop =>
      cases hs
      exact ⟨seq, he.stop⟩
    | orderRound => exact he.orderRound hnew hs

theorem ExecutorInv.ordered (he : ExecutorInv regionSize seq e) : Ordered regionSize e where
  received := he.executed_received
  sorted := he.sorted
  noGap := by
    intro key hkey key' hrange hle
    exact (he.mem_executedKeys key').2 ⟨hrange, hle.trans_lt ((he.mem_executedKeys key).1 hkey).2⟩
  prompt := by
    rintro ⟨hpc, hqueue⟩ request hrequest hbelow
    obtain hmem | hmem | hmem := he.seen request hrequest
    · simp [hqueue] at hmem
    · have hrange := he.inRange request hrequest
      have hgt : e.nextKey < request.key := by
        refine lt_of_le_of_ne (he.pending _ hmem) fun heq => ?_
        exact he.drained (.inl hpc) (heq ▸ hmem)
      by_cases hwrap : seq = 2 ^ 64
      · -- all numbers are used up
        exact (he.mem_executedKeys _).2 ⟨hrange, toLex_lt.2 (.inl (hwrap ▸ hrange.1.2))⟩
      · have hlt : seq < 2 ^ 64 := lt_of_le_of_ne he.seq_le hwrap
        have hnext : e.nextKey = toLex (seq, e.nextRegion) := by
          rw [Executor.nextKey, he.nextSeq, Nat.mod_eq_of_lt hlt]
        have hregion : e.nextRegion ≤ regionSize := by
          have hone : 1 ≤ regionSize := hrange.2.1.trans hrange.2.2
          exact he.region_le.trans (max_le hone le_rfl)
        have hnextRange : InRange regionSize e.nextKey := by
          rw [hnext]
          exact ⟨⟨he.seq_pos, hlt⟩, he.region_pos, hregion⟩
        have hexecuted := hbelow e.nextKey hnextRange hgt
        rw [he.mem_executedKeys, ← hnext] at hexecuted
        exact absurd hexecuted.2 (lt_irrefl _)
    · exact hmem

/-! ### The thread comes to wait -/

/-- Steps of the thread alone. -/
def Rounds (regionSize : ℕ) (e e' : Executor) : Prop :=
  ∃ n, (executorSystem regionSize).run e (List.replicate n .orderRound) = some e'

theorem Rounds.refl (regionSize : ℕ) (e : Executor) : Rounds regionSize e e := ⟨0, rfl⟩

theorem Rounds.cons {e₁ : Executor} (h : e.orderRound regionSize = some e₁)
    (h' : Rounds regionSize e₁ e') : Rounds regionSize e e' := by
  obtain ⟨n, hn⟩ := h'
  refine ⟨n + 1, ?_⟩
  exact Option.bind_eq_some_iff.2 ⟨e₁, h, hn⟩

theorem Rounds.trans {e₁ : Executor} (h : Rounds regionSize e e₁)
    (h' : Rounds regionSize e₁ e') : Rounds regionSize e e' := by
  obtain ⟨n, hn⟩ := h
  induction n generalizing e with
  | zero =>
    cases hn
    exact h'
  | succ n ih =>
    obtain ⟨e₂, h₂, hn⟩ := Option.bind_eq_some_iff.1 hn
    exact .cons h₂ (ih hn)

theorem exists_rounds_add (regionSize : ℕ) (hpc : e.pc = .drain) (hstop : e.isStop = false) :
    ∃ e', Rounds regionSize e e' ∧ e'.pc = .add ∧ e'.isStop = false ∧
      e'.orderQueue = e.orderQueue := by
  induction hsize : e.executeMap.entries.length using Nat.strong_induction_on generalizing e with
  | h size ih =>
    cases hnext : e.getNextMap regionSize with
    | none =>
      refine ⟨{ e with pc := .add }, ?_, rfl, hstop, rfl⟩
      refine @Rounds.cons _ _ _ { e with pc := .loop } ?_ (.cons ?_ (.refl _ _))
      · simp [Executor.orderRound, hpc, hstop, hnext]
      · simp [Executor.orderRound, hstop]
    | some result =>
      obtain ⟨request, e₁⟩ := result
      obtain ⟨hbegin, rfl⟩ := getNextMap_some hnext
      have hentries := congrArg List.length (OrderedMap.entries_of_begin hbegin)
      rw [List.length_cons] at hentries
      obtain ⟨e', hrounds, hadd⟩ := ih e.executeMap.entries.tail.length (by omega)
        (e := { ({ e with executeMap := e.executeMap.eraseBegin }.advance regionSize) with
          executed := e.executed ++ [request] }) hpc hstop rfl
      refine ⟨e', .cons ?_ hrounds, hadd⟩
      simp [Executor.orderRound, hpc, hstop, hnext, Executor.advance]

/-- The thread comes to wait after some rounds. -/
theorem exists_rounds_waits (regionSize : ℕ) (hpc : e.pc ≠ .done) (hstop : e.isStop = false) :
    ∃ e', Rounds regionSize e e' ∧ e'.Waits := by
  induction hsize : e.orderQueue.length using Nat.strong_induction_on generalizing e with
  | h size ih =>
    -- from the call of `AddData`, with the queue as it is
    have hadd : ∀ e₁ : Executor, e₁.pc = .add → e₁.isStop = false →
        e₁.orderQueue = e.orderQueue → ∃ e', Rounds regionSize e₁ e' ∧ e'.Waits := by
      intro e₁ hpc₁ hstop₁ hqueue₁
      cases hqueue : e.orderQueue with
      | nil => exact ⟨e₁, .refl _ _, hpc₁, hqueue₁.trans hqueue⟩
      | cons request queue =>
        have hstep : e₁.orderRound regionSize = some { e₁ with
            orderQueue := queue
            executeMap := e₁.executeMap.set request.key request
            pc := .drain } := by
          simp [Executor.orderRound, hpc₁, Executor.addData, hqueue₁.trans hqueue]
        have hlt : queue.length < size := by simp [← hsize, hqueue]
        obtain ⟨e', hrounds, hwaits⟩ := ih queue.length hlt (e := { e₁ with
          orderQueue := queue
          executeMap := e₁.executeMap.set request.key request
          pc := .drain }) (by simp) hstop₁ rfl
        exact ⟨e', .cons hstep hrounds, hwaits⟩
    cases hcase : e.pc with
    | loop =>
      obtain ⟨e', hrounds, hwaits⟩ := hadd { e with pc := .add } rfl hstop rfl
      refine ⟨e', .cons ?_ hrounds, hwaits⟩
      simp [Executor.orderRound, hcase, hstop]
    | add => exact hadd e hcase hstop rfl
    | drain =>
      obtain ⟨e₁, hrounds₁, hpc₁, hstop₁, hqueue₁⟩ :=
        exists_rounds_add regionSize hcase hstop
      obtain ⟨e', hrounds, hwaits⟩ := hadd e₁ hpc₁ hstop₁ hqueue₁
      exact ⟨e', hrounds₁.trans hrounds, hwaits⟩
    | done => exact absurd hcase hpc

/-! ### The global order -/

/-- In a run that takes no request again after its execution, requests are executed in the global
order, and the thread never waits for a request that is there.  It does come to wait. -/
theorem ordered_of_notExecuted (h : (executorSystem regionSize).Reachable (InOrder regionSize) e) :
    Ordered regionSize e ∧
      (e.isStop = false → ∃ n e', (executorSystem regionSize).run e (List.replicate n .orderRound) =
        some e' ∧ e'.Waits) := by
  obtain ⟨seq, he⟩ := exists_executorInv h
  refine ⟨he.ordered, fun hstop => ?_⟩
  have hpc : e.pc ≠ .done := fun hdone => by simp [he.stopped hdone] at hstop
  obtain ⟨e', ⟨n, hn⟩, hwaits⟩ := exists_rounds_waits regionSize hpc hstop
  exact ⟨n, e', hn, hwaits⟩

/-- The first request of region 2, its first copy late, then that of region 1. -/
def twoRegionsRun : List Action :=
  [.orderGeoRequest ⟨1, 2, "b"⟩, .orderGeoRequest ⟨1, 2, "b"⟩, .orderGeoRequest ⟨1, 1, "a"⟩] ++
    List.replicate 12 .orderRound

theorem ordered_of_notExecuted_twoRegions : ∃ e : Executor,
    (executorSystem 2).Reachable (InOrder 2) e ∧ Ordered 2 e ∧ e.Waits ∧
      e.executed = [⟨1, 1, "a"⟩, ⟨1, 2, "b"⟩] := by
  obtain ⟨e, hreach, hwaits, hexecuted⟩ := (executorSystem 2).exists_reachable
    (C := InOrder 2) (P := fun e => e.Waits ∧ e.executed = [⟨1, 1, "a"⟩, ⟨1, 2, "b"⟩])
    twoRegionsRun rfl (by decide +kernel) (by decide +kernel)
  exact ⟨e, hreach, (ordered_of_notExecuted hreach).1, hwaits, hexecuted⟩

/-- With one region, the first request comes twice and then the second. -/
def duplicateRun : List Action :=
  [.orderGeoRequest ⟨1, 1, "a"⟩, .orderGeoRequest ⟨1, 1, "a"⟩, .orderGeoRequest ⟨2, 1, "b"⟩] ++
    List.replicate 11 .orderRound

/-- The second copy of the first request is the first entry of the map from then on.  The second
request is next and has been handed in, but the thread waits. -/
theorem ordered_fails_of_duplicate : ∃ e : Executor,
    (executorSystem 1).Reachable (fun _ a => WithinRegions 1 a) e ∧ e.Waits ∧
      (⟨2, 1, "b"⟩ : Request) ∈ e.received ∧
      (∀ key, InRange 1 key → key < toLex (2, 1) → key ∈ e.executedKeys) ∧
      toLex (2, 1) ∉ e.executedKeys ∧ ¬ Ordered 1 e := by
  obtain ⟨e, hreach, hwaits, hreceived, hexecuted⟩ := (executorSystem 1).exists_reachable
    (C := fun _ a => WithinRegions 1 a) (P := fun e => e.Waits ∧
      (⟨2, 1, "b"⟩ : Request) ∈ e.received ∧ e.executedKeys = [toLex (1, 1)]) duplicateRun rfl
    (by decide +kernel) (by decide +kernel)
  have hbelow : ∀ key, InRange 1 key → key < toLex (2, 1) → key ∈ e.executedKeys := by
    rintro ⟨a, b⟩ ⟨⟨ha, _⟩, hb, hb'⟩ hlt
    change 1 ≤ a at ha
    change 1 ≤ b at hb
    change b ≤ 1 at hb'
    have hlt := toLex_lt.1 hlt
    obtain ⟨rfl, rfl⟩ : a = 1 ∧ b = 1 := by omega
    rw [hexecuted]
    exact mem_singleton.2 rfl
  have hnot : toLex (2, 1) ∉ e.executedKeys := by
    rw [hexecuted]
    decide
  exact ⟨e, hreach, hwaits, hreceived, hbelow, hnot,
    fun hordered => hnot (hordered.prompt hwaits _ hreceived hbelow)⟩

end Geo
