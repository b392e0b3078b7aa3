/-
**The proxy's batches.**

`ResponseManager` puts the requests of its users into batches (`BatchProposeMsg`), keeps the contexts of
a batch under a local id until the answer comes (`DoBatch`, `FetchContextList`), and counts the batches
that are on their way with `send_num_`.

Contexts are kept in a ring, and a completed id makes room for the one half a ring ahead.  An id that
is not completed for so long loses its contexts, or has the contexts of a later id refused.  The
collectors of the answers are in such a ring, too, and a late answer has the answers of a later batch
counted anew.  An error answer, with which a primary refuses a batch that it has no sequence number for, is
not counted at all: every one decrements `send_num_`, from whomever and for whatever batch.  When `DoBatch`
fails, the batch is cleared before its clients would be told.

Main definitions:

* `Pbft.Batches`, `Pbft.batchSystem` — batches with their contexts, completed in any order;
* `Pbft.Proposer.batchProposeMsg` — one round of the loop that builds batches;
* `Pbft.Flow`, `Pbft.flowSystem` — `send_num_`, with the batches that are not answered;
* `Pbft.Near`, `Pbft.Orderly` — the conditions.

Main results:

* `Pbft.contexts_kept` — no contexts are lost or refused, under the condition;
* `Pbft.failed_batch_reported_iff` — a failed batch is reported only if nobody asked for an answer;
* `Pbft.flow_exact` — `send_num_` is the number of batches without an answer, under the condition.
-/

import ResilientDb.PbftResponse

set_option autoImplicit false

namespace Pbft

open Function (update update_of_ne update_self)

theorem getCapacity_pos (size : ℕ) : 0 < getCapacity size := by
  unfold getCapacity
  split
  · exact Nat.one_pos
  · exact Nat.two_pow_pos _

/-- Two ids within a ring have different places. -/
theorem mod_ring_ne {capacity n i j : ℕ} (hne : i ≠ j) (hi : n ≤ i + capacity ∧ i < n + capacity)
    (hj : n ≤ j + capacity ∧ j < n + capacity) : i % (2 * capacity) ≠ j % (2 * capacity) := by
  intro hmod
  refine hne (Nat.ModEq.eq_of_abs_lt hmod (abs_lt.2 ?_))
  omega

/-! ### Contexts -/

/-- The response manager and the contexts that have been stored and not been fetched. -/
structure Batches where
  manager : ResponseManager
  stored : List (ℕ × List (Option ℕ))

/-- A batch is built, or enough answers have come for one. -/
inductive BatchAction
  | doBatch (contexts : List (Option ℕ))
  | complete (id : ℕ)

/-- One action.  There are at most `GetMaxProcessTxn() + 1` batches at a time. -/
def Batches.step (p : ResponseSetup) (s : Batches) : BatchAction → Option Batches
  | .doBatch contexts =>
    if s.stored.length ≤ p.maxProcessTxn then
      some
        { manager := s.manager.addContextList contexts
          stored :=
            if (s.manager.contextPool.setContextList s.manager.localId contexts).isSome then
              (s.manager.localId, contexts) :: s.stored
            else s.stored }
    else none
  | .complete id =>
    if id ∈ s.stored.map Prod.fst then
      some
        { manager := { s.manager with contextPool := (s.manager.contextPool.fetchContextList id).2 }
          stored := s.stored.filter (·.1 ≠ id) }
    else none

/-- The batches of a proxy. -/
def batchSystem (p : ResponseSetup) : TransitionSystem Batches BatchAction where
  init s := s = ⟨.construct p, []⟩
  step := Batches.step p

/-- The condition: a batch is built only when everything half a ring before it has been completed. -/
def Near (s : Batches) : BatchAction → Prop
  | .doBatch _ => ∀ e ∈ s.stored, s.manager.localId < e.1 + s.manager.contextPool.capacity
  | .complete _ => True

instance (s : Batches) (a : BatchAction) : Decidable (Near s a) := by
  unfold Near
  split <;> infer_instance

/-- The ring around the next id: behind it the stored contexts, ahead of it the places that are free,
which are those half a ring away from a completed id. -/
structure Batches.Inv (s : Batches) : Prop where
  capacity : 0 < s.manager.contextPool.capacity
  range : ∀ e ∈ s.stored,
    s.manager.localId ≤ e.1 + s.manager.contextPool.capacity ∧ e.1 < s.manager.localId
  kept : ∀ e ∈ s.stored,
    s.manager.contextPool.slot (s.manager.contextPool.index e.1) = ⟨e.1, e.2⟩
  ready : ∀ id, s.manager.localId ≤ id → id < s.manager.localId + s.manager.contextPool.capacity →
    (∀ e ∈ s.stored, e.1 + s.manager.contextPool.capacity ≠ id) →
    (s.manager.contextPool.slot (s.manager.contextPool.index id)).seq = id

namespace Batches

variable {p : ResponseSetup} {s s' : Batches}

theorem Inv.init : Inv ⟨.construct p, []⟩ := by
  have hcap : 0 < getCapacity (p.maxProcessTxn * 2) := getCapacity_pos _
  refine ⟨hcap, by simp, by simp, fun id _ hid _ => ?_⟩
  refine Nat.mod_eq_of_lt (hid.trans_le ?_)
  change 1 + getCapacity (p.maxProcessTxn * 2) ≤ 2 * getCapacity (p.maxProcessTxn * 2)
  omega

theorem Inv.setContextList (h : s.Inv) {contexts : List (Option ℕ)}
    (hok : Near s (.doBatch contexts)) :
    s.manager.contextPool.setContextList s.manager.localId contexts =
      some { s.manager.contextPool with
        slot := update s.manager.contextPool.slot
          (s.manager.contextPool.index s.manager.localId) ⟨s.manager.localId, contexts⟩ } := by
  have hseq := h.ready s.manager.localId le_rfl (Nat.lt_add_of_pos_right h.capacity)
    fun e he => (hok e he).ne'
  rw [ContextPool.setContextList, if_pos hseq]

theorem Inv.doBatch (h : s.Inv) {contexts : List (Option ℕ)} (hok : Near s (.doBatch contexts))
    (hs : s.step p (.doBatch contexts) = some s') : s'.Inv := by
  obtain ⟨-, hs⟩ := Option.ite_none_right_eq_some.1 hs
  rw [ResponseManager.addContextList, h.setContextList hok] at hs
  cases hs
  have hcap := h.capacity
  refine ⟨hcap, ?_, ?_, ?_⟩
  · intro e he
    rcases List.mem_cons.1 he with rfl | he
    · exact ⟨Nat.add_le_add_left hcap _, Nat.lt_succ_self _⟩
    · exact ⟨hok e he, Nat.lt_succ_of_lt (h.range e he).2⟩
  · intro e he
    rcases List.mem_cons.1 he with rfl | he
    · exact update_self _ _ _
    · have hrange := h.range e he
      have hplace : s.manager.contextPool.index e.1 ≠ s.manager.contextPool.index s.manager.localId :=
        mod_ring_ne (n := s.manager.localId) (by omega) (by omega) (by omega)
      exact (update_of_ne hplace _ _).trans (h.kept e he)
  · intro id hle hlt hfree
    dsimp only [Option.getD_some] at hle hlt hfree ⊢
    have hne := hfree _ List.mem_cons_self
    have hplace : s.manager.contextPool.index id ≠ s.manager.contextPool.index s.manager.localId :=
      mod_ring_ne (n := s.manager.localId) (by omega) (by omega) (by omega)
    exact (congrArg _ (update_of_ne hplace _ _)).trans
      (h.ready id (by omega) (by omega) fun e he => hfree e (List.mem_cons_of_mem _ he))

theorem Inv.complete (h : s.Inv) {id : ℕ} (hs : s.step p (.complete id) = some s') : s'.Inv := by
  obtain ⟨hmem, hs⟩ := Option.ite_none_right_eq_some.1 hs
  obtain ⟨e₀, he₀, rfl⟩ := List.mem_map.1 hmem
  rw [ContextPool.fetchContextList, if_pos (by rw [h.kept e₀ he₀])] at hs
  cases hs
  have hcap := h.capacity
  have hrange₀ := h.range e₀ he₀
  -- another place of the ring is left as it is
  have hother : ∀ id, s.manager.localId ≤ id + s.manager.contextPool.capacity →
      id < s.manager.localId + s.manager.contextPool.capacity → id ≠ e₀.1 →
      id ≠ e₀.1 + s.manager.contextPool.capacity →
      update (update s.manager.contextPool.slot
        (s.manager.contextPool.index e₀.1) ⟨e₀.1, []⟩)
        (s.manager.contextPool.index (e₀.1 + s.manager.contextPool.capacity))
        { seq := e₀.1 + s.manager.contextPool.capacity } (s.manager.contextPool.index id) =
      s.manager.contextPool.slot (s.manager.contextPool.index id) := by
    intro id hle hlt hne hne'
    rw [update_of_ne, update_of_ne]
    · exact mod_ring_ne (n := s.manager.localId) hne ⟨hle, hlt⟩ (by omega)
    · exact mod_ring_ne (n := s.manager.localId) hne' ⟨hle, hlt⟩ (by omega)
  refine ⟨hcap, ?_, ?_, ?_⟩
  · exact fun e he => h.range e (List.mem_of_mem_filter he)
  · intro e he
    obtain ⟨he, hne⟩ := List.mem_filter.1 he
    have hrange := h.range e he
    exact (hother e.1 hrange.1 (by omega) (of_decide_eq_true hne) (by omega)).trans (h.kept e he)
  · intro id hle hlt hfree
    dsimp only at hle hlt hfree ⊢
    by_cases hid : id = e₀.1 + s.manager.contextPool.capacity
    · rw [hid]
      simp only [ContextPool.index, update_self]
    · refine (congrArg _ (hother id (by omega) hlt (by omega) hid)).trans
        (h.ready id hle hlt fun e he heq => ?_)
      refine hfree e (List.mem_filter.2 ⟨he, decide_eq_true fun hsame => hid ?_⟩) heq
      rw [← heq, hsame]

theorem Inv.step {a : BatchAction} (h : s.Inv) (hok : Near s a) (hs : s.step p a = some s') :
    s'.Inv := by
  cases a with
  | doBatch contexts => exact h.doBatch hok hs
  | complete id => exact h.complete hs

end Batches

/-- **Contexts are not lost, and not refused**, in every run that meets the condition. -/
theorem contexts_kept {p : ResponseSetup} {s : Batches} (hs : (batchSystem p).Reachable Near s) :
    (∀ e ∈ s.stored, (s.manager.contextPool.fetchContextList e.1).1 = e.2) ∧
      ∀ contexts, Near s (.doBatch contexts) →
        (s.manager.contextPool.setContextList s.manager.localId contexts).isSome := by
  have hinv : s.Inv := by
    refine hs.invariant ?_ fun _ _ _ h hok hs => h.step hok hs
    rintro _ rfl
    exact .init
  constructor
  · intro e he
    rw [ContextPool.fetchContextList, if_pos (by rw [hinv.kept e he]), hinv.kept e he]
  · intro contexts hok
    rw [hinv.setContextList hok]
    rfl

/-- At most two batches at a time, in a ring of eight places. -/
def twoBatches : ResponseSetup := { fourAnswering with maxProcessTxn := 1 }

/-- Two batches; the second one is completed. -/
def secondCompleted : List BatchAction := [.doBatch [some 7], .doBatch [some 8], .complete 2]

theorem contexts_kept_secondCompleted : ∃ s, (batchSystem twoBatches).Reachable Near s ∧
    (s.manager.contextPool.fetchContextList 1).1 = [some 7] := by
  obtain ⟨s, hreach, hstored⟩ := (batchSystem twoBatches).exists_reachable (C := Near)
    (P := fun s => s.stored = [(1, [some 7])]) secondCompleted rfl (by decide +kernel)
    (by decide +kernel)
  refine ⟨s, hreach, (contexts_kept hreach).1 (1, [some 7]) ?_⟩
  rw [hstored]
  exact List.mem_singleton.2 rfl

/-- The batches from the second on are built and completed, and so is the fifth, or is not. -/
def overtake (first fifth : List BatchAction) : List BatchAction :=
  .doBatch [some 7] :: first ++ [.doBatch [], .complete 2, .doBatch [], .complete 3, .doBatch [],
    .complete 4, .doBatch [some 8]] ++ fifth

/-- Completing the fifth batch drops the contexts of the first; if the first is completed and the fifth is
not, the contexts of the ninth are refused. -/
theorem contexts_kept_fails :
    (∃ s, (batchSystem twoBatches).Reachable TransitionSystem.always s ∧
      s.stored = [(1, [some 7])] ∧ (s.manager.contextPool.fetchContextList 1).1 = []) ∧
    ∃ s, (batchSystem twoBatches).Reachable TransitionSystem.always s ∧
      s.stored = [(5, [some 8])] ∧ s.manager.localId = 9 ∧
      s.manager.contextPool.setContextList 9 [some 9] = none := by
  constructor
  · exact (batchSystem twoBatches).exists_reachable_always (overtake [] [.complete 5]) rfl
      (by decide +kernel)
  · obtain ⟨s, hreach, hstored, hid, hnone⟩ := (batchSystem twoBatches).exists_reachable_always
      (P := fun s => s.stored = [(5, [some 8])] ∧ s.manager.localId = 9 ∧
        (s.manager.contextPool.setContextList 9 [some 9]).isNone)
      (overtake [.complete 1] [.doBatch [], .complete 6, .doBatch [], .complete 7, .doBatch [],
        .complete 8]) rfl (by decide +kernel)
    exact ⟨s, hreach, hstored, hid, Option.isNone_iff_eq_none.1 hnone⟩

/-! ### Building batches -/

/-- An item of the queue.  The context is null once it has been moved; its client is null if the user did
not ask for an answer (`NewUserRequest`). -/
structure QueueItem where
  context : Option (Option ℕ)

/-- The client that waits for an answer. -/
def QueueItem.client (item : QueueItem) : Option ℕ := item.context.join

/-- `DoBatch`: the value returned, and what is left of the items.  `signed` says that the verifier has
signed the batch. -/
def doBatch (m : ResponseManager) (signed : Bool) (batchReq : List QueueItem) :
    ℤ × ResponseManager × List QueueItem :=
  let contexts := batchReq.map QueueItem.client
  let moved := batchReq.map fun _ => ⟨none⟩
  (if (m.contextPool.setContextList m.localId contexts).isNone ∨ signed = false then -2 else 0,
    m.addContextList contexts, moved)

/-- The test of `send_num_`.  It is an `int`, and compared with a `uint32_t`: a negative number is above. -/
def tooHigh (maxProcessTxn : ℕ) (sendNum : ℤ) : Prop := sendNum < 0 ∨ (maxProcessTxn : ℤ) < sendNum

instance (maxProcessTxn : ℕ) (sendNum : ℤ) : Decidable (tooHigh maxProcessTxn sendNum) :=
  inferInstanceAs (Decidable (_ ∨ _))

/-- The thread that builds batches. -/
structure Proposer where
  manager : ResponseManager
  sendNum : ℤ
  batchQueue : List QueueItem
  batchReq : List QueueItem

namespace Proposer

/-- The first half of the loop of `BatchProposeMsg`, up to `DoBatch`; whether the loop gets there. -/
def gather (maxProcessTxn clientBatchNum : ℕ) (s : Proposer) : Proposer × Bool :=
  if tooHigh maxProcessTxn s.sendNum then (s, false)
  else if s.batchReq.length < clientBatchNum then
    match s.batchQueue with
    | [] => (s, s.batchReq ≠ [])
    | item :: queue =>
      let s := { s with batchQueue := queue, batchReq := s.batchReq ++ [item] }
      (s, clientBatchNum ≤ s.batchReq.length)
  else (s, s.batchReq ≠ [])

/-- The clients that the error path sends a response to. -/
def errorResponses (batchReq : List QueueItem) : List ℕ := batchReq.filterMap QueueItem.client

/-- One round of the loop, and the clients that get an error.  The items are cleared first. -/
def batchProposeMsg (maxProcessTxn clientBatchNum : ℕ) (s : Proposer) (signed : Bool) :
    Proposer × List ℕ :=
  match s.gather maxProcessTxn clientBatchNum with
  | (s, false) => (s, [])
  | (s, true) =>
    let (ret, manager, _) := doBatch s.manager signed s.batchReq
    let batchReq := []
    ({ s with
        manager := manager
        batchReq := batchReq
        sendNum := if ret = 0 then s.sendNum + 1 else s.sendNum },
      if ret ≠ 0 then errorResponses batchReq else [])

end Proposer

/-- **A failed batch is reported** to every client that asked for an answer exactly if there is none. -/
theorem failed_batch_reported_iff {maxProcessTxn clientBatchNum : ℕ} {s t : Proposer} {signed : Bool}
    (hgather : s.gather maxProcessTxn clientBatchNum = (t, true))
    (hfail : (doBatch t.manager signed t.batchReq).1 ≠ 0) :
    (s.batchProposeMsg maxProcessTxn clientBatchNum signed).2 = t.batchReq.filterMap QueueItem.client ↔
      ∀ item ∈ t.batchReq, item.client = none := by
  have hnothing : (s.batchProposeMsg maxProcessTxn clientBatchNum signed).2 = [] := by
    rw [Proposer.batchProposeMsg, hgather]
    exact if_pos hfail
  rw [hnothing, eq_comm]
  exact List.filterMap_eq_nil_iff

/-- A proxy with one request in its queue. -/
def oneRequest (client : Option ℕ) : Proposer := ⟨.construct fourAnswering, 0, [⟨some client⟩], []⟩

theorem failed_batch_reported_iff_silent :
    ((oneRequest none).gather 64 1).2 = true ∧ ((oneRequest none).batchProposeMsg 64 1 false).2 = [] :=
  ⟨by decide +kernel, (failed_batch_reported_iff (s := oneRequest none)
    (t := ((oneRequest none).gather 64 1).1) rfl (by decide +kernel)).2 (by decide +kernel)⟩

/-- A client waits, its batch is not signed, and it is not told. -/
theorem failed_batch_not_reported :
    ((oneRequest (some 7)).gather 64 1).1.batchReq.filterMap QueueItem.client = [7] ∧
      (doBatch ((oneRequest (some 7)).gather 64 1).1.manager false
        ((oneRequest (some 7)).gather 64 1).1.batchReq).1 = -2 ∧
      ((oneRequest (some 7)).batchProposeMsg 64 1 false).2 = [] := by
  decide +kernel

/-! ### Counting batches -/

/-- The proxy with `send_num_`, the ids of the batches that were sent, with their hashes, those of them
that are not answered, those that were answered with an error, and the error answers of honest replicas. -/
structure Flow where
  replies : Replies
  sendNum : ℤ
  issued : List ℕ
  hashOf : ℕ → String
  outstanding : List ℕ
  refused : List ℕ
  errors : List Request

/-- What can happen. -/
inductive FlowAction
  | doBatch (batchReq : List QueueItem) (hash : String) (signed : Bool)
  /-- An honest replica has executed a batch, or the primary has no sequence number for it. -/
  | answer (id : ℕ) (request : Request) (batch : BatchInfo) (currentPrimary : ℕ)
    (results : List String)
  | refuse (id localId : ℕ)
  | processResponseMsg (info : RequestInfo) (ret : ℤ)

/-- The id of the batch for which a response completes the count. -/
def answered (p : ResponseSetup) (m : ResponseManager) (info : RequestInfo) (ret : ℤ) : Option ℕ :=
  if ret = -2 then none
  else
    ((m.addResponseMsg p info).bind fun r => r.2.2).bind fun request =>
      (p.parse request.data).map BatchUserResponse.localId

/-- The answer that `ProcessNewRequest` of the primary sends when `AssignNextSeq` fails; its `ret` is
`-2`. -/
def errorAnswer (id : ℕ) (hash : String) : Request where
  type := .response
  senderId := id
  hash := hash

namespace Flow

/-- The batch that an error answer names. -/
def named (s : Flow) (hash : String) : Option ℕ := s.outstanding.find? fun x => s.hashOf x = hash

/-- An error answer is received.  It is the answer to the batch that it names. -/
def refuseBatch (s : Flow) (hash : String) : Flow :=
  match s.named hash with
  | none => { s with sendNum := s.sendNum - 1 }
  | some x =>
    { s with
      sendNum := s.sendNum - 1
      outstanding := s.outstanding.erase x
      refused := x :: s.refused }

/-- One action.  A batch is sent when `send_num_` allows it, honest replicas answer batches that were
sent, and `send_num_` is decremented by an error answer and by an answer that goes to the clients. -/
def step (p : ResponseSetup) (s : Flow) : FlowAction → Option Flow
  | .doBatch batchReq hash signed =>
    if ¬ tooHigh p.maxProcessTxn s.sendNum then
      let id := s.replies.manager.localId
      let r := Pbft.doBatch s.replies.manager signed batchReq
      let s := { s with replies := { s.replies with manager := r.2.1 } }
      if r.1 = 0 then
        some { s with
          sendNum := s.sendNum + 1
          issued := id :: s.issued
          hashOf := update s.hashOf id hash
          outstanding := id :: s.outstanding }
      else some s
    else none
  | .answer id request batch currentPrimary results =>
    if batch.localId ∈ s.issued then
      (s.replies.step p (.answer id request batch currentPrimary results)).map fun r =>
        { s with replies := r }
    else none
  | .refuse id localId =>
    if id ∈ Finset.Icc 1 p.totalNum \ p.byzantine ∧ localId ∈ s.issued then
      some { s with errors := s.errors ++ [errorAnswer id (s.hashOf localId)] }
    else none
  | .processResponseMsg info ret =>
    if ret = -2 then
      if info.request.type = .response ∧
          (info.request.senderId ∈ p.byzantine ∨ info.request ∈ s.errors) then
        some (s.refuseBatch info.request.hash)
      else none
    else
      (s.replies.step p (.processResponseMsg info ret)).map fun r =>
        match answered p s.replies.manager info ret with
        | none => { s with replies := r }
        | some x =>
          { s with
            replies := r
            sendNum := s.sendNum - 1
            outstanding := s.outstanding.erase x }

end Flow

/-- The runs of a proxy with its counter. -/
def flowSystem (p : ResponseSetup) : TransitionSystem Flow FlowAction where
  init s := s = ⟨⟨.construct p, [], [], []⟩, 0, [], fun _ => "", [], [], []⟩
  step := Flow.step p

/-- The condition.  A batch is built only when everything half a ring before it has been answered; an error
answer names a batch that is outstanding, and no other answer to that batch comes after it. -/
def Orderly (p : ResponseSetup) (s : Flow) : FlowAction → Prop
  | .doBatch _ _ _ => ∀ x ∈ s.outstanding,
    s.replies.manager.localId < x + s.replies.manager.collectorPool.capacity
  | .processResponseMsg info ret =>
    if ret = -2 then (s.named info.request.hash).isSome = true
    else ∀ b ∈ p.parse info.request.data, b.localId ∉ s.refused
  | _ => True

instance (p : ResponseSetup) (s : Flow) (a : FlowAction) : Decidable (Orderly p s a) := by
  unfold Orderly
  split <;> infer_instance

/-- What is known about the counter. -/
structure Flow.Inv (p : ResponseSetup) (s : Flow) : Prop where
  count : CountInv p s.replies
  capacity : 0 < s.replies.manager.collectorPool.capacity
  sent : ∀ q ∈ s.replies.sent, ∀ b ∈ p.parse q.data, b.localId ∈ s.issued
  issued : ∀ x ∈ s.issued, x < s.replies.manager.localId
  range : ∀ x ∈ s.outstanding,
    s.replies.manager.localId ≤ x + s.replies.manager.collectorPool.capacity
  outstanding : s.outstanding ⊆ s.issued
  nodup : s.outstanding.Nodup
  sendNum : s.sendNum = s.outstanding.length
  bound : s.outstanding.length ≤ p.maxProcessTxn + 1
  done : ∀ x ∈ s.issued, x ∉ s.outstanding → x ∉ s.refused →
    (s.replies.manager.collectorPool.getCollector x).seq = x →
    (s.replies.manager.collectorPool.getCollector x).status ≠ .none

section Flow

variable {p : ResponseSetup} {s s' : Flow} {info : RequestInfo}

/-- A collector that has changed its status does not change it again. -/
theorem addResponse_status {c : TransactionCollector} {a : Added}
    (h : c.addRequest false info false 0 (responseCallBack p.minClientReceiveNum info.request.type) = some a) :
    a.collector.seq = c.seq ∧ (c.seq ≠ info.request.seq → a.collector = c ∧ a.changed = false) ∧
      (a.collector.status = .none → c.status = .none ∧ a.changed = false) ∧
      (a.changed = true → c.status = .none) := by
  rcases addResponse_spec h with ⟨hsame, hno⟩ | ⟨hseq, hcounts, hchanged, hnone⟩
  · rw [hsame, hno]
    exact ⟨rfl, fun _ => ⟨rfl, rfl⟩, fun h => ⟨h, rfl⟩, by simp⟩
  · exact ⟨hcounts.1, fun hne => absurd hseq hne, hnone, fun htrue => (hchanged htrue).1⟩

variable {response : Option BatchUserResponse}

/-- `ProcessResponseMsg` is `AddResponseMsg` as far as the collectors and the ids go. -/
theorem processResponseMsg_eq {m m' : ResponseManager} {ret : ℤ} (hret : ret ≠ -2)
    (h : m.processResponseMsg p info ret = some (m', response)) :
    ∃ m₁ code request, m.addResponseMsg p info = some (m₁, code, request) ∧
      m'.collectorPool = m₁.collectorPool ∧ m'.localId = m₁.localId ∧
      answered p m info ret = request.bind fun q => (p.parse q.data).map BatchUserResponse.localId := by
  rw [ResponseManager.processResponseMsg, if_neg hret] at h
  obtain ⟨⟨m₁, code, request⟩, hadd, h⟩ := Option.bind_eq_some_iff.1 h
  refine ⟨m₁, code, request, hadd, ?_⟩
  rw [answered, if_neg hret, hadd]
  refine (and_assoc.1 ⟨?_, rfl⟩)
  dsimp only at h
  split at h
  · cases h
    exact ⟨rfl, rfl⟩
  · obtain ⟨hpool, hid, -⟩ := sendResponseToClient_cases h
    exact ⟨hpool, hid⟩

variable {b : BatchUserResponse}

/-- The batch whose count is completed is one that has been sent and not been answered. -/
theorem Flow.Inv.mem_outstanding (h : s.Inv p) (hmin : p.minClientReceiveNumConfig = 0 ∨
      (p.totalNum - 1) / 3 + 1 ≤ p.minClientReceiveNumConfig)
    {m : ResponseManager} {a : Added} (htype : info.request.type = .response)
    (hsender : info.request.senderId ∈ p.byzantine ∨ info.request ∈ s.replies.sent)
    (hspec : ResponseSpec p s.replies.manager info m none b a) (hrefused : b.localId ∉ s.refused)
    (hchanged : a.changed = true) : b.localId ∈ s.outstanding := by
  obtain ⟨Q, -, hcard, hall⟩ := (h.count.receive hsender).enough htype (by simp) hspec hchanged
  -- one of those who have answered is honest
  obtain ⟨j, hj, hhonest⟩ : ∃ j ∈ Q, j ∉ p.byzantine := by
    by_contra hnone
    push Not at hnone
    have := Finset.card_le_card (show Q ⊆ p.byzantine from hnone)
    have := faulty_lt_minClientReceiveNum hmin
    have := p.byzantine_card
    omega
  obtain ⟨q, hq, rfl, -, b', hb', hid⟩ := hall j hj
  have hissued : b.localId ∈ s.issued := by
    have hsent := ((h.count.receive hsender).received q hq).2.resolve_left hhonest
    exact hid ▸ h.sent q hsent b' hb'
  by_contra hout
  obtain ⟨-, hother, -, hnone⟩ := addResponse_status hspec.added
  refine h.done _ hissued hout hrefused ?_ (hnone hchanged)
  by_contra hseq
  rw [(hother hseq).2] at hchanged
  cases hchanged

/-- A response leaves the batches that are answered as they are. -/
theorem Flow.Inv.done_process (h : s.Inv p) {m : ResponseManager} {a : Added}
    (hspec : ResponseSpec p s.replies.manager info m response b a)
    (hout : a.changed = true → b.localId ∈ s.outstanding) {x : ℕ} (hx : x ∈ s.issued)
    (hrefused : x ∉ s.refused)
    (hdone : x ∉ s.outstanding ∨ a.changed = true ∧ x = b.localId)
    (hseq : (m.collectorPool.getCollector x).seq = x) :
    (m.collectorPool.getCollector x).status ≠ .none := by
  obtain ⟨hsame, hother, hnone, -⟩ := addResponse_status hspec.added
  -- the collector after the response is taken
  have htaken : ((s.replies.manager.collectorPool.set b.localId a.collector).getCollector x).seq = x →
      ((s.replies.manager.collectorPool.set b.localId a.collector).getCollector x).status ≠ .none := by
    rw [LockFreeCollectorPool.getCollector_set]
    split
    · next hslot =>
      intro hx' hstatus
      obtain ⟨hstatus, hchanged⟩ := hnone hstatus
      rcases hdone with hdone | ⟨htrue, -⟩
      · rw [hsame] at hx'
        unfold LockFreeCollectorPool.getCollector at hx' hstatus
        rw [← hslot] at hx' hstatus
        exact h.done x hx hdone hrefused hx' hstatus
      · rw [hchanged] at htrue
        cases htrue
    · next hslot =>
      rcases hdone with hdone | ⟨-, rfl⟩
      · exact h.done x hx hdone hrefused
      · exact absurd rfl hslot
  rcases hspec.pool with hpool | ⟨hchanged, hpool⟩
  · rw [hpool] at hseq ⊢
    exact htaken hseq
  rw [hpool] at hseq ⊢
  unfold LockFreeCollectorPool.update at hseq ⊢
  split at hseq
  · next hne =>
    rw [if_pos hne]
    exact htaken hseq
  · next heq =>
    rw [if_neg heq]
    rw [LockFreeCollectorPool.getCollector_set] at hseq ⊢
    split at hseq
    · -- the place that is made is ahead of all ids that were used
      have := h.issued x hx
      have := h.range _ (hout hchanged)
      change b.localId + s.replies.manager.collectorPool.capacity = x at hseq
      omega
    · next hslot =>
      rw [if_neg hslot]
      exact htaken hseq

theorem Flow.Inv.doBatch (h : s.Inv p) {batchReq : List QueueItem} {hash : String} {signed : Bool}
    (hok : Orderly p s (.doBatch batchReq hash signed))
    (hs : s.step p (.doBatch batchReq hash signed) = some s') : s'.Inv p := by
  obtain ⟨hle, hs⟩ := Option.ite_none_right_eq_some.1 hs
  rw [tooHigh, not_or, not_lt, not_lt] at hle
  have hissued : ∀ x ∈ s.issued, x < s.replies.manager.localId + 1 := fun x hx =>
    Nat.lt_succ_of_lt (h.issued x hx)
  have hcount : CountInv p { s.replies with
      manager := s.replies.manager.addContextList (batchReq.map QueueItem.client) } :=
    ⟨h.count.sent, h.count.received, h.count.counted⟩
  split at hs
  · cases hs
    have hnum := h.sendNum
    refine ⟨hcount, h.capacity, ?_, ?_, ?_, ?_, ?_, ?_, ?_, ?_⟩
    · exact fun q hq b hb => List.mem_cons_of_mem _ (h.sent q hq b hb)
    · exact List.forall_mem_cons.2 ⟨Nat.lt_succ_self _, hissued⟩
    · exact List.forall_mem_cons.2 ⟨Nat.add_le_add_left h.capacity _, hok⟩
    · exact List.cons_subset_cons _ h.outstanding
    · refine List.nodup_cons.2 ⟨fun hmem => ?_, h.nodup⟩
      exact absurd (h.issued _ (h.outstanding hmem)) (Nat.lt_irrefl _)
    · simp [hnum]
    · simp only [List.length_cons]
      omega
    · intro x hx hout
      rcases List.mem_cons.1 hx with rfl | hx
      · exact absurd List.mem_cons_self hout
      · exact h.done x hx fun hmem => hout (List.mem_cons_of_mem _ hmem)
  · cases hs
    exact ⟨hcount, h.capacity, h.sent, hissued, hok, h.outstanding, h.nodup, h.sendNum, h.bound, h.done⟩

theorem Flow.Inv.answer (h : s.Inv p)
    (hserial : ∀ b, ∀ b' ∈ p.parse (p.serialize b), b'.localId = b.localId) {id : ℕ}
    {request : Request} {batch : BatchInfo} {currentPrimary : ℕ} {results : List String}
    (hs : s.step p (.answer id request batch currentPrimary results) = some s') : s'.Inv p := by
  obtain ⟨hissued, hs⟩ := Option.ite_none_right_eq_some.1 hs
  obtain ⟨r, hr, rfl⟩ := Option.map_eq_some_iff.1 hs
  have hcount := h.count.step hr
  simp only [Replies.step, bind, Option.bind_eq_some_iff] at hr
  obtain ⟨-, -, hr⟩ := hr
  cases hr
  refine ⟨hcount, h.capacity, fun q hq b hb => ?_, h.issued, h.range, h.outstanding, h.nodup,
    h.sendNum, h.bound, h.done⟩
  rcases List.mem_append.1 hq with hq | hq
  · exact h.sent q hq b hb
  · rw [List.mem_singleton.1 hq] at hb
    rw [hserial _ b hb]
    exact hissued

/-- An error answer in order: the batch that it names is not counted any more. -/
theorem Flow.Inv.refuseBatch (h : s.Inv p) {hash : String} (hok : (s.named hash).isSome = true) :
    (s.refuseBatch hash).Inv p := by
  obtain ⟨x, hx⟩ := Option.isSome_iff_exists.1 hok
  have hmem : x ∈ s.outstanding := List.mem_of_find?_eq_some hx
  have hlen := List.length_erase_of_mem hmem
  have hpos := List.length_pos_of_mem hmem
  have hnum := h.sendNum
  have hbound := h.bound
  rw [Flow.refuseBatch, hx]
  refine ⟨h.count, h.capacity, h.sent, h.issued, fun y hy => h.range y (List.mem_of_mem_erase hy),
    fun y hy => h.outstanding (List.mem_of_mem_erase hy), h.nodup.erase x, ?_, ?_, ?_⟩
  · dsimp only
    omega
  · dsimp only
    omega
  · intro y hy hout hrefused
    rw [List.mem_cons, not_or] at hrefused
    exact h.done y hy (fun hmem => hout ((List.mem_erase_of_ne hrefused.1).2 hmem)) hrefused.2

theorem ResponseSpec.capacity {m m' : ResponseManager} {a : Added}
    (h : ResponseSpec p m info m' response b a) :
    m'.collectorPool.capacity = m.collectorPool.capacity := by
  rcases h.pool with hpool | ⟨-, hpool⟩
  · rw [hpool]
    rfl
  · rw [hpool]
    unfold LockFreeCollectorPool.update
    split <;> rfl

theorem Flow.Inv.processResponseMsg (h : s.Inv p) (hmin : p.minClientReceiveNumConfig = 0 ∨
      (p.totalNum - 1) / 3 + 1 ≤ p.minClientReceiveNumConfig) {ret : ℤ} (hret : ret ≠ -2)
    (hok : ∀ b ∈ p.parse info.request.data, b.localId ∉ s.refused)
    (hs : s.step p (.processResponseMsg info ret) = some s') : s'.Inv p := by
  rw [Flow.step, if_neg hret] at hs
  obtain ⟨r, hr, rfl⟩ := Option.map_eq_some_iff.1 hs
  have hcount := h.count.step hr
  simp only [Replies.step, bind, Option.bind_eq_some_iff, Option.guard_eq_some'] at hr
  obtain ⟨-, ⟨htype, hsender⟩, ⟨m, response⟩, hm, hr⟩ := hr
  cases hr
  obtain ⟨m₁, code, request, hadd, hpool, hid, hanswered⟩ := processResponseMsg_eq hret hm
  rcases addResponseMsg_cases hadd with ⟨rfl, rfl⟩ | ⟨b, a, hspec, hrequest⟩
  · rw [hanswered]
    exact ⟨hcount, hpool ▸ h.capacity, h.sent, hid ▸ h.issued, hid ▸ hpool ▸ h.range, h.outstanding,
      h.nodup, h.sendNum, h.bound, hpool ▸ h.done⟩
  have hout := h.mem_outstanding hmin htype hsender hspec (hok b hspec.parsed)
  have hdone : ∀ x ∈ s.issued, x ∉ s.refused → x ∉ s.outstanding ∨ a.changed = true ∧ x = b.localId →
      (m.collectorPool.getCollector x).seq = x → (m.collectorPool.getCollector x).status ≠ .none := by
    rw [hpool]
    exact fun x hx hrefused hx' => h.done_process hspec hout hx hrefused hx'
  have hcap := (congrArg LockFreeCollectorPool.capacity hpool).trans hspec.capacity
  have hissued : ∀ x ∈ s.issued, x < m.localId := (hid.trans hspec.localId) ▸ h.issued
  have hrange : ∀ x ∈ s.outstanding, m.localId ≤ x + m.collectorPool.capacity := by
    rw [hid, hspec.localId, hcap]
    exact h.range
  cases hdone' : answered p s.replies.manager info ret with
  | none =>
    exact ⟨hcount, hcap.symm ▸ h.capacity, h.sent, hissued, hrange, h.outstanding, h.nodup,
      h.sendNum, h.bound, fun x hx hx' hrefused => hdone x hx hrefused (.inl hx')⟩
  | some x =>
    -- the count of the response's batch is complete
    rw [hanswered] at hdone'
    obtain ⟨q, hq, hparse⟩ := Option.bind_eq_some_iff.1 hdone'
    obtain ⟨b', hb', rfl⟩ := Option.map_eq_some_iff.1 hparse
    obtain ⟨hdata, hchanged⟩ := hrequest q hq
    rw [hdata, hspec.parsed] at hb'
    obtain rfl := Option.some.inj hb'
    have hlen := List.length_erase_of_mem (hout hchanged)
    have hpos := List.length_pos_of_mem (hout hchanged)
    have hnum := h.sendNum
    refine ⟨hcount, hcap.symm ▸ h.capacity, h.sent, hissued, ?_, ?_, h.nodup.erase _, ?_, ?_, ?_⟩
    · exact fun x hx => hrange x (List.mem_of_mem_erase hx)
    · exact fun x hx => h.outstanding (List.mem_of_mem_erase hx)
    · dsimp only
      omega
    · exact List.length_erase_le.trans h.bound
    · intro x hx hx' hrefused
      by_cases heq : x = b.localId
      · exact hdone x hx hrefused (.inr ⟨hchanged, heq⟩)
      · exact hdone x hx hrefused (.inl fun hmem => hx' ((List.mem_erase_of_ne heq).2 hmem))

theorem Flow.Inv.step (h : s.Inv p) (hmin : p.minClientReceiveNumConfig = 0 ∨
      (p.totalNum - 1) / 3 + 1 ≤ p.minClientReceiveNumConfig)
    (hserial : ∀ b, ∀ b' ∈ p.parse (p.serialize b), b'.localId = b.localId) {a : FlowAction}
    (hok : Orderly p s a) (hs : s.step p a = some s') : s'.Inv p := by
  cases a with
  | doBatch batchReq hash signed => exact h.doBatch hok hs
  | answer id request batch currentPrimary results => exact h.answer hserial hs
  | refuse id localId =>
    obtain ⟨-, hs⟩ := Option.ite_none_right_eq_some.1 hs
    cases hs
    exact ⟨h.count, h.capacity, h.sent, h.issued, h.range, h.outstanding, h.nodup, h.sendNum, h.bound,
      h.done⟩
  | processResponseMsg info ret =>
    rw [Orderly] at hok
    split_ifs at hok with hret
    · rw [Flow.step, if_pos hret] at hs
      obtain ⟨-, hs⟩ := Option.ite_none_right_eq_some.1 hs
      cases hs
      exact h.refuseBatch hok
    · exact h.processResponseMsg hmin hret hok hs

/-- **The counter is exact**: in every run that meets the condition, `send_num_` is the number of batches
that were sent and are not answered, and there are at most `GetMaxProcessTxn() + 1`. -/
theorem flow_exact (hmin : p.minClientReceiveNumConfig = 0 ∨
      (p.totalNum - 1) / 3 + 1 ≤ p.minClientReceiveNumConfig)
    (hserial : ∀ b, ∀ b' ∈ p.parse (p.serialize b), b'.localId = b.localId)
    (hs : (flowSystem p).Reachable (Orderly p) s) :
    s.sendNum = s.outstanding.length ∧ s.outstanding.length ≤ p.maxProcessTxn + 1 := by
  have hinv : s.Inv p := by
    refine hs.invariant ?_ fun s a s' h hok hs => h.step hmin hserial hok hs
    rintro _ rfl
    exact ⟨.init, getCapacity_pos _, by simp, by simp, by simp, by simp, by simp, rfl, by simp,
      by simp⟩
  exact ⟨hinv.sendNum, hinv.bound⟩

end Flow

/-- Four replicas, of which replica 4 is faulty; of an answer only the local id is written down. -/
def fourCounted : ResponseSetup :=
  { fourAnswering with
    serialize := fun b => String.ofList (List.replicate b.localId 'x')
    parse := fun data => some { localId := data.length } }

/-- The answer of a replica to the first batch. -/
def countedAnswer (id : ℕ) : RequestInfo :=
  ⟨postProcessExecutedMsg fourCounted.serialize id
    (executedResponse { proxyId := 5, seq := 1 } ⟨0, 1⟩ 1 []), ⟨id, ""⟩⟩

/-- Three batches are sent, two replicas answer the first, and the primary refuses the second. -/
def firstAnswered : List FlowAction :=
  [.doBatch [⟨some none⟩] "a" true, .doBatch [⟨some none⟩] "b" true, .doBatch [⟨some none⟩] "c" true,
    .answer 1 { proxyId := 5, seq := 1 } ⟨0, 1⟩ 1 [], .answer 2 { proxyId := 5, seq := 1 } ⟨0, 1⟩ 1 [],
    .refuse 1 2, .processResponseMsg (countedAnswer 1) 0,
    .processResponseMsg ⟨errorAnswer 1 "b", ⟨1, ""⟩⟩ (-2), .processResponseMsg (countedAnswer 2) 0]

theorem flow_exact_firstAnswered : ∃ s, (flowSystem fourCounted).Reachable (Orderly fourCounted) s ∧
    s.outstanding = [3] ∧ s.refused = [2] ∧ s.sendNum = 1 := by
  obtain ⟨s, hreach, hout, hrefused⟩ := (flowSystem fourCounted).exists_reachable
    (C := Orderly fourCounted) (P := fun s => s.outstanding = [3] ∧ s.refused = [2]) firstAnswered rfl
    (by decide +kernel) (by decide +kernel)
  have hserial : ∀ b, ∀ b' ∈ fourCounted.parse (fourCounted.serialize b), b'.localId = b.localId := by
    rintro b b' ⟨⟩
    simp [fourCounted]
  have h := flow_exact (.inl rfl) hserial hreach
  rw [hout] at h
  exact ⟨s, hreach, hout, hrefused, h.1⟩

/-- One batch is sent, and the faulty replica says twice that it failed. -/
def twoErrors : List FlowAction :=
  [.doBatch [⟨some none⟩] "a" true, .processResponseMsg ⟨errorAnswer 4 "a", ⟨4, ""⟩⟩ (-2),
    .processResponseMsg ⟨errorAnswer 4 "a", ⟨4, ""⟩⟩ (-2)]

/-- The counter is negative. -/
theorem flow_exact_fails : ∃ s, (flowSystem fourCounted).Reachable TransitionSystem.always s ∧
    s.outstanding = [] ∧ s.sendNum = -1 :=
  (flowSystem fourCounted).exists_reachable_always twoErrors rfl (by decide +kernel)

end Pbft
