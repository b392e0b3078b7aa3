/-
**Answers to clients.**

The model of `ResponseManager`: replicas send what they have computed for a batch, the proxy counts
these messages by local id and by the hash they carry, and hands the message that completes the count
to the clients.  The hash is that of `BatchUserResponse`, which `TransactionExecutor::Execute` never
sets; so honest answers all carry the empty hash, and a different answer is counted with them.

Timers are left out; the queue of user requests and `send_num_`, which decide when a batch is proposed,
are in `ResilientDb.PbftClient`.

Main definitions:

* `Pbft.postProcessExecutedMsg` — the answer of an honest replica;
* `Pbft.ResponseManager`, `Pbft.ResponseManager.processResponseMsg` — the proxy;
* `Pbft.Replies`, `Pbft.responseSystem` — the proxy, and the messages sent, received and delivered;
* `Pbft.Replies.Backed` — enough replicas have sent what was delivered;
* `Pbft.SameAnswer` — the condition.

Main results:

* `Pbft.client_answer_backed` — under the condition, answers are backed;
* `Pbft.client_answer_backed_fails` — one faulty replica has its answer delivered.
-/

import ResilientDb.PbftSpecs
import ResilientDb.Transition

set_option autoImplicit false

namespace Pbft

open Finset (Icc)
open Option (bind_eq_some_iff guard_eq_some')

/-! ### The answer of a replica -/

structure BatchUserResponse where
  response : List String := []
  proxyId : ℕ := 0
  seq : ℕ := 0
  currentView : ℕ := 0
  createtime : ℕ := 0
  localId : ℕ := 0
  hash : String := ""
  primaryId : ℕ := 0
deriving DecidableEq

/-- What `Execute` reads of a batch. -/
structure BatchInfo where
  createtime : ℕ
  localId : ℕ

/-- The end of `TransactionExecutor::Execute` and the call back of `MessageManager`: the results, with
the ids of the batch. -/
def executedResponse (request : Request) (batch : BatchInfo) (currentPrimary : ℕ)
    (results : List String) : BatchUserResponse where
  response := results
  proxyId := request.proxyId
  createtime := batch.createtime
  localId := batch.localId
  seq := request.seq
  currentView := request.currentView
  primaryId := currentPrimary

/-- `PostProcessExecutedMsg`. -/
def postProcessExecutedMsg (serialize : BatchUserResponse → String) (id : ℕ)
    (batchResp : BatchUserResponse) : Request where
  type := .response
  hash := batchResp.hash
  seq := batchResp.seq
  senderId := id
  currentView := batchResp.currentView
  proxyId := batchResp.proxyId
  primaryId := batchResp.primaryId
  data := serialize batchResp

/-! ### The proxy -/

/-- The deployment.  `minClientReceiveNumConfig` is the value in the configuration file, 0 if there is
none; at most `f` of the replicas are faulty. -/
structure ResponseSetup where
  totalNum : ℕ
  maxProcessTxn : ℕ
  minClientReceiveNumConfig : ℕ
  serialize : BatchUserResponse → String
  parse : String → Option BatchUserResponse
  byzantine : Finset ℕ
  byzantine_subset : byzantine ⊆ Icc 1 totalNum
  byzantine_card : byzantine.card ≤ (totalNum - 1) / 3

/-- `GetMinClientReceiveNum`. -/
def ResponseSetup.minClientReceiveNum (p : ResponseSetup) : ℕ :=
  if 0 < p.minClientReceiveNumConfig then p.minClientReceiveNumConfig
  else max ((p.totalNum - 1) / 3 + 1) 1

/-- A slot of the context pool.  A context is the client to answer, if it is still there. -/
structure ContextSlot where
  seq : ℕ
  contextList : List (Option ℕ) := []

/-- The context pool, a ring like that of the collectors. -/
structure ContextPool where
  capacity : ℕ
  slot : ℕ → ContextSlot

namespace ContextPool

def construct (size : ℕ) : ContextPool where
  capacity := getCapacity (size * 2)
  slot := fun i => { seq := i }

/-- The place of a local id. -/
def index (c : ContextPool) (id : ℕ) : ℕ := id % (2 * c.capacity)

/-- `SetContextList`.  `none` if the slot is for another id. -/
def setContextList (c : ContextPool) (id : ℕ) (contexts : List (Option ℕ)) : Option ContextPool :=
  if (c.slot (c.index id)).seq = id then
    some { c with slot := Function.update c.slot (c.index id) ⟨id, contexts⟩ }
  else none

/-- `FetchContextList`: the contexts are taken out, and the pool makes room for a new id. -/
def fetchContextList (c : ContextPool) (id : ℕ) : List (Option ℕ) × ContextPool :=
  if (c.slot (c.index id)).seq = id then
    ((c.slot (c.index id)).contextList,
      { c with
        slot := Function.update (Function.update c.slot (c.index id) ⟨id, []⟩)
          (c.index (id + c.capacity)) { seq := id + c.capacity } })
  else ([], c)

end ContextPool

structure ResponseManager where
  collectorPool : LockFreeCollectorPool
  contextPool : ContextPool
  localId : ℕ := 1

/-- `MayConsensusChangeStatus` of the response manager, and of the performance manager. -/
def responseCallBack (minClientReceiveNum : ℕ) (type : RequestType) : CallBack :=
  fun receivedCount status _ =>
    if type = .response ∧ status = .none ∧ minClientReceiveNum ≤ receivedCount then
      (true, .executed)
    else (false, status)

namespace ResponseManager

def construct (p : ResponseSetup) : ResponseManager where
  collectorPool := .construct p.maxProcessTxn
  contextPool := .construct p.maxProcessTxn

/-- The part of `DoBatch` that keeps the clients of a batch.  The local id is used up in any case. -/
def addContextList (m : ResponseManager) (contexts : List (Option ℕ)) : ResponseManager :=
  { m with
    contextPool := (m.contextPool.setContextList m.localId contexts).getD m.contextPool
    localId := m.localId + 1 }

/-- `AddResponseMsg`, with the request that the call back was given. -/
def addResponseMsg (p : ResponseSetup) (m : ResponseManager) (info : RequestInfo) :
    Option (ResponseManager × CollectorResultCode × Option Request) :=
  match p.parse info.request.data with
  | none => some (m, .invalid, none)
  | some batchResponse =>
    let seq := batchResponse.localId
    if seq = 0 then some (m, .invalid, none)
    else do
      let request := { info.request with seq := seq }
      let added ← (m.collectorPool.getCollector seq).addRequest false ⟨request, info.signature⟩
        false 0 (responseCallBack p.minClientReceiveNum request.type)
      let m := { m with collectorPool := m.collectorPool.set seq added.collector }
      if added.ret ≠ 0 then some (m, .invalid, none)
      else if added.changed then
        some ({ m with collectorPool := m.collectorPool.update seq }, .stateChanged, some request)
      else some (m, .ok, none)

/-- `SendResponseToClient`.  Every client that is still there gets the answer at its place, so there
has to be one. -/
def sendResponseToClient (m : ResponseManager) (batchResponse : BatchUserResponse) :
    Option (ResponseManager × Option BatchUserResponse) :=
  let (contexts, pool) := m.contextPool.fetchContextList batchResponse.localId
  let m := { m with contextPool := pool }
  if contexts = [] then some (m, none)
  else do
    guard (∀ e ∈ contexts.zipIdx, e.1.isSome → e.2 < batchResponse.response.length)
    some (m, some batchResponse)

/-- `ProcessResponseMsg`, and what is delivered. -/
def processResponseMsg (p : ResponseSetup) (m : ResponseManager) (info : RequestInfo) (ret : ℤ) :
    Option (ResponseManager × Option BatchUserResponse) :=
  if ret = -2 then some (m, none)
  else do
    let (m, _, response) ← m.addResponseMsg p info
    match response.bind fun request => p.parse request.data with
    | none => some (m, none)
    | some batchResponse => m.sendResponseToClient batchResponse

end ResponseManager

/-! ### Runs -/

/-- The proxy, the answers of honest replicas, the messages that the proxy has received and the answers
it has delivered. -/
structure Replies where
  manager : ResponseManager
  sent : List Request
  received : List Request
  delivered : List BatchUserResponse

/-- What can happen. -/
inductive ReplyAction
  /-- A batch is proposed for some clients. -/
  | doBatch (contexts : List (Option ℕ))
  /-- An honest replica has executed a request. -/
  | answer (id : ℕ) (request : Request) (batch : BatchInfo) (currentPrimary : ℕ)
    (results : List String)
  /-- A response reaches the proxy. -/
  | processResponseMsg (info : RequestInfo) (ret : ℤ)

namespace Replies

/-- One action.  Sender ids are authentic. -/
def step (p : ResponseSetup) (s : Replies) : ReplyAction → Option Replies
  | .doBatch contexts => some { s with manager := s.manager.addContextList contexts }
  | .answer id request batch currentPrimary results => do
      guard (id ∈ Icc 1 p.totalNum \ p.byzantine)
      some { s with
        sent := s.sent ++ [postProcessExecutedMsg p.serialize id
          (executedResponse request batch currentPrimary results)] }
  | .processResponseMsg info ret => do
      guard (info.request.type = .response ∧
        (info.request.senderId ∈ p.byzantine ∨ info.request ∈ s.sent))
      let (m, response) ← s.manager.processResponseMsg p info ret
      some { s with
        manager := m
        received := s.received ++ [info.request]
        delivered := s.delivered ++ response.toList }

/-- A replica has sent these results for a local id. -/
def HasSent (p : ResponseSetup) (s : Replies) (j localId : ℕ) (results : List String) : Prop :=
  ∃ q ∈ s.received, q.senderId = j ∧ ∃ b, p.parse q.data = some b ∧ b.localId = localId ∧
    b.response = results

/-- At least `f + 1` replicas have sent what is delivered, for its local id. -/
def Backed (p : ResponseSetup) (s : Replies) : Prop :=
  ∀ d ∈ s.delivered, ∃ Q ⊆ Icc 1 p.totalNum, (p.totalNum - 1) / 3 + 1 ≤ Q.card ∧
    ∀ j ∈ Q, s.HasSent p j d.localId d.response

end Replies

/-- The runs of a proxy. -/
def responseSystem (p : ResponseSetup) : TransitionSystem Replies ReplyAction where
  init s := s = ⟨.construct p, [], [], []⟩
  step := Replies.step p

/-- The condition.  A response has the same results as the responses with the same local id and the
same hash that have come before. -/
def SameAnswer (p : ResponseSetup) (s : Replies) : ReplyAction → Prop
  | .processResponseMsg info _ =>
    ∀ b ∈ p.parse info.request.data, ∀ q ∈ s.received, q.hash = info.request.hash →
      ∀ b' ∈ p.parse q.data, b'.localId = b.localId → b'.response = b.response
  | _ => True

instance (p : ResponseSetup) (s : Replies) (a : ReplyAction) : Decidable (SameAnswer p s a) := by
  unfold SameAnswer
  split <;> infer_instance

/-! ### What a response does -/

section

variable {p : ResponseSetup} {c : TransactionCollector} {info : RequestInfo} {a : Added}

theorem addVote_response {request : Request}
    (h : c.addVote request (responseCallBack p.minClientReceiveNum request.type) = some a) :
    (a.changed = true → c.status = .none ∧
      p.minClientReceiveNum ≤ (a.collector.senders request.type request.hash).card) ∧
    (a.collector.status = .none → c.status = .none ∧ a.changed = false) := by
  obtain ⟨-, -, h⟩ := bind_eq_some_iff.1 h
  obtain ⟨-, hstatus, -⟩ := TransactionCollector.addCert_frame c request
  -- the call back leaves the status alone unless there is none
  have hcount : ∀ counted, counted =
      (c.addCert request).count request (responseCallBack p.minClientReceiveNum request.type) →
      counted.1 = true ∧ counted.2.status = .executed ∧ c.status = .none ∧
        p.minClientReceiveNum ≤ (counted.2.senders request.type request.hash).card ∨
      counted.1 = false ∧ counted.2.status = c.status := by
    rintro counted rfl
    simp only [TransactionCollector.count, responseCallBack]
    split
    · rename_i hcond
      exact .inl ⟨rfl, rfl, hstatus.symm.trans hcond.2.1, hcond.2.2⟩
    · exact .inr ⟨rfl, hstatus⟩
  dsimp only at h
  rcases hcount _ rfl with ⟨-, hnew, hnone⟩ | ⟨hfalse, hnew⟩
  · rw [if_neg (by simp [hnew])] at h
    cases h
    exact ⟨fun _ => hnone, fun h => by simp [hnew] at h⟩
  · split at h
    · rename_i hexec
      cases h
      obtain ⟨-, hcommit, -⟩ := TransactionCollector.commit_spec _ hexec
      exact ⟨fun h => by simp [hfalse] at h, fun h => by simp [hcommit] at h⟩
    · cases h
      exact ⟨fun h => by simp [hfalse] at h, fun h => ⟨hnew ▸ h, hfalse⟩⟩

/-- A collector refuses a response, or counts it; the status changes only together with enough
others. -/
theorem addResponse_spec
    (h : c.addRequest false info false 0 (responseCallBack p.minClientReceiveNum info.request.type) = some a) :
    (a.collector = c ∧ a.changed = false) ∨
      (c.seq = info.request.seq ∧ c.Counts info.request a.collector ∧
        (a.changed = true → c.status = .none ∧ p.minClientReceiveNum ≤
          (a.collector.senders info.request.type info.request.hash).card) ∧
        (a.collector.status = .none → c.status = .none ∧ a.changed = false)) := by
  rcases TransactionCollector.addRequest_cases h with
    ⟨ret, rfl⟩ | ⟨hseq, ⟨hmain, -⟩ | ⟨-, ⟨hvc, -⟩, -⟩ | ⟨-, -, hvote⟩⟩
  · exact .inl ⟨rfl, rfl⟩
  · cases hmain
  · cases hvc
  · exact .inr ⟨hseq, TransactionCollector.counts_addVote hseq hvote, addVote_response hvote⟩

variable {m m' : ResponseManager} {ret : ℤ} {response : Option BatchUserResponse}

theorem LockFreeCollectorPool.collector_update (pool : LockFreeCollectorPool) (seq k : ℕ) :
    (pool.update seq).collector k = pool.collector k ∨
      ∃ seq', (pool.update seq).collector k = { seq := seq' } := by
  unfold LockFreeCollectorPool.update
  split
  · exact .inl rfl
  · exact (LockFreeCollectorPool.collector_set_fresh _ _ _ k).imp_right fun hk => ⟨_, hk⟩

theorem sendResponseToClient_cases {b : BatchUserResponse}
    (h : m.sendResponseToClient b = some (m', response)) :
    m'.collectorPool = m.collectorPool ∧ m'.localId = m.localId ∧ ∀ d ∈ response, d = b := by
  unfold ResponseManager.sendResponseToClient at h
  dsimp only at h
  split at h
  · cases h
    exact ⟨rfl, rfl, by simp⟩
  · obtain ⟨-, -, h⟩ := bind_eq_some_iff.1 h
    cases h
    exact ⟨rfl, rfl, by simp⟩

/-- What a response that is taken does: its collector takes it, and if that changes the status it is
what the clients get. -/
structure ResponseSpec (p : ResponseSetup) (m : ResponseManager) (info : RequestInfo)
    (m' : ResponseManager) (response : Option BatchUserResponse) (b : BatchUserResponse) (a : Added) :
    Prop where
  parsed : p.parse info.request.data = some b
  added : (m.collectorPool.getCollector b.localId).addRequest false
    ⟨{ info.request with seq := b.localId }, info.signature⟩ false 0
    (responseCallBack p.minClientReceiveNum info.request.type) = some a
  pool : m'.collectorPool = m.collectorPool.set b.localId a.collector ∨
    a.changed = true ∧
      m'.collectorPool = (m.collectorPool.set b.localId a.collector).update b.localId
  localId : m'.localId = m.localId
  delivered : ∀ d ∈ response, d = b ∧ a.changed = true

theorem ResponseSpec.collectors {b : BatchUserResponse} (h : ResponseSpec p m info m' response b a)
    (k : ℕ) : m'.collectorPool.collector k = m.collectorPool.collector k ∨
      m'.collectorPool.collector k = a.collector ∨
      ∃ seq, m'.collectorPool.collector k = { seq := seq } := by
  have hset : (m.collectorPool.set b.localId a.collector).collector k =
      m.collectorPool.collector k ∨
      (m.collectorPool.set b.localId a.collector).collector k = a.collector := by
    simp only [LockFreeCollectorPool.set, Function.update_apply]
    split
    · exact .inr rfl
    · exact .inl rfl
  rcases h.pool with hpool | ⟨-, hpool⟩
  · rw [hpool]
    exact hset.imp_right .inl
  · rw [hpool]
    rcases LockFreeCollectorPool.collector_update (m.collectorPool.set b.localId a.collector)
      b.localId k with hk | hk
    · rw [hk]
      exact hset.imp_right .inl
    · exact .inr (.inr hk)

theorem addResponseMsg_cases {code : CollectorResultCode} {request : Option Request}
    (h : m.addResponseMsg p info = some (m', code, request)) :
    (m' = m ∧ request = none) ∨ ∃ b a, ResponseSpec p m info m' none b a ∧
      ∀ q ∈ request, q.data = info.request.data ∧ a.changed = true := by
  unfold ResponseManager.addResponseMsg at h
  split at h
  · cases h
    exact .inl ⟨rfl, rfl⟩
  · rename_i b hparse
    dsimp only at h
    split at h
    · cases h
      exact .inl ⟨rfl, rfl⟩
    · obtain ⟨a, ha, h⟩ := bind_eq_some_iff.1 h
      refine .inr ⟨b, a, ?_⟩
      split at h
      · cases h
        exact ⟨⟨hparse, ha, .inl rfl, rfl, by simp⟩, by simp⟩
      · split at h
        · rename_i hchanged
          cases h
          refine ⟨⟨hparse, ha, .inr ⟨hchanged, rfl⟩, rfl, by simp⟩, ?_⟩
          rintro q ⟨⟩
          exact ⟨rfl, hchanged⟩
        · cases h
          exact ⟨⟨hparse, ha, .inl rfl, rfl, by simp⟩, by simp⟩

/-- **What `ProcessResponseMsg` does.** -/
theorem processResponseMsg_cases (h : m.processResponseMsg p info ret = some (m', response)) :
    (m'.collectorPool = m.collectorPool ∧ response = none) ∨
      ∃ b a, ResponseSpec p m info m' response b a := by
  unfold ResponseManager.processResponseMsg at h
  split at h
  · obtain ⟨rfl, rfl⟩ := h
    exact .inl ⟨rfl, rfl⟩
  obtain ⟨⟨m₁, code, request⟩, hadd, h⟩ := bind_eq_some_iff.1 h
  dsimp only at h
  split at h
  · -- nothing is delivered
    obtain ⟨rfl, rfl⟩ := h
    rcases addResponseMsg_cases hadd with ⟨rfl, -⟩ | ⟨b, a, hspec, -⟩
    · exact .inl ⟨rfl, rfl⟩
    · exact .inr ⟨b, a, hspec⟩
  · rename_i b' hb'
    obtain ⟨q, hq, hparse⟩ := bind_eq_some_iff.1 hb'
    obtain ⟨hpool, hid, hresponse⟩ := sendResponseToClient_cases h
    rcases addResponseMsg_cases hadd with ⟨-, hnone⟩ | ⟨b, a, hspec, hrequest⟩
    · rw [hnone] at hq
      cases hq
    · obtain ⟨hdata, hchanged⟩ := hrequest q hq
      rw [hdata, hspec.parsed] at hparse
      obtain rfl := Option.some.inj hparse
      refine .inr ⟨b, a, hspec.parsed, hspec.added, ?_, hid.trans hspec.localId,
        fun d hd => ⟨hresponse d hd, hchanged⟩⟩
      rw [hpool]
      exact hspec.pool

end

/-! ### The invariant -/

/-- A message with this hash has come from the sender, for a local id. -/
def Replies.HasAnswered (p : ResponseSetup) (s : Replies) (j localId : ℕ) (hash : String) : Prop :=
  ∃ q ∈ s.received, q.senderId = j ∧ q.hash = hash ∧
    ∃ b, p.parse q.data = some b ∧ b.localId = localId

/-- Everybody that a collector counts has answered. -/
structure CountInv (p : ResponseSetup) (s : Replies) : Prop where
  sent : ∀ q ∈ s.sent, q.senderId ∈ Icc 1 p.totalNum
  received : ∀ q ∈ s.received, q.senderId ∈ Icc 1 p.totalNum ∧
    (q.senderId ∈ p.byzantine ∨ q ∈ s.sent)
  counted : ∀ k hash, ∀ j ∈ (s.manager.collectorPool.collector k).senders .response hash,
    s.HasAnswered p j (s.manager.collectorPool.collector k).seq hash

structure ReplyInv (p : ResponseSetup) (s : Replies) : Prop where
  count : CountInv p s
  agree : ∀ q ∈ s.received, ∀ q' ∈ s.received, q.hash = q'.hash → ∀ b ∈ p.parse q.data,
    ∀ b' ∈ p.parse q'.data, b.localId = b'.localId → b.response = b'.response
  backed : s.Backed p

section

variable {p : ResponseSetup} {s s' : Replies} {a : ReplyAction}

theorem Replies.Backed.mono (h : s.Backed p) (hreceived : s.received ⊆ s'.received)
    (hdelivered : s'.delivered = s.delivered) : s'.Backed p := by
  unfold Replies.Backed
  rw [hdelivered]
  intro d hd
  obtain ⟨Q, hsub, hcard, hall⟩ := h d hd
  refine ⟨Q, hsub, hcard, fun j hj => ?_⟩
  obtain ⟨q, hq, hrest⟩ := hall j hj
  exact ⟨q, hreceived hq, hrest⟩

theorem Replies.HasAnswered.mono {j localId : ℕ} {hash : String} (h : s.HasAnswered p j localId hash)
    (hreceived : s.received ⊆ s'.received) : s'.HasAnswered p j localId hash := by
  obtain ⟨q, hq, hrest⟩ := h
  exact ⟨q, hreceived hq, hrest⟩

variable {b : BatchUserResponse}

theorem ReplyInv.hasSent (h : ReplyInv p s) {q : Request} {j : ℕ}
    (hq : q ∈ s.received) (hb : p.parse q.data = some b)
    (hj : s.HasAnswered p j b.localId q.hash) : s.HasSent p j b.localId b.response := by
  obtain ⟨q', hq', hsender, hhash, b', hb', hid⟩ := hj
  exact ⟨q', hq', hsender, b', hb', hid, h.agree q' hq' q hq hhash b' hb' b hb hid⟩

/-- The least number of equal answers that a client waits for is more than the number of faulty
replicas. -/
theorem faulty_lt_minClientReceiveNum (hmin : p.minClientReceiveNumConfig = 0 ∨
      (p.totalNum - 1) / 3 + 1 ≤ p.minClientReceiveNumConfig) :
    (p.totalNum - 1) / 3 + 1 ≤ p.minClientReceiveNum := by
  unfold ResponseSetup.minClientReceiveNum
  split
  · omega
  · exact le_max_left _ _

theorem CountInv.receive (h : CountInv p s) {q : Request}
    (hsender : q.senderId ∈ p.byzantine ∨ q ∈ s.sent) :
    CountInv p { s with received := s.received ++ [q] } := by
  refine ⟨h.sent, ?_, fun k hash j hj =>
    (h.counted k hash j hj).mono (List.subset_append_left s.received [q])⟩
  intro q' hq'
  rcases List.mem_append.1 hq' with hq' | hq'
  · exact h.received q' hq'
  · rw [List.mem_singleton.1 hq']
    exact ⟨hsender.elim (fun hbyz => p.byzantine_subset hbyz) (h.sent q), hsender⟩

section Process

variable {info : RequestInfo} {ret : ℤ} {m : ResponseManager} {response : Option BatchUserResponse}

/-- Everybody that the collector of a response counts has answered. -/
theorem CountInv.counted_added {added : Added} (h : CountInv p s)
    (hinfo : info.request ∈ s.received) (hspec : ResponseSpec p s.manager info m response b added)
    (hash : String) {j : ℕ} (hj : j ∈ added.collector.senders .response hash) :
    s.HasAnswered p j added.collector.seq hash := by
  rcases addResponse_spec hspec.added with ⟨hsame, -⟩ | ⟨hseq, ⟨hseq', hcount⟩, -⟩
  · rw [hsame] at hj ⊢
    exact h.counted _ hash j hj
  · rw [hseq']
    rcases hcount .response hash j hj with hold | ⟨-, hseq, rfl, rfl⟩
    · exact h.counted _ hash j hold
    · rw [hseq]
      exact ⟨_, hinfo, rfl, rfl, b, hspec.parsed, rfl⟩

theorem CountInv.process (h : CountInv p s) (hinfo : info.request ∈ s.received)
    (hm : s.manager.processResponseMsg p info ret = some (m, response))
    (delivered : List BatchUserResponse) :
    CountInv p { s with manager := m, delivered := delivered } := by
  refine ⟨h.sent, h.received, ?_⟩
  rcases processResponseMsg_cases hm with ⟨hpool, rfl⟩ | ⟨b, a, hspec⟩
  · rw [hpool]
    exact h.counted
  · intro k hash j hj
    rcases hspec.collectors k with hk | hk | ⟨seq, hk⟩
    · rw [hk] at hj ⊢
      exact h.counted k hash j hj
    · rw [hk] at hj ⊢
      exact h.counted_added hinfo hspec hash hj
    · rw [hk] at hj
      exact absurd hj (Finset.notMem_empty j)

/-- Enough replicas have answered when a collector changes its status. -/
theorem CountInv.enough {added : Added} (h : CountInv p s)
    (htype : info.request.type = .response) (hinfo : info.request ∈ s.received)
    (hspec : ResponseSpec p s.manager info m response b added) (hchanged : added.changed = true) :
    ∃ Q ⊆ Icc 1 p.totalNum, p.minClientReceiveNum ≤ Q.card ∧
      ∀ j ∈ Q, s.HasAnswered p j b.localId info.request.hash := by
  rcases addResponse_spec hspec.added with ⟨-, hno⟩ | ⟨hseq, ⟨hseq', -⟩, henough, -⟩
  · rw [hno] at hchanged
    cases hchanged
  rw [htype] at henough
  have hall : ∀ j ∈ added.collector.senders .response info.request.hash,
      s.HasAnswered p j b.localId info.request.hash := by
    intro j hj
    have hanswered := h.counted_added hinfo hspec _ hj
    rw [hseq', hseq] at hanswered
    exact hanswered
  refine ⟨_, ?_, (henough hchanged).2, hall⟩
  intro j hj
  obtain ⟨q, hq, rfl, -⟩ := hall j hj
  exact (h.received q hq).1

end Process

theorem CountInv.step (h : CountInv p s) (hs : s.step p a = some s') : CountInv p s' := by
  cases a with
  | doBatch contexts =>
    cases hs
    exact ⟨h.sent, h.received, h.counted⟩
  | answer id request batch currentPrimary results =>
    simp only [Replies.step, bind, bind_eq_some_iff, guard_eq_some'] at hs
    obtain ⟨-, hid, hs⟩ := hs
    cases hs
    refine ⟨?_, fun q hq => ⟨(h.received q hq).1,
      (h.received q hq).2.imp_right fun hsent => List.mem_append_left _ hsent⟩, h.counted⟩
    intro q hq
    rcases List.mem_append.1 hq with hq | hq
    · exact h.sent q hq
    · rw [List.mem_singleton.1 hq]
      exact (Finset.mem_sdiff.1 hid).1
  | processResponseMsg info ret =>
    simp only [Replies.step, bind, bind_eq_some_iff, guard_eq_some'] at hs
    obtain ⟨-, ⟨-, hsender⟩, ⟨m, response⟩, hm, hs⟩ := hs
    cases hs
    exact (h.receive hsender).process (by simp) hm _

theorem ReplyInv.receive (h : ReplyInv p s) {info : RequestInfo} {ret : ℤ}
    (hsender : info.request.senderId ∈ p.byzantine ∨ info.request ∈ s.sent)
    (hok : SameAnswer p s (.processResponseMsg info ret)) :
    ReplyInv p { s with received := s.received ++ [info.request] } := by
  refine ⟨h.count.receive hsender, ?_, h.backed.mono (List.subset_append_left _ _) rfl⟩
  intro q hq q' hq' hhash b hb b' hb' hid
  rcases List.mem_append.1 hq with hq | hq <;> rcases List.mem_append.1 hq' with hq' | hq'
  · exact h.agree q hq q' hq' hhash b hb b' hb' hid
  · rw [List.mem_singleton.1 hq'] at hhash hb'
    exact hok b' hb' q hq hhash b hb hid
  · rw [List.mem_singleton.1 hq] at hhash hb
    exact (hok b hb q' hq' hhash.symm b' hb' hid.symm).symm
  · rw [List.mem_singleton.1 hq] at hb
    rw [List.mem_singleton.1 hq'] at hb'
    obtain rfl := Option.some.inj (hb.symm.trans hb')
    rfl

theorem ReplyInv.process (h : ReplyInv p s) {info : RequestInfo} {ret : ℤ} {m : ResponseManager}
    {response : Option BatchUserResponse} (hmin : p.minClientReceiveNumConfig = 0 ∨
      (p.totalNum - 1) / 3 + 1 ≤ p.minClientReceiveNumConfig)
    (htype : info.request.type = .response) (hinfo : info.request ∈ s.received)
    (hm : s.manager.processResponseMsg p info ret = some (m, response)) :
    ReplyInv p { s with manager := m, delivered := s.delivered ++ response.toList } := by
  refine ⟨h.count.process hinfo hm _, h.agree, ?_⟩
  rcases processResponseMsg_cases hm with ⟨hpool, rfl⟩ | ⟨b, a, hspec⟩
  · exact h.backed.mono (List.Subset.refl _) (List.append_nil _)
  · intro d hd
    rcases List.mem_append.1 hd with hold | hnew
    · exact h.backed d hold
    obtain ⟨rfl, hchanged⟩ := hspec.delivered d (Option.mem_toList.1 hnew)
    -- those who are counted for the hash
    obtain ⟨Q, hsub, hcard, hall⟩ := h.count.enough htype hinfo hspec hchanged
    exact ⟨Q, hsub, (faulty_lt_minClientReceiveNum hmin).trans hcard, fun j hj =>
      h.hasSent hinfo hspec.parsed (hall j hj)⟩

theorem ReplyInv.step (hmin : p.minClientReceiveNumConfig = 0 ∨
      (p.totalNum - 1) / 3 + 1 ≤ p.minClientReceiveNumConfig)
    (h : ReplyInv p s) (hok : SameAnswer p s a) (hs : s.step p a = some s') : ReplyInv p s' := by
  have hcount := h.count.step hs
  cases a with
  | doBatch contexts =>
    cases hs
    exact ⟨hcount, h.agree, h.backed⟩
  | answer id request batch currentPrimary results =>
    simp only [Replies.step, bind, bind_eq_some_iff] at hs
    obtain ⟨-, -, hs⟩ := hs
    cases hs
    exact ⟨hcount, h.agree, h.backed⟩
  | processResponseMsg info ret =>
    simp only [Replies.step, bind, bind_eq_some_iff, guard_eq_some'] at hs
    obtain ⟨-, ⟨htype, hsender⟩, ⟨m, response⟩, hm, hs⟩ := hs
    cases hs
    exact (h.receive hsender hok).process hmin htype (by simp) hm

theorem CountInv.init : CountInv p ⟨.construct p, [], [], []⟩ := by
  refine ⟨by simp, by simp, fun k hash j hj => ?_⟩
  exact absurd hj (Finset.notMem_empty j)

/-- **Answers are backed by a correct replica**: if responses with the same local id and hash have the
same results, then at least `f + 1` replicas have sent what is delivered. -/
theorem client_answer_backed (hmin : p.minClientReceiveNumConfig = 0 ∨
      (p.totalNum - 1) / 3 + 1 ≤ p.minClientReceiveNumConfig)
    (h : (responseSystem p).Reachable (SameAnswer p) s) : s.Backed p := by
  have hinv : ReplyInv p s := by
    refine h.invariant ?_ ?_
    · rintro s rfl
      exact ⟨.init, by simp, by rintro d ⟨⟩⟩
    · intro s a s' hinv hok hs
      exact hinv.step hmin hok hs
  exact hinv.backed

end

/-! ### Two runs of four replicas -/

/-- Four replicas, of which replica 4 is faulty.  Only answers for local id 1 are written down. -/
def fourAnswering : ResponseSetup where
  totalNum := 4
  maxProcessTxn := 64
  minClientReceiveNumConfig := 0
  serialize := fun b => b.response.headD ""
  parse := fun data => some { response := [data], localId := 1 }
  byzantine := {4}
  byzantine_subset := by decide
  byzantine_card := by decide

/-- The answer of a replica to the first batch. -/
def answerOf (id : ℕ) (result : String) : Request :=
  postProcessExecutedMsg fourAnswering.serialize id
    (executedResponse { proxyId := 5, seq := 1 } ⟨0, 1⟩ 1 [result])

/-- Replica 2 answers, and another one. -/
def answerRun (id : ℕ) (result : String) : List ReplyAction :=
  [.doBatch [some 7], .answer 2 { proxyId := 5, seq := 1 } ⟨0, 1⟩ 1 ["a"],
    .answer 3 { proxyId := 5, seq := 1 } ⟨0, 1⟩ 1 ["a"],
    .processResponseMsg ⟨answerOf 2 "a", ⟨2, ""⟩⟩ 0,
    .processResponseMsg ⟨answerOf id result, ⟨id, ""⟩⟩ 0]

theorem client_answer_backed_answerRun :
    ∃ s, (responseSystem fourAnswering).run ⟨.construct fourAnswering, [], [], []⟩ (answerRun 3 "a") =
        some s ∧ s.delivered.map BatchUserResponse.response = [["a"]] ∧ s.Backed fourAnswering := by
  obtain ⟨s, hs, hreach, hdelivered⟩ := (responseSystem fourAnswering).exists_run
    (C := SameAnswer fourAnswering)
    (P := fun s => s.delivered.map BatchUserResponse.response = [["a"]]) (answerRun 3 "a") rfl
    (by decide +kernel) (by decide +kernel)
  exact ⟨s, hs, hdelivered, client_answer_backed (.inl rfl) hreach⟩

/-- The answer of the faulty replica 4 is delivered, after one other answer. -/
theorem client_answer_backed_fails :
    ∃ s, (responseSystem fourAnswering).Reachable TransitionSystem.always s ∧
      s.delivered.map BatchUserResponse.response = [["b"]] ∧
      s.received.map (fun q => (q.senderId, q.data)) = [(2, "a"), (4, "b")] ∧
      ¬ s.Backed fourAnswering := by
  obtain ⟨s, hreach, hdelivered, hreceived⟩ := (responseSystem fourAnswering).exists_reachable_always
    (P := fun s => s.delivered.map BatchUserResponse.response = [["b"]] ∧
      s.received.map (fun q => (q.senderId, q.data)) = [(2, "a"), (4, "b")]) (answerRun 4 "b") rfl
    (by decide +kernel)
  refine ⟨s, hreach, hdelivered, hreceived, ?_⟩
  intro h
  have hmem : ["b"] ∈ s.delivered.map BatchUserResponse.response := by simp [hdelivered]
  obtain ⟨d, hd, hdb⟩ := List.mem_map.1 hmem
  obtain ⟨Q, -, hcard, hall⟩ := h d hd
  -- only replica 4 has sent "b"
  have hQ : Q ⊆ {4} := by
    intro j hj
    obtain ⟨q, hq, rfl, b, hb, -, hresp⟩ := hall j hj
    cases hb
    have hdata : q.data = "b" := by simpa [hdb] using hresp
    have hpair : (q.senderId, q.data) ∈ [(2, "a"), (4, "b")] := by
      rw [← hreceived]
      exact List.mem_map_of_mem hq
    rw [hdata] at hpair
    simpa using hpair
  exact absurd (hcard.trans (Finset.card_le_card hQ)) (by decide)

end Pbft
