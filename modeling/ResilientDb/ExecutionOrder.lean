/-
**The reorder buffer of the transaction executor.**

`TransactionExecutor::Commit` puts committed requests on `commit_queue_` in whatever order they
commit; the thread `OrderMessage` moves them through the buffer `candidates_` and pushes them to
`execute_queue_` in the order of their sequence numbers.  Meanwhile `SetPendingExecutedSeq`, called
through `MessageManager::SetNextCommitSeq`, may overwrite `next_execute_seq_` at any moment.

The model is a machine whose steps are the points between which another thread can run: a step of
`OrderMessage` reads or writes `next_execute_seq_` at most once.

Main definitions:

* `Execution.Executor`, `Execution.Executor.orderMessage` — the state and one step of the thread;
* `Execution.Ordered` — ordered exactly-once execution;
* `Execution.SteadySeq` — the condition on a call that overwrites the counter.

Main results:

* `Execution.ordered_execution` — every run whose calls meet the condition is ordered;
* `Execution.ordered_execution_fails` — a call that moves the counter back repeats a request.
-/

import ResilientDb.OrderedMap
import ResilientDb.Transition

set_option autoImplicit false

namespace Execution

/-! ### The executor -/

/-- The part of a `Request` that ordering touches: `seq` and the payload. -/
structure Request where
  seq : ℕ
  data : String
deriving DecidableEq

/-- Where the thread `OrderMessage` stands. -/
inductive Pc
  /-- At the test of the outer loop. -/
  | loop
  /-- About to call `commit_queue_.Pop()`. -/
  | pop
  /-- Waiting inside `Pop` for a message or the timeout. -/
  | wait
  /-- Holding a message, about to compare its number with `next_execute_seq_`. -/
  | check (message : Request)
  /-- About to call `AddNewData`. -/
  | add (message : Request)
  /-- At the test of the inner loop. -/
  | drain
  /-- Holding what `GetNextData` returned, about to push it to `execute_queue_`. -/
  | push (message : Request)
  /-- About to increment `next_execute_seq_`. -/
  | inc
  /-- Returned. -/
  | done
deriving DecidableEq

/-- `TransactionExecutor`, as far as ordering goes.  `executeQueue` lists everything `OrderMessage`
has pushed, also what the execution threads have taken since; `received` lists the numbers of all
committed requests. -/
structure Executor where
  commitQueue : List Request
  executeOOOQueue : List Request
  candidates : OrderedMap ℕ Request
  nextExecuteSeq : ℕ
  executeQueue : List Request
  stop : Bool
  pc : Pc
  received : List ℕ

namespace Executor

/-- The executor as constructed. -/
def start : Executor where
  commitQueue := []
  executeOOOQueue := []
  candidates := .empty
  nextExecuteSeq := 1
  executeQueue := []
  stop := false
  pc := .loop
  received := []

/-- `Commit`.  With an out-of-order transaction manager a copy goes to `execute_OOO_queue_`. -/
def commit (isOutOfOrder : Bool) (e : Executor) (message : Request) : Executor :=
  { e with
    executeOOOQueue := if isOutOfOrder then e.executeOOOQueue ++ [message] else e.executeOOOQueue
    commitQueue := e.commitQueue ++ [message]
    received := e.received ++ [message.seq] }

/-- The value of an `int` stored in a `uint64_t`. -/
def toUint64 (seq : Int32) : ℕ := (seq.toInt % 2 ^ 64).toNat

/-- `SetPendingExecutedSeq`. -/
def setPendingExecutedSeq (e : Executor) (seq : Int32) : Executor :=
  { e with nextExecuteSeq := toUint64 seq }

/-- `AddNewData`. -/
def addNewData (e : Executor) (message : Request) : Executor :=
  { e with candidates := e.candidates.insert message.seq message }

/-- `GetNextData`: the first candidate, if its key is the next number, and the buffer without it. -/
def getNextData (e : Executor) : Option (Request × OrderedMap ℕ Request) :=
  match e.candidates.begin with
  | none => none
  | some (key, message) =>
    if key ≠ e.nextExecuteSeq then none else some (message, e.candidates.eraseBegin)

/-- One step of `OrderMessage`. -/
def orderMessage (e : Executor) : Option Executor :=
  match e.pc with
  | .loop => some { e with pc := if e.stop then .done else .pop }
  | .pop =>
    match e.commitQueue with
    | [] => some { e with pc := .wait }
    | message :: queue => some { e with commitQueue := queue, pc := .check message }
  | .wait =>
    match e.commitQueue with
    | [] => some { e with pc := .drain }
    | message :: queue => some { e with commitQueue := queue, pc := .check message }
  | .check message =>
    -- the `continue` of a stale message skips the inner loop
    some { e with pc := if message.seq < e.nextExecuteSeq then .loop else .add message }
  | .add message => some { e.addNewData message with pc := .drain }
  | .drain =>
    if e.stop then some { e with pc := .loop }
    else
      match e.getNextData with
      | none => some { e with pc := .loop }
      | some (message, candidates) =>
        some { e with candidates := candidates, pc := .push message }
  | .push message => some { e with executeQueue := e.executeQueue ++ [message], pc := .inc }
  | .inc => some { e with nextExecuteSeq := (e.nextExecuteSeq + 1) % 2 ^ 64, pc := .drain }
  | .done => none

theorem orderMessage_received {e e' : Executor} (h : e.orderMessage = some e') :
    e'.received = e.received := by
  unfold orderMessage at h
  split at h
  case h_2 | h_3 => split at h <;> cases h <;> rfl
  case h_6 =>
    split_ifs at h
    · cases h
      rfl
    · split at h <;> cases h <;> rfl
  case h_9 => cases h
  all_goals
    cases h
    rfl

end Executor

/-- What can happen next. -/
inductive Action
  /-- Some thread commits a request. -/
  | commit (message : Request)
  /-- Some thread overwrites the counter. -/
  | setPendingExecutedSeq (seq : Int32)
  /-- The executor is asked to stop. -/
  | stop
  /-- The thread `OrderMessage` takes a step. -/
  | order

/-- One action. -/
def Executor.step (isOutOfOrder : Bool) (e : Executor) : Action → Option Executor
  | .commit message => some (e.commit isOutOfOrder message)
  | .setPendingExecutedSeq seq => some (e.setPendingExecutedSeq seq)
  | .stop => some { e with stop := true }
  | .order => e.orderMessage

/-- The runs of the executor. -/
def executorSystem (isOutOfOrder : Bool) : TransitionSystem Executor Action where
  init e := e = .start
  step := Executor.step isOutOfOrder

/-! ### Ordered execution -/

/-- `OrderMessage` is about to block: it calls `Pop` and there is no message. -/
def Executor.Blocks (e : Executor) : Prop := e.pc = .pop ∧ e.commitQueue = []

/-- The numbers that `OrderMessage` has pushed, in order. -/
def Executor.pushed (e : Executor) : List ℕ := e.executeQueue.map Request.seq

/-- Ordered exactly-once execution. -/
structure Ordered (e : Executor) : Prop where
  /-- Each number is pushed at most once. -/
  once : e.pushed.Nodup
  /-- The numbers pushed are consecutive and increasing. -/
  consecutive : e.pushed.IsChain fun a b => b = a + 1
  /-- The next number, once received, is pushed before `OrderMessage` blocks. -/
  prompt : e.Blocks → e.nextExecuteSeq ∈ e.received → e.nextExecuteSeq ∈ e.pushed

/-- The thread is between the comparison of a message and the end of its handling. -/
def Pc.Busy : Pc → Prop
  | .add _ | .push _ | .inc => True
  | _ => False

/-- The condition.  A call that overwrites the counter leaves it as it is, or it comes before
anything was pushed, at a point where the thread is handling no message, and moves the counter
forward but below every buffered number.  The counter does not wrap. -/
def SteadySeq (e : Executor) : Action → Prop
  | .setPendingExecutedSeq seq =>
    Executor.toUint64 seq = e.nextExecuteSeq ∨
      (e.executeQueue = [] ∧ ¬ e.pc.Busy ∧ e.nextExecuteSeq ≤ Executor.toUint64 seq ∧
        ∀ k ∈ e.candidates.keys, Executor.toUint64 seq < k)
  | .order => e.pc = .inc → e.nextExecuteSeq + 1 < 2 ^ 64
  | _ => True

instance : DecidablePred Pc.Busy := fun pc => by
  cases pc <;> unfold Pc.Busy <;> infer_instance

instance (e : Executor) (a : Action) : Decidable (SteadySeq e a) := by
  cases a <;> unfold SteadySeq <;> infer_instance

/-- The least number that `OrderMessage` has not pushed. -/
def Executor.frontier (e : Executor) : ℕ :=
  match e.pc with
  | .inc => e.nextExecuteSeq + 1
  | _ => e.nextExecuteSeq

/-- The message the thread holds. -/
def Pc.inHand : Pc → Option Request
  | .check message | .add message | .push message => some message
  | _ => none

/-- What the message in the thread's hand has to do with the counter. -/
def Executor.HandOk (e : Executor) : Prop :=
  match e.pc with
  | .add message => e.nextExecuteSeq ≤ message.seq
  | .push message => message.seq = e.nextExecuteSeq
  | _ => True

/-- The next number is not in the buffer, at the points from which the thread may block. -/
def Executor.Drained (e : Executor) : Prop :=
  match e.pc with
  | .loop => e.stop = true ∨ e.nextExecuteSeq ∉ e.candidates.keys
  | .pop | .wait | .check _ => e.nextExecuteSeq ∉ e.candidates.keys
  | .push _ | .inc => e.nextExecuteSeq ∉ e.candidates.keys
  | .add _ | .drain | .done => True

/-- The invariant of the ordering thread. -/
structure OrderInv (e : Executor) : Prop where
  chain : e.pushed.IsChain fun a b => b = a + 1
  last : ∀ a ∈ e.pushed.getLast?, a + 1 = e.frontier
  keyed : ∀ c ∈ e.candidates.entries, c.2.seq = c.1
  pending : ∀ k ∈ e.candidates.keys, e.nextExecuteSeq ≤ k
  hand : e.HandOk
  drained : e.Drained
  seen : ∀ r ∈ e.received, r ∈ e.commitQueue.map Request.seq ∨ r ∈ e.candidates.keys ∨
    (∃ m ∈ e.pc.inHand, m.seq = r) ∨ r < e.frontier

theorem OrderInv.start : OrderInv .start := by
  refine ⟨?_, ?_, ?_, ?_, trivial, .inr ?_, ?_⟩ <;>
    simp [Executor.start, Executor.pushed, OrderedMap.keys, OrderedMap.empty]

variable {e : Executor}

theorem OrderInv.commit (he : OrderInv e) (isOutOfOrder : Bool) (m : Request) :
    OrderInv (e.commit isOutOfOrder m) := by
  refine ⟨he.chain, he.last, he.keyed, he.pending, he.hand, he.drained, ?_⟩
  intro r hr
  rcases List.mem_append.1 hr with hr | hr
  · rcases he.seen r hr with h | h
    · exact .inl (by simp [Executor.commit, List.mem_map.1 h])
    · exact .inr h
  · exact .inl (by simp [Executor.commit, List.mem_singleton.1 hr])

theorem OrderInv.stop (he : OrderInv e) : OrderInv { e with stop := true } := by
  refine ⟨he.chain, he.last, he.keyed, he.pending, he.hand, ?_, he.seen⟩
  have hd := he.drained
  unfold Executor.Drained at hd ⊢
  cases hpc : e.pc <;> simp_all

theorem OrderInv.setPendingExecutedSeq (he : OrderInv e) {seq : Int32}
    (h : SteadySeq e (.setPendingExecutedSeq seq)) : OrderInv (e.setPendingExecutedSeq seq) := by
  rcases h with h | ⟨hq, hbusy, hle, hlt⟩
  · have heq : e.setPendingExecutedSeq seq = e := by
      unfold Executor.setPendingExecutedSeq
      rw [h]
    rwa [heq]
  · have hnot : Executor.toUint64 seq ∉ e.candidates.keys := fun hk => lt_irrefl _ (hlt _ hk)
    refine ⟨he.chain, ?_, he.keyed, fun k hk => (hlt k hk).le, ?_, ?_, ?_⟩
    · simp [Executor.setPendingExecutedSeq, Executor.pushed, hq]
    · unfold Executor.HandOk Executor.setPendingExecutedSeq
      cases hpc : e.pc <;> simp_all [Pc.Busy]
    · unfold Executor.Drained Executor.setPendingExecutedSeq
      cases hpc : e.pc <;> simp_all
    · intro r hr
      rcases he.seen r hr with h | h | h | h
      · exact .inl h
      · exact .inr (.inl h)
      · exact .inr (.inr (.inl h))
      · refine .inr (.inr (.inr ?_))
        unfold Executor.frontier Executor.setPendingExecutedSeq at *
        cases hpc : e.pc <;> simp_all <;> omega

variable {m : Request} {candidates : OrderedMap ℕ Request}

/-- Only the first candidate is taken, and only in its turn. -/
theorem getNextData_begin (h : e.getNextData = some (m, candidates)) :
    e.candidates.begin = some (e.nextExecuteSeq, m) ∧ candidates = e.candidates.eraseBegin := by
  unfold Executor.getNextData at h
  split at h
  case h_1 => cases h
  case h_2 key message hbegin =>
    split_ifs at h with hkey
    cases h
    rw [not_not] at hkey
    rw [hbegin, hkey]
    exact ⟨rfl, rfl⟩

theorem getNextData_some (he : OrderInv e) (h : e.getNextData = some (m, candidates)) :
    m.seq = e.nextExecuteSeq ∧ candidates = e.candidates.eraseBegin ∧
      e.candidates.begin = some (e.nextExecuteSeq, m) := by
  obtain ⟨hbegin, hcandidates⟩ := getNextData_begin h
  exact ⟨he.keyed _ (List.mem_of_mem_head? hbegin), hcandidates, hbegin⟩

/-- `GetNextData` returns nothing only if the next number is not in the buffer: no smaller number
hides it. -/
theorem getNextData_none (he : OrderInv e) (h : e.getNextData = none) :
    e.nextExecuteSeq ∉ e.candidates.keys := by
  intro hmem
  unfold Executor.getNextData at h
  split at h
  · rename_i hb
    rw [OrderedMap.keys_of_begin_none hb] at hmem
    cases hmem
  · rename_i key message hb
    split at h
    · rename_i hkey
      have hge := he.pending key ((OrderedMap.mem_keys_of_begin hb).2 (.inl rfl))
      have hle := OrderedMap.begin_le hb hmem
      exact hkey (le_antisymm hle hge)
    · cases h

theorem frontier_eq (h : e.pc ≠ .inc) : e.frontier = e.nextExecuteSeq := by
  unfold Executor.frontier
  split
  · exact absurd ‹_› h
  · rfl

variable {e' : Executor}

/-- A step pushes the message in hand, or leaves the queue alone. -/
theorem Executor.orderMessage_cases (hok : SteadySeq e .order) (h : e.orderMessage = some e') :
    (∃ message, e.pc = .push message ∧
        e' = { e with executeQueue := e.executeQueue ++ [message], pc := .inc }) ∨
      e'.executeQueue = e.executeQueue ∧ e'.frontier = e.frontier ∧
        e.nextExecuteSeq ≤ e'.nextExecuteSeq := by
  unfold orderMessage at h
  split at h
  case h_1 hpc | h_4 hpc =>
    cases h
    refine .inr ⟨rfl, ?_, le_rfl⟩
    rw [frontier, frontier, hpc]
    split_ifs <;> rfl
  case h_2 hpc | h_3 hpc =>
    split at h <;> cases h <;> exact .inr ⟨rfl, by rw [frontier, frontier, hpc], le_rfl⟩
  case h_5 hpc =>
    cases h
    refine .inr ⟨rfl, ?_, le_rfl⟩
    rw [frontier, frontier, hpc]
    rfl
  case h_6 hpc =>
    split_ifs at h
    · cases h
      exact .inr ⟨rfl, by rw [frontier, frontier, hpc], le_rfl⟩
    · split at h <;> cases h <;> exact .inr ⟨rfl, by rw [frontier, frontier, hpc], le_rfl⟩
  case h_7 message hpc =>
    cases h
    exact .inl ⟨message, hpc, rfl⟩
  case h_8 hpc =>
    cases h
    have hmod := Nat.mod_eq_of_lt (hok hpc)
    refine .inr ⟨rfl, ?_, (Nat.le_succ _).trans hmod.ge⟩
    rw [frontier, frontier, hpc]
    exact hmod
  case h_9 => cases h

theorem Executor.nextExecuteSeq_le (hok : SteadySeq e .order)
    (h : e.orderMessage = some e') : e.nextExecuteSeq ≤ e'.nextExecuteSeq := by
  obtain ⟨message, _, rfl⟩ | ⟨_, _, hle⟩ := orderMessage_cases hok h
  · exact le_rfl
  · exact hle

section

variable (he : OrderInv e)
include he

theorem OrderInv.move (queue : List Request) (pc : Pc) (h : e.pc ≠ .inc) (h' : pc ≠ .inc)
    (hhand : ({ e with commitQueue := queue, pc := pc } : Executor).HandOk)
    (hdrained : ({ e with commitQueue := queue, pc := pc } : Executor).Drained)
    (hseen : ∀ r, r ∈ e.commitQueue.map Request.seq ∨ (∃ m ∈ e.pc.inHand, m.seq = r) →
      r ∈ queue.map Request.seq ∨ (∃ m ∈ pc.inHand, m.seq = r) ∨ r < e.nextExecuteSeq) :
    OrderInv { e with commitQueue := queue, pc := pc } := by
  have hf : ({ e with commitQueue := queue, pc := pc } : Executor).frontier = e.frontier :=
    (frontier_eq h').trans (frontier_eq h).symm
  refine ⟨he.chain, ?_, he.keyed, he.pending, hhand, hdrained, ?_⟩
  · rw [hf]
    exact he.last
  · intro r hr
    rw [hf]
    rw [← frontier_eq h] at hseen
    rcases he.seen r hr with h₀ | h₀ | h₀ | h₀
    · rcases hseen r (.inl h₀) with h₁ | h₁
      · exact .inl h₁
      · exact .inr (.inr h₁)
    · exact .inr (.inl h₀)
    · rcases hseen r (.inr h₀) with h₁ | h₁
      · exact .inl h₁
      · exact .inr (.inr h₁)
    · exact .inr (.inr (.inr h₀))

theorem OrderInv.goto (pc : Pc) (h : e.pc ≠ .inc)
    (hnone : e.pc.inHand = none) (h' : pc ≠ .inc) (hhand : ({ e with pc := pc } : Executor).HandOk)
    (hdrained : ({ e with pc := pc } : Executor).Drained) : OrderInv { e with pc := pc } := by
  refine he.move e.commitQueue pc h h' hhand hdrained ?_
  intro r hr
  rw [hnone] at hr
  exact .inl (hr.resolve_right (by simp))

theorem OrderInv.take {queue : List Request}
    (hpc : e.pc ≠ .inc) (hhand : e.pc.inHand = none) (hq : e.commitQueue = m :: queue)
    (hd : e.nextExecuteSeq ∉ e.candidates.keys) :
    OrderInv { e with commitQueue := queue, pc := .check m } := by
  refine he.move queue (.check m) hpc (by simp) trivial hd ?_
  intro r hr
  simp only [Pc.inHand]
  grind

/-- A message becomes a candidate. -/
theorem OrderInv.add (hpc : e.pc = .add m) : OrderInv { e.addNewData m with pc := .drain } := by
  have hf := frontier_eq (e := e) (by simp [hpc])
  have hhand := he.hand
  simp only [Executor.HandOk, hpc] at hhand
  refine ⟨he.chain, ?_, ?_, ?_, trivial, trivial, ?_⟩
  · exact fun a ha => (he.last a ha).trans hf
  · intro c hc
    rcases OrderedMap.mem_insert hc with rfl | hc
    · rfl
    · exact he.keyed c hc
  · intro k hk
    rcases (OrderedMap.mem_keys_insert _ _ _).1 hk with rfl | hk
    · exact hhand
    · exact he.pending k hk
  · intro r hr
    have h₀ := he.seen r hr
    simp only [hpc, hf, Pc.inHand] at h₀
    simp only [Executor.addNewData, OrderedMap.mem_keys_insert, Executor.frontier, Pc.inHand]
    grind

theorem OrderInv.fetch (hpc : e.pc = .drain) (hnext : e.getNextData = some (m, candidates)) :
    OrderInv { e with candidates := candidates, pc := .push m } := by
  have hf := frontier_eq (e := e) (by simp [hpc])
  obtain ⟨hm, rfl, hb⟩ := getNextData_some he hnext
  have hlt := fun k => OrderedMap.begin_lt_of_mem_eraseBegin hb (k := k)
  refine ⟨he.chain, ?_, ?_, ?_, hm, ?_, ?_⟩
  · exact fun a ha => (he.last a ha).trans hf
  · exact fun c hc => he.keyed c (List.mem_of_mem_tail hc)
  · exact fun k hk => (hlt k hk).le
  · exact fun hk => lt_irrefl _ (hlt _ hk)
  · intro r hr
    have h₀ := he.seen r hr
    rw [OrderedMap.mem_keys_of_begin hb] at h₀
    simp only [hpc, hf, Pc.inHand] at h₀
    simp only [Executor.frontier, Pc.inHand]
    grind

/-- The message in hand is the next one. -/
theorem OrderInv.push (hpc : e.pc = .push m) :
    OrderInv { e with executeQueue := e.executeQueue ++ [m], pc := .inc } := by
  have hf := frontier_eq (e := e) (by simp [hpc])
  have hhand := he.hand
  have hdrained := he.drained
  simp only [Executor.HandOk, Executor.Drained, hpc] at hhand hdrained
  refine ⟨?_, ?_, he.keyed, he.pending, trivial, hdrained, ?_⟩
  · simp only [Executor.pushed, List.map_append]
    refine List.isChain_append.2 ⟨he.chain, by simp, ?_⟩
    intro a ha b hb
    obtain rfl : m.seq = b := by simpa using hb
    rw [hhand, he.last a ha, hf]
  · intro a ha
    obtain rfl : m.seq = a := by simpa [Executor.pushed] using ha
    simp [Executor.frontier, hhand]
  · intro r hr
    have h₀ := he.seen r hr
    simp only [hpc, hf, Pc.inHand] at h₀
    simp only [Executor.frontier, Pc.inHand]
    grind

theorem OrderInv.inc (hpc : e.pc = .inc) :
    OrderInv { e with nextExecuteSeq := e.nextExecuteSeq + 1, pc := .drain } := by
  have hf : e.frontier = e.nextExecuteSeq + 1 := by simp [Executor.frontier, hpc]
  have hdrained := he.drained
  simp only [Executor.Drained, hpc] at hdrained
  refine ⟨he.chain, ?_, he.keyed, ?_, trivial, trivial, ?_⟩
  · exact fun a ha => (he.last a ha).trans hf
  · intro k hk
    have hle := he.pending k hk
    have hne : k ≠ e.nextExecuteSeq := fun h => hdrained (h ▸ hk)
    change e.nextExecuteSeq + 1 ≤ k
    omega
  · intro r hr
    have h₀ := he.seen r hr
    simp only [hpc, hf, Pc.inHand] at h₀
    simp only [Executor.frontier, Pc.inHand]
    grind

/-- **One step of the thread keeps the invariant.** -/
theorem OrderInv.orderMessage
    (hwrap : SteadySeq e .order) (h : e.orderMessage = some e') : OrderInv e' := by
  have hd := he.drained
  unfold Executor.Drained at hd
  unfold Executor.orderMessage at h
  cases hpc : e.pc with
  | loop =>
    simp only [hpc, Option.some.injEq] at h hd
    subst h
    split_ifs with hs
    · exact he.goto .done (by simp [hpc]) (by simp [hpc, Pc.inHand]) (by simp) trivial trivial
    · exact he.goto .pop (by simp [hpc]) (by simp [hpc, Pc.inHand]) (by simp) trivial
        (hd.resolve_left hs)
  | pop =>
    simp only [hpc] at h hd
    split at h
    · cases h
      exact he.goto .wait (by simp [hpc]) (by simp [hpc, Pc.inHand]) (by simp) trivial hd
    · rename_i m queue hq
      cases h
      exact he.take (by simp [hpc]) (by simp [hpc, Pc.inHand]) hq hd
  | wait =>
    simp only [hpc] at h hd
    split at h
    · cases h
      exact he.goto .drain (by simp [hpc]) (by simp [hpc, Pc.inHand]) (by simp) trivial trivial
    · rename_i m queue hq
      cases h
      exact he.take (by simp [hpc]) (by simp [hpc, Pc.inHand]) hq hd
  | check m =>
    simp only [hpc, Option.some.injEq] at h hd
    subst h
    by_cases hlt : m.seq < e.nextExecuteSeq
    · -- dropped as stale: its number is below the counter
      rw [if_pos hlt]
      refine he.move e.commitQueue .loop (by simp [hpc]) (by simp) trivial (.inr hd) ?_
      simp only [hpc, Pc.inHand]
      grind
    · rw [if_neg hlt]
      refine he.move e.commitQueue (.add m) (by simp [hpc]) (by simp) (not_lt.1 hlt) trivial ?_
      simp only [hpc, Pc.inHand]
      grind
  | add m =>
    simp only [hpc, Option.some.injEq] at h
    subst h
    exact he.add hpc
  | drain =>
    simp only [hpc] at h
    split_ifs at h with hs
    · cases h
      exact he.goto .loop (by simp [hpc]) (by simp [hpc, Pc.inHand]) (by simp) trivial
        (.inl hs)
    · split at h
      · rename_i hnext
        have hnot := getNextData_none he hnext
        cases h
        exact he.goto .loop (by simp [hpc]) (by simp [hpc, Pc.inHand]) (by simp) trivial
          (.inr hnot)
      · rename_i m candidates hnext
        cases h
        exact he.fetch hpc hnext
  | push m =>
    simp only [hpc, Option.some.injEq] at h
    subst h
    exact he.push hpc
  | inc =>
    simp only [hpc, Option.some.injEq] at h
    subst h
    rw [Nat.mod_eq_of_lt (hwrap hpc)]
    exact he.inc hpc
  | done =>
    simp [hpc] at h

end

/-- Every request that the executor holds or has pushed has the property. -/
structure Executor.All (P : Request → Prop) (e : Executor) : Prop where
  commitQueue : ∀ q ∈ e.commitQueue, P q
  candidates : ∀ c ∈ e.candidates.entries, P c.2
  hand : ∀ q ∈ e.pc.inHand, P q
  executeQueue : ∀ q ∈ e.executeQueue, P q

variable {P : Request → Prop}

theorem Executor.All.commit (h : e.All P) (isOutOfOrder : Bool)
    {q : Request} (hq : P q) : (e.commit isOutOfOrder q).All P := by
  refine ⟨?_, h.candidates, h.hand, h.executeQueue⟩
  intro q' hq'
  obtain hq' | hq' := List.mem_append.1 hq'
  · exact h.commitQueue q' hq'
  · rw [List.mem_singleton.1 hq']
    exact hq

theorem Executor.All.goto (h : e.All P) {pc : Pc} (hpc : pc.inHand = none) :
    ({ e with pc := pc } : Executor).All P := by
  refine ⟨h.commitQueue, h.candidates, ?_, h.executeQueue⟩
  rw [hpc]
  rintro q ⟨⟩

theorem Executor.All.take (h : e.All P) {queue : List Request} (hqueue : e.commitQueue = m :: queue) :
    ({ e with commitQueue := queue, pc := .check m } : Executor).All P := by
  have hall := h.commitQueue
  rw [hqueue] at hall
  refine ⟨fun q hq => hall q (List.mem_cons_of_mem _ hq), h.candidates, ?_, h.executeQueue⟩
  rintro q ⟨⟩
  exact hall _ List.mem_cons_self

theorem Executor.All.orderMessage (h : e.All P) (hs : e.orderMessage = some e') : e'.All P := by
  have hhand := h.hand
  unfold Executor.orderMessage at hs
  split at hs
  case h_1 =>
    cases hs
    exact h.goto (by split_ifs <;> rfl)
  case h_2 | h_3 =>
    split at hs <;> cases hs
    · exact h.goto rfl
    · next hqueue => exact h.take hqueue
  case h_4 message hpc =>
    cases hs
    split_ifs
    · exact h.goto rfl
    · rw [hpc] at hhand
      exact ⟨h.commitQueue, h.candidates, hhand, h.executeQueue⟩
  case h_5 message hpc =>
    cases hs
    rw [hpc] at hhand
    refine ⟨h.commitQueue, ?_, (by rintro q ⟨⟩), h.executeQueue⟩
    intro c hc
    obtain rfl | hc := OrderedMap.mem_insert hc
    · exact hhand message rfl
    · exact h.candidates c hc
  case h_6 =>
    split_ifs at hs
    · cases hs
      exact h.goto rfl
    · split at hs
      · cases hs
        exact h.goto rfl
      · rename_i message candidates hnext
        cases hs
        obtain ⟨hbegin, rfl⟩ := getNextData_begin hnext
        refine ⟨h.commitQueue, fun c hc => h.candidates c (List.mem_of_mem_tail hc), ?_,
          h.executeQueue⟩
        rintro q ⟨⟩
        exact h.candidates _ (List.mem_of_mem_head? hbegin)
  case h_7 message hpc =>
    cases hs
    rw [hpc] at hhand
    refine ⟨h.commitQueue, h.candidates, (by rintro q ⟨⟩), ?_⟩
    intro q hq
    obtain hq | hq := List.mem_append.1 hq
    · exact h.executeQueue q hq
    · rw [List.mem_singleton.1 hq]
      exact hhand message rfl
  case h_8 =>
    cases hs
    exact ⟨h.commitQueue, h.candidates, (by rintro q ⟨⟩), h.executeQueue⟩
  case h_9 => cases hs

/-! ### The main result -/

/-- The invariant gives the property. -/
theorem OrderInv.ordered (he : OrderInv e) : Ordered e := by
  refine ⟨?_, he.chain, ?_⟩
  · have hlt : e.pushed.IsChain (· < ·) := he.chain.imp fun a b h => by omega
    exact (List.isChain_iff_pairwise.1 hlt).imp fun h => h.ne
  · rintro ⟨hpc, hq⟩ hr
    have hd := he.drained
    simp only [Executor.Drained, hpc] at hd
    rcases he.seen _ hr with h | h | h | h
    · simp [hq] at h
    · exact absurd h hd
    · simp [hpc, Pc.inHand] at h
    · simp [Executor.frontier, hpc] at h

/-- **Ordered exactly-once execution.**  It holds in every run whose calls to
`SetPendingExecutedSeq` meet the condition. -/
theorem ordered_execution {isOutOfOrder : Bool} {e : Executor}
    (h : (executorSystem isOutOfOrder).Reachable SteadySeq e) : Ordered e := by
  refine OrderInv.ordered (h.invariant ?_ ?_)
  · rintro e rfl
    exact OrderInv.start
  · intro e a e' he hok hstep
    cases a with
    | commit m =>
      cases hstep
      exact he.commit isOutOfOrder m
    | setPendingExecutedSeq seq =>
      cases hstep
      exact he.setPendingExecutedSeq hok
    | stop =>
      cases hstep
      exact he.stop
    | order => exact he.orderMessage hok hstep

/-- A run of the executor from its constructor. -/
def executorAfter (actions : List Action) : Option Executor :=
  (executorSystem false).run .start actions

/-- Enough steps of the thread to take a message from `commit_queue_` to `execute_queue_`. -/
def pushNext : List Action := List.replicate 9 .order

/-- Requests 1 and 2 are pushed; `CheckStatus` resets the counter behind them; request 1 arrives
once more. -/
def resetRun : List Action :=
  .commit ⟨1, "a"⟩ :: pushNext ++ .commit ⟨2, "b"⟩ :: pushNext ++
    .setPendingExecutedSeq 1 :: .commit ⟨1, "a"⟩ :: pushNext

/-- The counter starts behind a checkpoint, and two requests arrive in the wrong order. -/
def steadyRun : List Action :=
  .setPendingExecutedSeq 5 :: .commit ⟨6, "b"⟩ :: pushNext ++ .commit ⟨5, "a"⟩ ::
    pushNext ++ pushNext

/-- The reset counter makes the executor push request 1 twice. -/
theorem ordered_execution_fails :
    ¬ ∀ (isOutOfOrder : Bool) (e : Executor),
      (executorSystem isOutOfOrder).Reachable TransitionSystem.always e → Ordered e := by
  intro h
  obtain ⟨e, he, hp⟩ : ∃ e, executorAfter resetRun = some e ∧ e.pushed = [1, 2, 1] :=
    ⟨_, rfl, by decide⟩
  have hc := h false e (TransitionSystem.reachable_of_run rfl he)
  have honce := hc.once
  rw [hp] at honce
  revert honce
  decide

theorem ordered_execution_steadyRun :
    ∃ e, executorAfter steadyRun = some e ∧ e.pushed = [5, 6] ∧ Ordered e := by
  refine ⟨_, rfl, by decide, ordered_execution (?_ : (executorSystem false).Reachable SteadySeq _)⟩
  exact (TransitionSystem.Reachable.init rfl).run steadyRun (by decide) rfl

end Execution
