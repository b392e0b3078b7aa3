/-
**From the executor to the checkpoint.**

`OrderMessage` pushes the committed requests, the threads of `ExecuteMessage` take and execute them, and
when a request is executed the callback of `MessageManager` hands it to `AddCommitData`, where the thread
of `UpdateCheckPointStatus` takes it in the order of the numbers.

`Execute` returns early on a request whose data is `RAFT_NO_OP`, and calls no callback: in PBFT, where the
primary chooses the data, the checkpoint thread then waits for a number that was executed
(`Execution.commit_data_once_fails`).

Main definitions:

* `Execution.Pipeline`, `Execution.pipelineSystem` — the executor with the checkpoint thread;
* `Execution.Plain` — the condition;
* `Execution.PipelineInv` — what holds between the steps.

Main results:

* `Execution.commit_data_once` — what is executed is handed to the checkpoint thread once, and the thread
  does not wait for it.
-/

import ResilientDb.ExecutionOrder
import ResilientDb.PbftCheckPointThread

set_option autoImplicit false

namespace Execution

open Request (seq)

/-- The executor, the requests that its threads hold, those that they are done with, and the checkpoint
thread.  `taken` counts the requests that were taken from `execute_queue_`, and `posted` lists the calls of
the callback. -/
structure Pipeline where
  executor : Executor
  taken : ℕ := 0
  held : List Request := []
  finished : List Request := []
  posted : List ℕ := []
  checkpoint : Pbft.CheckPointThread

/-- The number of threads, the transaction manager, and the checkpoint thread. -/
structure PipelineSetup where
  /-- `execute_thread_num_`. -/
  threads : ℕ
  isOutOfOrder : Bool
  thread : Pbft.ThreadSetup

/-- What can happen. -/
inductive PipelineAction
  /-- Someone commits a request, or `OrderMessage` takes a step. -/
  | executor (action : Action)
  /-- A thread of `ExecuteMessage` takes a request. -/
  | pop
  /-- The thread that holds this request is done with `Execute`. -/
  | execute (i : ℕ)
  | updateCheckPointStatus
  | addCommitState (seq : ℕ)
  | setLastCommit (seq : ℕ)

namespace Pipeline

/-- The callback of `MessageManager`.  It calls `AddCommitData` for every request, also for one of a
recovery. -/
def postExec (cfg : PipelineSetup) (s : Pipeline) (q : Request) : Option Pipeline :=
  (s.checkpoint.step cfg.thread
      (.addCommitData { seq := q.seq, data := q.data, hash := cfg.thread.hashOf q.seq })).map
    fun checkpoint => { s with posted := s.posted ++ [q.seq], checkpoint := checkpoint }

/-- `Execute`, from its first line to its last.  The threads execute in turn, but the result does not
depend on it. -/
def execute (cfg : PipelineSetup) (s : Pipeline) (i : ℕ) : Option Pipeline := do
  let q ← s.held[i]?
  let s := { s with held := s.held.eraseIdx i, finished := s.finished ++ [q] }
  if q.data = "RAFT_NO_OP" then some s else s.postExec cfg q

/-- One action. -/
def step (cfg : PipelineSetup) (s : Pipeline) : PipelineAction → Option Pipeline
  | .executor action =>
    (s.executor.step cfg.isOutOfOrder action).map fun executor => { s with executor := executor }
  | .pop => do
    guard (s.held.length < cfg.threads)
    let q ← s.executor.executeQueue[s.taken]?
    some { s with taken := s.taken + 1, held := s.held ++ [q] }
  | .execute i => s.execute cfg i
  | .updateCheckPointStatus =>
    (s.checkpoint.step cfg.thread .updateCheckPointStatus).map fun t => { s with checkpoint := t }
  | .addCommitState seq =>
    (s.checkpoint.step cfg.thread (.addCommitState seq)).map fun t => { s with checkpoint := t }
  | .setLastCommit seq =>
    (s.checkpoint.step cfg.thread (.setLastCommit seq)).map fun t => { s with checkpoint := t }

/-- A request that was executed is handed to the callback and to `AddCommitData` once, and the checkpoint
thread does not wait for it. -/
def Delivers (s : Pipeline) : Prop :=
  ∀ q ∈ s.finished, s.posted.count q.seq = 1 ∧
    (s.checkpoint.arrived.map Pbft.Request.seq).count q.seq = 1 ∧
    (s.checkpoint.next = none → q.seq ≠ s.checkpoint.replica.lastSeq + 1)

end Pipeline

/-- The runs. -/
def pipelineSystem (cfg : PipelineSetup) : TransitionSystem Pipeline PipelineAction where
  init s := ∃ t, (Pbft.threadSystem cfg.thread).init t ∧ s = { executor := .start, checkpoint := t }
  step := Pipeline.step cfg

/-- The condition: no request is a no-op of Raft, and the counters of the executor and of the checkpoint
thread are not moved by others. -/
def Plain (s : Pipeline) : PipelineAction → Prop
  | .executor (.commit q) => q.data ≠ "RAFT_NO_OP"
  | .executor action => SteadySeq s.executor action
  | .setLastCommit seq => Pbft.SetsCurrent s.checkpoint (.setLastCommit seq)
  | _ => True

instance (s : Pipeline) (a : PipelineAction) : Decidable (Plain s a) := by
  unfold Plain
  split <;> infer_instance

/-- What was taken is held or finished, and what is finished has arrived. -/
structure PipelineInv (cfg : PipelineSetup) (s : Pipeline) : Prop where
  order : OrderInv s.executor
  plain : s.executor.All fun q => q.data ≠ "RAFT_NO_OP"
  taken_le : s.taken ≤ s.executor.executeQueue.length
  perm : (s.held ++ s.finished).Perm (s.executor.executeQueue.take s.taken)
  posted : s.posted = s.finished.map seq
  arrived : s.checkpoint.arrived.map Pbft.Request.seq = s.finished.map seq
  chained : Pbft.Chained cfg.thread s.checkpoint

section

variable {cfg : PipelineSetup} {s s' : Pipeline}

section

variable (h : PipelineInv cfg s)
include h

/-- The executor goes on: what was taken from its queue is still there. -/
theorem PipelineInv.executor {e : Executor} (horder : OrderInv e)
    (hplain : e.All fun q => q.data ≠ "RAFT_NO_OP")
    (hqueue : ∃ rest, e.executeQueue = s.executor.executeQueue ++ rest) :
    PipelineInv cfg { s with executor := e } := by
  obtain ⟨rest, hqueue⟩ := hqueue
  have htaken : e.executeQueue.take s.taken = s.executor.executeQueue.take s.taken := by
    rw [hqueue, List.take_append_of_le_length h.taken_le]
  refine ⟨horder, hplain, ?_, htaken ▸ h.perm, h.posted, h.arrived, h.chained⟩
  rw [hqueue, List.length_append]
  exact h.taken_le.trans (Nat.le_add_right _ _)

theorem PipelineInv.checkpoint {t : Pbft.CheckPointThread}
    (hchained : Pbft.Chained cfg.thread t) (harrived : t.arrived = s.checkpoint.arrived) :
    PipelineInv cfg { s with checkpoint := t } :=
  ⟨h.order, h.plain, h.taken_le, h.perm, h.posted, harrived ▸ h.arrived, hchained⟩

theorem PipelineInv.executorStep {action : Action} {e : Executor}
    (hok : Plain s (.executor action)) (hs : s.executor.step cfg.isOutOfOrder action = some e) :
    PipelineInv cfg { s with executor := e } := by
  cases action with
  | commit q =>
    cases hs
    exact h.executor (h.order.commit _ q) (h.plain.commit _ hok) ⟨[], (List.append_nil _).symm⟩
  | setPendingExecutedSeq seq =>
    cases hs
    exact h.executor (h.order.setPendingExecutedSeq hok)
      ⟨h.plain.commitQueue, h.plain.candidates, h.plain.hand, h.plain.executeQueue⟩
      ⟨[], (List.append_nil _).symm⟩
  | stop =>
    cases hs
    exact h.executor h.order.stop
      ⟨h.plain.commitQueue, h.plain.candidates, h.plain.hand, h.plain.executeQueue⟩
      ⟨[], (List.append_nil _).symm⟩
  | order =>
    refine h.executor (h.order.orderMessage hok hs) (h.plain.orderMessage hs) ?_
    obtain ⟨message, -, rfl⟩ | ⟨hqueue, -, -⟩ := Executor.orderMessage_cases hok hs
    · exact ⟨[message], rfl⟩
    · exact ⟨[], by rw [hqueue, List.append_nil]⟩

theorem PipelineInv.pop (hs : s.step cfg .pop = some s') : PipelineInv cfg s' := by
  obtain ⟨-, -, hs⟩ := Option.bind_eq_some_iff.1 hs
  obtain ⟨q, hq, hs⟩ := Option.bind_eq_some_iff.1 hs
  cases hs
  refine ⟨h.order, h.plain, (List.getElem?_eq_some_iff.1 hq).1, ?_, h.posted, h.arrived, h.chained⟩
  rw [List.take_add_one, hq, List.append_assoc]
  refine (List.perm_middle.trans ?_).trans (List.perm_append_singleton _ _).symm
  exact h.perm.cons q

theorem PipelineInv.execute {i : ℕ} (hs : s.execute cfg i = some s') : PipelineInv cfg s' := by
  obtain ⟨q, hq, hs⟩ := Option.bind_eq_some_iff.1 hs
  obtain ⟨hi, rfl⟩ := List.getElem?_eq_some_iff.1 hq
  have hperm : (s.held.eraseIdx i ++ (s.finished ++ [s.held[i]])).Perm
      (s.executor.executeQueue.take s.taken) := by
    refine List.Perm.trans ?_ h.perm
    rw [← List.append_assoc]
    refine (List.perm_append_singleton _ _).trans ?_
    exact (List.getElem_cons_eraseIdx_perm hi).append_right s.finished
  have hplain : (s.held[i]).data ≠ "RAFT_NO_OP" :=
    h.plain.executeQueue _ (List.mem_of_mem_take (h.perm.subset
      (List.mem_append_left _ (List.getElem_mem hi))))
  rw [if_neg hplain] at hs
  obtain ⟨t, ht, rfl⟩ := Option.map_eq_some_iff.1 hs
  have hchained := h.chained.step (a := .addCommitData _) trivial ht
  obtain ⟨-, -, ht⟩ := Option.bind_eq_some_iff.1 ht
  cases ht
  refine ⟨h.order, h.plain, h.taken_le, hperm, ?_, ?_, hchained⟩
  · rw [List.map_append, ← h.posted]
    rfl
  · rw [List.map_append, List.map_append, h.arrived]
    rfl

/-- **Every step that meets the condition keeps the invariant.** -/
theorem PipelineInv.step {a : PipelineAction} (hok : Plain s a)
    (hs : s.step cfg a = some s') : PipelineInv cfg s' := by
  cases a with
  | executor action =>
    obtain ⟨e, he, rfl⟩ := Option.map_eq_some_iff.1 hs
    exact h.executorStep hok he
  | pop => exact h.pop hs
  | execute i => exact h.execute hs
  | updateCheckPointStatus =>
    obtain ⟨t, ht, rfl⟩ := Option.map_eq_some_iff.1 hs
    exact h.checkpoint (h.chained.update ht) (Pbft.update_arrived ht)
  | addCommitState seq =>
    have hchained := h.chained.step (a := .addCommitState seq) trivial rfl
    cases hs
    exact h.checkpoint hchained rfl
  | setLastCommit seq =>
    have hchained := h.chained.step (a := .setLastCommit seq) hok rfl
    cases hs
    exact h.checkpoint hchained rfl

end

/-- **What is executed reaches the checkpoint once**, in every run that meets the condition. -/
theorem commit_data_once (hs : (pipelineSystem cfg).Reachable Plain s) : s.Delivers := by
  have hinv : PipelineInv cfg s := by
    refine hs.invariant ?_ fun _ _ _ h hok hs => h.step hok hs
    rintro s ⟨t, ht, rfl⟩
    have hchained := Pbft.Chained.of_reachable (.init ht)
    obtain ⟨r, -, -, rfl⟩ := ht
    exact ⟨OrderInv.start, ⟨by simp [Executor.start], by simp [Executor.start, OrderedMap.empty],
      by simp [Executor.start, Pc.inHand], by simp [Executor.start]⟩, Nat.zero_le _, List.Perm.nil,
      rfl, rfl, hchained⟩
  have hnodup : (s.finished.map seq).Nodup := by
    have htaken : ((s.executor.executeQueue.take s.taken).map seq).Nodup :=
      hinv.order.ordered.once.sublist ((List.take_sublist _ _).map _)
    exact ((hinv.perm.map _).nodup_iff.2 htaken).sublist ((List.sublist_append_right _ _).map _)
  intro q hq
  have hmem : q.seq ∈ s.finished.map seq := List.mem_map_of_mem hq
  have hcount := List.count_eq_one_of_mem hnodup hmem
  refine ⟨by rw [hinv.posted, hcount], by rw [hinv.arrived, hcount], fun hnext hturn => ?_⟩
  rw [← hinv.arrived] at hmem
  obtain ⟨request, hrequest, hseq⟩ := List.mem_map.1 hmem
  obtain ⟨hchain, hkept⟩ := hinv.chained
  obtain ⟨hqueue, hbegin⟩ := Pbft.next_eq_none hnext
  rcases hkept request hrequest with hle | hwaits | hwaits
  · omega
  · rw [hqueue] at hwaits
    cases hwaits
  · exact hchain.next_notMem hbegin ((hseq.trans hturn) ▸ hwaits)

end

/-- Two threads. -/
def twoThreads : PipelineSetup := ⟨2, false, Pbft.plainThread⟩

/-- Two requests, the first of them with this data, and the second is executed first. -/
def twoRequests (data : String) : List PipelineAction :=
  .executor (.commit ⟨1, data⟩) :: pushNext.map .executor ++ .executor (.commit ⟨2, "b"⟩) ::
    pushNext.map .executor ++ [.pop, .pop, .execute 1, .execute 0, .updateCheckPointStatus]

theorem commit_data_once_twoRequests :
    ∃ s, (pipelineSystem twoThreads).Reachable Plain s ∧ s.finished.map seq = [2, 1] ∧
      s.Delivers := by
  obtain ⟨s, hreach, hend⟩ := (pipelineSystem twoThreads).exists_reachable
    (C := Plain) (P := fun s => s.finished.map seq = [2, 1])
    (s := ⟨.start, 0, [], [], [], Pbft.threadStart⟩) (twoRequests "a") ⟨_, ⟨_, rfl, rfl, rfl⟩, rfl⟩
    (by decide +kernel) (by decide +kernel)
  exact ⟨s, hreach, hend, commit_data_once hreach⟩

/-- With the data `RAFT_NO_OP` the first request is executed, and the checkpoint thread waits for it. -/
theorem commit_data_once_fails :
    ∃ s, (pipelineSystem twoThreads).Reachable TransitionSystem.always s ∧
      s.finished = [⟨2, "b"⟩, ⟨1, "RAFT_NO_OP"⟩] ∧ s.posted = [2] ∧
      s.checkpoint.next = none ∧ s.checkpoint.replica.lastSeq = 0 ∧ ¬ s.Delivers := by
  obtain ⟨s, hreach, hfinished, hposted, hnext, hlast⟩ :=
    (pipelineSystem twoThreads).exists_reachable_always
      (P := fun s => s.finished = [⟨2, "b"⟩, ⟨1, "RAFT_NO_OP"⟩] ∧ s.posted = [2] ∧
        s.checkpoint.next.isNone = true ∧ s.checkpoint.replica.lastSeq = 0)
      (s := ⟨.start, 0, [], [], [], Pbft.threadStart⟩) (twoRequests "RAFT_NO_OP")
      ⟨_, ⟨_, rfl, rfl, rfl⟩, rfl⟩ (by decide +kernel)
  rw [Option.isNone_iff_eq_none] at hnext
  refine ⟨s, hreach, hfinished, hposted, hnext, hlast, fun h => ?_⟩
  obtain ⟨hcount, -, -⟩ := h ⟨1, "RAFT_NO_OP"⟩ (by rw [hfinished]; simp)
  rw [hposted] at hcount
  cases hcount

end Execution
