/-
**The transaction feed of the proof-of-work miner.**

The miner takes its transactions from a PBFT cluster.  A thread asks the cluster for the transactions
behind `max_received_seq_` and pushes them to a queue; `ConsumeTransactions` pops a batch of them.  The
number of a transaction is its position: the consumer counts what it pops.

The fetching loop stores in `max_received_seq_` the number that comes after the last one it has
pushed, and asks for the number after that: the second answer it accepts leaves out one transaction,
and every later batch is shifted (`Pow.feed_gapless_fails`).

Main definitions:

* `Pow.TransactionAccessor` — the queue and the two positions;
* `Pow.TransactionAccessor.consumeTransactions` — `ConsumeTransactions`;
* `Pow.Feed`, `Pow.feedSystem` — the two threads, with what was taken and returned;
* `Pow.Feed.Gapless` — the property.

Main results:

* `Pow.feed_gapless` — the feed is gapless exactly as long as it has accepted at most one answer.
-/

import ResilientDb.Transition
import ResilientDb.Wire

set_option autoImplicit false

namespace Pow

open Wire (Bytes)

/-! ### The accessor -/

/-- `ClientTransactions`. -/
structure ClientTransactions where
  transactionData : Bytes
  seq : ℕ
  createTime : ℕ
deriving DecidableEq

/-- `BatchClientTransactions`. -/
structure BatchClientTransactions where
  transactions : List ClientTransactions
  minSeq : ℕ
  maxSeq : ℕ
deriving DecidableEq

/-- Where the loop of `TransactionFetching` is: about to ask the cluster, or pushing an answer. -/
inductive Fetching
  | idle
  | pushing (curSeq : ℕ) (rest : List (ℕ × Bytes))
deriving DecidableEq

/-- `TransactionAccessor`. -/
structure TransactionAccessor where
  maxReceivedSeq : ℕ
  queue : List ClientTransactions
  nextConsume : ℕ
  fetching : Fetching
deriving DecidableEq

namespace TransactionAccessor

/-- The constructor. -/
def start : TransactionAccessor := ⟨0, [], 1, .idle⟩

/-- The loop asks for the transactions from `cur_seq` on.  An error (`none`), an empty answer and an
answer that starts elsewhere are ignored.  The loop ends at ten million. -/
def fetch (a : TransactionAccessor) (ret : Option (List (ℕ × Bytes))) : Option TransactionAccessor :=
  match a.fetching with
  | .pushing _ _ => none
  | .idle =>
    let curSeq := a.maxReceivedSeq + 1
    if curSeq > 10000000 then none
    else
      match ret with
      | none => some a
      | some [] => some a
      | some (res :: rest) =>
        if res.1 ≠ curSeq then some a
        else some { a with fetching := .pushing curSeq (res :: rest) }

/-- The loop pushes a transaction of the answer. -/
def push (a : TransactionAccessor) (now : ℕ) : Option TransactionAccessor :=
  match a.fetching with
  | .pushing curSeq (res :: rest) =>
    some { a with
      queue := a.queue ++ [⟨res.2, curSeq, now⟩]
      fetching := .pushing (curSeq + 1) rest }
  | _ => none

/-- `max_received_seq_ = cur_seq`, when the answer has been pushed. -/
def publish (a : TransactionAccessor) : Option TransactionAccessor :=
  match a.fetching with
  | .pushing curSeq [] => some { a with maxReceivedSeq := curSeq, fetching := .idle }
  | _ => none

/-- `queue_.Pop()`, `k` times.  `none` is the null pointer that an empty queue gives and that the
caller dereferences. -/
def popMany : ℕ → List ClientTransactions → Option (List ClientTransactions × List ClientTransactions)
  | 0, queue => some ([], queue)
  | _ + 1, [] => none
  | k + 1, t :: queue => (popMany k queue).map fun (ts, rest) => (t :: ts, rest)

/-- `ConsumeTransactions`, with the batch it returns, if any.  The only consumer is the mining thread,
so its pops are one step. -/
def consumeTransactions (batchNum : ℕ) (a : TransactionAccessor) (seq : ℕ) :
    Option (Option BatchClientTransactions × TransactionAccessor) :=
  if (seq + batchNum) % 2 ^ 64 > a.maxReceivedSeq + 1 then some (none, a)
  else do
    let (_, queue) ← popMany (seq - a.nextConsume) a.queue
    let nextConsume := max seq a.nextConsume
    if seq ≠ nextConsume then some (none, { a with queue := queue, nextConsume := nextConsume })
    else
      let (transactions, queue) ← popMany batchNum queue
      some (some ⟨transactions, seq, seq + batchNum - 1⟩,
        { a with queue := queue, nextConsume := nextConsume + batchNum })

end TransactionAccessor

/-! ### The feed -/

/-- The accessor, the number of answers its loop has accepted with the numbers of their transactions,
and the batches returned so far, each with the number it was asked for. -/
structure Feed where
  accessor : TransactionAccessor
  fetches : ℕ
  taken : List ℕ
  returned : List (ℕ × BatchClientTransactions)
deriving DecidableEq

/-- The steps of the fetching thread, and a call of the consumer. -/
inductive FeedAction
  | fetch (ret : Option (List (ℕ × Bytes)))
  | push (now : ℕ)
  | publish
  | consume (seq : ℕ)

/-- One action. -/
def Feed.step (batchNum : ℕ) (s : Feed) : FeedAction → Option Feed
  | .fetch ret =>
    (s.accessor.fetch ret).map fun a =>
      if a.fetching = .idle then { s with accessor := a }
      else
        { s with
          accessor := a
          fetches := s.fetches + 1
          taken := s.taken ++ (ret.getD []).map Prod.fst }
  | .push now => (s.accessor.push now).map fun a => { s with accessor := a }
  | .publish => s.accessor.publish.map fun a => { s with accessor := a }
  | .consume seq =>
    (s.accessor.consumeTransactions batchNum seq).map fun (batch, a) =>
      { s with
        accessor := a
        returned := s.returned ++ (batch.toList.map fun b => (seq, b)) }

/-- The runs of the two threads. -/
def feedSystem (batchNum : ℕ) : TransitionSystem Feed FeedAction where
  init s := s = ⟨.start, 0, [], []⟩
  step := Feed.step batchNum

/-- The transactions that the cluster has at `n` numbers from `k` on. -/
def answer (log : ℕ → Bytes) (k n : ℕ) : List (ℕ × Bytes) := (List.range' k n).map fun j => (j, log j)

/-- The cluster answers with consecutive transactions of its log. -/
def Answers (log : ℕ → Bytes) (_ : Feed) : FeedAction → Prop
  | .fetch (some ret) => ∀ res ∈ ret.head?, ret = answer log res.1 ret.length
  | _ => True

/-- Every batch has the transactions with its numbers, in order and with their data, and the numbers of
the transactions taken from the cluster have no gap. -/
structure Feed.Gapless (log : ℕ → Bytes) (batchNum : ℕ) (s : Feed) : Prop where
  batches : ∀ r ∈ s.returned, r.2.minSeq = r.1 ∧ r.2.maxSeq + 1 = r.1 + batchNum ∧
    r.2.transactions.map (fun t => (t.seq, t.transactionData)) = answer log r.1 batchNum
  numbers : s.taken = List.range' 1 s.taken.length

/-! ### One answer -/

/-- A transaction with its number, without the time at which it was pushed. -/
def ClientTransactions.entry (t : ClientTransactions) : ℕ × Bytes := (t.seq, t.transactionData)

theorem answer_succ (log : ℕ → Bytes) (k n : ℕ) :
    answer log k (n + 1) = (k, log k) :: answer log (k + 1) n := by
  simp [answer, List.range'_succ]

theorem answer_add (log : ℕ → Bytes) (k m n : ℕ) :
    answer log k (m + n) = answer log k m ++ answer log (k + m) n := by
  rw [answer, answer, answer, ← List.map_append, List.range'_append_1]

@[simp] theorem length_answer (log : ℕ → Bytes) (k n : ℕ) : (answer log k n).length = n := by
  simp [answer]

variable {log : ℕ → Bytes}

theorem TransactionAccessor.popMany_eq : ∀ {k n first : ℕ}
    {queue ts rest : List ClientTransactions}, popMany k queue = some (ts, rest) →
      queue.map ClientTransactions.entry = answer log first n →
        k ≤ n ∧ ts.map ClientTransactions.entry = answer log first k ∧
          rest.map ClientTransactions.entry = answer log (first + k) (n - k)
  | 0, n, first, queue, ts, rest, h, hq => by
    cases h
    exact ⟨Nat.zero_le n, by simp [answer], by simpa using hq⟩
  | k + 1, n, first, [], ts, rest, h, hq => by cases h
  | k + 1, 0, first, t :: queue, ts, rest, h, hq => by simp [answer] at hq
  | k + 1, n + 1, first, t :: queue, ts, rest, h, hq => by
    obtain ⟨⟨ts', rest'⟩, hpop, heq⟩ := Option.map_eq_some_iff.1 h
    cases heq
    rw [answer_succ, List.map_cons, List.cons.injEq] at hq
    obtain ⟨hle, hts, hrest⟩ := popMany_eq hpop hq.2
    refine ⟨Nat.succ_le_succ hle, ?_, ?_⟩
    · rw [List.map_cons, hq.1, hts, answer_succ]
    · rw [hrest, Nat.add_sub_add_right]
      congr 1
      omega

/-- The queue holds the transactions from `next_consume_` to the last one that was pushed. -/
structure TransactionAccessor.Holds (log : ℕ → Bytes) (pushed : ℕ) (a : TransactionAccessor) :
    Prop where
  pos : 0 < a.nextConsume
  le : a.nextConsume ≤ pushed + 1
  queue : a.queue.map ClientTransactions.entry = answer log a.nextConsume (pushed + 1 - a.nextConsume)

theorem TransactionAccessor.Holds.consume {pushed batchNum seq : ℕ}
    {a a' : TransactionAccessor} {batch : Option BatchClientTransactions} (h : a.Holds log pushed)
    (hc : a.consumeTransactions batchNum seq = some (batch, a')) :
    a'.Holds log pushed ∧ a'.maxReceivedSeq = a.maxReceivedSeq ∧ a'.fetching = a.fetching ∧
      ∀ b ∈ batch, b.minSeq = seq ∧ b.maxSeq + 1 = seq + batchNum ∧
        b.transactions.map ClientTransactions.entry = answer log seq batchNum := by
  unfold consumeTransactions at hc
  split at hc
  · cases hc
    exact ⟨h, rfl, rfl, by simp⟩
  · simp only [bind, Option.bind_eq_some_iff] at hc
    obtain ⟨⟨dropped, queue⟩, hdrop, hc⟩ := hc
    obtain ⟨hle, -, hqueue⟩ := popMany_eq hdrop h.queue
    have hpos := h.pos
    have hbound := h.le
    -- the loop leaves the queue at the larger of the two positions
    have hnext : a.nextConsume + (seq - a.nextConsume) = max seq a.nextConsume := by omega
    have hrest : pushed + 1 - a.nextConsume - (seq - a.nextConsume) =
        pushed + 1 - max seq a.nextConsume := by omega
    rw [hnext, hrest] at hqueue
    split at hc
    · cases hc
      exact ⟨⟨lt_max_of_lt_right hpos, by simp only; omega, hqueue⟩, rfl, rfl, by simp⟩
    · rename_i hseq
      rw [not_ne_iff] at hseq
      obtain ⟨⟨transactions, queue'⟩, htake, hc⟩ := Option.bind_eq_some_iff.1 hc
      obtain ⟨hle', htransactions, hqueue'⟩ := popMany_eq htake hqueue
      cases hc
      refine ⟨⟨?_, ?_, ?_⟩, rfl, rfl, ?_⟩
      · simp only
        omega
      · simp only
        omega
      · simp only [hqueue']
        congr 1
        omega
      · intro b hb
        cases hb
        rw [← hseq] at htransactions
        exact ⟨rfl, by simp only; omega, htransactions⟩

/-- Where the loop is when the numbers taken so far are `1, …, n` and the first `pushed` of them are in
the queue. -/
def TransactionAccessor.Position (log : ℕ → Bytes) (n pushed : ℕ) (a : TransactionAccessor) : Prop :=
  match a.fetching with
  | .idle => pushed = n ∧ a.maxReceivedSeq = if n = 0 then 0 else n + 1
  | .pushing curSeq rest =>
    pushed ≤ n ∧ 0 < n ∧ curSeq = pushed + 1 ∧ rest = answer log curSeq (n - pushed)

/-- The feed with at most one accepted answer. -/
structure Feed.First (log : ℕ → Bytes) (batchNum n pushed : ℕ) (s : Feed) : Prop where
  position : s.accessor.Position log n pushed
  holds : s.accessor.Holds log pushed
  taken : s.taken = List.range' 1 n
  fetches : s.fetches = if n = 0 then 0 else 1
  batches : ∀ r ∈ s.returned, r.2.minSeq = r.1 ∧ r.2.maxSeq + 1 = r.1 + batchNum ∧
    r.2.transactions.map ClientTransactions.entry = answer log r.1 batchNum

/-- With the second accepted answer, a number is left out for good. -/
def Feed.Skipped (s : Feed) : Prop :=
  1 < s.fetches ∧ ∃ n later, 0 < n ∧ s.taken = List.range' 1 n ++ (n + 2) :: later

/-- At most one answer was accepted, or a number was skipped. -/
def FeedInv (log : ℕ → Bytes) (batchNum : ℕ) (s : Feed) : Prop :=
  (∃ n pushed, s.First log batchNum n pushed) ∨ s.Skipped

/-- An answer is accepted if it starts at the number asked for. -/
theorem TransactionAccessor.fetch_cases {a a' : TransactionAccessor}
    {ret : Option (List (ℕ × Bytes))} (h : a.fetch ret = some a') :
    a.fetching = .idle ∧ (a' = a ∨ ∃ res rest, ret = some (res :: rest) ∧
      res.1 = a.maxReceivedSeq + 1 ∧
        a' = { a with fetching := .pushing (a.maxReceivedSeq + 1) (res :: rest) }) := by
  unfold fetch at h
  split at h
  · cases h
  · rename_i hidle
    refine ⟨hidle, ?_⟩
    simp only at h
    split at h
    · cases h
    · split at h
      · exact .inl (Option.some.inj h).symm
      · exact .inl (Option.some.inj h).symm
      · rename_i res rest
        split at h
        · exact .inl (Option.some.inj h).symm
        · rename_i hres
          exact .inr ⟨res, rest, rfl, not_ne_iff.1 hres, (Option.some.inj h).symm⟩

section Steps

variable {log : ℕ → Bytes} {batchNum n pushed : ℕ} {s s' : Feed}

section

variable (hs : s.First log batchNum n pushed)
include hs

theorem Feed.First.fetch {ret : Option (List (ℕ × Bytes))}
    (hok : Answers log s (.fetch ret)) (h : s.step batchNum (.fetch ret) = some s') :
    FeedInv log batchNum s' := by
  obtain ⟨a, ha, rfl⟩ := Option.map_eq_some_iff.1 h
  obtain ⟨hidle, rfl | ⟨res, rest, rfl, hres, rfl⟩⟩ := TransactionAccessor.fetch_cases ha
  · rw [if_pos hidle]
    exact .inl ⟨n, pushed, hs⟩
  · have hret : res :: rest = answer log res.1 (rest.length + 1) := hok res rfl
    rw [if_neg (by simp)]
    have hpos := hs.position
    unfold TransactionAccessor.Position at hpos
    rw [hidle] at hpos
    obtain ⟨rfl, hmax⟩ := hpos
    rcases Nat.eq_zero_or_pos pushed with rfl | hn
    · -- the first answer: it starts at 1
      rw [if_pos rfl] at hmax
      rw [hres, hmax] at hret
      refine .inl ⟨rest.length + 1, 0, ?_, ⟨hs.holds.pos, hs.holds.le, hs.holds.queue⟩, ?_, ?_,
        hs.batches⟩
      · refine ⟨Nat.zero_le _, Nat.succ_pos _, by rw [hmax], ?_⟩
        rw [hmax]
        exact hret
      · simp only [hs.taken, hret]
        simp [answer, Function.comp_def]
      · simp [hs.fetches]
    · -- the second one starts two numbers behind the first
      have hne : pushed ≠ 0 := by omega
      rw [if_neg hne] at hmax
      refine .inr ⟨?_, pushed, rest.map Prod.fst, hn, ?_⟩
      · simp only [hs.fetches, if_neg hne]
        omega
      · simp only [hs.taken, Option.getD_some, List.map_cons, hres, hmax]

/-- A transaction of the first answer is pushed. -/
theorem Feed.First.push {now : ℕ}
    (h : s.step batchNum (.push now) = some s') : FeedInv log batchNum s' := by
  obtain ⟨a, ha, rfl⟩ := Option.map_eq_some_iff.1 h
  unfold TransactionAccessor.push at ha
  split at ha
  · rename_i curSeq res rest hpushing
    cases ha
    have hpos := hs.position
    unfold TransactionAccessor.Position at hpos
    rw [hpushing] at hpos
    obtain ⟨hle, hn, rfl, hrest⟩ := hpos
    obtain ⟨m, hm⟩ : ∃ m, n - pushed = m + 1 := by
      refine Nat.exists_eq_succ_of_ne_zero fun h0 => ?_
      rw [h0] at hrest
      simp [answer] at hrest
    rw [hm, answer_succ, List.cons.injEq] at hrest
    obtain ⟨rfl, hrest⟩ := hrest
    refine .inl ⟨n, pushed + 1, ?_, ?_, hs.taken, hs.fetches, hs.batches⟩
    · refine ⟨by omega, hn, rfl, ?_⟩
      rw [hrest]
      congr 1
      omega
    · have hbound := hs.holds.le
      refine ⟨hs.holds.pos, by simp only; omega, ?_⟩
      rw [List.map_append, hs.holds.queue, List.map_singleton, ClientTransactions.entry]
      obtain ⟨d, hd⟩ : ∃ d, s.accessor.nextConsume + d = pushed + 1 :=
        ⟨pushed + 1 - s.accessor.nextConsume, by omega⟩
      rw [show pushed + 1 - s.accessor.nextConsume = d by omega,
        show pushed + 1 + 1 - s.accessor.nextConsume = d + 1 by omega, answer_add, hd]
      simp [answer]
  · cases ha

theorem Feed.First.publish (h : s.step batchNum .publish = some s') : FeedInv log batchNum s' := by
  obtain ⟨a, ha, rfl⟩ := Option.map_eq_some_iff.1 h
  unfold TransactionAccessor.publish at ha
  split at ha
  · rename_i curSeq hpushing
    cases ha
    have hpos := hs.position
    unfold TransactionAccessor.Position at hpos
    rw [hpushing] at hpos
    obtain ⟨hle, hn, rfl, hrest⟩ := hpos
    have hlen := congrArg List.length hrest
    rw [length_answer, List.length_nil] at hlen
    obtain rfl : pushed = n := by omega
    refine .inl ⟨pushed, pushed, ⟨rfl, ?_⟩, ⟨hs.holds.pos, hs.holds.le, hs.holds.queue⟩, hs.taken,
      hs.fetches, hs.batches⟩
    rw [if_neg (by omega)]
  · cases ha

/-- A batch is taken from the queue. -/
theorem Feed.First.consume {seq : ℕ}
    (h : s.step batchNum (.consume seq) = some s') : FeedInv log batchNum s' := by
  obtain ⟨⟨batch, a⟩, ha, rfl⟩ := Option.map_eq_some_iff.1 h
  obtain ⟨hholds, hmax, hfetching, hbatch⟩ := hs.holds.consume ha
  refine .inl ⟨n, pushed, ?_, hholds, hs.taken, hs.fetches, ?_⟩
  · have hpos := hs.position
    unfold TransactionAccessor.Position at hpos ⊢
    rw [hfetching, hmax]
    exact hpos
  · intro r hr
    rcases List.mem_append.1 hr with hr | hr
    · exact hs.batches r hr
    · obtain ⟨b, hb, rfl⟩ := List.mem_map.1 hr
      exact hbatch b (Option.mem_toList.1 hb)

end

/-- A gap is not closed again. -/
theorem Feed.Skipped.step {a : FeedAction} (hs : s.Skipped) (h : s.step batchNum a = some s') :
    s'.Skipped := by
  cases a with
  | fetch ret =>
    obtain ⟨a, -, rfl⟩ := Option.map_eq_some_iff.1 h
    split
    · exact hs
    · obtain ⟨hfetches, n, later, hn, htaken⟩ := hs
      refine ⟨Nat.lt_succ_of_lt hfetches, n, later ++ (ret.getD []).map Prod.fst, hn, ?_⟩
      simp only [htaken, List.append_assoc, List.cons_append]
  | push now | publish | consume seq =>
    obtain ⟨a, -, rfl⟩ := Option.map_eq_some_iff.1 h
    exact hs

theorem FeedInv.step {a : FeedAction} (hs : FeedInv log batchNum s) (hok : Answers log s a)
    (h : s.step batchNum a = some s') : FeedInv log batchNum s' := by
  rcases hs with ⟨n, pushed, hs⟩ | hs
  · cases a with
    | fetch ret => exact hs.fetch hok h
    | push now => exact hs.push h
    | publish => exact hs.publish h
    | consume seq => exact hs.consume h
  · exact .inr (hs.step h)

end Steps

theorem Feed.Skipped.not_consecutive {s : Feed} (hs : s.Skipped) :
    s.taken ≠ List.range' 1 s.taken.length := by
  obtain ⟨-, n, later, -, htaken⟩ := hs
  intro h
  have hn : s.taken[n]? = some (n + 2) := by
    rw [htaken, List.getElem?_append_right (by simp)]
    simp
  have hlt := (List.getElem?_eq_some_iff.1 hn).1
  rw [h, List.getElem?_range' hlt] at hn
  have := Option.some.inj hn
  omega

/-- **The feed is gapless** exactly as long as the loop has accepted at most one answer of the
cluster. -/
theorem feed_gapless {batchNum : ℕ} {s : Feed}
    (hs : (feedSystem batchNum).Reachable (Answers log) s) :
    s.Gapless log batchNum ↔ s.fetches ≤ 1 := by
  have hinv : FeedInv log batchNum s := by
    refine hs.invariant ?_ fun s a s' hs hok h => hs.step hok h
    rintro s rfl
    exact .inl ⟨0, 0, ⟨rfl, rfl⟩, ⟨Nat.one_pos, le_rfl, rfl⟩, rfl, rfl, by simp⟩
  rcases hinv with ⟨n, pushed, hfirst⟩ | hskip
  · have hle : s.fetches ≤ 1 := by
      rw [hfirst.fetches]
      split <;> omega
    refine iff_of_true ⟨hfirst.batches, ?_⟩ hle
    rw [hfirst.taken, List.length_range']
  · refine iff_of_false (fun h => hskip.not_consecutive h.numbers) ?_
    have := hskip.1
    omega

/-- A log of the cluster whose transactions are their own numbers. -/
def countingLog (j : ℕ) : Bytes := [Fin.ofNat 256 j]

/-- The cluster has four transactions, which make up two batches. -/
def oneFetch : List FeedAction :=
  [.fetch (some (answer countingLog 1 4)), .push 0, .push 0, .push 0, .push 0, .publish, .consume 1,
    .consume 3]

/-- The cluster has two transactions when it is asked first, and two more when it is asked again. -/
def twoFetches : List FeedAction :=
  [.fetch (some (answer countingLog 1 2)), .push 0, .push 0, .publish, .consume 1,
    .fetch (some (answer countingLog 4 2)), .push 0, .push 0, .publish, .consume 2, .consume 3]

theorem feed_gapless_oneFetch :
    ∃ s, (feedSystem 2).run ⟨.start, 0, [], []⟩ oneFetch = some s ∧
      s.returned.map (fun r => (r.2.minSeq, r.2.transactions.length)) = [(1, 2), (3, 2)] ∧
      s.Gapless countingLog 2 := by
  refine ⟨_, rfl, by decide, (feed_gapless ?_).2 (by decide)⟩
  refine (TransitionSystem.Reachable.init rfl).run oneFetch ?_ rfl
  refine ⟨?_, trivial, trivial, trivial, trivial, trivial, trivial, trivial, trivial⟩
  intro res hres
  cases hres
  rfl

/-- The second answer starts at 4, and the batch for the number 3 has the transaction 4. -/
theorem feed_gapless_fails :
    ∃ s, (feedSystem 1).run ⟨.start, 0, [], []⟩ twoFetches = some s ∧ s.taken = [1, 2, 4, 5] ∧
      (3, ⟨[⟨countingLog 4, 4, 0⟩], 3, 3⟩) ∈ s.returned ∧ ¬ s.Gapless countingLog 1 := by
  refine ⟨_, rfl, by decide, by decide, fun h => ?_⟩
  have hnumbers := h.numbers
  revert hnumbers
  decide

end Pow
