/-
**The executor of a Raft replica gets every number.**

`PrepareCommitLocked` moves `last_committed_` to the commit index and returns the requests of the
entries it passes, numbered by their index; the handler passes them to `TransactionExecutor::Commit`
once it has released the lock.  The executor has a counter of its own, starts it at 1 and never skips a
number.  Nobody tells it when the cursor skips one: at an entry whose command does not parse, at the
installation of a snapshot, and at a restart behind a snapshot.

Main definitions:

* `Raft.Delivery` — the requests that handlers still hold, and the executor;
* `Raft.Process` — a replica with its executor, with restarts;
* `Raft.Gapless` — the condition: the cursor skips no number.

Main results:

* `Raft.Delivers.handle`, `Raft.Delivers.numbers` — a handler returns exactly the numbers that the
  cursor passes, if the commands parse;
* `Raft.gapless_delivery` — up to a number that was delivered, every number was, or a handler is about
  to deliver it;
* `Raft.Process.run_skipped` — a number that the cursor has skipped stays undelivered.
-/

import ResilientDb.RaftCommitIndex
import ResilientDb.ExecutionOrder

set_option autoImplicit false

namespace Raft

open Kv (MemoryDB Storage)
open Option (bind_eq_some_iff map_eq_some_iff)
open Execution (Executor SteadySeq)

/-! ### The numbers that a handler returns -/

/-- The command of an entry can be parsed. -/
def Config.Parses (cfg : Config) (e : Entry) : Prop :=
  e.command = "RAFT_NO_OP" ∨ (cfg.parseRequest e.command).isSome

instance (cfg : Config) (e : Entry) : Decidable (cfg.Parses e) :=
  inferInstanceAs (Decidable (_ ∨ _))

namespace Replica

variable {cfg : Config} {r r' : Replica}

theorem requestOf_seq {e : Entry} {k : ℕ} {q : Request} (h : requestOf cfg e k = some q) :
    q.seq = k := by
  unfold requestOf at h
  split at h
  · cases h
    rfl
  · obtain ⟨_, _, rfl⟩ := map_eq_some_iff.1 h
    rfl

theorem requestOf_parses {e : Entry} (h : cfg.Parses e) (k : ℕ) :
    ∃ q, requestOf cfg e k = some q := by
  unfold requestOf
  split
  case isTrue => exact ⟨_, rfl⟩
  case isFalse hne =>
    obtain ⟨q, hq⟩ := Option.isSome_iff_exists.1 (h.resolve_left hne)
    rw [hq]
    exact ⟨_, rfl⟩

theorem mem_tail_of_logEntryAt {i : ℕ} {e : Entry} (h : r.logEntryAt i = some e) :
    e ∈ r.log.tail := by
  obtain ⟨hlt, he⟩ := logEntryAt_eq_some.1 h
  obtain ⟨k, hk⟩ : ∃ k, i - r.truncatedLastIndex = k + 1 := ⟨i - r.truncatedLastIndex - 1, by omega⟩
  rw [hk, ← List.getElem?_tail] at he
  exact List.mem_of_getElem? he

/-- If all entries parse, every index gives a request. -/
theorem commitRequests_numbers (hparses : ∀ e ∈ r.log.tail, cfg.Parses e) (count : ℕ) :
    ∀ {index : ℕ} {requests : List Request}, commitRequests cfg r index count = some requests →
      requests.map Request.seq = List.range' (index + 1) count := by
  induction count with
  | zero =>
    intro index requests h
    cases h
    rfl
  | succ count ih =>
    intro index requests h
    simp only [commitRequests, bind, bind_eq_some_iff] at h
    obtain ⟨e, he, rest, hrest, h⟩ := h
    obtain ⟨q, hq⟩ := requestOf_parses (hparses e (mem_tail_of_logEntryAt he)) (index + 1)
    cases h
    rw [hq, Option.toList_some, List.singleton_append, List.map_cons, requestOf_seq hq, ih hrest,
      List.range'_succ]

/-- The requests handed over carry the numbers after the cursor, up to the new one. -/
theorem commitRequests_seq (count : ℕ) : ∀ {index : ℕ} {requests : List Request},
    commitRequests cfg r index count = some requests →
    ∀ q ∈ requests, index < q.seq ∧ q.seq ≤ index + count := by
  induction count with
  | zero =>
    intro index requests h q hq
    cases h
    cases hq
  | succ count ih =>
    intro index requests h q hq
    simp only [commitRequests, bind, bind_eq_some_iff] at h
    obtain ⟨e, _, rest, hrest, h⟩ := h
    cases h
    obtain hq | hq := List.mem_append.1 hq
    · rw [requestOf_seq (Option.mem_toList.1 hq)]
      omega
    · have hseq := ih hrest q hq
      omega

/-- The cursor stays, and every entry of the new log was there or was added. -/
structure Extends (r r' : Replica) (added : List Entry) : Prop where
  lastCommitted : r'.lastCommitted = r.lastCommitted
  log : ∀ e ∈ r'.log.tail, e ∈ r.log.tail ∨ e ∈ added

namespace Extends

variable {added : List Entry}

theorem of_eq (hlast : r'.lastCommitted = r.lastCommitted) (hlog : r'.log = r.log) :
    Extends r r' added := by
  refine ⟨hlast, ?_⟩
  rw [hlog]
  exact fun e he => .inl he

theorem of_sameLog (h : SameLog r r') : Extends r r' added := .of_eq h.lastCommitted h.log

theorem trans {r'' : Replica} (h : Extends r r' added) (h' : Extends r' r'' added) :
    Extends r r'' added := by
  refine ⟨h'.lastCommitted.trans h.lastCommitted, ?_⟩
  intro e he
  obtain he | he := h'.log e he
  · exact h.log e he
  · exact .inr he

theorem addToLog {entries : List Entry} (hentries : entries ⊆ added)
    (h : r.addToLog entries = some r') : Extends r r' added := by
  obtain rfl := addToLog_spec h
  refine ⟨rfl, ?_⟩
  intro e he
  cases hlog : r.log with
  | nil =>
    rw [hlog] at he
    exact .inr (hentries (List.mem_of_mem_tail he))
  | cons first rest =>
    rw [hlog] at he
    exact (List.mem_append.1 he).imp_right fun he => hentries he

/-- Cutting off adds no entry. -/
theorem truncateLog {firstIndex : ℕ} (h : r.truncateLog firstIndex = some r') :
    Extends r r' added := by
  obtain ⟨_, hle, rfl⟩ := truncateLog_cases h
  refine ⟨rfl, ?_⟩
  intro e he
  refine .inl (List.Sublist.mem he (List.Sublist.tail ?_))
  have hdrop : (r.log.drop (r.lastLogIndex - r.truncatedLastIndex + 1)).Sublist
      (r.log.drop (firstIndex - r.truncatedLastIndex)) :=
    List.drop_sublist_drop_left _ (by omega)
  have hsublist := (List.Sublist.refl (r.log.take (firstIndex - r.truncatedLastIndex))).append hdrop
  rwa [List.take_append_drop] at hsublist

theorem appendFrom {ae : AppendEntries} (h : r.appendFrom ae = some r') :
    Extends r r' ae.entries := by
  obtain ⟨r₁, rest, rfl | ⟨firstIndex, htruncate⟩, hrest, hadd⟩ := appendFrom_cases h
  · exact addToLog hrest hadd
  · exact (truncateLog htruncate).trans (addToLog hrest hadd)

end Extends

end Replica

open Replica

/-- What a handler does to the cursor: it leaves it alone and returns nothing, or it runs
`PrepareCommitLocked` after it has added entries to the log. -/
inductive Delivers (cfg : Config) (r : Replica) (added : List Entry) (o : Outcome) : Prop
  | nothing (happlied : o.applied = []) (hlast : o.replica.lastCommitted = r.lastCommitted)
  | commits (r₁ r₂ : Replica) (hextends : Extends r r₁ added)
      (hprepare : r₁.prepareCommit cfg = some (r₂, o.applied))
      (hlast : o.replica.lastCommitted = r₂.lastCommitted)

/-- The entries that come with a call. -/
def Call.entries : Call → List Entry
  | .receiveAppendEntries ae => ae.entries
  | _ => []

namespace Delivers

variable {cfg : Config} {r : Replica} {added : List Entry} {o : Outcome}

/-- A handler passes on consecutive numbers. -/
theorem numbers (h : Delivers cfg r added o) (hlog : ∀ e ∈ r.log.tail, cfg.Parses e)
    (hadded : ∀ e ∈ added, cfg.Parses e) :
    o.applied.map Request.seq = List.range' (r.lastCommitted + 1) o.applied.length ∧
      o.replica.lastCommitted = r.lastCommitted + o.applied.length := by
  cases h with
  | nothing happlied hlast =>
    rw [happlied, hlast]
    exact ⟨rfl, rfl⟩
  | commits r₁ r₂ hextends hprepare hlast =>
    simp only [Replica.prepareCommit, bind, bind_eq_some_iff] at hprepare
    obtain ⟨_, hrequests, hprepare⟩ := hprepare
    cases hprepare
    have hnumbers := commitRequests_numbers
      (fun e he => (hextends.log e he).elim (hlog e) (hadded e)) _ hrequests
    have hlength := congrArg List.length hnumbers
    rw [List.length_map, List.length_range'] at hlength
    rw [hnumbers, hlength, hlast, hextends.lastCommitted]
    refine ⟨rfl, ?_⟩
    dsimp only
    omega

/-- A handler passes on nothing twice. -/
theorem beyond (h : Delivers cfg r added o) : ∀ q ∈ o.applied, r.lastCommitted < q.seq := by
  cases h with
  | nothing happlied hlast =>
    rw [happlied]
    intro q hq
    cases hq
  | commits r₁ r₂ hextends hprepare hlast =>
    simp only [Replica.prepareCommit, bind, bind_eq_some_iff] at hprepare
    obtain ⟨requests, hrequests, hprepare⟩ := hprepare
    have happlied : requests = o.applied := (Prod.mk.inj (Option.some.inj hprepare)).2
    rw [hextends.lastCommitted, happlied] at hrequests
    exact fun q hq => (commitRequests_seq _ hrequests q hq).1

theorem of_sameLog (h : SameLog r o.replica ∧ o.applied = []) : Delivers cfg r added o :=
  nothing h.2 h.1.lastCommitted

theorem receiveAppendEntries {ae : AppendEntries} (h : r.receiveAppendEntries cfg ae = some o) :
    Delivers cfg r ae.entries o := by
  have hterm := acceptTerm_sameLog r ae
  cases receiveAppendEntries_branch h with
  | own _ => exact nothing rfl rfl
  | rejected _ _ _ => exact nothing rfl hterm.lastCommitted
  | accepted _ _ happend hprepare =>
    refine commits _ _ ?_ hprepare rfl
    rw [raiseCommitIndex_eq]
    exact ((Extends.of_sameLog hterm).trans (.appendFrom happend)).trans (.of_eq rfl rfl)

theorem receiveAppendEntriesResponse {aer : AppendEntriesResponse} {now : ℕ → ℕ}
    (h : r.receiveAppendEntriesResponse cfg aer now = some o) : Delivers cfg r added o := by
  cases receiveAppendEntriesResponse_branch h with
  | ignored _ hheeds => exact nothing rfl hheeds.sameLog.lastCommitted
  | stale hconsiders _ _ => exact nothing rfl hconsiders.keepsMatch.1.lastCommitted
  | success hconsiders _ _ hsuccess hmore =>
    -- the leader commits what a quorum has
    simp only [Replica.handleSuccess, bind, bind_eq_some_iff] at hsuccess
    obtain ⟨p, _, r₂, hadvance, hprepare⟩ := hsuccess
    have hextends : Extends r r₂ added := by
      refine (Extends.of_sameLog hconsiders.keepsMatch.1.toSameLog).trans ?_
      obtain rfl | ⟨_, _, _, _, rfl⟩ := advanceCommitIndex_cases hadvance <;>
        exact .of_eq rfl rfl
    exact commits _ _ hextends hprepare hmore.keepsMatch.lastCommitted
  | failure hconsiders _ hfailure hmore =>
    exact nothing rfl ((hconsiders.keepsMatch.1.trans
      (handleFailure_keepsMatch hfailure)).trans hmore.keepsMatch).lastCommitted

theorem receiveTransaction {serialized : String} {now : ℕ → ℕ} {index : Option ℕ}
    (h : r.receiveTransaction cfg serialized now = some (o, index)) : Delivers cfg r added o := by
  cases receiveTransaction_branch h with
  | redirected _ => exact nothing rfl rfl
  | appended _ hadd hannounce =>
    exact nothing rfl (hannounce.keepsMatch.lastCommitted.trans
      (Extends.addToLog (List.Subset.refl _) hadd).lastCommitted)

theorem receiveRequestVoteResponse {rvr : RequestVoteResponse}
    (h : r.receiveRequestVoteResponse cfg rvr = some o) : Delivers cfg r added o := by
  cases receiveRequestVoteResponse_branch h with
  | ignored hheeds => exact nothing rfl hheeds.sameLog.lastCommitted
  | counted _ _ _ _ => exact nothing rfl rfl
  | won _ _ _ _ _ hadd =>
    exact nothing rfl (Extends.addToLog (List.Subset.refl _) hadd).lastCommitted

theorem truncatePrefix {r' : Replica} {amount index : ℕ} {write : Bool}
    (h : r.truncatePrefix cfg amount index = some (r', write)) :
    Delivers cfg r added ⟨r', [], []⟩ := by
  obtain ⟨_, _, _, hlast, _⟩ := truncatePrefix_frame h
  exact nothing rfl hlast

/-- Every handler delivers. -/
theorem handle {snapshotBufferAmount : ℕ} {call : Call}
    (h : r.handle cfg snapshotBufferAmount call = some o) : Delivers cfg r call.entries o := by
  cases call with
  | receiveTransaction serialized now =>
    obtain ⟨⟨o, index⟩, ho, rfl⟩ := map_eq_some_iff.1 h
    exact receiveTransaction ho
  | finishTransaction myLogIndex =>
    cases h
    exact nothing rfl (finishTransaction_sameButView _ _).lastCommitted
  | receiveAppendEntries ae => exact receiveAppendEntries h
  | receiveAppendEntriesResponse aer now => exact receiveAppendEntriesResponse h
  | receiveRequestVote rv => exact .of_sameLog (receiveRequestVote_sameLog h)
  | receiveRequestVoteResponse rvr => exact receiveRequestVoteResponse h
  | startElection => exact .of_sameLog (startElection_sameLog h)
  | sendHeartbeat now => exact .of_sameLog ((sendHeartbeat_keepsMatch h).imp_left (·.toSameLog))
  | receiveInstallSnapshotResponse response =>
    obtain ⟨⟨o, offset⟩, ho, rfl⟩ := map_eq_some_iff.1 h
    exact .of_sameLog (receiveInstallSnapshotResponse_sameLog ho)
  | truncatePrefix snapshotIndex =>
    obtain ⟨⟨r', write⟩, hr, rfl⟩ := map_eq_some_iff.1 h
    exact truncatePrefix hr

end Delivers

/-! ### From the handlers to the executor -/

/-- What the executor sees of a request. -/
def Request.toExecution (q : Request) : Execution.Request := ⟨q.seq, q.data⟩

/-- The requests that handlers hold after they have released the lock, and the executor. -/
structure Delivery where
  handed : List (List Request)
  executor : Executor

namespace Delivery

/-- No handler is under way, and the executor is as constructed. -/
def start : Delivery := ⟨[], .start⟩

/-- A handler releases the lock with what `PrepareCommitLocked` has returned. -/
def hand (d : Delivery) (requests : List Request) : Delivery :=
  { d with handed := d.handed ++ [requests] }

/-- The handler `k` passes its next request through `CommitMsg` to the executor. -/
def commit (isOutOfOrder : Bool) (d : Delivery) (k : ℕ) : Option Delivery :=
  match d.handed[k]? with
  | some (q :: requests) =>
    some ⟨d.handed.set k requests, d.executor.commit isOutOfOrder q.toExecution⟩
  | _ => none

/-- A step of `OrderMessage`. -/
def order (d : Delivery) : Option Delivery :=
  d.executor.orderMessage.map fun e => { d with executor := e }

/-- A handler holds a request with this number. -/
def Held (d : Delivery) (n : ℕ) : Prop := ∃ requests ∈ d.handed, n ∈ requests.map Request.seq

instance (d : Delivery) (n : ℕ) : Decidable (d.Held n) :=
  inferInstanceAs (Decidable (∃ requests ∈ d.handed, _))

/-- The number was passed to `Commit`, or a handler is about to pass it. -/
def Passed (d : Delivery) (n : ℕ) : Prop := n ∈ d.executor.received ∨ d.Held n

instance (d : Delivery) (n : ℕ) : Decidable (d.Passed n) := inferInstanceAs (Decidable (_ ∨ _))

variable {d d' : Delivery}

theorem passed_hand {requests : List Request} {n : ℕ} :
    (d.hand requests).Passed n ↔ d.Passed n ∨ n ∈ requests.map Request.seq := by
  simp only [Passed, Held, hand, List.mem_append, List.mem_singleton, or_assoc]
  refine or_congr_right ?_
  constructor
  · rintro ⟨l, hl | rfl, hn⟩
    · exact .inl ⟨l, hl, hn⟩
    · exact .inr hn
  · rintro (⟨l, hl, hn⟩ | hn)
    · exact ⟨l, .inl hl, hn⟩
    · exact ⟨requests, .inr rfl, hn⟩

/-- The thread that holds requests passes the first of them to the executor. -/
theorem commit_cases {isOutOfOrder : Bool} {k : ℕ} (h : d.commit isOutOfOrder k = some d') :
    ∃ q requests, d.handed[k]? = some (q :: requests) ∧
      d' = ⟨d.handed.set k requests, d.executor.commit isOutOfOrder q.toExecution⟩ := by
  unfold commit at h
  split at h
  case h_1 q requests hk =>
    cases h
    exact ⟨q, requests, hk, rfl⟩
  case h_2 => cases h

theorem passed_commit {isOutOfOrder : Bool} {k n : ℕ} (h : d.commit isOutOfOrder k = some d') :
    d'.Passed n ↔ d.Passed n := by
  obtain ⟨q, requests, hk, rfl⟩ := commit_cases h
  have hmem := List.mem_of_getElem? hk
  constructor
  · rintro (hn | ⟨l, hl, hn⟩)
    · obtain hn | hn := List.mem_append.1 hn
      · exact .inl hn
      · rw [List.mem_singleton.1 hn]
        exact .inr ⟨_, hmem, List.mem_cons_self⟩
    · obtain hl | rfl := List.mem_or_eq_of_mem_set hl
      · exact .inr ⟨l, hl, hn⟩
      · exact .inr ⟨_, hmem, List.mem_cons_of_mem _ hn⟩
  · rintro (hn | ⟨l, hl, hn⟩)
    · exact .inl (List.mem_append_left _ hn)
    · obtain ⟨j, hj⟩ := List.mem_iff_getElem?.1 hl
      by_cases hjk : k = j
      · -- the handler that has moved on holds one request less
        subst hjk
        rw [hk] at hj
        cases hj
        obtain rfl | hn := List.mem_cons.1 hn
        · exact .inl (List.mem_append_right _ (List.mem_singleton.2 rfl))
        · have hset : (d.handed.set k requests)[k]? = some requests :=
            List.getElem?_set_self (List.getElem?_eq_some_iff.1 hk).1
          exact .inr ⟨requests, List.mem_of_getElem? hset, hn⟩
      · have hset : (d.handed.set k requests)[j]? = some l := (List.getElem?_set_ne hjk).trans hj
        exact .inr ⟨l, List.mem_of_getElem? hset, hn⟩

theorem passed_order {n : ℕ} (h : d.order = some d') : d'.Passed n ↔ d.Passed n := by
  obtain ⟨e, he, rfl⟩ := map_eq_some_iff.1 h
  rw [Passed, Passed, Executor.orderMessage_received he]
  rfl

end Delivery

/-! ### A replica and its executor -/

/-- A replica, its calls of `ReceiveInstallSnapshot`, and its executor. -/
structure Process (σ : Type) where
  server : Server σ
  delivery : Delivery

/-- What can happen to a process. -/
inductive ProcessAction (σ : Type)
  | handle (call : Call)
  | snapshot (a : SnapshotAction)
  /-- A handler passes a request to the executor. -/
  | commit (k : ℕ)
  /-- The thread `OrderMessage` takes a step. -/
  | order
  /-- The process crashes and starts again with what is on its disk. -/
  | restart (metadata : Metadata) (records : List WalRecord) (storage : σ)

section

variable {σ : Type}

/-- The replica. -/
def Process.replica (s : Process σ) : Replica := s.server.receiver.replica

/-- The process as constructed, without a past. -/
def Process.start (id : ℕ) (storage : σ) : Process σ := ⟨⟨.start id storage, []⟩, .start⟩

/-- The constructor of `Consensus` after a crash; descriptors are closed, and the executor counts from 1
again. -/
def Process.restart (s : Process σ) (metadata : Metadata) (records : List WalRecord) (storage : σ) :
    Option (Process σ) := do
  let replica ← (Replica.construct s.replica.id).recoverFromLogs metadata records
  let receiver := { s.server.receiver.reboot with
    replica := replica
    storage := storage
    metadata := metadata }
  some ⟨⟨receiver, []⟩, .start⟩

/-- One action. -/
def Process.step [Storage σ] (cfg : Config) (snapshotBufferAmount : ℕ) (isOutOfOrder : Bool)
    (s : Process σ) : ProcessAction σ → Option (Process σ)
  | .handle call =>
    (s.replica.handle cfg snapshotBufferAmount call).map fun o =>
      ⟨s.server.setReplica o.replica, s.delivery.hand o.applied⟩
  | .snapshot a => (s.server.snapshotStep a).map fun p => { s with server := p.1 }
  | .commit k => (s.delivery.commit isOutOfOrder k).map fun d => { s with delivery := d }
  | .order => s.delivery.order.map fun d => { s with delivery := d }
  | .restart metadata records storage => s.restart metadata records storage

/-- The runs of a process. -/
def processSystem (σ : Type) [Storage σ] (cfg : Config) (snapshotBufferAmount : ℕ)
    (isOutOfOrder : Bool) : TransitionSystem (Process σ) (ProcessAction σ) where
  init s := ∃ id storage, s = .start id storage
  step := Process.step cfg snapshotBufferAmount isOutOfOrder

/-- The condition: the commands in the log and in the messages parse, no snapshot that is installed
reaches beyond the cursor, and the process does not start behind a snapshot.  The counter of the
executor does not wrap. -/
def Gapless (cfg : Config) (s : Process σ) : ProcessAction σ → Prop
  | .handle call =>
    (∀ e ∈ s.replica.log.tail, cfg.Parses e) ∧ ∀ e ∈ call.entries, cfg.Parses e
  | .snapshot (.advance k _) => ∀ h ∈ s.server.handlers[k]?, h.stage.isInstall = true →
      h.message.lastIncludedIndex ≤ s.replica.lastCommitted
  | .order => SteadySeq s.delivery.executor .order
  | .restart metadata _ _ => metadata.snapshotLastIndex = 0
  | _ => True

instance (cfg : Config) (s : Process σ) (a : ProcessAction σ) : Decidable (Gapless cfg s a) := by
  unfold Gapless
  split <;> infer_instance

/-! ### No number is skipped -/

/-- Up to some number at or beyond the cursor, exactly the numbers from 1 on have left the replica. -/
structure DeliveryInv (s : Process σ) : Prop where
  next : 1 ≤ s.delivery.executor.nextExecuteSeq
  passed : ∃ top, s.replica.lastCommitted ≤ top ∧ ∀ n, s.delivery.Passed n ↔ 1 ≤ n ∧ n ≤ top

variable {cfg : Config} {snapshotBufferAmount : ℕ} {isOutOfOrder : Bool} {s s' : Process σ}

theorem DeliveryInv.fresh (hnext : s.delivery = .start) (h : s.replica.lastCommitted = 0) :
    DeliveryInv s := by
  refine ⟨?_, 0, h.le, ?_⟩
  · rw [hnext]
    exact le_rfl
  · intro n
    rw [hnext]
    constructor
    · rintro (hn | ⟨_, hn, _⟩) <;> cases hn
    · rintro ⟨hpos, hle⟩
      omega

theorem DeliveryInv.handle {o : Outcome} (hinv : DeliveryInv s)
    (hnumbers : o.applied.map Request.seq =
      List.range' (s.replica.lastCommitted + 1) o.applied.length)
    (hlast : o.replica.lastCommitted = s.replica.lastCommitted + o.applied.length) :
    DeliveryInv ⟨s.server.setReplica o.replica, s.delivery.hand o.applied⟩ := by
  obtain ⟨hnext, top, hle, hpassed⟩ := hinv
  refine ⟨hnext, max top o.replica.lastCommitted, le_max_right _ _, ?_⟩
  intro n
  rw [Delivery.passed_hand, hpassed n, hnumbers, List.mem_range'_1, le_max_iff]
  omega

theorem Server.snapshotStep_lastCommitted [Storage σ] {server server' : Server σ}
    {a : SnapshotAction} {response : Option InstallSnapshotResponse}
    (hs : server.snapshotStep a = some (server', response)) :
    server'.receiver.replica.lastCommitted = server.receiver.replica.lastCommitted ∨
      ∃ k io, a = .advance k io ∧ ∃ h ∈ server.handlers[k]?, h.stage.isInstall = true ∧
        server'.receiver.replica.lastCommitted = h.message.lastIncludedIndex := by
  obtain hsame | ⟨term, hdemoted⟩ | ⟨k, io, h, rfl, hk, hstage, hinstall⟩ :=
    Server.snapshotStep_replica hs
  · exact .inl (congrArg Replica.lastCommitted hsame)
  · rw [hdemoted]
    exact .inl (demoteSelf_sameLog _ _).lastCommitted
  · exact .inr ⟨k, io, rfl, h, hk, hstage, congrArg Replica.lastCommitted hinstall⟩

theorem Process.restart_lastCommitted {metadata : Metadata} {records : List WalRecord} {storage : σ}
    (hmetadata : metadata.snapshotLastIndex = 0)
    (hs : s.restart metadata records storage = some s') :
    s'.delivery = .start ∧ s'.replica.lastCommitted = 0 := by
  obtain ⟨replica, hrecover, hs⟩ := bind_eq_some_iff.1 hs
  cases hs
  obtain ⟨_, _, rfl⟩ := recoverFromLogs_frame hrecover
  exact ⟨rfl, hmetadata⟩

variable [Storage σ]

/-- Every step that meets the condition leaves no gap. -/
theorem DeliveryInv.step {a : ProcessAction σ} (hinv : DeliveryInv s) (hok : Gapless cfg s a)
    (hs : s.step cfg snapshotBufferAmount isOutOfOrder a = some s') : DeliveryInv s' := by
  cases a with
  | handle call =>
    obtain ⟨o, ho, rfl⟩ := map_eq_some_iff.1 hs
    obtain ⟨hnumbers, hlast⟩ := (Delivers.handle ho).numbers hok.1 hok.2
    exact hinv.handle hnumbers hlast
  | snapshot a =>
    obtain ⟨⟨server, response⟩, hstep, rfl⟩ := map_eq_some_iff.1 hs
    obtain ⟨hnext, top, hle, hpassed⟩ := hinv
    refine ⟨hnext, top, ?_, hpassed⟩
    obtain hsame | ⟨k, io, rfl, h, hk, hinstall, hlast⟩ := Server.snapshotStep_lastCommitted hstep
    · exact hsame.le.trans hle
    · exact (hlast.le.trans (hok h hk hinstall)).trans hle
  | commit k =>
    obtain ⟨d, hd, rfl⟩ := map_eq_some_iff.1 hs
    obtain ⟨hnext, top, hle, hpassed⟩ := hinv
    refine ⟨?_, top, hle, fun n => (Delivery.passed_commit hd).trans (hpassed n)⟩
    obtain ⟨_, _, _, rfl⟩ := Delivery.commit_cases hd
    exact hnext
  | order =>
    obtain ⟨d, hd, rfl⟩ := map_eq_some_iff.1 hs
    obtain ⟨hnext, top, hle, hpassed⟩ := hinv
    refine ⟨?_, top, hle, fun n => (Delivery.passed_order hd).trans (hpassed n)⟩
    obtain ⟨e, he, rfl⟩ := map_eq_some_iff.1 hd
    exact hnext.trans (Executor.nextExecuteSeq_le hok he)
  | restart metadata records storage =>
    obtain ⟨hdelivery, hlast⟩ := Process.restart_lastCommitted hok hs
    exact .fresh hdelivery hlast

/-- **The executor gets every number.**  In every run in which the cursor skips none, each number that
the executor still waits for, up to one that was delivered, was delivered or is held by a handler that
is about to deliver it. -/
theorem gapless_delivery
    (h : (processSystem σ cfg snapshotBufferAmount isOutOfOrder).Reachable (Gapless cfg) s) :
    ∀ m ∈ s.delivery.executor.received, ∀ n, s.delivery.executor.nextExecuteSeq ≤ n → n ≤ m →
      n ∈ s.delivery.executor.received ∨ s.delivery.Held n := by
  have hinv : DeliveryInv s := by
    refine h.invariant (I := DeliveryInv) ?_ ?_
    · rintro _ ⟨id, storage, rfl⟩
      exact .fresh rfl rfl
    · intro s a s' hinv hok hs
      exact hinv.step hok hs
  obtain ⟨hnext, top, _, hpassed⟩ := hinv
  intro m hm n hn hnm
  have htop := ((hpassed m).1 (.inl hm)).2
  exact (hpassed n).2 ⟨hnext.trans hn, hnm.trans htop⟩

/-! ### A number that was skipped -/

/-- The actions of a process that keeps running; snapshots are installed forward. -/
def Onward (s : Process σ) : ProcessAction σ → Prop
  | .snapshot a => InstallsForward s.server (.snapshot a)
  | .restart _ _ _ => False
  | _ => True

/-- The cursor is beyond the number, and it has not left the replica. -/
structure Skipped (s : Process σ) (n : ℕ) : Prop where
  wellFormed : s.replica.WellFormed
  le : n ≤ s.replica.lastCommitted
  missing : ¬ s.delivery.Passed n

omit [Storage σ] in
instance (s : Process σ) (n : ℕ) : Decidable (Skipped s n) :=
  decidable_of_iff (s.replica.WellFormed ∧ n ≤ s.replica.lastCommitted ∧ ¬ s.delivery.Passed n)
    ⟨fun h => ⟨h.1, h.2.1, h.2.2⟩, fun h => ⟨h.wellFormed, h.le, h.missing⟩⟩

/-- A number that was skipped stays skipped. -/
theorem Skipped.step {a : ProcessAction σ} {n : ℕ} (h : Skipped s n) (hok : Onward s a)
    (hs : s.step cfg snapshotBufferAmount isOutOfOrder a = some s') : Skipped s' n := by
  cases a with
  | handle call =>
    obtain ⟨o, ho, rfl⟩ := map_eq_some_iff.1 hs
    obtain ⟨hwf, hadvances⟩ := MovesOn.handle ho h.wellFormed
    refine ⟨hwf, h.le.trans hadvances.lastCommitted, ?_⟩
    rw [Delivery.passed_hand, not_or]
    refine ⟨h.missing, ?_⟩
    -- the numbers that the handler returns are beyond the cursor
    intro hn
    obtain ⟨q, hq, rfl⟩ := List.mem_map.1 hn
    exact absurd h.le (not_le.2 ((Delivers.handle ho).beyond q hq))
  | snapshot a =>
    obtain ⟨⟨server, response⟩, hstep, rfl⟩ := map_eq_some_iff.1 hs
    obtain ⟨hwf, hadvances⟩ := Server.snapshotStep_movesOn hok hstep h.wellFormed
    exact ⟨hwf, h.le.trans hadvances.lastCommitted, h.missing⟩
  | commit k =>
    obtain ⟨d, hd, rfl⟩ := map_eq_some_iff.1 hs
    exact ⟨h.wellFormed, h.le, mt (Delivery.passed_commit hd).1 h.missing⟩
  | order =>
    obtain ⟨d, hd, rfl⟩ := map_eq_some_iff.1 hs
    exact ⟨h.wellFormed, h.le, mt (Delivery.passed_order hd).1 h.missing⟩
  | restart metadata records storage => exact absurd hok id

/-- In a whole run, too. -/
theorem Process.run_skipped {n : ℕ} (actions : List (ProcessAction σ)) : ∀ {s s' : Process σ},
    Skipped s n → (processSystem σ cfg snapshotBufferAmount isOutOfOrder).Guarded Onward s actions →
    (processSystem σ cfg snapshotBufferAmount isOutOfOrder).run s actions = some s' →
    Skipped s' n := by
  induction actions with
  | nil =>
    intro s s' h _ hr
    cases hr
    exact h
  | cons a actions ih =>
    intro s s' h hg hr
    obtain ⟨s₁, hs₁, hr⟩ := bind_eq_some_iff.1 hr
    obtain ⟨hok, hg⟩ := hg
    rw [hs₁] at hg
    exact ih (h.step hok hs₁) hg hr

end

/-! ### Three ways to skip a number -/

/-- The parser rejects one command. -/
def oneUnparsable : Config :=
  { threeReplicas with
    parseRequest := fun command => if command = "?" then none else some ⟨command, "", 0⟩ }

/-- Entries behind a log that ends with an entry of term 1, all of them committed. -/
def committedEntries (prevLogIndex prevLogTerm : ℕ) (commands : List String) : AppendEntries where
  term := 1
  leaderId := 1
  prevLogIndex := prevLogIndex
  prevLogTerm := prevLogTerm
  entries := commands.map fun command => ⟨1, command⟩
  leaderCommitIndex := prevLogIndex + commands.length

/-- Two handlers commit an entry each, and the second one is faster. -/
def overtakingRun : List (ProcessAction MemoryDB) :=
  [.handle (.receiveAppendEntries (committedEntries 0 0 ["a"])),
    .handle (.receiveAppendEntries (committedEntries 1 1 ["b"])), .commit 1]

theorem gapless_delivery_overtakingRun :
    ∃ s, (processSystem MemoryDB oneUnparsable 0 false).Reachable (Gapless oneUnparsable) s ∧
      s.delivery.executor.received = [2] ∧ s.delivery.executor.nextExecuteSeq = 1 ∧
      (1 ∈ s.delivery.executor.received ∨ s.delivery.Held 1) := by
  obtain ⟨s, hreach, hreceived, hnext⟩ :=
    (processSystem MemoryDB oneUnparsable 0 false).exists_reachable (C := Gapless oneUnparsable)
      (P := fun s => s.delivery.executor.received = [2] ∧ s.delivery.executor.nextExecuteSeq = 1)
      (s := .start 2 {}) overtakingRun ⟨2, {}, rfl⟩ (by decide +kernel) (by decide +kernel)
  refine ⟨s, hreach, hreceived, hnext, gapless_delivery hreach 2 ?_ 1 hnext.le (by decide)⟩
  rw [hreceived]
  exact List.mem_singleton.2 rfl

/-- The first of two entries does not parse. -/
def unparsableRun : List (ProcessAction MemoryDB) :=
  [.handle (.receiveAppendEntries (committedEntries 0 0 ["?", "b"])), .commit 0]

/-- A snapshot that ends at index 5 is installed, and an entry follows. -/
def behindSnapshotRun : List (ProcessAction MemoryDB) :=
  [.snapshot (.accept { firstChunk with lastIncludedIndex := 5, data := [], done := true } (some 3)),
    .snapshot (.advance 0 {}), .snapshot (.advance 0 {}), .snapshot (.advance 0 {}),
    .snapshot (.advance 0 {}), .snapshot (.advance 0 {}),
    .handle (.receiveAppendEntries (committedEntries 5 1 ["f"])), .commit 0]

/-- The process comes back with a snapshot that ends at index 5 and an entry, which is committed. -/
def restartedRun : List (ProcessAction MemoryDB) :=
  [.restart { currentTerm := 1, snapshotLastIndex := 5, snapshotLastTerm := 1 }
      [.entry 6 ⟨1, "f"⟩] {},
    .handle (.receiveAppendEntries (committedEntries 6 1 [])), .commit 0]

/-- After the run the number `n` was delivered and the executor waits for the number 1, which is never
delivered as long as the process runs. -/
def NeverDelivered (run : List (ProcessAction MemoryDB)) (n : ℕ) : Prop :=
  ∃ s, (processSystem MemoryDB oneUnparsable 0 false).run (.start 2 {}) run = some s ∧
    s.delivery.executor.nextExecuteSeq = 1 ∧ n ∈ s.delivery.executor.received ∧
    ∀ actions s', (processSystem MemoryDB oneUnparsable 0 false).Guarded Onward s actions →
      (processSystem MemoryDB oneUnparsable 0 false).run s actions = some s' →
      1 ∉ s'.delivery.executor.received

theorem neverDelivered_of_skipped {run : List (ProcessAction MemoryDB)} {n : ℕ}
    (hresult : ((processSystem MemoryDB oneUnparsable 0 false).run (.start 2 {}) run).map
      (fun s => (s.delivery.executor.nextExecuteSeq, decide (n ∈ s.delivery.executor.received),
        decide (Skipped s 1))) = some (1, true, true)) : NeverDelivered run n := by
  obtain ⟨s, hs, hsummary⟩ := map_eq_some_iff.1 hresult
  simp only [Prod.mk.injEq, decide_eq_true_eq] at hsummary
  obtain ⟨hnext, hreceived, hskipped⟩ := hsummary
  refine ⟨s, hs, hnext, hreceived, ?_⟩
  intro actions s' hg hr hone
  exact (Process.run_skipped actions hskipped hg hr).missing (.inl hone)

/-- In each of the three runs a larger number was delivered and the number 1 never is. -/
theorem gapless_delivery_fails :
    NeverDelivered unparsableRun 2 ∧ NeverDelivered behindSnapshotRun 6 ∧
      NeverDelivered restartedRun 6 := by
  refine ⟨neverDelivered_of_skipped ?_, neverDelivered_of_skipped ?_,
    neverDelivered_of_skipped ?_⟩ <;> decide +kernel

end Raft
