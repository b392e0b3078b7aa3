/-
**The state of a Raft replica.**

`platform/consensus/ordering/raft/algorithm` implements Raft in one class.  This module embeds its
state and the functions that its message handlers share: the log with its sentinel, the view a
leader keeps of every follower, and the gathering of the entries for an `AppendEntries` message.
The handlers are in `ResilientDb/RaftHandlers.lean`.

A failed assertion ends the process; here it is `none`.  Clock readings are arguments.

Main definitions:

* `Raft.Replica` — the fields of the class `Raft`;
* `Raft.Replica.logTermAt`, `Raft.Replica.addToLog`, `Raft.Replica.truncateLog` — the log;
* `Raft.Replica.prepareCommit` — the requests that become executable;
* `Raft.Replica.gatherAeFields`, `Raft.Replica.recordNewInFlightMsg`,
  `Raft.Replica.pruneExpiredInFlightMsgs` — what a leader sends to a follower, and its bookkeeping.
-/

import Mathlib

set_option autoImplicit false

namespace Raft

/-! ### Data -/

/-- `Entry` of `proposal.proto`. -/
structure Entry where
  term : ℕ
  command : String
deriving DecidableEq

/-- A `Request`, as parsed from the command of an entry: its data, its remaining fields, and the
sequence number under which it is executed. -/
structure Request where
  data : String
  otherFields : String
  seq : ℕ
deriving DecidableEq

inductive Role
  | follower
  | candidate
  | leader
deriving DecidableEq

inductive TermRelation
  | stale
  | current
  | new
deriving DecidableEq

inductive ProgressState
  | probe
  | replicate
  | snapshot
deriving DecidableEq

/-- `InFlightMsg`. -/
structure InFlightMsg where
  timeSent : ℕ
  prevLogIndexSent : ℕ
  lastIndexOfSegmentSent : ℕ

/-- `FollowerProgress`, with the defaults of the source. -/
structure FollowerProgress where
  state : ProgressState := .probe
  matchIndex : ℕ := 0
  nextIndex : ℕ := 1
  inFlight : List InFlightMsg := []
  probeInFlight : Bool := false

/-- `AeFields`: an `AppendEntries` message and its recipient. -/
structure AeFields where
  term : ℕ
  leaderId : ℕ
  prevLogIndex : ℕ
  prevLogTerm : ℕ
  entries : List Entry
  leaderCommit : ℕ
  followerId : ℕ

/-- The number of replicas, the settings that can be changed, and the two functions of the protocol
buffer library that the class calls: the size of an entry and the parser of requests.  Times are in
nanoseconds. -/
structure Config where
  totalNum : ℕ
  entrySize : Entry → ℕ
  parseRequest : String → Option Request
  maxInFlightPerFollower : ℕ := 128
  doNotLimitInFlightMessages : Bool := false
  batchThreshold : ℕ := 5000000
  enableBatching : Bool := true

namespace Config

/-- `quorum_`. -/
def quorum (cfg : Config) : ℕ := cfg.totalNum / 2 + 1

/-- The replicas are numbered from 1. -/
def IsMember (cfg : Config) (i : ℕ) : Prop := 1 ≤ i ∧ i ≤ cfg.totalNum

instance (cfg : Config) (i : ℕ) : Decidable (cfg.IsMember i) :=
  inferInstanceAs (Decidable (_ ∧ _))

/-- `max_header_bytes_`. -/
def maxHeaderBytes : ℕ := 64

/-- `max_bytes_`. -/
def maxBytes : ℕ := 64 * 1024 * 16 * 16

/-- `max_entries_`. -/
def maxEntries : ℕ := 128 * 10

/-- `ae_response_deadline_`. -/
def aeResponseDeadline : ℕ := 1500000 * 1000000

end Config

/-- The fields of the class `Raft` that the handlers read or write.  `votedFor = none` stands for
the value `-1`. -/
structure Replica where
  id : ℕ
  currentTerm : ℕ
  votedFor : Option ℕ
  log : List Entry
  progress : ℕ → FollowerProgress
  lastLogIndex : ℕ
  commitIndex : ℕ
  lastCommitted : ℕ
  role : Role
  currentLeader : ℕ
  votes : List ℕ
  snapshotLastIndex : ℕ
  snapshotLastTerm : ℕ
  truncatedLastIndex : ℕ
  truncatedLastTerm : ℕ
  timestampSinceLastTransactionBatch : ℕ

/-- The entry that every log starts with. -/
def sentinel : Entry := ⟨0, "COMMON_PREFIX"⟩

namespace Replica

/-- The constructor.  Replica 1 starts as the leader of term 1. -/
def construct (id : ℕ) : Replica where
  id := id
  currentTerm := if id = 1 then 1 else 0
  votedFor := none
  log := [sentinel]
  progress := fun i => if i = 0 then {} else { state := .replicate }
  lastLogIndex := 0
  commitIndex := 0
  lastCommitted := 0
  role := if id = 1 then .leader else .follower
  currentLeader := 1
  votes := []
  snapshotLastIndex := 0
  snapshotLastTerm := 0
  truncatedLastIndex := 0
  truncatedLastTerm := 0
  timestampSinceLastTransactionBatch := 0

/-! ### The log -/

/-- `GetLogicalLogSize`. -/
def logicalLogSize (r : Replica) : ℕ := r.log.length + r.truncatedLastIndex

/-- `GetLogEntryAtIndex`. -/
def logEntryAt (r : Replica) (index : ℕ) : Option Entry :=
  if r.truncatedLastIndex < index ∧ index < r.logicalLogSize then
    r.log[index - r.truncatedLastIndex]?
  else none

/-- `GetLogTermAtIndex`. -/
def logTermAt (r : Replica) (index : ℕ) : Option ℕ :=
  if r.truncatedLastIndex ≤ index ∧ index < r.logicalLogSize then
    if index = r.truncatedLastIndex then some r.truncatedLastTerm
    else (r.log[index - r.truncatedLastIndex]?).map Entry.term
  else none

/-- `GetLastLogTermLocked`. -/
def lastLogTerm (r : Replica) : Option ℕ :=
  if r.lastLogIndex ≤ r.truncatedLastIndex then some r.truncatedLastTerm
  else r.logTermAt r.lastLogIndex

/-- `AddToLogLocked`, both for one entry and for several. -/
def addToLog (r : Replica) (entries : List Entry) : Option Replica :=
  if entries = [] then some r
  else do
    let r' := { r with
      log := r.log ++ entries, lastLogIndex := r.lastLogIndex + entries.length }
    guard (r'.lastLogIndex = r'.logicalLogSize - 1)
    some r'

/-- `TruncateLogLocked`. -/
def truncateLog (r : Replica) (firstIndex : ℕ) : Option Replica := do
  guard (r.commitIndex < firstIndex)
  guard (firstIndex ≤ r.lastLogIndex)
  let r' := { r with
    log := r.log.take (firstIndex - r.truncatedLastIndex) ++
      r.log.drop (r.lastLogIndex - r.truncatedLastIndex + 1)
    lastLogIndex := r.lastLogIndex - (r.lastLogIndex - firstIndex + 1) }
  guard (r'.lastLogIndex = r'.logicalLogSize - 1)
  some r'

/-! ### Terms and roles -/

/-- `TermCheckLocked`. -/
def termCheck (r : Replica) (term : ℕ) : TermRelation :=
  if term < r.currentTerm then .stale else if term = r.currentTerm then .current else .new

/-- `DemoteSelfLocked`. -/
def demoteSelf (r : Replica) (term : ℕ) : Replica :=
  let r := if r.currentTerm < term then { r with currentTerm := term, votedFor := none } else r
  if r.role ≠ .follower then { r with role := .follower } else r

/-! ### Committing -/

/-- The request of an entry, if its command can be parsed. -/
def requestOf (cfg : Config) (entry : Entry) (index : ℕ) : Option Request :=
  if entry.command = "RAFT_NO_OP" then some ⟨"RAFT_NO_OP", "", index⟩
  else (cfg.parseRequest entry.command).map fun request => { request with seq := index }

/-- The loop of `PrepareCommitLocked`: `count` entries from `index + 1` on. -/
def commitRequests (cfg : Config) (r : Replica) (index : ℕ) : ℕ → Option (List Request)
  | 0 => some []
  | count + 1 => do
      let entry ← r.logEntryAt (index + 1)
      let rest ← commitRequests cfg r (index + 1) count
      some ((requestOf cfg entry (index + 1)).toList ++ rest)

/-- `PrepareCommitLocked`. -/
def prepareCommit (cfg : Config) (r : Replica) : Option (Replica × List Request) := do
  let last := min r.commitIndex (r.logicalLogSize - 1)
  let requests ← commitRequests cfg r r.lastCommitted (last - r.lastCommitted)
  some ({ r with lastCommitted := max r.lastCommitted last }, requests)

/-! ### Sending to followers -/

/-- `CanSendLocked`. -/
def canSend (cfg : Config) (r : Replica) (followerId : ℕ) : Option Bool := do
  guard (r.role = .leader)
  let p := r.progress followerId
  if p.nextIndex ≤ r.truncatedLastIndex then some false
  else
    match p.state with
    | .probe => some !p.probeInFlight
    | .replicate =>
      some (cfg.doNotLimitInFlightMessages || p.inFlight.length < cfg.maxInFlightPerFollower)
    | .snapshot => some false

/-- The loop of `GatherAeFieldsLocked` over the entries from `index` on, at most `count` of them. -/
def gatherEntries (cfg : Config) (r : Replica) (firstNew : ℕ) :
    ℕ → ℕ → ℕ → Option (List Entry)
  | _, _, 0 => some []
  | msgBytes, index, count + 1 => do
      let entry ← r.logEntryAt index
      let msgBytes := (msgBytes + cfg.entrySize entry) % 2 ^ 32
      if !cfg.doNotLimitInFlightMessages ∧ index ≠ firstNew ∧ Config.maxBytes ≤ msgBytes then
        some []
      else do
        let rest ← gatherEntries cfg r firstNew msgBytes (index + 1) count
        some (entry :: rest)

/-- The `prev_log_term` of a message.  For a follower behind the truncated prefix it need not be
right. -/
def prevLogTerm (r : Replica) (prevLogIndex : ℕ) : Option ℕ :=
  if prevLogIndex ≤ r.truncatedLastIndex then some r.snapshotLastTerm else r.logTermAt prevLogIndex

/-- `GatherAeFieldsLocked`. -/
def gatherAeFields (cfg : Config) (r : Replica) (followerId : ℕ) : Option AeFields := do
  let p := r.progress followerId
  let prevLogIndex := p.nextIndex - 1
  let prevLogTerm ← r.prevLogTerm prevLogIndex
  let fields : AeFields :=
    ⟨r.currentTerm, r.id, prevLogIndex, prevLogTerm, [], r.commitIndex, followerId⟩
  let can ← r.canSend cfg followerId
  if !can ∨ p.state ≠ .replicate then some fields
  else do
    let limit := if cfg.doNotLimitInFlightMessages then r.lastLogIndex
      else min r.lastLogIndex (p.nextIndex + Config.maxEntries - 1)
    let entries ←
      r.gatherEntries cfg p.nextIndex Config.maxHeaderBytes p.nextIndex (limit + 1 - p.nextIndex)
    some { fields with entries := entries }

/-- `GatherAeFieldsForBroadcastLocked`, over a list of replicas. -/
def gatherAeFieldsFor (cfg : Config) (r : Replica) : List ℕ → Option (List AeFields)
  | [] => some []
  | i :: ids =>
    if i = r.id then gatherAeFieldsFor cfg r ids
    else do
      let fields ← r.gatherAeFields cfg i
      let rest ← gatherAeFieldsFor cfg r ids
      some (fields :: rest)

/-- `GatherAeFieldsForBroadcastLocked`. -/
def gatherAeFieldsForBroadcast (cfg : Config) (r : Replica) : Option (List AeFields) := do
  guard (r.role = .leader)
  r.gatherAeFieldsFor cfg (List.range' 1 cfg.totalNum)

/-- Replace the progress of one follower. -/
def setProgress (r : Replica) (followerId : ℕ) (p : FollowerProgress) : Replica :=
  { r with progress := Function.update r.progress followerId p }

@[simp] theorem setProgress_self (r : Replica) (i : ℕ) (p : FollowerProgress) :
    (r.setProgress i p).progress i = p := by
  simp [setProgress]

theorem setProgress_of_ne (r : Replica) {i j : ℕ} (h : j ≠ i) (p : FollowerProgress) :
    (r.setProgress i p).progress j = r.progress j := by
  simp [setProgress, h]

/-- `RecordNewInFlightMsgLocked`. -/
def recordNewInFlightMsg (r : Replica) (msg : AeFields) (timestamp : ℕ) : Replica :=
  let p := r.progress msg.followerId
  if msg.entries = [] then
    if p.state = .probe then r.setProgress msg.followerId { p with probeInFlight := true } else r
  else
    let lastIndex := msg.prevLogIndex + msg.entries.length
    r.setProgress msg.followerId { p with
      inFlight := p.inFlight ++ [⟨timestamp, msg.prevLogIndex, lastIndex⟩]
      nextIndex := lastIndex + 1 }

/-- `RecordNewInFlightMsgLocked` for every message of a broadcast. -/
def recordBroadcast (r : Replica) (msgs : List AeFields) (timestamp : ℕ) : Replica :=
  msgs.foldl (fun r msg => r.recordNewInFlightMsg msg timestamp) r

/-- The body of `PruneExpiredInFlightMsgsLocked` for one follower.  A follower that has fallen
behind the truncated prefix is handed to the snapshot sender, which marks it. -/
def pruneExpired (truncatedLastIndex now : ℕ) (p : FollowerProgress) : FollowerProgress :=
  if p.inFlight.any fun msg => decide (Config.aeResponseDeadline ≤ now - msg.timeSent) then
    { p with
      inFlight := []
      nextIndex := p.matchIndex + 1
      state :=
        if p.matchIndex + 1 ≤ truncatedLastIndex then .snapshot
        else if p.state = .replicate then .probe else p.state }
  else p

/-- `PruneExpiredInFlightMsgsLocked`. -/
def pruneExpiredInFlightMsgs (cfg : Config) (r : Replica) (now : ℕ) : Option Replica := do
  guard (r.role = .leader)
  some { r with
    progress := fun i =>
      if 1 ≤ i ∧ i ≤ cfg.totalNum ∧ i ≠ r.id then
        pruneExpired r.truncatedLastIndex now (r.progress i)
      else r.progress i }

/-- `PruneRedundantInFlightMsgsLocked`. -/
def pruneRedundantInFlightMsgs (r : Replica) (followerId followerLastLogIndex : ℕ) :
    Option Replica := do
  guard (r.role = .leader)
  guard (0 < followerId)
  guard (followerId ≠ r.id)
  let p := r.progress followerId
  some (r.setProgress followerId { p with
    inFlight := p.inFlight.filter fun msg =>
      decide (followerLastLogIndex < msg.lastIndexOfSegmentSent) })

/-- `EnqueueSnapshot`, as far as the replication state goes. -/
def enqueueSnapshot (r : Replica) (followerId : ℕ) : Replica :=
  r.setProgress followerId { r.progress followerId with state := .snapshot }

end Replica

end Raft
