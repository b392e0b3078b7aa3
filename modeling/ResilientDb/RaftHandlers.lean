/-
**The message handlers of Raft.**

Each handler of the class `Raft` takes the mutex, runs its `...Locked` part, and then sends what the
locked part prepared.  Here a handler is a function from the replica and the message to the new
replica, the messages it sends and the requests that `PrepareCommitLocked` returned; `none` is a
failed assertion.  `ReceiveTransaction` takes the mutex twice, so it is two functions.

Main definitions:

* `Raft.Message` — the messages of `proposal.proto`, without those for snapshots and clients;
* `Raft.Replica.receiveTransaction`, `Raft.Replica.finishTransaction`,
  `Raft.Replica.receiveAppendEntries`, `Raft.Replica.receiveAppendEntriesResponse`,
  `Raft.Replica.receiveRequestVote`, `Raft.Replica.receiveRequestVoteResponse`,
  `Raft.Replica.startElection`, `Raft.Replica.sendHeartbeat` — the handlers.
-/

import ResilientDb.RaftReplica

set_option autoImplicit false

namespace Raft

/-! ### Messages -/

structure AppendEntries where
  term : ℕ
  leaderId : ℕ
  prevLogIndex : ℕ
  prevLogTerm : ℕ
  entries : List Entry
  leaderCommitIndex : ℕ
deriving DecidableEq

structure AppendEntriesResponse where
  term : ℕ
  success : Bool
  id : ℕ
  lastLogIndex : ℕ
  conflictingIndex : ℕ
  conflictingTerm : ℕ
deriving DecidableEq

structure RequestVote where
  term : ℕ
  candidateId : ℕ
  lastLogIndex : ℕ
  lastLogTerm : ℕ
deriving DecidableEq

structure RequestVoteResponse where
  term : ℕ
  voteGranted : Bool
  voterId : ℕ
deriving DecidableEq

inductive Message
  | appendEntries (ae : AppendEntries)
  | appendEntriesResponse (aer : AppendEntriesResponse)
  | requestVote (rv : RequestVote)
  | requestVoteResponse (rvr : RequestVoteResponse)
deriving DecidableEq

/-- What a handler leaves behind: the new state, the messages sent with their recipients, and the
requests returned by `PrepareCommitLocked`. -/
structure Outcome where
  replica : Replica
  sent : List (ℕ × Message) := []
  applied : List Request := []

/-- The message that `CreateAndSendAppendEntryMsg` creates. -/
def AeFields.toAppendEntries (fields : AeFields) : AppendEntries :=
  ⟨fields.term, fields.leaderId, fields.prevLogIndex, fields.prevLogTerm, fields.entries,
    fields.leaderCommit⟩

/-- `CreateAndSendAppendEntryMsg`. -/
def AeFields.toMessage (fields : AeFields) : ℕ × Message :=
  (fields.followerId, .appendEntries fields.toAppendEntries)

namespace Replica

/-! ### Transactions -/

/-- `ReceiveTransaction`, up to the wait for the write-ahead log.  The second component is
`my_log_index`, unless the client is redirected.  `now` lists the readings of the clock. -/
def receiveTransaction (cfg : Config) (r : Replica) (serialized : String) (now : ℕ → ℕ) :
    Option (Outcome × Option ℕ) :=
  if r.role ≠ .leader then some (⟨r, [], []⟩, none)
  else do
    let r ← r.addToLog [⟨r.currentTerm, serialized⟩]
    let myLogIndex := r.lastLogIndex
    let r := r.setProgress r.id { r.progress r.id with nextIndex := r.lastLogIndex + 1 }
    let r ← r.pruneExpiredInFlightMsgs cfg (now 0)
    if cfg.batchThreshold < now 1 - r.timestampSinceLastTransactionBatch ∨ !cfg.enableBatching then
      do
        let r := { r with timestampSinceLastTransactionBatch := now 1 }
        let messages ← r.gatherAeFieldsForBroadcast cfg
        some (⟨r.recordBroadcast messages (now 1), messages.map AeFields.toMessage, []⟩,
          some myLogIndex)
    else some (⟨r, [], []⟩, some myLogIndex)

/-- The end of `ReceiveTransaction`, once the entry is on disk. -/
def finishTransaction (r : Replica) (myLogIndex : ℕ) : Replica :=
  if r.role = .leader then
    r.setProgress r.id { r.progress r.id with
      matchIndex := max (r.progress r.id).matchIndex myLogIndex }
  else r

/-! ### AppendEntries -/

/-- The test for `has_matching_prev_log_entry`. -/
def hasMatchingPrevLogEntry (r : Replica) (ae : AppendEntries) : Bool :=
  decide (ae.prevLogIndex ≤ r.truncatedLastIndex ∨
    (ae.prevLogIndex < r.logicalLogSize ∧ r.logTermAt ae.prevLogIndex = some ae.prevLogTerm))

/-- The loop that looks for the first index with the conflicting term. -/
def firstLogIndexWithTerm (r : Replica) (conflictingTerm : ℕ) : ℕ → Option ℕ
  | 0 => some 0
  | index + 1 =>
    if r.commitIndex + 1 ≤ index + 1 then do
      let term ← r.logTermAt index
      if term = conflictingTerm then firstLogIndexWithTerm r conflictingTerm index
      else some (index + 1)
    else some (index + 1)

/-- The fields `conflicting_index` and `conflicting_term` of a failure. -/
def conflict (r : Replica) (ae : AppendEntries) : Option (ℕ × ℕ) :=
  if r.lastLogIndex < ae.prevLogIndex then some (0, 0)
  else do
    let term ← r.logTermAt ae.prevLogIndex
    if ae.prevLogTerm ≠ term then do
      let index ← r.firstLogIndexWithTerm term ae.prevLogIndex
      some (index, term)
    else some (0, 0)

/-- The loop that compares the entries with the log from `logIdx` on, and truncates the log at the
first entry of another term.  The list returned is what remains to be appended. -/
def matchEntries (r : Replica) : ℕ → List Entry → Option (Replica × List Entry)
  | _, [] => some (r, [])
  | logIdx, entry :: entries =>
    if logIdx < r.logicalLogSize then do
      let term ← r.logTermAt logIdx
      if entry.term ≠ term then do
        let r ← r.truncateLog logIdx
        some (r, entry :: entries)
      else matchEntries r (logIdx + 1) entries
    else some (r, entry :: entries)

/-- The part of `ReceiveAppendEntriesLocked` that appends the entries.  Entries up to the commit
index are skipped. -/
def appendFrom (r : Replica) (ae : AppendEntries) : Option Replica := do
  guard (r.snapshotLastIndex ≤ r.commitIndex)
  let logIdx := ae.prevLogIndex + 1
  let (r, entries) ←
    if logIdx ≤ r.commitIndex then
      r.matchEntries (r.commitIndex + 1) (ae.entries.drop (r.commitIndex - logIdx + 1))
    else r.matchEntries logIdx ae.entries
  r.addToLog entries

/-- The raise of the commit index by a follower. -/
def raiseCommitIndex (r : Replica) (leaderCommit : ℕ) : Replica :=
  if r.commitIndex < leaderCommit then
    { r with commitIndex := min leaderCommit r.lastLogIndex }
  else r

/-- What `ReceiveAppendEntriesLocked` does to the term, the role and the known leader. -/
def acceptTerm (r : Replica) (ae : AppendEntries) : Replica :=
  match r.termCheck ae.term with
  | .stale => r
  | .current =>
    { (if r.role ≠ .follower then r.demoteSelf ae.term else r) with
      currentLeader := ae.leaderId }
  | .new => { r.demoteSelf ae.term with currentLeader := ae.leaderId }

/-- The message is not stale and the log has the entry before its entries. -/
def accepts (r : Replica) (ae : AppendEntries) : Bool :=
  r.termCheck ae.term ≠ .stale && r.hasMatchingPrevLogEntry ae

/-- `ReceiveAppendEntries`. -/
def receiveAppendEntries (cfg : Config) (r : Replica) (ae : AppendEntries) : Option Outcome :=
  if ae.leaderId = r.id then some ⟨r, [], []⟩
  else do
    let success := r.accepts ae
    let r := r.acceptTerm ae
    if !success then do
      let (conflictingIndex, conflictingTerm) ← r.conflict ae
      some ⟨r, [(ae.leaderId, .appendEntriesResponse
        ⟨r.currentTerm, false, r.id, r.lastLogIndex, conflictingIndex, conflictingTerm⟩)], []⟩
    else do
      let r ← r.appendFrom ae
      let lastLogIndex := r.lastLogIndex
      let (r, requests) ← (r.raiseCommitIndex ae.leaderCommitIndex).prepareCommit cfg
      some ⟨r, [(ae.leaderId, .appendEntriesResponse
        ⟨r.currentTerm, true, r.id, lastLogIndex, 0, 0⟩)], requests⟩

/-! ### Responses to AppendEntries -/

/-- `sorted[quorum_ - 1]`: the largest index that a quorum of the entries of `progress_` have
matched.  Entry 0 of `progress_` takes part and always holds 0. -/
def lastReplicatedIndex (cfg : Config) (r : Replica) : Option ℕ :=
  (((List.range (cfg.totalNum + 1)).map fun i => (r.progress i).matchIndex).insertionSort
    (· ≥ ·))[cfg.quorum - 1]?

/-- The progress of a follower after a success that is not stale. -/
def successProgress (lastLogIndex followerLastLogIndex : ℕ) (p : FollowerProgress) :
    Option FollowerProgress :=
  let matchIndex := min followerLastLogIndex lastLogIndex
  if p.state = .probe then do
    guard (followerLastLogIndex ≤ lastLogIndex)
    some { p with
      matchIndex := matchIndex
      nextIndex := max (matchIndex + 1) (followerLastLogIndex + 1)
      state := .replicate
      probeInFlight := false }
  else some { p with matchIndex := matchIndex, nextIndex := max p.nextIndex (matchIndex + 1) }

/-- The raise of the commit index by a leader: only to an entry of its own term. -/
def advanceCommitIndex (cfg : Config) (r : Replica) : Option Replica := do
  let lastReplicatedIndex ← r.lastReplicatedIndex cfg
  guard (r.truncatedLastIndex ≤ r.commitIndex)
  if r.commitIndex < lastReplicatedIndex then do
    let term ← r.logTermAt lastReplicatedIndex
    if term = r.currentTerm then some { r with commitIndex := lastReplicatedIndex } else some r
  else some r

/-- The success branch, for a response that is not stale. -/
def handleSuccess (cfg : Config) (r : Replica) (aer : AppendEntriesResponse) :
    Option (Replica × List Request) := do
  let p ← successProgress r.lastLogIndex aer.lastLogIndex (r.progress aer.id)
  let r ← (r.setProgress aer.id p).advanceCommitIndex cfg
  r.prepareCommit cfg

/-- The loop that skips the leader's entries of the conflicting term. -/
def skipConflictingTerm (r : Replica) (conflictingTerm : ℕ) : ℕ → ℕ → Option ℕ
  | index, 0 => some index
  | index, count + 1 => do
      let term ← r.logTermAt index
      if term = conflictingTerm then do
        guard (index + 1 ≤ r.lastLogIndex)
        skipConflictingTerm r conflictingTerm (index + 1) count
      else some index

/-- Where to probe next after a failure, and whether the follower needs a snapshot. -/
def indexToSend (r : Replica) (aer : AppendEntriesResponse) : Option (ℕ × Bool) :=
  if aer.conflictingTerm = 0 then some (aer.lastLogIndex + 1, false)
  else do
    guard (aer.conflictingIndex ≤ aer.lastLogIndex)
    guard (0 < aer.conflictingIndex)
    guard (aer.conflictingIndex ≤ r.lastLogIndex)
    guard (aer.conflictingTerm < r.currentTerm)
    let index :=
      if aer.conflictingIndex ≤ r.truncatedLastIndex ∧ r.truncatedLastTerm = aer.conflictingTerm
      then r.truncatedLastIndex + 1 else aer.conflictingIndex
    if r.truncatedLastIndex < index then do
      let index ← r.skipConflictingTerm aer.conflictingTerm index (aer.lastLogIndex + 1 - index)
      some (index, false)
    else some (aer.lastLogIndex + 1, true)

/-- The failure branch. -/
def handleFailure (r : Replica) (aer : AppendEntriesResponse) : Option (Replica × Bool) := do
  let p := r.progress aer.id
  let p := if p.state = .replicate then { p with state := .probe, inFlight := [] } else p
  let (index, shouldSendSnapshot) ← r.indexToSend aer
  some (r.setProgress aer.id { p with
    nextIndex := max (min index (r.lastLogIndex + 1)) (p.matchIndex + 1) }, shouldSendSnapshot)

/-- The loop that sends to a follower that is behind.  Every round but the last moves
`next_index` forward, or uses up the probe, so the number of rounds is bounded. -/
def resend (cfg : Config) (followerId : ℕ) (isBeingProbed : Bool) (now : ℕ → ℕ) :
    ℕ → Replica → Option (Replica × List AeFields)
  | 0, r => some (r, [])
  | rounds + 1, r => do
      let can ← r.canSend cfg followerId
      if !can then some (r, [])
      else do
        let fields ← r.gatherAeFields cfg followerId
        if fields.entries = [] ∧ !isBeingProbed then some (r, [])
        else do
          let (r, rest) ← resend cfg followerId isBeingProbed now rounds
            (r.recordNewInFlightMsg fields (now rounds))
          some (r, fields :: rest)

/-- The end of `ReceiveAppendEntriesResponse`: more entries, a probe or a snapshot for a follower
that is behind. -/
def catchUp (cfg : Config) (r : Replica) (aer : AppendEntriesResponse) (shouldSendSnapshot : Bool)
    (now : ℕ → ℕ) : Option (Replica × List AeFields) :=
  if aer.lastLogIndex < r.truncatedLastIndex then some (r.enqueueSnapshot aer.id, [])
  else do
    let p := r.progress aer.id
    guard (r.truncatedLastIndex < p.nextIndex ∨ p.state = .snapshot)
    let (r, messages) ←
      resend cfg aer.id (p.state = .probe) now (r.lastLogIndex + 2) r
    some (if shouldSendSnapshot then r.enqueueSnapshot aer.id else r, messages)

/-- `ReceiveAppendEntriesResponse`. -/
def receiveAppendEntriesResponse (cfg : Config) (r : Replica) (aer : AppendEntriesResponse)
    (now : ℕ → ℕ) : Option Outcome := do
  let tr := r.termCheck aer.term
  let r := if tr = .new then r.demoteSelf aer.term else r
  if r.role ≠ .leader ∨ tr = .stale then some ⟨r, [], []⟩
  else do
    let r ← r.pruneRedundantInFlightMsgs aer.id aer.lastLogIndex
    let r ← r.pruneExpiredInFlightMsgs cfg (now 0)
    if aer.success then
      if aer.lastLogIndex < (r.progress aer.id).matchIndex then some ⟨r, [], []⟩
      else do
        let (r, requests) ← r.handleSuccess cfg aer
        if (r.progress aer.id).nextIndex < r.lastLogIndex + 1 then do
          let (r, messages) ← r.catchUp cfg aer false (fun k => now (k + 1))
          some ⟨r, messages.map AeFields.toMessage, requests⟩
        else some ⟨r, [], requests⟩
    else do
      let (r, shouldSendSnapshot) ← r.handleFailure aer
      let (r, messages) ← r.catchUp cfg aer shouldSendSnapshot (fun k => now (k + 1))
      some ⟨r, messages.map AeFields.toMessage, []⟩

/-! ### Elections and heartbeats -/

/-- The comparison of logs in `ReceiveRequestVoteLocked`: the candidate's log is not behind. -/
def isValidCandidate (rv : RequestVote) (lastLogTerm lastLogIndex : ℕ) : Bool :=
  !decide (rv.lastLogTerm < lastLogTerm) &&
    !decide (rv.lastLogTerm = lastLogTerm ∧ rv.lastLogIndex < lastLogIndex)

/-- `ReceiveRequestVote`. -/
def receiveRequestVote (r : Replica) (rv : RequestVote) : Option Outcome :=
  if rv.candidateId = r.id then some ⟨r, [], []⟩
  else
    let answer (r : Replica) (granted : Bool) : Outcome :=
      ⟨r, [(rv.candidateId, .requestVoteResponse ⟨r.currentTerm, granted, r.id⟩)], []⟩
    match r.termCheck rv.term with
    | .stale => some (answer r false)
    | tr => do
        let r := if tr = .new then r.demoteSelf rv.term else r
        let lastLogTerm ← r.lastLogTerm
        if !isValidCandidate rv lastLogTerm r.lastLogIndex then some (answer r false)
        else if r.votedFor = none ∨ r.votedFor = some rv.candidateId then
          some (answer { r with votedFor := some rv.candidateId } true)
        else some (answer r false)

/-- The state of a replica that has just won an election, before it appends its no-op. -/
def becomeLeader (cfg : Config) (r : Replica) : Replica :=
  { r with
    role := .leader
    progress := fun i =>
      if 1 ≤ i ∧ i ≤ cfg.totalNum then { nextIndex := r.lastLogIndex + 1 }
      else { r.progress i with inFlight := [] } }

/-- `ReceiveRequestVoteResponse`.  The heartbeat that follows an election is a call of
`sendHeartbeat`. -/
def receiveRequestVoteResponse (cfg : Config) (r : Replica) (rvr : RequestVoteResponse) :
    Option Outcome :=
  match r.termCheck rvr.term with
  | .stale => some ⟨r, [], []⟩
  | .new => some ⟨r.demoteSelf rvr.term, [], []⟩
  | .current =>
    if r.role ≠ .candidate ∨ !rvr.voteGranted then some ⟨r, [], []⟩
    else if rvr.voterId ∈ r.votes then some ⟨r, [], []⟩
    else
      let r := { r with votes := r.votes ++ [rvr.voterId] }
      if cfg.quorum ≤ r.votes.length then do
        let r ← (r.becomeLeader cfg).addToLog [⟨r.currentTerm, "RAFT_NO_OP"⟩]
        some ⟨r.setProgress r.id { r.progress r.id with
          nextIndex := r.lastLogIndex + 1, matchIndex := r.lastLogIndex }, [], []⟩
      else some ⟨r, [], []⟩

/-- `StartElection`. -/
def startElection (cfg : Config) (r : Replica) : Option Outcome :=
  if r.role = .leader then some ⟨r, [], []⟩
  else do
    let r := { r with
      role := .candidate
      currentTerm := r.currentTerm + 1
      votedFor := some r.id
      votes := [r.id] }
    let lastLogTerm ← r.lastLogTerm
    some ⟨r, (List.range' 1 cfg.totalNum).map fun i =>
      (i, .requestVote ⟨r.currentTerm, r.id, r.lastLogIndex, lastLogTerm⟩), []⟩

/-- `SendHeartbeat`. -/
def sendHeartbeat (cfg : Config) (r : Replica) (now : ℕ → ℕ) : Option Outcome :=
  if r.role ≠ .leader then some ⟨r, [], []⟩
  else do
    let r ← r.pruneExpiredInFlightMsgs cfg (now 0)
    let messages ← r.gatherAeFieldsForBroadcast cfg
    let r := r.recordBroadcast messages (now 1)
    -- followers behind the truncated prefix are handed to the snapshot sender
    let r := { r with
      progress := fun i =>
        if 1 ≤ i ∧ i ≤ cfg.totalNum ∧ i ≠ r.id ∧ (r.progress i).nextIndex ≤ r.truncatedLastIndex
        then { r.progress i with state := .snapshot } else r.progress i }
    some ⟨r, messages.map AeFields.toMessage, []⟩

end Replica

end Raft
