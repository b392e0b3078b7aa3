/-
**What a Raft replica keeps on disk, and how it comes back.**

Next to its log a replica keeps `raft_metadata.dat`: the term, the vote and the last index of the
snapshot.  The write-ahead log holds the entries that were appended and the truncations of the log.
After a crash the constructor builds a fresh replica, and `RecoverFromLogs` loads the metadata and
replays the write-ahead log.  A snapshot, taken or installed, moves the start of the log.

`RecoverFromLogs` takes the lock for every call that it makes: three for the metadata, and one for every
record.  The thread of the election timer runs since before the first of them.

Main definitions:

* `Raft.Metadata`, `Raft.WalRecord` — what is on disk;
* `Raft.Replica.metadata` — what `WriteMetadataLocked` writes;
* `Raft.Replica.truncatePrefix`, `Raft.Replica.receiveInstallSnapshot` — snapshots;
* `Raft.Replica.recoverFromLogs` — the way back;
* `Raft.Startup`, `Raft.Replica.recover` — the same, call by call.
-/

import ResilientDb.RaftHandlers

set_option autoImplicit false

namespace Raft

/-! ### Data -/

/-- `RaftMetadata`, with the defaults of the source.  `votedFor = none` stands for `-1`. -/
structure Metadata where
  currentTerm : ℕ := 0
  votedFor : Option ℕ := none
  snapshotLastIndex : ℕ := 0
  snapshotLastTerm : ℕ := 0
deriving DecidableEq

/-- `WALRecord`: an entry with its log index, or the truncation of the log from an index on. -/
inductive WalRecord
  | entry (seq : ℕ) (entry : Entry)
  | truncation (truncateFromIndex truncateFromTerm : ℕ)
deriving DecidableEq

namespace Replica

/-- What `WriteMetadataLocked` writes. -/
def metadata (r : Replica) : Metadata :=
  ⟨r.currentTerm, r.votedFor, r.snapshotLastIndex, r.snapshotLastTerm⟩

/-! ### Snapshots -/

/-- `SetSnapshotLastIndexAndTermLocked`.  The sentinel takes the term of the last truncated entry.
Without a write of the metadata the call comes from recovery, and the counters start over. -/
def setSnapshotLastIndexAndTerm (r : Replica)
    (snapshotLastIndex snapshotLastTerm truncatedLastIndex truncatedLastTerm : ℕ)
    (writeMetadata : Bool) : Option Replica :=
  match r.log with
  | [] => none
  | first :: rest =>
    let r := { r with
      snapshotLastIndex := snapshotLastIndex
      snapshotLastTerm := snapshotLastTerm
      truncatedLastIndex := truncatedLastIndex
      truncatedLastTerm := truncatedLastTerm
      log := { first with term := truncatedLastTerm } :: rest }
    if writeMetadata then some r
    else some { r with
      lastLogIndex := truncatedLastIndex
      commitIndex := truncatedLastIndex
      lastCommitted := truncatedLastIndex }

/-- `SendSnapshotsToBehindFollowersLocked`, as far as the replication state goes. -/
def sendSnapshotsToBehindFollowers (cfg : Config) (r : Replica) : Replica :=
  { r with
    progress := fun i =>
      if 1 ≤ i ∧ i ≤ cfg.totalNum ∧ i ≠ r.id ∧ (r.progress i).nextIndex - 1 < r.truncatedLastIndex
      then { r.progress i with state := .snapshot } else r.progress i }

/-- The index up to which `TruncatePrefixLocked` truncates: `snapshot_buffer_amount_` entries before
the snapshot stay. -/
def truncationIndex (r : Replica) (snapshotBufferAmount snapshotIndex : ℕ) : ℕ :=
  if snapshotBufferAmount < snapshotIndex then
    max (snapshotIndex - snapshotBufferAmount) r.truncatedLastIndex
  else r.truncatedLastIndex

/-- `TruncatePrefixLocked`.  The second component says whether the metadata was written. -/
def truncatePrefix (cfg : Config) (r : Replica) (snapshotBufferAmount snapshotIndex : ℕ) :
    Option (Replica × Bool) :=
  let index := r.truncationIndex snapshotBufferAmount snapshotIndex
  if index ≤ r.truncatedLastIndex then some (r, false)
  else do
    guard (index ≤ r.lastCommitted)
    let lastTruncatedEntryTerm ← r.logTermAt index
    let lastSnapshotEntryTerm ← r.logTermAt snapshotIndex
    let r := { r with
      log := r.log.take 1 ++ r.log.drop (index - r.truncatedLastIndex + 1) }
    let r ← r.setSnapshotLastIndexAndTerm snapshotIndex lastSnapshotEntryTerm index
      lastTruncatedEntryTerm true
    guard (r.lastLogIndex = r.logicalLogSize - 1)
    some (if r.role = .leader then r.sendSnapshotsToBehindFollowers cfg else r, true)

/-- The end of `ReceiveInstallSnapshot`, once all chunks have arrived: the log starts over behind
the snapshot. -/
def installSnapshot (r : Replica) (lastIncludedIndex lastIncludedTerm : ℕ) : Replica :=
  { r with
    log := [⟨lastIncludedTerm, "COMMON_PREFIX"⟩]
    snapshotLastIndex := lastIncludedIndex
    snapshotLastTerm := lastIncludedTerm
    lastLogIndex := lastIncludedIndex
    commitIndex := lastIncludedIndex
    lastCommitted := lastIncludedIndex
    truncatedLastIndex := lastIncludedIndex
    truncatedLastTerm := lastIncludedTerm }

/-- `ReceiveInstallSnapshot`.  The transfer of the chunks is left out: `shouldInstall` says whether
this message is the last one of a complete transfer. -/
def receiveInstallSnapshot (r : Replica) (term lastIncludedIndex lastIncludedTerm : ℕ)
    (shouldInstall : Bool) : Replica :=
  match r.termCheck term with
  | .stale => r
  | tr =>
    let r := if tr = .new then r.demoteSelf term else r
    if shouldInstall then r.installSnapshot lastIncludedIndex lastIncludedTerm else r

/-! ### Recovery -/

/-- The callback of `RecoverFromLogs` for one record. -/
def replay (r : Replica) : WalRecord → Option Replica
  | .entry _ entry => r.addToLog [entry]
  | .truncation truncateFromIndex _ => r.truncateLog truncateFromIndex

end Replica

/-- The calls with which `HandleStartPoint` passes the metadata on. -/
inductive StartPointCall
  | setCurrentTerm
  | setVotedFor
  | setSnapshotLastIndexAndTerm
deriving DecidableEq

namespace Replica

/-- One of these calls. -/
def setStartPoint (r : Replica) (metadata : Metadata) : StartPointCall → Option Replica
  | .setCurrentTerm => some { r with currentTerm := metadata.currentTerm }
  | .setVotedFor => some { r with votedFor := metadata.votedFor }
  | .setSnapshotLastIndexAndTerm =>
    r.setSnapshotLastIndexAndTerm metadata.snapshotLastIndex metadata.snapshotLastTerm
      metadata.snapshotLastIndex metadata.snapshotLastTerm false

/-- `RecoverFromLogs`, for the records that `ReadLogs` passes to the callback, when nothing comes in
between. -/
def recoverFromLogs (r : Replica) (metadata : Metadata) (records : List WalRecord) :
    Option Replica := do
  let r ← r.setStartPoint metadata .setCurrentTerm
  let r ← r.setStartPoint metadata .setVotedFor
  let r ← r.setStartPoint metadata .setSnapshotLastIndexAndTerm
  records.foldlM replay r

theorem recoverFromLogs_def (r : Replica) (metadata : Metadata) (records : List WalRecord) :
    r.recoverFromLogs metadata records =
      (setSnapshotLastIndexAndTerm
        { r with currentTerm := metadata.currentTerm, votedFor := metadata.votedFor }
        metadata.snapshotLastIndex metadata.snapshotLastTerm metadata.snapshotLastIndex
        metadata.snapshotLastTerm false).bind fun r => records.foldlM replay r := rfl

end Replica

/-- How far the constructor of `Consensus` has come since the thread of the election timer runs. -/
inductive Startup
  /-- The metadata was read, through a descriptor that was opened before, and is being passed on. -/
  | opened (metadata : Metadata) (next : StartPointCall)
  /-- The records of the log are read back. -/
  | replaying
  /-- `InitProtocol` was called, and messages are taken up. -/
  | ready

namespace Startup

/-- The term and the vote are loaded. -/
def Loaded : Startup → Prop
  | .opened _ .setCurrentTerm => False
  | .opened _ .setVotedFor => False
  | _ => True

instance : (startup : Startup) → Decidable startup.Loaded
  | .opened _ .setCurrentTerm | .opened _ .setVotedFor => isFalse id
  | .opened _ .setSnapshotLastIndexAndTerm | .replaying | .ready => isTrue trivial

def isReady : Startup → Bool
  | .ready => true
  | _ => false

/-- Where the constructor stands when the thread of the timer is started.  Without recovery
`RecoverFromLogs` does nothing. -/
def begin (recoveryEnabled : Bool) (disk : Metadata) : Startup :=
  if recoveryEnabled then .opened disk .setCurrentTerm else .ready

/-- Where it stands after a call for the metadata. -/
def afterCall (metadata : Metadata) : StartPointCall → Startup
  | .setCurrentTerm => .opened metadata .setVotedFor
  | .setVotedFor => .opened metadata .setSnapshotLastIndexAndTerm
  | .setSnapshotLastIndexAndTerm => .replaying

theorem loaded_of_isReady {startup : Startup} (h : startup.isReady = true) : startup.Loaded := by
  cases startup with
  | opened metadata next => cases h
  | replaying | ready => trivial

end Startup

/-- What the constructor does next. -/
inductive RecoveryAction
  /-- The next call for the metadata. -/
  | setStartPoint
  /-- The callback for one record. -/
  | replay (record : WalRecord)
  /-- `InitProtocol`. -/
  | initProtocol

namespace Replica

/-- The constructor goes on. -/
def recover (r : Replica) : Startup → RecoveryAction → Option (Replica × Startup)
  | .opened metadata next, .setStartPoint =>
    (r.setStartPoint metadata next).map fun r => (r, .afterCall metadata next)
  | .replaying, .replay record => (r.replay record).map fun r => (r, .replaying)
  | .replaying, .initProtocol => some (r, .ready)
  | _, _ => none

end Replica

end Raft
