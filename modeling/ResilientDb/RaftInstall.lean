/-
**The receiving side of a snapshot transfer.**

A leader sends a snapshot in chunks.  The follower collects them in a temporary file and, with the last
chunk, clears its log, renames the file and applies it to its storage.  `ReceiveInstallSnapshot` holds
the mutex only in parts of its body: it decides under the lock what to do with a chunk, writes the file
without it, takes the lock again to note how far it got, and so on.  Handlers on several threads may
therefore run into each other, so that a handler is embedded as a machine with a stage for every
section between two lock operations.

Main definitions:

* `Raft.InstallSnapshot`, `Raft.InstallSnapshotResponse`, `Raft.PendingSnapshot` — the data;
* `Raft.Handler`, `Raft.Stage` — the local variables of the function, and where it stands;
* `Raft.Receiver.accept`, `Raft.Receiver.advance`, `Raft.Receiver.respond` — the sections;
* `Raft.Receiver.receiveInstallSnapshot` — the function when nothing comes in between;
* `Raft.Server` — a replica with any number of handlers under way;
* `Raft.Replica.receiveInstallSnapshotResponse` — what a leader does with the answer.

Main results:

* `Raft.Receiver.finish_reply` — the function comes to its end;
* `Raft.Receiver.advance_replica` — the log is touched in one section only;
* `Raft.Receiver.snapshot_failure_harmless` — a chunk that is asked for again has left no trace, unless
  it is the last one of its transfer and could not be stored.
-/

import ResilientDb.FileSystem
import ResilientDb.MemoryDb
import ResilientDb.RaftBranches
import ResilientDb.RaftRecovery

set_option autoImplicit false

namespace Raft

open Replica (SameLog construct)
open Kv (Storage)
open Option (bind_eq_some_iff)
open Wire (Bytes)

/-! ### Data -/

/-- `InstallSnapshot` of `proposal.proto`. -/
structure InstallSnapshot where
  term : ℕ
  leaderId : ℕ
  lastIncludedIndex : ℕ
  lastIncludedTerm : ℕ
  offset : ℕ
  data : Bytes
  done : Bool
deriving DecidableEq

/-- `InstallSnapshotResponse` of `proposal.proto`. -/
structure InstallSnapshotResponse where
  term : ℕ
  id : ℕ
  needSnapshot : Bool
  bytesStored : ℕ
  lastIncludedIndex : ℕ
  transferComplete : Bool
deriving DecidableEq

/-- The files that a receiver uses. -/
inductive SnapshotFile
  /-- `snapshot_file_path_`. -/
  | snapshot
  /-- `snapshot_file_path_ + ".recv.tmp"`. -/
  | recvTmp
deriving DecidableEq

/-- `PendingSnapshot`. -/
structure PendingSnapshot where
  lastIncludedIndex : ℕ
  lastIncludedTerm : ℕ
  expectedOffset : ℕ
  fd : ℕ
  tmpPath : SnapshotFile
deriving DecidableEq

/-- The section of `ReceiveInstallSnapshot` that comes next, with the local variables that only this
section and later ones read.  A path is `none` where the source has the empty string. -/
inductive Stage
  /-- The loop that writes the chunk. -/
  | write (pendingFd : ℕ) (pendingTmpPath : SnapshotFile)
  /-- The locked update of `expected_offset`. -/
  | record (pendingFd : ℕ) (pendingTmpPath : SnapshotFile)
  /-- The last `fsync`. -/
  | finalize (pendingFd : ℕ) (pendingTmpPath : SnapshotFile)
  /-- The locked removal of a transfer that is complete. -/
  | erase (pendingTmpPath : SnapshotFile)
  /-- The locked end of `AbortPendingUnlocked`, and the answer after it. -/
  | abort
  /-- The locked block that starts the log over. -/
  | install (tmpPathToRename : Option SnapshotFile)
  /-- The rename, and the call of `ApplySnapshot`. -/
  | apply (tmpPathToRename : Option SnapshotFile)
  /-- The locked write of the metadata. -/
  | writeMetadata
  /-- The answer. -/
  | reply
deriving DecidableEq

/-- A running call of `ReceiveInstallSnapshot`.  `response` is what `SetSnapshotResponse` has filled
in; `ready_to_respond` says that there is one. -/
structure Handler where
  message : InstallSnapshot
  ourTerm : ℕ
  shouldInstall : Bool := false
  bytesStored : ℕ := 0
  response : Option InstallSnapshotResponse := none
  stage : Stage := .reply

/-- The outcomes of the calls in `ReadSnapshotFileData`.  `failsAfter` is how many bytes are read before
`read` fails, if it does. -/
structure ReadOutcomes where
  openSnapshot : Bool := true
  openTmp : Bool := true
  stat : Bool := true
  failsAfter : Option ℕ := none

/-- The outcomes of the calls in `ReceiveInstallSnapshot`: the descriptor that `open` returns, what the
calls of `write` accept, and whether the last `fsync` and the `rename` succeed.  The `fsync` after every
chunk is left out, as its outcome is only logged. -/
structure IoOutcomes where
  fd : Option ℕ := none
  writes : List ℕ := []
  fsync : Bool := true
  rename : Bool := true
  read : ReadOutcomes := {}

/-- The bytes of the message are written, and the file is brought to disk. -/
def IoOutcomes.Stores (io : IoOutcomes) (message : InstallSnapshot) : Prop :=
  FileSystem.accepts message.data.length io.writes = true ∧ io.fsync = true

/-- What the function reads and writes.  `applied` lists what was passed to `ApplySnapshot`; the code
does not keep it. -/
structure Receiver (σ : Type) where
  replica : Replica
  pendingSnapshotChunks : ℕ → Option PendingSnapshot
  files : FileSystem SnapshotFile
  storage : σ
  metadata : Metadata
  applied : List Bytes

/-- `fsync`; it does not succeed on a descriptor that is not open. -/
def fsync (files : FileSystem SnapshotFile) (fd : ℕ) (ok : Bool) : Option Bool :=
  if ok = true ∧ files.opened fd = none then none else some ok

/-- `ReadSnapshotFileData`.  Where `read` fails the buffer keeps its zeros. -/
def readSnapshotFileData (files : FileSystem SnapshotFile) (tmpPathToRename : Option SnapshotFile)
    (outcomes : ReadOutcomes) : Bytes :=
  let content :=
    match files.read .snapshot outcomes.openSnapshot with
    | some content => some content
    | none => tmpPathToRename.bind fun path => files.read path outcomes.openTmp
  match content with
  | none => []
  | some content =>
    if outcomes.stat then
      match outcomes.failsAfter with
      | none => content
      | some count => content.take count ++ List.replicate (content.length - count) 0
    else []

namespace Handler

/-- `SetSnapshotResponse`. -/
def setSnapshotResponse (h : Handler) (id : ℕ) (needSnapshot : Bool) (stored : ℕ) : Handler :=
  { h with
    response := some ⟨h.ourTerm, id, needSnapshot, stored, h.message.lastIncludedIndex, false⟩ }

/-- Where the function goes on when the transfer has been finalized, or need not be. -/
def afterFinalize (h : Handler) (tmpPathToRename : Option SnapshotFile) : Handler :=
  { h with stage := if h.shouldInstall then .install tmpPathToRename else .reply }

/-- Where the function goes on when the chunk has been written. -/
def afterWrite (h : Handler) (pendingFd : ℕ) (pendingTmpPath : SnapshotFile) : Handler :=
  if h.message.done ∧ h.response = none then
    { h with stage := .finalize pendingFd pendingTmpPath }
  else h.afterFinalize none

/-- The handler has taken the chunk: the descriptor and the path are copied out of the map.  Without
data the loop that writes is passed over. -/
def beginChunk (h : Handler) (p : PendingSnapshot) : Handler :=
  if h.message.data = [] then
    { h with shouldInstall := h.message.done }.afterWrite p.fd p.tmpPath
  else { h with shouldInstall := h.message.done, stage := .write p.fd p.tmpPath }

end Handler

namespace Receiver

variable {σ : Type}

/-! ### The first locked section -/

/-- Remove the entry of a leader. -/
def erasePending (s : Receiver σ) (leaderId : ℕ) : Receiver σ :=
  { s with pendingSnapshotChunks := Function.update s.pendingSnapshotChunks leaderId none }

/-- `AbortPendingLocked`, if there is a transfer from this leader. -/
def abortPending (s : Receiver σ) (leaderId : ℕ) : Receiver σ :=
  match s.pendingSnapshotChunks leaderId with
  | none => s
  | some p => { s with files := (s.files.close p.fd).unlink p.tmpPath }.erasePending leaderId

/-- The test for `already_have_matching_entry`. -/
def alreadyHaveMatchingEntry (r : Replica) (message : InstallSnapshot) : Option Bool :=
  if message.lastIncludedIndex ≤ r.commitIndex then some true
  else if message.lastIncludedIndex ≤ r.lastLogIndex then
    (r.logTermAt message.lastIncludedIndex).map fun term => term = message.lastIncludedTerm
  else some false

/-- The second half of the section: the chunk has to continue the transfer. -/
def takeChunk (s : Receiver σ) (h : Handler) : Receiver σ × Handler :=
  match s.pendingSnapshotChunks h.message.leaderId with
  | none => (s, h.setSnapshotResponse s.replica.id true 0)
  | some p =>
    if p.lastIncludedIndex ≠ h.message.lastIncludedIndex ∨
        p.lastIncludedTerm ≠ h.message.lastIncludedTerm then
      (s.abortPending h.message.leaderId, h.setSnapshotResponse s.replica.id true 0)
    else if h.message.offset ≠ p.expectedOffset then
      (s, h.setSnapshotResponse s.replica.id true p.expectedOffset)
    else (s, h.beginChunk p)

/-- The entry for a new transfer, whose file has been opened. -/
def startTransfer (s : Receiver σ) (message : InstallSnapshot) (fd : ℕ)
    (files : FileSystem SnapshotFile) : Receiver σ :=
  { s with
    files := files
    pendingSnapshotChunks := Function.update s.pendingSnapshotChunks message.leaderId
      (some ⟨message.lastIncludedIndex, message.lastIncludedTerm, 0, fd, .recvTmp⟩) }

/-- A message of a newer term demotes the replica, which writes its metadata. -/
def observeTerm (s : Receiver σ) (term : ℕ) : Receiver σ :=
  if s.replica.termCheck term = .new then
    { s with
      replica := s.replica.demoteSelf term
      metadata := (s.replica.demoteSelf term).metadata }
  else s

/-- The first locked section. -/
def accept (s : Receiver σ) (message : InstallSnapshot) (fd : Option ℕ) :
    Option (Receiver σ × Handler) :=
  if s.replica.termCheck message.term = .stale then
    let h : Handler := { message := message, ourTerm := s.replica.currentTerm }
    some (s, h.setSnapshotResponse s.replica.id false 0)
  else
    let s := s.observeTerm message.term
    let h : Handler := { message := message, ourTerm := s.replica.currentTerm }
    if message.offset = 0 then do
      guard (s.replica.snapshotLastIndex ≤ s.replica.commitIndex)
      let alreadyHave ← alreadyHaveMatchingEntry s.replica message
      if alreadyHave then some (s, h.setSnapshotResponse s.replica.id false 0)
      else
        let id := s.replica.id
        let s := s.abortPending message.leaderId
        match fd with
        | none => some (s, h.setSnapshotResponse id true 0)
        | some fd => do
            let files ← s.files.openTrunc .recvTmp fd
            some ((s.startTransfer message fd files).takeChunk h)
    else some (s.takeChunk h)

/-! ### The other sections -/

variable [Storage σ]

/-- The next section of a handler that has not come to its answer. -/
def advance (s : Receiver σ) (h : Handler) (io : IoOutcomes) : Option (Receiver σ × Handler) :=
  match h.stage with
  | .write fd tmpPath => do
      let (files, ok) ← s.files.writeAll fd h.message.data io.writes
      if ok then some ({ s with files := files }, { h with stage := .record fd tmpPath })
      else
        some ({ s with files := (files.close fd).unlink tmpPath }, { h with stage := .abort })
  | .record fd tmpPath =>
    match s.pendingSnapshotChunks h.message.leaderId with
    | none => some (s, h.afterWrite fd tmpPath)
    | some p =>
      let p := { p with expectedOffset := p.expectedOffset + h.message.data.length }
      some ({ s with
          pendingSnapshotChunks :=
            Function.update s.pendingSnapshotChunks h.message.leaderId (some p) },
        { h with bytesStored := p.expectedOffset }.afterWrite fd tmpPath)
  | .finalize fd tmpPath => do
      let ok ← fsync s.files fd io.fsync
      if ok then
        some ({ s with files := s.files.close fd }, { h with stage := .erase tmpPath })
      else
        some ({ s with files := (s.files.close fd).unlink tmpPath }, { h with stage := .abort })
  | .erase tmpPath => some (s.erasePending h.message.leaderId, h.afterFinalize (some tmpPath))
  | .abort =>
    some (s.erasePending h.message.leaderId,
      (h.setSnapshotResponse s.replica.id true 0).afterFinalize none)
  | .install tmpPathToRename =>
    some ({ s with replica :=
        s.replica.installSnapshot h.message.lastIncludedIndex h.message.lastIncludedTerm },
      { h with stage := .apply tmpPathToRename })
  | .apply tmpPathToRename => do
      let files :=
        match tmpPathToRename with
        | none => s.files
        | some path => s.files.rename path .snapshot io.rename
      let fullData := readSnapshotFileData files tmpPathToRename io.read
      let storage ← Kv.applySnapshot s.storage fullData
      some ({ s with files := files, storage := storage, applied := s.applied ++ [fullData] },
        { h with stage := .writeMetadata })
  | .writeMetadata => some ({ s with metadata := s.replica.metadata }, { h with stage := .reply })
  | .reply => none

omit [Storage σ] in
/-- The answer. -/
def respond (s : Receiver σ) (h : Handler) : InstallSnapshotResponse :=
  match h.response with
  | some response => response
  | none =>
    ⟨s.replica.currentTerm, s.replica.id, !h.shouldInstall, h.bytesStored,
      h.message.lastIncludedIndex, h.shouldInstall⟩

/-- Run a handler to its answer, at most `count` sections. -/
def finish (io : IoOutcomes) : ℕ → Receiver σ → Handler → Option (Receiver σ × Handler)
  | 0, s, h => some (s, h)
  | count + 1, s, h =>
    if h.stage = .reply then some (s, h)
    else do
      let (s, h) ← s.advance h io
      finish io count s h

/-- `ReceiveInstallSnapshot`, when no other handler comes in between. -/
def receiveInstallSnapshot (s : Receiver σ) (message : InstallSnapshot) (io : IoOutcomes) :
    Option (Receiver σ × InstallSnapshotResponse) := do
  let (s, h) ← s.accept message io.fd
  let (s, h) ← finish io 7 s h
  some (s, s.respond h)

end Receiver

/-! ### Several handlers at once -/

/-- A replica with the calls of `ReceiveInstallSnapshot` that are under way. -/
structure Server (σ : Type) where
  receiver : Receiver σ
  handlers : List Handler

/-- A thread takes up a message, runs one section of its call, or sends the answer. -/
inductive SnapshotAction
  | accept (message : InstallSnapshot) (fd : Option ℕ)
  | advance (k : ℕ) (io : IoOutcomes)
  | reply (k : ℕ)

/-- One section of one handler, and the answer if it was the last one. -/
def Server.snapshotStep {σ : Type} [Storage σ] (s : Server σ) :
    SnapshotAction → Option (Server σ × Option InstallSnapshotResponse)
  | .accept message fd => do
      let (receiver, h) ← s.receiver.accept message fd
      some (⟨receiver, s.handlers ++ [h]⟩, none)
  | .advance k io => do
      let h ← s.handlers[k]?
      let (receiver, h) ← s.receiver.advance h io
      some (⟨receiver, s.handlers.set k h⟩, none)
  | .reply k => do
      let h ← s.handlers[k]?
      guard (h.stage = .reply)
      some (⟨s.receiver, s.handlers.eraseIdx k⟩, some (s.receiver.respond h))

/-! ### The answer at the leader -/

/-- `ReceiveInstallSnapshotResponse`.  The second component is the offset that is passed to
`EnqueueSnapshot`, if it is called. -/
def Replica.receiveInstallSnapshotResponse (cfg : Config) (r : Replica)
    (response : InstallSnapshotResponse) : Option (Outcome × Option ℕ) :=
  let tr := r.termCheck response.term
  let r := if tr = .new then r.demoteSelf response.term else r
  if r.role ≠ .leader ∨ tr = .stale then some (⟨r, [], []⟩, none)
  else if response.needSnapshot then
    some (⟨r.enqueueSnapshot response.id, [], []⟩, some response.bytesStored)
  else
    let p := r.progress response.id
    if response.transferComplete then
      let r := r.setProgress response.id { p with
        state := .replicate
        nextIndex := response.lastIncludedIndex + 1
        matchIndex := max p.matchIndex response.lastIncludedIndex }
      if response.lastIncludedIndex + 1 ≤ r.lastLogIndex then do
        let fields ← r.gatherAeFields cfg response.id
        some (⟨r, [fields.toMessage], []⟩, none)
      else some (⟨r, [], []⟩, none)
    else do
      let r := r.setProgress response.id { p with state := .probe, inFlight := [] }
      let fields ← r.gatherAeFields cfg response.id
      some (⟨r, [fields.toMessage], []⟩, none)

namespace Replica

/-- The exits of `ReceiveInstallSnapshotResponse`: the leader of its term notes how the transfer
stands and may send to the follower. -/
inductive SnapshotBranch (r : Replica) (response : InstallSnapshotResponse) :
    Outcome × Option ℕ → Prop
  | ignored {r' : Replica} (hheeds : Heeds r response.term r') :
      SnapshotBranch r response (⟨r', [], []⟩, none)
  | answered {p : FollowerProgress} {sent : List (ℕ × Message)} {offset : Option ℕ}
      (hleader : r.role = .leader) (hterm : r.currentTerm = response.term)
      (hp : p = { r.progress response.id with state := .snapshot } ∨
        response.transferComplete = true ∧ p = { r.progress response.id with
          state := .replicate
          nextIndex := response.lastIncludedIndex + 1
          matchIndex := max (r.progress response.id).matchIndex response.lastIncludedIndex } ∨
        p = { r.progress response.id with state := .probe, inFlight := [] })
      (hsent : ∀ m ∈ sent, ∃ fields : AeFields, fields.toMessage = m) :
      SnapshotBranch r response (⟨r.setProgress response.id p, sent, []⟩, offset)

theorem receiveInstallSnapshotResponse_branch {cfg : Config} {r : Replica}
    {response : InstallSnapshotResponse} {out : Outcome × Option ℕ}
    (h : r.receiveInstallSnapshotResponse cfg response = some out) : SnapshotBranch r response out := by
  unfold receiveInstallSnapshotResponse at h
  simp only [bind] at h
  obtain ⟨r', hheeds, hr', hexit, _⟩ | ⟨hr', hleader, hterm, hstay⟩ :=
    heeds_or_leads r response.term
  · rw [hr', if_pos hexit] at h
    cases h
    exact .ignored hheeds
  · rw [hr', if_neg hstay] at h
    have hone : ∀ fields : AeFields, ∀ m ∈ [fields.toMessage], ∃ fields : AeFields,
        fields.toMessage = m := fun fields m hm => ⟨fields, (List.mem_singleton.1 hm).symm⟩
    split at h
    · cases h
      exact .answered hleader hterm (.inl rfl) nofun
    · split at h
      case isTrue hcomplete =>
        split at h
        · obtain ⟨fields, _, h⟩ := bind_eq_some_iff.1 h
          cases h
          exact .answered hleader hterm (.inr (.inl ⟨hcomplete, rfl⟩)) (hone fields)
        · cases h
          exact .answered hleader hterm (.inr (.inl ⟨hcomplete, rfl⟩)) nofun
      case isFalse =>
        obtain ⟨fields, _, h⟩ := bind_eq_some_iff.1 h
        cases h
        exact .answered hleader hterm (.inr (.inr rfl)) (hone fields)

end Replica

/-! ### How far a handler is -/

/-- How many sections are left at most. -/
def Stage.rank : Stage → ℕ
  | .write _ _ => 7
  | .record _ _ => 6
  | .finalize _ _ => 5
  | .erase _ => 4
  | .abort => 4
  | .install _ => 3
  | .apply _ => 2
  | .writeMetadata => 1
  | .reply => 0

theorem Handler.afterFinalize_rank (h : Handler) (tmpPathToRename : Option SnapshotFile) :
    (h.afterFinalize tmpPathToRename).stage.rank ≤ 3 := by
  unfold afterFinalize
  split_ifs
  · exact le_rfl
  · exact Nat.zero_le 3

theorem Handler.afterWrite_rank (h : Handler) (fd : ℕ) (tmpPath : SnapshotFile) :
    (h.afterWrite fd tmpPath).stage.rank ≤ 5 := by
  unfold afterWrite
  split_ifs
  · exact le_rfl
  · exact (h.afterFinalize_rank none).trans (by norm_num)

theorem Stage.rank_le (stage : Stage) : stage.rank ≤ 7 := by
  cases stage <;> exact Nat.le_of_ble_eq_true rfl

theorem Stage.eq_reply_of_rank {stage : Stage} (h : stage.rank = 0) : stage = .reply := by
  cases stage <;> first | rfl | cases h

theorem Replica.SameLog.symm {r r' : Replica} (h : SameLog r r') : SameLog r' r :=
  ⟨h.log.symm, h.lastLogIndex.symm, h.commitIndex.symm, h.lastCommitted.symm,
    h.truncatedLastIndex.symm, h.truncatedLastTerm.symm, h.snapshotLastIndex.symm,
    h.snapshotLastTerm.symm⟩

theorem Replica.SameLog.trans {r r' r'' : Replica} (h : SameLog r r') (h' : SameLog r' r'') :
    SameLog r r'' :=
  ⟨h'.log.trans h.log, h'.lastLogIndex.trans h.lastLogIndex, h'.commitIndex.trans h.commitIndex,
    h'.lastCommitted.trans h.lastCommitted, h'.truncatedLastIndex.trans h.truncatedLastIndex,
    h'.truncatedLastTerm.trans h.truncatedLastTerm, h'.snapshotLastIndex.trans h.snapshotLastIndex,
    h'.snapshotLastTerm.trans h.snapshotLastTerm⟩

namespace Receiver

variable {σ : Type} {s s' : Receiver σ} {h h' : Handler} {io : IoOutcomes}
  {message : InstallSnapshot} {fd : Option ℕ}

/-! ### What the sections touch -/

/-- Only the transfers and the files may have changed. -/
def Keeps (s s' : Receiver σ) : Prop :=
  s'.replica = s.replica ∧ s'.storage = s.storage ∧ s'.metadata = s.metadata

theorem abortPending_keeps (s : Receiver σ) (leaderId : ℕ) : s.Keeps (s.abortPending leaderId) := by
  unfold abortPending
  split <;> exact ⟨rfl, rfl, rfl⟩

/-- The ways through the second half of the first section. -/
inductive TookChunk (s : Receiver σ) (h : Handler) : Receiver σ → Handler → Prop
  /-- The chunk is not wanted; the transfer goes on without it or is given up. -/
  | answer {s' : Receiver σ} (needSnapshot : Bool) (stored : ℕ) :
      s' = s ∨ s' = s.abortPending h.message.leaderId →
      TookChunk s h s' (h.setSnapshotResponse s.replica.id needSnapshot stored)
  /-- The chunk continues the transfer. -/
  | goesOn {p : PendingSnapshot} : s.pendingSnapshotChunks h.message.leaderId = some p →
      p.lastIncludedIndex = h.message.lastIncludedIndex →
      p.lastIncludedTerm = h.message.lastIncludedTerm → h.message.offset = p.expectedOffset →
      TookChunk s h s (h.beginChunk p)

/-- A chunk is taken or answered at once. -/
theorem takeChunk_cases (s : Receiver σ) (h : Handler) :
    TookChunk s h (s.takeChunk h).1 (s.takeChunk h).2 := by
  unfold takeChunk
  split
  case h_1 => exact .answer _ _ (.inl rfl)
  case h_2 p hp =>
    split_ifs with hother hoffset
    · exact .answer _ _ (.inr rfl)
    · exact .answer _ _ (.inl rfl)
    · rw [not_or, not_not, not_not] at hother
      exact .goesOn hp hother.1 hother.2 (not_not.1 hoffset)

theorem TookChunk.keeps (ht : TookChunk s h s' h') : s.Keeps s' := by
  cases ht with
  | answer _ _ hs' =>
    obtain rfl | rfl := hs'
    · exact ⟨rfl, rfl, rfl⟩
    · exact abortPending_keeps _ _
  | goesOn => exact ⟨rfl, rfl, rfl⟩

theorem observeTerm_of_stale {term : ℕ} (h : s.replica.termCheck term = .stale) :
    s.observeTerm term = s := by
  rw [observeTerm, h]
  exact if_neg nofun

theorem observeTerm_replica (s : Receiver σ) (term : ℕ) : (s.observeTerm term).replica = s.replica ∨
      (s.observeTerm term).replica = s.replica.demoteSelf term := by
  unfold observeTerm
  split
  · exact .inr rfl
  · exact .inl rfl

/-- The first section: terms, old transfers, and the chunk. -/
theorem accept_cases (hs : s.accept message fd = some (s', h')) : ∃ s₁ ourTerm,
    (s.observeTerm message.term).Keeps s₁ ∧
      TookChunk s₁ { message := message, ourTerm := ourTerm } s' h' := by
  unfold accept at hs
  split_ifs at hs with hstale hoffset
  · cases hs
    rw [observeTerm_of_stale hstale]
    exact ⟨s, _, ⟨rfl, rfl, rfl⟩, .answer _ _ (.inl rfl)⟩
  · obtain ⟨_, _, hs⟩ := bind_eq_some_iff.1 hs
    obtain ⟨alreadyHave, _, hs⟩ := bind_eq_some_iff.1 hs
    split_ifs at hs with hhave
    · cases hs
      exact ⟨_, _, ⟨rfl, rfl, rfl⟩, .answer _ _ (.inl rfl)⟩
    · cases fd with
      | none =>
        cases hs
        exact ⟨_, _, ⟨rfl, rfl, rfl⟩, .answer _ _ (.inr rfl)⟩
      | some fd =>
        obtain ⟨files, hopen, hs⟩ := bind_eq_some_iff.1 hs
        have htook := takeChunk_cases
          (((s.observeTerm message.term).abortPending message.leaderId).startTransfer message fd files)
          { message := message, ourTerm := (s.observeTerm message.term).replica.currentTerm }
        rw [Option.some.inj hs] at htook
        refine ⟨_, _, ?_, htook⟩
        exact abortPending_keeps (s.observeTerm message.term) message.leaderId
  · have htook := takeChunk_cases (s.observeTerm message.term)
      { message := message, ourTerm := (s.observeTerm message.term).replica.currentTerm }
    rw [Option.some.inj hs] at htook
    exact ⟨_, _, ⟨rfl, rfl, rfl⟩, htook⟩

theorem accept_metadata (hs : s.accept message fd = some (s', h')) :
    s'.replica = (s.observeTerm message.term).replica ∧
      s'.metadata = (s.observeTerm message.term).metadata := by
  obtain ⟨s₁, ourTerm, hkeeps, ht⟩ := accept_cases hs
  exact ⟨ht.keeps.1.trans hkeeps.1, ht.keeps.2.2.trans hkeeps.2.2⟩

theorem accept_replica (hs : s.accept message fd = some (s', h')) :
    s'.replica = s.replica ∨ s'.replica = s.replica.demoteSelf message.term := by
  rw [(accept_metadata hs).1]
  exact s.observeTerm_replica message.term

/-- The log, its counters and the storage are as before. -/
def Untouched (s s' : Receiver σ) : Prop :=
  SameLog s.replica s'.replica ∧ s'.storage = s.storage

/-- The message is the next chunk of the transfer that is under way. -/
def Expects (s : Receiver σ) (message : InstallSnapshot) : Prop :=
  ∃ p ∈ s.pendingSnapshotChunks message.leaderId,
    p.lastIncludedIndex = message.lastIncludedIndex ∧
      p.lastIncludedTerm = message.lastIncludedTerm ∧ message.offset = p.expectedOffset

/-- The message is the next chunk of a transfer, or starts a new one. -/
def Takes (s : Receiver σ) (message : InstallSnapshot) (fd : Option ℕ) : Prop :=
  s.replica.currentTerm ≤ message.term ∧
    if message.offset = 0 then
      s.replica.commitIndex < message.lastIncludedIndex ∧
        (message.lastIncludedIndex ≤ s.replica.lastLogIndex →
          s.replica.logTermAt message.lastIncludedIndex ≠ some message.lastIncludedTerm) ∧
        fd.isSome = true
    else s.Expects message

/-- The log and its counters are as the block that installs the snapshot leaves them, and the storage is
what the snapshot file gives. -/
def Overwritten [Storage σ] (s₀ : Receiver σ) (message : InstallSnapshot) (io : IoOutcomes)
    (s : Receiver σ) : Prop :=
  SameLog (s₀.replica.installSnapshot message.lastIncludedIndex message.lastIncludedTerm) s.replica ∧
    Kv.applySnapshot s₀.storage (readSnapshotFileData s.files none io.read) = some s.storage

/-- The last chunk could not be stored, and the answer asks for it. -/
def Lost (message : InstallSnapshot) (io : IoOutcomes) (h : Handler) : Prop :=
  message.done = true ∧ ¬ io.Stores message ∧
    ∃ response, h.response = some response ∧ response.needSnapshot = true

/-- Where the handler of a chunk that was taken stands, and what it has left of the receiver `s₀`.  The
block that installs the snapshot is reached after the last chunk, stored or lost. -/
def Course [Storage σ] (s₀ : Receiver σ) (message : InstallSnapshot) (io : IoOutcomes) (s : Receiver σ)
    (h : Handler) : Prop :=
  h.message = message ∧
    match h.stage with
    | .write _ _ => Untouched s₀ s ∧ h.response = none ∧ h.shouldInstall = message.done
    | .record _ _ | .finalize _ _ =>
      Untouched s₀ s ∧ h.response = none ∧ h.shouldInstall = message.done ∧
        FileSystem.accepts message.data.length io.writes = true
    | .erase _ =>
      Untouched s₀ s ∧ h.response = none ∧ h.shouldInstall = message.done ∧ io.Stores message
    | .abort => Untouched s₀ s ∧ h.shouldInstall = message.done ∧ ¬ io.Stores message
    | .install tmpPath =>
      io.Stores message ∧ h.response = none ∧ h.shouldInstall = true ∨
        Lost message io h ∧ tmpPath = none ∧ Untouched s₀ s
    | .apply tmpPath =>
      io.Stores message ∧ h.response = none ∧ h.shouldInstall = true ∨
        Lost message io h ∧ tmpPath = none ∧ s.storage = s₀.storage ∧
          SameLog (s₀.replica.installSnapshot message.lastIncludedIndex message.lastIncludedTerm)
            s.replica
    | .writeMetadata =>
      io.Stores message ∧ h.response = none ∧ h.shouldInstall = true ∨
        Lost message io h ∧ Overwritten s₀ message io s
    | .reply =>
      message.done = false ∧ Untouched s₀ s ∨
        io.Stores message ∧ h.response = none ∧ h.shouldInstall = true ∨
          Lost message io h ∧ Overwritten s₀ message io s

variable {s₀ : Receiver σ}

theorem Untouched.keeps (hs : Untouched s₀ s) (hkeeps : s.Keeps s') : Untouched s₀ s' := by
  rw [Untouched, hkeeps.1, hkeeps.2.1]
  exact hs

theorem Untouched.observeTerm (s : Receiver σ) (term : ℕ) : Untouched s (s.observeTerm term) := by
  unfold Receiver.observeTerm
  split_ifs
  · exact ⟨Replica.demoteSelf_sameLog _ _, rfl⟩
  · exact ⟨.refl _, rfl⟩

/-- When a replica needs no snapshot. -/
theorem alreadyHaveMatchingEntry_iff {r : Replica} {already : Bool}
    (h : alreadyHaveMatchingEntry r message = some already) :
    already = false ↔ r.commitIndex < message.lastIncludedIndex ∧
      (message.lastIncludedIndex ≤ r.lastLogIndex →
        r.logTermAt message.lastIncludedIndex ≠ some message.lastIncludedTerm) := by
  unfold alreadyHaveMatchingEntry at h
  split_ifs at h with hcommit hlast
  · cases h
    exact ⟨fun h => (nomatch h), fun h => absurd hcommit (not_le.2 h.1)⟩
  · obtain ⟨term, hterm, rfl⟩ := Option.map_eq_some_iff.1 h
    rw [hterm, decide_eq_false_iff_not, ne_eq, Option.some.injEq]
    exact ⟨fun hne => ⟨not_le.1 hcommit, fun _ => hne⟩, fun h => h.2 hlast⟩
  · cases h
    exact ⟨fun _ => ⟨not_le.1 hcommit, fun hle => absurd hle hlast⟩, fun _ => rfl⟩

/-- The handler has begun with the chunk. -/
def Begun (message : InstallSnapshot) (h : Handler) : Prop :=
  ∃ ourTerm p, h = Handler.beginChunk { message := message, ourTerm := ourTerm } p

/-- The handler has its answer. -/
def Answered (h : Handler) : Prop := h.response ≠ none ∧ h.stage = .reply

theorem takeChunk_taken (message : InstallSnapshot) (s : Receiver σ) (ourTerm : ℕ) :
    s.Expects message ∧ Begun message (s.takeChunk { message := message, ourTerm := ourTerm }).2 ∨
      ¬ s.Expects message ∧ Answered (s.takeChunk { message := message, ourTerm := ourTerm }).2 := by
  unfold takeChunk
  split
  case h_1 hnone =>
    refine .inr ⟨?_, nofun, rfl⟩
    rintro ⟨p, hp, -⟩
    exact nomatch hnone.symm.trans hp
  case h_2 p hp =>
    have honly : ∀ q ∈ s.pendingSnapshotChunks message.leaderId, q = p := fun q hq =>
      Option.some.inj (hq.symm.trans hp)
    split_ifs with hother hoffset
    · refine .inr ⟨?_, nofun, rfl⟩
      rintro ⟨q, hq, hindex, hterm, -⟩
      obtain rfl := honly q hq
      exact hother.elim (absurd hindex) (absurd hterm)
    · refine .inr ⟨?_, nofun, rfl⟩
      rintro ⟨q, hq, -, -, heq⟩
      obtain rfl := honly q hq
      exact hoffset heq
    · rw [not_or, not_not, not_not] at hother
      exact .inl ⟨⟨p, hp, hother.1, hother.2, not_not.1 hoffset⟩, ourTerm, p, rfl⟩

theorem accept_taken (hs : s.accept message fd = some (s', h')) :
    s.Takes message fd ∧ Begun message h' ∨ ¬ s.Takes message fd ∧ Answered h' := by
  have hlog := (Untouched.observeTerm s message.term).1
  unfold accept at hs
  split_ifs at hs with hstale hoffset
  · cases hs
    rw [Replica.termCheck_eq_stale] at hstale
    exact .inr ⟨fun h => absurd h.1 (not_le.2 hstale), nofun, rfl⟩
  · obtain ⟨_, _, hs⟩ := bind_eq_some_iff.1 hs
    obtain ⟨alreadyHave, halready, hs⟩ := bind_eq_some_iff.1 hs
    have hterm := not_lt.1 (Replica.termCheck_eq_stale.not.1 hstale)
    have hhave := alreadyHaveMatchingEntry_iff halready
    rw [hlog.commitIndex, hlog.lastLogIndex, hlog.logTermAt] at hhave
    rw [Takes, if_pos hoffset, and_iff_right hterm, ← and_assoc, ← hhave]
    split_ifs at hs with htrue
    · cases hs
      exact .inr ⟨fun h => absurd htrue (Bool.eq_false_iff.1 h.1), nofun, rfl⟩
    · rw [Bool.not_eq_true] at htrue
      cases fd with
      | none =>
        cases hs
        exact .inr ⟨fun h => (nomatch h.2), nofun, rfl⟩
      | some fd =>
        obtain ⟨files, hopen, hs⟩ := bind_eq_some_iff.1 hs
        have htook := takeChunk_taken message
          (((s.observeTerm message.term).abortPending message.leaderId).startTransfer message fd files)
          (s.observeTerm message.term).replica.currentTerm
        rw [Option.some.inj hs] at htook
        -- the transfer that was just started expects its first chunk
        refine htook.elim (fun h => .inl ⟨⟨htrue, rfl⟩, h.2⟩) fun h => absurd ?_ h.1
        exact ⟨_, Function.update_self _ _ _, rfl, rfl, hoffset⟩
  · have hterm := not_lt.1 (Replica.termCheck_eq_stale.not.1 hstale)
    have htook := takeChunk_taken message (s.observeTerm message.term)
      (s.observeTerm message.term).replica.currentTerm
    rw [Option.some.inj hs] at htook
    have hexpects : (s.observeTerm message.term).Expects message ↔ s.Takes message fd := by
      rw [Takes, if_neg hoffset, and_iff_right hterm, Expects, Expects]
      unfold Receiver.observeTerm
      split_ifs <;> rfl
    rwa [hexpects] at htook

variable [Storage σ]

theorem Course.afterWrite (hs : Untouched s₀ s) (hmessage : h.message = message)
    (hresponse : h.response = none) (hinstall : h.shouldInstall = message.done)
    (haccepts : FileSystem.accepts message.data.length io.writes = true) (fd : ℕ)
    (tmpPath : SnapshotFile) : Course s₀ message io s (h.afterWrite fd tmpPath) := by
  subst hmessage
  unfold Handler.afterWrite
  split_ifs with hdone
  · exact ⟨rfl, hs, hresponse, hinstall, haccepts⟩
  · have hnot : ¬ h.message.done = true := fun htrue => hdone ⟨htrue, hresponse⟩
    refine ⟨rfl, ?_⟩
    rw [Handler.afterFinalize, if_neg (hinstall ▸ hnot)]
    exact .inl ⟨Bool.eq_false_iff.2 hnot, hs⟩

theorem Course.accept (hs : s.accept message fd = some (s', h')) (hbegun : Begun message h') :
    Course s message io s' h' := by
  obtain ⟨s₁, ourTerm₁, hkeeps, ht⟩ := accept_cases hs
  have hs' := ((Untouched.observeTerm s message.term).keeps hkeeps).keeps ht.keeps
  obtain ⟨ourTerm, p, rfl⟩ := hbegun
  unfold Handler.beginChunk
  split_ifs with hdata
  · refine .afterWrite hs' rfl rfl rfl ?_ _ _
    rw [show message.data = [] from hdata, List.length_nil, FileSystem.accepts]
  · exact ⟨rfl, hs', rfl, rfl⟩

/-- What a section may change. -/
theorem advance_touches (hs : s.advance h io = some (s', h')) : (s'.replica = s.replica ∧
      (s'.metadata = s.metadata ∨ s'.metadata = s'.replica.metadata)) ∨
      (∃ tmpPath, h.stage = .install tmpPath) ∧ s'.metadata = s.metadata ∧ s'.replica =
        s.replica.installSnapshot h.message.lastIncludedIndex h.message.lastIncludedTerm := by
  unfold advance at hs
  split at hs
  case h_1 =>
    obtain ⟨⟨files, ok⟩, _, hs⟩ := bind_eq_some_iff.1 hs
    left
    cases ok <;> cases hs <;> exact ⟨rfl, .inl rfl⟩
  case h_2 =>
    left
    split at hs <;> cases hs <;> exact ⟨rfl, .inl rfl⟩
  case h_3 =>
    obtain ⟨ok, _, hs⟩ := bind_eq_some_iff.1 hs
    left
    cases ok <;> cases hs <;> exact ⟨rfl, .inl rfl⟩
  case h_6 tmpPath hstage =>
    cases hs
    exact .inr ⟨⟨tmpPath, hstage⟩, rfl, rfl⟩
  case h_7 =>
    obtain ⟨storage, _, hs⟩ := bind_eq_some_iff.1 hs
    cases hs
    exact .inl ⟨rfl, .inl rfl⟩
  case h_8 =>
    cases hs
    exact .inl ⟨rfl, .inr rfl⟩
  case h_9 => cases hs
  all_goals
    cases hs
    exact .inl ⟨rfl, .inl rfl⟩

theorem advance_replica (hs : s.advance h io = some (s', h')) : s'.replica = s.replica ∨
      (∃ tmpPath, h.stage = .install tmpPath) ∧ s'.replica =
        s.replica.installSnapshot h.message.lastIncludedIndex h.message.lastIncludedTerm :=
  (advance_touches hs).imp And.left fun ⟨hstage, _, hinstall⟩ => ⟨hstage, hinstall⟩

theorem advance_metadata (hs : s.advance h io = some (s', h')) :
    s'.metadata = s.metadata ∨ s'.metadata = s'.replica.metadata := by
  obtain ⟨-, hmetadata⟩ | ⟨-, hkept, -⟩ := advance_touches hs
  · exact hmetadata
  · exact .inl hkept

/-! ### A chunk that is asked for again -/

/-- One section.  The last chunk is lost where the loop or the last `fsync` fails. -/
theorem Course.advance (hI : Course s₀ message io s h) (hs : s.advance h io = some (s', h')) :
    Course s₀ message io s' h' := by
  obtain ⟨rfl, hI⟩ := hI
  unfold Receiver.advance at hs
  split at hs
  case h_1 fd tmpPath hstage =>
    rw [hstage] at hI
    obtain ⟨⟨files, ok⟩, hw, hs⟩ := bind_eq_some_iff.1 hs
    have hok := FileSystem.writeAll_snd _ _ hw
    cases ok with
    | true =>
      cases hs
      exact ⟨rfl, hI.1, hI.2.1, hI.2.2, hok.symm⟩
    | false =>
      cases hs
      refine ⟨rfl, hI.1, hI.2.2, fun hstores => ?_⟩
      exact Bool.false_ne_true (hok.trans hstores.1)
  case h_2 fd tmpPath hstage =>
    rw [hstage] at hI
    obtain ⟨huntouched, hresponse, hinstall, haccepts⟩ := hI
    split at hs
    all_goals
      cases hs
      refine .afterWrite ?_ rfl ?_ ?_ ?_ fd tmpPath
      · exact huntouched
      · exact hresponse
      · exact hinstall
      · exact haccepts
  case h_3 fd tmpPath hstage =>
    rw [hstage] at hI
    obtain ⟨huntouched, hresponse, hinstall, haccepts⟩ := hI
    obtain ⟨ok, hsync, hs⟩ := bind_eq_some_iff.1 hs
    obtain rfl : io.fsync = ok := by
      rw [fsync] at hsync
      split_ifs at hsync
      exact Option.some.inj hsync
    cases hfsync : io.fsync with
    | true =>
      rw [hfsync] at hs
      cases hs
      exact ⟨rfl, huntouched, hresponse, hinstall, haccepts, hfsync⟩
    | false =>
      rw [hfsync] at hs
      cases hs
      refine ⟨rfl, huntouched, hinstall, fun hstores => ?_⟩
      exact Bool.false_ne_true (hfsync.symm.trans hstores.2)
  case h_4 tmpPath hstage =>
    rw [hstage] at hI
    obtain ⟨huntouched, hresponse, hinstall, hstores⟩ := hI
    cases hs
    refine ⟨rfl, ?_⟩
    unfold Handler.afterFinalize
    split_ifs with hdone
    · exact .inl ⟨hstores, hresponse, hdone⟩
    · exact .inl ⟨hinstall.symm.trans (Bool.eq_false_iff.2 hdone), huntouched⟩
  case h_5 hstage =>
    rw [hstage] at hI
    obtain ⟨huntouched, hinstall, hstores⟩ := hI
    cases hs
    refine ⟨rfl, ?_⟩
    unfold Handler.afterFinalize
    split_ifs with hdone
    · exact .inr ⟨⟨hinstall.symm.trans hdone, hstores, _, rfl, rfl⟩, rfl, huntouched⟩
    · exact .inl ⟨hinstall.symm.trans (Bool.eq_false_iff.2 hdone), huntouched⟩
  case h_6 tmpPath hstage =>
    rw [hstage] at hI
    cases hs
    refine ⟨rfl, hI.imp_right fun ⟨hlost, hpath, huntouched⟩ => ⟨hlost, hpath, huntouched.2, ?_⟩⟩
    exact ⟨rfl, rfl, rfl, rfl, rfl, rfl, rfl, rfl⟩
  case h_7 tmpPath hstage =>
    rw [hstage] at hI
    obtain ⟨storage, hstorage, hs⟩ := bind_eq_some_iff.1 hs
    cases hs
    refine ⟨rfl, hI.imp_right ?_⟩
    rintro ⟨hlost, rfl, hkept, hinstalled⟩
    rw [hkept] at hstorage
    exact ⟨hlost, hinstalled, hstorage⟩
  case h_8 hstage =>
    rw [hstage] at hI
    cases hs
    exact ⟨rfl, .inr hI⟩
  case h_9 => cases hs

/-! ### The function comes to its end -/

/-- Every section brings the handler closer to its answer. -/
theorem advance_rank (hs : s.advance h io = some (s', h')) : h'.stage.rank < h.stage.rank := by
  unfold advance at hs
  split at hs
  case h_1 fd tmpPath hstage =>
    rw [hstage]
    obtain ⟨⟨files, ok⟩, _, hs⟩ := bind_eq_some_iff.1 hs
    cases ok
    · cases hs
      exact Nat.lt_of_sub_eq_succ rfl
    · cases hs
      exact Nat.lt_succ_self 6
  case h_2 fd tmpPath hstage =>
    rw [hstage]
    split at hs
    · cases hs
      exact Nat.lt_succ_of_le (Handler.afterWrite_rank _ _ _)
    · cases hs
      exact Nat.lt_succ_of_le (Handler.afterWrite_rank _ _ _)
  case h_3 fd tmpPath hstage =>
    rw [hstage]
    obtain ⟨ok, _, hs⟩ := bind_eq_some_iff.1 hs
    cases ok
    · cases hs
      exact Nat.lt_succ_self 4
    · cases hs
      exact Nat.lt_succ_self 4
  case h_4 tmpPath hstage | h_5 hstage =>
    cases hs
    rw [hstage]
    exact Nat.lt_succ_of_le (Handler.afterFinalize_rank _ _)
  case h_6 tmpPath hstage =>
    cases hs
    rw [hstage]
    exact Nat.lt_succ_self 2
  case h_7 tmpPath hstage =>
    rw [hstage]
    obtain ⟨storage, _, hs⟩ := bind_eq_some_iff.1 hs
    cases hs
    exact Nat.lt_succ_self 1
  case h_8 hstage =>
    cases hs
    rw [hstage]
    exact Nat.lt_succ_self 0
  case h_9 => cases hs

/-- So it answers. -/
theorem finish_reply (count : ℕ) : ∀ {s s' : Receiver σ} {h h' : Handler},
    h.stage.rank ≤ count → finish io count s h = some (s', h') → h'.stage = .reply := by
  induction count with
  | zero =>
    intro s s' h h' hrank hs
    cases hs
    exact Stage.eq_reply_of_rank (Nat.le_zero.1 hrank)
  | succ count ih =>
    intro s s' h h' hrank hs
    rw [finish] at hs
    split_ifs at hs with hreply
    · cases hs
      exact hreply
    · obtain ⟨⟨s₁, h₁⟩, hadv, hs⟩ := bind_eq_some_iff.1 hs
      have hlt := advance_rank hadv
      exact ih (by omega) hs

/-- A rule for what the remaining sections keep. -/
theorem finish_invariant {I : Receiver σ → Handler → Prop}
    (hstep : ∀ {s s' : Receiver σ} {h h' : Handler}, I s h → s.advance h io = some (s', h') → I s' h')
    (count : ℕ) : ∀ {s s' : Receiver σ} {h h' : Handler}, I s h →
    finish io count s h = some (s', h') → I s' h' := by
  induction count with
  | zero =>
    intro s s' h h' hI hs
    cases hs
    exact hI
  | succ count ih =>
    intro s s' h h' hI hs
    rw [finish] at hs
    split_ifs at hs with hreply
    · cases hs
      exact hI
    · obtain ⟨⟨s₁, h₁⟩, hadv, hs⟩ := bind_eq_some_iff.1 hs
      exact ih (hstep hI hadv) hs

theorem finish_of_reply (count : ℕ) (hreply : h.stage = .reply) :
    finish io count s h = some (s, h) := by
  cases count with
  | zero => rfl
  | succ count => rw [finish, if_pos hreply]

/-- **A reply that asks for the snapshot** has left the log, its counters and the storage as they were if
and only if the message was not the next chunk of a transfer, or not the last one, or could be stored, or
there was nothing that the installation could change. -/
theorem snapshot_failure_harmless {response : InstallSnapshotResponse}
    (hs : s.receiveInstallSnapshot message io = some (s', response)) :
    (response.needSnapshot = true → SameLog s.replica s'.replica ∧ s'.storage = s.storage) ↔
      ¬ s.Takes message io.fd ∨ message.done = false ∨ io.Stores message ∨
        SameLog s.replica
            (s.replica.installSnapshot message.lastIncludedIndex message.lastIncludedTerm) ∧
          Kv.applySnapshot s.storage (readSnapshotFileData s'.files none io.read) = some s.storage := by
  obtain ⟨⟨s₁, h₁⟩, haccept, hs⟩ := bind_eq_some_iff.1 hs
  obtain ⟨⟨s₂, h₂⟩, hfinish, hs⟩ := bind_eq_some_iff.1 hs
  cases hs
  rcases accept_taken haccept with ⟨htakes, hbegun⟩ | ⟨htakes, -, hreply⟩
  · have hreply := finish_reply 7 h₁.stage.rank_le hfinish
    have hcourse := finish_invariant Course.advance 7 (.accept haccept hbegun) hfinish
    obtain ⟨_, hcourse⟩ := hcourse
    rw [hreply] at hcourse
    obtain ⟨hdone, hsame⟩ | ⟨hstores, hnone, hinstall⟩ | ⟨hlost, hlog, hstorage⟩ := hcourse
    · exact ⟨fun _ => .inr (.inl hdone), fun _ _ => hsame⟩
    · -- the snapshot was installed, and the reply says so
      refine ⟨fun _ => .inr (.inr (.inl hstores)), fun _ hneed => ?_⟩
      rw [respond, hnone, hinstall] at hneed
      cases hneed
    · obtain ⟨hdone, hstores, response, hresponse, hneed⟩ := hlost
      have hrespond : (s'.respond h₂).needSnapshot = true := by
        rw [respond, hresponse]
        exact hneed
      constructor
      · intro h
        obtain ⟨hsame, hkept⟩ := h hrespond
        exact .inr (.inr (.inr ⟨hsame.trans hlog.symm, hkept ▸ hstorage⟩))
      · rintro (hnot | hnot | hnot | ⟨hsame, hkept⟩) -
        · exact absurd htakes hnot
        · exact absurd (hdone.symm.trans hnot) (by simp)
        · exact absurd hnot hstores
        · exact ⟨hsame.trans hlog, Option.some.inj (hstorage.symm.trans hkept)⟩
  · obtain ⟨rfl, rfl⟩ : s₁ = s' ∧ h₁ = h₂ := by
      rw [finish_of_reply 7 hreply] at hfinish
      exact Prod.mk.inj (Option.some.inj hfinish)
    obtain ⟨s₀, ourTerm, hkeeps, ht⟩ := accept_cases haccept
    have hsame := ((Untouched.observeTerm s message.term).keeps hkeeps).keeps ht.keeps
    exact ⟨fun _ => .inl htakes, fun _ _ => hsame⟩

/-! ### A last chunk that cannot be stored -/

/-- A follower as constructed, with an empty disk. -/
def start (id : ℕ) (storage : σ) : Receiver σ where
  replica := .construct id
  pendingSnapshotChunks := fun _ => none
  files := .empty
  storage := storage
  metadata := {}
  applied := []

/-- The follower after its process was started again: the names on the disk are there, the descriptors
are closed, and the `Raft` object is new. -/
def reboot (s : Receiver σ) : Receiver σ :=
  { start s.replica.id s.storage with
    files := { s.files with opened := fun _ => none }
    metadata := s.metadata }

/-- A snapshot of one chunk that ends at index 5. -/
def oneChunk : InstallSnapshot where
  term := 1
  leaderId := 1
  lastIncludedIndex := 5
  lastIncludedTerm := 1
  offset := 0
  data := [7, 7]
  done := true

/-- Storage with one plain value. -/
def oneValue : Kv.MemoryDB := (({} : Kv.MemoryDB).setValue [1] [2]).2

/-- A last chunk without a transfer.  It is asked for again, and nothing has changed, whatever the calls
would have returned. -/
theorem snapshot_failure_harmless_oneChunk :
    ∃ s' response,
      (start 2 oneValue).receiveInstallSnapshot { oneChunk with offset := 1 } {} =
        some (s', response) ∧ response.needSnapshot = true ∧
      SameLog (construct 2) s'.replica ∧ s'.storage = oneValue := by
  have hresult : ((start 2 oneValue).receiveInstallSnapshot { oneChunk with offset := 1 } {}).map
      (fun r => r.2.needSnapshot) = some true := by decide +kernel
  obtain ⟨⟨s', response⟩, hs, hneed⟩ := Option.map_eq_some_iff.1 hresult
  have htakes : ¬ (start 2 oneValue).Takes { oneChunk with offset := 1 } none := by
    rintro ⟨-, h⟩
    rw [if_neg (by decide)] at h
    obtain ⟨p, hp, -⟩ := h
    exact nomatch hp
  exact ⟨s', response, hs, hneed, (snapshot_failure_harmless hs).2 (.inl htakes) hneed⟩

/-- The disk is full when the only chunk arrives.  The reply asks for it again, and yet the log starts
behind the snapshot, and the storage is empty. -/
theorem snapshot_failure_harmless_fails :
    ∃ s' response,
      (start 2 oneValue).receiveInstallSnapshot oneChunk { fd := some 3 } = some (s', response) ∧
        response.needSnapshot = true ∧ s'.replica.commitIndex = 5 ∧ s'.replica.lastLogIndex = 5 ∧
        s'.storage.kvMap.entries.length = 0 ∧
        ¬ (SameLog (construct 2) s'.replica ∧ s'.storage = oneValue) := by
  have hresult : ((start 2 oneValue).receiveInstallSnapshot oneChunk { fd := some 3 }).map
      (fun r => (r.2.needSnapshot, r.1.replica.commitIndex, r.1.replica.lastLogIndex,
        r.1.storage.kvMap.entries.length)) = some (true, 5, 5, 0) := by decide +kernel
  obtain ⟨⟨s', response⟩, hs, hvalues⟩ := Option.map_eq_some_iff.1 hresult
  simp only [Prod.mk.injEq] at hvalues
  obtain ⟨hneed, hcommit, hlast, hstorage⟩ := hvalues
  refine ⟨s', response, hs, hneed, hcommit, hlast, hstorage, ?_⟩
  rintro ⟨hsame, _⟩
  rw [hsame.commitIndex] at hcommit
  cases hcommit

end Receiver

end Raft
