/-
**Raft clusters whose replicas crash and restart.**

A deployment is a cluster (`ResilientDb/RaftCluster.lean`) together with what every replica has on
disk.  A replica may crash at any time.  It comes up, for the first time and after every crash, through
the constructor of `Consensus`, which builds a new `Raft` object, starts the election timer and then calls
`RecoverFromLogs`; messages are taken only after that, but the timer may expire between any two of its
calls.

`ReadMetadata` reads from the descriptor that was opened before the `Raft` object was built, while
`WriteMetadata` replaces the file.  What `RecoverFromLogs` loads is therefore the metadata at the
time of the restart, whatever was written since.  Which records it replays is left open.

What a timer sends before `InitProtocol` is in the network at once.  In the code its thread can send it
only when that call was made, if the process does not end before; messages arrive at any later time anyway.

Main definitions:

* `Raft.Deployment`, `Raft.deploymentSystem` — the state and the runs;
* `Raft.SafeElections` — the condition under which no term has two leaders.
-/

import ResilientDb.RaftCluster
import ResilientDb.RaftRecovery

set_option autoImplicit false

namespace Raft

/-- The settings of a deployment. -/
structure Settings where
  cfg : Config
  recoveryEnabled : Bool
  snapshotBufferAmount : ℕ

/-- A cluster, the metadata file of every replica, and how far its constructor has come. -/
structure Deployment where
  cluster : Cluster
  disk : ℕ → Metadata
  startup : ℕ → Startup

/-- What can happen to a deployment. -/
inductive LifeAction
  /-- A handler runs, or a timer expires. -/
  | act (a : Action)
  /-- A chunk of a snapshot arrives. -/
  | receiveInstallSnapshot (i term lastIncludedIndex lastIncludedTerm : ℕ) (shouldInstall : Bool)
  /-- A checkpoint is finished. -/
  | truncatePrefix (i snapshotIndex : ℕ)
  /-- A replica crashes; its process is started again and has built the `Raft` object. -/
  | restart (i : ℕ)
  /-- The constructor of `Consensus` goes on. -/
  | recover (i : ℕ) (a : RecoveryAction)

/-- The message grants a vote. -/
def Packet.grantsVote (p : Packet) : Bool :=
  match p.message with
  | .requestVoteResponse rvr => rvr.voteGranted
  | _ => false

/-- Replica `i` has written its metadata in the step from `c` to `c'`: its term or its vote has
changed, or it has granted its vote once more. -/
def Cluster.WritesMetadata (c c' : Cluster) (i : ℕ) : Prop :=
  (c'.replicas i).currentTerm ≠ (c.replicas i).currentTerm ∨
    (c'.replicas i).votedFor ≠ (c.replicas i).votedFor ∨
      ∃ p ∈ c'.sent.drop c.sent.length, p.src = i ∧ p.grantsVote = true

instance (c c' : Cluster) (i : ℕ) : Decidable (c.WritesMetadata c' i) :=
  inferInstanceAs (Decidable (_ ∨ _))

namespace Deployment

/-- The replicas as constructed, with empty disks. -/
def start (s : Settings) : Deployment where
  cluster := .start
  disk := fun _ => {}
  startup := fun _ => .begin s.recoveryEnabled {}

/-- The replica that is to take the action is up, or the action is one of its timer thread. -/
def Listens (d : Deployment) : Action → Prop
  | .receiveTransaction i _ _ => (d.startup i).isReady = true
  | .finishTransaction i _ => (d.startup i).isReady = true
  | .deliver k _ => ∀ p ∈ d.cluster.sent[k]?, (d.startup p.dst).isReady = true
  | .startElection _ => True
  | .sendHeartbeat _ _ => True

instance (d : Deployment) (a : Action) : Decidable (d.Listens a) :=
  match a with
  | .receiveTransaction _ _ _ | .finishTransaction _ _ => inferInstanceAs (Decidable (_ = _))
  | .deliver k _ => inferInstanceAs (Decidable (∀ p ∈ d.cluster.sent[k]?, _))
  | .startElection _ | .sendHeartbeat _ _ => inferInstanceAs (Decidable True)

/-- The cluster has moved on; replicas that have written their metadata have it on disk. -/
def persist (s : Settings) (d : Deployment) (c : Cluster) : Deployment :=
  { d with
    cluster := c
    disk := fun i =>
      if s.recoveryEnabled = true ∧ d.cluster.WritesMetadata c i then (c.replicas i).metadata
      else d.disk i }

/-- Replace one replica; its metadata is written if `write` is set. -/
def setReplica (s : Settings) (d : Deployment) (i : ℕ) (r : Replica) (write : Bool) : Deployment :=
  { d with
    cluster := d.cluster.update i ⟨r, [], []⟩
    disk := if s.recoveryEnabled && write then Function.update d.disk i r.metadata else d.disk }

/-- One action. -/
def step (s : Settings) (d : Deployment) : LifeAction → Option Deployment
  | .act a => do
      guard (d.Listens a)
      let c ← d.cluster.step s.cfg a
      some (d.persist s c)
  | .receiveInstallSnapshot i term lastIncludedIndex lastIncludedTerm shouldInstall => do
      guard (s.cfg.IsMember i)
      guard ((d.startup i).isReady = true)
      let r := d.cluster.replicas i
      let write := decide (r.currentTerm < term ∨ (r.currentTerm = term ∧ shouldInstall))
      some (d.setReplica s i
        (r.receiveInstallSnapshot term lastIncludedIndex lastIncludedTerm shouldInstall) write)
  | .truncatePrefix i snapshotIndex => do
      guard (s.cfg.IsMember i)
      guard ((d.startup i).isReady = true)
      let (r, write) ←
        (d.cluster.replicas i).truncatePrefix s.cfg s.snapshotBufferAmount snapshotIndex
      some (d.setReplica s i r write)
  | .restart i => do
      guard (s.cfg.IsMember i)
      let d' := d.setReplica s i (Replica.construct i) false
      some { d' with
        cluster := { d'.cluster with pending := d.cluster.pending.filter fun t => t.1 ≠ i }
        startup := Function.update d.startup i (.begin s.recoveryEnabled (d.disk i)) }
  | .recover i a => do
      let (r, startup) ← (d.cluster.replicas i).recover (d.startup i) a
      let d' := d.setReplica s i r false
      some { d' with startup := Function.update d.startup i startup }

end Deployment

/-- The runs of a deployment. -/
def deploymentSystem (s : Settings) : TransitionSystem Deployment LifeAction where
  init d := d = .start s
  step := Deployment.step s

/-- Replica 1 comes back in a term that only it can have led. -/
def Deployment.MayLead (d : Deployment) : Startup → Prop
  | .opened metadata .setCurrentTerm =>
    metadata.currentTerm ≤ 1 ∨
      ∃ l ∈ d.cluster.leaderLogs, l.term = metadata.currentTerm ∧ l.id = 1
  | _ => True

instance (d : Deployment) : (startup : Startup) → Decidable (d.MayLead startup)
  | .opened _ .setCurrentTerm => inferInstanceAs (Decidable (_ ∨ _))
  | .opened _ .setVotedFor | .opened _ .setSnapshotLastIndexAndTerm | .replaying | .ready =>
    isTrue trivial

/-- The condition.  No replica starts an election from term 0 or before it has loaded its term and its
vote, a replica that restarts has its metadata on disk, and replica 1 comes back in a term that only it
can have led. -/
def SafeElections (s : Settings) (d : Deployment) : LifeAction → Prop
  | .act (.startElection i) =>
    (d.cluster.replicas i).role = .leader ∨
      (d.startup i).Loaded ∧ 1 ≤ (d.cluster.replicas i).currentTerm
  | .restart _ => s.recoveryEnabled = true
  | .recover i _ => i = 1 → d.MayLead (d.startup i)
  | _ => True

instance (s : Settings) (d : Deployment) (a : LifeAction) : Decidable (SafeElections s d a) := by
  unfold SafeElections
  split <;> infer_instance

end Raft
