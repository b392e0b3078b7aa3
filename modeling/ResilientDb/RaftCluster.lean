/-
**Runs of a Raft cluster.**

A cluster is a number of replicas and a network that may delay, reorder, duplicate and lose
messages, but not forge them: a message once sent can be delivered at any later time, any number of
times, or never.  No replica crashes and no snapshot is taken.  Any replica may be given a
transaction, start an election or send a heartbeat at any time.

Next to the replicas a cluster carries what has happened so far: the log of the sender at the time a
message was sent, the logs that leaders have had, and the requests that replicas have returned from
`PrepareCommitLocked`.  The handlers do not read it.

Main definitions:

* `Raft.Cluster`, `Raft.clusterSystem` — the state and the runs;
* `Raft.OneLeaderPerTerm` — no term has had two leaders;
* `Raft.LogMatching`, `Raft.MatchIndexSound`, `Raft.StateMachineSafety` — the properties;
* `Raft.CoveredProbes` — the condition under which the last two hold;
* `Raft.threeReplicas`, `Raft.clusterAfter` — a small cluster whose runs can be computed.
-/

import ResilientDb.RaftHandlers
import ResilientDb.Transition

set_option autoImplicit false

namespace Raft

/-! ### The network and the history -/

/-- A message that was sent, with its sender and the log the sender had. -/
structure Packet where
  src : ℕ
  dst : ℕ
  message : Message
  srcLog : List Entry
deriving DecidableEq

/-- A log that the leader of a term has had. -/
structure LeaderLog where
  term : ℕ
  id : ℕ
  log : List Entry
deriving DecidableEq

/-- A request returned by `PrepareCommitLocked` on a replica. -/
structure Applied where
  id : ℕ
  request : Request
deriving DecidableEq

/-- The replicas, the messages sent so far, the calls of `ReceiveTransaction` that wait for the
write-ahead log, and the history. -/
structure Cluster where
  replicas : ℕ → Replica
  sent : List Packet
  pending : List (ℕ × ℕ)
  leaderLogs : List LeaderLog
  applied : List Applied

namespace Cluster

/-- The record of a replica that is leader. -/
def leaderLog (r : Replica) : List LeaderLog :=
  if r.role = .leader then [⟨r.currentTerm, r.id, r.log⟩] else []

/-- The replicas as constructed. -/
def start : Cluster where
  replicas := Replica.construct
  sent := []
  pending := []
  leaderLogs := leaderLog (Replica.construct 1)
  applied := []

/-- Replica `i` has run a handler. -/
def update (c : Cluster) (i : ℕ) (o : Outcome) : Cluster :=
  { c with
    replicas := Function.update c.replicas i o.replica
    sent := c.sent ++ o.sent.map fun m => ⟨i, m.1, m.2, o.replica.log⟩
    leaderLogs := c.leaderLogs ++ leaderLog o.replica
    applied := c.applied ++ o.applied.map fun request => ⟨i, request⟩ }

end Cluster

/-! ### Runs -/

/-- What can happen in a cluster.  `now` are the readings of the local clock. -/
inductive Action
  /-- A client hands a transaction to a replica. -/
  | receiveTransaction (i : ℕ) (serialized : String) (now : ℕ → ℕ)
  /-- The entry of an earlier transaction has reached the disk. -/
  | finishTransaction (i myLogIndex : ℕ)
  /-- The network delivers the `k`-th message sent. -/
  | deliver (k : ℕ) (now : ℕ → ℕ)
  /-- A replica's election timer expires. -/
  | startElection (i : ℕ)
  /-- A replica's heartbeat timer expires, or it was just elected. -/
  | sendHeartbeat (i : ℕ) (now : ℕ → ℕ)

/-- The handler for a message. -/
def Replica.receive (cfg : Config) (r : Replica) (now : ℕ → ℕ) : Message → Option Outcome
  | .appendEntries ae => r.receiveAppendEntries cfg ae
  | .appendEntriesResponse aer => r.receiveAppendEntriesResponse cfg aer now
  | .requestVote rv => r.receiveRequestVote rv
  | .requestVoteResponse rvr => r.receiveRequestVoteResponse cfg rvr

namespace Cluster

/-- One action. -/
def step (cfg : Config) (c : Cluster) : Action → Option Cluster
  | .receiveTransaction i serialized now => do
      guard (cfg.IsMember i)
      let (o, myLogIndex) ← (c.replicas i).receiveTransaction cfg serialized now
      some { c.update i o with
        pending := c.pending ++ (myLogIndex.map fun index => (i, index)).toList }
  | .finishTransaction i myLogIndex => do
      guard (cfg.IsMember i)
      guard ((i, myLogIndex) ∈ c.pending)
      some { c.update i ⟨(c.replicas i).finishTransaction myLogIndex, [], []⟩ with
        pending := c.pending.erase (i, myLogIndex) }
  | .deliver k now => do
      let p ← c.sent[k]?
      let o ← (c.replicas p.dst).receive cfg now p.message
      some (c.update p.dst o)
  | .startElection i => do
      guard (cfg.IsMember i)
      let o ← (c.replicas i).startElection cfg
      some (c.update i o)
  | .sendHeartbeat i now => do
      guard (cfg.IsMember i)
      let o ← (c.replicas i).sendHeartbeat cfg now
      some (c.update i o)

end Cluster

/-- The runs of a cluster. -/
def clusterSystem (cfg : Config) : TransitionSystem Cluster Action where
  init c := c = .start
  step := Cluster.step cfg

/-! ### Properties -/

/-- No term has had two leaders. -/
def OneLeaderPerTerm (c : Cluster) : Prop :=
  ∀ l ∈ c.leaderLogs, ∀ l' ∈ c.leaderLogs, l.term = l'.term → l.id = l'.id

instance (c : Cluster) : Decidable (OneLeaderPerTerm c) :=
  inferInstanceAs (Decidable (∀ l ∈ c.leaderLogs, ∀ l' ∈ c.leaderLogs, _))

/-- Log matching: two logs with entries of the same term at the same index hold the same entries up
to that index. -/
def LogMatching (cfg : Config) (c : Cluster) : Prop :=
  ∀ i j, cfg.IsMember i → cfg.IsMember j → ∀ k e e',
    (c.replicas i).log[k]? = some e → (c.replicas j).log[k]? = some e' → e.term = e'.term →
      (c.replicas i).log.take (k + 1) = (c.replicas j).log.take (k + 1)

/-- `match_index` soundness.  Whenever the leader of a term takes the success branch on a response
of its term and so stores a `match_index`, the log that the follower had when it produced the
response agrees with the leader's log up to that index. -/
def MatchIndexSound (cfg : Config) (c : Cluster) : Prop :=
  ∀ k now c' p aer, c.sent[k]? = some p → p.message = .appendEntriesResponse aer →
    aer.success = true → (c.replicas p.dst).role = .leader →
      (c.replicas p.dst).currentTerm = aer.term →
        ((c.replicas p.dst).progress aer.id).matchIndex ≤ aer.lastLogIndex →
          c.step cfg (.deliver k now) = some c' →
            p.srcLog.take (((c'.replicas p.dst).progress aer.id).matchIndex + 1) =
              (c.replicas p.dst).log.take (((c'.replicas p.dst).progress aer.id).matchIndex + 1)

/-- State-machine safety: no two replicas have returned different requests for the same index. -/
def StateMachineSafety (c : Cluster) : Prop :=
  ∀ a ∈ c.applied, ∀ b ∈ c.applied, a.request.seq = b.request.seq → a.request = b.request

/-- The log is one that the leader of the term has had, or the beginning of one. -/
def Cluster.Covers (c : Cluster) (term : ℕ) (log : List Entry) : Prop :=
  ∃ l ∈ c.leaderLogs, l.term = term ∧ log <+: l.log

instance (c : Cluster) (term : ℕ) (log : List Entry) : Decidable (c.Covers term log) :=
  inferInstanceAs (Decidable (∃ l ∈ c.leaderLogs, _))

/-- If the message is an `AppendEntries` message without entries that its recipient would accept, the
recipient has no entries that the leader of that term has not had. -/
def Cluster.CoversProbe (c : Cluster) (p : Packet) : Prop :=
  match p.message with
  | .appendEntries ae =>
    ae.entries = [] → (c.replicas p.dst).accepts ae = true →
      c.Covers ae.term (c.replicas p.dst).log
  | _ => True

instance (c : Cluster) (p : Packet) : Decidable (c.CoversProbe p) := by
  unfold Cluster.CoversProbe
  split <;> infer_instance

/-- The condition: every probe is delivered to a replica that the leader's log covers. -/
def CoveredProbes (c : Cluster) : Action → Prop
  | .deliver k _ => ∀ p ∈ c.sent[k]?, c.CoversProbe p
  | _ => True

instance (c : Cluster) (a : Action) : Decidable (CoveredProbes c a) := by
  unfold CoveredProbes
  split <;> infer_instance

/-! ### A small cluster -/

/-- Three replicas without batching; a command is the data of its request. -/
def threeReplicas : Config where
  totalNum := 3
  entrySize := fun _ => 1
  parseRequest := fun command => some ⟨command, "", 0⟩
  enableBatching := false

/-- A clock that stands still, so that no message expires. -/
def stillClock : ℕ → ℕ := fun _ => 0

/-- The cluster of three after a list of actions. -/
def clusterAfter (actions : List Action) : Option Cluster :=
  (clusterSystem threeReplicas).run .start actions

end Raft
