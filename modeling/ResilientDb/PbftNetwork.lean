/-
**PBFT replicas on a network with Byzantine senders.**

The messages of one view, delivered in any order, any number of times.  A correct replica sends what
its handlers broadcast; a Byzantine replica may send anything to anyone at any time, under its own
id, since signatures cannot be forged.  The primary may be Byzantine.

Main definitions:

* `Pbft.Setup` — the configuration, the Byzantine replicas, and the view;
* `Pbft.Network`, `Pbft.Network.step`, `Pbft.pbftSystem` — the runs;
* `Pbft.Agreement` — no two correct replicas execute different data for a sequence number;
* `Pbft.ConsistentHashes` — the condition under which it holds.
-/

import ResilientDb.PbftSpecs
import ResilientDb.Transition

set_option autoImplicit false

namespace Pbft

/-! ### Runs -/

/-- The configuration, the Byzantine replicas, and the view with its primary. -/
structure Setup where
  cfg : Config
  byzantine : Finset ℕ
  view : ℕ
  primary : ℕ

namespace Setup

/-- The ids of the replicas. -/
def members (s : Setup) : Finset ℕ := Finset.Icc 1 s.cfg.totalNum

/-- A replica that runs the code. -/
def IsCorrect (s : Setup) (i : ℕ) : Prop := i ∈ s.members ∧ i ∉ s.byzantine

instance (s : Setup) (i : ℕ) : Decidable (s.IsCorrect i) := inferInstanceAs (Decidable (_ ∧ _))

end Setup

/-- The replicas, the messages that correct replicas have broadcast, and the PRE-PREPAREs that have
been delivered. -/
structure Network where
  replicas : ℕ → Replica
  sent : List Request
  proposals : List Request

/-- What can happen. -/
inductive Action
  /-- A client's transactions reach a replica. -/
  | newRequest (i : ℕ) (request : Request)
  /-- A message reaches a replica. -/
  | deliver (i : ℕ) (info : RequestInfo) (pick : ℕ)
  /-- A thread of a replica takes a step. -/
  | orderMessage (i : ℕ)
  | execute (i : ℕ)
  | updateCheckPointStatus (i : ℕ)
  | updateRecentHash (i : ℕ) (hash : String)

namespace Network

/-- The replicas at the beginning of the view. -/
def start (s : Setup) : Network where
  replicas := Replica.construct s.cfg s.view s.primary
  sent := []
  proposals := []

/-- A handler has run. -/
def update (n : Network) (i : ℕ) (o : Outcome) : Network :=
  { n with
    replicas := Function.update n.replicas i o.replica
    sent := n.sent ++ o.broadcast }

/-- The sender is a replica, and if it is a correct one it has sent the message. -/
def Authentic (s : Setup) (n : Network) (request : Request) : Prop :=
  request.senderId ∈ s.members ∧ (request.senderId ∈ s.byzantine ∨ request ∈ n.sent)

instance (s : Setup) (n : Network) (request : Request) : Decidable (n.Authentic s request) :=
  inferInstanceAs (Decidable (_ ∧ _))

/-- A PRE-PREPARE has been delivered. -/
def record (n : Network) (request : Request) : Network :=
  if request.type = .prePrepare then { n with proposals := n.proposals ++ [request] } else n

@[simp] theorem replicas_record (n : Network) (request : Request) :
    (n.record request).replicas = n.replicas := by
  unfold record
  split <;> rfl

/-- One action. -/
def step (s : Setup) (n : Network) : Action → Option Network
  | .newRequest i request => do
      guard (s.IsCorrect i)
      some (n.update i ((n.replicas i).processNewRequest s.cfg request))
  | .deliver i info pick => do
      guard (s.IsCorrect i)
      guard (n.Authentic s info.request)
      let o ← (n.replicas i).receive s.cfg info pick
      some ((n.update i o).record info.request)
  | .orderMessage i => do
      guard (s.IsCorrect i)
      let r ← (n.replicas i).orderMessage
      some (n.update i ⟨r, [], 0⟩)
  | .execute i => do
      guard (s.IsCorrect i)
      let r ← (n.replicas i).execute
      some (n.update i ⟨r, [], 0⟩)
  | .updateCheckPointStatus i => do
      guard (s.IsCorrect i)
      let r ← (n.replicas i).updateCheckPointStatus
      some (n.update i ⟨r, [], 0⟩)
  | .updateRecentHash i hash => do
      guard (s.IsCorrect i)
      some (n.update i ⟨(n.replicas i).updateRecentHash hash, [], 0⟩)

end Network

/-- The runs of one view. -/
def pbftSystem (s : Setup) : TransitionSystem Network Action where
  init n := n = .start s
  step := Network.step s

/-! ### Agreement -/

/-- No two correct replicas have passed requests with different data to
`TransactionExecutor::Commit` for the same sequence number. -/
def Agreement (s : Setup) (n : Network) : Prop :=
  ∀ i j, s.IsCorrect i → s.IsCorrect j → ∀ a ∈ (n.replicas i).commitQueue,
    ∀ b ∈ (n.replicas j).commitQueue, a.seq = b.seq → a.data = b.data

/-- Replica `i` has sent a COMMIT for the sequence number. -/
def Network.HasCommitted (n : Network) (i seq : ℕ) : Prop :=
  ∃ q ∈ n.sent, q.type = .commit ∧ q.senderId = i ∧ q.seq = seq

/-- Replica `i` has sent a COMMIT for the sequence number and the hash. -/
def Network.HasCommittedTo (n : Network) (i seq : ℕ) (hash : String) : Prop :=
  ∃ q ∈ n.sent, q.type = .commit ∧ q.senderId = i ∧ q.seq = seq ∧ q.hash = hash

instance (n : Network) (i seq : ℕ) : Decidable (n.HasCommitted i seq) :=
  inferInstanceAs (Decidable (∃ q ∈ n.sent, _))

instance (n : Network) (i seq : ℕ) (hash : String) : Decidable (n.HasCommittedTo i seq hash) :=
  inferInstanceAs (Decidable (∃ q ∈ n.sent, _))

/-- The condition on a message that reaches replica `i`, by its type; it checks what the code does not.
PRE-PREPAREs for a sequence number with the same hash carry the same data; a PREPARE for a number that
counts as committed names a hash that the replica has sent its COMMIT for; a COMMIT that completes a
quorum names the hash of the main request. -/
def ConsistentMessage (cfg : Config) (n : Network) (i : ℕ) (request : Request) : RequestType → Prop
  | .prePrepare =>
    ∀ q ∈ n.proposals, q.seq = request.seq → q.hash = request.hash → q.data = request.data
  | .prepare =>
    request.isRecovery = false → (n.replicas i).isValidMsg request = true →
      (n.replicas i).isCommitted request.seq = true →
        n.HasCommittedTo i request.seq request.hash
  | .commit =>
    ((n.replicas i).pool.getCollector request.seq).Completes cfg request →
      ∀ main ∈ ((n.replicas i).pool.getCollector request.seq).mainRequest,
        main.request.hash = request.hash
  | _ => True

instance (cfg : Config) (n : Network) (i : ℕ) (request : Request) (type : RequestType) :
    Decidable (ConsistentMessage cfg n i request type) := by
  unfold ConsistentMessage
  split <;> infer_instance

/-- The condition.  Messages are consistent, and the pool does not make a new collector for a sequence
number that the replica has sent a COMMIT for. -/
def ConsistentHashes (s : Setup) (n : Network) : Action → Prop
  | .deliver i info _ => ConsistentMessage s.cfg n i info.request info.request.type
  | .orderMessage i =>
    ¬ n.HasCommitted i ((n.replicas i).nextExecuteSeq + (n.replicas i).pool.capacity)
  | _ => True

instance (s : Setup) (n : Network) (a : Action) : Decidable (ConsistentHashes s n a) := by
  unfold ConsistentHashes
  split <;> infer_instance

end Pbft
