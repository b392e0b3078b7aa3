/-
**View changes of PBFT.**

The model of `ViewChangeManager`: a replica whose primary has timed out broadcasts what it has
prepared, the primary of the next view collects these messages and broadcasts a NEW-VIEW with the
requests that are proposed again, and the other replicas check it and move on.  The handlers of the
three phases are those of `ResilientDb.PbftReplica`; while a replica is in a view change, their
messages wait, which is a longer delay.

What the checkpoint threads find (the stable and the unstable checkpoint, and the view that other
replicas report) are inputs.

Main definitions:

* `Pbft.ViewChangeMessage`, `Pbft.NewViewMessage`, `Pbft.ViewChangeManager`;
* `Pbft.getPrepareMsg` — the requests that are proposed again;
* `Pbft.sendViewChangeMsg`, `Pbft.processViewChange`, `Pbft.processNewView` — the handlers;
* `Pbft.Views`, `Pbft.viewSystem` — replicas, managers and the history of NEW-VIEWs and executions.
-/

import ResilientDb.PbftNetwork

set_option autoImplicit false

namespace Pbft

/-! ### Messages -/

structure StableCheckPoint where
  seq : ℕ := 0
  hash : String := ""
  signatures : List SignatureInfo := []
deriving DecidableEq

/-- The proof that a request was prepared. -/
structure PreparedMessage where
  seq : ℕ
  proof : List RequestInfo
deriving DecidableEq

structure ViewChangeMessage where
  viewNumber : ℕ
  stableCkpt : StableCheckPoint
  preparedMsg : List PreparedMessage
deriving DecidableEq

structure NewViewMessage where
  viewNumber : ℕ
  request : List Request
  viewchangeMessages : List ViewChangeMessage
deriving DecidableEq

/-! ### The requests that are proposed again -/

/-- The prepared requests of the messages, by sequence number.  A message without a proof would make
`proof(0)` fail. -/
def collectPrepared (messages : List ViewChangeMessage) : Option (OrderedMap ℕ Request) :=
  (messages.flatMap ViewChangeMessage.preparedMsg).foldlM
    (fun prepared msg => do
      let info ← msg.proof.head?
      some (prepared.insertWith
        (fun old new => if old.type.code < new.type.code then new else old) msg.seq info.request))
    .empty

/-- `min_s`. -/
def minStable (messages : List ViewChangeMessage) : ℕ :=
  messages.foldl (fun m msg => min m msg.stableCkpt.seq) (2 ^ 64 - 1)

/-- `max_seq`: the highest number that was prepared or, if nothing was, the highest checkpoint. -/
def maxSeq (messages : List ViewChangeMessage) (prepared : OrderedMap ℕ Request) : ℕ :=
  match prepared.entries.getLast? with
  | some (seq, _) => seq
  | none => messages.foldl (fun m msg => max m msg.stableCkpt.seq) 1

/-- The hash of a request that is proposed again. -/
def nullHash (seq : ℕ) : String := "null" ++ toString seq

/-- A request that is proposed again: without data, whatever was prepared.  It is left out if the
primary cannot sign it. -/
def redoRequest (cfg : Config) (id view seq : ℕ) (needSign : Bool) : Option Request :=
  let request := { newRequest .prePrepare {} id with
    seq := seq
    currentView := view
    hash := nullHash seq }
  if needSign then
    (cfg.signMessage id "").map fun signature => { request with dataSignature := some signature }
  else some request

/-- `GetPrepareMsg`. -/
def getPrepareMsg (cfg : Config) (id : ℕ) (message : NewViewMessage) (needSign : Bool) :
    Option (List Request) := do
  let prepared ← collectPrepared message.viewchangeMessages
  let first := (minStable message.viewchangeMessages + 1) % 2 ^ 64
  let last := maxSeq message.viewchangeMessages prepared
  some ((List.range' first (last + 1 - first)).filterMap fun seq =>
    redoRequest cfg id message.viewNumber seq needSign)

/-! ### The manager -/

inductive ViewChangeStatus
  | none
  | readyViewChange
  | readyNewView
  | viewChangeFail
deriving DecidableEq

/-- `ViewChangeManager`, and what it asks the checkpoint manager for. -/
structure ViewChangeManager where
  status : ViewChangeStatus := .none
  viewChangeCounter : ℕ := 1
  viewchangeRequest : ℕ → OrderedMap ℕ ViewChangeMessage := fun _ => .empty
  newViewIsSent : Bool := false
  stableCkpt : StableCheckPoint := {}
  unstableCkpt : ℕ := 0

/-- The primary of a view.  The subtraction is that of a `uint64_t`. -/
def primaryOf (cfg : Config) (view : ℕ) : ℕ :=
  (view + (2 ^ 64 - 1)) % 2 ^ 64 % cfg.totalNum + 1

/-- `SendViewChangeMsg`.  The proofs of a committed request have to be there. -/
def sendViewChangeMsg (cfg : Config) (r : Replica) (m : ViewChangeManager) :
    Option ViewChangeMessage := do
  let minSeq := max m.stableCkpt.seq m.unstableCkpt
  let seqs := (List.range' (minSeq + 1) (r.highestPreparedSeq - minSeq)).filter fun seq =>
    r.isCommitted seq
  let preparedMsg ← seqs.mapM fun seq => do
    let proof := (r.pool.getCollector seq).preparedProof
    guard (cfg.minDataReceiveNum ≤ proof.length)
    some ⟨seq, proof⟩
  some ⟨(r.currentView + m.viewChangeCounter) % 2 ^ 64, { m.stableCkpt with seq := minSeq },
    preparedMsg⟩

/-- The timeout handler, called for the primary. -/
def timeoutHandler (cfg : Config) (r : Replica) (m : ViewChangeManager) :
    Option (ViewChangeManager × ViewChangeMessage) := do
  let m :=
    match m.status with
    | .none => { m with viewChangeCounter := 1 }
    | .readyNewView => { m with viewChangeCounter := (m.viewChangeCounter + 1) % 2 ^ 32 }
    | _ => m
  let m := { m with status := .readyViewChange }
  let message ← sendViewChangeMsg cfg r m
  some (m, message)

/-- `SendNewViewMsg`. -/
def sendNewViewMsg (cfg : Config) (r : Replica) (m : ViewChangeManager) (view : ℕ) :
    Option (ViewChangeManager × List NewViewMessage) :=
  if m.newViewIsSent then some (m, [])
  else do
    let messages := (m.viewchangeRequest view).entries.map fun e => { e.2 with viewNumber := view }
    let request ← getPrepareMsg cfg r.id ⟨view, [], messages⟩ true
    some ({ m with newViewIsSent := true }, [⟨view, request, messages⟩])

/-- `AddRequest` of the manager. -/
def ViewChangeManager.addRequest (m : ViewChangeManager) (sender : ℕ) (message : ViewChangeMessage) :
    ViewChangeManager :=
  { m with
    viewchangeRequest := Function.update m.viewchangeRequest message.viewNumber
      ((m.viewchangeRequest message.viewNumber).insertWith (fun _ new => new) sender message) }

/-- `ProcessViewChange`. -/
def processViewChange (cfg : Config) (r : Replica) (m : ViewChangeManager) (sender : ℕ)
    (message : ViewChangeMessage) : Option (ViewChangeManager × List NewViewMessage) :=
  let view := message.viewNumber
  if view ≤ r.currentView then some (m, [])
  else
    let m := m.addRequest sender message
    if (m.viewchangeRequest view).entries.length < cfg.minDataReceiveNum then some (m, [])
    else if primaryOf cfg view = r.id then do
      let (m, newViews) ← sendNewViewMsg cfg r m view
      some ({ m with status := .readyNewView }, newViews)
    else some ({ m with status := .readyNewView }, [])

/-- `SetCurrentViewAndNewPrimary`. -/
def Replica.setCurrentViewAndNewPrimary (cfg : Config) (r : Replica) (view : ℕ) : Replica :=
  { r with currentView := view, primaryId := primaryOf cfg view }

/-- What `ProcessNewView` does: the new states, and the messages it sends to itself and to all. -/
structure NewViewOutcome where
  replica : Replica
  manager : ViewChangeManager
  toSelf : List Request
  toAll : List Request

/-- The checks of `ProcessNewView`, and the highest number that is proposed again. -/
def checkNewView (cfg : Config) (r : Replica) (m : ViewChangeManager) (message : NewViewMessage) :
    Option (Option ℕ) := do
  let messages := message.viewchangeMessages
  if message.viewNumber ≠ (r.currentView + m.viewChangeCounter) % 2 ^ 64 then some none
  else if ∃ msg ∈ messages, msg.viewNumber ≤ r.currentView then some none
  else do
    let requestList ← getPrepareMsg cfg r.id message false
    let seqs := requestList.map Request.seq
    let maxS := messages.foldl (fun m msg => max m msg.stableCkpt.seq) 0
    let first := (minStable messages + 1) % 2 ^ 64
    if requestList.map Request.data ≠ message.request.map Request.data then some none
    else if (List.range' first (maxS + 1 - first)).any fun seq => !seqs.contains seq then some none
    else some (some (seqs.getLast?.getD maxS))

/-- `ProcessNewView`. -/
def processNewView (cfg : Config) (r : Replica) (m : ViewChangeManager) (message : NewViewMessage)
    (isRecovery : Bool) : Option NewViewOutcome :=
  if isRecovery then
    some ⟨r.setCurrentViewAndNewPrimary cfg message.viewNumber, m, [], []⟩
  else do
    match ← checkNewView cfg r m message with
    | none => some ⟨r, m, [], []⟩
    | some maxSeq =>
      let toSelf := message.request.filter fun q => q.type = .prePrepare
      let toAll := message.request.filter fun q => q.type ≠ .prePrepare
      let r := { r.setCurrentViewAndNewPrimary cfg message.viewNumber with nextSeq := maxSeq + 1 }
      some ⟨toAll.foldl (fun r q => r.raiseHighestPreparedSeq q.seq) r, { m with status := .none },
        toSelf, toAll⟩

/-! ### Runs -/

/-- A request that a replica has passed to its executor while it was in a view. -/
structure Executed where
  id : ℕ
  view : ℕ
  request : Request
deriving DecidableEq

/-- The network, the managers, the VIEW-CHANGE and NEW-VIEW messages that correct replicas have
broadcast, the messages replicas have sent to themselves, and what was executed. -/
structure Views where
  net : Network
  managers : ℕ → ViewChangeManager
  viewChanges : List (ℕ × ViewChangeMessage)
  newViews : List (ℕ × NewViewMessage)
  redone : List (ℕ × Request)
  executed : List Executed

/-- What can happen. -/
inductive ViewAction
  /-- A step of the three phases. -/
  | act (a : Action)
  /-- A message that a replica has sent to itself arrives. -/
  | deliverRedo (i : ℕ) (info : RequestInfo) (pick : ℕ)
  /-- The primary of a replica times out. -/
  | timeout (i : ℕ)
  /-- A VIEW-CHANGE reaches a replica. -/
  | deliverViewChange (i sender : ℕ) (message : ViewChangeMessage)
  /-- A NEW-VIEW reaches a replica. -/
  | deliverNewView (i sender : ℕ) (message : NewViewMessage) (isRecovery : Bool)
  /-- The checkpoint threads have found a stable and an unstable checkpoint. -/
  | checkpoint (i : ℕ) (stableCkpt : StableCheckPoint) (unstableCkpt : ℕ)
  /-- `MonitoringCheckpointState` ends a view change. -/
  | checkpointState (i : ℕ)
  /-- `CheckSysStatus` has learnt of a later view. -/
  | checkSysStatus (i view primary : ℕ)

/-- The replica that takes a step. -/
def Action.replica : Action → ℕ
  | .newRequest i _ => i
  | .deliver i _ _ => i
  | .orderMessage i => i
  | .execute i => i
  | .updateCheckPointStatus i => i
  | .updateRecentHash i _ => i

namespace Views

/-- The beginning. -/
def start (s : Setup) : Views where
  net := .start s
  managers := fun _ => {}
  viewChanges := []
  newViews := []
  redone := []
  executed := []

/-- Replica `i` has taken a step of the three phases. -/
def setNet (d : Views) (i : ℕ) (net : Network) : Views :=
  { d with
    net := net
    executed := d.executed ++
      ((net.replicas i).commitQueue.drop (d.net.replicas i).commitQueue.length).map fun q =>
        ⟨i, (d.net.replicas i).currentView, q⟩ }

/-- The manager of replica `i` has changed. -/
def setManager (d : Views) (i : ℕ) (m : ViewChangeManager) : Views :=
  { d with managers := Function.update d.managers i m }

/-- The replica itself has changed, without executing anything. -/
def setReplica (d : Views) (i : ℕ) (r : Replica) : Views :=
  { d with net := { d.net with replicas := Function.update d.net.replicas i r } }

/-- One action. -/
def step (s : Setup) (d : Views) : ViewAction → Option Views
  | .act a => do
      guard ((d.managers a.replica).status = .none)
      let net ← d.net.step s a
      some (d.setNet a.replica net)
  | .deliverRedo i info pick => do
      guard (s.IsCorrect i)
      guard ((d.managers i).status = .none)
      guard ((i, info.request) ∈ d.redone)
      let o ← (d.net.replicas i).receive s.cfg info pick
      some (d.setNet i ((d.net.update i o).record info.request))
  | .timeout i => do
      guard (s.IsCorrect i ∧ s.cfg.enableViewchange = true)
      let (m, message) ← timeoutHandler s.cfg (d.net.replicas i) (d.managers i)
      some { d.setManager i m with viewChanges := d.viewChanges ++ [(i, message)] }
  | .deliverViewChange i sender message => do
      guard (s.IsCorrect i)
      guard (sender ∈ s.byzantine ∨ (sender, message) ∈ d.viewChanges)
      let (m, newViews) ← processViewChange s.cfg (d.net.replicas i) (d.managers i) sender message
      some { d.setManager i m with newViews := d.newViews ++ newViews.map fun v => (i, v) }
  | .deliverNewView i sender message isRecovery => do
      guard (s.IsCorrect i)
      guard (sender ∈ s.byzantine ∨ (sender, message) ∈ d.newViews)
      let o ← processNewView s.cfg (d.net.replicas i) (d.managers i) message isRecovery
      let d := (d.setReplica i o.replica).setManager i o.manager
      some { d with
        net := { d.net with sent := d.net.sent ++ o.toAll }
        redone := d.redone ++ o.toSelf.map fun q => (i, q) }
  | .checkpoint i stableCkpt unstableCkpt => do
      guard (s.IsCorrect i)
      some (d.setManager i { d.managers i with stableCkpt, unstableCkpt })
  | .checkpointState i => do
      guard (s.IsCorrect i)
      some (d.setManager i { d.managers i with status := .none })
  | .checkSysStatus i view primary => do
      guard (s.IsCorrect i ∧ (d.net.replicas i).currentView < view)
      some (d.setReplica i { d.net.replicas i with currentView := view, primaryId := primary })

end Views

/-- The runs across views. -/
def viewSystem (s : Setup) : TransitionSystem Views ViewAction where
  init d := d = .start s
  step := Views.step s

end Pbft
