/-
**A PBFT server and its messages.**

The model of `ConsensusManager::Process` and `ConsensusManagerPBFT`: how a message comes from the wire
to the collectors, the checkpoint manager and the view change manager, and how the messages inside a
recovery response come there.  The sender that is counted is the `sender_id` of the message; the
signature that is checked, if there is one, is that of the node it names.

What the nodes have signed is kept as a history, and `VerifyMessage` accepts what is in it.  The
environment is arbitrary: any node may sign anything, and any message may arrive, also more than once.
What the server sends is left out; it is one of the nodes that may sign.

Main definitions:

* `Pbft.Node`, `Pbft.Node.internalConsensusCommit`, `Pbft.Node.consensusCommit`,
  `Pbft.Node.remoteRecover` — the server;
* `Pbft.Server`, `Pbft.serverSystem` — the server and what was signed;
* `Pbft.Server.Authenticated` — whoever is counted has signed the message;
* `Pbft.FromSender` — the condition: messages are signed by the sender they name.

Main results:

* `Pbft.Node.internalConsensusCommit_spec` — what a message does to the server;
* `Pbft.authenticated_votes` — under the condition, votes are authenticated;
* `Pbft.authenticated_votes_fails` — one node casts votes as another.
-/

import ResilientDb.PbftCheckPoint
import ResilientDb.PbftNewView
import ResilientDb.PbftResponse

set_option autoImplicit false

namespace Pbft

open Option (bind_eq_some_iff map_eq_some_iff map_some mem_def)

/-! ### Messages -/

/-- `ResDBMessage`: the message and, maybe, a signature. -/
structure ResDBMessage where
  data : Request
  signature : Option SignatureInfo
deriving DecidableEq

/-- `RecoveryResponse`. -/
structure RecoveryResponse where
  request : List Request
  signature : List SignatureInfo

/-- `ParseFromString` of the data of a message. -/
structure Codec where
  checkPoint : String → Option CheckPointData
  viewChange : String → Option ViewChangeMessage
  newView : String → Option NewViewMessage
  recovery : String → Option RecoveryResponse

/-- What `PerformanceManager` is configured with: `GetMinClientReceiveNum`, and which data parses as a
`BatchUserResponse`. -/
structure PerformanceSetup where
  minClientReceiveNum : ℕ
  parses : String → Bool

/-- The setup of a server.  The performance manager is there if `IsPerformanceRunning`. -/
structure ServerSetup where
  cfg : Config
  waterMark : ℕ
  codec : Codec
  performance : Option PerformanceSetup

/-! ### Responses in performance mode -/

/-- `PerformanceManager`, as far as it takes responses. -/
structure PerformanceManager where
  collectorPool : LockFreeCollectorPool
  highestSeq : ℕ
  highestSeqPrimaryId : ℕ

namespace PerformanceManager

/-- The constructor.  It leaves the two numbers as they are in memory. -/
def construct (cfg : Config) (highestSeq highestSeqPrimaryId : ℕ) : PerformanceManager :=
  ⟨.construct cfg.maxProcessTxn, highestSeq, highestSeqPrimaryId⟩

/-- `AddResponseMsg`. -/
def addResponseMsg (q : PerformanceSetup) (m : PerformanceManager) (info : RequestInfo) :
    Option (PerformanceManager × CollectorResultCode) :=
  let seq := info.request.seq
  if q.parses info.request.data = false ∨ seq = 0 then some (m, .invalid)
  else do
    let added ← (m.collectorPool.getCollector seq).addRequest false info false 0
      (responseCallBack q.minClientReceiveNum info.request.type)
    let pool := m.collectorPool.set seq added.collector
    if added.ret ≠ 0 then some ({ m with collectorPool := pool }, .invalid)
    else if added.changed then some ({ m with collectorPool := pool.update seq }, .stateChanged)
    else some ({ m with collectorPool := pool }, .ok)

/-- `ProcessResponseMsg`.  The answer with the highest number so far decides who the primary is. -/
def processResponseMsg (q : PerformanceSetup) (m : PerformanceManager) (r : Replica)
    (info : RequestInfo) : Option (PerformanceManager × Replica) :=
  if info.request.ret = -2 then some (m, r)
  else do
    let (m, ret) ← m.addResponseMsg q info
    if ret = .stateChanged ∧ m.highestSeq < info.request.seq then
      if m.highestSeqPrimaryId ≠ info.request.primaryId then
        some ({ m with
            highestSeq := info.request.seq
            highestSeqPrimaryId := info.request.primaryId },
          { r with primaryId := info.request.primaryId })
      else some ({ m with highestSeq := info.request.seq }, r)
    else some (m, r)

end PerformanceManager

/-! ### The server -/

/-- `ConsensusManagerPBFT`.  `recovering` is what is left of the response that the recovery thread is
working on, each request with its signature. -/
structure Node where
  replica : Replica
  performance : PerformanceManager
  checkPoint : CheckPointManager := {}
  viewChange : ViewChangeManager := {}
  requestPending : List RequestInfo := []
  recoveryQueue : List Request := []
  recovering : List (Request × Option SignatureInfo) := []

namespace Node

/-- `InternalConsensusCommit`. -/
def internalConsensusCommit (p : ServerSetup) (n : Node) (info : RequestInfo) (pick : ℕ) :
    Option Node :=
  let request := info.request
  match request.type with
  | .newTxns =>
    if info.signature.signature = "" then some n
    else some { n with replica := (n.replica.processNewRequest p.cfg request).replica }
  | .prePrepare | .prepare | .commit =>
    if info.signature.signature = "" then some n
    else (n.replica.receive p.cfg info pick).map fun o => { n with replica := o.replica }
  | .checkpoint =>
    match p.codec.checkPoint request.data with
    | none => some n
    | some data =>
      (n.checkPoint.processCheckPoint p.waterMark
        (fun hash signature => p.cfg.verifyMessage hash (some signature))
        request.senderId data).map fun m => { n with checkPoint := m }
  | .viewchange =>
    match p.codec.viewChange request.data with
    | none => some n
    | some message =>
      (processViewChange p.cfg n.replica n.viewChange request.senderId message).map fun r =>
        { n with viewChange := r.1 }
  | .newView =>
    match p.codec.newView request.data with
    | none => some n
    | some message =>
      (processNewView p.cfg n.replica n.viewChange message request.isRecovery).map fun o =>
        { n with replica := o.replica, viewChange := o.manager }
  | .recoveryDataResp => some { n with recoveryQueue := n.recoveryQueue ++ [request] }
  | .response =>
    match p.performance with
    | none => some n
    | some q =>
      (n.performance.processResponseMsg q n.replica info).map fun r =>
        { n with performance := r.1, replica := r.2 }

/-- The messages that wait while the view changes. -/
def Waits (type : RequestType) : Prop :=
  type = .newTxns ∨ type = .prePrepare ∨ type = .prepare ∨ type = .commit

instance (type : RequestType) : Decidable (Waits type) := inferInstanceAs (Decidable (_ ∨ _))

/-- `ConsensusCommit`.  The messages that have waited are taken by `popPending`, which may come before;
requests of clients that are complained about come here again. -/
def consensusCommit (p : ServerSetup) (n : Node) (info : RequestInfo) (pick : ℕ) : Option Node :=
  if p.cfg.enableViewchange = true ∧ n.viewChange.status ≠ .none ∧ Waits info.request.type then
    some { n with requestPending := n.requestPending ++ [info] }
  else n.internalConsensusCommit p info pick

/-- A message that has waited is taken. -/
def popPending (p : ServerSetup) (n : Node) (pick : ℕ) : Option Node := do
  guard (p.cfg.enableViewchange = true ∧ n.viewChange.status = .none)
  let info ← n.requestPending.head?
  { n with requestPending := n.requestPending.tail }.internalConsensusCommit p info pick

/-- `RemoteRecoveryProcess` takes the next response. -/
def popRecovery (p : ServerSetup) (n : Node) : Option Node := do
  guard (n.recovering = [])
  let request ← n.recoveryQueue.head?
  let recovering :=
    match p.codec.recovery request.data with
    | none => []
    | some data => data.request.zipIdx.map fun e => (e.1, data.signature[e.2]?)
  some { n with recoveryQueue := n.recoveryQueue.tail, recovering := recovering }

/-- `RemoteRecoveryProcess` takes the next request of a response.  Its signature is passed on, but not
verified. -/
def remoteRecover (p : ServerSetup) (n : Node) (pick : ℕ) : Option Node := do
  let (request, signature) ← n.recovering.head?
  let n := { n with recovering := n.recovering.tail }
  if n.replica.isCommitted request.seq then some n
  else if 1000 < (2 ^ 64 + request.seq - n.replica.lastSeq) % 2 ^ 64 then some n
  else
    let signature ← signature
    let n := { n with replica := n.replica.setCurrentViewAndNewPrimary p.cfg request.currentView }
    n.internalConsensusCommit p ⟨{ request with forceRecovery := true }, signature⟩ pick

end Node

/-! ### Runs -/

/-- A server, the messages that nodes have signed, and the texts. -/
structure Server where
  node : Node
  signed : List (ℕ × Request)
  signedText : List (ℕ × String)

/-- What can happen. -/
inductive ServerAction
  /-- A node signs a message. -/
  | sign (j : ℕ) (request : Request)
  /-- A node signs the data of a request, or the hash of a checkpoint. -/
  | signText (j : ℕ) (text : String)
  /-- `Process`: a message comes from the network. -/
  | process (message : ResDBMessage) (pick : ℕ)
  /-- A message that has waited is taken. -/
  | popPending (pick : ℕ)
  /-- The two steps of the recovery thread. -/
  | popRecovery
  | recover (pick : ℕ)
  /-- The other threads of the replica. -/
  | orderMessage
  | execute
  | updateCheckPointStatus
  | updateRecentHash (hash : String)
  /-- The checkpoint threads. -/
  | findStable
  | publishStable
  | unstableCkpt (seq : ℕ)
  /-- The primary times out; `MonitoringCheckpointState` ends a view change. -/
  | timeout
  | checkpointState
  /-- `CheckSysStatus` has learnt of a later view. -/
  | checkSysStatus (view primary : ℕ)

namespace Server

local instance lawful_signed : LawfulBEq (ℕ × Request) := inferInstance

/-- `VerifyMessage`, for a message. -/
def verifyMessage (s : Server) (request : Request) (signature : SignatureInfo) : Bool :=
  signature.signature ≠ "" ∧ (signature.nodeId, request) ∈ s.signed

/-- `VerifyMessage`, for a text. -/
def verifyText (s : Server) (text : String) : Option SignatureInfo → Bool
  | none => false
  | some signature => signature.signature ≠ "" ∧ (signature.nodeId, text) ∈ s.signedText

/-- The setup, with what is signed so far. -/
def setup (p : ServerSetup) (s : Server) : ServerSetup :=
  { p with cfg := { p.cfg with verifyMessage := s.verifyText } }

/-- `Process`. -/
def process (p : ServerSetup) (s : Server) (message : ResDBMessage) (pick : ℕ) : Option Node :=
  match message.signature with
  | none => s.node.consensusCommit (s.setup p) ⟨message.data, ⟨0, ""⟩⟩ pick
  | some signature =>
    if s.verifyMessage message.data signature = false then some s.node
    else s.node.consensusCommit (s.setup p) ⟨message.data, signature⟩ pick

/-- One action at the server. -/
def nodeStep (p : ServerSetup) (s : Server) : ServerAction → Option Node
  | .sign _ _ => some s.node
  | .signText _ _ => some s.node
  | .process message pick => s.process p message pick
  | .popPending pick => s.node.popPending (s.setup p) pick
  | .popRecovery => s.node.popRecovery p
  | .recover pick => s.node.remoteRecover (s.setup p) pick
  | .orderMessage => s.node.replica.orderMessage.map fun r => { s.node with replica := r }
  | .execute => s.node.replica.execute.map fun r => { s.node with replica := r }
  | .updateCheckPointStatus =>
    s.node.replica.updateCheckPointStatus.map fun r => { s.node with replica := r }
  | .updateRecentHash hash =>
    some { s.node with replica := s.node.replica.updateRecentHash hash }
  | .findStable => (s.node.checkPoint.findStable p.cfg).map fun m => { s.node with checkPoint := m }
  | .publishStable =>
    s.node.checkPoint.publishStable.map fun m =>
      { s.node with
        checkPoint := m
        viewChange := { s.node.viewChange with stableCkpt := m.stableCkpt } }
  | .unstableCkpt seq =>
    some { s.node with viewChange := { s.node.viewChange with unstableCkpt := seq } }
  | .timeout => do
      guard (p.cfg.enableViewchange = true)
      let (m, _) ← timeoutHandler p.cfg s.node.replica s.node.viewChange
      some { s.node with viewChange := m }
  | .checkpointState => some { s.node with viewChange := { s.node.viewChange with status := .none } }
  | .checkSysStatus view primary => do
      guard (s.node.replica.currentView < view)
      some { s.node with
        replica := { s.node.replica with currentView := view, primaryId := primary } }

/-- One action. -/
def step (p : ServerSetup) (s : Server) (a : ServerAction) : Option Server :=
  (s.nodeStep p a).map fun n =>
    match a with
    | .sign j request => { s with node := n, signed := s.signed ++ [(j, request)] }
    | .signText j text => { s with node := n, signedText := s.signedText ++ [(j, text)] }
    | _ => { s with node := n }

end Server

/-- The runs of a server. -/
def serverSystem (p : ServerSetup) : TransitionSystem Server ServerAction where
  init s := ∃ view primary id highestSeq highestSeqPrimaryId,
    s = ⟨{ replica := .construct p.cfg view primary id
           performance := .construct p.cfg highestSeq highestSeqPrimaryId }, [], []⟩
  step := Server.step p

/-! ### The property and the condition -/

/-- Node `j` has signed a message with these contents, under its own id. -/
def Server.HasSigned (s : Server) (j : ℕ) (P : Request → Prop) : Prop :=
  ∃ e ∈ s.signed, e.1 = j ∧ e.2.senderId = j ∧ P e.2

/-- Node `j` has signed a vote. -/
def Server.HasVoted (s : Server) (j : ℕ) (type : RequestType) (seq : ℕ) (hash : String) : Prop :=
  s.HasSigned j fun q => q.type = type ∧ q.seq = seq ∧ q.hash = hash

/-- Whoever is counted has signed the message: the bits of `senders_`, the entries of `sender_ckpt_`
and those of `viewchange_request_`. -/
structure Server.Authenticated (p : ServerSetup) (s : Server) : Prop where
  votes : ∀ k type hash, ∀ j ∈ (s.node.replica.pool.collector k).senders type hash,
    s.HasVoted j type (s.node.replica.pool.collector k).seq hash
  checkPoints : ∀ key senders, s.node.checkPoint.senderCkpt.find? key = some senders →
    ∀ j ∈ senders, s.HasSigned j fun q => q.type = .checkpoint ∧
      ∃ data, p.codec.checkPoint q.data = some data ∧ ckptKey data.seq data.hash = key
  viewChanges : ∀ view, ∀ e ∈ (s.node.viewChange.viewchangeRequest view).entries,
    s.HasSigned e.1 fun q => q.type = .viewchange ∧ p.codec.viewChange q.data = some e.2 ∧
      e.2.viewNumber = view

/-- The message without the marks that recovery sets. -/
def Request.unmarked (q : Request) : Request := { q with isRecovery := false, forceRecovery := false }

theorem Request.fields_of_unmarked {q q' : Request} (h : q.unmarked = q'.unmarked) :
    q.type = q'.type ∧ q.seq = q'.seq ∧ q.hash = q'.hash ∧ q.data = q'.data ∧
      q.senderId = q'.senderId := by
  simp only [Request.unmarked, Request.mk.injEq] at h
  tauto

/-- The message was signed by the sender it names. -/
def Server.SignedBySender (s : Server) (q : Request) : Prop :=
  ∃ e ∈ s.signed, e.1 = q.senderId ∧ e.2.unmarked = q.unmarked

instance (s : Server) (q : Request) : Decidable (s.SignedBySender q) :=
  inferInstanceAs (Decidable (∃ e ∈ s.signed, _))

/-- The condition.  A message from the network has a signature, of the sender it names, and a message
in a recovery response was signed by the sender it names. -/
def FromSender (s : Server) : ServerAction → Prop
  | .process message _ => ∃ signature ∈ message.signature, signature.nodeId = message.data.senderId
  | .recover _ => ∀ item ∈ s.node.recovering.head?, s.SignedBySender item.1
  | _ => True

instance (s : Server) (a : ServerAction) : Decidable (FromSender s a) := by
  unfold FromSender
  split <;> infer_instance

/-! ### What a message does -/

section

variable {p : ServerSetup} {n n' : Node} {info : RequestInfo} {pick : ℕ}

/-- What a message does to the server: it is counted, under its sender, where its type says. -/
structure CommitSpec (p : ServerSetup) (n : Node) (info : RequestInfo) (pick : ℕ) (n' : Node) :
    Prop where
  pending : n'.requestPending = n.requestPending
  replica : SameCore n.replica n'.replica ∨
    ∃ o, n.replica.receive p.cfg info pick = some o ∧ n'.replica = o.replica
  checkPoint : n'.checkPoint.senderCkpt = n.checkPoint.senderCkpt ∨
    info.request.type = .checkpoint ∧ ∃ data, p.codec.checkPoint info.request.data = some data ∧
      n'.checkPoint.senderCkpt = n.checkPoint.senderCkpt.set (ckptKey data.seq data.hash)
        (insert info.request.senderId
          ((n.checkPoint.senderCkpt.find? (ckptKey data.seq data.hash)).getD ∅))
  viewChange : n'.viewChange.viewchangeRequest = n.viewChange.viewchangeRequest ∨
    info.request.type = .viewchange ∧ ∃ message,
      p.codec.viewChange info.request.data = some message ∧ n'.viewChange.viewchangeRequest =
        (n.viewChange.addRequest info.request.senderId message).viewchangeRequest
  view : n.replica.Stands n'.replica ∨ (info.request.type = .newView ∧ ∃ message o,
      p.codec.newView info.request.data = some message ∧ processNewView p.cfg n.replica n.viewChange
        message info.request.isRecovery = some o ∧ n'.replica = o.replica) ∨
    info.request.type = .response ∧ p.performance.isSome = true ∧
      n.performance.highestSeq < info.request.seq ∧
      info.request.primaryId ≠ n.performance.highestSeqPrimaryId ∧
      n'.replica = { n.replica with primaryId := info.request.primaryId }

theorem SameCore.refl (r : Replica) : SameCore r r := ⟨rfl, rfl, rfl, rfl⟩

theorem CommitSpec.silent (hpending : n'.requestPending = n.requestPending)
    (hreplica : SameCore n.replica n'.replica) (hcheckPoint : n'.checkPoint = n.checkPoint)
    (hviewChange : n'.viewChange.viewchangeRequest = n.viewChange.viewchangeRequest)
    (hview : n.replica.Stands n'.replica) : CommitSpec p n info pick n' :=
  ⟨hpending, .inl hreplica, .inl (by rw [hcheckPoint]), .inl hviewChange, .inl hview⟩

theorem CommitSpec.refl (p : ServerSetup) (n : Node) (info : RequestInfo) (pick : ℕ) :
    CommitSpec p n info pick n := .silent rfl (.refl _) rfl rfl ⟨rfl, rfl⟩

theorem commitSpec_phase (h : (if info.signature.signature = "" then some n
      else (n.replica.receive p.cfg info pick).map fun o => { n with replica := o.replica }) =
        some n') : CommitSpec p n info pick n' := by
  split at h
  · cases h
    exact .refl p n info pick
  · obtain ⟨o, ho, rfl⟩ := map_eq_some_iff.1 h
    exact ⟨rfl, .inr ⟨o, ho, rfl⟩, .inl rfl, .inl rfl, .inl (receive_stands ho)⟩

/-- A response leaves the replica as it is, or it sets the primary. -/
theorem PerformanceManager.processResponseMsg_cases {q : PerformanceSetup} {m m' : PerformanceManager}
    {r r' : Replica} (h : m.processResponseMsg q r info = some (m', r')) :
    r' = r ∨ m.highestSeq < info.request.seq ∧ info.request.primaryId ≠ m.highestSeqPrimaryId ∧
      r' = { r with primaryId := info.request.primaryId } := by
  unfold PerformanceManager.processResponseMsg at h
  split at h
  · cases h
    exact .inl rfl
  obtain ⟨⟨m₁, ret⟩, hadd, h⟩ := bind_eq_some_iff.1 h
  -- counting the response changes the collectors only
  have hsame : m₁.highestSeq = m.highestSeq ∧ m₁.highestSeqPrimaryId = m.highestSeqPrimaryId := by
    unfold PerformanceManager.addResponseMsg at hadd
    dsimp only at hadd
    split at hadd
    · cases hadd
      exact ⟨rfl, rfl⟩
    · obtain ⟨added, -, hadd⟩ := bind_eq_some_iff.1 hadd
      split_ifs at hadd
      all_goals
        cases hadd
        exact ⟨rfl, rfl⟩
  dsimp only at h
  rw [hsame.1, hsame.2] at h
  split_ifs at h with hhighest hprimary
  · cases h
    exact .inr ⟨hhighest.2, Ne.symm hprimary, rfl⟩
  · cases h
    exact .inl rfl
  · cases h
    exact .inl rfl

/-- **What `InternalConsensusCommit` does.** -/
theorem Node.internalConsensusCommit_spec
    (h : n.internalConsensusCommit p info pick = some n') : CommitSpec p n info pick n' := by
  unfold Node.internalConsensusCommit at h
  cases htype : info.request.type with
  | newTxns =>
    simp only [htype] at h
    split at h
    · cases h
      exact .refl p n info pick
    · cases h
      obtain ⟨⟨hcore, hstands⟩, -⟩ := processNewRequest_spec p.cfg n.replica info.request
      exact .silent rfl hcore rfl rfl hstands
  | prePrepare | prepare | commit =>
    simp only [htype] at h
    exact commitSpec_phase h
  | checkpoint =>
    simp only [htype] at h
    split at h
    · cases h
      exact .refl p n info pick
    · rename_i data hdata
      obtain ⟨m, hm, rfl⟩ := map_eq_some_iff.1 h
      rcases processCheckPoint_cases hm with rfl | ⟨-, rfl⟩
      · exact .refl p n info pick
      · exact ⟨rfl, .inl (.refl _), .inr ⟨htype, data, hdata, rfl⟩, .inl rfl, .inl ⟨rfl, rfl⟩⟩
  | viewchange =>
    simp only [htype] at h
    split at h
    · cases h
      exact .refl p n info pick
    · rename_i message hmessage
      obtain ⟨⟨m, newViews⟩, hm, rfl⟩ := map_eq_some_iff.1 h
      rcases processViewChange_cases hm with ⟨rfl, -⟩ | ⟨hreq, -⟩
      · exact .refl p n info pick
      · exact ⟨rfl, .inl (.refl _), .inl rfl, .inr ⟨htype, message, hmessage, hreq⟩,
          .inl ⟨rfl, rfl⟩⟩
  | newView =>
    simp only [htype] at h
    split at h
    · cases h
      exact .refl p n info pick
    · rename_i message hmessage
      obtain ⟨o, ho, rfl⟩ := map_eq_some_iff.1 h
      obtain ⟨hreq, -, hr⟩ := processNewView_cases ho
      refine ⟨rfl, .inl ?_, .inl rfl, .inl hreq,
        .inr (.inl ⟨htype, message, o, hmessage, ho, rfl⟩)⟩
      obtain ⟨hr, -⟩ | ⟨nextSeq, highest, hr, -⟩ := hr <;> rw [hr] <;> exact ⟨rfl, rfl, rfl, rfl⟩
  | recoveryDataResp =>
    simp only [htype] at h
    cases h
    exact .silent rfl (.refl _) rfl rfl ⟨rfl, rfl⟩
  | response =>
    simp only [htype] at h
    split at h
    · cases h
      exact .refl p n info pick
    · next q hq =>
      obtain ⟨⟨m, r⟩, hm, rfl⟩ := map_eq_some_iff.1 h
      rcases PerformanceManager.processResponseMsg_cases hm with rfl | ⟨hhighest, hprimary, rfl⟩
      · exact .silent rfl (.refl _) rfl rfl ⟨rfl, rfl⟩
      · exact ⟨rfl, .inl ⟨rfl, rfl, rfl, rfl⟩, .inl rfl, .inl rfl,
          .inr (.inr ⟨htype, by rw [hq]; rfl, hhighest, hprimary, rfl⟩)⟩

end

/-! ### What a step does -/

section

variable {p : ServerSetup} {s s' : Server} {a : ServerAction} {n' : Node}

/-- The message that a step takes to its handler. -/
def Server.taken (s : Server) : ServerAction → Option Request
  | .process message _ => some message.data
  | .popPending _ => s.node.requestPending.head?.map RequestInfo.request
  | .recover _ => s.node.recovering.head?.map Prod.fst
  | _ => none

/-- Under the condition the message was signed, or it has waited. -/
def Server.Trusted (s : Server) (a : ServerAction) (info : RequestInfo) : Prop :=
  info ∈ s.node.requestPending ∨ (FromSender s a → s.SignedBySender info.request)

/-- The replica is in a view with its primary, and the view is not below the one it was in. -/
def Replica.Forward (cfg : Config) (r r' : Replica) : Prop :=
  r.currentView ≤ r'.currentView ∧ r'.primaryId = primaryOf cfg r'.currentView

/-- What a message that sets the view or the primary without comparing them may say: a NEW-VIEW that is
marked as recovered, or is for the view that is expected, is not for a view below the replica's own, and a
response that is above all answers so far names the primary of the view. -/
structure ServerSetup.Onward (p : ServerSetup) (n : Node) (q : Request) : Prop where
  newView : q.type = .newView → ∀ message ∈ p.codec.newView q.data,
    (q.isRecovery = true ∨ message.viewNumber =
      (n.replica.currentView + n.viewChange.viewChangeCounter) % 2 ^ 64) →
    n.replica.currentView ≤ message.viewNumber
  response : q.type = .response → p.performance.isSome = true → n.performance.highestSeq < q.seq →
    q.primaryId ≠ n.performance.highestSeqPrimaryId →
    q.primaryId = primaryOf p.cfg n.replica.currentView

/-- The condition on a step of the server: what messages say is such, and a request of a recovery response
is of a view not below the one the replica is in. -/
def ServerForward (p : ServerSetup) (s : Server) : ServerAction → Prop
  | .process message _ => p.Onward s.node message.data
  | .popPending _ => ∀ info ∈ s.node.requestPending.head?, p.Onward s.node info.request
  | .recover _ => ∀ item ∈ s.node.recovering.head?,
      s.node.replica.currentView ≤ item.1.currentView ∧
        p.Onward { s.node with
          replica := s.node.replica.setCurrentViewAndNewPrimary p.cfg item.1.currentView } item.1
  | _ => True

/-- A step without a message: at most, collectors are made new, checkpoints are dropped, and a message
is put aside. -/
structure QuietStep (s : Server) (a : ServerAction) (n' : Node) : Prop where
  pending : ∀ info ∈ n'.requestPending, s.Trusted a info
  replica : SameCore s.node.replica n'.replica ∨ s.node.replica.orderMessage = some n'.replica
  checkPoint : ∀ key senders, n'.checkPoint.senderCkpt.find? key = some senders →
    s.node.checkPoint.senderCkpt.find? key = some senders
  viewChange : n'.viewChange.viewchangeRequest = s.node.viewChange.viewchangeRequest
  view : (∀ view primary, a ≠ .checkSysStatus view primary) → s.node.replica.Stands n'.replica

/-- A step with a message. -/
structure TakingStep (p : ServerSetup) (s : Server) (a : ServerAction) (n' : Node)
    (info : RequestInfo) (pick : ℕ) (n : Node) : Prop where
  taken : ∃ q ∈ s.taken a, q.unmarked = info.request.unmarked
  trusted : s.Trusted a info
  spec : CommitSpec (s.setup p) n info pick n'
  -- the server before the handler, from which the message may have been removed
  replica : SameCore s.node.replica n.replica
  checkPoint : n.checkPoint = s.node.checkPoint
  viewChange : n.viewChange = s.node.viewChange
  pending : n.requestPending ⊆ s.node.requestPending
  forward : s.node.replica.primaryId = primaryOf p.cfg s.node.replica.currentView →
    ServerForward p s a → s.node.replica.Forward p.cfg n.replica ∧ p.Onward n info.request

theorem QuietStep.frame (hpending : n'.requestPending = s.node.requestPending)
    (hreplica : SameCore s.node.replica n'.replica)
    (hcheckPoint : n'.checkPoint.senderCkpt = s.node.checkPoint.senderCkpt)
    (hviewChange : n'.viewChange.viewchangeRequest = s.node.viewChange.viewchangeRequest)
    (hview : s.node.replica.Stands n'.replica) : QuietStep s a n' where
  pending := by
    rw [hpending]
    exact fun info hinfo => .inl hinfo
  replica := .inl hreplica
  checkPoint := by
    rw [hcheckPoint]
    exact fun _ _ h => h
  viewChange := hviewChange
  view := fun _ => hview

theorem Server.SignedBySender.of_verifyMessage {request : Request} {signature : SignatureInfo}
    (h : s.verifyMessage request signature = true) (hnode : signature.nodeId = request.senderId) :
    s.SignedBySender request := by
  obtain ⟨-, hmem⟩ := of_decide_eq_true h
  exact ⟨_, hmem, hnode, rfl⟩

/-- A message waits, or goes to its handler. -/
theorem consensusCommit_cases {message : ResDBMessage} {info : RequestInfo} {pick : ℕ}
    (hdata : info.request = message.data) (htrusted : s.Trusted (.process message pick) info)
    (h : s.node.consensusCommit (s.setup p) info pick = some n') :
    QuietStep s (.process message pick) n' ∨
      ∃ n, TakingStep p s (.process message pick) n' info pick n := by
  unfold Node.consensusCommit at h
  split at h
  · cases h
    refine .inl ⟨?_, .inl (.refl _), fun _ _ h => h, rfl, fun _ => ⟨rfl, rfl⟩⟩
    intro info' hinfo'
    rcases List.mem_append.1 hinfo' with hold | hnew
    · exact .inl hold
    · rw [List.mem_singleton.1 hnew]
      exact htrusted
  · refine .inr ⟨s.node, ⟨message.data, rfl, by rw [hdata]⟩, htrusted,
      Node.internalConsensusCommit_spec h, .refl _, rfl, rfl, List.Subset.refl _, ?_⟩
    exact fun hr hok => ⟨⟨le_rfl, hr⟩, hdata ▸ hok⟩

/-- A message whose signature is not accepted is dropped. -/
theorem process_cases {message : ResDBMessage} {pick : ℕ} (h : s.process p message pick = some n') :
    QuietStep s (.process message pick) n' ∨
      ∃ info n, TakingStep p s (.process message pick) n' info pick n := by
  unfold Server.process at h
  split at h
  · rename_i hnone
    refine (consensusCommit_cases ?_ (.inr ?_) h).imp_right fun ⟨n, hn⟩ => ⟨_, n, hn⟩
    · rfl
    · rintro ⟨signature, hsome, -⟩
      rw [hnone] at hsome
      cases hsome
  · rename_i signature hsome
    split at h
    · cases h
      exact .inl (.frame rfl (.refl _) rfl rfl ⟨rfl, rfl⟩)
    · rename_i hverify
      rw [Bool.not_eq_false] at hverify
      refine (consensusCommit_cases ?_ (.inr ?_) h).imp_right fun ⟨n, hn⟩ => ⟨_, n, hn⟩
      · rfl
      · rintro ⟨signature', hsome', hnode⟩
        rw [hsome] at hsome'
        cases hsome'
        exact .of_verifyMessage hverify hnode

theorem popPending_cases {pick : ℕ} (h : s.node.popPending (s.setup p) pick = some n') :
    ∃ info n, TakingStep p s (.popPending pick) n' info pick n := by
  obtain ⟨-, -, h⟩ := bind_eq_some_iff.1 h
  obtain ⟨info, hinfo, h⟩ := bind_eq_some_iff.1 h
  refine ⟨info, _, ⟨info.request, ?_, rfl⟩, .inl (List.mem_of_head? hinfo),
    Node.internalConsensusCommit_spec h, .refl _, rfl, rfl, List.tail_subset _,
    fun hr hok => ⟨⟨le_rfl, hr⟩, (hok info hinfo).newView, (hok info hinfo).response⟩⟩
  simp only [Server.taken, hinfo, map_some, mem_def]

theorem remoteRecover_cases {pick : ℕ} (h : s.node.remoteRecover (s.setup p) pick = some n') :
    QuietStep s (.recover pick) n' ∨ ∃ info n, TakingStep p s (.recover pick) n' info pick n := by
  obtain ⟨⟨request, signature⟩, hitem, h⟩ := bind_eq_some_iff.1 h
  dsimp only at h
  split at h
  · cases h
    exact .inl (.frame rfl (.refl _) rfl rfl ⟨rfl, rfl⟩)
  · split at h
    · cases h
      exact .inl (.frame rfl (.refl _) rfl rfl ⟨rfl, rfl⟩)
    · obtain ⟨signature, -, h⟩ := bind_eq_some_iff.1 h
      refine .inr ⟨_, _, ⟨request, ?_, rfl⟩, .inr ?_, Node.internalConsensusCommit_spec h,
        ⟨rfl, rfl, rfl, rfl⟩, rfl, rfl, List.Subset.refl _,
        fun _ hok => ⟨⟨(hok _ hitem).1, rfl⟩, (hok _ hitem).2.newView, (hok _ hitem).2.response⟩⟩
      · simp only [Server.taken, hitem, map_some, mem_def]
      · -- the marks of recovery do not matter for the signature
        intro hok
        exact hok _ hitem

/-- **What a step does to the server.** -/
theorem Server.nodeStep_cases (h : s.nodeStep p a = some n') :
    QuietStep s a n' ∨ ∃ info pick n, TakingStep p s a n' info pick n := by
  cases a with
  | sign j request | signText j text | unstableCkpt seq | checkpointState =>
    cases h
    exact .inl (.frame rfl (.refl _) rfl rfl ⟨rfl, rfl⟩)
  | process message pick =>
    exact (process_cases h).imp_right fun ⟨info, n, hn⟩ => ⟨info, pick, n, hn⟩
  | popPending pick =>
    obtain ⟨info, n, hn⟩ := popPending_cases h
    exact .inr ⟨info, pick, n, hn⟩
  | popRecovery =>
    simp only [Server.nodeStep, Node.popRecovery, bind, bind_eq_some_iff] at h
    obtain ⟨-, -, request, -, h⟩ := h
    cases h
    exact .inl (.frame rfl (.refl _) rfl rfl ⟨rfl, rfl⟩)
  | recover pick =>
    exact (remoteRecover_cases h).imp_right fun ⟨info, n, hn⟩ => ⟨info, pick, n, hn⟩
  | orderMessage =>
    obtain ⟨r, hr, rfl⟩ := map_eq_some_iff.1 h
    refine .inl ⟨fun info hinfo => .inl hinfo, .inr hr, fun _ _ h => h, rfl, fun _ => ?_⟩
    obtain ⟨-, -, hr⟩ := bind_eq_some_iff.1 hr
    cases hr
    exact ⟨rfl, rfl⟩
  | execute =>
    obtain ⟨r, hr, rfl⟩ := map_eq_some_iff.1 h
    obtain ⟨hcore, hstands⟩ := execute_sameCore hr
    exact .inl (.frame rfl hcore rfl rfl hstands)
  | updateCheckPointStatus =>
    obtain ⟨r, hr, rfl⟩ := map_eq_some_iff.1 h
    obtain ⟨hcore, hstands⟩ := updateCheckPointStatus_sameCore hr
    exact .inl (.frame rfl hcore rfl rfl hstands)
  | updateRecentHash hash =>
    cases h
    exact .inl (.frame rfl ⟨rfl, rfl, rfl, rfl⟩ rfl rfl ⟨rfl, rfl⟩)
  | findStable =>
    obtain ⟨m, hm, rfl⟩ := map_eq_some_iff.1 h
    refine .inl (.frame rfl (.refl _) ?_ rfl ⟨rfl, rfl⟩)
    unfold CheckPointManager.findStable at hm
    split at hm
    · cases hm
    · cases hm
      rfl
  | publishStable =>
    obtain ⟨m, hm, rfl⟩ := map_eq_some_iff.1 h
    obtain ⟨key, -, ⟨hsenders, -⟩ | ⟨-, -, -, -, hkept⟩⟩ := publishStable_cases hm
    · exact .inl (.frame rfl (.refl _) hsenders rfl ⟨rfl, rfl⟩)
    · exact .inl ⟨fun info hinfo => .inl hinfo, .inl (.refl _),
        fun k senders hk => (hkept k senders hk).1, rfl, fun _ => ⟨rfl, rfl⟩⟩
  | timeout =>
    simp only [Server.nodeStep, bind, bind_eq_some_iff] at h
    obtain ⟨-, -, ⟨m, message⟩, hm, h⟩ := h
    cases h
    exact .inl (.frame rfl (.refl _) rfl (timeoutHandler_spec hm).1 ⟨rfl, rfl⟩)
  | checkSysStatus view primary =>
    simp only [Server.nodeStep, bind, bind_eq_some_iff] at h
    obtain ⟨-, -, h⟩ := h
    cases h
    exact .inl ⟨fun info hinfo => .inl hinfo, .inl ⟨rfl, rfl, rfl, rfl⟩, fun _ _ h => h, rfl,
      fun hne => absurd rfl (hne view primary)⟩

theorem Server.step_signed (h : s.step p a = some s') :
    s.nodeStep p a = some s'.node ∧ s.signed ⊆ s'.signed := by
  obtain ⟨n, hn, rfl⟩ := map_eq_some_iff.1 h
  cases a
  case sign => exact ⟨hn, List.subset_append_left _ _⟩
  all_goals exact ⟨hn, List.Subset.refl _⟩

end

/-! ### The votes at the collectors -/

/-- The bits of `senders_` satisfy `V`, and only PRE-PREPAREs wait for their turn. -/
structure VoteInv (V : ℕ → RequestType → ℕ → String → Prop) (r : Replica) : Prop where
  votes : ∀ k type hash, ∀ j ∈ (r.pool.collector k).senders type hash,
    V j type (r.pool.collector k).seq hash
  waiting : ∀ e ∈ r.pendingRecovery.entries, e.2.request.type = .prePrepare

section

variable {V : ℕ → RequestType → ℕ → String → Prop} {r r' : Replica} {cfg : Config}
  {info : RequestInfo} {pick : ℕ}

theorem VoteInv.congr (h : VoteInv V r) (hcore : SameCore r r') : VoteInv V r' := by
  refine ⟨?_, ?_⟩
  · rw [hcore.pool]
    exact h.votes
  · rw [hcore.pending]
    exact h.waiting

/-- A vote is counted for the sender in the message. -/
theorem VoteInv.addConsensusMsg {ret : CollectorResultCode} (h : VoteInv V r)
    (hvote : info.request.type ≠ .prePrepare →
      V info.request.senderId info.request.type info.request.seq info.request.hash)
    (hadd : r.addConsensusMsg cfg info pick = some (r', ret)) : VoteInv V r' := by
  rcases (addConsensusMsg_cases hadd).2 with ⟨rfl, -⟩ | ⟨a, ha, -, hpending, hpool, -, -⟩
  · exact h
  refine ⟨?_, by rw [hpending]; exact h.waiting⟩
  intro k type hash j hj
  rw [hpool] at hj ⊢
  simp only [LockFreeCollectorPool.set, Function.update_apply] at hj ⊢
  split at hj
  · rename_i hk
    rw [if_pos hk]
    have hold := h.votes (r.pool.slot info.request.seq) type hash j
    rcases TransactionCollector.addRequest_counts ha with ⟨hseq, hsenders⟩ | ⟨hmain, hseq, hcount⟩
    · rw [hsenders] at hj
      rw [hseq]
      exact hold hj
    · rw [hseq]
      rcases hcount type hash j hj with hj | ⟨rfl, hseq', rfl, rfl⟩
      · exact hold hj
      · rw [hseq']
        exact hvote (of_decide_eq_false hmain)
  · rename_i hk
    rw [if_neg hk]
    exact h.votes k type hash j hj

theorem VoteInv.handlerRule (cfg : Config) (V : ℕ → RequestType → ℕ → String → Prop) :
    HandlerRule cfg (VoteInv V) fun info => info.request.type = .prePrepare where
  frame := fun h hcore _ => h.congr hcore
  pending := fun h => h.waiting
  wait := fun h hm => ⟨h.votes, hm⟩
  unforced := fun h => h
  propose := fun h hq hadd => h.addConsensusMsg (fun hne => absurd hq hne) hadd

theorem VoteInv.orderMessage (h : VoteInv V r) (hr : r.orderMessage = some r') : VoteInv V r' := by
  obtain ⟨-, hpending, -, -⟩ := orderMessage_spec hr
  refine ⟨?_, by rw [hpending]; exact h.waiting⟩
  intro k type hash j hj
  rcases orderMessage_collectors hr k with hk | ⟨seq, hk⟩
  · rw [hk] at hj ⊢
    exact h.votes k type hash j hj
  · -- nobody is counted at a new collector
    rw [hk] at hj
    exact absurd hj (Finset.notMem_empty j)

end

/-! ### The invariant -/

/-- The property, and what carries it: the messages that wait were signed. -/
structure ServerInv (p : ServerSetup) (s : Server) : Prop where
  authenticated : s.Authenticated p
  waiting : ∀ e ∈ s.node.replica.pendingRecovery.entries, e.2.request.type = .prePrepare
  pending : ∀ info ∈ s.node.requestPending, s.SignedBySender info.request

section

variable {p : ServerSetup} {s s' : Server} {a : ServerAction} {info : RequestInfo}

theorem Server.HasSigned.mono {j : ℕ} {P Q : Request → Prop} (h : s.HasSigned j P)
    (hsigned : s.signed ⊆ s'.signed) (hPQ : ∀ q, P q → Q q) : s'.HasSigned j Q := by
  obtain ⟨e, he, hj, hsender, hP⟩ := h
  exact ⟨e, hsigned he, hj, hsender, hPQ _ hP⟩

theorem Server.SignedBySender.mono {q : Request} (h : s.SignedBySender q)
    (hsigned : s.signed ⊆ s'.signed) : s'.SignedBySender q := by
  obtain ⟨e, he, hq⟩ := h
  exact ⟨e, hsigned he, hq⟩

theorem Server.SignedBySender.hasSigned {q : Request} (h : s.SignedBySender q) :
    s.HasSigned q.senderId fun q' =>
      q'.type = q.type ∧ q'.seq = q.seq ∧ q'.hash = q.hash ∧ q'.data = q.data := by
  obtain ⟨e, he, hj, hq⟩ := h
  obtain ⟨htype, hseq, hhash, hdata, hsender⟩ := Request.fields_of_unmarked hq
  exact ⟨e, he, hj, hsender, htype, hseq, hhash, hdata⟩

theorem Server.SignedBySender.hasVoted {q : Request} (h : s.SignedBySender q) :
    s.HasVoted q.senderId q.type q.seq q.hash := by
  refine h.hasSigned.mono (List.Subset.refl _) ?_
  rintro q' ⟨htype, hseq, hhash, -⟩
  exact ⟨htype, hseq, hhash⟩

section

variable (h : ServerInv p s)
include h

theorem ServerInv.voteInv (hsigned : s.signed ⊆ s'.signed) : VoteInv s'.HasVoted s.node.replica :=
  ⟨fun k type hash j hj => (h.authenticated.votes k type hash j hj).mono hsigned fun _ h => h,
    h.waiting⟩

theorem ServerInv.trusted (hok : FromSender s a) (hinfo : s.Trusted a info) :
    s.SignedBySender info.request := by
  rcases hinfo with hinfo | hinfo
  · exact h.pending info hinfo
  · exact hinfo hok

theorem ServerInv.quiet (hok : FromSender s a)
    (hsigned : s.signed ⊆ s'.signed) (hs : QuietStep s a s'.node) : ServerInv p s' := by
  have hvotes := h.voteInv hsigned
  obtain ⟨hpending, hreplica, hcheckPoint, hviewChange, -⟩ := hs
  have hvotes' : VoteInv s'.HasVoted s'.node.replica := by
    rcases hreplica with hcore | horder
    · exact hvotes.congr hcore
    · exact hvotes.orderMessage horder
  refine ⟨⟨hvotes'.votes, ?_, ?_⟩, hvotes'.waiting, ?_⟩
  · intro key senders hkey j hj
    exact (h.authenticated.checkPoints key senders (hcheckPoint key senders hkey) j hj).mono hsigned
      fun _ h => h
  · intro view e he
    rw [hviewChange] at he
    exact (h.authenticated.viewChanges view e he).mono hsigned fun _ h => h
  · intro info hinfo
    exact (h.trusted hok (hpending info hinfo)).mono hsigned

/-- A message that is taken was signed by its sender. -/
theorem ServerInv.taking (hok : FromSender s a)
    (hsigned : s.signed ⊆ s'.signed) {pick : ℕ} {n : Node}
    (hs : TakingStep p s a s'.node info pick n) : ServerInv p s' := by
  obtain ⟨-, htrusted, hspec, hreplica, hcheckPoint, hviewChange, hpending, -⟩ := hs
  have hsender := (h.trusted hok htrusted).mono hsigned
  have hvotes' : VoteInv s'.HasVoted s'.node.replica := by
    have hvotes := (h.voteInv hsigned).congr hreplica
    rcases hspec.replica with hcore | ⟨o, ho, hr⟩
    · exact hvotes.congr hcore
    · rw [hr]
      refine (VoteInv.handlerRule _ _).receive hvotes id ?_ ho
      intro _ pick r ret hadd
      exact hvotes.addConsensusMsg (fun _ => hsender.hasVoted) hadd
  refine ⟨⟨hvotes'.votes, ?_, ?_⟩, hvotes'.waiting, ?_⟩
  · intro key senders hkey j hj
    have hold : ∀ senders, s.node.checkPoint.senderCkpt.find? key = some senders → j ∈ senders →
        s'.HasSigned j _ := fun senders hkey hj =>
      (h.authenticated.checkPoints key senders hkey j hj).mono hsigned fun _ h => h
    rcases hspec.checkPoint with hsame | ⟨htype, data, hdata, hnew⟩
    · rw [hsame, hcheckPoint] at hkey
      exact hold senders hkey hj
    · rw [hnew, hcheckPoint, OrderedMap.find?_set] at hkey
      split at hkey
      · rename_i heq
        subst heq
        cases hkey
        rcases Finset.mem_insert.1 hj with rfl | hj
        · -- the sender of the message that arrives
          refine hsender.hasSigned.mono (List.Subset.refl _) ?_
          rintro q ⟨htype', -, -, hdata'⟩
          exact ⟨htype'.trans htype, data, by rw [hdata']; exact hdata, rfl⟩
        · cases hfind : s.node.checkPoint.senderCkpt.find? (ckptKey data.seq data.hash) with
          | none => simp [hfind] at hj
          | some senders =>
            rw [hfind] at hj
            exact hold senders hfind hj
      · exact hold senders hkey hj
  · intro view e he
    have hold : e ∈ (s.node.viewChange.viewchangeRequest view).entries → s'.HasSigned e.1 _ :=
      fun he => (h.authenticated.viewChanges view e he).mono hsigned fun _ h => h
    rcases hspec.viewChange with hsame | ⟨htype, message, hmessage, hnew⟩
    · rw [hsame, hviewChange] at he
      exact hold he
    · rw [hnew, hviewChange] at he
      rcases ViewChangeManager.mem_addRequest he with ⟨rfl, rfl⟩ | he
      · refine hsender.hasSigned.mono (List.Subset.refl _) ?_
        rintro q ⟨htype', -, -, hdata'⟩
        exact ⟨htype'.trans htype, by rw [hdata']; exact hmessage, rfl⟩
      · exact hold he
  · intro info hinfo
    rw [hspec.pending] at hinfo
    exact (h.pending info (hpending hinfo)).mono hsigned

/-- **Every step that meets the condition keeps the invariant.** -/
theorem ServerInv.step (hok : FromSender s a) (hs : s.step p a = some s') : ServerInv p s' := by
  obtain ⟨hnode, hsigned⟩ := Server.step_signed hs
  rcases Server.nodeStep_cases hnode with hquiet | ⟨info, pick, n, htaking⟩
  · exact h.quiet hok hsigned hquiet
  · exact h.taking hok hsigned htaking

end

theorem ServerInv.init (h : (serverSystem p).init s) : ServerInv p s := by
  obtain ⟨view, primary, id, _, _, rfl⟩ := h
  refine ⟨⟨?_, ?_, ?_⟩, ?_, ?_⟩
  · intro k type hash j hj
    exact absurd hj (Finset.notMem_empty j)
  · rintro key senders ⟨⟩
  · rintro view e ⟨⟩
  · rintro e ⟨⟩
  · rintro info ⟨⟩

theorem serverInv_of_reachable (h : (serverSystem p).Reachable FromSender s) : ServerInv p s :=
  h.invariant (fun _ hinit => .init hinit) fun _ _ _ hinv hok hs => hinv.step hok hs

/-- **Votes are authenticated**, if messages are signed by the sender they name. -/
theorem authenticated_votes (h : (serverSystem p).Reachable FromSender s) : s.Authenticated p :=
  (serverInv_of_reachable h).authenticated

end

/-! ### Two runs of four replicas -/

/-- Two texts are the data of messages. -/
def runCodec : Codec where
  checkPoint := fun data => if data = "checkpoint" then some ⟨5, "h", ⟨4, "signature"⟩⟩ else none
  viewChange := fun data => if data = "view change" then some ⟨2, {}, []⟩ else none
  newView := fun _ => none
  recovery := fun _ => none

def fourServers : ServerSetup := ⟨plainConfig 4 true, 5, runCodec, none⟩

/-- A PREPARE, a CHECKPOINT and a VIEW-CHANGE of replica 2. -/
def messagesOfTwo : List Request :=
  [{ type := .prepare, currentView := 1, seq := 1, hash := "a", senderId := 2 },
    { type := .checkpoint, data := "checkpoint", senderId := 2 },
    { type := .viewchange, data := "view change", senderId := 2 }]

/-- Replica 2 signs its messages. -/
def honestRun : List ServerAction :=
  .signText 4 "h" :: messagesOfTwo.flatMap fun q => [.sign 2 q, .process ⟨q, some ⟨2, "signature"⟩⟩ 0]

/-- Replica 4 signs the PREPARE, and nobody signs the others. -/
def forgedRun : List ServerAction :=
  .signText 4 "h" :: messagesOfTwo.flatMap fun q =>
    if q.type = .prepare then [.sign 4 q, .process ⟨q, some ⟨4, "signature"⟩⟩ 0]
    else [.process ⟨q, none⟩ 0]

/-- Replica 1 at the start. -/
def serverStart (p : ServerSetup) : Server :=
  ⟨{ replica := .construct p.cfg 1 1 1, performance := .construct p.cfg 0 0 }, [], []⟩

theorem serverStart_init (p : ServerSetup) : (serverSystem p).init (serverStart p) :=
  ⟨1, 1, 1, 0, 0, rfl⟩

/-- Replica 2 is counted at the collector, at the checkpoint and for the view. -/
def CountsTwo (s : Server) : Prop :=
  2 ∈ (s.node.replica.pool.collector 1).senders .prepare "a" ∧
    s.node.checkPoint.senderCkpt.find? (ckptKey 5 "h") = some {2} ∧
    2 ∈ (s.node.viewChange.viewchangeRequest 2).keys

instance (s : Server) : Decidable (CountsTwo s) := inferInstanceAs (Decidable (_ ∧ _))

theorem authenticated_votes_honestRun :
    ∃ s, (serverSystem fourServers).run (serverStart fourServers) honestRun = some s ∧
      CountsTwo s ∧ s.Authenticated fourServers := by
  obtain ⟨s, hs, hreach, hcounts⟩ := (serverSystem fourServers).exists_run (C := FromSender)
    (P := CountsTwo) honestRun (serverStart_init fourServers) (by decide +kernel) (by decide +kernel)
  exact ⟨s, hs, hcounts, authenticated_votes hreach⟩

/-- Replica 2 is counted three times, and has not signed anything. -/
theorem authenticated_votes_fails :
    ∃ s, (serverSystem fourServers).Reachable TransitionSystem.always s ∧
      s.signed.map Prod.fst = [4] ∧ CountsTwo s ∧ ¬ s.Authenticated fourServers := by
  obtain ⟨s, hreach, hsigned, hcounts⟩ := (serverSystem fourServers).exists_reachable_always
    (P := fun s => s.signed.map Prod.fst = [4] ∧ CountsTwo s) forgedRun (serverStart_init fourServers)
    (by decide +kernel)
  refine ⟨s, hreach, hsigned, hcounts, ?_⟩
  intro h
  obtain ⟨e, he, htwo, -⟩ := h.votes 1 .prepare "a" 2 hcounts.1
  have hmem : e.1 ∈ s.signed.map Prod.fst := List.mem_map_of_mem he
  rw [hsigned, htwo] at hmem
  exact absurd hmem (by decide)

end Pbft
