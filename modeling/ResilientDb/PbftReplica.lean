/-
**A PBFT replica.**

The model of `TransactionCollector`, `LockFreeCollectorPool`, `MessageManager` and `Commitment`, with
the parts of `CheckPointManager`, `DuplicateManager` and `TransactionExecutor` that they read.  Every
sequence number has a collector, which holds the *main request* (the PRE-PREPARE that was accepted)
and counts the PREPARE and COMMIT messages by the hash they carry.  Votes are counted by hash; what is
executed is the main request.

A handler returns `none` where the source leaves the defined behaviour: `std::bitset<128>` is written
at the sender's id without a check.  Signatures are oracles of the configuration.

Main definitions:

* `Pbft.Request`, `Pbft.TransactionCollector`, `Pbft.TransactionCollector.addRequest`;
* `Pbft.LockFreeCollectorPool` — the ring of collectors;
* `Pbft.Replica`, `Pbft.Replica.addConsensusMsg` — a replica, and the message manager's entry point;
* `Pbft.Replica.processNewRequest`, `Pbft.Replica.processProposeMsg`,
  `Pbft.Replica.processPrepareMsg`, `Pbft.Replica.processCommitMsg` — the handlers.
-/

import ResilientDb.OrderedMap

set_option autoImplicit false

namespace Pbft

/-! ### Messages -/

/-- The types of a `Request` that are used here. -/
inductive RequestType
  | prePrepare
  | prepare
  | commit
  | newTxns
  | viewchange
  | newView
  | response
  | recoveryDataResp
  | checkpoint
deriving DecidableEq

/-- The number of a type in the protocol buffer. -/
def RequestType.code : RequestType → ℕ
  | .prePrepare => 3
  | .prepare => 4
  | .commit => 5
  | .newTxns => 14
  | .viewchange => 16
  | .newView => 17
  | .response => 7
  | .recoveryDataResp => 9
  | .checkpoint => 10

structure SignatureInfo where
  nodeId : ℕ
  signature : String
deriving DecidableEq

/-- A message. -/
structure Request where
  type : RequestType := .newTxns
  data : String := ""
  currentView : ℕ := 0
  seq : ℕ := 0
  hash : String := ""
  senderId : ℕ := 0
  proxyId : ℕ := 0
  dataSignature : Option SignatureInfo := none
  committedCerts : List SignatureInfo := []
  isRecovery : Bool := false
  forceRecovery : Bool := false
  primaryId : ℕ := 0
  ret : ℤ := 0
deriving DecidableEq

/-- A message with the signature it came with. -/
structure RequestInfo where
  request : Request
  signature : SignatureInfo
deriving DecidableEq

/-- `NewRequest`. -/
def newRequest (type : RequestType) (request : Request) (senderId : ℕ) : Request :=
  { request with type := type, senderId := senderId }

/-- The configuration of a replica, and the oracles it consults. -/
structure Config where
  totalNum : ℕ
  enableViewchange : Bool
  maxProcessTxn : ℕ
  needQc : Bool
  /-- `Stats::IsFaulty`. -/
  isFaulty : ℕ → Bool
  /-- `pre_verify_func_`. -/
  preVerify : Request → Bool
  /-- `SignatureVerifier::VerifyMessage`. -/
  verifyMessage : String → Option SignatureInfo → Bool
  /-- `SignatureVerifier::SignMessage` of a replica. -/
  signMessage : ℕ → String → Option SignatureInfo

/-- `GetMinDataReceiveNum`. -/
def Config.minDataReceiveNum (cfg : Config) : ℕ := max (2 * ((cfg.totalNum - 1) / 3) + 1) 1

/-- `GetMaxMaliciousReplicaNum`. -/
def Config.maxMaliciousReplicaNum (cfg : Config) : ℕ := max ((cfg.totalNum - 1) / 3) 0

/-! ### The collector of a sequence number -/

inductive TransactionStatue
  | none
  | prepare
  | readyPrepare
  | readyCommit
  | readyExecute
  | executed
deriving DecidableEq

/-- The number of a status. -/
def TransactionStatue.code : TransactionStatue → ℤ
  | .none => 0
  | .prepare => -999
  | .readyPrepare => 1
  | .readyCommit => 2
  | .readyExecute => 3
  | .executed => 4

/-- `TransactionCollector`.  `mainRequest` is `atomic_mian_request_`; `senders` are the bits set in
`senders_`. -/
structure TransactionCollector where
  seq : ℕ
  isCommitted : Bool := false
  isPrepared : Bool := false
  preparedProof : List RequestInfo := []
  mainRequest : Option RequestInfo := none
  status : TransactionStatue := .none
  commitCerts : List SignatureInfo := []
  senders : RequestType → String → Finset ℕ := fun _ _ => ∅
  otherMainRequest : List RequestInfo := []
  view : ℕ := 0

/-- The call back of `AddRequest`: from the number of messages, the status and `force`, whether the
consensus moves on, and the new status. -/
abbrev CallBack := ℕ → TransactionStatue → Bool → Bool × TransactionStatue

/-- `MayConsensusChangeStatus`. -/
def mayConsensusChangeStatus (cfg : Config) (type : RequestType) : CallBack :=
  fun receivedCount status ret =>
    match type with
    | .prePrepare => if status = .none then (true, .readyPrepare) else (ret, status)
    | .prepare =>
      if status = .readyPrepare ∧ cfg.minDataReceiveNum ≤ receivedCount then (true, .readyCommit)
      else (ret, status)
    | .commit =>
      if status = .readyCommit ∧ cfg.minDataReceiveNum ≤ receivedCount then (true, .readyExecute)
      else (ret, status)
    | _ => (ret, status)

/-- What `AddRequest` has done: the new state, the value returned, whether the call back has changed
the status, and the request that was passed to the executor. -/
structure Added where
  collector : TransactionCollector
  ret : ℤ
  changed : Bool := false
  committed : Option Request := none

namespace TransactionCollector

/-- `senders_[type][hash][sender_id] = 1`. -/
def addSender (c : TransactionCollector) (request : Request) : TransactionCollector :=
  { c with
    senders := Function.update c.senders request.type
      (Function.update (c.senders request.type) request.hash
        (insert request.senderId (c.senders request.type request.hash))) }

/-- Count a message and let the call back decide. -/
def count (c : TransactionCollector) (request : Request) (callBack : CallBack) :
    Bool × TransactionCollector :=
  let c := c.addSender request
  let result := callBack (c.senders request.type request.hash).card c.status false
  (result.1, { c with status := result.2 })

/-- Keep the certificate of a COMMIT. -/
def addCert (c : TransactionCollector) (request : Request) : TransactionCollector :=
  match request.dataSignature with
  | none => c
  | some signature =>
    if request.type = .commit ∧ 0 < signature.nodeId then
      { c with commitCerts := c.commitCerts ++ [signature] }
    else c

/-- `Commit`.  The request is moved out of the collector, which takes no message after that. -/
def commit (c : TransactionCollector) : TransactionCollector × Option Request :=
  if c.status ≠ .readyExecute then (c, none)
  else
    match c.mainRequest with
    | none => ({ c with status := .executed }, none)
    | some main =>
      ({ c with status := .executed, isCommitted := true, mainRequest := none },
        some { main.request with
          committedCerts := main.request.committedCerts ++ c.commitCerts })

/-- `AddRequest` for a PRE-PREPARE. -/
def addMainRequest (c : TransactionCollector) (info : RequestInfo) (callBack : CallBack) : Added :=
  let force := decide (c.view ≠ 0 ∧ c.view < info.request.currentView) && !c.isPrepared
  match if force then none else c.mainRequest with
  | some _ => ⟨{ c with otherMainRequest := c.otherMainRequest ++ [info] }, -2, false, none⟩
  | none =>
    let result := callBack 1 c.status force
    ⟨{ c with mainRequest := some info, view := info.request.currentView, status := result.2 }, 0,
      result.1, none⟩

/-- The collector has just been prepared for a hash: the main request has to be one with that hash,
and other proofs are dropped.  The candidates are kept in the order of their addresses; `pick` says
which of those with the right hash comes first. -/
def prepared (c : TransactionCollector) (hash : String) (pick : ℕ) : TransactionCollector :=
  let candidates := c.otherMainRequest.filter fun info => info.request.hash = hash
  let c := { c with
    isPrepared := true
    preparedProof := c.preparedProof.filter fun info => info.request.hash = hash }
  if ∀ main ∈ c.mainRequest, main.request.hash = hash then c
  else { c with mainRequest := candidates[pick % candidates.length]?, otherMainRequest := [] }

/-- `AddRequest` for a PREPARE, with view change enabled. -/
def addPrepare (c : TransactionCollector) (info : RequestInfo) (pick : ℕ) (callBack : CallBack) :
    Option Added :=
  if TransactionStatue.readyPrepare.code < c.status.code then some ⟨c, 0, false, none⟩
  else if c.isPrepared then some ⟨c, 0, false, none⟩
  else do
    guard (info.request.senderId < 128)
    let c := { c with preparedProof := c.preparedProof ++ [info] }
    let counted := c.count info.request callBack
    some ⟨if counted.2.status = .readyCommit then counted.2.prepared info.request.hash pick
      else counted.2, 0, counted.1, none⟩

/-- `AddRequest` for the other messages. -/
def addVote (c : TransactionCollector) (request : Request) (callBack : CallBack) : Option Added := do
  guard (request.senderId < 128)
  let counted := (c.addCert request).count request callBack
  if counted.2.status = .readyExecute then
    some ⟨counted.2.commit.1, 1, counted.1, counted.2.commit.2⟩
  else some ⟨counted.2, 0, counted.1, none⟩

/-- `AddRequest`. -/
def addRequest (c : TransactionCollector) (enableViewchange : Bool) (info : RequestInfo)
    (isMainRequest : Bool) (pick : ℕ) (callBack : CallBack) : Option Added :=
  if c.isCommitted then some ⟨c, -2, false, none⟩
  else if c.status = .executed then some ⟨c, -2, false, none⟩
  else if c.seq ≠ info.request.seq then some ⟨c, -2, false, none⟩
  else if isMainRequest then some (c.addMainRequest info callBack)
  else if enableViewchange = true ∧ info.request.type = .prepare then
    c.addPrepare info pick callBack
  else c.addVote info.request callBack

end TransactionCollector

/-! ### The pool -/

/-- `GetCapacity`: the least power of two above `size`. -/
def getCapacity (size : ℕ) : ℕ := if size = 0 then 1 else 2 ^ (Nat.log2 size + 1)

/-- `LockFreeCollectorPool`: a ring of `2 * capacity` collectors.  As the capacity is a power of two,
`seq & mask_` is a remainder, and `idx ^ capacity_` is the slot half a ring away. -/
structure LockFreeCollectorPool where
  capacity : ℕ
  collector : ℕ → TransactionCollector

namespace LockFreeCollectorPool

/-- The constructor. -/
def construct (size : ℕ) : LockFreeCollectorPool where
  capacity := getCapacity (size * 2)
  collector := fun i => { seq := i }

/-- The slot of a sequence number. -/
def slot (p : LockFreeCollectorPool) (seq : ℕ) : ℕ := seq % (2 * p.capacity)

/-- `GetCollector`. -/
def getCollector (p : LockFreeCollectorPool) (seq : ℕ) : TransactionCollector :=
  p.collector (p.slot seq)

/-- The collector of a sequence number has changed. -/
def set (p : LockFreeCollectorPool) (seq : ℕ) (c : TransactionCollector) : LockFreeCollectorPool :=
  { p with collector := Function.update p.collector (p.slot seq) c }

/-- `Update`. -/
def update (p : LockFreeCollectorPool) (seq : ℕ) : LockFreeCollectorPool :=
  if (p.getCollector seq).seq ≠ seq then p
  else p.set (seq + p.capacity) { seq := seq + p.capacity }

end LockFreeCollectorPool

/-! ### The replica -/

/-- A replica.  `commitQueue` lists all requests passed to `TransactionExecutor::Commit`, also those
the executor has taken since; it has ordered those below `nextExecuteSeq`, executed those up to
`executedSeq`, and the checkpoint thread has seen those up to `lastSeq`. -/
structure Replica where
  id : ℕ
  currentView : ℕ
  primaryId : ℕ
  nextSeq : ℕ := 1
  pool : LockFreeCollectorPool
  proposedHash : List String := []
  executedHash : List (String × ℕ) := []
  pendingRecovery : OrderedMap ℕ RequestInfo := .empty
  highestPreparedSeq : ℕ := 0
  committedStatus : List ℕ := []
  commitQueue : List Request := []
  nextExecuteSeq : ℕ := 1
  executedSeq : ℕ := 0
  lastSeq : ℕ := 0

/-- What a handler does: the new state, the messages broadcast and the value returned. -/
structure Outcome where
  replica : Replica
  broadcast : List Request
  ret : ℤ

inductive CollectorResultCode
  | invalid
  | ok
  | stateChanged
deriving DecidableEq

/-- The number of a result. -/
def CollectorResultCode.code : CollectorResultCode → ℤ
  | .invalid => -2
  | .ok => 0
  | .stateChanged => 1

namespace Replica

/-- A replica of a view, before any message of it. -/
def construct (cfg : Config) (view primary id : ℕ) : Replica where
  id := id
  currentView := view
  primaryId := primary
  pool := .construct cfg.maxProcessTxn

/-- `GetMaxPendingExecutedSeq`. -/
def maxPendingExecutedSeq (r : Replica) : ℕ := r.nextExecuteSeq - 1

/-- `IsValidMsg`. -/
def isValidMsg (r : Replica) (request : Request) : Bool :=
  request.currentView = r.currentView ∧ r.maxPendingExecutedSeq ≤ request.seq

/-- The key of a sequence number in `committed_status_`, whose keys are of type `int`. -/
def statusKey (seq : ℕ) : ℕ := seq % 2 ^ 32

/-- `AddCommitState`. -/
def addCommitState (r : Replica) (seq : ℕ) : Replica :=
  { r with committedStatus := statusKey seq :: r.committedStatus }

/-- `IsCommitted`. -/
def isCommitted (r : Replica) (seq : ℕ) : Bool :=
  seq < r.lastSeq ∨ statusKey seq ∈ r.committedStatus

/-- `AddConsensusMsg`. -/
def addConsensusMsg (cfg : Config) (r : Replica) (info : RequestInfo) (pick : ℕ) :
    Option (Replica × CollectorResultCode) :=
  let seq := info.request.seq
  let type := info.request.type
  if r.isValidMsg info.request = false then some (r, .invalid)
  else if r.isCommitted seq then some (r, .stateChanged)
  else do
    let added ← (r.pool.getCollector seq).addRequest cfg.enableViewchange info
      (type = .prePrepare) pick (mayConsensusChangeStatus cfg type)
    let r := { r with
      pool := r.pool.set seq added.collector
      commitQueue := r.commitQueue ++ added.committed.toList }
    if added.ret ≠ 1 ∧ added.ret ≠ 0 then some (r, .invalid)
    else if added.changed then
      some (if type = .commit then r.addCommitState seq else r, .stateChanged)
    else some (r, .ok)

/-! ### The handlers -/

/-- `AssignNextSeq`. -/
def assignNextSeq (cfg : Config) (r : Replica) : Option (Replica × ℕ) :=
  let maxExecutedSeq := r.maxPendingExecutedSeq % 2 ^ 32
  if cfg.maxProcessTxn < (2 ^ 64 + r.nextSeq - maxExecutedSeq) % 2 ^ 64 then none
  else some ({ r with nextSeq := r.nextSeq + 1 }, r.nextSeq)

/-- `ProcessNewRequest`.  What goes back to the proxy or on to the primary is not modelled. -/
def processNewRequest (cfg : Config) (r : Replica) (userRequest : Request) : Outcome :=
  if (r.executedHash.lookup userRequest.hash).getD 0 ≠ 0 then ⟨r, [], -2⟩
  else if r.id ≠ r.primaryId then ⟨r, [], -3⟩
  else if cfg.verifyMessage userRequest.data userRequest.dataSignature = false then ⟨r, [], -2⟩
  else if cfg.preVerify userRequest = false then ⟨r, [], -2⟩
  else if userRequest.hash ∈ r.proposedHash then ⟨r, [], -2⟩
  else
    match r.assignNextSeq cfg with
    | none => ⟨r, [], -2⟩
    | some (r, seq) =>
      ⟨{ r with proposedHash := userRequest.hash :: r.proposedHash },
        [{ userRequest with
          type := .prePrepare
          currentView := r.currentView
          seq := seq
          senderId := r.id
          primaryId := r.id }], 0⟩

/-- One iteration of the loop over `pending_recovery_`: a message whose turn it is goes to its
collector, an older one is dropped. -/
def takePending (cfg : Config) (r : Replica) (seq : ℕ) (info : RequestInfo) : Option Replica :=
  let r := { r with pendingRecovery := r.pendingRecovery.eraseBegin }
  if seq = r.nextSeq then
    ({ r with nextSeq := seq + 1 }.addConsensusMsg cfg info 0).map Prod.fst
  else some r

/-- The loop over `pending_recovery_`. -/
def recoverPending (cfg : Config) : ℕ → Replica → Option Replica
  | 0, r => some r
  | fuel + 1, r =>
    match r.pendingRecovery.begin with
    | none => some r
    | some (seq, info) =>
      if r.nextSeq < seq then some r
      else (r.takePending cfg seq info).bind (recoverPending cfg fuel)

/-- A message for which recovery is not forced any more goes to its collector. -/
def addRecovered (cfg : Config) (r : Replica) (info : RequestInfo) : Option Outcome := do
  let info := { info with request := { info.request with forceRecovery := false } }
  let (r, ret) ← r.addConsensusMsg cfg info 0
  some ⟨r, [], ret.code⟩

/-- `ProcessProposeMsg` for a PRE-PREPARE that is marked as recovered.  Its sender is not compared
with the primary. -/
def processRecoveryPropose (cfg : Config) (r : Replica) (info : RequestInfo) : Option Outcome :=
  let seq := info.request.seq
  if r.nextSeq = 0 ∨ seq = r.nextSeq then do
    let r ← { r with nextSeq := seq + 1 }.recoverPending cfg r.pendingRecovery.entries.length
    r.addRecovered cfg info
  else if r.nextSeq < seq then
    some ⟨{ r with pendingRecovery := r.pendingRecovery.insertWith (fun _ new => new) seq info },
      [], 0⟩
  else if info.request.forceRecovery = false then some ⟨r, [], 0⟩
  else r.addRecovered cfg info

/-- `CheckAndAddProposed`, for a request of another replica.  `none` if the request is refused. -/
def checkProposed (cfg : Config) (r : Replica) (request : Request) : Option Replica :=
  if request.senderId = r.id then some r
  else if cfg.preVerify request = false then none
  else if cfg.verifyMessage request.data request.dataSignature = false then none
  else if request.hash ∈ r.proposedHash then none
  else some { r with proposedHash := request.hash :: r.proposedHash }

/-- `ProcessProposeMsg`. -/
def processProposeMsg (cfg : Config) (r : Replica) (info : RequestInfo) : Option Outcome :=
  if cfg.isFaulty r.id then some ⟨r, [], -2⟩
  else if info.request.isRecovery then r.processRecoveryPropose cfg info
  else if info.request.senderId ≠ r.primaryId then some ⟨r, [], -2⟩
  else
    match r.checkProposed cfg info.request with
    | none => some ⟨r, [], -2⟩
    | some r => do
        let prepareRequest := { newRequest .prepare info.request r.id with data := "" }
        let (r, ret) ← r.addConsensusMsg cfg info 0
        some ⟨r, if ret = .stateChanged then [prepareRequest] else [],
          if ret = .invalid then -2 else 0⟩

/-- `SetHighestPreparedSeq`, if the number is higher. -/
def raiseHighestPreparedSeq (r : Replica) (seq : ℕ) : Replica :=
  if r.highestPreparedSeq < seq then { r with highestPreparedSeq := seq } else r

/-- `ProcessPrepareMsg`. -/
def processPrepareMsg (cfg : Config) (r : Replica) (info : RequestInfo) (pick : ℕ) :
    Option Outcome := do
  let commitRequest :=
    { newRequest .commit info.request r.id with dataSignature := some ⟨0, ""⟩ }
  let (r, ret) ← r.addConsensusMsg cfg info pick
  let r := if ret = .stateChanged then r.raiseHighestPreparedSeq info.request.seq else r
  if info.request.isRecovery then some ⟨r, [], ret.code⟩
  else if ret = .stateChanged then
    if cfg.needQc then
      match cfg.signMessage r.id commitRequest.hash with
      | none => some ⟨r, [], -2⟩
      | some signature => some ⟨r, [{ commitRequest with dataSignature := some signature }], 0⟩
    else some ⟨r, [commitRequest], 0⟩
  else some ⟨r, [], if ret = .invalid then -2 else 0⟩

/-- `ProcessCommitMsg`. -/
def processCommitMsg (cfg : Config) (r : Replica) (info : RequestInfo) : Option Outcome := do
  let (r, ret) ← r.addConsensusMsg cfg info 0
  if info.request.isRecovery then some ⟨r, [], ret.code⟩
  else some ⟨r, [], if ret = .invalid then -2 else 0⟩

/-- `InternalConsensusCommit`, for the messages of the three phases. -/
def receive (cfg : Config) (r : Replica) (info : RequestInfo) (pick : ℕ) : Option Outcome :=
  match info.request.type with
  | .prePrepare => r.processProposeMsg cfg info
  | .prepare => r.processPrepareMsg cfg info pick
  | .commit => r.processCommitMsg cfg info
  | _ => none

/-! ### The other threads -/

/-- The ordering thread passes on the next request, and the pool makes room for a new one. -/
def orderMessage (r : Replica) : Option Replica := do
  guard (∃ request ∈ r.commitQueue, request.seq = r.nextExecuteSeq)
  some { r with
    nextExecuteSeq := r.nextExecuteSeq + 1
    pool := r.pool.update r.nextExecuteSeq }

/-- An execution thread has executed the next request. -/
def execute (r : Replica) : Option Replica := do
  guard (r.executedSeq + 1 < r.nextExecuteSeq)
  let request ← r.commitQueue.find? fun request => request.seq = r.executedSeq + 1
  some { r with
    executedSeq := r.executedSeq + 1
    executedHash := (request.hash, request.seq) :: r.executedHash }

/-- `ClearCommittedStatus`.  A negative key comes first in the map, and as it compares as a large
number the loop ends there. -/
def clearCommittedStatus (r : Replica) (seq : ℕ) : Replica :=
  if ∃ key ∈ r.committedStatus, 2 ^ 31 ≤ key then r
  else { r with committedStatus := r.committedStatus.filter fun key => seq < key }

/-- One iteration of `UpdateCheckPointStatus`. -/
def updateCheckPointStatus (r : Replica) : Option Replica := do
  guard (r.lastSeq < r.executedSeq)
  some ({ r with lastSeq := r.lastSeq + 1 }.clearCommittedStatus (r.lastSeq + 1))

/-- `UpdateRecentHash` forgets a hash. -/
def updateRecentHash (r : Replica) (hash : String) : Replica :=
  { r with
    proposedHash := r.proposedHash.filter fun h => h ≠ hash
    executedHash := r.executedHash.filter fun e => e.1 ≠ hash }

end Replica

end Pbft
