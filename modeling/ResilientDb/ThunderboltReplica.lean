/-
**A Thunderbolt replica.**

Four threads share the state of a replica.  The send thread takes a client's transaction, waits until
the certificates of the last round are there and broadcasts a block with it; every second round it
asks for a commit.  The commit thread looks at the leader blocks, one for each even round: a leader
block that `2f + 1` certified blocks link to is committed, together with every earlier leader block
that the replica holds.  The execute thread walks from a leader block along the links through the
blocks that the replica holds and passes their transactions to `Commit`, in the order of the rounds.
The network thread receives blocks, which are acknowledged, acknowledgements, which make a
certificate, and certificates.

From round `rotateK` on a block asks for the end of the graph.  After `2f + 1` such blocks have been
committed the transactions of further blocks are given back, and the executor calls `SwitchDAG`,
which takes back the transactions that are still in the store and starts the next graph.

There is one function for each piece of these threads that runs under `switch_mutex_`, and two for
`ReceiveBlock`, which compares the graph and adds the block without the mutex.  A function yields `none`
where an assertion fails or a freed block is read, and where the thread would wait.

Main definitions:

* `Thunderbolt.Walk`, `Thunderbolt.walk` — the walk along the links;
* `Thunderbolt.Replica` — the replica, with its threads and handlers.
-/

import ResilientDb.ThunderboltBlocks

set_option autoImplicit false

namespace Thunderbolt

/-! ### The walk of `AsyncExecute` -/

/-- The state of the walk: the queue `q`, the blocks that have been put in it, the rounds from which
on a proposer is held back, and the blocks that were visited, by round. -/
structure Walk (H : Type) where
  queue : List (Proposal H)
  inQ : List (ℕ × ℕ)
  maxProcess : ℕ → Option ℕ
  ps : OrderedMap ℕ (List (Proposal H))

section Walk

variable {H : Type}

/-- `max_round`. -/
def maxRound (p : Proposal H) : ℕ → ℕ :=
  p.header.strongCert.foldl (fun m link => Function.update m link.proposer link.round)
    (Function.update (fun _ => 0) p.header.proposerId p.header.round)

/-- The test of `AsyncExecute` for a shard.  `shard_flag` is an `int64`, and the shards of one that is
not positive are not looked at. -/
def gatesShard (flag : BitVec 64) (gid : ℕ) : Bool := (0#64).slt flag && hasShard flag gid

/-- The shards of a link are all linked by the leader block in the round before it. -/
def validLink (leader : Proposal H) (link : Link H) : Bool :=
  (List.range 64).all fun i =>
    !gatesShard link.shardFlag (i + 1) ||
      decide ((maxRound leader (i + 1) : ℤ) = (leader.header.round : ℤ) - 1)

/-- The update of `max_process`. -/
def holdBack (leader : Proposal H) (maxProcess : ℕ → Option ℕ) (link : Link H) : ℕ → Option ℕ :=
  if validLink leader link then maxProcess
  else
    match maxProcess link.proposer with
    | none => Function.update maxProcess link.proposer (some link.round)
    | some r =>
      if link.round < r then Function.update maxProcess link.proposer (some link.round)
      else maxProcess

local instance lawful_key : LawfulBEq (ℕ × ℕ) := inferInstance

/-- The body of the loops over the links of a block. -/
def visitLink (get : ℕ → ℕ → Option (Proposal H)) (leader : Proposal H) (w : Walk H)
    (link : Link H) : Walk H :=
  if link.key ∈ w.inQ then w
  else
    let w := { w with maxProcess := holdBack leader w.maxProcess link }
    match get link.round link.proposer with
    | none => w
    | some next => { w with inQ := link.key :: w.inQ, queue := w.queue ++ [next] }

/-- The body of the loop over the queue. -/
def visitBlock (get : ℕ → ℕ → Option (Proposal H)) (leader : Proposal H) (w : Walk H)
    (p : Proposal H) : Walk H :=
  let w := p.links.foldl (visitLink get leader) w
  { w with ps := w.ps.insertWith (· ++ ·) p.header.round [p] }

/-- The loop over the queue, for at most `fuel` blocks.  A block of another graph fails an
assertion. -/
def walk (get : ℕ → ℕ → Option (Proposal H)) (dagId : ℕ) (leader : Proposal H) :
    ℕ → Walk H → Option (Walk H)
  | 0, w => if w.queue = [] then some w else none
  | fuel + 1, w =>
    match w.queue with
    | [] => some w
    | p :: queue => do
        guard (p.header.dagId = dagId)
        walk get dagId leader fuel (visitBlock get leader { w with queue := queue } p)

/-- The walk at its beginning. -/
def Walk.start (leader : Proposal H) : Walk H := ⟨[leader], [], fun _ => none, .empty⟩

/-- The visited blocks in the order in which they are committed. -/
def Walk.blocks (w : Walk H) : List (Proposal H) := w.ps.entries.flatMap Prod.snd

end Walk

/-! ### The replica -/

/-- A call of `Commit`: the graph and the proposer of the block, the transaction as it was proposed,
and as it was passed on. -/
structure Commit where
  dagId : ℕ
  proposer : ℕ
  proposed : Transaction
  passed : Transaction
deriving DecidableEq

/-- A message that is sent. -/
inductive Message (H : Type)
  | newBlock (p : Proposal H)
  | blockACK (md : Metadata H)
  | cert (cert : Certificate H)
deriving DecidableEq

/-- `Thunderbolt`.  The entries of `execute_queue_` are pointers to blocks of the store, here the
hashes of the blocks; `sending` is the transaction that the send thread has taken and whether it has
seen the last round complete; `incoming` are the blocks that `ReceiveBlock` is about to add;
`received_num_` is one list. -/
structure Replica (H : Type) [LinearOrder H] where
  manager : ProposalManager H
  localTxnId : ℕ
  executeId : ℕ
  commitRound : ℕ
  txns : List Transaction
  sending : Option (Transaction × Bool)
  pendingTxn : List Transaction
  commitQueue : List ℕ
  previousRound : ℤ
  executeQueue : List H
  receivedStop : Finset ℕ
  stopCommit : Bool
  incoming : List (Proposal H)
  futureBlock : List (Proposal H)
  futureCert : List (Certificate H)
  receivedNum : List (Metadata H)
  committed : List Commit

namespace Replica

variable {H : Type} [LinearOrder H]

/-- The constructor. -/
def start (id : ℕ) : Replica H where
  manager := .start id 0
  localTxnId := 1
  executeId := 1
  commitRound := 0
  txns := []
  sending := none
  pendingTxn := []
  commitQueue := []
  previousRound := -2
  executeQueue := []
  receivedStop := ∅
  stopCommit := false
  incoming := []
  futureBlock := []
  futureCert := []
  receivedNum := []
  committed := []

/-- `id_`. -/
def id (r : Replica H) : ℕ := r.manager.id

/-- `dag_id_`. -/
def dagId (r : Replica H) : ℕ := r.manager.dagId

/-- `ReceiveTransaction`. -/
def receiveTransaction (r : Replica H) (txn : Transaction) : Replica H :=
  { r with
    localTxnId := r.localTxnId + 1
    txns := r.txns ++ [{ txn with id := r.localTxnId }] }

/-! #### The send thread -/

/-- `AsyncSend` takes a transaction. -/
def popTxn (r : Replica H) : Option (Replica H) :=
  match r.sending, r.txns with
  | none, txn :: txns => some { r with sending := some (txn, false), txns := txns }
  | _, _ => none

/-- `AsyncSend` leaves the loop in which it waits. -/
def seeReady (c : Config H) (r : Replica H) : Option (Replica H) := do
  let (txn, _) ← r.sending
  guard (r.manager.ready c)
  some { r with sending := some (txn, true) }

/-- `AsyncSend` broadcasts a block, which has one transaction as `batch_size_` is one. -/
def sendBlock (c : Config H) (r : Replica H) (now : ℕ) : Option (Replica H × Proposal H) := do
  let (txn, seen) ← r.sending
  guard seen
  let (m, p) ← r.manager.generateProposal c [txn] now
  let round := m.round - 1
  some ({ r with
    manager := m.addLocalBlock p
    sending := none
    commitQueue :=
      if 1 < round ∧ round % 2 = 0 then r.commitQueue ++ [round - 2] else r.commitQueue }, p)

/-! #### The commit thread -/

/-- `CommitProposal`, for the leader of a round: the pointer that it pushes. -/
def commitProposal (c : Config H) (m : ProposalManager H) (round : ℕ) : Option H := do
  let cert ← (m.certList round).find? (c.leader round)
  let _ ← m.getRequest round (c.leader round)
  some cert.hash

/-- The even rounds after `previous` up to `round`. -/
def leaderRounds (previous : ℤ) (round : ℕ) : List ℕ :=
  (List.range (((round : ℤ) - previous) / 2).toNat).map fun i => (previous + 2).toNat + 2 * i

/-- The body of the loop of `AsyncCommit`, on `new_round` and the execute queue. -/
def commitLeader (c : Config H) (m : ProposalManager H) (s : ℤ × List H) (r : ℕ) : ℤ × List H :=
  match m.getRequest r (c.leader r) with
  | none => s
  | some req =>
    if m.getReferenceNum req < c.limitCount then s
    else (r, s.2 ++ (leaderRounds s.1 r).filterMap (commitProposal c m))

/-- `AsyncCommit` takes a round. -/
def asyncCommit (c : Config H) (r : Replica H) : Option (Replica H) :=
  match r.commitQueue with
  | [] => none
  | round :: rounds => do
      guard (r.previousRound ≤ round)
      let s := (leaderRounds r.previousRound round).foldl (commitLeader c r.manager)
        (r.previousRound, r.executeQueue)
      some { r with commitQueue := rounds, previousRound := s.1, executeQueue := s.2 }

/-! #### The execute thread -/

/-- The number of links of the blocks in the store, which bounds the length of a walk. -/
def linkCount (m : ProposalManager H) : ℕ :=
  (m.block.entries.map fun e => (e.2.map fun p => p.links.length).getD 0).sum

/-- How a visited block is treated: held back, or committed, as an empty block or as it is. -/
def blockMode (w : Walk H) (leader p : Proposal H) : Option Bool :=
  match w.maxProcess p.header.proposerId with
  | none => some false
  | some maxPro =>
    if maxPro ≤ p.header.round then
      if p.header.round + 20 < leader.header.round then some true else none
    else some false

/-- The fields that are set on a transaction before it is passed on or given back. -/
def stamp (r : Replica H) (p : Proposal H) (empty last : Bool) (tx : Transaction) : Transaction :=
  { tx with
    createTime := if p.header.proposerId = r.id then p.header.createTime else tx.createTime
    groupId := r.commitRound
    flag := if p.stop && last then p.header.dagId * 2 ^ 16 ||| p.header.proposerId else 0
    skip := empty || tx.skip }

/-- The body of the loop over the transactions of a block: a transaction is given back to its
proposer, or passed to `Commit` with the next number. -/
def commitTx (p : Proposal H) (empty rollBack : Bool) (r : Replica H) (tx : Transaction × Bool) :
    Replica H :=
  let passed := r.stamp p empty tx.2 tx.1
  if rollBack then
    if p.header.proposerId = r.id then { r with pendingTxn := r.pendingTxn ++ [passed] } else r
  else
    { r with
      executeId := r.executeId + 1
      committed :=
        r.committed ++ [⟨p.header.dagId, p.header.proposerId, tx.1,
          { passed with id := r.executeId }⟩] }

/-- The transactions of a block, each with whether it is the last one. -/
def withLast : List Transaction → List (Transaction × Bool)
  | [] => []
  | [tx] => [(tx, true)]
  | tx :: txs => (tx, false) :: withLast txs

/-- The body of the loop over the visited blocks, with the flag `roll_back`. -/
def commitBlock (c : Config H) (w : Walk H) (leader : Proposal H) (s : Replica H × Bool)
    (p : Proposal H) : Option (Replica H × Bool) :=
  match blockMode w leader p with
  | none => some s
  | some empty => do
      let r := s.1
      guard (p.header.dagId = r.dagId)
      let rollBack := s.2 || decide (c.limitCount ≤ r.receivedStop.card)
      let received :=
        if p.stop && !rollBack then insert p.header.proposerId r.receivedStop else r.receivedStop
      let (m, data) ← r.manager.fetchRequest p.header.round p.header.proposerId
      let data ← data
      let r := { r with manager := m, receivedStop := received }
      some ((withLast data.transactions).foldl (commitTx p empty rollBack) r, rollBack)

/-- `AsyncExecute` on a leader block of the current graph. -/
def executeLeader (c : Config H) (r : Replica H) (leader : Proposal H) : Option (Replica H) := do
  let r := { r with commitRound := r.commitRound + 1 }
  let w ← walk r.manager.getRequest r.dagId leader (linkCount r.manager + 1) (.start leader)
  let (r, _) ← w.blocks.foldlM (commitBlock c w leader) (r, false)
  some { r with stopCommit := r.stopCommit || decide (c.limitCount ≤ r.receivedStop.card) }

/-- `AsyncExecute` takes a leader block.  A pointer to a block that has left the store is not to be
read. -/
def asyncExecute (c : Config H) (r : Replica H) : Option (Replica H) :=
  match r.executeQueue with
  | [] => none
  | hash :: queue => do
      let leader ← (r.manager.block.find? hash).join
      let r := { r with executeQueue := queue }
      if r.stopCommit then
        guard (leader.header.dagId ≤ r.dagId)
        some r
      else if leader.header.dagId ≠ r.dagId then some r
      else r.executeLeader c leader

/-- `SwitchDAG`, which the executor calls after it has executed `2f + 1` blocks with the stop flag. -/
def switchDAG (c : Config H) (r : Replica H) : Option (Replica H) := do
  guard (c.limitCount ≤ r.receivedStop.card)
  let (m, txns) := r.manager.getTxn
  some { r with
    txns := r.txns ++ r.pendingTxn ++ txns
    pendingTxn := []
    manager := m.reset (r.dagId + 1)
    receivedStop := ∅
    previousRound := -2
    stopCommit := false }

/-! #### The network -/

/-- The acknowledgement of a block. -/
def acknowledge (c : Config H) (r : Replica H) (p : Proposal H) : Metadata H where
  round := p.header.round
  hash := p.hash
  sender := r.id
  sign := c.signMessage r.id p.hash
  proposer := p.header.proposerId
  dagId := p.header.dagId
  shardFlag := p.header.shardFlag

/-- `ReceiveBlock` up to the point where the block is added, with the acknowledgement of a block of an
earlier graph, which is not added.  A block of a later graph waits. -/
def receiveBlock (c : Config H) (r : Replica H) (p : Proposal H) :
    Replica H × Option (Metadata H) :=
  if r.dagId < p.header.dagId then ({ r with futureBlock := r.futureBlock ++ [p] }, none)
  else if r.dagId = p.header.dagId then ({ r with incoming := r.incoming ++ [p] }, none)
  else (r, some (r.acknowledge c p))

/-- `ReceiveBlock` adds a block and acknowledges it. -/
def addBlock (c : Config H) (r : Replica H) (k : ℕ) :
    Option (Replica H × Proposal H × Metadata H) := do
  let p ← r.incoming[k]?
  some ({ r with incoming := r.incoming.eraseIdx k, manager := r.manager.addBlock p }, p,
    r.acknowledge c p)

/-- `ReceiveBlockACK`, with the certificate that it broadcasts.  A further acknowledgement of a sender
replaces the one before; those of a block are forgotten when its certificate is sent. -/
def receiveBlockACK (c : Config H) (r : Replica H) (md : Metadata H) :
    Option (Replica H × Option (Certificate H)) :=
  let received := md :: r.receivedNum.filter fun a => !(a.sameBlock md && decide (a.sender = md.sender))
  let acks := received.filter fun a => a.sameBlock md
  if acks.length < c.limitCount then some ({ r with receivedNum := received }, none)
  else do
    let p ← r.manager.localBlock md.hash
    guard (p.header.proposerId = r.id)
    guard (p.header.round = md.round)
    some ({ r with receivedNum := received.filter fun a => !a.sameBlock md }, some {
      round := md.round
      proposer := r.id
      hash := md.hash
      dagId := md.dagId
      shardFlag := md.shardFlag
      metadata := acks
      strongCert := p.header.strongCert })

/-- `VerifyCert`: all signatures are valid, and `2f + 1` of them are of one hash. -/
def verifyCert (c : Config H) (cert : Certificate H) : Bool :=
  (cert.metadata.all fun md => c.verifyMessage md.hash md.sign) &&
    cert.metadata.any fun md => decide (c.limitCount ≤ (cert.metadata.map (·.hash)).count md.hash)

/-- `ReceiveBlockCert`, with whether the certificate was stored.  A certificate that does not verify
fails an assertion, one of a later graph waits and one of an earlier graph is dropped. -/
def receiveBlockCert (c : Config H) (r : Replica H) (cert : Certificate H) :
    Option (Replica H × Bool) := do
  guard (verifyCert c cert)
  if r.dagId < cert.dagId then some ({ r with futureCert := r.futureCert ++ [cert] }, false)
  else if cert.dagId < r.dagId then some (r, false)
  else do
    let m ← r.manager.addCert cert
    some ({ r with manager := m }, true)

/-- `RunFutureBlock` takes a block whose graph has begun. -/
def runFutureBlock (r : Replica H) : Option (Replica H × Proposal H) := do
  let p ← r.futureBlock.find? fun p => decide (p.header.dagId ≤ r.dagId)
  some ({ r with futureBlock := r.futureBlock.erase p }, p)

/-- `RunFutureCert` takes a certificate whose graph has begun. -/
def runFutureCert (r : Replica H) : Option (Replica H × Certificate H) := do
  let cert ← r.futureCert.find? fun cert => decide (cert.dagId ≤ r.dagId)
  some ({ r with futureCert := r.futureCert.erase cert }, cert)

end Replica

end Thunderbolt
