/-
**The block store of a Thunderbolt replica.**

Thunderbolt orders blocks in a graph.  Every replica proposes a block in each round, with links to
the certified blocks of the round before (strong links) and to the newest certified block of every
replica that has none there (weak links).  `ProposalManager` keeps the blocks and certificates that
a replica has received in the current graph, counts the strong links to each block, and builds the
next proposal.

A certificate is stored without its votes and links, and a link is such a certificate: it names a
block by its round and proposer.  A block that has been committed is moved out of the store, which
leaves an empty entry under its hash.

Main definitions:

* `Thunderbolt.Link`, `Thunderbolt.Certificate`, `Thunderbolt.Proposal` — the messages;
* `Thunderbolt.Config` — the number of replicas and what the replica takes from elsewhere: the hash
  function and the signatures;
* `Thunderbolt.ProposalManager` — the store, with its functions.
-/

import ResilientDb.OrderedMap
import ResilientDb.Wire

set_option autoImplicit false

namespace Thunderbolt

open Wire (Bytes)

/-! ### Messages -/

/-- `SignatureInfo`: a signature and the node whose key it is checked with. -/
structure SignatureInfo where
  nodeId : ℕ
  signature : ℕ
deriving DecidableEq

/-- `Metadata`: the acknowledgement of a block. -/
structure Metadata (H : Type) where
  round : ℕ
  hash : H
  sender : ℕ
  sign : SignatureInfo
  proposer : ℕ
  dagId : ℕ
  shardFlag : BitVec 64
deriving DecidableEq

/-- A `Certificate` without its acknowledgements and links, which is how it is stored and linked. -/
structure Link (H : Type) where
  round : ℕ
  proposer : ℕ
  hash : H
  dagId : ℕ
  shardFlag : BitVec 64
deriving DecidableEq

/-- `Certificate`, as it is sent. -/
structure Certificate (H : Type) extends Link H where
  metadata : List (Metadata H)
  strongCert : List (Link H)
deriving DecidableEq

/-- `Transaction`. -/
structure Transaction where
  id : ℕ
  data : Bytes
  hash : Bytes
  proxyId : ℕ
  createTime : ℕ
  groupId : ℕ
  flag : ℕ
  belongShards : List ℕ
  shardId : ℕ
  skip : Bool
deriving DecidableEq

/-- `Header`. -/
structure Header (H : Type) where
  proposerId : ℕ
  createTime : ℕ
  round : ℕ
  strongCert : List (Link H)
  weakCert : List (Link H)
  dagId : ℕ
  shardFlag : BitVec 64
deriving DecidableEq

/-- `Proposal`: a block. -/
structure Proposal (H : Type) where
  header : Header H
  transactions : List Transaction
  sender : ℕ
  hash : H
  stop : Bool
deriving DecidableEq

/-- Two acknowledgements that are kept under one entry of `received_num_`. -/
def Metadata.sameBlock {H : Type} [DecidableEq H] (a b : Metadata H) : Bool :=
  decide (a.dagId = b.dagId) && decide (a.hash = b.hash)

/-- The round and the proposer that a link names. -/
def Link.key {H : Type} (link : Link H) : ℕ × ℕ := (link.round, link.proposer)

/-- The round and the proposer of a block. -/
def Proposal.key {H : Type} (p : Proposal H) : ℕ × ℕ := (p.header.round, p.header.proposerId)

/-- The links of a block, in the order in which they are followed. -/
def Proposal.links {H : Type} (p : Proposal H) : List (Link H) :=
  p.header.strongCert ++ p.header.weakCert

/-- The transactions of a block of the replica itself. -/
def Proposal.ownTxns {H : Type} (id : ℕ) (p : Proposal H) : List Transaction :=
  if p.header.proposerId = id then p.transactions else []

/-- The number of faults and of replicas, the hash function, and the signatures. -/
structure Config (H : Type) where
  f : ℕ
  totalNum : ℕ
  /-- `SignatureVerifier::CalculateHash` of the transactions and the header. -/
  calculateHash : List Transaction → Header H → H
  /-- `SignatureVerifier::SignMessage`, by the node it runs on. -/
  signMessage : ℕ → H → SignatureInfo
  /-- `SignatureVerifier::VerifyMessage`. -/
  verifyMessage : H → SignatureInfo → Bool

namespace Config

variable {H : Type} (c : Config H)

/-- `limit_count_`. -/
def limitCount : ℕ := 2 * c.f + 1

/-- `GetLeader`. -/
def leader (r : ℕ) : ℕ := r / 2 % c.totalNum + 1

end Config

/-- `1 << (gid - 1)`, which is shifted as an `int` and then extended to 64 bits.  There is nothing for a
shift by less than 0 or more than 31. -/
def shardBit (gid : ℕ) : Option (BitVec 64) :=
  if 1 ≤ gid ∧ gid ≤ 32 then some (((1#32) <<< (gid - 1)).signExtend 64) else none

/-- The shards that the transactions touch. -/
def shardsOf (txns : List Transaction) : List ℕ := txns.flatMap Transaction.belongShards

/-- The `flag` of `GenerateProposal` after the given shards. -/
def addShards (flag : BitVec 64) (gids : List ℕ) : Option (BitVec 64) :=
  gids.foldlM (fun flag gid => (shardBit gid).map (flag ||| ·)) flag

/-- `(1ll << (gid - 1)) & flag`, as a test. -/
def hasShard (flag : BitVec 64) (gid : ℕ) : Bool := decide ((1#64) <<< (gid - 1) &&& flag ≠ 0)

/-- `rotate_k_`: the blocks from this round on ask for the end of the graph. -/
def rotateK : ℕ := 300

/-! ### The store -/

/-- `ProposalManager`.  A null entry of `block_` is `some none` under its hash. -/
structure ProposalManager (H : Type) [LinearOrder H] where
  id : ℕ
  dagId : ℕ
  round : ℕ
  block : OrderedMap H (Option (Proposal H))
  localBlock : H → Option (Proposal H)
  certList : ℕ → OrderedMap ℕ (Link H)
  latestCertFromSender : OrderedMap ℕ (Link H)
  reference : ℕ × ℕ → ℕ

namespace ProposalManager

variable {H : Type} [LinearOrder H]

/-- The constructor. -/
def start (id dagId : ℕ) : ProposalManager H where
  id := id
  dagId := dagId
  round := 0
  block := .empty
  localBlock := fun _ => none
  certList := fun _ => .empty
  latestCertFromSender := .empty
  reference := fun _ => 0

/-- `Reset`. -/
def reset (m : ProposalManager H) (dagId : ℕ) : ProposalManager H :=
  { m with
    dagId := dagId
    round := 0
    certList := fun _ => .empty
    latestCertFromSender := .empty
    reference := fun _ => 0 }

/-- The search of `GetMetaData` for the newest certificate of a proposer, from a round downwards. -/
def newestCert (m : ProposalManager H) (proposer : ℕ) : ℕ → Option (Link H)
  | 0 => (m.certList 0).find? proposer
  | j + 1 => ((m.certList (j + 1)).find? proposer).orElse fun _ => m.newestCert proposer j

/-- `GetMetaData`: the strong links, the weak links and the stop flag. -/
def getMetaData (c : Config H) (m : ProposalManager H) :
    Option (List (Link H) × List (Link H) × Bool) :=
  if m.round = 0 then some ([], [], false)
  else do
    let preview := m.certList (m.round - 1)
    guard (c.limitCount ≤ preview.entries.length)
    guard (preview.find? m.id).isSome
    guard (∀ e ∈ preview.entries, e.2.dagId = m.dagId)
    let weak := m.latestCertFromSender.entries.filterMap fun e =>
      if e.1 ∈ preview.keys then none
      else if m.round < e.2.round then m.newestCert e.1 m.round
      else some e.2
    some (preview.entries.map Prod.snd, weak, decide (rotateK ≤ m.round))

/-- `GenerateProposal`.  There is no result if a shift is undefined or an assertion of `GetMetaData`
fails. -/
def generateProposal (c : Config H) (m : ProposalManager H) (txns : List Transaction) (now : ℕ) :
    Option (ProposalManager H × Proposal H) := do
  let flag ← addShards 0 (shardsOf txns)
  let (strong, weak, stop) ← m.getMetaData c
  let header : Header H := {
    proposerId := m.id
    createTime := now
    round := m.round
    strongCert := strong
    weakCert := weak
    dagId := m.dagId
    shardFlag := flag }
  some ({ m with round := m.round + 1 }, {
    header := header
    transactions := txns
    sender := m.id
    hash := c.calculateHash txns header
    stop := stop })

/-- The transactions of the replica's own blocks in the store. -/
def ownTxns (m : ProposalManager H) : List Transaction :=
  m.block.entries.flatMap fun e => e.2.elim [] (Proposal.ownTxns m.id)

/-- `GetTxn`, which empties the store. -/
def getTxn (m : ProposalManager H) : ProposalManager H × List Transaction :=
  ({ m with block := .empty }, m.ownTxns)

/-- `AddLocalBlock`. -/
def addLocalBlock (m : ProposalManager H) (p : Proposal H) : ProposalManager H :=
  { m with localBlock := Function.update m.localBlock p.hash (some p) }

/-- `AddBlock`. -/
def addBlock (m : ProposalManager H) (p : Proposal H) : ProposalManager H :=
  { m with block := m.block.set p.hash (some p) }

/-- `GetReferenceNum`. -/
def getReferenceNum (m : ProposalManager H) (p : Proposal H) : ℕ := m.reference p.key

/-- `GetRequest`: the block of a certificate, if both are there. -/
def getRequest (m : ProposalManager H) (round sender : ℕ) : Option (Proposal H) := do
  let cert ← (m.certList round).find? sender
  let p ← m.block.find? cert.hash
  p

/-- `FetchRequest`: moves the block of a certificate out of the store.  A certificate without a block
fails an assertion; without a certificate there is no result. -/
def fetchRequest (m : ProposalManager H) (round sender : ℕ) :
    Option (ProposalManager H × Option (Proposal H)) :=
  match (m.certList round).find? sender with
  | none => some (m, none)
  | some cert =>
    match m.block.find? cert.hash with
    | none => none
    | some p =>
      some ({ m with
        block := m.block.set cert.hash none
        certList := Function.update m.certList round ((m.certList round).erase sender)
        localBlock :=
          if sender = m.id then Function.update m.localBlock cert.hash none
          else m.localBlock }, p)

/-- The part of `AddCert` that counts the strong links. -/
def countReferences (reference : ℕ × ℕ → ℕ) (strong : List (Link H)) : ℕ × ℕ → ℕ :=
  strong.foldl (fun ref link => Function.update ref link.key (ref link.key + 1)) reference

/-- `AddCert`. -/
def addCert (m : ProposalManager H) (cert : Certificate H) : Option (ProposalManager H) := do
  guard (cert.dagId = m.dagId)
  some { m with
    reference := countReferences m.reference cert.strongCert
    certList := Function.update m.certList cert.round
      ((m.certList cert.round).set cert.proposer cert.toLink)
    latestCertFromSender := m.latestCertFromSender.set cert.proposer cert.toLink }

/-- `Ready`. -/
def ready (c : Config H) (m : ProposalManager H) : Bool :=
  m.round = 0 ||
    (decide (c.limitCount ≤ (m.certList (m.round - 1)).entries.length) &&
      ((m.certList (m.round - 1)).find? m.id).isSome)

end ProposalManager

end Thunderbolt
