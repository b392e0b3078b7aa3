/-
**The chain of the proof-of-work miner.**

`BlockManager` keeps the committed blocks.  A replica appends the blocks it has mined itself and the
blocks that other replicas send.  `AddNewBlock` compares the height of a block with the height of the
chain, and nothing else: `VerifyBlock` recomputes the hashes of a block, but no code calls it, the
difficulty is only looked at while mining, and the previous hash and the sequence numbers are never
compared (`Pow.chain_valid_fails`).

A block of the replica's own that has become stale while it was mined is harmless, as its height is
taken.  With several worker threads two of them can find a nonce, and the block gets the hash of one
and the header of the other.

Main definitions:

* `Pow.isValidDigest`, `Pow.makeHash`, `Pow.calculatePoWHashDigest`, `Pow.verifyBlock` — the hashes;
* `Pow.BlockManager`, `Pow.chainSystem` — the chain and the block that is mined;
* `Pow.ValidFrom` — a valid chain;
* `Pow.Checked` — the condition: the checks that a received block does not get.

Main results:

* `Pow.countZeros_eq` — `IsValidDigest` counts the leading zero bits;
* `Pow.chain_valid` — under the condition the chain is valid in every state.
-/

import ResilientDb.PowFeed

set_option autoImplicit false

namespace Pow

open Wire (Byte Bytes)

/-! ### Hashes -/

/-- `HashValue`: four 64-bit numbers, or none. -/
abbrev HashValue := List ℕ

/-- `DigestToHash`: the digest as big-endian numbers. -/
def digestToHash (digest : Bytes) : HashValue :=
  (List.range 4).map fun j => ((digest.drop (8 * j)).take 8).foldl (fun v b => v * 256 + b.val) 0

/-- The eight bytes of a number, the most significant first. -/
def wordDigest (bit : ℕ) : Bytes := (List.range 8).map fun j => Fin.ofNat 256 (bit / 256 ^ (7 - j))

/-- `GetHashDigest`.  `none` is the read of a number that is not there. -/
def getHashDigest : HashValue → Option Bytes
  | [] => some []
  | b₀ :: b₁ :: b₂ :: b₃ :: _ => some (wordDigest b₀ ++ wordDigest b₁ ++ wordDigest b₂ ++ wordDigest b₃)
  | _ => none

/-- `operator==` on hashes: both have four numbers, and the numbers agree. -/
def sameHash (h₁ h₂ : HashValue) : Bool := h₁.length = 4 ∧ h₂.length = 4 ∧ h₁ = h₂

/-- The inner loop of `IsValidDigest`. -/
def zerosLoop : ℕ → ℕ → ℕ → ℕ
  | 0, zeros, _ => zeros
  | fuel + 1, zeros, m => if 0 < m then zerosLoop fuel (zeros - 1) (m / 2) else zeros

/-- The zeros that `IsValidDigest` counts for a byte; eight shifts clear it. -/
def zerosOf (b : Byte) : ℕ := zerosLoop 8 8 b.val

/-- The zeros that `IsValidDigest` counts. -/
def countZeros : Bytes → ℕ
  | [] => 0
  | b :: digest => if zerosOf b ≠ 8 then zerosOf b else zerosOf b + countZeros digest

/-- `IsValidDigest`.  It counts in 32 bits. -/
def isValidDigest (digest : Bytes) (difficulty : ℕ) : Bool := difficulty ≤ countZeros digest % 2 ^ 32

/-- The bits of a byte, the most significant first. -/
def bitsOf (b : Byte) : List Bool := (List.range 8).map fun i => b.val.testBit (7 - i)

/-- The number of zero bits that a digest starts with. -/
def leadingZeroBits (digest : Bytes) : ℕ := ((digest.flatMap bitsOf).takeWhile fun b => !b).length

/-- The zeros of a byte are its leading zero bits. -/
theorem zerosOf_eq : ∀ b : Byte, zerosOf b = ((bitsOf b).takeWhile fun b => !b).length := by
  decide +kernel

theorem zerosOf_eq_eight : ∀ b : Byte, zerosOf b = 8 ↔ (bitsOf b).all fun b => !b := by
  decide +kernel

/-- **`IsValidDigest` counts the leading zero bits.** -/
theorem countZeros_eq : ∀ digest : Bytes, countZeros digest = leadingZeroBits digest
  | [] => rfl
  | b :: digest => by
    have ih := countZeros_eq digest
    rw [countZeros, leadingZeroBits, List.flatMap_cons, List.takeWhile_append]
    by_cases h : zerosOf b = 8
    · have hall : (bitsOf b).takeWhile (fun b => !b) = bitsOf b :=
        List.takeWhile_eq_self_iff.2 (List.all_eq_true.1 ((zerosOf_eq_eight b).1 h))
      rw [if_neg (by simp [h]), hall, ih, leadingZeroBits]
      simp [h, bitsOf]
    · have hlen : (bitsOf b).length = 8 := by simp [bitsOf]
      rw [if_pos h, if_neg, zerosOf_eq b]
      rw [hlen, ← zerosOf_eq b]
      exact h

/-! ### Blocks -/

/-- `Block::Header`. -/
structure Header where
  height : ℕ
  preHash : HashValue
  merkleHash : HashValue
  nonce : ℕ
deriving DecidableEq

/-- `Block`. -/
structure Block where
  header : Header
  transactionData : Bytes
  hash : HashValue
  minSeq : ℕ
  maxSeq : ℕ
  miner : ℕ
  blockTime : ℕ
  miningTime : ℕ
deriving DecidableEq

/-- SHA-256, the serialization of transactions, and the configuration. -/
structure Env where
  calculateHash : Bytes → Bytes
  serialize : BatchClientTransactions → Bytes
  parse : Bytes → Option BatchClientTransactions
  difficulty : ℕ
  selfId : ℕ

section Model

variable (env : Env)

/-- `GetHashValue`. -/
def getHashValue (data : Bytes) : Bytes := env.calculateHash (env.calculateHash data)

/-- `TrverseMakeHash` on the data of the transactions between the two indices.  On no transactions it
calls itself for ever. -/
def traverseMakeHash : ℕ → List Bytes → Option Bytes
  | 0, _ => none
  | _ + 1, [] => none
  | _ + 1, [data] => some (getHashValue env data)
  | fuel + 1, data => do
      let mid := (data.length + 1) / 2
      let lChd ← traverseMakeHash fuel (data.take mid)
      let rChd ← traverseMakeHash fuel (data.drop mid)
      some (getHashValue env (lChd ++ rChd))

/-- `Merkle::MakeHash`. -/
def makeHash (transaction : BatchClientTransactions) : Option HashValue :=
  (traverseMakeHash env transaction.transactions.length
    (transaction.transactions.map ClientTransactions.transactionData)).map digestToHash

/-- `CalculatePoWHashDigest`. -/
def calculatePoWHashDigest (header : Header) : Option Bytes := do
  let preHash ← getHashDigest header.preHash
  let merkleHash ← getHashDigest header.merkleHash
  some (getHashValue env (preHash ++ merkleHash ++ Wire.ofText (toString header.nonce)))

/-- `IsValidHash`. -/
def isValidHash (block : Block) : Option Bool :=
  (calculatePoWHashDigest env block.header).map fun digest => sameHash (digestToHash digest) block.hash

/-- `VerifyBlock`. -/
def verifyBlock (block : Block) : Option Bool := do
  if ← isValidHash env block then
    match env.parse block.transactionData with
    | none => some false
    | some clientRequest =>
      (makeHash env clientRequest).map fun merkleHash => sameHash merkleHash block.header.merkleHash
  else some false

/-- `BlockManager`.  `solved` tells that `Mine` has returned with a solution for `new_mining_block_`. -/
structure BlockManager where
  blockList : List Block
  newMiningBlock : Option Block
  solved : Bool
  requestCandidate : BatchClientTransactions
deriving DecidableEq

end Model

/-- The empty message. -/
def BatchClientTransactions.empty : BatchClientTransactions := ⟨[], 0, 0⟩

namespace BlockManager

/-- The constructor. -/
def start : BlockManager := ⟨[], none, false, .empty⟩

/-- `GetCurrentHeight`. -/
def getCurrentHeight (s : BlockManager) : ℕ := (s.blockList.getLast?.map fun b => b.header.height).getD 0

/-- `GetLastSeq`. -/
def getLastSeq (s : BlockManager) : ℕ := (s.blockList.getLast?.map Block.maxSeq).getD 0

/-- `GetPreviousBlcokHash`. -/
def getPreviousBlockHash (s : BlockManager) : HashValue := (s.blockList.getLast?.map Block.hash).getD []

/-- `SaveClientTransactions`: the new `request_candidate_`. -/
def saveClientTransactions (s : BlockManager) (clientRequest : BatchClientTransactions) :
    BatchClientTransactions where
  transactions := s.requestCandidate.transactions ++ clientRequest.transactions
  minSeq := if s.requestCandidate.minSeq = 0 then clientRequest.minSeq
    else min s.requestCandidate.minSeq clientRequest.minSeq
  maxSeq := max s.requestCandidate.maxSeq clientRequest.maxSeq

/-- The transactions without their creation times. -/
def clearCreateTime (candidate : BatchClientTransactions) : BatchClientTransactions :=
  { candidate with transactions := candidate.transactions.map fun t => { t with createTime := 0 } }

/-- `SetNewMiningBlock`. -/
def setNewMiningBlock (env : Env) (s : BlockManager) (clientRequest : BatchClientTransactions)
    (now : ℕ) : Option BlockManager :=
  let candidate := s.saveClientTransactions clientRequest
  if candidate.minSeq ≠ (s.getLastSeq + 1) % 2 ^ 64 then some { s with requestCandidate := candidate }
  else do
    let candidate := clearCreateTime candidate
    let merkleHash ← makeHash env candidate
    some { s with
      requestCandidate := candidate
      solved := false
      newMiningBlock := some
        { header := ⟨s.getCurrentHeight + 1, s.getPreviousBlockHash, merkleHash, 0⟩
          transactionData := env.serialize candidate
          hash := []
          minSeq := candidate.minSeq
          maxSeq := candidate.maxSeq
          miner := env.selfId
          blockTime := now
          miningTime := 0 } }

/-- `Mine` returns a solution.  Each worker that finds one writes the hash and then the header of the
block, so the block has the hash for one nonce, `found`, and the header with another, `stored`. -/
def mine (env : Env) (s : BlockManager) (found stored : ℕ) : Option BlockManager := do
  let block ← s.newMiningBlock
  let digest ← calculatePoWHashDigest env { block.header with nonce := found }
  let digest' ← calculatePoWHashDigest env { block.header with nonce := stored }
  if isValidDigest digest env.difficulty ∧ isValidDigest digest' env.difficulty then
    some { s with
      solved := true
      newMiningBlock := some
        { block with
          hash := digestToHash digest
          header := { block.header with nonce := stored } } }
  else none

/-- `AddNewBlock`. -/
def addNewBlock (s : BlockManager) (block : Block) : BlockManager :=
  if block.header.height ≠ s.getCurrentHeight + 1 then s
  else { s with blockList := s.blockList ++ [block], requestCandidate := .empty }

/-- `Commit` of the block that was mined. -/
def commit (s : BlockManager) (now : ℕ) : Option BlockManager := do
  let block ← s.newMiningBlock
  if s.solved then
    some { ({ s with requestCandidate := .empty }.addNewBlock
        { block with miningTime := now - block.blockTime }) with
      newMiningBlock := none
      solved := false }
  else none

end BlockManager

/-- A block arrives in a `TYPE_COMMITTED_BLOCK` message, or the mining thread takes a step. -/
inductive ChainAction
  | receive (block : Block)
  | setNewMiningBlock (clientRequest : BatchClientTransactions) (now : ℕ)
  | mine (found stored : ℕ)
  | commit (now : ℕ)

/-- One action. -/
def BlockManager.step (env : Env) (s : BlockManager) : ChainAction → Option BlockManager
  | .receive block => some (s.addNewBlock block)
  | .setNewMiningBlock clientRequest now => s.setNewMiningBlock env clientRequest now
  | .mine found stored => s.mine env found stored
  | .commit now => s.commit now

/-- The runs of a replica. -/
def chainSystem (env : Env) : TransitionSystem BlockManager ChainAction where
  init s := s = .start
  step := BlockManager.step env

/-! ### Valid chains -/

/-- The transactions of a block are those of its Merkle hash. -/
def MerkleOk (env : Env) (b : Block) : Prop :=
  ∃ clientRequest, env.parse b.transactionData = some clientRequest ∧
    makeHash env clientRequest = some b.header.merkleHash

/-- The hash of a block is the hash of its header, with the required number of leading zero bits. -/
def HashOk (env : Env) (b : Block) : Prop :=
  ∃ digest, calculatePoWHashDigest env b.header = some digest ∧ b.hash = digestToHash digest ∧
    env.difficulty ≤ leadingZeroBits digest

/-- A valid block, for its height and for the hash and the last number of the block before it. -/
structure ValidBlock (env : Env) (height : ℕ) (preHash : HashValue) (lastSeq : ℕ) (b : Block) :
    Prop where
  height : b.header.height = height
  preHash : b.header.preHash = preHash
  minSeq : b.minSeq = lastSeq + 1
  hash : HashOk env b
  merkle : MerkleOk env b

/-- The blocks form a valid chain behind a block with this hash and last number. -/
def ValidFrom (env : Env) : ℕ → HashValue → ℕ → List Block → Prop
  | _, _, _, [] => True
  | height, preHash, lastSeq, b :: bs =>
    ValidBlock env height preHash lastSeq b ∧ ValidFrom env (height + 1) b.hash b.maxSeq bs

section Chain

variable {env : Env}

/-- The height, the hash and the last number behind a chain. -/
def lastHash (preHash : HashValue) (bs : List Block) : HashValue := (bs.getLast?.map Block.hash).getD preHash

@[inherit_doc lastHash]
def lastSeq (seq : ℕ) (bs : List Block) : ℕ := (bs.getLast?.map Block.maxSeq).getD seq

theorem lastHash_cons (preHash : HashValue) (b : Block) (bs : List Block) :
    lastHash preHash (b :: bs) = lastHash b.hash bs := by
  cases bs <;> simp [lastHash, List.getLast?_cons]

theorem lastSeq_cons (seq : ℕ) (b : Block) (bs : List Block) :
    lastSeq seq (b :: bs) = lastSeq b.maxSeq bs := by
  cases bs <;> simp [lastSeq, List.getLast?_cons]

variable {b : Block}

theorem ValidFrom.append : ∀ {bs : List Block} {height : ℕ} {preHash : HashValue} {seq : ℕ},
    ValidFrom env height preHash seq bs →
    ValidBlock env (height + bs.length) (lastHash preHash bs) (lastSeq seq bs) b →
    ValidFrom env height preHash seq (bs ++ [b])
  | [], _, _, _, _, hb => ⟨hb, trivial⟩
  | c :: bs, height, preHash, seq, h, hb => by
    refine ⟨h.1, ValidFrom.append h.2 ?_⟩
    rw [lastHash_cons, lastSeq_cons, List.length_cons, ← Nat.add_assoc, Nat.add_right_comm] at hb
    exact hb

theorem ValidFrom.height_last : ∀ {bs : List Block} {height : ℕ} {preHash : HashValue}
    {seq : ℕ}, ValidFrom env height preHash seq bs → bs.getLast? = some b →
    b.header.height + 1 = height + bs.length
  | [], _, _, _, _, hb => nomatch hb
  | [c], height, _, _, h, hb => by
    have hc : c = b := Option.some.inj hb
    rw [← hc, h.1.height, List.length_singleton]
  | c :: d :: bs, height, _, _, h, hb => by
    have := ValidFrom.height_last h.2 hb
    rw [this, List.length_cons, List.length_cons, List.length_cons]
    omega

/-! ### The condition -/

/-- What is not checked: a received block is rejected for its height, or it passes `VerifyBlock`, has
the difficulty, and continues the chain; the batch that is mined survives its serialization; one
worker finds the solution.  No number reaches the end of its type. -/
def Checked (env : Env) (s : BlockManager) : ChainAction → Prop
  | .receive block => block.header.height = s.getCurrentHeight + 1 →
      (verifyBlock env block = some true ∧
        (∃ digest ∈ calculatePoWHashDigest env block.header, isValidDigest digest env.difficulty) ∧
        block.header.preHash = s.getPreviousBlockHash) ∧
      block.minSeq = s.getLastSeq + 1 ∧ block.maxSeq + 1 < 2 ^ 64
  | .setNewMiningBlock clientRequest _ =>
    let candidate := BlockManager.clearCreateTime (s.saveClientTransactions clientRequest)
    env.parse (env.serialize candidate) = some candidate ∧ candidate.maxSeq + 1 < 2 ^ 64
  | .mine found stored => found = stored
  | .commit _ => True

theorem eq_of_sameHash {h₁ h₂ : HashValue} (h : sameHash h₁ h₂) : h₁ = h₂ := by
  simp only [sameHash, decide_eq_true_eq] at h
  exact h.2.2

/-- What a block that passes the check satisfies. -/
theorem of_verifyBlock (h : verifyBlock env b = some true) :
    (∃ digest, calculatePoWHashDigest env b.header = some digest ∧ b.hash = digestToHash digest) ∧
      MerkleOk env b := by
  obtain ⟨valid, hvalid, h⟩ := Option.bind_eq_some_iff.1 h
  obtain ⟨digest, hdigest, rfl⟩ := Option.map_eq_some_iff.1 hvalid
  split at h
  case isFalse => cases h
  case isTrue hhash =>
    refine ⟨⟨digest, hdigest, (eq_of_sameHash hhash).symm⟩, ?_⟩
    split at h
    · cases h
    · rename_i clientRequest hparse
      obtain ⟨merkleHash, hmerkle, hsame⟩ := Option.map_eq_some_iff.1 h
      refine ⟨clientRequest, hparse, ?_⟩
      rw [hmerkle, eq_of_sameHash hsame]

theorem hashOk_of_isValidDigest {digest : Bytes}
    (h : calculatePoWHashDigest env b.header = some digest) (hhash : b.hash = digestToHash digest)
    (hvalid : isValidDigest digest env.difficulty) : HashOk env b := by
  refine ⟨digest, h, hhash, ?_⟩
  rw [← countZeros_eq]
  exact (of_decide_eq_true hvalid).trans (Nat.mod_le _ _)

/-! ### The invariant -/

/-- The block that is mined continues the first `k` blocks of the chain. -/
structure Continues (env : Env) (bs : List Block) (solved : Bool) (k : ℕ) (b : Block) : Prop where
  le : k ≤ bs.length
  height : b.header.height = k + 1
  preHash : b.header.preHash = lastHash [] (bs.take k)
  minSeq : b.minSeq = lastSeq 0 (bs.take k) + 1
  maxSeq : b.maxSeq + 1 < 2 ^ 64
  merkle : MerkleOk env b
  hash : solved → HashOk env b

/-- The chain is valid, and the block that is mined continues it, or did once. -/
structure BlockManager.Inv (env : Env) (s : BlockManager) : Prop where
  valid : ValidFrom env 1 [] 0 s.blockList
  lastSeq : s.getLastSeq + 1 < 2 ^ 64
  mining : ∀ b, s.newMiningBlock = some b → ∃ k, Continues env s.blockList s.solved k b

namespace BlockManager

variable {s s' : BlockManager}

theorem inv_start : start.Inv env := by
  refine ⟨trivial, by decide, ?_⟩
  intro b hb
  cases hb

section

variable (hs : s.Inv env)
include hs

theorem Inv.getCurrentHeight_eq : s.getCurrentHeight = s.blockList.length := by
  unfold getCurrentHeight
  cases hlast : s.blockList.getLast? with
  | none => rw [List.getLast?_eq_none_iff.1 hlast]; rfl
  | some b =>
    have := hs.valid.height_last hlast
    simp only [Option.map_some, Option.getD_some]
    omega

/-- A block is appended if it is the next one, and ignored otherwise. -/
theorem Inv.addNewBlock (hb : b.header.height = s.getCurrentHeight + 1 →
      ValidBlock env (s.getCurrentHeight + 1) s.getPreviousBlockHash s.getLastSeq b ∧
        b.maxSeq + 1 < 2 ^ 64) : (s.addNewBlock b).Inv env := by
  unfold BlockManager.addNewBlock
  split
  case isTrue => exact hs
  case isFalse hheight =>
    obtain ⟨hvalid, hmax⟩ := hb (not_not.1 hheight)
    refine ⟨hs.valid.append ?_, ?_, ?_⟩
    · rw [hs.getCurrentHeight_eq, Nat.add_comm] at hvalid
      exact hvalid
    · simpa [getLastSeq] using hmax
    · intro c hc
      obtain ⟨k, hk⟩ := hs.mining c hc
      have htake : (s.blockList ++ [b]).take k = s.blockList.take k := List.take_append_of_le_length hk.le
      refine ⟨k, ?_, hk.height, ?_, ?_, hk.maxSeq, hk.merkle, hk.hash⟩
      · rw [List.length_append]
        exact Nat.le_add_right_of_le hk.le
      · rw [htake, hk.preHash]
      · rw [htake, hk.minSeq]

/-- A block of another miner has been checked. -/
theorem Inv.receive (hok : Checked env s (.receive b)) : (s.addNewBlock b).Inv env := by
  refine hs.addNewBlock fun hheight => ?_
  obtain ⟨⟨hverify, ⟨digest, hdigest, hdifficulty⟩, hpre⟩, hmin, hmax⟩ := hok hheight
  obtain ⟨⟨digest', hdigest', hhash⟩, hmerkle⟩ := of_verifyBlock hverify
  cases Option.some.inj (hdigest.symm.trans hdigest')
  exact ⟨⟨hheight, hpre, hmin, hashOk_of_isValidDigest hdigest hhash hdifficulty, hmerkle⟩, hmax⟩

theorem Inv.setNewMiningBlock {clientRequest : BatchClientTransactions} {now : ℕ}
    (hok : Checked env s (.setNewMiningBlock clientRequest now))
    (h : s.setNewMiningBlock env clientRequest now = some s') : s'.Inv env := by
  unfold BlockManager.setNewMiningBlock at h
  dsimp only at h
  split at h
  case isTrue =>
    cases h
    exact ⟨hs.valid, hs.lastSeq, hs.mining⟩
  case isFalse hmin =>
    obtain ⟨merkleHash, hmerkle, h⟩ := Option.bind_eq_some_iff.1 h
    cases h
    refine ⟨hs.valid, hs.lastSeq, ?_⟩
    intro b hb
    cases hb
    have hlen : s.blockList.take s.blockList.length = s.blockList := List.take_length
    refine ⟨s.blockList.length, le_rfl, ?_, ?_, ?_, hok.2, ⟨_, hok.1, hmerkle⟩, nofun⟩
    · rw [← hs.getCurrentHeight_eq]
    · rw [hlen]
      rfl
    · rw [hlen]
      exact (not_not.1 hmin).trans (Nat.mod_eq_of_lt hs.lastSeq)

/-- A block that was mined has a digest with enough zeros. -/
theorem Inv.mine {nonce : ℕ} (h : s.mine env nonce nonce = some s') : s'.Inv env := by
  obtain ⟨b, hb, h⟩ := Option.bind_eq_some_iff.1 h
  obtain ⟨digest, hdigest, h⟩ := Option.bind_eq_some_iff.1 h
  obtain ⟨digest', hdigest', h⟩ := Option.bind_eq_some_iff.1 h
  split at h
  case isFalse => cases h
  case isTrue hvalid =>
    cases h
    obtain ⟨k, hk⟩ := hs.mining b hb
    refine ⟨hs.valid, hs.lastSeq, ?_⟩
    intro c hc
    cases hc
    exact ⟨k, hk.le, hk.height, hk.preHash, hk.minSeq, hk.maxSeq, hk.merkle,
      fun _ => hashOk_of_isValidDigest hdigest rfl hvalid.1⟩

/-- A block that was mined is added to the chain. -/
theorem Inv.commit {now : ℕ} (h : s.commit now = some s') : s'.Inv env := by
  obtain ⟨b, hb, h⟩ := Option.bind_eq_some_iff.1 h
  split at h
  case isFalse => cases h
  case isTrue hsolved =>
    cases h
    obtain ⟨k, hk⟩ := hs.mining b hb
    have hcleared : ({ s with requestCandidate := .empty } : BlockManager).Inv env :=
      ⟨hs.valid, hs.lastSeq, hs.mining⟩
    have hadd := hcleared.addNewBlock (b := { b with miningTime := now - b.blockTime }) fun hheight => by
      -- the height says that the chain has not grown since
      have hlen : k = s.blockList.length := by
        have hcur := hheight.trans (congrArg (· + 1) hcleared.getCurrentHeight_eq)
        exact Nat.succ_injective (hk.height.symm.trans hcur)
      have htake : s.blockList.take k = s.blockList := by rw [hlen, List.take_length]
      have hpre := hk.preHash
      have hmin := hk.minSeq
      rw [htake] at hpre hmin
      exact ⟨⟨hheight, hpre, hmin, hk.hash hsolved, hk.merkle⟩, hk.maxSeq⟩
    exact ⟨hadd.valid, hadd.lastSeq, nofun⟩

/-- Every step that meets the condition keeps the chain valid. -/
theorem Inv.step {a : ChainAction} (hok : Checked env s a)
    (h : s.step env a = some s') : s'.Inv env := by
  cases a with
  | receive b =>
    cases h
    exact hs.receive hok
  | setNewMiningBlock clientRequest now => exact hs.setNewMiningBlock hok h
  | mine found stored =>
    cases show found = stored from hok
    exact hs.mine h
  | commit now => exact hs.commit h

end

end BlockManager

/-- **Chain validity.**  In every run in which the checks that the code leaves out would have passed,
the chain is valid. -/
theorem chain_valid {s : BlockManager} (hs : (chainSystem env).Reachable (Checked env) s) :
    ValidFrom env 1 [] 0 s.blockList := by
  have hinv : s.Inv env := by
    refine hs.invariant ?_ ?_
    · rintro _ rfl
      exact BlockManager.inv_start
    · intro s a s' hs hok h
      exact hs.step hok h
  exact hinv.valid

/-- A batch of one transaction. -/
def oneBatch (seq : Byte) : BatchClientTransactions := ⟨[⟨[seq], seq.val, 0⟩], seq.val, seq.val⟩

/-- The message of the batch. -/
def oneBatchData (seq : Byte) : Bytes := [10, 5, 10, 1, seq, 16, seq, 16, seq, 24, seq]

/-- A hash of 32 bytes, and the messages of two batches. -/
def sampleEnv : Env where
  calculateHash data :=
    List.replicate 30 0 ++ [Fin.ofNat 256 data.length, Fin.ofNat 256 (data.map Fin.val).sum]
  serialize b := if b = oneBatch 1 then oneBatchData 1 else if b = oneBatch 2 then oneBatchData 2 else []
  parse data := if data = oneBatchData 1 then some (oneBatch 1)
    else if data = oneBatchData 2 then some (oneBatch 2) else none
  difficulty := 9
  selfId := 1

/-- The second block, as another replica mines it behind the first one. -/
def secondBlock : Block where
  header := ⟨2, [0, 0, 0, 8310], [0, 0, 0, 8195], 4⟩
  transactionData := oneBatchData 2
  hash := [0, 0, 0, 8238]
  minSeq := 2
  maxSeq := 2
  miner := 2
  blockTime := 20
  miningTime := 3

/-- The replica mines the first block and receives the second. -/
def sampleChain : List ChainAction :=
  [.setNewMiningBlock ⟨[⟨[1], 1, 7⟩], 1, 1⟩ 10, .mine 3 3, .commit 15, .receive secondBlock]

theorem chain_valid_sampleChain :
    ∃ s, (chainSystem sampleEnv).run .start sampleChain = some s ∧ s.blockList.length = 2 ∧
      ValidFrom sampleEnv 1 [] 0 s.blockList := by
  refine ⟨_, rfl, by decide +kernel, chain_valid ?_⟩
  refine (TransitionSystem.Reachable.init rfl).run sampleChain ?_ rfl
  refine ⟨⟨by decide +kernel, by decide +kernel⟩, rfl, trivial, fun _ => ?_, trivial⟩
  exact ⟨⟨by decide +kernel, ⟨_, rfl, by decide +kernel⟩, by decide +kernel⟩,
    by decide +kernel, by decide +kernel⟩

/-- A block that nobody has mined: it has no hash and no transactions, and starts at the number 5. -/
def forgedBlock : Block := ⟨⟨1, [], [], 0⟩, [], [], 5, 6, 2, 0, 0⟩

/-- The block becomes the first one of the chain, although `VerifyBlock` would reject it. -/
theorem chain_valid_fails :
    verifyBlock sampleEnv forgedBlock = some false ∧
      ∃ s, (chainSystem sampleEnv).run .start [.receive forgedBlock] = some s ∧
        s.blockList = [forgedBlock] ∧ ¬ ValidFrom sampleEnv 1 [] 0 s.blockList := by
  refine ⟨by decide +kernel, _, rfl, by decide +kernel, fun h => ?_⟩
  have hmin := h.1.minSeq
  revert hmin
  decide +kernel

end Chain

end Pow
