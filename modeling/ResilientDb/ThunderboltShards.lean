/-
**The shard masks of Thunderbolt blocks.**

A block carries a 64-bit mask of the shards that its transactions touch, with bit `g - 1` for shard
`g`.  `GenerateProposal` builds it from `1 << (gid - 1)`, whose operands are `int`s: the bit of shard
32 is the sign of the `int` and is extended over bits 31 to 63, and for the shards from 33 on the shift
is undefined.  `AddIfCrossTxn` and `AsyncExecute` read the mask with 64-bit shifts; the latter only if
it is positive.

Main results:

* `Thunderbolt.addShards_isSome`, `Thunderbolt.addShards_getLsbD` — the mask that is built;
* `Thunderbolt.shardMask_exact_iff` — the mask and the tests are right for the shards up to 31.
-/

import ResilientDb.ThunderboltCertificates

set_option autoImplicit false

namespace Thunderbolt

/-- The test of `AddIfCrossTxn` on the replica `id`. -/
def tracksShard (flag : BitVec 64) (id : ℕ) : Bool := decide (flag ≠ 0) && hasShard flag id

theorem shardBit_eq_some {gid : ℕ} {bit : BitVec 64} (h : shardBit gid = some bit) :
    (1 ≤ gid ∧ gid ≤ 32) ∧ ∀ i < 64, bit.getLsbD i ↔ i + 1 = gid ∨ (gid = 32 ∧ 32 ≤ i) := by
  unfold shardBit at h
  split at h
  · rename_i hgid
    cases h
    refine ⟨hgid, fun i hi => ?_⟩
    obtain ⟨h₁, h₂⟩ := hgid
    revert i
    interval_cases gid <;> decide
  · cases h

theorem addShards_cons (flag : BitVec 64) (gid : ℕ) (gids : List ℕ) :
    addShards flag (gid :: gids) = (shardBit gid).bind fun bit => addShards (flag ||| bit) gids := by
  cases h : shardBit gid <;> simp [addShards, h]

theorem addShards_isSome (gids : List ℕ) (flag : BitVec 64) :
    (addShards flag gids).isSome ↔ ∀ gid ∈ gids, 1 ≤ gid ∧ gid ≤ 32 := by
  induction gids generalizing flag with
  | nil => simp [addShards]
  | cons gid gids ih =>
      rw [addShards_cons]
      by_cases hgid : 1 ≤ gid ∧ gid ≤ 32
      · simp [shardBit, hgid, ih]
      · simp [shardBit, hgid]

/-- What stands in the mask: the shards, and for shard 32 the upper half. -/
theorem addShards_getLsbD {gids : List ℕ} {flag flag' : BitVec 64}
    (h : addShards flag gids = some flag') {i : ℕ} (hi : i < 64) :
    flag'.getLsbD i ↔ flag.getLsbD i ∨ i + 1 ∈ gids ∨ (32 ∈ gids ∧ 32 ≤ i) := by
  induction gids generalizing flag with
  | nil =>
      cases h
      simp
  | cons gid gids ih =>
      rw [addShards_cons] at h
      obtain ⟨bit, hbit, h⟩ := Option.bind_eq_some_iff.1 h
      rw [ih h, BitVec.getLsbD_or, Bool.or_eq_true, (shardBit_eq_some hbit).2 i hi, List.mem_cons,
        List.mem_cons, eq_comm (a := 32)]
      tauto

theorem hasShard_iff (flag : BitVec 64) {g : ℕ} (h₁ : 1 ≤ g) (h₂ : g ≤ 64) :
    hasShard flag g ↔ flag.getLsbD (g - 1) := by
  have hne : BitVec.twoPow 64 (g - 1) ≠ 0#64 := by
    intro hzero
    have hbit := congrArg (·.getLsbD (g - 1)) hzero
    simp at hbit
    omega
  rw [hasShard, ← BitVec.twoPow_eq, BitVec.and_comm, BitVec.and_twoPow]
  cases flag.getLsbD (g - 1) <;> simp [hne]

theorem tracksShard_iff (flag : BitVec 64) (g : ℕ) : tracksShard flag g ↔ hasShard flag g := by
  rw [tracksShard, Bool.and_eq_true, decide_eq_true_eq, and_iff_right_iff_imp]
  rintro h rfl
  simp [hasShard] at h

/-- A mask without the sign bit is positive if it is not empty. -/
theorem gatesShard_iff {flag : BitVec 64} (hsign : flag.getLsbD 63 = false) (g : ℕ) :
    gatesShard flag g ↔ hasShard flag g := by
  rw [gatesShard, Bool.and_eq_true, and_iff_right_iff_imp, ← tracksShard_iff, tracksShard,
    Bool.and_eq_true, decide_eq_true_eq]
  rintro ⟨hne, -⟩
  have hmsb : flag.msb = false := by rw [BitVec.msb_eq_getLsbD_last, hsign]
  have hpos : flag.toNat ≠ 0 := fun h => hne (BitVec.eq_of_toNat_eq h)
  rw [BitVec.slt_iff_toInt_lt, BitVec.toInt_eq_toNat_of_msb hmsb, BitVec.toInt_zero]
  omega

section Exact

variable {H : Type} [LinearOrder H]

/-- `GenerateProposal` makes a block, and the bits of its mask and the tests on it are those of the
shards that the transactions touch. -/
def ShardsExact (c : Config H) (m : ProposalManager H) (txns : List Transaction) (now : ℕ) : Prop :=
  ∃ m' p, m.generateProposal c txns now = some (m', p) ∧ ∀ g, 1 ≤ g → g ≤ 64 →
    (p.header.shardFlag.getLsbD (g - 1) ↔ g ∈ shardsOf txns) ∧
      (tracksShard p.header.shardFlag g ↔ g ∈ shardsOf txns) ∧
        (gatesShard p.header.shardFlag g ↔ g ∈ shardsOf txns)

theorem generateProposal_shardFlag {c : Config H} {m m' : ProposalManager H} {p : Proposal H}
    {txns : List Transaction} {now : ℕ} (h : m.generateProposal c txns now = some (m', p)) :
    addShards 0 (shardsOf txns) = some p.header.shardFlag := by
  simp only [ProposalManager.generateProposal, bind, Option.bind_eq_some_iff, Prod.exists] at h
  obtain ⟨flag, hflag, _, _, _, -, -, rfl⟩ := h
  exact hflag

theorem shardMask_exact_iff {c : Config H} {m : ProposalManager H} (txns : List Transaction) (now : ℕ)
    (hmeta : (m.getMetaData c).isSome) (hids : ∀ g ∈ shardsOf txns, 1 ≤ g ∧ g ≤ 64) :
    ShardsExact c m txns now ↔ ∀ g ∈ shardsOf txns, g ≤ 31 := by
  constructor
  · rintro ⟨m', p, hp, hexact⟩ g hg
    have hflag := generateProposal_shardFlag hp
    have hrange := (addShards_isSome _ _).1 (Option.isSome_of_eq_some hflag)
    by_contra hlt
    -- the only shard left is 32, which sets the bit of shard 33
    obtain rfl : g = 32 := by have := hrange g hg; omega
    have hbit : p.header.shardFlag.getLsbD 32 :=
      (addShards_getLsbD hflag (by decide)).2 (.inr (.inr ⟨hg, le_refl _⟩))
    have := hrange 33 ((hexact 33 (by decide) (by decide)).1.1 hbit)
    omega
  · intro hle
    obtain ⟨flag, hflag⟩ := Option.isSome_iff_exists.1 ((addShards_isSome (shardsOf txns) 0).2
      fun g hg => ⟨(hids g hg).1, (hle g hg).trans (by decide)⟩)
    obtain ⟨⟨strong, weak, stop⟩, hmeta⟩ := Option.isSome_iff_exists.1 hmeta
    have hbit : ∀ i < 64, flag.getLsbD i ↔ i + 1 ∈ shardsOf txns := by
      intro i hi
      have h32 : 32 ∉ shardsOf txns := fun h => absurd (hle 32 h) (by decide)
      simpa [h32] using addShards_getLsbD hflag hi
    have hsign : flag.getLsbD 63 = false := by
      rw [← Bool.not_eq_true, hbit 63 (by decide)]
      exact fun h => absurd (hle 64 h) (by decide)
    simp only [ShardsExact, ProposalManager.generateProposal, hflag, hmeta, bind,
      Option.bind_some, Option.some.injEq, Prod.mk.injEq]
    refine ⟨_, _, ⟨rfl, rfl⟩, fun g h₁ h₂ => ?_⟩
    have hg : flag.getLsbD (g - 1) ↔ g ∈ shardsOf txns := by
      rw [hbit _ (by omega), Nat.sub_add_cancel h₁]
    rw [tracksShard_iff, gatesShard_iff hsign, hasShard_iff _ h₁ h₂]
    exact ⟨hg, hg, hg⟩

/-- A transaction that touches one shard. -/
def shardTxn (gid : ℕ) : Transaction := ⟨0, [], [], 0, 0, 0, 0, [gid], 0, false⟩

theorem shardMask_exact_iff_31 :
    ShardsExact sampleConfig (.start 1 0) [shardTxn 1, shardTxn 31] 0 ↔
      ∀ g ∈ shardsOf [shardTxn 1, shardTxn 31], g ≤ 31 :=
  shardMask_exact_iff _ 0 rfl (by decide)

/-- The mask of shard 32 has the bit of shard 33, and there is none for shard 33. -/
theorem shardMask_exact_fails :
    ¬ ShardsExact sampleConfig (.start 1 0) [shardTxn 32] 0 ∧
      ¬ ShardsExact sampleConfig (.start 1 0) [shardTxn 33] 0 := by
  constructor
  · rintro ⟨m', p, h, hexact⟩
    have hflag : addShards 0 [32] = some p.header.shardFlag := generateProposal_shardFlag h
    have hbit := (addShards_getLsbD hflag (i := 32) (by decide)).2 (by decide)
    exact absurd ((hexact 33 (by decide) (by decide)).1.1 hbit) (by decide)
  · rintro ⟨m', p, h, -⟩
    cases generateProposal_shardFlag h

end Exact

end Thunderbolt
