/-
**Digests as numbers.**

A digest of 32 bytes is stored as four numbers of 64 bits, the most significant byte first.  So the
numbers give the digest back, and comparing them one after the other is comparing bytes.

`IsValidDigest` counts zero bits in 32 bits of its own.  On `2 ^ 29` zero bytes, far more than a digest
has, it has counted to 0 (`Pow.digest_arithmetic_fails`).

Main definitions:

* `Pow.cmpHash`, `Pow.hashLt` — the order of hash values.

Main results:

* `Pow.foldl_lt_iff` — numbers are compared digit by digit;
* `Pow.getHashDigest_digestToHash` — a hash value is a digest, read in words;
* `Pow.digest_arithmetic` — the three functions on digests.
-/

import ResilientDb.PowChain

set_option autoImplicit false

namespace Pow

open Wire (Bytes)

/-! ### The order -/

/-- The loop of `CmpHash`. -/
def cmpBits : HashValue → HashValue → ℤ
  | b₁ :: h₁, b₂ :: h₂ => if b₁ ≠ b₂ then if b₁ < b₂ then -1 else 1 else cmpBits h₁ h₂
  | _, _ => 0

/-- `CmpHash`. -/
def cmpHash (h₁ h₂ : HashValue) : ℤ := if h₁.length ≠ 4 ∨ h₂.length ≠ 4 then -1 else cmpBits h₁ h₂

/-- `operator<`. -/
def hashLt (h₁ h₂ : HashValue) : Bool := cmpHash h₁ h₂ < 0

theorem cmpBits_neg_iff : ∀ {h₁ h₂ : HashValue}, h₁.length = h₂.length →
    (cmpBits h₁ h₂ < 0 ↔ h₁ < h₂)
  | [], [], _ => by simp [cmpBits]
  | b₁ :: h₁, b₂ :: h₂, h => by
    have ih := cmpBits_neg_iff (Nat.succ.inj h)
    rw [List.cons_lt_cons_iff, cmpBits]
    split_ifs with hne hlt
    · simp [hlt]
    · simp [hlt, hne]
    · rw [ih, not_not.1 hne]
      simp

/-- Numbers of the same length are compared digit by digit. -/
theorem foldl_lt_iff : ∀ {w w' : Bytes} {v v' : ℕ}, w.length = w'.length →
    (w.foldl (fun v b => v * 256 + b.val) v < w'.foldl (fun v b => v * 256 + b.val) v' ↔
      v < v' ∨ v = v' ∧ w < w')
  | [], [], v, v', _ => by simp
  | b :: w, b' :: w', v, v', h => by
    rw [List.foldl_cons, List.foldl_cons, foldl_lt_iff (Nat.succ.inj h), List.cons_lt_cons_iff,
      Fin.lt_def, Fin.ext_iff]
    by_cases hw : w < w'
    · simp only [hw, and_true]
      omega
    · simp only [hw, and_false, or_false]
      omega

theorem append_lt_append_iff {a₂ b₂ : Bytes} : ∀ {a₁ b₁ : Bytes}, a₁.length = b₁.length →
    (a₁ ++ a₂ < b₁ ++ b₂ ↔ a₁ < b₁ ∨ a₁ = b₁ ∧ a₂ < b₂)
  | [], [], _ => by simp
  | x :: a₁, y :: b₁, h => by
    rw [List.cons_append, List.cons_append, List.cons_lt_cons_iff, List.cons_lt_cons_iff,
      append_lt_append_iff (Nat.succ.inj h), List.cons.injEq]
    tauto

/-! ### The words -/

theorem wordDigest_foldl {word : Bytes} (h : word.length = 8) :
    wordDigest (word.foldl (fun v b => v * 256 + b.val) 0) = word := by
  match word, h with
  | [b₀, b₁, b₂, b₃, b₄, b₅, b₆, b₇], _ =>
    simp only [wordDigest, List.range, List.range.loop, List.map, List.foldl, List.cons.injEq,
      Fin.ext_iff, Fin.val_ofNat, and_true]
    omega

/-- A digest is its words. -/
theorem exists_words {digest : Bytes} (h : digest.length = 32) :
    ∃ w₀ w₁ w₂ w₃ : Bytes, digest = w₀ ++ w₁ ++ w₂ ++ w₃ ∧
      (w₀.length = 8 ∧ w₁.length = 8 ∧ w₂.length = 8 ∧ w₃.length = 8) ∧
      digestToHash digest = [w₀, w₁, w₂, w₃].map fun w => w.foldl (fun v b => v * 256 + b.val) 0 := by
  refine ⟨digest.take 8, (digest.drop 8).take 8, (digest.drop 16).take 8, (digest.drop 24).take 8,
    ?_, by simp [h], rfl⟩
  rw [← List.take_add, ← List.take_add, ← List.take_add, List.take_of_length_le h.le]

/-- `GetHashDigest` reads back what `DigestToHash` has stored. -/
theorem getHashDigest_digestToHash {digest : Bytes} (h : digest.length = 32) :
    getHashDigest (digestToHash digest) = some digest := by
  obtain ⟨w₀, w₁, w₂, w₃, hdigest, ⟨h₀, h₁, h₂, h₃⟩, hwords⟩ := exists_words h
  rw [hwords, hdigest]
  simp only [List.map, getHashDigest]
  rw [wordDigest_foldl h₀, wordDigest_foldl h₁, wordDigest_foldl h₂, wordDigest_foldl h₃]

theorem hashLt_iff {a b : Bytes} (ha : a.length = 32) (hb : b.length = 32) :
    hashLt (digestToHash a) (digestToHash b) ↔ a < b := by
  have hcmp : hashLt (digestToHash a) (digestToHash b) ↔ digestToHash a < digestToHash b := by
    simp [hashLt, cmpHash, cmpBits_neg_iff, digestToHash]
  have hword : ∀ {w w' : Bytes}, w.length = 8 → w'.length = 8 →
      (w.foldl (fun v b => v * 256 + b.val) 0 = w'.foldl (fun v b => v * 256 + b.val) 0 ↔ w = w') := by
    intro w w' hw hw'
    refine ⟨fun heq => ?_, fun heq => heq ▸ rfl⟩
    rw [← wordDigest_foldl hw, heq, wordDigest_foldl hw']
  obtain ⟨a₀, a₁, a₂, a₃, ha, ⟨ha₀, ha₁, ha₂, ha₃⟩, hawords⟩ := exists_words ha
  obtain ⟨b₀, b₁, b₂, b₃, hb, ⟨hb₀, hb₁, hb₂, hb₃⟩, hbwords⟩ := exists_words hb
  rw [hcmp, hawords, hbwords, ha, hb]
  simp only [List.append_assoc]
  rw [append_lt_append_iff (ha₀.trans hb₀.symm),
    append_lt_append_iff (ha₁.trans hb₁.symm), append_lt_append_iff (ha₂.trans hb₂.symm)]
  simp [List.cons_lt_cons_iff, foldl_lt_iff, *]

/-! ### Zero bits -/

theorem le_length_takeWhile_iff {α : Type} (p : α → Bool) : ∀ (l : List α) (k : ℕ),
    k ≤ (l.takeWhile p).length ↔ k ≤ l.length ∧ ∀ x ∈ l.take k, p x
  | [], k => by simp
  | x :: l, 0 => by simp
  | x :: l, k + 1 => by
    have ih := le_length_takeWhile_iff p l k
    cases hx : p x
    · simp [hx]
    · simp [hx, ih]

theorem length_flatMap_bitsOf (digest : Bytes) :
    (digest.flatMap bitsOf).length = 8 * digest.length := by
  simp [List.length_flatMap, bitsOf, Nat.mul_comm]

/-- A 32-bit count of zero bits answers every 32-bit question as the true number does exactly if it has
not wrapped, or has wrapped to the largest 32-bit number. -/
theorem forall_le_mod_iff (zeros : ℕ) : (∀ k < 2 ^ 32, (k ≤ zeros % 2 ^ 32 ↔ k ≤ zeros)) ↔
    zeros < 2 ^ 32 ∨ 2 ^ 32 ∣ zeros + 1 := by
  constructor
  · intro h
    by_contra hcon
    have hnext := h (zeros % 2 ^ 32 + 1)
    omega
  · intro h k hk
    omega

/-- **Digests are 256-bit numbers.**  The words of a digest give it back, and are in its order; whether
the first bits of a byte string are zero is told exactly if the count of its zero bits fits. -/
theorem digest_arithmetic (a b d : Bytes) (ha : a.length = 32) (hb : b.length = 32) :
    getHashDigest (digestToHash a) = some a ∧
    (hashLt (digestToHash a) (digestToHash b) ↔ a < b) ∧
    ((∀ k < 2 ^ 32, (isValidDigest d k ↔
        k ≤ 8 * d.length ∧ ∀ bit ∈ (d.flatMap bitsOf).take k, bit = false)) ↔
      leadingZeroBits d < 2 ^ 32 ∨ 2 ^ 32 ∣ leadingZeroBits d + 1) := by
  refine ⟨getHashDigest_digestToHash ha, hashLt_iff ha hb, ?_⟩
  rw [← forall_le_mod_iff]
  refine forall₂_congr fun k _ => ?_
  have hspec := le_length_takeWhile_iff (fun b => !b) (d.flatMap bitsOf) k
  rw [length_flatMap_bitsOf] at hspec
  simp only [Bool.not_eq_true'] at hspec
  rw [isValidDigest, decide_eq_true_iff, countZeros_eq, ← hspec]
  rfl

theorem digest_arithmetic_zeros :
    hashLt (digestToHash (List.replicate 32 127)) (digestToHash (List.replicate 32 128)) ∧
      isValidDigest [0, 31] 11 := by
  obtain ⟨-, hlt, hvalid⟩ := digest_arithmetic (List.replicate 32 127) (List.replicate 32 128) [0, 31]
    (by simp) (by simp)
  exact ⟨hlt.2 (by decide), (hvalid.2 (by decide) 11 (by decide)).2 (by decide)⟩

theorem countZeros_replicate : ∀ n : ℕ, countZeros (List.replicate n 0) = 8 * n
  | 0 => rfl
  | n + 1 => by
    rw [List.replicate_succ, countZeros, countZeros_replicate n, if_neg (by decide),
      show zerosOf 0 = 8 from rfl]
    omega

/-- The first bit of so many zero bytes is not found to be zero. -/
theorem digest_arithmetic_fails :
    ∃ d : Bytes, d.length = 2 ^ 29 ∧ (∀ bit ∈ (d.flatMap bitsOf).take 1, bit = false) ∧
      isValidDigest d 1 = false := by
  refine ⟨List.replicate (2 ^ 29) 0, List.length_replicate, fun bit hbit => ?_, ?_⟩
  · obtain ⟨b, hb, hbit⟩ := List.mem_flatMap.1 (List.mem_of_mem_take hbit)
    rw [List.eq_of_mem_replicate hb] at hbit
    exact (by decide : ∀ bit ∈ bitsOf 0, bit = false) bit hbit
  · rw [isValidDigest, countZeros_replicate]
    rfl

end Pow
