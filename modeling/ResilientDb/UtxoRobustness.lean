/-
**What a hostile transaction does to the UTXO ledger.**

`Transaction::AddTransaction` takes messages from anyone.  Its checks come first and its effects
last, so a call that answers `-1` has changed nothing.  Two inputs get past the checks and stop the
process: `GetUTXO` compares `out_idx` with `out_size()` from above only, so a negative index is read
(`Utxo.negativeIndex`), and the `assert(value >= 0)` of `AddCoin` runs after `GetUTXO` has accepted
an output of negative value (`Utxo.debtTransfer`).

`Utxo.SafeInputs` excludes both, and every call on such a message answers:

* `Utxo.gatherInputs_isSome` — no index is read out of range;
* `Utxo.spendInputs_isSome` — no assertion fails while the inputs are marked;
* `Utxo.calls_robust` — every run.
-/

import ResilientDb.UtxoConservation

set_option autoImplicit false

namespace Utxo

open Transaction

/-- An input that names a stored transaction has an index that is not negative, and the output there,
if it is unspent, is not worth less than nothing. -/
def SafeInput (m : TxMempool) (i : UTXOIn) : Prop :=
  ∀ u ∈ m.find i.prevId, 0 ≤ i.outIdx.toInt ∧
    ∀ o ∈ u.outAt i.outIdx, o.spent = false → 0 ≤ o.value

instance (m : TxMempool) (i : UTXOIn) : Decidable (SafeInput m i) := by
  unfold SafeInput
  infer_instance

/-- The condition on a call. -/
def SafeInputs (l : Ledger) (utxo : UTXO) : Prop := ∀ i ∈ utxo.ins, SafeInput l.state.txMempool i

instance (l : Ledger) (utxo : UTXO) : Decidable (SafeInputs l utxo) := by
  unfold SafeInputs
  infer_instance

variable {m : TxMempool} {i : UTXOIn} {o : UTXOOut}

theorem outAt_isSome {u : UTXO} {idx : Int32} (h : 0 ≤ idx.toInt)
    (hlen : ¬ (u.out.length : ℤ) ≤ idx.toInt) : ∃ o, u.outAt idx = some o := by
  have hlt : idx.toNatClampNeg < u.out.length := by
    rw [← Int32.toNat_toInt]
    omega
  exact ⟨u.out[idx.toNatClampNeg], by simp [UTXO.outAt, not_lt.2 h, hlt]⟩

theorem getUTXO_isSome (h : SafeInput m i) (address : String) :
    ∃ r, m.getUTXO i.prevId i.outIdx address = some r := by
  unfold TxMempool.getUTXO
  split
  · exact ⟨_, rfl⟩
  · rename_i u hu
    split
    · exact ⟨_, rfl⟩
    · rename_i hlen
      obtain ⟨o, ho⟩ := outAt_isSome (h u hu).1 hlen
      simp only [ho]
      split_ifs <;> exact ⟨_, rfl⟩

theorem gatherInputs_isSome (address : String) :
    ∀ {ins : List UTXOIn} (acc : List UTXOOut) (pk : String) (n : Int64),
      (∀ i ∈ ins, SafeInput m i) → ∃ r, gatherInputs m address ins acc pk n = some r
  | [], acc, pk, n, _ => ⟨_, rfl⟩
  | i :: ins, acc, pk, n, h => by
    obtain ⟨r, hr⟩ := getUTXO_isSome (h i List.mem_cons_self) address
    unfold gatherInputs
    rw [hr]
    cases r with
    | error e => exact ⟨_, rfl⟩
    | ok o => exact gatherInputs_isSome address _ _ _ fun j hj => h j (List.mem_cons_of_mem _ hj)

variable {v : String → String → String → Bool} {utxo : UTXO}

theorem getInput_isSome (h : ∀ i ∈ utxo.ins, SafeInput m i) : ∃ r, getInput v m utxo = some r := by
  obtain ⟨r, hr⟩ := gatherInputs_isSome utxo.address [] "" 0 h
  unfold getInput
  rw [hr]
  rcases r with e | ⟨utxos, publicKey, nonce⟩ <;> dsimp only <;> split_ifs <;> exact ⟨_, rfl⟩

/-- An input that refers to an output of non-negative value, whether it is marked or not. -/
def Backed (m : TxMempool) (i : UTXOIn) : Prop := ∃ o, m.outputAt i = some o ∧ 0 ≤ o.value

theorem SafeInput.backed (h : SafeInput m i) (hi : m.outputAt i = some o) (hs : o.spent = false) :
    Backed m i := by
  obtain ⟨u, hu, ho⟩ := outputAt_eq_some hi
  exact ⟨o, hi, (h u hu).2 o ho hs⟩

-- marking an output keeps every value, so the inputs that follow stay backed, repeated ones too
theorem Backed.setSpent {j : UTXOIn} (hi : ∃ o, m.outputAt i = some o) (hj : Backed m j) :
    Backed (m.setSpent i.prevId i.outIdx) j := by
  obtain ⟨o, ho, hv⟩ := hj
  refine ⟨_, outputAt_setSpent hi ho, ?_⟩
  split <;> exact hv

theorem spendInputs_isSome : ∀ {ins : List UTXOIn} {m : TxMempool} (total : Int64),
    (∀ i ∈ ins, Backed m i) → ∃ r, spendInputs ins m total = some r
  | [], m, total, _ => ⟨_, rfl⟩
  | i :: ins, m, total, h => by
    obtain ⟨o, ho, hv⟩ := h i List.mem_cons_self
    simp only [spendInputs, markSpend_of_outputAt ho, if_pos hv]
    exact spendInputs_isSome _ fun j hj => (h j (List.mem_cons_of_mem _ hj)).setSpent ⟨o, ho⟩

theorem addTransaction_isSome {t : Transaction} (h : ∀ i ∈ utxo.ins, SafeInput t.txMempool i) :
    ∃ r, addTransaction v t utxo = some r := by
  obtain ⟨r, hr⟩ := getInput_isSome (v := v) h
  unfold addTransaction
  rw [hr]
  cases r with
  | error e => exact ⟨_, rfl⟩
  | ok inputs =>
    dsimp only
    split_ifs
    · exact ⟨_, rfl⟩
    · have hbacked : ∀ i ∈ utxo.ins, Backed t.txMempool i := by
        intro i hi
        obtain ⟨o, ho, hs⟩ := (getInput_ok hr).1.unspent_of_mem hi
        exact (h i hi).backed ho hs
      obtain ⟨⟨m, total⟩, hspend⟩ := spendInputs_isSome 0 hbacked
      simp only [addCoin, hspend]
      exact ⟨_, rfl⟩

/-- Every call of the run comes to an end, and those that answer `-1` change nothing. -/
def Robust (v : String → String → String → Bool) (transactions calls : List UTXO) : Prop :=
  (∃ l, (ledgerSystem v transactions).run ⟨genesis transactions, []⟩ calls = some l) ∧
    ∀ before utxo after l t, calls = before ++ utxo :: after →
      (ledgerSystem v transactions).run ⟨genesis transactions, []⟩ before = some l →
        addTransaction v l.state utxo = some (-1, t) → t = l.state

theorem calls_robust {v : String → String → String → Bool} {transactions calls : List UTXO}
    (h : (ledgerSystem v transactions).Guarded SafeInputs ⟨genesis transactions, []⟩ calls) :
    Robust v transactions calls := by
  refine ⟨h.run_isSome ?_, ?_⟩
  · intro l utxo hsafe
    obtain ⟨r, hr⟩ := addTransaction_isSome (v := v) hsafe
    simp only [ledgerSystem, Ledger.call, hr]
    exact ⟨_, rfl⟩
  · intro _ utxo _ l t _ _ hr
    rcases addTransaction_cases hr with ⟨-, ht⟩ | ⟨_, _, _, -, -, -, hne, -, -⟩
    · exact ht
    · exact absurd rfl hne

/-- A transfer that spends output `-1` of the genesis transaction. -/
def negativeIndex : UTXO := ⟨[⟨0, -1⟩], [⟨"b", 9, false, "k"⟩], "s", "a"⟩

/-- A genesis transaction with an output of negative value. -/
def debtGenesis : List UTXO := [⟨[], [⟨"a", 10, false, "k"⟩, ⟨"a", -1, false, "k"⟩], "", ""⟩]

/-- A transfer that spends both outputs of `debtGenesis`. -/
def debtTransfer : UTXO := ⟨[⟨0, 0⟩, ⟨0, 1⟩], [⟨"b", 5, false, "k"⟩], "s", "a"⟩

/-- The first call on either message stops the process: a read out of range, a failed assertion. -/
theorem calls_robust_fails :
    ¬ Robust (fun _ _ _ => true) oneCoin [negativeIndex] ∧
      ¬ Robust (fun _ _ _ => true) debtGenesis [debtTransfer] := by
  constructor
  · rintro ⟨⟨l, hl⟩, -⟩
    have hnone : ledgerAfter oneCoin [negativeIndex] = none := rfl
    rw [ledgerAfter, hl] at hnone
    cases hnone
  · rintro ⟨⟨l, hl⟩, -⟩
    have hnone : ledgerAfter debtGenesis [debtTransfer] = none := rfl
    rw [ledgerAfter, hl] at hnone
    cases hnone

theorem calls_robust_honestTransfer :
    Robust (fun _ _ _ => true) oneCoin [honestTransfer, doubledInput] :=
  calls_robust (by decide)

end Utxo
