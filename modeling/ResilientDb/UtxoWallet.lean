/-
**The wallet of the UTXO ledger.**

`Wallet` keeps a balance for every address beside the mempool.  The balance ought to be what the
address has in unspent outputs, but the two are kept by different code: `AddCoin` subtracts the value
of an input each time the transaction lists it, and the outputs are credited whether or not they
arrive marked spent; the constructor does the same with the genesis outputs
(`Utxo.wallet_consistent_fails`).

Balances are 64-bit and wrap, so the sum of the unspent outputs is compared modulo `2 ^ 64`, and
exactly where it fits.

Main definitions:

* `Utxo.TxMempool.unspentAt` — the value of the unspent outputs of an address;
* `Utxo.PlainTransfer` — the condition on a call: no input twice, no output marked.

Main results:

* `Utxo.addOutputs_apply` — what crediting a list of outputs does to one balance;
* `Utxo.call_consistent` — one call, `Utxo.wallet_consistent` — every run.
-/

import ResilientDb.UtxoConservation

set_option autoImplicit false

namespace Utxo

open Int64 (ofInt ofInt_add)
open Transaction

/-! ### The value of an address -/

/-- The value of an output for an address: its value, if it belongs to the address and is not spent. -/
def UTXOOut.valueAt (a : String) (o : UTXOOut) : ℤ :=
  if o.spent = false ∧ o.address = a then o.value.toInt else 0

/-- The sum of the values of the unspent outputs of an address. -/
def TxMempool.unspentAt (m : TxMempool) (a : String) : ℤ := m.weigh (UTXOOut.valueAt a)

/-- The balance of every address is the sum of its unspent outputs, as a 64-bit number. -/
def Transaction.Consistent (t : Transaction) : Prop :=
  ∀ a, t.wallet a = ofInt (t.txMempool.unspentAt a)

theorem Wallet.addCoin_apply (w : Wallet) (address a : String) (value : Int64) :
    w.addCoin address value a = if a = address then w address + value else w a :=
  Function.update_apply w address (w address + value) a

theorem addOutputs_apply (a : String) : ∀ (outs : List UTXOOut) (w : Wallet),
    (∀ o ∈ outs, o.spent = false) →
      addOutputs w outs a = w a + ofInt (outs.map (UTXOOut.valueAt a)).sum
  | [], w, _ => by simp [addOutputs]
  | o :: outs, w, h => by
    have ih := addOutputs_apply a outs (w.addCoin o.address o.value)
      fun o' ho' => h o' (List.mem_cons_of_mem _ ho')
    refine ih.trans ?_
    rw [List.map_cons, List.sum_cons, ofInt_add, ← Int64.add_assoc, Wallet.addCoin_apply]
    have ho := h o List.mem_cons_self
    by_cases ha : a = o.address
    · simp [UTXOOut.valueAt, ha, ho]
    · simp [UTXOOut.valueAt, ha, Ne.symm ha]

/-! ### One call -/

/-- The condition under which a call keeps the wallet consistent.  It only speaks of transactions that
pass `GetInput` and `VerifyUTXO`: no input is listed twice, and no output arrives marked spent. -/
def PlainTransfer (ecdsaVerifyString : String → String → String → Bool) (l : Ledger) (utxo : UTXO) :
    Prop :=
  match getInput ecdsaVerifyString l.state.txMempool utxo with
  | some (.ok inputs) =>
    verifyUTXO utxo inputs = true → utxo.ins.Nodup ∧ ∀ o ∈ utxo.out, o.spent = false
  | _ => True

instance (v : String → String → String → Bool) (l : Ledger) (utxo : UTXO) :
    Decidable (PlainTransfer v l utxo) := by
  unfold PlainTransfer
  rcases getInput v l.state.txMempool utxo with _ | _ | inputs <;> infer_instance

theorem foldl_add_eq_ofInt : ∀ (outs : List UTXOOut) (v : Int64),
    outs.foldl (fun v o => v + o.value) v = v + ofInt (valueOf outs)
  | [], v => by simp [valueOf]
  | o :: outs, v => by
    rw [List.foldl_cons, foldl_add_eq_ofInt outs]
    simp only [valueOf, List.map_cons, List.sum_cons]
    rw [ofInt_add, Int64.ofInt_toInt, Int64.add_assoc]

theorem unspentAt_spendInputs {m m' : TxMempool} {ins : List UTXOIn} {inputs : List UTXOOut}
    {address : String}
    (h : ∀ g, m'.weigh g = m.weigh g - (inputs.map g).sum + (inputs.map fun o => g o.mark).sum)
    (hres : Resolves m ins inputs) (haddress : ∀ o ∈ inputs, o.address = address) (a : String) :
    m'.unspentAt a = m.unspentAt a - if a = address then valueOf inputs else 0 := by
  have hmark : inputs.map (fun o => UTXOOut.valueAt a o.mark) = inputs.map fun _ => 0 :=
    List.map_congr_left fun o _ => by simp [UTXOOut.valueAt, UTXOOut.mark]
  have hval : inputs.map (UTXOOut.valueAt a) =
      inputs.map fun o => if a = address then o.value.toInt else 0 := by
    refine List.map_congr_left fun o ho => ?_
    simp [UTXOOut.valueAt, hres.unspent o ho, haddress o ho, eq_comm]
  have hw := h (UTXOOut.valueAt a)
  rw [hmark, hval, List.map_const', List.sum_replicate, smul_zero, add_zero] at hw
  rw [TxMempool.unspentAt, hw, TxMempool.unspentAt]
  by_cases ha : a = address
  · simp [ha, valueOf]
  · simp [ha]

variable {v : String → String → String → Bool}

/-- **One call keeps the wallet consistent.** -/
theorem call_consistent {l l' : Ledger} {utxo : UTXO}
    (hl : l.state.Consistent) (hf : PlainTransfer v l utxo) (h : l.call v utxo = some l') :
    l'.state.Consistent := by
  obtain ⟨⟨r, t'⟩, ht, rfl⟩ := Option.map_eq_some_iff.1 h
  rcases addTransaction_cases ht with ⟨rfl, rfl⟩ | ⟨inputs, m, total, hi, hv, hs, -, hm, hw⟩
  · exact hl
  · unfold PlainTransfer at hf
    rw [hi] at hf
    obtain ⟨hnodup, hplain⟩ := hf hv
    obtain ⟨hres, haddress, -⟩ := getInput_ok hi
    obtain ⟨hweigh, htotal⟩ := spendInputs_spec hs hnodup hres
    rw [foldl_add_eq_ofInt, Int64.zero_add] at htotal
    intro a
    have hspent := unspentAt_spendInputs hweigh hres haddress a
    have hadd : (m.addUTXO utxo).2.unspentAt a =
        m.unspentAt a + (utxo.out.map (UTXOOut.valueAt a)).sum := weigh_addUTXO _ m utxo
    simp only [hw, hm, hadd, hspent]
    rw [addOutputs_apply a _ _ hplain, Wallet.addCoin_apply, htotal]
    by_cases ha : a = utxo.address
    · subst ha
      simp only [if_true, ofInt_add, Int64.ofInt_sub, hl utxo.address]
      rw [Int64.sub_eq_add_neg]
    · simp only [ha, if_false, sub_zero, ofInt_add, hl a]

/-! ### Every run -/

theorem genesisFrom_consistent : ∀ (transactions : List UTXO) (t : Transaction), t.Consistent →
    (∀ u ∈ transactions, ∀ o ∈ u.out, o.spent = false) → (genesisFrom t transactions).Consistent
  | [], t, ht, _ => ht
  | u :: transactions, t, ht, h => by
    refine genesisFrom_consistent transactions _ ?_ fun u' hu' => h u' (List.mem_cons_of_mem _ hu')
    intro a
    have hadd : (t.txMempool.addUTXO u).2.unspentAt a =
        t.txMempool.unspentAt a + (u.out.map (UTXOOut.valueAt a)).sum := weigh_addUTXO _ _ u
    have hcredit := addOutputs_apply a u.out t.wallet (h u List.mem_cons_self)
    rw [ht a, ← ofInt_add, ← hadd] at hcredit
    exact hcredit

/-- **Wallet and mempool agree.**  From genesis outputs that are not marked spent, in every run of plain
transfers the balance of an address is the sum of its unspent outputs: as a 64-bit number, and exactly
where the sum fits. -/
theorem wallet_consistent {transactions : List UTXO}
    (hg : ∀ u ∈ transactions, ∀ o ∈ u.out, o.spent = false) {l : Ledger}
    (hl : (ledgerSystem v transactions).Reachable (PlainTransfer v) l) (a : String) :
    l.state.wallet a = ofInt (l.state.txMempool.unspentAt a) ∧
      (-2 ^ 63 ≤ l.state.txMempool.unspentAt a → l.state.txMempool.unspentAt a < 2 ^ 63 →
        (l.state.wallet a).toInt = l.state.txMempool.unspentAt a) := by
  have hinv : l.state.Consistent := by
    refine hl.invariant (I := fun l => l.state.Consistent) ?_ ?_
    · rintro l rfl
      refine genesisFrom_consistent transactions _ ?_ hg
      intro a
      rfl
    · intro l utxo l' hl hf h
      exact call_consistent hl hf h
  refine ⟨hinv a, fun hlo hhi => ?_⟩
  rw [hinv a]
  exact Int64.toInt_ofInt_of_le hlo hhi

theorem wallet_consistent_honestTransfer :
    ∃ l, ledgerAfter oneCoin [honestTransfer] = some l ∧
      (l.state.wallet "b").toInt = l.state.txMempool.unspentAt "b" := by
  have hg : ∀ u ∈ oneCoin, ∀ o ∈ u.out, o.spent = false := by decide
  refine ⟨_, rfl, (wallet_consistent (v := fun _ _ _ => true) hg ?_ "b").2 (by decide) (by decide)⟩
  exact (TransitionSystem.Reachable.init rfl).run [honestTransfer] (by decide) rfl

/-- A transfer whose output arrives marked spent. -/
def markedTransfer : UTXO := ⟨[⟨0, 0⟩], [⟨"b", 9, true, "k"⟩], "s", "a"⟩

/-- A genesis output that is marked spent. -/
def markedCoin : List UTXO := [⟨[], [⟨"a", 10, true, "k"⟩], "", ""⟩]

/-- After the calls, some balance is not the sum of the unspent outputs of its address. -/
def WalletDiffers (transactions calls : List UTXO) (a : String) (balance unspent : ℤ) : Prop :=
  ∃ l, ledgerAfter transactions calls = some l ∧ (l.state.wallet a).toInt = balance ∧
    l.state.txMempool.unspentAt a = unspent ∧ balance ≠ unspent

/-- An input listed twice is subtracted twice; outputs that arrive marked spent are credited, in a
transfer and in the genesis configuration. -/
theorem wallet_consistent_fails :
    WalletDiffers oneCoin [doubledInput] "a" (-10) 0 ∧ WalletDiffers oneCoin [markedTransfer] "b" 9 0 ∧
      WalletDiffers markedCoin [] "a" 10 0 :=
  ⟨⟨_, rfl, by decide, by decide, by decide⟩, ⟨_, rfl, by decide, by decide, by decide⟩,
    ⟨_, rfl, by decide, by decide, by decide⟩⟩

end Utxo
