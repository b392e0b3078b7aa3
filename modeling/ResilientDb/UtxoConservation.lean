/-
**Conservation of value in the UTXO ledger.**

A ledger of unspent outputs conserves value: no sequence of calls makes the unspent outputs worth
more than the genesis outputs, and no output is consumed twice.  `Transaction::AddTransaction` does
not: an input listed twice is counted twice, an output that arrives already marked spent is
subtracted from the balance but never becomes unspent, and the sums of `VerifyUTXO` wrap at 64 bits
(`Utxo.conservation_fails`).

The law holds in every run in which none of these three things happens to a transaction that the
code's own checks let through, which is `Utxo.FairTransfer`:

* `Utxo.weigh_setSpent`, `Utxo.spendInputs_spec` — what marking the inputs does to a sum over the
  outputs;
* `Utxo.totalInput_toInt` — the 64-bit balance is the exact one modulo `2 ^ 64`;
* `Utxo.call_conserves` — one call, `Utxo.conservation` — every run.

A call with an input that an earlier call has consumed is refused in every run (`Utxo.no_double_spend`).
-/

import ResilientDb.UtxoLedger

set_option autoImplicit false

namespace Utxo

open List (map_cons mem_cons sum_cons)
open Transaction

/-! ### Outputs by reference -/

/-- The output that an input refers to. -/
def TxMempool.outputAt (m : TxMempool) (i : UTXOIn) : Option UTXOOut :=
  (m.find i.prevId).bind fun u => u.outAt i.outIdx

theorem sum_map_modify {α : Type} (g : α → ℤ) (f : α → α) :
    ∀ (l : List α) (i : ℕ) (a : α), l[i]? = some a →
      ((l.modify i f).map g).sum = (l.map g).sum - g a + g (f a)
  | [], i, a, h => by simp at h
  | b :: l, 0, a, h => by
    obtain rfl : b = a := by simpa using h
    simp
    ring
  | b :: l, i + 1, a, h => by
    have ih := sum_map_modify g f l i a (by simpa using h)
    simp only [List.modify_succ_cons, map_cons, sum_cons, ih]
    ring

variable {m : TxMempool} {i : UTXOIn} {o : UTXOOut}

theorem outputAt_eq_some (h : m.outputAt i = some o) :
    ∃ u, m.find i.prevId = some u ∧ u.outAt i.outIdx = some o :=
  Option.bind_eq_some_iff.1 h

theorem find_eq_some {id : Int64} {u : UTXO} (h : m.find id = some u) :
    0 ≤ id.toInt ∧ m.txs[id.toNatClampNeg]? = some u := by
  unfold TxMempool.find at h
  split at h
  · cases h
  · exact ⟨by omega, h⟩

theorem outAt_eq_some {u : UTXO} {idx : Int32} (h : u.outAt idx = some o) :
    0 ≤ idx.toInt ∧ u.out[idx.toNatClampNeg]? = some o := by
  unfold UTXO.outAt at h
  split at h
  · cases h
  · exact ⟨by omega, h⟩

/-- The sum of a weight over all outputs in the mempool. -/
def TxMempool.weigh (g : UTXOOut → ℤ) (m : TxMempool) : ℤ :=
  (m.txs.map fun u => (u.out.map g).sum).sum

/-- The output once it is spent. -/
def UTXOOut.mark (o : UTXOOut) : UTXOOut := { o with spent := true }

/-- Spending an output changes its weight only. -/
theorem weigh_setSpent (g : UTXOOut → ℤ) (h : m.outputAt i = some o) :
    (m.setSpent i.prevId i.outIdx).weigh g = m.weigh g - g o + g o.mark := by
  obtain ⟨u, hu, ho⟩ := outputAt_eq_some h
  have hu' := (find_eq_some hu).2
  have ho' := (outAt_eq_some ho).2
  unfold TxMempool.weigh TxMempool.setSpent
  rw [sum_map_modify _ _ _ _ _ hu', sum_map_modify _ _ _ _ _ ho']
  simp only [UTXOOut.mark]
  ring

theorem weigh_addUTXO (g : UTXOOut → ℤ) (m : TxMempool) (u : UTXO) :
    (m.addUTXO u).2.weigh g = m.weigh g + (u.out.map g).sum := by
  simp [TxMempool.addUTXO, TxMempool.weigh]

variable {j : UTXOIn}

theorem UTXOIn.ext_toNat (hi : 0 ≤ i.prevId.toInt) (hj : 0 ≤ j.prevId.toInt)
    (hi' : 0 ≤ i.outIdx.toInt) (hj' : 0 ≤ j.outIdx.toInt)
    (h : i.prevId.toNatClampNeg = j.prevId.toNatClampNeg)
    (h' : i.outIdx.toNatClampNeg = j.outIdx.toNatClampNeg) : i = j := by
  have h₁ : i.prevId = j.prevId := by
    rw [← Int64.toNat_toInt, ← Int64.toNat_toInt] at h
    exact Int64.toInt_inj.1 (by omega)
  have h₂ : i.outIdx = j.outIdx := by
    rw [← Int32.toNat_toInt, ← Int32.toNat_toInt] at h'
    exact Int32.toInt_inj.1 (by omega)
  cases i
  simp_all

theorem outputAt_setSpent (hi : ∃ o, m.outputAt i = some o) (hj : m.outputAt j = some o) :
    (m.setSpent i.prevId i.outIdx).outputAt j =
      some (if i = j then { o with spent := true } else o) := by
  obtain ⟨oi, hoi⟩ := hi
  obtain ⟨ui, hui, hoi⟩ := outputAt_eq_some hoi
  obtain ⟨uj, huj, hoj⟩ := outputAt_eq_some hj
  obtain ⟨hi₁, -⟩ := find_eq_some hui
  obtain ⟨hi₂, -⟩ := outAt_eq_some hoi
  obtain ⟨hj₁, huj'⟩ := find_eq_some huj
  obtain ⟨hj₂, hoj'⟩ := outAt_eq_some hoj
  have hnj₁ : ¬ j.prevId.toInt < 0 := by omega
  have hnj₂ : ¬ j.outIdx.toInt < 0 := by omega
  simp only [TxMempool.outputAt, TxMempool.find, TxMempool.setSpent, UTXO.outAt, hnj₁, hnj₂,
    List.getElem?_modify, huj']
  by_cases htx : i.prevId.toNatClampNeg = j.prevId.toNatClampNeg
  · simp only [htx]
    by_cases hout : i.outIdx.toNatClampNeg = j.outIdx.toNatClampNeg
    · obtain rfl := UTXOIn.ext_toNat hi₁ hj₁ hi₂ hj₂ htx hout
      simp [hoj']
    · have hne : i ≠ j := fun h => hout (by rw [h])
      simp [hout, hoj', hne]
  · have hne : i ≠ j := fun h => htx (by rw [h])
    simp [htx, hoj', hne]

/-! ### What the checks establish -/

/-- An input that is accepted is an unspent output of the address. -/
theorem getUTXO_ok {address : String} (h : m.getUTXO i.prevId i.outIdx address = some (.ok o)) :
    m.outputAt i = some o ∧ o.spent = false ∧ o.address = address := by
  unfold TxMempool.getUTXO at h
  split at h
  · simp at h
  · rename_i u hu
    split at h
    · simp at h
    · split at h
      · cases h
      · rename_i o' ho
        split at h
        · simp at h
        · rename_i hs
          split at h
          · simp at h
          · rename_i ha
            obtain rfl : o' = o := by simpa using h
            exact ⟨by simp [TxMempool.outputAt, hu, ho], by simpa using hs, by simpa using ha⟩

/-- The references of a list of inputs, resolved to unspent outputs. -/
def Resolves (m : TxMempool) : List UTXOIn → List UTXOOut → Prop :=
  List.Forall₂ fun i o => m.outputAt i = some o ∧ o.spent = false

/-- The 64-bit sum of the identifiers of the inputs. -/
def nonceOf (ins : List UTXOIn) (n : Int64) : Int64 := ins.foldl (fun n i => n + i.prevId) n

/-- So are all inputs of a transaction. -/
theorem gatherInputs_ok {address : String} :
    ∀ {ins : List UTXOIn} {acc outs : List UTXOOut} {pk pk' : String} {n n' : Int64},
      gatherInputs m address ins acc pk n = some (.ok (outs, pk', n')) →
        ∃ rest, outs = acc ++ rest ∧ Resolves m ins rest ∧ (∀ o ∈ rest, o.address = address) ∧
          n' = nonceOf ins n
  | [], acc, outs, pk, pk', n, n', h => by
    simp only [gatherInputs, Option.some.injEq, Except.ok.injEq, Prod.mk.injEq] at h
    exact ⟨[], by simp [h.1], List.Forall₂.nil, by simp, h.2.2.symm⟩
  | i :: ins, acc, outs, pk, pk', n, n', h => by
    unfold gatherInputs at h
    split at h
    · cases h
    · simp at h
    · rename_i o ho
      obtain ⟨hat, hspent, haddress⟩ := getUTXO_ok ho
      obtain ⟨rest, hr, hres, hall, hn⟩ := gatherInputs_ok h
      refine ⟨o :: rest, by simp [hr], List.Forall₂.cons ⟨hat, hspent⟩ hres, ?_, hn⟩
      simpa [haddress] using hall

variable {v : String → String → String → Bool} {utxo : UTXO} {inputs : List UTXOOut}

/-- What `GetInput` has checked when it returns outputs: there is nothing to spend, or the references
resolve to unspent outputs of the sender, all locked to one public key, under which the signature of
the sender's address and the sum of the identifiers is valid. -/
theorem getInput_ok (h : getInput v m utxo = some (.ok inputs)) :
    Resolves m utxo.ins inputs ∧ (∀ o ∈ inputs, o.address = utxo.address) ∧
      (inputs ≠ [] → ∃ publicKey, (∀ o ∈ inputs, o.pubKey = publicKey) ∧
        v (utxo.address ++ toString (nonceOf utxo.ins 0).toInt) publicKey utxo.sig = true) := by
  unfold getInput at h
  split at h
  · rename_i hc
    obtain rfl : inputs = [] := by simpa using h.symm
    rw [hc.1]
    exact ⟨List.Forall₂.nil, by simp, by simp⟩
  · split at h
    · cases h
    · simp at h
    · rename_i utxos pk n hg
      obtain ⟨rest, hr, hres, haddress, hn⟩ := gatherInputs_ok hg
      subst hr hn
      split_ifs at h with hnil hsig hverify hkey
      · simp at h
      · simp at h
      · simp at h
      · simp at h
      · obtain rfl : utxos = inputs := by simpa using h
        refine ⟨hres, haddress, fun _ => ⟨pk, ?_, by simpa using hverify⟩⟩
        simpa using hkey

/-- An input that resolves has not been spent. -/
theorem Resolves.unspent_of_mem :
    ∀ {ins : List UTXOIn} {outs : List UTXOOut}, Resolves m ins outs → i ∈ ins →
      ∃ o, m.outputAt i = some o ∧ o.spent = false
  | _ :: _, _, .cons hj hrest, hi => by
    rcases mem_cons.1 hi with rfl | hi
    · exact ⟨_, hj⟩
    · exact Resolves.unspent_of_mem hrest hi

/-! ### Marking the inputs -/

/-- The output is there and marked spent. -/
def TxMempool.Spent (m : TxMempool) (i : UTXOIn) : Prop :=
  ∃ o, m.outputAt i = some o ∧ o.spent = true

theorem TxMempool.Spent.setSpent (hi : ∃ o, m.outputAt i = some o)
    (hj : m.Spent j) : (m.setSpent i.prevId i.outIdx).Spent j := by
  obtain ⟨o, ho, hs⟩ := hj
  refine ⟨_, outputAt_setSpent hi ho, ?_⟩
  split <;> simp [hs]

theorem spent_setSpent_self (hi : ∃ o, m.outputAt i = some o) :
    (m.setSpent i.prevId i.outIdx).Spent i := by
  obtain ⟨o, ho⟩ := hi
  exact ⟨_, outputAt_setSpent ⟨o, ho⟩ ho, by simp⟩

theorem markSpend_of_outputAt (h : m.outputAt i = some o) :
    m.markSpend i.prevId i.outIdx = some (o.value, m.setSpent i.prevId i.outIdx) := by
  obtain ⟨u, hu, ho⟩ := outputAt_eq_some h
  obtain ⟨hn, hlt⟩ := outAt_eq_some ho
  have hlen : ¬ (u.out.length : ℤ) ≤ i.outIdx.toInt := by
    have := (List.getElem?_eq_some_iff.1 hlt).1
    rw [← Int32.toNat_toInt] at this
    omega
  simp [TxMempool.markSpend, hu, hlen, ho]

theorem Resolves.setSpent (hi : m.outputAt i = some o) :
    ∀ {ins : List UTXOIn} {outs : List UTXOOut}, i ∉ ins → Resolves m ins outs →
      Resolves (m.setSpent i.prevId i.outIdx) ins outs
  | [], _, _, h => by
    cases h
    exact List.Forall₂.nil
  | j :: ins, _, hn, h => by
    cases h with
    | cons hj hrest =>
      rw [mem_cons, not_or] at hn
      refine List.Forall₂.cons ⟨?_, hj.2⟩ (Resolves.setSpent hi hn.2 hrest)
      rw [outputAt_setSpent ⟨o, hi⟩ hj.1, if_neg hn.1]

/-- Marking the inputs marks all of them, repeated ones too, and takes back no mark. -/
theorem spendInputs_spent : ∀ {ins : List UTXOIn} {m m' : TxMempool} {total total' : Int64},
    spendInputs ins m total = some (m', total') → (∀ i ∈ ins, ∃ o, m.outputAt i = some o) →
      (∀ i ∈ ins, m'.Spent i) ∧ ∀ j, m.Spent j → m'.Spent j
  | [], m, m', total, total', h, _ => by
    obtain ⟨rfl, rfl⟩ := h
    exact ⟨by simp, fun j hj => hj⟩
  | i :: ins, m, m', total, total', h, hins => by
    have hi := hins i List.mem_cons_self
    obtain ⟨o, ho⟩ := id hi
    simp only [spendInputs, markSpend_of_outputAt ho] at h
    split at h
    · obtain ⟨hall, hkeep⟩ := spendInputs_spent h fun j hj => by
        obtain ⟨o', ho'⟩ := hins j (List.mem_cons_of_mem _ hj)
        exact ⟨_, outputAt_setSpent hi ho'⟩
      refine ⟨?_, fun j hj => hkeep j (hj.setSpent hi)⟩
      intro j hj
      rcases mem_cons.1 hj with rfl | hj
      · exact hkeep _ (spent_setSpent_self hi)
      · exact hall j hj
    · cases h

/-- Marking distinct unspent inputs changes a sum over all outputs by their shares, and adds up their
values. -/
theorem spendInputs_spec : ∀ {ins : List UTXOIn} {outs : List UTXOOut} {m m' : TxMempool}
    {total total' : Int64}, spendInputs ins m total = some (m', total') → ins.Nodup →
      Resolves m ins outs →
        (∀ g, m'.weigh g = m.weigh g - (outs.map g).sum + (outs.map fun o => g o.mark).sum) ∧
          total' = outs.foldl (fun v o => v + o.value) total
  | [], outs, m, m', total, total', h, _, hr => by
    cases hr
    obtain ⟨rfl, rfl⟩ := h
    exact ⟨by simp, rfl⟩
  | i :: ins, _, m, m', total, total', h, hn, hr => by
    cases hr with
    | @cons _ o _ outs hi hrest =>
      rw [List.nodup_cons] at hn
      simp only [spendInputs, markSpend_of_outputAt hi.1] at h
      split at h
      · obtain ⟨hw, htotal⟩ := spendInputs_spec h hn.2 (Resolves.setSpent hi.1 hn.1 hrest)
        refine ⟨fun g => ?_, htotal⟩
        rw [hw, weigh_setSpent g hi.1]
        simp only [map_cons, sum_cons]
        ring
      · cases h

theorem Resolves.unspent : ∀ {m : TxMempool} {ins : List UTXOIn} {outs : List UTXOOut},
    Resolves m ins outs → ∀ o ∈ outs, o.spent = false
  | _, _, _, .cons hj hrest, o, ho => by
    rcases mem_cons.1 ho with rfl | ho
    · exact hj.2
    · exact Resolves.unspent hrest o ho

/-! ### The balance -/

theorem foldl_add_toInt : ∀ (outs : List UTXOOut) (a : Int64),
    (outs.foldl (fun v o => v + o.value) a).toInt = (a.toInt + valueOf outs).bmod (2 ^ 64)
  | [], a => by simp [valueOf]
  | o :: outs, a => by
    rw [List.foldl_cons, foldl_add_toInt outs, Int64.toInt_add, Int.bmod_add_bmod]
    simp only [valueOf, map_cons, sum_cons]
    rw [add_assoc]

theorem foldl_sub_toInt : ∀ (outs : List UTXOOut) (a : Int64),
    (outs.foldl (fun v o => v - o.value) a).toInt = (a.toInt - valueOf outs).bmod (2 ^ 64)
  | [], a => by simp [valueOf]
  | o :: outs, a => by
    rw [List.foldl_cons, foldl_sub_toInt outs, Int64.toInt_sub, Int.bmod_sub_bmod]
    simp only [valueOf, map_cons, sum_cons]
    rw [sub_sub]

/-- The sum wraps around at 64 bits. -/
theorem totalInput_toInt (utxo : UTXO) (inputs : List UTXOOut) :
    (totalInput utxo inputs).toInt = (valueOf inputs - valueOf utxo.out).bmod (2 ^ 64) := by
  rw [totalInput, foldl_sub_toInt, foldl_add_toInt, Int.bmod_sub_bmod]
  simp

/-- The check compares the true sums, if they fit. -/
theorem verifyUTXO_iff (hl : -2 ^ 63 ≤ valueOf inputs - valueOf utxo.out)
    (hr : valueOf inputs - valueOf utxo.out < 2 ^ 63) :
    verifyUTXO utxo inputs = true ↔ valueOf utxo.out < valueOf inputs := by
  rw [verifyUTXO, decide_eq_true_iff, Int64.lt_iff_toInt_lt, totalInput_toInt,
    Int.bmod_eq_of_le (by omega) (by omega)]
  simp

theorem unspentOf_eq (outs : List UTXOOut) :
    unspentOf outs = valueOf outs - valueOf (outs.filter fun o => o.spent) := by
  induction outs with
  | nil => simp [unspentOf, valueOf]
  | cons o outs ih =>
    simp only [unspentOf, valueOf, map_cons, sum_cons] at ih ⊢
    by_cases hs : o.spent = true
    · simp only [hs, if_true, List.filter_cons, map_cons, sum_cons, ih]
      ring
    · simp only [hs, if_false, List.filter_cons, ih, Bool.false_eq_true]
      ring

/-! ### Conservation -/

/-- The conservation law: the unspent outputs are worth at most the genesis outputs, and no output
has been consumed by two accepted inputs. -/
structure Conserved (transactions : List UTXO) (l : Ledger) : Prop where
  value : l.state.txMempool.unspent ≤ genesisValue transactions
  once : l.consumed.Nodup

/-- The condition under which a call keeps the law.  It only speaks of transactions that pass
`GetInput` and `VerifyUTXO`: no input is listed twice, the outputs that arrive marked spent are not
worth less than nothing, and the exact balance fits in 64 bits. -/
def FairTransfer (ecdsaVerifyString : String → String → String → Bool) (l : Ledger) (utxo : UTXO) :
    Prop :=
  match getInput ecdsaVerifyString l.state.txMempool utxo with
  | some (.ok inputs) =>
    verifyUTXO utxo inputs = true →
      utxo.ins.Nodup ∧ 0 ≤ valueOf (utxo.out.filter fun o => o.spent) ∧
        -2 ^ 63 ≤ valueOf inputs - valueOf utxo.out ∧
          valueOf inputs - valueOf utxo.out < 2 ^ 63
  | _ => True

instance (v : String → String → String → Bool) (l : Ledger) (utxo : UTXO) :
    Decidable (FairTransfer v l utxo) := by
  unfold FairTransfer
  split <;> infer_instance

theorem TxMempool.Spent.addUTXO (h : m.Spent i) (u : UTXO) : (m.addUTXO u).2.Spent i := by
  obtain ⟨o, ho, hs⟩ := h
  obtain ⟨u', hu, ho⟩ := outputAt_eq_some ho
  obtain ⟨hn, hu⟩ := find_eq_some hu
  have hlt := (List.getElem?_eq_some_iff.1 hu).1
  refine ⟨o, ?_, hs⟩
  have hn' : ¬ i.prevId.toInt < 0 := by omega
  simp [TxMempool.outputAt, TxMempool.find, TxMempool.addUTXO, hn', List.getElem?_append_left hlt,
    hu, ho]

/-- What a call that returns has done: nothing, or the checks passed, the inputs were marked and the
transaction was stored. -/
theorem addTransaction_cases {t t' : Transaction} {r : ℤ} (h : addTransaction v t utxo = some (r, t')) :
    (r = -1 ∧ t' = t) ∨ ∃ inputs m total, getInput v t.txMempool utxo = some (.ok inputs) ∧
        verifyUTXO utxo inputs = true ∧ spendInputs utxo.ins t.txMempool 0 = some (m, total) ∧
          r ≠ -1 ∧ t'.txMempool = (m.addUTXO utxo).2 ∧
            t'.wallet = addOutputs (t.wallet.addCoin utxo.address (-total)) utxo.out := by
  unfold addTransaction at h
  split at h
  · cases h
  · left
    simpa [eq_comm] using h
  · rename_i inputs hi
    split at h
    · left
      simpa [eq_comm] using h
    · rename_i hv
      split at h
      · cases h
      · rename_i t₁ ht₁
        right
        unfold addCoin at ht₁
        split at ht₁
        · cases ht₁
        · rename_i m total hs
          obtain rfl : _ = t₁ := Option.some.inj ht₁
          cases h
          refine ⟨inputs, m, total, hi, by simpa using hv, hs, ?_, rfl, rfl⟩
          simp only [TxMempool.addUTXO]
          omega

/-- Every consumed output carries its mark. -/
def Ledger.Marked (l : Ledger) : Prop := ∀ i ∈ l.consumed, l.state.txMempool.Spent i

/-- What an accepted transaction has consumed is marked as spent. -/
theorem Ledger.Marked.call {l l' : Ledger} (hl : l.Marked) (h : l.call v utxo = some l') :
    l'.Marked := by
  obtain ⟨⟨r, t'⟩, ht, rfl⟩ := Option.map_eq_some_iff.1 h
  rcases addTransaction_cases ht with ⟨rfl, rfl⟩ | ⟨inputs, m, total, hi, -, hs, hr, hm, -⟩
  · simpa using hl
  · obtain ⟨hall, hkeep⟩ := spendInputs_spent hs fun i hi' =>
      ((getInput_ok hi).1.unspent_of_mem hi').imp fun _ ho => ho.1
    intro i hi'
    simp only [hr, if_false, List.mem_append] at hi'
    simp only [hm]
    rcases hi' with hi' | hi'
    · exact (hkeep i (hl i hi')).addUTXO utxo
    · exact (hall i hi').addUTXO utxo

-- an input that `GetInput` accepts is unspent, so no earlier transaction consumed it
theorem Ledger.Marked.fresh {l : Ledger} (hl : l.Marked) {ins : List UTXOIn}
    (hres : Resolves l.state.txMempool ins inputs) (hi : i ∈ ins) : i ∉ l.consumed := by
  intro hc
  obtain ⟨o, ho, hsp⟩ := hl i hc
  obtain ⟨o', ho', hsp'⟩ := hres.unspent_of_mem hi
  rw [ho] at ho'
  cases ho'
  rw [hsp] at hsp'
  cases hsp'

/-- **No output is spent twice by two transactions.**  In every run, whatever the transactions and the
signatures, a call with an input that an accepted transaction has consumed changes nothing. -/
theorem no_double_spend {transactions : List UTXO} {l l' : Ledger}
    (hl : (ledgerSystem v transactions).Reachable TransitionSystem.always l) (hi : i ∈ utxo.ins)
    (hc : i ∈ l.consumed) (h : l.call v utxo = some l') : l' = l := by
  have hmarked : l.Marked := by
    refine hl.invariant ?_ fun l utxo l' hl _ h => hl.call h
    rintro l rfl i ⟨⟩
  obtain ⟨⟨r, t'⟩, ht, rfl⟩ := Option.map_eq_some_iff.1 h
  rcases addTransaction_cases ht with ⟨rfl, rfl⟩ | ⟨inputs, m, total, hok, -⟩
  · simp
  · exact absurd hc (hmarked.fresh (getInput_ok hok).1 hi)

/-- The law together with what makes it inductive. -/
structure LedgerInv (transactions : List UTXO) (l : Ledger) : Prop extends
    Conserved transactions l where
  marked : l.Marked

/-- The weight whose sum is the unspent value. -/
def UTXOOut.unspentValue (o : UTXOOut) : ℤ := if o.spent then 0 else o.value.toInt

theorem unspent_spendInputs {m' : TxMempool} {ins : List UTXOIn}
    (h : ∀ g, m'.weigh g = m.weigh g - (inputs.map g).sum + (inputs.map fun o => g o.mark).sum)
    (hres : Resolves m ins inputs) : m'.unspent = m.unspent - valueOf inputs := by
  have hval : inputs.map UTXOOut.unspentValue = inputs.map fun o => o.value.toInt := by
    refine List.map_congr_left fun o ho => ?_
    simp [UTXOOut.unspentValue, hres.unspent o ho]
  have hmark : inputs.map (fun o => UTXOOut.unspentValue o.mark) = inputs.map fun _ => 0 :=
    List.map_congr_left fun o _ => rfl
  have hw := h UTXOOut.unspentValue
  rw [hval, hmark, List.map_const', List.sum_replicate, smul_zero, add_zero] at hw
  exact hw

/-- **One call conserves value.** -/
theorem call_conserves {transactions : List UTXO}
    {l l' : Ledger} (hl : LedgerInv transactions l) (hf : FairTransfer v l utxo)
    (h : l.call v utxo = some l') : LedgerInv transactions l' := by
  have hmarked := hl.marked.call h
  obtain ⟨⟨r, t'⟩, ht, rfl⟩ := Option.map_eq_some_iff.1 h
  rcases addTransaction_cases ht with ⟨rfl, rfl⟩ | ⟨inputs, m, total, hi, hv, hs, hr, hm, -⟩
  · simpa using hl
  · unfold FairTransfer at hf
    rw [hi] at hf
    obtain ⟨hnodup, hpre, hlo, hhi⟩ := hf hv
    obtain ⟨hres, -, -⟩ := getInput_ok hi
    obtain ⟨hweigh, -⟩ := spendInputs_spec hs hnodup hres
    have hval := unspent_spendInputs hweigh hres
    have hpaid : valueOf utxo.out < valueOf inputs := (verifyUTXO_iff hlo hhi).1 hv
    refine ⟨⟨?_, ?_⟩, hmarked⟩
    · have h₀ := hl.value
      have h₁ := unspentOf_eq utxo.out
      have hadd : (m.addUTXO utxo).2.unspent = m.unspent + unspentOf utxo.out :=
        weigh_addUTXO _ m utxo
      simp only [hm, hadd, hval]
      omega
    · simp only [hr]
      exact hl.once.append hnodup fun i hi₁ hi₂ => hl.marked.fresh hres hi₂ hi₁

theorem genesisFrom_txMempool : ∀ (transactions : List UTXO) (t : Transaction),
    (genesisFrom t transactions).txMempool = ⟨t.txMempool.txs ++ transactions⟩
  | [], t => by simp [genesisFrom]
  | u :: transactions, t => by
    exact (genesisFrom_txMempool transactions _).trans (by simp [TxMempool.addUTXO])

theorem genesis_txMempool (transactions : List UTXO) :
    (genesis transactions).txMempool = ⟨transactions⟩ :=
  genesisFrom_txMempool transactions _

theorem unspentOf_le_valueOf {outs : List UTXOOut} (h : ∀ o ∈ outs, 0 ≤ o.value.toInt) :
    unspentOf outs ≤ valueOf outs := by
  refine List.sum_le_sum fun o ho => ?_
  have := h o ho
  split <;> omega

/-- **Conservation.**  From genesis outputs of non-negative value, every run of fair calls keeps the
law. -/
theorem conservation {v : String → String → String → Bool} {transactions : List UTXO}
    (hg : ∀ u ∈ transactions, ∀ o ∈ u.out, 0 ≤ o.value.toInt) {l : Ledger}
    (hl : (ledgerSystem v transactions).Reachable (FairTransfer v) l) :
    Conserved transactions l := by
  have hinv : LedgerInv transactions l := by
    refine hl.invariant ?_ ?_
    · rintro l rfl
      refine ⟨⟨?_, List.nodup_nil⟩, fun i hi => by cases hi⟩
      rw [genesis_txMempool]
      exact List.sum_le_sum fun u hu => unspentOf_le_valueOf (hg u hu)
    · intro l utxo l' hl hf h
      exact call_conserves hl hf h
  exact hinv.toConserved

/-- One genesis output of value 10. -/
def oneCoin : List UTXO := [⟨[], [⟨"a", 10, false, "k"⟩], "", ""⟩]

/-- A transfer that lists its one input twice, and pays out more than the input holds. -/
def doubledInput : UTXO := ⟨[⟨0, 0⟩, ⟨0, 0⟩], [⟨"b", 19, false, "k"⟩], "s", "a"⟩

/-- A transfer of part of the coin. -/
def honestTransfer : UTXO := ⟨[⟨0, 0⟩], [⟨"b", 9, false, "k"⟩], "s", "a"⟩

/-- The ledger after a list of calls, whatever the signatures. -/
def ledgerAfter (transactions calls : List UTXO) : Option Ledger :=
  (ledgerSystem (fun _ _ _ => true) transactions).run ⟨genesis transactions, []⟩ calls

/-- The doubled input is accepted: 19 of value unspent from a coin of 10, consumed twice. -/
theorem conservation_fails :
    ¬ ∀ (v : String → String → String → Bool) (transactions : List UTXO),
      (∀ u ∈ transactions, ∀ o ∈ u.out, 0 ≤ o.value.toInt) →
        ∀ l, (ledgerSystem v transactions).Reachable TransitionSystem.always l → Conserved transactions l := by
  intro h
  obtain ⟨l, hl, hval⟩ : ∃ l, ledgerAfter oneCoin [doubledInput] = some l ∧
      l.state.txMempool.unspent = 19 := ⟨_, rfl, by decide⟩
  have hc := h (fun _ _ _ => true) oneCoin (by decide) l
    (TransitionSystem.reachable_of_run rfl hl)
  have hle := hc.value
  rw [hval] at hle
  revert hle
  decide

theorem conservation_honestTransfer :
    ∃ l, ledgerAfter oneCoin [honestTransfer] = some l ∧ l.state.txMempool.unspent = 9 ∧
      Conserved oneCoin l := by
  refine ⟨_, rfl, by decide, conservation (v := fun _ _ _ => true) (by decide) ?_⟩
  exact (TransitionSystem.Reachable.init rfl).run [honestTransfer] (by decide) rfl

theorem no_double_spend_honestTransfer :
    ∃ l l', ledgerAfter oneCoin [honestTransfer] = some l ∧ l.consumed = honestTransfer.ins ∧
      l.call (fun _ _ _ => true) honestTransfer = some l' ∧ l' = l := by
  obtain ⟨l, l', hl, hc, h⟩ : ∃ l l', ledgerAfter oneCoin [honestTransfer] = some l ∧
    l.consumed = honestTransfer.ins ∧ l.call (fun _ _ _ => true) honestTransfer = some l' :=
      ⟨_, _, rfl, rfl, rfl⟩
  have hin : ⟨0, 0⟩ ∈ honestTransfer.ins := List.mem_cons_self
  exact ⟨l, l', hl, hc, h, no_double_spend (TransitionSystem.reachable_of_run rfl hl) hin
    (hc ▸ hin) h⟩

end Utxo
