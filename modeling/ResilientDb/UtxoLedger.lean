/-
**The UTXO ledger.**

`executor/utxo/manager` keeps a ledger of unspent transaction outputs: `TxMempool` stores the
accepted transactions and the spent marks of their outputs, `Wallet` the balance of every address,
and `Transaction::AddTransaction` checks a transfer against the mempool and applies it.  This module
embeds the three classes, with their error texts and with the two ways the process can die: an
assertion, and a read at a negative output index, which no check precedes.

Amounts and identifiers keep the widths of `utxo.proto`; the sums of `VerifyUTXO` and `AddCoin` are
64-bit and wrap.

Main definitions:

* `Utxo.TxMempool.getUTXO`, `Utxo.TxMempool.markSpend` — reading an output and marking it spent;
* `Utxo.Transaction.getInput`, `Utxo.Transaction.verifyUTXO`, `Utxo.Transaction.addCoin`,
  `Utxo.Transaction.addTransaction` — the checks and the update of one call;
* `Utxo.Ledger` — a run of calls, with the inputs that accepted transactions have consumed.

The conservation law and the condition under which it holds are in
`ResilientDb/UtxoConservation.lean`.
-/

import ResilientDb.Transition

set_option autoImplicit false

namespace Utxo

/-! ### Messages -/

/-- `UTXOIn`: a reference to an output of an earlier transaction. -/
structure UTXOIn where
  prevId : Int64
  outIdx : Int32
deriving DecidableEq

/-- `UTXOOut`.  The `spent` mark is a field of the message, so a sender can set it. -/
structure UTXOOut where
  address : String
  value : Int64
  spent : Bool
  pubKey : String
deriving DecidableEq

/-- `UTXO`, without the `transaction_id` that only the listing of transactions fills in. -/
structure UTXO where
  ins : List UTXOIn
  out : List UTXOOut
  sig : String
  address : String
deriving DecidableEq

/-- `utxo.out(out_idx)`.  There is nothing at a negative or too large index. -/
def UTXO.outAt (u : UTXO) (outIdx : Int32) : Option UTXOOut :=
  if outIdx.toInt < 0 then none else u.out[outIdx.toNatClampNeg]?

/-! ### The mempool -/

/-- `TxMempool`.  Identifiers are handed out in order from 0, so the map `txs_` is the list of its
values and an identifier is a position in it. -/
structure TxMempool where
  txs : List UTXO
deriving DecidableEq

namespace TxMempool

/-- `txs_.find(id)`. -/
def find (m : TxMempool) (id : Int64) : Option UTXO :=
  if id.toInt < 0 then none else m.txs[id.toNatClampNeg]?

/-- `TxMempool::AddUTXO`: the new identifier and the extended mempool. -/
def addUTXO (m : TxMempool) (utxo : UTXO) : ℤ × TxMempool :=
  (m.txs.length, ⟨m.txs ++ [utxo]⟩)

/-- `TxMempool::GetUTXO`.  `none` is the read at a negative index. -/
def getUTXO (m : TxMempool) (id : Int64) (outIdx : Int32) (address : String) :
    Option (Except String UTXOOut) :=
  match m.find id with
  | none => some (.error "id invalid.")
  | some utxo =>
    if (utxo.out.length : ℤ) ≤ outIdx.toInt then some (.error "id invalid.")
    else
      match utxo.outAt outIdx with
      | none => none
      | some o =>
        if o.spent then some (.error "id has been spent.")
        else if o.address ≠ address then some (.error "address invalid.")
        else some (.ok o)

/-- `utxo->mutable_out(out_idx)->set_spent(true)` on the transaction `id`. -/
def setSpent (m : TxMempool) (id : Int64) (outIdx : Int32) : TxMempool :=
  ⟨m.txs.modify id.toNatClampNeg fun u =>
    { u with out := u.out.modify outIdx.toNatClampNeg fun o => { o with spent := true } }⟩

/-- `TxMempool::MarkSpend`: the value of the output and the mempool with the output marked, or `-1`
and the mempool as it was. -/
def markSpend (m : TxMempool) (id : Int64) (outIdx : Int32) : Option (Int64 × TxMempool) :=
  match m.find id with
  | none => some (-1, m)
  | some utxo =>
    if (utxo.out.length : ℤ) ≤ outIdx.toInt then some (-1, m)
    else
      match utxo.outAt outIdx with
      | none => none
      | some o => some (o.value, m.setSpent id outIdx)

end TxMempool

/-! ### Wallet and transactions -/

/-- `Wallet`: the balance of every address. -/
def Wallet := String → Int64

/-- `Wallet::AddCoin`, which always returns 0. -/
def Wallet.addCoin (w : Wallet) (address : String) (value : Int64) : Wallet :=
  Function.update w address (w address + value)

/-- `Transaction`: the mempool and the wallet it works on. -/
structure Transaction where
  txMempool : TxMempool
  wallet : Wallet

namespace Transaction

/-- The credits of a list of outputs. -/
def addOutputs (w : Wallet) (outs : List UTXOOut) : Wallet :=
  outs.foldl (fun w o => w.addCoin o.address o.value) w

/-- The loop of the constructor of `Transaction` over the genesis transactions. -/
def genesisFrom (t : Transaction) (transactions : List UTXO) : Transaction :=
  transactions.foldl
    (fun t trans => ⟨(t.txMempool.addUTXO trans).2, addOutputs t.wallet trans.out⟩) t

/-- The constructor of `Transaction` on the genesis transactions of the configuration. -/
def genesis (transactions : List UTXO) : Transaction :=
  genesisFrom ⟨⟨[]⟩, fun _ => 0⟩ transactions

/-- The loop of `GetInput`: the referenced outputs, the first non-empty public key and the sum of
the identifiers. -/
def gatherInputs (m : TxMempool) (address : String) : List UTXOIn → List UTXOOut → String → Int64 →
    Option (Except String (List UTXOOut × String × Int64))
  | [], utxos, publicKey, verifyNonce => some (.ok (utxos, publicKey, verifyNonce))
  | input :: ins, utxos, publicKey, verifyNonce =>
    match m.getUTXO input.prevId input.outIdx address with
    | none => none
    | some (.error e) => some (.error e)
    | some (.ok o) =>
      gatherInputs m address ins (utxos ++ [o]) (if publicKey = "" then o.pubKey else publicKey)
        (verifyNonce + input.prevId)

section

-- `utils::ECDSAVerifyString(message, public_key, sign)`
variable (ecdsaVerifyString : String → String → String → Bool)

/-- `Transaction::GetInput`. -/
def getInput (m : TxMempool) (utxo : UTXO) : Option (Except String (List UTXOOut)) :=
  if utxo.ins = [] ∧ utxo.address = "0000" then some (.ok [])
  else
    match gatherInputs m utxo.address utxo.ins [] "" 0 with
    | none => none
    | some (.error e) => some (.error e)
    | some (.ok (utxos, publicKey, verifyNonce)) =>
      if utxos = [] then some (.error "Input invalid.")
      else if utxo.sig = "" then some (.error "Input invalid.")
      else if !ecdsaVerifyString (utxo.address ++ toString verifyNonce.toInt) publicKey utxo.sig
      then some (.error "Key invalid.")
      else if utxos.any (fun o => o.pubKey ≠ publicKey) then some (.error "Key invalid.")
      else some (.ok utxos)

/-- The balance that `VerifyUTXO` computes: 64-bit sums of the inputs minus the outputs. -/
def totalInput (utxo : UTXO) (inputs : List UTXOOut) : Int64 :=
  utxo.out.foldl (fun v o => v - o.value) (inputs.foldl (fun v o => v + o.value) 0)

/-- `Transaction::VerifyUTXO`. -/
def verifyUTXO (utxo : UTXO) (inputs : List UTXOOut) : Bool :=
  0 < totalInput utxo inputs

/-- The first loop of `Transaction::AddCoin`: mark the inputs and add up their values.  `none` is a
failed `assert(value >= 0)` or the read at a negative index. -/
def spendInputs : List UTXOIn → TxMempool → Int64 → Option (TxMempool × Int64)
  | [], m, total => some (m, total)
  | input :: ins, m, total =>
    match m.markSpend input.prevId input.outIdx with
    | none => none
    | some (value, m') => if 0 ≤ value then spendInputs ins m' (total + value) else none

/-- `Transaction::AddCoin`, which returns 0 whenever it returns. -/
def addCoin (t : Transaction) (utxo : UTXO) : Option Transaction :=
  match spendInputs utxo.ins t.txMempool 0 with
  | none => none
  | some (m, totalValue) =>
    some ⟨m, addOutputs (t.wallet.addCoin utxo.address (-totalValue)) utxo.out⟩

/-- `Transaction::AddTransaction`: the returned value and the new state. -/
def addTransaction (t : Transaction) (utxo : UTXO) : Option (ℤ × Transaction) :=
  match getInput ecdsaVerifyString t.txMempool utxo with
  | none => none
  | some (.error _) => some (-1, t)
  | some (.ok ins) =>
    if !verifyUTXO utxo ins then some (-1, t)
    else
      match addCoin t utxo with
      | none => none
      | some t' =>
        some ((t'.txMempool.addUTXO utxo).1, { t' with txMempool := (t'.txMempool.addUTXO utxo).2 })

end

end Transaction

/-! ### Runs -/

/-- The state of a run of `AddTransaction` calls, together with the inputs consumed by the accepted
transactions so far, in order. -/
structure Ledger where
  state : Transaction
  consumed : List UTXOIn

/-- One call. -/
def Ledger.call (ecdsaVerifyString : String → String → String → Bool) (l : Ledger) (utxo : UTXO) :
    Option Ledger :=
  (Transaction.addTransaction ecdsaVerifyString l.state utxo).map fun r =>
    ⟨r.2, if r.1 = -1 then l.consumed else l.consumed ++ utxo.ins⟩

/-- The runs of calls from a genesis configuration. -/
def ledgerSystem (ecdsaVerifyString : String → String → String → Bool) (transactions : List UTXO) :
    TransitionSystem Ledger UTXO where
  init l := l = ⟨Transaction.genesis transactions, []⟩
  step := Ledger.call ecdsaVerifyString

/-- The sum of the values of the outputs in a list that are not marked spent. -/
def unspentOf (outs : List UTXOOut) : ℤ :=
  (outs.map fun o => if o.spent then 0 else o.value.toInt).sum

/-- The sum of the values of all unspent outputs in the mempool. -/
def TxMempool.unspent (m : TxMempool) : ℤ :=
  (m.txs.map fun u => unspentOf u.out).sum

/-- The exact sum of the values of a list of outputs. -/
def valueOf (outs : List UTXOOut) : ℤ := (outs.map fun o => o.value.toInt).sum

/-- The sum of the genesis outputs. -/
def genesisValue (transactions : List UTXO) : ℤ := (transactions.map fun u => valueOf u.out).sum

end Utxo
