/-
**Who has signed a transfer.**

An output is locked to a public key, and `GetInput` asks for a signature under that key.  What is signed
is the address of the sender followed by the sum of the identifiers of the transactions that the inputs
refer to; neither the positions of the outputs that are spent nor the new outputs are part of it.  A
signature that has been seen once therefore fits every other transaction of the same address whose
inputs have the same sum, with any outputs (`Utxo.transfers_authorised_fails`).

The parties are the holders of the keys, who sign transactions, and everybody, who submits them.
Signatures cannot be forged: a valid signature under a key belongs to a transaction that the holder of
the key has signed and submits itself, or it was in a transaction submitted before.

Main definitions:

* `Utxo.Market`, `Utxo.marketSystem` — signing and submitting;
* `Utxo.Unforged` — the assumption about signatures;
* `Utxo.Market.Authorised` — the holder of the key has signed these inputs and these outputs;
* `Utxo.SignatureNotReused` — the condition on a call.

Main results:

* `Utxo.transfers_authorised` — runs without reuse, `Utxo.transfers_authorised_fails` — a reuse.
-/

import ResilientDb.UtxoConservation

set_option autoImplicit false

namespace Utxo

open Transaction

/-! ### Signing and submitting -/

/-- The string whose signature `GetInput` checks. -/
def UTXO.signedString (utxo : UTXO) : String :=
  utxo.address ++ toString (nonceOf utxo.ins 0).toInt

/-- The ledger, the transactions that holders of keys have signed, the transactions submitted so far,
and the accepted ones with the outputs they have spent. -/
structure Market where
  state : Transaction
  authorised : List (String × UTXO)
  submitted : List UTXO
  accepted : List (UTXO × List UTXOOut)

/-- The holder of a key signs a transaction, or somebody submits one. -/
inductive MarketAction
  | authorise (publicKey : String) (utxo : UTXO)
  | submit (utxo : UTXO)

/-- One action. -/
def Market.step (ecdsaVerifyString : String → String → String → Bool) (s : Market) :
    MarketAction → Option Market
  | .authorise publicKey utxo => some { s with authorised := s.authorised ++ [(publicKey, utxo)] }
  | .submit utxo =>
    (addTransaction ecdsaVerifyString s.state utxo).map fun (r, t) =>
      { s with
        state := t
        submitted := s.submitted ++ [utxo]
        accepted := if r = -1 then s.accepted
          else s.accepted ++ [(utxo, utxo.ins.filterMap s.state.txMempool.outputAt)] }

/-- The runs from a genesis configuration. -/
def marketSystem (ecdsaVerifyString : String → String → String → Bool) (transactions : List UTXO) :
    TransitionSystem Market MarketAction where
  init s := s = ⟨genesis transactions, [], [], []⟩
  step := Market.step ecdsaVerifyString

/-- Signatures are not forged: where a submitted signature is valid under a key, the holder of the key
has signed the transaction, or the signature of this string has been seen in an earlier transaction. -/
def Unforged (ecdsaVerifyString : String → String → String → Bool) (s : Market) :
    MarketAction → Prop
  | .authorise _ _ => True
  | .submit utxo =>
    ∀ publicKey, ecdsaVerifyString utxo.signedString publicKey utxo.sig = true →
      (publicKey, utxo) ∈ s.authorised ∨
        ∃ u ∈ s.submitted, u.signedString = utxo.signedString ∧ u.sig = utxo.sig

/-- The two transactions spend the same set of inputs and have the same outputs. -/
def UTXO.SameTransfer (u utxo : UTXO) : Prop := (∀ i, i ∈ u.ins ↔ i ∈ utxo.ins) ∧ u.out = utxo.out

/-- For every output that an accepted transaction has spent, the holder of its key has made the
signature for these inputs and these outputs. -/
def Market.Authorised (s : Market) : Prop :=
  ∀ e ∈ s.accepted, ∀ o ∈ e.2,
    ∃ u, (o.pubKey, u) ∈ s.authorised ∧ u.sig = e.1.sig ∧ u.SameTransfer e.1

/-- The condition on a call: a signature that was in an earlier transaction, for the same string, comes
with the inputs and outputs it came with before. -/
def SignatureNotReused (s : Market) : MarketAction → Prop
  | .authorise _ _ => True
  | .submit utxo =>
    ∀ u ∈ s.submitted, u.signedString = utxo.signedString → u.sig = utxo.sig → u.SameTransfer utxo

/-! ### Runs without reuse -/

theorem Resolves.filterMap_outputAt {m : TxMempool} :
    ∀ {ins : List UTXOIn} {outs : List UTXOOut}, Resolves m ins outs →
      ins.filterMap m.outputAt = outs
  | _, _, .nil => rfl
  | _, _, .cons hj hrest => by
    rw [List.filterMap_cons_some hj.1, Resolves.filterMap_outputAt hrest]

/-- Every valid signature that was submitted was made by the holder of the key, for a transaction that
was submitted too. -/
structure MarketInv (v : String → String → String → Bool) (s : Market) : Prop where
  known : ∀ utxo ∈ s.submitted, ∀ publicKey, v utxo.signedString publicKey utxo.sig = true →
    ∃ u ∈ s.submitted, (publicKey, u) ∈ s.authorised ∧ u.signedString = utxo.signedString ∧
      u.sig = utxo.sig
  authorised : s.Authorised

section Submit

variable {v : String → String → String → Bool} {s : Market} {utxo : UTXO}

theorem MarketInv.signed (hs : MarketInv v s) (hunforged : Unforged v s (.submit utxo))
    {publicKey : String} (hv : v utxo.signedString publicKey utxo.sig = true) :
    ∃ u ∈ s.submitted ++ [utxo], (publicKey, u) ∈ s.authorised ∧
      u.signedString = utxo.signedString ∧ u.sig = utxo.sig := by
  rcases hunforged publicKey hv with hown | ⟨u, hu, hstring, hsig⟩
  · exact ⟨utxo, by simp, hown, rfl, rfl⟩
  · rw [← hstring, ← hsig] at hv
    obtain ⟨u', hu', hsigned, hstring', hsig'⟩ := hs.known u hu publicKey hv
    exact ⟨u', by simp [hu'], hsigned, hstring'.trans hstring, hsig'.trans hsig⟩

theorem MarketInv.authorised_inputs (hs : MarketInv v s) (hunforged : Unforged v s (.submit utxo))
    (hreuse : SignatureNotReused s (.submit utxo)) {inputs : List UTXOOut}
    (hi : getInput v s.state.txMempool utxo = some (.ok inputs)) {o : UTXOOut} (ho : o ∈ inputs) :
    ∃ u, (o.pubKey, u) ∈ s.authorised ∧ u.sig = utxo.sig ∧ u.SameTransfer utxo := by
  obtain ⟨-, -, hkey⟩ := getInput_ok hi
  obtain ⟨publicKey, hall, hv⟩ := hkey (List.ne_nil_of_mem ho)
  obtain ⟨u, hu, hsigned, hstring, hsig⟩ := hs.signed hunforged hv
  refine ⟨u, by rw [hall o ho]; exact hsigned, hsig, ?_⟩
  rcases List.mem_append.1 hu with hu | hu
  · exact hreuse u hu hstring hsig
  · rw [List.mem_singleton.1 hu]
    exact ⟨fun _ => Iff.rfl, rfl⟩

theorem MarketInv.submit (hs : MarketInv v s) (hunforged : Unforged v s (.submit utxo))
    (hreuse : SignatureNotReused s (.submit utxo)) {s' : Market}
    (h : s.step v (.submit utxo) = some s') : MarketInv v s' := by
  obtain ⟨⟨r, t⟩, ht, rfl⟩ := Option.map_eq_some_iff.1 h
  constructor
  · intro u hu publicKey hv
    rcases List.mem_append.1 hu with hu | hu
    · obtain ⟨u', hu', hrest⟩ := hs.known u hu publicKey hv
      exact ⟨u', List.mem_append_left _ hu', hrest⟩
    · rw [List.mem_singleton.1 hu] at hv ⊢
      exact hs.signed hunforged hv
  · intro e he o ho
    rcases addTransaction_cases ht with ⟨rfl, -⟩ | ⟨inputs, m, total, hi, -, -, hr, -, -⟩
    · exact hs.authorised e he o ho
    · simp only [hr] at he
      rcases List.mem_append.1 he with he | he
      · exact hs.authorised e he o ho
      · rw [List.mem_singleton.1 he] at ho ⊢
        rw [(getInput_ok hi).1.filterMap_outputAt] at ho
        exact hs.authorised_inputs hunforged hreuse hi ho

end Submit

variable {v : String → String → String → Bool}

theorem MarketInv.authorise {s : Market} (hs : MarketInv v s)
    (e : String × UTXO) : MarketInv v { s with authorised := s.authorised ++ [e] } := by
  constructor
  · intro u hu publicKey hv
    obtain ⟨u', hu', hsigned, hrest⟩ := hs.known u hu publicKey hv
    exact ⟨u', hu', List.mem_append_left _ hsigned, hrest⟩
  · intro a ha o ho
    obtain ⟨u, hsigned, hrest⟩ := hs.authorised a ha o ho
    exact ⟨u, List.mem_append_left _ hsigned, hrest⟩

/-- **Transfers are authorised** in every run in which signatures are not forged and no signature is
reused for another transfer. -/
theorem transfers_authorised {transactions : List UTXO}
    {s : Market} (hs : (marketSystem v transactions).Reachable
      (fun s a => Unforged v s a ∧ SignatureNotReused s a) s) : s.Authorised := by
  have hinv : MarketInv v s := by
    refine hs.invariant ?_ ?_
    · rintro s rfl
      exact ⟨by simp, by simp [Market.Authorised]⟩
    · intro s a s' hs hok h
      cases a with
      | authorise publicKey utxo =>
        obtain rfl : _ = s' := Option.some.inj h
        exact hs.authorise _
      | submit utxo => exact hs.submit hok.1 hok.2 h
  exact hinv.authorised

/-! ### A reuse -/

/-- A genesis transaction with two outputs of one address. -/
def twoCoins : List UTXO := [⟨[], [⟨"a", 10, false, "k"⟩, ⟨"a", 10, false, "k"⟩], "", ""⟩]

/-- The holder spends the first coin. -/
def payment : UTXO := ⟨[⟨0, 0⟩], [⟨"b", 9, false, "k'"⟩], "s", "a"⟩

/-- Somebody else spends the second coin with the signature of the first. -/
def theft : UTXO := ⟨[⟨0, 1⟩], [⟨"c", 9, false, "k''"⟩], "s", "a"⟩

/-- The one signature there is: `"s"`, made with the key `"k"` for the string `"a0"`. -/
def oneSignature (message publicKey sign : String) : Bool :=
  message = "a0" ∧ publicKey = "k" ∧ sign = "s"

theorem oneSignature_unforged (s : Market) (h : ("k", payment) ∈ s.authorised) :
    Unforged oneSignature s (.submit payment) := by
  intro publicKey hv
  obtain ⟨-, rfl, -⟩ := of_decide_eq_true hv
  exact .inl h

/-- The signature of the first transfer is seen, and accepted with the second coin and other outputs. -/
theorem transfers_authorised_fails :
    ¬ ∀ (v : String → String → String → Bool) (transactions : List UTXO) (s : Market),
      (marketSystem v transactions).Reachable (Unforged v) s → s.Authorised := by
  intro h
  have h₀ : (marketSystem oneSignature twoCoins).Reachable (Unforged oneSignature)
      ⟨genesis twoCoins, [], [], []⟩ := .init rfl
  have h₁ := h₀.step (a := MarketAction.authorise "k" payment) trivial rfl
  have h₂ := h₁.step (a := MarketAction.submit payment)
    (oneSignature_unforged _ (List.mem_singleton.2 rfl)) rfl
  have h₃ := h₂.step (a := MarketAction.submit theft)
    (fun _ _ => .inr ⟨payment, List.mem_singleton.2 rfl, by decide, rfl⟩) rfl
  have hlast : (theft, [⟨"a", 10, false, "k"⟩]) ∈
      [(payment, [(⟨"a", 10, false, "k"⟩ : UTXOOut)]), (theft, [⟨"a", 10, false, "k"⟩])] := by
    decide
  obtain ⟨u, hu, -, -, hout⟩ := h _ _ _ h₃ _ hlast _ (List.mem_singleton.2 rfl)
  obtain ⟨-, rfl⟩ := Prod.mk.inj (List.mem_singleton.1 hu)
  revert hout
  decide

theorem transfers_authorised_payment :
    ∃ s, (marketSystem oneSignature twoCoins).run ⟨genesis twoCoins, [], [], []⟩
        [.authorise "k" payment, .submit payment] = some s ∧ s.accepted.length = 1 ∧ s.Authorised := by
  have h₀ : (marketSystem oneSignature twoCoins).Reachable
      (fun s a => Unforged oneSignature s a ∧ SignatureNotReused s a)
      ⟨genesis twoCoins, [], [], []⟩ := .init rfl
  have h₁ := h₀.step (a := MarketAction.authorise "k" payment) ⟨trivial, trivial⟩ rfl
  have h₂ := h₁.step (a := MarketAction.submit payment)
    ⟨oneSignature_unforged _ (List.mem_singleton.2 rfl), fun _ hu => by cases hu⟩ rfl
  exact ⟨_, rfl, rfl, transfers_authorised h₂⟩

end Utxo
