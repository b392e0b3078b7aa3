/-
**Thunderbolt replicas on a network.**

The replicas exchange blocks, acknowledgements and certificates.  A message of a correct replica is in
flight until it is delivered, in any order; a Byzantine replica hands any message to any replica at
any time.  Beside the replicas the state records which blocks each replica has signed and which
certificates it has stored.

Main definitions:

* `Thunderbolt.Work`, `Thunderbolt.Replica.work` — what the threads of a replica do by themselves;
* `Thunderbolt.Network`, `Thunderbolt.Action`, `Thunderbolt.system` — the replicas on a network;
* `Thunderbolt.Network.take` — the message that an action hands to a replica.

Main results:

* `Thunderbolt.Network.step_cases` — a thread works, or a replica receives a message;
* `Thunderbolt.Network.step_records` — what a step does to the records.
-/

import ResilientDb.ThunderboltReplica
import ResilientDb.Transition

set_option autoImplicit false

namespace Thunderbolt

open Option (bind_eq_some_iff guard_eq_some')

/-! ### The threads -/

/-- What a thread of a replica does next: a client's transaction is taken in, the send thread takes a
transaction, sees the last round complete or broadcasts a block, the commit or the execute thread
takes the next entry of its queue, the executor ends the graph, or the `k`-th block that was received
is added. -/
inductive Work
  | receiveTransaction (txn : Transaction)
  | popTxn
  | seeReady
  | sendBlock (now : ℕ)
  | asyncCommit
  | asyncExecute
  | switchDAG
  | addBlock (k : ℕ)

namespace Config

variable {H : Type} (c : Config H)

/-- The ids of the replicas. -/
def members : Finset ℕ := Finset.Icc 1 c.totalNum

/-- A broadcast reaches every replica, the sender included. -/
def broadcast (msg : Message H) : List (ℕ × Message H) :=
  (List.range' 1 c.totalNum).map fun i => (i, msg)

end Config

variable {H : Type} [LinearOrder H]

/-- The messages, with their receivers, go with the new state. -/
def Replica.work (c : Config H) (r : Replica H) :
    Work → Option (Replica H × List (ℕ × Message H))
  | .receiveTransaction txn => some (r.receiveTransaction txn, [])
  | .popTxn => r.popTxn.map (·, [])
  | .seeReady => (r.seeReady c).map (·, [])
  | .sendBlock now => (r.sendBlock c now).map fun e => (e.1, c.broadcast (.newBlock e.2))
  | .asyncCommit => (r.asyncCommit c).map (·, [])
  | .asyncExecute => (r.asyncExecute c).map (·, [])
  | .switchDAG => (r.switchDAG c).map (·, [])
  | .addBlock k => (r.addBlock c k).map fun e =>
    (e.1, [(e.2.1.header.proposerId, .blockACK e.2.2)])

/-! ### The network -/

/-- The replicas, the messages in flight with their receivers, the blocks that each replica has signed
and the certificates that it has stored. -/
structure Network (H : Type) [LinearOrder H] where
  replicas : ℕ → Replica H
  inFlight : List (ℕ × Message H)
  signed : ℕ → List (Proposal H)
  stored : ℕ → List (Certificate H)

/-- A thread of a replica works, the `k`-th message in flight is delivered, a Byzantine replica sends one, or a
block or certificate that has waited for its graph is taken up. -/
inductive Action (H : Type)
  | work (i : ℕ) (w : Work)
  | deliver (k : ℕ)
  | inject (i : ℕ) (msg : Message H)
  | runFutureBlock (i : ℕ)
  | runFutureCert (i : ℕ)

namespace Network

/-- No messages yet. -/
def start : Network H := ⟨.start, [], fun _ => [], fun _ => []⟩

/-- The replica `i` is in a new state and has sent messages. -/
def update (s : Network H) (i : ℕ) (r : Replica H) (msgs : List (ℕ × Message H)) : Network H :=
  { s with replicas := Function.update s.replicas i r, inFlight := s.inFlight ++ msgs }

/-- A block reaches `ReceiveBlock`. -/
def handleBlock (c : Config H) (s : Network H) (i : ℕ) (p : Proposal H) : Network H :=
  let (r, md) := (s.replicas i).receiveBlock c p
  { s.update i r (md.toList.map fun md => (p.header.proposerId, .blockACK md)) with
    signed :=
      if p.header.dagId ≤ (s.replicas i).dagId then
        Function.update s.signed i (s.signed i ++ [p])
      else s.signed }

/-- An acknowledgement reaches `ReceiveBlockACK`. -/
def handleACK (c : Config H) (s : Network H) (i : ℕ) (md : Metadata H) : Option (Network H) := do
  let (r, cert) ← (s.replicas i).receiveBlockACK c md
  some (s.update i r (cert.toList.flatMap fun cert => c.broadcast (.cert cert)))

/-- A certificate reaches `ReceiveBlockCert`. -/
def handleCert (c : Config H) (s : Network H) (i : ℕ) (cert : Certificate H) :
    Option (Network H) := do
  let (r, added) ← (s.replicas i).receiveBlockCert c cert
  some { s.update i r [] with
    stored := if added then Function.update s.stored i (s.stored i ++ [cert]) else s.stored }

/-- A message reaches a replica. -/
def handle (c : Config H) (s : Network H) (i : ℕ) : Message H → Option (Network H)
  | .newBlock p => some (s.handleBlock c i p)
  | .blockACK md => s.handleACK c i md
  | .cert cert => s.handleCert c i cert

/-- The message that an action hands to one of the replicas in `correct`, with the network after the
message has left it.  A message can be injected if there are other replicas. -/
def take (c : Config H) (correct : Finset ℕ) (s : Network H) :
    Action H → Option (Network H × ℕ × Message H)
  | .work _ _ => none
  | .deliver k => do
      let (i, msg) ← s.inFlight[k]?
      guard (i ∈ correct)
      some ({ s with inFlight := s.inFlight.eraseIdx k }, i, msg)
  | .inject i msg => do
      guard (i ∈ correct ∧ correct ≠ c.members)
      some (s, i, msg)
  | .runFutureBlock i => do
      guard (i ∈ correct)
      let (r, p) ← (s.replicas i).runFutureBlock
      some (s.update i r [], i, .newBlock p)
  | .runFutureCert i => do
      guard (i ∈ correct)
      let (r, cert) ← (s.replicas i).runFutureCert
      some (s.update i r [], i, .cert cert)

/-- One action of the replicas in `correct`. -/
def step (c : Config H) (correct : Finset ℕ) (s : Network H) : Action H → Option (Network H)
  | .work i w => do
      guard (i ∈ correct)
      let (r, msgs) ← (s.replicas i).work c w
      some (s.update i r msgs)
  | a => do
      let (t, i, msg) ← s.take c correct a
      t.handle c i msg

end Network

/-- The runs of the replicas. -/
def system (c : Config H) (correct : Finset ℕ) : TransitionSystem (Network H) (Action H) where
  init s := s = .start
  step := Network.step c correct

/-! ### What a step does -/

namespace Network

variable {c : Config H} {correct : Finset ℕ} {s s' t : Network H} {i : ℕ} {a : Action H}
  {msg : Message H}

theorem step_cases (h : step c correct s a = some s') :
    (∃ i w r msgs, a = .work i w ∧ i ∈ correct ∧ (s.replicas i).work c w = some (r, msgs) ∧
      s' = s.update i r msgs) ∨
    ∃ t i msg, s.take c correct a = some (t, i, msg) ∧ t.handle c i msg = some s' := by
  cases a with
  | work i w =>
    simp only [step, bind, bind_eq_some_iff, guard_eq_some',
      exists_const, Prod.exists, Option.some.injEq] at h
    obtain ⟨hi, r, msgs, hr, rfl⟩ := h
    exact .inl ⟨i, w, r, msgs, rfl, hi, hr, rfl⟩
  | deliver | inject | runFutureBlock | runFutureCert =>
    simp only [step, bind, bind_eq_some_iff, Prod.exists] at h
    exact .inr h

theorem handleACK_eq_some {md : Metadata H} : s.handleACK c i md = some s' ↔
    ∃ r cert, (s.replicas i).receiveBlockACK c md = some (r, cert) ∧
      s.update i r (cert.toList.flatMap fun cert => c.broadcast (.cert cert)) = s' := by
  simp only [handleACK, bind, bind_eq_some_iff, Prod.exists, Option.some.injEq]

theorem handleCert_eq_some {cert : Certificate H} : s.handleCert c i cert = some s' ↔
    ∃ r added, (s.replicas i).receiveBlockCert c cert = some (r, added) ∧ { s.update i r [] with
        stored := if added then Function.update s.stored i (s.stored i ++ [cert]) else s.stored } =
        s' := by
  simp only [handleCert, bind, bind_eq_some_iff, Prod.exists, Option.some.injEq]

theorem take_spec (h : s.take c correct a = some (t, i, msg)) :
    i ∈ correct ∧ t.signed = s.signed ∧ t.stored = s.stored := by
  cases a with
  | work => cases h
  | deliver k =>
    simp only [take, bind, bind_eq_some_iff, guard_eq_some', exists_const, Prod.exists] at h
    obtain ⟨_, _, -, hi, rfl, rfl, -⟩ := h
    exact ⟨hi, rfl, rfl⟩
  | inject j msg' =>
    simp only [take, bind, bind_eq_some_iff, guard_eq_some', exists_const] at h
    obtain ⟨⟨hi, -⟩, rfl, rfl, -⟩ := h
    exact ⟨hi, rfl, rfl⟩
  | runFutureBlock | runFutureCert =>
    simp only [take, bind, bind_eq_some_iff, guard_eq_some', exists_const, Prod.exists] at h
    obtain ⟨hi, r, p, -, rfl, rfl, -⟩ := h
    exact ⟨hi, rfl, rfl⟩

theorem verifyCert_of_stored {r r' : Replica H} {cert : Certificate H} {added : Bool}
    (h : r.receiveBlockCert c cert = some (r', added)) : Replica.verifyCert c cert = true := by
  obtain ⟨_, hguard, -⟩ := bind_eq_some_iff.1 h
  exact (guard_eq_some' _).1 hguard

/-- What a step does to the records: nothing, a replica signs a block, or it stores a certificate. -/
theorem step_records (h : step c correct s a = some s') :
    (s'.signed = s.signed ∧ s'.stored = s.stored) ∨
    (∃ t i p, s.take c correct a = some (t, i, .newBlock p) ∧
      p.header.dagId ≤ (t.replicas i).dagId ∧
      s'.signed = Function.update s.signed i (s.signed i ++ [p]) ∧ s'.stored = s.stored) ∨
    ∃ t i cert, s.take c correct a = some (t, i, .cert cert) ∧ Replica.verifyCert c cert = true ∧
      s'.signed = s.signed ∧ s'.stored = Function.update s.stored i (s.stored i ++ [cert]) := by
  rcases step_cases h with ⟨i, w, r, msgs, -, -, -, rfl⟩ | ⟨t, i, msg, ht, h⟩
  · exact .inl ⟨rfl, rfl⟩
  obtain ⟨-, hsigned, hstored⟩ := take_spec ht
  rw [← hsigned, ← hstored]
  cases msg with
  | newBlock p =>
    cases h
    by_cases hdag : p.header.dagId ≤ (t.replicas i).dagId
    · exact .inr (.inl ⟨t, i, p, ht, hdag, if_pos hdag, rfl⟩)
    · exact .inl ⟨if_neg hdag, rfl⟩
  | blockACK md =>
    obtain ⟨r, cert, -, rfl⟩ := handleACK_eq_some.1 h
    exact .inl ⟨rfl, rfl⟩
  | cert cert =>
    obtain ⟨r, added, hr, rfl⟩ := handleCert_eq_some.1 h
    cases added with
    | false => exact .inl ⟨rfl, rfl⟩
    | true => exact .inr (.inr ⟨t, i, cert, ht, verifyCert_of_stored hr, rfl, rfl⟩)

end Network

end Thunderbolt
