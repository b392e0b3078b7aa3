/-
**Thunderbolt certificates.**

A certificate says that `2f + 1` replicas have acknowledged a block.  Two certificates for one round
and proposer of a graph would be for the same block if a correct replica acknowledged only one block
for them and the certificate was checked against the block.  Neither is the case: `ReceiveBlock` signs
the hash of every block that reaches it, and `VerifyCert` counts valid signatures, whoever made them,
for some hash, which need not be that of the certificate.  A Byzantine proposer that sends two blocks
gets both certified (`Thunderbolt.nonEquivocation_fails`).

Main definitions:

* `Thunderbolt.NonEquivocation` — the property;
* `Thunderbolt.Unforgeable` — the assumption on signatures;
* `Thunderbolt.Checked` — the checks that are missing.

Main results:

* `Thunderbolt.CertInv.step` — what every step keeps;
* `Thunderbolt.nonEquivocation_of_checked` — under the checks there is one block for each round and
  proposer.
-/

import ResilientDb.PrefixOrder
import ResilientDb.Quorum
import ResilientDb.ThunderboltNetwork

set_option autoImplicit false

namespace Thunderbolt

variable {H : Type} [LinearOrder H]

/-- Correct replicas do not store certificates of different blocks for one round and proposer of a
graph. -/
def NonEquivocation (correct : Finset ℕ) (s : Network H) : Prop :=
  ∀ i ∈ correct, ∀ j ∈ correct, ∀ a ∈ s.stored i, ∀ b ∈ s.stored j,
    a.dagId = b.dagId → a.key = b.key → a.hash = b.hash

/-- A valid signature of a correct replica in a certificate that is received has been made by the
replica. -/
def Unforgeable (c : Config H) (correct : Finset ℕ) (s : Network H) (a : Action H) : Prop :=
  ∀ e ∈ s.take c correct a,
    match e.2.2 with
    | .cert cert => ∀ md ∈ cert.metadata, c.verifyMessage md.hash md.sign = true →
        md.sign.nodeId ∈ correct → ∃ p ∈ s.signed md.sign.nodeId, p.hash = md.hash
    | _ => True

/-- The replicas whose signatures of its own hash a certificate has. -/
def Certificate.signers (cert : Certificate H) : Finset ℕ :=
  ((cert.metadata.filter fun md => md.hash = cert.hash).map fun md => md.sign.nodeId).toFinset

/-- What a replica does not check: a block that it signs is the only one that it has signed for the
round and proposer of the graph; a certificate has signatures of its own hash by `2f + 1` replicas,
and the correct ones have signed the hash for a block of the certificate's graph, round and
proposer. -/
def Checked (c : Config H) (correct : Finset ℕ) (s : Network H) (a : Action H) : Prop :=
  ∀ e ∈ s.take c correct a,
    match e.2.2 with
    | .newBlock p => p.header.dagId ≤ (e.1.replicas e.2.1).dagId → ∀ q ∈ s.signed e.2.1,
        q.header.dagId = p.header.dagId → q.key = p.key → q.hash = p.hash
    | .cert cert => c.limitCount ≤ (c.members ∩ cert.signers).card ∧
        ∀ j ∈ correct, ∀ q ∈ s.signed j, q.hash = cert.hash →
          q.header.dagId = cert.dagId ∧ q.key = cert.key
    | _ => True

instance (c : Config H) (correct : Finset ℕ) (s : Network H) (a : Action H) :
    Decidable (Unforgeable c correct s a) := by
  refine @Option.decidableForallMem _ _ (fun e => ?_) _
  rcases e with ⟨_, _, _ | _ | _⟩ <;> dsimp only <;> infer_instance

instance (c : Config H) (correct : Finset ℕ) (s : Network H) (a : Action H) :
    Decidable (Checked c correct s a) := by
  refine @Option.decidableForallMem _ _ (fun e => ?_) _
  rcases e with ⟨_, _, _ | _ | _⟩ <;> dsimp only <;> infer_instance

/-- The replica is Byzantine or has signed a block of the certificate's graph, round and proposer with
the certificate's hash. -/
def Backs (correct : Finset ℕ) (signed : ℕ → List (Proposal H)) (cert : Certificate H) (j : ℕ) :
    Prop :=
  j ∈ correct → ∃ p ∈ signed j, p.header.dagId = cert.dagId ∧ p.key = cert.key ∧ p.hash = cert.hash

/-- A replica signs one block for each round and proposer, and a certificate that is stored is backed
by `2f + 1` replicas. -/
structure CertInv (c : Config H) (correct : Finset ℕ) (s : Network H) : Prop where
  single : ∀ i, ∀ p ∈ s.signed i, ∀ q ∈ s.signed i, p.header.dagId = q.header.dagId →
    p.key = q.key → p.hash = q.hash
  backed : ∀ i, ∀ cert ∈ s.stored i, ∃ Q ⊆ c.members, c.limitCount ≤ Q.card ∧
    ∀ j ∈ Q, Backs correct s.signed cert j

section Invariant

variable {c : Config H} {correct : Finset ℕ} {s s' : Network H} {i : ℕ}

variable {cert : Certificate H}

omit [LinearOrder H] in
theorem Backs.mono {signed signed' : ℕ → List (Proposal H)} {j : ℕ}
    (h : Backs correct signed cert j) (hle : ∀ j, signed j ⊆ signed' j) :
    Backs correct signed' cert j := by
  intro hj
  obtain ⟨p, hp, hcert⟩ := h hj
  exact ⟨p, hle j hp, hcert⟩

theorem certInv_start (c : Config H) (correct : Finset ℕ) : CertInv c correct (.start : Network H) where
  single := by simp [Network.start]
  backed := by simp [Network.start]

theorem CertInv.congr (h : CertInv c correct s) (hsigned : s'.signed = s.signed)
    (hstored : s'.stored = s.stored) : CertInv c correct s' := by
  refine ⟨?_, ?_⟩
  · rw [hsigned]
    exact h.single
  · rw [hsigned, hstored]
    exact h.backed

theorem CertInv.sign (h : CertInv c correct s) {p : Proposal H}
    (hp : ∀ q ∈ s.signed i, q.header.dagId = p.header.dagId → q.key = p.key → q.hash = p.hash)
    (hsigned : s'.signed = Function.update s.signed i (s.signed i ++ [p]))
    (hstored : s'.stored = s.stored) : CertInv c correct s' := by
  refine ⟨?_, ?_⟩
  · rw [hsigned]
    intro j q hq q' hq' hdag hkey
    rcases mem_update_append hq with hq | ⟨hj, hq⟩ <;>
      rcases mem_update_append hq' with hq' | ⟨hj', hq'⟩
    · exact h.single j q hq q' hq' hdag hkey
    · rw [List.mem_singleton.1 hq'] at hdag hkey ⊢
      exact hp q (hj' ▸ hq) hdag hkey
    · rw [List.mem_singleton.1 hq] at hdag hkey ⊢
      exact (hp q' (hj ▸ hq') hdag.symm hkey.symm).symm
    · rw [List.mem_singleton.1 hq, List.mem_singleton.1 hq']
  · rw [hsigned, hstored]
    intro j cert hcert
    obtain ⟨Q, hQ, hcard, hback⟩ := h.backed j cert hcert
    exact ⟨Q, hQ, hcard, fun k hk => (hback k hk).mono (subset_update_append _ _ _)⟩

theorem CertInv.store (h : CertInv c correct s)
    (hcert : ∃ Q ⊆ c.members, c.limitCount ≤ Q.card ∧ ∀ j ∈ Q, Backs correct s.signed cert j)
    (hsigned : s'.signed = s.signed)
    (hstored : s'.stored = Function.update s.stored i (s.stored i ++ [cert])) :
    CertInv c correct s' := by
  refine ⟨?_, ?_⟩
  · rw [hsigned]
    exact h.single
  · rw [hsigned, hstored]
    intro j cert' hcert'
    rcases mem_update_append hcert' with hcert' | ⟨-, hcert'⟩
    · exact h.backed j cert' hcert'
    · rw [List.mem_singleton.1 hcert']
      exact hcert

theorem backed_of_checked (hverify : Replica.verifyCert c cert = true)
    (hforge : ∀ md ∈ cert.metadata, c.verifyMessage md.hash md.sign = true →
      md.sign.nodeId ∈ correct → ∃ p ∈ s.signed md.sign.nodeId, p.hash = md.hash)
    (hcard : c.limitCount ≤ (c.members ∩ cert.signers).card)
    (hhash : ∀ j ∈ correct, ∀ q ∈ s.signed j, q.hash = cert.hash →
      q.header.dagId = cert.dagId ∧ q.key = cert.key) :
    ∃ Q ⊆ c.members, c.limitCount ≤ Q.card ∧ ∀ j ∈ Q, Backs correct s.signed cert j := by
  refine ⟨c.members ∩ cert.signers, Finset.inter_subset_left, hcard, ?_⟩
  intro j hj hcorrect
  have hsigner := Finset.mem_of_mem_inter_right hj
  simp only [Certificate.signers, List.mem_toFinset, List.mem_map, List.mem_filter,
    decide_eq_true_eq] at hsigner
  obtain ⟨md, ⟨hmd, hmdhash⟩, rfl⟩ := hsigner
  have hvalid : c.verifyMessage md.hash md.sign = true :=
    List.all_eq_true.1 (Bool.and_eq_true_iff.1 hverify).1 md hmd
  obtain ⟨p, hp, hphash⟩ := hforge md hmd hvalid hcorrect
  obtain ⟨hdag, hkey⟩ := hhash _ hcorrect p hp (hphash.trans hmdhash)
  exact ⟨p, hp, hdag, hkey, hphash.trans hmdhash⟩

theorem CertInv.step (h : CertInv c correct s) {a : Action H} (hforge : Unforgeable c correct s a)
    (hok : Checked c correct s a) (hs : Network.step c correct s a = some s') :
    CertInv c correct s' := by
  rcases Network.step_records hs with ⟨hsigned, hstored⟩ | ⟨t, i, p, ht, hdag, hsigned, hstored⟩ |
    ⟨t, i, cert, ht, hverify, hsigned, hstored⟩
  · exact h.congr hsigned hstored
  · exact h.sign (hok _ ht hdag) hsigned hstored
  · exact h.store (backed_of_checked hverify (hforge _ ht) (hok _ ht).1 (hok _ ht).2) hsigned hstored

end Invariant

/-- In every run of `3f + 1` replicas, at most `f` of them Byzantine, all of whose steps pass the
checks. -/
theorem nonEquivocation_of_checked {c : Config H} {correct : Finset ℕ} {s : Network H}
    (hn : c.totalNum = 3 * c.f + 1)
    (hf : (c.members \ correct).card ≤ c.f)
    (hs : (system c correct).Reachable
      (fun s a => Unforgeable c correct s a ∧ Checked c correct s a) s) :
    NonEquivocation correct s := by
  have hinv : CertInv c correct s := by
    refine hs.invariant (fun s hs => ?_) fun s a s' h hok hstep => h.step hok.1 hok.2 hstep
    rw [hs]
    exact certInv_start c correct
  intro i _ j _ a ha b hb hdag hkey
  obtain ⟨A, hA, hAcard, hAback⟩ := hinv.backed i a ha
  obtain ⟨B, hB, hBcard, hBback⟩ := hinv.backed j b hb
  have hmembers : c.members.card = 3 * c.f + 1 := by rw [Config.members, Nat.card_Icc, hn]; omega
  have hquorum : c.members.card + (c.members \ correct).card < A.card + B.card := by
    unfold Config.limitCount at hAcard hBcard
    omega
  obtain ⟨v, hvA, hvB, hv⟩ := exists_common_of_card hA hB hquorum
  have hvcorrect : v ∈ correct := by
    by_contra hne
    exact hv (Finset.mem_sdiff.2 ⟨hA hvA, hne⟩)
  obtain ⟨p, hp, hpdag, hpkey, hphash⟩ := hAback v hvA hvcorrect
  obtain ⟨q, hq, hqdag, hqkey, hqhash⟩ := hBback v hvB hvcorrect
  rw [← hphash, ← hqhash]
  exact hinv.single v p hp q hq (by rw [hpdag, hqdag, hdag]) (by rw [hpkey, hqkey, hkey])

/-! ### A proposer that sends two blocks -/

/-- Four replicas.  Hashes are numbers, and a signature is the number that was signed. -/
def sampleConfig : Config ℕ where
  f := 1
  totalNum := 4
  calculateHash := fun txns header => 100 * header.round + 10 * header.proposerId + txns.length
  signMessage := fun i hash => ⟨i, hash⟩
  verifyMessage := fun hash sign => decide (sign.signature = hash)

/-- A block of the fourth replica in the first round, with `hash` transactions. -/
def sampleBlock (hash : ℕ) : Proposal ℕ where
  header := ⟨4, 0, 0, [], [], 0, 0⟩
  transactions := List.replicate hash ⟨0, [], [], 0, 0, 0, 0, [], 0, false⟩
  sender := 4
  hash := hash
  stop := false

/-- The acknowledgement of the block by a replica. -/
def sampleAck (hash i : ℕ) : Metadata ℕ := (Replica.start i).acknowledge sampleConfig (sampleBlock hash)

/-- The certificate that the fourth replica makes of the acknowledgements of the others. -/
def sampleCert (hash : ℕ) : Certificate ℕ where
  round := 0
  proposer := 4
  hash := hash
  dagId := 0
  shardFlag := 0
  metadata := [1, 2, 3].map (sampleAck hash)
  strongCert := []

/-- The block is sent to the three others, which add and acknowledge it. -/
def spreadBlock (hash : ℕ) : List (Action ℕ) :=
  [1, 2, 3].flatMap fun i =>
    [.inject i (.newBlock (sampleBlock hash)), .work i (.addBlock 0)]

/-- The state after the actions, with the fourth replica Byzantine. -/
def afterActions (actions : List (Action ℕ)) : Network ℕ :=
  ((system sampleConfig {1, 2, 3}).run .start actions).getD .start

/-- A block whose certificate is stored by two replicas. -/
def honestActions : List (Action ℕ) :=
  spreadBlock 1 ++ [.inject 1 (.cert (sampleCert 1)), .inject 2 (.cert (sampleCert 1))]

theorem nonEquivocation_of_checked_oneBlock :
    (afterActions honestActions).stored 1 = [sampleCert 1] ∧
      (afterActions honestActions).stored 2 = [sampleCert 1] ∧
      NonEquivocation {1, 2, 3} (afterActions honestActions) := by
  refine ⟨by decide +kernel, by decide +kernel, ?_⟩
  refine nonEquivocation_of_checked (c := sampleConfig) rfl (by decide) ?_
  refine TransitionSystem.Reachable.run honestActions (.init rfl) (by decide +kernel) ?_
  rfl

/-- The fourth replica sends two blocks for the first round. -/
def equivocation : List (Action ℕ) :=
  spreadBlock 1 ++ spreadBlock 2 ++
    [.inject 1 (.cert (sampleCert 1)), .inject 2 (.cert (sampleCert 2))]

/-- The three others sign both blocks, and both certificates are stored. -/
theorem nonEquivocation_fails :
    ∃ s, (system sampleConfig {1, 2, 3}).Reachable (Unforgeable sampleConfig {1, 2, 3}) s ∧
      ¬ NonEquivocation {1, 2, 3} s := by
  refine ⟨afterActions equivocation, ?_, ?_⟩
  · refine TransitionSystem.Reachable.run equivocation (.init rfl) (by decide +kernel) ?_
    rfl
  · intro h
    exact absurd (h 1 (by decide) 2 (by decide) (sampleCert 1) (by decide +kernel) (sampleCert 2)
      (by decide +kernel) rfl rfl) (by decide)

end Thunderbolt
