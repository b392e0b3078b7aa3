/-
**What a Thunderbolt certificate proves.**

A replica that accepts a certificate takes it for the word of `2f + 1` replicas that they have
acknowledged the block.  `VerifyCert` checks the signatures, but it counts the entries of the list that
the sender has put together: one signature that stands there `2f + 1` times is enough
(`Thunderbolt.certificates_sound_fails`), and the hash that is counted need not be the certificate's.
An acknowledgement signs the hash alone, `ReceiveBlock` does not check that the hash is that of the block
(the call of `VerifyHash` is commented out), and nothing ties the round, the proposer and the graph of
the certificate to it.

Main definitions:

* `Thunderbolt.Sound` — what a certificate is taken for;
* `Thunderbolt.Bound` — the checks that are missing.

Main results:

* `Thunderbolt.Certificate.sound` — a certificate that is received;
* `Thunderbolt.certificates_sound` — every certificate that is received or stored.
-/

import ResilientDb.ThunderboltCertificates

set_option autoImplicit false

namespace Thunderbolt

variable {H : Type} [LinearOrder H]

/-- `2f + 1` replicas have validly signed the hash of the certificate, and the correct ones among them
for a block of its graph, round and proposer. -/
def Sound (c : Config H) (correct : Finset ℕ) (signed : ℕ → List (Proposal H))
    (cert : Certificate H) : Prop :=
  ∃ Q ⊆ c.members, c.limitCount ≤ Q.card ∧ ∀ j ∈ Q, Backs correct signed cert j ∧
    ∃ md ∈ cert.metadata, md.sign.nodeId = j ∧ md.hash = cert.hash ∧
      c.verifyMessage md.hash md.sign = true

/-- `VerifyHash`. -/
def verifyHash (c : Config H) (p : Proposal H) : Bool :=
  decide (c.calculateHash p.transactions p.header = p.hash)

/-- Blocks with one hash are of one graph, round and proposer. -/
def CollisionFree (c : Config H) : Prop :=
  ∀ p q : Proposal H, c.calculateHash p.transactions p.header = c.calculateHash q.transactions q.header →
    p.header.dagId = q.header.dagId ∧ p.key = q.key

/-- The block has the hash, the graph, the round and the proposer of the certificate. -/
def Certificate.Fits (cert : Certificate H) (p : Proposal H) : Prop :=
  p.hash = cert.hash ∧ p.header.dagId = cert.dagId ∧ p.key = cert.key

instance (cert : Certificate H) (p : Proposal H) : Decidable (cert.Fits p) :=
  inferInstanceAs (Decidable (_ ∧ _))

/-- What a replica does not check: a block that it signs has its own hash; the acknowledgements of a
certificate are of its hash and by different replicas, and some correct replica has signed a block that
fits the certificate. -/
def Bound (c : Config H) (correct : Finset ℕ) (s : Network H) (a : Action H) : Prop :=
  ∀ e ∈ s.take c correct a,
    match e.2.2 with
    | .newBlock p => p.header.dagId ≤ (e.1.replicas e.2.1).dagId → verifyHash c p = true
    | .cert cert => (∀ md ∈ cert.metadata, md.hash = cert.hash ∧ md.sign.nodeId ∈ c.members) ∧
        (cert.metadata.map fun md => md.sign.nodeId).Nodup ∧
        ∃ j ∈ correct, ∃ p ∈ s.signed j, cert.Fits p
    | _ => True

instance (c : Config H) (correct : Finset ℕ) (s : Network H) (a : Action H) :
    Decidable (Bound c correct s a) := by
  refine @Option.decidableForallMem _ _ (fun e => ?_) _
  rcases e with ⟨_, _, _ | _ | _⟩ <;> dsimp only <;> infer_instance

variable {c : Config H} {correct : Finset ℕ} {s s' : Network H} {cert : Certificate H}

omit [LinearOrder H] in
theorem Sound.mono {signed signed' : ℕ → List (Proposal H)} (h : Sound c correct signed cert)
    (hle : ∀ j, signed j ⊆ signed' j) : Sound c correct signed' cert := by
  obtain ⟨Q, hQ, hcard, hall⟩ := h
  exact ⟨Q, hQ, hcard, fun j hj => ⟨(hall j hj).1.mono hle, (hall j hj).2⟩⟩

/-- The number of entries that `VerifyCert` asks for. -/
theorem limitCount_le_of_verifyCert (hverify : Replica.verifyCert c cert = true) :
    c.limitCount ≤ cert.metadata.length := by
  obtain ⟨md, -, hcount⟩ := List.any_eq_true.1 (Bool.and_eq_true_iff.1 hverify).2
  have hle := List.count_le_length (a := md.hash) (l := cert.metadata.map (·.hash))
  rw [List.length_map] at hle
  exact (of_decide_eq_true hcount).trans hle

theorem Certificate.sound (hfree : CollisionFree c) {signed : ℕ → List (Proposal H)}
    (hhashed : ∀ j, ∀ p ∈ signed j, verifyHash c p = true)
    (hverify : Replica.verifyCert c cert = true)
    (hforge : ∀ md ∈ cert.metadata, c.verifyMessage md.hash md.sign = true →
      md.sign.nodeId ∈ correct → ∃ p ∈ signed md.sign.nodeId, p.hash = md.hash)
    (hmd : ∀ md ∈ cert.metadata, md.hash = cert.hash ∧ md.sign.nodeId ∈ c.members)
    (hnodup : (cert.metadata.map fun md => md.sign.nodeId).Nodup)
    (hfits : ∃ j ∈ correct, ∃ p ∈ signed j, cert.Fits p) : Sound c correct signed cert := by
  obtain ⟨i, -, q, hq, hqhash, hqdag, hqkey⟩ := hfits
  refine ⟨(cert.metadata.map fun md => md.sign.nodeId).toFinset, ?_, ?_, ?_⟩
  · intro j hj
    obtain ⟨md, hmem, rfl⟩ := List.mem_map.1 (List.mem_toFinset.1 hj)
    exact (hmd md hmem).2
  · rw [List.toFinset_card_of_nodup hnodup, List.length_map]
    exact limitCount_le_of_verifyCert hverify
  · intro j hj
    obtain ⟨md, hmem, rfl⟩ := List.mem_map.1 (List.mem_toFinset.1 hj)
    have hvalid : c.verifyMessage md.hash md.sign = true :=
      List.all_eq_true.1 (Bool.and_eq_true_iff.1 hverify).1 md hmem
    refine ⟨fun hcorrect => ?_, md, hmem, rfl, (hmd md hmem).1, hvalid⟩
    obtain ⟨p, hp, hhash⟩ := hforge md hmem hvalid hcorrect
    rw [(hmd md hmem).1] at hhash
    -- both blocks have the hash of the certificate, so they are of one graph, round and proposer
    obtain ⟨hdag, hkey⟩ := hfree p q (by
      rw [of_decide_eq_true (hhashed _ p hp), of_decide_eq_true (hhashed _ q hq), hhash, hqhash])
    exact ⟨p, hp, hdag.trans hqdag, hkey.trans hqkey, hhash⟩

/-- Blocks are signed under their own hash, and the stored certificates are sound. -/
structure SoundInv (c : Config H) (correct : Finset ℕ) (s : Network H) : Prop where
  hashed : ∀ j, ∀ p ∈ s.signed j, verifyHash c p = true
  stored : ∀ i, ∀ cert ∈ s.stored i, Sound c correct s.signed cert

theorem SoundInv.received (h : SoundInv c correct s) (hfree : CollisionFree c) {a : Action H}
    (hforge : Unforgeable c correct s a) (hok : Bound c correct s a) {t : Network H} {i : ℕ}
    (ht : s.take c correct a = some (t, i, .cert cert)) (hverify : Replica.verifyCert c cert = true) :
    Sound c correct s.signed cert := by
  obtain ⟨hmd, hnodup, hfits⟩ := hok _ ht
  exact Certificate.sound hfree h.hashed hverify (hforge _ ht) hmd hnodup hfits

theorem SoundInv.step (h : SoundInv c correct s) (hfree : CollisionFree c) {a : Action H}
    (hforge : Unforgeable c correct s a) (hok : Bound c correct s a)
    (hs : Network.step c correct s a = some s') : SoundInv c correct s' := by
  rcases Network.step_records hs with ⟨hsigned, hstored⟩ | ⟨t, i, p, ht, hdag, hsigned, hstored⟩ |
    ⟨t, i, cert, ht, hverify, hsigned, hstored⟩
  · exact ⟨by rw [hsigned]; exact h.hashed, by rw [hsigned, hstored]; exact h.stored⟩
  · refine ⟨?_, ?_⟩
    · rw [hsigned]
      intro j q hq
      rcases mem_update_append hq with hq | ⟨-, hq⟩
      · exact h.hashed j q hq
      · rw [List.mem_singleton.1 hq]
        exact hok _ ht hdag
    · rw [hsigned, hstored]
      exact fun j cert hcert => (h.stored j cert hcert).mono (subset_update_append _ _ _)
  · refine ⟨by rw [hsigned]; exact h.hashed, ?_⟩
    rw [hsigned, hstored]
    intro j cert' hcert'
    rcases mem_update_append hcert' with hcert' | ⟨-, hcert'⟩
    · exact h.stored j cert' hcert'
    · rw [List.mem_singleton.1 hcert']
      exact h.received hfree hforge hok ht hverify

/-- In every run whose steps pass the checks, the certificates that are stored are sound, and so is
every one that verifies when it is received. -/
theorem certificates_sound {c : Config H} {correct : Finset ℕ} {s : Network H}
    (hfree : CollisionFree c) (hs : (system c correct).Reachable
      (fun s a => Unforgeable c correct s a ∧ Bound c correct s a) s) :
    (∀ i, ∀ cert ∈ s.stored i, Sound c correct s.signed cert) ∧
      ∀ a, Unforgeable c correct s a → Bound c correct s a → ∀ t i cert,
        s.take c correct a = some (t, i, .cert cert) → Replica.verifyCert c cert = true →
          Sound c correct s.signed cert := by
  have hinv : SoundInv c correct s := by
    refine hs.invariant (fun s hs => ?_) fun s a s' h hok hstep => h.step hfree hok.1 hok.2 hstep
    rw [hs]
    exact ⟨by simp [Network.start], by simp [Network.start]⟩
  exact ⟨hinv.stored, fun a hforge hok t i cert ht hverify => hinv.received hfree hforge hok ht hverify⟩

/-- Four replicas, with a hash that names the graph, the round, the proposer and the number of
transactions. -/
def pairConfig : Config ℕ :=
  { sampleConfig with
    calculateHash := fun txns header =>
      Nat.pair (Nat.pair (Nat.pair header.dagId header.round) header.proposerId) txns.length }

theorem pairConfig_collisionFree : CollisionFree pairConfig := by
  intro p q h
  simp only [pairConfig, Nat.pair_eq_pair] at h
  exact ⟨h.1.1.1, Prod.ext h.1.1.2 h.1.2⟩

/-- A block of the fourth replica under its own hash is sent to the three others, and then its
certificate. -/
def certifiedActions : List (Action ℕ) :=
  ([1, 2, 3].map fun i => .inject i (.newBlock { sampleBlock 1 with hash := 273 })) ++
    [.inject 1 (.cert (sampleCert 273))]

theorem certificates_sound_certified :
    ∃ s, (system pairConfig {1, 2, 3}).run .start certifiedActions = some s ∧
      s.stored 1 = [sampleCert 273] ∧ Sound pairConfig {1, 2, 3} s.signed (sampleCert 273) := by
  obtain ⟨s, hs, hreach, hstored⟩ := (system pairConfig {1, 2, 3}).exists_run
    (C := fun s a => Unforgeable pairConfig {1, 2, 3} s a ∧ Bound pairConfig {1, 2, 3} s a)
    (P := fun s => s.stored 1 = [sampleCert 273]) certifiedActions rfl (by decide +kernel)
    (by decide +kernel)
  refine ⟨s, hs, hstored, (certificates_sound pairConfig_collisionFree hreach).1 1 _ ?_⟩
  rw [hstored]
  exact List.mem_singleton.2 rfl

/-- The acknowledgement of one replica, three times. -/
def repeatedCert : Certificate ℕ := { sampleCert 1 with metadata := List.replicate 3 (sampleAck 1 1) }

/-- It is stored. -/
theorem certificates_sound_fails :
    ∃ s, (system sampleConfig {1, 2, 3}).Reachable (Unforgeable sampleConfig {1, 2, 3}) s ∧
      s.stored 2 = [repeatedCert] ∧ ¬ Sound sampleConfig {1, 2, 3} s.signed repeatedCert := by
  obtain ⟨s, hreach, hstored⟩ := (system sampleConfig {1, 2, 3}).exists_reachable
    (C := Unforgeable sampleConfig {1, 2, 3}) (P := fun s => s.stored 2 = [repeatedCert])
    [.inject 1 (.newBlock (sampleBlock 1)), .inject 2 (.cert repeatedCert)] rfl (by decide +kernel)
    (by decide +kernel)
  refine ⟨s, hreach, hstored, ?_⟩
  rintro ⟨Q, -, hcard, hall⟩
  have hQ : Q ⊆ {1} := by
    intro j hj
    obtain ⟨-, md, hmd, rfl, -⟩ := hall j hj
    rw [List.eq_of_mem_replicate hmd]
    exact Finset.mem_singleton.2 rfl
  exact absurd (hcard.trans (Finset.card_le_card hQ)) (by decide)

end Thunderbolt
