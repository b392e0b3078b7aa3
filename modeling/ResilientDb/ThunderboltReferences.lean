/-
**The reference count of Thunderbolt blocks.**

A leader block is committed when `GetReferenceNum` says that `2f + 1` blocks of the next round link to
it.  `AddCert` adds one for each strong link of each certificate that `ReceiveBlockCert` accepts, so the
number is that of the links that were received, not of the proposers: a certificate that arrives twice
counts twice (`Thunderbolt.references_count_fails`), and so does a link that stands twice in a
certificate or in one of another round.

Main results:

* `Thunderbolt.countReferences_apply` — what one certificate adds;
* `Thunderbolt.countsProposers_receive` — what one call keeps;
* `Thunderbolt.references_count_proposers` — the law, for certificates that are received once.
-/

import ResilientDb.ThunderboltCertificates

set_option autoImplicit false

namespace Thunderbolt

open ProposalManager (countReferences)

variable {H : Type} [LinearOrder H]

/-- A replica and the certificates of its graph that it has accepted.  Nothing but `AddCert` changes
the counts while the graph lasts. -/
structure Collector (H : Type) [LinearOrder H] where
  replica : Replica H
  accepted : List (Certificate H)

/-- A call of `ReceiveBlockCert`. -/
def Collector.receive (c : Config H) (s : Collector H) (cert : Certificate H) : Option (Collector H) :=
  (s.replica.receiveBlockCert c cert).map fun e =>
    ⟨e.1, if e.2 then s.accepted ++ [cert] else s.accepted⟩

/-- The calls in one graph. -/
def collection (c : Config H) : TransitionSystem (Collector H) (Certificate H) where
  init s := (∀ k, s.replica.manager.reference k = 0) ∧ s.accepted = []
  step := Collector.receive c

/-- The strong links of the certificate name the block. -/
def Certificate.Names (cert : Certificate H) (k : ℕ × ℕ) : Prop :=
  cert.round = k.1 + 1 ∧ k ∈ cert.strongCert.map Link.key

instance (cert : Certificate H) : DecidablePred cert.Names :=
  fun _ => inferInstanceAs (Decidable (_ ∧ _))

/-- The proposers of the next round with an accepted certificate that names the block. -/
def referrers (accepted : List (Certificate H)) (k : ℕ × ℕ) : Finset ℕ :=
  ((accepted.filter fun cert => cert.Names k).map fun cert => cert.proposer).toFinset

/-- `GetReferenceNum` counts proposers. -/
def CountsProposers (s : Collector H) : Prop :=
  ∀ p : Proposal H, s.replica.manager.getReferenceNum p = (referrers s.accepted p.key).card

/-- The condition on a certificate that is accepted: it is the first of its round and proposer, and its
strong links name different blocks of the round before. -/
def FirstReceived (s : Collector H) (cert : Certificate H) : Prop :=
  cert.dagId = s.replica.dagId →
    (∀ a ∈ s.accepted, a.round = cert.round → a.proposer ≠ cert.proposer) ∧
      (cert.strongCert.map Link.key).Nodup ∧ ∀ link ∈ cert.strongCert, cert.round = link.round + 1

instance (s : Collector H) (cert : Certificate H) : Decidable (FirstReceived s cert) :=
  inferInstanceAs (Decidable (_ → _))

omit [LinearOrder H] in
theorem countReferences_apply (strong : List (Link H)) (reference : ℕ × ℕ → ℕ) (k : ℕ × ℕ) :
    countReferences reference strong k = reference k + (strong.map Link.key).count k := by
  induction strong generalizing reference with
  | nil => rfl
  | cons link strong ih =>
      rw [countReferences, List.foldl_cons, ← countReferences, ih]
      by_cases hk : k = link.key
      · subst hk
        simp
        omega
      · simp [hk, Ne.symm hk]

omit [LinearOrder H] in
theorem referrers_append (accepted : List (Certificate H)) (cert : Certificate H) (k : ℕ × ℕ) :
    referrers (accepted ++ [cert]) k =
      if cert.Names k then insert cert.proposer (referrers accepted k) else referrers accepted k := by
  by_cases hk : cert.Names k
  · simp [referrers, hk]
  · simp [referrers, hk]

omit [LinearOrder H] in
theorem not_mem_referrers {accepted : List (Certificate H)} {cert : Certificate H} {k : ℕ × ℕ}
    (hfirst : ∀ a ∈ accepted, a.round = cert.round → a.proposer ≠ cert.proposer)
    (hk : cert.Names k) : cert.proposer ∉ referrers accepted k := by
  intro h
  simp only [referrers, List.mem_toFinset, List.mem_map, List.mem_filter, decide_eq_true_eq] at h
  obtain ⟨a, ⟨ha, hak⟩, hproposer⟩ := h
  exact hfirst a ha (hak.1.trans hk.1.symm) hproposer

variable {c : Config H} {s s' : Collector H} {cert : Certificate H}

/-- What a call does: nothing to the counts, or it adds the links of the certificate. -/
theorem Collector.receive_cases (h : s.receive c cert = some s') :
    (s'.replica.manager.reference = s.replica.manager.reference ∧ s'.accepted = s.accepted) ∨
      (cert.dagId = s.replica.dagId ∧ s'.replica.manager.reference =
          countReferences s.replica.manager.reference cert.strongCert ∧
        s'.accepted = s.accepted ++ [cert]) := by
  obtain ⟨⟨r, added⟩, hr, rfl⟩ := Option.map_eq_some_iff.1 h
  obtain ⟨_, -, hr⟩ := Option.bind_eq_some_iff.1 hr
  split_ifs at hr
  · cases hr
    exact .inl ⟨rfl, rfl⟩
  · cases hr
    exact .inl ⟨rfl, rfl⟩
  · obtain ⟨m, hm, hr⟩ := Option.bind_eq_some_iff.1 hr
    cases hr
    obtain ⟨_, hdag, hm⟩ := Option.bind_eq_some_iff.1 hm
    cases hm
    exact .inr ⟨(Option.guard_eq_some' _).1 hdag, rfl, rfl⟩

theorem countsProposers_receive
    (hs : ∀ k, s.replica.manager.reference k = (referrers s.accepted k).card)
    (hok : FirstReceived s cert) (h : s.receive c cert = some s') (k : ℕ × ℕ) :
    s'.replica.manager.reference k = (referrers s'.accepted k).card := by
  rcases Collector.receive_cases h with ⟨hreference, haccepted⟩ | ⟨hdag, hreference, haccepted⟩
  · rw [hreference, haccepted, hs]
  obtain ⟨hfirst, hnodup, hround⟩ := hok hdag
  rw [hreference, haccepted, countReferences_apply, referrers_append, hs]
  by_cases hk : k ∈ cert.strongCert.map Link.key
  · have hnames : cert.Names k := by
      obtain ⟨link, hlink, rfl⟩ := List.mem_map.1 hk
      exact ⟨hround link hlink, hk⟩
    rw [if_pos hnames, Finset.card_insert_of_notMem (not_mem_referrers hfirst hnames),
      List.count_eq_one_of_mem hnodup hk]
  · rw [if_neg fun hnames => hk hnames.2, List.count_eq_zero.2 hk, Nat.add_zero]

theorem references_count_proposers {c : Config H} {s : Collector H}
    (hs : (collection c).Reachable FirstReceived s) : CountsProposers s := by
  have hinv : ∀ k, s.replica.manager.reference k = (referrers s.accepted k).card := by
    refine hs.invariant (I := fun s => ∀ k, s.replica.manager.reference k =
      (referrers s.accepted k).card) ?_ fun s cert s' h hok hstep => countsProposers_receive h hok hstep
    rintro s ⟨hzero, hnone⟩ k
    rw [hzero, hnone]
    rfl
  exact fun p => hinv p.key

/-- The certificate of a block of the second round that links to `sampleBlock 1`. -/
def referringCert (proposer : ℕ) : Certificate ℕ :=
  { sampleCert 1 with round := 1, proposer := proposer, strongCert := [(sampleCert 1).toLink] }

/-- The calls on a replica that has just started. -/
def afterCerts (certs : List (Certificate ℕ)) : Option (Collector ℕ) :=
  (collection sampleConfig).run ⟨.start 1, []⟩ certs

theorem references_count_proposers_two :
    ∃ s, afterCerts [referringCert 2, referringCert 3] = some s ∧
      s.replica.manager.getReferenceNum (sampleBlock 1) = 2 ∧ CountsProposers s := by
  refine ⟨_, rfl, by decide +kernel, references_count_proposers (c := sampleConfig) ?_⟩
  exact TransitionSystem.Reachable.run [referringCert 2, referringCert 3]
    (.init (s := ⟨.start 1, []⟩) ⟨fun _ => rfl, rfl⟩) (by decide +kernel) rfl

/-- A certificate that arrives three times makes a quorum of one proposer. -/
theorem references_count_fails :
    ∃ s, afterCerts [referringCert 2, referringCert 2, referringCert 2] = some s ∧
      s.replica.manager.getReferenceNum (sampleBlock 1) = sampleConfig.limitCount ∧
        referrers s.accepted (sampleBlock 1).key = {2} ∧ ¬ CountsProposers s := by
  refine ⟨_, rfl, by decide +kernel, by decide +kernel, fun h => ?_⟩
  exact absurd (h (sampleBlock 1)) (by decide +kernel)

end Thunderbolt
