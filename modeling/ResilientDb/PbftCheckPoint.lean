/-
**Stable checkpoints.**

The model of `CheckPointManager` as far as CHECKPOINT messages go.  A replica that has executed up to a
multiple of the water mark broadcasts the number and the hash of its history, with a signature over the
hash.  The receivers keep, for every pair of number and hash, the senders and the signatures, and a
thread publishes the latest pair with a quorum of senders, together with the signatures.

The thread takes the lock twice: once to find the pair and once to publish it.  Messages may come in
between, so these are two steps.

What a node has signed is kept as a history, with the number that it was signed for;
`VerifyMessage` accepts a signature if the node has signed the hash, for whatever number.

Main definitions:

* `Pbft.CheckPointData`, `Pbft.CheckPointManager`, `Pbft.CheckPointManager.processCheckPoint`;
* `Pbft.CheckPoints`, `Pbft.checkPointSystem` — a manager, what was signed and what was published;
* `Pbft.CheckPoints.Certificates` — published numbers grow, and each has a quorum of signatures;
* `Pbft.BoundHashes` — the condition: a signature is the sender's, and a hash belongs to one number.

Main results:

* `Pbft.stable_checkpoint_certificate` — under the condition, what is published is certified.
-/

import ResilientDb.PbftCertificate
import ResilientDb.PbftViewChange

set_option autoImplicit false

namespace Pbft

open OrderedMap (find?_set)
open StableCheckPoint (seq)

/-! ### The manager -/

/-- `CheckPointData`. -/
structure CheckPointData where
  seq : ℕ
  hash : String
  hashSignature : SignatureInfo
deriving DecidableEq

/-- `CheckPointManager`.  `found` is what the thread has found when it is between its two locks. -/
structure CheckPointManager where
  senderCkpt : OrderedMap (ℕ ×ₗ String) (Finset ℕ) := .empty
  signCkpt : OrderedMap (ℕ ×ₗ String) (List SignatureInfo) := .empty
  newData : ℕ := 0
  found : Option (ℕ ×ₗ String) := none
  currentStableSeq : ℕ := 0
  stableCkpt : StableCheckPoint := {}

/-- The key of a checkpoint in the two maps. -/
def ckptKey (seq : ℕ) (hash : String) : ℕ ×ₗ String := toLex (seq, hash)

/-- The sequence number of a key. -/
def keySeq (key : ℕ ×ₗ String) : ℕ := (ofLex key).1

/-- The hash of a key. -/
def keyHash (key : ℕ ×ₗ String) : String := (ofLex key).2

namespace CheckPointManager

/-- `ProcessCheckPoint`.  A water mark of 0 would be divided by. -/
def processCheckPoint (waterMark : ℕ) (verifyMessage : String → SignatureInfo → Bool)
    (m : CheckPointManager) (sender : ℕ) (data : CheckPointData) : Option CheckPointManager :=
  if waterMark = 0 then none
  else if data.seq % waterMark ≠ 0 then some m
  else if verifyMessage data.hash data.hashSignature = false then some m
  else
    let key := ckptKey data.seq data.hash
    let senders := (m.senderCkpt.find? key).getD ∅
    if sender ∈ senders then some m
    else
      some { m with
        senderCkpt := m.senderCkpt.set key (insert sender senders)
        signCkpt := m.signCkpt.set key ((m.signCkpt.find? key).getD [] ++ [data.hashSignature])
        newData := m.newData + 1 }

/-- The last entry of `sender_ckpt_` with a quorum of senders. -/
def lastQuorum (cfg : Config) (m : CheckPointManager) : Option (ℕ ×ₗ String) :=
  m.senderCkpt.entries.foldl
    (fun key e => if cfg.minDataReceiveNum ≤ e.2.card then some e.1 else key) none

/-- The first half of `UpdateStableCheckPointStatus`.  Number 0 means that nothing was found. -/
def findStable (cfg : Config) (m : CheckPointManager) : Option CheckPointManager :=
  if m.newData = 0 ∨ m.found.isSome then none
  else
    some { m with
      newData := 0
      found := (m.lastQuorum cfg).filter fun key => keySeq key ≠ 0 }

/-- The second half.  Every key that is erased has to be in `sign_ckpt_` too. -/
def publishStable (m : CheckPointManager) : Option CheckPointManager := do
  let key ← m.found
  if m.currentStableSeq < keySeq key then
    guard (∀ k ∈ m.senderCkpt.keys, keySeq k ≤ keySeq key → (m.signCkpt.find? k).isSome)
    some { m with
      senderCkpt := m.senderCkpt.filterMap fun k senders =>
        if keySeq k ≤ keySeq key then none else some senders
      signCkpt := m.signCkpt.filterMap fun k signatures =>
        if keySeq k ≤ keySeq key ∧ (m.senderCkpt.find? k).isSome then none else some signatures
      found := none
      currentStableSeq := keySeq key
      stableCkpt := ⟨keySeq key, keyHash key, (m.signCkpt.find? key).getD []⟩ }
  else some { m with found := none }

end CheckPointManager

/-! ### Runs -/

/-- A node has signed the checkpoint with this number and hash. -/
structure Signing where
  node : ℕ
  seq : ℕ
  hash : String
deriving DecidableEq

/-- A manager, what nodes have signed, and what was published, oldest first. -/
structure CheckPoints where
  manager : CheckPointManager
  signed : List Signing
  published : List StableCheckPoint

/-- What can happen. -/
inductive CheckPointAction
  /-- A node signs a checkpoint, as in `BroadcastCheckPoint`. -/
  | sign (signing : Signing)
  /-- A CHECKPOINT message arrives. -/
  | processCheckPoint (sender : ℕ) (data : CheckPointData)
  /-- The two halves of `UpdateStableCheckPointStatus`. -/
  | findStable
  | publishStable

namespace CheckPoints

/-- `VerifyMessage`: the node has signed the hash. -/
def verifyMessage (c : CheckPoints) (hash : String) (signature : SignatureInfo) : Bool :=
  c.signed.any fun s => s.node = signature.nodeId ∧ s.hash = hash

/-- One action. -/
def step (cfg : Config) (waterMark : ℕ) (c : CheckPoints) : CheckPointAction → Option CheckPoints
  | .sign signing => some { c with signed := c.signed ++ [signing] }
  | .processCheckPoint sender data =>
    (c.manager.processCheckPoint waterMark c.verifyMessage sender data).map fun m =>
      { c with manager := m }
  | .findStable => (c.manager.findStable cfg).map fun m => { c with manager := m }
  | .publishStable =>
    c.manager.publishStable.map fun m =>
      { c with
        manager := m
        published :=
          if m.currentStableSeq = c.manager.currentStableSeq then c.published
          else c.published ++ [m.stableCkpt] }

/-- The published checkpoint has the signatures of a quorum of nodes over its number and its hash. -/
def Certifies (cfg : Config) (c : CheckPoints) (ckpt : StableCheckPoint) : Prop :=
  ∃ Q : Finset ℕ, cfg.minDataReceiveNum ≤ Q.card ∧ ∀ j ∈ Q,
    (∃ signature ∈ ckpt.signatures, signature.nodeId = j) ∧ ⟨j, ckpt.seq, ckpt.hash⟩ ∈ c.signed

/-- The numbers of the published checkpoints grow, and each of them is certified. -/
structure Certificates (cfg : Config) (c : CheckPoints) : Prop where
  increasing : (c.published.map seq).Pairwise (· < ·)
  certified : ∀ ckpt ∈ c.published, c.Certifies cfg ckpt

end CheckPoints

/-- The runs of a manager. -/
def checkPointSystem (cfg : Config) (waterMark : ℕ) : TransitionSystem CheckPoints CheckPointAction where
  init c := c = ⟨{}, [], []⟩
  step := CheckPoints.step cfg waterMark

/-- The condition.  The signature in a message is the sender's, and a hash belongs to one number, both
in what is signed and in what is sent. -/
def BoundHashes (seqOf : String → ℕ) (_ : CheckPoints) : CheckPointAction → Prop
  | .sign signing => signing.seq = seqOf signing.hash
  | .processCheckPoint sender data =>
    data.hashSignature.nodeId = sender ∧ data.seq = seqOf data.hash
  | _ => True

instance (seqOf : String → ℕ) (c : CheckPoints) (a : CheckPointAction) :
    Decidable (BoundHashes seqOf c a) := by
  unfold BoundHashes
  split <;> infer_instance

/-! ### The invariant -/

/-- The signatures that are kept for a key are those of its senders, over number and hash. -/
def CheckPoints.Backed (c : CheckPoints) (key : ℕ ×ₗ String) (senders : Finset ℕ) : Prop :=
  ∃ signatures, c.manager.signCkpt.find? key = some signatures ∧ ∀ j ∈ senders,
    (∃ signature ∈ signatures, signature.nodeId = j) ∧ ⟨j, keySeq key, keyHash key⟩ ∈ c.signed

structure CheckPointInv (cfg : Config) (seqOf : String → ℕ) (c : CheckPoints) : Prop where
  signings : ∀ s ∈ c.signed, s.seq = seqOf s.hash
  kept : ∀ key senders, c.manager.senderCkpt.find? key = some senders → c.Backed key senders
  /-- What the thread has found is still there. -/
  found : ∀ key ∈ c.manager.found, ∃ senders, c.manager.senderCkpt.find? key = some senders ∧
    cfg.minDataReceiveNum ≤ senders.card
  latest : ∀ ckpt ∈ c.published, ckpt.seq ≤ c.manager.currentStableSeq
  certificates : c.Certificates cfg

section

variable {cfg : Config} {seqOf : String → ℕ} {waterMark : ℕ} {c c' : CheckPoints}

theorem CheckPoints.Certifies.mono {ckpt : StableCheckPoint} (h : c.Certifies cfg ckpt)
    (hsigned : c.signed ⊆ c'.signed) : c'.Certifies cfg ckpt := by
  obtain ⟨Q, hQ, hall⟩ := h
  exact ⟨Q, hQ, fun j hj => (hall j hj).imp_right fun h => hsigned h⟩

theorem CheckPointInv.sign (h : CheckPointInv cfg seqOf c) {signing : Signing}
    (hseq : signing.seq = seqOf signing.hash) :
    CheckPointInv cfg seqOf { c with signed := c.signed ++ [signing] } := by
  have hsub := List.subset_append_left c.signed [signing]
  refine ⟨?_, ?_, h.found, h.latest, h.certificates.increasing, ?_⟩
  · intro s hs
    rcases List.mem_append.1 hs with hs | hs
    · exact h.signings s hs
    · rw [List.mem_singleton.1 hs]
      exact hseq
  · intro key senders hkey
    obtain ⟨signatures, hsign, hall⟩ := h.kept key senders hkey
    exact ⟨signatures, hsign, fun j hj => (hall j hj).imp_right fun h => hsub h⟩
  · intro ckpt hckpt
    exact (h.certificates.certified ckpt hckpt).mono hsub

/-- A checkpoint is refused, or its sender is counted. -/
theorem processCheckPoint_cases {verifyMessage : String → SignatureInfo → Bool}
    {m m' : CheckPointManager} {sender : ℕ} {data : CheckPointData}
    (h : m.processCheckPoint waterMark verifyMessage sender data = some m') :
    m' = m ∨ (verifyMessage data.hash data.hashSignature = true ∧ m' = { m with
        senderCkpt := m.senderCkpt.set (ckptKey data.seq data.hash)
          (insert sender ((m.senderCkpt.find? (ckptKey data.seq data.hash)).getD ∅))
        signCkpt := m.signCkpt.set (ckptKey data.seq data.hash)
          ((m.signCkpt.find? (ckptKey data.seq data.hash)).getD [] ++ [data.hashSignature])
        newData := m.newData + 1 }) := by
  unfold CheckPointManager.processCheckPoint at h
  split at h
  · cases h
  · split at h
    · exact .inl (Option.some.inj h).symm
    · split at h
      · exact .inl (Option.some.inj h).symm
      · rename_i hverify
        rw [Bool.not_eq_false] at hverify
        dsimp only at h
        split at h
        · exact .inl (Option.some.inj h).symm
        · exact .inr ⟨hverify, (Option.some.inj h).symm⟩

variable {m : CheckPointManager}

theorem CheckPointInv.processCheckPoint (h : CheckPointInv cfg seqOf c) {sender : ℕ}
    {data : CheckPointData} (hsender : data.hashSignature.nodeId = sender)
    (hseq : data.seq = seqOf data.hash)
    (hm : c.manager.processCheckPoint waterMark c.verifyMessage sender data = some m) :
    CheckPointInv cfg seqOf { c with manager := m } := by
  rcases processCheckPoint_cases hm with rfl | ⟨hverify, rfl⟩
  · exact h
  -- the signature is for the number that is sent, as there is no other one for the hash
  have hsigned : ⟨sender, data.seq, data.hash⟩ ∈ c.signed := by
    obtain ⟨s, hs, hcond⟩ := List.any_eq_true.1 hverify
    obtain ⟨hnode, hhash⟩ := of_decide_eq_true hcond
    have hnumber := h.signings s hs
    rw [hhash, ← hseq] at hnumber
    obtain rfl : s = ⟨sender, data.seq, data.hash⟩ := by
      rw [← hsender, ← hnode, ← hnumber, ← hhash]
    exact hs
  set key := ckptKey data.seq data.hash with hkey
  refine ⟨h.signings, ?_, ?_, h.latest, h.certificates.increasing, h.certificates.certified⟩
  · intro key' senders hfind
    simp only [find?_set] at hfind
    split at hfind
    · rename_i heq
      subst heq
      cases hfind
      refine ⟨(c.manager.signCkpt.find? key).getD [] ++ [data.hashSignature], ?_, ?_⟩
      · simp only [find?_set, if_true]
      intro j hj
      rcases Finset.mem_insert.1 hj with rfl | hj
      · exact ⟨⟨data.hashSignature, by simp, hsender⟩, hsigned⟩
      · -- an older sender: its signature is among the older ones
        cases hold : c.manager.senderCkpt.find? key with
        | none => simp [hold] at hj
        | some senders =>
          rw [hold] at hj
          obtain ⟨signatures, hsign, hall⟩ := h.kept key senders hold
          obtain ⟨⟨signature, hmem, hnode⟩, hsig⟩ := hall j hj
          refine ⟨⟨signature, ?_, hnode⟩, hsig⟩
          rw [hsign]
          exact List.mem_append_left _ hmem
    · rename_i hne
      obtain ⟨signatures, hsign, hall⟩ := h.kept key' senders hfind
      refine ⟨signatures, ?_, hall⟩
      simp only [find?_set, if_neg hne]
      exact hsign
  · intro key' hfound
    obtain ⟨senders, hfind, hquorum⟩ := h.found key' hfound
    by_cases hne : key' = key
    · subst hne
      refine ⟨insert sender senders, ?_, ?_⟩
      · simp only [find?_set, if_true, hfind, Option.getD_some]
      · exact hquorum.trans (Finset.card_le_card (Finset.subset_insert _ _))
    · refine ⟨senders, ?_, hquorum⟩
      simp only [find?_set, if_neg hne]
      exact hfind

theorem foldl_lastQuorum (q : ℕ) {key : ℕ ×ₗ String} :
    ∀ (l : List ((ℕ ×ₗ String) × Finset ℕ)) (acc : Option (ℕ ×ₗ String)),
      l.foldl (fun key e => if q ≤ e.2.card then some e.1 else key) acc = some key →
        acc = some key ∨ ∃ senders, (key, senders) ∈ l ∧ q ≤ senders.card := by
  intro l
  induction l with
  | nil =>
    intro acc h
    exact .inl h
  | cons e l ih =>
    intro acc h
    rcases ih _ h with hacc | ⟨senders, hmem, hcard⟩
    · dsimp only at hacc
      split at hacc
      · rename_i hcard
        cases hacc
        exact .inr ⟨e.2, List.mem_cons_self, hcard⟩
      · exact .inl hacc
    · exact .inr ⟨senders, List.mem_cons_of_mem _ hmem, hcard⟩

/-- A quorum of senders makes a checkpoint stable. -/
theorem CheckPointInv.findStable (h : CheckPointInv cfg seqOf c)
    (hm : c.manager.findStable cfg = some m) : CheckPointInv cfg seqOf { c with manager := m } := by
  unfold CheckPointManager.findStable at hm
  split at hm
  · cases hm
  · cases hm
    refine ⟨h.signings, h.kept, ?_, h.latest, h.certificates.increasing, h.certificates.certified⟩
    intro key hkey
    obtain ⟨hlast, -⟩ := Option.filter_eq_some_iff.1 hkey
    rcases foldl_lastQuorum _ _ _ hlast with hnone | ⟨senders, hmem, hcard⟩
    · cases hnone
    · exact ⟨senders, OrderedMap.find?_of_mem hmem, hcard⟩

theorem publishStable_cases {m m' : CheckPointManager} (h : m.publishStable = some m') :
    ∃ key, m.found = some key ∧
      ((m'.senderCkpt = m.senderCkpt ∧ m'.signCkpt = m.signCkpt ∧ m'.found = none ∧
          m'.currentStableSeq = m.currentStableSeq) ∨
        (m.currentStableSeq < keySeq key ∧ m'.found = none ∧ m'.currentStableSeq = keySeq key ∧
          m'.stableCkpt = ⟨keySeq key, keyHash key, (m.signCkpt.find? key).getD []⟩ ∧
          ∀ k senders, m'.senderCkpt.find? k = some senders →
            m.senderCkpt.find? k = some senders ∧ m'.signCkpt.find? k = m.signCkpt.find? k)) := by
  obtain ⟨key, hkey, h⟩ := Option.bind_eq_some_iff.1 h
  refine ⟨key, hkey, ?_⟩
  split at h
  · rename_i hlt
    obtain ⟨-, -, h⟩ := Option.bind_eq_some_iff.1 h
    cases h
    refine .inr ⟨hlt, rfl, rfl, rfl, ?_⟩
    intro k senders hfind
    simp only [OrderedMap.find?_filterMap] at hfind ⊢
    obtain ⟨senders', hold, hif⟩ := Option.bind_eq_some_iff.1 hfind
    split at hif
    · cases hif
    · rename_i hgt
      cases hif
      refine ⟨hold, ?_⟩
      -- a key that stays loses no signatures
      cases m.signCkpt.find? k with
      | none => rfl
      | some signatures => simp [hgt]
  · cases h
    exact .inl ⟨rfl, rfl, rfl, rfl⟩

theorem CheckPointInv.publishStable (h : CheckPointInv cfg seqOf c)
    (hm : c.manager.publishStable = some m) :
    CheckPointInv cfg seqOf { c with
      manager := m
      published :=
        if m.currentStableSeq = c.manager.currentStableSeq then c.published
        else c.published ++ [m.stableCkpt] } := by
  obtain ⟨key, hfound, ⟨hsenders, hsigns, hnone, hseq⟩ | ⟨hlt, hnone, hseq, hstable, hkept⟩⟩ :=
    publishStable_cases hm
  · rw [if_pos hseq]
    refine ⟨h.signings, ?_, by simp [hnone], ?_, h.certificates.increasing,
      h.certificates.certified⟩
    · intro k senders hfind
      rw [hsenders] at hfind
      obtain ⟨signatures, hsign, hall⟩ := h.kept k senders hfind
      refine ⟨signatures, ?_, hall⟩
      rw [hsigns]
      exact hsign
    · rw [hseq]
      exact h.latest
  · rw [if_neg (by rw [hseq]; exact hlt.ne')]
    obtain ⟨senders, hfind, hquorum⟩ := h.found key hfound
    obtain ⟨signatures, hsign, hall⟩ := h.kept key senders hfind
    have hlatest : ∀ ckpt ∈ c.published, ckpt.seq < keySeq key := fun ckpt hckpt =>
      (h.latest ckpt hckpt).trans_lt hlt
    refine ⟨h.signings, ?_, by simp [hnone], ?_, ?_, ?_⟩
    · intro k senders hfind
      obtain ⟨hold, hsame⟩ := hkept k senders hfind
      obtain ⟨signatures, hsign, hall⟩ := h.kept k senders hold
      exact ⟨signatures, hsame.trans hsign, hall⟩
    · intro ckpt hckpt
      rw [hseq]
      rcases List.mem_append.1 hckpt with hckpt | hckpt
      · exact (hlatest ckpt hckpt).le
      · rw [List.mem_singleton.1 hckpt, hstable]
    · -- the new number is above all others
      rw [List.map_append, List.pairwise_append]
      refine ⟨h.certificates.increasing, by simp, ?_⟩
      intro a ha b hb
      obtain ⟨ckpt, hckpt, rfl⟩ := List.mem_map.1 ha
      rw [List.map_singleton, List.mem_singleton] at hb
      rw [hb, hstable]
      exact hlatest ckpt hckpt
    · intro ckpt hckpt
      rcases List.mem_append.1 hckpt with hckpt | hckpt
      · exact h.certificates.certified ckpt hckpt
      · rw [List.mem_singleton.1 hckpt, hstable, hsign]
        exact ⟨senders, hquorum, hall⟩

/-- Every step that meets the condition keeps the certificates. -/
theorem CheckPointInv.step {a : CheckPointAction} (h : CheckPointInv cfg seqOf c)
    (hok : BoundHashes seqOf c a) (hs : c.step cfg waterMark a = some c') :
    CheckPointInv cfg seqOf c' := by
  cases a with
  | sign signing =>
    cases hs
    exact h.sign hok
  | processCheckPoint sender data =>
    obtain ⟨m, hm, rfl⟩ := Option.map_eq_some_iff.1 hs
    exact h.processCheckPoint hok.1 hok.2 hm
  | findStable =>
    obtain ⟨m, hm, rfl⟩ := Option.map_eq_some_iff.1 hs
    exact h.findStable hm
  | publishStable =>
    obtain ⟨m, hm, rfl⟩ := Option.map_eq_some_iff.1 hs
    exact h.publishStable hm

/-- **Stable checkpoint certificate**: under the condition, published numbers grow and every published
checkpoint has the signatures of a quorum over its number and its hash. -/
theorem stable_checkpoint_certificate
    (h : (checkPointSystem cfg waterMark).Reachable (BoundHashes seqOf) c) : c.Certificates cfg := by
  have hinv : CheckPointInv cfg seqOf c := by
    refine h.invariant (I := CheckPointInv cfg seqOf) ?_ ?_
    · rintro c rfl
      exact ⟨by simp, by simp, by simp, by simp, by simp, by simp⟩
    · intro c a c' hinv hok hs
      exact hinv.step hok hs
  exact hinv.certificates

end

/-! ### Two runs of four replicas -/

/-- The CHECKPOINT of a sender, with the signature of a node. -/
def ckptFrom (sender node seq : ℕ) (hash : String) : CheckPointAction :=
  .processCheckPoint sender ⟨seq, hash, ⟨node, ""⟩⟩

/-- Three nodes sign and send checkpoint 5, and it becomes stable. -/
def stableRun : List CheckPointAction :=
  [2, 3, 4].map (fun j => .sign ⟨j, 5, "a"⟩) ++ [2, 3, 4].map (fun j => ckptFrom j j 5 "a") ++
    [.findStable, .publishStable]

/-- The signature of one node over a hash, made for checkpoint 5, is sent by three nodes for
checkpoint 10. -/
def borrowedRun : List CheckPointAction :=
  .sign ⟨2, 5, "a"⟩ :: [2, 3, 4].map (fun j => ckptFrom j 2 10 "a") ++ [.findStable, .publishStable]

theorem stable_checkpoint_certificate_stableRun :
    ∃ c, (checkPointSystem (plainConfig 4 true) 5).run ⟨{}, [], []⟩ stableRun = some c ∧
      c.published.map seq = [5] ∧ c.Certificates (plainConfig 4 true) := by
  obtain ⟨c, hc, hreach, hseq⟩ := (checkPointSystem (plainConfig 4 true) 5).exists_run
    (C := BoundHashes fun _ => 5) (P := fun c => c.published.map seq = [5]) stableRun
    rfl (by decide +kernel) (by decide +kernel)
  exact ⟨c, hc, hseq, stable_checkpoint_certificate hreach⟩

/-- Checkpoint 10 is published with three copies of a signature that was made for checkpoint 5. -/
theorem stable_checkpoint_certificate_fails :
    ∃ c, (checkPointSystem (plainConfig 4 true) 5).Reachable TransitionSystem.always c ∧
      c.published = [⟨10, "a", [⟨2, ""⟩, ⟨2, ""⟩, ⟨2, ""⟩]⟩] ∧ c.signed = [⟨2, 5, "a"⟩] ∧
      ¬ c.Certificates (plainConfig 4 true) := by
  obtain ⟨c, hreach, hpublished, hsigned⟩ :=
    (checkPointSystem (plainConfig 4 true) 5).exists_reachable_always
      (P := fun c => c.published = [⟨10, "a", [⟨2, ""⟩, ⟨2, ""⟩, ⟨2, ""⟩]⟩] ∧
        c.signed = [⟨2, 5, "a"⟩]) borrowedRun rfl (by decide +kernel)
  refine ⟨c, hreach, hpublished, hsigned, ?_⟩
  intro h
  obtain ⟨Q, hQ, hall⟩ := h.certified ⟨10, "a", [⟨2, ""⟩, ⟨2, ""⟩, ⟨2, ""⟩]⟩ (by simp [hpublished])
  -- a quorum has a member, and nobody has signed the number 10
  obtain ⟨j, hj⟩ := Finset.card_pos.1 (lt_of_lt_of_le (by decide : 0 < 3) hQ)
  have hmem := (hall j hj).2
  rw [hsigned] at hmem
  simp at hmem

end Pbft
