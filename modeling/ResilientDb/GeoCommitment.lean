/-
**Admission of requests from other regions.**

`GeoPBFTCommitment::GeoProcessCcm` receives the requests that the regions have committed, each with
the certificate of its region.  It filters duplicates (`AddNewReq`), checks the certificate
(`VerifyCerts`), passes a request of another region on to the replicas of its own, and hands it to the
executor (`ResilientDb/GeoExecutor.lean`).

The filter comes first: a sequence number is entered in `checklist_` under its region before anything
is known about the request, in one of `2 ^ 20` sets that are never cleared.  The certificate is
whatever list of signatures the request carries; each one is verified, none is required.

Main definitions:

* `Geo.Settings` — parsing, signatures and hashes, which are not part of the component;
* `Geo.Commitment`, `Geo.Commitment.geoProcessCcm` — the filter and the handling of a request;
* `Geo.Settings.Certified` — what a certificate is meant to show;
* `Geo.Settings.Verified`, `Geo.Settings.Complete` — what is checked of it, and what is not;
* `Geo.Commitment.Certifies`, `Geo.Commitment.Unblocked` — what the component is for.

Main results:

* `Geo.admission_iff` — the runs in which only certified requests are ordered, that each is ordered
  once, and the runs in which no request is held up by a rejected one;
* `Geo.admission_fails` — a request with an empty certificate is ordered, and a request that cannot be
  parsed blocks its sequence number for good.
-/

import ResilientDb.GeoExecutor

set_option autoImplicit false

namespace Geo

/-! ### The component -/

/-- `SignatureInfo`. -/
structure SignatureInfo where
  nodeId : ℕ
  signature : String
deriving DecidableEq

/-- `BatchUserRequest`.  `body` is the batch as its proxy has hashed it. -/
structure BatchUserRequest where
  body : String
  hash : String
  committedCerts : Option (List SignatureInfo)
deriving DecidableEq

/-- What the component gets from outside: `ParseFromString`, the signature verifier, if there is one,
`CalculateHash`, the number of faulty replicas of a region, and the region of the replica. -/
structure Settings where
  parseFromString : String → Option BatchUserRequest
  hasVerifier : Bool
  verifyMessage : String → SignatureInfo → Bool
  calculateHash : String → String
  maxFaulty : ℕ
  selfRegionId : ℕ

/-- `GeoPBFTCommitment`.  `ordered` lists what was handed to `OrderGeoRequest`, `broadcast` what was
sent to the replicas of the own region. -/
structure Commitment where
  checklist : ℕ → Finset ℕ
  minSeq : ℕ
  ordered : List Request
  broadcast : List Request

/-- The number of sets in `checklist_`. -/
def checklistSize : ℕ := 2 ^ 20

/-- `VerifyCerts`. -/
def Settings.verifyCerts (s : Settings) (batchRequest : BatchUserRequest) : Bool :=
  if s.hasVerifier then
    (batchRequest.committedCerts.getD []).all fun sig => s.verifyMessage batchRequest.hash sig
  else true

namespace Commitment

/-- The component as constructed. -/
def start : Commitment where
  checklist := fun _ => ∅
  minSeq := 0
  ordered := []
  broadcast := []

/-- The filter lets a request pass. -/
def Admits (c : Commitment) (request : Request) : Prop :=
  c.minSeq ≤ request.seq ∧ request.regionId ∉ c.checklist (request.seq % checklistSize)

instance (c : Commitment) (request : Request) : Decidable (c.Admits request) :=
  inferInstanceAs (Decidable (_ ∧ _))

/-- `checklist_[seq % (1 << 20)].insert(sender_region)`. -/
def insertRegion (c : Commitment) (seq senderRegion : ℕ) : Commitment :=
  { c with
    checklist := Function.update c.checklist (seq % checklistSize)
      (insert senderRegion (c.checklist (seq % checklistSize))) }

/-- `AddNewReq`. -/
def addNewReq (c : Commitment) (seq senderRegion : ℕ) : Commitment × Bool :=
  if seq < c.minSeq then (c, false)
  else (c.insertRegion seq senderRegion,
    decide (senderRegion ∉ c.checklist (seq % checklistSize)))

/-- `UpdateSeq`. -/
def updateSeq (c : Commitment) (seq : ℕ) : Commitment :=
  if c.minSeq < seq then { c with minSeq := seq } else c

/-- The end of `GeoProcessCcm`. -/
def orderGeoRequest (s : Settings) (c : Commitment) (request : Request) : Commitment :=
  { c with
    broadcast := if request.regionId ≠ s.selfRegionId then c.broadcast ++ [request] else c.broadcast
    ordered := c.ordered ++ [request] }

/-- `GeoProcessCcm`, with its return value. -/
def geoProcessCcm (s : Settings) (c : Commitment) (request : Request) : Commitment × ℤ :=
  let (c, isNew) := c.addNewReq request.seq request.regionId
  if !isNew then (c, 1)
  else
    match s.parseFromString request.data with
    | none => (c, -2)
    | some batchRequest =>
      if batchRequest.committedCerts.isNone || !s.verifyCerts batchRequest then (c, -2)
      else (c.orderGeoRequest s request, 0)

end Commitment

/-- What can happen next. -/
inductive Event
  /-- A request arrives. -/
  | geoProcessCcm (request : Request)
  /-- `PostProcessExecutedMsg` has a response with this sequence number. -/
  | updateSeq (seq : ℕ)

/-- One event. -/
def Commitment.step (s : Settings) (c : Commitment) : Event → Option Commitment
  | .geoProcessCcm request => some (c.geoProcessCcm s request).1
  | .updateSeq seq => some (c.updateSeq seq)

/-- The runs of the component. -/
def commitmentSystem (s : Settings) : TransitionSystem Commitment Event where
  init c := c = .start
  step := Commitment.step s

/-! ### What the component is for -/

/-- The certificate holds valid signatures of the hash by a quorum of replicas, and the hash is that
of the data. -/
def Settings.Certified (s : Settings) (request : Request) : Prop :=
  ∃ batchRequest ∈ s.parseFromString request.data, ∃ certs ∈ batchRequest.committedCerts,
    2 * s.maxFaulty + 1 ≤
        ((certs.filter (s.verifyMessage batchRequest.hash)).map SignatureInfo.nodeId).toFinset.card ∧
      batchRequest.hash = s.calculateHash batchRequest.body

/-- A request as a region makes it: all signatures are valid, and they are those of a quorum. -/
def Settings.Genuine (s : Settings) (request : Request) : Prop :=
  ∃ batchRequest ∈ s.parseFromString request.data, ∃ certs ∈ batchRequest.committedCerts,
    (∀ sig ∈ certs, s.verifyMessage batchRequest.hash sig = true) ∧
      2 * s.maxFaulty + 1 ≤ (certs.map SignatureInfo.nodeId).toFinset.card ∧
      batchRequest.hash = s.calculateHash batchRequest.body

instance (s : Settings) (request : Request) : Decidable (s.Certified request) :=
  inferInstanceAs (Decidable (∃ batchRequest ∈ s.parseFromString request.data,
    ∃ certs ∈ batchRequest.committedCerts, _ ∧ _))

instance (s : Settings) (request : Request) : Decidable (s.Genuine request) :=
  inferInstanceAs (Decidable (∃ batchRequest ∈ s.parseFromString request.data,
    ∃ certs ∈ batchRequest.committedCerts, _ ∧ _ ∧ _))

/-- Two requests of a region whose sequence numbers share a set of `checklist_`. -/
def SameSlot (request request' : Request) : Prop :=
  request.regionId = request'.regionId ∧ request.seq % checklistSize = request'.seq % checklistSize

instance (request request' : Request) : Decidable (SameSlot request request') :=
  inferInstanceAs (Decidable (_ ∧ _))

namespace Commitment

/-- Only certified requests are ordered. -/
def Certifies (s : Settings) (c : Commitment) : Prop := ∀ request ∈ c.ordered, s.Certified request

/-- A sequence number of a region is ordered at most once. -/
def OrdersOnce (c : Commitment) : Prop := (c.ordered.map Request.key).Nodup

/-- A genuine request that is not outdated is ordered when it arrives, unless one that was ordered has
taken its place in the filter: rejected requests do not count. -/
def Unblocked (s : Settings) (c : Commitment) : Prop :=
  ∀ request, s.Genuine request → c.minSeq ≤ request.seq →
    (c.geoProcessCcm s request).2 = 0 ∨ ∃ request' ∈ c.ordered, SameSlot request' request

end Commitment

/-! ### What is checked -/

/-- The checks that `GeoProcessCcm` makes of a request that has passed the filter. -/
def Settings.Verified (s : Settings) (request : Request) : Prop :=
  ∃ batchRequest ∈ s.parseFromString request.data,
    batchRequest.committedCerts.isSome = true ∧ s.verifyCerts batchRequest = true

/-- What it does not check: that the signatures (the valid ones, if there is no verifier) are those of a
quorum, and that the hash is that of the data. -/
def Settings.Complete (s : Settings) (request : Request) : Prop :=
  ∀ batchRequest ∈ s.parseFromString request.data, ∀ certs ∈ batchRequest.committedCerts,
    2 * s.maxFaulty + 1 ≤ ((if s.hasVerifier then certs
        else certs.filter (s.verifyMessage batchRequest.hash)).map SignatureInfo.nodeId).toFinset.card ∧
      batchRequest.hash = s.calculateHash batchRequest.body

instance (s : Settings) (request : Request) : Decidable (s.Verified request) :=
  inferInstanceAs (Decidable (∃ batchRequest ∈ s.parseFromString request.data, _ ∧ _))

instance (s : Settings) (request : Request) : Decidable (s.Complete request) :=
  inferInstanceAs (Decidable (∀ batchRequest ∈ s.parseFromString request.data,
    ∀ certs ∈ batchRequest.committedCerts, _ ∧ _))

/-- The condition for certified requests: what passes the filter and the checks is complete. -/
def OnlyComplete (s : Settings) (c : Commitment) : Event → Prop
  | .geoProcessCcm request => c.Admits request → s.Verified request → s.Complete request
  | .updateSeq _ => True

/-- The condition for unblocked requests: what passes the filter also passes the checks. -/
def OnlyVerified (s : Settings) (c : Commitment) : Event → Prop
  | .geoProcessCcm request => c.Admits request → s.Verified request
  | .updateSeq _ => True

instance (s : Settings) (c : Commitment) (a : Event) : Decidable (OnlyComplete s c a) := by
  unfold OnlyComplete
  split <;> infer_instance

instance (s : Settings) (c : Commitment) (a : Event) : Decidable (OnlyVerified s c a) := by
  unfold OnlyVerified
  split <;> infer_instance

/-! ### What a call does -/

variable {s : Settings} {c c' : Commitment} {request : Request}

theorem addNewReq_of_admits (h : c.Admits request) :
    c.addNewReq request.seq request.regionId = (c.insertRegion request.seq request.regionId, true) := by
  obtain ⟨hseq, hregion⟩ := h
  simp [Commitment.addNewReq, hseq.not_gt, hregion]

theorem geoProcessCcm_of_not_admits (h : ¬ c.Admits request) : c.geoProcessCcm s request = (c, 1) := by
  have hadd : c.addNewReq request.seq request.regionId = (c, false) := by
    unfold Commitment.addNewReq
    split_ifs with hseq
    · rfl
    · have hmem : request.regionId ∈ c.checklist (request.seq % checklistSize) := by
        by_contra hregion
        exact h ⟨not_lt.1 hseq, hregion⟩
      simp [Commitment.insertRegion, hmem]
  simp [Commitment.geoProcessCcm, hadd]

theorem geoProcessCcm_of_verified (h : c.Admits request) (hv : s.Verified request) :
    c.geoProcessCcm s request =
      ((c.insertRegion request.seq request.regionId).orderGeoRequest s request, 0) := by
  obtain ⟨batchRequest, hparse, hcerts, hverify⟩ := hv
  have hcerts : batchRequest.committedCerts.isNone = false := by
    simpa using hcerts
  simp [Commitment.geoProcessCcm, addNewReq_of_admits h, Option.mem_def.1 hparse, hcerts, hverify]

theorem geoProcessCcm_of_not_verified (h : c.Admits request) (hv : ¬ s.Verified request) :
    c.geoProcessCcm s request = (c.insertRegion request.seq request.regionId, -2) := by
  simp only [Commitment.geoProcessCcm, addNewReq_of_admits h, Bool.not_true, Bool.false_eq_true,
    if_false]
  cases hparse : s.parseFromString request.data with
  | none => rfl
  | some batchRequest =>
    have hrejected : (batchRequest.committedCerts.isNone || !s.verifyCerts batchRequest) = true := by
      by_contra hnot
      simp only [Bool.or_eq_true, Bool.not_eq_true', not_or, Bool.not_eq_false,
        Bool.not_eq_true, Option.isNone_eq_false_iff] at hnot
      exact hv ⟨batchRequest, hparse, hnot⟩
    simp only [hrejected, if_true]

theorem Settings.Genuine.verified (h : s.Genuine request) : s.Verified request := by
  obtain ⟨batchRequest, hparse, certs, hcerts, hvalid, _⟩ := h
  refine ⟨batchRequest, hparse, by simp [Option.mem_def.1 hcerts], ?_⟩
  simp only [Settings.verifyCerts, Option.mem_def.1 hcerts]
  split_ifs
  · exact List.all_eq_true.2 hvalid
  · rfl

/-- **What `VerifyCerts` is worth**: a request that passes it is certified if it is complete. -/
theorem Settings.Verified.certified_iff (h : s.Verified request) :
    s.Certified request ↔ s.Complete request := by
  obtain ⟨batchRequest, hparse, hsome, hverify⟩ := h
  obtain ⟨certs, hcerts⟩ := Option.isSome_iff_exists.1 hsome
  have hsigners : (if s.hasVerifier then certs
      else certs.filter (s.verifyMessage batchRequest.hash)) =
      certs.filter (s.verifyMessage batchRequest.hash) := by
    split_ifs with hverifier
    · -- all signatures of the list are valid
      rw [Settings.verifyCerts, if_pos hverifier, hcerts] at hverify
      exact (List.filter_eq_self.2 (List.all_eq_true.1 hverify)).symm
    · rfl
  simp only [Settings.Certified, Settings.Complete, Option.mem_def.1 hparse, hcerts,
    Option.mem_some_iff, exists_eq_left', forall_eq', hsigners]

/-! ### At most once -/

/-- What was ordered is in the filter. -/
structure FilterInv (c : Commitment) : Prop where
  listed : ∀ request ∈ c.ordered, request.regionId ∈ c.checklist (request.seq % checklistSize)
  once : (c.ordered.map Request.key).Nodup

theorem mem_checklist_insertRegion {seq region slot region' : ℕ} :
    region' ∈ (c.insertRegion seq region).checklist slot ↔
      region' ∈ c.checklist slot ∨ slot = seq % checklistSize ∧ region' = region := by
  simp only [Commitment.insertRegion, Function.update_apply]
  split_ifs with hslot
  · simp [hslot, or_comm]
  · simp [hslot]

theorem FilterInv.orderGeoRequest (hc : FilterInv c) (h : c.Admits request) :
    FilterInv ((c.insertRegion request.seq request.regionId).orderGeoRequest s request) where
  listed := by
    intro r hr
    refine mem_checklist_insertRegion.2 ?_
    obtain hr | hr := List.mem_append.1 hr
    · exact .inl (hc.listed r hr)
    · rw [List.mem_singleton.1 hr]
      exact .inr ⟨rfl, rfl⟩
  once := by
    change ((c.ordered ++ [request]).map Request.key).Nodup
    rw [List.map_append, List.nodup_append]
    refine ⟨hc.once, List.nodup_singleton _, ?_⟩
    intro key hkey key' hkey' heq
    obtain ⟨r, hr, rfl⟩ := List.mem_map.1 hkey
    obtain rfl := List.mem_singleton.1 hkey'
    obtain ⟨hseq, hregion⟩ := Prod.mk.inj (toLex.injective heq)
    have hlisted := hc.listed r hr
    rw [hseq, hregion] at hlisted
    exact h.2 hlisted

theorem updateSeq_eq (c : Commitment) (seq : ℕ) :
    c.updateSeq seq = { c with minSeq := max c.minSeq seq } := by
  unfold Commitment.updateSeq
  split_ifs with h
  · rw [max_eq_right h.le]
  · rw [max_eq_left (not_lt.1 h)]

theorem FilterInv.start : FilterInv .start where
  listed := nofun
  once := List.nodup_nil

theorem FilterInv.insertRegion (hc : FilterInv c) (seq region : ℕ) :
    FilterInv (c.insertRegion seq region) :=
  ⟨fun r hr => mem_checklist_insertRegion.2 (.inl (hc.listed r hr)), hc.once⟩

/-- What a call does to the component: nothing, or the region is entered and, if the request passes the
checks, the request is ordered. -/
theorem geoProcessCcm_cases (s : Settings) (c : Commitment) (request : Request) :
    (¬ c.Admits request ∧ (c.geoProcessCcm s request).1 = c) ∨
      c.Admits request ∧
        (s.Verified request ∧ (c.geoProcessCcm s request).1 =
            (c.insertRegion request.seq request.regionId).orderGeoRequest s request ∨
          ¬ s.Verified request ∧ (c.geoProcessCcm s request).1 =
            c.insertRegion request.seq request.regionId) := by
  by_cases hadmits : c.Admits request
  · refine .inr ⟨hadmits, ?_⟩
    by_cases hverified : s.Verified request
    · exact .inl ⟨hverified, by rw [geoProcessCcm_of_verified hadmits hverified]⟩
    · exact .inr ⟨hverified, by rw [geoProcessCcm_of_not_verified hadmits hverified]⟩
  · exact .inl ⟨hadmits, by rw [geoProcessCcm_of_not_admits hadmits]⟩

/-- **Every step keeps the filter in order**, whatever arrives. -/
theorem FilterInv.step {a : Event} (hc : FilterInv c) (hs : c.step s a = some c') : FilterInv c' := by
  cases a with
  | geoProcessCcm request =>
    cases hs
    obtain ⟨-, hsame⟩ | ⟨hadmits, ⟨-, hnew⟩ | ⟨-, hnew⟩⟩ := geoProcessCcm_cases s c request
    · rw [hsame]
      exact hc
    · rw [hnew]
      exact hc.orderGeoRequest hadmits
    · rw [hnew]
      exact hc.insertRegion _ _
  | updateSeq seq =>
    cases hs
    rw [updateSeq_eq]
    exact ⟨hc.listed, hc.once⟩

/-! ### Certified requests -/

/-- A step orders no request without a certificate exactly if it meets the condition. -/
theorem certifies_step {a : Event} (h : c.Certifies s) (hs : c.step s a = some c') :
    c'.Certifies s ↔ OnlyComplete s c a := by
  cases a with
  | geoProcessCcm request =>
    cases hs
    obtain ⟨hnot, hsame⟩ | ⟨hadmits, ⟨hverified, hnew⟩ | ⟨hrejected, hnew⟩⟩ :=
      geoProcessCcm_cases s c request
    · rw [hsame]
      exact iff_of_true h fun hadmits => absurd hadmits hnot
    · rw [hnew]
      constructor
      · intro h' _ _
        refine hverified.certified_iff.1 (h' request ?_)
        exact List.mem_append_right _ (List.mem_singleton.2 rfl)
      · intro hok r hr
        obtain hr | hr := List.mem_append.1 hr
        · exact h r hr
        · rw [List.mem_singleton.1 hr]
          exact hverified.certified_iff.2 (hok hadmits hverified)
    · rw [hnew]
      exact iff_of_true h fun _ hverified => absurd hverified hrejected
  | updateSeq seq =>
    cases hs
    rw [updateSeq_eq]
    exact iff_of_true h trivial

/-! ### Unblocked requests -/

/-- What is in the filter was ordered. -/
def Commitment.Filled (c : Commitment) : Prop :=
  ∀ slot < checklistSize, ∀ region ∈ c.checklist slot,
    ∃ request ∈ c.ordered, request.regionId = region ∧ request.seq % checklistSize = slot

/-- If a region can make a genuine request at all, it can make one for every place of the filter, and it
tells whether an entry of the filter has a reason. -/
theorem unblocked_iff_filled {genuine : Request} (hg : s.Genuine genuine) (c : Commitment) :
    c.Unblocked s ↔ c.Filled := by
  constructor
  · intro h slot hslot region hregion
    -- the same data, for a number of this place that is not outdated
    have hseq : (slot + checklistSize * c.minSeq) % checklistSize = slot := by
      rw [Nat.add_mul_mod_self_left, Nat.mod_eq_of_lt hslot]
    have hmin : c.minSeq ≤ slot + checklistSize * c.minSeq :=
      (Nat.le_mul_of_pos_left _ (by decide)).trans (Nat.le_add_left _ _)
    obtain hzero | ⟨request, hmem, hslots⟩ :=
      h ⟨slot + checklistSize * c.minSeq, region, genuine.data⟩ hg hmin
    · rw [geoProcessCcm_of_not_admits] at hzero
      · cases hzero
      · rintro ⟨-, hfree⟩
        rw [hseq] at hfree
        exact hfree hregion
    · exact ⟨request, hmem, hslots.1, hslots.2.trans hseq⟩
  · intro h request hgenuine hseq
    by_cases hadmits : c.Admits request
    · rw [geoProcessCcm_of_verified hadmits hgenuine.verified]
      exact .inl rfl
    · have hlisted : request.regionId ∈ c.checklist (request.seq % checklistSize) := by
        by_contra hregion
        exact hadmits ⟨hseq, hregion⟩
      exact .inr (h _ (Nat.mod_lt _ (by decide)) _ hlisted)

/-- A step leaves no entry without a reason exactly if it meets the condition. -/
theorem filled_step {a : Event} (hc : FilterInv c) (h : c.Filled) (hs : c.step s a = some c') :
    c'.Filled ↔ OnlyVerified s c a := by
  cases a with
  | geoProcessCcm request =>
    cases hs
    obtain ⟨hnot, hsame⟩ | ⟨hadmits, ⟨hverified, hnew⟩ | ⟨hrejected, hnew⟩⟩ :=
      geoProcessCcm_cases s c request
    · rw [hsame]
      exact iff_of_true h fun hadmits => absurd hadmits hnot
    · rw [hnew]
      refine iff_of_true ?_ fun _ => hverified
      intro slot hslot region hregion
      obtain hregion | ⟨rfl, rfl⟩ := mem_checklist_insertRegion.1 hregion
      · obtain ⟨r, hr, hr'⟩ := h slot hslot region hregion
        exact ⟨r, List.mem_append_left _ hr, hr'⟩
      · exact ⟨request, List.mem_append_right _ (List.mem_singleton.2 rfl), rfl, rfl⟩
    · -- nothing that was ordered explains the new entry, or the request would not have passed
      rw [hnew]
      refine iff_of_false (fun hfilled => ?_) fun hok => hrejected (hok hadmits)
      obtain ⟨r, hr, hregion, hslot⟩ := hfilled (request.seq % checklistSize)
        (Nat.mod_lt _ (by decide)) request.regionId (mem_checklist_insertRegion.2 (.inr ⟨rfl, rfl⟩))
      have hlisted := hc.listed r hr
      rw [hregion, hslot] at hlisted
      exact hadmits.2 hlisted
  | updateSeq seq =>
    cases hs
    rw [updateSeq_eq]
    exact iff_of_true h trivial

theorem exists_run_commitment (s : Settings) (as : List Event) :
    ∃ c, (commitmentSystem s).run .start as = some c := by
  have hstep : ∀ c a, TransitionSystem.always c a → ∃ c', (commitmentSystem s).step c a = some c' := by
    intro c a _
    cases a with
    | geoProcessCcm request => exact ⟨_, rfl⟩
    | updateSeq seq => exact ⟨_, rfl⟩
  exact TransitionSystem.Guarded.run_isSome hstep as (TransitionSystem.guarded_always as _)

/-- Four replicas in a region, one of them faulty; a signature is valid if it says so. -/
def fourReplicas : Settings where
  parseFromString := fun data =>
    if data = "certified" then
      some ⟨"a", "#a", some [⟨1, "valid"⟩, ⟨2, "valid"⟩, ⟨3, "valid"⟩]⟩
    else if data = "uncertified" then some ⟨"b", "#a", some []⟩
    else none
  hasVerifier := true
  verifyMessage := fun _ sig => decide (sig.signature = "valid")
  calculateHash := fun body => "#" ++ body
  maxFaulty := 1
  selfRegionId := 1

/-- A genuine request, its copy, and the next one. -/
def genuineRun : List Event :=
  [.geoProcessCcm ⟨1, 2, "certified"⟩, .geoProcessCcm ⟨1, 2, "certified"⟩,
    .geoProcessCcm ⟨2, 2, "certified"⟩]

/-- A request that cannot be parsed, and one with an empty certificate that names the hash of other
data. -/
def forgedRun : List Event :=
  [.geoProcessCcm ⟨1, 2, "garbage"⟩, .geoProcessCcm ⟨2, 2, "uncertified"⟩]

end Geo
