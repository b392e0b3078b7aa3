/-
**The certificate behind an executed request.**

A replica counts PREPAREs and COMMITs by the hash they carry, and what it executes is the main request
of the collector.  The two are tied together by nothing: one status is shared by all hashes, a main
request can be replaced or cleared, and `Commit` takes the one that is there.  This module says what
has to be checked of a message for a request to be executed only with a quorum of PREPAREs and a
quorum of COMMITs for its own hash.

Main definitions:

* `Pbft.Certified` — a quorum of senders has voted for a sequence number and a hash;
* `Pbft.TransactionCollector.Matches` — the missing check, on a message and its collector;
* `Pbft.Intake`, `Pbft.intakeSystem` — a message manager and the messages it was given.

Main results:

* `Pbft.quorum_intersection` — quorums share a correct replica for cluster sizes `3 * f + 1` only;
* `Pbft.commit_certificate` — with the check, every executed request has its two quorums.
-/

import ResilientDb.PbftNetwork
import ResilientDb.Quorum

set_option autoImplicit false

namespace Pbft

/-! ### The size of a quorum -/

/-- Two quorums share more replicas than may be faulty, and the correct replicas are a quorum. -/
def QuorumsIntersect (cfg : Config) : Prop :=
  (∀ A B : Finset ℕ, A ⊆ Finset.Icc 1 cfg.totalNum → B ⊆ Finset.Icc 1 cfg.totalNum →
      cfg.minDataReceiveNum ≤ A.card → cfg.minDataReceiveNum ≤ B.card →
        cfg.maxMaliciousReplicaNum + 1 ≤ (A ∩ B).card) ∧
    cfg.minDataReceiveNum ≤ cfg.totalNum - cfg.maxMaliciousReplicaNum

/-- **Quorum intersection**: the cluster sizes with it are those of the form `3 * f + 1`.  For every other
size the first and the last replicas are two quorums that share too few. -/
theorem quorum_intersection (cfg : Config) (hn : 1 ≤ cfg.totalNum) :
    QuorumsIntersect cfg ↔ cfg.totalNum % 3 = 1 := by
  have hmin : cfg.minDataReceiveNum = 2 * ((cfg.totalNum - 1) / 3) + 1 := by
    unfold Config.minDataReceiveNum
    omega
  have hmax : cfg.maxMaliciousReplicaNum = (cfg.totalNum - 1) / 3 := by
    unfold Config.maxMaliciousReplicaNum
    omega
  constructor
  · rintro ⟨h, -⟩
    have hinter := h (Finset.Icc 1 cfg.minDataReceiveNum)
      (Finset.Icc (cfg.totalNum + 1 - cfg.minDataReceiveNum) cfg.totalNum)
      (Finset.Icc_subset_Icc_right (by omega)) (Finset.Icc_subset_Icc_left (by omega))
      (by rw [Nat.card_Icc]; omega) (by rw [Nat.card_Icc]; omega)
    have hshared : Finset.Icc 1 cfg.minDataReceiveNum
        ∩ Finset.Icc (cfg.totalNum + 1 - cfg.minDataReceiveNum) cfg.totalNum
          ⊆ Finset.Icc (cfg.totalNum + 1 - cfg.minDataReceiveNum) cfg.minDataReceiveNum := by
      intro i hi
      rw [Finset.mem_inter, Finset.mem_Icc, Finset.mem_Icc] at hi
      exact Finset.mem_Icc.2 ⟨hi.2.1, hi.1.2⟩
    have hcard := hinter.trans (Finset.card_le_card hshared)
    rw [Nat.card_Icc] at hcard
    omega
  · intro hn
    refine ⟨fun A B hA hB hqA hqB => ?_, by omega⟩
    have hinter := card_add_card_le_card_inter hA hB
    rw [Nat.card_Icc] at hinter
    omega

/-- A configuration with some number of replicas. -/
def plainConfig (totalNum : ℕ) (enableViewchange : Bool) : Config where
  totalNum := totalNum
  enableViewchange := enableViewchange
  maxProcessTxn := 64
  needQc := false
  isFaulty := fun _ => false
  preVerify := fun _ => true
  verifyMessage := fun _ _ => true
  signMessage := fun _ _ => none

theorem quorum_intersection_four :
    QuorumsIntersect (plainConfig 4 false) ∧ ¬ QuorumsIntersect (plainConfig 6 false) :=
  ⟨(quorum_intersection (plainConfig 4 false) (by decide)).2 (by decide),
    fun h => absurd ((quorum_intersection (plainConfig 6 false) (by decide)).1 h) (by decide)⟩

/-- Five replicas tolerate one fault and decide with three: two quorums may share one replica only.
Two replicas decide with one. -/
theorem quorum_intersection_fails :
    ¬ QuorumsIntersect (plainConfig 5 false) ∧ ¬ QuorumsIntersect (plainConfig 2 false) := by
  constructor
  · rintro ⟨h, -⟩
    exact absurd (h {1, 2, 3} {3, 4, 5} (by decide) (by decide) (by decide) (by decide)) (by decide)
  · rintro ⟨h, -⟩
    exact absurd (h {1} {2} (by decide) (by decide) (by decide) (by decide)) (by decide)

/-! ### Certificates -/

/-- A quorum of distinct senders has sent messages of a type for a sequence number and a hash. -/
def Certified (cfg : Config) (delivered : List Request) (type : RequestType) (seq : ℕ)
    (hash : String) : Prop :=
  ∃ Q : Finset ℕ, cfg.minDataReceiveNum ≤ Q.card ∧
    ∀ j ∈ Q, ∃ q ∈ delivered, q.type = type ∧ q.seq = seq ∧ q.hash = hash ∧ q.senderId = j

/-- The check that the code does not make.  A vote that completes a quorum names the hash of the main
request, and so does a PRE-PREPARE that comes after the quorum of PREPAREs. -/
def TransactionCollector.Matches (cfg : Config) (c : TransactionCollector) (request : Request) :
    RequestType → Prop
  | .prePrepare =>
    c.status = .readyCommit → ∀ main ∈ c.mainRequest, main.request.hash = request.hash
  | .prepare =>
    c.status = .readyPrepare →
      cfg.minDataReceiveNum ≤ (insert request.senderId (c.senders .prepare request.hash)).card →
        ∀ main ∈ c.mainRequest, main.request.hash = request.hash
  | .commit =>
    c.Completes cfg request → ∀ main ∈ c.mainRequest, main.request.hash = request.hash
  | _ => True

instance (cfg : Config) (c : TransactionCollector) (request : Request) (type : RequestType) :
    Decidable (c.Matches cfg request type) := by
  unfold TransactionCollector.Matches
  split <;> infer_instance

/-- What holds of a collector, with respect to the messages that were delivered. -/
structure CertInv (cfg : Config) (delivered : List Request) (c : TransactionCollector) : Prop where
  resting : c.status ≠ .readyExecute
  /-- Who is counted has sent a message. -/
  votes : ∀ type hash j, j ∈ c.senders type hash →
    ∃ q ∈ delivered, q.type = type ∧ q.seq = c.seq ∧ q.hash = hash ∧ q.senderId = j
  main : ∀ main ∈ c.mainRequest, main.request.seq = c.seq
  /-- There is a main request from the first PRE-PREPARE to the end. -/
  held : c.status ≠ .none → c.status ≠ .executed → c.mainRequest.isSome
  /-- The main request has its quorum of PREPAREs. -/
  prepared : c.status = .readyCommit → ∀ main ∈ c.mainRequest,
    cfg.minDataReceiveNum ≤ (c.senders .prepare main.request.hash).card

section

variable {cfg : Config} {D : List Request} {c : TransactionCollector} {info : RequestInfo}
  {pick : ℕ} {a : Added}

theorem CertInv.fresh (cfg : Config) (D : List Request) (seq : ℕ) : CertInv cfg D { seq := seq } where
  resting := by simp
  votes := by simp
  main := by simp
  held := by simp
  prepared := by simp

theorem CertInv.mono {D' : List Request} (h : CertInv cfg D c) (hD : D ⊆ D') : CertInv cfg D' c where
  resting := h.resting
  votes := by
    intro type hash j hj
    obtain ⟨q, hq, hsent⟩ := h.votes type hash j hj
    exact ⟨q, hD hq, hsent⟩
  main := h.main
  held := h.held
  prepared := h.prepared

variable {type : RequestType}

theorem Certified.mono {D' : List Request} {seq : ℕ} {hash : String}
    (h : Certified cfg D type seq hash) (hD : D ⊆ D') : Certified cfg D' type seq hash := by
  obtain ⟨Q, hQ, hsent⟩ := h
  refine ⟨Q, hQ, fun j hj => ?_⟩
  obtain ⟨q, hq, hsent⟩ := hsent j hj
  exact ⟨q, hD hq, hsent⟩

/-- There is a vote behind a certificate. -/
theorem Certified.exists_vote {seq : ℕ} {hash : String}
    (h : Certified cfg D type seq hash) : ∃ q ∈ D, q.type = type ∧ q.hash = hash := by
  obtain ⟨Q, hQ, hsent⟩ := h
  have hpos : 0 < Q.card := lt_of_lt_of_le (Nat.lt_of_lt_of_le Nat.zero_lt_one (le_max_right _ _)) hQ
  obtain ⟨j, hj⟩ := Finset.card_pos.1 hpos
  obtain ⟨q, hq, htype, -, hhash, -⟩ := hsent j hj
  exact ⟨q, hq, htype, hhash⟩

/-! ### One message -/

theorem CertInv.votes_addSender (h : CertInv cfg D c) {request : Request}
    (hseq : c.seq = request.seq) (type : RequestType) (hash : String) (j : ℕ)
    (hj : j ∈ (c.addSender request).senders type hash) :
    ∃ q ∈ D ++ [request], q.type = type ∧ q.seq = c.seq ∧ q.hash = hash ∧ q.senderId = j := by
  rcases TransactionCollector.mem_senders_addSender hj with hold | ⟨htype, rfl, rfl⟩
  · obtain ⟨q, hq, hsent⟩ := h.votes type hash j hold
    exact ⟨q, List.mem_append_left _ hq, hsent⟩
  · exact ⟨request, by simp, htype, hseq.symm, rfl, rfl⟩

theorem mayConsensusChangeStatus_prePrepare {count : ℕ} {status : TransactionStatue} {ret : Bool}
    (h : (mayConsensusChangeStatus cfg .prePrepare count status ret).2 = .readyCommit) :
    status = .readyCommit := by
  simp only [mayConsensusChangeStatus] at h
  split at h
  · cases h
  · exact h

theorem CertInv.addMainRequest (h : CertInv cfg D c) (hseq : c.seq = info.request.seq)
    (htype : info.request.type = .prePrepare) (hmatch : c.Matches cfg info.request .prePrepare) :
    CertInv cfg (D ++ [info.request])
      (c.addMainRequest info (mayConsensusChangeStatus cfg info.request.type)).collector := by
  have h' := h.mono (List.subset_append_left D [info.request])
  rw [htype]
  simp only [TransactionCollector.addMainRequest]
  split
  · exact ⟨h'.resting, h'.votes, h'.main, h'.held, h'.prepared⟩
  · refine ⟨TransactionCollector.mayConsensusChangeStatus_resting (by simp) h.resting, h'.votes, ?_,
      by simp, ?_⟩
    · intro main hmain
      cases hmain
      exact hseq.symm
    · -- a main request that replaces another one after the PREPAREs has the same hash
      intro hstatus main hmain
      cases hmain
      have hold := mayConsensusChangeStatus_prePrepare hstatus
      obtain ⟨main, hmain⟩ := Option.isSome_iff_exists.1 (h.held (by simp [hold]) (by simp [hold]))
      have hcard := h.prepared hold main hmain
      rw [hmatch hold main hmain] at hcard
      exact hcard

theorem mayConsensusChangeStatus_prepare_cases (cfg : Config) (count : ℕ)
    (status : TransactionStatue) :
    (mayConsensusChangeStatus cfg .prepare count status false).2 = status ∨
      (status = .readyPrepare ∧ cfg.minDataReceiveNum ≤ count ∧
        (mayConsensusChangeStatus cfg .prepare count status false).2 = .readyCommit) := by
  simp only [mayConsensusChangeStatus]
  split
  · rename_i hc
    exact .inr ⟨hc.1, hc.2, rfl⟩
  · exact .inl rfl

theorem senders_addSender_self (c : TransactionCollector) (request : Request) :
    (c.addSender request).senders request.type request.hash =
      insert request.senderId (c.senders request.type request.hash) := by
  simp [TransactionCollector.addSender]

theorem CertInv.countPrepare (h : CertInv cfg D c) (hseq : c.seq = info.request.seq)
    (htype : info.request.type = .prepare) (hmatch : c.Matches cfg info.request .prepare) :
    CertInv cfg (D ++ [info.request])
      (c.count info.request (mayConsensusChangeStatus cfg .prepare)).2 := by
  have hcount : ∀ hash, (c.senders .prepare hash).card ≤
      ((c.addSender info.request).senders .prepare hash).card := fun hash =>
    Finset.card_le_card (TransactionCollector.senders_subset_addSender c info.request .prepare hash)
  have hself := senders_addSender_self c info.request
  rw [htype] at hself
  have hcases := mayConsensusChangeStatus_prepare_cases cfg
    ((c.addSender info.request).senders info.request.type info.request.hash).card c.status
  rw [htype, hself] at hcases
  simp only [TransactionCollector.count, htype, hself]
  rcases hcases with hsame | ⟨hready, hquorum, hnew⟩
  · exact ⟨by rw [show (c.addSender info.request).status = c.status from rfl, hsame]; exact h.resting,
      h.votes_addSender hseq, h.main,
      by rw [show (c.addSender info.request).status = c.status from rfl, hsame]; exact h.held,
      fun hs main hmain => (h.prepared (hsame.symm.trans hs) main hmain).trans (hcount _)⟩
  · refine ⟨?_, h.votes_addSender hseq, h.main, ?_, ?_⟩
    · intro hs
      exact absurd (hnew.symm.trans hs) (by decide)
    · intro _ _
      exact h.held (by simp [hready]) (by simp [hready])
    · -- the quorum is for the hash of the main request
      intro _ main hmain
      have hhash := hmatch hready hquorum main hmain
      rw [hhash, hself]
      exact hquorum

/-- A PREPARE may complete a certificate. -/
theorem CertInv.addPrepare (h : CertInv cfg D c) (hseq : c.seq = info.request.seq)
    (htype : info.request.type = .prepare) (hmatch : c.Matches cfg info.request .prepare)
    (ha : c.addPrepare info pick (mayConsensusChangeStatus cfg info.request.type) = some a) :
    CertInv cfg (D ++ [info.request]) a.collector := by
  have h' := h.mono (List.subset_append_left D [info.request])
  unfold TransactionCollector.addPrepare at ha
  rw [htype] at ha
  split at ha
  · cases ha
    exact h'
  · rename_i hstatus
    split at ha
    · cases ha
      exact h'
    · obtain ⟨-, -, ha⟩ := Option.bind_eq_some_iff.1 ha
      cases ha
      set c₁ := { c with preparedProof := c.preparedProof ++ [info] } with hc₁
      have h₁ : CertInv cfg D c₁ := ⟨h.resting, h.votes, h.main, h.held, h.prepared⟩
      have hcounted := h₁.countPrepare hseq htype hmatch
      split
      · -- the collector has just been prepared, for the hash of its main request
        rename_i hready
        rcases mayConsensusChangeStatus_prepare_cases cfg
          ((c₁.addSender info.request).senders info.request.type info.request.hash).card c.status
          with hsame | ⟨hold, hquorum, -⟩
        · have : c.status = .readyCommit := hsame.symm.trans hready
          rw [this] at hstatus
          exact absurd (by decide) hstatus
        · rw [senders_addSender_self, htype] at hquorum
          have hhash := hmatch hold hquorum
          have hmain : ∀ main ∈ (c₁.count info.request
              (mayConsensusChangeStatus cfg .prepare)).2.mainRequest,
              main.request.hash = info.request.hash := hhash
          simp only [TransactionCollector.prepared]
          rw [if_pos hmain]
          exact ⟨hcounted.resting, hcounted.votes, hcounted.main, hcounted.held, hcounted.prepared⟩
      · exact hcounted

theorem mayConsensusChangeStatus_of_ne {count : ℕ} {status : TransactionStatue}
    (hpre : type ≠ .prePrepare) (hprep : type ≠ .prepare)
    (hnew : (mayConsensusChangeStatus cfg type count status false).2 ≠ .readyExecute) :
    (mayConsensusChangeStatus cfg type count status false).2 = status := by
  cases type with
  | prePrepare => exact absurd rfl hpre
  | prepare => exact absurd rfl hprep
  | commit =>
    simp only [mayConsensusChangeStatus] at hnew ⊢
    split at hnew
    · exact absurd rfl hnew
    · rename_i hc
      rw [if_neg hc]
  | newTxns | viewchange | newView | response | recoveryDataResp | checkpoint => rfl

theorem CertInv.addCert (h : CertInv cfg D c) (request : Request) : CertInv cfg D (c.addCert request) := by
  obtain ⟨hseq, hstatus, hsenders, hmain, -⟩ := TransactionCollector.addCert_frame c request
  refine ⟨?_, ?_, ?_, ?_, ?_⟩
  · rw [hstatus]
    exact h.resting
  · rw [hsenders, hseq]
    exact h.votes
  · rw [hmain, hseq]
    exact h.main
  · rw [hstatus, hmain]
    exact h.held
  · rw [hstatus, hmain, hsenders]
    exact h.prepared

/-- So may a COMMIT. -/
theorem CertInv.addVote (h : CertInv cfg D c) (hseq : c.seq = info.request.seq)
    (hpre : info.request.type ≠ .prePrepare) (hmatch : c.Matches cfg info.request info.request.type)
    (ha : c.addVote info.request (mayConsensusChangeStatus cfg info.request.type) = some a) :
    CertInv cfg (D ++ [info.request]) a.collector := by
  obtain ⟨-, -, ha⟩ := Option.bind_eq_some_iff.1 ha
  obtain ⟨cseq, cstatus, csenders, cmain, -⟩ :=
    TransactionCollector.addCert_frame c info.request
  have h₁ := h.addCert info.request
  generalize c.addCert info.request = c₁ at *
  dsimp only at ha
  split at ha
  · -- the request is executed, and the collector takes nothing more
    rename_i hexec
    cases ha
    obtain ⟨hseq', hstatus', hsenders', -, -⟩ := TransactionCollector.commit_spec _ hexec
    refine ⟨by simp [hstatus'], ?_, ?_, by simp [hstatus'], by simp [hstatus']⟩
    · rw [hsenders', hseq']
      exact h₁.votes_addSender (cseq.trans hseq)
    · intro main hmain
      unfold TransactionCollector.commit at hmain
      rw [if_neg (by simp [hexec])] at hmain
      split at hmain
      · rename_i hnone
        simp [hnone] at hmain
      · cases hmain
  · rename_i hexec
    cases ha
    by_cases hprep : info.request.type = .prepare
    · rw [hprep] at hmatch ⊢
      refine h₁.countPrepare (cseq.trans hseq) hprep ?_
      unfold TransactionCollector.Matches at hmatch ⊢
      rw [cstatus, csenders, cmain]
      exact hmatch
    · have hsame := mayConsensusChangeStatus_of_ne hpre hprep hexec
      refine ⟨hexec, h₁.votes_addSender (cseq.trans hseq), h₁.main, ?_, ?_⟩
      · intro hn he
        exact h₁.held (fun hs => hn (hsame.trans hs)) (fun hs => he (hsame.trans hs))
      · intro hs main hmain
        refine (h₁.prepared (hsame.symm.trans hs) main hmain).trans (Finset.card_le_card ?_)
        exact TransactionCollector.senders_subset_addSender c₁ info.request .prepare _

/-- **One message at a collector**: what it executes has its two quorums. -/
theorem CertInv.addRequest {vc : Bool} (h : CertInv cfg D c)
    (hmatch : c.Matches cfg info.request info.request.type)
    (ha : c.addRequest vc info (info.request.type = .prePrepare) pick
      (mayConsensusChangeStatus cfg info.request.type) = some a) :
    CertInv cfg (D ++ [info.request]) a.collector ∧
      ∀ q ∈ a.committed, Certified cfg (D ++ [info.request]) .prepare q.seq q.hash ∧
        Certified cfg (D ++ [info.request]) .commit q.seq q.hash := by
  constructor
  · rcases TransactionCollector.addRequest_cases ha with
      ⟨ret, rfl⟩ | ⟨hseq, ⟨htype, rfl⟩ | ⟨-, ⟨-, htype⟩, ha⟩ | ⟨hpre, -, ha⟩⟩
    · exact h.mono (List.subset_append_left D [info.request])
    · have htype := of_decide_eq_true htype
      exact h.addMainRequest hseq htype (htype ▸ hmatch)
    · exact h.addPrepare hseq htype (htype ▸ hmatch) ha
    · exact h.addVote hseq (of_decide_eq_false hpre) hmatch ha
  · intro q hq
    obtain ⟨htype, hcomp, main, hmain, hseq, hhash, -⟩ :=
      (TransactionCollector.addRequest_spec ha).committed h.resting q hq
    rw [htype] at hmatch
    have hmainHash := hmatch hcomp main hmain
    rw [hseq, hhash, h.main main hmain]
    constructor
    · refine ⟨_, h.prepared hcomp.2.1 main hmain, fun j hj => ?_⟩
      obtain ⟨q, hq, hsent⟩ := h.votes _ _ j hj
      exact ⟨q, List.mem_append_left _ hq, hsent⟩
    · refine ⟨_, hcomp.2.2, fun j hj => ?_⟩
      rw [hmainHash]
      rcases Finset.mem_insert.1 hj with rfl | hj
      · exact ⟨info.request, by simp, htype, hcomp.1.symm, rfl, rfl⟩
      · obtain ⟨q, hq, hsent⟩ := h.votes _ _ j hj
        exact ⟨q, List.mem_append_left _ hq, hsent⟩

end

/-! ### Runs of a message manager -/

/-- A replica, and the messages that its message manager was given. -/
structure Intake where
  replica : Replica
  delivered : List Request

/-- What can happen. -/
inductive IntakeAction
  /-- `AddConsensusMsg`. -/
  | addConsensusMsg (info : RequestInfo) (pick : ℕ)
  /-- The replica moves to another view. -/
  | setView (view primary : ℕ)
  /-- A thread of the replica takes a step. -/
  | orderMessage
  | execute
  | updateCheckPointStatus

/-- One action.  Senders are replicas. -/
def Intake.step (cfg : Config) (n : Intake) : IntakeAction → Option Intake
  | .addConsensusMsg info pick => do
      guard (info.request.senderId ∈ Finset.Icc 1 cfg.totalNum)
      let (r, _) ← n.replica.addConsensusMsg cfg info pick
      some ⟨r, n.delivered ++ [info.request]⟩
  | .setView view primary =>
    some { n with replica := { n.replica with currentView := view, primaryId := primary } }
  | .orderMessage => n.replica.orderMessage.map fun r => { n with replica := r }
  | .execute => n.replica.execute.map fun r => { n with replica := r }
  | .updateCheckPointStatus => n.replica.updateCheckPointStatus.map fun r => { n with replica := r }

/-- The runs of a message manager that starts in any view. -/
def intakeSystem (cfg : Config) : TransitionSystem Intake IntakeAction where
  init n := ∃ view primary id, n = ⟨.construct cfg view primary id, []⟩
  step := Intake.step cfg

/-- The condition: messages pass the check of `TransactionCollector.Matches`. -/
def VotesMatch (cfg : Config) (n : Intake) : IntakeAction → Prop
  | .addConsensusMsg info _ =>
    (n.replica.pool.getCollector info.request.seq).Matches cfg info.request info.request.type
  | _ => True

instance (cfg : Config) (n : Intake) (a : IntakeAction) : Decidable (VotesMatch cfg n a) := by
  unfold VotesMatch
  split <;> infer_instance

/-- Every request that was passed to the executor has its quorum of PREPAREs and of COMMITs. -/
def Intake.CommitCertificate (cfg : Config) (n : Intake) : Prop :=
  ∀ q ∈ n.replica.commitQueue, Certified cfg n.delivered .prepare q.seq q.hash ∧
    Certified cfg n.delivered .commit q.seq q.hash

structure IntakeInv (cfg : Config) (n : Intake) : Prop where
  collectors : ∀ k, CertInv cfg n.delivered (n.replica.pool.collector k)
  executed : n.CommitCertificate cfg

section

variable {cfg : Config} {n n' : Intake}

theorem IntakeInv.frame (h : IntakeInv cfg n) {r : Replica}
    (hpool : ∀ k, r.pool.collector k = n.replica.pool.collector k ∨
      ∃ seq, r.pool.collector k = { seq := seq })
    (hqueue : r.commitQueue = n.replica.commitQueue) : IntakeInv cfg { n with replica := r } := by
  constructor
  · intro k
    rcases hpool k with hk | ⟨seq, hk⟩
    · rw [hk]
      exact h.collectors k
    · rw [hk]
      exact .fresh cfg _ seq
  · unfold Intake.CommitCertificate
    rw [hqueue]
    exact h.executed

theorem IntakeInv.addConsensusMsg (h : IntakeInv cfg n) {info : RequestInfo} {pick : ℕ} {r : Replica}
    {ret : CollectorResultCode}
    (hmatch : (n.replica.pool.getCollector info.request.seq).Matches cfg info.request
      info.request.type) (hadd : n.replica.addConsensusMsg cfg info pick = some (r, ret)) :
    IntakeInv cfg ⟨r, n.delivered ++ [info.request]⟩ := by
  have hsub := List.subset_append_left n.delivered [info.request]
  have hold : ∀ q ∈ n.replica.commitQueue,
      Certified cfg (n.delivered ++ [info.request]) .prepare q.seq q.hash ∧
        Certified cfg (n.delivered ++ [info.request]) .commit q.seq q.hash := by
    intro q hq
    obtain ⟨hp, hc⟩ := h.executed q hq
    exact ⟨hp.mono hsub, hc.mono hsub⟩
  rcases (addConsensusMsg_cases hadd).2 with ⟨rfl, -⟩ | ⟨a, ha, -, -, hpool, hqueue, -⟩
  · exact ⟨fun k => (h.collectors k).mono hsub, hold⟩
  · obtain ⟨hcollector, hcommitted⟩ :=
      (h.collectors (n.replica.pool.slot info.request.seq)).addRequest hmatch ha
    constructor
    · intro k
      rw [hpool]
      simp only [LockFreeCollectorPool.set, Function.update_apply]
      split
      · exact hcollector
      · exact (h.collectors k).mono hsub
    · intro q hq
      rw [hqueue, List.mem_append, Option.mem_toList] at hq
      rcases hq with hq | hq
      · exact hold q hq
      · exact hcommitted q hq

/-- Every step that meets the condition keeps the certificates. -/
theorem IntakeInv.step {act : IntakeAction} (h : IntakeInv cfg n) (hok : VotesMatch cfg n act)
    (hs : n.step cfg act = some n') : IntakeInv cfg n' := by
  cases act with
  | addConsensusMsg info pick =>
    obtain ⟨-, -, hs⟩ := Option.bind_eq_some_iff.1 hs
    obtain ⟨⟨r, ret⟩, hadd, hs⟩ := Option.bind_eq_some_iff.1 hs
    cases hs
    exact h.addConsensusMsg hok hadd
  | setView view primary =>
    cases hs
    exact h.frame (fun k => .inl rfl) rfl
  | orderMessage =>
    obtain ⟨r, hr, rfl⟩ := Option.map_eq_some_iff.1 hs
    obtain ⟨-, -, hqueue, -⟩ := orderMessage_spec hr
    exact h.frame (orderMessage_collectors hr) hqueue
  | execute =>
    obtain ⟨r, hr, rfl⟩ := Option.map_eq_some_iff.1 hs
    have hcore := (execute_sameCore hr).1
    exact h.frame (fun k => .inl (by rw [hcore.pool])) hcore.queue
  | updateCheckPointStatus =>
    obtain ⟨r, hr, rfl⟩ := Option.map_eq_some_iff.1 hs
    have hcore := (updateCheckPointStatus_sameCore hr).1
    exact h.frame (fun k => .inl (by rw [hcore.pool])) hcore.queue

/-- **Commit certificate**: if the messages pass the check, a request is executed only with a quorum
of PREPAREs and a quorum of COMMITs for its hash. -/
theorem commit_certificate (h : (intakeSystem cfg).Reachable (VotesMatch cfg) n) :
    n.CommitCertificate cfg := by
  have hinv : IntakeInv cfg n := by
    refine h.invariant (I := IntakeInv cfg) ?_ ?_
    · rintro n ⟨view, primary, id, rfl⟩
      exact ⟨fun k => .fresh cfg _ k, by rintro q ⟨⟩⟩
    · intro n act n' hinv hok hs
      exact hinv.step hok hs
  exact hinv.executed

end

/-! ### Two runs -/

/-- A message for sequence number 1 in view 1. -/
def voteOf (type : RequestType) (sender : ℕ) (hash : String) : IntakeAction :=
  let request : Request :=
    { type := type, currentView := 1, seq := 1, senderId := sender, hash := hash }
  .addConsensusMsg ⟨request, ⟨sender, ""⟩⟩ 0

/-- The votes of three replicas. -/
def votesOf (type : RequestType) (hash : String) : List IntakeAction :=
  [2, 3, 4].map fun sender => voteOf type sender hash

/-- All votes are for the request that was proposed. -/
def matchingRun : List IntakeAction :=
  voteOf .prePrepare 1 "a" :: votesOf .prepare "a" ++ votesOf .commit "a"

/-- All votes are for another hash.  With view change enabled the PREPAREs remove the main request, and
the PRE-PREPARE brings it back. -/
def strayRun : List IntakeAction :=
  voteOf .prePrepare 1 "a" :: votesOf .prepare "b" ++ voteOf .prePrepare 1 "a" :: votesOf .commit "b"

/-- The manager of replica 2 of four, before any message. -/
def intakeStart (enableViewchange : Bool) : Intake :=
  ⟨.construct (plainConfig 4 enableViewchange) 1 1 2, []⟩

/-- What was executed, and the votes that were given, after a run. -/
def intakeResult (enableViewchange : Bool) (run : List IntakeAction) :
    Option (List (ℕ × String) × List (RequestType × String)) :=
  ((intakeSystem (plainConfig 4 enableViewchange)).run (intakeStart enableViewchange) run).map
    fun n => (n.replica.commitQueue.map fun q => (q.seq, q.hash),
      n.delivered.map fun q => (q.type, q.hash))

theorem commit_certificate_matchingRun :
    ∃ n, (intakeSystem (plainConfig 4 true)).run (intakeStart true) matchingRun = some n ∧
      n.replica.commitQueue.map (fun q => (q.seq, q.hash)) = [(1, "a")] ∧
        n.CommitCertificate (plainConfig 4 true) := by
  obtain ⟨n, hn, hreach, hqueue⟩ := (intakeSystem (plainConfig 4 true)).exists_run
    (C := VotesMatch (plainConfig 4 true))
    (P := fun n => n.replica.commitQueue.map (fun q => (q.seq, q.hash)) = [(1, "a")])
    (s := intakeStart true) matchingRun ⟨1, 1, 2, rfl⟩ (by decide +kernel) (by decide +kernel)
  exact ⟨n, hn, hqueue, commit_certificate hreach⟩

/-- The votes of `strayRun`. -/
def strayVotes : List (RequestType × String) :=
  [(.prePrepare, "a"), (.prepare, "b"), (.prepare, "b"), (.prepare, "b"), (.prePrepare, "a"),
    (.commit, "b"), (.commit, "b"), (.commit, "b")]

theorem strayRun_uncertified (vc : Bool)
    (hresult : intakeResult vc strayRun = some ([(1, "a")], strayVotes)) :
    ∃ n, (intakeSystem (plainConfig 4 vc)).Reachable TransitionSystem.always n ∧
      ¬ n.CommitCertificate (plainConfig 4 vc) := by
  obtain ⟨n, hn, heq⟩ := Option.map_eq_some_iff.1 hresult
  obtain ⟨hqueue, hvotes⟩ := Prod.mk.inj heq
  have hinit : (intakeSystem (plainConfig 4 vc)).init (intakeStart vc) := ⟨1, 1, 2, rfl⟩
  refine ⟨n, TransitionSystem.reachable_of_run hinit hn, ?_⟩
  intro h
  have hmem : (1, "a") ∈ n.replica.commitQueue.map fun q => (q.seq, q.hash) := by simp [hqueue]
  obtain ⟨q, hq, hqa⟩ := List.mem_map.1 hmem
  have hhash : q.hash = "a" := congrArg Prod.snd hqa
  -- a quorum of PREPAREs for "a" would have one among the votes
  obtain ⟨v, hv, htype, hvh⟩ := (h q hq).1.exists_vote
  have hvote : (RequestType.prepare, "a") ∈ strayVotes := by
    rw [← hvotes]
    exact List.mem_map.2 ⟨v, hv, by rw [htype, hvh, hhash]⟩
  exact absurd hvote (by decide)

/-- Votes for one hash let a request with another one be executed, without view change and with. -/
theorem commit_certificate_fails :
    (∃ n, (intakeSystem (plainConfig 4 false)).Reachable TransitionSystem.always n ∧
      ¬ n.CommitCertificate (plainConfig 4 false)) ∧
    ∃ n, (intakeSystem (plainConfig 4 true)).Reachable TransitionSystem.always n ∧
      ¬ n.CommitCertificate (plainConfig 4 true) :=
  ⟨strayRun_uncertified false (by decide +kernel), strayRun_uncertified true (by decide +kernel)⟩

end Pbft
