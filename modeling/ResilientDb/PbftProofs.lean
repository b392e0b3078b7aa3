/-
**The proofs in a VIEW-CHANGE.**

For every committed request above the checkpoint, a VIEW-CHANGE carries the PREPAREs that the collector has
kept.  They should be those of a quorum, for one hash and in one view.  The collector counts senders by
hash and keeps the messages in a list; both live through changes of the view, so PREPAREs of two views may
be taken together, and when the pool is reset the proofs are gone while the numbers still count as
committed.

Main definitions:

* `Pbft.QuorumProof` — what a proof should be;
* `Pbft.OneView` — the condition on PREPAREs;
* `Pbft.Replica.KeepsPrepared` — the condition on the state that sends.

Main results:

* `Pbft.ProofInv.addRequest` — a message at a collector;
* `Pbft.prepared_quorum_proofs` — under the conditions, the assertion holds and all proofs are quorum
  proofs.
-/

import ResilientDb.PbftStatus

set_option autoImplicit false

namespace Pbft

/-- The PREPAREs are for one number, one hash and one view, and from enough senders. -/
def QuorumProof (quorum seq : ℕ) (proof : List RequestInfo) : Prop :=
  ∃ hash view, (∀ e ∈ proof, e.request.type = .prepare ∧ e.request.seq = seq ∧
    e.request.hash = hash ∧ e.request.currentView = view) ∧
    quorum ≤ (proof.map fun e => e.request.senderId).toFinset.card

/-! ### The proofs at a collector -/

/-- The messages that are kept are PREPAREs, in one view for each hash.  Until the collector is prepared
they are those that are counted; then they are those of a quorum. -/
structure ProofInv (quorum : ℕ) (c : TransactionCollector) : Prop where
  prepares : ∀ e ∈ c.preparedProof, e.request.type = .prepare ∧ e.request.seq = c.seq
  oneView : ∀ e ∈ c.preparedProof, ∀ e' ∈ c.preparedProof, e.request.hash = e'.request.hash →
    e.request.currentView = e'.request.currentView
  counted : c.isPrepared = false → ∀ hash, ∀ j ∈ c.senders .prepare hash,
    ∃ e ∈ c.preparedProof, e.request.hash = hash ∧ e.request.senderId = j
  quorum : c.isPrepared = true → ∃ hash, (∀ e ∈ c.preparedProof, e.request.hash = hash) ∧
    quorum ≤ (c.preparedProof.map fun e => e.request.senderId).toFinset.card

/-- A PREPARE for a collector that is not prepared is of the view of those for the same hash. -/
def Replica.SameView (r : Replica) (q : Request) : Prop :=
  q.type = .prepare → (r.pool.getCollector q.seq).isPrepared = false →
    ∀ e ∈ (r.pool.getCollector q.seq).preparedProof, e.request.hash = q.hash →
      e.request.currentView = q.currentView

section

variable {cfg : Config} {c c' : TransactionCollector} {a : Added} {info : RequestInfo} {pick quorum : ℕ}

theorem ProofInv.frame (h : ProofInv quorum c) (hseq : c'.seq = c.seq)
    (hprepared : c'.isPrepared = c.isPrepared) (hproof : c'.preparedProof = c.preparedProof)
    (hsenders : c'.senders .prepare = c.senders .prepare) : ProofInv quorum c' := by
  refine ⟨?_, ?_, ?_, ?_⟩
  · rw [hproof, hseq]
    exact h.prepares
  · rw [hproof]
    exact h.oneView
  · rw [hproof, hprepared, hsenders]
    exact h.counted
  · rw [hproof, hprepared]
    exact h.quorum

theorem ProofInv.fresh (quorum seq : ℕ) : ProofInv quorum { seq := seq } where
  prepares := by simp
  oneView := by simp
  counted := by simp
  quorum := by simp

theorem ProofInv.addMainRequest (h : ProofInv quorum c) (callBack : CallBack) :
    ProofInv quorum (c.addMainRequest info callBack).collector := by
  unfold TransactionCollector.addMainRequest
  dsimp only
  split <;> exact h.frame rfl rfl rfl rfl

theorem addSender_senders (c : TransactionCollector) {q : Request} (htype : q.type ≠ .prepare) :
    (c.addSender q).senders .prepare = c.senders .prepare :=
  Function.update_of_ne htype.symm _ _

theorem ProofInv.addVote (h : ProofInv quorum c) {q : Request} (htype : q.type ≠ .prepare)
    {callBack : CallBack} (ha : c.addVote q callBack = some a) : ProofInv quorum a.collector := by
  have hcert : ProofInv quorum (c.addCert q) := by
    unfold TransactionCollector.addCert
    split
    · exact h
    · split <;> exact h.frame rfl rfl rfl rfl
  obtain ⟨-, -, ha⟩ := Option.bind_eq_some_iff.1 ha
  have hcount : ProofInv quorum ((c.addCert q).count q callBack).2 :=
    hcert.frame rfl rfl rfl (addSender_senders _ htype)
  dsimp only at ha
  split at ha
  · cases ha
    unfold TransactionCollector.commit
    split
    · exact hcount
    · split <;> exact hcount.frame rfl rfl rfl rfl
  · cases ha
    exact hcount

/-- A PREPARE is kept and counted. -/
theorem ProofInv.count (h : ProofInv quorum c) (hprepared : c.isPrepared = false)
    (htype : info.request.type = .prepare) (hseq : c.seq = info.request.seq)
    (hview : ∀ e ∈ c.preparedProof, e.request.hash = info.request.hash →
      e.request.currentView = info.request.currentView) (callBack : CallBack) : ProofInv quorum
      (({ c with preparedProof := c.preparedProof ++ [info] }).count info.request callBack).2 where
  prepares := by
    intro e he
    rcases List.mem_append.1 he with he | he
    · exact h.prepares e he
    · rw [List.mem_singleton.1 he]
      exact ⟨htype, hseq.symm⟩
  oneView := by
    intro e he e' he' hhash
    rcases List.mem_append.1 he with he | he <;> rcases List.mem_append.1 he' with he' | he'
    · exact h.oneView e he e' he' hhash
    · rw [List.mem_singleton.1 he'] at hhash ⊢
      exact hview e he hhash
    · rw [List.mem_singleton.1 he] at hhash ⊢
      exact (hview e' he' hhash.symm).symm
    · rw [List.mem_singleton.1 he, List.mem_singleton.1 he']
  counted := by
    intro _ hash j hj
    rcases TransactionCollector.mem_senders_addSender hj with hj | ⟨-, rfl, rfl⟩
    · obtain ⟨e, he, hfields⟩ := h.counted hprepared hash j hj
      exact ⟨e, List.mem_append_left _ he, hfields⟩
    · exact ⟨info, List.mem_append_right _ List.mem_cons_self, rfl, rfl⟩
  quorum := by
    intro htrue
    exact absurd (hprepared.symm.trans htrue) Bool.false_ne_true

/-- The messages for the hash that has a quorum are those of a quorum. -/
theorem ProofInv.prepared (h : ProofInv quorum c) (hprepared : c.isPrepared = false) {hash : String}
    (hquorum : quorum ≤ (c.senders .prepare hash).card) : ProofInv quorum (c.prepared hash pick) := by
  have hkept : ProofInv quorum { c with
      isPrepared := true
      preparedProof := c.preparedProof.filter fun e => e.request.hash = hash } := by
    refine ⟨fun e he => h.prepares e (List.mem_filter.1 he).1,
      fun e he e' he' => h.oneView e (List.mem_filter.1 he).1 e' (List.mem_filter.1 he').1,
      fun hfalse => absurd hfalse (by simp), fun _ => ⟨hash, fun e he => ?_, hquorum.trans ?_⟩⟩
    · exact of_decide_eq_true (List.mem_filter.1 he).2
    · refine Finset.card_le_card fun j hj => ?_
      obtain ⟨e, he, hhash, hsender⟩ := h.counted hprepared hash j hj
      refine List.mem_toFinset.2 (List.mem_map.2 ⟨e, List.mem_filter.2 ⟨he, ?_⟩, hsender⟩)
      exact decide_eq_true hhash
  unfold TransactionCollector.prepared
  dsimp only
  split <;> exact hkept.frame rfl rfl rfl rfl

theorem ProofInv.addPrepare (h : ProofInv cfg.minDataReceiveNum c)
    (htype : info.request.type = .prepare) (hseq : c.seq = info.request.seq)
    (hview : c.isPrepared = false → ∀ e ∈ c.preparedProof, e.request.hash = info.request.hash →
      e.request.currentView = info.request.currentView)
    (ha : c.addPrepare info pick (mayConsensusChangeStatus cfg info.request.type) = some a) :
    ProofInv cfg.minDataReceiveNum a.collector := by
  unfold TransactionCollector.addPrepare at ha
  split at ha
  · cases ha
    exact h
  · rename_i hstatus
    split at ha
    · cases ha
      exact h
    · rename_i hprepared
      rw [Bool.not_eq_true] at hprepared
      obtain ⟨-, -, ha⟩ := Option.bind_eq_some_iff.1 ha
      cases ha
      have hcount := h.count hprepared htype hseq (hview hprepared)
        (mayConsensusChangeStatus cfg info.request.type)
      split
      · rename_i hready
        refine hcount.prepared hprepared ?_
        -- the status has just become `READY_COMMIT`
        simp only [TransactionCollector.count, mayConsensusChangeStatus, htype] at hready ⊢
        split at hready
        · rename_i hchanged
          exact hchanged.2
        · have hready : c.status = .readyCommit := hready
          rw [hready] at hstatus
          exact absurd (by decide) hstatus
      · exact hcount

/-- **A message at a collector.** -/
theorem ProofInv.addRequest (hvc : cfg.enableViewchange = true)
    (h : ProofInv cfg.minDataReceiveNum c)
    (hview : info.request.type = .prepare → c.isPrepared = false → ∀ e ∈ c.preparedProof,
      e.request.hash = info.request.hash → e.request.currentView = info.request.currentView)
    (ha : c.addRequest cfg.enableViewchange info (info.request.type = .prePrepare) pick
      (mayConsensusChangeStatus cfg info.request.type) = some a) :
    ProofInv cfg.minDataReceiveNum a.collector := by
  rcases TransactionCollector.addRequest_cases ha with
    ⟨ret, rfl⟩ | ⟨hseq, ⟨-, rfl⟩ | ⟨-, ⟨-, htype⟩, ha⟩ | ⟨-, htype, ha⟩⟩
  · exact h
  · exact h.addMainRequest _
  · exact h.addPrepare htype hseq (hview htype) ha
  · exact h.addVote (htype hvc) ha

end

/-! ### The proofs of a replica -/

section

variable {p : ServerSetup} {cfg : Config} {r r' : Replica} {info : RequestInfo} {pick quorum : ℕ}
  {n n' : Node} {l l' : Life} {a : LifeAction}

/-- The invariant of a replica. -/
structure PoolInv (quorum : ℕ) (r : Replica) : Prop where
  collectors : ∀ k, ProofInv quorum (r.pool.collector k)
  pending : ∀ e ∈ r.pendingRecovery.entries, e.2.request.type = .prePrepare

theorem PoolInv.congr (h : PoolInv quorum r) (hcore : SameCore r r') : PoolInv quorum r' :=
  ⟨by rw [hcore.pool]; exact h.collectors, by rw [hcore.pending]; exact h.pending⟩

theorem PoolInv.addConsensusMsg (hvc : cfg.enableViewchange = true)
    (h : PoolInv cfg.minDataReceiveNum r) (hview : r.SameView info.request)
    {ret : CollectorResultCode} (hadd : r.addConsensusMsg cfg info pick = some (r', ret)) :
    PoolInv cfg.minDataReceiveNum r' := by
  rcases (addConsensusMsg_cases hadd).2 with ⟨rfl, -⟩ | ⟨a, ha, -, hpending, hpool, -, -⟩
  · exact h
  · refine ⟨fun k => ?_, by rw [hpending]; exact h.pending⟩
    simp only [hpool, LockFreeCollectorPool.set, Function.update_apply]
    split
    · exact (h.collectors _).addRequest hvc hview ha
    · exact h.collectors k

theorem PoolInv.handlerRule (hvc : cfg.enableViewchange = true) :
    HandlerRule cfg (PoolInv cfg.minDataReceiveNum) fun info => info.request.type = .prePrepare where
  frame := fun h hcore _ => h.congr hcore
  pending := fun h => h.pending
  wait := fun h hm => ⟨h.collectors, hm⟩
  unforced := fun h => h
  propose := fun h hq hadd => h.addConsensusMsg hvc (fun htype => by simp [hq] at htype) hadd

theorem PoolInv.receive (hvc : cfg.enableViewchange = true) (h : PoolInv cfg.minDataReceiveNum r)
    (hview : r.SameView info.request) {o : Outcome} (ho : r.receive cfg info pick = some o) :
    PoolInv cfg.minDataReceiveNum o.replica :=
  (PoolInv.handlerRule hvc).receive h id (fun _ _ _ _ hadd => h.addConsensusMsg hvc hview hadd) ho

theorem PoolInv.setNextCommitSeq (h : PoolInv quorum r) (seq : ℕ) :
    PoolInv quorum (r.setNextCommitSeq seq) :=
  ⟨fun _ => .fresh quorum _, h.pending⟩

theorem PoolInv.commitSpec (hvc : p.cfg.enableViewchange = true)
    (h : PoolInv p.cfg.minDataReceiveNum n.replica) (hview : n.replica.SameView info.request)
    (hspec : CommitSpec p n info pick n') : PoolInv p.cfg.minDataReceiveNum n'.replica := by
  rcases hspec.replica with hcore | ⟨o, ho, hr⟩
  · exact h.congr hcore
  · rw [hr]
    exact h.receive hvc hview ho

/-- The condition: for each hash, the PREPAREs that a collector keeps are of one view. -/
def OneView (l : Life) : LifeAction → Prop
  | .server a => ∀ q ∈ l.server.taken a, l.replica.SameView q
  | .replay info _ => l.replica.SameView info.request
  | _ => True

instance (r : Replica) (q : Request) : Decidable (r.SameView q) :=
  inferInstanceAs (Decidable (_ → _ → ∀ e ∈ (r.pool.getCollector q.seq).preparedProof, _))

instance (l : Life) (a : LifeAction) : Decidable (OneView l a) := by
  unfold OneView
  split <;> infer_instance

theorem Replica.SameView.congr {q q' : Request} (h : r.SameView q) (hcore : SameCore r r')
    (hq : q.unmarked = q'.unmarked) : r'.SameView q' := by
  obtain ⟨htype, hseq, hhash, -, -⟩ := Request.fields_of_unmarked hq
  have hview : q.unmarked.currentView = q'.unmarked.currentView := congrArg Request.currentView hq
  have hview : q.currentView = q'.currentView := hview
  rw [Replica.SameView, hcore.pool, ← htype, ← hseq, ← hhash, ← hview]
  exact h

theorem PoolInv.server (hvc : p.cfg.enableViewchange = true) {a : ServerAction} {s s' : Server}
    (h : PoolInv p.cfg.minDataReceiveNum s.node.replica)
    (hok : ∀ q ∈ s.taken a, s.node.replica.SameView q) (hstep : s.step p a = some s') :
    PoolInv p.cfg.minDataReceiveNum s'.node.replica := by
  rcases Server.nodeStep_cases (Server.step_signed hstep).1 with hquiet | ⟨info, pick, n, htaking⟩
  · rcases hquiet.replica with hcore | horder
    · exact h.congr hcore
    · refine ⟨fun k => ?_, by rw [(orderMessage_spec horder).2.1]; exact h.pending⟩
      rcases orderMessage_collectors horder k with hk | ⟨seq, hk⟩
      · rw [hk]
        exact h.collectors k
      · rw [hk]
        exact .fresh _ seq
  · obtain ⟨q, hq, hmarks⟩ := htaking.taken
    exact PoolInv.commitSpec (p := s.setup p) hvc (h.congr htaking.replica)
      ((hok q hq).congr htaking.replica hmarks) htaking.spec

theorem PoolInv.life (hvc : p.cfg.enableViewchange = true)
    (h : PoolInv p.cfg.minDataReceiveNum l.replica) (hok : OneView l a)
    (hstep : l.step p a = some l') : PoolInv p.cfg.minDataReceiveNum l'.replica := by
  cases a with
  | server a =>
    simp only [Life.step] at hstep
    split at hstep
    · cases hstep
    · obtain ⟨s, hs, rfl⟩ := Option.map_eq_some_iff.1 hstep
      exact h.server hvc hok hs
  | systemInfo view primary =>
    cases hstep
    exact h.congr ⟨rfl, rfl, rfl, rfl⟩
  | startPoint seq =>
    cases hstep
    exact h.setNextCommitSeq _
  | replay info pick =>
    obtain ⟨n, hn, rfl⟩ := Option.map_eq_some_iff.1 hstep
    exact PoolInv.commitSpec (p := l.server.setup p) hvc h hok (Node.internalConsensusCommit_spec hn)
  | processStatusSync sender seq primary view | readLastSeq =>
    cases hstep
    exact h
  | checkStatus =>
    simp only [Life.step] at hstep
    split at hstep
    · cases hstep
      exact h
    · cases hstep
      exact h.setNextCommitSeq _
  | checkSysStatus =>
    cases hstep
    refine h.congr ?_
    unfold Pbft.checkSysStatus
    dsimp only
    split <;> exact ⟨rfl, rfl, rfl, rfl⟩

end

/-! ### The VIEW-CHANGE -/

/-- The condition on the state that sends: the collectors of the committed numbers above the checkpoint are
still those that were prepared. -/
def Replica.KeepsPrepared (r : Replica) (m : ViewChangeManager) : Prop :=
  ∀ seq, max m.stableCkpt.seq m.unstableCkpt < seq → seq ≤ r.highestPreparedSeq →
    r.isCommitted seq = true →
      (r.pool.getCollector seq).seq = seq ∧ (r.pool.getCollector seq).isPrepared = true

theorem mapM_eq_some_map {α β : Type} {f : α → Option β} {g : α → β} : ∀ {l : List α},
    (∀ x ∈ l, f x = some (g x)) → l.mapM f = some (l.map g)
  | [], _ => rfl
  | x :: l, h => by
    rw [List.mapM_cons, h x List.mem_cons_self,
      mapM_eq_some_map fun y hy => h y (List.mem_cons_of_mem x hy)]
    rfl

theorem ProofInv.quorumProof {quorum seq : ℕ} {c : TransactionCollector} (h : ProofInv quorum c)
    (hseq : c.seq = seq) (hprepared : c.isPrepared = true) : QuorumProof quorum seq c.preparedProof := by
  obtain ⟨hash, hhash, hquorum⟩ := h.quorum hprepared
  refine ⟨hash, ((c.preparedProof.head?.map fun e => e.request.currentView).getD 0), fun e he => ?_,
    hquorum⟩
  refine ⟨(h.prepares e he).1, (h.prepares e he).2.trans hseq, hhash e he, ?_⟩
  cases hproof : c.preparedProof with
  | nil =>
    rw [hproof] at he
    exact absurd he List.not_mem_nil
  | cons first rest =>
    have hfirst : first ∈ c.preparedProof := hproof ▸ List.mem_cons_self
    exact h.oneView e he first hfirst ((hhash e he).trans (hhash first hfirst).symm)

/-- **Prepared proofs.**  In every run in which collectors keep PREPAREs of one view, and whenever the
prepared collectors are still there, a VIEW-CHANGE is sent, and all its proofs are those of a quorum. -/
theorem prepared_quorum_proofs {p : ServerSetup} (hvc : p.cfg.enableViewchange = true) {l : Life}
    (h : (lifeSystem p).Reachable OneView l) (m : ViewChangeManager)
    (hkept : l.replica.KeepsPrepared m) :
    ∃ message, sendViewChangeMsg p.cfg l.replica m = some message ∧
      ∀ msg ∈ message.preparedMsg, QuorumProof p.cfg.minDataReceiveNum msg.seq msg.proof := by
  have hpool : PoolInv p.cfg.minDataReceiveNum l.replica := by
    refine h.invariant (I := fun l => PoolInv p.cfg.minDataReceiveNum l.replica) ?_
      fun l a l' hl hok hstep => hl.life hvc hok hstep
    rintro l ⟨id, _, _, rfl⟩
    exact ⟨fun _ => .fresh _ _, by simp [Life.replica, Replica.construct, OrderedMap.empty]⟩
  set seqs := (List.range' (max m.stableCkpt.seq m.unstableCkpt + 1)
    (l.replica.highestPreparedSeq - max m.stableCkpt.seq m.unstableCkpt)).filter fun seq =>
      l.replica.isCommitted seq with hseqs
  have hproofs : ∀ seq ∈ seqs, QuorumProof p.cfg.minDataReceiveNum seq
      (l.replica.pool.getCollector seq).preparedProof := by
    intro seq hseq
    obtain ⟨hrange, hcommitted⟩ := List.mem_filter.1 (hseqs ▸ hseq)
    obtain ⟨hlow, hhigh⟩ := List.mem_range'_1.1 hrange
    obtain ⟨hown, hprepared⟩ := hkept seq (by omega) (by omega) hcommitted
    exact (hpool.collectors _).quorumProof hown hprepared
  refine ⟨⟨(l.replica.currentView + m.viewChangeCounter) % 2 ^ 64, { m.stableCkpt with
    seq := max m.stableCkpt.seq m.unstableCkpt }, seqs.map fun seq =>
      ⟨seq, (l.replica.pool.getCollector seq).preparedProof⟩⟩, ?_, ?_⟩
  · unfold sendViewChangeMsg
    dsimp only
    rw [mapM_eq_some_map (g := fun seq =>
      (⟨seq, (l.replica.pool.getCollector seq).preparedProof⟩ : PreparedMessage))]
    · rfl
    · intro seq hseq
      obtain ⟨_, _, _, hquorum⟩ := hproofs seq hseq
      have hlen : p.cfg.minDataReceiveNum ≤ (l.replica.pool.getCollector seq).preparedProof.length :=
        (hquorum.trans (List.toFinset_card_le _)).trans_eq (List.length_map _)
      simp [hlen]
  · intro msg hmsg
    obtain ⟨seq, hseq, rfl⟩ := List.mem_map.1 hmsg
    exact hproofs seq hseq

/-- A message is signed by its sender, and arrives. -/
def arrives (type : RequestType) (view sender : ℕ) : List LifeAction :=
  let q : Request := { type := type, currentView := view, seq := 1, hash := "a", senderId := sender }
  [.server (.sign sender q), .server (.process ⟨q, some ⟨sender, "signature"⟩⟩ 0)]

/-- A request is prepared by two replicas in the first view, then by replica 4 in the view it is in, and
committed. -/
def preparedRun (enter : List LifeAction) (view : ℕ) : List LifeAction :=
  arrives .prePrepare 1 1 ++ arrives .prepare 1 2 ++ arrives .prepare 1 3 ++ enter ++
    arrives .prepare view 4 ++ arrives .commit view 2 ++ arrives .commit view 3 ++
    arrives .commit view 4

/-- The proofs that replica 1 sends, without a checkpoint: their views. -/
def provedViews (l : Life) : Option (List (List ℕ)) :=
  (sendViewChangeMsg fourServers.cfg l.replica {}).map fun message =>
    message.preparedMsg.map fun msg => msg.proof.map fun e => e.request.currentView

theorem prepared_quorum_proofs_preparedRun : ∃ l message,
    (lifeSystem fourServers).run (lifeStart fourServers) (preparedRun [] 1) = some l ∧
    l.replica.isCommitted 1 = true ∧
    sendViewChangeMsg fourServers.cfg l.replica {} = some message ∧
    ∀ msg ∈ message.preparedMsg, QuorumProof 3 msg.seq msg.proof := by
  obtain ⟨l, hl, hreach, hhighest, hcommitted, hcollector⟩ := (lifeSystem fourServers).exists_run
    (C := OneView) (P := fun l => l.replica.highestPreparedSeq = 1 ∧
      l.replica.isCommitted 1 = true ∧ (l.replica.pool.getCollector 1).seq = 1 ∧
      (l.replica.pool.getCollector 1).isPrepared = true) (preparedRun [] 1)
    (lifeStart_init fourServers) (by decide +kernel) (by decide +kernel)
  have hkept : l.replica.KeepsPrepared {} := by
    intro seq hlow hhigh _
    obtain rfl : seq = 1 := by
      omega
    exact hcollector
  obtain ⟨message, hsend, hproofs⟩ := prepared_quorum_proofs rfl hreach {} hkept
  exact ⟨l, message, hl, hcommitted, hsend, hproofs⟩

/-- The view changes between the PREPAREs, and the proof is of two views.  After a restart from a
checkpoint the proofs are missing. -/
theorem prepared_quorum_proofs_fails :
    (∃ l, (lifeSystem fourServers).run (lifeStart fourServers) (preparedRun (statusOf 2 2) 2) = some l ∧
      provedViews l = some [[1, 1, 2]]) ∧
    ∃ l, (lifeSystem fourServers).run (lifeStart fourServers) [.startPoint 3] = some l ∧
      sendViewChangeMsg fourServers.cfg l.replica {} = none := by
  constructor
  · have hrun : ((lifeSystem fourServers).run (lifeStart fourServers)
        (preparedRun (statusOf 2 2) 2)).any (fun l => provedViews l = some [[1, 1, 2]]) = true := by
      decide +kernel
    obtain ⟨l, hl, hviews⟩ := (Option.any_eq_true _ _).1 hrun
    exact ⟨l, hl, of_decide_eq_true hviews⟩
  · exact ⟨_, rfl, by decide +kernel⟩

end Pbft
