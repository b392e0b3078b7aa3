/-
**What the handlers of a PBFT replica do.**

`Pbft.AddSpec` says what one message does to its collector.  From it follow, for every handler, what
it keeps and what it sends.  What it keeps is stated once, for any predicates that say what is known
about the messages of the network (`Pbft.Facts`): the collectors of a replica hold what has been
proposed and count what has been sent, and what was passed to the executor is what the facts allow.

Main definitions:

* `Pbft.AddSpec` — what `AddRequest` does;
* `Pbft.Facts`, `Pbft.ReplicaInv` — an invariant of a replica, over facts about the messages;
* `Pbft.HandlerRule` — what makes an invariant one that the handlers keep.

Main results:

* `Pbft.TransactionCollector.addRequest_spec` — the specification of `AddRequest`;
* `Pbft.HandlerRule.receive` — a rule for invariants that the handlers keep;
* `Pbft.receive_inv` — the handlers keep the invariant;
* `Pbft.receive_broadcast` — what the handlers send.
-/

import ResilientDb.PbftReplica

set_option autoImplicit false

namespace Pbft

open TransactionStatue (code)
open Function (update_apply update_of_ne update_self)
open Option (bind_eq_some_iff)

/-! ### One message at one collector -/

/-- A COMMIT with this content would complete a quorum at the collector. -/
def TransactionCollector.Completes (cfg : Config) (c : TransactionCollector) (request : Request) :
    Prop :=
  c.seq = request.seq ∧ c.status = .readyCommit ∧
    cfg.minDataReceiveNum ≤ (insert request.senderId (c.senders .commit request.hash)).card

instance (cfg : Config) (c : TransactionCollector) (request : Request) :
    Decidable (c.Completes cfg request) :=
  inferInstanceAs (Decidable (_ ∧ _))

/-- The collector holds the PRE-PREPARE, as main request or besides it. -/
def TransactionCollector.Holds (c : TransactionCollector) (info : RequestInfo) : Prop :=
  info ∈ c.mainRequest ∨ info ∈ c.otherMainRequest

/-- What `AddRequest` does with a message. -/
structure AddSpec (cfg : Config) (c : TransactionCollector) (request : Request) (a : Added) :
    Prop where
  seq : a.collector.seq = c.seq
  status : c.status.code ≤ a.collector.status.code
  resting : c.status ≠ .readyExecute → a.collector.status ≠ .readyExecute
  prepared : request.type = .prepare → a.changed = true →
    c.seq = request.seq ∧ c.status = .readyPrepare ∧ a.collector.status = .readyCommit
  senders : ∀ h j, j ∈ a.collector.senders .commit h → j ∈ c.senders .commit h ∨
    (request.type = .commit ∧ c.seq = request.seq ∧ h = request.hash ∧ j = request.senderId)
  holds : ∀ info, a.collector.Holds info → c.Holds info ∨
    (request.type = .prePrepare ∧ c.seq = request.seq ∧ info.request = request)
  committed : c.status ≠ .readyExecute → ∀ q ∈ a.committed, request.type = .commit ∧
    c.Completes cfg request ∧ ∃ main ∈ c.mainRequest, q.seq = main.request.seq ∧
      q.hash = main.request.hash ∧
      q.data = main.request.data

namespace TransactionCollector

variable {cfg : Config} {c : TransactionCollector} {info : RequestInfo} {pick : ℕ} {a : Added}

/-- A message that is refused meets the specification. -/
theorem addSpec_refused (cfg : Config) (c : TransactionCollector) (request : Request) (ret : ℤ) :
    AddSpec cfg c request ⟨c, ret, false, none⟩ where
  seq := rfl
  status := le_rfl
  resting := id
  prepared := by simp
  senders := fun _ _ h => .inl h
  holds := fun _ h => .inl h
  committed := by simp

/-- The status of a collector never goes back. -/
theorem le_mayConsensusChangeStatus (cfg : Config) (type : RequestType) (count : ℕ)
    (status : TransactionStatue) (ret : Bool) :
    status.code ≤ (mayConsensusChangeStatus cfg type count status ret).2.code := by
  unfold mayConsensusChangeStatus
  cases type <;> simp only [le_refl]
  · split <;> simp_all [code]
  · split <;> simp_all [code]
  · split <;> simp_all [code]

variable {type : RequestType} {count : ℕ} {status : TransactionStatue}

theorem mayConsensusChangeStatus_resting {ret : Bool} (htype : type ≠ .commit)
    (h : status ≠ .readyExecute) :
    (mayConsensusChangeStatus cfg type count status ret).2 ≠ .readyExecute := by
  unfold mayConsensusChangeStatus
  cases type <;> simp only [ne_eq, h, not_false_eq_true]
  · split <;> simp_all
  · split <;> simp_all
  · exact absurd rfl htype

theorem addSpec_addMainRequest (hseq : c.seq = info.request.seq)
    (htype : info.request.type = .prePrepare) : AddSpec cfg c info.request
      (c.addMainRequest info (mayConsensusChangeStatus cfg info.request.type)) := by
  simp only [addMainRequest]
  split
  · -- the slot is taken: the PRE-PREPARE is kept beside it
    refine ⟨rfl, le_rfl, id, by simp, fun _ _ h => .inl h, ?_, by simp⟩
    rintro x (hx | hx)
    · exact .inl (.inl hx)
    · rcases List.mem_append.1 hx with hx | hx
      · exact .inl (.inr hx)
      · rw [List.mem_singleton] at hx
        exact .inr ⟨htype, hseq, by rw [hx]⟩
  · refine ⟨rfl, le_mayConsensusChangeStatus cfg _ 1 _ _, ?_, by simp [htype],
      fun _ _ h => .inl h, ?_, by simp⟩
    · rw [htype]
      exact mayConsensusChangeStatus_resting (by simp)
    rintro x (hx | hx)
    · obtain rfl : info = x := Option.some.inj hx
      exact .inr ⟨htype, hseq, rfl⟩
    · exact .inl (.inr hx)

/-- At most the sender of the message is added to the votes. -/
theorem mem_senders_addSender {request : Request} {h : String} {j : ℕ}
    (hj : j ∈ (c.addSender request).senders type h) : j ∈ c.senders type h ∨
      (request.type = type ∧ h = request.hash ∧ j = request.senderId) := by
  simp only [addSender] at hj
  by_cases htype : request.type = type
  · subst htype
    rw [update_self] at hj
    by_cases hh : h = request.hash
    · subst hh
      rw [update_self, Finset.mem_insert] at hj
      exact hj.symm.imp_right fun hj => ⟨rfl, rfl, hj⟩
    · rw [update_of_ne hh] at hj
      exact .inl hj
  · rw [update_of_ne (Ne.symm htype)] at hj
    exact .inl hj

theorem senders_subset_addSender (c : TransactionCollector) (request : Request)
    (type : RequestType) (h : String) :
    c.senders type h ⊆ (c.addSender request).senders type h := by
  intro j hj
  simp only [addSender]
  by_cases htype : type = request.type
  · subst htype
    rw [update_self]
    by_cases hh : h = request.hash
    · subst hh
      rw [update_self]
      exact Finset.mem_insert_of_mem hj
    · rwa [update_of_ne hh]
  · rwa [update_of_ne htype]

/-- The main request is chosen among those that were received. -/
theorem prepared_spec (c : TransactionCollector) (hash : String) (pick : ℕ) :
    (c.prepared hash pick).seq = c.seq ∧ (c.prepared hash pick).status = c.status ∧
      (c.prepared hash pick).senders = c.senders ∧
      ∀ info, (c.prepared hash pick).Holds info → c.Holds info := by
  simp only [prepared]
  split
  · exact ⟨rfl, rfl, rfl, fun _ h => h⟩
  · refine ⟨rfl, rfl, rfl, ?_⟩
    rintro info (h | h)
    · exact .inr (List.mem_of_mem_filter (List.mem_of_getElem? h))
    · cases h

theorem addCert_frame (c : TransactionCollector) (request : Request) :
    (c.addCert request).seq = c.seq ∧ (c.addCert request).status = c.status ∧
      (c.addCert request).senders = c.senders ∧ (c.addCert request).mainRequest = c.mainRequest ∧
      (c.addCert request).otherMainRequest = c.otherMainRequest := by
  unfold addCert
  split
  · exact ⟨rfl, rfl, rfl, rfl, rfl⟩
  · split <;> exact ⟨rfl, rfl, rfl, rfl, rfl⟩

/-- `Commit` passes on the main request. -/
theorem commit_spec (c : TransactionCollector) (h : c.status = .readyExecute) :
    c.commit.1.seq = c.seq ∧ c.commit.1.status = .executed ∧ c.commit.1.senders = c.senders ∧
      (∀ info, c.commit.1.Holds info → c.Holds info) ∧
      ∀ q ∈ c.commit.2, ∃ main ∈ c.mainRequest, q.seq = main.request.seq ∧
        q.hash = main.request.hash ∧ q.data = main.request.data := by
  unfold commit
  rw [if_neg (by simp [h])]
  cases hmain : c.mainRequest with
  | none =>
    refine ⟨rfl, rfl, rfl, ?_, by simp⟩
    rintro info (h | h)
    · cases h
    · exact .inr h
  | some main =>
    refine ⟨rfl, rfl, rfl, ?_, ?_⟩
    · rintro info (h | h)
      · cases h
      · exact .inr h
    · intro q hq
      cases hq
      exact ⟨main, rfl, rfl, rfl, rfl⟩

variable {callBack : CallBack}

/-- A vote is counted for the hash it carries, under the sender it names. -/
def Counts (c : TransactionCollector) (request : Request) (c' : TransactionCollector) : Prop :=
  c'.seq = c.seq ∧ ∀ type hash, ∀ j ∈ c'.senders type hash, j ∈ c.senders type hash ∨
    (request.type = type ∧ c.seq = request.seq ∧ hash = request.hash ∧ j = request.senderId)

variable {request : Request}

theorem counts_count (callBack : CallBack) (hseq : c.seq = request.seq) :
    c.Counts request (c.count request callBack).2 := by
  refine ⟨rfl, fun type hash j hj => ?_⟩
  rcases mem_senders_addSender hj with hold | ⟨htype, hhash, hsender⟩
  · exact .inl hold
  · exact .inr ⟨htype, hseq, hhash, hsender⟩

/-- A PREPARE adds at most its own sender. -/
theorem counts_addPrepare (hseq : c.seq = info.request.seq)
    (h : c.addPrepare info pick callBack = some a) : c.Counts info.request a.collector := by
  unfold addPrepare at h
  split at h
  · cases h
    exact ⟨rfl, fun _ _ _ hj => .inl hj⟩
  · split at h
    · cases h
      exact ⟨rfl, fun _ _ _ hj => .inl hj⟩
    · obtain ⟨-, -, h⟩ := bind_eq_some_iff.1 h
      cases h
      have hcounts := counts_count (c := { c with preparedProof := c.preparedProof ++ [info] })
        callBack hseq
      split
      · obtain ⟨hseq', -, hsenders, -⟩ := prepared_spec
          (({ c with preparedProof := c.preparedProof ++ [info] }).count info.request callBack).2
          info.request.hash pick
        unfold Counts
        rw [hseq', hsenders]
        exact hcounts
      · exact hcounts

theorem counts_addVote (hseq : c.seq = request.seq)
    (h : c.addVote request callBack = some a) : c.Counts request a.collector := by
  obtain ⟨-, -, h⟩ := bind_eq_some_iff.1 h
  obtain ⟨cseq, -, csenders, -, -⟩ := addCert_frame c request
  have hcounts := counts_count (c := c.addCert request) callBack (cseq.trans hseq)
  unfold Counts at hcounts ⊢
  rw [cseq, csenders] at hcounts
  dsimp only at h
  split at h
  · rename_i hexec
    cases h
    obtain ⟨hseq', -, hsenders, -, -⟩ := commit_spec _ hexec
    rw [hseq', hsenders]
    exact hcounts
  · cases h
    exact hcounts

theorem mayConsensusChangeStatus_prepare
    (h : (mayConsensusChangeStatus cfg .prepare count status false).1 = true) :
    status = .readyPrepare ∧
      (mayConsensusChangeStatus cfg .prepare count status false).2 = .readyCommit := by
  simp only [mayConsensusChangeStatus] at h ⊢
  split at h
  · rename_i hc
    rw [if_pos hc]
    exact ⟨hc.1, rfl⟩
  · cases h

theorem addSpec_addPrepare (hseq : c.seq = info.request.seq) (htype : info.request.type = .prepare)
    (h : c.addPrepare info pick (mayConsensusChangeStatus cfg info.request.type) = some a) :
    AddSpec cfg c info.request a := by
  have hcounts := counts_addPrepare hseq h
  unfold addPrepare at h
  rw [htype] at h
  split at h
  · cases h
    exact addSpec_refused cfg c _ _
  · split at h
    · cases h
      exact addSpec_refused cfg c _ _
    · obtain ⟨-, -, h⟩ := bind_eq_some_iff.1 h
      cases h
      set counted := ({ c with preparedProof := c.preparedProof ++ [info] }).count info.request
        (mayConsensusChangeStatus cfg .prepare) with hcounted
      obtain ⟨c', hc', hstatus', hholds'⟩ : ∃ c',
          (if counted.2.status = .readyCommit then counted.2.prepared info.request.hash pick
            else counted.2) = c' ∧ c'.status = counted.2.status ∧ ∀ x, c'.Holds x → c.Holds x := by
        refine ⟨_, rfl, ?_⟩
        split
        · obtain ⟨-, hstatus, -, hholds⟩ := prepared_spec counted.2 info.request.hash pick
          exact ⟨hstatus, hholds⟩
        · exact ⟨rfl, fun x hx => hx⟩
      rw [hc'] at hcounts ⊢
      refine ⟨hcounts.1, ?_, ?_, ?_, hcounts.2 .commit, fun x hx => .inl (hholds' x hx), by simp⟩
      · rw [hstatus']
        exact le_mayConsensusChangeStatus cfg _ _ _ _
      · rw [hstatus']
        exact mayConsensusChangeStatus_resting (by simp)
      · intro _ hchanged
        obtain ⟨hold, hnew⟩ := mayConsensusChangeStatus_prepare hchanged
        exact ⟨hseq, hold, hstatus'.trans hnew⟩

/-- A collector is ready to execute when COMMITs of a quorum are there. -/
theorem mayConsensusChangeStatus_readyExecute (h : status ≠ .readyExecute)
    (hnew : (mayConsensusChangeStatus cfg type count status false).2 = .readyExecute) :
    type = .commit ∧ status = .readyCommit ∧ cfg.minDataReceiveNum ≤ count := by
  by_cases htype : type = .commit
  · subst htype
    simp only [mayConsensusChangeStatus] at hnew
    split at hnew
    · rename_i hc
      exact ⟨rfl, hc⟩
    · exact absurd hnew h
  · exact absurd hnew (mayConsensusChangeStatus_resting htype h)

theorem addSpec_addVote (hseq : c.seq = request.seq)
    (h : c.addVote request (mayConsensusChangeStatus cfg request.type) = some a) :
    AddSpec cfg c request a := by
  have hcounts := counts_addVote hseq h
  obtain ⟨-, -, h⟩ := bind_eq_some_iff.1 h
  obtain ⟨-, cstatus, csenders, cmain, cother⟩ := addCert_frame c request
  set counted := (c.addCert request).count request (mayConsensusChangeStatus cfg request.type)
    with hcounted
  have hnext : (counted.1, counted.2.status) = mayConsensusChangeStatus cfg request.type
      (((c.addCert request).addSender request).senders request.type request.hash).card
      (c.addCert request).status false := rfl
  simp only [cstatus, Prod.ext_iff] at hnext
  obtain ⟨hchanged, hstatus⟩ := hnext
  have hholds : ∀ info, counted.2.Holds info → c.Holds info := by
    rintro info (hx | hx)
    · exact .inl (cmain ▸ hx)
    · exact .inr (cother ▸ hx)
  have hle : c.status.code ≤ counted.2.status.code := by
    rw [hstatus]
    exact le_mayConsensusChangeStatus cfg _ _ _ _
  have hprepared : request.type = .prepare → counted.1 = true →
      c.seq = request.seq ∧ c.status = .readyPrepare ∧ counted.2.status = .readyCommit := by
    intro htype hch
    rw [hchanged, htype] at hch
    rw [hstatus, htype]
    exact ⟨hseq, mayConsensusChangeStatus_prepare hch⟩
  dsimp only at h
  split at h
  · rename_i hexec
    cases h
    obtain ⟨-, hstatus', -, hholds', hcommit⟩ := commit_spec counted.2 hexec
    refine ⟨hcounts.1, ?_, fun _ => by simp [hstatus'], ?_, hcounts.2 .commit,
      fun x hx => .inl (hholds x (hholds' x hx)), ?_⟩
    · rw [hstatus']
      cases c.status <;> decide
    · intro htype hch
      obtain ⟨-, -, hready⟩ := hprepared htype hch
      rw [hready] at hexec
      cases hexec
    · intro hrest q hq
      obtain ⟨htype, hready, hcount⟩ :=
        mayConsensusChangeStatus_readyExecute hrest (hstatus.symm.trans hexec)
      obtain ⟨main, hmain, hq⟩ := hcommit q hq
      refine ⟨htype, ⟨hseq, hready, ?_⟩, main, cmain ▸ hmain, hq⟩
      simpa only [addSender, htype, update_self, csenders] using hcount
  · rename_i hexec
    cases h
    exact ⟨hcounts.1, hle, fun _ => hexec, hprepared, hcounts.2 .commit,
      fun x hx => .inl (hholds x hx), by simp⟩

variable {vc : Bool}

/-- A message is refused, becomes a main request, or is counted as a vote. -/
theorem addRequest_cases {isMain : Bool} (h : c.addRequest vc info isMain pick callBack = some a) :
    (∃ ret, a = ⟨c, ret, false, none⟩) ∨ c.seq = info.request.seq ∧
      (isMain = true ∧ a = c.addMainRequest info callBack ∨
        isMain = false ∧ (vc = true ∧ info.request.type = .prepare) ∧
          c.addPrepare info pick callBack = some a ∨
        isMain = false ∧ (vc = true → info.request.type ≠ .prepare) ∧
          c.addVote info.request callBack = some a) := by
  unfold addRequest at h
  split at h
  · exact .inl ⟨-2, (Option.some.inj h).symm⟩
  · split at h
    · exact .inl ⟨-2, (Option.some.inj h).symm⟩
    · split at h
      · exact .inl ⟨-2, (Option.some.inj h).symm⟩
      · rename_i hseq
        rw [not_not] at hseq
        refine .inr ⟨hseq, ?_⟩
        split at h
        · rename_i hmain
          exact .inl ⟨hmain, (Option.some.inj h).symm⟩
        · rename_i hmain
          rw [Bool.not_eq_true] at hmain
          split at h
          · rename_i hc
            exact .inr (.inl ⟨hmain, hc, h⟩)
          · rename_i hc
            exact .inr (.inr ⟨hmain, fun hvc htype => hc ⟨hvc, htype⟩, h⟩)

/-- **What `AddRequest` does.** -/
theorem addRequest_spec (h : c.addRequest vc info (info.request.type = .prePrepare) pick
      (mayConsensusChangeStatus cfg info.request.type) = some a) :
    AddSpec cfg c info.request a := by
  rcases addRequest_cases h with
    ⟨ret, rfl⟩ | ⟨hseq, ⟨htype, rfl⟩ | ⟨-, ⟨-, htype⟩, h⟩ | ⟨-, -, h⟩⟩
  · exact addSpec_refused cfg c _ _
  · exact addSpec_addMainRequest hseq (of_decide_eq_true htype)
  · exact addSpec_addPrepare hseq htype h
  · exact addSpec_addVote hseq h

/-- A message that does not become a main request is counted for its sender only. -/
theorem addRequest_counts {isMain : Bool} (h : c.addRequest vc info isMain pick callBack = some a) :
    a.collector.seq = c.seq ∧ a.collector.senders = c.senders ∨
      isMain = false ∧ c.Counts info.request a.collector := by
  rcases addRequest_cases h with ⟨ret, rfl⟩ | ⟨hseq, ⟨-, rfl⟩ | ⟨hmain, -, h⟩ | ⟨hmain, -, h⟩⟩
  · exact .inl ⟨rfl, rfl⟩
  · left
    simp only [addMainRequest]
    split <;> exact ⟨rfl, rfl⟩
  · exact .inr ⟨hmain, counts_addPrepare hseq h⟩
  · exact .inr ⟨hmain, counts_addVote hseq h⟩

end TransactionCollector

/-! ### The invariant of a replica -/

/-- What is known about the messages: the contents of PRE-PREPAREs that were delivered (sequence
number, hash and data), the replicas that vouch for a hash, the numbers that the replica itself has
sent a COMMIT for, and what the queue of the executor may be. -/
structure Facts where
  proposed : ℕ → String → String → Prop
  vouches : ℕ → ℕ → String → Prop
  committed : ℕ → Prop
  executed : List Request → Prop

/-- What a collector holds has been proposed, and what it counts has been sent. -/
structure CollectorInv (F : Facts) (c : TransactionCollector) : Prop where
  resting : c.status ≠ .readyExecute
  votes : ∀ hash j, j ∈ c.senders .commit hash → F.vouches j c.seq hash
  holds : ∀ info, c.Holds info → c.seq = info.request.seq ∧
    F.proposed info.request.seq info.request.hash info.request.data

/-- What holds of a correct replica. -/
structure ReplicaInv (F : Facts) (i : ℕ) (r : Replica) : Prop where
  id : r.id = i
  collectors : ∀ k, CollectorInv F (r.pool.collector k)
  pending : ∀ e ∈ r.pendingRecovery.entries, e.2.request.type = .prePrepare ∧
    F.proposed e.2.request.seq e.2.request.hash e.2.request.data
  commits : ∀ seq, F.committed seq → (r.pool.getCollector seq).seq = seq →
    TransactionStatue.readyCommit.code ≤ (r.pool.getCollector seq).status.code
  executed : F.executed r.commitQueue

/-- The replicas agree in what the invariants read. -/
structure SameCore (r r' : Replica) : Prop where
  id : r'.id = r.id
  pool : r'.pool = r.pool
  pending : r'.pendingRecovery = r.pendingRecovery
  queue : r'.commitQueue = r.commitQueue

/-- The view and the primary have not changed. -/
def Replica.Stands (r r' : Replica) : Prop :=
  r'.currentView = r.currentView ∧ r'.primaryId = r.primaryId

/-- The facts allow the main request to be executed, if the message completes a quorum. -/
def Facts.Allow (F : Facts) (cfg : Config) (c : TransactionCollector) (request : Request) : Prop :=
  c.Completes cfg request → ∀ main ∈ c.mainRequest, ∀ q : Request, q.seq = main.request.seq →
    q.hash = main.request.hash → q.data = main.request.data →
      ∀ queue, F.executed queue → F.executed (queue ++ [q])

section

variable {cfg : Config} {F : Facts} {i : ℕ} {r r' : Replica} {info : RequestInfo} {pick : ℕ}
  {c : TransactionCollector} {a : Added} {o : Outcome}

/-! ### One message at one replica -/

theorem LockFreeCollectorPool.getCollector_set (p : LockFreeCollectorPool) (seq seq' : ℕ)
    (c : TransactionCollector) :
    (p.set seq c).getCollector seq' = if p.slot seq' = p.slot seq then c else p.getCollector seq' := by
  unfold getCollector set slot
  simp only [update_apply]

theorem LockFreeCollectorPool.collector_set_fresh (p : LockFreeCollectorPool) (seq seq' k : ℕ) :
    (p.set seq { seq := seq' }).collector k = p.collector k ∨
      (p.set seq { seq := seq' }).collector k = { seq := seq' } := by
  simp only [set, update_apply]
  split_ifs
  · exact .inr rfl
  · exact .inl rfl

theorem CollectorInv.fresh (F : Facts) (seq : ℕ) : CollectorInv F { seq := seq } where
  resting := by simp
  votes := by simp
  holds := by
    rintro info (h | h) <;> cases h

/-- A collector goes on holding proposals and votes that were sent. -/
theorem CollectorInv.add (h : CollectorInv F c) {request : Request} (hadd : AddSpec cfg c request a)
    (hprop : request.type = .prePrepare → F.proposed request.seq request.hash request.data)
    (hvote : request.type = .commit → F.vouches request.senderId request.seq request.hash) :
    CollectorInv F a.collector where
  resting := hadd.resting h.resting
  votes := by
    intro hash j hj
    rw [hadd.seq]
    rcases hadd.senders hash j hj with hj | ⟨htype, hseq, rfl, rfl⟩
    · exact h.votes hash j hj
    · rw [hseq]
      exact hvote htype
  holds := by
    intro info hinfo
    rw [hadd.seq]
    rcases hadd.holds info hinfo with hold | ⟨htype, hseq, rfl⟩
    · exact h.holds info hold
    · exact ⟨hseq, hprop htype⟩

/-- The invariant of a replica for weaker facts. -/
theorem ReplicaInv.imp {F' : Facts} (h : ReplicaInv F i r)
    (hprop : ∀ seq hash data, F.proposed seq hash data → F'.proposed seq hash data)
    (hvote : ∀ j seq hash, F.vouches j seq hash → F'.vouches j seq hash)
    (hcommit : ∀ seq, F'.committed seq → F.committed seq ∨
      TransactionStatue.readyCommit.code ≤ (r.pool.getCollector seq).status.code)
    (hexec : F.executed r.commitQueue → F'.executed r.commitQueue) : ReplicaInv F' i r where
  id := h.id
  collectors := by
    intro k
    obtain ⟨hrest, hvotes, hholds⟩ := h.collectors k
    exact ⟨hrest, fun hash j hj => hvote _ _ _ (hvotes hash j hj),
      fun info hinfo => (hholds info hinfo).imp_right (hprop _ _ _)⟩
  pending := fun e he => (h.pending e he).imp_right (hprop _ _ _)
  commits := by
    intro seq hseq hsame
    rcases hcommit seq hseq with hold | hstatus
    · exact h.commits seq hold hsame
    · exact hstatus
  executed := hexec h.executed

/-- `AddConsensusMsg` touches one collector, and what that commits goes to the queue. -/
theorem addConsensusMsg_cases {ret : CollectorResultCode}
    (h : r.addConsensusMsg cfg info pick = some (r', ret)) : r.Stands r' ∧
    ((r' = r ∧ (ret = .stateChanged → r.isValidMsg info.request = true ∧
      r.isCommitted info.request.seq = true)) ∨
    ∃ a, (r.pool.getCollector info.request.seq).addRequest cfg.enableViewchange info
        (info.request.type = .prePrepare) pick (mayConsensusChangeStatus cfg info.request.type) =
          some a ∧ r'.id = r.id ∧ r'.pendingRecovery = r.pendingRecovery ∧
      r'.pool = r.pool.set info.request.seq a.collector ∧
      r'.commitQueue = r.commitQueue ++ a.committed.toList ∧
      (ret = .stateChanged → a.changed = true)) := by
  unfold Replica.addConsensusMsg at h
  dsimp only at h
  split at h
  · cases h
    exact ⟨⟨rfl, rfl⟩, .inl ⟨rfl, by simp⟩⟩
  · rename_i hvalid
    split at h
    · rename_i hcommitted
      cases h
      exact ⟨⟨rfl, rfl⟩, .inl ⟨rfl, fun _ => ⟨by simpa using hvalid, hcommitted⟩⟩⟩
    · obtain ⟨a, ha, h⟩ := bind_eq_some_iff.1 h
      split at h
      · cases h
        exact ⟨⟨rfl, rfl⟩, .inr ⟨a, ha, rfl, rfl, rfl, rfl, by simp⟩⟩
      · split at h
        · rename_i hchanged
          cases h
          split <;> exact ⟨⟨rfl, rfl⟩, .inr ⟨a, ha, rfl, rfl, rfl, rfl, fun _ => hchanged⟩⟩
        · cases h
          exact ⟨⟨rfl, rfl⟩, .inr ⟨a, ha, rfl, rfl, rfl, rfl, by simp⟩⟩

/-- The invariant depends on the pool and the queues only. -/
theorem ReplicaInv.congr (h : ReplicaInv F i r) (hcore : SameCore r r') : ReplicaInv F i r' := by
  refine ⟨hcore.id.trans h.id, ?_, ?_, ?_, ?_⟩
  · rw [hcore.pool]
    exact h.collectors
  · rw [hcore.pending]
    exact h.pending
  · rw [hcore.pool]
    exact h.commits
  · rw [hcore.queue]
    exact h.executed

theorem ReplicaInv.addConsensusMsg {ret : CollectorResultCode} (h : ReplicaInv F i r)
    (hprop : info.request.type = .prePrepare →
      F.proposed info.request.seq info.request.hash info.request.data)
    (hvote : info.request.type = .commit →
      F.vouches info.request.senderId info.request.seq info.request.hash)
    (hallow : info.request.type = .commit →
      F.Allow cfg (r.pool.getCollector info.request.seq) info.request)
    (hadd : r.addConsensusMsg cfg info pick = some (r', ret)) : ReplicaInv F i r' := by
  rcases (addConsensusMsg_cases hadd).2 with ⟨rfl, -⟩ | ⟨a, ha, hid, hpending, hpool, hqueue, -⟩
  · exact h
  · have hspec := TransactionCollector.addRequest_spec ha
    have hc := h.collectors (r.pool.slot info.request.seq)
    refine ⟨hid.trans h.id, ?_, by rw [hpending]; exact h.pending, ?_, ?_⟩
    · intro k
      rw [hpool]
      by_cases hk : k = r.pool.slot info.request.seq
      · subst hk
        simp only [LockFreeCollectorPool.set, update_self]
        exact hc.add hspec hprop hvote
      · simp only [LockFreeCollectorPool.set, update_of_ne hk]
        exact h.collectors k
    · intro seq hseq hsame
      rw [hpool, LockFreeCollectorPool.getCollector_set] at hsame ⊢
      split at hsame
      · rename_i hslot
        rw [if_pos hslot]
        have heq : r.pool.getCollector seq = r.pool.getCollector info.request.seq := by
          unfold LockFreeCollectorPool.getCollector
          rw [hslot]
        rw [hspec.seq, ← heq] at hsame
        exact (h.commits seq hseq hsame).trans (heq ▸ hspec.status)
      · rename_i hslot
        rw [if_neg hslot]
        exact h.commits seq hseq hsame
    · rw [hqueue]
      cases hq : a.committed with
      | none => simpa using h.executed
      | some q =>
        obtain ⟨htype, hcomp, main, hmain, hseq, hhash, hdata⟩ := hspec.committed hc.resting q hq
        exact hallow htype hcomp main hmain q hseq hhash hdata _ h.executed

/-! ### The handlers -/

/-- An invariant that the handlers keep, as every message that goes to its collector keeps it.  `Q` is
what is known of the PRE-PREPAREs, also of those that wait for their turn. -/
structure HandlerRule (cfg : Config) (I : Replica → Prop) (Q : RequestInfo → Prop) : Prop where
  frame : ∀ {r r' : Replica}, I r → SameCore r r' → r.Stands r' → I r'
  pending : ∀ {r : Replica}, I r → ∀ e ∈ r.pendingRecovery.entries, Q e.2
  wait : ∀ {r : Replica} {m : OrderedMap ℕ RequestInfo}, I r → (∀ e ∈ m.entries, Q e.2) →
    I { r with pendingRecovery := m }
  unforced : ∀ {info : RequestInfo}, Q info →
    Q { info with request := { info.request with forceRecovery := false } }
  propose : ∀ {r r' : Replica} {info : RequestInfo} {ret : CollectorResultCode}, I r → Q info →
    r.addConsensusMsg cfg info 0 = some (r', ret) → I r'

namespace HandlerRule

variable {I : Replica → Prop} {Q : RequestInfo → Prop}

section

variable (h : HandlerRule cfg I Q)
include h

theorem takePending (hI : I r) {seq : ℕ} (hmem : (seq, info) ∈ r.pendingRecovery.entries)
    (hr : r.takePending cfg seq info = some r') : I r' := by
  have herase : I { r with pendingRecovery := r.pendingRecovery.eraseBegin } :=
    h.wait hI fun e he => h.pending hI e (List.mem_of_mem_tail he)
  unfold Replica.takePending at hr
  dsimp only at hr
  split at hr
  · obtain ⟨⟨r₂, ret⟩, hadd, rfl⟩ := Option.map_eq_some_iff.1 hr
    refine h.propose ?_ (h.pending hI _ hmem) hadd
    exact h.frame herase ⟨rfl, rfl, rfl, rfl⟩ ⟨rfl, rfl⟩
  · cases hr
    exact herase

/-- Messages that waited are taken in turn. -/
theorem recoverPending : ∀ (fuel : ℕ) {r r' : Replica}, I r →
    r.recoverPending cfg fuel = some r' → I r' := by
  intro fuel
  induction fuel with
  | zero =>
    intro r r' hI hr
    cases hr
    exact hI
  | succ fuel ih =>
    intro r r' hI hr
    unfold Replica.recoverPending at hr
    split at hr
    · cases hr
      exact hI
    · rename_i seq info hbegin
      split at hr
      · cases hr
        exact hI
      · obtain ⟨r₁, hr₁, hr⟩ := bind_eq_some_iff.1 hr
        exact ih (h.takePending hI (List.mem_of_head? hbegin) hr₁) hr

theorem addRecovered (hI : I r) (hq : Q info)
    (ho : r.addRecovered cfg info = some o) : I o.replica := by
  obtain ⟨⟨r₁, ret⟩, hadd, ho⟩ := bind_eq_some_iff.1 ho
  cases ho
  exact h.propose hI (h.unforced hq) hadd

theorem processRecoveryPropose (hI : I r) (hq : Q info)
    (ho : r.processRecoveryPropose cfg info = some o) : I o.replica := by
  unfold Replica.processRecoveryPropose at ho
  dsimp only at ho
  split at ho
  · obtain ⟨r₁, hr₁, ho⟩ := bind_eq_some_iff.1 ho
    refine h.addRecovered (h.recoverPending _ ?_ hr₁) hq ho
    exact h.frame hI ⟨rfl, rfl, rfl, rfl⟩ ⟨rfl, rfl⟩
  · split at ho
    · cases ho
      refine h.wait hI ?_
      -- the message waits for its turn
      intro e he
      rcases OrderedMap.mem_insertList_replace he with rfl | he
      · exact hq
      · exact h.pending hI e he
    · split at ho
      · cases ho
        exact hI
      · exact h.addRecovered hI hq ho

theorem processProposeMsg (hI : I r) (hq : Q info)
    (ho : r.processProposeMsg cfg info = some o) : I o.replica := by
  unfold Replica.processProposeMsg at ho
  split at ho
  · cases ho
    exact hI
  · split at ho
    · exact h.processRecoveryPropose hI hq ho
    · split at ho
      · cases ho
        exact hI
      · split at ho
        · cases ho
          exact hI
        · rename_i r₁ hr₁
          obtain ⟨⟨r₂, ret⟩, hadd, ho⟩ := bind_eq_some_iff.1 ho
          cases ho
          refine h.propose ?_ hq hadd
          unfold Replica.checkProposed at hr₁
          split_ifs at hr₁
          all_goals
            cases hr₁
            exact h.frame hI ⟨rfl, rfl, rfl, rfl⟩ ⟨rfl, rfl⟩

end

end HandlerRule

theorem raiseHighestPreparedSeq_pool (r : Replica) (seq : ℕ) :
    (r.raiseHighestPreparedSeq seq).pool = r.pool := by
  unfold Replica.raiseHighestPreparedSeq
  split <;> rfl

/-- After a PREPARE, the replica is the one `AddConsensusMsg` left, up to the highest prepared number.
A COMMIT is sent only if the state has changed, and it names the hash of the PREPARE. -/
theorem processPrepareMsg_cases (ho : r.processPrepareMsg cfg info pick = some o) :
    ∃ r₁ ret, r.addConsensusMsg cfg info pick = some (r₁, ret) ∧
      (o.replica = r₁ ∨ o.replica = r₁.raiseHighestPreparedSeq info.request.seq) ∧
      (o.broadcast = [] ∨ (info.request.isRecovery = false ∧ ret = .stateChanged ∧
        ∃ q, o.broadcast = [q] ∧ q.type = .commit ∧ q.senderId = r.id ∧
          q.seq = info.request.seq ∧ q.hash = info.request.hash)) := by
  obtain ⟨⟨r₁, ret⟩, hadd, ho⟩ := bind_eq_some_iff.1 ho
  refine ⟨r₁, ret, hadd, ?_⟩
  dsimp only at ho
  split at ho
  · cases ho
    refine ⟨?_, .inl rfl⟩
    split
    · exact .inr rfl
    · exact .inl rfl
  · rename_i hrec
    split at ho
    · rename_i hret
      have hrec' : info.request.isRecovery = false := by simpa using hrec
      split at ho
      · split at ho
        · cases ho
          exact ⟨.inr rfl, .inl rfl⟩
        · cases ho
          exact ⟨.inr rfl, .inr ⟨hrec', hret, _, rfl, rfl, rfl, rfl, rfl⟩⟩
      · cases ho
        exact ⟨.inr rfl, .inr ⟨hrec', hret, _, rfl, rfl, rfl, rfl, rfl⟩⟩
    · cases ho
      exact ⟨.inl rfl, .inl rfl⟩

theorem processCommitMsg_cases (ho : r.processCommitMsg cfg info = some o) :
    ∃ ret, r.addConsensusMsg cfg info 0 = some (o.replica, ret) ∧ o.broadcast = [] := by
  obtain ⟨⟨r₁, ret⟩, hadd, ho⟩ := bind_eq_some_iff.1 ho
  dsimp only at ho
  split at ho
  all_goals
    cases ho
    exact ⟨ret, hadd, rfl⟩

/-- **The rule for a message**: a PRE-PREPARE that satisfies `Q`, or a vote that keeps the invariant
when it goes to its collector. -/
theorem HandlerRule.receive {I : Replica → Prop} {Q : RequestInfo → Prop} (h : HandlerRule cfg I Q)
    (hI : I r) (hpropose : info.request.type = .prePrepare → Q info)
    (hvote : info.request.type ≠ .prePrepare → ∀ pick r' ret,
      r.addConsensusMsg cfg info pick = some (r', ret) → I r')
    (ho : r.receive cfg info pick = some o) : I o.replica := by
  unfold Replica.receive at ho
  cases htype : info.request.type with
  | prePrepare =>
    simp only [htype] at ho
    exact h.processProposeMsg hI (hpropose htype) ho
  | prepare =>
    simp only [htype] at ho
    obtain ⟨r₁, ret, hadd, hr, -⟩ := processPrepareMsg_cases ho
    have h₁ : I r₁ := hvote (by simp [htype]) _ _ _ hadd
    rcases hr with hr | hr
    · rw [hr]
      exact h₁
    · rw [hr]
      unfold Replica.raiseHighestPreparedSeq
      split
      · exact h.frame h₁ ⟨rfl, rfl, rfl, rfl⟩ ⟨rfl, rfl⟩
      · exact h₁
  | commit =>
    simp only [htype] at ho
    obtain ⟨ret, hadd, -⟩ := processCommitMsg_cases ho
    exact hvote (by simp [htype]) _ _ _ hadd
  | newTxns | viewchange | newView | response | recoveryDataResp | checkpoint => simp [htype] at ho

theorem ReplicaInv.handlerRule (cfg : Config) (F : Facts) (i : ℕ) :
    HandlerRule cfg (ReplicaInv F i) fun info => info.request.type = .prePrepare ∧
      F.proposed info.request.seq info.request.hash info.request.data where
  frame := fun h hcore _ => h.congr hcore
  pending := fun h => h.pending
  wait := fun h hm => ⟨h.id, h.collectors, hm, h.commits, h.executed⟩
  unforced := fun h => h
  propose := fun h hq hadd =>
    h.addConsensusMsg (fun _ => hq.2) (by simp [hq.1]) (by simp [hq.1]) hadd

/-- **The handlers keep the invariant.** -/
theorem receive_inv (h : ReplicaInv F i r) (hprop : info.request.type = .prePrepare →
      F.proposed info.request.seq info.request.hash info.request.data)
    (hvote : info.request.type = .commit →
      F.vouches info.request.senderId info.request.seq info.request.hash)
    (hallow : info.request.type = .commit →
      F.Allow cfg (r.pool.getCollector info.request.seq) info.request)
    (ho : r.receive cfg info pick = some o) : ReplicaInv F i o.replica :=
  (ReplicaInv.handlerRule cfg F i).receive h (fun htype => ⟨htype, hprop htype⟩)
    (fun _ _ _ _ hadd => h.addConsensusMsg hprop hvote hallow hadd) ho

theorem Replica.Stands.trans {r'' : Replica} (h : r.Stands r') (h' : r'.Stands r'') : r.Stands r'' :=
  ⟨h'.1.trans h.1, h'.2.trans h.2⟩

theorem Replica.Stands.handlerRule (cfg : Config) (r : Replica) :
    HandlerRule cfg r.Stands fun _ => True where
  frame := fun h _ hstands => h.trans hstands
  pending := fun _ _ _ => trivial
  wait := fun h _ => h
  unforced := fun _ => trivial
  propose := fun h _ hadd => h.trans (addConsensusMsg_cases hadd).1

/-- The handlers of the three phases leave the view alone. -/
theorem receive_stands (h : r.receive cfg info pick = some o) : r.Stands o.replica :=
  (Replica.Stands.handlerRule cfg r).receive ⟨rfl, rfl⟩ (fun _ => trivial)
    (fun _ _ _ _ hadd => (addConsensusMsg_cases hadd).1) h

/-- The COMMIT that a message has led to: it answers a PREPARE, and either the number counted as
committed before, or the collector has just passed from `READY_PREPARE` to `READY_COMMIT`. -/
structure AnswersPrepare (r : Replica) (request : Request) (o : Outcome) (q : Request) : Prop where
  type : request.type = .prepare
  recovery : request.isRecovery = false
  seq : q.seq = request.seq
  hash : q.hash = request.hash
  state : (r.isValidMsg request = true ∧ r.isCommitted request.seq = true) ∨
    ((r.pool.getCollector request.seq).seq = request.seq ∧
      (r.pool.getCollector request.seq).status = .readyPrepare ∧
      (o.replica.pool.getCollector request.seq).status = .readyCommit)

/-- The only answer to a PREPARE is a COMMIT of the replica itself. -/
theorem processPrepareMsg_broadcast (htype : info.request.type = .prepare)
    (ho : r.processPrepareMsg cfg info pick = some o) :
    o.broadcast.length ≤ 1 ∧ ∀ q ∈ o.broadcast, q.senderId = r.id ∧
      (q.type = .commit → AnswersPrepare r info.request o q) := by
  obtain ⟨r₁, ret, hadd, hr, hb⟩ := processPrepareMsg_cases ho
  have hpool : o.replica.pool = r₁.pool := by
    rcases hr with hr | hr
    · rw [hr]
    · rw [hr, raiseHighestPreparedSeq_pool]
  rcases hb with hb | ⟨hrec, hret, q, hb, -, hsender, hseq, hhash⟩
  · simp [hb]
  · rw [hb]
    refine ⟨by simp, ?_⟩
    intro q' hq'
    rw [List.mem_singleton] at hq'
    subst hq'
    refine ⟨hsender, fun _ => ⟨htype, hrec, hseq, hhash, ?_⟩⟩
    rcases (addConsensusMsg_cases hadd).2 with ⟨-, hold⟩ | ⟨a, ha, -, -, hset, -, hchanged⟩
    · exact .inl (hold hret)
    · have hspec := TransactionCollector.addRequest_spec ha
      obtain ⟨hs, hready, hnew⟩ := hspec.prepared htype (hchanged hret)
      refine .inr ⟨hs, hready, ?_⟩
      rw [hpool, hset, LockFreeCollectorPool.getCollector_set, if_pos rfl, hnew]

theorem addRecovered_broadcast (ho : r.addRecovered cfg info = some o) : o.broadcast = [] := by
  obtain ⟨⟨r₁, ret⟩, -, ho⟩ := bind_eq_some_iff.1 ho
  cases ho
  rfl

theorem processRecoveryPropose_broadcast (ho : r.processRecoveryPropose cfg info = some o) :
    o.broadcast = [] := by
  unfold Replica.processRecoveryPropose at ho
  dsimp only at ho
  split at ho
  · obtain ⟨r₁, -, ho⟩ := bind_eq_some_iff.1 ho
    exact addRecovered_broadcast ho
  · split at ho
    · cases ho
      rfl
    · split at ho
      · cases ho
        rfl
      · exact addRecovered_broadcast ho

theorem checkProposed_id {request : Request} (hr : r.checkProposed cfg request = some r') :
    r'.id = r.id := by
  unfold Replica.checkProposed at hr
  split_ifs at hr
  all_goals
    cases hr
    rfl

/-- The only answer to a PRE-PREPARE is a PREPARE of the replica itself. -/
theorem processProposeMsg_broadcast (ho : r.processProposeMsg cfg info = some o) :
    o.broadcast.length ≤ 1 ∧ ∀ q ∈ o.broadcast, q.senderId = r.id ∧ q.type ≠ .commit := by
  unfold Replica.processProposeMsg at ho
  split at ho
  · cases ho
    simp
  · split at ho
    · simp [processRecoveryPropose_broadcast ho]
    · split at ho
      · cases ho
        simp
      · split at ho
        · cases ho
          simp
        · rename_i r₁ hr₁
          obtain ⟨⟨r₂, ret⟩, hadd, ho⟩ := bind_eq_some_iff.1 ho
          cases ho
          split
          · refine ⟨by simp, ?_⟩
            intro q hq
            rw [List.mem_singleton] at hq
            subst hq
            exact ⟨checkProposed_id hr₁, by simp [newRequest]⟩
          · simp

/-- **What the handlers send**: at most one message, and a COMMIT only in answer to a PREPARE. -/
theorem receive_broadcast (ho : r.receive cfg info pick = some o) :
    o.broadcast.length ≤ 1 ∧ ∀ q ∈ o.broadcast, q.senderId = r.id ∧
      (q.type = .commit → AnswersPrepare r info.request o q) := by
  unfold Replica.receive at ho
  cases htype : info.request.type with
  | prePrepare =>
    simp only [htype] at ho
    obtain ⟨hlen, hb⟩ := processProposeMsg_broadcast ho
    exact ⟨hlen, fun q hq => ⟨(hb q hq).1, fun hc => absurd hc (hb q hq).2⟩⟩
  | prepare =>
    simp only [htype] at ho
    exact processPrepareMsg_broadcast htype ho
  | commit =>
    simp only [htype] at ho
    obtain ⟨ret, -, hb⟩ := processCommitMsg_cases ho
    simp [hb]
  | newTxns | viewchange | newView | response | recoveryDataResp | checkpoint => simp [htype] at ho

/-! ### Requests of clients and the other threads -/

theorem processNewRequest_spec (cfg : Config) (r : Replica) (request : Request) :
    let o := r.processNewRequest cfg request
    (SameCore r o.replica ∧ r.Stands o.replica) ∧
      o.broadcast.length ≤ 1 ∧ ∀ q ∈ o.broadcast, q.senderId = r.id ∧ q.type ≠ .commit := by
  unfold Replica.processNewRequest Replica.assignNextSeq
  split_ifs
  all_goals try exact ⟨⟨⟨rfl, rfl, rfl, rfl⟩, rfl, rfl⟩, by simp⟩
  split
  · exact ⟨⟨⟨rfl, rfl, rfl, rfl⟩, rfl, rfl⟩, by simp⟩
  · rename_i r₁ seq hr₁
    dsimp only at hr₁
    split at hr₁
    · cases hr₁
    · cases hr₁
      exact ⟨⟨⟨rfl, rfl, rfl, rfl⟩, rfl, rfl⟩, by simp⟩

theorem processNewRequest_inv (h : ReplicaInv F i r) (cfg : Config) (request : Request) :
    ReplicaInv F i (r.processNewRequest cfg request).replica :=
  h.congr (processNewRequest_spec cfg r request).1.1

/-- The slot of the number that was executed goes to a later number. -/
theorem orderMessage_spec (hr : r.orderMessage = some r') :
    r'.id = r.id ∧ r'.pendingRecovery = r.pendingRecovery ∧ r'.commitQueue = r.commitQueue ∧
      (r'.pool = r.pool ∨ r'.pool = r.pool.set (r.nextExecuteSeq + r.pool.capacity)
        { seq := r.nextExecuteSeq + r.pool.capacity }) := by
  obtain ⟨-, -, hr⟩ := bind_eq_some_iff.1 hr
  cases hr
  refine ⟨rfl, rfl, rfl, ?_⟩
  unfold LockFreeCollectorPool.update
  split
  · exact .inl rfl
  · exact .inr rfl

theorem orderMessage_collectors (hr : r.orderMessage = some r') (k : ℕ) :
    r'.pool.collector k = r.pool.collector k ∨ ∃ seq, r'.pool.collector k = { seq := seq } := by
  obtain ⟨-, -, -, hpool | hpool⟩ := orderMessage_spec hr
  · rw [hpool]
    exact .inl rfl
  · rw [hpool]
    exact (LockFreeCollectorPool.collector_set_fresh _ _ _ k).imp_right fun hk => ⟨_, hk⟩

theorem orderMessage_inv (h : ReplicaInv F i r)
    (hnew : ¬ F.committed (r.nextExecuteSeq + r.pool.capacity))
    (hr : r.orderMessage = some r') : ReplicaInv F i r' := by
  obtain ⟨hid, hpending, hqueue, hpool⟩ := orderMessage_spec hr
  refine ⟨hid.trans h.id, ?_, by rw [hpending]; exact h.pending, ?_, by rw [hqueue]; exact h.executed⟩
  · intro k
    rcases orderMessage_collectors hr k with hk | ⟨seq, hk⟩
    · rw [hk]
      exact h.collectors k
    · rw [hk]
      exact CollectorInv.fresh F _
  · intro seq hseq hsame
    rcases hpool with hpool | hpool
    · rw [hpool] at hsame ⊢
      exact h.commits seq hseq hsame
    · -- a fresh collector is for a number without a COMMIT
      rw [hpool, LockFreeCollectorPool.getCollector_set] at hsame ⊢
      split at hsame
      · rw [← hsame] at hseq
        exact absurd hseq hnew
      · rename_i hslot
        rw [if_neg hslot]
        exact h.commits seq hseq hsame

theorem execute_sameCore (hr : r.execute = some r') : SameCore r r' ∧ r.Stands r' := by
  obtain ⟨-, -, hr⟩ := bind_eq_some_iff.1 hr
  obtain ⟨q, -, hr⟩ := bind_eq_some_iff.1 hr
  cases hr
  exact ⟨⟨rfl, rfl, rfl, rfl⟩, rfl, rfl⟩

theorem updateCheckPointStatus_sameCore (hr : r.updateCheckPointStatus = some r') :
    SameCore r r' ∧ r.Stands r' := by
  unfold Replica.updateCheckPointStatus Replica.clearCommittedStatus at hr
  obtain ⟨-, -, hr⟩ := bind_eq_some_iff.1 hr
  cases hr
  split <;> exact ⟨⟨rfl, rfl, rfl, rfl⟩, rfl, rfl⟩

end

end Pbft
