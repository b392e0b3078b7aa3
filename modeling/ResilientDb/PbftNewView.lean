/-
**What a NEW-VIEW proposes again.**

A request that a correct replica has executed should be proposed again, with its hash, by every
NEW-VIEW of a later view that covers its sequence number.  `GetPrepareMsg` does not do so: whatever
the VIEW-CHANGE messages have prepared, the request it makes for a number has the hash
`nullHash seq` and no data.  What they report decides only which numbers are covered: those above the
lowest stable checkpoint, up to the highest prepared number.  So the property holds exactly if what
was executed at such a number was a null request itself.

The NEW-VIEWs of a run are those of primaries: each was built by the primary of its view from the
VIEW-CHANGE messages of a quorum, whatever Byzantine replicas have sent.

Main definitions:

* `Pbft.NewViewSafe` — NEW-VIEWs keep what was executed;
* `Pbft.firstSeq`, `Pbft.lastSeq`, `Pbft.Covers` — the numbers that VIEW-CHANGE messages cover;
* `Pbft.Admits` — what `ProcessNewView` asks of a NEW-VIEW;
* `Pbft.Views.ViewChangeQuorum` — a NEW-VIEW has the VIEW-CHANGE messages of a quorum.

Main results:

* `Pbft.getPrepareMsg_eq`, `Pbft.checkNewView_eq` — what is proposed again, and what is admitted;
* `Pbft.NewViewInv.step` — the NEW-VIEWs of correct replicas are those of primaries with a quorum;
* `Pbft.new_view_safe` — when executed requests are kept;
* `Pbft.new_view_safe_fails` — a run that loses one.
-/

import ResilientDb.PbftViewChange

set_option autoImplicit false

namespace Pbft

open Function (update_of_ne update_self)

/-! ### The property -/

/-- Every NEW-VIEW of a correct replica that covers the number of a request executed in an earlier
view proposes it again with the same hash. -/
def NewViewSafe (d : Views) : Prop :=
  ∀ v ∈ d.newViews, ∀ e ∈ d.executed, e.view < v.2.viewNumber →
    ∀ q ∈ v.2.request, q.seq = e.request.seq → q.hash = e.request.hash

instance (d : Views) : Decidable (NewViewSafe d) :=
  inferInstanceAs (Decidable (∀ v ∈ d.newViews, _))

/-! ### The numbers that are covered -/

/-- The number behind the lowest stable checkpoint.  Without messages it is 0. -/
def firstSeq (messages : List ViewChangeMessage) : ℕ := (minStable messages + 1) % 2 ^ 64

/-- The highest stable checkpoint. -/
def maxStable (messages : List ViewChangeMessage) : ℕ :=
  messages.foldl (fun m msg => max m msg.stableCkpt.seq) 0

/-- The highest prepared number or, if nothing was prepared, the highest stable checkpoint and at
least 1. -/
def lastSeq (messages : List ViewChangeMessage) : ℕ :=
  ((messages.flatMap ViewChangeMessage.preparedMsg).map PreparedMessage.seq).max?.getD
    (max 1 (maxStable messages))

/-- The numbers that are proposed again. -/
def Covers (messages : List ViewChangeMessage) (seq : ℕ) : Prop :=
  firstSeq messages ≤ seq ∧ seq ≤ lastSeq messages

instance (messages : List ViewChangeMessage) (seq : ℕ) : Decidable (Covers messages seq) :=
  inferInstanceAs (Decidable (_ ∧ _))

/-- What is asked of a NEW-VIEW that is not recovered: it is for the view that is expected, its messages
are above the current view, it has a request without data for each number that they cover, and they
cover their checkpoints.  Nothing is asked of its sender, or of the number and the origin of the
messages. -/
def Admits (r : Replica) (m : ViewChangeManager) (message : NewViewMessage) : Prop :=
  message.viewNumber = (r.currentView + m.viewChangeCounter) % 2 ^ 64 ∧
    (∀ msg ∈ message.viewchangeMessages, r.currentView < msg.viewNumber) ∧
    message.request.length =
      lastSeq message.viewchangeMessages + 1 - firstSeq message.viewchangeMessages ∧
    (∀ q ∈ message.request, q.data = "") ∧
    (firstSeq message.viewchangeMessages ≤ maxStable message.viewchangeMessages →
      maxStable message.viewchangeMessages ≤ lastSeq message.viewchangeMessages)

instance (r : Replica) (m : ViewChangeManager) (message : NewViewMessage) :
    Decidable (Admits r m message) :=
  inferInstanceAs (Decidable (_ ∧ _))

/-- The number that a replica goes on from. -/
def highestRedo (messages : List ViewChangeMessage) : ℕ :=
  if firstSeq messages ≤ lastSeq messages then lastSeq messages else maxStable messages

/-! ### What is proposed again -/

section

variable {cfg : Config} {messages : List ViewChangeMessage} {prepared : OrderedMap ℕ Request}

theorem foldl_max_stable : ∀ (messages : List ViewChangeMessage) (a : ℕ),
    messages.foldl (fun m msg => max m msg.stableCkpt.seq) a = max a (maxStable messages)
  | [], a => by simp [maxStable]
  | m :: messages, a => by
    simp only [maxStable, List.foldl_cons]
    rw [foldl_max_stable messages (max a _), foldl_max_stable messages (max 0 _), Nat.zero_max,
      max_assoc]

theorem stable_le_maxStable : ∀ {messages : List ViewChangeMessage} {m : ViewChangeMessage},
    m ∈ messages → m.stableCkpt.seq ≤ maxStable messages
  | m' :: messages, m, h => by
    rw [maxStable, List.foldl_cons, foldl_max_stable, Nat.zero_max, le_max_iff]
    rcases List.mem_cons.1 h with rfl | h
    · exact .inl le_rfl
    · exact .inr (stable_le_maxStable h)

theorem foldl_min_stable : ∀ (messages : List ViewChangeMessage) (a : ℕ),
    messages.foldl (fun m msg => min m msg.stableCkpt.seq) a ≤ a
  | [], _ => le_rfl
  | _ :: messages, _ => (foldl_min_stable messages _).trans (min_le_left _ _)

theorem foldl_min_stable_le : ∀ {messages : List ViewChangeMessage} {m : ViewChangeMessage} (a : ℕ),
    m ∈ messages → messages.foldl (fun m msg => min m msg.stableCkpt.seq) a ≤ m.stableCkpt.seq
  | m' :: messages, m, a, h => by
    rw [List.foldl_cons]
    rcases List.mem_cons.1 h with rfl | h
    · exact (foldl_min_stable messages _).trans (min_le_right _ _)
    · exact foldl_min_stable_le _ h

theorem minStable_le {m : ViewChangeMessage} (h : m ∈ messages) :
    minStable messages ≤ m.stableCkpt.seq :=
  foldl_min_stable_le _ h

theorem le_maxStable : ∀ {messages : List ViewChangeMessage} {seq : ℕ},
    seq ≤ maxStable messages → 0 < seq → ∃ m ∈ messages, seq ≤ m.stableCkpt.seq
  | [], seq, h, hpos => absurd hpos (Nat.le_zero.1 h).not_gt
  | m :: messages, seq, h, hpos => by
    rw [maxStable, List.foldl_cons, foldl_max_stable, Nat.zero_max, le_max_iff] at h
    rcases h with h | h
    · exact ⟨m, List.mem_cons_self, h⟩
    · obtain ⟨m', hm', hle⟩ := le_maxStable h hpos
      exact ⟨m', List.mem_cons_of_mem m hm', hle⟩

theorem mem_keys_foldlM {f : Request → Request → Request} :
    ∀ {l : List PreparedMessage} {m m' : OrderedMap ℕ Request} {k : ℕ},
      l.foldlM (fun (m : OrderedMap ℕ Request) (msg : PreparedMessage) => do
        let info ← msg.proof.head?
        some (m.insertWith f msg.seq info.request)) m = some m' →
      (k ∈ m'.keys ↔ k ∈ m.keys ∨ k ∈ l.map PreparedMessage.seq)
  | [], m, m', k, h => by
    cases h
    simp
  | p :: l, m, m', k, h => by
    obtain ⟨m₁, h₁, h⟩ := Option.bind_eq_some_iff.1 h
    obtain ⟨info, -, h₁⟩ := Option.bind_eq_some_iff.1 h₁
    cases h₁
    rw [mem_keys_foldlM h, OrderedMap.mem_keys_insertWith, List.map_cons, List.mem_cons]
    tauto

/-- `max_seq` is the last number, however the reports are merged. -/
theorem maxSeq_eq (h : collectPrepared messages = some prepared) :
    maxSeq messages prepared = lastSeq messages := by
  have hkeys : ∀ {k : ℕ}, k ∈ prepared.keys ↔
      k ∈ (messages.flatMap ViewChangeMessage.preparedMsg).map PreparedMessage.seq := by
    intro k
    rw [mem_keys_foldlM h]
    exact or_iff_right (List.not_mem_nil (a := k))
  unfold maxSeq lastSeq
  split
  · rename_i k q hlast
    have hmax : ((messages.flatMap ViewChangeMessage.preparedMsg).map PreparedMessage.seq).max? =
        some k := by
      refine List.max?_eq_some_iff.2 ⟨hkeys.1 ?_, fun b hb => ?_⟩
      · exact List.mem_map_of_mem (List.mem_of_getLast? hlast)
      · exact OrderedMap.le_last hlast (hkeys.2 hb)
    rw [hmax, Option.getD_some]
  · rename_i hlast
    rw [List.getLast?_eq_none_iff] at hlast
    have hnil : (messages.flatMap ViewChangeMessage.preparedMsg).map PreparedMessage.seq = [] := by
      refine List.eq_nil_iff_forall_not_mem.2 fun k hk => ?_
      have hk := hkeys.2 hk
      rw [OrderedMap.keys, hlast] at hk
      cases hk
    rw [hnil, foldl_max_stable]
    rfl

theorem redoRequest_spec {id view seq : ℕ} {needSign : Bool} {q : Request}
    (h : redoRequest cfg id view seq needSign = some q) :
    q.seq = seq ∧ q.hash = nullHash seq ∧ q.data = "" := by
  unfold redoRequest at h
  split at h
  · obtain ⟨signature, -, rfl⟩ := Option.map_eq_some_iff.1 h
    exact ⟨rfl, rfl, rfl⟩
  · cases h
    exact ⟨rfl, rfl, rfl⟩

theorem isSome_redoRequest (cfg : Config) (id view seq : ℕ) (needSign : Bool) :
    (redoRequest cfg id view seq needSign).isSome = true ↔
      (needSign = true → (cfg.signMessage id "").isSome = true) := by
  unfold redoRequest
  cases needSign <;> simp

/-- **What is proposed again**: a request for each number that is covered. -/
theorem getPrepareMsg_eq {id : ℕ} {message : NewViewMessage} {needSign : Bool}
    {requests : List Request} (h : getPrepareMsg cfg id message needSign = some requests) :
    requests = (List.range' (firstSeq message.viewchangeMessages)
      (lastSeq message.viewchangeMessages + 1 - firstSeq message.viewchangeMessages)).filterMap
        fun seq => redoRequest cfg id message.viewNumber seq needSign := by
  obtain ⟨prepared, hprep, h⟩ := Option.bind_eq_some_iff.1 h
  cases h
  rw [maxSeq_eq hprep]
  rfl

/-- The requests are null requests, and they are there if the primary can sign them. -/
theorem mem_getPrepareMsg {id : ℕ} {message : NewViewMessage} {needSign : Bool}
    {requests : List Request} (h : getPrepareMsg cfg id message needSign = some requests) (seq : ℕ) :
    (∀ q ∈ requests, q.seq = seq → q.hash = nullHash seq) ∧
      ((∃ q ∈ requests, q.seq = seq) ↔ Covers message.viewchangeMessages seq ∧
        (needSign = true → (cfg.signMessage id "").isSome = true)) := by
  rw [getPrepareMsg_eq h, ← isSome_redoRequest cfg id message.viewNumber seq needSign]
  simp only [List.mem_filterMap, List.mem_range'_1]
  constructor
  · rintro q ⟨seq', -, hredo⟩ hseq
    obtain ⟨hseq', hhash, -⟩ := redoRequest_spec hredo
    rw [hhash, ← hseq', hseq]
  constructor
  · rintro ⟨q, ⟨seq', hmem, hredo⟩, rfl⟩
    obtain ⟨hseq', -, -⟩ := redoRequest_spec hredo
    rw [← hseq'] at hmem hredo
    exact ⟨⟨hmem.1, by omega⟩, Option.isSome_iff_exists.2 ⟨q, hredo⟩⟩
  · rintro ⟨⟨hfirst, hlast⟩, hsome⟩
    obtain ⟨q, hredo⟩ := Option.isSome_iff_exists.1 hsome
    exact ⟨q, ⟨seq, ⟨hfirst, by omega⟩, hredo⟩, (redoRequest_spec hredo).1⟩

/-! ### What is admitted -/

/-- What a replica computes for itself to compare with: it does not sign. -/
theorem redo_unsigned (cfg : Config) (id view : ℕ) (l : List ℕ) :
    (l.filterMap fun seq => redoRequest cfg id view seq false).map Request.seq = l ∧
      (l.filterMap fun seq => redoRequest cfg id view seq false).map Request.data =
        List.replicate l.length "" := by
  induction l with
  | nil => exact ⟨rfl, rfl⟩
  | cons seq l ih => exact ⟨congrArg (seq :: ·) ih.1, congrArg ("" :: ·) ih.2⟩

theorem checkpoints_covered (first last maxS : ℕ) :
    ((List.range' first (maxS + 1 - first)).any fun seq =>
        !(List.range' first (last + 1 - first)).contains seq) = true ↔
      ¬ (first ≤ maxS → maxS ≤ last) := by
  simp only [List.any_eq_true, List.mem_range'_1, Bool.not_eq_eq_eq_not, Bool.not_true,
    List.contains_eq_mem, decide_eq_false_iff_not]
  constructor
  · rintro ⟨seq, ⟨hfirst, hle⟩, hnot⟩ hcover
    exact hnot ⟨hfirst, by omega⟩
  · intro h
    exact ⟨maxS, by omega, by omega⟩

/-- **The checks of `ProcessNewView`.** -/
theorem checkNewView_eq {r : Replica} {m : ViewChangeManager} {message : NewViewMessage}
    {result : Option ℕ} (h : checkNewView cfg r m message = some result) :
    result = if Admits r m message then some (highestRedo message.viewchangeMessages) else none := by
  unfold checkNewView at h
  dsimp only at h
  split at h
  · next hview =>
    cases h
    exact (if_neg fun hadmits => hview hadmits.1).symm
  split at h
  · next hbelow =>
    cases h
    obtain ⟨msg, hmsg, hle⟩ := hbelow
    exact (if_neg fun hadmits => (hadmits.2.1 msg hmsg).not_ge hle).symm
  next hview habove =>
  rw [not_not] at hview
  push Not at habove
  obtain ⟨requests, hrequests, h⟩ := Option.bind_eq_some_iff.1 h
  obtain ⟨hseqs, hdata⟩ := redo_unsigned cfg r.id message.viewNumber
    (List.range' (firstSeq message.viewchangeMessages)
      (lastSeq message.viewchangeMessages + 1 - firstSeq message.viewchangeMessages))
  rw [← getPrepareMsg_eq hrequests] at hseqs hdata
  rw [List.length_range'] at hdata
  rw [hseqs, hdata] at h
  split at h
  · next hne =>
    cases h
    refine (if_neg fun hadmits => hne ?_).symm
    refine (List.eq_replicate_iff.2 ⟨?_, ?_⟩).symm
    · rw [List.length_map]
      exact hadmits.2.2.1
    · intro b hb
      obtain ⟨q, hq, rfl⟩ := List.mem_map.1 hb
      exact hadmits.2.2.2.1 q hq
  next heq =>
  rw [not_not, eq_comm, List.eq_replicate_iff, List.length_map] at heq
  have hgap := checkpoints_covered (firstSeq message.viewchangeMessages)
    (lastSeq message.viewchangeMessages) (maxStable message.viewchangeMessages)
  split at h
  · next hany =>
    cases h
    exact (if_neg fun hadmits => hgap.1 hany hadmits.2.2.2.2).symm
  next hany =>
  have hadmits : Admits r m message := by
    refine ⟨hview, habove, heq.1, fun q hq => heq.2 _ (List.mem_map_of_mem hq), ?_⟩
    by_contra hnot
    exact hany (hgap.2 hnot)
  rw [if_pos hadmits]
  injection h with h
  rw [← h, highestRedo]
  split
  · next hle =>
    rw [List.getLast?_range', if_neg (by omega), Option.getD_some]
    congr 1
    omega
  · next hlt =>
    rw [List.getLast?_range', if_pos (by omega), Option.getD_none]
    rfl

end

/-! ### What the handlers do -/

/-- Facts that say nothing. -/
def Facts.trivial : Facts where
  proposed := fun _ _ _ => True
  vouches := fun _ _ _ => True
  committed := fun _ => False
  executed := fun _ => True

section

variable {cfg : Config} {s : Setup} {d d' : Views} {i : ℕ} {r : Replica} {m : ViewChangeManager}
  {sender : ℕ} {message : ViewChangeMessage} {newViews : List NewViewMessage}

theorem ViewChangeManager.mem_addRequest {view : ℕ} {e : ℕ × ViewChangeMessage}
    (he : e ∈ ((m.addRequest sender message).viewchangeRequest view).entries) :
    (view = message.viewNumber ∧ e = (sender, message)) ∨ e ∈ (m.viewchangeRequest view).entries := by
  by_cases hview : view = message.viewNumber
  · subst hview
    simp only [ViewChangeManager.addRequest, update_self] at he
    exact (OrderedMap.mem_insertList_replace he).imp_left fun h => ⟨rfl, h⟩
  · simp only [ViewChangeManager.addRequest, update_of_ne hview] at he
    exact .inr he

theorem ViewChangeManager.mem_addRequest_self :
    (sender, message) ∈
      ((m.addRequest sender message).viewchangeRequest message.viewNumber).entries := by
  simp only [ViewChangeManager.addRequest, update_self]
  exact OrderedMap.mem_set.2 (.inl ⟨rfl, rfl⟩)

/-- Enough VIEW-CHANGEs are stored for a view. -/
def ViewChangeManager.Enough (cfg : Config) (m : ViewChangeManager) (view : ℕ) : Prop :=
  cfg.minDataReceiveNum ≤ (m.viewchangeRequest view).entries.length

/-- What a VIEW-CHANGE does: it is dropped, or it is kept.  A NEW-VIEW is sent only by the primary of its
view, from the messages at hand, which are a quorum, and if none was sent before. -/
theorem processViewChange_cases {m' : ViewChangeManager}
    (h : processViewChange cfg r m sender message = some (m', newViews)) :
    (m' = m ∧ newViews = [] ∧ message.viewNumber ≤ r.currentView) ∨
    (m'.viewchangeRequest = (m.addRequest sender message).viewchangeRequest ∧
      (∀ v ∈ newViews, v.viewNumber = message.viewNumber ∧ primaryOf cfg message.viewNumber = r.id ∧
        (m.addRequest sender message).Enough cfg message.viewNumber ∧ v.viewchangeMessages =
          ((m.addRequest sender message).viewchangeRequest message.viewNumber).entries.map
            (fun e => { e.2 with viewNumber := message.viewNumber }) ∧
        getPrepareMsg cfg r.id ⟨message.viewNumber, [], v.viewchangeMessages⟩ true =
          some v.request) ∧ (m'.newViewIsSent = m.newViewIsSent ∧ newViews = [] ∧
          (m'.Enough cfg message.viewNumber → primaryOf cfg message.viewNumber = r.id →
            m.newViewIsSent = true) ∨ m.newViewIsSent = false ∧ m'.newViewIsSent = true ∧
          newViews.map NewViewMessage.viewNumber = [message.viewNumber])) := by
  unfold processViewChange at h
  dsimp only at h
  split at h
  · next hle =>
    cases h
    exact .inl ⟨rfl, rfl, hle⟩
  right
  split at h
  · next hfew =>
    cases h
    exact ⟨rfl, by simp, .inl ⟨rfl, rfl, fun henough => absurd henough (not_le.2 hfew)⟩⟩
  next hquorum =>
  split at h
  · next hprimary =>
    obtain ⟨⟨m₁, newViews₁⟩, hsend, h⟩ := Option.bind_eq_some_iff.1 h
    cases h
    unfold sendNewViewMsg at hsend
    split at hsend
    · next hsent =>
      cases hsend
      exact ⟨rfl, by simp, .inl ⟨rfl, rfl, fun _ _ => hsent⟩⟩
    · next hsent =>
      obtain ⟨requests, hreq, hsend⟩ := Option.bind_eq_some_iff.1 hsend
      cases hsend
      refine ⟨rfl, fun v hv => ?_, .inr ⟨Bool.eq_false_iff.2 hsent, rfl, rfl⟩⟩
      rw [List.mem_singleton] at hv
      subst hv
      exact ⟨rfl, hprimary, Nat.le_of_not_lt hquorum, rfl, hreq⟩
  · next hother =>
    cases h
    exact ⟨rfl, by simp, .inl ⟨rfl, rfl, fun _ hprimary => absurd hprimary hother⟩⟩

theorem timeoutHandler_spec {m' : ViewChangeManager}
    (h : timeoutHandler cfg r m = some (m', message)) :
    m'.viewchangeRequest = m.viewchangeRequest ∧ m'.newViewIsSent = m.newViewIsSent := by
  obtain ⟨message', -, h⟩ := Option.bind_eq_some_iff.1 h
  cases h
  cases m.status <;> exact ⟨rfl, rfl⟩

theorem foldl_raiseHighestPreparedSeq : ∀ (l : List Request) (r : Replica), ∃ seq,
    l.foldl (fun r q => r.raiseHighestPreparedSeq q.seq) r = { r with highestPreparedSeq := seq }
  | [], r => ⟨r.highestPreparedSeq, rfl⟩
  | q :: l, r => by
    obtain ⟨seq, hseq⟩ := foldl_raiseHighestPreparedSeq l (r.raiseHighestPreparedSeq q.seq)
    refine ⟨seq, hseq.trans ?_⟩
    unfold Replica.raiseHighestPreparedSeq
    split <;> rfl

/-- What a NEW-VIEW does: it is refused, or the replica enters the view.  A recovered one is not
checked; otherwise the next number is the one behind the last that is proposed again. -/
theorem processNewView_cases {message : NewViewMessage}
    {isRecovery : Bool} {o : NewViewOutcome}
    (h : processNewView cfg r m message isRecovery = some o) :
    o.manager.viewchangeRequest = m.viewchangeRequest ∧ o.manager.newViewIsSent = m.newViewIsSent ∧
      (o.replica = r ∧ isRecovery = false ∧ ¬ Admits r m message ∨ ∃ nextSeq highest,
        o.replica = { r with
          currentView := message.viewNumber
          primaryId := primaryOf cfg message.viewNumber
          nextSeq := nextSeq
          highestPreparedSeq := highest } ∧
        (isRecovery = true ∨ Admits r m message ∧
          nextSeq = highestRedo message.viewchangeMessages + 1)) := by
  unfold processNewView at h
  split at h
  · next hrecovery =>
    cases h
    exact ⟨rfl, rfl, .inr ⟨r.nextSeq, r.highestPreparedSeq, rfl, .inl hrecovery⟩⟩
  · next hrecovery =>
    obtain ⟨result, hcheck, h⟩ := Option.bind_eq_some_iff.1 h
    have hresult := checkNewView_eq hcheck
    by_cases hadmits : Admits r m message
    · rw [if_pos hadmits] at hresult
      subst hresult
      cases h
      obtain ⟨highest, hr⟩ := foldl_raiseHighestPreparedSeq
        (message.request.filter fun q => q.type ≠ .prePrepare)
        { r.setCurrentViewAndNewPrimary cfg message.viewNumber with
          nextSeq := highestRedo message.viewchangeMessages + 1 }
      exact ⟨rfl, rfl, .inr ⟨_, highest, hr, .inr ⟨hadmits, rfl⟩⟩⟩
    · rw [if_neg hadmits] at hresult
      subst hresult
      cases h
      exact ⟨rfl, rfl, .inl ⟨rfl, Bool.eq_false_iff.2 hrecovery, hadmits⟩⟩

theorem ReplicaInv.processNewView {F : Facts}
    {message : NewViewMessage} {isRecovery : Bool} {o : NewViewOutcome} (hr : ReplicaInv F i r)
    (h : processNewView cfg r m message isRecovery = some o) : ReplicaInv F i o.replica := by
  obtain ⟨-, -, ⟨ho, -⟩ | ⟨nextSeq, highest, ho, -⟩⟩ := processNewView_cases h
  · rw [ho]
    exact hr
  · rw [ho]
    exact hr.congr ⟨rfl, rfl, rfl, rfl⟩

theorem receive_trivial {info : RequestInfo} {pick : ℕ} {o : Outcome} (h : ReplicaInv .trivial i r)
    (ho : r.receive cfg info pick = some o) : ReplicaInv .trivial i o.replica :=
  receive_inv h (fun _ => True.intro) (fun _ => True.intro)
    (fun _ _ _ _ _ _ _ _ _ _ => True.intro) ho

theorem Network.step_replicas {n n' : Network} {a : Action}
    (h : ∀ i, s.IsCorrect i → ReplicaInv .trivial i (n.replicas i)) (hs : n.step s a = some n') :
    ∀ i, s.IsCorrect i → ReplicaInv .trivial i (n'.replicas i) := by
  have hset : ∀ {i : ℕ} {o : Outcome}, ReplicaInv .trivial i o.replica →
      ∀ j, s.IsCorrect j → ReplicaInv .trivial j ((n.update i o).replicas j) := by
    intro i o ho j hj
    by_cases hji : j = i
    · subst hji
      simpa only [Network.update, update_self] using ho
    · simpa only [Network.update, update_of_ne hji] using h j hj
  cases a <;> simp only [Network.step, bind, Option.bind_eq_some_iff, Option.guard_eq_some'] at hs
  case newRequest i request =>
    obtain ⟨-, hi, hs⟩ := hs
    cases hs
    exact hset (processNewRequest_inv (h i hi) s.cfg request)
  case deliver i info pick =>
    obtain ⟨-, hi, -, -, o, ho, hs⟩ := hs
    cases hs
    rw [Network.replicas_record]
    exact hset (receive_trivial (h i hi) ho)
  case orderMessage i =>
    obtain ⟨-, hi, r, hr, hs⟩ := hs
    cases hs
    exact hset (orderMessage_inv (h i hi) id hr)
  case execute i =>
    obtain ⟨-, hi, r, hr, hs⟩ := hs
    cases hs
    exact hset ((h i hi).congr (execute_sameCore hr).1)
  case updateCheckPointStatus i =>
    obtain ⟨-, hi, r, hr, hs⟩ := hs
    cases hs
    exact hset ((h i hi).congr (updateCheckPointStatus_sameCore hr).1)
  case updateRecentHash i hash =>
    obtain ⟨-, hi, hs⟩ := hs
    cases hs
    exact hset ((h i hi).congr ⟨rfl, rfl, rfl, rfl⟩)

theorem replicas_setReplica (h : ∀ j, s.IsCorrect j → ReplicaInv .trivial j (d.net.replicas j))
    (hr : ReplicaInv .trivial i r) (j : ℕ) (hj : s.IsCorrect j) :
    ReplicaInv .trivial j ((d.setReplica i r).net.replicas j) := by
  by_cases hji : j = i
  · subst hji
    simpa only [Views.setReplica, update_self] using hr
  · simpa only [Views.setReplica, update_of_ne hji] using h j hj

/-! ### The NEW-VIEWs of a run -/

namespace Views

/-- Replica `j` has sent the VIEW-CHANGE; a Byzantine one may have sent anything. -/
def HasSent (s : Setup) (d : Views) (j : ℕ) (message : ViewChangeMessage) : Prop :=
  j ∈ s.members ∧ (j ∈ s.byzantine ∨ (j, message) ∈ d.viewChanges)

/-- The NEW-VIEW has the VIEW-CHANGE messages for a view of a quorum of replicas, one of each. -/
def ViewChangeQuorum (s : Setup) (d : Views) (message : NewViewMessage) (view : ℕ) : Prop :=
  ∃ sent : List (ℕ × ViewChangeMessage), (sent.map Prod.fst).Nodup ∧
    s.cfg.minDataReceiveNum ≤ sent.length ∧ message.viewchangeMessages = sent.map Prod.snd ∧
      ∀ e ∈ sent, e.2.viewNumber = view ∧ d.HasSent s e.1 e.2

end Views

/-- The messages that managers keep were sent, and NEW-VIEWs are those of primaries with a quorum, with
what is proposed again for their messages. -/
structure NewViewInv (s : Setup) (d : Views) : Prop where
  replicas : ∀ i, s.IsCorrect i → ReplicaInv .trivial i (d.net.replicas i)
  members : ∀ e ∈ d.viewChanges, e.1 ∈ s.members
  requests : ∀ i view, ∀ e ∈ ((d.managers i).viewchangeRequest view).entries,
    e.2.viewNumber = view ∧ d.HasSent s e.1 e.2
  newViews : ∀ e ∈ d.newViews, e.1 = primaryOf s.cfg e.2.viewNumber ∧
    d.ViewChangeQuorum s e.2 e.2.viewNumber
  redone : ∀ e ∈ d.newViews, getPrepareMsg s.cfg e.1 ⟨e.2.viewNumber, [], e.2.viewchangeMessages⟩ true =
    some e.2.request

theorem Views.HasSent.mono {j : ℕ} {message : ViewChangeMessage} (h : d.HasSent s j message)
    (hsent : d.viewChanges ⊆ d'.viewChanges) : d'.HasSent s j message :=
  ⟨h.1, h.2.imp_right fun h => hsent h⟩

theorem Views.ViewChangeQuorum.mono {message : NewViewMessage} {view : ℕ}
    (h : d.ViewChangeQuorum s message view) (hsent : d.viewChanges ⊆ d'.viewChanges) :
    d'.ViewChangeQuorum s message view := by
  obtain ⟨sent, hnodup, hlength, hmessages, hall⟩ := h
  exact ⟨sent, hnodup, hlength, hmessages, fun e he => (hall e he).imp_right fun h => h.mono hsent⟩

theorem NewViewInv.frame (h : NewViewInv s d)
    (hreplicas : ∀ j, s.IsCorrect j → ReplicaInv .trivial j (d'.net.replicas j))
    (hrequests : ∀ j, (d'.managers j).viewchangeRequest = (d.managers j).viewchangeRequest)
    (hsent : d'.viewChanges = d.viewChanges) (hnew : d'.newViews = d.newViews) : NewViewInv s d' := by
  refine ⟨hreplicas, ?_, ?_, ?_, ?_⟩
  · rw [hsent]
    exact h.members
  · intro j view e he
    rw [hrequests j] at he
    exact (h.requests j view e he).imp_right fun h => h.mono (by rw [hsent]; exact List.Subset.refl _)
  · rw [hnew]
    intro e he
    exact (h.newViews e he).imp_right fun h => h.mono (by rw [hsent]; exact List.Subset.refl _)
  · rw [hnew]
    exact h.redone

theorem viewchangeRequest_setManager (d : Views) {m : ViewChangeManager}
    (hm : m.viewchangeRequest = (d.managers i).viewchangeRequest) (j : ℕ) :
    ((d.setManager i m).managers j).viewchangeRequest = (d.managers j).viewchangeRequest := by
  by_cases hj : j = i
  · subst hj
    simp only [Views.setManager, update_self, hm]
  · simp only [Views.setManager, update_of_ne hj]

theorem nodup_keys (m : OrderedMap ℕ ViewChangeMessage) : (m.entries.map Prod.fst).Nodup := by
  rw [List.Nodup, List.pairwise_map]
  exact m.distinct

theorem NewViewInv.deliverViewChange (h : NewViewInv s d) (hi : s.IsCorrect i)
    (hsent : d.HasSent s sender message)
    (hs : processViewChange s.cfg (d.net.replicas i) (d.managers i) sender message =
      some (m, newViews)) :
    NewViewInv s { d.setManager i m with newViews := d.newViews ++ newViews.map fun v => (i, v) } := by
  rcases processViewChange_cases hs with ⟨rfl, rfl, -⟩ | ⟨hm, hnew, -⟩
  · exact h.frame h.replicas (viewchangeRequest_setManager d rfl) rfl (by simp)
  -- what the manager keeps now
  have hkept : ∀ view, ∀ e ∈ (((d.managers i).addRequest sender message).viewchangeRequest
      view).entries, e.2.viewNumber = view ∧ d.HasSent s e.1 e.2 := by
    intro view e he
    rcases ViewChangeManager.mem_addRequest he with ⟨rfl, rfl⟩ | he
    · exact ⟨rfl, hsent⟩
    · exact h.requests i view e he
  refine ⟨h.replicas, h.members, ?_, ?_, ?_⟩
  · intro j view e he
    by_cases hj : j = i
    · subst hj
      simp only [Views.setManager, update_self] at he
      rw [hm] at he
      exact hkept view e he
    · simp only [Views.setManager, update_of_ne hj] at he
      exact h.requests j view e he
  · intro e he
    rcases List.mem_append.1 he with he | he
    · exact h.newViews e he
    · obtain ⟨v, hv, rfl⟩ := List.mem_map.1 he
      obtain ⟨hnumber, hprimary, hquorum, hmessages, -⟩ := hnew v hv
      refine ⟨?_, _, nodup_keys _, hquorum, ?_, ?_⟩
      · rw [hnumber, hprimary, (h.replicas i hi).id]
      · -- the view is written into messages that have it already
        rw [hmessages]
        refine List.map_congr_left fun e he => ?_
        obtain ⟨hview, -⟩ := hkept _ e he
        rw [← hview]
      · intro e he
        rw [hnumber]
        exact hkept _ e he
  · intro e he
    rcases List.mem_append.1 he with he | he
    · exact h.redone e he
    · obtain ⟨v, hv, rfl⟩ := List.mem_map.1 he
      obtain ⟨hnumber, -, -, -, hredo⟩ := hnew v hv
      rwa [hnumber, ← (h.replicas i hi).id]

/-- **Every step keeps the invariant**, whatever NEW-VIEWs arrive. -/
theorem NewViewInv.step {a : ViewAction} (hbyz : s.byzantine ⊆ s.members) (h : NewViewInv s d)
    (hs : d.step s a = some d') : NewViewInv s d' := by
  cases a <;> simp only [Views.step, bind, Option.bind_eq_some_iff, Option.guard_eq_some'] at hs
  case act a =>
    obtain ⟨-, -, net, hnet, hs⟩ := hs
    cases hs
    exact h.frame (Network.step_replicas h.replicas hnet) (fun _ => rfl) rfl rfl
  case deliverRedo i info pick =>
    obtain ⟨-, hi, -, -, -, -, o, ho, hs⟩ := hs
    cases hs
    refine h.frame (fun j hj => ?_) (fun _ => rfl) rfl rfl
    change ReplicaInv .trivial j (((d.net.update i o).record info.request).replicas j)
    rw [Network.replicas_record]
    by_cases hji : j = i
    · subst hji
      simpa only [Network.update, update_self] using receive_trivial (h.replicas j hi) ho
    · simpa only [Network.update, update_of_ne hji] using h.replicas j hj
  case timeout i =>
    obtain ⟨-, ⟨hi, -⟩, ⟨m, message⟩, htimeout, hs⟩ := hs
    cases hs
    -- the manager keeps its messages, and one more is sent
    have hm := (timeoutHandler_spec htimeout).1
    have hsub := List.subset_append_left d.viewChanges [(i, message)]
    refine ⟨h.replicas, ?_, ?_, ?_, h.redone⟩
    · intro e he
      rcases List.mem_append.1 he with he | he
      · exact h.members e he
      · rw [List.mem_singleton.1 he]
        exact hi.1
    · intro j view e he
      rw [viewchangeRequest_setManager d hm] at he
      exact (h.requests j view e he).imp_right fun h => h.mono hsub
    · intro e he
      exact (h.newViews e he).imp_right fun h => h.mono hsub
  case deliverViewChange i sender message =>
    obtain ⟨-, hi, -, hsender, ⟨m, newViews⟩, hview, hs⟩ := hs
    cases hs
    refine h.deliverViewChange hi ?_ hview
    rcases hsender with hsender | hsender
    · exact ⟨hbyz hsender, .inl hsender⟩
    · exact ⟨h.members _ hsender, .inr hsender⟩
  case deliverNewView i sender message isRecovery =>
    obtain ⟨-, hi, -, -, o, ho, hs⟩ := hs
    cases hs
    have hr := (h.replicas i hi).processNewView ho
    obtain ⟨hm, -⟩ := processNewView_cases ho
    refine h.frame (replicas_setReplica h.replicas hr) ?_ rfl rfl
    exact viewchangeRequest_setManager (d.setReplica i o.replica) hm
  case checkpoint i stableCkpt unstableCkpt | checkpointState i =>
    obtain ⟨-, -, hs⟩ := hs
    cases hs
    exact h.frame h.replicas (viewchangeRequest_setManager d rfl) rfl rfl
  case checkSysStatus i view primary =>
    obtain ⟨-, ⟨hi, -⟩, hs⟩ := hs
    cases hs
    have hr : ReplicaInv .trivial i
        { d.net.replicas i with currentView := view, primaryId := primary } :=
      (h.replicas i hi).congr ⟨rfl, rfl, rfl, rfl⟩
    exact h.frame (replicas_setReplica h.replicas hr) (fun _ => rfl) rfl rfl

theorem NewViewInv.start (s : Setup) : NewViewInv s (.start s) where
  replicas := by
    intro i _
    refine ⟨rfl, fun k => CollectorInv.fresh _ k, ?_, ?_, True.intro⟩
    · simp [Views.start, Network.start, Replica.construct, OrderedMap.empty]
    · exact fun _ h => h.elim
  members := by simp [Views.start]
  requests := by simp [Views.start, OrderedMap.empty]
  newViews := by simp [Views.start]
  redone := by simp [Views.start]

/-- Every state of a run has the invariant. -/
theorem NewViewInv.reachable (hbyz : s.byzantine ⊆ s.members)
    (h : (viewSystem s).Reachable TransitionSystem.always d) : NewViewInv s d := by
  refine h.invariant (I := NewViewInv s) ?_ ?_
  · rintro d rfl
    exact NewViewInv.start s
  · intro d a d' hinv _ hs
    exact hinv.step hbyz hs

end

/-! ### A view change of four replicas -/

/-- Four correct replicas with view change enabled, in view 1 with primary 1. -/
def fourCorrect : Setup where
  cfg :=
    { totalNum := 4
      enableViewchange := true
      maxProcessTxn := 64
      needQc := false
      isFaulty := fun _ => false
      preVerify := fun _ => true
      verifyMessage := fun _ _ => true
      signMessage := fun i _ => some ⟨i, ""⟩ }
  byzantine := ∅
  view := 1
  primary := 1

/-- A message of the three phases about the request with this hash, which has number 1. -/
def phaseInfo (type : RequestType) (sender : ℕ) (hash data : String)
    (dataSignature : Option SignatureInfo) : RequestInfo where
  request :=
    { type := type
      data := data
      currentView := 1
      seq := 1
      hash := hash
      senderId := sender
      dataSignature := dataSignature
      primaryId := 1 }
  signature := ⟨sender, ""⟩

/-- A request is prepared at replicas 1 to 3 and executed by replica 2; then replicas 2, 3 and 4 change
to view 2, whose primary is replica 2. -/
def viewChangeRun (hash : String) : List ViewAction :=
  let prepare := fun j => phaseInfo .prepare j hash "" none
  let viewChange := fun preparedMsg => (⟨2, {}, preparedMsg⟩ : ViewChangeMessage)
  [.act (.newRequest 1 { hash := hash, data := "x" })] ++
    [1, 2, 3].map (fun i => .act (.deliver i (phaseInfo .prePrepare 1 hash "x" none) 0)) ++
    ([1, 2, 3].flatMap fun i => [1, 2, 3].map fun j => .act (.deliver i (prepare j) 0)) ++
    [1, 2, 3].map (fun j =>
      .act (.deliver 2 (phaseInfo .commit j hash "" (some ⟨0, ""⟩)) 0)) ++
    [.timeout 2, .timeout 3, .timeout 4,
      .deliverViewChange 2 2 (viewChange [⟨1, [prepare 1, prepare 2, prepare 3]⟩]),
      .deliverViewChange 2 3 (viewChange []), .deliverViewChange 2 4 (viewChange [])]

/-- The same, with a stable checkpoint at the executed number before the replicas change the view: nothing
is covered. -/
def checkpointedRun : List ViewAction :=
  (viewChangeRun "a").take 16 ++
    [2, 3, 4].map (fun i => .checkpoint i { seq := 1 } 1) ++ [2, 3, 4].map .timeout ++
    [2, 3, 4].map fun i => .deliverViewChange 2 i ⟨2, { seq := 1 }, []⟩

end Pbft
