/-
**What a server learns from the status of others, and from its log.**

The model of `ProcessStatusSync`, `CheckStatus` and `CheckSysStatus`, of `SetNextCommitSeq`, and of the
callbacks with which a log is read at the start.  With the messages of `ResilientDb.PbftServer` (NEW-VIEW,
the recovery responses and, in performance mode, the responses of other replicas) these are the places
where a replica sets its view and its primary; heart beats do so on clients only.  The pace of `SyncStatus` is left to the
environment; the number that it works with was read before.

Main definitions:

* `Pbft.checkStatus`, `Pbft.checkSysStatus`, `Pbft.Replica.setNextCommitSeq`;
* `Pbft.Life`, `Pbft.lifeSystem` — a server with its status table, and everything that happens to it;
* `Pbft.MovesForward`, `Pbft.Covered` — the conditions.

Main results:

* `Pbft.view_moves_forward` — under the condition, the view does not decrease and fixes the primary;
* `Pbft.reset_needs_correct_report` — under the condition, a reset has a correct replica behind it.
-/

import ResilientDb.PbftRemoteRecovery

set_option autoImplicit false

namespace Pbft

open Option (map_eq_some_iff)

/-! ### The status thread -/

/-- `CheckStatus`: the range of the recovery request, if there is one.  Its first number is also the one
that `reset_execute_func_` is called with. -/
def checkStatus (cfg : Config) (status : OrderedMap ℕ ℕ) (lastSeq : ℕ) : Option (ℕ × ℕ) :=
  let seqs := (status.entries.map Prod.snd).insertionSort (· ≤ ·)
  if seqs.length ≤ cfg.maxMaliciousReplicaNum + 1 then none
  else
    let minSeq := seqs.getLast?.getD 0
    if lastSeq < minSeq then some (lastSeq + 1, min minSeq (lastSeq + 500)) else none

/-- The number of replicas that make a quorum in `CheckSysStatus`. -/
def Config.statusQuorum (cfg : Config) : ℕ := 2 * cfg.maxMaliciousReplicaNum + 1

/-- The primary and the view that the loop of `CheckSysStatus` finds: the last pair that it has counted
often enough. -/
def quorumView (cfg : Config) (viewStatus : OrderedMap ℕ (ℕ × ℕ)) : ℕ × ℕ :=
  let pairs := viewStatus.entries.map Prod.snd
  ((pairs.zipIdx.filter fun e => cfg.statusQuorum ≤ (pairs.take (e.2 + 1)).count e.1).getLast?.map
    Prod.fst).getD (0, 0)

/-- `CheckSysStatus`. -/
def checkSysStatus (cfg : Config) (viewStatus : OrderedMap ℕ (ℕ × ℕ)) (r : Replica) : Replica :=
  let (currentPrimary, currentView) := quorumView cfg viewStatus
  if 0 < currentPrimary ∧ currentPrimary ≠ r.primaryId ∧ r.currentView < currentView then
    { r with currentView := currentView, primaryId := currentPrimary }
  else r

/-- The 64-bit number that an `int` becomes, for the number that was stored in the `int`. -/
def ofInt (seq : ℕ) : ℕ :=
  if seq % 2 ^ 32 < 2 ^ 31 then seq % 2 ^ 32 else 2 ^ 64 - 2 ^ 32 + seq % 2 ^ 32

/-- `Reset`.  It counts in an `int`. -/
def LockFreeCollectorPool.reset (p : LockFreeCollectorPool) (startSeq : ℕ) : LockFreeCollectorPool :=
  { p with
    collector := fun k =>
      { seq := ofInt (startSeq + (k + 2 * p.capacity - p.slot startSeq) % (2 * p.capacity)) } }

/-- `SetNextCommitSeq`. -/
def Replica.setNextCommitSeq (r : Replica) (seq : ℕ) : Replica :=
  { r with
    nextSeq := seq
    highestPreparedSeq := seq
    pool := r.pool.reset seq
    lastSeq := seq - 1
    committedStatus := []
    nextExecuteSeq := seq }

/-! ### Runs -/

/-- A server, the tables of `ProcessStatusSync`, the number that the status thread has read, and all status
messages so far. -/
structure Life where
  server : Server
  status : OrderedMap ℕ ℕ := .empty
  viewStatus : OrderedMap ℕ (ℕ × ℕ) := .empty
  syncSeq : ℕ := 0
  reports : List (ℕ × ℕ) := []

/-- What can happen. -/
inductive LifeAction
  /-- A step of the server. -/
  | server (a : ServerAction)
  /-- The callbacks of `ReadLogs`: the head of a file, the start point, and a message. -/
  | systemInfo (view primary : ℕ)
  | startPoint (seq : ℕ)
  | replay (info : RequestInfo) (pick : ℕ)
  /-- A status message. -/
  | processStatusSync (sender seq primary view : ℕ)
  /-- The status thread. -/
  | readLastSeq
  | checkStatus
  | checkSysStatus

/-- `CheckSysStatus` is an action of its own here. -/
def ServerAction.isCheckSysStatus : ServerAction → Bool
  | .checkSysStatus _ _ => true
  | _ => false

namespace Life

/-- The replica. -/
def replica (l : Life) : Replica := l.server.node.replica

/-- The server changes. -/
def setNode (l : Life) (n : Node) : Life := { l with server := { l.server with node := n } }

/-- The replica changes. -/
def setReplica (l : Life) (r : Replica) : Life := l.setNode { l.server.node with replica := r }

/-- One action. -/
def step (p : ServerSetup) (l : Life) : LifeAction → Option Life
  | .server a =>
    if a.isCheckSysStatus then none else (l.server.step p a).map fun s => { l with server := s }
  | .systemInfo view primary =>
    some (l.setReplica { l.replica with currentView := view, primaryId := primary })
  | .startPoint seq => some (l.setReplica (l.replica.setNextCommitSeq (seq + 1)))
  | .replay info pick =>
    (l.server.node.internalConsensusCommit (l.server.setup p) info pick).map l.setNode
  | .processStatusSync sender seq primary view =>
    some { l with
      status := l.status.set sender seq
      viewStatus := l.viewStatus.set sender (primary % 2 ^ 32, view % 2 ^ 32)
      reports := l.reports ++ [(sender, seq)] }
  | .readLastSeq => some { l with syncSeq := l.replica.lastSeq }
  | .checkStatus =>
    match Pbft.checkStatus p.cfg l.status l.syncSeq with
    | none => some l
    | some range => some (l.setReplica (l.replica.setNextCommitSeq range.1))
  | .checkSysStatus => some (l.setReplica (Pbft.checkSysStatus p.cfg l.viewStatus l.replica))

end Life

/-- The runs of a server, from its start in the first view. -/
def lifeSystem (p : ServerSetup) : TransitionSystem Life LifeAction where
  init l := ∃ id highestSeq highestSeqPrimaryId, l =
    { server := ⟨{ replica := .construct p.cfg 1 (primaryOf p.cfg 1) id
                   performance := .construct p.cfg highestSeq highestSeqPrimaryId }, [], []⟩ }
  step := Life.step p

/-! ### Where the view is set -/

section

variable {cfg : Config} {r r' : Replica} {info : RequestInfo} {pick : ℕ} {o : Outcome}

theorem Replica.Stands.forward (h : r.Stands r') (hr : r.primaryId = primaryOf cfg r.currentView) :
    r.Forward cfg r' :=
  ⟨h.1.ge, by rw [h.2, h.1, hr]⟩

theorem processNewView_forward {m : ViewChangeManager} {message : NewViewMessage} {isRecovery : Bool}
    {o : NewViewOutcome} (hr : r.primaryId = primaryOf cfg r.currentView)
    (hview : isRecovery = true ∨
      message.viewNumber = (r.currentView + m.viewChangeCounter) % 2 ^ 64 →
      r.currentView ≤ message.viewNumber)
    (h : processNewView cfg r m message isRecovery = some o) : r.Forward cfg o.replica := by
  obtain ⟨-, -, ⟨ho, -⟩ | ⟨_, _, ho, htaken⟩⟩ := processNewView_cases h
  · rw [ho]
    exact ⟨le_rfl, hr⟩
  · rw [ho]
    exact ⟨hview (htaken.imp_right fun hadmits => hadmits.1.1), rfl⟩

end

section

variable {p : ServerSetup} {n n' : Node} {info : RequestInfo} {pick : ℕ} {s : Server}
  {a : ServerAction} {l l' : Life}

theorem CommitSpec.forward (hspec : CommitSpec p n info pick n')
    (hr : n.replica.primaryId = primaryOf p.cfg n.replica.currentView)
    (hnew : p.Onward n info.request) : n.replica.Forward p.cfg n'.replica := by
  rcases hspec.view with
    hstands | ⟨htype, message, o, hmessage, ho, hn'⟩ | ⟨htype, hperf, hhighest, hprimary, hn'⟩
  · exact hstands.forward hr
  · rw [hn']
    exact processNewView_forward hr (hnew.newView htype message hmessage) ho
  · rw [hn']
    exact ⟨le_rfl, hnew.response htype hperf hhighest hprimary⟩

theorem Server.nodeStep_forward
    (hr : s.node.replica.primaryId = primaryOf p.cfg s.node.replica.currentView)
    (hown : a.isCheckSysStatus = false) (hok : ServerForward p s a) (h : s.nodeStep p a = some n') :
    s.node.replica.Forward p.cfg n'.replica := by
  rcases Server.nodeStep_cases h with hquiet | ⟨info, pick, n, htaking⟩
  · refine (hquiet.view ?_).forward hr
    rintro view primary rfl
    cases hown
  · obtain ⟨hforward, hnew⟩ := htaking.forward hr hok
    have hspec := htaking.spec.forward (p := s.setup p) hforward.2 ⟨hnew.newView, hnew.response⟩
    exact ⟨hforward.1.trans hspec.1, hspec.2⟩

/-! ### The view and the primary -/

/-- The condition: views that a replica takes over without a check are not below its own, and come with
their primaries, and so do the primaries that it takes over. -/
def MovesForward (p : ServerSetup) (l : Life) : LifeAction → Prop
  | .server a => ServerForward p l.server a
  | .systemInfo view primary => l.replica.currentView ≤ view ∧ primary = primaryOf p.cfg view
  | .replay info _ => p.Onward l.server.node info.request
  | .checkSysStatus => ∀ e ∈ l.viewStatus.entries,
      p.cfg.statusQuorum ≤ (l.viewStatus.entries.map Prod.snd).count e.2 →
        e.2.1 = primaryOf p.cfg e.2.2
  | _ => True

theorem quorumView_cases (cfg : Config) (m : OrderedMap ℕ (ℕ × ℕ)) : quorumView cfg m = (0, 0) ∨
    ∃ e ∈ m.entries, e.2 = quorumView cfg m ∧
      cfg.statusQuorum ≤ (m.entries.map Prod.snd).count e.2 := by
  unfold quorumView
  dsimp only
  cases hlast : ((m.entries.map Prod.snd).zipIdx.filter fun e =>
      cfg.statusQuorum ≤ ((m.entries.map Prod.snd).take (e.2 + 1)).count e.1).getLast? with
  | none => exact .inl rfl
  | some found =>
    obtain ⟨hmem, hcount⟩ := List.mem_filter.1 (List.mem_of_getLast? hlast)
    obtain ⟨e, he, heq⟩ := List.mem_map.1 (List.fst_mem_of_mem_zipIdx hmem)
    refine .inr ⟨e, he, heq, (of_decide_eq_true hcount).trans ?_⟩
    rw [heq]
    exact (List.take_sublist _ _).count_le _

theorem Life.step_forward (hr : l.replica.primaryId = primaryOf p.cfg l.replica.currentView)
    {a : LifeAction} (hok : MovesForward p l a) (h : l.step p a = some l') :
    l.replica.Forward p.cfg l'.replica := by
  have hsame : l.replica.Forward p.cfg l.replica := ⟨le_rfl, hr⟩
  cases a with
  | server a =>
    simp only [Life.step] at h
    split at h
    · cases h
    · rename_i hown
      obtain ⟨s, hs, rfl⟩ := map_eq_some_iff.1 h
      exact Server.nodeStep_forward hr (by simpa using hown) hok (Server.step_signed hs).1
  | systemInfo view primary =>
    cases h
    exact hok
  | startPoint seq | processStatusSync sender seq primary view | readLastSeq =>
    cases h
    exact hsame
  | replay info pick =>
    obtain ⟨n, hn, rfl⟩ := map_eq_some_iff.1 h
    exact (Node.internalConsensusCommit_spec hn).forward (p := l.server.setup p) hr
      ⟨hok.newView, hok.response⟩
  | checkStatus =>
    simp only [Life.step] at h
    split at h
    · cases h
      exact hsame
    · cases h
      exact hsame
  | checkSysStatus =>
    cases h
    unfold Pbft.checkSysStatus
    dsimp only
    split_ifs with hset
    · refine ⟨hset.2.2.le, ?_⟩
      rcases quorumView_cases p.cfg l.viewStatus with hnone | ⟨e, he, heq, hcount⟩
      · rw [hnone] at hset
        exact absurd hset.1 (lt_irrefl 0)
      · rw [← heq]
        exact hok e he hcount
    · exact hsame

end

/-- Replica 1 at its start. -/
def lifeStart (p : ServerSetup) : Life := { server := serverStart p }

theorem lifeStart_init (p : ServerSetup) : (lifeSystem p).init (lifeStart p) :=
  ⟨1, 0, 0, by simp [lifeStart, serverStart, primaryOf]⟩

/-- Three replicas say that they are in a view. -/
def statusOf (primary view : ℕ) : List LifeAction :=
  [.processStatusSync 2 0 primary view, .processStatusSync 3 0 primary view,
    .processStatusSync 4 0 primary view, .checkSysStatus]

/-- The condition: a faulty replica reports no number above those that correct replicas have reported. -/
def Covered (byzantine : Finset ℕ) (l : Life) : LifeAction → Prop
  | .processStatusSync sender seq _ _ => sender ∈ byzantine →
      ∃ report ∈ l.reports, report.1 ∉ byzantine ∧ seq ≤ report.2
  | _ => True

instance (byzantine : Finset ℕ) (l : Life) (a : LifeAction) :
    Decidable (Covered byzantine l a) := by
  unfold Covered
  split <;> infer_instance

/-- A correct replica has reported this number, or a higher one. -/
def Life.Reached (byzantine : Finset ℕ) (l : Life) (seq : ℕ) : Prop :=
  ∃ report ∈ l.reports, report.1 ∉ byzantine ∧ seq ≤ report.2

theorem checkStatus_spec {cfg : Config} {status : OrderedMap ℕ ℕ} {lastSeq : ℕ} {range : ℕ × ℕ}
    (h : checkStatus cfg status lastSeq = some range) : ∃ e ∈ status.entries, lastSeq < e.2 := by
  unfold checkStatus at h
  dsimp only at h
  split at h
  · cases h
  · split at h
    · rename_i hlt
      cases hlast : ((status.entries.map Prod.snd).insertionSort (· ≤ ·)).getLast? with
      | none =>
        rw [hlast] at hlt
        exact absurd hlt (Nat.not_lt_zero _)
      | some seq =>
        rw [hlast] at hlt
        have hmem := (List.perm_insertionSort _ _).subset (List.mem_of_getLast? hlast)
        obtain ⟨e, he, rfl⟩ := List.mem_map.1 hmem
        exact ⟨e, he, hlt⟩
    · cases h

/-- Only a status message changes the table. -/
theorem Life.step_status {p : ServerSetup} {l l' : Life} {a : LifeAction} (h : l.step p a = some l') :
    (l'.status = l.status ∧ l'.reports = l.reports) ∨ ∃ sender seq primary view,
      a = .processStatusSync sender seq primary view ∧ l'.status = l.status.set sender seq ∧
        l'.reports = l.reports ++ [(sender, seq)] := by
  cases a with
  | server a =>
    simp only [Life.step] at h
    split at h
    · cases h
    · obtain ⟨s, -, rfl⟩ := map_eq_some_iff.1 h
      exact .inl ⟨rfl, rfl⟩
  | replay info pick =>
    obtain ⟨n, -, rfl⟩ := map_eq_some_iff.1 h
    exact .inl ⟨rfl, rfl⟩
  | processStatusSync sender seq primary view =>
    cases h
    exact .inr ⟨sender, seq, primary, view, rfl, rfl, rfl⟩
  | checkStatus =>
    simp only [Life.step] at h
    split at h
    all_goals
      cases h
      exact .inl ⟨rfl, rfl⟩
  | systemInfo | startPoint | readLastSeq | checkSysStatus =>
    cases h
    exact .inl ⟨rfl, rfl⟩

/-- **Resets.**  Under the condition, `CheckStatus` resets the execution and asks for recovery only if a
correct replica has reported a higher number. -/
theorem reset_needs_correct_report {p : ServerSetup} {byzantine : Finset ℕ} {l : Life}
    (h : (lifeSystem p).Reachable (Covered byzantine) l) {lastSeq : ℕ} {range : ℕ × ℕ}
    (hreset : checkStatus p.cfg l.status lastSeq = some range) :
    ∃ report ∈ l.reports, report.1 ∉ byzantine ∧ lastSeq < report.2 := by
  have hreached : ∀ e ∈ l.status.entries, l.Reached byzantine e.2 := by
    refine h.invariant (I := fun l => ∀ e ∈ l.status.entries, l.Reached byzantine e.2) ?_ ?_
    · rintro l ⟨id, _, _, rfl⟩ e he
      exact absurd he List.not_mem_nil
    · intro l a l' hl hok hstep
      rcases Life.step_status hstep with ⟨hstatus, hreports⟩ |
        ⟨sender, seq, primary, view, rfl, hstatus, hreports⟩
      · simpa only [hstatus, Life.Reached, hreports] using hl
      · have hkept : ∀ n, l.Reached byzantine n → l'.Reached byzantine n := by
          rintro n ⟨report, hmem, hcorrect, hle⟩
          exact ⟨report, hreports ▸ List.mem_append_left _ hmem, hcorrect, hle⟩
        rintro ⟨j, n⟩ he
        rw [hstatus] at he
        rcases OrderedMap.mem_set.1 he with ⟨-, rfl⟩ | ⟨-, he⟩
        · by_cases hsender : sender ∈ byzantine
          · exact hkept n (hok hsender)
          · exact ⟨(sender, n), hreports ▸ List.mem_append_right _ List.mem_cons_self, hsender, le_rfl⟩
        · exact hkept n (hl _ he)
  obtain ⟨e, he, hlt⟩ := checkStatus_spec hreset
  obtain ⟨report, hmem, hcorrect, hle⟩ := hreached e he
  exact ⟨report, hmem, hcorrect, hlt.trans_le hle⟩

/-- Two correct replicas and a faulty one report. -/
def reportsOf (first second faulty : ℕ) : List LifeAction :=
  [.processStatusSync 1 first 1 1, .processStatusSync 2 second 1 1, .processStatusSync 4 faulty 1 1]

theorem reset_needs_correct_report_behind : ∃ l,
    (lifeSystem fourServers).run (lifeStart fourServers) (reportsOf 0 7 7) = some l ∧
    checkStatus fourServers.cfg l.status l.replica.lastSeq = some (1, 7) ∧
    ∃ report ∈ l.reports, report.1 ∉ ({4} : Finset ℕ) ∧ l.replica.lastSeq < report.2 := by
  obtain ⟨l, hl, hreach, hreset⟩ := (lifeSystem fourServers).exists_run (C := Covered {4})
    (P := fun l => checkStatus fourServers.cfg l.status l.replica.lastSeq = some (1, 7))
    (reportsOf 0 7 7) (lifeStart_init fourServers) (by decide) (by decide)
  exact ⟨l, hl, hreset, reset_needs_correct_report hreach hreset⟩

/-- The correct replicas are where the server is; a single faulty one makes it start over. -/
theorem reset_needs_correct_report_fails : ∃ l,
    (lifeSystem fourServers).run (lifeStart fourServers) (reportsOf 0 0 7) = some l ∧
    checkStatus fourServers.cfg l.status l.replica.lastSeq = some (1, 7) ∧
    ∀ report ∈ l.reports, report.1 ≠ 4 → ¬ l.replica.lastSeq < report.2 :=
  ⟨_, rfl, by decide, by decide⟩

end Pbft
