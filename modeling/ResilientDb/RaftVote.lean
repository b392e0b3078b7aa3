/-
**Votes of a replica that crashes and comes back.**

A replica writes its term and its vote to `raft_metadata.dat` before it answers, and loads them when it
comes back.  In between lies the constructor of `Consensus`: it opens the metadata file, builds a `Raft`
object in term 0 (replica 1: as the leader of term 1), starts the thread of the election timer and calls
`RecoverFromLogs` after that.  A timer that expires in between votes in a term in which the replica may
have voted before, and replaces the file.  It cannot send anything before `InitProtocol`: its thread gets
no further, or ends the process.

The model follows one replica with arbitrary messages.  A process may crash between any two of its steps,
and inside a handler after any of its writes of the metadata.

Main definitions:

* `Raft.Ballot`, `Raft.Ballot.Remembers` — a term with its vote, and what a later one has to know;
* `Raft.Replica.metadataWrites` — what a handler writes to the metadata file, write by write;
* `Raft.Life`, `Raft.lifeSystem` — a replica with its disk, its crashes and restarts;
* `Raft.LoadsFirst` — the condition: recovery is enabled, and no timer expires before the metadata is
  loaded.

Main results:

* `Raft.Replica.handle_ballot` — a handler remembers, and votes as its ballot says;
* `Raft.vote_uniqueness` — in such a run no term has votes for two candidates, and terms do not fall.
-/

import ResilientDb.RaftElection
import ResilientDb.RaftCommitIndex

set_option autoImplicit false

namespace Raft

open Option (bind_eq_some_iff map_eq_some_iff)
open List (append_nil mem_append mem_singleton)
open Replica (SameRole StepsDown)

/-! ### Ballots -/

/-- A term, and the candidate that has the vote in it. -/
structure Ballot where
  term : ℕ
  votedFor : Option ℕ

/-- The ballot is of a later term, or of the same term and with the vote that was given in it. -/
def Ballot.Remembers (b a : Ballot) : Prop :=
  a.term < b.term ∨ a.term = b.term ∧ (a.votedFor = none ∨ a.votedFor = b.votedFor)

namespace Ballot

variable {a b c : Ballot}

theorem Remembers.refl (a : Ballot) : a.Remembers a := .inr ⟨rfl, .inr rfl⟩

theorem Remembers.trans (hbc : c.Remembers b) (hab : b.Remembers a) : c.Remembers a := by
  obtain hlt | ⟨heq, hvote⟩ := hab
  · obtain hlt' | ⟨heq', _⟩ := hbc
    · exact .inl (hlt.trans hlt')
    · exact .inl (hlt.trans_eq heq')
  · obtain hlt' | ⟨heq', hvote'⟩ := hbc
    · exact .inl (heq.trans_lt hlt')
    · refine .inr ⟨heq.trans heq', ?_⟩
      obtain hvote | hvote := hvote
      · exact .inl hvote
      · rw [hvote]
        exact hvote'

theorem Remembers.term_le (h : b.Remembers a) : a.term ≤ b.term := by
  obtain hlt | ⟨heq, _⟩ := h
  · exact hlt.le
  · exact heq.le

/-- A vote of the current term is not forgotten. -/
theorem Remembers.votedFor_eq {candidate : ℕ} (h : b.Remembers ⟨b.term, some candidate⟩) :
    b.votedFor = some candidate := by
  obtain hlt | ⟨_, hvote | hvote⟩ := h
  · exact absurd hlt (lt_irrefl _)
  · cases hvote
  · exact hvote.symm

end Ballot

/-- The term and the vote of a replica. -/
def Replica.ballot (r : Replica) : Ballot := ⟨r.currentTerm, r.votedFor⟩

theorem Replica.ballot_remembers {r r' : Replica}
    (h : (r'.currentTerm = r.currentTerm ∧ r'.votedFor = r.votedFor) ∨
      (r.currentTerm < r'.currentTerm ∧ r'.votedFor = none)) : r'.ballot.Remembers r.ballot := by
  obtain ⟨hterm, hvote⟩ | ⟨hlt, _⟩ := h
  · exact .inr ⟨hterm.symm, .inr hvote.symm⟩
  · exact .inl hlt

/-- The term and the vote in the metadata. -/
def Metadata.ballot (m : Metadata) : Ballot := ⟨m.currentTerm, m.votedFor⟩

/-- The vote that an answer gives to its recipient. -/
def grantedVote (m : ℕ × Message) : Option (ℕ × ℕ) :=
  match m.2 with
  | .requestVoteResponse rvr => if rvr.voteGranted then some (rvr.term, m.1) else none
  | _ => none

/-- The votes that a handler of the replica gives, with their terms.  A candidate votes for itself. -/
def Replica.grantedVotes (r : Replica) (o : Outcome) : Call → List (ℕ × ℕ)
  | .startElection => if r.role = .leader then [] else [(o.replica.currentTerm, r.id)]
  | _ => o.sent.filterMap grantedVote

/-! ### What a handler does to the ballot -/

/-- A handler that does not vote: the term and the vote stay, or a new term begins without a vote. -/
structure WithoutVote (r : Replica) (o : Outcome) : Prop where
  ballot : (o.replica.currentTerm = r.currentTerm ∧ o.replica.votedFor = r.votedFor) ∨
    (r.currentTerm < o.replica.currentTerm ∧ o.replica.votedFor = none)
  sent : ∀ m ∈ o.sent, m.2.IsReplication

namespace WithoutVote

variable {r : Replica} {o : Outcome}

theorem of_sameRole (h : SameRole r o.replica) (hsent : ∀ m ∈ o.sent, m.2.IsReplication) :
    WithoutVote r o := ⟨.inl ⟨h.currentTerm, h.votedFor⟩, hsent⟩

theorem of_role (h : SameRole r o.replica ∨ StepsDown r o.replica)
    (hsent : ∀ m ∈ o.sent, m.2.IsReplication) : WithoutVote r o := by
  obtain h | h := h
  · exact of_sameRole h hsent
  · exact ⟨h.term, hsent⟩

theorem filterMap_grantedVote (h : WithoutVote r o) : o.sent.filterMap grantedVote = [] := by
  rw [List.filterMap_eq_nil_iff]
  rintro ⟨dst, m⟩ hm
  have hreplication := h.sent _ hm
  cases m with
  | appendEntries _ | appendEntriesResponse _ | requestVote _ => rfl
  | requestVoteResponse rvr => exact absurd hreplication id

end WithoutVote

namespace Replica

variable {cfg : Config} {snapshotBufferAmount : ℕ} {r : Replica} {o : Outcome}

theorem receiveInstallSnapshotResponse_role {response : InstallSnapshotResponse} {offset : Option ℕ}
    (h : r.receiveInstallSnapshotResponse cfg response = some (o, offset)) :
    (SameRole r o.replica ∨ StepsDown r o.replica) ∧ ∀ m ∈ o.sent, m.2.IsReplication := by
  cases receiveInstallSnapshotResponse_branch h with
  | ignored hheeds =>
    refine ⟨?_, by rintro m ⟨⟩⟩
    exact hheeds.demoted_or_eq.imp (fun hsame => .of_eq hsame) fun hdemoted => hdemoted.toStepsDown
  | answered _ _ _ hsent =>
    refine ⟨.inl (setProgress_sameButView r _ _).toSameRole, fun m hm => ?_⟩
    obtain ⟨fields, rfl⟩ := hsent m hm
    trivial

theorem receiveRequestVoteResponse_withoutVote {rvr : RequestVoteResponse}
    (h : r.receiveRequestVoteResponse cfg rvr = some o) : WithoutVote r o := by
  obtain ⟨hsent, _, hcases⟩ := receiveRequestVoteResponse_spec h
  have hnone : ∀ m ∈ o.sent, m.2.IsReplication := by
    rw [hsent]
    rintro m ⟨⟩
  obtain ⟨_, hsame | hdemoted⟩ | ⟨_, _, _, _, hvotes | ⟨_, _, _, _, hterm, hvote, _⟩⟩ := hcases
  · refine ⟨.inl ?_, hnone⟩
    rw [hsame]
    exact ⟨rfl, rfl⟩
  · exact ⟨hdemoted.toStepsDown.term, hnone⟩
  · refine ⟨.inl ?_, hnone⟩
    rw [hvotes]
    exact ⟨rfl, rfl⟩
  · exact ⟨.inl ⟨hterm, hvote⟩, hnone⟩

/-- No other handler gives a vote. -/
theorem handle_withoutVote {call : Call} (h : r.handle cfg snapshotBufferAmount call = some o)
    (hvote : ∀ rv, call ≠ .receiveRequestVote rv) (helection : call ≠ .startElection) :
    WithoutVote r o := by
  cases call with
  | receiveTransaction serialized now =>
    obtain ⟨⟨o, index⟩, ho, rfl⟩ := map_eq_some_iff.1 h
    obtain ⟨hsame, hsent⟩ := receiveTransaction_sameRole ho
    exact .of_sameRole hsame hsent
  | finishTransaction myLogIndex =>
    cases h
    exact .of_sameRole (finishTransaction_sameButView _ _).toSameRole (by rintro m ⟨⟩)
  | receiveAppendEntries ae =>
    obtain ⟨hrole, hsent⟩ := receiveAppendEntries_role h
    exact .of_role (hrole.imp_left .of_eq) hsent
  | receiveAppendEntriesResponse aer now =>
    obtain ⟨hrole, hsent⟩ := receiveAppendEntriesResponse_role h
    exact .of_role hrole hsent
  | receiveRequestVote rv => exact absurd rfl (hvote rv)
  | receiveRequestVoteResponse rvr => exact receiveRequestVoteResponse_withoutVote h
  | startElection => exact absurd rfl helection
  | sendHeartbeat now =>
    obtain ⟨hsame, hsent⟩ := sendHeartbeat_sameRole h
    exact .of_sameRole hsame hsent
  | receiveInstallSnapshotResponse response =>
    obtain ⟨⟨o, offset⟩, ho, rfl⟩ := map_eq_some_iff.1 h
    obtain ⟨hrole, hsent⟩ := receiveInstallSnapshotResponse_role ho
    exact .of_role hrole hsent
  | truncatePrefix snapshotIndex =>
    obtain ⟨⟨r', write⟩, hr, rfl⟩ := map_eq_some_iff.1 h
    exact .of_sameRole (truncatePrefix_frame hr).1 (by rintro m ⟨⟩)

/-- A vote is given to at most one candidate. -/
theorem receiveRequestVote_ballot {rv : RequestVote} (h : r.receiveRequestVote rv = some o) :
    o.replica.ballot.Remembers r.ballot ∧
      ∀ g ∈ o.sent.filterMap grantedVote, o.replica.ballot = ⟨g.1, some g.2⟩ := by
  cases receiveRequestVote_branch h with
  | own _ => exact ⟨.refl _, by rintro g ⟨⟩⟩
  | @answered r₁ granted _ hheeds _ hgrant =>
    have hremembers : r₁.ballot.Remembers r.ballot := by
      cases hheeds with
      | same => exact .refl _
      | demoted => exact ballot_remembers (demoteSelf_demoted r rv.term).term
    cases granted with
    | false => exact ⟨hremembers, by rintro g ⟨⟩⟩
    | true =>
      refine ⟨?_, ?_⟩
      · -- the vote is new, or it is given once more
        refine Ballot.Remembers.trans ?_ hremembers
        exact .inr ⟨rfl, (hgrant rfl).2.1⟩
      · intro g hg
        rw [mem_singleton.1 hg]
        rfl

theorem startElection_ballot (h : r.startElection cfg = some o) :
    o.replica.ballot.Remembers r.ballot ∧
      ∀ g ∈ r.grantedVotes o .startElection, o.replica.ballot = ⟨g.1, some g.2⟩ := by
  obtain ⟨hleader, rfl⟩ | ⟨hleader, _, -, rfl⟩ := startElection_cases h
  · rw [grantedVotes, if_pos hleader]
    exact ⟨.refl _, by rintro g ⟨⟩⟩
  · rw [grantedVotes, if_neg hleader]
    refine ⟨.inl (Nat.lt_succ_self r.currentTerm), ?_⟩
    intro g hg
    rw [mem_singleton.1 hg]
    rfl

/-- **A handler remembers the ballot, and all votes it gives are the vote of the new one.** -/
theorem handle_ballot {call : Call} (h : r.handle cfg snapshotBufferAmount call = some o) :
    o.replica.ballot.Remembers r.ballot ∧
      ∀ g ∈ r.grantedVotes o call, o.replica.ballot = ⟨g.1, some g.2⟩ := by
  by_cases helection : call = .startElection
  · subst helection
    exact startElection_ballot h
  · rw [grantedVotes]
    · by_cases hvote : ∃ rv, call = .receiveRequestVote rv
      · obtain ⟨rv, rfl⟩ := hvote
        exact receiveRequestVote_ballot h
      · have hwithout := handle_withoutVote h (fun rv hrv => hvote ⟨rv, hrv⟩) helection
        rw [hwithout.filterMap_grantedVote]
        exact ⟨ballot_remembers hwithout.ballot, by rintro g ⟨⟩⟩
    · exact helection

/-! ### The writes of a handler -/

/-- What a handler writes to the metadata file, in order.  `ReceiveRequestVoteLocked` may write twice:
when it steps down, and when it votes. -/
def metadataWrites (r : Replica) (o : Outcome) : Call → List Metadata
  | .receiveRequestVote rv =>
    (if rv.candidateId ≠ r.id ∧ r.currentTerm < rv.term then [(r.demoteSelf rv.term).metadata]
      else []) ++
    (if o.sent.any fun m => (grantedVote m).isSome then [o.replica.metadata] else [])
  | .startElection => if r.role = .leader then [] else [o.replica.metadata]
  | .truncatePrefix _ =>
    if o.replica.truncatedLastIndex = r.truncatedLastIndex then [] else [o.replica.metadata]
  | _ => if o.replica.currentTerm = r.currentTerm then [] else [o.replica.metadata]

/-- What is written to disk forgets no vote. -/
theorem metadataWrites_remembers {call : Call} (h : r.handle cfg snapshotBufferAmount call = some o) :
    ∀ m ∈ r.metadataWrites o call, m.ballot.Remembers r.ballot := by
  have hremembers : o.replica.metadata.ballot.Remembers r.ballot := (handle_ballot h).1
  have hif : ∀ (p : Prop) [Decidable p], ∀ m ∈ (if p then [] else [o.replica.metadata]),
      m.ballot.Remembers r.ballot := by
    intro p _ m hm
    split at hm
    · cases hm
    · rw [mem_singleton.1 hm]
      exact hremembers
  cases call with
  | receiveRequestVote rv =>
    intro m hm
    obtain hm | hm := mem_append.1 hm
    · split at hm
      · rw [mem_singleton.1 hm]
        exact ballot_remembers (demoteSelf_demoted r rv.term).term
      · cases hm
    · split at hm
      · rw [mem_singleton.1 hm]
        exact hremembers
      · cases hm
  | startElection | truncatePrefix _ | receiveTransaction _ _ | finishTransaction _
  | receiveAppendEntries _ | receiveAppendEntriesResponse _ _ | receiveRequestVoteResponse _
  | sendHeartbeat _ | receiveInstallSnapshotResponse _ => exact hif _

end Replica

/-- The metadata file after some writes. -/
def Metadata.afterWrites (disk : Metadata) (writes : List Metadata) : Metadata :=
  writes.getLast?.getD disk

namespace Replica

variable {cfg : Config} {snapshotBufferAmount : ℕ} {r : Replica} {o : Outcome} {disk : Metadata}

theorem afterWrites_remembers {call : Call} (h : r.handle cfg snapshotBufferAmount call = some o)
    (hdisk : disk.ballot = r.ballot) (writes : ℕ) :
    (disk.afterWrites ((r.metadataWrites o call).take writes)).ballot.Remembers r.ballot := by
  rw [Metadata.afterWrites]
  cases hlast : ((r.metadataWrites o call).take writes).getLast? with
  | none =>
    rw [Option.getD_none, hdisk]
    exact .refl _
  | some m =>
    exact metadataWrites_remembers h m (List.mem_of_mem_take (List.mem_of_getLast? hlast))

theorem afterWrites_ballot {call : Call} (h : r.handle cfg snapshotBufferAmount call = some o)
    (hdisk : disk.ballot = r.ballot) :
    (disk.afterWrites (r.metadataWrites o call)).ballot = o.replica.ballot := by
  -- what is not written has not changed
  have hif : ∀ (p : Prop) [Decidable p], (p → o.replica.ballot = r.ballot) →
      (disk.afterWrites (if p then [] else [o.replica.metadata])).ballot = o.replica.ballot := by
    intro p _ hp
    split
    · rename_i h
      exact hdisk.trans (hp h).symm
    · rfl
  have hquiet : (∀ rv, call ≠ .receiveRequestVote rv) → call ≠ .startElection →
      o.replica.currentTerm = r.currentTerm → o.replica.ballot = r.ballot := by
    intro hvote helection hterm
    obtain ⟨_, hvoted⟩ | ⟨hlt, _⟩ := (handle_withoutVote h hvote helection).ballot
    · rw [ballot, ballot, hterm, hvoted]
    · exact absurd hterm hlt.ne'
  cases call with
  | receiveRequestVote rv =>
    cases receiveRequestVote_branch h with
    | own hself =>
      rw [metadataWrites, if_neg (fun h => h.1 hself)]
      exact hdisk
    | answered granted hne hheeds hle _ =>
      rw [metadataWrites]
      cases granted with
      | true =>
        -- the vote is written last, whether or not the replica has stepped down before
        have hlast : ∀ writes m, disk.afterWrites (writes ++ [m]) = m := by
          intro writes m
          rw [Metadata.afterWrites, List.getLast?_append]
          rfl
        exact congrArg Metadata.ballot (hlast _ _)
      | false =>
        cases hheeds with
        | same =>
          rw [if_neg (fun h => absurd h.2 (not_lt.2 hle))]
          exact hdisk
        | demoted hlt =>
          rw [if_pos ⟨hne, hlt⟩]
          rfl
  | startElection =>
    refine hif _ ?_
    intro hleader
    rw [handle, startElection, if_pos hleader] at h
    cases h
    rfl
  | truncatePrefix snapshotIndex =>
    refine hif _ ?_
    intro _
    obtain ⟨⟨r', write⟩, hr, rfl⟩ := map_eq_some_iff.1 h
    have hsame := (truncatePrefix_frame hr).1
    rw [ballot, ballot, hsame.currentTerm, hsame.votedFor]
  | receiveTransaction _ _ | finishTransaction _ | receiveAppendEntries _
  | receiveAppendEntriesResponse aer now | receiveRequestVoteResponse _ | sendHeartbeat _
  | receiveInstallSnapshotResponse response =>
    exact hif _ (hquiet (by rintro rv ⟨⟩) (by rintro ⟨⟩))

end Replica

/-! ### A replica and its restarts -/

/-- A replica with its disk, which is the metadata of its receiver.  `sending` says that the thread of the
timer has something to send before it can.  `granted` lists the votes with their terms, and `terms` the
terms in which the replica has acted; the code keeps neither. -/
structure Life (σ : Type) where
  server : Server σ
  startup : Startup
  sending : Bool
  granted : List (ℕ × ℕ)
  terms : List ℕ

/-- What can happen to a replica. -/
inductive LifeEvent
  /-- A handler runs, or a timer expires. -/
  | handle (call : Call)
  /-- A section of a call of `ReceiveInstallSnapshot`. -/
  | snapshot (a : SnapshotAction)
  /-- The process crashes; it is started again and has built the `Raft` object. -/
  | crash
  /-- The process crashes inside a handler that has written its metadata `writes` times. -/
  | crashIn (call : Call) (writes : ℕ)
  /-- The constructor of `Consensus` goes on. -/
  | recover (a : RecoveryAction)

/-- The thread of the election timer makes the call; it is started before the metadata is loaded. -/
def Call.isTimer : Call → Bool
  | .startElection => true
  | .sendHeartbeat _ => true
  | _ => false

namespace Life

variable {σ : Type}

/-- The replica. -/
def replica (s : Life σ) : Replica := s.server.receiver.replica

/-- What the name of the metadata file leads to. -/
def disk (s : Life σ) : Metadata := s.server.receiver.metadata

/-- Messages are taken up, or the timer makes the call. -/
def mayCall (s : Life σ) (call : Call) : Bool :=
  s.startup.isReady || (call.isTimer && !s.sending)

/-- A process that is started for the first time. -/
def boot (recoveryEnabled : Bool) (id : ℕ) (storage : σ) : Life σ :=
  ⟨⟨.start id storage, []⟩, .begin recoveryEnabled {}, false, [], []⟩

/-- The process is started again. -/
def crash (recoveryEnabled : Bool) (s : Life σ) : Life σ :=
  { s with
    server := ⟨s.server.receiver.reboot, []⟩
    startup := .begin recoveryEnabled s.disk
    sending := false }

/-- Replace the replica and the metadata file. -/
def setReplica (s : Life σ) (replica : Replica) (disk : Metadata) : Life σ :=
  { s with
    server := { s.server with
      receiver := { s.server.receiver with replica := replica, metadata := disk } } }

/-- One event.  Without recovery the file is not written; as it is not read either, the model does not
tell the difference. -/
def step [Kv.Storage σ] (cfg : Config) (snapshotBufferAmount : ℕ) (recoveryEnabled : Bool)
    (s : Life σ) : LifeEvent → Option (Life σ)
  | .handle call => do
      guard (s.mayCall call)
      let o ← s.replica.handle cfg snapshotBufferAmount call
      let s' := s.setReplica o.replica (s.disk.afterWrites (s.replica.metadataWrites o call))
      some { s' with
        sending := !s.startup.isReady && !o.sent.isEmpty
        granted := s.granted ++ s.replica.grantedVotes o call
        terms := s.terms ++ [o.replica.currentTerm] }
  | .snapshot a => do
      guard (s.startup.isReady = true)
      let (server, _) ← s.server.snapshotStep a
      some { s with
        server := server
        terms := s.terms ++ [server.receiver.replica.currentTerm] }
  | .crash => some (s.crash recoveryEnabled)
  | .crashIn call writes => do
      guard (s.mayCall call)
      let o ← s.replica.handle cfg snapshotBufferAmount call
      let disk := s.disk.afterWrites ((s.replica.metadataWrites o call).take writes)
      some ((s.setReplica s.replica disk).crash recoveryEnabled)
  | .recover a => do
      let (replica, startup) ← s.replica.recover s.startup a
      some { s.setReplica replica s.disk with
        startup := startup
        -- after `InitProtocol` the thread can send
        sending := s.sending && !startup.isReady }

end Life

/-- The runs of a replica. -/
def lifeSystem (σ : Type) [Kv.Storage σ] (cfg : Config) (snapshotBufferAmount : ℕ)
    (recoveryEnabled : Bool) : TransitionSystem (Life σ) LifeEvent where
  init s := ∃ id storage, s = .boot recoveryEnabled id storage
  step := Life.step cfg snapshotBufferAmount recoveryEnabled

/-- The condition: no timer expires before the term and the vote are loaded, and a process that crashes
has recovery enabled. -/
def LoadsFirst {σ : Type} (recoveryEnabled : Bool) (s : Life σ) : LifeEvent → Prop
  | .handle _ => s.startup.Loaded
  | .crash => recoveryEnabled = true
  | .crashIn _ _ => recoveryEnabled = true ∧ s.startup.Loaded
  | _ => True

instance {σ : Type} (recoveryEnabled : Bool) (s : Life σ) (a : LifeEvent) :
    Decidable (LoadsFirst recoveryEnabled s a) := by
  unfold LoadsFirst
  split <;> infer_instance

/-! ### Votes are not forgotten -/

section

variable {σ : Type} {recoveryEnabled : Bool} {s : Life σ}

/-- The ballot that the replica acts on, or will act on once it has loaded its metadata. -/
def Life.known (s : Life σ) : Ballot :=
  match s.startup with
  | .opened metadata .setCurrentTerm => metadata.ballot
  | .opened metadata .setVotedFor => metadata.ballot
  | _ => s.replica.ballot

/-- What was done before is known, and what is known is on the disk. -/
structure LifeInv (recoveryEnabled : Bool) (s : Life σ) : Prop where
  unique : ∀ term candidate candidate', (term, candidate) ∈ s.granted →
    (term, candidate') ∈ s.granted → candidate = candidate'
  granted : ∀ g ∈ s.granted, s.known.Remembers ⟨g.1, some g.2⟩
  sorted : s.terms.Pairwise (· ≤ ·)
  terms_le : ∀ term ∈ s.terms, term ≤ s.known.term
  durable : recoveryEnabled = true → s.disk.ballot = s.known
  loading : ∀ metadata, s.startup = .opened metadata .setVotedFor →
    s.replica.currentTerm = metadata.currentTerm

namespace LifeInv

theorem boot (id : ℕ) (storage : σ) : LifeInv recoveryEnabled (.boot recoveryEnabled id storage) where
  unique := by rintro term candidate candidate' ⟨⟩
  granted := by rintro g ⟨⟩
  sorted := .nil
  terms_le := by rintro term ⟨⟩
  durable := by
    intro h
    rw [Life.known, Life.boot, h]
    rfl
  loading := by
    intro metadata h
    cases recoveryEnabled <;> cases h

theorem advance (hinv : LifeInv recoveryEnabled s) {s' : Life σ} {votes : List (ℕ × ℕ)}
    {terms : List ℕ} (hknown : s'.known.Remembers s.known)
    (hgranted : s'.granted = s.granted ++ votes) (hterms : s'.terms = s.terms ++ terms)
    (hvotes : ∀ g ∈ votes, s'.known = ⟨g.1, some g.2⟩)
    (hacted : terms = [] ∨ terms = [s'.known.term])
    (hdurable : recoveryEnabled = true → s'.disk.ballot = s'.known)
    (hloading : ∀ metadata, s'.startup = .opened metadata .setVotedFor →
      s'.replica.currentTerm = metadata.currentTerm) : LifeInv recoveryEnabled s' := by
  have hall : ∀ g ∈ s'.granted, s'.known.Remembers ⟨g.1, some g.2⟩ := by
    intro g hg
    rw [hgranted] at hg
    obtain hg | hg := mem_append.1 hg
    · exact hknown.trans (hinv.granted g hg)
    · rw [← hvotes g hg]
      exact .refl _
  refine ⟨?_, hall, ?_, ?_, hdurable, hloading⟩
  · -- two votes of which one is new are votes of the present term
    have hnew : ∀ term candidate candidate', (term, candidate) ∈ votes →
        (term, candidate') ∈ s'.granted → candidate = candidate' := by
      intro term candidate candidate' hmem hmem'
      have hvote := hvotes _ hmem
      have hremembers := hall _ hmem'
      rw [hvote] at hremembers
      exact Option.some.inj hremembers.votedFor_eq
    intro term candidate candidate' hmem hmem'
    have hboth := And.intro hmem hmem'
    rw [hgranted] at hmem hmem'
    obtain hmem | hmem := mem_append.1 hmem
    · obtain hmem' | hmem' := mem_append.1 hmem'
      · exact hinv.unique term candidate candidate' hmem hmem'
      · exact (hnew term candidate' candidate hmem' hboth.1).symm
    · exact hnew term candidate candidate' hmem hboth.2
  · rw [hterms]
    obtain rfl | rfl := hacted
    · rw [append_nil]
      exact hinv.sorted
    · refine List.pairwise_append.2 ⟨hinv.sorted, List.pairwise_singleton _ _, ?_⟩
      intro term hterm term' hterm'
      rw [mem_singleton.1 hterm']
      exact (hinv.terms_le term hterm).trans hknown.term_le
  · rw [hterms]
    intro term hterm
    obtain hterm | hterm := mem_append.1 hterm
    · exact (hinv.terms_le term hterm).trans hknown.term_le
    · obtain rfl | rfl := hacted
      · cases hterm
      · exact (mem_singleton.1 hterm).le

theorem keep (hinv : LifeInv recoveryEnabled s) {s' : Life σ} (hknown : s'.known.Remembers s.known)
    (hgranted : s'.granted = s.granted) (hterms : s'.terms = s.terms)
    (hdurable : recoveryEnabled = true → s'.disk.ballot = s'.known)
    (hloading : ∀ metadata, s'.startup = .opened metadata .setVotedFor →
      s'.replica.currentTerm = metadata.currentTerm) : LifeInv recoveryEnabled s' := by
  refine @advance σ recoveryEnabled s hinv s' [] [] hknown ?_ ?_ ?_ (.inl rfl) hdurable hloading
  · rw [hgranted, append_nil]
  · rw [hterms, append_nil]
  · rintro g ⟨⟩

end LifeInv

theorem Server.snapshotStep_ballot [Kv.Storage σ] {server server' : Server σ} {a : SnapshotAction}
    {response : Option InstallSnapshotResponse}
    (hs : server.snapshotStep a = some (server', response)) :
    server'.receiver.replica.ballot.Remembers server.receiver.replica.ballot ∧
      (server.receiver.metadata.ballot = server.receiver.replica.ballot →
        server'.receiver.metadata.ballot = server'.receiver.replica.ballot) := by
  cases a with
  | accept message fd =>
    obtain ⟨⟨receiver, h⟩, hr, hs⟩ := bind_eq_some_iff.1 hs
    cases hs
    obtain ⟨hreplica, hmetadata⟩ := Receiver.accept_metadata hr
    rw [hreplica, hmetadata]
    unfold Receiver.observeTerm
    split
    · exact ⟨Replica.ballot_remembers (Replica.demoteSelf_demoted _ _).term, fun _ => rfl⟩
    · exact ⟨.refl _, id⟩
  | advance k io =>
    obtain ⟨h, _, hs⟩ := bind_eq_some_iff.1 hs
    obtain ⟨⟨receiver, h'⟩, hr, hs⟩ := bind_eq_some_iff.1 hs
    cases hs
    have hballot : receiver.replica.ballot = server.receiver.replica.ballot := by
      obtain hsame | ⟨_, hinstall⟩ := Receiver.advance_replica hr
      · rw [hsame]
      · rw [hinstall]
        rfl
    refine ⟨hballot ▸ .refl _, ?_⟩
    intro hdisk
    obtain hsame | hwritten := Receiver.advance_metadata hr
    · rw [hsame, hdisk, hballot]
    · rw [hwritten]
      rfl
  | reply k =>
    simp only [Server.snapshotStep, bind, bind_eq_some_iff] at hs
    obtain ⟨h, _, _, _, hs⟩ := hs
    cases hs
    exact ⟨.refl _, id⟩

variable {s' : Life σ}

theorem Life.known_of_loaded (h : s.startup.Loaded) : s.known = s.replica.ballot := by
  unfold Life.known
  split
  · next hstartup =>
    rw [hstartup] at h
    cases h
  · next hstartup =>
    rw [hstartup] at h
    cases h
  · rfl

/-- A handler that runs keeps the invariant. -/
theorem LifeInv.act (hinv : LifeInv recoveryEnabled s) (hloaded : s.startup.Loaded)
    (hloaded' : s'.startup.Loaded) (hballot : s'.replica.ballot.Remembers s.replica.ballot)
    (hdisk : s.disk.ballot = s.replica.ballot → s'.disk.ballot = s'.replica.ballot)
    {votes : List (ℕ × ℕ)} {terms : List ℕ} (hgranted : s'.granted = s.granted ++ votes)
    (hterms : s'.terms = s.terms ++ terms)
    (hvotes : ∀ g ∈ votes, s'.replica.ballot = ⟨g.1, some g.2⟩)
    (hacted : terms = [] ∨ terms = [s'.replica.currentTerm]) : LifeInv recoveryEnabled s' := by
  have hknown := Life.known_of_loaded hloaded
  have hknown' := Life.known_of_loaded hloaded'
  refine hinv.advance ?_ hgranted hterms ?_ ?_ ?_ ?_
  · rw [hknown, hknown']
    exact hballot
  · rw [hknown']
    exact hvotes
  · rw [hknown']
    exact hacted
  · intro henabled
    rw [hknown']
    exact hdisk ((hinv.durable henabled).trans hknown)
  · intro metadata hstartup
    rw [hstartup] at hloaded'
    cases hloaded'

/-- After a crash the disk remembers the votes that were sent. -/
theorem LifeInv.crash {s : Life σ} (hinv : LifeInv true s) {disk : Metadata}
    (hdisk : disk.ballot.Remembers s.known) :
    LifeInv true ((s.setReplica s.replica disk).crash true) :=
  hinv.keep hdisk rfl rfl (fun _ => rfl) nofun

/-- The constructor goes on: what is known stays the same while it is loaded. -/
theorem LifeInv.recover (hinv : LifeInv recoveryEnabled s) {a : RecoveryAction} {replica : Replica}
    {startup : Startup} (hr : s.replica.recover s.startup a = some (replica, startup))
    (hreplica : s'.replica = replica) (hstartup : s'.startup = startup) (hdisk : s'.disk = s.disk)
    (hgranted : s'.granted = s.granted) (hterms : s'.terms = s.terms) :
    LifeInv recoveryEnabled s' := by
  have hsame : s'.known = s.known := by
    unfold Life.known
    rw [hstartup, hreplica]
    rcases Replica.recover_cases hr with ⟨m, hopened, rfl, -⟩ | ⟨m, hopened, rfl, rfl⟩ |
      ⟨hloaded, hloaded', hsame⟩
    · rw [hopened]
    · rw [hopened]
      exact congrArg (Ballot.mk · m.votedFor) (hinv.loading m hopened)
    · have hballot : replica.ballot = s.replica.ballot := by
        rw [Replica.ballot, Replica.ballot, hsame.currentTerm, hsame.votedFor]
      have hknown := Life.known_of_loaded hloaded
      rw [Life.known] at hknown
      rw [hknown, ← hballot]
      split
      · cases hloaded'
      · cases hloaded'
      · rfl
  refine hinv.keep (hsame ▸ .refl _) hgranted hterms ?_ ?_
  · intro henabled
    rw [hdisk, hsame]
    exact hinv.durable henabled
  · intro metadata hopened'
    rw [hreplica]
    rw [hstartup] at hopened'
    rcases Replica.recover_cases hr with ⟨m, -, heq, rfl⟩ | ⟨m, -, heq, -⟩ | ⟨-, hloaded', -⟩
    · cases heq.symm.trans hopened'
      rfl
    · cases heq.symm.trans hopened'
    · rw [hopened'] at hloaded'
      cases hloaded'

variable [Kv.Storage σ] {cfg : Config} {snapshotBufferAmount : ℕ}

/-- **One event keeps the invariant.** -/
theorem LifeInv.step (hinv : LifeInv recoveryEnabled s) {a : LifeEvent}
    (hok : LoadsFirst recoveryEnabled s a)
    (hs : s.step cfg snapshotBufferAmount recoveryEnabled a = some s') :
    LifeInv recoveryEnabled s' := by
  cases a with
  | handle call =>
    obtain ⟨_, _, hs⟩ := bind_eq_some_iff.1 hs
    obtain ⟨o, ho, hs⟩ := bind_eq_some_iff.1 hs
    cases hs
    obtain ⟨hremembers, hvotes⟩ := Replica.handle_ballot ho
    exact hinv.act hok hok hremembers (Replica.afterWrites_ballot ho) rfl rfl hvotes (.inr rfl)
  | snapshot a =>
    simp only [Life.step, bind, bind_eq_some_iff, Option.guard_eq_some'] at hs
    obtain ⟨-, hready, ⟨server, response⟩, hstep, hs⟩ := hs
    cases hs
    have hloaded := Startup.loaded_of_isReady hready
    obtain ⟨hremembers, hdisk⟩ := Server.snapshotStep_ballot hstep
    exact hinv.act hloaded hloaded hremembers hdisk (append_nil _).symm rfl
      (by rintro g ⟨⟩) (.inr rfl)
  | crash =>
    cases hs
    obtain rfl : recoveryEnabled = true := hok
    have hdisk : s.disk.ballot.Remembers s.known := by
      rw [hinv.durable rfl]
      exact .refl _
    exact hinv.crash hdisk
  | crashIn call writes =>
    obtain ⟨_, _, hs⟩ := bind_eq_some_iff.1 hs
    obtain ⟨o, ho, hs⟩ := bind_eq_some_iff.1 hs
    cases hs
    obtain ⟨rfl, hloaded⟩ := hok
    have hknown := Life.known_of_loaded hloaded
    refine hinv.crash ?_
    rw [hknown]
    exact Replica.afterWrites_remembers ho ((hinv.durable rfl).trans hknown) writes
  | recover a =>
    obtain ⟨⟨replica, startup⟩, hr, hs⟩ := bind_eq_some_iff.1 hs
    cases hs
    exact hinv.recover hr rfl rfl rfl rfl rfl

/-- **Votes across crashes.**  A replica whose timer does not expire before its vote is loaded, and
that has recovery enabled if it crashes, gives its vote to one candidate in a term, and does not act in a
term below one in which it acted before. -/
theorem vote_uniqueness (h : (lifeSystem σ cfg snapshotBufferAmount recoveryEnabled).Reachable
      (LoadsFirst recoveryEnabled) s) :
    (∀ term candidate candidate', (term, candidate) ∈ s.granted → (term, candidate') ∈ s.granted →
      candidate = candidate') ∧ s.terms.Pairwise (· ≤ ·) := by
  have hinv : LifeInv recoveryEnabled s := by
    refine h.invariant (I := LifeInv recoveryEnabled) ?_ ?_
    · rintro s ⟨id, storage, rfl⟩
      exact .boot id storage
    · intro s a s' hinv hok hs
      exact hinv.step hok hs
  exact ⟨hinv.unique, hinv.sorted⟩

end

/-- A candidate with an empty log asks for a vote. -/
def askForVote (term candidateId : ℕ) : LifeEvent :=
  .handle (.receiveRequestVote ⟨term, candidateId, 0, 0⟩)

/-- The constructor comes to its end without a record. -/
def comesUp : List LifeEvent :=
  [.recover .setStartPoint, .recover .setStartPoint, .recover .setStartPoint, .recover .initProtocol]

/-- Replica 2 votes, crashes, comes back, is asked by another candidate in the same term and in the next
one, crashes when it has written that vote, and starts an election when it has loaded it. -/
def loadedRun : List LifeEvent :=
  comesUp ++ [askForVote 2 3, .crash] ++ comesUp ++ [askForVote 2 1, askForVote 3 1,
    .crashIn (.receiveRequestVote ⟨4, 3, 0, 0⟩) 2, .recover .setStartPoint, .recover .setStartPoint,
    .handle .startElection]

theorem vote_uniqueness_loadedRun :
    ∃ s, (lifeSystem Kv.MemoryDB threeReplicas 0 true).Reachable (LoadsFirst true) s ∧
      s.granted = [(2, 3), (3, 1), (5, 2)] ∧ s.terms.Pairwise (· ≤ ·) := by
  obtain ⟨s, hreach, hgranted⟩ := (lifeSystem Kv.MemoryDB threeReplicas 0 true).exists_reachable
    (C := LoadsFirst true) (P := fun s => s.granted = [(2, 3), (3, 1), (5, 2)]) loadedRun ⟨2, {}, rfl⟩
    (by decide +kernel) (by decide +kernel)
  exact ⟨s, hreach, hgranted, (vote_uniqueness hreach).2⟩

/-- Replica 2 votes for replica 3 in term 1 and crashes.  The election timer expires before it has loaded
its metadata. -/
def earlyTimerRun : List LifeEvent :=
  comesUp ++ [askForVote 1 3, .crash, .handle .startElection]

/-- Replica 2 votes for replica 3 in term 2 and crashes.  The election timer expires when it has loaded its
term and not yet its vote.  The constructor goes on, and replica 3 asks for the vote in term 3. -/
def halfLoadedRun : List LifeEvent :=
  comesUp ++ [askForVote 2 3, .crash, .recover .setStartPoint, .handle .startElection,
    .recover .setStartPoint, .recover .setStartPoint, .recover .initProtocol, askForVote 3 3]

/-- The replica votes for two candidates in one term.  In the second run the vote that it loads replaces
the one that it has just given to itself. -/
theorem vote_uniqueness_fails :
    (∃ s, (lifeSystem Kv.MemoryDB threeReplicas 0 true).run (.boot true 2 {}) earlyTimerRun = some s ∧
      s.granted = [(1, 3), (1, 2)]) ∧
    ∃ s, (lifeSystem Kv.MemoryDB threeReplicas 0 true).run (.boot true 2 {}) halfLoadedRun = some s ∧
      s.granted = [(2, 3), (3, 2), (3, 3)] :=
  ⟨⟨_, rfl, by decide +kernel⟩, _, rfl, by decide +kernel⟩

end Raft
