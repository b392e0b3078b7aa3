/-
**Raft election safety across restarts.**

No term has two leaders, in every run that meets `Raft.SafeElections`.  A leader of a term from 2 on
has the votes of a quorum, and a replica votes for one candidate per term: it does not forget its
vote while it is up, and after a crash it finds it on disk.  Term 1 belongs to replica 1, which is
constructed as its leader without any vote.

Without the condition the property fails at once: a replica in term 0 that starts an election becomes a
candidate of term 1, and can win it next to replica 1.  A replica that starts an election before it has
loaded its term and its vote may vote a second time in a term.

Main definitions:

* `Raft.Deployment.known` — the term and the vote that a replica will act upon;
* `Raft.VoteInv` — the invariant.

Main results:

* `Raft.election_safety` — no term has two leaders;
* `Raft.election_safety_fails` — a run that breaks it.
-/

import ResilientDb.RaftDeployment
import ResilientDb.RaftHistory

set_option autoImplicit false

namespace Raft

open Option (bind_eq_some_iff guard_eq_some')

/-! ### Handlers that do not take part in elections -/

/-- A message that is not about votes. -/
def Message.IsReplication : Message → Prop
  | .appendEntries _ => True
  | .appendEntriesResponse _ => True
  | .requestVote _ => False
  | .requestVoteResponse _ => False

namespace Replica

variable {cfg : Config} {r r' : Replica}

theorem StepsDown.trans {r'' : Replica} (h : StepsDown r r') (h' : SameRole r' r'') :
    StepsDown r r'' :=
  ⟨h'.id.trans h.id, h'.role.trans h.role, by rw [h'.currentTerm, h'.votedFor]; exact h.term⟩

theorem addToLog_sameRole {entries : List Entry} (h : r.addToLog entries = some r') :
    SameRole r r' := by
  obtain rfl := addToLog_spec h
  exact ⟨rfl, rfl, rfl, rfl, rfl⟩

theorem truncateLog_sameRole {firstIndex : ℕ} (h : r.truncateLog firstIndex = some r') :
    SameRole r r' := by
  obtain ⟨_, _, rfl⟩ := truncateLog_cases h
  exact ⟨rfl, rfl, rfl, rfl, rfl⟩

theorem appendFrom_sameRole {ae : AppendEntries} (h : r.appendFrom ae = some r') :
    SameRole r r' := by
  obtain ⟨r₁, rest, rfl | ⟨firstIndex, htruncate⟩, _, hadd⟩ := appendFrom_cases h
  · exact addToLog_sameRole hadd
  · exact (truncateLog_sameRole htruncate).trans (addToLog_sameRole hadd)

theorem raiseCommitIndex_sameRole (r : Replica) (leaderCommit : ℕ) :
    SameRole r (r.raiseCommitIndex leaderCommit) := by
  rw [raiseCommitIndex_eq]
  exact ⟨rfl, rfl, rfl, rfl, rfl⟩

theorem prepareCommit_sameRole {requests : List Request}
    (h : r.prepareCommit cfg = some (r', requests)) : SameRole r r' := by
  rw [prepareCommit_eq h]
  exact ⟨rfl, rfl, rfl, rfl, rfl⟩

theorem advanceCommitIndex_sameRole (h : r.advanceCommitIndex cfg = some r') : SameRole r r' := by
  obtain rfl | ⟨_, _, _, _, rfl⟩ := advanceCommitIndex_cases h <;> exact ⟨rfl, rfl, rfl, rfl, rfl⟩

theorem handleSuccess_sameRole {aer : AppendEntriesResponse} {requests : List Request}
    (h : r.handleSuccess cfg aer = some (r', requests)) : SameRole r r' := by
  simp only [handleSuccess, bind, bind_eq_some_iff] at h
  obtain ⟨p, -, r₂, hadv, hprep⟩ := h
  exact ((setProgress_sameButView r _ p).toSameRole.trans (advanceCommitIndex_sameRole hadv)).trans
    (prepareCommit_sameRole hprep)

theorem isReplication_of_mem_map {msgs : List AeFields} {m : ℕ × Message}
    (h : m ∈ msgs.map AeFields.toMessage) : m.2.IsReplication := by
  obtain ⟨fields, -, rfl⟩ := List.mem_map.1 h
  trivial

variable {now : ℕ → ℕ} {o : Outcome}

theorem receiveTransaction_sameRole {serialized : String}
    {idx : Option ℕ} (h : r.receiveTransaction cfg serialized now = some (o, idx)) :
    SameRole r o.replica ∧ ∀ m ∈ o.sent, m.2.IsReplication := by
  cases receiveTransaction_branch h with
  | redirected _ => exact ⟨SameRole.refl r, by simp⟩
  | appended _ hadd hannounce =>
    exact ⟨(addToLog_sameRole hadd).trans hannounce.keepsMatch.toSameRole,
      fun m hm => isReplication_of_mem_map hm⟩

theorem sendHeartbeat_sameRole (h : r.sendHeartbeat cfg now = some o) :
    SameRole r o.replica ∧ ∀ m ∈ o.sent, m.2.IsReplication := by
  refine ⟨(sendHeartbeat_keepsMatch h).1.toSameRole, fun m hm => ?_⟩
  unfold sendHeartbeat at h
  split at h
  · cases h
    cases hm
  · simp only [bind, bind_eq_some_iff] at h
    obtain ⟨r₁, -, msgs, -, h⟩ := h
    cases h
    exact isReplication_of_mem_map hm

theorem SameRole.of_eq (h : r' = r) : SameRole r r' := h ▸ SameRole.refl r'

/-- A follower stays as it is or steps down for the term of the message. -/
theorem receiveAppendEntries_role {ae : AppendEntries}
    (h : r.receiveAppendEntries cfg ae = some o) :
    (o.replica = r ∨ StepsDown r o.replica) ∧ ∀ m ∈ o.sent, m.2.IsReplication := by
  cases receiveAppendEntries_branch h with
  | own _ => exact ⟨.inl rfl, by simp⟩
  | rejected _ _ _ =>
    refine ⟨?_, fun m hm => ?_⟩
    · by_cases hst : ae.term < r.currentTerm
      · exact .inl (acceptTerm_stale hst)
      · exact .inr (acceptTerm_demoted (not_lt.1 hst)).1.toStepsDown
    · obtain rfl := List.mem_singleton.1 hm
      trivial
  | @accepted r₁ _ _ _ haccepts happ hprep =>
    have hterm : r.currentTerm ≤ ae.term := by
      by_contra hst
      simp [accepts, termCheck_eq_stale.2 (not_le.1 hst)] at haccepts
    refine ⟨.inr ((acceptTerm_demoted hterm).1.toStepsDown.trans
      (((appendFrom_sameRole happ).trans (raiseCommitIndex_sameRole r₁ _)).trans
        (prepareCommit_sameRole hprep))), fun m hm => ?_⟩
    obtain rfl := List.mem_singleton.1 hm
    trivial

/-- A leader stays one unless the answer is of a later term. -/
theorem receiveAppendEntriesResponse_role {aer : AppendEntriesResponse}
    (h : r.receiveAppendEntriesResponse cfg aer now = some o) :
    (SameRole r o.replica ∨ StepsDown r o.replica) ∧ ∀ m ∈ o.sent, m.2.IsReplication := by
  cases receiveAppendEntriesResponse_branch h with
  | ignored _ hheeds =>
    exact ⟨hheeds.demoted_or_eq.imp SameRole.of_eq Demoted.toStepsDown, by simp⟩
  | stale hcons _ _ => exact ⟨.inl hcons.keepsMatch.1.toSameRole, by simp⟩
  | success hcons _ _ hsuccess hmore =>
    exact ⟨.inl ((hcons.keepsMatch.1.toSameRole.trans (handleSuccess_sameRole hsuccess)).trans
      hmore.keepsMatch.toSameRole), fun m hm => isReplication_of_mem_map hm⟩
  | failure hcons _ hfailure hmore =>
    exact ⟨.inl ((hcons.keepsMatch.1.trans (handleFailure_keepsMatch hfailure)).trans
      hmore.keepsMatch).toSameRole, fun m hm => isReplication_of_mem_map hm⟩

/-! ### Snapshots and recovery -/

theorem receiveInstallSnapshot_role (r : Replica) (term index indexTerm : ℕ) (install : Bool) :
    SameRole r (r.receiveInstallSnapshot term index indexTerm install) ∨
      (StepsDown r (r.receiveInstallSnapshot term index indexTerm install) ∧
        r.currentTerm < term) := by
  unfold receiveInstallSnapshot
  have hinstall : ∀ r₁ : Replica, SameRole r₁
      (if install then r₁.installSnapshot index indexTerm else r₁) := by
    intro r₁
    split <;> exact ⟨rfl, rfl, rfl, rfl, rfl⟩
  cases htr : r.termCheck term with
  | stale => exact .inl (SameRole.refl r)
  | current => exact .inl (by simpa using hinstall r)
  | new =>
    refine .inr ⟨(demoteSelf_demoted r term).toStepsDown.trans ?_, ?_⟩
    · simpa using hinstall (r.demoteSelf term)
    · unfold termCheck at htr
      split_ifs at htr
      omega

end Replica

open Replica

/-! ### Votes -/

/-- Replica `j` has voted for `a` in the term: it has answered `a`'s request, or it is `a` and has
asked for votes. -/
def Cluster.Elects (c : Cluster) (term j a : ℕ) : Prop :=
  c.Voted term a j ∨
    (a = j ∧ ∃ p ∈ c.sent, p.src = j ∧ ∃ rv, p.message = .requestVote rv ∧ rv.term = term)

/-- The replica may lead the term: it is replica 1 and the term is not above 1, or a quorum has voted
for it. -/
def Cluster.Legitimate (cfg : Config) (c : Cluster) (term i : ℕ) : Prop :=
  (term ≤ 1 ∧ i = 1) ∨ (2 ≤ term ∧ cfg.Quorate fun j => c.Elects term j i)

/-- A candidate counts votes that replicas have given to it. -/
structure CandidateVotes (cfg : Config) (c : Cluster) (i : ℕ) (r : Replica) : Prop where
  term : 2 ≤ r.currentTerm
  nodup : r.votes.Nodup
  votes : ∀ j ∈ r.votes, cfg.IsMember j ∧ c.Elects r.currentTerm j i

/-- The messages about votes name their senders, and members send them to members. -/
def VoteSigned (cfg : Config) (p : Packet) : Prop :=
  match p.message with
  | .requestVote rv => rv.candidateId = p.src ∧ cfg.IsMember p.dst
  | .requestVoteResponse rvr => rvr.voterId = p.src ∧ cfg.IsMember p.src
  | _ => True

/-- The term and the vote that a replica will act upon: those in memory, or those it is about to
load. -/
def Deployment.known (d : Deployment) (i : ℕ) : ℕ × Option ℕ :=
  match d.startup i with
  | .opened metadata .setCurrentTerm => (metadata.currentTerm, metadata.votedFor)
  | .opened metadata .setVotedFor => (metadata.currentTerm, metadata.votedFor)
  | _ => ((d.cluster.replicas i).currentTerm, (d.cluster.replicas i).votedFor)

/-- A replica whose term and vote are not both loaded: it has the role of the constructor, and its term
too, unless that was loaded already. -/
structure Loading (i : ℕ) (m disk : Metadata) (next : StartPointCall) (r : Replica) : Prop where
  disk : m = disk
  role : r.role = (construct i).role
  term : next = .setVotedFor → r.currentTerm = m.currentTerm

/-- The term and the vote are on disk.  Replica 1 has not written anything before its first vote or
its first new term. -/
def Durable (i : ℕ) (m : Metadata) (r : Replica) : Prop :=
  (m.currentTerm = r.currentTerm ∧ m.votedFor = r.votedFor) ∨
    (i = 1 ∧ r.currentTerm ≤ 1 ∧ m.currentTerm ≤ 1)

/-- The invariant behind election safety. -/
structure VoteInv (s : Settings) (d : Deployment) : Prop where
  id : ∀ i, (d.cluster.replicas i).id = i
  signed : ∀ p ∈ d.cluster.sent, VoteSigned s.cfg p
  loading : ∀ i m next, d.startup i = .opened m next → ¬ (d.startup i).Loaded →
    Loading i m (d.disk i) next (d.cluster.replicas i)
  durable : s.recoveryEnabled = true → ∀ i, (d.startup i).Loaded →
    Durable i (d.disk i) (d.cluster.replicas i)
  votes : ∀ t j a, d.cluster.Elects t j a →
    2 ≤ t ∧ t ≤ (d.known j).1 ∧ (t = (d.known j).1 → (d.known j).2 = some a)
  unique : ∀ t j a b, d.cluster.Elects t j a → d.cluster.Elects t j b → a = b
  candidates : ∀ i, (d.cluster.replicas i).role = .candidate →
    CandidateVotes s.cfg d.cluster i (d.cluster.replicas i)
  led : ∀ l ∈ d.cluster.leaderLogs, d.cluster.Legitimate s.cfg l.term l.id
  leaders : ∀ i, (d.cluster.replicas i).role = .leader →
    d.cluster.Legitimate s.cfg (d.cluster.replicas i).currentTerm i

/-- **No term has two leaders**, as two quorums would share a replica that voted for both. -/
theorem VoteInv.oneLeaderPerTerm {s : Settings} {d : Deployment} (h : VoteInv s d) :
    OneLeaderPerTerm d.cluster := by
  intro l hl l' hl' ht
  rcases h.led l hl with ⟨hle, hid⟩ | ⟨hge, hq⟩ <;>
    rcases h.led l' hl' with ⟨hle', hid'⟩ | ⟨hge', hq'⟩
  · rw [hid, hid']
  · omega
  · omega
  · obtain ⟨j, hj, hj'⟩ := hq.common hq'
    rw [← ht] at hj'
    exact h.unique _ _ _ _ hj hj'

/-! ### One step -/

section

variable {s : Settings} {d d' : Deployment} {c : Cluster} {i : ℕ} {o : Outcome}

variable {j : ℕ}

theorem Cluster.Elects.update {term a : ℕ} (h : c.Elects term j a) :
    (c.update i o).Elects term j a := by
  rcases h with ⟨p, hp, hrest⟩ | ⟨ha, p, hp, hrest⟩
  · exact .inl ⟨p, mem_sent_update.2 (.inl hp), hrest⟩
  · exact .inr ⟨ha, p, mem_sent_update.2 (.inl hp), hrest⟩

variable {cfg : Config}

theorem Cluster.Legitimate.update {term : ℕ} (h : c.Legitimate cfg term j) :
    (c.update i o).Legitimate cfg term j :=
  h.imp_right fun ⟨hge, hq⟩ => ⟨hge, hq.mono fun _ => Elects.update⟩

variable {r : Replica}

theorem CandidateVotes.update
    (h : CandidateVotes cfg c j r) : CandidateVotes cfg (c.update i o) j r :=
  ⟨h.term, h.nodup, fun k hk => ⟨(h.votes k hk).1, (h.votes k hk).2.update⟩⟩

/-- The votes of a candidate are counted as long as it is one. -/
theorem CandidateVotes.of_sameRole {r' : Replica} (h : CandidateVotes cfg c j r)
    (hr : SameRole r r') : CandidateVotes cfg c j r' := by
  refine ⟨?_, ?_, ?_⟩
  · rw [hr.currentTerm]
    exact h.term
  · rw [hr.votes]
    exact h.nodup
  · rw [hr.votes, hr.currentTerm]
    exact h.votes

/-- What a step has to ensure about a message it sends.  A vote is given in the term and to the
candidate that the replica will remember. -/
def VoteSent (cfg : Config) (i : ℕ) (known : ℕ × Option ℕ) (m : ℕ × Message) : Prop :=
  match m.2 with
  | .requestVote rv =>
    rv.candidateId = i ∧ cfg.IsMember m.1 ∧ rv.term = known.1 ∧ known.2 = some i ∧ 2 ≤ rv.term
  | .requestVoteResponse rvr =>
    rvr.voterId = i ∧ cfg.IsMember i ∧
      (rvr.voteGranted = true → rvr.term = known.1 ∧ known.2 = some m.1 ∧ 2 ≤ rvr.term)
  | _ => True

theorem VoteSent.of_isReplication {known : ℕ × Option ℕ} {m : ℕ × Message}
    (h : m.2.IsReplication) : VoteSent cfg i known m := by
  unfold VoteSent
  cases hm : m.2 with
  | appendEntries _ | appendEntriesResponse _ => trivial
  | requestVote rv | requestVoteResponse rvr =>
    rw [hm] at h
    cases h

/-- What a step of replica `i` has to ensure to keep the invariant. -/
structure VoteStep (s : Settings) (d d' : Deployment) (i : ℕ) (o : Outcome) : Prop where
  replicas : d'.cluster.replicas = (d.cluster.update i o).replicas
  packets : d'.cluster.sent = (d.cluster.update i o).sent
  leaderLogs : d'.cluster.leaderLogs = (d.cluster.update i o).leaderLogs
  disk : ∀ j, j ≠ i → d'.disk j = d.disk j
  startup : ∀ j, j ≠ i → d'.startup j = d.startup j
  id : o.replica.id = i
  remembers : (d.known i).1 ≤ 1 ∨ ((d.known i).1 ≤ (d'.known i).1 ∧
    ((d'.known i).1 = (d.known i).1 → (d.known i).2 = none ∨ (d'.known i).2 = (d.known i).2))
  sent : ∀ m ∈ o.sent, VoteSent s.cfg i (d'.known i) m
  loading : ∀ m next, d'.startup i = .opened m next → ¬ (d'.startup i).Loaded →
    Loading i m (d'.disk i) next o.replica
  durable : s.recoveryEnabled = true → (d'.startup i).Loaded → Durable i (d'.disk i) o.replica
  candidate : o.replica.role = .candidate →
    CandidateVotes s.cfg (d.cluster.update i o) i o.replica
  leader : o.replica.role = .leader →
    (d.cluster.update i o).Legitimate s.cfg o.replica.currentTerm i

namespace VoteStep

variable {j : ℕ}

section

variable (h : VoteStep s d d' i o)
include h

theorem known_of_ne (hj : j ≠ i) : d'.known j = d.known j := by
  unfold Deployment.known
  rw [h.startup j hj, h.replicas, Cluster.replicas_update_of_ne _ hj]

/-- A vote is an old one or was given in this step. -/
theorem elects_cases {t a : ℕ} (he : (d.cluster.update i o).Elects t j a) : d.cluster.Elects t j a ∨
      (j = i ∧ 2 ≤ t ∧ t = (d'.known i).1 ∧ (d'.known i).2 = some a) := by
  rcases he with ⟨p, hp, hsrc, hdst, hm⟩ | ⟨ha, p, hp, hsrc, rv, hm, ht⟩
  · rcases Cluster.mem_sent_update.1 hp with hp | ⟨m, hmem, rfl⟩
    · exact .inl (.inl ⟨p, hp, hsrc, hdst, hm⟩)
    · have hs := h.sent m hmem
      simp only at hm hdst hsrc
      simp only [VoteSent, hm] at hs
      obtain ⟨-, -, hgrant⟩ := hs
      obtain ⟨hterm, hvote, hge⟩ := hgrant trivial
      exact .inr ⟨hsrc.symm, hge, hterm, by rw [hvote, hdst]⟩
  · rcases Cluster.mem_sent_update.1 hp with hp | ⟨m, hmem, rfl⟩
    · exact .inl (.inr ⟨ha, p, hp, hsrc, rv, hm, ht⟩)
    · have hs := h.sent m hmem
      simp only at hm hsrc
      simp only [VoteSent, hm] at hs
      obtain ⟨-, -, hterm, hvote, hge⟩ := hs
      subst ht
      exact .inr ⟨hsrc.symm, hge, hterm, by rw [hvote, ha, hsrc]⟩

/-- A vote that was given is in memory or on disk, until the term is over. -/
theorem remembers_vote (hinv : VoteInv s d) {t a : ℕ} (he : d.cluster.Elects t j a) :
    2 ≤ t ∧ t ≤ (d'.known j).1 ∧ (t = (d'.known j).1 → (d'.known j).2 = some a) := by
  obtain ⟨hge, hle, hvote⟩ := hinv.votes t j a he
  by_cases hj : j = i
  · subst hj
    rcases h.remembers with hone | ⟨hmono, hsame⟩
    · omega
    · refine ⟨hge, hle.trans hmono, fun ht => ?_⟩
      have heq : (d'.known j).1 = (d.known j).1 := by omega
      have hv := hvote (by omega)
      rcases hsame heq with hnone | hv'
      · rw [hnone] at hv
        cases hv
      · rw [hv', hv]
  · rw [h.known_of_ne hj]
    exact ⟨hge, hle, hvote⟩

theorem signed (hinv : VoteInv s d) {p : Packet}
    (hp : p ∈ (d.cluster.update i o).sent) : VoteSigned s.cfg p := by
  rcases Cluster.mem_sent_update.1 hp with hp | ⟨m, hm, rfl⟩
  · exact hinv.signed p hp
  · have hs := h.sent m hm
    unfold VoteSent at hs
    cases hmsg : m.2 with
    | appendEntries _ | appendEntriesResponse _ => trivial
    | requestVote rv | requestVoteResponse rvr =>
      simp only [hmsg] at hs ⊢
      exact ⟨hs.1, hs.2.1⟩

/-- **A step that is in order keeps the invariant.** -/
theorem voteInv (hinv : VoteInv s d) : VoteInv s d' := by
  have helects : ∀ t j a, d'.cluster.Elects t j a ↔ (d.cluster.update i o).Elects t j a := by
    intro t j a
    simp only [Cluster.Elects, Cluster.Voted, h.packets]
  have hlegit : ∀ t j, (d.cluster.update i o).Legitimate s.cfg t j →
      d'.cluster.Legitimate s.cfg t j := by
    intro t j
    simp only [Cluster.Legitimate, helects, imp_self]
  have hcandidate : ∀ j r, CandidateVotes s.cfg (d.cluster.update i o) j r →
      CandidateVotes s.cfg d'.cluster j r :=
    fun j r hc => ⟨hc.term, hc.nodup, fun k hk => ⟨(hc.votes k hk).1,
      (helects _ _ _).2 (hc.votes k hk).2⟩⟩
  refine ⟨?_, ?_, ?_, ?_, ?_, ?_, ?_, ?_, ?_⟩
  · rw [h.replicas]
    exact Cluster.forall_replicas_update (P := fun j r => r.id = j) (fun j _ => hinv.id j) h.id
  · rw [h.packets]
    exact fun p hp => h.signed hinv hp
  · intro j m next hm hnot
    rw [h.replicas]
    by_cases hj : j = i
    · subst hj
      rw [Cluster.replicas_update_self]
      exact h.loading m next hm hnot
    · rw [h.startup j hj] at hm hnot
      rw [h.disk j hj, Cluster.replicas_update_of_ne _ hj]
      exact hinv.loading j m next hm hnot
  · intro hen j hj₀
    rw [h.replicas]
    by_cases hj : j = i
    · subst hj
      rw [Cluster.replicas_update_self]
      exact h.durable hen hj₀
    · rw [h.startup j hj] at hj₀
      rw [h.disk j hj, Cluster.replicas_update_of_ne _ hj]
      exact hinv.durable hen j hj₀
  · intro t j a he
    rcases h.elects_cases ((helects t j a).1 he) with he | ⟨rfl, hge, hterm, hvote⟩
    · exact h.remembers_vote hinv he
    · exact ⟨hge, hterm.le, fun _ => hvote⟩
  · intro t j a b ha hb
    rcases h.elects_cases ((helects t j a).1 ha) with ha | ⟨rfl, -, hterm, hvote⟩
    · rcases h.elects_cases ((helects t j b).1 hb) with hb | ⟨rfl, -, hterm, hvote⟩
      · exact hinv.unique t j a b ha hb
      · have := (h.remembers_vote hinv ha).2.2 hterm
        exact Option.some.inj (this.symm.trans hvote)
    · rcases h.elects_cases ((helects t j b).1 hb) with hb | ⟨-, -, -, hvote'⟩
      · have := (h.remembers_vote hinv hb).2.2 hterm
        exact Option.some.inj (hvote.symm.trans this)
      · exact Option.some.inj (hvote.symm.trans hvote')
  · rw [h.replicas]
    exact Cluster.forall_replicas_update
      (P := fun j r => r.role = .candidate → CandidateVotes s.cfg d'.cluster j r)
      (fun j _ hc => hcandidate j _ (hinv.candidates j hc).update)
      (fun hc => hcandidate i _ (h.candidate hc))
  · intro l hl
    rw [h.leaderLogs] at hl
    rcases Cluster.mem_leaderLogs_update.1 hl with hl | ⟨hrole, rfl⟩
    · exact hlegit _ _ (hinv.led l hl).update
    · rw [h.id]
      exact hlegit _ _ (h.leader hrole)
  · rw [h.replicas]
    exact Cluster.forall_replicas_update
      (P := fun j r => r.role = .leader → d'.cluster.Legitimate s.cfg r.currentTerm j)
      (fun j _ hl => hlegit _ _ (hinv.leaders j hl).update) (fun hl => hlegit _ _ (h.leader hl))

end

end VoteStep

/-! ### Steps of replicas that are up -/

/-- What a handler has to ensure, in terms of the replica's memory. -/
structure MemStep (cfg : Config) (c : Cluster) (i : ℕ) (o : Outcome) : Prop where
  id : o.replica.id = i
  term : (c.replicas i).currentTerm ≤ o.replica.currentTerm
  vote : o.replica.currentTerm = (c.replicas i).currentTerm →
    (c.replicas i).votedFor = none ∨ o.replica.votedFor = (c.replicas i).votedFor
  sent : ∀ m ∈ o.sent, VoteSent cfg i (o.replica.currentTerm, o.replica.votedFor) m
  candidate : o.replica.role = .candidate → CandidateVotes cfg (c.update i o) i o.replica
  leader : o.replica.role = .leader →
    (c.update i o).Legitimate cfg o.replica.currentTerm i

variable {a : ℕ}

/-- A step that gives no vote and starts no election. -/
theorem MemStep.of_keeps (hinv : VoteInv s d)
    (h : SameRole (d.cluster.replicas i) o.replica ∨ StepsDown (d.cluster.replicas i) o.replica)
    (hs : ∀ m ∈ o.sent, VoteSent s.cfg i (o.replica.currentTerm, o.replica.votedFor) m) :
    MemStep s.cfg d.cluster i o := by
  rcases h with h | h
  · refine ⟨h.id.trans (hinv.id i), h.currentTerm.ge, fun _ => .inr h.votedFor, hs, fun hc => ?_,
      fun hl => ?_⟩
    · exact ((hinv.candidates i (h.role.symm.trans hc)).of_sameRole h).update
    · rw [h.currentTerm]
      exact (hinv.leaders i (h.role.symm.trans hl)).update
  · refine ⟨h.id.trans (hinv.id i), ?_, fun ht => ?_, hs, by simp [h.role], by simp [h.role]⟩
    · rcases h.term with ⟨ht, -⟩ | ⟨ht, -⟩ <;> omega
    · rcases h.term with ⟨-, hv⟩ | ⟨hlt, -⟩
      · exact .inr hv
      · omega

/-- A vote is given by a replica that has not given it to another one. -/
theorem MemStep.vote_for (h : MemStep s.cfg d.cluster i ⟨r, [], []⟩)
    (hvote : r.votedFor = none ∨ r.votedFor = some a) (hrep : o.replica = { r with votedFor := some a })
    (hs : ∀ m ∈ o.sent, VoteSent s.cfg i (o.replica.currentTerm, o.replica.votedFor) m) :
    MemStep s.cfg d.cluster i o := by
  have helects : ∀ t j b, (d.cluster.update i ⟨r, [], []⟩).Elects t j b →
      (d.cluster.update i o).Elects t j b := by
    intro t j b he
    refine Cluster.Elects.update ?_
    simpa [Cluster.Elects, Cluster.Voted, Cluster.update] using he
  obtain ⟨r', sent, applied⟩ := o
  obtain rfl : r' = _ := hrep
  refine ⟨h.id, h.term, fun ht => ?_, hs, fun hc => ?_, fun hl => ?_⟩
  · rcases hvote with hv | hv
    · exact .inl ((h.vote ht).elim (fun hv => hv) fun heq => heq.symm.trans hv)
    · exact (h.vote ht).imp_right hv.symm.trans
  · have hold := h.candidate hc
    exact ⟨hold.term, hold.nodup, fun k hk => (hold.votes k hk).imp_right (helects _ _ _)⟩
  · exact (h.leader hl).imp_right fun hl => ⟨hl.1, hl.2.mono fun _ => helects _ _ _⟩

variable (hinv : VoteInv s d)
include hinv

theorem MemStep.of_role
    (h : (SameRole (d.cluster.replicas i) o.replica ∨ StepsDown (d.cluster.replicas i) o.replica) ∧
      ∀ m ∈ o.sent, m.2.IsReplication) : MemStep s.cfg d.cluster i o :=
  .of_keeps hinv h.1 fun m hm => VoteSent.of_isReplication (h.2 m hm)

theorem MemStep.of_sameRole (h : SameRole (d.cluster.replicas i) r) :
    MemStep s.cfg d.cluster i ⟨r, [], []⟩ :=
  .of_keeps hinv (.inl h) (by simp)

variable {p : Packet}

theorem VoteInv.two_le_of_requestVote (hp : p ∈ d.cluster.sent)
    {rv : RequestVote} (hm : p.message = .requestVote rv) : 2 ≤ rv.term :=
  (hinv.votes rv.term p.src p.src (.inr ⟨rfl, p, hp, rfl, rv, hm, rfl⟩)).1

/-- A vote is given at most once in a term. -/
theorem memStep_receiveRequestVote (hp : p ∈ d.cluster.sent)
    {rv : RequestVote} (hm : p.message = .requestVote rv)
    (ho : (d.cluster.replicas p.dst).receiveRequestVote rv = some o) :
    MemStep s.cfg d.cluster p.dst o := by
  have hid := hinv.id p.dst
  have hmember : s.cfg.IsMember p.dst := by
    have := hinv.signed p hp
    simp only [VoteSigned, hm] at this
    exact this.2
  cases receiveRequestVote_branch ho with
  | own _ => exact .of_sameRole hinv (SameRole.refl _)
  | @answered r₁ granted _ hheeds _ hgrant =>
    have hr : SameRole (d.cluster.replicas p.dst) r₁ ∨ StepsDown (d.cluster.replicas p.dst) r₁ :=
      hheeds.demoted_or_eq.imp .of_eq Demoted.toStepsDown
    have hvoter : r₁.id = p.dst := hheeds.id.trans hid
    have hge := hinv.two_le_of_requestVote hp hm
    cases granted with
    | false =>
      refine .of_keeps hinv hr ?_
      rintro m hmem
      rw [List.mem_singleton.1 hmem]
      exact ⟨hvoter, hmember, by simp⟩
    | true =>
      obtain ⟨hterm, hvote, -⟩ := hgrant rfl
      refine .vote_for (.of_keeps hinv hr (by simp)) hvote rfl ?_
      intro m hmem
      rw [List.mem_singleton.1 hmem]
      exact ⟨hvoter, hmember, fun _ => ⟨rfl, rfl, hterm ▸ hge⟩⟩

/-- A candidate counts the votes that were sent to it. -/
theorem memStep_receiveRequestVoteResponse (hp : p ∈ d.cluster.sent) {rvr : RequestVoteResponse}
    (hm : p.message = .requestVoteResponse rvr)
    (ho : (d.cluster.replicas p.dst).receiveRequestVoteResponse s.cfg rvr = some o) :
    MemStep s.cfg d.cluster p.dst o := by
  have hsigned := hinv.signed p hp
  simp only [VoteSigned, hm] at hsigned
  obtain ⟨hsent, -, hcase⟩ := receiveRequestVoteResponse_spec ho
  have hnone : ∀ m ∈ o.sent, VoteSent s.cfg p.dst (o.replica.currentTerm, o.replica.votedFor) m := by
    simp [hsent]
  rcases hcase with ⟨-, heq | hd⟩ | ⟨hc, hterm, hgrant, hnew, hcase⟩
  · exact .of_keeps hinv (.inl (.of_eq heq)) hnone
  · exact .of_keeps hinv (.inr hd.toStepsDown) hnone
  · have hold := hinv.candidates p.dst hc
    have helects : d.cluster.Elects (d.cluster.replicas p.dst).currentTerm rvr.voterId p.dst := by
      refine .inl ⟨p, hp, hsigned.1.symm, rfl, ?_⟩
      rw [hm, ← hterm, ← hgrant]
    have hvotes : ∀ j ∈ (d.cluster.replicas p.dst).votes ++ [rvr.voterId], s.cfg.IsMember j ∧
        d.cluster.Elects (d.cluster.replicas p.dst).currentTerm j p.dst := by
      intro j hj
      rw [List.mem_append, List.mem_singleton] at hj
      rcases hj with hj | rfl
      · exact hold.votes j hj
      · exact ⟨by rw [hsigned.1]; exact hsigned.2, helects⟩
    have hnodup : ((d.cluster.replicas p.dst).votes ++ [rvr.voterId]).Nodup :=
      hold.nodup.append (List.nodup_singleton _) (by simpa using hnew)
    rcases hcase with hrep | ⟨hq, -, hid, hrole, hct, hvf, -⟩
    · refine ⟨by rw [hrep]; exact hinv.id _, by rw [hrep], fun _ => .inr (by rw [hrep]), hnone,
        fun _ => ?_, ?_⟩
      · rw [hrep]
        exact CandidateVotes.update ⟨hold.term, hnodup, hvotes⟩
      · intro hl
        rw [hrep] at hl
        exact absurd (hl.symm.trans hc) (by simp)
    · refine ⟨hid.trans (hinv.id _), hct.ge, fun _ => .inr hvf, hnone, ?_, fun _ => ?_⟩
      · intro hc'
        exact absurd (hc'.symm.trans hrole) (by simp)
      · -- the votes counted are those of a quorum
        rw [hct]
        refine .inr ⟨hold.term, ((d.cluster.replicas p.dst).votes ++ [rvr.voterId]).toFinset,
          ?_, ?_, ?_⟩
        · exact fun j hj => Config.mem_members.2 (hvotes j (List.mem_toFinset.1 hj)).1
        · rw [List.toFinset_card_of_nodup hnodup, List.length_append]
          exact hq
        · exact fun j hj => (hvotes j (List.mem_toFinset.1 hj)).2.update

/-- A candidate votes for itself in a new term. -/
theorem memStep_startElection (hi : s.cfg.IsMember i)
    (hterm : 1 ≤ (d.cluster.replicas i).currentTerm) (hl : (d.cluster.replicas i).role ≠ .leader)
    (ho : (d.cluster.replicas i).startElection s.cfg = some o) : MemStep s.cfg d.cluster i o := by
  have hid := hinv.id i
  obtain ⟨hl', -⟩ | ⟨-, t, -, rfl⟩ := startElection_cases ho
  · exact absurd hl' hl
  refine ⟨hid, Nat.le_succ _, ?_, ?_, ?_, by rintro ⟨⟩⟩
  · intro ht
    simp only at ht
    omega
  · intro m hm
    rw [List.mem_map] at hm
    obtain ⟨j, hj, rfl⟩ := hm
    rw [List.mem_range'_1] at hj
    exact ⟨hid, ⟨hj.1, by omega⟩, rfl, by simp [hid], by simp only; omega⟩
  · intro _
    refine ⟨by simp only; omega, List.nodup_singleton _, ?_⟩
    intro j hj
    simp only [hid, List.mem_singleton] at hj
    subst hj
    refine ⟨hi, .inr ⟨rfl, ⟨j, j, .requestVote ⟨(d.cluster.replicas j).currentTerm + 1,
      (d.cluster.replicas j).id, (d.cluster.replicas j).lastLogIndex, t⟩, _⟩,
      Cluster.mem_sent_update.2 (.inr ⟨(j, _), ?_, rfl⟩), rfl, _, rfl, rfl⟩⟩
    rw [List.mem_map]
    exact ⟨j, by rw [List.mem_range'_1]; exact ⟨hi.1, by have := hi.2; omega⟩, rfl⟩

omit hinv

/-! ### Steps of a deployment -/

/-- A replica that is up knows what it has in memory. -/
theorem Deployment.known_of_loaded (h : (d.startup i).Loaded) :
    d.known i = ((d.cluster.replicas i).currentTerm, (d.cluster.replicas i).votedFor) := by
  unfold Deployment.known
  split
  · next hopened =>
    rw [hopened] at h
    cases h
  · next hopened =>
    rw [hopened] at h
    cases h
  · rfl

variable {m : Metadata} {next : StartPointCall}

/-- A replica that is starting up knows what is on disk. -/
theorem Deployment.known_of_opened (h : d.startup i = .opened m next) (hnot : ¬ (d.startup i).Loaded) :
    d.known i = (m.currentTerm, m.votedFor) := by
  unfold Deployment.known
  cases next with
  | setCurrentTerm | setVotedFor => rw [h]
  | setSnapshotLastIndexAndTerm =>
    rw [h] at hnot
    exact absurd trivial hnot

theorem Deployment.exists_opened (hnot : ¬ (d.startup i).Loaded) :
    ∃ m next, d.startup i = .opened m next := by
  cases h : d.startup i with
  | opened m next => exact ⟨m, next, rfl⟩
  | replaying | ready =>
    rw [h] at hnot
    exact absurd trivial hnot

/-- Either the metadata was written, or there was nothing to write. -/
def Written (d d' : Deployment) (i : ℕ) (r : Replica) : Prop :=
  ((d'.disk i).currentTerm = r.currentTerm ∧ (d'.disk i).votedFor = r.votedFor) ∨
    (d'.disk i = d.disk i ∧ r.currentTerm = (d.cluster.replicas i).currentTerm ∧
      r.votedFor = (d.cluster.replicas i).votedFor)

/-- What a step in memory does, once its metadata is on disk. -/
theorem MemStep.voteStep (h : MemStep s.cfg d.cluster i o) (hinv : VoteInv s d)
    (hloaded : (d.startup i).Loaded) (hloaded' : (d'.startup i).Loaded)
    (hreplicas : d'.cluster.replicas = (d.cluster.update i o).replicas)
    (hpackets : d'.cluster.sent = (d.cluster.update i o).sent)
    (hlogs : d'.cluster.leaderLogs = (d.cluster.update i o).leaderLogs)
    (hstartup : ∀ j, j ≠ i → d'.startup j = d.startup j) (hdisk : ∀ j, j ≠ i → d'.disk j = d.disk j)
    (hwritten : s.recoveryEnabled = true → Written d d' i o.replica) : VoteStep s d d' i o := by
  have hself : d'.cluster.replicas i = o.replica := by
    rw [hreplicas, Cluster.replicas_update_self]
  have hknown' := Deployment.known_of_loaded hloaded'
  rw [hself] at hknown'
  have hknown := Deployment.known_of_loaded hloaded
  refine ⟨hreplicas, hpackets, hlogs, hdisk, hstartup, h.id, .inr ⟨?_, ?_⟩, ?_, ?_, ?_, h.candidate,
    h.leader⟩
  · rw [hknown, hknown']
    exact h.term
  · rw [hknown, hknown']
    exact h.vote
  · rw [hknown']
    exact h.sent
  · exact fun _ _ _ hnot => absurd hloaded' hnot
  · intro hen _
    rcases hwritten hen with hw | ⟨hd, ht, hv⟩
    · exact .inl hw
    · have hdur := hinv.durable hen i hloaded
      unfold Durable at hdur ⊢
      rw [hd, ht, hv]
      exact hdur

theorem Deployment.persist_disk_of_ne {pending : List (ℕ × ℕ)} (hj : j ≠ i) :
    (d.persist s { d.cluster.update i o with pending := pending }).disk j = d.disk j := by
  have hnot : ¬ d.cluster.WritesMetadata { d.cluster.update i o with pending := pending } j := by
    rintro (h | h | ⟨p, hp, hsrc, -⟩)
    · exact h (by rw [Cluster.replicas_update_of_ne _ hj])
    · exact h (by rw [Cluster.replicas_update_of_ne _ hj])
    · simp only [Cluster.update, List.drop_left, List.mem_map] at hp
      obtain ⟨m, -, rfl⟩ := hp
      exact hj hsrc.symm
  simp only [persist, hnot, and_false, if_false]

theorem Deployment.persist_written {pending : List (ℕ × ℕ)} (hen : s.recoveryEnabled = true) :
    Written d (d.persist s { d.cluster.update i o with pending := pending }) i o.replica := by
  by_cases hw : d.cluster.WritesMetadata { d.cluster.update i o with pending := pending } i
  · left
    simp only [persist, hen, hw, and_self, if_true, Cluster.replicas_update_self, Replica.metadata]
  · right
    refine ⟨by simp only [persist, hw, and_false, if_false], ?_, ?_⟩
    · by_contra hne
      exact hw (.inl (by rwa [Cluster.replicas_update_self]))
    · by_contra hne
      exact hw (.inr (.inl (by rwa [Cluster.replicas_update_self])))

theorem MemStep.voteStep_persist (h : MemStep s.cfg d.cluster i o) (hinv : VoteInv s d)
    (hloaded : (d.startup i).Loaded) (pending : List (ℕ × ℕ)) :
    VoteStep s d (d.persist s { d.cluster.update i o with pending := pending }) i o :=
  h.voteStep hinv hloaded hloaded rfl rfl rfl (fun _ _ => rfl)
    (fun _ hj => Deployment.persist_disk_of_ne hj) fun hen => Deployment.persist_written hen

/-- A timer that does not start an election leaves a replica that is loading its metadata as it is. -/
theorem voteStep_of_opened (hinv : VoteInv s d) (hm : d.startup i = .opened m next)
    (hnot : ¬ (d.startup i).Loaded)
    (h : SameRole (d.cluster.replicas i) o.replica ∧ ∀ m ∈ o.sent, m.2.IsReplication)
    (pending : List (ℕ × ℕ)) :
    VoteStep s d (d.persist s { d.cluster.update i o with pending := pending }) i o := by
  obtain ⟨hr, hs⟩ := h
  have hstep := MemStep.of_role hinv ⟨.inl hr, hs⟩
  have hknown : (d.persist s { d.cluster.update i o with pending := pending }).known i =
      d.known i := by
    rw [Deployment.known_of_opened hm hnot]
    exact Deployment.known_of_opened (d := d.persist s _) hm hnot
  obtain ⟨hdisk, hrole, hterm⟩ := hinv.loading i m next hm hnot
  refine ⟨rfl, rfl, rfl, fun j hj => Deployment.persist_disk_of_ne hj, fun _ _ => rfl, hstep.id,
    .inr ⟨by rw [hknown], fun _ => .inr (by rw [hknown])⟩,
    fun m hm => VoteSent.of_isReplication (hs m hm), ?_, ?_, hstep.candidate, hstep.leader⟩
  · intro m' next' hm' _
    obtain ⟨rfl, rfl⟩ : m = m' ∧ next = next' := by
      simpa using hm.symm.trans hm'
    refine ⟨?_, hr.role.trans hrole, fun hnext => hr.currentTerm.trans (hterm hnext)⟩
    -- neither the term nor the vote has changed, and no vote was granted
    have hnot : ¬ d.cluster.WritesMetadata { d.cluster.update i o with pending := pending } i := by
      rintro (h | h | ⟨p, hp, -, hg⟩)
      · exact h (by rw [Cluster.replicas_update_self, hr.currentTerm])
      · exact h (by rw [Cluster.replicas_update_self, hr.votedFor])
      · simp only [Cluster.update, List.drop_left, List.mem_map] at hp
        obtain ⟨m', hm', rfl⟩ := hp
        have := hs m' hm'
        cases hmsg : m'.2 <;> simp_all [Packet.grantsVote, Message.IsReplication]
    rw [hdisk]
    simp only [Deployment.persist, hnot, and_false, if_false]
  · exact fun _ hloaded => absurd hloaded hnot

theorem voteStep_setReplica (hinv : VoteInv s d) (hready : (d.startup i).isReady = true)
    {write : Bool} (hr : SameRole (d.cluster.replicas i) r ∨
      (StepsDown (d.cluster.replicas i) r ∧ write = true)) :
    VoteStep s d (d.setReplica s i r write) i ⟨r, [], []⟩ := by
  have hmem : MemStep s.cfg d.cluster i ⟨r, [], []⟩ :=
    .of_keeps hinv (hr.imp_right And.left) (by simp)
  have hloaded := Startup.loaded_of_isReady hready
  refine hmem.voteStep hinv hloaded hloaded rfl rfl rfl (fun _ _ => rfl) ?_ ?_
  · intro j hj
    simp only [Deployment.setReplica]
    split
    · rw [Function.update_of_ne hj]
    · rfl
  · intro hen
    cases hw : write with
    | true => exact .inl (by simp [Deployment.setReplica, hen, Replica.metadata])
    | false =>
      rcases hr with hr | ⟨-, hr⟩
      · exact .inr ⟨by simp [Deployment.setReplica], hr.currentTerm, hr.votedFor⟩
      · rw [hw] at hr
        cases hr

theorem leader_construct (h : (construct i).role = .leader) : (construct i).currentTerm ≤ 1 ∧ i = 1 := by
  simp only [construct] at h ⊢
  split at h
  · rename_i h1
    exact ⟨by simp [h1], h1⟩
  · cases h

section

variable (hinv : VoteInv s d)
include hinv

/-- A restart forgets nothing that is on disk. -/
theorem voteStep_restart (hen : s.recoveryEnabled = true)
    (hs : d.step s (.restart i) = some d') : VoteStep s d d' i ⟨construct i, [], []⟩ := by
  simp only [Deployment.step, bind, bind_eq_some_iff] at hs
  obtain ⟨-, -, hs⟩ := hs
  have hopened : d'.startup i = .opened (d.disk i) .setCurrentTerm := by
    cases hs
    rw [Startup.begin, if_pos hen]
    exact Function.update_self i _ d.startup
  have hnot : ¬ (d'.startup i).Loaded := by
    rw [hopened]
    exact id
  have hknown := Deployment.known_of_opened hopened hnot
  cases hs
  refine ⟨rfl, rfl, rfl, fun j _ => by simp [Deployment.setReplica],
    fun j hj => Function.update_of_ne hj _ _, rfl, ?_, by simp, ?_, ?_, ?_, ?_⟩
  · rw [hknown]
    by_cases hloaded : (d.startup i).Loaded
    · rw [Deployment.known_of_loaded hloaded]
      rcases hinv.durable hen i hloaded with ⟨ht, hv⟩ | ⟨-, hr, -⟩
      · exact .inr ⟨ht.ge, fun _ => .inr hv⟩
      · exact .inl hr
    · -- it crashed before it had recovered from the last crash
      obtain ⟨m, next, hopen⟩ := Deployment.exists_opened hloaded
      rw [Deployment.known_of_opened hopen hloaded, (hinv.loading i m next hopen hloaded).disk]
      exact .inr ⟨le_rfl, fun _ => .inr rfl⟩
  · intro m next hm _
    obtain ⟨rfl, rfl⟩ : d.disk i = m ∧ StartPointCall.setCurrentTerm = next := by
      simpa using hopened.symm.trans hm
    exact ⟨by simp [Deployment.setReplica], rfl, nofun⟩
  · exact fun _ hloaded => absurd hloaded hnot
  · intro hc
    simp only [construct] at hc
    split at hc <;> cases hc
  · intro hl
    exact .inl (leader_construct hl)

/-- The constructor goes on.  A replica that loads its metadata remembers what it knew; only replica 1
is a leader then, and its term is one that it may lead. -/
theorem voteStep_recover {a : RecoveryAction} {startup : Startup}
    (hok : SafeElections s d (.recover i a))
    (hr : (d.cluster.replicas i).recover (d.startup i) a = some (r, startup)) :
    VoteStep s d
      { d.setReplica s i r false with startup := Function.update d.startup i startup } i
      ⟨r, [], []⟩ := by
  have hself : Function.update d.startup i startup i = startup := Function.update_self i _ d.startup
  have hdisk : ∀ j, (d.setReplica s i r false).disk j = d.disk j := fun j => by
    simp [Deployment.setReplica]
  have hother : ∀ j, j ≠ i → Function.update d.startup i startup j = d.startup j := fun j hj =>
    Function.update_of_ne hj _ _
  have hcandidate : (d.cluster.replicas i).role = (construct i).role →
      (d.cluster.replicas i).role ≠ .candidate := by
    intro hrole hc
    rw [hrole, construct] at hc
    split at hc <;> cases hc
  rcases recover_cases hr with ⟨m, hopened, rfl, rfl⟩ | ⟨m, hopened, rfl, rfl⟩ |
    ⟨hloaded, hloaded', hsame⟩
  · have hnot : ¬ (d.startup i).Loaded := hopened ▸ id
    have hnot' : ¬ (Function.update d.startup i (.opened m .setVotedFor) i).Loaded := by
      rw [hself]
      exact id
    obtain ⟨hm, hrole, -⟩ := hinv.loading i m _ hopened hnot
    refine ⟨rfl, rfl, rfl, fun j _ => hdisk j, hother, hinv.id i, ?_, by simp, ?_, ?_, ?_, ?_⟩
    · rw [Deployment.known_of_opened hopened hnot, Deployment.known_of_opened hself hnot']
      exact .inr ⟨le_rfl, fun _ => .inr rfl⟩
    · intro m' next' hm' _
      obtain ⟨rfl, rfl⟩ : m = m' ∧ StartPointCall.setVotedFor = next' := by
        simpa using hself.symm.trans hm'
      exact ⟨hm.trans (hdisk i).symm, hrole, fun _ => rfl⟩
    · exact fun _ hloaded => absurd hloaded hnot'
    · exact fun hc => absurd hc (hcandidate hrole)
    · intro hl
      have h1 := (leader_construct (hrole.symm.trans hl)).2
      have hlead := hok h1
      rw [hopened] at hlead
      rcases hlead with ht | ⟨l, hl, ht, hid⟩
      · exact .inl ⟨ht, h1⟩
      · have := hinv.led l hl
        rw [ht, hid, ← h1] at this
        exact this.update
  · have hnot : ¬ (d.startup i).Loaded := hopened ▸ id
    obtain ⟨hm, hrole, hterm⟩ := hinv.loading i m _ hopened hnot
    have hloaded' : (Function.update d.startup i
        (.opened m .setSnapshotLastIndexAndTerm) i).Loaded := by
      rw [hself]
      trivial
    refine ⟨rfl, rfl, rfl, fun j _ => hdisk j, hother, hinv.id i, ?_, by simp, ?_, ?_, ?_, ?_⟩
    · rw [Deployment.known_of_opened hopened hnot, Deployment.known_of_loaded hloaded']
      simp only [Deployment.setReplica, Cluster.replicas_update_self, hterm rfl]
      exact .inr ⟨le_rfl, fun _ => .inr trivial⟩
    · exact fun _ _ _ hnot => absurd hloaded' hnot
    · intro _ _
      have hkept := (hdisk i).trans hm.symm
      exact .inl ⟨(congrArg Metadata.currentTerm hkept).trans (hterm rfl).symm,
        congrArg Metadata.votedFor hkept⟩
    · exact fun hc => absurd hc (hcandidate hrole)
    · exact fun hl => (hinv.leaders i hl).update
  · have hafter : (Function.update d.startup i startup i).Loaded := by
      rw [hself]
      exact hloaded'
    exact (MemStep.of_sameRole hinv hsame).voteStep hinv hloaded hafter rfl rfl rfl hother
      (fun j _ => hdisk j) fun _ => .inr ⟨hdisk i, hsame.currentTerm, hsame.votedFor⟩

/-- A handler or a timer makes such a step. -/
theorem exists_voteStep_act {a : Action} (hlisten : d.Listens a)
    (hok : SafeElections s d (.act a)) (hs : d.cluster.step s.cfg a = some c) :
    ∃ i o, VoteStep s d (d.persist s c) i o := by
  cases a <;> simp only [Cluster.step, bind, bind_eq_some_iff, guard_eq_some'] at hs
  case receiveTransaction i serialized now =>
    obtain ⟨-, -, ⟨o, idx⟩, ho, hs⟩ := hs
    cases hs
    obtain ⟨hr, hsent⟩ := receiveTransaction_sameRole ho
    exact ⟨i, o, (MemStep.of_role hinv ⟨.inl hr, hsent⟩).voteStep_persist hinv
      (Startup.loaded_of_isReady hlisten) _⟩
  case finishTransaction i idx =>
    obtain ⟨-, -, -, -, hs⟩ := hs
    cases hs
    have hr := (finishTransaction_sameButView (d.cluster.replicas i) idx).toSameRole
    exact ⟨i, _, (MemStep.of_sameRole hinv hr).voteStep_persist hinv
      (Startup.loaded_of_isReady hlisten) _⟩
  case deliver k now =>
    obtain ⟨p, hk, o, ho, hs⟩ := hs
    cases hs
    have hp : p ∈ d.cluster.sent := List.mem_of_getElem? hk
    refine ⟨p.dst, o, MemStep.voteStep_persist ?_ hinv (Startup.loaded_of_isReady (hlisten p hk))
      d.cluster.pending⟩
    cases hm : p.message <;> rw [hm] at ho
    case appendEntries ae =>
      exact .of_role hinv ((receiveAppendEntries_role ho).imp_left (.imp_left .of_eq))
    case appendEntriesResponse aer =>
      exact .of_role hinv (receiveAppendEntriesResponse_role ho)
    case requestVote rv =>
      exact memStep_receiveRequestVote hinv hp hm ho
    case requestVoteResponse rvr =>
      exact memStep_receiveRequestVoteResponse hinv hp hm ho
  case startElection i =>
    obtain ⟨-, hi, o, ho, hs⟩ := hs
    cases hs
    by_cases hl : (d.cluster.replicas i).role = .leader
    · unfold startElection at ho
      rw [if_pos hl] at ho
      cases ho
      have hrefl := SameRole.refl (d.cluster.replicas i)
      by_cases hloaded : (d.startup i).Loaded
      · exact ⟨i, _, (MemStep.of_sameRole hinv hrefl).voteStep_persist hinv hloaded
          d.cluster.pending⟩
      · obtain ⟨m, next, hopen⟩ := Deployment.exists_opened hloaded
        exact ⟨i, _, voteStep_of_opened (o := ⟨_, [], []⟩) hinv hopen hloaded ⟨hrefl, by simp⟩
          d.cluster.pending⟩
    · obtain ⟨hloaded, ht⟩ := hok.resolve_left hl
      exact ⟨i, o, (memStep_startElection hinv hi ht hl ho).voteStep_persist hinv hloaded
        d.cluster.pending⟩
  case sendHeartbeat i now =>
    obtain ⟨-, -, o, ho, hs⟩ := hs
    cases hs
    have hr := sendHeartbeat_sameRole ho
    by_cases hloaded : (d.startup i).Loaded
    · exact ⟨i, o, (MemStep.of_role hinv ⟨.inl hr.1, hr.2⟩).voteStep_persist hinv hloaded
        d.cluster.pending⟩
    · obtain ⟨m, next, hopen⟩ := Deployment.exists_opened hloaded
      exact ⟨i, o, voteStep_of_opened hinv hopen hloaded hr d.cluster.pending⟩

/-- **Every step that meets the condition is one that keeps the votes.** -/
theorem exists_voteStep {a : LifeAction} (hok : SafeElections s d a)
    (hs : d.step s a = some d') : ∃ i o, VoteStep s d d' i o := by
  cases a with
  | act a =>
    simp only [Deployment.step, bind, bind_eq_some_iff, guard_eq_some'] at hs
    obtain ⟨-, hlisten, c, hc, hs⟩ := hs
    cases hs
    exact exists_voteStep_act hinv hlisten hok hc
  | receiveInstallSnapshot i term index indexTerm install =>
    simp only [Deployment.step, bind, bind_eq_some_iff, guard_eq_some'] at hs
    obtain ⟨-, -, -, hup, hs⟩ := hs
    cases hs
    refine ⟨i, _, voteStep_setReplica hinv hup ?_⟩
    rcases receiveInstallSnapshot_role (d.cluster.replicas i) term index indexTerm install with
      hr | ⟨hr, hlt⟩
    · exact .inl hr
    · exact .inr ⟨hr, by simp [hlt]⟩
  | truncatePrefix i index =>
    simp only [Deployment.step, bind, bind_eq_some_iff, guard_eq_some'] at hs
    obtain ⟨-, -, -, hup, ⟨r, write⟩, hr, hs⟩ := hs
    cases hs
    exact ⟨i, _, voteStep_setReplica hinv hup (.inl (truncatePrefix_frame hr).1)⟩
  | restart i => exact ⟨i, _, voteStep_restart hinv hok hs⟩
  | recover i a =>
    simp only [Deployment.step, bind, bind_eq_some_iff] at hs
    obtain ⟨⟨r, startup⟩, hr, hs⟩ := hs
    cases hs
    exact ⟨i, _, voteStep_recover hinv hok hr⟩

end

theorem VoteInv.start : VoteInv s (.start s) where
  id := fun _ => rfl
  signed := by simp [Deployment.start, Cluster.start]
  loading := by
    intro i m next hm _
    obtain ⟨rfl, rfl⟩ : ({} : Metadata) = m ∧ StartPointCall.setCurrentTerm = next := by
      simp only [Deployment.start, Startup.begin] at hm
      split_ifs at hm
      cases hm
      exact ⟨rfl, rfl⟩
    refine ⟨rfl, rfl, fun hnext => ?_⟩
    cases hnext
  durable := by
    intro hen i hloaded
    rw [Deployment.start, Startup.begin, if_pos hen] at hloaded
    cases hloaded
  votes := by simp [Deployment.start, Cluster.start, Cluster.Elects, Cluster.Voted]
  unique := by simp [Deployment.start, Cluster.start, Cluster.Elects, Cluster.Voted]
  candidates := by
    intro i hc
    simp only [Deployment.start, Cluster.start, construct] at hc
    split at hc <;> cases hc
  led := by simp [Deployment.start, Cluster.start, Cluster.leaderLog, construct, Cluster.Legitimate]
  leaders := fun i hl => .inl (leader_construct hl)

theorem VoteInv.of_reachable (h : (deploymentSystem s).Reachable (SafeElections s) d) :
    VoteInv s d := by
  refine h.invariant (I := VoteInv s) ?_ ?_
  · rintro d rfl
    exact VoteInv.start
  · intro d a d' hinv hok hs
    obtain ⟨i, o, hstep⟩ := exists_voteStep hinv hok hs
    exact hstep.voteInv hinv

/-- **Election safety**: in every run that meets the condition, no term has two leaders. -/
theorem election_safety (h : (deploymentSystem s).Reachable (SafeElections s) d) :
    OneLeaderPerTerm d.cluster :=
  (VoteInv.of_reachable h).oneLeaderPerTerm

end

/-- Three replicas with their metadata on disk. -/
def recoverableReplicas : Settings := ⟨threeReplicas, true, 0⟩

/-- The constructor of a replica comes to its end without a record. -/
def comeUp (i : ℕ) : List LifeAction :=
  [.recover i .setStartPoint, .recover i .setStartPoint, .recover i .setStartPoint,
    .recover i .initProtocol]

/-- Replica 2 learns of term 1, crashes, recovers and is elected in term 2. -/
def recoveredElectionRun : List LifeAction :=
  comeUp 2 ++ comeUp 3 ++ [.act (.sendHeartbeat 1 stillClock), .act (.deliver 0 stillClock),
    .restart 2] ++ comeUp 2 ++ [.act (.startElection 2), .act (.deliver 5 stillClock),
    .act (.deliver 6 stillClock)]

theorem election_safety_recoveredElectionRun :
    ∃ d, (deploymentSystem recoverableReplicas).run (.start recoverableReplicas)
        recoveredElectionRun = some d ∧
      (d.cluster.replicas 2).role = .leader ∧ (d.cluster.replicas 2).currentTerm = 2 ∧
      OneLeaderPerTerm d.cluster := by
  obtain ⟨d, hd, hreach, hleader, hterm⟩ := (deploymentSystem recoverableReplicas).exists_run
    (C := SafeElections recoverableReplicas) (P := fun d => (d.cluster.replicas 2).role = .leader ∧
      (d.cluster.replicas 2).currentTerm = 2) recoveredElectionRun rfl (by decide +kernel)
    (by decide +kernel)
  exact ⟨d, hd, hleader, hterm, election_safety hreach⟩

/-- Before anything else happens, replica 2 is elected by replica 3. -/
def firstTermRun : List LifeAction :=
  comeUp 2 ++ comeUp 3 ++
    [.act (.startElection 2), .act (.deliver 2 stillClock), .act (.deliver 3 stillClock)]

/-- Replicas 1 and 2 both lead term 1: the first as constructed, the second elected from term 0. -/
theorem election_safety_fails :
    ¬ ∀ (s : Settings) (d : Deployment),
      (deploymentSystem s).Reachable TransitionSystem.always d → OneLeaderPerTerm d.cluster := by
  intro h
  obtain ⟨d, hreach, hnot⟩ := (deploymentSystem recoverableReplicas).exists_reachable_always
    (P := fun d => ¬ OneLeaderPerTerm d.cluster) firstTermRun rfl (by decide +kernel)
  exact hnot (h recoverableReplicas d hreach)

end Raft
