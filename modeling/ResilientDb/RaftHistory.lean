/-
**Votes, acknowledgements and commits of a Raft cluster.**

Why a committed entry is never lost is a question about the past: a quorum acknowledged the entry, a
quorum voted for every later leader, and a replica in both quorums voted after it had acknowledged.
This module states what the messages sent so far say about the logs their senders had, and shows
that every step keeps it.  All of it holds only in runs where a replica that accepts an entry-less
`AppendEntries` message has nothing that its leader lacks (`Raft.CoveredProbes`), since otherwise an
acknowledgement says nothing about the log of the leader.

Main definitions:

* `Raft.Cluster.Held`, `Raft.Cluster.Ballot` — a replica acknowledged a log in a term, or had it as
  leader; a replica voted in a term with a log;
* `Raft.Cluster.Chosen` — a quorum holds an entry that the leader of its term created;
* `Raft.Cluster.Settled` — a log up to an index is a beginning of one up to a chosen entry;
* `Raft.HistoryInv` — the invariant.

Main results:

* `Raft.HistoryStep.historyInv` — a step that is in order keeps it;
* `Raft.HistoryInv.of_reachable` — it holds along every run that meets the condition.
-/

import ResilientDb.Quorum
import ResilientDb.RaftLogMatching

set_option autoImplicit false

namespace Raft

open Replica

/-! ### Quorums of replicas -/

namespace Config

/-- The replicas. -/
def members (cfg : Config) : Finset ℕ := Finset.Icc 1 cfg.totalNum

variable {cfg : Config}

theorem mem_members {i : ℕ} : i ∈ cfg.members ↔ cfg.IsMember i := Finset.mem_Icc

/-- The property holds of a quorum of replicas. -/
def Quorate (cfg : Config) (P : ℕ → Prop) : Prop :=
  ∃ Q : Finset ℕ, Q ⊆ cfg.members ∧ cfg.quorum ≤ Q.card ∧ ∀ j ∈ Q, P j

theorem Quorate.mono {P P' : ℕ → Prop} (h : cfg.Quorate P) (hP : ∀ j, P j → P' j) :
    cfg.Quorate P' := by
  obtain ⟨Q, hQ, hcard, hall⟩ := h
  exact ⟨Q, hQ, hcard, fun j hj => hP j (hall j hj)⟩

/-- Two quorums have a member in common. -/
theorem Quorate.common {P P' : ℕ → Prop} (h : cfg.Quorate P) (h' : cfg.Quorate P') :
    ∃ j, P j ∧ P' j := by
  obtain ⟨Q, hQ, hcard, hall⟩ := h
  obtain ⟨Q', hQ', hcard', hall'⟩ := h'
  have hn : cfg.members.card = cfg.totalNum := by simp [members]
  obtain ⟨j, hj, hj', -⟩ := exists_common_of_card (F := ∅) hQ hQ' (by
    rw [hn, Finset.card_empty]
    unfold quorum at hcard hcard'
    omega)
  exact ⟨j, hall j hj, hall' j hj'⟩

end Config

/-! ### The comparison of logs -/

/-- The term of the last entry. -/
def lastTerm (log : List Entry) : ℕ := (log.getLast?.map Entry.term).getD 0

/-- The first log is not behind the second: the rule by which votes are granted. -/
def UpToDate (log log' : List Entry) : Prop :=
  lastTerm log' < lastTerm log ∨ (lastTerm log' = lastTerm log ∧ log'.length ≤ log.length)

theorem UpToDate.refl (log : List Entry) : UpToDate log log := .inr ⟨rfl, le_rfl⟩

theorem Replica.Intact.lastTerm_eq {r : Replica} (h : r.Intact) {t : ℕ}
    (ht : (r.log[r.lastLogIndex]?).map Entry.term = some t) : lastTerm r.log = t := by
  have hidx : r.log.length - 1 = r.lastLogIndex := by
    have := h.last
    omega
  rw [lastTerm, List.getLast?_eq_getElem?, hidx, ht, Option.getD_some]

/-- How a voter compares logs. -/
theorem isValidCandidate_iff {rv : RequestVote} {t k : ℕ} : isValidCandidate rv t k = true ↔
    t < rv.lastLogTerm ∨ (t = rv.lastLogTerm ∧ k ≤ rv.lastLogIndex) := by
  simp only [isValidCandidate, Bool.and_eq_true, Bool.not_eq_true', decide_eq_false_iff_not]
  omega

namespace Cluster

/-! ### What the messages say -/

/-- Replica `j` has acknowledged the log in the term, or has had it as leader. -/
def Held (c : Cluster) (term j : ℕ) (log : List Entry) : Prop :=
  (∃ last, c.AckedWith term j last log) ∨ ⟨term, j, log⟩ ∈ c.leaderLogs

/-- Replica `j` has voted in the term, for itself or for another one, with the log. -/
def Ballot (c : Cluster) (term j : ℕ) (log : List Entry) : Prop :=
  ∃ p ∈ c.sent, p.src = j ∧ p.srcLog = log ∧
    (p.message = .requestVoteResponse ⟨term, true, j⟩ ∨
      ∃ rv, p.message = .requestVote rv ∧ rv.term = term)

/-- A log of a leader of the term starts with one that a quorum found up to date.  The leader of
term 1 is not elected. -/
def ElectedWith (cfg : Config) (c : Cluster) (term : ℕ) (log : List Entry) : Prop :=
  term = 1 ∨ ∃ start, start <+: log ∧ (∀ e ∈ start, e.term < term) ∧
    cfg.Quorate fun j => ∃ ballot, c.Ballot term j ballot ∧ UpToDate start ballot

/-- The entry at an index of a leader's log is of the leader's term, and a quorum holds it. -/
def Chosen (cfg : Config) (c : Cluster) (l : LeaderLog) (k : ℕ) : Prop :=
  l ∈ c.leaderLogs ∧ (l.log[k]?).map Entry.term = some l.term ∧
    cfg.Quorate fun j => ∃ log, c.Held l.term j log ∧ k < log.length

/-- Up to the index, the log is a beginning of a leader's log up to a chosen entry. -/
def Settled (cfg : Config) (c : Cluster) (log : List Entry) (k : ℕ) : Prop :=
  k < log.length ∧ (k = 0 ∨ ∃ l k', c.Chosen cfg l k' ∧ k ≤ k' ∧ log.take (k + 1) <+: l.log)

variable {cfg : Config} {c : Cluster} {i : ℕ} {o : Outcome}

variable {term : ℕ} {log : List Entry}

theorem Held.update {j : ℕ} (h : c.Held term j log) : (c.update i o).Held term j log := by
  rcases h with ⟨last, h⟩ | h
  · exact .inl ⟨last, h.update⟩
  · exact .inr (mem_leaderLogs_update.2 (.inl h))

theorem Ballot.update {j : ℕ} (h : c.Ballot term j log) : (c.update i o).Ballot term j log := by
  obtain ⟨p, hp, hrest⟩ := h
  exact ⟨p, mem_sent_update.2 (.inl hp), hrest⟩

theorem ElectedWith.update (h : c.ElectedWith cfg term log) :
    (c.update i o).ElectedWith cfg term log := by
  refine h.imp_right fun ⟨start, hs, ht, hq⟩ => ⟨start, hs, ht, hq.mono ?_⟩
  exact fun j ⟨ballot, hb, hu⟩ => ⟨ballot, hb.update, hu⟩

theorem ElectedWith.of_isPrefix {log' : List Entry} (h : c.ElectedWith cfg term log)
    (hp : log <+: log') : c.ElectedWith cfg term log' :=
  h.imp_right fun ⟨start, hs, ht, hq⟩ => ⟨start, hs.trans hp, ht, hq⟩

variable {k : ℕ}

theorem Chosen.update {l : LeaderLog} (h : c.Chosen cfg l k) : (c.update i o).Chosen cfg l k := by
  obtain ⟨hl, hterm, hq⟩ := h
  refine ⟨mem_leaderLogs_update.2 (.inl hl), hterm, hq.mono ?_⟩
  exact fun j ⟨log, hh, hk⟩ => ⟨log, hh.update, hk⟩

theorem Settled.update (h : c.Settled cfg log k) : (c.update i o).Settled cfg log k :=
  ⟨h.1, h.2.imp_right fun ⟨l, k', hc, hle, hp⟩ => ⟨l, k', hc.update, hle, hp⟩⟩

/-- What is settled in one log is settled in every compatible one. -/
theorem Settled.of_compatible {log' : List Entry} {k' : ℕ} (h : c.Settled cfg log k)
    (hc : Compatible log log') (hle : k' ≤ k) (hk' : k' < log'.length) : c.Settled cfg log' k' := by
  refine ⟨hk', ?_⟩
  rcases h.2 with rfl | ⟨l, m, hch, hkm, hp⟩
  · exact .inl (Nat.le_zero.1 hle)
  · have hlt := h.1
    refine .inr ⟨l, m, hch, hle.trans hkm, ?_⟩
    rw [← hc.take_eq (by omega) (by omega)]
    exact (List.take_prefix_take_left (by omega)).trans hp

end Cluster

/-! ### The invariant -/

variable {cfg : Config} {c c' : Cluster} {i : ℕ} {o : Outcome}

/-- A request for votes describes the log of the candidate, which it keeps as long as it is one. -/
structure RequestOk (c : Cluster) (p : Packet) (rv : RequestVote) : Prop where
  lastLogIndex : rv.lastLogIndex + 1 = p.srcLog.length
  lastLogTerm : rv.lastLogTerm = lastTerm p.srcLog
  candidate : (c.replicas p.src).role = .candidate →
    rv.term = (c.replicas p.src).currentTerm → p.srcLog = (c.replicas p.src).log

/-- A vote was granted to a replica that asked for it with a log that is not behind. -/
def GrantOk (c : Cluster) (dst term : ℕ) (log : List Entry) : Prop :=
  ∃ p ∈ c.sent, ∃ rv, p.src = dst ∧ p.message = .requestVote rv ∧ rv.term = term ∧
    UpToDate p.srcLog log

/-- A candidate counts votes of replicas that found its log up to date. -/
structure CandidateOk (cfg : Config) (c : Cluster) (r : Replica) : Prop where
  termLt : ∀ e ∈ r.log, e.term < r.currentTerm
  nodup : r.votes.Nodup
  votes : ∀ j ∈ r.votes, cfg.IsMember j ∧
    ∃ ballot, c.Ballot r.currentTerm j ballot ∧ UpToDate r.log ballot

/-- A `match_index` that is not 0 was acknowledged. -/
def MatchOk (c : Cluster) (r : Replica) (j : ℕ) : Prop :=
  (r.progress j).matchIndex = 0 ∨ ∃ last log, c.AckedWith r.currentTerm j last log ∧
    (r.progress j).matchIndex ≤ last

/-- The invariant behind state-machine safety. -/
structure HistoryInv (cfg : Config) (c : Cluster) : Prop where
  acks : ∀ term j last log, c.AckedWith term j last log →
    last + 1 = log.length ∧ log <+: (c.replicas j).log ∧ c.Covers term log
  leaderLogs : ∀ l ∈ c.leaderLogs, l.log <+: (c.replicas l.id).log
  ballots : ∀ term j log, c.Ballot term j log →
    term ≤ (c.replicas j).currentTerm ∧ log <+: (c.replicas j).log
  order : ∀ term j log term' log', c.Held term j log → c.Ballot term' j log' → term < term' →
    log <+: log'
  requests : ∀ p ∈ c.sent, ∀ rv, p.message = .requestVote rv → RequestOk c p rv
  grants : ∀ p ∈ c.sent, ∀ rvr, p.message = .requestVoteResponse rvr → rvr.voteGranted = true →
    GrantOk c p.dst rvr.term p.srcLog
  candidates : ∀ i, (c.replicas i).role = .candidate → CandidateOk cfg c (c.replicas i)
  elections : ∀ l ∈ c.leaderLogs, c.ElectedWith cfg l.term l.log
  matched : ∀ i, (c.replicas i).role = .leader → ∀ j, cfg.IsMember j → j ≠ i →
    MatchOk c (c.replicas i) j
  noReplicaZero : ∀ i, ((c.replicas i).progress 0).matchIndex = 0
  commits : ∀ i, c.Settled cfg (c.replicas i).log (c.replicas i).commitIndex
  leaderCommits : ∀ p ∈ c.sent, ∀ ae, p.message = .appendEntries ae →
    c.Settled cfg p.srcLog ae.leaderCommitIndex
  applied : ∀ a ∈ c.applied, ∃ k e, k ≤ (c.replicas a.id).commitIndex ∧
    (c.replicas a.id).log[k]? = some e ∧ requestOf cfg e k = some a.request

variable {j : ℕ}

/-- A log that was acknowledged is still a beginning of the log of the follower. -/
theorem HistoryInv.held (h : HistoryInv cfg c) {term : ℕ} {log : List Entry}
    (hh : c.Held term j log) : log <+: (c.replicas j).log ∧ c.Covers term log := by
  rcases hh with ⟨last, hack⟩ | hl
  · exact (h.acks term j last log hack).2
  · exact ⟨h.leaderLogs _ hl, _, hl, rfl, List.prefix_refl _⟩

/-! ### One step -/

/-- What a step has to ensure about a message it sends. -/
def SentWell (c : Cluster) (i : ℕ) (o : Outcome) (m : ℕ × Message) : Prop :=
  match m.2 with
  | .appendEntries _ => True
  | .appendEntriesResponse aer =>
    aer.success = true → (c.update i o).Covers o.replica.currentTerm o.replica.log
  | .requestVote rv =>
    rv.term = o.replica.currentTerm ∧ rv.lastLogIndex + 1 = o.replica.log.length ∧
      rv.lastLogTerm = lastTerm o.replica.log
  | .requestVoteResponse rvr =>
    rvr.term = o.replica.currentTerm ∧
      (rvr.voteGranted = true → GrantOk c m.1 rvr.term o.replica.log)

/-- What a step has to ensure to keep the invariant, next to `StepOk`. -/
structure HistoryStep (cfg : Config) (c : Cluster) (i : ℕ) (o : Outcome) : Prop extends
    StepOk cfg c i o where
  longer : (c.replicas i).log <+: o.replica.log
  commitLe : (c.replicas i).commitIndex ≤ o.replica.commitIndex
  sentWell : ∀ m ∈ o.sent, SentWell c i o m
  requested : o.replica.role = .candidate → ∀ p ∈ c.sent, ∀ rv, p.message = .requestVote rv →
    p.src = i → rv.term = o.replica.currentTerm → p.srcLog = o.replica.log
  candidateOk : o.replica.role = .candidate → CandidateOk cfg (c.update i o) o.replica
  elected : o.replica.role = .leader →
    (c.update i o).ElectedWith cfg o.replica.currentTerm o.replica.log
  matchOk : o.replica.role = .leader → ∀ j, cfg.IsMember j → j ≠ i → MatchOk c o.replica j
  zero : (o.replica.progress 0).matchIndex = 0
  settled : (c.update i o).Settled cfg o.replica.log o.replica.commitIndex
  applies : AppliesCommitted cfg o

namespace HistoryStep

variable {j : ℕ} {log : List Entry}

variable (h : HistoryStep cfg c i o)
include h

theorem prefix_update
    (hp : log <+: (c.replicas j).log) : log <+: ((c.update i o).replicas j).log := by
  by_cases hj : j = i
  · subst hj
    rw [Cluster.replicas_update_self]
    exact hp.trans h.longer
  · rwa [Cluster.replicas_update_of_ne c hj]

theorem term_update (j : ℕ) :
    (c.replicas j).currentTerm ≤ ((c.update i o).replicas j).currentTerm :=
  Cluster.forall_replicas_update (P := fun j r => (c.replicas j).currentTerm ≤ r.currentTerm)
    (fun _ _ => le_rfl) h.term j

variable {term : ℕ}

/-- An acknowledgement is an old one, or of the log that the replica has now. -/
theorem ack_cases {last : ℕ} (hack : (c.update i o).AckedWith term j last log) :
    c.AckedWith term j last log ∨ (j = i ∧ log = o.replica.log ∧ term = o.replica.currentTerm ∧
      last = o.replica.lastLogIndex ∧
        (c.update i o).Covers o.replica.currentTerm o.replica.log) := by
  rcases Cluster.ackedWith_update hack with hack | ⟨hj, hlog, m, hm, aer, hmsg, hs, rfl, rfl⟩
  · exact .inl hack
  · have hok := (h.sent m hm).2
    have hwell := h.sentWell m hm
    simp only [SentOk, SentWell, hmsg] at hok hwell
    obtain ⟨hterm, hlast⟩ := hok.2 hs
    exact .inr ⟨hj, hlog, hterm, hlast, hwell hs⟩

theorem held_cases (hh : (c.update i o).Held term j log) :
    c.Held term j log ∨ (j = i ∧ log = o.replica.log ∧ term = o.replica.currentTerm) := by
  rcases hh with ⟨last, hack⟩ | hl
  · rcases h.ack_cases hack with hack | ⟨hj, hlog, hterm, -⟩
    · exact .inl (.inl ⟨last, hack⟩)
    · exact .inr ⟨hj, hlog, hterm⟩
  · rcases Cluster.mem_leaderLogs_update.1 hl with hl | ⟨-, heq⟩
    · exact .inl (.inr hl)
    · rw [LeaderLog.mk.injEq] at heq
      exact .inr ⟨heq.2.1.trans h.id, heq.2.2, heq.1⟩

theorem ballot_cases (hb : (c.update i o).Ballot term j log) :
    c.Ballot term j log ∨ (j = i ∧ log = o.replica.log ∧ term = o.replica.currentTerm) := by
  obtain ⟨p, hp, hsrc, hlog, hmsg⟩ := hb
  rcases Cluster.mem_sent_update.1 hp with hp | ⟨m, hm, rfl⟩
  · exact .inl ⟨p, hp, hsrc, hlog, hmsg⟩
  · have hwell := h.sentWell m hm
    refine .inr ⟨hsrc.symm, hlog.symm, ?_⟩
    rcases hmsg with hmsg | ⟨rv, hmsg, rfl⟩
    · simp only at hmsg
      simp only [SentWell, hmsg] at hwell
      exact hwell.1
    · simp only at hmsg
      simp only [SentWell, hmsg] at hwell
      exact hwell.1

/-- The log of a vote extends what was held in earlier terms. -/
theorem order (hinv : HistoryInv cfg c) {term' : ℕ}
    {log' : List Entry} (hh : (c.update i o).Held term j log)
    (hb : (c.update i o).Ballot term' j log') (hlt : term < term') : log <+: log' := by
  rcases h.held_cases hh with hold | ⟨rfl, rfl, rfl⟩
  · rcases h.ballot_cases hb with hb | ⟨rfl, rfl, rfl⟩
    · exact hinv.order term j log term' log' hold hb hlt
    · exact (hinv.held hold).1.trans h.longer
  · -- what is held from now on is held in a term that is not before any ballot
    rcases h.ballot_cases hb with hb | ⟨-, -, rfl⟩
    · have := (hinv.ballots term' j log' hb).1
      have := h.term
      omega
    · omega

/-- A request for votes describes the log of its candidate. -/
theorem requestOk (hinv : HistoryInv cfg c) {p : Packet}
    (hp : p ∈ (c.update i o).sent) {rv : RequestVote} (hm : p.message = .requestVote rv) :
    RequestOk (c.update i o) p rv := by
  rcases Cluster.mem_sent_update.1 hp with hp | ⟨m, hmem, rfl⟩
  · have hok := hinv.requests p hp rv hm
    refine ⟨hok.lastLogIndex, hok.lastLogTerm, ?_⟩
    by_cases hj : p.src = i
    · rw [hj, Cluster.replicas_update_self]
      exact fun hc ht => h.requested hc p hp rv hm hj ht
    · rw [Cluster.replicas_update_of_ne c hj]
      exact hok.candidate
  · have hwell := h.sentWell m hmem
    simp only at hm
    simp only [SentWell, hm] at hwell
    refine ⟨hwell.2.1, hwell.2.2, fun _ _ => ?_⟩
    rw [Cluster.replicas_update_self]

omit h

theorem GrantOk.update {dst : ℕ} (h : GrantOk c dst term log) :
    GrantOk (c.update i o) dst term log := by
  obtain ⟨p, hp, hrest⟩ := h
  exact ⟨p, Cluster.mem_sent_update.2 (.inl hp), hrest⟩

theorem MatchOk.update {r : Replica} (h : MatchOk c r j) : MatchOk (c.update i o) r j :=
  h.imp_right fun ⟨last, log, hack, hle⟩ => ⟨last, log, hack.update, hle⟩

theorem CandidateOk.update {r : Replica} (h : CandidateOk cfg c r) :
    CandidateOk cfg (c.update i o) r :=
  ⟨h.termLt, h.nodup, fun j hj =>
    let ⟨hmem, ballot, hb, hu⟩ := h.votes j hj
    ⟨hmem, ballot, hb.update, hu⟩⟩

/-- **A step that is in order keeps the invariant.** -/
theorem historyInv (h : HistoryStep cfg c i o) (hinv : HistoryInv cfg c) :
    HistoryInv cfg (c.update i o) where
  acks := by
    intro term j last log hack
    rcases h.ack_cases hack with hack | ⟨rfl, rfl, rfl, rfl, hcov⟩
    · obtain ⟨hlen, hpre, hcov⟩ := hinv.acks term j last log hack
      exact ⟨hlen, h.prefix_update hpre, hcov.update⟩
    · rw [Cluster.replicas_update_self]
      exact ⟨h.intact.last, List.prefix_refl _, hcov⟩
  leaderLogs := by
    intro l hl
    rcases Cluster.mem_leaderLogs_update.1 hl with hl | ⟨-, rfl⟩
    · exact h.prefix_update (hinv.leaderLogs l hl)
    · simp only [h.id, Cluster.replicas_update_self, List.prefix_refl]
  ballots := by
    intro term j log hb
    rcases h.ballot_cases hb with hb | ⟨rfl, rfl, rfl⟩
    · obtain ⟨hterm, hpre⟩ := hinv.ballots term j log hb
      exact ⟨hterm.trans (h.term_update j), h.prefix_update hpre⟩
    · rw [Cluster.replicas_update_self]
      exact ⟨le_rfl, List.prefix_refl _⟩
  order := fun _ _ _ _ _ hh hb hlt => h.order hinv hh hb hlt
  requests := fun _ hp _ hm => h.requestOk hinv hp hm
  grants := by
    intro p hp rvr hm hg
    rcases Cluster.mem_sent_update.1 hp with hp | ⟨m, hmem, rfl⟩
    · exact GrantOk.update (hinv.grants p hp rvr hm hg)
    · have hwell := h.sentWell m hmem
      simp only at hm
      simp only [SentWell, hm] at hwell
      exact GrantOk.update (hwell.2 hg)
  candidates :=
    Cluster.forall_replicas_update
      (P := fun _ r => r.role = .candidate → CandidateOk cfg (c.update i o) r)
      (fun j _ hc => CandidateOk.update (hinv.candidates j hc)) h.candidateOk
  elections := by
    intro l hl
    rcases Cluster.mem_leaderLogs_update.1 hl with hl | ⟨hrole, rfl⟩
    · exact (hinv.elections l hl).update
    · exact h.elected hrole
  matched :=
    Cluster.forall_replicas_update
      (P := fun k r => r.role = .leader → ∀ j, cfg.IsMember j → j ≠ k → MatchOk (c.update i o) r j)
      (fun k _ hl j hj hne => MatchOk.update (hinv.matched k hl j hj hne))
      (fun hl j hj hne => MatchOk.update (h.matchOk hl j hj hne))
  noReplicaZero :=
    Cluster.forall_replicas_update (P := fun _ r => (r.progress 0).matchIndex = 0)
      (fun j _ => hinv.noReplicaZero j) h.zero
  commits :=
    Cluster.forall_replicas_update (P := fun _ r => (c.update i o).Settled cfg r.log r.commitIndex)
      (fun j _ => (hinv.commits j).update) h.settled
  leaderCommits := by
    intro p hp ae hm
    rcases Cluster.mem_sent_update.1 hp with hp | ⟨m, hmem, rfl⟩
    · exact (hinv.leaderCommits p hp ae hm).update
    · have hok := (h.sent m hmem).2
      simp only at hm
      simp only [SentOk, hm] at hok
      rw [hok.2.1.commit]
      exact h.settled
  applied := by
    intro a ha
    rcases List.mem_append.1 ha with ha | ha
    · obtain ⟨k, e, hk, he, hr⟩ := hinv.applied a ha
      refine ⟨k, e, ?_, getElem?_of_isPrefix (h.prefix_update (List.prefix_refl _)) he, hr⟩
      exact hk.trans (Cluster.forall_replicas_update
        (P := fun j r => (c.replicas j).commitIndex ≤ r.commitIndex) (fun _ _ => le_rfl)
        h.commitLe a.id)
    · obtain ⟨q, hq, rfl⟩ := List.mem_map.1 ha
      simp only [Cluster.replicas_update_self]
      exact h.applies q hq

end HistoryStep

/-! ### The four events -/

/-- Behind every vote that is counted there is a ballot. -/
theorem HistoryInv.ballot_of_voted (hinv : HistoryInv cfg c) (hc : (c.replicas i).role = .candidate)
    (hv : c.Voted (c.replicas i).currentTerm i j) :
    ∃ ballot, c.Ballot (c.replicas i).currentTerm j ballot ∧
      UpToDate (c.replicas i).log ballot := by
  obtain ⟨p, hp, hsrc, hdst, hm⟩ := hv
  obtain ⟨p', hp', rv, hsrc', hm', hterm, hup⟩ := hinv.grants p hp _ hm rfl
  have hreq := (hinv.requests p' hp' rv hm').candidate
  rw [hsrc', hdst] at hreq
  rw [hreq hc hterm] at hup
  exact ⟨p.srcLog, ⟨p, hp, hsrc, rfl, .inl hm⟩, hup⟩

theorem Quiet.sentWell (h : Quiet cfg c i o) (hint : o.replica.Intact) (hinv : HistoryInv cfg c)
    {m : ℕ × Message} (hm : m ∈ o.sent) : SentWell c i o m := by
  have hq := (h.sent m hm).2
  unfold QuietMessage at hq
  unfold SentWell
  cases hmsg : m.2 with
  | appendEntries ae => trivial
  | appendEntriesResponse aer =>
    simp only [hmsg] at hq ⊢
    exact fun hs => absurd (hq.1.symm.trans hs) (by simp)
  | requestVote rv =>
    simp only [hmsg] at hq ⊢
    obtain ⟨-, hterm, -, hidx, hlt⟩ := hq
    exact ⟨hterm, by rw [hidx, hint.last], (hint.lastTerm_eq hlt).symm⟩
  | requestVoteResponse rvr =>
    simp only [hmsg] at hq ⊢
    obtain ⟨-, hterm, hgrant⟩ := hq
    refine ⟨hterm, fun hg => ?_⟩
    obtain ⟨p, hp, rv, hsrc, hm', hrv, t, ht, hvalid⟩ := hgrant hg
    refine ⟨p, hp, rv, hsrc, hm', hrv, ?_⟩
    have hok := hinv.requests p hp rv hm'
    have hlen := hok.lastLogIndex
    have hlast := hint.last
    unfold UpToDate
    rw [hint.lastTerm_eq ht, ← hok.lastLogTerm]
    rcases isValidCandidate_iff.1 hvalid with hlt | ⟨heq, hle⟩
    · exact .inl hlt
    · exact .inr ⟨heq, by omega⟩

section

variable (hi : cfg.IsMember i) (hlog : LogInv cfg c) (hinv : HistoryInv cfg c)
include hi hlog hinv

theorem Quiet.candidateOk (h : Quiet cfg c i o) (hc : o.replica.role = .candidate) :
    CandidateOk cfg (c.update i o) o.replica := by
  rcases h.candidate hc with ⟨hc', hterm, hvotes⟩ | ⟨hlt, hvotes, t, hsent⟩
  · have hok := hinv.candidates i hc'
    have hold : ∀ j ∈ (c.replicas i).votes, cfg.IsMember j ∧ ∃ ballot,
        (c.update i o).Ballot o.replica.currentTerm j ballot ∧ UpToDate o.replica.log ballot := by
      intro j hj
      obtain ⟨hmem, ballot, hb, hu⟩ := hok.votes j hj
      rw [hterm, h.sameLog.log]
      exact ⟨hmem, ballot, hb.update, hu⟩
    have hlt : ∀ e ∈ o.replica.log, e.term < o.replica.currentTerm := by
      rw [hterm, h.sameLog.log]
      exact hok.termLt
    rcases hvotes with hvotes | ⟨j, hj, hnew, hvotes, hvoted⟩
    · refine ⟨hlt, ?_, ?_⟩
      · rw [hvotes]
        exact hok.nodup
      · rw [hvotes]
        exact hold
    · refine ⟨hlt, ?_, ?_⟩
      · rw [hvotes]
        exact hok.nodup.append (List.nodup_singleton j) (by simpa using hnew)
      · intro k hk
        rw [hvotes, List.mem_append, List.mem_singleton] at hk
        rcases hk with hk | rfl
        · exact hold k hk
        · rw [hterm] at hvoted
          obtain ⟨ballot, hb, hu⟩ := hinv.ballot_of_voted hc' hvoted
          rw [hterm, h.sameLog.log]
          exact ⟨hj, ballot, hb.update, hu⟩
  · -- a new candidate has voted for itself
    refine ⟨?_, ?_, ?_⟩
    · intro e he
      rw [h.sameLog.log] at he
      exact (hlog.termLe i e he).trans_lt hlt
    · rw [hvotes]
      exact List.nodup_singleton i
    · intro k hk
      rw [hvotes, List.mem_singleton] at hk
      subst hk
      refine ⟨hi, o.replica.log, ?_, UpToDate.refl _⟩
      exact ⟨_, Cluster.mem_sent_update.2 (.inr ⟨_, hsent k hi, rfl⟩), rfl, rfl,
        .inr ⟨_, rfl, rfl⟩⟩

/-- A step that appends and elects nothing. -/
theorem Quiet.historyStep (h : Quiet cfg c i o) : HistoryStep cfg c i o where
  toStepOk := h.stepOk hlog
  longer := by rw [h.sameLog.log]
  commitLe := by rw [h.sameLog.commitIndex]
  sentWell := fun _ hm => h.sentWell (h.stepOk hlog).intact hinv hm
  requested := by
    intro hc p hp rv hm hsrc hterm
    subst hsrc
    rcases h.candidate hc with ⟨hc', ht, -⟩ | ⟨hlt, -⟩
    · rw [h.sameLog.log]
      exact (hinv.requests p hp rv hm).candidate hc' (hterm.trans ht)
    · have := (hinv.ballots _ _ _ ⟨p, hp, rfl, rfl, .inr ⟨rv, hm, rfl⟩⟩).1
      omega
  candidateOk := h.candidateOk hi hlog hinv
  elected := by
    intro hl
    obtain ⟨hl', ht⟩ := h.leader hl
    rw [ht, h.sameLog.log]
    exact (hinv.elections _ (hlog.recorded i hl')).update
  matchOk := by
    intro hl j hj hne
    obtain ⟨hl', ht⟩ := h.leader hl
    unfold MatchOk
    rw [ht, h.progress j hne]
    exact hinv.matched i hl' j hj hne
  zero := by
    have hne : 0 ≠ i := by
      have := hi.1
      omega
    rw [h.progress 0 hne]
    exact hinv.noReplicaZero i
  settled := by
    rw [h.sameLog.log, h.sameLog.commitIndex]
    exact (hinv.commits i).update
  applies := by simp [AppliesCommitted, h.applied]

/-- **What a leader commits is chosen.**  The commit index is the `quorum`-th largest `match_index`,
so a quorum has acknowledged at least as much. -/
theorem Leads.chosen {entries : List Entry} (h : Leads cfg c i o entries)
    (hlt : (c.replicas i).commitIndex < o.replica.commitIndex)
    (hmatch : ∀ j, cfg.IsMember j → j ≠ i → MatchOk c o.replica j)
    (hzero : (o.replica.progress 0).matchIndex = 0)
    (hlast : o.replica.lastReplicatedIndex cfg = some o.replica.commitIndex)
    (hterm : (o.replica.log[o.replica.commitIndex]?).map Entry.term = some o.replica.currentTerm) :
    (c.update i o).Chosen cfg ⟨o.replica.currentTerm, i, o.replica.log⟩ o.replica.commitIndex := by
  have hid : o.replica.id = i := h.sameRole.id.trans (hlog.addressed.id i)
  have hrole : o.replica.role = .leader := h.sameRole.role.trans h.wasLeader
  have hmem : ⟨o.replica.currentTerm, i, o.replica.log⟩ ∈ (c.update i o).leaderLogs :=
    Cluster.mem_leaderLogs_update.2 (.inr ⟨hrole, by rw [hid]⟩)
  refine ⟨hmem, hterm, ?_⟩
  obtain ⟨Q, hcard, hQ⟩ := exists_finset_of_getElem?_insertionSort hlast
  have hmember : ∀ j ∈ Q, cfg.IsMember j := by
    intro j hj
    obtain ⟨hjn, hle⟩ := hQ j hj
    have hj0 : j ≠ 0 := by
      rintro rfl
      omega
    exact ⟨by omega, by omega⟩
  refine ⟨Q, fun j hj => Config.mem_members.2 (hmember j hj), ?_, ?_⟩
  · omega
  · intro j hj
    have hle := (hQ j hj).2
    by_cases hji : j = i
    · subst hji
      obtain ⟨e, he, -⟩ := Option.map_eq_some_iff.1 hterm
      exact ⟨_, .inr hmem, (List.getElem?_eq_some_iff.1 he).1⟩
    · rcases hmatch j (hmember j hj) hji with h0 | ⟨last, log, hack, hle'⟩
      · omega
      · have hlen := (hinv.acks _ _ _ _ hack).1
        exact ⟨log, .inl ⟨last, hack.update⟩, by omega⟩

/-- A leader extends its log. -/
theorem Leads.historyStep {entries : List Entry} (h : Leads cfg c i o entries) :
    HistoryStep cfg c i o := by
  have hok := h.stepOk hlog
  have hrole : o.replica.role = .leader := h.sameRole.role.trans h.wasLeader
  have hterm := h.sameRole.currentTerm
  have hlonger : (c.replicas i).log <+: o.replica.log := by
    rw [h.log]
    exact List.prefix_append _ _
  have hzero : (o.replica.progress 0).matchIndex = 0 := by
    rcases h.matchIndex 0 with heq | h0 | ⟨hne, -⟩
    · rw [heq]
      exact hinv.noReplicaZero i
    · have := hi.1
      omega
    · exact absurd rfl hne
  have hmatch : ∀ j, cfg.IsMember j → j ≠ i → MatchOk c o.replica j := by
    intro j hj hne
    unfold MatchOk
    rw [hterm]
    rcases h.matchIndex j with heq | heq | ⟨-, hack⟩
    · rw [heq]
      exact hinv.matched i h.wasLeader j hj hne
    · exact absurd heq hne
    · exact .inr hack
  have hcandidate : o.replica.role ≠ .candidate := by simp [hrole]
  refine ⟨hok, hlonger, ?_, ?_, fun hc => absurd hc hcandidate, fun hc => absurd hc hcandidate, ?_,
    fun _ => hmatch, hzero, ?_, h.applies⟩
  · rcases h.commit with heq | ⟨hlt, -⟩ <;> omega
  · intro m hm
    obtain ⟨ae, hae, -⟩ := h.sent m hm
    simp only [SentWell, hae]
  · intro _
    rw [hterm]
    exact (hinv.elections _ (hlog.recorded i h.wasLeader)).update.of_isPrefix hlonger
  · have hlast := hok.intact.last
    have hcommit := hok.intact.commit
    rcases h.commit with heq | ⟨hlt, hk, ht⟩
    · exact (hinv.commits i).update.of_compatible (.inl hlonger) heq.le (by omega)
    · exact ⟨by omega, .inr ⟨_, _, h.chosen hi hlog hinv hlt hmatch hzero hk ht, le_rfl,
        List.take_prefix _ _⟩⟩

/-- A candidate becomes leader. -/
theorem Elected.historyStep (h : Elected cfg c i o j)
    (hone : OneLeaderPerTerm (c.update i o)) : HistoryStep cfg c i o := by
  have hok := h.stepOk hlog hone
  have hcand := hinv.candidates i h.wasCandidate
  have hlonger : (c.replicas i).log <+: o.replica.log := by
    rw [h.log]
    exact List.prefix_append _ _
  have hcandidate : o.replica.role ≠ .candidate := by simp [h.role]
  have hne : 0 ≠ i := by
    have := hi.1
    omega
  refine ⟨hok, hlonger, h.commitIndex.ge, by simp [h.sent], fun hc => absurd hc hcandidate,
    fun hc => absurd hc hcandidate, ?_, ?_, ?_, ?_, by simp [AppliesCommitted, h.applied]⟩
  · -- the votes counted before and the last one
    intro _
    rw [h.currentTerm]
    refine .inr ⟨(c.replicas i).log, hlonger, hcand.termLt, insert j (c.replicas i).votes.toFinset,
      ?_, ?_, ?_⟩
    · intro k hk
      rw [Finset.mem_insert, List.mem_toFinset] at hk
      rcases hk with rfl | hk
      · exact Config.mem_members.2 h.member
      · exact Config.mem_members.2 (hcand.votes k hk).1
    · rw [Finset.card_insert_of_notMem (by simpa using h.newVote),
        List.toFinset_card_of_nodup hcand.nodup]
      exact h.quorum
    · intro k hk
      rw [Finset.mem_insert, List.mem_toFinset] at hk
      rcases hk with rfl | hk
      · obtain ⟨ballot, hb, hu⟩ := hinv.ballot_of_voted h.wasCandidate h.voted
        exact ⟨ballot, hb.update, hu⟩
      · obtain ⟨-, ballot, hb, hu⟩ := hcand.votes k hk
        exact ⟨ballot, hb.update, hu⟩
  · intro _ k hk hki
    have hm := (h.progress k hki).1
    rw [if_pos hk] at hm
    exact .inl hm
  · have hm := (h.progress 0 hne).1
    rw [hm]
    exact hinv.noReplicaZero i
  · have hlast := hok.intact.last
    have hcommit := hok.intact.commit
    exact (hinv.commits i).update.of_compatible (.inl hlonger) h.commitIndex.le (by omega)

end

/-- A replica that accepts a message from a leader whose log covers its own is covered afterwards,
so what it acknowledges and commits is the leader's. -/
theorem Accepts.historyStep {p : Packet} {ae : AppendEntries} (h : Accepts cfg c i o p ae)
    (hlog : LogInv cfg c) (hinv : HistoryInv cfg c)
    (hcov : c.Covers ae.term (c.replicas i).log) : HistoryStep cfg c i o := by
  have hok := h.stepOk hlog
  have hint := hlog.addressed.intact i
  have hae := hlog.appendEntries p h.sentPacket ae h.message
  obtain ⟨l, hl, hlt, hpre⟩ := hcov
  have hcomp : Compatible (c.replicas i).log p.srcLog :=
    (hlog.compatible l hl _ hae.recorded hlt).mono hpre (List.prefix_refl _)
  obtain ⟨rest, -, hd, hct, hlog', hrest, hcommit, hsent, happ⟩ :=
    receiveAppendEntries_accept hint (by rw [hlog.addressed.id]; exact h.notSelf) h.accepts hcomp
      hae.entries h.outcome
  have hlonger : (c.replicas i).log <+: o.replica.log := by
    rw [hlog']
    exact List.prefix_append _ _
  have hcov' : c.Covers ae.term o.replica.log := by
    rw [hlog']
    rcases hrest with rfl | hrest
    · rw [List.append_nil]
      exact ⟨l, hl, hlt, hpre⟩
    · exact ⟨_, hae.recorded, rfl, hrest⟩
  have hfollower := hd.role
  have hci := hint.commit
  have hci' := hok.intact.commit
  have hll := hint.last
  have hll' := hok.intact.last
  have hlen := hlonger.length_le
  refine ⟨hok, hlonger, ?_, ?_, by simp [hfollower], by simp [hfollower], by simp [hfollower],
    by simp [hfollower], ?_, ?_, happ⟩
  · rw [hcommit]
    split <;> omega
  · intro m hm
    rw [hsent, List.mem_singleton] at hm
    subst hm
    intro _
    rw [hct]
    exact hcov'.update
  · rw [hd.progress]
    exact hinv.noReplicaZero i
  · rw [hcommit] at hci' ⊢
    split
    · obtain ⟨l', hl', hlt', hpre'⟩ := hcov'
      have hcomp' : Compatible p.srcLog o.replica.log :=
        (hlog.compatible _ hae.recorded l' hl' hlt'.symm).mono (List.prefix_refl _) hpre'
      exact (hinv.leaderCommits p h.sentPacket ae h.message).update.of_compatible hcomp'
        (min_le_left _ _) (by omega)
    · exact (hinv.commits i).update.of_compatible (.inl hlonger) le_rfl (by omega)

/-- Every event keeps the history. -/
theorem HistoryInv.event {a : Action} (hinv : HistoryInv cfg c) (hlog : LogInv cfg c)
    (hi : cfg.IsMember i) (h : Event cfg c i o a) (hok : CoveredProbes c a)
    (hone : OneLeaderPerTerm (c.update i o)) : HistoryInv cfg (c.update i o) := by
  cases h with
  | quiet h | leads entries h => exact (h.historyStep hi hlog hinv).historyInv hinv
  | accepts k now p ae ha hk h =>
    subst ha
    refine (h.historyStep hlog hinv ?_).historyInv hinv
    by_cases hnil : ae.entries = []
    · have hcov := hok p hk
      simp only [Cluster.CoversProbe, h.message, h.dst] at hcov
      exact hcov hnil h.accepts
    · exact hlog.covers_of_accepts h hnil
  | elected j h => exact (h.historyStep hi hlog hinv hone).historyInv hinv

/-! ### Runs -/

theorem HistoryInv.start (cfg : Config) : HistoryInv cfg .start where
  acks := by
    rintro term j last log ⟨p, hp, -⟩
    simp [Cluster.start] at hp
  leaderLogs := by
    intro l hl
    obtain rfl : l = ⟨1, 1, [sentinel]⟩ := by
      simpa [Cluster.start, construct, Cluster.leaderLog] using hl
    exact List.prefix_refl _
  ballots := by
    rintro term j log ⟨p, hp, -⟩
    simp [Cluster.start] at hp
  order := by
    rintro term j log term' log' - ⟨p, hp, -⟩
    simp [Cluster.start] at hp
  requests := by simp [Cluster.start]
  grants := by simp [Cluster.start]
  candidates := by
    intro i hc
    by_cases h : i = 1 <;> simp [Cluster.start, construct, h] at hc
  elections := by
    intro l hl
    obtain rfl : l = ⟨1, 1, [sentinel]⟩ := by
      simpa [Cluster.start, construct, Cluster.leaderLog] using hl
    exact .inl rfl
  matched := by
    intro i _ j hj _
    have hj0 : j ≠ 0 := by
      have := hj.1
      omega
    exact .inl (by simp [Cluster.start, construct, hj0])
  noReplicaZero := fun i => by simp [Cluster.start, construct]
  commits := fun i => ⟨by simp [Cluster.start, construct], .inl rfl⟩
  leaderCommits := by simp [Cluster.start]
  applied := by simp [Cluster.start]

theorem HistoryInv.pending (h : HistoryInv cfg c) (pending : List (ℕ × ℕ)) :
    HistoryInv cfg { c with pending := pending } where
  acks := h.acks
  leaderLogs := h.leaderLogs
  ballots := h.ballots
  order := h.order
  requests := fun p hp rv hm =>
    let hok := h.requests p hp rv hm
    ⟨hok.lastLogIndex, hok.lastLogTerm, hok.candidate⟩
  grants := h.grants
  candidates := fun i hc =>
    let hok := h.candidates i hc
    ⟨hok.termLt, hok.nodup, hok.votes⟩
  elections := h.elections
  matched := h.matched
  noReplicaZero := h.noReplicaZero
  commits := h.commits
  leaderCommits := h.leaderCommits
  applied := h.applied

/-- **The invariant holds along every run that meets the condition.** -/
theorem HistoryInv.of_reachable (h : (clusterSystem cfg).Reachable CoveredProbes c)
    (hone : OneLeaderPerTerm c) : HistoryInv cfg c := by
  induction h with
  | init hs =>
    obtain rfl := hs
    exact HistoryInv.start cfg
  | step hr hok hs ih =>
    have hone' := hone.of_step hs
    have hlog := LogInv.of_reachable hr hone'
    obtain ⟨i, o, pending, hi, rfl, he⟩ := event_of_step hlog.addressed hlog.views hs
    exact ((ih hone').event hlog hi he hok hone).pending pending

end Raft
