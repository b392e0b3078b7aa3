/-
**Raft log matching.**

If the logs of two replicas hold entries of the same term at the same index, the two logs are the
same up to that index.  The entry of a term is created by the leader of that term, so the proof
follows every entry back to a log that the leader of its term has had: every beginning of a log that
ends in an entry of term `t` is the beginning of a log of the leader of `t` (`Raft.Cluster.Rooted`),
and the logs of one leader in one term extend one another.

The handler of `AppendEntries` skips entries up to its commit index without comparing them.  What
makes this harmless is on the leader's side: a leader sends entries to a follower only after the
follower has acknowledged, in the same term, a log that ends before them.  A follower that accepts
entries therefore already holds a beginning of the leader's log (`Raft.LogInv.covers_of_accepts`),
and its log is never truncated.

Main results:

* `Raft.LogInv` — the invariant, `Raft.LogInv.event` — its preservation;
* `Raft.log_matching` — log matching, in every run with one leader per term;
* `Raft.log_terms_sorted` — the terms of a log only grow.
-/

import ResilientDb.RaftEvents

set_option autoImplicit false

namespace Raft

open List (append_nil mem_append prefix_refl)
open Replica

variable {cfg : Config} {c c' : Cluster} {i : ℕ} {o : Outcome}

/-! ### Histories only grow -/

namespace Cluster

theorem replicas_update_self (c : Cluster) (i : ℕ) (o : Outcome) :
    (c.update i o).replicas i = o.replica := by
  simp [update]

variable {j : ℕ}

theorem replicas_update_of_ne (c : Cluster) (h : j ≠ i) (o : Outcome) :
    (c.update i o).replicas j = c.replicas j := by
  simp [update, h]

/-- What holds of the other replicas and of the new one. -/
theorem forall_replicas_update {P : ℕ → Replica → Prop} (h : ∀ j, j ≠ i → P j (c.replicas j))
    (hi : P i o.replica) (j : ℕ) : P j ((c.update i o).replicas j) := by
  by_cases hj : j = i
  · subst hj
    rw [replicas_update_self]
    exact hi
  · rw [replicas_update_of_ne c hj]
    exact h j hj

theorem mem_sent_update {p : Packet} : p ∈ (c.update i o).sent ↔
    p ∈ c.sent ∨ ∃ m ∈ o.sent, p = ⟨i, m.1, m.2, o.replica.log⟩ := by
  simp only [update, mem_append, List.mem_map]
  constructor
  · rintro (h | ⟨m, hm, rfl⟩)
    · exact .inl h
    · exact .inr ⟨m, hm, rfl⟩
  · rintro (h | ⟨m, hm, rfl⟩)
    · exact .inl h
    · exact .inr ⟨m, hm, rfl⟩

/-- The log of a leader is recorded in every step of the leader. -/
theorem mem_leaderLogs_update {l : LeaderLog} : l ∈ (c.update i o).leaderLogs ↔ l ∈ c.leaderLogs ∨
      (o.replica.role = .leader ∧ l = ⟨o.replica.currentTerm, o.replica.id, o.replica.log⟩) := by
  simp only [update, leaderLog, mem_append]
  split <;> simp_all

variable {term : ℕ} {log : List Entry}

theorem Covers.update (h : c.Covers term log) : (c.update i o).Covers term log := by
  obtain ⟨l, hl, ht, hp⟩ := h
  exact ⟨l, mem_leaderLogs_update.2 (.inl hl), ht, hp⟩

theorem AckedWith.update {last : ℕ} (h : c.AckedWith term j last log) :
    (c.update i o).AckedWith term j last log := by
  obtain ⟨p, hp, hrest⟩ := h
  exact ⟨p, mem_sent_update.2 (.inl hp), hrest⟩

theorem Acked.update {m : ℕ} (h : c.Acked term j m) : (c.update i o).Acked term j m :=
  h.imp_right fun ⟨last, log, ha, hl⟩ => ⟨last, log, ha.update, hl⟩

/-- Every beginning of the log that ends in an entry is the beginning of a log that the leader of
the entry's term has had. -/
def Rooted (c : Cluster) (log : List Entry) : Prop :=
  ∀ k e, 0 < k → log[k]? = some e → c.Covers e.term (log.take (k + 1))

theorem Rooted.update (h : c.Rooted log) : (c.update i o).Rooted log :=
  fun k e hk he => (h k e hk he).update

theorem Rooted.of_isPrefix {log' : List Entry} (h : c.Rooted log') (hp : log <+: log') :
    c.Rooted log := by
  intro k e hk he
  have hlt : k < log.length := (List.getElem?_eq_some_iff.1 he).1
  have htake : log.take (k + 1) = log'.take (k + 1) :=
    Compatible.take_eq (.inl hp) hlt (hlt.trans_le hp.length_le)
  rw [htake]
  exact h k e hk (getElem?_of_isPrefix hp he)

theorem Covers.of_isPrefix {log' : List Entry} (h : c.Covers term log')
    (hp : log <+: log') : c.Covers term log := by
  obtain ⟨l, hl, ht, hl'⟩ := h
  exact ⟨l, hl, ht, hp.trans hl'⟩

/-- Entries of one term keep a log rooted, if a leader has them. -/
theorem Rooted.append {entries : List Entry} (h : c.Rooted log)
    (ht : ∀ e ∈ entries, e.term = term) (hc : c.Covers term (log ++ entries)) :
    c.Rooted (log ++ entries) := by
  intro k e hk he
  by_cases hlt : k < log.length
  · rw [List.getElem?_append_left hlt] at he
    rw [List.take_append_of_le_length hlt]
    exact h k e hk he
  · rw [List.getElem?_append_right (not_lt.1 hlt)] at he
    rw [ht e (List.mem_of_getElem? he)]
    exact hc.of_isPrefix (List.take_prefix _ _)

end Cluster

theorem Replica.ViewOk.mono {acked acked' : ℕ → ℕ → Prop} {r : Replica}
    (h : r.ViewOk cfg acked) (hle : ∀ j m, acked j m → acked' j m) : r.ViewOk cfg acked' :=
  fun j hj hne =>
    let hok := h j hj hne
    ⟨hok.state, fun hs => hle _ _ (hok.acked hs), hok.next, hok.le⟩

/-! ### The invariant -/

/-- What is known about a log that a leader has had. -/
structure LeaderLogOk (c : Cluster) (l : LeaderLog) : Prop where
  pos : 1 ≤ l.term
  first : l.log[0]? = some sentinel
  termLe : ∀ e ∈ l.log, e.term ≤ l.term
  rooted : c.Rooted l.log
  past : l.term ≤ (c.replicas l.id).currentTerm
  candidate : (c.replicas l.id).role = .candidate → l.term < (c.replicas l.id).currentTerm

/-- An `AppendEntries` message is a slice of a log that its sender has had as leader, and holds
entries only if the recipient has acknowledged a log that ends before them. -/
structure AeOk (c : Cluster) (p : Packet) (ae : AppendEntries) : Prop where
  recorded : ⟨ae.term, p.src, p.srcLog⟩ ∈ c.leaderLogs
  prev : (p.srcLog[ae.prevLogIndex]?).map Entry.term = some ae.prevLogTerm
  entries : ae.entries <+: p.srcLog.drop (ae.prevLogIndex + 1)
  acked : ae.entries ≠ [] → c.Acked ae.term p.dst ae.prevLogIndex

/-- The invariant behind log matching. -/
structure LogInv (cfg : Config) (c : Cluster) : Prop where
  addressed : c.Addressed cfg
  views : c.ViewsOk cfg
  termLe : ∀ i, ∀ e ∈ (c.replicas i).log, e.term ≤ (c.replicas i).currentTerm
  rooted : ∀ i, c.Rooted (c.replicas i).log
  pos : ∀ i, (c.replicas i).role ≠ .follower → 1 ≤ (c.replicas i).currentTerm
  recorded : ∀ i, (c.replicas i).role = .leader →
    ⟨(c.replicas i).currentTerm, i, (c.replicas i).log⟩ ∈ c.leaderLogs
  latest : ∀ i, (c.replicas i).role = .leader → ∀ l ∈ c.leaderLogs,
    l.term = (c.replicas i).currentTerm → l.log <+: (c.replicas i).log
  leaderLogs : ∀ l ∈ c.leaderLogs, LeaderLogOk c l
  compatible : ∀ l ∈ c.leaderLogs, ∀ l' ∈ c.leaderLogs, l.term = l'.term →
    Compatible l.log l'.log
  appendEntries : ∀ p ∈ c.sent, ∀ ae, p.message = .appendEntries ae → AeOk c p ae
  ackTerm : ∀ term j last log, c.AckedWith term j last log → term ≤ (c.replicas j).currentTerm
  acks : ∀ j last log, c.AckedWith (c.replicas j).currentTerm j last log →
    c.Covers (c.replicas j).currentTerm (c.replicas j).log ∨ last = (c.replicas j).lastLogIndex

/-! ### One step -/

/-- What a step has to ensure about a message it sends. -/
def SentOk (c : Cluster) (i : ℕ) (o : Outcome) (m : ℕ × Message) : Prop :=
  match m.2 with
  | .appendEntries ae =>
    o.replica.role = .leader ∧ SliceOf o.replica ae ∧
      (ae.entries ≠ [] → c.Acked ae.term m.1 ae.prevLogIndex)
  | .appendEntriesResponse aer =>
    aer.id = i ∧ (aer.success = true →
      aer.term = o.replica.currentTerm ∧ aer.lastLogIndex = o.replica.lastLogIndex)
  | .requestVote rv => rv.candidateId = i
  | .requestVoteResponse rvr => rvr.voterId = i

/-- What a step has to ensure to keep the invariant. -/
structure StepOk (cfg : Config) (c : Cluster) (i : ℕ) (o : Outcome) : Prop where
  intact : o.replica.Intact
  id : o.replica.id = i
  term : (c.replicas i).currentTerm ≤ o.replica.currentTerm
  termLe : ∀ e ∈ o.replica.log, e.term ≤ o.replica.currentTerm
  rooted : (c.update i o).Rooted o.replica.log
  grows : o.replica.log = (c.replicas i).log ∨
    (c.update i o).Covers o.replica.currentTerm o.replica.log
  view : o.replica.role = .leader → o.replica.ViewOk cfg (c.Acked o.replica.currentTerm)
  pos : o.replica.role ≠ .follower → 1 ≤ o.replica.currentTerm
  latest : o.replica.role = .leader → ∀ l ∈ c.leaderLogs, l.term = o.replica.currentTerm →
    l.log <+: o.replica.log
  candidate : o.replica.role = .candidate → ∀ l ∈ c.leaderLogs, l.id = i →
    l.term < o.replica.currentTerm
  sent : ∀ m ∈ o.sent, cfg.IsMember m.1 ∧ SentOk c i o m

variable {log : List Entry}

theorem Cluster.ackedWith_update {term j last : ℕ} (h : (c.update i o).AckedWith term j last log) :
    c.AckedWith term j last log ∨ (j = i ∧ log = o.replica.log ∧ ∃ m ∈ o.sent, ∃ aer,
      m.2 = .appendEntriesResponse aer ∧ aer.success = true ∧ aer.term = term ∧
        aer.lastLogIndex = last) := by
  obtain ⟨p, hp, hsrc, hlog, hrest⟩ := h
  rcases mem_sent_update.1 hp with hp | ⟨m, hm, rfl⟩
  · exact .inl ⟨p, hp, hsrc, hlog, hrest⟩
  · exact .inr ⟨hsrc.symm, hlog.symm, m, hm, hrest⟩

namespace StepOk

section

variable (h : StepOk cfg c i o)
include h

theorem addressed (hi : cfg.IsMember i) (ha : c.Addressed cfg) : (c.update i o).Addressed cfg := by
  refine ⟨Cluster.forall_replicas_update (P := fun _ r => r.Intact) (fun j _ => ha.intact j) h.intact,
    Cluster.forall_replicas_update (P := fun j r => r.id = j) (fun j _ => ha.id j) h.id, ?_, ?_, ?_⟩
  · intro p hp
    rcases Cluster.mem_sent_update.1 hp with hp | ⟨m, hm, rfl⟩
    · exact ha.signed p hp
    · have hs := (h.sent m hm).2
      unfold SentOk at hs
      cases hmsg : m.2 with
      | appendEntries ae =>
        simp only [hmsg] at hs ⊢
        exact hs.2.1.leaderId.trans h.id
      | appendEntriesResponse aer =>
        simp only [hmsg] at hs ⊢
        exact hs.1
      | requestVote rv | requestVoteResponse rvr =>
        simp only [hmsg] at hs ⊢
        exact hs
  · intro p hp
    rcases Cluster.mem_sent_update.1 hp with hp | ⟨m, -, rfl⟩
    · exact ha.src p hp
    · exact hi
  · intro p hp
    rcases Cluster.mem_sent_update.1 hp with hp | ⟨m, hm, rfl⟩
    · exact ha.dst p hp
    · exact (h.sent m hm).1

theorem ackTerm (hinv : LogInv cfg c) {term j last : ℕ} {log : List Entry}
    (hack : (c.update i o).AckedWith term j last log) :
    term ≤ ((c.update i o).replicas j).currentTerm := by
  rcases Cluster.ackedWith_update hack with hack | ⟨rfl, -, m, hm, aer, hmsg, hs, rfl, -⟩
  · have hle := hinv.ackTerm term j last log hack
    by_cases hj : j = i
    · subst hj
      rw [Cluster.replicas_update_self]
      exact hle.trans h.term
    · rw [Cluster.replicas_update_of_ne c hj]
      exact hle
  · rw [Cluster.replicas_update_self]
    have hok := (h.sent m hm).2
    simp only [SentOk, hmsg] at hok
    exact (hok.2 hs).1.le

/-- An acknowledgement of the current term is covered by the log of the leader. -/
theorem acks (hinv : LogInv cfg c) {j last : ℕ} {log : List Entry}
    (hack : (c.update i o).AckedWith ((c.update i o).replicas j).currentTerm j last log) :
    (c.update i o).Covers ((c.update i o).replicas j).currentTerm ((c.update i o).replicas j).log ∨
      last = ((c.update i o).replicas j).lastLogIndex := by
  by_cases hj : j = i
  · subst hj
    rw [Cluster.replicas_update_self] at hack ⊢
    rcases Cluster.ackedWith_update hack with hack | ⟨-, -, m, hm, aer, hmsg, hs, -, rfl⟩
    · -- an old acknowledgement of the current term: the term has not changed
      have hterm : (c.replicas j).currentTerm = o.replica.currentTerm :=
        le_antisymm h.term (hinv.ackTerm _ _ _ _ hack)
      rcases h.grows with hsame | hcov
      · rw [← hterm] at hack
        rcases hinv.acks j last log hack with hcov | hlast
        · left
          rw [hsame, ← hterm]
          exact hcov.update
        · have h₁ := h.intact.last
          have h₂ := (hinv.addressed.intact j).last
          rw [hsame] at h₁
          omega
      · exact .inl hcov
    · right
      have hok := (h.sent m hm).2
      simp only [SentOk, hmsg] at hok
      exact (hok.2 hs).2
  · rw [Cluster.replicas_update_of_ne c hj] at hack ⊢
    rcases Cluster.ackedWith_update hack with hack | ⟨rfl, -⟩
    · exact (hinv.acks j last log hack).imp_left Cluster.Covers.update
    · exact absurd rfl hj

/-- The logs of leaders only grow within a term. -/
theorem leaderLogOk (hinv : LogInv cfg c) {l : LeaderLog}
    (hl : l ∈ (c.update i o).leaderLogs) : LeaderLogOk (c.update i o) l := by
  rcases Cluster.mem_leaderLogs_update.1 hl with hl | ⟨hrole, rfl⟩
  · have hok := hinv.leaderLogs l hl
    refine ⟨hok.pos, hok.first, hok.termLe, hok.rooted.update, ?_, ?_⟩
    · by_cases hj : l.id = i
      · rw [hj, Cluster.replicas_update_self]
        have := hok.past
        rw [hj] at this
        exact this.trans h.term
      · rw [Cluster.replicas_update_of_ne c hj]
        exact hok.past
    · by_cases hj : l.id = i
      · rw [hj, Cluster.replicas_update_self]
        exact fun hc => h.candidate hc l hl hj
      · rw [Cluster.replicas_update_of_ne c hj]
        exact hok.candidate
  · refine ⟨h.pos (by simp [hrole]), h.intact.first, h.termLe, h.rooted, ?_, ?_⟩
    · simp only [h.id, Cluster.replicas_update_self, le_refl]
    · intro hc
      simp only [h.id, Cluster.replicas_update_self, hrole] at hc
      cases hc

/-- **A step that is in order keeps the invariant.** -/
theorem logInv (hi : cfg.IsMember i) (hinv : LogInv cfg c)
    (hone : OneLeaderPerTerm (c.update i o)) : LogInv cfg (c.update i o) where
  addressed := h.addressed hi hinv.addressed
  views :=
    Cluster.forall_replicas_update
      (P := fun _ r => r.role = .leader → r.ViewOk cfg ((c.update i o).Acked r.currentTerm))
      (fun j _ hl => (hinv.views j hl).mono fun _ _ => Cluster.Acked.update)
      (fun hl => (h.view hl).mono fun _ _ => Cluster.Acked.update)
  termLe :=
    Cluster.forall_replicas_update (P := fun _ r => ∀ e ∈ r.log, e.term ≤ r.currentTerm)
      (fun j _ => hinv.termLe j) h.termLe
  rooted :=
    Cluster.forall_replicas_update (P := fun _ r => (c.update i o).Rooted r.log)
      (fun j _ => (hinv.rooted j).update) h.rooted
  pos :=
    Cluster.forall_replicas_update (P := fun _ r => r.role ≠ .follower → 1 ≤ r.currentTerm)
      (fun j _ => hinv.pos j) h.pos
  recorded :=
    Cluster.forall_replicas_update
      (P := fun j r => r.role = .leader → ⟨r.currentTerm, j, r.log⟩ ∈ (c.update i o).leaderLogs)
      (fun j _ hl => Cluster.mem_leaderLogs_update.2 (.inl (hinv.recorded j hl)))
      (fun hl => Cluster.mem_leaderLogs_update.2 (.inr ⟨hl, by rw [h.id]⟩))
  latest := by
    refine Cluster.forall_replicas_update
      (P := fun j r => r.role = .leader → ∀ l ∈ (c.update i o).leaderLogs,
        l.term = r.currentTerm → l.log <+: r.log) ?_ ?_
    · intro j hj hl l hmem ht
      rcases Cluster.mem_leaderLogs_update.1 hmem with hmem | ⟨hrole, rfl⟩
      · exact hinv.latest j hl l hmem ht
      · -- two leaders of one term
        have hrec : ⟨(c.replicas j).currentTerm, j, (c.replicas j).log⟩ ∈
            (c.update i o).leaderLogs :=
          Cluster.mem_leaderLogs_update.2 (.inl (hinv.recorded j hl))
        have hid : o.replica.id = j := hone _ hmem _ hrec ht
        exact absurd (hid.symm.trans h.id) hj
    · intro hl l hmem ht
      rcases Cluster.mem_leaderLogs_update.1 hmem with hmem | ⟨-, rfl⟩
      · exact h.latest hl l hmem ht
      · exact prefix_refl _
  leaderLogs := fun l hl => h.leaderLogOk hinv hl
  compatible := by
    intro l hl l' hl' ht
    rcases Cluster.mem_leaderLogs_update.1 hl with hl | ⟨hrole, rfl⟩
    · rcases Cluster.mem_leaderLogs_update.1 hl' with hl' | ⟨hrole, rfl⟩
      · exact hinv.compatible l hl l' hl' ht
      · exact .inl (h.latest hrole l hl ht)
    · rcases Cluster.mem_leaderLogs_update.1 hl' with hl' | ⟨-, rfl⟩
      · exact .inr (h.latest hrole l' hl' ht.symm)
      · exact .inl (prefix_refl _)
  appendEntries := by
    intro p hp ae hm
    rcases Cluster.mem_sent_update.1 hp with hp | ⟨m, hmem, rfl⟩
    · have hok := hinv.appendEntries p hp ae hm
      exact ⟨Cluster.mem_leaderLogs_update.2 (.inl hok.recorded), hok.prev, hok.entries,
        fun hne => (hok.acked hne).update⟩
    · have hok := (h.sent m hmem).2
      simp only at hm
      simp only [SentOk, hm] at hok
      obtain ⟨hrole, hslice, hacked⟩ := hok
      refine ⟨Cluster.mem_leaderLogs_update.2 (.inr ⟨hrole, ?_⟩), hslice.prev, hslice.entries,
        fun hne => (hacked hne).update⟩
      rw [hslice.term, h.id]
  ackTerm := fun _ _ _ _ hack => h.ackTerm hinv hack
  acks := fun _ _ _ hack => h.acks hinv hack

end

end StepOk

/-! ### Rooted logs match -/

/-- **Two rooted logs match.** -/
theorem LogInv.take_eq (hinv : LogInv cfg c) {log' : List Entry} (h : c.Rooted log)
    (h' : c.Rooted log') {k : ℕ} (hk : 0 < k) {e e' : Entry} (he : log[k]? = some e)
    (he' : log'[k]? = some e') (ht : e.term = e'.term) : log.take (k + 1) = log'.take (k + 1) := by
  obtain ⟨l, hl, hlt, hp⟩ := h k e hk he
  obtain ⟨l', hl', hlt', hp'⟩ := h' k e' hk he'
  have hc := hinv.compatible l hl l' hl' (hlt.trans (ht.trans hlt'.symm))
  have hlen : k + 1 ≤ log.length := (List.getElem?_eq_some_iff.1 he).1
  have hlen' : k + 1 ≤ log'.length := (List.getElem?_eq_some_iff.1 he').1
  have heq := (hc.mono hp hp').take_eq (k := k + 1) (by simp [hlen]) (by simp [hlen'])
  rwa [List.take_take, List.take_take, min_self] at heq

theorem Replica.Intact.prefix_of_single {r : Replica} (h : r.Intact) (h0 : r.lastLogIndex = 0)
    (hl : log[0]? = some sentinel) : r.log <+: log := by
  have hlen : r.log.length = 1 := by
    have := h.last
    omega
  obtain ⟨e, he⟩ := List.length_eq_one_iff.1 hlen
  have hfirst := h.first
  rw [he] at hfirst ⊢
  obtain rfl : e = sentinel := by simpa using hfirst
  cases log with
  | nil => simp at hl
  | cons a t =>
    obtain rfl : a = sentinel := by simpa using hl
    exact List.prefix_append [sentinel] t

variable (hinv : LogInv cfg c)
include hinv

/-- **A replica that accepts entries holds a beginning of the leader's log.**  Either it has
acknowledged a log of that term before, and not changed since, so that the test of the previous
entry looks at the last entry of its log; or its log has been covered since then; or the term is the
first one, in which there are no other logs. -/
theorem LogInv.covers_of_accepts {p : Packet} {ae : AppendEntries}
    (h : Accepts cfg c i o p ae) (hne : ae.entries ≠ []) : c.Covers ae.term (c.replicas i).log := by
  have hint := hinv.addressed.intact i
  obtain ⟨hterm, hprev, hmatch⟩ := (accepts_iff hint).1 h.accepts
  have hae := hinv.appendEntries p h.sentPacket ae h.message
  have hleader := hinv.leaderLogs _ hae.recorded
  have hsingle : (c.replicas i).lastLogIndex = 0 → c.Covers ae.term (c.replicas i).log :=
    fun h0 => ⟨_, hae.recorded, rfl, hint.prefix_of_single h0 hleader.first⟩
  have hlast := hint.last
  have hacked := hae.acked hne
  rw [h.dst] at hacked
  rcases hacked with hone | ⟨last, log, hack, hle⟩
  · -- in term 1 every entry of the log is of term 1
    by_cases h0 : (c.replicas i).lastLogIndex = 0
    · exact hsingle h0
    · have hlt : (c.replicas i).lastLogIndex < (c.replicas i).log.length := by omega
      obtain ⟨l, hl, hlt', hpre⟩ := hinv.rooted i _ _ (Nat.pos_of_ne_zero h0)
        (List.getElem?_eq_getElem hlt)
      rw [List.take_of_length_le (by omega)] at hpre
      have hpos := (hinv.leaderLogs l hl).pos
      have hent := hinv.termLe i _ (List.getElem_mem hlt)
      exact ⟨l, hl, by omega, hpre⟩
  · have hcur : ae.term = (c.replicas i).currentTerm :=
      le_antisymm (hinv.ackTerm _ _ _ _ hack) hterm
    rw [hcur] at hack
    rcases hinv.acks i last log hack with hcov | hlast'
    · rwa [hcur]
    · by_cases h0 : (c.replicas i).lastLogIndex = 0
      · exact hsingle h0
      · rcases hmatch with hz | hmatch
        · omega
        · obtain ⟨e, he, het⟩ := Option.map_eq_some_iff.1 hmatch
          obtain ⟨e', he', het'⟩ := Option.map_eq_some_iff.1 hae.prev
          have htake := hinv.take_eq (hinv.rooted i) hleader.rooted (by omega) he he'
            (het.trans het'.symm)
          rw [List.take_of_length_le (by omega)] at htake
          exact ⟨_, hae.recorded, rfl, htake ▸ List.take_prefix _ _⟩

/-! ### The four events -/

/-- A step that leaves the logs alone. -/
theorem Quiet.stepOk (h : Quiet cfg c i o) : StepOk cfg c i o where
  intact := (hinv.addressed.intact i).of_sameLog h.sameLog
  id := h.id
  term := h.term
  termLe := by
    intro e he
    rw [h.sameLog.log] at he
    exact (hinv.termLe i e he).trans h.term
  rooted := by
    rw [h.sameLog.log]
    exact (hinv.rooted i).update
  grows := .inl h.sameLog.log
  view := by
    intro hl j hj hne
    obtain ⟨hl', ht⟩ := h.leader hl
    rw [h.id] at hne
    rw [ht, h.progress j hne, h.sameLog.lastLogIndex]
    exact hinv.views i hl' j hj (by rw [hinv.addressed.id]; exact hne)
  pos := by
    intro hnf
    cases hrole : o.replica.role with
    | follower => exact absurd hrole hnf
    | candidate =>
      rcases h.candidate hrole with ⟨hc, ht, -⟩ | ⟨hlt, -⟩
      · rw [ht]
        exact hinv.pos i (by simp [hc])
      · omega
    | leader =>
      obtain ⟨hl, ht⟩ := h.leader hrole
      rw [ht]
      exact hinv.pos i (by simp [hl])
  latest := by
    intro hl l hmem ht
    obtain ⟨hl', ht'⟩ := h.leader hl
    rw [h.sameLog.log]
    exact hinv.latest i hl' l hmem (ht.trans ht')
  candidate := by
    intro hc l hmem hid
    have hok := hinv.leaderLogs l hmem
    subst hid
    rcases h.candidate hc with ⟨hc', ht, -⟩ | ⟨hlt, -⟩
    · rw [ht]
      exact hok.candidate hc'
    · exact hok.past.trans_lt hlt
  sent := by
    intro m hm
    obtain ⟨hmem, hq⟩ := h.sent m hm
    refine ⟨hmem, ?_⟩
    unfold QuietMessage at hq
    unfold SentOk
    cases hmsg : m.2 with
    | appendEntries ae => simp only [hmsg] at hq
    | appendEntriesResponse aer =>
      simp only [hmsg] at hq ⊢
      exact ⟨hq.2.1, fun hs => absurd (hq.1.symm.trans hs) (by simp)⟩
    | requestVote rv | requestVoteResponse rvr =>
      simp only [hmsg] at hq ⊢
      exact hq.1

/-- A leader appends to its own log. -/
theorem Leads.stepOk {entries : List Entry} (h : Leads cfg c i o entries) : StepOk cfg c i o := by
  have hrole : o.replica.role = .leader := h.sameRole.role.trans h.wasLeader
  have hterm := h.sameRole.currentTerm
  have hid : o.replica.id = i := h.sameRole.id.trans (hinv.addressed.id i)
  have hcov : (c.update i o).Covers o.replica.currentTerm o.replica.log :=
    ⟨_, Cluster.mem_leaderLogs_update.2 (.inr ⟨hrole, rfl⟩), rfl, prefix_refl _⟩
  refine ⟨h.intact, hid, hterm.ge, ?_, ?_, .inr hcov, ?_, ?_, ?_, ?_, ?_⟩
  · intro e he
    rw [h.log, mem_append] at he
    rw [hterm]
    rcases he with he | he
    · exact hinv.termLe i e he
    · exact (h.entries e he).le
  · rw [h.log]
    rw [h.log, hterm] at hcov
    exact (hinv.rooted i).update.append h.entries hcov
  · intro _
    rw [hterm]
    exact h.viewOk
  · intro _
    rw [hterm]
    exact hinv.pos i (by simp [h.wasLeader])
  · intro _ l hl ht
    rw [h.log]
    exact (hinv.latest i h.wasLeader l hl (ht.trans hterm)).trans (List.prefix_append _ _)
  · intro hc
    rw [hrole] at hc
    cases hc
  · intro m hm
    obtain ⟨ae, hae, hslice, hmem, hacked⟩ := h.sent m hm
    refine ⟨hmem, ?_⟩
    simp only [SentOk, hae]
    refine ⟨hrole, hslice, ?_⟩
    rw [hslice.term, hterm]
    exact hacked

/-- A new leader starts with the log of the candidate. -/
theorem Elected.stepOk {j : ℕ} (h : Elected cfg c i o j)
    (hone : OneLeaderPerTerm (c.update i o)) : StepOk cfg c i o := by
  have hrec : ⟨o.replica.currentTerm, o.replica.id, o.replica.log⟩ ∈ (c.update i o).leaderLogs :=
    Cluster.mem_leaderLogs_update.2 (.inr ⟨h.role, rfl⟩)
  have hcov : (c.update i o).Covers o.replica.currentTerm o.replica.log :=
    ⟨_, hrec, rfl, prefix_refl _⟩
  have hterm := h.currentTerm
  refine ⟨h.intact, h.id, hterm.ge, ?_, ?_, .inr hcov, ?_, ?_, ?_, ?_, by simp [h.sent]⟩
  · intro e he
    rw [h.log, mem_append, List.mem_singleton] at he
    rw [hterm]
    rcases he with he | rfl
    · exact hinv.termLe i e he
    · exact le_rfl
  · rw [h.log]
    rw [h.log, hterm] at hcov
    exact (hinv.rooted i).update.append (by simp) hcov
  · intro _ k hk hne
    rw [h.id] at hne
    obtain ⟨hmatch, hprog⟩ := h.progress k hne
    obtain ⟨hstate, hnext⟩ := hprog hk
    rw [if_pos hk] at hmatch
    exact ⟨by simp [hstate], by simp [hstate], by omega, by omega⟩
  · intro _
    rw [hterm]
    exact hinv.pos i (by simp [h.wasCandidate])
  · -- a candidate has not led its term before, and no one else has either
    intro _ l hl ht
    have hid : l.id = o.replica.id :=
      hone l (Cluster.mem_leaderLogs_update.2 (.inl hl)) _ hrec ht
    rw [h.id] at hid
    have hlt := (hinv.leaderLogs l hl).candidate (by rw [hid]; exact h.wasCandidate)
    rw [hid] at hlt
    omega
  · intro hc
    rw [h.role] at hc
    cases hc

/-- A follower takes over a part of the log of the leader. -/
theorem Accepts.stepOk {p : Packet} {ae : AppendEntries}
    (h : Accepts cfg c i o p ae) : StepOk cfg c i o := by
  have hint := hinv.addressed.intact i
  have hid := hinv.addressed.id i
  have hae := hinv.appendEntries p h.sentPacket ae h.message
  have hterm := ((accepts_iff hint).1 h.accepts).1
  -- without entries the log stays as it is, with entries it is covered before and after
  obtain ⟨rest, hint', hd, hct, hlog, hcov, hsent⟩ : ∃ rest, o.replica.Intact ∧
      Demoted (c.replicas i) o.replica ∧ o.replica.currentTerm = ae.term ∧
      o.replica.log = (c.replicas i).log ++ rest ∧ (rest = [] ∨ c.Covers ae.term o.replica.log) ∧
      o.sent = [(ae.leaderId, .appendEntriesResponse
        ⟨ae.term, true, (c.replicas i).id, o.replica.lastLogIndex, 0, 0⟩)] := by
    have hne : ae.leaderId ≠ (c.replicas i).id := by
      rw [hid]
      exact h.notSelf
    by_cases hnil : ae.entries = []
    · obtain ⟨rest, h₁, h₂, h₃, h₄, h₅, -, h₇, -⟩ := receiveAppendEntries_accept hint hne h.accepts
        (.inl (prefix_refl _)) (by rw [hnil]; exact List.nil_prefix) h.outcome
      refine ⟨rest, h₁, h₂, h₃, h₄, .inl ?_, h₇⟩
      rcases h₅ with h₅ | h₅
      · exact h₅
      · have := h₅.length_le
        simpa using this
    · obtain ⟨l, hl, hlt, hpre⟩ := hinv.covers_of_accepts h hnil
      have hcomp : Compatible (c.replicas i).log p.srcLog :=
        (hinv.compatible l hl _ hae.recorded hlt).mono hpre (prefix_refl _)
      obtain ⟨rest, h₁, h₂, h₃, h₄, h₅, -, h₇, -⟩ := receiveAppendEntries_accept hint hne h.accepts
        hcomp hae.entries h.outcome
      refine ⟨rest, h₁, h₂, h₃, h₄, .inr ?_, h₇⟩
      rcases h₅ with rfl | h₅
      · rw [h₄, append_nil]
        exact ⟨l, hl, hlt, hpre⟩
      · rw [h₄]
        exact ⟨_, hae.recorded, rfl, h₅⟩
  have hfollower := hd.role
  refine ⟨hint', hd.id.trans hid, hd.term_le, ?_, ?_, ?_, ?_, ?_, ?_, ?_, ?_⟩
  · intro e he
    rw [hct]
    rcases hcov with rfl | ⟨l, hl, hlt, hpre⟩
    · rw [hlog, append_nil] at he
      exact (hinv.termLe i e he).trans hterm
    · rw [← hlt]
      exact (hinv.leaderLogs l hl).termLe e (hpre.subset he)
  · rcases hcov with rfl | ⟨l, hl, -, hpre⟩
    · rw [hlog, append_nil]
      exact (hinv.rooted i).update
    · exact ((hinv.leaderLogs l hl).rooted.of_isPrefix hpre).update
  · rcases hcov with rfl | hcov
    · exact .inl (by rw [hlog, append_nil])
    · rw [hct]
      exact .inr hcov.update
  · intro hl
    rw [hfollower] at hl
    cases hl
  · exact fun hnf => absurd hfollower hnf
  · intro hl
    rw [hfollower] at hl
    cases hl
  · intro hc
    rw [hfollower] at hc
    cases hc
  · intro m hm
    rw [hsent, List.mem_singleton] at hm
    subst hm
    refine ⟨?_, hid, fun _ => ⟨hct.symm, rfl⟩⟩
    have hsigned := hinv.addressed.signed p h.sentPacket
    rw [Cluster.Signed, h.message] at hsigned
    rw [hsigned]
    exact hinv.addressed.src p h.sentPacket

variable {a : Action}

theorem LogInv.event (hi : cfg.IsMember i)
    (h : Event cfg c i o a) (hone : OneLeaderPerTerm (c.update i o)) : LogInv cfg (c.update i o) := by
  cases h with
  | quiet h | leads entries h | accepts k now p ae _ _ h =>
    exact (h.stepOk hinv).logInv hi hinv hone
  | elected j h => exact (h.stepOk hinv hone).logInv hi hinv hone

omit hinv

/-! ### Runs -/

theorem LogInv.start (cfg : Config) : LogInv cfg .start where
  addressed := ⟨intact_construct, fun _ => rfl, by simp [Cluster.start], by simp [Cluster.start],
    by simp [Cluster.start]⟩
  views := by
    intro i hl j hj hne
    obtain rfl : i = 1 := by
      by_contra h
      simp [Cluster.start, construct, h] at hl
    have hj0 : j ≠ 0 := by
      have := hj.1
      omega
    refine ⟨?_, fun _ => .inl ?_, ?_, ?_⟩ <;> simp [Cluster.start, construct, hj0]
  termLe := by
    intro i e he
    obtain rfl : e = sentinel := by simpa [Cluster.start, construct] using he
    exact Nat.zero_le _
  rooted := by
    intro i k e hk he
    have := (List.getElem?_eq_some_iff.1 he).1
    simp [Cluster.start, construct] at this
    omega
  pos := by
    intro i hnf
    by_cases h : i = 1 <;> simp_all [Cluster.start, construct]
  recorded := by
    intro i hl
    obtain rfl : i = 1 := by
      by_contra h
      simp [Cluster.start, construct, h] at hl
    simp [Cluster.start, construct, Cluster.leaderLog]
  latest := by
    intro i hl l hmem _
    obtain rfl : l = ⟨1, 1, [sentinel]⟩ := by
      simpa [Cluster.start, construct, Cluster.leaderLog] using hmem
    exact prefix_refl _
  leaderLogs := by
    intro l hmem
    obtain rfl : l = ⟨1, 1, [sentinel]⟩ := by
      simpa [Cluster.start, construct, Cluster.leaderLog] using hmem
    refine ⟨le_rfl, rfl, by simp [sentinel], ?_, by simp [Cluster.start, construct],
      by simp [Cluster.start, construct]⟩
    intro k e hk he
    have := (List.getElem?_eq_some_iff.1 he).1
    simp at this
    omega
  compatible := by
    intro l hl l' hl' _
    have hl₁ : l = ⟨1, 1, [sentinel]⟩ := by
      simpa [Cluster.start, construct, Cluster.leaderLog] using hl
    have hl₂ : l' = ⟨1, 1, [sentinel]⟩ := by
      simpa [Cluster.start, construct, Cluster.leaderLog] using hl'
    rw [hl₁, hl₂]
    exact .inl (prefix_refl _)
  appendEntries := by simp [Cluster.start]
  ackTerm := by
    rintro term j last log ⟨p, hp, -⟩
    simp [Cluster.start] at hp
  acks := by
    rintro j last log ⟨p, hp, -⟩
    simp [Cluster.start] at hp

theorem LogInv.pending (h : LogInv cfg c) (pending : List (ℕ × ℕ)) :
    LogInv cfg { c with pending := pending } where
  addressed := ⟨h.addressed.intact, h.addressed.id, h.addressed.signed, h.addressed.src,
    h.addressed.dst⟩
  views := h.views
  termLe := h.termLe
  rooted := h.rooted
  pos := h.pos
  recorded := h.recorded
  latest := h.latest
  leaderLogs := fun l hl =>
    let hok := h.leaderLogs l hl
    ⟨hok.pos, hok.first, hok.termLe, hok.rooted, hok.past, hok.candidate⟩
  compatible := h.compatible
  appendEntries := fun p hp ae hm =>
    let hok := h.appendEntries p hp ae hm
    ⟨hok.recorded, hok.prev, hok.entries, hok.acked⟩
  ackTerm := h.ackTerm
  acks := h.acks

/-- A step keeps the invariant, as long as no term has two leaders. -/
theorem LogInv.step (hinv : LogInv cfg c) (hs : c.step cfg a = some c')
    (hone : OneLeaderPerTerm c') : LogInv cfg c' := by
  obtain ⟨i, o, pending, hi, rfl, he⟩ := event_of_step hinv.addressed hinv.views hs
  exact (hinv.event hi he hone).pending pending

/-- What leaders had is not forgotten. -/
theorem Cluster.leaderLogs_subset_of_step (hs : c.step cfg a = some c') :
    c.leaderLogs ⊆ c'.leaderLogs := by
  have hupdate : ∀ i o, c.leaderLogs ⊆ (c.update i o).leaderLogs :=
    fun i o l hl => mem_leaderLogs_update.2 (.inl hl)
  cases a <;> simp only [Cluster.step, bind, Option.bind_eq_some_iff] at hs
  case receiveTransaction i serialized now =>
    obtain ⟨-, -, ⟨o, _⟩, -, hs⟩ := hs
    cases hs
    exact hupdate i o
  case finishTransaction i myLogIndex =>
    obtain ⟨-, -, -, -, hs⟩ := hs
    cases hs
    exact hupdate i _
  case deliver k now =>
    obtain ⟨p, -, o, -, hs⟩ := hs
    cases hs
    exact hupdate p.dst o
  case startElection i | sendHeartbeat i now =>
    obtain ⟨-, -, o, -, hs⟩ := hs
    cases hs
    exact hupdate i o

theorem OneLeaderPerTerm.of_step (hone : OneLeaderPerTerm c')
    (hs : c.step cfg a = some c') : OneLeaderPerTerm c :=
  fun l hl l' hl' => hone l (Cluster.leaderLogs_subset_of_step hs hl) l'
    (Cluster.leaderLogs_subset_of_step hs hl')

theorem LogInv.of_reachable {ok : Cluster → Action → Prop}
    (h : (clusterSystem cfg).Reachable ok c) (hone : OneLeaderPerTerm c) : LogInv cfg c := by
  induction h with
  | init hs =>
    obtain rfl := hs
    exact LogInv.start cfg
  | step _ _ hs ih => exact (ih (hone.of_step hs)).step hs hone

/-- **Raft log matching.**  In every run with at most one leader per term, two logs that hold entries
of the same term at the same index are the same up to that index. -/
theorem log_matching (h : (clusterSystem cfg).Reachable TransitionSystem.always c)
    (hone : OneLeaderPerTerm c) : LogMatching cfg c := by
  have hinv := LogInv.of_reachable h hone
  intro i j _ _ k e e' he he' ht
  by_cases hk : k = 0
  · subst hk
    have h₁ := (hinv.addressed.intact i).first
    have h₂ := (hinv.addressed.intact j).first
    rw [List.take_one, List.take_one, List.head?_eq_getElem?, List.head?_eq_getElem?, h₁, h₂]
  · exact hinv.take_eq (hinv.rooted i) (hinv.rooted j) (Nat.pos_of_ne_zero hk) he he' ht

/-- The leader appends a transaction, and both followers accept it. -/
def replicatedRun : List Action :=
  [.receiveTransaction 1 "a" stillClock, .deliver 0 stillClock, .deliver 1 stillClock]

theorem log_matching_replicatedRun :
    ∃ c, clusterAfter replicatedRun = some c ∧ OneLeaderPerTerm c ∧
      (c.replicas 2).log = [sentinel, ⟨1, "a"⟩] ∧ LogMatching threeReplicas c := by
  obtain ⟨c, hc, hreach, hone, hlog⟩ := (clusterSystem threeReplicas).exists_run
    (P := fun c => OneLeaderPerTerm c ∧ (c.replicas 2).log = [sentinel, ⟨1, "a"⟩]) replicatedRun rfl
    (TransitionSystem.guarded_always _ _) (by decide +kernel)
  exact ⟨c, hc, hone, hlog, log_matching hreach hone⟩

/-- **The terms of a log.**  In every run with at most one leader per term, the terms of a log do not
decrease, and the last one is at most the current term. -/
theorem log_terms_sorted (h : (clusterSystem cfg).Reachable TransitionSystem.always c)
    (hone : OneLeaderPerTerm c) (i : ℕ) :
    ((c.replicas i).log.Pairwise fun e e' => e.term ≤ e'.term) ∧
      ∀ e ∈ (c.replicas i).log, e.term ≤ (c.replicas i).currentTerm := by
  have hinv := LogInv.of_reachable h hone
  refine ⟨List.pairwise_iff_getElem.2 fun m k hm hk hlt => ?_, hinv.termLe i⟩
  -- the leader that created the later entry had the earlier one in its log
  obtain ⟨l, hl, ht, hp⟩ := hinv.rooted i k _ (by omega) (List.getElem?_eq_getElem hk)
  rw [← ht]
  refine (hinv.leaderLogs l hl).termLe _ (hp.subset ?_)
  exact List.mem_of_getElem? ((List.getElem?_take_of_lt (by omega)).trans
    (List.getElem?_eq_getElem hm))

theorem log_terms_sorted_replicatedRun : ∃ c, clusterAfter replicatedRun = some c ∧
    (c.replicas 2).log = [sentinel, ⟨1, "a"⟩] ∧
      (c.replicas 2).log.Pairwise fun e e' => e.term ≤ e'.term := by
  obtain ⟨c, hc, hreach, hone, hlog⟩ := (clusterSystem threeReplicas).exists_run
    (P := fun c => OneLeaderPerTerm c ∧ (c.replicas 2).log = [sentinel, ⟨1, "a"⟩]) replicatedRun rfl
    (TransitionSystem.guarded_always _ _) (by decide +kernel)
  exact ⟨c, hc, hlog, (log_terms_sorted hreach hone 2).1⟩

end Raft
