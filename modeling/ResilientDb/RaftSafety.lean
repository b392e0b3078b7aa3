/-
**Raft state-machine safety.**

No two replicas execute different requests for one log index, in every run where each probe reaches
a replica that the leader's log covers.  The argument is the usual one: a leader commits an entry of
its own term that a quorum holds; the leaders of later terms were elected by quorums, so a voter of
each of them held the entry, and the vote rule leaves the entry in the log of the leader it voted
for (`Raft.HistoryInv.leader_completeness`).

Without the condition both this and the soundness of `match_index` fail.  An accepted probe without
entries is answered with the follower's whole last index and raises its commit index to the
leader's, although only the entry before the probe was compared.

Main results:

* `Raft.HistoryInv.leader_completeness` — a chosen entry is in the log of every later leader;
* `Raft.state_machine_safety`, `Raft.match_index_sound` — the two properties;
* `Raft.committed_in_latest_leader` — no later leader lacks what a replica has committed;
* `Raft.state_machine_safety_fails`, `Raft.match_index_sound_fails` — runs that break them.
-/

import ResilientDb.RaftHistory

set_option autoImplicit false

namespace Raft

open Replica

variable {cfg : Config} {c : Cluster}

/-! ### The last entry of a log -/

theorem exists_lastEntry (log : List Entry) (h : 0 < log.length) :
    ∃ e, log[log.length - 1]? = some e ∧ lastTerm log = e.term := by
  refine ⟨log[log.length - 1], List.getElem?_eq_getElem (by omega), ?_⟩
  rw [lastTerm, List.getLast?_eq_getElem?, List.getElem?_eq_getElem (by omega), Option.map_some,
    Option.getD_some]

variable {log : List Entry}

theorem Cluster.Rooted.covers (h : c.Rooted log) (hlen : 1 < log.length) :
    c.Covers (lastTerm log) log := by
  obtain ⟨e, he, ht⟩ := exists_lastEntry log (by omega)
  have hcov := h (log.length - 1) e (by omega) he
  rwa [← ht, List.take_of_length_le (by omega)] at hcov

variable {k : ℕ} {e : Entry}

theorem LogInv.le_lastTerm (hlog : LogInv cfg c) (h : c.Rooted log)
    (hk : 0 < k) (he : log[k]? = some e) : e.term ≤ lastTerm log := by
  have hlen := (List.getElem?_eq_some_iff.1 he).1
  obtain ⟨l, hl, ht, hp⟩ := h.covers (by omega)
  rw [← ht]
  exact (hlog.leaderLogs l hl).termLe e (hp.subset (List.mem_of_getElem? he))

theorem one_lt_length_of_lastTerm (hfirst : ∀ e, log[0]? = some e → e = sentinel)
    (h : lastTerm log ≠ 0) : 1 < log.length := by
  by_contra hle
  rcases Nat.lt_or_ge 0 log.length with hpos | hnil
  · obtain ⟨e, he, ht⟩ := exists_lastEntry log hpos
    have h0 : log.length - 1 = 0 := by omega
    rw [h0] at he
    rw [ht, hfirst e he] at h
    exact h rfl
  · rw [List.length_eq_zero_iff.1 (Nat.le_zero.1 hnil)] at h
    exact h rfl

/-! ### Leader completeness -/

variable {l : LeaderLog}

theorem HistoryInv.take_prefix_of_held (hinv : HistoryInv cfg c) (hlog : LogInv cfg c) (hch : c.Chosen cfg l k)
    {j : ℕ} (hheld : c.Held l.term j log) (hk : k < log.length) : l.log.take (k + 1) <+: log := by
  obtain ⟨hl, hterm, -⟩ := hch
  obtain ⟨e, he, -⟩ := Option.map_eq_some_iff.1 hterm
  obtain ⟨l', hl', ht, hp⟩ := (hinv.held hheld).2
  have hcomp : Compatible l.log log :=
    (hlog.compatible l hl l' hl' ht.symm).mono (List.prefix_refl _) hp
  rw [hcomp.take_eq (List.getElem?_eq_some_iff.1 he).1 hk]
  exact List.take_prefix _ _

/-- **Leader completeness.**  A chosen entry, with all entries before it, is in every log of a leader
of a later term.  By induction on the later term: a replica that holds the entry voted for that
leader, whose log at the election therefore ends in a term at or above that of the entry; if it is
above, the log was created by a leader of a term in between. -/
theorem HistoryInv.leader_completeness (hinv : HistoryInv cfg c) (hlog : LogInv cfg c)
    (hch : c.Chosen cfg l k) :
    ∀ (t : ℕ) (l' : LeaderLog), l' ∈ c.leaderLogs → l'.term = t → l.term < t →
      l.log.take (k + 1) <+: l'.log := by
  intro t
  induction t using Nat.strong_induction_on with
  | _ t ih =>
    intro l' hl' ht hlt
    have hl := hlog.leaderLogs l hch.1
    have hok' := hlog.leaderLogs l' hl'
    have hpos := hl.pos
    obtain ⟨e, he, het⟩ := Option.map_eq_some_iff.1 hch.2.1
    have hk : 0 < k := by
      rcases Nat.eq_zero_or_pos k with rfl | hk
      · rw [hl.first] at he
        cases he
        simp only [sentinel] at het
        omega
      · exact hk
    have heTake : (l.log.take (k + 1))[k]? = some e := by
      rw [List.getElem?_take_of_lt (Nat.lt_succ_self k)]
      exact he
    rcases hinv.elections l' hl' with hone | ⟨start, hstart, hstartLt, hvotes⟩
    · omega
    obtain ⟨j, ⟨log, hheld, hlen⟩, ballot, hballot, hup⟩ := hch.2.2.common hvotes
    -- the common replica voted after it had the entry
    have hprefix : l.log.take (k + 1) <+: ballot :=
      (hinv.take_prefix_of_held hlog hch hheld hlen).trans
        (hinv.order _ _ _ _ _ hheld hballot (by omega))
    have hrootBallot : c.Rooted ballot :=
      (hlog.rooted j).of_isPrefix (hinv.ballots _ _ _ hballot).2
    have hrootStart : c.Rooted start := hok'.rooted.of_isPrefix hstart
    have hbk := getElem?_of_isPrefix hprefix heTake
    have hleBallot : l.term ≤ lastTerm ballot := by
      rw [← het]
      exact hlog.le_lastTerm hrootBallot hk hbk
    have hleStart : lastTerm ballot ≤ lastTerm start := by
      rcases hup with h | h <;> omega
    have hlenBallot : 1 < ballot.length := by
      have := (List.getElem?_eq_some_iff.1 hbk).1
      omega
    have hlenStart : 1 < start.length := by
      refine one_lt_length_of_lastTerm (fun e' he' => ?_) (by omega)
      have := getElem?_of_isPrefix hstart he'
      rw [hok'.first] at this
      exact (Option.some.inj this).symm
    obtain ⟨lb, hlb, htb, hpb⟩ := hrootBallot.covers hlenBallot
    obtain ⟨ls, hls, hts, hps⟩ := hrootStart.covers hlenStart
    rcases Nat.lt_or_ge l.term (lastTerm start) with hgt | hge
    · -- the candidate's log ends in a term in between
      obtain ⟨e', he', hte'⟩ := exists_lastEntry start (by omega)
      have hmem' := List.mem_of_getElem? he'
      have hbelow := hstartLt e' hmem'
      have hls' := ih (lastTerm start) (by omega) ls hls hts hgt
      have hcomp : Compatible (l.log.take (k + 1)) start := Compatible.of_isPrefix hls' hps
      rcases hcomp with hp | hp
      · exact hp.trans hstart
      · have hmem : e' ∈ l.log := List.mem_of_mem_take (hp.subset hmem')
        have := hl.termLe e' hmem
        omega
    · -- it ends in the term of the entry, and is at least as long as the ballot
      have hle : ballot.length ≤ start.length := by
        rcases hup with h | h <;> omega
      have hcomp : Compatible ballot start :=
        (hlog.compatible lb hlb ls hls (by omega)).mono hpb hps
      exact hprefix.trans ((hcomp.prefix_of_length_le hle).trans hstart)

theorem HistoryInv.chosen_compatible (hinv : HistoryInv cfg c) (hlog : LogInv cfg c)
    {l' : LeaderLog} {k' : ℕ} (h : c.Chosen cfg l k) (h' : c.Chosen cfg l' k') :
    Compatible (l.log.take (k + 1)) (l'.log.take (k' + 1)) := by
  rcases Nat.lt_trichotomy l.term l'.term with hlt | heq | hgt
  · exact Compatible.of_isPrefix (hinv.leader_completeness hlog h _ l' h'.1 rfl hlt)
      (List.take_prefix _ _)
  · exact (hlog.compatible l h.1 l' h'.1 heq).mono (List.take_prefix _ _) (List.take_prefix _ _)
  · exact Compatible.of_isPrefix (List.take_prefix _ _)
      (hinv.leader_completeness hlog h' _ l h.1 rfl hgt)

theorem Cluster.Settled.getElem? {m : ℕ} (h : c.Settled cfg log k)
    (hm : 0 < m) (hle : m ≤ k) (he : log[m]? = some e) :
    ∃ l k', c.Chosen cfg l k' ∧ (l.log.take (k' + 1))[m]? = some e := by
  rcases h.2 with h0 | ⟨l, k', hch, hkk', hp⟩
  · omega
  · refine ⟨l, k', hch, ?_⟩
    rw [List.getElem?_take_of_lt (by omega)]
    refine getElem?_of_isPrefix hp ?_
    rwa [List.getElem?_take_of_lt (by omega)]

/-! ### State-machine safety -/

theorem requestOf_seq {q : Request} (h : requestOf cfg e k = some q) : q.seq = k := by
  unfold requestOf at h
  split at h
  · cases h
    rfl
  · obtain ⟨q', -, rfl⟩ := Option.map_eq_some_iff.1 h
    rfl

/-- **Raft state-machine safety.**  In every run with one leader per term all of whose probes are
covered, no two replicas return different requests for the same index. -/
theorem state_machine_safety (h : (clusterSystem cfg).Reachable CoveredProbes c)
    (hone : OneLeaderPerTerm c) : StateMachineSafety c := by
  have hlog := LogInv.of_reachable h hone
  have hinv := HistoryInv.of_reachable h hone
  intro a ha b hb hseq
  obtain ⟨k, e, hk, he, hr⟩ := hinv.applied a ha
  obtain ⟨k', e', hk', he', hr'⟩ := hinv.applied b hb
  obtain rfl : k = k' := by rw [← requestOf_seq hr, ← requestOf_seq hr', hseq]
  have hent : e = e' := by
    rcases Nat.eq_zero_or_pos k with rfl | hpos
    · rw [(hlog.addressed.intact a.id).first] at he
      rw [(hlog.addressed.intact b.id).first] at he'
      exact (Option.some.inj he).symm.trans (Option.some.inj he')
    · obtain ⟨l, m, hch, hl⟩ := (hinv.commits a.id).getElem? hpos hk he
      obtain ⟨l', m', hch', hl'⟩ := (hinv.commits b.id).getElem? hpos hk' he'
      exact (hinv.chosen_compatible hlog hch hch').getElem? hl hl'
  rw [hent] at hr
  exact Option.some.inj (hr.symm.trans hr')

/-- Replica 2 is elected in term 2 while the leader of term 1 has an entry of its own; its probes are
under way. -/
def electionRun : List Action :=
  [.sendHeartbeat 1 stillClock, .deliver 0 stillClock, .receiveTransaction 1 "a" stillClock,
    .startElection 2, .deliver 7 stillClock, .deliver 8 stillClock, .sendHeartbeat 2 stillClock]

/-- Replica 3 answers its probe and acknowledges the no-op of term 2, so the leader commits it. -/
def commitRun : List Action :=
  electionRun ++ [.deliver 10 stillClock, .deliver 11 stillClock, .deliver 12 stillClock,
    .deliver 13 stillClock]

/-- The next heartbeat tells replica 1, whose entry at index 1 is another one, to commit index 1. -/
def divergentCommitRun : List Action :=
  commitRun ++ [.sendHeartbeat 2 stillClock, .deliver 14 stillClock]

theorem state_machine_safety_commitRun :
    ∃ c, clusterAfter commitRun = some c ∧ OneLeaderPerTerm c ∧
      c.applied = [⟨2, "RAFT_NO_OP", "", 1⟩] ∧ StateMachineSafety c := by
  obtain ⟨c, hc, hreach, hone, happ⟩ := (clusterSystem threeReplicas).exists_run (C := CoveredProbes)
    (P := fun c => OneLeaderPerTerm c ∧ c.applied = [⟨2, "RAFT_NO_OP", "", 1⟩]) commitRun rfl
    (by decide +kernel) (by decide +kernel)
  exact ⟨c, hc, hone, happ, state_machine_safety hreach hone⟩

/-- Replica 2 returns the no-op for index 1, replica 1 the transaction. -/
theorem state_machine_safety_fails :
    ¬ ∀ (cfg : Config) (c : Cluster), (clusterSystem cfg).Reachable TransitionSystem.always c →
      OneLeaderPerTerm c → StateMachineSafety c := by
  intro h
  obtain ⟨c, hreach, hone, happ⟩ := (clusterSystem threeReplicas).exists_reachable_always
    (P := fun c => OneLeaderPerTerm c ∧
      c.applied = [⟨2, "RAFT_NO_OP", "", 1⟩, ⟨1, "a", "", 1⟩]) divergentCommitRun rfl
    (by decide +kernel)
  have hsafe := h threeReplicas c hreach hone
  have heq := hsafe ⟨2, "RAFT_NO_OP", "", 1⟩ (by simp [happ]) ⟨1, "a", "", 1⟩ (by simp [happ]) rfl
  simp at heq

/-! ### The latest leader -/

/-- **Nothing that was committed is missing from the latest leader.**  In every run with one leader per
term all of whose probes are covered, a leader whose term no later leader has passed has the log of
every replica up to its commit index. -/
theorem committed_in_latest_leader (h : (clusterSystem cfg).Reachable CoveredProbes c)
    (hone : OneLeaderPerTerm c) {j : ℕ} (hj : (c.replicas j).role = .leader)
    (hlatest : ∀ l ∈ c.leaderLogs, l.term ≤ (c.replicas j).currentTerm) (i : ℕ) :
    (c.replicas i).log.take ((c.replicas i).commitIndex + 1) <+: (c.replicas j).log := by
  have hlog := LogInv.of_reachable h hone
  have hinv := HistoryInv.of_reachable h hone
  obtain ⟨hlt, hzero | ⟨l, k, hch, hle, hp⟩⟩ := hinv.commits i
  · -- all logs start with the sentinel
    have hfirst : (c.replicas i).log.take 1 = (c.replicas j).log.take 1 := by
      rw [List.take_one, List.take_one, List.head?_eq_getElem?, List.head?_eq_getElem?,
        (hlog.addressed.intact i).first, (hlog.addressed.intact j).first]
    rw [hzero, hfirst]
    exact List.take_prefix _ _
  · have hchosen : l.log.take (k + 1) <+: (c.replicas j).log := by
      rcases (hlatest l hch.1).lt_or_eq with hbelow | hsame
      · exact hinv.leader_completeness hlog hch _ _ (hlog.recorded j hj) rfl hbelow
      · exact (List.take_prefix _ _).trans (hlog.latest j hj l hch.1 hsame)
    refine .trans (List.prefix_take_iff.2 ⟨hp, ?_⟩) hchosen
    rw [List.length_take]
    omega

theorem committed_in_latest_leader_commitRun :
    ∃ c, clusterAfter commitRun = some c ∧ (c.replicas 2).commitIndex = 1 ∧
      ∀ i, (c.replicas i).log.take ((c.replicas i).commitIndex + 1) <+: (c.replicas 2).log := by
  obtain ⟨c, hc, hreach, hone, hrole, hlatest, hcommit⟩ := (clusterSystem threeReplicas).exists_run
    (C := CoveredProbes) (P := fun c => OneLeaderPerTerm c ∧ (c.replicas 2).role = .leader ∧
      (∀ l ∈ c.leaderLogs, l.term ≤ (c.replicas 2).currentTerm) ∧ (c.replicas 2).commitIndex = 1)
    commitRun rfl (by decide +kernel) (by decide +kernel)
  exact ⟨c, hc, hcommit, committed_in_latest_leader hreach hone hrole hlatest⟩

/-! ### Soundness of `match_index` -/

/-- **Soundness of `match_index`.**  In every run with one leader per term all of whose probes are
covered, the `match_index` that a leader stores is one up to which the follower's log agreed with its
own. -/
theorem match_index_sound (h : (clusterSystem cfg).Reachable CoveredProbes c)
    (hone : OneLeaderPerTerm c) : MatchIndexSound cfg c := by
  have hlog := LogInv.of_reachable h hone
  have hinv := HistoryInv.of_reachable h hone
  intro k now c' p aer hk hm hs hl hterm hstale hstep
  have hp : p ∈ c.sent := List.mem_of_getElem? hk
  have hsrc : aer.id = p.src := by
    have := hlog.addressed.signed p hp
    rwa [Cluster.Signed, hm] at this
  have hack : c.AckedWith (c.replicas p.dst).currentTerm aer.id aer.lastLogIndex p.srcLog :=
    ⟨p, hp, hsrc.symm, rfl, aer, hm, hs, hterm.symm, rfl⟩
  -- the follower's log was covered, and the leader's log extends all logs of its term
  obtain ⟨hlen, -, l, hmem, hlt, hpre⟩ := hinv.acks _ _ _ _ hack
  have hprefix : p.srcLog <+: (c.replicas p.dst).log :=
    hpre.trans (hlog.latest p.dst hl l hmem hlt)
  simp only [Cluster.step, hk, bind, Option.bind_some, hm, Replica.receive,
    Option.bind_eq_some_iff, Option.some.injEq] at hstep
  obtain ⟨o, ho, rfl⟩ := hstep
  rw [Cluster.replicas_update_self]
  have hmono : ∀ j m m', c.Acked (c.replicas p.dst).currentTerm j m → m ≤ m' →
      c.Acked (c.replicas p.dst).currentTerm j m' := fun _ _ _ h => h.mono
  rcases receiveAppendEntriesResponse_spec (hlog.addressed.intact p.dst) hmono (hlog.views p.dst)
      (by rw [hsrc]; exact hlog.addressed.src p hp)
      (fun _ _ _ => .inr ⟨_, _, hack, le_rfl⟩) ho with ⟨hne, -⟩ | ⟨-, -, -, -, -, hmatch⟩
  · exact absurd ⟨hl, hterm⟩ hne
  · rw [hmatch aer.id, if_pos ⟨rfl, hs, hstale⟩]
    have hle := hprefix.length_le
    exact Compatible.take_eq (.inl hprefix) (by omega) (by omega)

/-- Replica 1 accepts the first probe of term 2. -/
def probedRun : List Action := electionRun ++ [.deliver 9 stillClock]

/-- Replica 3 accepts it. -/
def coveredProbeRun : List Action := electionRun ++ [.deliver 10 stillClock]

theorem match_index_sound_coveredProbeRun :
    ∃ c, clusterAfter coveredProbeRun = some c ∧ OneLeaderPerTerm c ∧
      MatchIndexSound threeReplicas c := by
  obtain ⟨c, hc, hreach, hone⟩ := (clusterSystem threeReplicas).exists_run (C := CoveredProbes)
    (P := OneLeaderPerTerm) coveredProbeRun rfl (by decide +kernel) (by decide +kernel)
  exact ⟨c, hc, hone, match_index_sound hreach hone⟩

/-- The leader of term 2 stores 1 as the `match_index` of replica 1, whose entry at index 1 is
another one. -/
theorem match_index_sound_fails :
    ¬ ∀ (cfg : Config) (c : Cluster), (clusterSystem cfg).Reachable TransitionSystem.always c →
      OneLeaderPerTerm c → MatchIndexSound cfg c := by
  intro h
  obtain ⟨c, hc, hone, hp, hl, ht, hlt, c', hc', hm, hlog⟩ : ∃ c,
      clusterAfter probedRun = some c ∧ OneLeaderPerTerm c ∧
      c.sent[11]? = some ⟨1, 2, .appendEntriesResponse ⟨2, true, 1, 1, 0, 0⟩,
        [sentinel, ⟨1, "a"⟩]⟩ ∧
      (c.replicas 2).role = .leader ∧ (c.replicas 2).currentTerm = 2 ∧
      ((c.replicas 2).progress 1).matchIndex ≤ 1 ∧
      ∃ c', c.step threeReplicas (.deliver 11 stillClock) = some c' ∧
        ((c'.replicas 2).progress 1).matchIndex = 1 ∧
        (c.replicas 2).log = [sentinel, ⟨2, "RAFT_NO_OP"⟩] :=
    ⟨_, rfl, by decide +kernel, by decide +kernel, by decide +kernel, by decide +kernel,
      by decide +kernel, _, rfl, by decide +kernel, by decide +kernel⟩
  have heq := h threeReplicas c (TransitionSystem.reachable_of_run rfl hc) hone 11 stillClock c' _ _
    hp rfl rfl hl ht hlt hc'
  simp only [hm, hlog] at heq
  revert heq
  decide

end Raft
