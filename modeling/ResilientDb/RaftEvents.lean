/-
**What can happen in a Raft cluster.**

Every action of a cluster makes one replica run one handler.  This module says once what that can
amount to, so that the invariants of the following modules split four cases and not eight handlers:
the replica does nothing to its log (`Raft.Quiet`), it acts as leader (`Raft.Leads`), it accepts an
`AppendEntries` message (`Raft.Accepts`), or it is elected (`Raft.Elected`).

Main definitions:

* `Raft.Cluster.Acked` — a follower has acknowledged a log that ends at or below an index;
* `Raft.Cluster.Addressed` — replicas and messages carry the right identities;
* `Raft.Event` — the four kinds of events.

Main results:

* `Raft.event_of_step` — every action is one of them.
-/

import ResilientDb.RaftCluster
import ResilientDb.RaftLeader

set_option autoImplicit false

namespace Raft

open Replica

namespace Cluster

/-! ### Votes and acknowledgements -/

/-- Replica `j` has answered an `AppendEntries` message of the term with success, having `last` as
its last index and `log` as its log. -/
def AckedWith (c : Cluster) (term j last : ℕ) (log : List Entry) : Prop :=
  ∃ p ∈ c.sent, p.src = j ∧ p.srcLog = log ∧
    ∃ aer, p.message = .appendEntriesResponse aer ∧ aer.success = true ∧ aer.term = term ∧
      aer.lastLogIndex = last

/-- Replica `j` has acknowledged, in the term, a log that ends at or below `m`.  In term 1, where
the leader replicates from the start, nothing is asked. -/
def Acked (c : Cluster) (term j m : ℕ) : Prop :=
  term = 1 ∨ ∃ last log, c.AckedWith term j last log ∧ last ≤ m

/-- Replica `j` has granted its vote of the term to `i`. -/
def Voted (c : Cluster) (term i j : ℕ) : Prop :=
  ∃ p ∈ c.sent, p.src = j ∧ p.dst = i ∧ p.message = .requestVoteResponse ⟨term, true, j⟩

theorem Acked.mono {c : Cluster} {term j m m' : ℕ} (h : c.Acked term j m) (hle : m ≤ m') :
    c.Acked term j m' :=
  h.imp_right fun ⟨last, log, ha, hl⟩ => ⟨last, log, ha, hl.trans hle⟩

/-! ### Identities -/

/-- A message names its sender. -/
def Signed (p : Packet) : Prop :=
  match p.message with
  | .appendEntries ae => ae.leaderId = p.src
  | .appendEntriesResponse aer => aer.id = p.src
  | .requestVote rv => rv.candidateId = p.src
  | .requestVoteResponse rvr => rvr.voterId = p.src

/-- Replicas are intact and know their identity; messages name their senders, and senders and
recipients are members. -/
structure Addressed (cfg : Config) (c : Cluster) : Prop where
  intact : ∀ i, (c.replicas i).Intact
  id : ∀ i, (c.replicas i).id = i
  signed : ∀ p ∈ c.sent, Signed p
  src : ∀ p ∈ c.sent, cfg.IsMember p.src
  dst : ∀ p ∈ c.sent, cfg.IsMember p.dst

end Cluster

/-! ### Events -/

section

variable (cfg : Config) (c : Cluster) (i : ℕ) (o : Outcome)

/-- A message that says nothing about the log of a leader. -/
def QuietMessage (m : ℕ × Message) : Prop :=
  match m.2 with
  | .appendEntries _ => False
  | .appendEntriesResponse aer =>
    aer.success = false ∧ aer.id = i ∧ aer.term = o.replica.currentTerm ∧
      aer.lastLogIndex = o.replica.lastLogIndex ∧
        ∃ p ∈ c.sent, ∃ ae, p.src = m.1 ∧ p.message = .appendEntries ae ∧
          o.replica.conflict ae = some (aer.conflictingIndex, aer.conflictingTerm)
  | .requestVote rv =>
    rv.candidateId = i ∧ rv.term = o.replica.currentTerm ∧
      (c.replicas i).currentTerm < rv.term ∧ rv.lastLogIndex = o.replica.lastLogIndex ∧
        (o.replica.log[o.replica.lastLogIndex]?).map Entry.term = some rv.lastLogTerm
  | .requestVoteResponse rvr =>
    rvr.voterId = i ∧ rvr.term = o.replica.currentTerm ∧
      (rvr.voteGranted = true → ∃ p ∈ c.sent, ∃ rv, p.src = m.1 ∧ p.message = .requestVote rv ∧
        rv.term = rvr.term ∧ ∃ t, (o.replica.log[o.replica.lastLogIndex]?).map Entry.term = some t ∧
          isValidCandidate rv t o.replica.lastLogIndex = true)

/-- The replica's log and counters stay as they are. -/
structure Quiet : Prop where
  sameLog : SameLog (c.replicas i) o.replica
  id : o.replica.id = i
  applied : o.applied = []
  term : (c.replicas i).currentTerm ≤ o.replica.currentTerm
  progress : ∀ j, j ≠ i → o.replica.progress j = (c.replicas i).progress j
  leader : o.replica.role = .leader → (c.replicas i).role = .leader ∧
    o.replica.currentTerm = (c.replicas i).currentTerm
  candidate : o.replica.role = .candidate →
    ((c.replicas i).role = .candidate ∧
      o.replica.currentTerm = (c.replicas i).currentTerm ∧
        (o.replica.votes = (c.replicas i).votes ∨ ∃ j, cfg.IsMember j ∧
          j ∉ (c.replicas i).votes ∧ o.replica.votes = (c.replicas i).votes ++ [j] ∧
            c.Voted o.replica.currentTerm i j)) ∨
    ((c.replicas i).currentTerm < o.replica.currentTerm ∧ o.replica.votes = [i] ∧
      ∃ t, ∀ j, cfg.IsMember j → (j, .requestVote
        ⟨o.replica.currentTerm, i, o.replica.lastLogIndex, t⟩) ∈ o.sent)
  sent : ∀ m ∈ o.sent, cfg.IsMember m.1 ∧ QuietMessage c i o m

/-- The requests that the replica returns are those of committed entries. -/
def AppliesCommitted : Prop :=
  ∀ q ∈ o.applied, ∃ k e, k ≤ o.replica.commitIndex ∧ o.replica.log[k]? = some e ∧
    requestOf cfg e k = some q

/-- The replica acts as leader. -/
structure Leads (entries : List Entry) : Prop extends
    LeaderStep cfg (c.Acked (c.replicas i).currentTerm) (c.replicas i) entries o where
  wasLeader : (c.replicas i).role = .leader
  entries : ∀ e ∈ entries, e.term = (c.replicas i).currentTerm
  commit : CommitStep cfg (c.replicas i) o.replica
  applies : AppliesCommitted cfg o
  matchIndex : ∀ j, (o.replica.progress j).matchIndex = ((c.replicas i).progress j).matchIndex ∨
    j = i ∨ (j ≠ 0 ∧ ∃ last log, c.AckedWith (c.replicas i).currentTerm j last log ∧
      (o.replica.progress j).matchIndex ≤ last)

/-- The replica accepts a message with the packet's leader log. -/
structure Accepts (p : Packet) (ae : AppendEntries) : Prop where
  sentPacket : p ∈ c.sent
  dst : p.dst = i
  message : p.message = .appendEntries ae
  notSelf : ae.leaderId ≠ i
  accepts : (c.replicas i).accepts ae = true
  outcome : (c.replicas i).receiveAppendEntries cfg ae = some o

/-- The replica wins an election. -/
structure Elected (j : ℕ) : Prop where
  wasCandidate : (c.replicas i).role = .candidate
  voted : c.Voted (c.replicas i).currentTerm i j
  member : cfg.IsMember j
  newVote : j ∉ (c.replicas i).votes
  quorum : cfg.quorum ≤ (c.replicas i).votes.length + 1
  intact : o.replica.Intact
  id : o.replica.id = i
  role : o.replica.role = .leader
  currentTerm : o.replica.currentTerm = (c.replicas i).currentTerm
  log : o.replica.log = (c.replicas i).log ++ [⟨(c.replicas i).currentTerm, "RAFT_NO_OP"⟩]
  commitIndex : o.replica.commitIndex = (c.replicas i).commitIndex
  progress : ∀ j, j ≠ i → (o.replica.progress j).matchIndex =
      (if cfg.IsMember j then 0 else ((c.replicas i).progress j).matchIndex) ∧
    (cfg.IsMember j → (o.replica.progress j).state = .probe ∧
      (o.replica.progress j).nextIndex = (c.replicas i).lastLogIndex + 1)
  sent : o.sent = []
  applied : o.applied = []

/-- The four kinds of events that an action can amount to. -/
inductive Event (a : Action) : Prop
  | quiet (h : Quiet cfg c i o)
  | leads (entries : List Entry) (h : Leads cfg c i o entries)
  | accepts (k : ℕ) (now : ℕ → ℕ) (p : Packet) (ae : AppendEntries) (ha : a = .deliver k now)
      (hk : c.sent[k]? = some p) (h : Accepts cfg c i o p ae)
  | elected (j : ℕ) (h : Elected cfg c i o j)

end

variable {cfg : Config} {c c' : Cluster} {i : ℕ} {o : Outcome}

theorem Quiet.of_demoted (ha : c.Addressed cfg) (hlog : SameLog (c.replicas i) o.replica)
    (hd : o.replica = c.replicas i ∨ Demoted (c.replicas i) o.replica) (happ : o.applied = [])
    (hsent : ∀ m ∈ o.sent, cfg.IsMember m.1 ∧ QuietMessage c i o m) : Quiet cfg c i o := by
  rcases hd with hd | hd
  · refine ⟨hlog, by rw [hd, ha.id], happ, by rw [hd], fun j _ => by rw [hd], ?_, ?_, hsent⟩
    · intro hl
      rw [hd] at hl ⊢
      exact ⟨hl, rfl⟩
    · intro hc
      rw [hd] at hc ⊢
      exact .inl ⟨hc, rfl, .inl rfl⟩
  · refine ⟨hlog, by rw [hd.id, ha.id], happ, hd.term_le, fun j _ => by rw [hd.progress], ?_, ?_,
      hsent⟩
    · intro hl
      rw [hd.role] at hl
      cases hl
    · intro hc
      rw [hd.role] at hc
      cases hc

theorem Quiet.refl (ha : c.Addressed cfg) : Quiet cfg c i ⟨c.replicas i, [], []⟩ :=
  Quiet.of_demoted ha (SameLog.refl _) (.inl rfl) rfl (by simp)

theorem Quiet.votedFor {r : Replica} {sent : List (ℕ × Message)} {vote : Option ℕ}
    (h : Quiet cfg c i ⟨r, sent, []⟩) (hsent : ∀ m ∈ sent, cfg.IsMember m.1 ∧
      QuietMessage c i ⟨{ r with votedFor := vote }, sent, []⟩ m) :
    Quiet cfg c i ⟨{ r with votedFor := vote }, sent, []⟩ := by
  have hs := h.sameLog
  exact ⟨⟨hs.1, hs.2, hs.3, hs.4, hs.5, hs.6, hs.7, hs.8⟩, h.id, rfl, h.term, h.progress, h.leader,
    h.candidate, hsent⟩

section

variable (ha : c.Addressed cfg)
include ha

theorem quiet_finishTransaction (myLogIndex : ℕ) :
    Quiet cfg c i ⟨(c.replicas i).finishTransaction myLogIndex, [], []⟩ := by
  unfold finishTransaction
  split
  · rename_i hl
    refine ⟨⟨rfl, rfl, rfl, rfl, rfl, rfl, rfl, rfl⟩, ha.id i, rfl, le_rfl, ?_, fun _ => ⟨hl, rfl⟩,
      ?_, by simp⟩
    · intro j hj
      exact setProgress_of_ne _ (by rw [ha.id]; exact hj) _
    · intro hc
      exact absurd (hc.symm.trans hl) (by simp)
  · exact Quiet.refl ha

theorem quiet_startElection (ho : (c.replicas i).startElection cfg = some o) : Quiet cfg c i o := by
  obtain ⟨-, rfl⟩ | ⟨-, t, ht, rfl⟩ := startElection_cases ho
  · exact Quiet.refl ha
  rw [(ha.intact i).lastLogTerm] at ht
  have hid := ha.id i
  refine ⟨⟨rfl, rfl, rfl, rfl, rfl, rfl, rfl, rfl⟩, hid, rfl, Nat.le_succ _, fun j _ => rfl, ?_, ?_,
    ?_⟩
  · rintro ⟨⟩
  · intro _
    refine .inr ⟨Nat.lt_succ_self _, by simp [hid], t, ?_⟩
    intro j hj
    rw [List.mem_map]
    refine ⟨j, ?_, by rw [hid]⟩
    rw [List.mem_range'_1]
    exact ⟨hj.1, by have := hj.2; omega⟩
  · intro m hm
    rw [List.mem_map] at hm
    obtain ⟨j, hj, rfl⟩ := hm
    rw [List.mem_range'_1] at hj
    exact ⟨⟨hj.1, by omega⟩, hid, rfl, Nat.lt_succ_self _, rfl, ht⟩

theorem quiet_receiveRequestVote {p : Packet} (hp : p ∈ c.sent)
    {rv : RequestVote} (hm : p.message = .requestVote rv)
    (ho : (c.replicas i).receiveRequestVote rv = some o) : Quiet cfg c i o := by
  have hid := ha.id i
  have hsrc : rv.candidateId = p.src := by
    have := ha.signed p hp
    rwa [Cluster.Signed, hm] at this
  cases receiveRequestVote_branch ho with
  | own _ => exact Quiet.refl ha
  | @answered r₁ granted _ hheeds _ hgrant =>
    have hlog := hheeds.sameLog
    generalize hsent : [(rv.candidateId, Message.requestVoteResponse _)] = sent
    have hmsg : ∀ vote, ∀ m ∈ sent,
        cfg.IsMember m.1 ∧ QuietMessage c i ⟨{ r₁ with votedFor := vote }, sent, []⟩ m := by
      intro vote m hmem
      rw [← hsent, List.mem_singleton] at hmem
      subst hmem
      refine ⟨by rw [hsrc]; exact ha.src p hp, hheeds.id.trans hid, rfl, fun hg => ?_⟩
      obtain ⟨hterm, -, t, ht, hvalid⟩ := hgrant hg
      rw [(ha.intact i).lastLogTerm, ← hlog.log, ← hlog.lastLogIndex] at ht
      rw [← hlog.lastLogIndex] at hvalid
      exact ⟨p, hp, rv, hsrc.symm, hm, hterm, t, ht, hvalid⟩
    have hquiet : Quiet cfg c i ⟨r₁, sent, []⟩ :=
      .of_demoted ha hlog hheeds.demoted_or_eq rfl (hmsg _)
    cases granted with
    | true => exact hquiet.votedFor (hmsg _)
    | false => exact hquiet

/-- Every leader's view of its followers is in order. -/
def Cluster.ViewsOk (cfg : Config) (c : Cluster) : Prop :=
  ∀ i, (c.replicas i).role = .leader →
    (c.replicas i).ViewOk cfg (c.Acked (c.replicas i).currentTerm)

theorem event_receiveAppendEntries {p : Packet} {k : ℕ} {now : ℕ → ℕ}
    (hk : c.sent[k]? = some p) (hdst : p.dst = i) {ae : AppendEntries}
    (hm : p.message = .appendEntries ae)
    (ho : (c.replicas i).receiveAppendEntries cfg ae = some o) :
    Event cfg c i o (.deliver k now) := by
  have hid := ha.id i
  have hp : p ∈ c.sent := List.mem_of_getElem? hk
  have hsrc : ae.leaderId = p.src := by
    have := ha.signed p hp
    rwa [Cluster.Signed, hm] at this
  by_cases hself : ae.leaderId = i
  · unfold receiveAppendEntries at ho
    rw [if_pos (by rw [hid, hself])] at ho
    cases ho
    exact .quiet (Quiet.refl ha)
  · cases hacc : (c.replicas i).accepts ae with
    | true => exact .accepts k now p ae rfl hk ⟨hp, hdst, hm, hself, hacc, ho⟩
    | false =>
      obtain ⟨report, hreport, rfl⟩ :=
        receiveAppendEntries_reject (by rw [hid]; exact hself) hacc ho
      refine .quiet (Quiet.of_demoted ha (acceptTerm_sameLog _ _) ?_ rfl ?_)
      · by_cases hst : ae.term < (c.replicas i).currentTerm
        · exact .inl (acceptTerm_stale hst)
        · exact .inr (acceptTerm_demoted (not_lt.1 hst)).1
      · intro m hmem
        obtain rfl := List.mem_singleton.1 hmem
        refine ⟨by rw [hsrc]; exact ha.src p hp, rfl, ?_, rfl, rfl, p, hp, ae, hsrc.symm, hm, hreport⟩
        rw [acceptTerm_id, hid]

theorem event_receiveAppendEntriesResponse (hv : c.ViewsOk cfg) {p : Packet}
    (hp : p ∈ c.sent) {aer : AppendEntriesResponse} (hm : p.message = .appendEntriesResponse aer)
    {now : ℕ → ℕ} (ho : (c.replicas i).receiveAppendEntriesResponse cfg aer now = some o)
    (a : Action) : Event cfg c i o a := by
  have hsrc : aer.id = p.src := by
    have := ha.signed p hp
    rwa [Cluster.Signed, hm] at this
  have hmem : cfg.IsMember aer.id := by
    rw [hsrc]
    exact ha.src p hp
  have hack : aer.success = true → ∀ term, term = aer.term →
      c.AckedWith term aer.id aer.lastLogIndex p.srcLog :=
    fun hs _ ht => ⟨p, hp, hsrc.symm, rfl, aer, hm, hs, ht.symm, rfl⟩
  have hmono : ∀ j m m', c.Acked (c.replicas i).currentTerm j m → m ≤ m' →
      c.Acked (c.replicas i).currentTerm j m' := fun _ _ _ h => h.mono
  rcases receiveAppendEntriesResponse_spec (ha.intact i) hmono (hv i) hmem
      (fun hs _ ht => .inr ⟨_, _, hack hs _ ht, le_rfl⟩) ho with
    ⟨-, hsent, happ, hlog, hd⟩ | ⟨hl, hterm, hstep, hcommit, happ, hmatch⟩
  · exact .quiet (Quiet.of_demoted ha hlog hd happ (by simp [hsent]))
  · refine .leads [] ⟨hstep, hl, by simp, hcommit, happ, ?_⟩
    intro j
    have hj := hmatch j
    split at hj
    · rename_i hc
      obtain ⟨rfl, hs, -⟩ := hc
      refine .inr (.inr ⟨by have := hmem.1; omega, _, _, hack hs _ hterm, ?_⟩)
      rw [hj]
      exact min_le_left _ _
    · exact .inl hj

theorem event_receiveRequestVoteResponse {p : Packet} (hp : p ∈ c.sent)
    (hdst : p.dst = i) {rvr : RequestVoteResponse} (hm : p.message = .requestVoteResponse rvr)
    (ho : (c.replicas i).receiveRequestVoteResponse cfg rvr = some o) (a : Action) :
    Event cfg c i o a := by
  have hid := ha.id i
  have hsrc : rvr.voterId = p.src := by
    have := ha.signed p hp
    rwa [Cluster.Signed, hm] at this
  obtain ⟨hsent, happ, hcase⟩ := receiveRequestVoteResponse_spec ho
  rcases hcase with ⟨hlog, hd⟩ | ⟨hc, hterm, hgrant, hnew, hcase⟩
  · exact .quiet (Quiet.of_demoted ha hlog hd happ (by simp [hsent]))
  · have hmem : cfg.IsMember rvr.voterId := by
      rw [hsrc]
      exact ha.src p hp
    have hvoted : c.Voted (c.replicas i).currentTerm i rvr.voterId := by
      refine ⟨p, hp, hsrc.symm, hdst, ?_⟩
      rw [hm, ← hterm, ← hgrant]
    rcases hcase with hrep | ⟨hq, hint, hid', hrole, hct, -, -, hlog, hci, hprog⟩
    · refine .quiet ⟨?_, by rw [hrep]; exact hid, happ, by rw [hrep], fun j _ => by rw [hrep], ?_, ?_,
        by simp [hsent]⟩
      · rw [hrep]
        exact ⟨rfl, rfl, rfl, rfl, rfl, rfl, rfl, rfl⟩
      · intro hl
        rw [hrep] at hl
        exact absurd (hl.symm.trans hc) (by simp)
      · intro _
        rw [hrep]
        exact .inl ⟨hc, rfl, .inr ⟨_, hmem, hnew, rfl, hvoted⟩⟩
    · refine .elected rvr.voterId ⟨hc, hvoted, hmem, hnew, hq, hint (ha.intact i),
        hid'.trans hid, hrole, hct, hlog, hci, ?_, hsent, happ⟩
      rw [hid] at hprog
      exact hprog

/-- **Every action is an event.** -/
theorem event_of_step {a : Action} (hv : c.ViewsOk cfg) (hs : c.step cfg a = some c') :
    ∃ i o pending, cfg.IsMember i ∧ c' = { c.update i o with pending := pending } ∧
      Event cfg c i o a := by
  have hmono : ∀ i j, Monotone (c.Acked (c.replicas i).currentTerm j) :=
    fun _ _ _ _ hle h => h.mono hle
  cases a <;> simp only [Cluster.step, bind, Option.bind_eq_some_iff, Option.guard_eq_some',
    Option.some.injEq] at hs
  case receiveTransaction i serialized now =>
    obtain ⟨-, hi, ⟨o, idx⟩, ho, hs⟩ := hs
    refine ⟨i, o, _, hi, hs.symm, ?_⟩
    by_cases hl : (c.replicas i).role = .leader
    · obtain ⟨hstep, happ, hcommit, hmatch⟩ :=
        receiveTransaction_spec (ha.intact i) (hmono i) (hv i hl) hl ho
      exact .leads _ ⟨hstep, hl, by simp, .inl hcommit, by simp [AppliesCommitted, happ],
        fun j => .inl (hmatch j)⟩
    · unfold receiveTransaction at ho
      rw [if_pos hl] at ho
      cases ho
      exact .quiet (Quiet.refl ha)
  case finishTransaction i idx =>
    obtain ⟨-, hi, -, -, hs⟩ := hs
    exact ⟨i, _, _, hi, hs.symm, .quiet (quiet_finishTransaction ha idx)⟩
  case deliver k now =>
    obtain ⟨p, hk, o, ho, hs⟩ := hs
    have hp : p ∈ c.sent := List.mem_of_getElem? hk
    refine ⟨p.dst, o, c.pending, ha.dst p hp, hs.symm, ?_⟩
    cases hm : p.message <;> rw [hm] at ho
    case appendEntries ae => exact event_receiveAppendEntries ha hk rfl hm ho
    case appendEntriesResponse aer => exact event_receiveAppendEntriesResponse ha hv hp hm ho _
    case requestVote rv => exact .quiet (quiet_receiveRequestVote ha hp hm ho)
    case requestVoteResponse rvr => exact event_receiveRequestVoteResponse ha hp rfl hm ho _
  case startElection i =>
    obtain ⟨-, hi, o, ho, hs⟩ := hs
    exact ⟨i, o, c.pending, hi, hs.symm, .quiet (quiet_startElection ha ho)⟩
  case sendHeartbeat i now =>
    obtain ⟨-, hi, o, ho, hs⟩ := hs
    refine ⟨i, o, c.pending, hi, hs.symm, ?_⟩
    by_cases hl : (c.replicas i).role = .leader
    · obtain ⟨hstep, happ, hcommit, hmatch⟩ :=
        sendHeartbeat_spec (ha.intact i) (hmono i) (hv i hl) hl ho
      exact .leads _ ⟨hstep, hl, by simp, .inl hcommit, by simp [AppliesCommitted, happ],
        fun j => .inl (hmatch j)⟩
    · unfold sendHeartbeat at ho
      rw [if_pos hl] at ho
      cases ho
      exact .quiet (Quiet.refl ha)

end

end Raft
