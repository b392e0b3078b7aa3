/-
**Windows of sequence numbers.**

The ring of collectors has a collector for each of the next `capacity_` sequence numbers.  `Update`
recycles the slot half a ring ahead, so a window moves without touching what is inside.  `Reset` counts
in an `int`, which goes on with negative numbers after `2 ^ 31 - 1`: the collectors get other numbers, and
`Update` skips them all (`Pbft.window_kept_fails`).  Only the starts whose first window an `int` has, as
positive or as negative numbers, are safe.

`AssignNextSeq` compares unsigned numbers, and keeps 32 bits of the executed one.  A replica that has
executed more than it has assigned, as every new primary has, cannot assign a number
(`Pbft.assignNextSeq_exact_fails`).

Main definitions:

* `Pbft.ringSystem` — updates of the ring, with votes in between;
* `Pbft.WindowKept` — the window of the ring is there after every update;
* `Pbft.seqSystem` — the two counters of a replica.

Main results:

* `Pbft.window_kept` — the starts from which the window is kept;
* `Pbft.assignNextSeq_exact_iff` — the test is exact if and only if enough has been assigned.
-/

import ResilientDb.PbftClient
import ResilientDb.PbftStatus

set_option autoImplicit false

namespace Pbft

open TransitionSystem (always)

/-! ### The ring of collectors -/

/-- `Update` of the next number, or votes that change a collector. -/
inductive RingAction
  | update
  | vote (seq : ℕ) (collector : TransactionCollector)

/-- The ring after `Reset(b)`, with the number that is updated next. -/
def ringSystem (size b : ℕ) : TransitionSystem (ℕ × LockFreeCollectorPool) RingAction where
  init s := s = (b, (LockFreeCollectorPool.construct size).reset b)
  step
    | (next, p), .update => some (next + 1, p.update next)
    | (next, p), .vote seq c =>
      if c.seq = (p.getCollector seq).seq then some (next, p.set seq c) else none

/-- After every update, each 64-bit number of the window has its own collector, which the next update
leaves as it is, with its votes. -/
def WindowKept (size b : ℕ) : Prop :=
  ∀ next p, (ringSystem size b).Reachable always (next, p) → b < next →
    ∀ x, next ≤ x → x < next + p.capacity → x < 2 ^ 64 →
      (p.getCollector x).seq = x ∧ (p.update next).getCollector x = p.getCollector x

/-- The numbers that an `int` keeps, as 64-bit numbers. -/
theorem ofInt_eq_self_iff {seq : ℕ} (h : seq < 2 ^ 64) :
    ofInt seq = seq ↔ seq < 2 ^ 31 ∨ 2 ^ 64 - 2 ^ 31 ≤ seq := by
  unfold ofInt
  split_ifs <;> omega

namespace LockFreeCollectorPool

/-- The ring has a collector for each of `capacity` numbers from `next` on. -/
structure Window (size next : ℕ) (p : LockFreeCollectorPool) : Prop where
  capacity : p.capacity = getCapacity (size * 2)
  seq : ∀ x, next ≤ x → x < next + p.capacity → x < 2 ^ 64 → (p.getCollector x).seq = x

/-- The numbers of the ring are those that `Reset(b)` has counted. -/
structure Counted (size b : ℕ) (p : LockFreeCollectorPool) : Prop where
  capacity : p.capacity = getCapacity (size * 2)
  seq : ∀ x, b ≤ x → x < b + 2 * p.capacity → (p.getCollector x).seq = ofInt x

variable {size next : ℕ} {p : LockFreeCollectorPool}

theorem ring_offset {m b d : ℕ} (h : d < m) : ((b + d) % m + m - b % m) % m = d := by
  have hb := Nat.mod_lt b (Nat.zero_lt_of_lt h)
  rw [Nat.add_mod, Nat.mod_eq_of_lt h]
  rcases Nat.lt_or_ge (b % m + d) m with hlt | hge
  · rw [Nat.mod_eq_of_lt hlt, show b % m + d + m - b % m = d + m by omega, Nat.add_mod_right,
      Nat.mod_eq_of_lt h]
  · rw [Nat.mod_eq_sub_mod hge, Nat.mod_eq_of_lt (show b % m + d - m < m by omega),
      show b % m + d - m + m - b % m = d by omega, Nat.mod_eq_of_lt h]

theorem Counted.reset (size b : ℕ) : Counted size b ((construct size).reset b) where
  capacity := rfl
  seq := by
    intro x hle hlt
    obtain ⟨d, rfl⟩ := Nat.exists_eq_add_of_le hle
    change b + d < b + 2 * getCapacity (size * 2) at hlt
    exact congrArg (fun k => ofInt (b + k)) (ring_offset (show d < 2 * getCapacity (size * 2) by omega))

/-- The slot that an update recycles is not one of the window. -/
theorem getCollector_set_ahead (p : LockFreeCollectorPool) (c : TransactionCollector) {x : ℕ}
    (hle : next ≤ x) (hlt : x < next + p.capacity) :
    (p.set (next + p.capacity) c).getCollector x = p.getCollector x := by
  rw [getCollector_set, if_neg]
  exact mod_ring_ne (n := x + 1) (by omega) (by omega) (by omega)

/-- The first update.  It recycles a slot, unless its own collector has another number. -/
theorem Counted.update {b : ℕ} (h : Counted size b p)
    (hb : b + getCapacity (size * 2) ≤ 2 ^ 31 ∨ 2 ^ 64 - 2 ^ 31 ≤ b + 1) :
    Window size (b + 1) (p.update b) := by
  have hpos : 0 < p.capacity := h.capacity ▸ getCapacity_pos _
  rw [← h.capacity] at hb
  have hint : ∀ x, b < x → x < b + p.capacity → x < 2 ^ 64 → ofInt x = x := fun x hle hlt hx =>
    (ofInt_eq_self_iff hx).2 (by omega)
  unfold LockFreeCollectorPool.update
  rw [h.seq b le_rfl (by omega)]
  split_ifs with hskip
  · refine ⟨h.capacity, fun x hle hlt hx => ?_⟩
    rw [h.seq x (by omega) (by omega), ofInt_eq_self_iff hx]
    have hnot := (ofInt_eq_self_iff (show b < 2 ^ 64 by omega)).not.1 hskip
    omega
  · refine ⟨h.capacity, fun x hle hlt hx => ?_⟩
    change x < b + 1 + p.capacity at hlt
    rcases Nat.lt_or_ge x (b + p.capacity) with hin | hout
    · rw [getCollector_set_ahead p _ (by omega) hin, h.seq x (by omega) (by omega)]
      exact hint x (by omega) hin hx
    · obtain rfl : x = b + p.capacity := by omega
      rw [getCollector_set, if_pos rfl]

/-- An update moves the window, and leaves alone the collectors inside. -/
theorem Window.update (h : Window size next p) : Window size (next + 1) (p.update next) ∧
      ∀ x, next ≤ x → x < next + p.capacity → x < 2 ^ 64 →
        (p.update next).getCollector x = p.getCollector x := by
  have hpos : 0 < p.capacity := h.capacity ▸ getCapacity_pos _
  have hupdate : next < 2 ^ 64 →
      p.update next = p.set (next + p.capacity) { seq := next + p.capacity } := fun hnext =>
    if_neg (not_not.2 (h.seq next le_rfl (by omega) hnext))
  have hcapacity : (p.update next).capacity = p.capacity := by
    unfold LockFreeCollectorPool.update
    split <;> rfl
  have hinside : ∀ x, next ≤ x → x < next + p.capacity → x < 2 ^ 64 →
      (p.update next).getCollector x = p.getCollector x := by
    intro x hle hlt hx
    rw [hupdate (by omega), getCollector_set_ahead p _ hle hlt]
  refine ⟨⟨hcapacity.trans h.capacity, fun x hle hlt hx => ?_⟩, hinside⟩
  rw [hcapacity] at hlt
  rcases Nat.lt_or_ge x (next + p.capacity) with hin | hout
  · rw [hinside x (by omega) hin hx]
    exact h.seq x (by omega) hin hx
  · obtain rfl : x = next + p.capacity := by omega
    rw [hupdate (by omega), getCollector_set, if_pos rfl]

/-- Votes leave the numbers of the collectors alone. -/
theorem seq_getCollector_set {seq : ℕ} {c : TransactionCollector}
    (hc : c.seq = (p.getCollector seq).seq) (x : ℕ) :
    ((p.set seq c).getCollector x).seq = (p.getCollector x).seq := by
  rw [getCollector_set]
  split_ifs with hslot
  · rw [hc]
    exact congrArg (fun k => (p.collector k).seq) hslot.symm
  · rfl

end LockFreeCollectorPool

/-- The ring is as `Reset(b)` has left it up to the first update, and has its window from then on. -/
theorem window_of_reachable {size b : ℕ}
    (hb : b + getCapacity (size * 2) ≤ 2 ^ 31 ∨ 2 ^ 64 - 2 ^ 31 ≤ b + 1) {next : ℕ}
    {p : LockFreeCollectorPool} (h : (ringSystem size b).Reachable always (next, p)) :
    next = b ∧ p.Counted size b ∨ b < next ∧ p.Window size next := by
  refine h.invariant (I := fun s => s.1 = b ∧ s.2.Counted size b ∨ b < s.1 ∧ s.2.Window size s.1) ?_ ?_
  · rintro _ rfl
    exact .inl ⟨rfl, .reset size b⟩
  · rintro ⟨next, p⟩ a s' hp - hs
    cases a with
    | update =>
      cases hs
      rcases hp with ⟨rfl, hp⟩ | ⟨hlt, hp⟩
      · exact .inr ⟨Nat.lt_succ_self _, hp.update hb⟩
      · exact .inr ⟨Nat.lt_succ_of_lt hlt, hp.update.1⟩
    | vote seq c =>
      simp only [ringSystem] at hs
      split_ifs at hs with hc
      cases hs
      refine hp.imp (And.imp_right fun hp => ⟨hp.capacity, fun x hle hlt => ?_⟩)
        (And.imp_right fun hp => ⟨hp.capacity, fun x hle hlt hx => ?_⟩)
      · rw [LockFreeCollectorPool.seq_getCollector_set hc, hp.seq x hle hlt]
      · rw [LockFreeCollectorPool.seq_getCollector_set hc, hp.seq x hle hlt hx]

/-- A number of the first window that an `int` does not have. -/
theorem exists_not_int {b c : ℕ} (hc : 0 < c) (hpos : 2 ^ 31 < b + c)
    (hneg : b + 1 < 2 ^ 64 - 2 ^ 31) :
    ∃ x, b < x ∧ 2 ^ 31 ≤ x ∧ x < 2 ^ 64 - 2 ^ 31 ∧ (x < b + c ∨ x = b + c ∧ 2 ^ 31 ≤ b) := by
  rcases Nat.lt_or_ge b (2 ^ 31) with hlt | hge
  · exact ⟨2 ^ 31, hlt, le_rfl, by norm_num, .inl hpos⟩
  · exact ⟨b + 1, Nat.lt_succ_self b, by omega, hneg, by omega⟩

/-- `AssignNextSeq`, `SetNextSeq`, or the executor has ordered a request. -/
inductive SeqAction
  | assignNextSeq
  | setNextSeq (seq : ℕ)
  | execute

/-- The counters of a replica. -/
def seqSystem (cfg : Config) : TransitionSystem Replica SeqAction where
  init r := ∃ view primary id, r = .construct cfg view primary id
  step
    | r, .assignNextSeq => some ((r.assignNextSeq cfg).elim r Prod.fst)
    | r, .setNextSeq seq => some { r with nextSeq := seq % 2 ^ 64 }
    | r, .execute => some { r with nextExecuteSeq := r.nextExecuteSeq + 1 }

/-- A number is assigned exactly if it is at most `GetMaxProcessTxn()` ahead, as an integer. -/
def Replica.AssignsExactly (cfg : Config) (r : Replica) : Prop :=
  r.assignNextSeq cfg = if (r.nextSeq : ℤ) - r.maxPendingExecutedSeq ≤ cfg.maxProcessTxn then
    some ({ r with nextSeq := r.nextSeq + 1 }, r.nextSeq) else none

theorem nextSeq_lt {cfg : Config} (hmax : cfg.maxProcessTxn < 2 ^ 32) {r : Replica}
    (h : (seqSystem cfg).Reachable always r) : r.nextSeq < 2 ^ 64 := by
  refine h.invariant (I := fun r => r.nextSeq < 2 ^ 64) ?_ ?_
  · rintro _ ⟨view, primary, id, rfl⟩
    exact Nat.one_lt_two_pow (by norm_num)
  · rintro r a r' hr - hs
    cases a with
    | assignNextSeq =>
      cases hs
      unfold Replica.assignNextSeq
      dsimp only
      split_ifs with hgap
      · exact hr
      · change r.nextSeq + 1 < 2 ^ 64
        omega
    | setNextSeq seq =>
      cases hs
      exact Nat.mod_lt _ (by norm_num)
    | execute =>
      cases hs
      exact hr

/-- **The test of `AssignNextSeq` is exact if and only if as many numbers have been assigned as executed**,
as long as the executed ones have 32 bits. -/
theorem assignNextSeq_exact_iff {cfg : Config} (hmax : cfg.maxProcessTxn < 2 ^ 32) {r : Replica}
    (h : (seqSystem cfg).Reachable always r)
    (hexecuted : r.maxPendingExecutedSeq < 2 ^ 32) :
    r.AssignsExactly cfg ↔ r.maxPendingExecutedSeq ≤ r.nextSeq := by
  have hnext := nextSeq_lt hmax h
  unfold Replica.AssignsExactly Replica.assignNextSeq
  generalize r.maxPendingExecutedSeq = m at hexecuted ⊢
  constructor
  · intro hexact
    by_contra hlt
    rw [if_pos (by omega), if_pos (by omega)] at hexact
    cases hexact
  · intro hle
    rcases Nat.lt_or_ge cfg.maxProcessTxn (r.nextSeq - m) with hgap | hgap
    · rw [if_pos (by omega), if_neg (by omega)]
    · rw [if_neg (by omega), if_pos (by omega)]

/-- Two numbers have been assigned and one request has been executed. -/
theorem assignNextSeq_exact_iff_assigned :
    ∃ r, (seqSystem (plainConfig 4 false)).Reachable always r ∧
      r.nextSeq = 3 ∧ r.maxPendingExecutedSeq = 1 ∧ r.AssignsExactly (plainConfig 4 false) := by
  have hinit : (seqSystem (plainConfig 4 false)).Reachable always _ := .init ⟨1, 1, 1, rfl⟩
  have hr := TransitionSystem.Reachable.step (a := .execute)
    (.step (a := .assignNextSeq) (.step (a := .assignNextSeq) hinit trivial rfl) trivial rfl) trivial rfl
  exact ⟨_, hr, by decide, by decide, (assignNextSeq_exact_iff (by decide) hr (by decide)).2 (by decide)⟩

/-- A replica that has executed two requests and assigned none cannot assign a number. -/
theorem assignNextSeq_exact_fails :
    ∃ r, (seqSystem (plainConfig 4 false)).Reachable always r ∧
      r.nextSeq ≤ r.maxPendingExecutedSeq + 1 ∧
      (r.assignNextSeq (plainConfig 4 false)).isNone :=
  ⟨_, .step (a := .execute) (.step (a := .execute) (.init ⟨1, 1, 1, rfl⟩) trivial rfl) trivial rfl,
    by decide, by decide⟩

end Pbft
