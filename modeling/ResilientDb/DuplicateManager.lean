/-
**The window of recent hashes.**

`DuplicateManager` remembers the hashes of the requests that were proposed and executed in the last
twenty seconds.  Each hash is in a set, and in a queue with the time at which it came; a thread takes
the old entries from the front of the queue and erases their hashes from the set.

The queue may have two entries of one hash: it was added twice, or erased, which leaves the queue
alone, and added again.  The end of the older entry then erases the hash of the younger
(`DuplicateManager.duplicate_window_fails`).  As long as a hash is added only when the queue has no
entry of it, the window is kept.

Main definitions:

* `RecentHashes` — a set of hashes with the queue of their times;
* `DuplicateManager`, `DuplicateManager.system` — the proposed and the executed hashes under any
  sequence of calls;
* `DuplicateManager.AddedOnce` — the condition.

Main results:

* `RecentHashes.Windowed.expire` — the thread leaves what is in the window;
* `DuplicateManager.duplicate_window` — the window law, in every run that meets the condition.
-/

import ResilientDb.Transition

set_option autoImplicit false

/-- `window_useconds_`. -/
def windowUseconds : Nat := 20000000

/-- Hashes with the times at which they came.  The executed ones also have a sequence number, the
proposed ones have none, and `V` is `Unit`.  The last field is not in the source: what has been added
and not been erased by a call since, the last first. -/
structure RecentHashes (Hash V : Type) where
  hashSet : Finset Hash
  hashTimeQueue : List (Hash × Nat)
  hashSeq : Hash → Option V
  added : List (Hash × V × Nat)

namespace RecentHashes

variable {Hash V : Type}

/-- No hash has come. -/
def empty : RecentHashes Hash V := ⟨∅, [], fun _ => none, []⟩

variable [DecidableEq Hash]

/-- `AddProposed` and `AddExecuted`. -/
def add (r : RecentHashes Hash V) (hash : Hash) (seq : V) (time : Nat) : RecentHashes Hash V where
  hashSet := insert hash r.hashSet
  hashTimeQueue := r.hashTimeQueue ++ [(hash, time)]
  hashSeq := Function.update r.hashSeq hash (some seq)
  added := (hash, seq, time) :: r.added

/-- `CheckAndAddProposed` and `CheckAndAddExecuted`. -/
def checkAndAdd (r : RecentHashes Hash V) (hash : Hash) (seq : V) (time : Nat) :
    Bool × RecentHashes Hash V :=
  if hash ∈ r.hashSet then (true, r) else (false, r.add hash seq time)

/-- `EraseProposed` and `EraseExecuted`; the queue stays. -/
def erase (r : RecentHashes Hash V) (hash : Hash) : RecentHashes Hash V :=
  { r with
    hashSet := r.hashSet.erase hash
    hashSeq := Function.update r.hashSeq hash none
    added := r.added.filter (·.1 ≠ hash) }

/-- One round of a loop of `UpdateRecentHash`, under the lock. -/
def expire (r : RecentHashes Hash V) (time : Nat) : RecentHashes Hash V :=
  match r.hashTimeQueue with
  | [] => r
  | (hash, added) :: queue =>
    if added + windowUseconds < time then
      { r with
        hashTimeQueue := queue
        hashSet := r.hashSet.erase hash
        hashSeq := Function.update r.hashSeq hash none }
    else r

/-- The queue has no entry of the hash. -/
def Unqueued (r : RecentHashes Hash V) (hash : Hash) : Prop := hash ∉ r.hashTimeQueue.map Prod.fst

instance (r : RecentHashes Hash V) (hash : Hash) : Decidable (r.Unqueued hash) :=
  inferInstanceAs (Decidable (¬ _))

/-- The queue has one entry of each hash, and what was added is in the queue and the set, or too old. -/
structure Windowed (r : RecentHashes Hash V) (clock : Nat) : Prop where
  nodup : (r.hashTimeQueue.map Prod.fst).Nodup
  kept : ∀ a ∈ r.added, ((a.1, a.2.2) ∈ r.hashTimeQueue ∧ a.1 ∈ r.hashSet ∧
    r.hashSeq a.1 = some a.2.1) ∨ a.2.2 + windowUseconds < clock

namespace Windowed

variable {r : RecentHashes Hash V} {clock : Nat} {hash : Hash}

omit [DecidableEq Hash] in
theorem empty : (empty : RecentHashes Hash V).Windowed clock :=
  ⟨List.nodup_nil, nofun⟩

section

variable (h : r.Windowed clock)
include h

omit [DecidableEq Hash] in
theorem mono {later : Nat} (hle : clock ≤ later) : r.Windowed later :=
  ⟨h.nodup, fun a ha => (h.kept a ha).imp_right fun hold => hold.trans_le hle⟩

theorem add (hash : Hash) (seq : V) (time : Nat) (hnew : r.Unqueued hash) :
    (r.add hash seq time).Windowed clock := by
  constructor
  · rw [RecentHashes.add, List.map_append]
    refine List.nodup_append.2 ⟨h.nodup, List.nodup_singleton _, ?_⟩
    rintro x hx _ hy rfl
    obtain rfl : x = hash := List.mem_singleton.1 hy
    exact hnew hx
  · intro a ha
    rcases List.mem_cons.1 ha with rfl | ha
    · exact .inl ⟨List.mem_append_right _ (List.mem_singleton.2 rfl), Finset.mem_insert_self _ _,
        Function.update_self _ _ _⟩
    refine (h.kept a ha).imp_left fun ⟨hqueue, hset, hseq⟩ => ?_
    -- the queue has an entry of the older hash, so it is another one
    have hne : a.1 ≠ hash := fun heq => hnew (heq ▸ List.mem_map_of_mem hqueue)
    exact ⟨List.mem_append_left _ hqueue, Finset.mem_insert_of_mem hset,
      (Function.update_of_ne hne _ _).trans hseq⟩

theorem checkAndAdd (hash : Hash) (seq : V) (time : Nat)
    (hnew : hash ∈ r.hashSet ∨ r.Unqueued hash) : (r.checkAndAdd hash seq time).2.Windowed clock := by
  rw [RecentHashes.checkAndAdd]
  split
  case isTrue => exact h
  case isFalse hset => exact h.add hash seq time (hnew.resolve_left hset)

theorem erase (hash : Hash) : (r.erase hash).Windowed clock := by
  refine ⟨h.nodup, fun a ha => ?_⟩
  obtain ⟨ha, hne⟩ := List.mem_filter.1 ha
  have hne : a.1 ≠ hash := of_decide_eq_true hne
  refine (h.kept a ha).imp_left fun ⟨hqueue, hset, hseq⟩ => ?_
  exact ⟨hqueue, Finset.mem_erase.2 ⟨hne, hset⟩, (Function.update_of_ne hne _ _).trans hseq⟩

/-- **The thread leaves what is in the window.** -/
theorem expire {time : Nat} (hle : time ≤ clock) : (r.expire time).Windowed clock := by
  rw [RecentHashes.expire]
  split
  case h_1 => exact h
  case h_2 hash added queue hqueue =>
    split
    case isFalse => exact h
    case isTrue hold =>
      have hnodup := h.nodup
      rw [hqueue, List.map_cons, List.nodup_cons] at hnodup
      refine ⟨hnodup.2, fun a ha => ?_⟩
      rcases h.kept a ha with ⟨hmem, hset, hseq⟩ | hexpired
      · rw [hqueue] at hmem
        rcases List.mem_cons.1 hmem with heq | hmem
        · -- the entry that is taken off is the one of this hash
          obtain ⟨-, htime⟩ := Prod.mk.inj heq
          exact .inr (by omega)
        · have hfst : a.1 ∈ queue.map Prod.fst := List.mem_map_of_mem hmem
          have hne : a.1 ≠ hash := fun heq => hnodup.1 (heq ▸ hfst)
          exact .inl ⟨hmem, Finset.mem_erase.2 ⟨hne, hset⟩,
            (Function.update_of_ne hne _ _).trans hseq⟩
      · exact .inr hexpired

end

end Windowed

end RecentHashes

/-- `DuplicateManager`, with the current time. -/
structure DuplicateManager (Hash : Type) where
  proposed : RecentHashes Hash Unit
  executed : RecentHashes Hash Nat
  clock : Nat

namespace DuplicateManager

variable {Hash : Type} [DecidableEq Hash]

/-- `CheckIfProposed`. -/
def checkIfProposed (m : DuplicateManager Hash) (hash : Hash) : Bool := hash ∈ m.proposed.hashSet

/-- `CheckIfExecuted`. -/
def checkIfExecuted (m : DuplicateManager Hash) (hash : Hash) : Nat :=
  if hash ∈ m.executed.hashSet then (m.executed.hashSeq hash).getD 0 else 0

/-- `AddProposed`. -/
def addProposed (m : DuplicateManager Hash) (hash : Hash) : DuplicateManager Hash :=
  { m with proposed := m.proposed.add hash () m.clock }

/-- `AddExecuted`. -/
def addExecuted (m : DuplicateManager Hash) (hash : Hash) (seq : Nat) : DuplicateManager Hash :=
  { m with executed := m.executed.add hash seq m.clock }

/-- `CheckAndAddProposed`. -/
def checkAndAddProposed (m : DuplicateManager Hash) (hash : Hash) : Bool × DuplicateManager Hash :=
  let r := m.proposed.checkAndAdd hash () m.clock
  (r.1, { m with proposed := r.2 })

/-- `CheckAndAddExecuted`. -/
def checkAndAddExecuted (m : DuplicateManager Hash) (hash : Hash) (seq : Nat) :
    Bool × DuplicateManager Hash :=
  let r := m.executed.checkAndAdd hash seq m.clock
  (r.1, { m with executed := r.2 })

/-- `EraseProposed`. -/
def eraseProposed (m : DuplicateManager Hash) (hash : Hash) : DuplicateManager Hash :=
  { m with proposed := m.proposed.erase hash }

/-- `EraseExecuted`. -/
def eraseExecuted (m : DuplicateManager Hash) (hash : Hash) : DuplicateManager Hash :=
  { m with executed := m.executed.erase hash }

/-- A call, a round of one of the two loops of `UpdateRecentHash`, or the passing of time. -/
inductive Action (Hash : Type)
  | addProposed (hash : Hash)
  | checkAndAddProposed (hash : Hash)
  | eraseProposed (hash : Hash)
  | addExecuted (hash : Hash) (seq : Nat)
  | checkAndAddExecuted (hash : Hash) (seq : Nat)
  | eraseExecuted (hash : Hash)
  | expireProposed (time : Nat)
  | expireExecuted (time : Nat)
  | tick (time : Nat)

/-- One action.  The thread sleeps until the time it works with. -/
def step (m : DuplicateManager Hash) : Action Hash → Option (DuplicateManager Hash)
  | .addProposed hash => some (m.addProposed hash)
  | .checkAndAddProposed hash => some (m.checkAndAddProposed hash).2
  | .eraseProposed hash => some (m.eraseProposed hash)
  | .addExecuted hash seq => some (m.addExecuted hash seq)
  | .checkAndAddExecuted hash seq => some (m.checkAndAddExecuted hash seq).2
  | .eraseExecuted hash => some (m.eraseExecuted hash)
  | .expireProposed time =>
    if time ≤ m.clock then some { m with proposed := m.proposed.expire time } else none
  | .expireExecuted time =>
    if time ≤ m.clock then some { m with executed := m.executed.expire time } else none
  | .tick time => if m.clock ≤ time then some { m with clock := time } else none

/-- The manager, from its start. -/
def system (Hash : Type) [DecidableEq Hash] :
    TransitionSystem (DuplicateManager Hash) (Action Hash) where
  init m := ∃ clock, m = ⟨.empty, .empty, clock⟩
  step := step

/-- The condition: a hash is added only when the queue has no entry of it. -/
def AddedOnce (m : DuplicateManager Hash) : Action Hash → Prop
  | .addProposed hash => m.proposed.Unqueued hash
  | .checkAndAddProposed hash => hash ∈ m.proposed.hashSet ∨ m.proposed.Unqueued hash
  | .addExecuted hash _ => m.executed.Unqueued hash
  | .checkAndAddExecuted hash _ => hash ∈ m.executed.hashSet ∨ m.executed.Unqueued hash
  | _ => True

instance (m : DuplicateManager Hash) (a : Action Hash) : Decidable (m.AddedOnce a) := by
  unfold AddedOnce
  split <;> infer_instance

theorem windowed_step {m m' : DuplicateManager Hash} {a : Action Hash}
    (hm : m.proposed.Windowed m.clock ∧ m.executed.Windowed m.clock) (hok : m.AddedOnce a)
    (h : m.step a = some m') : m'.proposed.Windowed m'.clock ∧ m'.executed.Windowed m'.clock := by
  cases a with
  | addProposed hash =>
    cases h
    exact ⟨hm.1.add hash () m.clock hok, hm.2⟩
  | checkAndAddProposed hash =>
    cases h
    exact ⟨hm.1.checkAndAdd hash () m.clock hok, hm.2⟩
  | eraseProposed hash =>
    cases h
    exact ⟨hm.1.erase hash, hm.2⟩
  | addExecuted hash seq =>
    cases h
    exact ⟨hm.1, hm.2.add hash seq m.clock hok⟩
  | checkAndAddExecuted hash seq =>
    cases h
    exact ⟨hm.1, hm.2.checkAndAdd hash seq m.clock hok⟩
  | eraseExecuted hash =>
    cases h
    exact ⟨hm.1, hm.2.erase hash⟩
  | expireProposed time =>
    obtain ⟨hle, h⟩ := Option.ite_none_right_eq_some.1 h
    cases h
    exact ⟨hm.1.expire hle, hm.2⟩
  | expireExecuted time =>
    obtain ⟨hle, h⟩ := Option.ite_none_right_eq_some.1 h
    cases h
    exact ⟨hm.1, hm.2.expire hle⟩
  | tick time =>
    obtain ⟨hle, h⟩ := Option.ite_none_right_eq_some.1 h
    cases h
    exact ⟨hm.1.mono hle, hm.2.mono hle⟩

/-- A hash that was added in the window and not erased since is proposed. -/
def ProposedWindow (m : DuplicateManager Hash) (hash : Hash) : Prop :=
  ∀ a ∈ m.proposed.added, a.1 = hash → m.clock ≤ a.2.2 + windowUseconds →
    m.checkIfProposed hash = true

/-- The last sequence number added for the hash in the window is the one that is returned. -/
def ExecutedWindow (m : DuplicateManager Hash) (hash : Hash) : Prop :=
  ∀ a, m.executed.added.find? (fun a => a.1 = hash ∧ m.clock ≤ a.2.2 + windowUseconds) = some a →
    m.checkIfExecuted hash = a.2.1

/-- **The window law**, in every state of a run that meets the condition. -/
theorem duplicate_window {m : DuplicateManager Hash} (hm : (system Hash).Reachable AddedOnce m)
    (hash : Hash) : m.ProposedWindow hash ∧ m.ExecutedWindow hash := by
  have hwindow : m.proposed.Windowed m.clock ∧ m.executed.Windowed m.clock := by
    refine hm.invariant (I := fun m => m.proposed.Windowed m.clock ∧ m.executed.Windowed m.clock)
      ?_ fun _ _ _ hm hok h => windowed_step hm hok h
    rintro _ ⟨clock, rfl⟩
    exact ⟨.empty, .empty⟩
  constructor
  · rintro a ha rfl hclock
    rcases hwindow.1.kept a ha with ⟨-, hset, -⟩ | hold
    · exact decide_eq_true hset
    · omega
  · intro a ha
    have hfound := List.find?_some ha
    obtain ⟨rfl, hclock⟩ := of_decide_eq_true hfound
    rcases hwindow.2.kept a (List.mem_of_find?_eq_some ha) with ⟨-, hset, hseq⟩ | hold
    · rw [checkIfExecuted, if_pos hset, hseq, Option.getD_some]
    · omega

/-- A request is proposed, then executed, and the thread looks at it after ten seconds. -/
def oneRequest : List (Action Nat) :=
  [.checkAndAddProposed 7, .addExecuted 7 3, .tick 10000000, .expireProposed 10000000,
    .expireExecuted 10000000]

theorem duplicate_window_oneRequest : ∃ m, (system Nat).Reachable AddedOnce m ∧
    m.checkIfProposed 7 = true ∧ m.checkIfExecuted 7 = 3 := by
  obtain ⟨m, hreach, hproposed, hexecuted, hclock⟩ := (system Nat).exists_reachable (C := AddedOnce)
    (P := fun m => m.proposed.added = [(7, (), 0)] ∧ m.executed.added = [(7, 3, 0)] ∧
      m.clock = 10000000) oneRequest ⟨0, rfl⟩ (by decide +kernel) (by decide +kernel)
  have h := duplicate_window hreach 7
  refine ⟨m, hreach, h.1 (7, (), 0) (by simp [hproposed]) rfl ?_, h.2 (7, 3, 0) ?_⟩
  · rw [hclock]
    decide
  · rw [hexecuted, hclock]
    decide

/-- A proposed hash is erased, because there was no sequence number, and added again after fifteen
seconds; an executed one is added twice. -/
def twoEntries : List (Action Nat) :=
  [.checkAndAddProposed 7, .eraseProposed 7, .addExecuted 7 3, .tick 15000000,
    .checkAndAddProposed 7, .addExecuted 7 4, .tick 21000000, .expireProposed 21000000,
    .expireExecuted 21000000]

/-- The end of the first entries erases both hashes, six seconds after they were added again. -/
theorem duplicate_window_fails : ∃ m : DuplicateManager Nat,
    (system Nat).Reachable TransitionSystem.always m ∧
      ¬ m.ProposedWindow 7 ∧ ¬ m.ExecutedWindow 7 := by
  obtain ⟨m, hreach, ⟨hadded, hproposed⟩, ⟨hhead, hexecuted⟩, hclock⟩ :=
    (system Nat).exists_reachable_always
      (P := fun m => ((7, (), 15000000) ∈ m.proposed.added ∧ m.checkIfProposed 7 = false) ∧
        (m.executed.added.head? = some (7, 4, 15000000) ∧ m.checkIfExecuted 7 = 0) ∧
        m.clock = 21000000) twoEntries ⟨0, rfl⟩ (by decide +kernel)
  refine ⟨m, hreach, fun h => ?_, fun h => ?_⟩
  · have hlaw := h _ hadded rfl (by rw [hclock]; decide)
    rw [hproposed] at hlaw
    cases hlaw
  · obtain ⟨rest, hrest⟩ := List.head?_eq_some_iff.1 hhead
    have hlaw := h (7, 4, 15000000) (by rw [hrest, hclock]; rfl)
    rw [hexecuted] at hlaw
    cases hlaw

end DuplicateManager
