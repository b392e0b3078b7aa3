/-
**A storage as an array of cells.**

The answers about the latest values of a storage depend on one value for every key, or on two: the
last one written.  A write goes to one such cell, and it replaces the value there if its sequence number
is not below the one of the cell, or if its version is the one of the cell; otherwise it changes
nothing.

Recovery executes the last batches again on a storage that has their effects already.  What this does is
a matter of single cells: a cell that was written with a sequence number gets the same values again from
the last such write on, and a cell that has only seen versions refuses all of them, if each was known to
the cell when it came first.

Main definitions:

* `Kv.Write`, `Kv.Write.next` — a write, and what it does to a cell;
* `Kv.CellModel` — a storage that is an array of cells;
* `Kv.Batch`, `Kv.replay` — execute batches one after the other;
* `Kv.NotAhead` — no write names a version that is still to come.

Main results:

* `Kv.foldl_next_again` — one cell is unchanged when its last writes are repeated;
* `Kv.CellModel.run` — a run applies to every cell the writes that go there;
* `Kv.CellModel.replay_same` — repeated batches change no answer.
-/

import ResilientDb.LevelDb
import ResilientDb.Transition

set_option autoImplicit false

namespace Kv

open Wire (Bytes)

/-! ### Writes -/

/-- A request that writes. -/
structure Write where
  key : Bytes
  value : Bytes
  /-- The sequence number of its batch. -/
  seq : ℕ
  /-- The version that it expects, if it is `SET_WITH_VERSION`. -/
  version : Option ℤ := none
  /-- The key is shorter than the message. -/
  key_size : key.length < 2 ^ 31

/-- The write that a request of a batch is. -/
def KVRequest.write (q : KVRequest) (seq : ℕ) : Option Write :=
  match q.cmd with
  | .set => some { key := q.key, value := q.value, seq := seq, key_size := q.key_size }
  | .setWithVersion =>
    some { key := q.key, value := q.value, seq := seq, version := some q.version,
           key_size := q.key_size }
  | _ => none

/-- What the executor calls. -/
def Write.apply {σ : Type} [Storage σ] (w : Write) (st : σ) : Option (ℤ × σ) :=
  match w.version with
  | none => Storage.setValueWithSeq st w.key w.value w.seq
  | some version => Storage.setValueWithVersion st w.key w.value version

/-! ### One cell -/

/-- The sequence number of the value in a cell. -/
def cellSeq (c : Option Value) : ℕ := (c.map Value.seq).getD 0

/-- The version of the value in a cell. -/
def cellVersion (c : Option Value) : ℤ := (c.map Value.version).getD 0

/-- What a write does to its cell. -/
def Write.next (c : Option Value) (w : Write) : Option Value :=
  match w.version with
  | none => if w.seq < cellSeq c then c else some { value := w.value, seq := w.seq }
  | some version =>
    if cellVersion c ≠ version then c else some { value := w.value, version := version + 1 }

/-- What a write does to the values of its cell, the oldest first.  Only sequence numbers drop values. -/
def Write.extend (maxHistory : ℕ) (vs : List Value) (w : Write) : List Value :=
  match w.version with
  | none =>
    if w.seq < cellSeq vs.getLast? then vs
    else trim maxHistory (vs ++ [{ value := w.value, seq := w.seq }])
  | some version =>
    if cellVersion vs.getLast? ≠ version then vs
    else vs ++ [{ value := w.value, version := version + 1 }]

/-- The versions of the writes are not above the one of the cell. -/
def KnownVersions : Option Value → List Write → Prop
  | _, [] => True
  | c, w :: ws => (∀ v ∈ w.version, v ≤ cellVersion c) ∧ KnownVersions (w.next c) ws

variable {c : Option Value}

theorem cellSeq_next_le {w : Write} {seq : ℕ} (hc : cellSeq c ≤ seq)
    (hw : w.version = none → w.seq ≤ seq) : cellSeq (w.next c) ≤ seq := by
  unfold Write.next
  split
  · rename_i hversion
    split_ifs
    · exact hc
    · exact hw hversion
  · split_ifs
    · exact hc
    · exact Nat.zero_le seq

theorem cellSeq_foldl_le {seq : ℕ} (ws : List Write) : ∀ {c : Option Value}, cellSeq c ≤ seq →
    (∀ w ∈ ws, w.version = none → w.seq ≤ seq) → cellSeq (ws.foldl Write.next c) ≤ seq := by
  induction ws with
  | nil =>
    intro c hc _
    exact hc
  | cons w ws ih =>
    intro c hc hws
    exact ih (cellSeq_next_le hc (hws w List.mem_cons_self)) fun w' hw' =>
      hws w' (List.mem_cons_of_mem _ hw')

theorem version_lt_foldl (ws : List Write) : ∀ {c : Option Value}, (∀ w ∈ ws, w.version ≠ none) →
    KnownVersions c ws → cellVersion c ≤ cellVersion (ws.foldl Write.next c) ∧
      ∀ w ∈ ws, ∀ v ∈ w.version, v < cellVersion (ws.foldl Write.next c) := by
  induction ws with
  | nil =>
    intro c _ _
    exact ⟨le_rfl, nofun⟩
  | cons w ws ih =>
    intro c hws hknown
    obtain ⟨version, hversion⟩ := Option.ne_none_iff_exists'.1 (hws w List.mem_cons_self)
    have hle : version ≤ cellVersion c := hknown.1 version hversion
    -- accepted or not, the cell is past the version of the write
    have hnext : version < cellVersion (w.next c) ∧ cellVersion c ≤ cellVersion (w.next c) := by
      unfold Write.next
      rw [hversion]
      dsimp only
      split_ifs with hne
      · exact ⟨lt_of_le_of_ne hle hne.symm, le_rfl⟩
      · rw [not_not.1 hne]
        exact ⟨lt_add_one version, (lt_add_one version).le⟩
    obtain ⟨hmono, hlt⟩ := ih (fun w' hw' => hws w' (List.mem_cons_of_mem _ hw')) hknown.2
    refine ⟨hnext.2.trans hmono, fun w' hw' v hv => ?_⟩
    rcases List.mem_cons.1 hw' with rfl | hw'
    · obtain rfl : version = v := Option.some.inj (hversion.symm.trans hv)
      exact hnext.1.trans_le hmono
    · exact hlt w' hw' v hv

theorem foldl_next_of_version_lt (ws : List Write)
    (h : ∀ w ∈ ws, ∃ v ∈ w.version, v < cellVersion c) : ws.foldl Write.next c = c := by
  induction ws with
  | nil => rfl
  | cons w ws ih =>
    obtain ⟨v, hv, hlt⟩ := h w List.mem_cons_self
    have hnext : w.next c = c := by
      rw [Write.next, hv]
      exact if_pos hlt.ne'
    rw [List.foldl_cons, hnext]
    exact ih fun w' hw' => h w' (List.mem_cons_of_mem _ hw')

theorem next_of_seq_le {w : Write} (hw : w.version = none)
    (hseq : cellSeq c ≤ w.seq) : w.next c = some { value := w.value, seq := w.seq } := by
  rw [Write.next, hw]
  exact if_neg hseq.not_gt

/-- The last write with a sequence number, if there is one. -/
theorem exists_last_set (ws : List Write) : (∀ w ∈ ws, w.version ≠ none) ∨
    ∃ before w after, ws = before ++ w :: after ∧ w.version = none ∧
      ∀ w' ∈ after, w'.version ≠ none := by
  induction ws with
  | nil => exact .inl nofun
  | cons w ws ih =>
    rcases ih with hnone | ⟨before, w', after, rfl, hw', hafter⟩
    · by_cases hw : w.version = none
      · exact .inr ⟨[], w, ws, rfl, hw, hnone⟩
      · refine .inl fun w' hw' => ?_
        rcases List.mem_cons.1 hw' with rfl | hw'
        · exact hw
        · exact hnone w' hw'
    · exact .inr ⟨w :: before, w', after, rfl, hw', hafter⟩

/-- **Repeated writes**: a cell that has got all of `pre` and `suf` is the same after `suf` comes once
more, if sequence numbers do not decrease and the cell knew the versions in `suf`. -/
theorem foldl_next_again {pre suf : List Write}
    (hsorted : (pre ++ suf).Pairwise fun w w' => w.seq ≤ w'.seq)
    (hknown : KnownVersions (pre.foldl Write.next none) suf) :
    suf.foldl Write.next (suf.foldl Write.next (pre.foldl Write.next none)) =
      suf.foldl Write.next (pre.foldl Write.next none) := by
  rcases exists_last_set suf with hnone | ⟨before, w, after, rfl, hw, hafter⟩
  · -- only versions, and all of them are behind the cell
    have hlt := (version_lt_foldl suf hnone hknown).2
    refine foldl_next_of_version_lt suf fun w hw => ?_
    obtain ⟨version, hversion⟩ := Option.ne_none_iff_exists'.1 (hnone w hw)
    exact ⟨version, hversion, hlt w hw version hversion⟩
  · -- both times the last write with a sequence number is accepted
    have hle : ∀ w' ∈ pre ++ before, w'.version = none → w'.seq ≤ w.seq := by
      intro w' hw' _
      rw [← List.append_assoc, List.pairwise_append] at hsorted
      exact hsorted.2.2 w' hw' w List.mem_cons_self
    have hafter_le : ∀ w' ∈ after, w'.version = none → w'.seq ≤ w.seq :=
      fun w' hw' hnone => absurd hnone (hafter w' hw')
    have hfrom : ∀ c : Option Value, cellSeq c ≤ w.seq → (before ++ w :: after).foldl Write.next c =
        after.foldl Write.next (some { value := w.value, seq := w.seq }) := by
      intro c hc
      have hbefore := cellSeq_foldl_le before hc fun w' hw' => hle w' (List.mem_append_right _ hw')
      rw [List.foldl_append, List.foldl_cons, next_of_seq_le hw hbefore]
    have hpre : cellSeq (pre.foldl Write.next none) ≤ w.seq :=
      cellSeq_foldl_le pre (Nat.zero_le _) fun w' hw' => hle w' (List.mem_append_left _ hw')
    rw [hfrom _ hpre, hfrom _ (cellSeq_foldl_le after le_rfl hafter_le)]

/-! ### A storage as an array of cells -/

section

variable {σ : Type} [Storage σ]

variable {q : KVRequest}

theorem KeepsReads.executeData {P : σ → Prop} (h : KeepsReads P) {e : KVExecutor σ}
    (he : P e.storage) (hq : q.write e.seq = none) :
    ∃ r, executeData e q = some r ∧ r.2.seq = e.seq ∧ P r.2.storage := by
  unfold Kv.executeData
  unfold KVRequest.write at hq
  cases hcmd : q.cmd <;> rw [hcmd] at hq
  case set => cases hq
  case setWithVersion => cases hq
  case get => exact ⟨_, rfl, rfl, h.getValueWithSeq _ _ he⟩
  case getWithVersion => exact ⟨_, rfl, rfl, h.getValueWithVersion _ _ he⟩
  case getHistory => exact ⟨_, rfl, rfl, h.getHistory _ _ _ he⟩
  case getTop => exact ⟨_, rfl, rfl, h.getTopHistory _ _ he⟩
  all_goals exact ⟨_, rfl, rfl, he⟩

theorem executeData_of_write {e : KVExecutor σ} {w : Write} (hq : q.write e.seq = some w) :
    executeData e q = (w.apply e.storage).map fun r => ({}, { e with storage := r.2 }) := by
  unfold executeData
  unfold KVRequest.write at hq
  cases hcmd : q.cmd <;> rw [hcmd] at hq <;> cases hq <;> rfl

/-- A write names no version that is still to come, and none that has no successor. -/
def NotAhead (st : σ) (w : Write) : Prop :=
  ∀ v ∈ w.version, v ≤ (Storage.getValueWithVersion st w.key 0).1.2 ∧ v ≠ 2 ^ 31 - 1

instance (st : σ) (w : Write) : Decidable (NotAhead st w) :=
  inferInstanceAs (Decidable (∀ v ∈ w.version, _))

variable (σ) in
/-- A storage whose answers about the latest values depend on cells. -/
structure CellModel (ι : Type) [DecidableEq ι] where
  /-- The storages of which this is said. -/
  inv : σ → Prop
  /-- The last value. -/
  cell : σ → ι → Option Value
  /-- The cell that a write goes to. -/
  slot : Write → ι
  /-- The storage has room for the write. -/
  ok : σ → Write → Prop
  reads : ∀ c : ι → Option Value, KeepsReads fun st : σ => inv st ∧ cell st = c
  write : ∀ {st : σ} {w : Write} {r : ℤ × σ}, inv st → ok st w → w.apply st = some r →
    inv r.2 ∧ cell r.2 = Function.update (cell st) (slot w) (w.next (cell st (slot w)))
  defined : ∀ {st : σ} {w : Write}, inv st → ok st w → w.version ≠ some (2 ^ 31 - 1) →
    (w.apply st).isSome
  /-- The version that the storage shows is the one of the cell. -/
  current : ∀ {st : σ} {w : Write}, inv st → w.version.isSome →
    (Storage.getValueWithVersion st w.key 0).1.2 = cellVersion (cell st (slot w))
  answers : ∀ {st st' : σ}, inv st → inv st' → cell st = cell st' → SameAnswers st st'

/-! ### Runs -/

/-- The steps of an executor: a batch begins, or a request of it is executed. -/
inductive RequestAction where
  | begin (seq : ℕ)
  | request (q : Option KVRequest)

/-- One step. -/
def requestStep (e : KVExecutor σ) : RequestAction → Option (KVExecutor σ)
  | .begin seq => some { e with seq := seq }
  | .request none => some e
  | .request (some q) => (executeData e q).map Prod.snd

variable (σ) in
/-- The runs of an executor, request by request. -/
def requestSystem : TransitionSystem (KVExecutor σ) RequestAction where
  init := fun e => e.seq = 0
  step := requestStep

/-- A batch that was committed. -/
structure Batch where
  seq : ℕ
  requests : List (Option KVRequest)

/-- The steps of a batch. -/
def Batch.actions (b : Batch) : List RequestAction :=
  .begin b.seq :: b.requests.map .request

/-- The writes of a batch. -/
def Batch.writes (b : Batch) : List Write :=
  b.requests.filterMap fun q => q.bind fun q => q.write b.seq

/-- Execute the batches. -/
def replay (e : KVExecutor σ) : List Batch → Option (KVExecutor σ)
  | [] => some e
  | b :: bs => (executeBatchWithSeq e b.seq b.requests).bind fun r => replay r.2 bs

/-- The condition holds of every write, in the state in which it comes. -/
def OnWrites (ok : σ → Write → Prop) (e : KVExecutor σ) : RequestAction → Prop
  | .begin _ => True
  | .request none => True
  | .request (some q) => ∀ w ∈ q.write e.seq, ok e.storage w

instance (ok : σ → Write → Prop) [∀ st w, Decidable (ok st w)] (e : KVExecutor σ) (a : RequestAction) :
    Decidable (OnWrites ok e a) := by
  unfold OnWrites
  split <;> infer_instance

/-- The condition holds of every write of the batches. -/
def Meets (ok : σ → Write → Prop) (e : KVExecutor σ) (bs : List Batch) : Prop :=
  (requestSystem σ).Guarded (OnWrites ok) e (bs.flatMap Batch.actions)

instance (ok : σ → Write → Prop) [∀ st w, Decidable (ok st w)] (e : KVExecutor σ)
    (bs : List Batch) : Decidable (Meets ok e bs) :=
  inferInstanceAs (Decidable (TransitionSystem.Guarded _ _ _ _))

theorem run_requests (as : List RequestAction) : ∀ (qs : List (Option KVRequest)) (e : KVExecutor σ),
    (requestSystem σ).run e (qs.map .request ++ as) =
      (executeBatch e qs).bind fun r => (requestSystem σ).run r.2 as := by
  intro qs
  induction qs with
  | nil =>
    intro e
    rfl
  | cons q qs ih =>
    intro e
    -- the step of the system is the request, without its response
    have hstep : (requestSystem σ).step e (.request q) = (executeParsed e q).map Prod.snd := by
      cases q with
      | none => rfl
      | some q =>
        rw [executeParsed, Option.map_map]
        rfl
    rw [List.map_cons, List.cons_append, TransitionSystem.run, hstep, Option.bind_map, executeBatch,
      executeAll]
    simp only [bind, Option.bind_assoc]
    exact Option.bind_congr fun r _ => ih r.2

/-- A replay is a run of the requests. -/
theorem replay_eq_run : ∀ (bs : List Batch) (e : KVExecutor σ),
    replay e bs = (requestSystem σ).run e (bs.flatMap Batch.actions) := by
  intro bs
  induction bs with
  | nil =>
    intro e
    rfl
  | cons b bs ih =>
    intro e
    rw [List.flatMap_cons, Batch.actions, List.cons_append, TransitionSystem.run]
    change _ = (requestSystem σ).run { e with seq := b.seq } _
    rw [run_requests, replay, executeBatchWithSeq]
    exact Option.bind_congr fun r _ => ih r.2

/-- The writes of some steps. -/
def writesOf : ℕ → List RequestAction → List Write
  | _, [] => []
  | _, .begin seq :: as => writesOf seq as
  | seq, .request q :: as => (q.bind fun q => q.write seq).toList ++ writesOf seq as

theorem writesOf_actions (bs : List Batch) : ∀ seq : ℕ,
    writesOf seq (bs.flatMap Batch.actions) = bs.flatMap Batch.writes := by
  have hbatch : ∀ (seq : ℕ) (as : List RequestAction) (qs : List (Option KVRequest)),
      writesOf seq (qs.map .request ++ as) =
        (qs.filterMap fun q => q.bind fun q => q.write seq) ++ writesOf seq as := by
    intro seq as qs
    induction qs with
    | nil => rfl
    | cons q qs ih =>
      rw [List.map_cons, List.cons_append, writesOf, ih, List.filterMap_cons]
      cases q.bind fun q => q.write seq <;> rfl
  induction bs with
  | nil =>
    intro seq
    rfl
  | cons b bs ih =>
    intro seq
    rw [List.flatMap_cons, Batch.actions, List.cons_append, writesOf, hbatch, ih]
    rfl

theorem write_seq {seq : ℕ} {w : Write} (h : q.write seq = some w) : w.seq = seq := by
  unfold KVRequest.write at h
  split at h <;> cases h <;> rfl

theorem pairwise_writes {bs : List Batch} (h : bs.Pairwise fun b b' => b.seq ≤ b'.seq) :
    (bs.flatMap Batch.writes).Pairwise fun w w' => w.seq ≤ w'.seq := by
  have hseq : ∀ (b : Batch), ∀ w ∈ b.writes, w.seq = b.seq := by
    intro b w hw
    obtain ⟨q, -, hq⟩ := List.mem_filterMap.1 hw
    obtain ⟨q, -, hq⟩ := Option.bind_eq_some_iff.1 hq
    exact write_seq hq
  rw [List.pairwise_flatMap]
  constructor
  · intro b _
    refine List.Pairwise.imp_of_mem (R := fun _ _ => True) (fun {w w'} hw hw' _ => ?_)
      (List.pairwise_of_forall fun _ _ => trivial)
    rw [hseq b w hw, hseq b w' hw']
  · refine h.imp fun {b b'} hle w hw w' hw' => ?_
    rw [hseq b w hw, hseq b' w' hw']
    exact hle

namespace CellModel

variable {ι : Type} [DecidableEq ι] (M : CellModel σ ι)

/-- The writes of some steps that go to a cell. -/
def writesTo (i : ι) (seq : ℕ) (as : List RequestAction) : List Write :=
  (writesOf seq as).filter fun w => M.slot w = i

variable {M}

/-- A request reads, or writes to one cell. -/
theorem step_cases {e e' : KVExecutor σ} {a : RequestAction} (hinv : M.inv e.storage)
    (hok : OnWrites M.ok e a) (hs : (requestSystem σ).step e a = some e') : M.inv e'.storage ∧
      (((∀ as, writesOf e.seq (a :: as) = writesOf e'.seq as) ∧
          M.cell e'.storage = M.cell e.storage) ∨
        ∃ w, (∀ ok : σ → Write → Prop, OnWrites ok e a → ok e.storage w) ∧
          (∀ as, writesOf e.seq (a :: as) = w :: writesOf e'.seq as) ∧
          M.cell e'.storage = Function.update (M.cell e.storage) (M.slot w)
            (w.next (M.cell e.storage (M.slot w)))) := by
  cases a with
  | begin seq =>
    cases hs
    exact ⟨hinv, .inl ⟨fun as => rfl, rfl⟩⟩
  | request q =>
    cases q with
    | none =>
      cases hs
      exact ⟨hinv, .inl ⟨fun as => rfl, rfl⟩⟩
    | some q =>
      obtain ⟨r, hr, rfl⟩ := Option.map_eq_some_iff.1 hs
      cases hw : q.write e.seq with
      | none =>
        obtain ⟨r', hr', hseq, hinv', hcell⟩ :=
          (M.reads (M.cell e.storage)).executeData ⟨hinv, rfl⟩ hw
        obtain rfl : r' = r := Option.some.inj (hr'.symm.trans hr)
        refine ⟨hinv', .inl ⟨fun as => ?_, hcell⟩⟩
        rw [hseq, writesOf, Option.bind_some, hw]
        rfl
      | some w =>
        rw [executeData_of_write hw] at hr
        obtain ⟨s, hs', rfl⟩ := Option.map_eq_some_iff.1 hr
        obtain ⟨hinv', hcell⟩ := M.write hinv (hok w hw) hs'
        refine ⟨hinv', .inr ⟨w, fun ok h => h w hw, fun as => ?_, hcell⟩⟩
        rw [writesOf, Option.bind_some, hw]
        rfl

/-- **A run applies to every cell the writes that go there**, and the cell knows their versions if no
write of the run is ahead. -/
theorem run (as : List RequestAction) : ∀ {e e' : KVExecutor σ}, M.inv e.storage →
    (requestSystem σ).Guarded (OnWrites M.ok) e as → (requestSystem σ).run e as = some e' →
    M.inv e'.storage ∧ ∀ i,
      M.cell e'.storage i = (M.writesTo i e.seq as).foldl Write.next (M.cell e.storage i) ∧
      ((requestSystem σ).Guarded (OnWrites NotAhead) e as →
        KnownVersions (M.cell e.storage i) (M.writesTo i e.seq as)) := by
  induction as with
  | nil =>
    intro e e' hinv _ hrun
    cases hrun
    exact ⟨hinv, fun i => ⟨rfl, fun _ => trivial⟩⟩
  | cons a as ih =>
    intro e e' hinv hok hrun
    obtain ⟨e₁, hs, hrun⟩ := Option.bind_eq_some_iff.1 hrun
    obtain ⟨ha, hok⟩ := hok
    rw [hs] at hok
    obtain ⟨hinv₁, hcases⟩ := step_cases hinv ha hs
    obtain ⟨hinv', hcells'⟩ := ih hinv₁ hok hrun
    refine ⟨hinv', fun i => ?_⟩
    obtain ⟨hcell', hknown'⟩ := hcells' i
    -- the condition on the rest of the run is about the state after this step
    have hrest : (requestSystem σ).Guarded (OnWrites NotAhead) e (a :: as) →
        (requestSystem σ).Guarded (OnWrites NotAhead) e₁ as := by
      intro hahead
      have hahead' := hahead.2
      rwa [hs] at hahead'
    rcases hcases with ⟨hwrites, hcell⟩ | ⟨w, hw, hwrites, hcell⟩
    · have hto : M.writesTo i e.seq (a :: as) = M.writesTo i e₁.seq as := by
        rw [writesTo, hwrites]
        rfl
      rw [hto, ← hcell]
      exact ⟨hcell', fun hahead => hknown' (hrest hahead)⟩
    · by_cases hi : M.slot w = i
      · have hto : M.writesTo i e.seq (a :: as) = w :: M.writesTo i e₁.seq as := by
          rw [writesTo, hwrites, List.filter_cons, if_pos (decide_eq_true hi)]
          rfl
        rw [hcell, ← hi, Function.update_self, hi] at hcell' hknown'
        rw [hto]
        refine ⟨hcell', fun hahead => ⟨fun v hv => ?_, hknown' (hrest hahead)⟩⟩
        rw [← hi, ← M.current hinv (Option.isSome_iff_exists.2 ⟨v, hv⟩)]
        exact (hw NotAhead hahead.1 v hv).1
      · have hto : M.writesTo i e.seq (a :: as) = M.writesTo i e₁.seq as := by
          rw [writesTo, hwrites, List.filter_cons, if_neg (by simpa using hi)]
          rfl
        rw [hcell, Function.update_of_ne (Ne.symm hi)] at hcell' hknown'
        rw [hto]
        exact ⟨hcell', fun hahead => hknown' (hrest hahead)⟩

theorem version_ne_of_notAhead (as : List RequestAction) : ∀ {e e' : KVExecutor σ},
    M.inv e.storage → (requestSystem σ).Guarded (OnWrites M.ok) e as →
    (requestSystem σ).Guarded (OnWrites NotAhead) e as → (requestSystem σ).run e as = some e' →
    ∀ w ∈ writesOf e.seq as, w.version ≠ some (2 ^ 31 - 1) := by
  induction as with
  | nil =>
    intro e e' _ _ _ _ w hw
    cases hw
  | cons a as ih =>
    intro e e' hinv hok hahead hrun w hw
    obtain ⟨e₁, hs, hrun⟩ := Option.bind_eq_some_iff.1 hrun
    obtain ⟨ha, hok⟩ := hok
    obtain ⟨ha', hahead⟩ := hahead
    rw [hs] at hok hahead
    obtain ⟨hinv₁, hcases⟩ := step_cases hinv ha hs
    rcases hcases with ⟨hwrites, -⟩ | ⟨w', hw', hwrites, -⟩
    · rw [hwrites] at hw
      exact ih hinv₁ hok hahead hrun w hw
    · rw [hwrites] at hw
      rcases List.mem_cons.1 hw with rfl | hw
      · exact fun hversion => (hw' NotAhead ha' _ hversion).2 rfl
      · exact ih hinv₁ hok hahead hrun w hw

/-- A run with room returns. -/
theorem run_isSome (as : List RequestAction) : ∀ {e : KVExecutor σ}, M.inv e.storage →
    (requestSystem σ).Guarded (OnWrites M.ok) e as →
    (∀ w ∈ writesOf e.seq as, w.version ≠ some (2 ^ 31 - 1)) →
    ((requestSystem σ).run e as).isSome := by
  induction as with
  | nil =>
    intro e _ _ _
    rfl
  | cons a as ih =>
    intro e hinv hok hversions
    have hstep : ((requestSystem σ).step e a).isSome := by
      cases a with
      | begin seq => rfl
      | request q =>
        cases q with
        | none => rfl
        | some q =>
          refine Option.isSome_map.trans ?_
          cases hw : q.write e.seq with
          | none =>
            obtain ⟨r, hr, -⟩ :=
              (M.reads (M.cell e.storage)).executeData ⟨hinv, rfl⟩ hw
            rw [hr]
            rfl
          | some w =>
            rw [executeData_of_write hw, Option.isSome_map]
            refine M.defined hinv (hok.1 w hw) (hversions w ?_)
            rw [writesOf, Option.bind_some, hw]
            exact List.mem_cons_self
    obtain ⟨e₁, hs⟩ := Option.isSome_iff_exists.1 hstep
    obtain ⟨ha, hok⟩ := hok
    rw [hs] at hok
    obtain ⟨hinv₁, hcases⟩ := step_cases hinv ha hs
    rw [TransitionSystem.run, hs]
    refine ih hinv₁ hok fun w hw => hversions w ?_
    rcases hcases with ⟨hwrites, -⟩ | ⟨w', -, hwrites, -⟩
    · rw [hwrites]
      exact hw
    · rw [hwrites]
      exact List.mem_cons_of_mem _ hw

/-- **Repeated batches change no answer.** -/
theorem replay_same {e₀ e₁ e₂ : KVExecutor σ} {pre suf : List Batch} (hinv : M.inv e₀.storage)
    (hempty : ∀ i, M.cell e₀.storage i = none)
    (hsorted : (pre ++ suf).Pairwise fun b b' => b.seq ≤ b'.seq)
    (h₁ : replay e₀ pre = some e₁) (h₂ : replay e₁ suf = some e₂) (hok₁ : Meets M.ok e₀ pre)
    (hok₂ : Meets M.ok e₁ suf) (hok₃ : Meets M.ok e₂ suf) (hahead : Meets NotAhead e₁ suf) :
    ∃ e₃, replay e₂ suf = some e₃ ∧ SameAnswers e₂.storage e₃.storage := by
  rw [replay_eq_run] at h₁ h₂
  obtain ⟨hinv₁, hcells₁⟩ := run _ hinv hok₁ h₁
  obtain ⟨hinv₂, hcells₂⟩ := run _ hinv₁ hok₂ h₂
  have hversions := version_ne_of_notAhead _ hinv₁ hok₂ hahead h₂
  rw [writesOf_actions] at hversions
  have hdefined := run_isSome (suf.flatMap Batch.actions) hinv₂ hok₃
    (by rw [writesOf_actions]; exact hversions)
  obtain ⟨e₃, h₃⟩ := Option.isSome_iff_exists.1 hdefined
  obtain ⟨hinv₃, hcells₃⟩ := run _ hinv₂ hok₃ h₃
  refine ⟨e₃, by rw [replay_eq_run]; exact h₃, M.answers hinv₂ hinv₃ (funext fun i => ?_)⟩
  -- the same writes go to the cell each time
  obtain ⟨hcell₁, -⟩ := hcells₁ i
  obtain ⟨hcell₂, hknown⟩ := hcells₂ i
  obtain ⟨hcell₃, -⟩ := hcells₃ i
  have hknown := hknown hahead
  rw [hempty i] at hcell₁
  rw [hcell₁] at hcell₂ hknown
  rw [hcell₂] at hcell₃
  simp only [writesTo, writesOf_actions] at hcell₂ hcell₃ hknown
  have hsorted' := (pairwise_writes hsorted).filter fun w => decide (M.slot w = i)
  rw [List.flatMap_append, List.filter_append] at hsorted'
  rw [hcell₂, hcell₃]
  exact (foldl_next_again hsorted' hknown).symm

end CellModel

end

end Kv
