/-
**The laws of the two storages.**

A key that is written with versions only holds the values that were accepted, numbered from 1; a write
is accepted if it names the last number.  A key that is written with sequence numbers holds the last
`max_history_` values that were accepted; a write is rejected if its number is smaller than the last
one.  Both laws are proved once, for a storage that extends its values as `Kv.Write.extend` says, and
hold for `MemoryDB` and for a `ResLevelDB` that is written through.

On disk a history is one message, and a message of 2 GiB is not written: the write succeeds and
the history is gone (`Kv.versioned_store_law_fails`).  The checkpoint of the storage is under an
ordinary key, and a write to that key makes `GetLastCheckpoint` throw
(`Kv.sequenced_store_law_fails`).

Main definitions:

* `Kv.Accepted`, `Kv.writeSystem` — a storage, and the values that it has accepted for each key;
* `Kv.Extends` — what a storage does with a write;
* `Kv.VersionLaw`, `Kv.SeqLaw` — the laws;
* `Kv.ResLevelDB.getLastCheckpoint` — the last checkpoint.

Main results:

* `Kv.Extends.versions`, `Kv.Extends.seqs` — the values after a run of writes;
* `Kv.versioned_store_law`, `Kv.sequenced_store_law` — the laws, for both storages.
-/

import ResilientDb.StorageTwins

set_option autoImplicit false

namespace Kv

open Storage (getHistory getValueWithSeq getValueWithVersion)
open Function (update_apply update_of_ne update_self)
open Wire (Bytes ofText)

/-! ### Runs of writes -/

/-- The value that a write adds. -/
def Write.entry (w : Write) : Value :=
  match w.version with
  | none => { value := w.value, seq := w.seq }
  | some version => { value := w.value, version := version + 1 }

/-- The number of the write does not fit the last value. -/
def Write.rejected (w : Write) (vs : List Value) : Bool :=
  match w.version with
  | none => w.seq < cellSeq vs.getLast?
  | some version => cellVersion vs.getLast? ≠ version

/-- A storage, and the values that it has accepted for each key, the oldest first. -/
structure Accepted (σ : Type) where
  storage : σ
  accepted : Bytes → List Value

section Runs

variable {σ : Type} [Storage σ]

/-- One write. -/
def Accepted.step (s : Accepted σ) (w : Write) : Option (Accepted σ) :=
  (w.apply s.storage).map fun (r : ℤ × σ) =>
    { storage := r.2
      accepted :=
        if r.1 = 0 then Function.update s.accepted w.key (s.accepted w.key ++ [w.entry])
        else s.accepted }

variable (σ) in
/-- Writes to a new storage. -/
def writeSystem (fresh : σ → Prop) : TransitionSystem (Accepted σ) Write where
  init s := fresh s.storage ∧ s.accepted = fun _ => []
  step := Accepted.step

/-- What the storage does with the writes of a kind: its values are extended, and the return value says
whether they are. -/
structure Extends (versioned : Bool) (maxHistory : ℕ) (I : σ → Prop) (room : σ → Write → Prop)
    (values : σ → Bytes → List Value) : Prop where
  apply : ∀ {st : σ} {w : Write} {r : ℤ × σ}, I st → room st w → w.version.isSome = versioned →
    w.apply st = some r → I r.2 ∧
      values r.2 = Function.update (values st) w.key (w.extend maxHistory (values st w.key)) ∧
      r.1 = if w.rejected (values st w.key) then -2 else 0

/-- The versions are those from 1 on. -/
def Numbered (vs : List Value) : Prop :=
  vs.map Value.version = (List.range vs.length).map fun i : ℕ => (i : ℤ) + 1

variable {versioned : Bool} {maxHistory : ℕ} {I : σ → Prop} {room : σ → Write → Prop}
  {values : σ → Bytes → List Value} {fresh : σ → Prop} {s : Accepted σ}

theorem Extends.ret (h : Extends versioned maxHistory I room values) {st : σ} (hI : I st) {w : Write}
    (hroom : room st w) (hkind : w.version.isSome = versioned) (hsome : (w.apply st).isSome) :
    (w.apply st).map Prod.fst = some (if w.rejected (values st w.key) then -2 else 0) := by
  obtain ⟨r, hr⟩ := Option.isSome_iff_exists.1 hsome
  rw [hr, Option.map_some, (h.apply hI hroom hkind hr).2.2]

theorem Numbered.cellVersion {vs : List Value} (h : Numbered vs) :
    cellVersion vs.getLast? = vs.length := by
  rw [Kv.cellVersion, ← List.getLast?_map, h]
  cases vs.length with
  | zero => rfl
  | succ n => simp [List.range_succ]

/-- **The values after writes with versions** are all that were accepted, numbered. -/
theorem Extends.versions (h : Extends true maxHistory I room values)
    (h₀ : ∀ st, fresh st → I st ∧ values st = fun _ => []) {ok : Accepted σ → Write → Prop}
    (hok : ∀ s w, ok s w → w.version.isSome = true ∧ room s.storage w)
    (hs : (writeSystem σ fresh).Reachable ok s) :
    I s.storage ∧ values s.storage = s.accepted ∧ ∀ key, Numbered (s.accepted key) := by
  refine hs.invariant (I := fun s => I s.storage ∧ values s.storage = s.accepted ∧
    ∀ key, Numbered (s.accepted key)) ?_ ?_
  · rintro s ⟨hfresh, haccepted⟩
    obtain ⟨hI, hvalues⟩ := h₀ _ hfresh
    rw [haccepted]
    exact ⟨hI, hvalues, fun key => rfl⟩
  · rintro s w s' ⟨hI, hvalues, hnumbered⟩ hw hstep
    obtain ⟨hkind, hroom⟩ := hok s w hw
    obtain ⟨r, hr, rfl⟩ := Option.map_eq_some_iff.1 hstep
    obtain ⟨hI', hvalues', hret⟩ := h.apply hI hroom hkind hr
    obtain ⟨version, hversion⟩ := Option.isSome_iff_exists.1 hkind
    have hlast := (hnumbered w.key).cellVersion
    rw [hvalues] at hvalues' hret
    refine ⟨hI', ?_⟩
    rw [hvalues', hret]
    simp only [Write.rejected, Write.extend, Write.entry, hversion, hlast, decide_eq_true_eq]
    by_cases hne : (((s.accepted w.key).length : ℤ) ≠ version)
    · rw [if_pos hne, if_pos hne, if_neg (by decide), Function.update_eq_self]
      exact ⟨rfl, hnumbered⟩
    · rw [if_neg hne, if_neg hne, if_pos rfl]
      refine ⟨rfl, fun key => ?_⟩
      rcases eq_or_ne key w.key with rfl | hkey
      · rw [update_self, Numbered, List.map_append, hnumbered, List.length_append,
          List.length_singleton, List.range_succ, List.map_append, ← not_not.1 hne]
        rfl
      · rw [update_of_ne hkey]
        exact hnumbered key

theorem trim_trim_append {α : Type} (n : ℕ) (l : List α) (x : α) :
    trim n (trim n l ++ [x]) = trim n (l ++ [x]) := by
  have hsplit : trim n l ++ [x] = (l ++ [x]).drop (l.length - n) := by
    rw [trim, List.drop_append_of_le_length (by omega)]
  rw [hsplit, trim, trim, List.drop_drop, List.length_drop, List.length_append]
  congr 1
  omega

theorem getLast?_trim_eq {α : Type} {n : ℕ} (hn : n ≠ 0) (l : List α) :
    (trim n l).getLast? = l.getLast? := by
  rcases List.eq_nil_or_concat' l with rfl | ⟨l, e, rfl⟩
  · simp [trim]
  · rw [getLast?_trim hn, List.getLast?_concat]

theorem seq_le_cellSeq {vs : List Value} (h : vs.Pairwise (·.seq ≤ ·.seq)) {v : Value} (hv : v ∈ vs) :
    v.seq ≤ cellSeq vs.getLast? := by
  obtain ⟨l, e, rfl⟩ := (List.eq_nil_or_concat' vs).resolve_left (List.ne_nil_of_mem hv)
  rw [List.getLast?_concat]
  rcases List.mem_append.1 hv with hv | hv
  · exact (List.pairwise_append.1 h).2.2 v hv e (List.mem_singleton.2 rfl)
  · rw [List.mem_singleton.1 hv]
    exact le_rfl

/-- **The values after writes with sequence numbers** are the last that were accepted, in order. -/
theorem Extends.seqs (h : Extends false maxHistory I room values) (hmax : maxHistory ≠ 0)
    (h₀ : ∀ st, fresh st → I st ∧ values st = fun _ => []) {ok : Accepted σ → Write → Prop}
    (hok : ∀ s w, ok s w → w.version.isSome = false ∧ room s.storage w)
    (hs : (writeSystem σ fresh).Reachable ok s) :
    I s.storage ∧ (∀ key, values s.storage key = trim maxHistory (s.accepted key)) ∧
      ∀ key, (s.accepted key).Pairwise (·.seq ≤ ·.seq) := by
  refine hs.invariant (I := fun s => I s.storage ∧
    (∀ key, values s.storage key = trim maxHistory (s.accepted key)) ∧
      ∀ key, (s.accepted key).Pairwise (·.seq ≤ ·.seq)) ?_ ?_
  · rintro s ⟨hfresh, haccepted⟩
    obtain ⟨hI, hvalues⟩ := h₀ _ hfresh
    rw [haccepted, hvalues]
    exact ⟨hI, fun key => by simp [trim], fun key => List.Pairwise.nil⟩
  · rintro s w s' ⟨hI, hvalues, hsorted⟩ hw hstep
    obtain ⟨hkind, hroom⟩ := hok s w hw
    obtain ⟨r, hr, rfl⟩ := Option.map_eq_some_iff.1 hstep
    obtain ⟨hI', hvalues', hret⟩ := h.apply hI hroom hkind hr
    have hversion : w.version = none := Option.isNone_iff_eq_none.1 (by simpa using hkind)
    rw [hvalues w.key] at hvalues' hret
    refine ⟨hI', ?_⟩
    rw [hvalues', hret]
    simp only [Write.rejected, Write.extend, Write.entry, hversion, getLast?_trim_eq hmax,
      decide_eq_true_eq]
    by_cases hlt : w.seq < cellSeq (s.accepted w.key).getLast?
    · rw [if_pos hlt, if_pos hlt, if_neg (by decide), ← hvalues w.key, Function.update_eq_self]
      exact ⟨hvalues, hsorted⟩
    · have hle : ∀ v ∈ s.accepted w.key, v.seq ≤ w.seq := fun v hv =>
        (seq_le_cellSeq (hsorted w.key) hv).trans (not_lt.1 hlt)
      rw [if_neg hlt, if_neg hlt, if_pos rfl]
      rw [trim_trim_append]
      constructor <;> intro key <;> rcases eq_or_ne key w.key with rfl | hkey
      · rw [update_self, update_self]
      · rw [update_of_ne hkey, update_of_ne hkey]
        exact hvalues key
      · rw [update_self, List.pairwise_append]
        exact ⟨hsorted w.key, List.pairwise_singleton _ _, fun v hv v' hv' =>
          List.mem_singleton.1 hv' ▸ hle v hv⟩
      · rw [update_of_ne hkey]
        exact hsorted key

end Runs

/-! ### Reading numbered values -/

section Reading

variable {l : List (Bytes × ℤ)} {vs : List Value}

theorem scanVersion_of_mem : ∀ {l : List (Bytes × ℤ)}, l.Pairwise (fun a b => b.2 < a.2) →
    ∀ {e : Bytes × ℤ}, e ∈ l → scanVersion e.2 l = some e
  | [], _, e, he => absurd he List.not_mem_nil
  | a :: l, hl, e, he => by
    obtain ⟨ha, hl⟩ := List.pairwise_cons.1 hl
    rw [scanVersion]
    rcases List.mem_cons.1 he with rfl | he
    · rw [if_pos rfl]
    · have hlt := ha e he
      rw [if_neg (by omega), if_neg (by omega)]
      exact scanVersion_of_mem hl he

/-- A scan of a history in order is a filter. -/
theorem scanHistory_eq_filter (minVersion maxVersion : ℤ) : ∀ {l : List (Bytes × ℤ)},
    l.Pairwise (fun a b => b.2 < a.2) → scanHistory minVersion maxVersion l =
      l.filter fun e => minVersion ≤ e.2 ∧ e.2 ≤ maxVersion
  | [], _ => rfl
  | a :: l, hl => by
    obtain ⟨ha, hl⟩ := List.pairwise_cons.1 hl
    have ih := scanHistory_eq_filter minVersion maxVersion hl
    rw [scanHistory]
    split_ifs with hmin hmax
    · -- the versions that follow are smaller still
      refine (List.filter_eq_nil_iff.2 fun e he => ?_).symm
      have hle : e.2 ≤ a.2 := (List.mem_cons.1 he).elim (fun h => h ▸ le_rfl) fun h => (ha e h).le
      simp only [decide_eq_true_eq]
      omega
    · rw [List.filter_cons_of_pos (by simp; omega), ih]
    · rw [List.filter_cons_of_neg (by simp; omega), ih]

/-- The versions are the positions, from 1 on. -/
theorem Numbered.version_getElem (h : Numbered vs) {i : ℕ} (hi : i < vs.length) :
    (vs[i]).version = i + 1 := by
  have hget := congrArg (fun l => l[i]?) h
  simpa [hi] using hget

theorem Numbered.pairwise (h : Numbered vs) : (valueVersions vs).Pairwise fun a b => b.2 < a.2 := by
  rw [valueVersions, List.map_reverse, List.pairwise_reverse, List.pairwise_map]
  refine (List.pairwise_map (f := Value.version)).1 ?_
  rw [h, List.pairwise_map]
  exact List.pairwise_lt_range.imp fun hlt => by omega

theorem Numbered.pos (h : Numbered vs) : ∀ e ∈ valueVersions vs, 0 < e.2 := by
  intro e he
  obtain ⟨v, hv, rfl⟩ := List.mem_map.1 he
  obtain ⟨i, hi, rfl⟩ := List.mem_iff_getElem.1 (List.mem_reverse.1 hv)
  rw [h.version_getElem hi]
  omega

theorem head?_valueVersions (vs : List Value) :
    (valueVersions vs).head? = vs.getLast?.map fun v => (v.value, v.version) := by
  rw [valueVersions, List.head?_map, List.head?_reverse]

/-- The law of a key that is written with versions: the answers to reads, and to writes with room, are
those of the accepted values. -/
structure VersionLaw {σ : Type} [Storage σ] (room : σ → Write → Prop) (st : σ) (key : Bytes)
    (vs : List Value) : Prop where
  numbered : Numbered vs
  accept : ∀ w : Write, w.key = key → room st w → ∀ version ∈ w.version,
    (w.apply st).map Prod.fst = some (if version = vs.length then 0 else -2)
  version : ∀ i : ℕ, ∀ v ∈ vs[i]?,
    (getValueWithVersion st key (i + 1)).1 = (v.value, (i : ℤ) + 1)
  newest : (getValueWithVersion st key 0).1 =
    (vs.getLast?.map fun v => (v.value, v.version)).getD ([], 0)
  history : ∀ minVersion maxVersion, (getHistory st key minVersion maxVersion).1 =
    ((vs.map fun v => (v.value, v.version)).filter fun e =>
      minVersion ≤ e.2 ∧ e.2 ≤ maxVersion).reverse

theorem Numbered.answerVersion (h : Numbered vs) {i : ℕ} {v : Value} (hv : v ∈ vs[i]?) :
    answerVersion (i + 1) (valueVersions vs) = (v.value, (i : ℤ) + 1) := by
  obtain ⟨hi, rfl⟩ := List.getElem?_eq_some_iff.1 hv
  have hmem : ((vs[i]).value, (i : ℤ) + 1) ∈ valueVersions vs := by
    rw [← h.version_getElem hi]
    exact List.mem_map.2 ⟨vs[i], List.mem_reverse.2 (List.getElem_mem hi), rfl⟩
  have hscan := scanVersion_of_mem h.pairwise hmem
  rw [Kv.answerVersion, hscan]
  rfl

theorem Numbered.scanHistory (h : Numbered vs) (minVersion maxVersion : ℤ) :
    scanHistory minVersion maxVersion (valueVersions vs) =
      ((vs.map fun v => (v.value, v.version)).filter fun e =>
        minVersion ≤ e.2 ∧ e.2 ≤ maxVersion).reverse := by
  rw [scanHistory_eq_filter _ _ h.pairwise, valueVersions, List.map_reverse, List.filter_reverse]

end Reading

/-! ### The storages -/

section Storages

variable {w : Write}

/-- The code that a write returns. -/
theorem MemoryDB.apply_ret {st : MemoryDB} (h : st.ReplayInv) {r : ℤ × MemoryDB}
    (hr : w.apply st = some r) :
    r.1 = if w.rejected (st.storedValues (w.key, w.version.isSome)) then -2 else 0 := by
  unfold Write.apply at hr
  split at hr
  · next hw =>
    simp only [Write.rejected, hw, Option.isSome_none, decide_eq_true_eq]
    rw [← cell_eq, cell]
    change st.setValueWithSeq w.key w.value w.seq = some r at hr
    unfold MemoryDB.setValueWithSeq at hr
    cases hl : st.kvMapWithSeq.find? w.key with
    | none =>
      rw [hl] at hr
      cases hr
      rfl
    | some l =>
      rw [hl] at hr
      dsimp only at hr
      obtain ⟨last, hlast⟩ := Option.ne_none_iff_exists'.1 (mt List.getLast?_eq_none_iff.1 (h.seqs hl))
      rw [hlast] at hr
      rw [Option.bind_some, hlast]
      dsimp only [cellSeq] at hr ⊢
      split at hr <;> cases hr
      · next hlt => exact (if_pos hlt).symm
      · next hlt => exact (if_neg hlt).symm
  · next version hw =>
    simp only [Write.rejected, hw, Option.isSome_some, decide_eq_true_eq]
    rw [← cell_eq, cellVersion_cell]
    change st.setValueWithVersion w.key w.value version = some r at hr
    unfold MemoryDB.setValueWithVersion at hr
    dsimp only at hr
    split at hr
    · next hne =>
      cases hr
      rw [if_pos hne]
    · next hne =>
      obtain ⟨next, -, rfl⟩ := Option.map_eq_some_iff.1 hr
      rw [if_neg hne]

/-- **The storage in memory** extends its values of each kind. -/
theorem MemoryDB.extends_storedValues (versioned : Bool) (maxHistory : ℕ)
    (hmax : versioned = false → maxHistory ≠ 0) (room : MemoryDB → Write → Prop) :
    Extends versioned maxHistory (fun st => st.ReplayInv ∧ st.maxHistory = maxHistory) room
      fun st key => st.storedValues (key, versioned) where
  apply := by
    rintro st w r ⟨hinv, rfl⟩ - rfl hr
    obtain ⟨hinv', hmax', hvalues⟩ := hinv.apply (fun hw => hmax (by rw [hw]; rfl)) hr
    refine ⟨⟨hinv', hmax'⟩, ?_, apply_ret hinv hr⟩
    funext key
    rw [hvalues, update_apply, update_apply]
    simp

variable {env : LevelDbEnv} {st : ResLevelDB env}

theorem ResLevelDB.apply_ret (h : st.ReplayInv)
    (hkey : w.key ≠ ckptKey) {r : ℤ × ResLevelDB env} (hr : w.apply st = some r) :
    r.1 = if w.rejected (st.storedValues w.key) then -2 else 0 := by
  obtain ⟨history, hparse, -, hvalues, -⟩ := h.history hkey
  unfold Write.apply at hr
  rw [hvalues]
  split at hr
  · next hw =>
    simp only [Write.rejected, hw, decide_eq_true_eq]
    have hcases := setValueWithSeq_cases hr
    rw [hparse] at hcases
    obtain ⟨⟨⟩, -⟩ | ⟨_, ⟨⟩, hcases⟩ := hcases
    rcases hcases with ⟨hlt, hret, -⟩ | ⟨hlt, hret, -⟩
    · exact hret.trans (if_pos hlt).symm
    · exact hret.trans (if_neg hlt).symm
  · next version hw =>
    simp only [Write.rejected, hw, decide_eq_true_eq]
    have hcases := setValueWithVersion_cases hr
    rw [hparse] at hcases
    obtain ⟨⟨⟩, -⟩ | ⟨_, ⟨⟩, hcases⟩ := hcases
    rcases hcases with ⟨hne, rfl⟩ | ⟨heq, -, hset⟩
    · exact (if_pos hne).symm
    · exact (setValue_code hset).trans (if_neg (not_not.2 heq)).symm

/-- **The storage on disk** extends its values, of either kind, as long as they have room. -/
theorem ResLevelDB.extends_storedValues (hcodec : env.codec.Fits) {versioned : Bool} {maxHistory : ℕ}
    (hmax : versioned = false → maxHistory ≠ 0) : Extends versioned maxHistory
      (fun st : ResLevelDB env => st.ReplayInv ∧ st.maxHistory = maxHistory) HasRoom storedValues where
  apply := by
    rintro st w r ⟨hinv, rfl⟩ hroom rfl hr
    obtain ⟨hinv', hmax', hvalues⟩ := hinv.apply hcodec (fun hw => hmax (by rw [hw]; rfl)) hroom hr
    exact ⟨⟨hinv', hmax'⟩, hvalues, apply_ret hinv hroom.1 hr⟩

/-- A new storage in memory. -/
def MemoryDB.New (maxHistory : ℕ) (st : MemoryDB) : Prop :=
  st.Fresh ∧ st.maxHistory = maxHistory

/-- A new storage on disk, which is written through. -/
def ResLevelDB.New (maxHistory : ℕ) (st : ResLevelDB env) : Prop :=
  st.Fresh ∧ st.CacheRoom ∧ st.WritesThrough ∧ st.maxHistory = maxHistory

variable {maxHistory : ℕ}

theorem MemoryDB.New.init (versioned : Bool) {st : MemoryDB} (h : st.New maxHistory) : (st.ReplayInv ∧ st.maxHistory = maxHistory) ∧
      (fun key => st.storedValues (key, versioned)) = fun _ => [] := by
  refine ⟨⟨h.1.replayInv, h.2⟩, funext fun key => ?_⟩
  rw [← List.getLast?_eq_none_iff, ← cell_eq]
  exact h.1.cell _

theorem ResLevelDB.New.init (h : st.New maxHistory) : (st.ReplayInv ∧ st.maxHistory = maxHistory) ∧
      st.storedValues = fun _ => [] := by
  obtain ⟨hfresh, hcache, hthrough, hm⟩ := h
  refine ⟨⟨hfresh.replayInv hcache hthrough, hm⟩, funext fun key => ?_⟩
  rw [← List.getLast?_eq_none_iff, ← lastValue_eq]
  exact hfresh.lastValue key

/-! ### Versions -/

/-- A version that has a successor. -/
def Write.HasNext (w : Write) : Prop := w.version ≠ some (2 ^ 31 - 1)

instance (w : Write) : Decidable w.HasNext := inferInstanceAs (Decidable (¬ _))

theorem Numbered.rejected {vs : List Value} (h : Numbered vs) {version : ℤ}
    (hw : version ∈ w.version) :
    (if w.rejected vs then -2 else 0 : ℤ) = if version = vs.length then 0 else -2 := by
  have hw : w.version = some version := hw
  simp only [Write.rejected, hw, h.cellVersion, decide_eq_true_eq]
  by_cases heq : version = (vs.length : ℤ)
  · rw [if_pos heq, if_neg (by simp [heq])]
  · rw [if_neg heq, if_pos (Ne.symm heq)]

theorem MemoryDB.setValueWithVersion_isSome (st : MemoryDB) (key value : Bytes) {version : ℤ}
    (h : version ≠ 2 ^ 31 - 1) : (st.setValueWithVersion key value version).isSome := by
  unfold MemoryDB.setValueWithVersion
  dsimp only
  split_ifs
  · rfl
  · rw [nextVersion, if_neg h]
    rfl

theorem MemoryDB.versionLaw {s : Accepted MemoryDB}
    (hs : (writeSystem MemoryDB (MemoryDB.New maxHistory)).Reachable
      (fun _ w => w.version.isSome = true ∧ w.HasNext) s) (key : Bytes) :
    VersionLaw (fun _ w => w.HasNext) s.storage key (s.accepted key) := by
  have hextends := MemoryDB.extends_storedValues true maxHistory (fun h => by cases h) fun _ w => w.HasNext
  obtain ⟨hinv, hvalues, hnumbered⟩ :=
    hextends.versions (fun st h => h.init true) (fun _ _ h => h) hs
  have hstored : s.storage.storedValues (key, true) = s.accepted key := congrFun hvalues key
  refine ⟨hnumbered key, ?_, ?_, ?_, ?_⟩
  · rintro w rfl hnext version hw
    rw [← (hnumbered w.key).rejected hw, ← hstored]
    refine hextends.ret hinv hnext (by rw [hw]; rfl) ?_
    rw [Write.apply, hw]
    exact setValueWithVersion_isSome _ _ _ fun h => hnext (h ▸ hw)
  · intro i v hv
    refine (getValueWithVersion_eq _ _ _).trans ?_
    rw [hstored]
    exact (hnumbered key).answerVersion hv
  · refine (getValueWithVersion_eq _ _ _).trans ?_
    rw [hstored, answerVersion, scanVersion_eq_none le_rfl (hnumbered key).pos, Option.none_or,
      head?_valueVersions]
  · intro minVersion maxVersion
    refine (getHistory_eq _ _ _ _).trans ?_
    rw [hstored, (hnumbered key).scanHistory]

theorem ResLevelDB.versionLaw (hcodec : env.codec.Fits) {s : Accepted (ResLevelDB env)}
    (hs : (writeSystem (ResLevelDB env) (ResLevelDB.New maxHistory)).Reachable
      (fun s w => w.version.isSome = true ∧ s.storage.HasRoom w ∧ w.HasNext) s) (key : Bytes) :
    VersionLaw (fun st w => st.HasRoom w ∧ w.HasNext) s.storage key (s.accepted key) := by
  have hextends : Extends true maxHistory
      (fun st : ResLevelDB env => st.ReplayInv ∧ st.maxHistory = maxHistory)
      (fun st w => st.HasRoom w ∧ w.HasNext) storedValues :=
    ⟨fun hI hroom => (extends_storedValues hcodec fun h => by cases h).apply hI hroom.1⟩
  obtain ⟨hinv, hvalues, hnumbered⟩ :=
    hextends.versions (fun st h => h.init) (fun _ _ h => h) hs
  have hstored : s.storage.storedValues key = s.accepted key := congrFun hvalues key
  refine ⟨hnumbered key, ?_, ?_, ?_, ?_⟩
  · rintro w rfl hroom version hw
    rw [← (hnumbered w.key).rejected hw, ← hstored]
    refine hextends.ret hinv hroom (by rw [hw]; rfl) ?_
    rw [Write.apply, hw]
    exact Kv.setValueWithVersion_isSome hinv.1.direct.room _ _ fun h => hroom.2 (h ▸ hw)
  · intro i v hv
    refine (hinv.1.getValueWithVersion_eq _ _).trans ?_
    rw [if_pos (by omega), hstored]
    exact (hnumbered key).answerVersion hv
  · refine (hinv.1.getValueWithVersion_eq _ _).trans ?_
    rw [if_neg (by omega), hstored, head?_valueVersions]
  · intro minVersion maxVersion
    refine (hinv.1.getHistory_eq _ _ _).trans ?_
    rw [hstored, (hnumbered key).scanHistory]

/-- **The law of versions**, for both storages: in every run of writes with versions, as long as the
message of a key has room and an `int` the next version. -/
theorem versioned_store_law (hcodec : env.codec.Fits)
    {m : Accepted MemoryDB} {l : Accepted (ResLevelDB env)}
    (hm : (writeSystem MemoryDB (MemoryDB.New maxHistory)).Reachable
      (fun _ w => w.version.isSome = true ∧ w.HasNext) m)
    (hl : (writeSystem (ResLevelDB env) (ResLevelDB.New maxHistory)).Reachable
      (fun s w => w.version.isSome = true ∧ s.storage.HasRoom w ∧ w.HasNext) l) (key : Bytes) :
    VersionLaw (fun _ w => w.HasNext) m.storage key (m.accepted key) ∧
      VersionLaw (fun st w => st.HasRoom w ∧ w.HasNext) l.storage key (l.accepted key) :=
  ⟨MemoryDB.versionLaw hm key, ResLevelDB.versionLaw hcodec hl key⟩

/-! ### Sequence numbers -/

/-- The value of a key with a sequence number, the newest one for 0. -/
def answerSeq (seq : ℕ) (vs : List Value) : Bytes × ℕ :=
  ((if seq = 0 then vs.getLast? else vs.reverse.find? fun v => v.seq = seq).map fun v =>
    (v.value, v.seq)).getD ([], 0)

/-- All reads of the key are the same. -/
structure SameReads {σ : Type} [Storage σ] (st st' : σ) (key : Bytes) : Prop where
  seq : ∀ seq, (getValueWithSeq st' key seq).1 = (getValueWithSeq st key seq).1
  version : ∀ version,
    (getValueWithVersion st' key version).1 = (getValueWithVersion st key version).1
  history : ∀ minVersion maxVersion, (getHistory st' key minVersion maxVersion).1 =
    (getHistory st key minVersion maxVersion).1
  top : ∀ number, (Storage.getTopHistory st' key number).1 = (Storage.getTopHistory st key number).1

/-- The law of a key that is written with sequence numbers: what is stored, the answers to reads and to
writes with room, and that writes to other keys are not seen. -/
structure SeqLaw {σ : Type} [Storage σ] (maxHistory : ℕ) (room : σ → Write → Prop) (st : σ)
    (key : Bytes) (vs stored : List Value) : Prop where
  kept : stored = trim maxHistory vs
  accept : ∀ w : Write, w.key = key → w.version = none → room st w →
    (w.apply st).map Prod.fst = some (if w.seq < cellSeq vs.getLast? then -2 else 0)
  read : ∀ seq, (getValueWithSeq st key seq).1 = answerSeq seq stored
  newest : stored.getLast? = vs.getLast?
  isolated : ∀ (w : Write) (r : ℤ × σ), w.key ≠ key → w.version = none → room st w →
    w.apply st = some r → SameReads st r.2 key

theorem scanSeq_eq_find? {seq : ℕ} (hseq : seq ≠ 0) : ∀ {l : List (Bytes × ℕ)},
    l.Pairwise (fun a b => b.2 ≤ a.2) → scanSeq seq l = l.find? fun e => e.2 = seq
  | [], _ => rfl
  | a :: l, hl => by
    obtain ⟨ha, hl⟩ := List.pairwise_cons.1 hl
    rw [scanSeq]
    split_ifs with heq hlt
    · rw [List.find?_cons_of_pos (by simpa [hseq] using heq)]
    · -- the numbers that follow are not greater
      refine (List.find?_eq_none.2 fun e he => ?_).symm
      have hle : e.2 ≤ a.2 := (List.mem_cons.1 he).elim (fun h => h ▸ le_rfl) (ha e)
      simp only [decide_eq_true_eq]
      omega
    · rw [List.find?_cons_of_neg (by simpa [hseq] using heq), scanSeq_eq_find? hseq hl]

theorem MemoryDB.getValueWithSeq_eq (st : MemoryDB) (key : Bytes) (seq : ℕ) :
    st.getValueWithSeq key seq = (scanSeq seq ((st.storedValues (key, false)).reverse.map fun v =>
      (v.value, v.seq))).getD ([], 0) := by
  rw [getValueWithSeq, storedValues]
  cases st.kvMapWithSeq.find? key with
  | none => rfl
  | some l => simp [← List.map_reverse, Function.comp_def]

theorem MemoryDB.read_seq {st : MemoryDB} {key : Bytes}
    (h : (st.storedValues (key, false)).Pairwise (·.seq ≤ ·.seq)) (seq : ℕ) :
    st.getValueWithSeq key seq = answerSeq seq (st.storedValues (key, false)) := by
  rw [answerSeq]
  split_ifs with hseq
  · rw [hseq, getValueWithSeq_cell, cell_eq]
  · rw [getValueWithSeq_eq, scanSeq_eq_find? hseq, List.find?_map]
    · rfl
    · rw [List.map_reverse, List.pairwise_reverse, List.pairwise_map]
      exact h

theorem MemoryDB.sameReads {st st' : MemoryDB} {key : Bytes}
    (h : ∀ kind, st'.storedValues (key, kind) = st.storedValues (key, kind)) :
    SameReads st st' key := by
  refine ⟨fun seq => ?_, fun version => ?_, fun minVersion maxVersion => ?_, fun number => ?_⟩
  · exact (st'.getValueWithSeq_eq key seq).trans (h false ▸ (st.getValueWithSeq_eq key seq).symm)
  · exact (st'.getValueWithVersion_eq key version).trans
      (h true ▸ (st.getValueWithVersion_eq key version).symm)
  · exact (st'.getHistory_eq key minVersion maxVersion).trans
      (h true ▸ (st.getHistory_eq key minVersion maxVersion).symm)
  · exact (st'.getTopHistory_eq key number).trans (h true ▸ (st.getTopHistory_eq key number).symm)

theorem ResLevelDB.ReplayInv.read_seq (h : st.ReplayInv) (key : Bytes)
    (seq : ℕ) : (st.getValueWithSeq key seq).1 = answerSeq seq (st.storedValues key) := by
  rw [← h.parse_getValue, getValueWithSeq, answerSeq]
  cases env.codec.parse (st.getValue key).1 with
  | none => split_ifs <;> rfl
  | some history =>
    rcases Nat.eq_zero_or_pos seq with rfl | hpos
    · rfl
    · rw [if_neg hpos.ne', Option.bind_some, if_pos hpos]
      rfl

theorem ResLevelDB.ReplayInv.sameReads {st st' : ResLevelDB env} (h : st.ReplayInv)
    (h' : st'.ReplayInv) {key : Bytes} (heq : st'.storedValues key = st.storedValues key) :
    SameReads st st' key := by
  refine ⟨fun seq => ?_, fun version => ?_, fun minVersion maxVersion => ?_, fun number => ?_⟩
  · exact (h'.read_seq key seq).trans (heq ▸ (h.read_seq key seq).symm)
  · exact (h'.getValueWithVersion_eq key version).trans
      (heq ▸ (h.getValueWithVersion_eq key version).symm)
  · exact (h'.getHistory_eq key minVersion maxVersion).trans
      (heq ▸ (h.getHistory_eq key minVersion maxVersion).symm)
  · exact (h'.getTopHistory_eq key number).trans (heq ▸ (h.getTopHistory_eq key number).symm)

/-- `std::stoll` for a decimal number: white space, a sign and digits.  It throws if there are no digits,
and if the number does not fit. -/
def stoll (b : Bytes) : Option ℤ :=
  let b := b.dropWhile fun c => c = 32 ∨ (9 ≤ c ∧ c ≤ 13)
  let digits := (if b.head? = some 43 ∨ b.head? = some 45 then b.tail else b).takeWhile fun c =>
    48 ≤ c ∧ c ≤ 57
  let magnitude : ℤ := digits.foldl (fun n c => 10 * n + (c.val - 48)) 0
  let n := if b.head? = some 45 then -magnitude else magnitude
  if digits = [] ∨ n < -2 ^ 63 ∨ 2 ^ 63 ≤ n then none else some n

namespace ResLevelDB

/-- `GetLastCheckpointInternal`. -/
def getLastCheckpointInternal (st : ResLevelDB env) : Option ℕ × ResLevelDB env :=
  let r := st.getValue ckptKey
  (if r.1 = [] then some 0 else (stoll r.1).map fun n => (n % 2 ^ 64).toNat, r.2)

/-- `GetLastCheckpoint`. -/
def getLastCheckpoint (st : ResLevelDB env) : Option ℕ × ResLevelDB env :=
  if st.lastCkpt > 0 then (some st.lastCkpt, st) else st.getLastCheckpointInternal

/-- The checkpoint in memory is the last one, or there is none. -/
def KnowsCkpt (st : ResLevelDB env) : Prop := 0 < st.lastCkpt ∨ st.db.find? ckptKey = none

variable {st : ResLevelDB env}

theorem KnowsCkpt.getLastCheckpoint (h : st.KnowsCkpt) (hinv : st.ReplayInv) :
    st.getLastCheckpoint.1 = some st.lastCkpt := by
  unfold ResLevelDB.getLastCheckpoint
  split
  case isTrue => rfl
  case isFalse hzero =>
    have hnone := h.resolve_left hzero
    have hread : (st.getValue ckptKey).1 = [] := by
      rw [hinv.getValue_fst, hnone]
      rfl
    rw [getLastCheckpointInternal, hread, Nat.eq_zero_of_not_pos hzero]
    rfl

theorem KnowsCkpt.updateLastCkpt (h : st.KnowsCkpt) {seq : ℕ} {st' : ResLevelDB env}
    (hs : st.updateLastCkpt seq = some st') : st'.KnowsCkpt ∧ st.lastCkpt ≤ st'.lastCkpt := by
  unfold ResLevelDB.updateLastCkpt at hs
  split_ifs at hs with hlt
  · cases hs
    exact ⟨h, le_rfl⟩
  · dsimp only at hs
    split_ifs at hs with hset
    · obtain ⟨r, hr, rfl⟩ := Option.map_eq_some_iff.1 hs
      obtain ⟨cache, -, rfl⟩ := Option.map_eq_some_iff.1 hr
      dsimp only
      split_ifs <;> exact ⟨.inl hset.2, not_lt.1 hlt⟩
    · cases hs
      refine ⟨?_, not_lt.1 hlt⟩
      rcases Nat.eq_zero_or_pos seq with rfl | hpos
      · exact .inr (h.resolve_left fun hpos => absurd hpos (by omega))
      · exact .inl hpos

theorem KnowsCkpt.getValue (h : st.KnowsCkpt) (key : Bytes) : (st.getValue key).2.KnowsCkpt ∧
    (st.getValue key).2.lastCkpt = st.lastCkpt := by
  rcases getValue_snd st key with hsnd | ⟨cache, -, hsnd⟩ <;> rw [hsnd] <;> exact ⟨h, rfl⟩

/-- A write may raise the checkpoint, and does not lower it. -/
theorem KnowsCkpt.apply (h : st.KnowsCkpt) (hinv : st.ReplayInv) (hw : w.version = none)
    (hkey : w.key ≠ ckptKey) {r : ℤ × ResLevelDB env} (hr : w.apply st = some r) :
    r.2.KnowsCkpt ∧ st.lastCkpt ≤ r.2.lastCkpt := by
  rw [Write.apply, hw] at hr
  obtain ⟨hread, hlast⟩ := h.getValue w.key
  rcases setValueWithSeq_cases hr with ⟨-, rfl⟩ | ⟨history, -, ⟨-, -, hckpt⟩ | ⟨-, -, r', hset, hckpt⟩⟩
  · exact ⟨hread, hlast.ge⟩
  · rw [← hlast]
    exact hread.updateLastCkpt hckpt
  · have hfind := (hinv.getValue w.key).1.direct.find?_setValue
      (w.key_size.trans (by norm_num)) hset ckptKey
    rw [if_neg (Ne.symm hkey)] at hfind
    have hlast' : r'.2.lastCkpt = (st.getValue w.key).2.lastCkpt := by
      obtain ⟨cache, -, rfl⟩ := Option.map_eq_some_iff.1 hset
      dsimp only
      split_ifs <;> rfl
    have hknows : r'.2.KnowsCkpt := by
      rw [KnowsCkpt, hlast', hfind]
      exact hread
    rw [← hlast, ← hlast']
    exact hknows.updateLastCkpt hckpt

end ResLevelDB

theorem rejected_seq {vs : List Value} (hw : w.version = none) :
    (if w.rejected vs then -2 else 0 : ℤ) = if w.seq < cellSeq vs.getLast? then -2 else 0 := by
  simp only [Write.rejected, hw, decide_eq_true_eq]

/-- The law of sequence numbers in memory. -/
theorem MemoryDB.seqLaw (hmax : maxHistory ≠ 0) {s : Accepted MemoryDB}
    (hs : (writeSystem MemoryDB (MemoryDB.New maxHistory)).Reachable
      (fun _ w => w.version.isSome = false) s) (key : Bytes) :
    SeqLaw maxHistory (fun _ _ => True) s.storage key (s.accepted key)
      (s.storage.storedValues (key, false)) := by
  have hextends := MemoryDB.extends_storedValues false maxHistory (fun _ => hmax) fun _ _ => True
  obtain ⟨hinv, hvalues, hsorted⟩ :=
    hextends.seqs hmax (fun st h => h.init false) (fun _ _ h => ⟨h, trivial⟩) hs
  have hnewest : (s.storage.storedValues (key, false)).getLast? = (s.accepted key).getLast? := by
    rw [hvalues key, getLast?_trim_eq hmax]
  refine ⟨hvalues key, ?_, ?_, hnewest, ?_⟩
  · rintro w rfl hw hroom
    rw [← hnewest, ← rejected_seq hw]
    refine hextends.ret hinv hroom (by rw [hw]; rfl) ?_
    obtain ⟨r, hr, -⟩ := hinv.1.setValueWithSeq (hinv.2 ▸ hmax) w hw
    rw [Write.apply, hw]
    exact Option.isSome_iff_exists.2 ⟨r, hr⟩
  · refine fun seq => read_seq ?_ seq
    rw [hvalues key]
    exact (hsorted key).sublist (List.drop_sublist _ _)
  · intro w r hne hw _ hr
    obtain ⟨-, -, hstored⟩ := hinv.1.apply (fun _ => hinv.2 ▸ hmax) hr
    refine sameReads fun kind => ?_
    rw [hstored, update_of_ne]
    exact fun heq => hne (Prod.mk.inj heq).1.symm

/-- The checkpoint in memory is known, too, as long as no write names its key. -/
theorem ResLevelDB.extends_knowsCkpt (hcodec : env.codec.Fits) (hmax : maxHistory ≠ 0) :
    Extends false maxHistory
      (fun st : ResLevelDB env => (st.ReplayInv ∧ st.maxHistory = maxHistory) ∧ st.KnowsCkpt)
      HasRoom storedValues where
  apply := by
    rintro st w r ⟨hI, hknows⟩ hroom hkind hr
    obtain ⟨hinv, hvalues⟩ :=
      (extends_storedValues hcodec fun _ => hmax).apply hI hroom hkind hr
    have hw : w.version = none := by simpa using hkind
    exact ⟨⟨hinv, (hknows.apply hI.1 hw hroom.1 hr).1⟩, hvalues⟩

/-- The same on disk, where the checkpoint is known. -/
theorem ResLevelDB.seqLaw (hmax : maxHistory ≠ 0) (hcodec : env.codec.Fits)
    {s : Accepted (ResLevelDB env)}
    (hs : (writeSystem (ResLevelDB env) (ResLevelDB.New maxHistory)).Reachable
      (fun s w => w.version.isSome = false ∧ s.storage.HasRoom w) s) :
    (s.storage.ReplayInv ∧ s.storage.maxHistory = maxHistory) ∧ s.storage.KnowsCkpt ∧
      ∀ key, SeqLaw maxHistory HasRoom s.storage key (s.accepted key) (s.storage.storedValues key) := by
  have hextends := extends_knowsCkpt hcodec hmax
  have hinit : ∀ st : ResLevelDB env, st.New maxHistory →
      ((st.ReplayInv ∧ st.maxHistory = maxHistory) ∧ st.KnowsCkpt) ∧
        st.storedValues = fun _ => [] := fun st h =>
    ⟨⟨h.init.1, .inr (by rw [h.1.1]; rfl)⟩, h.init.2⟩
  obtain ⟨⟨⟨hinv, hm⟩, hknows⟩, hvalues, -⟩ := hextends.seqs hmax hinit (fun _ _ h => h) hs
  refine ⟨⟨hinv, hm⟩, hknows, fun key => ?_⟩
  have hnewest : (s.storage.storedValues key).getLast? = (s.accepted key).getLast? := by
    rw [hvalues key, getLast?_trim_eq hmax]
  refine ⟨hvalues key, ?_, hinv.read_seq key, hnewest, ?_⟩
  · rintro w rfl hw hroom
    rw [← hnewest, ← rejected_seq hw]
    refine hextends.ret ⟨⟨hinv, hm⟩, hknows⟩ hroom (by rw [hw]; rfl) ?_
    rw [Write.apply, hw]
    exact setValueWithSeq_isSome hinv.direct.room _ _ _
  · intro w r hne hw hroom hr
    obtain ⟨hinv', -, hstored⟩ := hinv.apply hcodec (fun _ => hm ▸ hmax) hroom hr
    refine hinv.sameReads hinv' ?_
    rw [hstored, update_of_ne (Ne.symm hne)]

/-- **The law of sequence numbers**, for both storages: in every run of writes with sequence numbers that
does not write to the key of the checkpoint, as long as the message of a key has room.  In memory there
is no checkpoint. -/
theorem sequenced_store_law (hmax : maxHistory ≠ 0) (hcodec : env.codec.Fits)
    {m : Accepted MemoryDB} {l : Accepted (ResLevelDB env)}
    (hm : (writeSystem MemoryDB (MemoryDB.New maxHistory)).Reachable
      (fun _ w => w.version.isSome = false) m)
    (hl : (writeSystem (ResLevelDB env) (ResLevelDB.New maxHistory)).Reachable
      (fun s w => w.version.isSome = false ∧ s.storage.HasRoom w) l) (key : Bytes) :
    SeqLaw maxHistory (fun _ _ => True) m.storage key (m.accepted key)
        (m.storage.storedValues (key, false)) ∧
      SeqLaw maxHistory ResLevelDB.HasRoom l.storage key (l.accepted key)
        (l.storage.storedValues key) ∧
      l.storage.getLastCheckpoint.1 = some l.storage.lastCkpt ∧
      ∀ (w : Write) (r : ℤ × ResLevelDB env), w.version = none → l.storage.HasRoom w →
        w.apply l.storage = some r →
        ∃ ckpt ≥ l.storage.lastCkpt, r.2.getLastCheckpoint.1 = some ckpt := by
  obtain ⟨⟨hinv, hkept⟩, hknows, hlaw⟩ := ResLevelDB.seqLaw hmax hcodec hl
  refine ⟨MemoryDB.seqLaw hmax hm key, hlaw key, hknows.getLastCheckpoint hinv, ?_⟩
  intro w r hw hroom hr
  obtain ⟨hknows', hle⟩ := hknows.apply hinv hw hroom.1 hr
  obtain ⟨hinv', -⟩ := hinv.apply hcodec (fun _ => hkept ▸ hmax) hroom hr
  exact ⟨_, hle, hknows'.getLastCheckpoint hinv'⟩

end Storages

/-- A write with a version to the key `k`. -/
def writeVersion (value : Bytes) (version : ℤ) : Write :=
  { key := ofText "k", value := value, seq := 0, version := some version, key_size := size_k }

/-- A new storage on disk, with the default settings. -/
theorem new_spec : (({} : ResLevelDB wireEnv)).New 10 :=
  ⟨opened_spec.1, by decide, opened_spec.2, rfl⟩

/-- Two writes, of which the second is rejected. -/
def twoVersions : List Write := [writeVersion (ofText "a") 0, writeVersion (ofText "b") 2]

/-- The value that is accepted. -/
def firstVersion : Value := { value := ofText "a", version := 1 }

theorem versioned_store_law_twoVersions :
    ∃ (m : Accepted MemoryDB) (l : Accepted (ResLevelDB wireEnv)),
      (getValueWithVersion m.storage (ofText "k") 1).1 = (ofText "a", 1) ∧
      (getHistory l.storage (ofText "k") 0 5).1 = [(ofText "a", 1)] := by
  obtain ⟨m, hm, hma⟩ := (writeSystem MemoryDB (MemoryDB.New 10)).exists_reachable
    (C := fun _ w => w.version.isSome = true ∧ w.HasNext)
    (P := fun s => s.accepted (ofText "k") = [firstVersion]) (s := ⟨{}, fun _ => []⟩) twoVersions
    ⟨⟨rfl, rfl⟩, rfl⟩ (by decide +kernel) (by decide +kernel)
  obtain ⟨l, hl, hla⟩ := (writeSystem (ResLevelDB wireEnv) (ResLevelDB.New 10)).exists_reachable
    (C := fun s w => w.version.isSome = true ∧ s.storage.HasRoom w ∧ w.HasNext)
    (P := fun s => s.accepted (ofText "k") = [firstVersion]) (s := ⟨{}, fun _ => []⟩) twoVersions
    ⟨new_spec, rfl⟩ (by decide +kernel) (by decide +kernel)
  have h := versioned_store_law wireCodec_fits hm hl (ofText "k")
  rw [hma, hla] at h
  exact ⟨m, l, h.1.version 0 firstVersion rfl, (h.2.history 0 5).trans (by decide +kernel)⟩

theorem serialize_eq_nil {value : Bytes} (hlen : value.length = 2 ^ 31) :
    wireEnv.codec.serialize { value := [{ value := value, version := 1 }] } = [] := by
  have hne : value ≠ [] := by
    rintro rfl
    cases hlen
  have hvalue : (⟨1, .bytes value⟩ : Wire.Record) ∈ Value.records { value := value, version := 1 } := by
    simp [Value.records, hne]
  have h₁ := Wire.length_encode_le hvalue
  have h₂ := Wire.length_lt_encode_bytes 1 value
  have hrecord : (⟨1, .bytes (Wire.encode (Value.records { value := value, version := 1 }))⟩ :
      Wire.Record) ∈ ValueHistory.records { value := [{ value := value, version := 1 }] } := by
    simp [ValueHistory.records]
  have h₃ := Wire.length_encode_le hrecord
  have h₄ := Wire.length_lt_encode_bytes 1
    (Wire.encode (Value.records { value := value, version := 1 }))
  change ValueHistory.serialize _ = []
  rw [ValueHistory.serialize, if_neg (by omega)]

/-- A value of 2 GiB is accepted, and is not there. -/
theorem versioned_store_law_fails : ∃ l : Accepted (ResLevelDB wireEnv),
    (writeSystem (ResLevelDB wireEnv) (ResLevelDB.New 10)).Reachable
      (fun _ w => w.version.isSome = true ∧ w.HasNext) l ∧
    (l.accepted (ofText "k")).length = 1 ∧
    (l.storage.getValueWithVersion (ofText "k") 0).1 = ([], 0) := by
  obtain ⟨value, hlen⟩ : ∃ value : Bytes, value.length = 2 ^ 31 :=
    ⟨List.replicate (2 ^ 31) 0, List.length_replicate⟩
  have hserialize := serialize_eq_nil hlen
  have happly : (writeVersion value 0).apply ({} : ResLevelDB wireEnv) =
      some (0, { db := OrderedMap.empty.set (ofText "k") [] }) := by
    -- there is no history yet, and the new one is not written
    change ({} : ResLevelDB wireEnv).setValue (ofText "k")
      (wireEnv.codec.serialize { value := [{ value := value, version := 1 }] }) = _
    rw [hserialize]
    rfl
  have hinit : (writeSystem (ResLevelDB wireEnv) (ResLevelDB.New 10)).init ⟨{}, fun _ => []⟩ :=
    ⟨new_spec, rfl⟩
  refine ⟨⟨{ db := OrderedMap.empty.set (ofText "k") [] }, Function.update (fun _ => [])
    (ofText "k") [(writeVersion value 0).entry]⟩, (TransitionSystem.Reachable.init hinit).step
    (a := writeVersion value 0) ⟨rfl, by simp [Write.HasNext, writeVersion]⟩ ?_, rfl, rfl⟩
  change Accepted.step (⟨{}, fun _ => []⟩ : Accepted (ResLevelDB wireEnv)) (writeVersion value 0) = _
  rw [Accepted.step, happly]
  rfl

/-- A write with a sequence number. -/
def writeSeq (key value : String) (seq : ℕ) (h : (ofText key).length < 2 ^ 31) : Write :=
  { key := ofText key, value := ofText value, seq := seq, key_size := h }

/-- Two writes to the key `k`. -/
def twoSeqs : List Write := [writeSeq "k" "a" 1 size_k, writeSeq "k" "b" 2 size_k]

theorem sequenced_store_law_twoSeqs :
    ∃ (m : Accepted MemoryDB) (l : Accepted (ResLevelDB wireEnv)),
      (getValueWithSeq m.storage (ofText "k") 1).1 = (ofText "a", 1) ∧
      (getValueWithSeq l.storage (ofText "k") 0).1 = (ofText "b", 2) ∧
      l.storage.getLastCheckpoint.1 = some 2 := by
  obtain ⟨m, hm, hma⟩ := (writeSystem MemoryDB (MemoryDB.New 10)).exists_reachable
    (C := fun _ w => w.version.isSome = false)
    (P := fun s => answerSeq 1 (s.storage.storedValues (ofText "k", false)) =
      (ofText "a", 1)) (s := ⟨{}, fun _ => []⟩) twoSeqs ⟨⟨rfl, rfl⟩, rfl⟩ (by decide +kernel)
    (by decide +kernel)
  obtain ⟨l, hl, hread, hckpt⟩ :=
    (writeSystem (ResLevelDB wireEnv) (ResLevelDB.New 10)).exists_reachable
      (C := fun s w => w.version.isSome = false ∧ s.storage.HasRoom w)
      (P := fun s => answerSeq 0 (s.storage.storedValues (ofText "k")) = (ofText "b", 2) ∧
        s.storage.lastCkpt = 2) (s := ⟨{}, fun _ => []⟩) twoSeqs ⟨new_spec, rfl⟩ (by decide +kernel)
      (by decide +kernel)
  have h := sequenced_store_law (by decide) wireCodec_fits hm hl (ofText "k")
  exact ⟨m, l, (h.1.read 1).trans hma, (h.2.1.read 0).trans hread,
    h.2.2.1.trans (congrArg some hckpt)⟩

/-- A write to the key of the checkpoint succeeds, and then `GetLastCheckpoint` throws. -/
theorem sequenced_store_law_fails : ∃ l : Accepted (ResLevelDB wireEnv),
    (writeSystem (ResLevelDB wireEnv) (ResLevelDB.New 10)).Reachable
      (fun _ w => w.version.isSome = false) l ∧ (l.accepted ckptKey).length = 1 ∧
    ({} : ResLevelDB wireEnv).getLastCheckpoint.1 = some 0 ∧
    l.storage.getLastCheckpoint.1 = none := by
  obtain ⟨l, hl, hlen, hnone⟩ :=
    (writeSystem (ResLevelDB wireEnv) (ResLevelDB.New 10)).exists_reachable
      (C := fun _ w => w.version.isSome = false)
      (P := fun s => (s.accepted ckptKey).length = 1 ∧ s.storage.getLastCheckpoint.1 = none)
      (s := ⟨{}, fun _ => []⟩) [writeSeq "leveldb_checkpoint" "a" 0 (by decide)] ⟨new_spec, rfl⟩
      (by decide +kernel) (by decide +kernel)
  exact ⟨l, hl, hlen, by decide +kernel, hnone⟩

end Kv
