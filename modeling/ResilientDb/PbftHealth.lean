/-
**The unstable checkpoint.**

`ProcessStatusSync` keeps the number that each replica has reported, and `CheckHealthy` counts for every
reported number how many replicas have reported at least as much.  The largest number that enough
replicas have reached becomes the unstable checkpoint.

Main definitions:

* `Pbft.StatusTable`, `Pbft.StatusTable.checkHealthy` — the reports, and what is computed from them;
* `Pbft.StatusTable.reporters` — the replicas behind a number.

Main results:

* `Pbft.checkHealthy_quantile` — the number is a quantile of the reports, and correct replicas bound it.
-/

import ResilientDb.PbftCertificate

set_option autoImplicit false

namespace Pbft

/-- `status_` and `last_update_time_`, which is 0 for a replica that has not reported. -/
structure StatusTable where
  status : ℕ → ℕ
  lastUpdateTime : ℕ → ℕ

namespace StatusTable

variable (cfg : Config) (t : StatusTable)

/-- `ProcessStatusSync`. -/
def processStatusSync (senderId seq now : ℕ) : StatusTable where
  status := Function.update t.status senderId seq
  lastUpdateTime := Function.update t.lastUpdateTime senderId now

/-- The replicas that the first loop of `CheckHealthy` does not skip. -/
def reported : List ℕ := (List.range' 1 cfg.totalNum).filter fun i => t.lastUpdateTime i ≠ 0

/-- `seqs`: the reported numbers, and how often each was reported. -/
def seqs : List (ℕ × ℕ) :=
  let numbers := (t.reported cfg).map t.status
  numbers.dedup.map fun seq => (seq, numbers.count seq)

/-- The second loop of `CheckHealthy`. -/
def unstableCkpt : ℕ :=
  (t.seqs cfg).foldl (fun ckpt it =>
    let num := (((t.seqs cfg).filter fun sit => ¬ sit.1 < it.1).map Prod.snd).sum
    if cfg.minDataReceiveNum ≤ num then max ckpt it.1 else ckpt) 0

/-- `CheckHealthy`: the replicas that `TimeoutHandler` is called for, and the unstable checkpoint. -/
def checkHealthy (currentTime : ℕ) : List ℕ × ℕ :=
  ((t.reported cfg).filter fun i => 60 < (currentTime + 2 ^ 32 - t.lastUpdateTime i) % 2 ^ 32,
    t.unstableCkpt cfg)

/-- The replicas that have reported at least `seq`. -/
def reporters (seq : ℕ) : Finset ℕ :=
  {i ∈ Finset.Icc 1 cfg.totalNum | t.lastUpdateTime i ≠ 0 ∧ seq ≤ t.status i}

variable {cfg t}

/-- The inner loop counts replicas. -/
theorem sum_seqs (seq : ℕ) : (((t.seqs cfg).filter fun sit => ¬ sit.1 < seq).map Prod.snd).sum =
    (t.reporters cfg seq).card := by
  have hfilter : t.reporters cfg seq =
      ((t.reported cfg).filter fun i => seq ≤ t.status i).toFinset := by
    ext i
    simp only [reporters, reported, Finset.mem_filter, Finset.mem_Icc, List.mem_toFinset,
      List.mem_filter, List.mem_range'_1, decide_eq_true_eq]
    omega
  have hnodup : ((t.reported cfg).filter fun i => seq ≤ t.status i).Nodup :=
    (List.nodup_range' _).filter _ |>.filter _
  rw [hfilter, List.toFinset_card_of_nodup hnodup, ← List.countP_eq_length_filter, seqs,
    List.filter_map]
  simpa [Function.comp_def] using
    List.sum_map_count_dedup_filter_eq_countP (seq ≤ ·) ((t.reported cfg).map t.status)

/-- The outer loop takes the largest number that passes the test. -/
theorem foldl_max {q : ℕ → Prop} [DecidablePred q] : ∀ (l : List (ℕ × ℕ)) (ckpt : ℕ),
    let u := l.foldl (fun ckpt it => if q it.1 then max ckpt it.1 else ckpt) ckpt
    (u = ckpt ∨ q u) ∧ ckpt ≤ u ∧ ∀ it ∈ l, q it.1 → it.1 ≤ u
  | [], ckpt => by simp
  | it :: l, ckpt => by
    have ih := foldl_max (q := q) l (if q it.1 then max ckpt it.1 else ckpt)
    simp only [List.foldl_cons, List.forall_mem_cons] at ih ⊢
    obtain ⟨hu, hle, hall⟩ := ih
    by_cases hq : q it.1
    · rw [if_pos hq] at hu hle hall ⊢
      refine ⟨?_, (le_max_left _ _).trans hle, fun _ => (le_max_right _ _).trans hle, hall⟩
      rcases hu with hu | hu
      · rcases max_choice ckpt it.1 with hmax | hmax
        · exact .inl (hu.trans hmax)
        · rw [hu, hmax]
          exact .inr hq
      · exact .inr hu
    · rw [if_neg hq] at hu hle hall ⊢
      exact ⟨hu, hle, fun h => absurd h hq, hall⟩

theorem reporters_mono {seq seq' : ℕ} (h : seq ≤ seq') :
    t.reporters cfg seq' ⊆ t.reporters cfg seq :=
  Finset.monotone_filter_right _ fun _ _ hi => ⟨hi.1, h.trans hi.2⟩

theorem unstableCkpt_spec :
    (t.unstableCkpt cfg = 0 ∨ cfg.minDataReceiveNum ≤ (t.reporters cfg (t.unstableCkpt cfg)).card) ∧
      ∀ seq, cfg.minDataReceiveNum ≤ (t.reporters cfg seq).card → seq ≤ t.unstableCkpt cfg := by
  simp only [unstableCkpt, sum_seqs]
  obtain ⟨hu, -, hall⟩ :=
    foldl_max (q := fun seq => cfg.minDataReceiveNum ≤ (t.reporters cfg seq).card) (t.seqs cfg) 0
  refine ⟨hu, fun seq hseq => ?_⟩
  -- the smallest report among these replicas has all of them behind it
  have hpos : 0 < (t.reporters cfg seq).card := (le_max_right _ _).trans hseq
  obtain ⟨i, hi, hmin⟩ := Finset.exists_min_image _ t.status (Finset.card_pos.1 hpos)
  have hsub : t.reporters cfg seq ⊆ t.reporters cfg (t.status i) := by
    intro j hj
    have hj' := Finset.mem_filter.1 hj
    exact Finset.mem_filter.2 ⟨hj'.1, hj'.2.1, hmin j hj⟩
  obtain ⟨hrange, htime, hle⟩ := Finset.mem_filter.1 hi
  have hkey : (t.status i, ((t.reported cfg).map t.status).count (t.status i)) ∈ t.seqs cfg := by
    refine List.mem_map.2 ⟨_, List.mem_dedup.2 (List.mem_map.2 ⟨i, ?_, rfl⟩), rfl⟩
    rw [Finset.mem_Icc] at hrange
    exact List.mem_filter.2 ⟨List.mem_range'_1.2 (by omega), decide_eq_true htime⟩
  exact hle.trans (hall _ hkey (hseq.trans (Finset.card_le_card hsub)))

end StatusTable

/-- **The unstable checkpoint is the largest number that `2 * f + 1` replicas have reported**, and
`f + 1` correct replicas have reached it. -/
theorem checkHealthy_quantile {cfg : Config} {f : ℕ} (hn : cfg.totalNum = 3 * f + 1) (t : StatusTable)
    (currentTime : ℕ) :
    (if 2 * f + 1 ≤ (t.reporters cfg 0).card then
      IsGreatest {seq | 2 * f + 1 ≤ (t.reporters cfg seq).card} (t.checkHealthy cfg currentTime).2
    else (t.checkHealthy cfg currentTime).2 = 0) ∧
      ∀ (liars : Finset ℕ) (reached : ℕ → ℕ), liars.card ≤ f →
        (∀ i ∉ liars, t.lastUpdateTime i ≠ 0 → t.status i ≤ reached i) →
        f + 1 ≤ ((Finset.Icc 1 cfg.totalNum \ liars).filter fun i =>
          (t.checkHealthy cfg currentTime).2 ≤ reached i).card := by
  have hmin : cfg.minDataReceiveNum = 2 * f + 1 := by
    unfold Config.minDataReceiveNum
    omega
  obtain ⟨hu, hall⟩ := @StatusTable.unstableCkpt_spec cfg t
  rw [hmin] at hu hall
  refine ⟨?_, fun liars reached hliars hreached => ?_⟩
  · split_ifs with hmany
    · refine ⟨hu.elim (fun hzero => ?_) id, hall⟩
      change 2 * f + 1 ≤ (t.reporters cfg (t.unstableCkpt cfg)).card
      rw [hzero]
      exact hmany
    · refine hu.resolve_right fun hcard => hmany (hcard.trans (Finset.card_le_card ?_))
      exact StatusTable.reporters_mono (Nat.zero_le _)
  · -- the replicas behind the number, of which at most `f` are liars
    obtain ⟨S, hcard, hsub⟩ : ∃ S : Finset ℕ, 2 * f + 1 ≤ S.card ∧ S \ liars ⊆
        (Finset.Icc 1 cfg.totalNum \ liars).filter fun i => t.unstableCkpt cfg ≤ reached i := by
      rcases hu with hzero | hcard
      · refine ⟨Finset.Icc 1 cfg.totalNum, by rw [Nat.card_Icc]; omega, fun i hi => ?_⟩
        exact Finset.mem_filter.2 ⟨hi, hzero ▸ Nat.zero_le _⟩
      · refine ⟨_, hcard, fun i hi => ?_⟩
        obtain ⟨hi, hcorrect⟩ := Finset.mem_sdiff.1 hi
        obtain ⟨hrange, htime, hle⟩ := Finset.mem_filter.1 hi
        exact Finset.mem_filter.2 ⟨Finset.mem_sdiff.2 ⟨hrange, hcorrect⟩,
          hle.trans (hreached i hcorrect htime)⟩
    have hsdiff := Finset.le_card_sdiff liars S
    exact (show f + 1 ≤ (S \ liars).card by omega).trans (Finset.card_le_card hsub)

/-- Three of four replicas have reported. -/
def threeReports : StatusTable :=
  (((⟨fun _ => 0, fun _ => 0⟩ : StatusTable).processStatusSync 1 7 5).processStatusSync
    3 4 5).processStatusSync 4 9 6

theorem checkHealthy_quantile_three :
    IsGreatest {seq | 3 ≤ (threeReports.reporters (plainConfig 4 false) seq).card} 4 := by
  have h := (@checkHealthy_quantile (plainConfig 4 false) 1 rfl threeReports 6).1
  exact h

end Pbft
