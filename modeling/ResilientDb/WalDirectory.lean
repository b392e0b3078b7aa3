/-
**The files of the write-ahead log.**

`RecoveryBase` writes one file at a time.  When a checkpoint is stable, `FinishFile` gives the file a
name with the range of its records and the checkpoint, and opens the next one, whose name has no range
yet.  A restart continues the last file without a range.  Recovery reads that file, and those files
whose range contains the newest checkpoint.

Main definitions:

* `Wal.FileName`, `Wal.Derived` — what a name says, and what the derived classes add;
* `Wal.Recovery` — the members of `RecoveryBase` and the directory;
* `Wal.Recovery.finishFile`, `Wal.Recovery.init`, `Wal.getRecoveryFiles` — as in the source;
* `Wal.directorySystem` — the runs: writes, checkpoints and clean restarts;
* `Wal.Clean`, `Wal.RangeCovers` — conditions on the steps.

Main results:

* `Wal.DirectoryInv` — what holds in every state;
* `Wal.NameRule` — when the names of the finished files say something about their records;
* `Wal.recovery_files_complete` — a record above the newest checkpoint is in a file that recovery reads,
  if every file with such a record got a range that reaches down to its checkpoint;
* `Wal.recovery_files_complete_fails` — a file that starts above the next checkpoint is left out;
* `Wal.directory_exact` — in clean runs, the files together hold what was written, in order.
-/

import ResilientDb.OrderedMap
import ResilientDb.WalFile

set_option autoImplicit false

namespace Wal

open List (append_nil map_append map_map mem_append mem_cons_self mem_map mem_map_of_mem
  mem_singleton not_mem_nil)
open Option (map_eq_some_iff map_some)
open Wire (Bytes)

/-! ### Names and ranges -/

/-- The numbers in the name of a file: the time when it got the name, the range of its records (`-1`
without one), and the checkpoint. -/
structure FileName where
  time : ℕ
  minSeq : ℤ
  maxSeq : ℤ
  ckpt : ℤ
deriving DecidableEq

namespace FileName

/-- The numbers in the order in which they stand in the name. -/
def numbers (n : FileName) : ℕ ×ₗ ℤ ×ₗ ℤ ×ₗ ℤ :=
  toLex (n.time, toLex (n.minSeq, toLex (n.maxSeq, n.ckpt)))

theorem numbers_injective : Function.Injective numbers := by
  rintro ⟨t, a, b, c⟩ ⟨t', a', b', c'⟩ h
  simpa [numbers] using h

instance : LinearOrder FileName := LinearOrder.lift' numbers numbers_injective

theorem lt_of_time_lt {a b : FileName} (h : a.time < b.time) : a < b :=
  Prod.Lex.toLex_lt_toLex.2 (.inl h)

/-- The part of the path that differs between files. -/
def path (n : FileName) : String :=
  toString n.time ++ "_" ++ toString n.minSeq ++ "_" ++ toString n.maxSeq ++ "_" ++ toString n.ckpt

/-- The order of the pairs of a time and a path, in which files are sorted. -/
def SortedBefore (a b : FileName) : Prop := a.time < b.time ∨ a.time = b.time ∧ a.path ≤ b.path

instance (a b : FileName) : Decidable (SortedBefore a b) := inferInstanceAs (Decidable (_ ∨ _))

end FileName

/-- `min_seq_` and `max_seq_`. -/
structure Range where
  minSeq : ℤ
  maxSeq : ℤ
deriving DecidableEq

namespace Range

/-- No record. -/
def empty : Range := ⟨-1, -1⟩

/-- One more record. -/
def add (r : Range) (seq : ℤ) : Range :=
  ⟨if r.minSeq = -1 then seq else min r.minSeq seq, max r.maxSeq seq⟩

end Range

/-- What a derived class adds to `RecoveryBase`: the format of its records, their sequence numbers, the
update of the range in `WriteLog`, which may depend on `last_ckpt_`, and the records that
`PerformCallback` passes on when it recovers from a checkpoint. -/
structure Derived (ρ : Type) where
  format : Format ρ
  seq : ρ → ℕ
  writeRange : ℤ → Range → ρ → Range
  replayed : ℤ → ρ → Bool

/-- `PBFTRecovery`, whose records are requests with their signatures. -/
def pbftRecovery {α β : Type} (c : Codec α) (d : Codec β) (seq : α → ℕ) (isNewView : α → Bool) :
    Derived (α × β) where
  format := pbftFormat c d
  seq := fun r => seq r.1
  writeRange := fun _ range r => range.add (seq r.1)
  replayed := fun ckpt r => decide (ckpt < seq r.1) || isNewView r.1

/-- `RaftRecovery`, whose records are entries and truncations.  A truncation lowers the range. -/
def raftRecovery {ρ : Type} (c : Codec ρ) (seq : ρ → ℕ) (isTruncation : ρ → Bool) : Derived ρ where
  format := raftFormat c
  seq := seq
  writeRange := fun lastCkpt range r =>
    if isTruncation r then
      let keepUpTo : ℤ := seq r
      let maxSeq := if keepUpTo < range.maxSeq then keepUpTo else range.maxSeq
      if maxSeq ≤ lastCkpt then .empty
      else ⟨if range.minSeq = -1 then keepUpTo else min range.minSeq keepUpTo, maxSeq⟩
    else range.add (seq r)
  replayed := fun ckpt r => decide (ckpt < seq r) || decide (ckpt = seq r) && isTruncation r

/-! ### The directory -/

section

variable {ρ : Type}

/-- The files of the directory. -/
abbrev Directory (ρ : Type) := OrderedMap FileName (ActiveFile ρ)

/-- A file, which `O_CREAT` creates if it is not there. -/
def Directory.get (dir : Directory ρ) (name : FileName) : ActiveFile ρ :=
  (dir.find? name).getD .absent

/-- `std::rename`, after the file has been closed. -/
def Directory.rename (dir : Directory ρ) (old new : FileName) : Directory ρ :=
  match dir.find? old with
  | none => dir
  | some f => (dir.erase old).set new { f with running := false }

/-- The newest checkpoint in the names, as `GetRecoveryFiles` computes it. -/
def Directory.lastCkpt (dir : Directory ρ) : ℤ := (dir.keys.map FileName.ckpt).foldl max 0

/-- `GetRecoveryFiles`: the files to read, in order, and the newest checkpoint. -/
def getRecoveryFiles (dir : Directory ρ) : List FileName × ℤ :=
  let lastCkpt := dir.lastCkpt
  let eList := (dir.keys.filter fun n => n.minSeq = -1).insertionSort FileName.SortedBefore
  let list := dir.keys.filter fun n =>
    n.minSeq ≠ -1 ∧ n.minSeq ≤ lastCkpt ∧ lastCkpt ≤ n.maxSeq
  ((list ++ eList.getLast?.toList).insertionSort FileName.SortedBefore, lastCkpt)

/-- The later one of two files, of which the second may have a range. -/
def laterFile (last : Option FileName) (n : FileName) : Option FileName :=
  if n.minSeq = -1 ∧ (last.map FileName.time).getD 0 < n.time then some n else last

/-- The search of `GetLastFile` for the last file without a range. -/
def Directory.lastFile (dir : Directory ρ) : Option FileName := dir.keys.foldl laterFile none

/-- `GetLastFile`: the file to continue, which is a new one if there is none. -/
def Directory.getLastFile (dir : Directory ρ) (time : ℕ) : FileName :=
  match dir.lastFile with
  | some n => if n.ckpt = -1 then ⟨time, -1, -1, 0⟩ else n
  | none => ⟨time, -1, -1, 0⟩

/-- Read files one after the other: the records that are passed on, and the directory afterwards. -/
def Directory.readFiles (cls : Derived ρ) (ckpt : ℤ) : List FileName → Directory ρ →
    Option (List ρ × Directory ρ)
  | [], dir => some ([], dir)
  | n :: names, dir =>
    ((dir.get n).readLogs cls.format).bind fun r =>
      (readFiles cls ckpt names (dir.set n r.2)).map fun rest =>
        (r.1.filter (cls.replayed ckpt) ++ rest.1, rest.2)

end

/-- The directory, the members of `RecoveryBase`, whether the process is running, the records that were
written, and the largest checkpoint for which a file was finished. -/
structure Recovery (ρ : Type) where
  dir : Directory ρ
  filePath : FileName
  range : Range
  lastCkpt : ℤ
  running : Bool
  written : List ρ
  finished : ℤ

namespace Recovery

variable {ρ : Type} (cls : Derived ρ)

/-- Nothing has happened yet. -/
def fresh : Recovery ρ :=
  ⟨.empty, ⟨0, -1, -1, 0⟩, .empty, 0, false, [], 0⟩

/-- The file that is being written. -/
def activeFile (st : Recovery ρ) : ActiveFile ρ := st.dir.get st.filePath

/-- `WriteLog` for each of these records, and `Flush`. -/
def write (st : Recovery ρ) (records : List ρ) : Option (Recovery ρ) :=
  (st.activeFile.step cls.format (.flush records)).map fun f =>
    { st with
      dir := st.dir.set st.filePath f
      range := records.foldl (cls.writeRange st.lastCkpt) st.range
      written := st.written ++ records }

/-- The first half of `FinishFile`: the file gets its final name. -/
def renameFile (st : Recovery ρ) (seq : ℤ) (time : ℕ) : Recovery ρ :=
  { st with
    dir := st.dir.rename st.filePath ⟨time, st.range.minSeq, st.range.maxSeq, seq⟩
    range := .empty
    finished := max st.finished seq }

/-- The second half of `FinishFile`: the next file is opened. -/
def openNext (st : Recovery ρ) (seq : ℤ) (time : ℕ) (info : Bytes) : Recovery ρ :=
  let next : FileName := ⟨time, -1, -1, seq⟩
  { st with
    dir := st.dir.set next ((st.dir.get next).openFile cls.format info)
    filePath := next }

/-- `FinishFile`, once the storage has been flushed. -/
def finishFile (st : Recovery ρ) (seq : ℤ) (time time' : ℕ) (info : Bytes) : Recovery ρ :=
  (st.renameFile seq time).openNext cls seq time' info

/-- `GetLastFile` and `SwitchFile`, as `Init` calls them: the last file is read for its range, and
continued. -/
def init (st : Recovery ρ) (time : ℕ) (info : Bytes) : Option (Recovery ρ) :=
  let path := st.dir.getLastFile time
  ((st.dir.get path).readLogs cls.format).map fun r =>
    { st with
      dir := st.dir.set path (r.2.openFile cls.format info)
      filePath := path
      range := ((r.1.filter (cls.replayed 0)).map cls.seq).foldl
        (fun range (seq : ℕ) => range.add seq) .empty
      lastCkpt := path.ckpt
      running := true }

/-- The process ends: its file is closed. -/
def stop (st : Recovery ρ) : Recovery ρ :=
  { st with
    dir := match st.dir.find? st.filePath with
      | none => st.dir
      | some f => st.dir.set st.filePath { f with running := false }
    running := false }

/-- `ReadLogs`: the records for the callback, and the state afterwards. -/
def readLogs (st : Recovery ρ) : Option (List ρ × Recovery ρ) :=
  (st.dir.readFiles cls (getRecoveryFiles st.dir).2 (getRecoveryFiles st.dir).1).map fun r =>
    (r.1, { st with dir := r.2 })

end Recovery

/-- What can happen to the log. -/
inductive DirectoryAction (ρ : Type)
  /-- Records are written and flushed as one block. -/
  | write (records : List ρ)
  /-- `UpdateStableCheckPoint` sees a new checkpoint; `flushed` is the outcome of flushing the storage,
  and the times are those at which `FinishFile` makes up its two names. -/
  | updateStableCheckPoint (ckpt : ℤ) (flushed : Bool) (time time' : ℕ) (info : Bytes)
  /-- `ReadLogs`. -/
  | readLogs
  /-- The process ends, if it is running, and is started. -/
  | restart (time : ℕ) (info : Bytes)

section

variable {ρ : Type} (cls : Derived ρ)

/-- One action.  A checkpoint is at most the largest sequence number written so far. -/
def Recovery.step (st : Recovery ρ) : DirectoryAction ρ → Option (Recovery ρ)
  | .write records => if st.running then st.write cls records else none
  | .updateStableCheckPoint ckpt flushed time time' info =>
    if st.running ∧ st.lastCkpt < ckpt ∧ (∃ r ∈ st.written, ckpt ≤ cls.seq r) ∧
        info.length < 2 ^ 32 then
      let st := { st with lastCkpt := ckpt }
      some (if flushed then st.finishFile cls ckpt time time' info else st)
    else none
  | .readLogs => if st.running then (st.readLogs cls).map Prod.snd else none
  | .restart time info =>
    if info.length < 2 ^ 32 then (if st.running then st.stop else st).init cls time info else none

/-- The runs of the log, from an empty directory on. -/
def directorySystem : TransitionSystem (Recovery ρ) (DirectoryAction ρ) where
  init st := st = .fresh
  step := Recovery.step cls

/-- A record is in a file. -/
def Holds (f : ActiveFile ρ) (r : ρ) : Prop :=
  ∃ out content, readLogsFromFiles cls.format f.content = some (out, content) ∧ r ∈ out

/-- Every record above the largest checkpoint is in one of the files that recovery reads. -/
def KeepsUncheckpointed (st : Recovery ρ) : Prop :=
  ∀ r ∈ st.written, st.finished < cls.seq r →
    ∃ n ∈ (getRecoveryFiles st.dir).1, ∃ f, st.dir.find? n = some f ∧ Holds cls f r

/-- A clean step.  No block is longer than a reader takes, the clock has advanced since the last name was
made up, and the file that is being written is not read while it holds nothing but system information. -/
def Clean (st : Recovery ρ) : DirectoryAction ρ → Prop
  | .write records => (buffer cls.format records).length ≤ maxRecordSize
  | .updateStableCheckPoint _ flushed time time' _ =>
    flushed = true → (∀ n ∈ st.dir.keys, n.time < time) ∧ time < time'
  | .readLogs => cls.format.hasSystemInfo = false ∨ st.activeFile.flushed.isEmpty = false
  | .restart time _ => 0 < time

/-- The step is clean, and when a file is finished, its range contains its records above the checkpoint and
reaches down to the checkpoint. -/
def RangeCovers (st : Recovery ρ) (a : DirectoryAction ρ) : Prop :=
  Clean cls st a ∧ match a with
    | .updateStableCheckPoint ckpt flushed _ _ _ =>
      flushed = true → ∀ r ∈ st.activeFile.flushed, ckpt < cls.seq r →
        st.range.minSeq ≠ -1 ∧ st.range.minSeq ≤ ckpt ∧ cls.seq r ≤ st.range.maxSeq
    | _ => True

instance (st : Recovery ρ) (a : DirectoryAction ρ) : Decidable (Clean cls st a) := by
  unfold Clean
  split <;> infer_instance

instance (st : Recovery ρ) (a : DirectoryAction ρ) : Decidable (RangeCovers cls st a) := by
  unfold RangeCovers
  split <;> infer_instance

end

/-! ### The directory as a sequence of files -/

section

variable {ρ : Type}

/-- What is known about the files: their records, and whether they are being written. -/
def Directory.view (dir : Directory ρ) : List (FileName × List ρ × Bool) :=
  dir.entries.map fun e => (e.1, e.2.flushed, e.2.running)

theorem Directory.keys_eq (dir : Directory ρ) : dir.keys = dir.view.map Prod.fst := by
  rw [OrderedMap.keys, view, map_map]
  rfl

theorem Directory.get_set (dir : Directory ρ) (n : FileName) (f : ActiveFile ρ) (m : FileName) :
    Directory.get (dir.set n f) m = if m = n then f else dir.get m := by
  rw [get, OrderedMap.find?_set]
  split_ifs <;> rfl

variable {dir : Directory ρ} {n : FileName}

theorem Directory.get_of_not_mem (h : n ∉ dir.keys) : dir.get n = .absent := by
  cases hfind : dir.find? n with
  | none => rw [get, hfind, Option.getD_none]
  | some f => exact absurd (mem_map_of_mem (OrderedMap.mem_of_find? hfind)) h

variable {rs : List ρ} {b : Bool}

theorem Directory.get_of_mem_view (h : (n, rs, b) ∈ dir.view) :
    dir.find? n = some (dir.get n) ∧ (n, dir.get n) ∈ dir.entries ∧ (dir.get n).flushed = rs ∧
      (dir.get n).running = b := by
  obtain ⟨⟨n', f⟩, hf, heq⟩ := mem_map.1 h
  obtain ⟨rfl, rfl, rfl⟩ := heq
  have hfind : dir.find? n' = some f := OrderedMap.find?_of_mem hf
  have hget : dir.get n' = f := by rw [get, hfind, Option.getD_some]
  rw [hget]
  exact ⟨hfind, hf, rfl, rfl⟩

theorem Directory.view_set {l l' : List (FileName × List ρ × Bool)} (f : ActiveFile ρ)
    (h : dir.view = l ++ (n, rs, b) :: l') :
    Directory.view (dir.set n f) = l ++ (n, f.flushed, f.running) :: l' := by
  obtain ⟨e₁, e₂, he, h₁, h₂⟩ := List.map_eq_append_iff.1 h
  obtain ⟨⟨n', old⟩, e₃, rfl, heq, h₃⟩ := List.map_eq_cons_iff.1 h₂
  obtain ⟨rfl, -, -⟩ := heq
  rw [view, OrderedMap.entries_set_of_mem f he, map_append, List.map_cons, h₁, h₃]

theorem Directory.view_set_new (f : ActiveFile ρ) (h : ∀ m ∈ dir.keys, m.time < n.time) :
    Directory.view (dir.set n f) = dir.view ++ [(n, f.flushed, f.running)] := by
  have hlt : ∀ e ∈ dir.entries, e.1 < n := fun e he =>
    FileName.lt_of_time_lt (h e.1 (mem_map_of_mem he))
  rw [view, OrderedMap.entries_set_new f hlt, map_append]
  rfl

/-- A file that gets a later name stays the last one. -/
theorem Directory.view_rename {l : List (FileName × List ρ × Bool)}
    {old : FileName} (new : FileName) (h : dir.view = l ++ [(old, rs, b)])
    (hnew : ∀ m ∈ dir.keys, m.time < new.time) :
    (dir.rename old new).view = l ++ [(new, rs, false)] := by
  obtain ⟨e₁, e₂, he, h₁, h₂⟩ := List.map_eq_append_iff.1 h
  obtain ⟨⟨n', f⟩, e₃, rfl, heq, h₃⟩ := List.map_eq_cons_iff.1 h₂
  obtain rfl := List.map_eq_nil_iff.1 h₃
  obtain ⟨rfl, rfl, -⟩ := heq
  have hmem : (n', f) ∈ dir.entries := by simp [he]
  have herase : (dir.erase n').entries = e₁ := OrderedMap.entries_erase_last he
  have hrename : dir.rename n' new = (dir.erase n').set new { f with running := false } := by
    rw [rename, OrderedMap.find?_of_mem hmem]
  rw [hrename, view_set_new, view, herase, h₁]
  intro m hm
  refine hnew m ?_
  rw [OrderedMap.keys, herase] at hm
  rw [OrderedMap.keys, he, map_append]
  exact List.mem_append_left _ hm

theorem forall_mem_set {P : ActiveFile ρ → Prop}
    {f : ActiveFile ρ} (h : ∀ e ∈ dir.entries, P e.2) (hf : P f) :
    ∀ e ∈ (dir.set n f).entries, P e.2 := by
  rintro ⟨m, g⟩ hg
  rcases OrderedMap.mem_set.1 hg with ⟨-, rfl⟩ | ⟨-, hg⟩
  · exact hf
  · exact h _ hg

theorem forall_mem_rename {P : ActiveFile ρ → Prop} {old new : FileName}
    (h : ∀ e ∈ dir.entries, P e.2) (hclose : ∀ f, P f → P { f with running := false }) :
    ∀ e ∈ (dir.rename old new).entries, P e.2 := by
  unfold Directory.rename
  split
  case h_1 => exact h
  case h_2 f hf =>
    have hmem : (old, f) ∈ dir.entries := OrderedMap.mem_of_find? hf
    refine forall_mem_set ?_ (hclose f (h _ hmem))
    rintro ⟨m, g⟩ hg
    exact h _ (OrderedMap.mem_erase.1 hg).2

/-! ### The order of the names -/

/-- The file that is being written has the latest name, which has no range. -/
structure NamesInv (dir : Directory ρ) (filePath : FileName) (closed : List FileName) : Prop where
  keys : dir.keys = closed ++ [filePath]
  times : dir.keys.Pairwise fun a b => a.time < b.time
  noRange : filePath.minSeq = -1
  time_pos : 0 < filePath.time
  ckpt_ne : filePath.ckpt ≠ -1

namespace NamesInv

variable {dir : Directory ρ} {filePath : FileName} {closed : List FileName}

section

variable (h : NamesInv dir filePath closed)
include h

theorem time_lt {n : FileName} (hn : n ∈ closed) : n.time < filePath.time := by
  have htimes := h.times
  rw [h.keys, List.pairwise_append] at htimes
  exact htimes.2.2 n hn _ mem_cons_self

theorem sorted {l : List FileName} (hl : l.Sublist dir.keys) :
    l.insertionSort FileName.SortedBefore = l :=
  ((h.times.sublist hl).imp fun hlt => .inl hlt).insertionSort_eq

theorem getLast?_noRange :
    ((dir.keys.filter fun n => n.minSeq = -1).insertionSort FileName.SortedBefore).getLast? =
      some filePath := by
  rw [h.sorted List.filter_sublist, h.keys]
  simp [h.noRange]

/-- Recovery reads the closed files whose range contains the newest checkpoint, in the order in which
they were finished, and then the file that was being written. -/
theorem getRecoveryFiles_eq : getRecoveryFiles dir = (closed.filter (fun n =>
      n.minSeq ≠ -1 ∧ n.minSeq ≤ dir.lastCkpt ∧ dir.lastCkpt ≤ n.maxSeq) ++ [filePath],
        dir.lastCkpt) := by
  have hboth : ∀ p, (closed.filter p ++ [filePath]).Sublist dir.keys := by
    intro p
    rw [h.keys]
    exact List.filter_sublist.append (List.Sublist.refl _)
  rw [getRecoveryFiles, h.getLast?_noRange, Option.toList_some]
  nth_rewrite 1 [h.keys]
  rw [List.filter_append, List.filter_cons_of_neg (by simp [h.noRange]), List.filter_nil, append_nil,
    h.sorted (hboth _)]

theorem getLastFile_eq (time : ℕ) : dir.getLastFile time = filePath := by
  have hmem : ∀ (l : List FileName) (last : Option FileName) (n : FileName),
      l.foldl laterFile last = some n → last = some n ∨ n ∈ l := by
    intro l
    induction l with
    | nil => exact fun last n hn => .inl hn
    | cons m l ih =>
      intro last n hn
      rcases ih _ n hn with heq | hmem
      · unfold laterFile at heq
        split_ifs at heq
        · exact .inr (Option.some.inj heq ▸ mem_cons_self)
        · exact .inl heq
      · exact .inr (List.mem_cons_of_mem _ hmem)
  have hlast : dir.lastFile = some filePath := by
    rw [Directory.lastFile, h.keys, List.foldl_append]
    refine if_pos ⟨h.noRange, ?_⟩
    cases hfold : closed.foldl laterFile none with
    | none => exact h.time_pos
    | some n =>
      rcases hmem _ none n hfold with hnone | hn
      · exact absurd hnone (Option.some_ne_none n).symm
      · exact h.time_lt hn
  rw [Directory.getLastFile, hlast]
  exact if_neg h.ckpt_ne

end

end NamesInv

end

/-! ### What holds in every state -/

section

variable {ρ : Type} {cls : Derived ρ} {tells : ℤ → FileName → ρ → Prop} {st : Recovery ρ}
  {closed : List (FileName × List ρ)} {active : List ρ}

/-- The directory holds the closed files, in the order in which they were finished, and then the file
that is being written.  The name of a closed file says something about each of its records, which may
depend on the largest checkpoint. -/
structure DirectoryInv (cls : Derived ρ) (tells : ℤ → FileName → ρ → Prop) (st : Recovery ρ)
    (closed : List (FileName × List ρ)) (active : List ρ) : Prop where
  view : st.dir.view = (closed.map fun e => (e.1, e.2, false)) ++ [(st.filePath, active, st.running)]
  files : ∀ e ∈ st.dir.entries, FileInv cls.format e.2
  times : st.dir.keys.Pairwise fun a b => a.time < b.time
  ckpts : ∀ e ∈ closed, e.1.ckpt ≤ st.finished
  tells : ∀ e ∈ closed, ∀ r ∈ e.2, tells st.finished e.1 r
  noRange : st.filePath.minSeq = -1
  ckpt : st.filePath.ckpt = st.finished
  time_pos : 0 < st.filePath.time
  finished_nonneg : 0 ≤ st.finished
  written : st.written = closed.flatMap Prod.snd ++ active

namespace DirectoryInv

variable (h : DirectoryInv cls tells st closed active)

include h

theorem mem_view : (st.filePath, active, st.running) ∈ st.dir.view := by
  rw [h.view]
  exact List.mem_append_right _ mem_cons_self

theorem keys : st.dir.keys = closed.map Prod.fst ++ [st.filePath] := by
  rw [Directory.keys_eq, h.view, map_append, map_map]
  rfl

theorem names : NamesInv st.dir st.filePath (closed.map Prod.fst) := by
  have hnonneg := h.finished_nonneg
  exact ⟨h.keys, h.times, h.noRange, h.time_pos, by rw [h.ckpt]; omega⟩

theorem activeFile : st.activeFile.flushed = active ∧ st.activeFile.running = st.running ∧
      FileInv cls.format st.activeFile := by
  obtain ⟨-, hmem, hflushed, hrunning⟩ := Directory.get_of_mem_view h.mem_view
  exact ⟨hflushed, hrunning, h.files _ hmem⟩

variable {f : ActiveFile ρ}

theorem set_active
    (hf : FileInv cls.format f) (records : List ρ) (hflushed : f.flushed = active ++ records) :
    DirectoryInv cls tells { st with
      dir := st.dir.set st.filePath f
      running := f.running
      written := st.written ++ records } closed (active ++ records) where
  view := by rw [Directory.view_set f h.view, hflushed]
  files := forall_mem_set h.files hf
  times := by
    have hkeys : OrderedMap.keys (st.dir.set st.filePath f) = st.dir.keys := by
      rw [Directory.keys_eq, Directory.view_set f h.view, Directory.keys_eq, h.view]
      simp
    rw [hkeys]
    exact h.times
  ckpts := h.ckpts
  tells := h.tells
  noRange := h.noRange
  ckpt := h.ckpt
  time_pos := h.time_pos
  finished_nonneg := h.finished_nonneg
  written := by rw [h.written, List.append_assoc]

theorem with_members (range : Range) (lastCkpt : ℤ) :
    DirectoryInv cls tells { st with range := range, lastCkpt := lastCkpt } closed active :=
  ⟨h.view, h.files, h.times, h.ckpts, h.tells, h.noRange, h.ckpt, h.time_pos, h.finished_nonneg,
    h.written⟩

theorem write {records : List ρ} {st' : Recovery ρ} (htorn : st.activeFile.torn = false)
    (hsize : (buffer cls.format records).length ≤ maxRecordSize)
    (hs : st.write cls records = some st') :
    DirectoryInv cls tells st' closed (active ++ records) := by
  obtain ⟨f, hf, rfl⟩ := map_eq_some_iff.1 hs
  obtain ⟨hflushed, hrunning, hinv⟩ := h.activeFile
  have hinv' := hinv.step (a := .flush records) ⟨htorn, hsize⟩ hf
  dsimp only [ActiveFile.step] at hf
  split_ifs at hf with hg
  have hf' := Option.some.inj hf
  have hset := h.set_active hinv' records (by rw [← hf', ← hflushed])
  have hf_running : f.running = st.running := by
    rw [← hf', ← hrunning]
    rfl
  rw [hf_running] at hset
  exact hset.with_members _ _

theorem mem_keys {n : FileName} (hn : n ∈ closed.map Prod.fst) : n ∈ st.dir.keys := by
  rw [h.keys]
  exact List.mem_append_left _ hn

section

variable {seq : ℤ} {time : ℕ} (htime : ∀ n ∈ st.dir.keys, n.time < time)
include htime

theorem view_renameFile : (st.renameFile seq time).dir.view =
    List.map (fun e : FileName × List ρ => (e.1, e.2, false))
      (closed ++ [(⟨time, st.range.minSeq, st.range.maxSeq, seq⟩, active)]) := by
  rw [Recovery.renameFile, Directory.view_rename _ h.view htime, map_append]
  rfl

theorem keys_renameFile : (st.renameFile seq time).dir.keys =
    closed.map Prod.fst ++ [⟨time, st.range.minSeq, st.range.maxSeq, seq⟩] := by
  rw [Directory.keys_eq, h.view_renameFile htime, map_map, map_append]
  rfl

theorem times_renameFile :
    (st.renameFile seq time).dir.keys.Pairwise fun a b => a.time < b.time := by
  have htimes := h.times
  rw [h.keys, List.pairwise_append] at htimes
  rw [h.keys_renameFile htime, List.pairwise_append]
  refine ⟨htimes.1, List.pairwise_singleton _ _, fun m hm n hn => ?_⟩
  obtain rfl := mem_singleton.1 hn
  exact htime m (h.mem_keys hm)

end

/-- The file gets its name, and the next one is opened. -/
theorem finishFile {seq : ℤ} {time time' : ℕ} {info : Bytes}
    (hinfo : info.length < 2 ^ 32) (hrunning : st.running = true) (hseq : st.finished < seq)
    (hmono : ∀ n r, tells st.finished n r → tells seq n r)
    (htells : ∀ r ∈ active, tells seq ⟨time, st.range.minSeq, st.range.maxSeq, seq⟩ r)
    (htime : ∀ n ∈ st.dir.keys, n.time < time) (htime' : time < time') :
    DirectoryInv cls tells (st.finishFile cls seq time time' info)
      (closed ++ [(⟨time, st.range.minSeq, st.range.maxSeq, seq⟩, active)]) [] := by
  have hfiles : ∀ e ∈ (st.renameFile seq time).dir.entries, FileInv cls.format e.2 :=
    forall_mem_rename h.files fun f hf => hf.close
  have hnew : ∀ m ∈ (st.renameFile seq time).dir.keys, m.time < time' := by
    intro m hm
    rw [h.keys_renameFile htime] at hm
    rcases mem_append.1 hm with hm | hm
    · exact (htime m (h.mem_keys hm)).trans htime'
    · rw [mem_singleton.1 hm]
      exact htime'
  -- the next file is a new one
  have habsent : (st.renameFile seq time).dir.get ⟨time', -1, -1, seq⟩ = .absent :=
    Directory.get_of_not_mem fun hmem => absurd (hnew _ hmem) (lt_irrefl _)
  have hopen : FileInv cls.format ((ActiveFile.absent : ActiveFile ρ).openFile cls.format info) :=
    .openFile_empty hinfo rfl rfl rfl
  have hdir : (st.finishFile cls seq time time' info).dir = (st.renameFile seq time).dir.set
      ⟨time', -1, -1, seq⟩ (ActiveFile.absent.openFile cls.format info) := by
    rw [Recovery.finishFile, Recovery.openNext, habsent]
  have hfinished : (st.finishFile cls seq time time' info).finished = seq := max_eq_right hseq.le
  constructor
  case view =>
    rw [hdir, Directory.view_set_new _ hnew, h.view_renameFile htime]
    exact congrArg _ (congrArg (fun b => [(_, [], b)]) hrunning.symm)
  case files =>
    rw [hdir]
    exact forall_mem_set hfiles hopen
  case times =>
    rw [hdir, Directory.keys_eq, Directory.view_set_new _ hnew, map_append, ← Directory.keys_eq,
      List.pairwise_append]
    refine ⟨h.times_renameFile htime, List.pairwise_singleton _ _, fun m hm n hn => ?_⟩
    obtain rfl := mem_singleton.1 hn
    exact hnew m hm
  case ckpts =>
    intro e he
    rw [hfinished]
    rcases mem_append.1 he with he | he
    · exact (h.ckpts e he).trans hseq.le
    · rw [mem_singleton.1 he]
  case tells =>
    intro e he r hr
    rw [hfinished]
    rcases mem_append.1 he with he | he
    · exact hmono e.1 r (h.tells e he r hr)
    · rw [mem_singleton.1 he] at hr ⊢
      exact htells r hr
  case noRange => rfl
  case ckpt => exact hfinished.symm
  case time_pos => exact Nat.lt_of_le_of_lt (Nat.zero_le _) htime'
  case finished_nonneg =>
    rw [hfinished]
    exact h.finished_nonneg.trans hseq.le
  case written =>
    rw [List.flatMap_append, append_nil, List.flatMap_singleton]
    exact h.written

variable {n : FileName}

theorem set_file
    (hn : n ∈ st.dir.keys) (hf : FileInv cls.format f) (hflushed : f.flushed = (st.dir.get n).flushed)
    (hrunning : f.running = (st.dir.get n).running) :
    DirectoryInv cls tells { st with dir := st.dir.set n f } closed active := by
  have hview : Directory.view (st.dir.set n f) = st.dir.view := by
    rw [Directory.keys_eq] at hn
    obtain ⟨⟨m, rs, b⟩, hmem, rfl⟩ := mem_map.1 hn
    obtain ⟨l, l', hsplit⟩ := List.append_of_mem hmem
    obtain ⟨-, -, hrs, hb⟩ := Directory.get_of_mem_view hmem
    rw [Directory.view_set f hsplit, hflushed, hrunning, hrs, hb, hsplit]
  have htimes : (OrderedMap.keys (st.dir.set n f)).Pairwise fun a b => a.time < b.time := by
    rw [Directory.keys_eq, hview, ← Directory.keys_eq]
    exact h.times
  exact ⟨hview.trans h.view, forall_mem_set h.files hf, htimes, h.ckpts, h.tells, h.noRange, h.ckpt,
    h.time_pos, h.finished_nonneg, h.written⟩

theorem get (hn : n ∈ st.dir.keys) : FileInv cls.format (st.dir.get n) := by
  rw [Directory.keys_eq] at hn
  obtain ⟨⟨m, rs, b⟩, hmem, rfl⟩ := mem_map.1 hn
  exact h.files _ (Directory.get_of_mem_view hmem).2.1

theorem running_of_ne (hn : n ∈ st.dir.keys)
    (hne : n ≠ st.filePath) : (st.dir.get n).running = false := by
  rw [Directory.keys_eq] at hn
  obtain ⟨⟨m, rs, b⟩, hmem, rfl⟩ := mem_map.1 hn
  obtain ⟨-, -, -, hb⟩ := Directory.get_of_mem_view hmem
  rw [hb]
  rw [h.view, mem_append, mem_singleton] at hmem
  rcases hmem with hmem | hmem
  · obtain ⟨e, -, heq⟩ := mem_map.1 hmem
    exact (congrArg (fun x => x.2.2) heq).symm
  · exact absurd (congrArg Prod.fst hmem) hne

omit h in
theorem readFiles (ckpt : ℤ) : ∀ (names : List FileName) {st : Recovery ρ} {r : List ρ × Directory ρ},
    DirectoryInv cls tells st closed active → (∀ n ∈ names, n ∈ st.dir.keys) →
    (st.running = true → cls.format.hasSystemInfo = false ∨ active ≠ []) →
    st.dir.readFiles cls ckpt names = some r →
    DirectoryInv cls tells { st with dir := r.2 } closed active
  | [], st, r, h, _, _, hr => by
    cases hr
    exact h
  | n :: names, st, r, h, hmem, hinfo, hr => by
    obtain ⟨x, hx, hr⟩ := Option.bind_eq_some_iff.1 hr
    obtain ⟨y, hy, rfl⟩ := map_eq_some_iff.1 hr
    have hn : n ∈ st.dir.keys := hmem n mem_cons_self
    have hinv := (h.get hn).of_readLogs hx fun hrun => by
      by_cases hne : n = st.filePath
      · subst hne
        obtain ⟨hactive, hrunning, -⟩ := h.activeFile
        have hor := hinfo (hrunning.symm.trans hrun)
        rwa [← hactive] at hor
      · exact absurd ((h.running_of_ne hn hne).symm.trans hrun) Bool.false_ne_true
    have hset := h.set_file hn hinv (readLogs_keeps hx).1 (readLogs_keeps hx).2
    have hkeys : OrderedMap.keys (st.dir.set n x.2) = st.dir.keys := hset.keys.trans h.keys.symm
    have hrest := readFiles ckpt names hset
      (fun m hm => hkeys ▸ hmem m (List.mem_cons_of_mem _ hm)) hinfo hy
    exact hrest

/-- The newest checkpoint in the names is the largest one so far. -/
theorem lastCkpt_eq : st.dir.lastCkpt = st.finished := by
  have hle : ∀ (l : List FileName) (k : ℤ), k ≤ st.finished → (∀ n ∈ l, n.ckpt ≤ st.finished) →
      (l.map FileName.ckpt).foldl max k ≤ st.finished := by
    intro l
    induction l with
    | nil => exact fun k hk _ => hk
    | cons n l ih =>
      intro k hk hl
      exact ih _ (max_le hk (hl n mem_cons_self)) fun m hm => hl m (List.mem_cons_of_mem _ hm)
  have hclosed : ∀ n ∈ closed.map Prod.fst, n.ckpt ≤ st.finished := by
    intro n hn
    obtain ⟨e, he, rfl⟩ := mem_map.1 hn
    exact h.ckpts e he
  rw [Directory.lastCkpt, h.keys, map_append, List.foldl_append, List.map_singleton, h.ckpt]
  exact max_eq_right (hle _ 0 h.finished_nonneg hclosed)

theorem getRecoveryFiles_eq : getRecoveryFiles st.dir = ((closed.map Prod.fst).filter (fun n =>
      n.minSeq ≠ -1 ∧ n.minSeq ≤ st.finished ∧ st.finished ≤ n.maxSeq) ++ [st.filePath],
        st.finished) := by
  rw [h.names.getRecoveryFiles_eq, h.lastCkpt_eq]

theorem getLastFile_eq (time : ℕ) : st.dir.getLastFile time = st.filePath :=
  h.names.getLastFile_eq time

theorem stop : DirectoryInv cls tells st.stop closed active := by
  obtain ⟨hflushed, -, hinv⟩ := h.activeFile
  have hset := h.set_active hinv.close [] (by rw [append_nil]; exact hflushed)
  rw [append_nil, append_nil] at hset
  rw [Recovery.stop, (Directory.get_of_mem_view h.mem_view).1]
  exact hset

theorem init {time : ℕ} {info : Bytes} {st' : Recovery ρ}
    (hinfo : info.length < 2 ^ 32) (hs : st.init cls time info = some st') :
    DirectoryInv cls tells st' closed active := by
  obtain ⟨r, hr, rfl⟩ := map_eq_some_iff.1 hs
  rw [h.getLastFile_eq] at hr ⊢
  obtain ⟨hflushed, -, hinv⟩ := h.activeFile
  have hset := h.set_active (hinv.restart hinfo hr) [] (by
    rw [append_nil]
    exact (readLogs_keeps hr).1.trans hflushed)
  rw [append_nil, append_nil] at hset
  exact hset.with_members _ _

end DirectoryInv

variable {time : ℕ} {info : Bytes}

theorem directoryInv_init_fresh (tells : ℤ → FileName → ρ → Prop) (htime : 0 < time)
    (hinfo : info.length < 2 ^ 32) (hs : Recovery.fresh.init cls time info = some st) :
    DirectoryInv cls tells st [] [] := by
  unfold Recovery.init at hs
  obtain ⟨r, hr, rfl⟩ := map_eq_some_iff.1 hs
  have hinv : FileInv cls.format (.absent : ActiveFile ρ) := .absent
  have hopen := hinv.restart hinfo hr
  have hflushed := (readLogs_keeps hr).1
  refine ⟨?_, ?_, ?_, ?_, ?_, rfl, rfl, htime, le_rfl, rfl⟩
  · exact congrArg (fun rs => [((⟨time, -1, -1, 0⟩ : FileName), rs, true)]) hflushed
  · intro e he
    obtain rfl := mem_singleton.1 he
    exact hopen
  · exact List.pairwise_singleton _ _
  · exact nofun
  · exact nofun

/-! ### Clean runs -/

/-- No file ends with part of a block. -/
def Untorn (dir : Directory ρ) : Prop := ∀ e ∈ dir.entries, e.2.torn = false

variable {dir : Directory ρ}

theorem Untorn.get (h : Untorn dir) (n : FileName) : (dir.get n).torn = false := by
  cases hfind : dir.find? n with
  | none =>
    rw [Directory.get, hfind]
    rfl
  | some f =>
    rw [Directory.get, hfind]
    exact h _ (OrderedMap.mem_of_find? hfind)

theorem Untorn.set (h : Untorn dir) (n : FileName) {f : ActiveFile ρ}
    (hf : f.torn = false) : Untorn (dir.set n f) :=
  forall_mem_set (P := fun f => f.torn = false) h hf

theorem Untorn.rename (h : Untorn dir) (old new : FileName) : Untorn (dir.rename old new) :=
  forall_mem_rename (P := fun f => f.torn = false) h fun _ hf => hf

theorem torn_readLogs {fmt : Format ρ} {f : ActiveFile ρ} {r : List ρ × ActiveFile ρ}
    (hr : f.readLogs fmt = some r) (htorn : f.torn = false) : r.2.torn = false := by
  obtain ⟨x, -, rfl⟩ := map_eq_some_iff.1 hr
  simp [htorn]

theorem Untorn.readFiles (ckpt : ℤ) : ∀ (names : List FileName) {dir : Directory ρ}
    {r : List ρ × Directory ρ}, Untorn dir → dir.readFiles cls ckpt names = some r → Untorn r.2
  | [], dir, r, h, hr => by
    cases hr
    exact h
  | n :: names, dir, r, h, hr => by
    obtain ⟨x, hx, hr⟩ := Option.bind_eq_some_iff.1 hr
    obtain ⟨y, hy, rfl⟩ := map_eq_some_iff.1 hr
    have hrest := Untorn.readFiles ckpt names (h.set n (torn_readLogs hx (h.get n))) hy
    exact hrest

/-- What makes properties of ranges and of names ones that hold in all runs whose steps satisfy `C`.  The
range of the file that is being written has the property `covered` of each of its records, and the name
that the file gets has the property `tells`. -/
structure NameRule (cls : Derived ρ) (C : Recovery ρ → DirectoryAction ρ → Prop)
    (covered : Range → ρ → Prop) (tells : ℤ → FileName → ρ → Prop) : Prop where
  clean : ∀ {st a}, C st a → Clean cls st a
  /-- `WriteLog` -/
  write : ∀ {lastCkpt range r r'}, r = r' ∨ covered range r → covered (cls.writeRange lastCkpt range r') r
  /-- `SwitchFile` -/
  read : ∀ {records : List ρ} {r}, r ∈ records → covered
    (((records.filter (cls.replayed 0)).map cls.seq).foldl (fun range (seq : ℕ) => range.add seq)
      .empty) r
  /-- `FinishFile` -/
  finish : ∀ {st ckpt time time' info r}, C st (.updateStableCheckPoint ckpt true time time' info) →
    r ∈ st.activeFile.flushed → covered st.range r →
    tells ckpt ⟨time, st.range.minSeq, st.range.maxSeq, ckpt⟩ r
  mono : ∀ {ckpt ckpt' n r}, ckpt < ckpt' → tells ckpt n r → tells ckpt' n r

variable {C : Recovery ρ → DirectoryAction ρ → Prop} {covered : Range → ρ → Prop}

theorem NameRule.writes (rule : NameRule cls C covered tells) (lastCkpt : ℤ) (records : List ρ) {r : ρ} :
    ∀ {range : Range}, r ∈ records ∨ covered range r →
      covered (records.foldl (cls.writeRange lastCkpt) range) r := by
  induction records with
  | nil => exact fun h => h.resolve_left not_mem_nil
  | cons r' records ih =>
    intro range h
    refine ih ?_
    rcases h with h | h
    · exact (List.mem_cons.1 h).symm.imp_right fun heq => rule.write (.inl heq)
    · exact .inr (rule.write (.inr h))

/-- What holds in every state of a clean run. -/
def CleanInv (cls : Derived ρ) (covered : Range → ρ → Prop) (tells : ℤ → FileName → ρ → Prop)
    (st : Recovery ρ) : Prop :=
  st = .fresh ∨ (∃ closed active, DirectoryInv cls tells st closed active ∧
      ∀ r ∈ active, covered st.range r) ∧
    Untorn st.dir ∧ st.running = true ∧ st.finished ≤ st.lastCkpt

variable {st' : Recovery ρ}

section

variable (rule : NameRule cls C covered tells) (h : CleanInv cls covered tells st)
include rule h

theorem CleanInv.write {records : List ρ}
    (hrunning : st.running = true) (hsize : (buffer cls.format records).length ≤ maxRecordSize)
    (hs : st.write cls records = some st') : CleanInv cls covered tells st' := by
  rcases h with rfl | ⟨⟨closed, active, hinv, hcovered⟩, huntorn, -, hfinished⟩
  · exact absurd hrunning Bool.false_ne_true
  · have htorn := huntorn.get st.filePath
    have hwrite := hinv.write htorn hsize hs
    obtain ⟨f, hf, rfl⟩ := map_eq_some_iff.1 hs
    dsimp only [ActiveFile.step] at hf
    split_ifs at hf with hg
    refine .inr ⟨⟨closed, _, hwrite, fun r hr => ?_⟩, huntorn.set _ ?_, hrunning, hfinished⟩
    · exact rule.writes _ _ ((mem_append.1 hr).symm.imp_right (hcovered r))
    · rw [← Option.some.inj hf]
      exact htorn

theorem CleanInv.finishFile {ckpt : ℤ} {time' : ℕ}
    (hok : C st (.updateStableCheckPoint ckpt true time time' info))
    (hrunning : st.running = true) (hinfo : info.length < 2 ^ 32) (hckpt : st.lastCkpt < ckpt) :
    CleanInv cls covered tells
      (Recovery.finishFile cls { st with lastCkpt := ckpt } ckpt time time' info) := by
  rcases h with rfl | ⟨⟨closed, active, hinv, hcovered⟩, huntorn, -, hfinished⟩
  · exact absurd hrunning Bool.false_ne_true
  · have hseq : st.finished < ckpt := lt_of_le_of_lt hfinished hckpt
    obtain ⟨htime, htime'⟩ := rule.clean hok rfl
    have htells : ∀ r ∈ active, tells ckpt ⟨time, st.range.minSeq, st.range.maxSeq, ckpt⟩ r := by
      intro r hr
      refine rule.finish hok ?_ (hcovered r hr)
      rwa [hinv.activeFile.1]
    have hfinish := (hinv.with_members st.range ckpt).finishFile hinfo hrunning hseq
      (fun _ _ => rule.mono hseq) htells htime htime'
    refine .inr ⟨⟨_, _, hfinish, nofun⟩, ?_, hrunning, (max_eq_right hseq.le).le⟩
    have hrename : Untorn (Recovery.renameFile { st with lastCkpt := ckpt } ckpt time).dir :=
      huntorn.rename _ _
    exact hrename.set _ (hrename.get _)

omit rule in
theorem CleanInv.readLogs {r : List ρ × Recovery ρ} (hrunning : st.running = true)
    (hok : cls.format.hasSystemInfo = false ∨ st.activeFile.flushed ≠ [])
    (hr : st.readLogs cls = some r) : CleanInv cls covered tells r.2 := by
  rcases h with rfl | ⟨⟨closed, active, hinv, hcovered⟩, huntorn, -, hfinished⟩
  · exact absurd hrunning Bool.false_ne_true
  · obtain ⟨x, hx, rfl⟩ := map_eq_some_iff.1 hr
    refine .inr ⟨⟨closed, active, ?_, hcovered⟩, huntorn.readFiles _ _ hx, hrunning, hfinished⟩
    have hmem : ∀ n ∈ (getRecoveryFiles st.dir).1, n ∈ st.dir.keys := by
      intro n hn
      rw [hinv.getRecoveryFiles_eq] at hn
      rw [hinv.keys]
      exact (List.filter_sublist.append (List.Sublist.refl _)).subset hn
    rw [hinv.activeFile.1] at hok
    exact DirectoryInv.readFiles _ _ hinv hmem (fun _ => hok) hx

theorem CleanInv.restart (htime : 0 < time) (hinfo : info.length < 2 ^ 32)
    (hs : (if st.running then st.stop else st).init cls time info = some st') :
    CleanInv cls covered tells st' := by
  rcases h with rfl | ⟨⟨closed, active, hinv, -⟩, huntorn, hrunning, -⟩
  · have hclosed := directoryInv_init_fresh tells htime hinfo hs
    unfold Recovery.init at hs
    obtain ⟨r, hr, rfl⟩ := map_eq_some_iff.1 hs
    refine .inr ⟨⟨[], [], hclosed, nofun⟩, ?_, rfl, le_rfl⟩
    have hempty : Untorn (OrderedMap.empty : Directory ρ) := nofun
    exact hempty.set _ (torn_readLogs hr rfl)
  · rw [if_pos hrunning] at hs
    have hinit := hinv.stop.init hinfo hs
    have hstop : Untorn st.stop.dir := by
      rw [Recovery.stop, (Directory.get_of_mem_view hinv.mem_view).1]
      exact huntorn.set _ (huntorn.get st.filePath)
    obtain ⟨r, hr, rfl⟩ := map_eq_some_iff.1 hs
    refine .inr ⟨⟨closed, active, hinit, fun x hx => rule.read ?_⟩, ?_, rfl, ?_⟩
    · -- what is read is what was flushed
      obtain ⟨hflushed, -, hfile⟩ := hinv.stop.activeFile
      rw [hinv.stop.getLastFile_eq] at hr
      obtain ⟨y, hy, rfl⟩ := map_eq_some_iff.1 hr
      have hread := hfile.readLogsFromFiles.symm.trans hy
      rw [← Option.some.inj hread]
      exact hflushed ▸ hx
    · exact hstop.set _ (torn_readLogs hr (hstop.get _))
    · exact hinit.ckpt.ge

/-- Every step that the rule allows keeps the invariant. -/
theorem CleanInv.step {a : DirectoryAction ρ} (hok : C st a) (hs : st.step cls a = some st') :
    CleanInv cls covered tells st' := by
  have hclean := rule.clean hok
  cases a <;> dsimp only [Recovery.step] at hs
  case write records =>
    split_ifs at hs with hrunning
    exact h.write rule hrunning hclean hs
  case updateStableCheckPoint ckpt flushed time time' info =>
    split_ifs at hs with hg hflushed
    · cases hs
      subst hflushed
      exact h.finishFile rule hok hg.1 hg.2.2.2 hg.2.1
    · cases hs
      rcases h with rfl | ⟨⟨closed, active, hinv, hcovered⟩, huntorn, hrunning, hfinished⟩
      · exact absurd hg.1 Bool.false_ne_true
      · exact .inr ⟨⟨closed, active, hinv.with_members _ _, hcovered⟩, huntorn, hrunning,
          hfinished.trans hg.2.1.le⟩
  case readLogs =>
    split_ifs at hs with hrunning
    obtain ⟨r, hr, rfl⟩ := map_eq_some_iff.1 hs
    exact h.readLogs hrunning (hclean.imp_right (by simp)) hr
  case restart time info =>
    split_ifs at hs with hinfo hrunning
    · exact h.restart rule hclean hinfo (by rw [if_pos hrunning]; exact hs)
    · exact h.restart rule hclean hinfo (by rw [if_neg hrunning]; exact hs)

end

/-- What a rule says holds in every state that a run reaches. -/
theorem NameRule.reachable (rule : NameRule cls C covered tells)
    (h : (directorySystem cls).Reachable C st) : CleanInv cls covered tells st := by
  refine h.invariant (I := CleanInv cls covered tells) ?_ ?_
  · exact fun st hst => .inl hst
  · exact fun st a st' hst hok hs => hst.step rule hok hs

/-- In all clean runs, the files are as they should be, whatever their names say. -/
theorem nameRule_clean (cls : Derived ρ) :
    NameRule cls (Clean cls) (fun _ _ => True) fun _ _ _ => True where
  clean := fun h => h
  write := fun _ => trivial
  read := fun _ => trivial
  finish := fun _ _ _ => trivial
  mono := fun _ h => h

/-- If the ranges cover the records above the checkpoint when they are made up, they go on doing so. -/
theorem nameRule_rangeCovers (cls : Derived ρ) :
    NameRule cls (RangeCovers cls) (fun _ _ => True) fun ckpt n r =>
      ckpt < cls.seq r → n.minSeq ≠ -1 ∧ n.minSeq ≤ ckpt ∧ cls.seq r ≤ n.maxSeq where
  clean := And.left
  write := fun _ => trivial
  read := fun _ => trivial
  finish := fun hok hr _ => hok.2 rfl _ hr
  mono := by
    intro ckpt ckpt' n r hlt h hr
    obtain ⟨hne, hmin, hmax⟩ := h (hlt.trans hr)
    exact ⟨hne, hmin.trans hlt.le, hmax⟩

theorem DirectoryInv.holds (h : DirectoryInv cls tells st closed active) {n : FileName} {rs : List ρ}
    {b : Bool} (hmem : (n, rs, b) ∈ st.dir.view) {r : ρ} (hr : r ∈ rs) :
    ∃ f, st.dir.find? n = some f ∧ Holds cls f r := by
  obtain ⟨hfind, hentry, hflushed, -⟩ := Directory.get_of_mem_view hmem
  refine ⟨_, hfind, (st.dir.get n).flushed, _, (h.files _ hentry).readLogsFromFiles, ?_⟩
  rwa [hflushed]

end

/-- Every record above the largest checkpoint is in one of the files that recovery reads. -/
theorem recovery_files_complete {ρ : Type} {cls : Derived ρ} {st : Recovery ρ}
    (h : (directorySystem cls).Reachable (RangeCovers cls) st) : KeepsUncheckpointed cls st := by
  intro r hr hlt
  rcases (nameRule_rangeCovers cls).reachable h with rfl | ⟨⟨closed, active, hinv, -⟩, -⟩
  · exact absurd hr not_mem_nil
  rw [hinv.written, mem_append] at hr
  rw [hinv.getRecoveryFiles_eq]
  rcases hr with hr | hr
  · -- a closed file: its range contains the largest checkpoint
    obtain ⟨e, he, hr⟩ := List.mem_flatMap.1 hr
    obtain ⟨hne, hmin, hmax⟩ := hinv.tells e he r hr hlt
    have hmem : (e.1, e.2, false) ∈ st.dir.view := by
      rw [hinv.view]
      exact List.mem_append_left _ (mem_map_of_mem he)
    refine ⟨e.1, List.mem_append_left _ ?_, hinv.holds hmem hr⟩
    rw [List.mem_filter]
    refine ⟨mem_map_of_mem he, ?_⟩
    simpa [hne, hmin] using hlt.le.trans hmax
  · exact ⟨st.filePath, List.mem_append_right _ mem_cons_self, hinv.holds hinv.mem_view hr⟩

/-- Records that are numbers. -/
def numberRecovery : Derived Bytes := raftRecovery stringCodec Wire.leValue fun _ => false

/-- The log runs ahead of a checkpoint, and the process is restarted. -/
def aheadRun : List (DirectoryAction Bytes) :=
  [.restart 1 [], .readLogs, .write [[1]], .write [[2], [3]],
    .updateStableCheckPoint 1 true 2 3 [], .write [[4]], .restart 4 [], .readLogs]

theorem recovery_files_complete_aheadRun :
    ∃ st, (directorySystem numberRecovery).run .fresh aheadRun = some st ∧
      st.written = [[1], [2], [3], [4]] ∧ st.finished = 1 ∧ KeepsUncheckpointed numberRecovery st := by
  obtain ⟨st, hst, hreach, hwritten, hfinished⟩ := (directorySystem numberRecovery).exists_run
    (C := RangeCovers numberRecovery)
    (P := fun st => st.written = [[1], [2], [3], [4]] ∧ st.finished = 1) aheadRun rfl
    (by decide +kernel) (by decide +kernel)
  exact ⟨st, hst, hwritten, hfinished, recovery_files_complete hreach⟩

/-- **In clean runs the files, in the order of their times, hold every record that was written, once and in
the order of writing.** -/
theorem directory_exact {ρ : Type} {cls : Derived ρ} {st : Recovery ρ}
    (h : (directorySystem cls).Reachable (Clean cls) st) :
    (st.dir.keys.Pairwise fun a b => a.time < b.time) ∧ ∃ files : List (List ρ),
      (st.dir.entries.map fun e => (readLogsFromFiles cls.format e.2.content).map Prod.fst) =
        files.map some ∧ files.flatten = st.written := by
  rcases (nameRule_clean cls).reachable h with rfl | ⟨⟨closed, active, hinv, -⟩, -⟩
  · exact ⟨.nil, [], rfl, rfl⟩
  refine ⟨hinv.times, st.dir.view.map fun v => v.2.1, ?_, ?_⟩
  · rw [Directory.view, map_map, map_map]
    refine List.map_congr_left fun e he => ?_
    rw [(hinv.files e he).readLogsFromFiles]
    rfl
  · rw [hinv.view, hinv.written, map_append, map_map, List.flatten_append, List.flatMap_def]
    exact congrArg _ (append_nil active)

theorem directory_exact_aheadRun :
    ∃ st, (directorySystem numberRecovery).run .fresh aheadRun = some st ∧ st.dir.keys.length = 2 ∧
      ∃ files : List (List Bytes), files.flatten = [[1], [2], [3], [4]] ∧
        (st.dir.entries.map fun e => (readLogsFromFiles numberRecovery.format e.2.content).map
          Prod.fst) = files.map some := by
  obtain ⟨st, hst, hreach, hwritten, hlen⟩ := (directorySystem numberRecovery).exists_run
    (C := Clean numberRecovery)
    (P := fun st => st.written = [[1], [2], [3], [4]] ∧ st.dir.keys.length = 2) aheadRun rfl
    (by decide +kernel) (by decide +kernel)
  obtain ⟨-, files, hread, hflat⟩ := directory_exact hreach
  exact ⟨st, hst, hlen, files, hflat.trans hwritten, hread⟩

/-- The next checkpoint falls into the range of the first file, and the second one starts above it: the
record of the second file is not read. -/
theorem recovery_files_complete_fails :
    ¬ ∀ (ρ : Type) (cls : Derived ρ) (st : Recovery ρ),
      (directorySystem cls).Reachable TransitionSystem.always st → KeepsUncheckpointed cls st := by
  intro h
  have hresult : ((directorySystem numberRecovery).run .fresh
      (aheadRun ++ [.updateStableCheckPoint 2 true 5 6 []])).map
        (fun st => (decide ([4] ∈ st.written ∧ st.finished < (numberRecovery.seq [4] : ℤ)),
          (getRecoveryFiles st.dir).1.map fun n =>
            ((readLogsFromFiles numberRecovery.format (st.dir.get n).content).map Prod.fst))) =
      some (true, [some [[1], [2], [3]], some []]) := by decide +kernel
  obtain ⟨st, hst, heq⟩ := map_eq_some_iff.1 hresult
  obtain ⟨hlost, hfiles⟩ := Prod.mk.inj heq
  obtain ⟨hwritten, hlt⟩ := of_decide_eq_true hlost
  obtain ⟨n, hn, f, hf, out, content, hread, hmem⟩ :=
    h Bytes numberRecovery st (TransitionSystem.reachable_of_run rfl hst) [4] hwritten hlt
  have hout : some out ∈ [some [[1], [2], [3]], some []] := by
    rw [← hfiles]
    refine mem_map.2 ⟨n, hn, ?_⟩
    rw [Directory.get, hf, Option.getD_some, hread, map_some]
  simp only [List.mem_cons, Option.some.injEq, not_mem_nil, or_false] at hout
  rcases hout with rfl | rfl
  · exact absurd hmem (by decide)
  · exact absurd hmem not_mem_nil

end Wal
