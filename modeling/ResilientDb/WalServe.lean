/-
**What is read back from the files of a replica.**

The files of the write-ahead log are read in two more ways than at the start of a replica.  A replica that
is running answers a `RecoveryRequest` with the messages of a range of sequence numbers (`GetData`), and
the heads of the files carry the view and the primary of a PBFT replica across a restart.

`GetSortedRecoveryFiles` collects the files without a range twice: all of them with the finished files, and
the last one of them once more.  `ReadLogsFromFiles` empties a file in which it finds no record, although
the process that is running goes on writing to it at its own offset.

Main definitions:

* `Wal.getSortedRecoveryFiles`, `Wal.getData` — as in the source;
* `Wal.Logged` — what the names and the contents of the files say;
* `Wal.SystemInfo`, `Wal.Directory.readInfo` — the view and the primary that `ReadLogs` leaves.

Main results:

* `Wal.getData_keeps_files_iff` — the files stay as they are if each one that is read has a record;
* `Wal.logged_of_reachable` — in clean runs, the names of the finished files have the ranges of their
  messages;
* `Wal.getData_exact_iff` — messages are returned as often as they were logged if the last file without a
  range has none of them;
* `Wal.view_survives_restart_iff` — when the view and the primary survive a restart.
-/

import ResilientDb.WalDirectory

set_option autoImplicit false

namespace Wal

open Option (any_eq_true bind_some map_eq_some_iff map_some)
open List (append_assoc count_append flatMap_cons mem_filter)
open Wire (Bytes readFrame)

/-! ### Recovery data -/

section

variable {ρ : Type}

/-- The end of `e_list`: the last file without a range. -/
def Directory.lastActive (dir : Directory ρ) : Option FileName :=
  ((dir.keys.filter fun n => n.minSeq = -1).insertionSort FileName.SortedBefore).getLast?

/-- `GetSortedRecoveryFiles`. -/
def getSortedRecoveryFiles (dir : Directory ρ) (needMinSeq needMaxSeq : ℕ) : List FileName :=
  let list := dir.keys.filter fun n =>
    n.minSeq = -1 ∨ ¬ (n.maxSeq < (needMinSeq : ℤ) ∨ (needMaxSeq : ℤ) < n.minSeq)
  (list ++ dir.lastActive.toList).insertionSort FileName.SortedBefore

/-- The callback of `GetDataFromRecoveryFiles`. -/
def addData (cls : Derived ρ) (needMinSeq needMaxSeq : ℕ) (res : OrderedMap ℕ (List ρ)) (r : ρ) :
    OrderedMap ℕ (List ρ) :=
  if needMinSeq ≤ cls.seq r ∧ cls.seq r ≤ needMaxSeq then res.insertWith (· ++ ·) (cls.seq r) [r]
  else res

/-- `GetDataFromRecoveryFiles` and `GetData`: the requests of the response with their signatures, and the
directory afterwards. -/
def getData (cls : Derived ρ) (dir : Directory ρ) (needMinSeq needMaxSeq : ℕ) :
    Option (List ρ × Directory ρ) :=
  (dir.readFiles cls ((needMinSeq : ℤ) - 1)
      (getSortedRecoveryFiles dir needMinSeq needMaxSeq)).map fun r =>
    ((r.1.foldl (addData cls needMinSeq needMaxSeq) .empty).entries.flatMap Prod.snd, r.2)

/-! ### What reading leaves of a file -/

/-- A file in which no record is found. -/
def Unrecorded (fmt : Format ρ) (f : ActiveFile ρ) : Prop :=
  (scan fmt f.content).map (fun r => r.1.isEmpty) = some true

instance (fmt : Format ρ) (f : ActiveFile ρ) : Decidable (Unrecorded fmt f) :=
  inferInstanceAs (Decidable (_ = _))

variable {fmt : Format ρ} {cls : Derived ρ} {dir dir' : Directory ρ} {f : ActiveFile ρ}

theorem unrecorded_of_empty (h : f.content = []) : Unrecorded fmt f := by
  rw [Unrecorded, h]
  rfl

theorem readLogs_file {r : List ρ × ActiveFile ρ} (hr : f.readLogs fmt = some r) :
    r.2 = if Unrecorded fmt f then { f with content := [], torn := false } else f := by
  obtain ⟨x, hx, rfl⟩ := map_eq_some_iff.1 hr
  obtain ⟨y, hy, rfl⟩ := map_eq_some_iff.1 hx
  by_cases hempty : y.1.isEmpty = true
  · have hun : Unrecorded fmt f := by rw [Unrecorded, hy, map_some, hempty]
    simp [hun, hempty]
  · have hun : ¬ Unrecorded fmt f := by
      rw [Unrecorded, hy]
      exact fun h => hempty (Option.some.inj h)
    have hcontent : f.content ≠ [] := fun hnil => hun (unrecorded_of_empty hnil)
    have htorn : (f.torn && !f.content.isEmpty) = f.torn := by simp [hcontent]
    simp only [if_neg hempty, if_neg hun, htorn]

/-- The files that are read and have no record are empty afterwards; all others are as before. -/
theorem get_readFiles (ckpt : ℤ) (m : FileName) : ∀ (names : List FileName) {dir dir' : Directory ρ}
    {out : List ρ}, dir.readFiles cls ckpt names = some (out, dir') → dir'.get m =
      if m ∈ names ∧ Unrecorded cls.format (dir.get m) then
        { dir.get m with content := [], torn := false } else dir.get m
  | [], dir, dir', out, h => by
    cases h
    simp
  | n :: names, dir, dir', out, h => by
    obtain ⟨r, hr, h⟩ := Option.bind_eq_some_iff.1 h
    obtain ⟨rest, hrest, h⟩ := map_eq_some_iff.1 h
    cases h
    have ih := get_readFiles ckpt m names hrest
    have hfile := readLogs_file hr
    rw [Directory.get_set] at ih
    by_cases hm : m = n
    · subst hm
      rw [hfile] at ih
      rw [ih]
      by_cases hun : Unrecorded cls.format (dir.get m) <;> simp [hun]
    · rw [ih]
      simp [hm]

/-- Every file that is read has a record, unless it is empty. -/
def RecordsServed (cls : Derived ρ) (dir : Directory ρ) (needMinSeq needMaxSeq : ℕ) : Prop :=
  ∀ n ∈ getSortedRecoveryFiles dir needMinSeq needMaxSeq,
    (dir.get n).content ≠ [] → ¬ Unrecorded cls.format (dir.get n)

instance (cls : Derived ρ) (dir : Directory ρ) (needMinSeq needMaxSeq : ℕ) :
    Decidable (RecordsServed cls dir needMinSeq needMaxSeq) :=
  inferInstanceAs (Decidable (∀ n ∈ getSortedRecoveryFiles dir needMinSeq needMaxSeq, _))

end

/-- **Serving recovery data.**  `GetData` leaves the bytes of all files as they are if and only if each file
that it reads has a record or is empty; and what is flushed to an intact file afterwards is then returned by
the next recovery, behind what was flushed before. -/
theorem getData_keeps_files_iff {ρ : Type} {cls : Derived ρ} {dir dir' : Directory ρ}
    {needMinSeq needMaxSeq : ℕ} {out : List ρ}
    (h : getData cls dir needMinSeq needMaxSeq = some (out, dir')) :
    ((∀ n, (dir'.get n).content = (dir.get n).content) ↔
      RecordsServed cls dir needMinSeq needMaxSeq) ∧
    (RecordsServed cls dir needMinSeq needMaxSeq → ∀ n records f', FileInv cls.format (dir.get n) →
      (dir.get n).torn = false → (buffer cls.format records).length ≤ maxRecordSize →
      (dir'.get n).step cls.format (.flush records) = some f' →
        (readLogsFromFiles cls.format f'.content).map Prod.fst =
          some ((dir.get n).flushed ++ records)) := by
  obtain ⟨r, hr, heq⟩ := map_eq_some_iff.1 h
  cases heq
  have hget := fun m => get_readFiles _ m _ hr
  refine ⟨⟨fun hsame n hn hcontent hun => hcontent ?_, fun hserved n => ?_⟩, ?_⟩
  · rw [← hsame n, hget n, if_pos ⟨hn, hun⟩]
  · rw [hget n]
    split_ifs with hread
    · exact (not_not.1 fun hcontent => hserved n hread.1 hcontent hread.2).symm
    · rfl
  · intro hserved n records f' hinv htorn hsize hstep
    have hfile : r.2.get n = dir.get n := by
      rw [hget n]
      split_ifs with hread
      · have hcontent := not_not.1 fun hcontent => hserved n hread.1 hcontent hread.2
        rw [← hcontent, ← htorn]
      · rfl
    rw [hfile] at hstep
    have hinv' := hinv.step (a := .flush records) ⟨htorn, hsize⟩ hstep
    dsimp only [ActiveFile.step] at hstep
    split_ifs at hstep with hg
    rw [hinv'.readLogsFromFiles, ← Option.some.inj hstep]
    rfl

/-- `PBFTRecovery` with strings as requests and signatures. -/
def stringRecovery : Derived (Bytes × Bytes) :=
  pbftRecovery stringCodec stringCodec Wire.leValue fun _ => false

/-- A replica logs a message and is asked for it. -/
theorem getData_keeps_files_iff_logged : ∃ st out dir',
    (directorySystem stringRecovery).run .fresh [.restart 1 [7], .write [([1], [2])]] = some st ∧
    getData stringRecovery st.dir 1 10 = some (out, dir') ∧
    ∀ n, (dir'.get n).content = (st.dir.get n).content := by
  have hrun : ((directorySystem stringRecovery).run .fresh
      [.restart 1 [7], .write [([1], [2])]]).any (fun st => decide
        ((getData stringRecovery st.dir 1 10).isSome = true ∧
          RecordsServed stringRecovery st.dir 1 10)) = true := by decide +kernel
  obtain ⟨st, hst, hstate⟩ := (any_eq_true _ _).1 hrun
  obtain ⟨hsome, hserved⟩ := of_decide_eq_true hstate
  obtain ⟨⟨out, dir'⟩, hdata⟩ := Option.isSome_iff_exists.1 hsome
  exact ⟨st, out, dir', hst, hdata, (getData_keeps_files_iff hdata).1.2 hserved⟩

/-- A replica has just been started: its file has no record yet and is emptied, and the message that is
logged next is lost. -/
theorem getData_keeps_files_fails : ∃ st out dir' f',
    (directorySystem stringRecovery).run .fresh [.restart 1 [7]] = some st ∧
    getData stringRecovery st.dir 1 10 = some (out, dir') ∧
    (dir'.get st.filePath).content ≠ (st.dir.get st.filePath).content ∧
    (dir'.get st.filePath).step stringRecovery.format (.flush [([1], [2])]) = some f' ∧
    (readLogsFromFiles stringRecovery.format f'.content).map Prod.fst = some [] := by
  have hrun : ((directorySystem stringRecovery).run .fresh [.restart 1 [7]]).any (fun st =>
      (getData stringRecovery st.dir 1 10).any fun r =>
        ((r.2.get st.filePath).step stringRecovery.format (.flush [([1], [2])])).any fun f' =>
          decide ((r.2.get st.filePath).content ≠ (st.dir.get st.filePath).content ∧
            (readLogsFromFiles stringRecovery.format f'.content).map Prod.fst = some [])) =
      true := by decide +kernel
  obtain ⟨st, hst, hstate⟩ := (any_eq_true _ _).1 hrun
  obtain ⟨⟨out, dir'⟩, hdata, hstate⟩ := (any_eq_true _ _).1 hstate
  obtain ⟨f', hf', hstate⟩ := (any_eq_true _ _).1 hstate
  obtain ⟨hcontent, hlost⟩ := of_decide_eq_true hstate
  exact ⟨st, out, dir', f', hst, hdata, hcontent, hf', hlost⟩

/-! ### Exactly once -/

section

variable {ρ : Type}

/-- The records that were flushed to a file are found in it. -/
def Reads (fmt : Format ρ) (f : ActiveFile ρ) : Prop :=
  (readLogsFromFiles fmt f.content).map Prod.fst = some f.flushed

instance [DecidableEq ρ] (fmt : Format ρ) (f : ActiveFile ρ) : Decidable (Reads fmt f) :=
  inferInstanceAs (Decidable (_ = _))

/-- The files say what was logged: the records of each are found in it, and the name of a finished file has
the range of its records. -/
structure Logged (cls : Derived ρ) (dir : Directory ρ) : Prop where
  reads : ∀ n ∈ dir.keys, Reads cls.format (dir.get n)
  ranges : ∀ n ∈ dir.keys, n.minSeq ≠ -1 → ∀ r ∈ (dir.get n).flushed, 1 ≤ cls.seq r →
    n.minSeq ≤ cls.seq r ∧ (cls.seq r : ℤ) ≤ n.maxSeq

/-- What was logged, file by file. -/
def Directory.logged (dir : Directory ρ) : List ρ := dir.keys.flatMap fun n => (dir.get n).flushed

variable {fmt : Format ρ} {cls : Derived ρ} {f : ActiveFile ρ}

theorem FileInv.reads (h : FileInv fmt f) : Reads fmt f := by
  rw [Reads, h.readLogsFromFiles]
  rfl

/-- A file that is emptied had no record, so that it can be read again. -/
theorem Reads.readLogs (h : Reads fmt f) :
    ∃ f', f.readLogs fmt = some (f.flushed, f') ∧ f'.flushed = f.flushed ∧ Reads fmt f' := by
  obtain ⟨x, hx, hrecords⟩ := map_eq_some_iff.1 h
  have hr : f.readLogs fmt = some (f.flushed, { f with
      content := x.2, torn := f.torn && !x.2.isEmpty }) := by
    rw [ActiveFile.readLogs, hx, ← hrecords]
    rfl
  refine ⟨_, hr, rfl, ?_⟩
  rw [show ({ f with content := x.2, torn := f.torn && !x.2.isEmpty } : ActiveFile ρ) = _ from
    readLogs_file hr]
  split_ifs with hun
  · obtain ⟨y, hy, heq⟩ := map_eq_some_iff.1 hx
    rw [Unrecorded, hy] at hun
    have hnil : f.flushed = [] := by
      rw [← hrecords, ← heq]
      exact List.isEmpty_iff.1 (Option.some.inj hun)
    exact congrArg some hnil.symm
  · exact h

theorem readFiles_of_reads (ckpt : ℤ) : ∀ (names : List FileName) (dir : Directory ρ),
    (∀ n ∈ names, Reads cls.format (dir.get n)) → ∃ dir', dir.readFiles cls ckpt names =
      some (names.flatMap fun n => (dir.get n).flushed.filter (cls.replayed ckpt), dir')
  | [], dir, _ => ⟨dir, rfl⟩
  | n :: names, dir, h => by
    obtain ⟨f', hr, hflushed, hreads⟩ := (h n List.mem_cons_self).readLogs
    have hsame : ∀ m, (Directory.get (dir.set n f') m).flushed = (dir.get m).flushed := by
      intro m
      rw [Directory.get_set]
      split_ifs with hm
      · rw [hm, hflushed]
      · rfl
    obtain ⟨dir', hrest⟩ := readFiles_of_reads ckpt names (dir.set n f') (by
      intro m hm
      rw [Directory.get_set]
      split_ifs
      · exact hreads
      · exact h m (List.mem_cons_of_mem _ hm))
    refine ⟨dir', ?_⟩
    rw [Directory.readFiles, hr, bind_some, hrest, map_some]
    simp only [hsame, flatMap_cons]

/-- A number is in a range. -/
def Range.Contains (range : Range) (seq : ℕ) : Prop :=
  range.minSeq ≠ -1 ∧ range.minSeq ≤ seq ∧ (seq : ℤ) ≤ range.maxSeq

theorem Range.contains_add {range : Range} {seq k : ℕ} (h : seq = k ∨ range.Contains seq) :
    (range.add k).Contains seq := by
  simp only [Contains, add] at *
  split_ifs <;> omega

theorem Range.contains_foldl_add {k : ℕ} (seqs : List ℕ) : ∀ {range : Range},
    k ∈ seqs ∨ range.Contains k →
      (seqs.foldl (fun range (seq : ℕ) => range.add seq) range).Contains k := by
  induction seqs with
  | nil => exact fun h => h.resolve_left List.not_mem_nil
  | cons seq seqs ih =>
    intro range h
    refine ih ?_
    rcases h with h | h
    · exact (List.mem_cons.1 h).symm.imp_right fun heq => contains_add (.inl heq)
    · exact .inr (contains_add (.inr h))

/-- The range of the file that is being written contains the numbers of its messages, so that its name
does. -/
theorem nameRule_pbft {α β : Type} (c : Codec α) (d : Codec β) (seq : α → ℕ) (isNewView : α → Bool) :
    NameRule (pbftRecovery c d seq isNewView) (Clean (pbftRecovery c d seq isNewView))
      (fun range r => 1 ≤ seq r.1 → range.Contains (seq r.1)) fun _ n r => n.minSeq ≠ -1 →
        1 ≤ seq r.1 → n.minSeq ≤ seq r.1 ∧ (seq r.1 : ℤ) ≤ n.maxSeq where
  clean := fun h => h
  write := by
    intro _ range r r' h hpos
    exact Range.contains_add (h.imp (congrArg fun r : α × β => seq r.1) fun hold => hold hpos)
  read := by
    intro records r hr hpos
    -- a number above the checkpoint 0 is passed to the callback
    refine Range.contains_foldl_add _ (.inl (List.mem_map_of_mem (mem_filter.2 ⟨hr, ?_⟩)))
    simp [pbftRecovery, Nat.pos_of_ne_zero (Nat.one_le_iff_ne_zero.1 hpos)]
  finish := fun _ _ hcovered _ hpos => (hcovered hpos).2
  mono := fun _ h => h

/-- **In clean runs the files say what was logged.** -/
theorem logged_of_reachable {α β : Type} {c : Codec α} {d : Codec β} {seq : α → ℕ}
    {isNewView : α → Bool} {st : Recovery (α × β)}
    (h : (directorySystem (pbftRecovery c d seq isNewView)).Reachable
      (Clean (pbftRecovery c d seq isNewView)) st) :
    Logged (pbftRecovery c d seq isNewView) st.dir := by
  rcases (nameRule_pbft c d seq isNewView).reachable h with rfl | ⟨⟨closed, active, hinv, -⟩, -⟩
  · exact ⟨nofun, nofun⟩
  refine ⟨fun n hn => (hinv.get hn).reads, fun n hn hrange r hr hpos => ?_⟩
  rw [hinv.keys] at hn
  rcases List.mem_append.1 hn with hn | hn
  · obtain ⟨e, he, rfl⟩ := List.mem_map.1 hn
    have hview : (e.1, e.2, false) ∈ st.dir.view := by
      rw [hinv.view]
      exact List.mem_append_left _ (List.mem_map_of_mem he)
    rw [(Directory.get_of_mem_view hview).2.2.1] at hr
    exact hinv.tells e he r hr hrange hpos
  · rw [List.mem_singleton.1 hn] at hrange
    exact absurd hinv.noRange hrange

/-! ### The response -/

theorem perm_insertList (k : ℕ) (r : ρ) : ∀ l : List (ℕ × List ρ),
    ((OrderedMap.insertList (· ++ ·) k [r] l).flatMap Prod.snd).Perm (l.flatMap Prod.snd ++ [r])
  | [] => .refl _
  | e :: l => by
    unfold OrderedMap.insertList
    split_ifs
    · exact List.perm_append_comm
    · rw [flatMap_cons, flatMap_cons, append_assoc, append_assoc]
      exact .append_left _ List.perm_append_comm
    · rw [flatMap_cons, flatMap_cons, append_assoc]
      exact .append_left _ (perm_insertList k r l)

theorem perm_foldl_addData (needMinSeq needMaxSeq : ℕ) (l : List ρ) : ∀ res : OrderedMap ℕ (List ρ),
      ((l.foldl (addData cls needMinSeq needMaxSeq) res).entries.flatMap Prod.snd).Perm
        (res.entries.flatMap Prod.snd ++
          l.filter fun r => needMinSeq ≤ cls.seq r ∧ cls.seq r ≤ needMaxSeq) := by
  induction l with
  | nil => simp
  | cons r l ih =>
    intro res
    refine (ih _).trans ?_
    by_cases hin : needMinSeq ≤ cls.seq r ∧ cls.seq r ≤ needMaxSeq
    · rw [List.filter_cons_of_pos (by simpa using hin), addData, if_pos hin]
      refine ((perm_insertList (cls.seq r) r res.entries).append_right _).trans ?_
      rw [append_assoc, List.singleton_append]
    · rw [List.filter_cons_of_neg (by simpa using hin), addData, if_neg hin]

/-- The messages under a sequence number have that number. -/
theorem bucket_foldl_addData (needMinSeq needMaxSeq : ℕ) (l : List ρ) :
    ∀ res : OrderedMap ℕ (List ρ), (∀ e ∈ res.entries, ∀ r ∈ e.2, cls.seq r = e.1) →
      ∀ e ∈ (l.foldl (addData cls needMinSeq needMaxSeq) res).entries, ∀ r ∈ e.2, cls.seq r = e.1 := by
  induction l with
  | nil => exact fun _ h => h
  | cons r l ih =>
    intro res h
    refine ih _ ?_
    unfold addData
    split_ifs
    · intro e he r' hr'
      rcases OrderedMap.mem_insertList _ _ he with he | rfl | ⟨old, hold, rfl⟩
      · exact h e he r' hr'
      · rw [List.mem_singleton.1 hr']
      · rcases List.mem_append.1 hr' with hr' | hr'
        · exact h _ hold r' hr'
        · rw [List.mem_singleton.1 hr']
    · exact h

theorem sorted_entries {res : OrderedMap ℕ (List ρ)} (h : ∀ e ∈ res.entries, ∀ r ∈ e.2, cls.seq r = e.1) :
    (res.entries.flatMap Prod.snd).Pairwise fun a b => cls.seq a ≤ cls.seq b := by
  refine List.pairwise_flatMap.2 ⟨fun e he => ?_, ?_⟩
  · refine List.pairwise_of_forall_mem_list fun a ha b hb => ?_
    rw [h e he a ha, h e he b hb]
  · refine res.sorted.imp_of_mem fun {e e'} he he' hlt a ha b hb => ?_
    rw [h e he a ha, h e' he' b hb]
    exact hlt.le

theorem exists_getData (cls : Derived ρ) (dir : Directory ρ) (needMinSeq needMaxSeq : ℕ)
    (h : ∀ n ∈ getSortedRecoveryFiles dir needMinSeq needMaxSeq, Reads cls.format (dir.get n)) :
    ∃ out dir', getData cls dir needMinSeq needMaxSeq = some (out, dir') ∧
      (out.Pairwise fun a b => cls.seq a ≤ cls.seq b) ∧
      out.Perm ((((getSortedRecoveryFiles dir needMinSeq needMaxSeq).flatMap fun n =>
        (dir.get n).flushed).filter (cls.replayed ((needMinSeq : ℤ) - 1))).filter fun r =>
          needMinSeq ≤ cls.seq r ∧ cls.seq r ≤ needMaxSeq) := by
  obtain ⟨dir', hread⟩ := readFiles_of_reads ((needMinSeq : ℤ) - 1) _ dir h
  rw [← List.filter_flatMap] at hread
  refine ⟨_, dir', congrArg (Option.map _) hread, ?_, perm_foldl_addData _ _ _ .empty⟩
  exact sorted_entries (bucket_foldl_addData _ _ _ .empty nofun)

theorem count_flatMap_filter [BEq ρ] [LawfulBEq ρ] {r : ρ} {g : FileName → List ρ} {p : FileName → Bool}
    (names : List FileName) (h : ∀ n ∈ names, p n = false → r ∉ g n) :
    ((names.filter p).flatMap g).count r = (names.flatMap g).count r := by
  induction names with
  | nil => rfl
  | cons n names ih =>
    obtain ⟨hn, hrest⟩ := List.forall_mem_cons.1 h
    cases hp : p n with
    | true => rw [List.filter_cons_of_pos hp, flatMap_cons, flatMap_cons, count_append,
        count_append, ih hrest]
    | false =>
      rw [List.filter_cons_of_neg (by simp [hp]), ih hrest, flatMap_cons, count_append,
        List.count_eq_zero_of_not_mem (hn hp), Nat.zero_add]

end

/-- **Messages are returned as often as they were logged** if and only if the last file without a range has
none in the range.  Whatever it has, the response is in order, and has only messages of the range with the
signatures that they were logged with. -/
theorem getData_exact_iff {α β : Type} [BEq α] [LawfulBEq α] [BEq β] [LawfulBEq β] (c : Codec α)
    (d : Codec β) (seq : α → ℕ) (isNewView : α → Bool) {dir : Directory (α × β)}
    (h : Logged (pbftRecovery c d seq isNewView) dir) (needMinSeq needMaxSeq : ℕ) (hmin : 1 ≤ needMinSeq) :
    ∃ out dir', getData (pbftRecovery c d seq isNewView) dir needMinSeq needMaxSeq = some (out, dir') ∧
      (out.Pairwise fun a b => seq a.1 ≤ seq b.1) ∧
      (∀ r ∈ out, needMinSeq ≤ seq r.1 ∧ seq r.1 ≤ needMaxSeq) ∧
      ((∀ r, needMinSeq ≤ seq r.1 → seq r.1 ≤ needMaxSeq → out.count r = dir.logged.count r) ↔
        ∀ n ∈ dir.lastActive, ∀ r ∈ (dir.get n).flushed,
          ¬ (needMinSeq ≤ seq r.1 ∧ seq r.1 ≤ needMaxSeq)) := by
  have hnames : (getSortedRecoveryFiles dir needMinSeq needMaxSeq).Perm (dir.keys.filter (fun n =>
      n.minSeq = -1 ∨ ¬ (n.maxSeq < (needMinSeq : ℤ) ∨ (needMaxSeq : ℤ) < n.minSeq)) ++
        dir.lastActive.toList) := List.perm_insertionSort _ _
  have hactive : ∀ n ∈ dir.lastActive, n ∈ dir.keys := by
    intro n hn
    have hmem := (List.perm_insertionSort _ _).subset (List.mem_of_getLast? hn)
    exact (mem_filter.1 hmem).1
  obtain ⟨out, dir', hdata, hsorted, hperm⟩ := exists_getData (pbftRecovery c d seq isNewView)
    dir needMinSeq needMaxSeq (by
      intro n hn
      rcases List.mem_append.1 (hnames.subset hn) with hn | hn
      · exact h.reads n (mem_filter.1 hn).1
      · exact h.reads n (hactive n (by simpa using hn)))
  have hin : ∀ r ∈ out, needMinSeq ≤ seq r.1 ∧ seq r.1 ≤ needMaxSeq := fun r hr =>
    of_decide_eq_true (mem_filter.1 (hperm.subset hr)).2
  -- the last file without a range is counted twice
  have hcount : ∀ r : α × β, needMinSeq ≤ seq r.1 → seq r.1 ≤ needMaxSeq → out.count r =
      dir.logged.count r + (dir.lastActive.toList.flatMap fun n => (dir.get n).flushed).count r := by
    intro r hle hge
    have hreplayed : (pbftRecovery c d seq isNewView).replayed ((needMinSeq : ℤ) - 1) r = true := by
      have hlt : (needMinSeq : ℤ) - 1 < seq r.1 := by omega
      simp [pbftRecovery, hlt]
    rw [hperm.count_eq r, List.count_filter (by exact decide_eq_true ⟨hle, hge⟩), List.count_filter hreplayed,
      (hnames.flatMap_right _).count_eq r, List.flatMap_append, count_append,
      count_flatMap_filter, Directory.logged]
    intro n hn hleft hr
    simp only [decide_eq_false_iff_not, not_or] at hleft
    have hrange := h.ranges n hn hleft.1 r hr (hmin.trans hle)
    have hseq : (pbftRecovery c d seq isNewView).seq r = seq r.1 := rfl
    omega
  refine ⟨out, dir', hdata, hsorted, hin, fun hexact n hn r hr hin => ?_, fun hnone r hle hge => ?_⟩
  · have htwice := (hcount r hin.1 hin.2).symm.trans (hexact r hin.1 hin.2)
    have hpos : 0 < (dir.lastActive.toList.flatMap fun n => (dir.get n).flushed).count r :=
      List.count_pos_iff.2 (List.mem_flatMap.2 ⟨n, by simpa using hn, hr⟩)
    omega
  · rw [hcount r hle hge, Nat.add_eq_left, List.count_eq_zero]
    intro hr
    obtain ⟨n, hn, hr⟩ := List.mem_flatMap.1 hr
    exact hnone n (by simpa using hn) r hr ⟨hle, hge⟩

/-- A replica logs two messages and finishes its file. -/
def finishedRun : List (DirectoryAction (Bytes × Bytes)) :=
  [.restart 1 [7], .write [([2], [5])], .write [([1], [6])], .updateStableCheckPoint 2 true 2 3 [7]]

theorem getData_exact_iff_finishedRun : ∃ st out dir',
    (directorySystem stringRecovery).run .fresh finishedRun = some st ∧
    getData stringRecovery st.dir 1 10 = some (out, dir') ∧
    out.count (([1], [6]) : Bytes × Bytes) = st.dir.logged.count ([1], [6]) := by
  obtain ⟨st, hst, hreach, hnone⟩ := (directorySystem stringRecovery).exists_run
    (C := Clean stringRecovery) (P := fun st => ∀ n ∈ st.dir.lastActive, ∀ r ∈ (st.dir.get n).flushed,
      ¬ (1 ≤ Wire.leValue r.1 ∧ Wire.leValue r.1 ≤ 10)) finishedRun rfl (by decide +kernel)
    (by decide +kernel)
  obtain ⟨out, dir', hdata, _, _, hexact⟩ := getData_exact_iff stringCodec stringCodec Wire.leValue
    (fun _ => false) (logged_of_reachable hreach) 1 10 le_rfl
  exact ⟨st, out, dir', hst, hdata, hexact.2 hnone ([1], [6]) (by decide) (by decide)⟩

/-- The message that a replica has just logged is returned twice. -/
theorem getData_exact_fails : ∃ st,
    (directorySystem stringRecovery).Reachable TransitionSystem.always st ∧
    st.dir.logged = [([1], [2])] ∧
    (getData stringRecovery st.dir 1 10).map Prod.fst = some [([1], [2]), ([1], [2])] :=
  (directorySystem stringRecovery).exists_reachable_always [.restart 1 [7], .write [([1], [2])]] rfl
    (by decide +kernel)

/-! ### The view after a restart -/

/-- `SystemInfoData`, and the two members of `SystemInfo`. -/
structure SystemInfo where
  view : ℕ
  primaryId : ℕ
deriving DecidableEq

section

variable {ρ : Type} (cls : Derived ρ) (infoCodec : Codec SystemInfo) (primaryOf : ℕ → ℕ)
  (newView : ρ → Option ℕ)

/-- What `HandleSystemInfo` passes to its callback. -/
def systemInfoOf (content : Bytes) : Option SystemInfo :=
  (readFrame 8 content).bind fun r =>
    (parseData r.1).bind fun items => items.head?.bind infoCodec.parseFromString

/-- The callback for a request: a recovered NEW-VIEW sets its view and the primary of it. -/
def replay (info : SystemInfo) (r : ρ) : SystemInfo :=
  ((newView r).map fun view => ⟨view, primaryOf view⟩).getD info

/-- `ReadLogs`, as far as the view and the primary go. -/
def Directory.readInfo (ckpt : ℤ) : List FileName → Directory ρ → SystemInfo → Option SystemInfo
  | [], _, info => some info
  | n :: names, dir, info =>
    ((dir.get n).readLogs cls.format).bind fun r =>
      readInfo ckpt names (dir.set n r.2) ((r.1.filter (cls.replayed ckpt)).foldl
        (replay primaryOf newView) ((systemInfoOf infoCodec (dir.get n).content).getD info))

/-- A clean restart.  The constructor of `SystemInfo` sets `initial`, `Init` opens the last file, and
`ReadLogs` is called with the two callbacks. -/
def Recovery.restartInfo (initial : SystemInfo) (time : ℕ) (st : Recovery ρ) : Option SystemInfo :=
  (st.stop.init cls time (infoCodec.serializeToString initial)).bind fun st' =>
    st'.dir.readInfo cls infoCodec primaryOf newView (getRecoveryFiles st'.dir).2
      (getRecoveryFiles st'.dir).1 initial

variable {cls infoCodec primaryOf newView}

theorem foldl_replay (info : SystemInfo) (l : List ρ) : l.foldl (replay primaryOf newView) info =
    ((l.filterMap newView).getLast?.map fun view => ⟨view, primaryOf view⟩).getD info := by
  induction l using List.reverseRecOn with
  | nil => rfl
  | append_singleton l r ih =>
    rw [List.foldl_append, List.foldl_cons, ih, replay]
    cases hview : newView r with
    | none | some _ => simp [hview]

theorem isSome_readLogs_again {fmt : Format ρ} {f : ActiveFile ρ} {r : List ρ × ActiveFile ρ}
    (hr : f.readLogs fmt = some r) : (r.2.readLogs fmt).isSome = true := by
  rw [readLogs_file hr]
  split_ifs
  · rfl
  · rw [hr]
    rfl

variable (cls infoCodec primaryOf newView) in
/-- What is read before the last file does not matter, as long as it can be read. -/
theorem readInfo_append (ckpt : ℤ) (last : FileName) : ∀ (names : List FileName) (dir : Directory ρ)
    (info : SystemInfo), last ∉ names →
    (∀ n ∈ names, ((dir.get n).readLogs cls.format).isSome = true) → ∃ dir' info',
      dir.readInfo cls infoCodec primaryOf newView ckpt (names ++ [last]) info =
        Directory.readInfo cls infoCodec primaryOf newView ckpt [last] dir' info' ∧
      dir'.get last = dir.get last
  | [], dir, info, _, _ => ⟨dir, info, rfl, rfl⟩
  | n :: names, dir, info, hlast, h => by
    obtain ⟨r, hr⟩ := Option.isSome_iff_exists.1 (h n List.mem_cons_self)
    obtain ⟨hne, hlast⟩ : last ≠ n ∧ last ∉ names := by simpa using hlast
    obtain ⟨dir', info', hread, hget⟩ := readInfo_append ckpt last names (dir.set n r.2)
      ((r.1.filter (cls.replayed ckpt)).foldl (replay primaryOf newView)
        ((systemInfoOf infoCodec (dir.get n).content).getD info)) hlast (by
      intro m hm
      rw [Directory.get_set]
      split_ifs
      · exact isSome_readLogs_again hr
      · exact h m (List.mem_cons_of_mem _ hm))
    refine ⟨dir', info', ?_, ?_⟩
    · rw [List.cons_append, Directory.readInfo, hr, bind_some, hread]
    · rw [hget, Directory.get_set, if_neg hne]

theorem systemInfoOf_block {info : SystemInfo}
    (h : (infoCodec.serializeToString info).length < 2 ^ 32) :
    systemInfoOf infoCodec (systemInfoBlock (infoCodec.serializeToString info)) = some info := by
  have hlen := length_appendData_singleton h
  rw [systemInfoOf, readFrame_systemInfoBlock h, bind_some,
    parseData_appendData (by norm_num at hlen; omega)]
  exact infoCodec.parse_serialize info

theorem NamesInv.set {dir : Directory ρ} {filePath : FileName} {closed : List FileName}
    (h : NamesInv dir filePath closed) (f : ActiveFile ρ) :
    NamesInv (dir.set filePath f) filePath closed := by
  have hkeys : OrderedMap.keys (dir.set filePath f) = dir.keys := by
    have hmem : filePath ∈ dir.keys := by simp [h.keys]
    obtain ⟨⟨n, old⟩, hold, rfl⟩ := List.mem_map.1 hmem
    obtain ⟨l, l', hsplit⟩ := List.append_of_mem hold
    rw [OrderedMap.keys, OrderedMap.keys, OrderedMap.entries_set_of_mem f hsplit, hsplit]
    simp
  exact ⟨hkeys.trans h.keys, hkeys ▸ h.times, h.noRange, h.time_pos, h.ckpt_ne⟩

variable (cls) in
/-- A restart opens the file that was being written; the view and the primary are those of its head and of
the last NEW-VIEW in it. -/
theorem NamesInv.restartInfo {st : Recovery ρ} {closed : List FileName}
    (h : NamesInv st.dir st.filePath closed)
    (hclosed : ∀ n ∈ closed, ((st.dir.get n).readLogs cls.format).isSome = true)
    {f f' : ActiveFile ρ} {initial info : SystemInfo} {time : ℕ}
    (hopen : ({ st.activeFile with running := false } : ActiveFile ρ).readLogs cls.format =
      some (st.activeFile.flushed, f))
    (hf' : f.openFile cls.format (infoCodec.serializeToString initial) = f')
    (hreads : Reads cls.format f') (hinfo : systemInfoOf infoCodec f'.content = some info)
    (hview : ∀ ckpt r, (newView r).isSome = true → cls.replayed ckpt r = true) :
    st.restartInfo cls infoCodec primaryOf newView initial time =
      some (((f.flushed.filterMap newView).getLast?.map fun view => ⟨view, primaryOf view⟩).getD
        info) := by
  have hflushed : f'.flushed = f.flushed := by rw [← hf', ActiveFile.openFile]; rfl
  have hstop : st.stop.dir = st.dir.set st.filePath { st.activeFile with running := false } := by
    have hmem : st.filePath ∈ st.dir.keys := by simp [h.keys]
    obtain ⟨⟨n, old⟩, hold, heq⟩ := List.mem_map.1 hmem
    have hfind : st.dir.find? st.filePath = some old := heq ▸ OrderedMap.find?_of_mem hold
    rw [Recovery.stop, Recovery.activeFile, Directory.get, hfind]
    rfl
  have hnames := h.set { st.activeFile with running := false }
  obtain ⟨st', hinit, hdir⟩ : ∃ st', st.stop.init cls time (infoCodec.serializeToString initial) =
      some st' ∧ st'.dir = (st.dir.set st.filePath { st.activeFile with running := false }).set
        st.filePath f' := by
    rw [Recovery.init, hstop, hnames.getLastFile_eq, Directory.get_set, if_pos rfl, hopen, map_some]
    exact ⟨_, rfl, by rw [hf']⟩
  have hnames' : NamesInv st'.dir st.filePath closed := hdir ▸ hnames.set f'
  have hget : ∀ n, st'.dir.get n = if n = st.filePath then f' else st.dir.get n := by
    intro n
    rw [hdir, Directory.get_set, Directory.get_set]
    split_ifs <;> rfl
  obtain ⟨dir', info', hread, hlast⟩ := readInfo_append cls infoCodec primaryOf newView
    st'.dir.lastCkpt st.filePath (closed.filter fun n =>
      n.minSeq ≠ -1 ∧ n.minSeq ≤ st'.dir.lastCkpt ∧ st'.dir.lastCkpt ≤ n.maxSeq) st'.dir initial
    (fun hmem => lt_irrefl _ (h.time_lt (mem_filter.1 hmem).1)) (by
      intro n hn
      have hmem := (mem_filter.1 hn).1
      rw [hget, if_neg fun heq => lt_irrefl _ (heq ▸ h.time_lt hmem)]
      exact hclosed n hmem)
  rw [hget, if_pos rfl] at hlast
  obtain ⟨_, hlogs, _⟩ := hreads.readLogs
  rw [Recovery.restartInfo, hinit, bind_some, hnames'.getRecoveryFiles_eq, hread,
    Directory.readInfo, hlast, hlogs, bind_some, Directory.readInfo, hinfo,
    foldl_replay, List.filterMap_filter, hflushed]
  refine congrArg some (congrArg (fun views => (Option.map _ (List.getLast? views)).getD info) ?_)
  refine List.filterMap_congr fun r _ => ?_
  cases hr : newView r with
  | none => exact ite_self _
  | some view => exact if_pos (hview _ r (by rw [hr]; rfl))

end

/-- **The view after a clean restart.**  The file that was being written starts with the view and the
primary; they survive if and only if it has a message, and the last NEW-VIEW among its messages, if there is
one, is for them too.  Without a message they are replaced by the initial ones. -/
theorem view_survives_restart_iff {α β : Type} (c : Codec α) (d : Codec β) (seq : α → ℕ)
    (newView : α → Option ℕ) (infoCodec : Codec SystemInfo) (primaryOf : ℕ → ℕ)
    {st : Recovery (α × β)} {closed : List FileName} (hnames : NamesInv st.dir st.filePath closed)
    (hclosed : ∀ n ∈ closed, ((st.dir.get n).readLogs (pbftFormat c d)).isSome = true)
    (hfile : FileInv (pbftFormat c d) st.activeFile) {info : SystemInfo}
    (hhead : systemInfoOf infoCodec st.activeFile.content = some info) (initial : SystemInfo)
    (hinitial : (infoCodec.serializeToString initial).length < 2 ^ 32) (time : ℕ) :
    st.restartInfo (pbftRecovery c d seq fun a => (newView a).isSome) infoCodec primaryOf
        (fun r => newView r.1) initial time = some info ↔
      (st.activeFile.flushed = [] → initial = info) ∧
        ∀ view ∈ (st.activeFile.flushed.filterMap fun r => newView r.1).getLast?,
          info = ⟨view, primaryOf view⟩ := by
  have hview : ∀ (ckpt : ℤ) (r : α × β), (newView r.1).isSome = true →
      (pbftRecovery c d seq fun a => (newView a).isSome).replayed ckpt r = true := by
    intro ckpt r hr
    simp [pbftRecovery, hr]
  rcases hfile.close.readLogs with ⟨hflushed, hread⟩ | ⟨hflushed, hcontent, hheader, hread⟩
  · -- the file is emptied, and gets a new head
    have hflushed : st.activeFile.flushed = [] := hflushed
    obtain ⟨f, hf, hcontent, hnil, htorn⟩ : ∃ f : ActiveFile (α × β),
        ({ st.activeFile with running := false } : ActiveFile (α × β)).readLogs (pbftFormat c d) =
          some (st.activeFile.flushed, f) ∧ f.content = [] ∧ f.flushed = [] ∧ f.torn = false :=
      ⟨{ st.activeFile with content := [], torn := false, running := false },
        hread.trans (congrArg (fun rs => some (rs, _)) hflushed.symm), rfl, hflushed, rfl⟩
    have hhead' : systemInfoOf infoCodec (f.openFile (pbftFormat c d)
        (infoCodec.serializeToString initial)).content = some initial := by
      rw [content_openFile hcontent, ActiveFile.systemInfo, if_pos ⟨rfl, hcontent⟩,
        systemInfoOf_block hinitial]
    rw [hnames.restartInfo (pbftRecovery c d seq fun a => (newView a).isSome) hclosed hf rfl
      (FileInv.openFile_empty hinitial hnil hcontent htorn).reads hhead' hview]
    simp [hnil, hflushed]
  · rw [hnames.restartInfo (pbftRecovery c d seq fun a => (newView a).isSome) hclosed hread
      (openFile_of_ne_nil hcontent) hfile.reads hhead hview]
    cases hlast : (st.activeFile.flushed.filterMap fun r => newView r.1).getLast? with
    | none => simp [hflushed]
    | some view =>
      simp only [Option.some.injEq, Option.mem_def,
        forall_eq', hflushed, IsEmpty.forall_iff, true_and]
      exact eq_comm

/-- The two numbers as runs of ones. -/
def unaryInfo : Codec SystemInfo where
  serializeToString := fun info => List.replicate info.view 1 ++ 0 :: List.replicate info.primaryId 1
  parseFromString := fun bs =>
    some ⟨(bs.takeWhile (· = 1)).length, (bs.dropWhile (· = 1)).tail.length⟩
  parse_serialize := by
    rintro ⟨view, primaryId⟩
    have hones : ∀ b ∈ List.replicate view (1 : Wire.Byte), decide (b = 1) = true := by
      intro b hb
      simp [List.eq_of_mem_replicate hb]
    rw [List.takeWhile_append_of_pos hones, List.dropWhile_append_of_pos hones]
    simp

/-- A replica finishes a file in view 2, whose primary is replica 2. -/
def switchedRun : List (DirectoryAction (Bytes × Bytes)) :=
  [.restart 1 (unaryInfo.serializeToString ⟨1, 1⟩), .write [([1], [])],
    .updateStableCheckPoint 1 true 2 3 (unaryInfo.serializeToString ⟨2, 2⟩)]

/-- The next message is logged before the replica is restarted. -/
theorem view_survives_restart_iff_logged : ∃ st,
    (directorySystem stringRecovery).run .fresh (switchedRun ++ [.write [([2], [])]]) = some st ∧
    st.restartInfo stringRecovery unaryInfo id (fun _ => none) ⟨1, 1⟩ 4 = some ⟨2, 2⟩ := by
  obtain ⟨st, hst, hreach, hhead, hflushed, hwritten⟩ := (directorySystem stringRecovery).exists_run
    (C := Clean stringRecovery) (P := fun st =>
      systemInfoOf unaryInfo st.activeFile.content = some ⟨2, 2⟩ ∧
        st.activeFile.flushed = [([2], [])] ∧ st.written ≠ []) (switchedRun ++ [.write [([2], [])]])
    rfl (by decide +kernel) (by decide +kernel)
  rcases (nameRule_clean stringRecovery).reachable hreach with rfl | ⟨⟨closed, active, hinv, _⟩, _⟩
  · exact absurd rfl hwritten
  refine ⟨st, hst, (view_survives_restart_iff stringCodec stringCodec Wire.leValue (fun _ => none)
    unaryInfo id hinv.names ?_ hinv.activeFile.2.2 hhead ⟨1, 1⟩ (by decide) 4).2 ?_⟩
  · intro n hn
    obtain ⟨f, hf, _⟩ := (hinv.get (n := n) (by rw [hinv.keys]; exact List.mem_append_left _ hn)).reads.readLogs
    exact Option.isSome_iff_exists.2 ⟨_, hf⟩
  · simp [hflushed]

/-- The replica is restarted before it has logged a message in the new file: its view is 1 again. -/
theorem view_survives_restart_fails : ∃ st,
    (directorySystem stringRecovery).Reachable TransitionSystem.always st ∧
    systemInfoOf unaryInfo st.activeFile.content = some ⟨2, 2⟩ ∧
    st.restartInfo stringRecovery unaryInfo id (fun _ => none) ⟨1, 1⟩ 4 = some ⟨1, 1⟩ :=
  (directorySystem stringRecovery).exists_reachable_always switchedRun rfl (by decide +kernel)

end Wal
