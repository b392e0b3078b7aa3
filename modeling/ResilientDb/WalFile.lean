/-
**A file of the write-ahead log.**

`RecoveryBase` collects records in a buffer and flushes the buffer as one block: its length in eight
bytes, then its bytes.  Inside a block every string has its own length before it.  After a crash the
file is read block by block up to the first one that is not complete, and new blocks are appended at
the end of the file, behind what is left of the block that was being written.

The classes derived from `RecoveryBase` say which strings make up a record and whether a file starts
with a block of system information; here that is a `Wal.Format`.

Main definitions:

* `Wal.Format` — what a derived class adds, `Wal.raftFormat` and `Wal.pbftFormat`;
* `Wal.appendData`, `Wal.parseData`, `Wal.block`, `Wal.readLogsFromFiles` — writing and reading;
* `Wal.fileSystem` — the runs of one file: flushes, crashes and restarts.

Main results:

* `Wal.readBlocks_blocks` — complete blocks are read as they were written, a torn one is left;
* `Wal.torn_tail_recovery` — nothing that was flushed is lost as long as nothing is appended to a torn
  block;
* `Wal.torn_tail_recovery_fails` — one block behind a torn one is lost;
* `Wal.framing_round_trip_iff` — which groups of records are read back.
-/

import ResilientDb.Transition
import ResilientDb.Wire

set_option autoImplicit false

namespace Wal

open List (append_nil flatMap_cons length_append)
open Option (bind_some map_eq_some_iff map_some)
open Wire (Bytes frame leBytes leValue leValue_leBytes length_frame length_leBytes readBytes
  readFrame writeAt)

/-! ### Writing and reading -/

/-- What a derived class adds to `RecoveryBase`: the strings of a record, the records of a list of
strings (`none` where the source reads past the end of the list), and whether a file starts with system
information. -/
structure Format (ρ : Type) where
  /-- The strings that `WriteLog` appends for a record. -/
  strings : ρ → List Bytes
  /-- `ParseDataListItem`. -/
  parseDataListItem : List Bytes → Option (List ρ)
  /-- `WriteSystemInfo` writes a block. -/
  hasSystemInfo : Bool
  /-- A record has a string. -/
  strings_ne_nil : ∀ r, strings r ≠ []
  /-- The records of a block are read as they were written. -/
  parse_strings : ∀ rs, parseDataListItem (rs.flatMap strings) = some rs

/-- How a message is serialized and parsed. -/
structure Codec (α : Type) where
  serializeToString : α → Bytes
  parseFromString : Bytes → Option α
  parse_serialize : ∀ a, parseFromString (serializeToString a) = some a

namespace Codec

variable {α β : Type} (c : Codec α) (d : Codec β)

/-- The loop of `RaftRecovery::ParseDataListItem`, which ends at the first string that is no
record. -/
def parseRecords : List Bytes → List α
  | [] => []
  | item :: items =>
    match c.parseFromString item with
    | none => []
    | some record => record :: parseRecords items

theorem parseRecords_serialize : ∀ rs : List α,
    c.parseRecords (rs.flatMap fun r => [c.serializeToString r]) = rs
  | [] => rfl
  | r :: rs => by
    rw [flatMap_cons, List.singleton_append, parseRecords, c.parse_serialize]
    exact congrArg (r :: ·) (parseRecords_serialize rs)

/-- The loop of `PBFTRecovery::ParseDataListItem`, which takes two strings at a time. -/
def parseRequests : List Bytes → Option (List (α × β))
  | [] => some []
  | [item] => (c.parseFromString item).elim (some []) fun _ => none
  | item :: sig :: items =>
    match c.parseFromString item, d.parseFromString sig with
    | some request, some signature =>
      (parseRequests items).map fun list => (request, signature) :: list
    | _, _ => some []

theorem parseRequests_serialize : ∀ rs : List (α × β),
    parseRequests c d (rs.flatMap fun r => [c.serializeToString r.1, d.serializeToString r.2]) =
      some rs
  | [] => rfl
  | r :: rs => by
    rw [flatMap_cons, List.cons_append, List.singleton_append, parseRequests,
      c.parse_serialize, d.parse_serialize]
    dsimp only
    rw [parseRequests_serialize rs, map_some]

end Codec

/-- `RaftRecovery`: a record is one string. -/
def raftFormat {ρ : Type} (c : Codec ρ) : Format ρ where
  strings := fun r => [c.serializeToString r]
  parseDataListItem := fun items => some (c.parseRecords items)
  hasSystemInfo := false
  strings_ne_nil := fun _ => List.cons_ne_nil _ _
  parse_strings := fun rs => congrArg some (c.parseRecords_serialize rs)

/-- `PBFTRecovery`: a record is a request and its signature, and a file starts with system
information. -/
def pbftFormat {α β : Type} (c : Codec α) (d : Codec β) : Format (α × β) where
  strings := fun r => [c.serializeToString r.1, d.serializeToString r.2]
  parseDataListItem := c.parseRequests d
  hasSystemInfo := true
  strings_ne_nil := fun _ => List.cons_ne_nil _ _
  parse_strings := c.parseRequests_serialize d

/-- `AppendData`, for a list of strings. -/
def appendData (items : List Bytes) : Bytes := items.flatMap (frame 8)

/-- The loop of `ParseData` and `ParseRawData` from a position on.  Reading a length past the end is
undefined, and so is a loop that does not end: the position is a 64-bit number. -/
def parseDataFrom (data : Bytes) : ℕ → ℕ → Option (List Bytes)
  | 0, _ => none
  | fuel + 1, pos =>
    if data.length ≤ pos then some []
    else if data.length < pos + 8 then none
    else
      let len := leValue ((data.drop pos).take 8)
      (parseDataFrom data fuel ((pos + 8 + len) % 2 ^ 64)).map fun items =>
        (data.drop (pos + 8)).take len :: items

/-- The strings of a block.  A loop that takes more turns than the block has bytes has come to the same
position twice. -/
def parseData (data : Bytes) : Option (List Bytes) := parseDataFrom data (data.length + 1) 0

/-- `max_record_size`. -/
def maxRecordSize : ℕ := 64 * 1024 * 1024

section

variable {ρ : Type} (fmt : Format ρ)

/-- The buffer with these records. -/
def buffer (rs : List ρ) : Bytes := appendData (rs.flatMap fmt.strings)

/-- What `Flush` writes. -/
def block (rs : List ρ) : Bytes := frame 8 (buffer fmt rs)

/-- What `WriteSystemInfo` writes. -/
def systemInfoBlock (info : Bytes) : Bytes := frame 8 (appendData [info])

/-- The next block, unless its length makes no sense or the file is too short. -/
def readBlock (raw : Bytes) : Option (Bytes × Bytes) :=
  (readBytes 8 raw).bind fun r =>
    let dataLen := leValue r.1
    if dataLen = 0 ∨ maxRecordSize < dataLen then none else readBytes dataLen r.2

/-- The loop of `ReadLogsFromFiles`: the records, and the bytes where it stops. -/
def readBlocks : ℕ → Bytes → Option (List ρ × Bytes)
  | 0, raw => some ([], raw)
  | fuel + 1, raw =>
    match readBlock raw with
    | none => some ([], raw)
    | some (data, rest) =>
      (parseData data).bind fun items =>
        (fmt.parseDataListItem items).bind fun list =>
          if list.isEmpty then some ([], raw)
          else (readBlocks fuel rest).map fun r => (list ++ r.1, r.2)

/-- `HandleSystemInfo`: what follows the system information, or nothing if it is not complete. -/
def handleSystemInfo (content : Bytes) : Bytes :=
  if fmt.hasSystemInfo then ((readFrame 8 content).map Prod.snd).getD [] else content

/-- The records of a file, and the bytes behind the last complete block. -/
def scan (content : Bytes) : Option (List ρ × Bytes) :=
  readBlocks fmt content.length (handleSystemInfo fmt content)

/-- `ReadLogsFromFiles`: the records, and the file afterwards, which is emptied if there are none. -/
def readLogsFromFiles (content : Bytes) : Option (List ρ × Bytes) :=
  (scan fmt content).map fun r => (r.1, if r.1.isEmpty then [] else content)

/-! ### The runs of one file -/

/-- A file, the position at which the process writes, the records that were flushed completely, whether
a crash has left part of a block at its end, and whether the process is running. -/
structure ActiveFile (ρ : Type) where
  content : Bytes
  offset : ℕ
  flushed : List ρ
  torn : Bool
  running : Bool

/-- What can happen to a file. -/
inductive FileAction (ρ : Type)
  /-- A block is flushed. -/
  | flush (records : List ρ)
  /-- The process ends while it flushes a block of which `n` bytes have reached the file. -/
  | crash (records : List ρ) (n : ℕ)
  /-- The running process reads the file, as `ReadLogs` does for all that it recovers from. -/
  | readLogs
  /-- The process is started again and continues the file; `info` is its system information. -/
  | restart (info : Bytes)
  /-- It ends again when `n` bytes of the system information have reached the file. -/
  | restartCrash (info : Bytes) (n : ℕ)

namespace ActiveFile

/-- A file that does not exist. -/
def absent : ActiveFile ρ := ⟨[], 0, [], false, false⟩

/-- `Write`. -/
def write (f : ActiveFile ρ) (data : Bytes) : ActiveFile ρ :=
  { f with
    content := writeAt f.content f.offset data
    offset := f.offset + data.length }

/-- `ReadLogsFromFiles`, with its effect on the file. -/
def readLogs (f : ActiveFile ρ) : Option (List ρ × ActiveFile ρ) :=
  (readLogsFromFiles fmt f.content).map fun r =>
    (r.1, { f with
      content := r.2
      torn := f.torn && !r.2.isEmpty })

/-- `OpenFile`, up to the system information. -/
def seekEnd (f : ActiveFile ρ) : ActiveFile ρ := { f with offset := f.content.length }

/-- What `OpenFile` writes. -/
def systemInfo (info : Bytes) (f : ActiveFile ρ) : Bytes :=
  if fmt.hasSystemInfo ∧ f.content = [] then systemInfoBlock info else []

/-- `OpenFile`. -/
def openFile (info : Bytes) (f : ActiveFile ρ) : ActiveFile ρ :=
  { f.seekEnd.write (f.systemInfo fmt info) with running := true }

/-- One action.  Strings have lengths of 64 bits, and a block that is flushed has records. -/
def step (f : ActiveFile ρ) : FileAction ρ → Option (ActiveFile ρ)
  | .flush records =>
    if f.running ∧ records ≠ [] ∧ (buffer fmt records).length < 2 ^ 64 then
      some { f.write (block fmt records) with flushed := f.flushed ++ records }
    else none
  | .crash records n =>
    if f.running ∧ records ≠ [] ∧ (buffer fmt records).length < 2 ^ 64 ∧
        n < (block fmt records).length then
      some { f.write ((block fmt records).take n) with
        torn := f.torn || decide (0 < n)
        running := false }
    else none
  | .readLogs => if f.running then (f.readLogs fmt).map Prod.snd else none
  | .restart info =>
    if f.running = false ∧ info.length < 2 ^ 32 then
      (f.readLogs fmt).map fun r => r.2.openFile fmt info
    else none
  | .restartCrash info n =>
    if f.running = false ∧ info.length < 2 ^ 32 then
      (f.readLogs fmt).bind fun r =>
        if n < (r.2.systemInfo fmt info).length then
          some (r.2.seekEnd.write ((r.2.systemInfo fmt info).take n))
        else none
    else none

end ActiveFile

/-- The runs of a file, which does not exist at first. -/
def fileSystem : TransitionSystem (ActiveFile ρ) (FileAction ρ) where
  init f := f = .absent
  step := ActiveFile.step fmt

/-- The next recovery returns every record that was flushed, in order. -/
def Recovers (f : ActiveFile ρ) : Prop :=
  ∃ out content, readLogsFromFiles fmt f.content = some (out, content) ∧ f.flushed.Sublist out

/-- The condition: nothing is written behind a torn block, no block is longer than a reader takes, and
a file that is being written is not read while it holds nothing but system information. -/
def AppendsClean (f : ActiveFile ρ) : FileAction ρ → Prop
  | .flush records => f.torn = false ∧ (buffer fmt records).length ≤ maxRecordSize
  | .crash _ n => n = 0 ∨ f.torn = false
  | .readLogs => fmt.hasSystemInfo = false ∨ f.flushed.isEmpty = false
  | _ => True

instance (f : ActiveFile ρ) (a : FileAction ρ) : Decidable (AppendsClean fmt f a) := by
  unfold AppendsClean
  split <;> infer_instance

end

/-! ### Complete blocks and torn ones -/

/-- The items of a block are read one after the other. -/
theorem parseDataFrom_appendData (data : Bytes) (hdata : data.length < 2 ^ 64) :
    ∀ (items : List Bytes) (pre : Bytes) (fuel : ℕ), data = pre ++ appendData items →
      items.length < fuel → parseDataFrom data fuel pre.length = some items
  | [], pre, fuel + 1, h, _ => by
    have hlen : data.length ≤ pre.length := by simp [h, appendData]
    rw [parseDataFrom, if_pos hlen]
  | item :: items, pre, fuel + 1, h, hfuel => by
    have hcons : data = pre ++ (leBytes 8 item.length ++ (item ++ appendData items)) := by
      simp [h, appendData, frame]
    have hlen : data.length = pre.length + (8 + (item.length + (appendData items).length)) := by
      simp [hcons]
    have hitem : leValue (leBytes 8 item.length) = item.length :=
      leValue_leBytes 8 (by norm_num; omega)
    have hdrop : data.drop pre.length = leBytes 8 item.length ++ (item ++ appendData items) := by
      rw [hcons, List.drop_left]
    have hdrop' : data.drop (pre.length + 8) = item ++ appendData items := by
      rw [← List.drop_drop, hdrop, List.drop_left' (length_leBytes 8 _)]
    -- the next position is the one behind this item
    have ih := parseDataFrom_appendData data hdata items (pre ++ frame 8 item) fuel
      (by simp [hcons, frame]) (Nat.lt_of_succ_lt_succ hfuel)
    have hnext : (pre ++ frame 8 item).length = (pre.length + 8 + item.length) % 2 ^ 64 := by
      rw [length_append, length_frame, Nat.mod_eq_of_lt (by omega)]
      omega
    rw [hnext] at ih
    rw [parseDataFrom, if_neg (by omega), if_neg (by omega), hdrop,
      List.take_left' (length_leBytes 8 _)]
    dsimp only
    rw [hitem, ih, hdrop', List.take_left' rfl, map_some]

theorem length_le_appendData : ∀ items : List Bytes, items.length ≤ (appendData items).length
  | [] => le_rfl
  | item :: items => by
    have ih := length_le_appendData items
    rw [appendData, flatMap_cons, length_append, length_frame, ← appendData, List.length_cons]
    omega

/-- What `AppendData` writes is read back. -/
theorem parseData_appendData {items : List Bytes} (h : (appendData items).length < 2 ^ 64) :
    parseData (appendData items) = some items :=
  parseDataFrom_appendData _ h items [] _ rfl (Nat.lt_succ_of_le (length_le_appendData items))

section

variable {ρ : Type} {fmt : Format ρ}

variable {rs : List ρ}

theorem buffer_ne_nil (h : rs ≠ []) : buffer fmt rs ≠ [] := by
  obtain ⟨r, rs, rfl⟩ := List.exists_cons_of_ne_nil h
  obtain ⟨s, ss, hs⟩ := List.exists_cons_of_ne_nil (fmt.strings_ne_nil r)
  have hframe : frame 8 s ≠ [] := by
    intro hnil
    have hlen := length_frame 8 s
    rw [hnil, List.length_nil] at hlen
    omega
  simp [buffer, appendData, hs, hframe]

/-- A block that is not too long is read. -/
theorem readBlock_block (h : rs ≠ []) (hsize : (buffer fmt rs).length ≤ maxRecordSize)
    (rest : Bytes) : readBlock (block fmt rs ++ rest) = some (buffer fmt rs, rest) := by
  have hpos : (buffer fmt rs).length ≠ 0 := by simp [buffer_ne_nil h]
  have hlen : (buffer fmt rs).length < 256 ^ 8 := hsize.trans_lt (by norm_num [maxRecordSize])
  rw [readBlock, block, frame, List.append_assoc, Wire.readBytes_append (length_leBytes 8 _),
    bind_some, leValue_leBytes 8 hlen]
  rw [if_neg (by omega), Wire.readBytes_append rfl]

variable {n : ℕ}

/-- Part of a block is not read. -/
theorem readBlock_torn (hlen : (buffer fmt rs).length < 2 ^ 64)
    (hn : n < (block fmt rs).length) : readBlock ((block fmt rs).take n) = none := by
  rcases Wire.take_frame hn with hshort | ⟨m, hm, heq⟩
  · rw [readBlock, block, Wire.readBytes_eq_none hshort, Option.bind_none]
  · have hvalue : leValue (leBytes 8 (buffer fmt rs).length) = (buffer fmt rs).length :=
      leValue_leBytes 8 (by norm_num; omega)
    have hread : readBytes (buffer fmt rs).length ((buffer fmt rs).take m) = none := by
      refine Wire.readBytes_eq_none ?_
      rw [List.length_take]
      omega
    rw [readBlock, block, heq, Wire.readBytes_append (length_leBytes 8 _), bind_some, hvalue]
    dsimp only
    rw [hread, ite_self]

/-- The blocks have records and are not longer than a reader takes. -/
def Readable (fmt : Format ρ) (blocks : List (List ρ)) : Prop :=
  ∀ rs ∈ blocks, rs ≠ [] ∧ (buffer fmt rs).length ≤ maxRecordSize

theorem Readable.eq_nil {blocks : List (List ρ)} (h : Readable fmt blocks)
    (hflatten : blocks.flatten = []) : blocks = [] := by
  refine List.eq_nil_iff_forall_not_mem.2 fun rs hrs => (h rs hrs).1 ?_
  exact List.flatten_eq_nil_iff.1 hflatten rs hrs

/-- The blocks are read up to a part of one. -/
theorem readBlocks_blocks {torn : Bytes} (htorn : readBlock torn = none) :
    ∀ {blocks : List (List ρ)} {fuel : ℕ}, Readable fmt blocks → blocks.length ≤ fuel →
      readBlocks fmt fuel (blocks.flatMap (block fmt) ++ torn) = some (blocks.flatten, torn)
  | [], 0, _, _ => rfl
  | [], fuel + 1, _, _ => by
    rw [List.flatMap_nil, List.nil_append, readBlocks, htorn]
    rfl
  | rs :: blocks, fuel + 1, h, hfuel => by
    obtain ⟨hne, hsize⟩ := h rs List.mem_cons_self
    have hread := readBlock_block hne hsize (blocks.flatMap (block fmt) ++ torn)
    have hlt : (buffer fmt rs).length < 2 ^ 64 := hsize.trans_lt (by norm_num [maxRecordSize])
    have ih := readBlocks_blocks htorn (fun rs hrs => h rs (List.mem_cons_of_mem _ hrs))
      (Nat.le_of_succ_le_succ hfuel)
    have hparse : parseData (buffer fmt rs) = some (rs.flatMap fmt.strings) :=
      parseData_appendData hlt
    rw [flatMap_cons, List.append_assoc, readBlocks, hread]
    dsimp only
    rw [hparse, bind_some, fmt.parse_strings, ih]
    simp [hne]

theorem length_le_blocks (fmt : Format ρ) (blocks : List (List ρ)) :
    blocks.length ≤ (blocks.flatMap (block fmt)).length := by
  induction blocks with
  | nil => exact le_rfl
  | cons rs blocks ih =>
    rw [flatMap_cons, length_append, List.length_cons, block, length_frame]
    omega

/-! ### What holds in every state -/

/-- The file can take another block: its system information is complete, if it has any. -/
def HasHeader (fmt : Format ρ) (content : Bytes) : Prop :=
  fmt.hasSystemInfo = true → (readFrame 8 content).isSome

variable {content : Bytes}

theorem handleSystemInfo_append (h : HasHeader fmt content) (more : Bytes) :
    handleSystemInfo fmt (content ++ more) = handleSystemInfo fmt content ++ more := by
  unfold handleSystemInfo
  split_ifs with hinfo
  · obtain ⟨⟨b, rest⟩, hread⟩ := Option.isSome_iff_exists.1 (h hinfo)
    rw [hread, Wire.readFrame_append hread more]
    rfl
  · rfl

theorem HasHeader.append (h : HasHeader fmt content) (more : Bytes) :
    HasHeader fmt (content ++ more) := by
  intro hinfo
  obtain ⟨⟨b, rest⟩, hread⟩ := Option.isSome_iff_exists.1 (h hinfo)
  rw [Wire.readFrame_append hread more]
  rfl

theorem length_handleSystemInfo_le (fmt : Format ρ) (content : Bytes) :
    (handleSystemInfo fmt content).length ≤ content.length := by
  unfold handleSystemInfo
  split_ifs
  · cases hread : readFrame 8 content with
    | none => exact Nat.zero_le _
    | some r =>
      obtain ⟨len, hlen, hb⟩ := Option.bind_eq_some_iff.1 hread
      rw [(Wire.readBytes_eq_some hlen).2, (Wire.readBytes_eq_some hb).2, List.length_append,
        List.length_append]
      simp only [map_some, Option.getD_some]
      omega
  · exact le_rfl

/-- The file holds the blocks that were flushed, and perhaps a torn one; a process that is running
writes at its end. -/
structure FileInv (fmt : Format ρ) (f : ActiveFile ρ) : Prop where
  body : ∃ blocks torn, handleSystemInfo fmt f.content = blocks.flatMap (block fmt) ++ torn ∧
    f.flushed = blocks.flatten ∧ Readable fmt blocks ∧ readBlock torn = none ∧
    (f.torn = false → torn = [])
  header : f.running = true → HasHeader fmt f.content
  position : f.running = true → f.offset = f.content.length
  fresh : f.running = true → f.flushed = [] → f.torn = false

/-- What is found in a file whose body consists of blocks. -/
theorem scan_of_body {torn : Bytes} {blocks : List (List ρ)}
    (hbody : handleSystemInfo fmt content = blocks.flatMap (block fmt) ++ torn)
    (hblocks : Readable fmt blocks) (htorn : readBlock torn = none) :
    scan fmt content = some (blocks.flatten, torn) := by
  have hfuel : blocks.length ≤ content.length := by
    have h₁ := length_le_blocks fmt blocks
    have h₂ := length_handleSystemInfo_le fmt content
    rw [hbody, length_append] at h₂
    omega
  rw [scan, hbody, readBlocks_blocks htorn hblocks hfuel]

variable {f f' : ActiveFile ρ}

/-- An intact file gives back the records that were flushed. -/
theorem FileInv.readLogsFromFiles (h : FileInv fmt f) : readLogsFromFiles fmt f.content =
      some (f.flushed, if f.flushed.isEmpty then [] else f.content) := by
  obtain ⟨blocks, torn, hbody, hflushed, hblocks, htorn, -⟩ := h.body
  rw [Wal.readLogsFromFiles, scan_of_body hbody hblocks htorn, map_some, hflushed]

theorem FileInv.flush (h : FileInv fmt f) {records : List ρ} (hrunning : f.running = true)
    (hne : records ≠ []) (hsize : (buffer fmt records).length ≤ maxRecordSize)
    (hclean : f.torn = false) :
    FileInv fmt { f.write (block fmt records) with flushed := f.flushed ++ records } := by
  obtain ⟨blocks, torn, hbody, hflushed, hblocks, -, htorn⟩ := h.body
  obtain rfl : torn = [] := htorn hclean
  have hwrite : (f.write (block fmt records)).content = f.content ++ block fmt records := by
    rw [ActiveFile.write, h.position hrunning, Wire.writeAt_length]
  refine ⟨⟨blocks ++ [records], [], ?_, ?_, ?_, rfl, fun _ => rfl⟩, fun _ => ?_, fun _ => ?_,
    fun _ hnil => absurd (List.append_eq_nil_iff.1 hnil).2 hne⟩
  · rw [hwrite, handleSystemInfo_append (h.header hrunning), hbody]
    simp
  · simp [hflushed]
  · intro rs hrs
    rcases List.mem_append.1 hrs with hrs | hrs
    · exact hblocks rs hrs
    · rw [List.mem_singleton.1 hrs]
      exact ⟨hne, hsize⟩
  · rw [hwrite]
    exact (h.header hrunning).append _
  · rw [hwrite, length_append, ← h.position hrunning]
    rfl

/-- A process that ends within a block leaves part of it. -/
theorem FileInv.crash (h : FileInv fmt f) {records : List ρ} (hrunning : f.running = true)
    (hlen : (buffer fmt records).length < 2 ^ 64) (hn : n < (block fmt records).length)
    (hclean : n = 0 ∨ f.torn = false) : FileInv fmt { f.write ((block fmt records).take n) with
      torn := f.torn || decide (0 < n), running := false } := by
  obtain ⟨blocks, torn, hbody, hflushed, hblocks, htorn, hnil⟩ := h.body
  have hcontent := handleSystemInfo_append (h.header hrunning) ((block fmt records).take n)
  rw [hbody] at hcontent
  have hwrite : (f.write ((block fmt records).take n)).content =
      f.content ++ (block fmt records).take n := by
    rw [ActiveFile.write, h.position hrunning, Wire.writeAt_length]
  refine ⟨?_, nofun, nofun, nofun⟩
  rw [← hwrite] at hcontent
  rcases hclean with rfl | hclean
  · exact ⟨blocks, torn, by simpa using hcontent, hflushed, hblocks, htorn, by simpa using hnil⟩
  · obtain rfl : torn = [] := hnil hclean
    rw [append_nil] at hcontent
    refine ⟨blocks, _, hcontent, hflushed, hblocks, readBlock_torn hlen hn, fun hzero => ?_⟩
    have hn0 : n = 0 := by
      simpa [hclean] using hzero
    rw [hn0, List.take_zero]

theorem FileInv.close (h : FileInv fmt f) : FileInv fmt { f with running := false } :=
  ⟨h.body, nofun, nofun, nofun⟩

theorem FileInv.of_empty (hflushed : f.flushed = []) (hbody : handleSystemInfo fmt f.content = [])
    (hheader : f.running = true →
      HasHeader fmt f.content ∧ f.offset = f.content.length ∧ f.torn = false) : FileInv fmt f :=
  ⟨⟨[], [], hbody, hflushed, nofun, rfl, fun _ => rfl⟩,
    fun h => (hheader h).1, fun h => (hheader h).2.1, fun h _ => (hheader h).2.2⟩

theorem handleSystemInfo_nil (fmt : Format ρ) : handleSystemInfo fmt [] = [] := by
  unfold handleSystemInfo
  split_ifs <;> rfl

/-- A file without a record is emptied, any other one is kept. -/
theorem FileInv.readLogs (h : FileInv fmt f) :
    (f.flushed = [] ∧ f.readLogs fmt = some ([], { f with content := [], torn := false })) ∨
      (f.flushed ≠ [] ∧ f.content ≠ [] ∧ HasHeader fmt f.content ∧
        f.readLogs fmt = some (f.flushed, f)) := by
  have hread : f.readLogs fmt = some (f.flushed, { f with
      content := if f.flushed.isEmpty then [] else f.content
      torn := f.torn && !(if f.flushed.isEmpty then [] else f.content).isEmpty }) := by
    rw [ActiveFile.readLogs, h.readLogsFromFiles, map_some]
  by_cases hempty : f.flushed = []
  · left
    refine ⟨hempty, hread.trans ?_⟩
    simp [hempty]
  · right
    obtain ⟨blocks, torn, hbody, hflushed, hblocks, -⟩ := h.body
    -- there is a block, so that the system information before it is complete
    have hne : handleSystemInfo fmt f.content ≠ [] := by
      intro hnil
      rw [hbody, List.append_eq_nil_iff] at hnil
      have hlen := length_le_blocks fmt blocks
      rw [hnil.1, List.length_nil, Nat.le_zero, List.length_eq_zero_iff] at hlen
      rw [hlen] at hflushed
      exact hempty hflushed
    have hcontent : f.content ≠ [] := by
      intro hnil
      rw [hnil, handleSystemInfo_nil] at hne
      exact hne rfl
    refine ⟨hempty, hcontent, ?_, hread.trans ?_⟩
    · intro hinfo
      rw [handleSystemInfo, if_pos hinfo] at hne
      cases hread : readFrame 8 f.content with
      | none =>
        rw [hread] at hne
        exact absurd rfl hne
      | some r => rfl
    · have htorn : (f.torn && !f.content.isEmpty) = f.torn := by simp [hcontent]
      rw [if_neg (by simp [hempty]), htorn]

variable {r : List ρ × ActiveFile ρ}

theorem readLogs_keeps (hr : f.readLogs fmt = some r) :
    r.2.flushed = f.flushed ∧ r.2.running = f.running := by
  obtain ⟨x, -, rfl⟩ := map_eq_some_iff.1 hr
  exact ⟨rfl, rfl⟩

theorem FileInv.of_readLogs (h : FileInv fmt f) (hr : f.readLogs fmt = some r)
    (hok : f.running = true → fmt.hasSystemInfo = false ∨ f.flushed ≠ []) : FileInv fmt r.2 := by
  rcases h.readLogs with ⟨hflushed, heq⟩ | ⟨-, -, -, heq⟩
  · obtain rfl := Option.some.inj (hr.symm.trans heq)
    refine .of_empty hflushed (handleSystemInfo_nil fmt) fun hrunning => ?_
    -- the file was empty before: it has no system information, and no torn block either
    have hinfo := (hok hrunning).resolve_right fun hne => hne hflushed
    obtain ⟨blocks, torn, hbody, hblocks, hreadable, -, htorn⟩ := h.body
    have hcontent : f.content = [] := by
      rw [handleSystemInfo, if_neg (by simp [hinfo]), htorn (h.fresh hrunning hflushed),
        hreadable.eq_nil (hblocks.symm.trans hflushed)] at hbody
      exact hbody
    refine ⟨fun htrue => absurd (htrue.symm.trans hinfo) (by decide), ?_, rfl⟩
    rw [h.position hrunning, hcontent]
  · obtain rfl := Option.some.inj (hr.symm.trans heq)
    exact h

variable {info : Bytes}

section

variable (h : info.length < 2 ^ 32)
include h

theorem length_appendData_singleton : (appendData [info]).length < 256 ^ 8 := by
  rw [appendData, List.flatMap_singleton, length_frame]
  omega

theorem readFrame_systemInfoBlock :
    readFrame 8 (systemInfoBlock info) = some (appendData [info], []) := by
  have hread := Wire.readFrame_frame (length_appendData_singleton h) []
  rwa [append_nil] at hread

theorem handleSystemInfo_take (hinfo : fmt.hasSystemInfo = true) (n : ℕ) :
    handleSystemInfo fmt ((systemInfoBlock info).take n) = [] := by
  rw [handleSystemInfo, if_pos hinfo]
  by_cases hn : n < (systemInfoBlock info).length
  · rw [systemInfoBlock, Wire.readFrame_take (length_appendData_singleton h) hn]
    rfl
  · rw [List.take_of_length_le (not_lt.1 hn), readFrame_systemInfoBlock h]
    rfl

theorem hasHeader_systemInfoBlock : HasHeader fmt (systemInfoBlock info) := by
  intro _
  rw [readFrame_systemInfoBlock h]
  rfl

end

theorem content_openFile (hcontent : f.content = []) :
    (f.openFile fmt info).content = f.systemInfo fmt info := by
  simp [ActiveFile.openFile, ActiveFile.write, ActiveFile.seekEnd, hcontent, writeAt]

theorem FileInv.openFile_empty (hinfo : info.length < 2 ^ 32)
    (hflushed : f.flushed = []) (hcontent : f.content = []) (htorn : f.torn = false) :
    FileInv fmt (f.openFile fmt info) := by
  have hwrite : (f.openFile fmt info).content = f.systemInfo fmt info := content_openFile hcontent
  have hoffset : (f.openFile fmt info).offset = (f.systemInfo fmt info).length := by
    simp [ActiveFile.openFile, ActiveFile.write, ActiveFile.seekEnd, hcontent]
  by_cases hhas : fmt.hasSystemInfo = true
  · have hsystem : f.systemInfo fmt info = systemInfoBlock info := if_pos ⟨hhas, hcontent⟩
    have hbody := handleSystemInfo_take hinfo hhas (systemInfoBlock info).length
    rw [List.take_length] at hbody
    rw [hsystem] at hwrite hoffset
    refine .of_empty hflushed (by rw [hwrite, hbody]) fun _ => ⟨?_, ?_, htorn⟩
    · rw [hwrite]
      exact hasHeader_systemInfoBlock hinfo
    · rw [hoffset, hwrite]
  · have hsystem : f.systemInfo fmt info = [] := if_neg fun h => hhas h.1
    rw [hsystem] at hwrite hoffset
    refine .of_empty hflushed (by rw [hwrite, handleSystemInfo_nil]) fun _ => ⟨?_, ?_, htorn⟩
    · exact fun h => absurd h hhas
    · rw [hoffset, hwrite]

theorem openFile_of_ne_nil (hcontent : f.content ≠ []) :
    f.openFile fmt info = { f with offset := f.content.length, running := true } := by
  have hsystem : f.systemInfo fmt info = [] := if_neg fun h => hcontent h.2
  rw [ActiveFile.openFile, hsystem, ActiveFile.write, ActiveFile.seekEnd, Wire.writeAt_length,
    append_nil, List.length_nil, Nat.add_zero]

/-- A file is continued after it has been read. -/
theorem FileInv.restart (h : FileInv fmt f) (hinfo : info.length < 2 ^ 32) (hr : f.readLogs fmt = some r) :
    FileInv fmt (r.2.openFile fmt info) := by
  rcases h.readLogs with ⟨hflushed, heq⟩ | ⟨hflushed, hcontent, hheader, heq⟩
  · obtain rfl := Option.some.inj (hr.symm.trans heq)
    exact .openFile_empty hinfo hflushed rfl rfl
  · obtain rfl := Option.some.inj (hr.symm.trans heq)
    rw [openFile_of_ne_nil hcontent]
    exact ⟨h.body, fun _ => hheader, fun _ => rfl, fun _ hnil => absurd hnil hflushed⟩

theorem FileInv.restartCrash (h : FileInv fmt f)
    (hrunning : f.running = false) (hinfo : info.length < 2 ^ 32)
    (hr : f.readLogs fmt = some r) (hn : n < (r.2.systemInfo fmt info).length) :
    FileInv fmt (r.2.seekEnd.write ((r.2.systemInfo fmt info).take n)) := by
  rcases h.readLogs with ⟨hflushed, heq⟩ | ⟨-, hcontent, -, heq⟩
  · obtain rfl := Option.some.inj (hr.symm.trans heq)
    refine .of_empty hflushed ?_ fun htrue => absurd (hrunning.symm.trans htrue) Bool.false_ne_true
    have hhas : fmt.hasSystemInfo = true := by
      by_contra hhas
      rw [ActiveFile.systemInfo, if_neg fun h => hhas h.1] at hn
      exact absurd hn (Nat.not_lt_zero n)
    have hsystem : ActiveFile.systemInfo fmt info { f with content := [], torn := false } =
        systemInfoBlock info := if_pos ⟨hhas, rfl⟩
    simpa [ActiveFile.write, ActiveFile.seekEnd, writeAt, hsystem] using
      handleSystemInfo_take hinfo hhas n
  · obtain rfl := Option.some.inj (hr.symm.trans heq)
    rw [ActiveFile.systemInfo, if_neg fun h => hcontent h.2] at hn
    exact absurd hn (Nat.not_lt_zero n)

/-- Every step that meets the condition keeps the file intact. -/
theorem FileInv.step (h : FileInv fmt f) {a : FileAction ρ} (hok : AppendsClean fmt f a)
    (hs : f.step fmt a = some f') : FileInv fmt f' := by
  cases a <;> dsimp only [ActiveFile.step] at hs
  case flush records =>
    split_ifs at hs with hg
    cases hs
    exact h.flush hg.1 hg.2.1 hok.2 hok.1
  case crash records n =>
    split_ifs at hs with hg
    cases hs
    exact h.crash hg.1 hg.2.2.1 hg.2.2.2 hok
  case readLogs =>
    split_ifs at hs with hg
    obtain ⟨r, hr, rfl⟩ := map_eq_some_iff.1 hs
    exact h.of_readLogs hr fun _ => hok.imp_right (by simp)
  case restart info =>
    split_ifs at hs with hg
    obtain ⟨r, hr, rfl⟩ := map_eq_some_iff.1 hs
    exact h.restart hg.2 hr
  case restartCrash info n =>
    split_ifs at hs with hg
    obtain ⟨r, hr, hs⟩ := Option.bind_eq_some_iff.1 hs
    split_ifs at hs with hn
    cases hs
    exact h.restartCrash hg.1 hg.2 hr hn

theorem FileInv.absent : FileInv fmt (.absent : ActiveFile ρ) :=
  .of_empty rfl (handleSystemInfo_nil fmt) nofun

end

/-- As long as nothing is written behind a torn block, no block is longer than 64 MiB and a file that
holds only system information is not read while it is being written, the next recovery returns every
record that was flushed. -/
theorem torn_tail_recovery {ρ : Type} {fmt : Format ρ} {f : ActiveFile ρ}
    (h : (fileSystem fmt).Reachable (AppendsClean fmt) f) : Recovers fmt f := by
  have hinv : FileInv fmt f := by
    refine h.invariant (I := FileInv fmt) ?_ ?_
    · rintro f rfl
      exact .absent
    · intro f a f' hf hok hs
      exact hf.step hok hs
  exact ⟨f.flushed, _, hinv.readLogsFromFiles, List.Sublist.refl _⟩

/-- A message that is a string. -/
def stringCodec : Codec Bytes := ⟨id, some, fun _ => rfl⟩

/-- A block is flushed, the process ends within the next one, and is started again. -/
def tornRun : List (FileAction Bytes) :=
  [.restart [], .readLogs, .flush [[1]], .crash [[2]] 1, .restart [], .readLogs]

theorem torn_tail_recovery_tornRun :
    ∃ f, (fileSystem (raftFormat stringCodec)).run .absent tornRun = some f ∧
      f.flushed = [[1]] ∧ Recovers (raftFormat stringCodec) f := by
  obtain ⟨f, hf, hreach, hflushed⟩ := (fileSystem (raftFormat stringCodec)).exists_run
    (C := AppendsClean (raftFormat stringCodec)) (P := fun f => f.flushed = [[1]]) tornRun rfl
    (by decide +kernel) (by decide +kernel)
  exact ⟨f, hf, hflushed, torn_tail_recovery hreach⟩

/-- One more block is flushed: it is read as part of the torn one, and lost. -/
theorem torn_tail_recovery_fails :
    ¬ ∀ (ρ : Type) (fmt : Format ρ) (f : ActiveFile ρ),
      (fileSystem fmt).Reachable TransitionSystem.always f → Recovers fmt f := by
  intro h
  obtain ⟨f, hreach, hread, hflushed⟩ :=
    (fileSystem (raftFormat stringCodec)).exists_reachable_always (P := fun f =>
      (readLogsFromFiles (raftFormat stringCodec) f.content).map Prod.fst = some [[1]] ∧
        f.flushed = [[1], [3]]) (tornRun ++ [.flush [[3]]]) rfl (by decide +kernel)
  obtain ⟨out, content, hout, hsub⟩ := h Bytes (raftFormat stringCodec) f hreach
  rw [hout] at hread
  rw [hflushed, show out = [[1]] from Option.some.inj hread] at hsub
  exact absurd hsub (by decide)

/-! ### Groups of records -/

section

variable {ρ : Type} (fmt : Format ρ)

/-- `Flush`, which leaves the file alone if the buffer is empty. -/
def flush (rs : List ρ) : Bytes := if buffer fmt rs = [] then [] else block fmt rs

/-- `WalWriterLoop`.  Each time it swaps out all that is queued, the records of each `PendingWalBatch`, and
flushes them together. -/
def walWriterLoop (batches : List (List (List ρ))) : Bytes :=
  batches.flatMap fun batch => flush fmt batch.flatten

variable {fmt}

theorem readBlock_long {rs : List ρ} (hlong : maxRecordSize < (buffer fmt rs).length)
    (hlen : (buffer fmt rs).length < 2 ^ 64) (rest : Bytes) : readBlock (block fmt rs ++ rest) = none := by
  rw [readBlock, block, frame, List.append_assoc, Wire.readBytes_append (length_leBytes 8 _),
    bind_some, leValue_leBytes 8 (by norm_num; omega)]
  exact if_pos (.inr hlong)

/-- The writer loop makes one block of each batch that is not empty. -/
theorem walWriterLoop_eq (batches : List (List (List ρ))) : walWriterLoop fmt batches =
    ((batches.map List.flatten).filter fun rs => rs ≠ []).flatMap (block fmt) := by
  induction batches with
  | nil => rfl
  | cons batch batches ih =>
    rw [walWriterLoop, flatMap_cons, ← walWriterLoop, ih, List.map_cons, flush]
    by_cases hnil : batch.flatten = []
    · rw [List.filter_cons_of_neg (by simpa using hnil), hnil]
      rfl
    · rw [List.filter_cons_of_pos (by simpa using hnil), if_neg (buffer_ne_nil hnil), flatMap_cons]

/-- The blocks before the first one that is too long are read. -/
theorem scan_groups (fmt : Format ρ) (hinfo : fmt.hasSystemInfo = false) (groups : List (List ρ))
    (hgroups : ∀ rs ∈ groups, rs ≠ [] ∧ (buffer fmt rs).length < 2 ^ 64) :
    ∃ rest, scan fmt (groups.flatMap (block fmt)) = some
      ((groups.takeWhile fun rs => (buffer fmt rs).length ≤ maxRecordSize).flatten, rest) := by
  have hsplit := groups.takeWhile_append_dropWhile
    (p := fun rs => decide ((buffer fmt rs).length ≤ maxRecordSize))
  refine ⟨(groups.dropWhile fun rs => (buffer fmt rs).length ≤ maxRecordSize).flatMap (block fmt),
    scan_of_body ?_ ?_ ?_⟩
  · rw [handleSystemInfo, if_neg (by simp [hinfo]), ← List.flatMap_append, hsplit]
  · intro rs hrs
    exact ⟨(hgroups rs (List.takeWhile_subset _ hrs)).1,
      of_decide_eq_true (List.all_eq_true.1 List.all_takeWhile rs hrs)⟩
  · -- the reader stops at the first block that is too long
    cases hdrop : groups.dropWhile fun rs => (buffer fmt rs).length ≤ maxRecordSize with
    | nil => rfl
    | cons rs groups' =>
      have hmem : rs ∈ groups := (List.dropWhile_sublist _).subset (hdrop ▸ List.mem_cons_self)
      have hlong := List.head_dropWhile_not
        (fun rs => decide ((buffer fmt rs).length ≤ maxRecordSize)) (l := groups) (by simp [hdrop])
      simp only [hdrop, decide_eq_false_iff_not, not_le] at hlong
      exact readBlock_long hlong (hgroups rs hmem).2 _

end

theorem flatten_takeWhile_eq_iff {α : Type} {p : List α → Bool} {groups : List (List α)}
    (h : ∀ g ∈ groups, g ≠ []) :
    (groups.takeWhile p).flatten = groups.flatten ↔ ∀ g ∈ groups, p g = true := by
  induction groups with
  | nil => simp
  | cons g groups ih =>
    obtain ⟨hne, hrest⟩ := List.forall_mem_cons.1 h
    by_cases hp : p g = true
    · rw [List.takeWhile_cons_of_pos hp, List.flatten_cons, List.flatten_cons,
        List.append_cancel_left_eq, ih hrest, List.forall_mem_cons, and_iff_right hp]
    · simp [hne, hp]

/-- **The framing and its limit.**  Whatever the sizes of the records and however they are grouped, they
are read back exactly if no group has more than 64 MiB with its framing. -/
theorem framing_round_trip_iff {ρ : Type} (c : Codec ρ) (batches : List (List (List ρ)))
    (hlen : ∀ batch ∈ batches, (buffer (raftFormat c) batch.flatten).length < 2 ^ 64) :
    (readLogsFromFiles (raftFormat c) (walWriterLoop (raftFormat c) batches)).map Prod.fst =
        some batches.flatten.flatten ↔
      ∀ batch ∈ batches, (buffer (raftFormat c) batch.flatten).length ≤ maxRecordSize := by
  have hgroups : ∀ rs ∈ (batches.map List.flatten).filter fun rs => rs ≠ [],
      rs ≠ [] ∧ (buffer (raftFormat c) rs).length < 2 ^ 64 := by
    intro rs hrs
    obtain ⟨hmem, hne⟩ := List.mem_filter.1 hrs
    obtain ⟨batch, hbatch, rfl⟩ := List.mem_map.1 hmem
    exact ⟨by simpa using hne, hlen batch hbatch⟩
  obtain ⟨rest, hscan⟩ := scan_groups (raftFormat c) rfl _ hgroups
  have hall : batches.flatten.flatten =
      ((batches.map List.flatten).filter fun rs => rs ≠ []).flatten := by
    rw [List.flatten_filter_ne_nil, List.flatten_flatten]
  rw [walWriterLoop_eq, readLogsFromFiles, hscan, map_some, map_some, Option.some.injEq,
    hall, flatten_takeWhile_eq_iff fun rs hrs => (hgroups rs hrs).1]
  constructor
  · intro hshort batch hbatch
    by_cases hnil : batch.flatten = []
    · rw [hnil]
      exact Nat.zero_le _
    · exact of_decide_eq_true (hshort _ (by simpa [hnil] using ⟨batch, hbatch, rfl⟩))
  · intro hshort rs hrs
    obtain ⟨batch, hbatch, rfl⟩ := List.mem_map.1 (List.mem_filter.1 hrs).1
    exact decide_eq_true (hshort batch hbatch)

/-- Two records are queued one after the other, and then a third one. -/
theorem framing_round_trip_iff_queued :
    (readLogsFromFiles (raftFormat stringCodec)
        (walWriterLoop (raftFormat stringCodec) [[[[1]], [[2]]], [[[3]]]])).map Prod.fst =
      some [[1], [2], [3]] :=
  (framing_round_trip_iff stringCodec [[[[1]], [[2]]], [[[3]]]] (by decide)).2 (by decide +kernel)

/-- Two records of 40 MiB that are swapped out together are both lost. -/
theorem framing_round_trip_fails : ∃ record : Bytes, record.length ≤ maxRecordSize ∧
    (readLogsFromFiles (raftFormat stringCodec)
        (walWriterLoop (raftFormat stringCodec) [[[record], [record]]])).map Prod.fst = some [] := by
  obtain ⟨record, hlength⟩ : ∃ record : Bytes, record.length = 40 * 1024 * 1024 :=
    ⟨List.replicate _ 0, List.length_replicate⟩
  have hsize : (buffer (raftFormat stringCodec) [record, record]).length = 2 * (8 + record.length) := by
    simp [buffer, appendData, raftFormat, stringCodec, length_frame]
    omega
  rw [hlength] at hsize
  refine ⟨record, by rw [hlength]; norm_num [maxRecordSize], ?_⟩
  have hlong : ¬ (buffer (raftFormat stringCodec) [record, record]).length ≤ maxRecordSize := by
    rw [hsize]
    norm_num [maxRecordSize]
  obtain ⟨rest, hscan⟩ := scan_groups (raftFormat stringCodec) rfl [[record, record]]
    (by simp [hsize])
  rw [List.takeWhile_cons_of_neg (by simpa using hlong)] at hscan
  have hwritten : walWriterLoop (raftFormat stringCodec) [[[record], [record]]] =
      [[record, record]].flatMap (block (raftFormat stringCodec)) := by
    rw [walWriterLoop_eq]
    simp
  rw [hwritten, readLogsFromFiles, hscan]
  rfl

end Wal
