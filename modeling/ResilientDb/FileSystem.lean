/-
**Files, their names, and descriptors.**

What a process sees of a file system: names lead to files, and descriptors point into files.  A file
that is open stays when its name is removed or given to another file.  The outcome of a call is an
argument of the operation; an outcome that no kernel gives (a descriptor that is still in use, a write
through a descriptor that is not open) is `none`.

Main definitions:

* `FileSystem` — the files, the names and the open descriptors;
* `FileSystem.openTrunc`, `FileSystem.close`, `FileSystem.unlink`, `FileSystem.rename`,
  `FileSystem.read` — the calls;
* `FileSystem.writeAll` — the loop that calls `write` until all bytes are accepted.

Main results:

* `FileSystem.writeAll_snd` — whether it ends well depends on the outcomes of the calls alone.
-/

import ResilientDb.Wire

set_option autoImplicit false

open Function (update)
open Wire (Bytes writeAt)

/-- Files are numbered.  `next` is above all files there are. -/
structure FileSystem (ν : Type) where
  content : ℕ → Bytes
  lookup : ν → Option ℕ
  /-- The file and the position of every open descriptor. -/
  opened : ℕ → Option (ℕ × ℕ)
  next : ℕ

namespace FileSystem

variable {ν : Type}

/-- No file and no descriptor. -/
def empty : FileSystem ν := ⟨fun _ => [], fun _ => none, fun _ => none, 0⟩

/-! ### The calls -/

section

variable [DecidableEq ν]

/-- `open` with `O_CREAT | O_WRONLY | O_TRUNC`, where the kernel hands out the descriptor `fd`. -/
def openTrunc (fs : FileSystem ν) (name : ν) (fd : ℕ) : Option (FileSystem ν) :=
  if (fs.opened fd).isSome then none
  else
    match fs.lookup name with
    | some file =>
      some { fs with
        content := update fs.content file []
        opened := update fs.opened fd (some (file, 0)) }
    | none =>
      some { fs with
        content := update fs.content fs.next []
        lookup := update fs.lookup name (some fs.next)
        opened := update fs.opened fd (some (fs.next, 0))
        next := fs.next + 1 }

/-- `close`. -/
def close (fs : FileSystem ν) (fd : ℕ) : FileSystem ν :=
  { fs with opened := update fs.opened fd none }

/-- `unlink`. -/
def unlink (fs : FileSystem ν) (name : ν) : FileSystem ν :=
  { fs with lookup := update fs.lookup name none }

/-- `rename`.  It fails if there is no such file; otherwise `ok` is its outcome. -/
def rename (fs : FileSystem ν) (old new : ν) (ok : Bool) : FileSystem ν :=
  match fs.lookup old with
  | none => fs
  | some file =>
    if ok then
      { fs with lookup := update (update fs.lookup old none) new (some file) }
    else fs

end

/-- All bytes of the file of a name, if it can be opened. -/
def read (fs : FileSystem ν) (name : ν) (ok : Bool) : Option Bytes :=
  if ok then (fs.lookup name).map fs.content else none

/-- One call of `write` that accepts all of `data`. -/
def write (fs : FileSystem ν) (fd : ℕ) (data : Bytes) : Option (FileSystem ν) :=
  (fs.opened fd).map fun p =>
    { fs with
      content := update fs.content p.1 (writeAt (fs.content p.1) p.2 data)
      opened := update fs.opened fd (some (p.1, p.2 + data.length)) }

/-- The loop that writes `data`.  The list has the number of bytes that every call of `write` accepts;
0 is a call that fails, and so is the call after the last one listed. -/
def writeAll (fs : FileSystem ν) (fd : ℕ) : Bytes → List ℕ → Option (FileSystem ν × Bool)
  | [], _ => some (fs, true)
  | _ :: _, [] => some (fs, false)
  | b :: bs, n :: results =>
    if n = 0 then some (fs, false)
    else do
      let fs ← fs.write fd ((b :: bs).take n)
      writeAll fs fd ((b :: bs).drop n) results

/-- The calls of `write` accept `size` bytes before one of them fails. -/
def accepts : ℕ → List ℕ → Bool
  | 0, _ => true
  | _ + 1, [] => false
  | size + 1, n :: results => n ≠ 0 && accepts (size + 1 - n) results

/-! ### The loop -/

theorem writeAll_snd (fd : ℕ) (results : List ℕ) : ∀ {fs fs' : FileSystem ν} {data : Bytes}
    {ok : Bool}, fs.writeAll fd data results = some (fs', ok) →
    ok = accepts data.length results := by
  induction results with
  | nil =>
    intro fs fs' data ok h
    cases data with
    | nil =>
      cases h
      rfl
    | cons b bs =>
      cases h
      rfl
  | cons n results ih =>
    intro fs fs' data ok h
    cases data with
    | nil =>
      cases h
      rfl
    | cons b bs =>
      rw [writeAll] at h
      split_ifs at h with hn
      · cases h
        simp [accepts, hn]
      · obtain ⟨fs₁, _, h⟩ := Option.bind_eq_some_iff.1 h
        have hok := ih h
        rw [hok, List.length_cons, accepts]
        simp [hn]

end FileSystem
