/-
**Byte strings, words and tagged records.**

The formats in which the program writes byte strings: words of a fixed width, least significant byte
first; numbers of variable width, seven bits to a byte; and messages, which are sequences of records,
each a field number with a number, a word or a byte string.

Main definitions:

* `Wire.leBytes`, `Wire.leValue` — words of a fixed width;
* `Wire.encodeVarint`, `Wire.decodeVarint` — numbers of variable width;
* `Wire.Record`, `Wire.encode`, `Wire.decode` — messages;
* `Wire.frame`, `Wire.readFrame` — a byte string after its length.

Main results:

* `Wire.leValue_leBytes`, `Wire.decodeVarint_encodeVarint`, `Wire.decode_encode` — reading gives back
  what was written;
* `Wire.readFrame_frame`, `Wire.take_frame` — whole frames and frames whose end is cut off;
* `Wire.size_lt_of_decode` — a byte string inside a message is shorter than the message.
-/

import Mathlib

set_option autoImplicit false

namespace Wire

open Option (bind_eq_some_iff bind_some map_eq_some_iff map_some)

/-- A byte. -/
abbrev Byte := Fin 256

/-- A byte string, as `std::string` holds one. -/
abbrev Bytes := List Byte

instance neZero_byte : NeZero 256 := ⟨by decide⟩

/-- The bytes of a text of ASCII characters. -/
def ofText (s : String) : Bytes := s.toList.map fun c => Fin.ofNat 256 c.toNat

/-! ### Words of a fixed width -/

/-- The word of `w` bytes, least significant byte first. -/
def leBytes : ℕ → ℕ → Bytes
  | 0, _ => []
  | w + 1, n => Fin.ofNat 256 n :: leBytes w (n / 256)

/-- The number that a word is. -/
def leValue : Bytes → ℕ
  | [] => 0
  | b :: bs => b.val + 256 * leValue bs

@[simp] theorem length_leBytes : ∀ w n : ℕ, (leBytes w n).length = w
  | 0, _ => rfl
  | w + 1, n => by rw [leBytes, List.length_cons, length_leBytes w]

/-- A number that fits is read back. -/
theorem leValue_leBytes : ∀ (w : ℕ) {n : ℕ}, n < 256 ^ w → leValue (leBytes w n) = n
  | 0, n, h => by
    rw [pow_zero, Nat.lt_one_iff] at h
    rw [h]
    rfl
  | w + 1, n, h => by
    have hdiv : n / 256 < 256 ^ w := by
      exact Nat.div_lt_of_lt_mul (by rwa [mul_comm])
    rw [leBytes, leValue, leValue_leBytes w hdiv]
    exact Nat.mod_add_div n 256

/-! ### Numbers of variable width -/

/-- Seven bits to a byte, the high bit set in all bytes but the last, at most `fuel` bytes. -/
def encodeVarintAux : ℕ → ℕ → Bytes
  | 0, _ => []
  | fuel + 1, n =>
    if n < 128 then [Fin.ofNat 256 n]
    else Fin.ofNat 256 (128 + n % 128) :: encodeVarintAux fuel (n / 128)

/-- A number below `2 ^ 64`. -/
def encodeVarint (n : ℕ) : Bytes := encodeVarintAux 10 n

/-- Read at most `fuel` bytes. -/
def decodeVarintAux : ℕ → Bytes → Option (ℕ × Bytes)
  | 0, _ => none
  | _ + 1, [] => none
  | fuel + 1, b :: bs =>
    if b.val < 128 then some (b.val, bs)
    else (decodeVarintAux fuel bs).map fun r => (b.val % 128 + 128 * r.1, r.2)

/-- Read a number of 64 bits, and return what comes after it. -/
def decodeVarint (bs : Bytes) : Option (ℕ × Bytes) :=
  (decodeVarintAux 10 bs).map fun r => (r.1 % 2 ^ 64, r.2)

theorem decodeVarintAux_encodeVarintAux (rest : Bytes) : ∀ (fuel : ℕ) {n : ℕ}, n < 128 ^ fuel →
    0 < fuel → decodeVarintAux fuel (encodeVarintAux fuel n ++ rest) = some (n, rest)
  | fuel + 1, n, hn, _ => by
    unfold encodeVarintAux
    split_ifs with h
    · have hval : (Fin.ofNat 256 n).val = n := by
        rw [Fin.val_ofNat]
        omega
      rw [List.singleton_append, decodeVarintAux, hval, if_pos h]
    · have hval : (Fin.ofNat 256 (128 + n % 128)).val = 128 + n % 128 := by
        rw [Fin.val_ofNat]
        omega
      -- a number with more than one byte leaves fuel for the others
      cases fuel with
      | zero => omega
      | succ fuel =>
        have hdiv : n / 128 < 128 ^ (fuel + 1) := by
          exact Nat.div_lt_of_lt_mul (by rwa [mul_comm])
        have ih := decodeVarintAux_encodeVarintAux rest (fuel + 1) hdiv (Nat.succ_pos _)
        rw [List.cons_append, decodeVarintAux, hval, if_neg (by omega), ih]
        simp only [map_some, Option.some.injEq, Prod.mk.injEq, and_true]
        omega

variable {n : ℕ}

/-- A varint is read back. -/
theorem decodeVarint_encodeVarint (hn : n < 2 ^ 64) (rest : Bytes) :
    decodeVarint (encodeVarint n ++ rest) = some (n, rest) := by
  have h : n < 128 ^ 10 := hn.trans (by norm_num)
  rw [decodeVarint, encodeVarint, decodeVarintAux_encodeVarintAux rest 10 h (by norm_num),
    map_some, Nat.mod_eq_of_lt hn]

/-- A number takes at least one byte. -/
theorem suffix_of_decodeVarintAux : ∀ {fuel : ℕ} {bs rest : Bytes} {n : ℕ},
    decodeVarintAux fuel bs = some (n, rest) → ∃ b bs', bs = b :: bs' ∧ rest <:+ bs'
  | fuel + 1, b :: bs, rest, n, h => by
    unfold decodeVarintAux at h
    split_ifs at h
    · cases h
      exact ⟨b, bs, rfl, List.suffix_refl bs⟩
    · obtain ⟨r, hr, heq⟩ := map_eq_some_iff.1 h
      cases heq
      obtain ⟨b', bs', rfl, hsuffix⟩ := suffix_of_decodeVarintAux hr
      exact ⟨b, b' :: bs', rfl, hsuffix.trans (List.suffix_cons b' bs')⟩

variable {bs rest : Bytes}

theorem suffix_of_decodeVarint (h : decodeVarint bs = some (n, rest)) :
    rest.length < bs.length ∧ rest <:+ bs := by
  obtain ⟨r, hr, heq⟩ := map_eq_some_iff.1 h
  cases heq
  obtain ⟨b, bs', rfl, hsuffix⟩ := suffix_of_decodeVarintAux hr
  exact ⟨Nat.lt_succ_of_le hsuffix.length_le, hsuffix.trans (List.suffix_cons b bs')⟩

theorem encodeVarint_ne_nil (n : ℕ) : encodeVarint n ≠ [] := by
  unfold encodeVarint encodeVarintAux
  split_ifs <;> simp

/-! ### Records -/

/-- The content of a field. -/
inductive Field
  /-- A number of 64 bits. -/
  | varint (n : ℕ)
  /-- A word of 64 bits. -/
  | fixed64 (b : Bytes)
  /-- A byte string: text, bytes or a message. -/
  | bytes (b : Bytes)
  /-- A word of 32 bits. -/
  | fixed32 (b : Bytes)
  deriving DecidableEq

/-- A field number with its content. -/
structure Record where
  /-- The field number. -/
  number : ℕ
  /-- The content. -/
  field : Field
  deriving DecidableEq

/-- The code of the kind of content. -/
def Field.wireType : Field → ℕ
  | .varint _ => 0
  | .fixed64 _ => 1
  | .bytes _ => 2
  | .fixed32 _ => 5

/-- The bytes of the content. -/
def Field.encode : Field → Bytes
  | .varint n => encodeVarint n
  | .fixed64 b => b
  | .bytes b => encodeVarint b.length ++ b
  | .fixed32 b => b

/-- The bytes of a record. -/
def Record.encode (r : Record) : Bytes :=
  encodeVarint (8 * r.number + r.field.wireType) ++ r.field.encode

/-- The bytes of a message. -/
def encode (rs : List Record) : Bytes := rs.flatMap Record.encode

/-- The next `n` bytes. -/
def readBytes (n : ℕ) (bs : Bytes) : Option (Bytes × Bytes) :=
  if n ≤ bs.length then some (bs.take n, bs.drop n) else none

/-- Read the content of a field of this kind.  Byte strings of 2 GiB or more and groups are refused. -/
def Field.decode : ℕ → Bytes → Option (Field × Bytes)
  | 0, bs => (decodeVarint bs).map fun r => (.varint r.1, r.2)
  | 1, bs => (readBytes 8 bs).map fun r => (.fixed64 r.1, r.2)
  | 2, bs => (decodeVarint bs).bind fun r =>
    if r.1 < 2 ^ 31 then (readBytes r.1 r.2).map fun r => (.bytes r.1, r.2) else none
  | 5, bs => (readBytes 4 bs).map fun r => (.fixed32 r.1, r.2)
  | _, _ => none

/-- Read a record.  Field numbers are positive and have 29 bits. -/
def Record.decode (bs : Bytes) : Option (Record × Bytes) :=
  (decodeVarint bs).bind fun tag =>
    if 8 ≤ tag.1 ∧ tag.1 < 2 ^ 32 then
      (Field.decode (tag.1 % 8) tag.2).map fun r => (⟨tag.1 / 8, r.1⟩, r.2)
    else none

/-- Read records to the end, at most `fuel` of them. -/
def decodeAux : ℕ → Bytes → Option (List Record)
  | _, [] => some []
  | 0, _ :: _ => none
  | fuel + 1, b :: bs =>
    (Record.decode (b :: bs)).bind fun r => (decodeAux fuel r.2).map fun rs => r.1 :: rs

/-- Read a message. -/
def decode (bs : Bytes) : Option (List Record) := decodeAux bs.length bs

/-- The contents that can be written. -/
def Field.Valid : Field → Prop
  | .varint n => n < 2 ^ 64
  | .fixed64 b => b.length = 8
  | .bytes b => b.length < 2 ^ 31
  | .fixed32 b => b.length = 4

/-- The records that can be written. -/
def Record.Valid (r : Record) : Prop := 0 < r.number ∧ r.number < 2 ^ 29 ∧ r.field.Valid

variable {b : Bytes}

theorem readBytes_append (h : b.length = n) (rest : Bytes) :
    readBytes n (b ++ rest) = some (b, rest) := by
  rw [readBytes, if_pos (by simp [h]), List.take_left' h, List.drop_left' h]

theorem readBytes_eq_some (h : readBytes n bs = some (b, rest)) :
    b.length = n ∧ bs = b ++ rest := by
  unfold readBytes at h
  split_ifs at h with hle
  cases h
  refine ⟨?_, (List.take_append_drop n bs).symm⟩
  rw [List.length_take, min_eq_left hle]

variable {f : Field}

/-- So is a field. -/
theorem Field.decode_encode (h : f.Valid) (rest : Bytes) :
    Field.decode f.wireType (f.encode ++ rest) = some (f, rest) := by
  cases f with
  | varint n =>
    simp [Field.wireType, Field.encode, Field.decode, decodeVarint_encodeVarint h]
  | fixed64 b | fixed32 b =>
    simp [Field.wireType, Field.encode, Field.decode, readBytes_append h]
  | bytes b =>
    have hlt : b.length < 2 ^ 31 := h
    have hvarint := decodeVarint_encodeVarint (hlt.trans (by norm_num)) (b ++ rest)
    rw [Field.wireType, Field.encode, Field.decode, List.append_assoc, hvarint, bind_some,
      if_pos hlt, readBytes_append rfl, map_some]

theorem Field.wireType_lt (f : Field) : f.wireType < 8 := by
  cases f <;> simp [Field.wireType]

variable {r : Record}

/-- And a record. -/
theorem Record.decode_encode (h : r.Valid) (rest : Bytes) :
    Record.decode (r.encode ++ rest) = some (r, rest) := by
  obtain ⟨hpos, hlt, hfield⟩ := h
  have htype := r.field.wireType_lt
  have htag : 8 * r.number + r.field.wireType < 2 ^ 32 := by omega
  have hvarint := decodeVarint_encodeVarint (htag.trans (by norm_num)) (r.field.encode ++ rest)
  have hmod : (8 * r.number + r.field.wireType) % 8 = r.field.wireType := by omega
  have hdiv : (8 * r.number + r.field.wireType) / 8 = r.number := by omega
  rw [Record.decode, Record.encode, List.append_assoc, hvarint, bind_some,
    if_pos ⟨by omega, htag⟩, hmod, Field.decode_encode hfield, map_some, hdiv]

theorem Record.encode_ne_nil (r : Record) : r.encode ≠ [] := by
  simp [Record.encode, encodeVarint_ne_nil]

theorem decodeAux_encode : ∀ {rs : List Record} {fuel : ℕ}, (∀ r ∈ rs, r.Valid) →
    rs.length ≤ fuel → decodeAux fuel (encode rs) = some rs
  | [], fuel, _, _ => by
    cases fuel <;> rfl
  | r :: rs, fuel + 1, h, hfuel => by
    have hr := Record.decode_encode (h r List.mem_cons_self) (encode rs)
    have ih : decodeAux fuel (encode rs) = some rs :=
      decodeAux_encode (fun r hr => h r (List.mem_cons_of_mem _ hr))
        (Nat.le_of_succ_le_succ hfuel)
    have hcons : encode (r :: rs) = r.encode ++ encode rs := rfl
    obtain ⟨b, bs, hb⟩ : ∃ b bs, r.encode ++ encode rs = b :: bs :=
      List.exists_cons_of_ne_nil (by simp [r.encode_ne_nil])
    rw [hcons, hb, decodeAux, ← hb, hr, bind_some, ih, map_some]

theorem length_le_encode : ∀ rs : List Record, rs.length ≤ (encode rs).length
  | [] => le_rfl
  | r :: rs => by
    have hpos : 0 < r.encode.length := List.length_pos_of_ne_nil r.encode_ne_nil
    have ih := length_le_encode rs
    rw [encode, List.flatMap_cons, List.length_append, List.length_cons, ← encode]
    omega

variable {rs : List Record}

/-- A message of valid records is read back. -/
theorem decode_encode (h : ∀ r ∈ rs, r.Valid) : decode (encode rs) = some rs :=
  decodeAux_encode h (length_le_encode rs)

/-! ### Frames -/

/-- A byte string after its length in `w` bytes. -/
def frame (w : ℕ) (b : Bytes) : Bytes := leBytes w b.length ++ b

/-- Read a frame, and return what comes after it. -/
def readFrame (w : ℕ) (raw : Bytes) : Option (Bytes × Bytes) :=
  (readBytes w raw).bind fun r => readBytes (leValue r.1) r.2

theorem length_frame (w : ℕ) (b : Bytes) : (frame w b).length = w + b.length := by
  rw [frame, List.length_append, length_leBytes]

variable {w : ℕ}

/-- A frame is read back, and what follows it is left. -/
theorem readFrame_frame (h : b.length < 256 ^ w) (rest : Bytes) :
    readFrame w (frame w b ++ rest) = some (b, rest) := by
  rw [readFrame, frame, List.append_assoc, readBytes_append (length_leBytes w _), bind_some,
    leValue_leBytes w h, readBytes_append rfl]

/-- Part of a frame is part of the length, or the length and part of the bytes. -/
theorem take_frame (hn : n < (frame w b).length) : ((frame w b).take n).length < w ∨
      ∃ m < b.length, (frame w b).take n = leBytes w b.length ++ b.take m := by
  rw [length_frame] at hn
  by_cases hw : n < w
  · rw [List.length_take, length_frame]
    omega
  · right
    refine ⟨n - w, by omega, ?_⟩
    rw [frame, List.take_append, length_leBytes, List.take_of_length_le (by simp; omega)]

theorem readBytes_eq_none (h : bs.length < n) : readBytes n bs = none :=
  if_neg (by omega)

/-- Part of a frame is not read. -/
theorem readFrame_take (h : b.length < 256 ^ w)
    (hn : n < (frame w b).length) : readFrame w ((frame w b).take n) = none := by
  rcases take_frame hn with hshort | ⟨m, hm, heq⟩
  · rw [readFrame, readBytes_eq_none hshort, Option.bind_none]
  · rw [readFrame, heq, readBytes_append (length_leBytes w _), bind_some, leValue_leBytes w h]
    refine readBytes_eq_none ?_
    rw [List.length_take]
    omega

theorem readFrame_append {raw : Bytes} (h : readFrame w raw = some (b, rest))
    (more : Bytes) : readFrame w (raw ++ more) = some (b, rest ++ more) := by
  obtain ⟨⟨len, tail⟩, hlen, hb⟩ := bind_eq_some_iff.1 h
  obtain ⟨hlen', hsplit⟩ := readBytes_eq_some hlen
  dsimp only at hb
  obtain ⟨hb', hsplit'⟩ := readBytes_eq_some hb
  rw [hsplit, hsplit', List.append_assoc, List.append_assoc, readFrame, readBytes_append hlen',
    bind_some, readBytes_append hb']

/-! ### Writing at a position -/

/-- Bytes written at a position of a file.  Behind the end of the file there are zeros before them. -/
def writeAt (content : Bytes) (offset : ℕ) (data : Bytes) : Bytes :=
  content.take offset ++ List.replicate (offset - content.length) 0 ++ data ++
    content.drop (offset + data.length)

/-- Writing at the end appends. -/
theorem writeAt_length (content data : Bytes) :
    writeAt content content.length data = content ++ data := by
  have hdrop : content.drop (content.length + data.length) = [] :=
    List.drop_eq_nil_of_le (Nat.le_add_right _ _)
  rw [writeAt, List.take_length, Nat.sub_self, List.replicate_zero, List.append_nil, hdrop,
    List.append_nil]

/-! ### Byte strings inside a message -/

theorem length_encodeVarintAux_le : ∀ fuel n : ℕ, (encodeVarintAux fuel n).length ≤ fuel
  | 0, _ => le_rfl
  | fuel + 1, n => by
    unfold encodeVarintAux
    split_ifs
    · exact Nat.succ_le_succ (Nat.zero_le fuel)
    · exact Nat.succ_le_succ (length_encodeVarintAux_le fuel (n / 128))

theorem Record.length_encode_varint_le (number n : ℕ) :
    (Record.encode ⟨number, .varint n⟩).length ≤ 20 := by
  rw [Record.encode, List.length_append]
  exact Nat.add_le_add (length_encodeVarintAux_le 10 _) (length_encodeVarintAux_le 10 _)

theorem Record.length_encode_bytes_le (number : ℕ) (b : Bytes) :
    (Record.encode ⟨number, .bytes b⟩).length ≤ b.length + 20 := by
  have htag := length_encodeVarintAux_le 10 (8 * number + (Field.bytes b).wireType)
  have hlength := length_encodeVarintAux_le 10 b.length
  simp only [Record.encode, Field.encode, encodeVarint, List.length_append]
  omega

theorem length_encode_le (h : r ∈ rs) : r.encode.length ≤ (encode rs).length := by
  rw [encode, List.length_flatMap]
  exact List.le_sum_of_mem (List.mem_map_of_mem h)

theorem length_lt_encode_bytes (number : ℕ) (b : Bytes) :
    b.length < (Record.encode ⟨number, .bytes b⟩).length := by
  have hpos := List.length_pos_of_ne_nil (encodeVarint_ne_nil b.length)
  simp only [Record.encode, Field.encode, List.length_append]
  omega

/-- The content is no byte string, or one that is shorter than both bounds. -/
def Field.Within (bound : ℕ) : Field → Prop
  | .bytes b => b.length < bound ∧ b.length < 2 ^ 31
  | _ => True

theorem Field.Within.mono {m : ℕ} (h : f.Within m) (hmn : m ≤ n) : f.Within n := by
  cases f with
  | bytes b => exact ⟨h.1.trans_le hmn, h.2⟩
  | _ => trivial

theorem Field.decode_within {wireType : ℕ} (h : Field.decode wireType bs = some (f, rest)) :
    f.Within bs.length ∧ rest <:+ bs := by
  unfold Field.decode at h
  split at h
  · obtain ⟨r, hr, heq⟩ := map_eq_some_iff.1 h
    cases heq
    exact ⟨trivial, (suffix_of_decodeVarint hr).2⟩
  · obtain ⟨r, hr, heq⟩ := map_eq_some_iff.1 h
    cases heq
    exact ⟨trivial, _, (readBytes_eq_some hr).2.symm⟩
  · obtain ⟨len, hlen, h⟩ := bind_eq_some_iff.1 h
    split_ifs at h with hlt
    obtain ⟨r, hr, heq⟩ := map_eq_some_iff.1 h
    cases heq
    -- the length of the byte string stands before it and takes at least one byte
    obtain ⟨hsize, hsplit⟩ := readBytes_eq_some hr
    obtain ⟨hpos, hsuffix⟩ := suffix_of_decodeVarint hlen
    rw [hsplit, List.length_append] at hpos
    exact ⟨⟨by omega, hsize ▸ hlt⟩, List.IsSuffix.trans ⟨_, hsplit.symm⟩ hsuffix⟩
  · obtain ⟨r, hr, heq⟩ := map_eq_some_iff.1 h
    cases heq
    exact ⟨trivial, _, (readBytes_eq_some hr).2.symm⟩
  · cases h

/-- A field is not longer than what it was read from. -/
theorem Record.decode_within (h : Record.decode bs = some (r, rest)) :
    r.field.Within bs.length ∧ rest.length ≤ bs.length := by
  obtain ⟨tag, htag, h⟩ := bind_eq_some_iff.1 h
  split_ifs at h
  obtain ⟨f, hf, heq⟩ := map_eq_some_iff.1 h
  cases heq
  obtain ⟨hpos, -⟩ := suffix_of_decodeVarint htag
  obtain ⟨hwithin, hsuffix⟩ := Field.decode_within hf
  exact ⟨hwithin.mono hpos.le, hsuffix.length_le.trans hpos.le⟩

theorem decodeAux_within : ∀ {fuel : ℕ} {bs : Bytes} {rs : List Record},
    decodeAux fuel bs = some rs → ∀ r ∈ rs, r.field.Within bs.length
  | fuel, [], rs, h => by
    cases fuel <;> (cases h; simp)
  | fuel + 1, b :: bs, rs, h => by
    obtain ⟨r, hr, h⟩ := bind_eq_some_iff.1 h
    obtain ⟨rs', hrs, rfl⟩ := map_eq_some_iff.1 h
    obtain ⟨hwithin, hle⟩ := Record.decode_within hr
    intro r' hr'
    rcases List.mem_cons.1 hr' with rfl | hr'
    · exact hwithin
    · exact (decodeAux_within hrs r' hr').mono hle

theorem size_lt_of_decode (h : decode bs = some rs) (hr : r ∈ rs) : r.field.Within bs.length :=
  decodeAux_within h r hr

end Wire
