import Summa.Lib.LittleEndian
import Mathlib.Data.Nat.Bitwise

/-!
# Bit streams

`BitWriter` packs numbers of given widths into bytes, the low bits first, through a buffer of 64 bits;
`readBits` reads them back. What a writer holds is one number (`contents`): a value written at bit
`position` adds `value * 2 ^ position` to it, without the bits of the value that the buffer has no room for
(`write_spec`). A read of `n` bits at a position gives that part of the number of the bytes (`readBits_eq`), so
that what was kept of packed fields is read back one after the other (`PackedAt.readBits`).
-/

namespace Summa

open List

structure BitWriter where
  output : List Byte
  buffer : Nat
  bitsInBuffer : Nat

namespace BitWriter

/-- A writer behind bytes that are there already is one that starts empty. -/
def empty : BitWriter := ⟨[], 0, 0⟩

/-- The loop that moves whole bytes from the buffer to the output. -/
def drain (output : List Byte) (buffer bitsInBuffer : Nat) : BitWriter :=
  if 8 ≤ bitsInBuffer then
    drain (output ++ [BitVec.ofNat 8 buffer]) (buffer / 256) (bitsInBuffer - 8)
  else ⟨output, buffer, bitsInBuffer⟩
  termination_by bitsInBuffer

variable (w : BitWriter)

/-- The shift drops what does not fit a `u64`. -/
def write (value numBits : Nat) : BitWriter :=
  drain w.output (w.buffer ||| value <<< w.bitsInBuffer % 2 ^ 64) (w.bitsInBuffer + numBits)

def flush : List Byte :=
  if 0 < w.bitsInBuffer then w.output ++ [BitVec.ofNat 8 w.buffer] else w.output

/-- All that was written, as one number. -/
def contents : Nat := leNat w.output + 2 ^ (8 * w.output.length) * w.buffer

/-- The number of bits that were written. -/
def position : Nat := 8 * w.output.length + w.bitsInBuffer

/-- Less than a byte is left, and nothing above it. -/
structure Ok : Prop where
  bits : w.bitsInBuffer < 8
  buffer : w.buffer < 2 ^ w.bitsInBuffer

theorem empty_ok : empty.Ok := ⟨Nat.zero_lt_succ 7, Nat.zero_lt_one⟩

end BitWriter

/-- Byte `i` of a number. -/
theorem toNat_getElem_eq_leNat {bs : List Byte} {i : Nat} (hi : i < bs.length) :
    bs[i].toNat = leNat bs / 2 ^ (8 * i) % 2 ^ 8 := by
  induction bs generalizing i with
  | nil => cases hi
  | cons b bs ih =>
    cases i with
    | zero =>
      rw [getElem_cons_zero, leNat, Nat.mul_zero, Nat.pow_zero, Nat.div_one]
      omega
    | succ i =>
      have hdiv : leNat (b :: bs) / 2 ^ 8 = leNat bs := by rw [leNat]; omega
      rw [getElem_cons_succ, ih (Nat.lt_of_succ_lt_succ hi), Nat.mul_succ, Nat.add_comm, Nat.pow_add,
        ← Nat.div_div_eq_div_mul, hdiv]

/-- Bit `j` of a number is a bit of byte `j / 8`. -/
theorem testBit_leNat (bs : List Byte) (j : Nat) :
    (leNat bs).testBit j = (bs.getD (j / 8) 0#8).toNat.testBit (j % 8) := by
  by_cases hj : j / 8 < bs.length
  · have hbit : j % 8 + 8 * (j / 8) = j := by omega
    rw [← getElem_eq_getD (h := hj), toNat_getElem_eq_leNat hj, Nat.testBit_mod_two_pow,
      decide_eq_true (Nat.mod_lt j (by decide)), Bool.true_and, Nat.testBit_div_two_pow, hbit]
  · have hlt : leNat bs < 2 ^ j :=
      (leNat_lt bs).trans_le (Nat.pow_le_pow_right (by decide) (by omega))
    rw [Nat.testBit_lt_two_pow hlt, getD_eq_default _ _ (by omega)]
    simp

namespace BitWriter

/-- Moving whole bytes changes neither the contents nor the position. -/
theorem drain_spec (output : List Byte) (buffer bits : Nat) (h : buffer < 2 ^ bits) :
    (drain output buffer bits).Ok ∧ (drain output buffer bits).contents = contents ⟨output, buffer, bits⟩ ∧
      (drain output buffer bits).position = 8 * output.length + bits := by
  fun_induction drain output buffer bits with
  | case1 output buffer bits hge ih =>
    have hlt : buffer / 256 < 2 ^ (bits - 8) := by
      rw [Nat.div_lt_iff_lt_mul (by decide), show 256 = 2 ^ 8 by decide, ← Nat.pow_add, Nat.sub_add_cancel hge]
      exact h
    obtain ⟨hok, hcontents, hposition⟩ := ih hlt
    refine ⟨hok, hcontents.trans ?_, hposition.trans ?_⟩
    · have hbyte : leNat [BitVec.ofNat 8 buffer] = buffer % 256 := by simp [leNat]
      rw [contents, contents, leNat_append, length_append, length_singleton, hbyte, Nat.mul_succ,
        Nat.pow_add, Nat.mul_assoc, Nat.add_assoc, ← Nat.mul_add]
      congr 2
      exact Nat.mod_add_div buffer 256
    · rw [length_append, length_singleton]
      omega
  | case2 output buffer bits hlt => exact ⟨⟨by simpa using hlt, h⟩, rfl, rfl⟩

variable {w : BitWriter} {value numBits : Nat}

/-- What a writer at bit `position` keeps of a value: less than a byte is in its buffer of 64 bits. -/
def kept (position value : Nat) : Nat := value % 2 ^ (64 - position % 8)

theorem kept_of_lt {position : Nat} (h : value < 2 ^ 57) : kept position value = value :=
  Nat.mod_eq_of_lt (h.trans_le (Nat.pow_le_pow_right (by decide) (by omega)))

theorem write_spec (hok : w.Ok) (hvalue : value < 2 ^ numBits) :
    (w.write value numBits).Ok ∧
      (w.write value numBits).contents = w.contents + kept w.position value * 2 ^ w.position ∧
      (w.write value numBits).position = w.position + numBits := by
  have hbits := hok.bits
  have hroom : w.position % 8 = w.bitsInBuffer := by rw [position]; omega
  -- the shift drops the upper bits
  have hmod : value <<< w.bitsInBuffer % 2 ^ 64 = kept w.position value <<< w.bitsInBuffer := by
    have hsplit : 2 ^ 64 = 2 ^ (64 - w.bitsInBuffer) * 2 ^ w.bitsInBuffer := by
      rw [← Nat.pow_add, Nat.sub_add_cancel (by omega)]
    rw [kept, hroom, Nat.shiftLeft_eq, Nat.shiftLeft_eq, hsplit, Nat.mul_mod_mul_right]
  have hkept : kept w.position value < 2 ^ numBits := (Nat.mod_le ..).trans_lt hvalue
  generalize kept w.position value = value at *
  have hshift : value <<< w.bitsInBuffer < 2 ^ (w.bitsInBuffer + numBits) := by
    rw [Nat.shiftLeft_eq, Nat.add_comm, Nat.pow_add]
    exact Nat.mul_lt_mul_of_pos_right hkept (Nat.two_pow_pos _)
  -- the new bits stand above those in the buffer
  have hor : w.buffer ||| value <<< w.bitsInBuffer = w.buffer + value * 2 ^ w.bitsInBuffer := by
    rw [Nat.or_comm, Nat.shiftLeft_eq, Nat.mul_comm, ← Nat.two_pow_add_eq_or_of_lt hok.buffer value, Nat.add_comm]
  have hlt : w.buffer + value * 2 ^ w.bitsInBuffer < 2 ^ (w.bitsInBuffer + numBits) := by
    rw [← hor]
    exact Nat.or_lt_two_pow (hok.buffer.trans_le (Nat.pow_le_pow_right (by decide) (Nat.le_add_right ..))) hshift
  rw [write, hmod, hor]
  obtain ⟨hok', hcontents, hposition⟩ := drain_spec w.output _ _ hlt
  refine ⟨hok', ?_, ?_⟩
  · rw [hcontents, contents, contents, position, Nat.pow_add]
    ring
  · rw [hposition, position, Nat.add_assoc]

theorem flush_spec (hok : w.Ok) : leNat w.flush = w.contents ∧ w.flush.length = (w.position + 7) / 8 := by
  have hbits := hok.bits
  have hbuffer := hok.buffer
  rw [flush, contents, position]
  split
  case isTrue h =>
    have hlt : w.buffer < 256 := hbuffer.trans_le (Nat.pow_le_pow_right (by decide) hbits.le)
    refine ⟨?_, ?_⟩
    · rw [leNat_append]
      simp [leNat, Nat.mod_eq_of_lt hlt]
    · rw [length_append, length_singleton]
      omega
  case isFalse h =>
    obtain h0 : w.bitsInBuffer = 0 := by omega
    rw [h0] at hbuffer ⊢
    refine ⟨?_, by omega⟩
    rw [show w.buffer = 0 by omega, Nat.mul_zero, Nat.add_zero]

end BitWriter

/-- Values of given widths as one number, the first lowest. -/
def packNat : List (Nat × Nat) → Nat
  | [] => 0
  | (value, numBits) :: fields => value + 2 ^ numBits * packNat fields

variable (fields : List (Nat × Nat))

/-- The bits of all fields. -/
def packWidth : Nat := (fields.map (·.2)).sum

/-- Each value fits its width. -/
def FieldsFitBits : Prop := ∀ f ∈ fields, f.1 < 2 ^ f.2

open BitWriter

/-- The fields with what a writer at bit `position` keeps of them. -/
def keptFields : (position : Nat) → List (Nat × Nat) → List (Nat × Nat)
  | _, [] => []
  | position, (value, numBits) :: fields =>
    (kept position value, numBits) :: keptFields (position + numBits) fields

theorem packWidth_keptFields (position : Nat) : packWidth (keptFields position fields) = packWidth fields := by
  induction fields generalizing position with
  | nil => rfl
  | cons f fields ih => exact congrArg (f.2 + ·) (ih (position + f.2))

/-- Write all fields. -/
def packBits : List Byte :=
  (fields.foldl (fun w f => w.write f.1 f.2) empty).flush

variable {fields : List (Nat × Nat)}

theorem BitWriter.foldl_write_spec (hfit : FieldsFitBits fields) {w : BitWriter} (hok : w.Ok) :
    (fields.foldl (fun w f => w.write f.1 f.2) w).Ok ∧
      (fields.foldl (fun w f => w.write f.1 f.2) w).contents =
        w.contents + packNat (keptFields w.position fields) * 2 ^ w.position ∧
      (fields.foldl (fun w f => w.write f.1 f.2) w).position = w.position + packWidth fields := by
  induction fields generalizing w with
  | nil => exact ⟨hok, by simp [keptFields, packNat], by simp [packWidth]⟩
  | cons f fields ih =>
    obtain ⟨hf, hfields⟩ := forall_mem_cons.mp hfit
    obtain ⟨hok₁, hcontents₁, hposition₁⟩ := write_spec hok hf
    obtain ⟨hok', hcontents, hposition⟩ := ih hfields hok₁
    refine ⟨hok', ?_, ?_⟩
    · rw [foldl_cons, hcontents, hcontents₁, hposition₁, keptFields, packNat, Nat.pow_add]
      ring
    · rw [foldl_cons, hposition, hposition₁, packWidth, packWidth, map_cons, sum_cons,
        Nat.add_assoc]

/-- The written bytes hold the number of what was kept of the fields. -/
theorem packBits_spec (hfit : FieldsFitBits fields) :
    leNat (packBits fields) = packNat (keptFields 0 fields) ∧
      (packBits fields).length = (packWidth fields + 7) / 8 := by
  obtain ⟨hok, hcontents, hposition⟩ := foldl_write_spec hfit empty_ok
  obtain ⟨hbytes, hlength⟩ := flush_spec hok
  refine ⟨?_, ?_⟩
  · rw [packBits, hbytes, hcontents]
    simp [contents, position, empty, leNat]
  · rw [packBits, hlength, hposition]
    simp [position, empty]

/-- The loop of `read`; `byte_pos` and `bit_pos` are the quotient and the remainder of the position by 8. The
parts do not overlap, so that `|=` adds. -/
def readBitsLoop (data : List Byte) (numBits bitsRead result position : Nat) : Option (Nat × Nat) :=
  if bitsRead < numBits then
    match data[position / 8]? with
    | none => none
    | some byte =>
      let bitsToRead := min (numBits - bitsRead) (8 - position % 8)
      let bits := byte.toNat >>> (position % 8) % 2 ^ bitsToRead
      readBitsLoop data numBits (bitsRead + bitsToRead) (result + bits <<< bitsRead) (position + bitsToRead)
  else some (result, position)
  termination_by numBits - bitsRead
  decreasing_by omega

/-- The number of the next `numBits` bits and the position behind them. -/
def readBits (data : List Byte) (position numBits : Nat) : Option (Nat × Nat) :=
  readBitsLoop data numBits 0 0 position

theorem readBitsLoop_eq (data : List Byte) (numBits bitsRead result position : Nat)
    (hle : bitsRead ≤ numBits) (h : position + (numBits - bitsRead) ≤ 8 * data.length) :
    readBitsLoop data numBits bitsRead result position =
      some (result + leNat data / 2 ^ position % 2 ^ (numBits - bitsRead) * 2 ^ bitsRead,
        position + (numBits - bitsRead)) := by
  fun_induction readBitsLoop data numBits bitsRead result position with
  | case1 bitsRead result position hlt hnone =>
    have := getElem?_eq_none_iff.mp hnone
    omega
  | case2 bitsRead result position hlt byte hbyte bitsToRead bits ih =>
    obtain ⟨hi, rfl⟩ := List.getElem?_eq_some_iff.mp hbyte
    rw [ih (by omega) (by omega)]
    -- the bits of this byte are the lowest of those that are still to be read
    have hbits : bits = leNat data / 2 ^ position % 2 ^ bitsToRead := by
      have hpos : 2 ^ position = 2 ^ (8 * (position / 8)) * 2 ^ (position % 8) := by
        rw [← Nat.pow_add, Nat.div_add_mod]
      rw [show bits = data[position / 8].toNat >>> (position % 8) % 2 ^ bitsToRead from rfl,
        toNat_getElem_eq_leNat hi, hpos, ← Nat.div_div_eq_div_mul]
      apply Nat.eq_of_testBit_eq
      intro j
      simp only [Nat.testBit_mod_two_pow, Nat.testBit_shiftRight, Nat.testBit_div_two_pow]
      by_cases hj : j < bitsToRead
      · rw [decide_eq_true hj, decide_eq_true (show position % 8 + j < 8 by omega)]
        simp [Nat.add_comm]
      · rw [decide_eq_false hj]
        simp
    have hsplit : numBits - bitsRead = bitsToRead + (numBits - (bitsRead + bitsToRead)) := by omega
    rw [hbits, Nat.shiftLeft_eq, hsplit, Nat.pow_add 2 bitsToRead, Nat.mod_mul, Nat.div_div_eq_div_mul,
      ← Nat.pow_add 2 position]
    refine congrArg some (Prod.ext ?_ ?_)
    · ring
    · omega
  | case3 bitsRead result position hge =>
    obtain rfl : bitsRead = numBits := by omega
    simp [Nat.mod_one]

/-- A position of packed bytes from which `fields` are still to be read. -/
structure PackedAt (data : List Byte) (position : Nat) (fields : List (Nat × Nat)) : Prop where
  rest : leNat data / 2 ^ position = packNat fields
  width : position + packWidth fields ≤ 8 * data.length

/-- Bits that are there are read. -/
theorem readBits_eq {data : List Byte} {position numBits : Nat} (h : position + numBits ≤ 8 * data.length) :
    readBits data position numBits = some (leNat data / 2 ^ position % 2 ^ numBits, position + numBits) := by
  rw [readBits, readBitsLoop_eq data numBits 0 0 position (Nat.zero_le _) h]
  simp

theorem packedAt_packBits (hfit : FieldsFitBits fields) :
    PackedAt (packBits fields) 0 (keptFields 0 fields) := by
  obtain ⟨hnat, hlength⟩ := packBits_spec hfit
  exact ⟨by rw [hnat, Nat.pow_zero, Nat.div_one], by rw [hlength, packWidth_keptFields]; omega⟩

/-- The next field is read, and the others are left. -/
theorem PackedAt.readBits {data : List Byte} {position value numBits : Nat}
    (h : PackedAt data position ((value, numBits) :: fields)) (hvalue : value < 2 ^ numBits) :
    readBits data position numBits = some (value, position + numBits) ∧
      PackedAt data (position + numBits) fields := by
  have hwidth : packWidth ((value, numBits) :: fields) = numBits + packWidth fields := sum_cons ..
  have hle := h.width
  have hrest := h.rest
  rw [packNat] at hrest
  refine ⟨?_, ?_, by omega⟩
  · rw [readBits_eq (by omega), hrest, Nat.add_mul_mod_self_left, Nat.mod_eq_of_lt hvalue]
  · rw [Nat.pow_add, ← Nat.div_div_eq_div_mul, hrest, Nat.add_mul_div_left _ _ (Nat.two_pow_pos _),
      Nat.div_eq_of_lt hvalue, Nat.zero_add]

end Summa
