import Summa.Lib.BitStream
import Summa.Lib.ByteColumn
import Mathlib.Data.List.Induction

/-!
# Bit packing of fast fields (`structures/fast_field/mod.rs`)

`bitpackWrite` packs numbers of one width, `bitpackRead` reads the number at an index: with one load of eight
bytes where they are there, else byte by byte.

Both are described by the number of the bytes. A read gives the `width` bits at `index * width` (`fieldAt`,
`bitpackRead_eq`) whatever way it takes, and the written bytes hold each value there (`fieldAt_bitpackWrite`).
-/

namespace Summa.FastField

open List Nat

/-- Add the `remaining` low bits of `v` at a bit position, a byte at a time. The byte and the bit in it are the
quotient and the remainder of the position by 8. -/
def packValue (buf : List Byte) (v remaining position : Nat) : List Byte :=
  if 0 < remaining then
    let canWrite := min (8 - position % 8) remaining
    packValue (buf.modify (position / 8) (· ||| BitVec.ofNat 8 ((v &&& 2 ^ canWrite - 1) <<< (position % 8))))
      (v >>> canWrite) (remaining - canWrite) (position + canWrite)
  else buf
  termination_by remaining
  decreasing_by omega

/-- Pack `values` at `bitsPerValue` bits each. -/
def bitpackWrite (values : List Nat) (bitsPerValue : Nat) : List Byte :=
  if bitsPerValue = 0 then []
  else
    values.zipIdx.foldl (fun buf v => packValue buf v.1 bitsPerValue (v.2 * bitsPerValue))
      (replicate ((values.length * bitsPerValue + 7) / 8) 0#8)

/-- The slow path of a read; bytes behind the end count as zero. -/
def bitpackReadLoop (data : List Byte) (remaining position outShift result : Nat) : Nat :=
  if 0 < remaining then
    let canRead := min (8 - position % 8) remaining
    let byteVal := (data.getD (position / 8) 0#8).toNat
    bitpackReadLoop data (remaining - canRead) (position + canRead) (outShift + canRead)
      (result ||| (byteVal >>> (position % 8) &&& 2 ^ canRead - 1) <<< outShift)
  else result
  termination_by remaining
  decreasing_by omega

/-- Read the value at `index` from bit-packed data. -/
def bitpackRead (data : List Byte) (bitsPerValue index : Nat) : Nat :=
  if bitsPerValue = 0 then 0
  else
    let bitOffset := index * bitsPerValue
    if bitOffset % 8 + bitsPerValue ≤ 64 ∧ bitOffset / 8 + 8 ≤ data.length then
      let raw := readLe 8 data (bitOffset / 8)
      let mask := if 64 ≤ bitsPerValue then u64Max else 2 ^ bitsPerValue - 1
      raw >>> (bitOffset % 8) &&& mask
    else bitpackReadLoop data bitsPerValue bitOffset 0 0

/-- The `width` bits at `index * width`. -/
def fieldAt (data : List Byte) (width index : Nat) : Nat := leNat data / 2 ^ (index * width) % 2 ^ width

theorem testBit_fieldAt (data : List Byte) (width index j : Nat) :
    (fieldAt data width index).testBit j = (decide (j < width) && (leNat data).testBit (j + index * width)) := by
  rw [fieldAt, testBit_mod_two_pow, testBit_div_two_pow]

@[simp] theorem fieldAt_zero (data : List Byte) (index : Nat) : fieldAt data 0 index = 0 := mod_one _

/-- A field that lies in the first part of the data. -/
theorem fieldAt_append {data : List Byte} {width index : Nat} (h : (index + 1) * width ≤ 8 * data.length)
    (rest : List Byte) : fieldAt (data ++ rest) width index = fieldAt data width index := by
  apply eq_of_testBit_eq
  intro j
  rw [testBit_fieldAt, testBit_fieldAt]
  by_cases hj : j < width
  · have hat : (j + index * width) / 8 < data.length := by
      rw [succ_mul] at h
      omega
    rw [testBit_leNat, testBit_leNat, getD_append _ _ _ _ hat]
  · rw [decide_eq_false hj, Bool.false_and, Bool.false_and]

section Read

variable {data : List Byte}

/-- Bit `j` of the result is a bit that was there or one that is still to be read. -/
theorem testBit_bitpackReadLoop (remaining position outShift result j : Nat) :
    (bitpackReadLoop data remaining position outShift result).testBit j =
      (result.testBit j || (decide (outShift ≤ j ∧ j < outShift + remaining) &&
        (leNat data).testBit (position + (j - outShift)))) := by
  fun_induction bitpackReadLoop data remaining position outShift result with
  | case1 remaining position outShift result hpos canRead byteVal ih =>
    rw [ih, testBit_or, testBit_shiftLeft, and_two_pow_sub_one_eq_mod, testBit_mod_two_pow,
      testBit_shiftRight]
    by_cases hnow : outShift ≤ j ∧ j < outShift + canRead
    · -- a bit of this byte
      have hat : (position + (j - outShift)) / 8 = position / 8 ∧
          (position + (j - outShift)) % 8 = position % 8 + (j - outShift) := by omega
      rw [decide_eq_true hnow.1, decide_eq_true (show j - outShift < canRead by omega),
        decide_eq_true (show outShift ≤ j ∧ j < outShift + remaining by omega),
        decide_eq_false (show ¬(outShift + canRead ≤ j ∧ _) by omega), Bool.false_and, Bool.or_false,
        Bool.true_and, Bool.true_and, Bool.true_and, testBit_leNat, hat.1, hat.2]
    · have hthis : (decide (j ≥ outShift) && (decide (j - outShift < canRead) &&
          byteVal.testBit (position % 8 + (j - outShift)))) = false := by
        rw [← Bool.and_assoc, ← Bool.decide_and, decide_eq_false (by omega), Bool.false_and]
      have hlater : (outShift + canRead ≤ j ∧ j < outShift + canRead + (remaining - canRead)) ↔
          (outShift ≤ j ∧ j < outShift + remaining) := by omega
      rw [hthis, Bool.or_false, decide_eq_decide.mpr hlater]
      by_cases hj : outShift ≤ j ∧ j < outShift + remaining
      · rw [show position + canRead + (j - (outShift + canRead)) = position + (j - outShift) by omega]
      · rw [decide_eq_false hj, Bool.false_and, Bool.false_and]
  | case2 remaining position outShift result hzero =>
    rw [decide_eq_false (by omega), Bool.false_and, Bool.or_false]

theorem testBit_readLe (start : Nat) {w j : Nat} (hj : j < 8 * w) :
    (readLe w data start).testBit j = (leNat data).testBit (8 * start + j) := by
  have hat : (8 * start + j) / 8 = start + j / 8 ∧ (8 * start + j) % 8 = j % 8 := by omega
  rw [readLe, testBit_leNat, testBit_leNat, hat.1, hat.2, sliceBytes]
  simp [getD_eq_getElem?_getD, getElem?_drop, show j / 8 < w by omega]

/-- Both ways of reading give the field. -/
theorem bitpackRead_eq {width : Nat} (hwidth : width ≤ 64) (index : Nat) :
    bitpackRead data width index = fieldAt data width index := by
  rw [bitpackRead]
  split
  case isTrue hzero => rw [hzero, fieldAt_zero]
  case isFalse hpos =>
    dsimp only
    have hmask : (if 64 ≤ width then u64Max else 2 ^ width - 1) = 2 ^ width - 1 := by
      split
      · rw [show width = 64 by omega]
        rfl
      · rfl
    apply eq_of_testBit_eq
    intro j
    rw [hmask]
    split
    case isTrue hfast =>
      rw [and_two_pow_sub_one_eq_mod, testBit_mod_two_pow, testBit_shiftRight, testBit_fieldAt]
      by_cases hj : j < width
      · rw [testBit_readLe _ (by omega),
          show 8 * (index * width / 8) + (index * width % 8 + j) = j + index * width by omega]
      · rw [decide_eq_false hj, Bool.false_and, Bool.false_and]
    case isFalse hslow =>
      rw [testBit_bitpackReadLoop, testBit_fieldAt, Nat.zero_testBit, Bool.false_or, Nat.sub_zero, Nat.zero_add,
        add_comm]
      simp

end Read

section Write

/-- The bits of `v` are added at the position, the others stay. -/
theorem testBit_packValue {buf : List Byte} {v remaining position : Nat}
    (hfits : position + remaining ≤ 8 * buf.length) (j : Nat) :
    (leNat (packValue buf v remaining position)).testBit j = ((leNat buf).testBit j ||
      (decide (position ≤ j ∧ j < position + remaining) && v.testBit (j - position))) := by
  fun_induction packValue buf v remaining position with
  | case1 buf v remaining position hpos canWrite ih =>
    rw [ih (by rw [length_modify]; omega), testBit_leNat, testBit_leNat buf j]
    -- the byte of bit `j` after this step
    have hstep : ((buf.modify (position / 8)
        (· ||| BitVec.ofNat 8 ((v &&& 2 ^ canWrite - 1) <<< (position % 8)))).getD (j / 8) 0#8).toNat.testBit (j % 8) =
        ((buf.getD (j / 8) 0#8).toNat.testBit (j % 8) ||
          (decide (position ≤ j ∧ j < position + canWrite) && v.testBit (j - position))) := by
      rw [getD_eq_getElem?_getD, getD_eq_getElem?_getD, getElem?_modify]
      by_cases hj : position / 8 = j / 8
      · have hin : j / 8 < buf.length := by omega
        rw [getElem?_eq_getElem hin, Option.map_eq_map, Option.map_some, if_pos hj, Option.getD_some,
          Option.getD_some, BitVec.toNat_or, testBit_or, BitVec.toNat_ofNat, testBit_mod_two_pow,
          testBit_shiftLeft, and_two_pow_sub_one_eq_mod, testBit_mod_two_pow,
          decide_eq_true (show j % 8 < 8 by omega), Bool.true_and, ← Bool.and_assoc, ← Bool.decide_and]
        by_cases hin : position ≤ j ∧ j < position + canWrite
        · rw [decide_eq_true hin, decide_eq_true (by omega), show j % 8 - position % 8 = j - position by omega]
        · rw [decide_eq_false hin, decide_eq_false (by omega), Bool.false_and, Bool.false_and]
      · rw [decide_eq_false (show ¬(position ≤ j ∧ j < position + canWrite) by omega)]
        simp [hj]
    rw [hstep, Bool.or_assoc]
    congr 1
    rw [testBit_shiftRight]
    by_cases hnow : position ≤ j ∧ j < position + canWrite
    · rw [decide_eq_true hnow, decide_eq_true (show position ≤ j ∧ j < position + remaining by omega),
        decide_eq_false (by omega), Bool.false_and, Bool.or_false]
    · have hlater : (position + canWrite ≤ j ∧ j < position + canWrite + (remaining - canWrite)) ↔
          (position ≤ j ∧ j < position + remaining) := by omega
      rw [decide_eq_false hnow, Bool.false_and, Bool.false_or, decide_eq_decide.mpr hlater]
      by_cases hj : position ≤ j ∧ j < position + remaining
      · rw [show canWrite + (j - (position + canWrite)) = j - position by omega]
      · rw [decide_eq_false hj, Bool.false_and, Bool.false_and]
  | case2 buf v remaining position hzero =>
    rw [decide_eq_false (by omega), Bool.false_and, Bool.or_false]

@[simp] theorem length_packValue (buf : List Byte) (v remaining position : Nat) :
    (packValue buf v remaining position).length = buf.length := by
  fun_induction packValue buf v remaining position with
  | case1 buf v remaining position hpos canWrite ih => rw [ih, length_modify]
  | case2 => rfl

variable {width : Nat}

/-- The bytes after some of the values: the bits of those values. -/
theorem testBit_foldl_packValue (hwidth : 0 < width) (values : List Nat) {buf : List Byte}
    (hzero : ∀ j, (leNat buf).testBit j = false) (hfits : values.length * width ≤ 8 * buf.length) (j : Nat) :
    (leNat (values.zipIdx.foldl (fun buf v => packValue buf v.1 width (v.2 * width)) buf)).testBit j =
      (values.getD (j / width) 0).testBit (j % width) ∧
    (values.zipIdx.foldl (fun buf v => packValue buf v.1 width (v.2 * width)) buf).length = buf.length := by
  induction values using reverseRecOn generalizing j with
  | nil => exact ⟨by simp [hzero], rfl⟩
  | append_singleton values v ih =>
    rw [length_append, length_singleton, succ_mul] at hfits
    have ih := ih (by omega)
    rw [zipIdx_append, foldl_append, zipIdx_singleton, foldl_cons, foldl_nil,
      zero_add]
    dsimp only
    refine ⟨?_, by rw [length_packValue, (ih j).2]⟩
    rw [testBit_packValue (by rw [(ih j).2]; omega), (ih j).1]
    have hmod := mod_lt j hwidth
    have hdiv := div_add_mod j width
    rcases lt_trichotomy (j / width) values.length with hlt | heq | hgt
    · -- a bit of an earlier value
      have hbelow : j < values.length * width := (div_lt_iff_lt_mul hwidth).mp hlt
      rw [decide_eq_false (by omega), Bool.false_and, Bool.or_false, getD_append _ _ _ _ hlt]
    · have hstart : values.length * width = width * (j / width) := by rw [heq, mul_comm]
      have hbit : j - values.length * width = j % width := by omega
      rw [getD_eq_default _ _ heq.ge, zero_testBit, Bool.false_or, decide_eq_true (by omega),
        Bool.true_and, hbit, getD_append_right _ _ _ _ heq.ge, heq, Nat.sub_self]
      rfl
    · have habove : (values.length + 1) * width ≤ j := (le_div_iff_mul_le hwidth).mp hgt
      rw [succ_mul] at habove
      rw [getD_eq_default _ _ hgt.le, decide_eq_false (by omega), Bool.false_and, Bool.or_false,
        getD_eq_default _ _ (by rw [length_append]; exact hgt)]

theorem length_bitpackWrite (values : List Nat) (width : Nat) :
    (bitpackWrite values width).length = (values.length * width + 7) / 8 := by
  rw [bitpackWrite]
  split
  case isTrue hzero => simp [hzero]
  case isFalse hpos =>
    rw [(testBit_foldl_packValue (pos_of_ne_zero hpos) values (by simp [testBit_leNat])
      (by rw [length_replicate]; omega) 0).2, length_replicate]

/-- Each value is where a read looks for it. -/
theorem fieldAt_bitpackWrite {values : List Nat} {i : Nat} (hi : i < values.length) (hfit : values[i] < 2 ^ width) :
    fieldAt (bitpackWrite values width) width i = values[i] := by
  rcases Nat.eq_zero_or_pos width with rfl | hwidth
  · rw [fieldAt_zero]
    omega
  apply eq_of_testBit_eq
  intro j
  rw [testBit_fieldAt, bitpackWrite, if_neg hwidth.ne', (testBit_foldl_packValue hwidth values
    (by simp [testBit_leNat]) (by rw [length_replicate]; omega) _).1]
  by_cases hj : j < width
  · rw [decide_eq_true hj, Bool.true_and, add_mul_div_right _ _ hwidth, div_eq_of_lt hj, zero_add,
      add_mul_mod_self_right, mod_eq_of_lt hj, getD_eq_getElem _ _ hi]
  · rw [decide_eq_false hj, Bool.false_and,
      Nat.testBit_lt_two_pow (hfit.trans_le (Nat.pow_le_pow_right (by decide) (by omega)))]

end Write

end Summa.FastField
