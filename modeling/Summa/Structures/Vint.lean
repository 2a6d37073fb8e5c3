import Summa.Lib.LittleEndian

/-!
# Variable-length integers (`structures/vint.rs`)

A `u64` in groups of seven bits, the lowest group first; every byte but the last has its high bit set.

* `readVint_writeVint`: reading what was written gives the value and what stands behind it.
-/

namespace Summa

/-- The loop of `write_vint`, for a value of at most `groups` groups. -/
def writeGroups : (groups : Nat) → (value : Nat) → List Byte
  | 0, _ => []
  | groups + 1, value =>
    if value / 128 = 0 then [BitVec.ofNat 8 (value % 128)]
    else BitVec.ofNat 8 (value % 128 + 128) :: writeGroups groups (value / 128)

/-- `write_vint`; a `u64` has at most ten groups. -/
def writeVint (value : Nat) : List Byte := writeGroups 10 value

/-- The loop of `read_vint`. The groups do not overlap, so that `|=` adds. -/
def readGroups (result shift : Nat) : List Byte → Option (Nat × List Byte)
  | [] => none
  | byte :: rest =>
    -- the tenth group has one bit
    if shift = 63 ∧ 1 < byte.toNat then none
    else if byte.toNat < 128 then some (result + byte.toNat % 128 * 2 ^ shift, rest)
    else if 64 ≤ shift + 7 then none
    else readGroups (result + byte.toNat % 128 * 2 ^ shift) (shift + 7) rest

def readVint (bytes : List Byte) : Option (Nat × List Byte) := readGroups 0 0 bytes

theorem readGroups_suffix {result shift value : Nat} {bytes rest : List Byte}
    (h : readGroups result shift bytes = some (value, rest)) : rest <:+ bytes := by
  fun_induction readGroups result shift bytes with
  | case1 => cases h
  | case2 => cases h
  | case3 =>
    cases h
    exact List.suffix_cons ..
  | case4 => cases h
  | case5 _ _ _ _ _ _ _ ih => exact (ih h).trans (List.suffix_cons ..)

/-- The last group of a value. -/
theorem readGroups_last {value shift : Nat} (h : value < 128) (hlast : shift = 63 → value ≤ 1)
    (result : Nat) (rest : List Byte) :
    readGroups result shift (BitVec.ofNat 8 value :: rest) = some (result + value * 2 ^ shift, rest) := by
  have hbyte : (BitVec.ofNat 8 value).toNat = value := by
    rw [BitVec.toNat_ofNat]
    omega
  rw [readGroups, hbyte, if_neg (by omega), if_pos h, Nat.mod_eq_of_lt h]

theorem readGroups_writeGroups (groups k : Nat) (hk : groups + 1 + k = 10) {value : Nat}
    (hlt : value * 2 ^ (7 * k) < 2 ^ 64) (result : Nat) (rest : List Byte) :
    readGroups result (7 * k) (writeGroups (groups + 1) value ++ rest) =
      some (result + value * 2 ^ (7 * k), rest) := by
  have hlast : 7 * k = 63 → value ≤ 1 := by
    intro h
    rw [h] at hlt
    omega
  induction groups generalizing k value result with
  | zero =>
    obtain rfl : k = 9 := by omega
    rw [writeGroups, if_pos (by omega), Nat.mod_eq_of_lt (by omega)]
    exact readGroups_last (by omega) hlast result rest
  | succ groups ih =>
    rw [writeGroups]
    split
    case isTrue hdiv =>
      have hsmall : value < 128 := by omega
      rw [Nat.mod_eq_of_lt hsmall]
      exact readGroups_last hsmall hlast result rest
    case isFalse hdiv =>
      have hbyte : (BitVec.ofNat 8 (value % 128 + 128)).toNat = value % 128 + 128 := by
        rw [BitVec.toNat_ofNat]
        omega
      have hlow : (value % 128 + 128) % 128 = value % 128 := by omega
      have hpow : 2 ^ (7 * (k + 1)) = 128 * 2 ^ (7 * k) := by
        rw [Nat.mul_add, Nat.pow_add, Nat.mul_comm]
      -- the low group and the groups above it make up the value
      have hsum : value % 128 * 2 ^ (7 * k) + value / 128 * 2 ^ (7 * (k + 1)) = value * 2 ^ (7 * k) := by
        rw [hpow, ← Nat.mul_assoc, ← Nat.add_mul, Nat.mul_comm (value / 128), Nat.mod_add_div]
      have hhigh : value / 128 * 2 ^ (7 * (k + 1)) < 2 ^ 64 := by omega
      have hlast' : 7 * (k + 1) = 63 → value / 128 ≤ 1 := by
        intro h
        rw [h] at hhigh
        omega
      simp only [List.cons_append, readGroups, hbyte, hlow]
      rw [if_neg (by omega), if_neg (by omega), if_neg (by omega),
        show 7 * k + 7 = 7 * (k + 1) by omega, ih (k + 1) (by omega) hhigh _ hlast', Nat.add_assoc, hsum]

/-- Reading what was written gives the value and leaves the bytes behind it. -/
theorem readVint_writeVint {value : Nat} (h : value < 2 ^ 64) (rest : List Byte) :
    readVint (writeVint value ++ rest) = some (value, rest) := by
  have := readGroups_writeGroups 9 0 rfl (by simpa using h) 0 rest
  simpa [readVint, writeVint] using this

end Summa
