import Mathlib.Data.List.Lex
import Summa.Lib.LittleEndian

/-!
# Byte strings as keys

Byte strings are ordered as the source compares slices: byte by byte, a proper beginning first.

* `take_commonPrefixLen`: the shared beginning of two lists.
-/

namespace Summa

/-- Bit vectors in the order of their numbers. -/
instance instLinearOrderByte : LinearOrder Byte where
  le_refl a := BitVec.le_refl a
  le_trans a b c := BitVec.le_trans
  lt_iff_le_not_ge a b := by
    rw [BitVec.lt_def, BitVec.le_def, BitVec.le_def]
    omega
  le_antisymm a b hab hba := BitVec.le_antisymm hab hba
  le_total a b := BitVec.le_total a b
  toDecidableLE := inferInstance
  toDecidableLT := inferInstance
  toDecidableEq := inferInstance

abbrev Key := List Byte

section CommonPrefix

variable {α : Type} [DecidableEq α]

/-- Compute common prefix length. -/
def commonPrefixLen (a b : List α) : Nat := ((a.zip b).takeWhile fun p => p.1 = p.2).length

theorem commonPrefixLen_cons (x y : α) (a b : List α) :
    commonPrefixLen (x :: a) (y :: b) = if x = y then commonPrefixLen a b + 1 else 0 := by
  by_cases h : x = y <;> simp [commonPrefixLen, h]

theorem take_commonPrefixLen (a b : List α) :
    a.take (commonPrefixLen a b) = b.take (commonPrefixLen a b) := by
  induction a generalizing b with
  | nil => simp [commonPrefixLen]
  | cons x a ih =>
    cases b with
    | nil => simp [commonPrefixLen]
    | cons y b =>
      rw [commonPrefixLen_cons]
      split
      case isTrue h => rw [List.take_succ_cons, List.take_succ_cons, h, ih b]
      case isFalse h => rfl

theorem commonPrefixLen_le (a b : List α) : commonPrefixLen a b ≤ min a.length b.length := by
  rw [← List.length_zip]
  exact (List.takeWhile_prefix _).length_le

end CommonPrefix

end Summa
