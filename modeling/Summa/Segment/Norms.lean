import Summa.Lib.BinarySearch

/-!
# Byte norms (`segment/norms.rs`)

A length is stored as the code of the largest representative that is not above it.
-/

namespace Summa

/-- The length a code stands for: small ones exactly, then three mantissa bits. -/
def normDecode (code : Nat) : Nat :=
  if code < 24 then code
  else
    let value := code - 24
    let shift := value / 8
    let mantissa := value % 8
    24 + if shift = 0 then mantissa else (mantissa ||| 8) <<< (shift - 1)

/-- The last code whose representative is not above `length`. -/
def normEncode (length : Nat) : Nat := partitionPoint (fun code => normDecode code ≤ length) 0 256 - 1

theorem normDecode_mono : ∀ j < 256, ∀ i ≤ j, normDecode i ≤ normDecode j := by
  have hstep : ∀ i < 255, normDecode i ≤ normDecode (i + 1) := by decide +kernel
  intro j hj i hij
  induction j with
  | zero => exact Nat.le_of_eq (congrArg normDecode (Nat.le_zero.mp hij))
  | succ j ih =>
    rcases Nat.lt_or_eq_of_le hij with hlt | rfl
    · exact Nat.le_trans (ih (by omega) (by omega)) (hstep j (by omega))
    · exact Nat.le_refl _

theorem normEncode_spec (length : Nat) :
    normEncode length < 256 ∧ normDecode (normEncode length) ≤ length := by
  have hmono : ∀ i j, i ≤ j → j < 256 → decide (normDecode j ≤ length) = true →
      decide (normDecode i ≤ length) = true := by
    intro i j hij hj hp
    rw [decide_eq_true_iff] at hp ⊢
    exact Nat.le_trans (normDecode_mono j hj i hij) hp
  obtain ⟨a, hle, hbelow, habove⟩ := exists_splitsAt hmono
  -- the first representative is zero
  have hpos : 0 < a := by
    by_contra h0
    have := habove 0 (by omega) (by omega)
    simp [normDecode] at this
  rw [normEncode, partitionPoint_spec ⟨hle, hbelow, habove⟩]
  exact ⟨by omega, by simpa using hbelow (a - 1) (by omega)⟩

end Summa
