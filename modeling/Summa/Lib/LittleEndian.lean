import Mathlib.Tactic.Ring

/-!
# Little-endian bytes

`leBytes k n` is the `k`-byte little-endian encoding of `n`; `leNat` reads bytes back. A read of
`k` encoded bytes returns the value modulo `256 ^ k` (`leNat_leBytes`), so a value that fits is
read back exactly. `chunksExact8` splits a byte string into 64-bit words and inverts the
word-by-word encoding (`chunksExact8_flatMap`).
-/

namespace Summa

/-- The largest `u32`. -/
def u32Max : Nat := 2 ^ 32 - 1

/-- The largest `u64`. -/
def u64Max : Nat := 2 ^ 64 - 1

/-- A byte. -/
abbrev Byte := BitVec 8

/-- The `k` low bytes of `n`, the lowest first. -/
def leBytes : (k : Nat) → Nat → List Byte
  | 0, _ => []
  | k + 1, n => BitVec.ofNat 8 n :: leBytes k (n / 256)

/-- The number whose little-endian bytes are `bs`. -/
def leNat : List Byte → Nat
  | [] => 0
  | b :: bs => b.toNat + 256 * leNat bs

@[simp] theorem length_leBytes (k n : Nat) : (leBytes k n).length = k := by
  induction k generalizing n with
  | zero => rfl
  | succ k ih => simp [leBytes, ih]

theorem leBytes_zero (k : Nat) : leBytes k 0 = List.replicate k 0 := by
  induction k with
  | zero => rfl
  | succ k ih =>
    rw [leBytes, Nat.zero_div, ih, List.replicate_succ]
    rfl

theorem leNat_leBytes (k n : Nat) : leNat (leBytes k n) = n % 256 ^ k := by
  induction k generalizing n with
  | zero => simp [leBytes, leNat, Nat.mod_one]
  | succ k ih =>
    rw [leBytes, leNat, ih, BitVec.toNat_ofNat, Nat.pow_succ 256 k, Nat.mul_comm (256 ^ k),
      Nat.mod_mul]

theorem leNat_leBytes_of_lt {k n : Nat} (h : n < 256 ^ k) : leNat (leBytes k n) = n := by
  rw [leNat_leBytes, Nat.mod_eq_of_lt h]

theorem leNat_append (as bs : List Byte) : leNat (as ++ bs) = leNat as + 2 ^ (8 * as.length) * leNat bs := by
  induction as with
  | nil => simp [leNat]
  | cons a as ih =>
    rw [List.cons_append, leNat, leNat, ih, List.length_cons, Nat.mul_succ, Nat.pow_add]
    ring

theorem leNat_lt (bs : List Byte) : leNat bs < 2 ^ (8 * bs.length) := by
  induction bs with
  | nil => simp [leNat]
  | cons b bs ih =>
    rw [leNat, List.length_cons, Nat.mul_succ, Nat.pow_add]
    omega

/-- A `u64` as its eight bytes. -/
def wordBytes (w : BitVec 64) : List Byte := leBytes 8 w.toNat

/-- A `u64` from eight bytes. -/
def wordOfBytes (bs : List Byte) : BitVec 64 := BitVec.ofNat 64 (leNat bs)

@[simp] theorem length_wordBytes (w : BitVec 64) : (wordBytes w).length = 8 :=
  length_leBytes 8 _

@[simp] theorem wordOfBytes_wordBytes (w : BitVec 64) : wordOfBytes (wordBytes w) = w := by
  have h : w.toNat < 256 ^ 8 := lt_of_lt_of_eq w.isLt (by norm_num)
  rw [wordOfBytes, wordBytes, leNat_leBytes_of_lt h, BitVec.ofNat_toNat, BitVec.setWidth_eq]

/-- The 64-bit words of a byte string; a tail of fewer than eight bytes is dropped. -/
def chunksExact8 : List Byte → List (BitVec 64)
  | b₀ :: b₁ :: b₂ :: b₃ :: b₄ :: b₅ :: b₆ :: b₇ :: rest =>
    wordOfBytes [b₀, b₁, b₂, b₃, b₄, b₅, b₆, b₇] :: chunksExact8 rest
  | _ => []

theorem length_chunksExact8 (bs : List Byte) : (chunksExact8 bs).length = bs.length / 8 := by
  fun_induction chunksExact8 bs with
  | case1 b₀ b₁ b₂ b₃ b₄ b₅ b₆ b₇ rest ih => simp only [List.length_cons, ih]; omega
  | case2 bs hne =>
    -- fewer than eight bytes are left
    rcases bs with _ | ⟨b₀, _ | ⟨b₁, _ | ⟨b₂, _ | ⟨b₃, _ | ⟨b₄, _ | ⟨b₅, _ | ⟨b₆, _ | ⟨b₇, rest⟩⟩⟩⟩⟩⟩⟩⟩
    all_goals first | exact (hne _ _ _ _ _ _ _ _ _ rfl).elim | simp

theorem chunksExact8_append {bs : List Byte} (h : bs.length = 8) (rest : List Byte) :
    chunksExact8 (bs ++ rest) = wordOfBytes bs :: chunksExact8 rest := by
  match bs, h with
  | [_, _, _, _, _, _, _, _], _ => rfl

theorem chunksExact8_flatMap (ws : List (BitVec 64)) : chunksExact8 (ws.flatMap wordBytes) = ws := by
  induction ws with
  | nil => rfl
  | cons w ws ih =>
    rw [List.flatMap_cons, chunksExact8_append (length_wordBytes w), wordOfBytes_wordBytes, ih]

theorem length_flatMap_wordBytes (ws : List (BitVec 64)) : (ws.flatMap wordBytes).length = 8 * ws.length := by
  induction ws with
  | nil => rfl
  | cons w ws ih => simp [ih]; omega

end Summa
