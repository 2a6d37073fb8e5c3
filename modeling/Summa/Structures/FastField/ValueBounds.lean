import Summa.Structures.FastField.CodecWrite

/-!
# Bounds of a fast-field payload (`structures/fast_field/codec.rs`)

`valueBounds` takes an interval from the header of a payload; range queries skip blocks by it. A payload that
`validateAuto` accepts is read without a panic, and the values that are read lie in the interval
(`validated_reads`).
-/

namespace Summa.FastField

open List Payload

/-- The largest number of `bits` bits; the subtraction overflows for more than 64. -/
def widthMax (bits : Nat) : Option Nat :=
  if 64 < bits then none
  -- `checked_shr` by 64 has no result
  else some (if 64 - bits < 64 then u64Max >>> (64 - bits) else 0)

/-- `u64::try_from` of an `i128`. -/
def toU64? (z : Int) : Option Nat := if 0 ≤ z ∧ z ≤ u64Max then some z.toNat else none

/-- Conservative raw-value interval derived only from an admitted codec header, if there is one; no result at all
is a panic. -/
def valueBounds : List Byte → Option (Option (Nat × Nat))
  | [] => some none
  | tag :: data =>
    match CodecType.fromU8 tag with
    | none => some none
    | some .constant => do
      let value ← readLe? 8 data 0
      some (some (value, value))
    | some .bitpacked => do
      let min ← readLe? 8 data 0
      let bpv ← readLe? 1 data 8
      let width ← widthMax bpv
      some (if min + width ≤ u64Max then some (min, min + width) else none)
    | some .linear => do
      let first ← readLe? 8 data 0
      let last ← readLe? 8 data 8
      let offset ← readLe? 8 data 20
      let bpv ← readLe? 1 data 28
      let width ← widthMax bpv
      some do
        let min ← toU64? ((min first last : Nat) + asI64 offset)
        let max ← toU64? ((max first last : Nat) + asI64 offset + width)
        some (min, max)
    | some .blockwiseLinear => some none

theorem widthMax_eq {bits : Nat} (h : bits ≤ 64) : widthMax bits = some (2 ^ bits - 1) := by
  interval_cases bits <;> rfl

theorem toU64?_eq_some {z : Int} {n : Nat} (h : toU64? z = some n) : (n : Int) = z ∧ z ≤ u64Max := by
  obtain ⟨hz, h⟩ := Option.ite_none_right_eq_some.mp h
  cases h
  omega

variable {n : Nat}

/-- The header of a well-formed payload is read, and its interval has the values. -/
theorem valueBounds_encode {payload : Payload} (hok : payload.Ok n) :
    ∃ bounds, valueBounds (payload.encode n) = some bounds ∧
      ∀ lo hi, bounds = some (lo, hi) → ∀ i < n, lo ≤ payload.value n i ∧ payload.value n i ≤ hi := by
  rw [encode, valueBounds, CodecType.fromU8_toByte]
  cases payload with
  | constant value =>
    have hread := readLe?_leBytes (w := 8) hok []
    rw [append_nil] at hread
    dsimp only [codec, body]
    rw [hread]
    refine ⟨_, rfl, fun lo hi h i _ => ?_⟩
    cases h
    exact ⟨le_rfl, le_rfl⟩
  | bitpacked minValue bpv packed =>
    obtain ⟨hmin, hbpv, -, -⟩ := hok
    have hwidth : bpv < 256 ^ 1 := lt_of_le_of_lt hbpv (by decide)
    dsimp only [codec, body]
    rw [readLe?_leBytes hmin, readLe?_skip le_rfl, readLe?_leBytes hwidth]
    dsimp only [Option.bind_eq_bind, Option.bind_some]
    rw [widthMax_eq hbpv]
    refine ⟨_, rfl, fun lo hi h i _ => ?_⟩
    obtain ⟨hmax, h⟩ := Option.ite_none_right_eq_some.mp h
    cases h
    -- the sum of the bounds does not wrap, so no value does
    have hfield : fieldAt packed bpv i < 2 ^ bpv := Nat.mod_lt _ (Nat.two_pow_pos _)
    rw [u64Max] at hmax
    rw [value, Nat.mod_eq_of_lt (by omega)]
    omega
  | linear block =>
    obtain ⟨-, hn, hblock⟩ := hok
    have hoffset : asU64 block.header.offset < 256 ^ 8 := asU64_lt _
    dsimp only [codec, body]
    simp only [i64Bytes, readLe?_leBytes (w := 8) hblock.first, readLe?_skip, Nat.reduceLeDiff, Nat.reduceSub, le_refl,
      readLe?_leBytes (w := 8) hblock.last, readLe?_leBytes hoffset, readLe?_leBytes hblock.bpv_lt,
      Option.bind_eq_bind, Option.bind_some, widthMax_eq hblock.bpv, asI64_asU64 hblock.offsetMin hblock.offsetMax]
    refine ⟨_, rfl, fun lo hi h i hi' => ?_⟩
    obtain ⟨low, hlow, h⟩ := Option.bind_eq_some_iff.mp h
    obtain ⟨high, hhigh, h⟩ := Option.bind_eq_some_iff.mp h
    cases h
    have hlow := toU64?_eq_some hlow
    have hhigh := toU64?_eq_some hhigh
    have hline := interpolate_range hblock.first hblock.last hi'
    have hfield : fieldAt block.packed block.header.bpv i < 2 ^ block.header.bpv := Nat.mod_lt _ (Nat.two_pow_pos _)
    rw [u64Max] at hhigh
    rw [value, BlockPayload.value, ← Int.ofNat_le, ← Int.ofNat_le, asU64_of_range (by omega)]
    omega
  | blockwise blocks => exact ⟨none, rfl, fun lo hi h => by cases h⟩

/-- What `validateAuto` accepts is read without a panic, and the values that are read lie in its bounds. -/
theorem validated_reads {data : List Byte} (h : validateAuto data n = .ok ()) :
    ∃ bounds, valueBounds data = some bounds ∧
      (∀ i < n, ∃ v, autoRead data i = some v ∧ ∀ lo hi, bounds = some (lo, hi) → lo ≤ v ∧ v ≤ hi) ∧
      ∀ (start : Nat) (out : List Nat), start + out.length ≤ n → ∃ vs, autoReadBatch data start out = some vs ∧
        vs.length = out.length ∧ ∀ lo hi, bounds = some (lo, hi) → ∀ v ∈ vs, lo ≤ v ∧ v ≤ hi := by
  obtain ⟨payload, hok, rfl⟩ := validateAuto_eq_ok_iff.mp h
  obtain ⟨bounds, hbounds, hin⟩ := valueBounds_encode hok
  refine ⟨bounds, hbounds, fun i hi => ⟨_, autoRead_encode hok hi, fun lo hi' h => hin lo hi' h i hi⟩,
    fun start out hrange => ⟨_, autoReadBatch_encode hok hrange, by simp [values], fun lo hi h v hv => ?_⟩⟩
  obtain ⟨i, hmem, rfl⟩ := mem_map.mp hv
  have := mem_range.mp hmem
  exact hin lo hi h _ (by omega)

/-- Two numbers of four bits from 7 on. -/
theorem validated_reads_bitpacked : validateAuto [1, 7, 0, 0, 0, 0, 0, 0, 0, 4, 0x21] 2 = .ok () ∧
    ∃ vs, autoReadBatch [1, 7, 0, 0, 0, 0, 0, 0, 0, 4, 0x21] 0 [0, 0] = some vs ∧ ∀ v ∈ vs, 7 ≤ v ∧ v ≤ 22 := by
  have hvalid : validateAuto [1, 7, 0, 0, 0, 0, 0, 0, 0, 4, 0x21] 2 = .ok () := by rfl
  obtain ⟨bounds, hbounds, -, hbatch⟩ := validated_reads hvalid
  obtain ⟨vs, hvs, -, hin⟩ := hbatch 0 [0, 0] (by decide)
  exact ⟨hvalid, vs, hvs, hin 7 22 (Option.some.inj (hbounds.symm.trans rfl))⟩

end Summa.FastField
