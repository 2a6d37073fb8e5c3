import Mathlib.Data.Nat.Size
import Summa.Lib.Fold
import Summa.Structures.FastField.CodecSpec

/-!
# What the fast-field codecs write

Whichever codec `serializeAuto` selects, it writes the encoding of a well-formed payload with the given values
(`serializeAuto_spec`). An estimate that is there is a promise: the values of the constant codec are equal, and the
residuals of the linear codecs fit their offset (`LinearEstimator.serialize_spec`,
`BlockwiseLinearEstimator.serialize_spec`). A block of a line with its residuals is `lineBlock` for both.
-/

namespace Summa.FastField

open List Fallible BlockwiseLinearEstimator

/-- A predicted value lies between the ends of the line. -/
theorem interpolate_range {first last n i : Nat} (hfirst : first < 2 ^ 64) (hlast : last < 2 ^ 64) (hi : i < n) :
    min first last ≤ interpolate first last n i ∧ interpolate first last n i ≤ max first last := by
  rw [interpolate]
  split
  case isTrue => omega
  case isFalse hn =>
    obtain ⟨m, rfl⟩ : ∃ m, n = m + 2 := ⟨n - 2, by omega⟩
    have hpos : (0 : Int) < ((m + 2 : Nat) : Int) - 1 := by omega
    have hi : (i : Int) ≤ ((m + 2 : Nat) : Int) - 1 := by omega
    -- the distance from the first value, without its sign
    have hstep : ∀ d : Int, 0 ≤ d → 0 ≤ (d * i).tdiv (((m + 2 : Nat) : Int) - 1) ∧
        (d * i).tdiv (((m + 2 : Nat) : Int) - 1) ≤ d := by
      intro d hd
      have hmul : 0 ≤ d * i := mul_nonneg hd (Int.natCast_nonneg i)
      rw [Int.tdiv_eq_ediv_of_nonneg hmul]
      exact ⟨Int.ediv_nonneg hmul hpos.le, Int.ediv_le_of_le_mul hpos (mul_le_mul_of_nonneg_left hi hd)⟩
    rw [asU64]
    rcases le_total first last with hle | hle
    · have := hstep ((last : Int) - first) (by omega)
      omega
    · have := hstep (-((last : Int) - first)) (by omega)
      rw [neg_mul, Int.neg_tdiv] at this
      omega

variable {values : List Nat}

/-- The values can be read from a payload. -/
structure Payload.Holds (payload : Payload) (values : List Nat) : Prop where
  ok : payload.Ok values.length
  value : ∀ (i : Nat) (hi : i < values.length), payload.value values.length i = values[i]

structure BlockPayload.Holds (block : BlockPayload) (values : List Nat) : Prop where
  ok : block.Ok values.length
  value : ∀ (i : Nat) (hi : i < values.length), block.value values.length i = values[i]

/-- Where nothing is packed there is nothing to write. -/
theorem ite_bitpackWrite {c : Prop} [Decidable c] {width : Nat} (h : ¬c → width = 0 ∨ values = []) :
    (if c then bitpackWrite values width else []) = bitpackWrite values width := by
  split
  case isTrue => rfl
  case isFalse hc =>
    refine (eq_nil_of_length_eq_zero ?_).symm
    rw [length_bitpackWrite]
    rcases h hc with rfl | rfl <;> simp

section Line

@[simp] theorem length_residuals (values : List Nat) : (residuals values).length = values.length := by
  simp [residuals]

theorem residuals_getElem {i : Nat} (h : i < values.length) :
    (residuals values)[i]? = some ((values[i] : Int) -
      interpolate (values.headD 0) (values.getLastD 0) values.length i) := by
  rw [residuals, getElem?_map, getElem?_zipIdx, getElem?_eq_getElem h]
  simp

variable {r : Int}

theorem exists_of_mem_residuals (h : r ∈ residuals values) : ∃ (i : Nat) (hi : i < values.length),
    r = (values[i] : Int) - interpolate (values.headD 0) (values.getLastD 0) values.length i := by
  obtain ⟨i, hget⟩ := mem_iff_getElem?.mp h
  have hi : i < values.length := by
    obtain ⟨hi, -⟩ := List.getElem?_eq_some_iff.mp hget
    rwa [length_residuals] at hi
  rw [residuals_getElem hi, Option.some.injEq] at hget
  exact ⟨i, hi, hget.symm⟩

/-- The values as a line and the residuals above `minResidual`. -/
def lineBlock (values : List Nat) (minResidual : Int) (bpv : Nat) : BlockPayload where
  header := ⟨values.headD 0, values.getLastD 0, minResidual, bpv⟩
  packed := if 0 < bpv then bitpackWrite ((residuals values).map fun r => asU64 (r - minResidual)) bpv else []

theorem headD_lt (h : ∀ v ∈ values, v < 2 ^ 64) : values.headD 0 < 2 ^ 64 := by
  cases values with
  | nil => exact Nat.two_pow_pos 64
  | cons v values => exact h v mem_cons_self

theorem getLastD_lt (h : ∀ v ∈ values, v < 2 ^ 64) : values.getLastD 0 < 2 ^ 64 := by
  rw [getLastD_eq_getLast?]
  cases hlast : values.getLast? with
  | none => exact Nat.two_pow_pos 64
  | some v => exact h v (mem_of_getLast? hlast)

/-- Residuals that fit make a block with the values. -/
theorem lineBlock_spec {minResidual : Int} {bpv : Nat} (hu64 : ∀ v ∈ values, v < 2 ^ 64) (hbpv : bpv ≤ 64)
    (hmin : i64Min ≤ minResidual) (hmax : minResidual ≤ i64Max)
    (hfits : ∀ r ∈ residuals values, minResidual ≤ r ∧ r - minResidual < 2 ^ bpv) :
    (lineBlock values minResidual bpv).Holds values := by
  have hpacked : (lineBlock values minResidual bpv).packed =
      bitpackWrite ((residuals values).map fun r => asU64 (r - minResidual)) bpv :=
    ite_bitpackWrite fun h => .inl (by omega)
  have hpow : (2 : Int) ^ bpv ≤ 2 ^ 64 := by exact_mod_cast Nat.pow_le_pow_right (by decide) hbpv
  refine ⟨⟨headD_lt hu64, getLastD_lt hu64, hmin, hmax, hbpv, ?_⟩, fun i hi => ?_⟩
  · rw [hpacked, length_bitpackWrite, length_map, length_residuals]
    rfl
  · have hr := residuals_getElem hi
    obtain ⟨hge, hlt⟩ := hfits _ (mem_of_getElem? hr)
    obtain ⟨r, hrdef⟩ : ∃ r : Int, r = (values[i] : Int) -
        interpolate (values.headD 0) (values.getLastD 0) values.length i := ⟨_, rfl⟩
    rw [← hrdef] at hr hge hlt
    have hshift : (asU64 (r - minResidual) : Int) = r - minResidual := asU64_of_range (by omega)
    -- the stored residual
    have hfield : (fieldAt (lineBlock values minResidual bpv).packed bpv i : Int) = r - minResidual := by
      have hindex : i < ((residuals values).map fun r => asU64 (r - minResidual)).length := by simpa using hi
      obtain ⟨hlength, hget⟩ := List.getElem?_eq_some_iff.mp hr
      have hvalue : ((residuals values).map fun r => asU64 (r - minResidual))[i] = asU64 (r - minResidual) := by
        rw [getElem_map, hget]
      rw [hpacked, fieldAt_bitpackWrite hindex (by rw [hvalue]; exact_mod_cast hshift ▸ hlt), hvalue, hshift]
    have hv := hu64 _ (getElem_mem hi)
    have hsum : ((interpolate (values.headD 0) (values.getLastD 0) values.length i : Nat) : Int) + minResidual +
        (fieldAt (lineBlock values minResidual bpv).packed bpv i : Nat) = (values[i] : Nat) := by
      omega
    refine Eq.trans ?_ (asU64_natCast hv)
    exact congrArg asU64 hsum

theorem residuals_ne_nil (h : values ≠ []) : ∃ r, r ∈ residuals values := by
  have hpos : 0 < values.length := length_pos_iff.mpr h
  exact ⟨_, mem_of_getElem? (residuals_getElem hpos)⟩

/-- The smallest residual of values whose residuals fit an `i64`. -/
theorem minResidual_range (hne : values ≠ []) (h : ∀ r ∈ residuals values, i64Min ≤ r ∧ r ≤ i64Max) :
    i64Min ≤ (residuals values).foldl min i128Max ∧ (residuals values).foldl min i128Max ≤ i64Max := by
  obtain ⟨r, hr⟩ := residuals_ne_nil hne
  exact ⟨le_foldl_min_iff.mpr ⟨by decide, fun r hr => (h r hr).1⟩, (foldl_min_le hr).trans (h r hr).2⟩

end Line

section Constant

theorem constant_collect (values : List Nat) :
    (values.foldl .collect ConstantEstimator.default).first = values.head? ∧
      ((values.foldl .collect ConstantEstimator.default).allSame = true →
        values ≠ [] ∧ ∀ v ∈ values, v = values.headD 0) := by
  induction values using reverseRecOn with
  | nil => exact ⟨rfl, nofun⟩
  | append_singleton values v ih =>
    obtain ⟨hfirst, hsame⟩ := ih
    rw [foldl_append, foldl_cons, foldl_nil, ConstantEstimator.collect, hfirst]
    cases values with
    | nil => exact ⟨rfl, fun _ => ⟨by simp, by simp⟩⟩
    | cons w values =>
      dsimp only [head?_cons]
      split
      · exact ⟨rfl, nofun⟩
      · rename_i hv
        refine ⟨hfirst, fun h => ⟨by simp, fun u hu => ?_⟩⟩
        rcases mem_append.mp hu with hu | hu
        · exact (hsame h).2 u hu
        · rw [mem_singleton.mp hu]
          exact not_not.mp hv

theorem allSame_of_estimate {est : ConstantEstimator} {size : Nat} (h : est.estimate = some size) :
    est.allSame = true := by
  rw [ConstantEstimator.estimate] at h
  split at h
  · assumption
  · cases h

/-- A constant estimate is there only for equal values. -/
theorem constant_spec (hu64 : ∀ v ∈ values, v < 2 ^ 64) {size : Nat}
    (h : (values.foldl .collect ConstantEstimator.default).estimate = some size) :
    ∃ payload : Payload, payload.Holds values ∧
      ConstantEstimator.serialize values = payload.encode values.length := by
  have hsame := allSame_of_estimate h
  exact ⟨.constant (values.headD 0), ⟨headD_lt hu64,
    fun i hi => (((constant_collect values).2 hsame).2 _ (getElem_mem hi)).symm⟩, rfl⟩

end Constant

section Bitpacked

theorem bitsNeededU64_le {val : Nat} (h : val < 2 ^ 64) : bitsNeededU64 val ≤ 64 := Nat.size_le.mpr h

theorem lt_two_pow_bitsNeededU64 (val : Nat) : val < 2 ^ bitsNeededU64 val := Nat.lt_size_self val

/-- The bit-packed codec writes any values. -/
theorem bitpacked_spec (hu64 : ∀ v ∈ values, v < 2 ^ 64) (hlen : values.length < 2 ^ 32) :
    ∃ payload : Payload, payload.Holds values ∧
      BitpackedEstimator.serialize values = payload.encode values.length := by
  obtain ⟨minValue, bpv, hheader, hmin, hbpv, hfit⟩ : ∃ minValue bpv,
      BitpackedEstimator.header values = (minValue, bpv) ∧ minValue < 2 ^ 64 ∧ bpv ≤ 64 ∧
      ∀ v ∈ values, minValue ≤ v ∧ v - minValue < 2 ^ bpv := by
    rw [BitpackedEstimator.header]
    cases hlow : values.min? with
    | none =>
      rw [min?_eq_none_iff.mp hlow]
      exact ⟨0, 0, rfl, Nat.two_pow_pos 64, Nat.zero_le _, nofun⟩
    | some low =>
      cases hhigh : values.max? with
      | none =>
        rw [max?_eq_none_iff.mp hhigh] at hlow
        cases hlow
      | some high =>
        obtain ⟨hlowMem, hlowLe⟩ := min?_eq_some_iff.mp hlow
        obtain ⟨hhighMem, hhighLe⟩ := max?_eq_some_iff.mp hhigh
        have := hu64 high hhighMem
        refine ⟨low, _, rfl, hu64 low hlowMem, bitsNeededU64_le (by omega), fun v hv => ⟨hlowLe v hv, ?_⟩⟩
        have := hhighLe v hv
        exact lt_of_le_of_lt (by omega) (lt_two_pow_bitsNeededU64 (high - low))
  have hpacked : (if 0 < bpv ∧ values ≠ [] then bitpackWrite (values.map (· - minValue)) bpv else []) =
      bitpackWrite (values.map (· - minValue)) bpv :=
    ite_bitpackWrite fun h => (Nat.eq_zero_or_pos bpv).imp_right fun hpos => by simpa [hpos] using h
  refine ⟨.bitpacked minValue bpv (bitpackWrite (values.map (· - minValue)) bpv), ⟨⟨hmin, hbpv, ?_, ?_⟩,
    fun i hi => ?_⟩, ?_⟩
  · rw [length_bitpackWrite, length_map]
    rfl
  · have := Nat.mul_le_mul hlen.le hbpv
    exact (Nat.add_le_add_right this 7).trans (by decide)
  · obtain ⟨hle, hlt⟩ := hfit _ (getElem_mem hi)
    have hindex : i < (values.map (· - minValue)).length := by simpa using hi
    have hvalue : (values.map (· - minValue))[i] = values[i] - minValue := getElem_map ..
    rw [Payload.value, fieldAt_bitpackWrite hindex (by rw [hvalue]; exact hlt), hvalue,
      Nat.sub_add_cancel hle, Nat.mod_eq_of_lt (hu64 _ (getElem_mem hi))]
  · rw [BitpackedEstimator.serialize, hheader, ← hpacked]
    rfl

end Bitpacked

section Linear

/-- What the linear estimator collects. -/
structure LinearEstimator.Collected (est : LinearEstimator) (values : List Nat) : Prop where
  count : est.count = values.length
  first : est.first = values.headD 0
  last : est.last = values.getLastD 0
  minVal : ∀ v ∈ values, est.minVal ≤ v
  maxVal : ∀ v ∈ values, v ≤ est.maxVal
  collected : est.valuesCollected = true ↔ values ≠ []

theorem linear_collect (values : List Nat) :
    (values.foldl .collect LinearEstimator.default).Collected values := by
  induction values using reverseRecOn with
  | nil =>
    exact ⟨rfl, rfl, rfl, nofun, nofun,
      ⟨nofun, fun h => absurd rfl h⟩⟩
  | append_singleton values v ih =>
    rw [foldl_append, foldl_cons, foldl_nil]
    generalize values.foldl .collect LinearEstimator.default = est at ih
    rw [LinearEstimator.collect]
    split
    case isTrue hcollected =>
      have hne := ih.collected.mp hcollected
      refine ⟨by simp [ih.count], ?_, by simp, ?_, ?_, by simp [hcollected]⟩
      · rw [show _ = est.first from rfl, ih.first]
        cases values with
        | nil => exact absurd rfl hne
        | cons w values => rfl
      · intro w hw
        rcases mem_append.mp hw with hw | hw
        · exact (Nat.min_le_left ..).trans (ih.minVal w hw)
        · rw [mem_singleton.mp hw]
          exact Nat.min_le_right ..
      · intro w hw
        rcases mem_append.mp hw with hw | hw
        · exact (ih.maxVal w hw).trans (Nat.le_max_left ..)
        · rw [mem_singleton.mp hw]
          exact Nat.le_max_right ..
    case isFalse hnone =>
      obtain rfl : values = [] := by
        by_contra hne
        exact hnone (ih.collected.mpr hne)
      exact ⟨by simp [ih.count], rfl, rfl, by simp, by simp, by simp⟩

/-- The bounds from the extreme values hold for every residual. -/
theorem residuals_range {est : LinearEstimator} (hest : est.Collected values) (hu64 : ∀ v ∈ values, v < 2 ^ 64)
    {r : Int} (hr : r ∈ residuals values) :
    (est.minVal : Int) - max est.first est.last ≤ r ∧ r ≤ est.maxVal - min est.first est.last := by
  obtain ⟨i, hi, hr⟩ := exists_of_mem_residuals hr
  have hline := interpolate_range (headD_lt hu64) (getLastD_lt hu64) hi
  rw [← hest.first, ← hest.last] at hline hr
  have := hest.minVal _ (getElem_mem hi)
  have := hest.maxVal _ (getElem_mem hi)
  omega

theorem LinearEstimator.serialize_spec (hu64 : ∀ v ∈ values, v < 2 ^ 64) (hlen : values.length < 2 ^ 32) {size : Nat}
    (h : (values.foldl .collect LinearEstimator.default).finalize.estimate = some size) :
    ∃ payload : Payload, payload.Holds values ∧
      LinearEstimator.serialize values = .ok (payload.encode values.length) := by
  have hest := linear_collect values
  generalize values.foldl .collect LinearEstimator.default = est at h hest
  -- the estimate is there only if the bounds fit
  obtain ⟨hcount, hmin, hmax⟩ : 2 ≤ values.length ∧ i64Min ≤ (est.minVal : Int) - max est.first est.last ∧
      (est.maxVal : Int) - min est.first est.last ≤ i64Max := by
    rw [LinearEstimator.finalize] at h
    rw [← hest.count]
    split at h
    · rw [LinearEstimator.estimate, if_pos (Or.inl ‹_›)] at h
      cases h
    · dsimp only at h
      split at h
      · rw [LinearEstimator.estimate, if_pos (Or.inr rfl)] at h
        cases h
      · omega
  have hrange : ∀ r ∈ residuals values, i64Min ≤ r ∧ r ≤ i64Max := fun r hr => by
    have := residuals_range hest hu64 hr
    omega
  have hne : values ≠ [] := ne_nil_of_length_pos (by omega)
  obtain ⟨hlow, hhigh⟩ := minResidual_range hne hrange
  obtain ⟨minResidual, hres⟩ : ∃ m, m = (residuals values).foldl min i128Max := ⟨_, rfl⟩
  obtain ⟨shifted, hshifted⟩ : ∃ s, s = (residuals values).map fun r => asU64 (r - minResidual) := ⟨_, rfl⟩
  rw [← hres] at hlow hhigh
  have hbpv : bitsNeededU64 (shifted.max?.getD 0) ≤ 64 := by
    apply bitsNeededU64_le
    cases hm : shifted.max? with
    | none => exact Nat.two_pow_pos 64
    | some m =>
      have hmem := (max?_eq_some_iff.mp hm).1
      rw [hshifted] at hmem
      obtain ⟨r, -, rfl⟩ := mem_map.mp hmem
      exact asU64_lt _
  have hfits : ∀ r ∈ residuals values, minResidual ≤ r ∧
      r - minResidual < 2 ^ bitsNeededU64 (shifted.max?.getD 0) := by
    intro r hr
    have hle : minResidual ≤ r := hres ▸ foldl_min_le hr
    have hr64 := (hrange r hr).2
    have hcast : (asU64 (r - minResidual) : Int) = r - minResidual := by
      apply asU64_of_range
      rw [i64Min] at hlow
      rw [i64Max] at hr64
      omega
    have hmem : asU64 (r - minResidual) ∈ shifted := hshifted ▸ mem_map_of_mem hr
    have hmaxLe : asU64 (r - minResidual) ≤ shifted.max?.getD 0 := le_max?_getD_of_mem hmem
    have hlt := lt_of_le_of_lt hmaxLe (lt_two_pow_bitsNeededU64 _)
    exact ⟨hle, by rw [← hcast]; exact_mod_cast hlt⟩
  have hblock := lineBlock_spec hu64 hbpv hlow hhigh hfits
  refine ⟨.linear (lineBlock values minResidual (bitsNeededU64 (shifted.max?.getD 0))),
    ⟨⟨hcount, hlen, hblock.ok⟩, hblock.value⟩, ?_⟩
  rw [LinearEstimator.serialize, failIf_bind (by omega)]
  rw [← hres, failIf_bind (by omega), ← hshifted, Payload.encode, Payload.body, lineBlock, ← hshifted]
  rfl

end Linear

section Blockwise

/-- An estimate of a block is one of a block that can be written. -/
theorem estimateBlock_spec {block : List Nat} (hu64 : ∀ v ∈ block, v < 2 ^ 64) (hne : block ≠ []) {est : BlockEstimate}
    (h : estimateBlock block = some est) :
    (lineBlock block est.minResidual est.bitsPerValue).Holds block ∧
      blockRecord block est = (lineBlock block est.minResidual est.bitsPerValue).encode := by
  rw [estimateBlock] at h
  split at h
  case isTrue hshort =>
    obtain ⟨v, rfl⟩ : ∃ v, block = [v] := by
      match block, hne, hshort with
      | [v], _, _ => exact ⟨v, rfl⟩
    obtain rfl := Option.some.inj h
    have hres : residuals [v] = [0] := by simp [residuals, interpolate]
    exact ⟨lineBlock_spec hu64 (Nat.zero_le 64) (by decide) (by decide)
      (show ∀ r ∈ residuals [v], (0 : Int) ≤ r ∧ r - 0 < 2 ^ 0 by simp [hres]), rfl⟩
  case isFalse hlong =>
    dsimp only at h
    split at h
    · cases h
    rename_i hrange
    obtain rfl := Option.some.inj h
    dsimp only
    obtain ⟨r₀, hr₀⟩ := residuals_ne_nil hne
    have hmin : ∀ r ∈ residuals block, (residuals block).foldl min i128Max ≤ r := fun r hr => foldl_min_le hr
    have hmax : ∀ r ∈ residuals block, r ≤ (residuals block).foldl max i128Min := fun r hr => le_foldl_max hr
    obtain ⟨lo, hlo⟩ : ∃ m, m = (residuals block).foldl min i128Max := ⟨_, rfl⟩
    obtain ⟨hi, hhi⟩ : ∃ m, m = (residuals block).foldl max i128Min := ⟨_, rfl⟩
    rw [← hlo] at hrange hmin
    have h₁ := hmin r₀ hr₀
    have h₂ := hmax r₀ hr₀
    have hlow : i64Min ≤ lo ∧ hi ≤ i64Max := by omega
    have hcast : (asU64 (hi - lo) : Int) = hi - lo := by
      apply asU64_of_range
      rw [i64Min, i64Max] at hlow
      omega
    have hfits : ∀ r ∈ residuals block, lo ≤ r ∧ r - lo < 2 ^ bitsNeededU64 (asU64 (hi - lo)) := by
      intro r hr
      have hlt : (asU64 (hi - lo) : Int) < 2 ^ bitsNeededU64 (asU64 (hi - lo)) := by
        exact_mod_cast lt_two_pow_bitsNeededU64 _
      have := hmax r hr
      exact ⟨hmin r hr, by omega⟩
    rw [← hlo, ← hhi]
    refine ⟨lineBlock_spec hu64 (bitsNeededU64_le (asU64_lt _)) hlow.1 (by omega) hfits, ?_⟩
    rw [blockRecord, lineBlock, BlockPayload.encode]
    simp only [if_neg hlong]

theorem getElem_blockAt {b i : Nat} (hi : i < (blockAt values b).length) :
    ∃ h : b * blockSize + i < values.length, (blockAt values b)[i] = values[b * blockSize + i] := by
  rw [blockAt, length_take, length_drop] at hi
  refine ⟨by omega, ?_⟩
  simp only [blockAt, getElem_take, getElem_drop]

theorem length_blockAt (values : List Nat) (b : Nat) : (blockAt values b).length = blockCount values.length b := by
  rw [blockAt, length_take, length_drop, blockCount, Nat.min_comm]

/-- The estimates of the complete blocks, if none of them overflows. -/
theorem collectBlocks_spec (blocks : List (List Nat)) {self : BlockwiseLinearEstimator} (hself : self.overflow = false) :
    (self.collectBlocks blocks).overflow = true ∨ ∃ estimates : List BlockEstimate,
      blocks.map estimateBlock = estimates.map some ∧
      self.collectBlocks blocks = { self with
        completedSize := self.completedSize + (estimates.map (·.serializedSize)).sum
        completedBlocks := self.completedBlocks ++ estimates } := by
  induction blocks generalizing self with
  | nil => exact .inr ⟨[], rfl, by simp [collectBlocks]⟩
  | cons block blocks ih =>
    rw [collectBlocks]
    cases hest : estimateBlock block with
    | none => exact .inl rfl
    | some estimate =>
      dsimp only
      rcases @ih { self with
        completedSize := self.completedSize + estimate.serializedSize
        completedBlocks := self.completedBlocks ++ [estimate] } hself with h | ⟨estimates, hall, heq⟩
      · exact .inl h
      · refine .inr ⟨estimate :: estimates, by rw [map_cons, hest, hall, map_cons], ?_⟩
        rw [heq]
        simp [Nat.add_assoc]

/-- Values behind the last complete block. -/
theorem blockAt_tail (values : List Nat) :
    blockAt values (values.length / blockSize) = values.drop (values.length / blockSize * blockSize) := by
  apply take_of_length_le
  rw [length_drop, blockSize]
  omega

/-- A finished estimator with an estimate has one for every block. -/
theorem estimates_spec {size : Nat}
    (h : (collectValues values).finalize.estimate = some size) {b : Nat}
    (hb : b < (values.length + (blockSize - 1)) / blockSize) :
    ∃ est, (collectValues values).finalize.estimateFor values b = .ok est ∧
      estimateBlock (blockAt values b) = some est := by
  obtain ⟨self, hself⟩ : ∃ self, self = collectValues values := ⟨_, rfl⟩
  rw [← hself] at h ⊢
  have hfinal : self.finalize.overflow = false := by
    rw [estimate] at h
    split at h
    · cases h
    · rename_i hno
      simpa using (not_or.mp hno).2
  obtain ⟨hover, htail⟩ : self.overflow = false ∧ (self.currentBlock ≠ [] →
      ∃ est, self.finalize.tailEstimate = some est ∧ estimateBlock self.currentBlock = some est) := by
    rw [finalize, Bool.or_eq_false_iff] at hfinal
    refine ⟨hfinal.1, fun hne => ?_⟩
    have hif : ¬(self.currentBlock = [] ∨ self.overflow = true) := by simp [hne, hfinal.1]
    rw [if_neg hif, decide_eq_true hne, Bool.true_and] at hfinal
    cases hest : estimateBlock self.currentBlock with
    | none => rw [hest] at hfinal; cases hfinal.2
    | some est => exact ⟨est, by rw [finalize, if_neg hif, hest], rfl⟩
  -- the complete blocks
  rw [collectValues] at hself
  rcases collectBlocks_spec ((range (values.length / blockSize)).map (blockAt values))
    (show ({ default with count := values.length }).overflow = false from rfl) with
    hbad | ⟨estimates, hall, hcollected⟩
  · rw [if_pos hbad] at hself
    rw [hself, hbad] at hover
    cases hover
  rw [hcollected, if_neg (by simp [BlockwiseLinearEstimator.default])] at hself
  have hcompleted : self.finalize.completedBlocks = estimates := by rw [hself]; rfl
  have hcurrent : self.currentBlock = values.drop (values.length / blockSize * blockSize) := by rw [hself]
  have hlength : estimates.length = values.length / blockSize := by
    have := congrArg length hall
    simpa using this.symm
  -- the kept estimate is the one of the block
  obtain ⟨est, hest, hkept⟩ : ∃ est, estimateBlock (blockAt values b) = some est ∧
      self.finalize.completedBlocks[b]?.or self.finalize.tailEstimate = some est := by
    rw [hcompleted]
    rcases Nat.lt_or_ge b (values.length / blockSize) with hlt | hge
    · have hat := congrArg (fun l => l[b]?) hall
      rw [getElem?_map, getElem?_map, getElem?_map, getElem?_range hlt, Option.map_some,
        Option.map_some, getElem?_eq_getElem (by omega)] at hat
      refine ⟨_, Option.some.inj hat, ?_⟩
      rw [getElem?_eq_getElem (by omega), Option.some_or]
    · obtain rfl : b = values.length / blockSize := by
        simp only [blockSize] at *
        omega
      have hne : self.currentBlock ≠ [] := by
        rw [hcurrent]
        apply ne_nil_of_length_pos
        rw [length_drop]
        simp only [blockSize] at *
        omega
      obtain ⟨est, hfound, hest⟩ := htail hne
      refine ⟨est, by rw [blockAt_tail, ← hcurrent, hest], ?_⟩
      rw [getElem?_eq_none (by omega), Option.none_or, hfound]
  refine ⟨est, ?_, hest⟩
  rw [estimateFor]
  split_ifs
  · rw [hkept, Option.some_or]
  · rw [Option.none_or, hest]

theorem BlockwiseLinearEstimator.serialize_spec (hu64 : ∀ v ∈ values, v < 2 ^ 64) (hlen : values.length < 2 ^ 32)
    {size : Nat} (h : (collectValues values).finalize.estimate = some size) :
    ∃ payload : Payload, payload.Holds values ∧
      (collectValues values).finalize.serialize values =
        .ok (payload.encode values.length) := by
  obtain ⟨numBlocks, hnum⟩ : ∃ m, m = (values.length + (blockSize - 1)) / blockSize := ⟨_, rfl⟩
  -- the blocks that are written
  let block : Nat → BlockPayload := fun b =>
    (estimateBlock (blockAt values b)).elim ⟨⟨0, 0, 0, 0⟩, []⟩ fun est =>
      lineBlock (blockAt values b) est.minResidual est.bitsPerValue
  have hblock : ∀ b < numBlocks, (block b).Ok (blockCount values.length b) ∧
      (∀ (i : Nat) (hi : i < (blockAt values b).length),
        (block b).value (blockCount values.length b) i = (blockAt values b)[i]) ∧
      ((collectValues values).finalize.estimateFor values b >>= fun est =>
        .ok (blockRecord (blockAt values b) est)) = .ok (block b).encode := by
    intro b hb
    obtain ⟨est, hfor, hest⟩ := estimates_spec h (hnum ▸ hb)
    have hne : blockAt values b ≠ [] := by
      apply ne_nil_of_length_pos
      rw [length_blockAt, blockCount]
      simp only [blockSize] at *
      omega
    have hmem : ∀ v ∈ blockAt values b, v < 2 ^ 64 := fun v hv =>
      hu64 v (mem_of_mem_drop (mem_of_mem_take hv))
    obtain ⟨⟨hok, hvalue⟩, hrecord⟩ := estimateBlock_spec hmem hne hest
    rw [length_blockAt] at hok
    simp only [length_blockAt values b] at hvalue
    rw [show block b = lineBlock (blockAt values b) est.minResidual est.bitsPerValue by simp only [block, hest, Option.elim_some], hfor,
      ok_bind, hrecord]
    exact ⟨hok, fun i hi => hvalue i (length_blockAt values b ▸ hi), rfl⟩
  refine ⟨.blockwise ((range numBlocks).map block), ⟨⟨hlen, ?_, ?_⟩, fun i hi => ?_⟩, ?_⟩
  · rw [length_map, length_range, hnum]
  · intro b found hfound
    rw [getElem?_map, Option.map_eq_some_iff] at hfound
    obtain ⟨b', hb', rfl⟩ := hfound
    obtain ⟨hlt, heq⟩ := List.getElem?_eq_some_iff.mp hb'
    rw [getElem_range] at heq
    rw [length_range] at hlt
    exact heq ▸ (hblock b hlt).1
  · have hb : i / blockSize < numBlocks := by
      simp only [blockSize] at *
      omega
    have hin : i % blockSize < (blockAt values (i / blockSize)).length := by
      rw [length_blockAt, blockCount]
      simp only [blockSize] at *
      omega
    obtain ⟨hlt, hget⟩ := getElem_blockAt hin
    rw [Payload.value, getElem?_map, getElem?_range hb, Option.map_some]
    dsimp only
    rw [(hblock _ hb).2.1 _ hin, hget]
    congr 1
    exact Nat.div_add_mod' i blockSize
  · have hrecords : (range numBlocks).mapM (fun b => do
        let est ← (collectValues values).finalize.estimateFor values b
        .ok (blockRecord (blockAt values b) est)) =
        .ok ((range numBlocks).map fun b => (block b).encode) := by
      rw [mapM_eq_ok_iff, map_map]
      exact map_congr_left fun b hb => (hblock b (mem_range.mp hb)).2.2
    rw [serialize]
    simp only [← hnum]
    rw [hrecords, ok_bind, Payload.encode, Payload.body, flatMap_map, length_map,
      length_range]
    rfl

end Blockwise

/-- Whichever codec is selected, its payload has the values. -/
theorem serializeAuto_spec (hu64 : ∀ v ∈ values, v < 2 ^ 64) (hlen : values.length < 2 ^ 32) :
    ∃ payload : Payload, payload.Holds values ∧ serializeAuto values = .ok (payload.encode values.length) := by
  obtain ⟨packed, hpacked, hbytes⟩ := bitpacked_spec hu64 hlen
  rw [serializeAuto]
  split
  case h_2 => exact ⟨packed, hpacked, by rw [hbytes]⟩
  case h_1 best hbest =>
    obtain ⟨c, hc, hsized⟩ := mem_filterMap.mp (argmin_mem hbest)
    obtain ⟨size, hsize, rfl⟩ := Option.map_eq_some_iff.mp hsized
    simp only [mem_cons, not_mem_nil, or_false] at hc
    rcases hc with rfl | rfl | rfl | rfl
    · obtain ⟨payload, hpayload, hbytes⟩ := constant_spec hu64 hsize
      exact ⟨payload, hpayload, by rw [hbytes]⟩
    · exact ⟨packed, hpacked, by rw [hbytes]⟩
    · exact LinearEstimator.serialize_spec hu64 hlen hsize
    · exact serialize_spec hu64 hlen hsize

end Summa.FastField
