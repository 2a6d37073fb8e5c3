import Summa.Lib.LittleEndian
import Summa.Structures.PostingIterator

/-!
# The check of a decoded block (`verify_block_docs` of `structures/postings/posting.rs`)

A block's documents are decoded by adding up gaps in wrapping `u32` arithmetic. The check on the decode path
compares neighbours, unless the stored gaps already exclude a repeated document: then it looks at the end
points only.

* `verifyBlockDocs_eq_full`: whichever way a block was decoded, the check answers as the comparison of all
  neighbours does, and a block that passes is strictly increasing between its end points.
-/

namespace Summa

open List

abbrev Doc32 := BitVec 32

/-- The documents behind `doc`, each the wrapping sum of the one before and a gap. -/
def wrappingDocs (doc : Doc32) : List Doc32 → List Doc32
  | [] => [doc]
  | gap :: gaps => doc :: wrappingDocs (doc + gap) gaps

/-- `bitpacking4x::decode_docs` after unpacking: the gaps are stored less one. A full block stores a first
gap too and starts below `first`, with wrap-around at zero. -/
def decodeDocs (first : Doc32) (unpacked : List Doc32) : List Doc32 :=
  if unpacked.length = postingBlockSize then
    wrappingDocs (first - 1 + unpacked.headD 0 + 1) (unpacked.tail.map (· + 1))
  else wrappingDocs first (unpacked.map (· + 1))

/-- What the check takes for the order of the documents. -/
def docsOrdered (docs : List Doc32) (byteGaps : Option (List Byte)) (strictGapWidth : Option Nat) : Bool :=
  if strictGapWidth.any (· ≤ 25) then true
  else
    match byteGaps with
    | some gaps => gaps.all (· != 0)
    | none => docs.IsChain (· < ·)

def verifyBlockDocs (docs : List Doc32) (first last : Doc32) (byteGaps : Option (List Byte))
    (strictGapWidth : Option Nat) : Bool :=
  docsOrdered docs byteGaps strictGapWidth && first ≤ last && last.toNat ≠ terminated &&
    docs.head? = some first && docs.getLast? = some last

/-- How a block was decoded and what the check is told about its gaps. -/
inductive Decoded (start : Doc32) : List Doc32 → Option (List Byte) → Option Nat → Prop
  /-- `Rounded` gaps of eight bits, as `unpack_rounded_raw_delta_decode` adds them up. -/
  | bytes {gaps : List Byte} (short : gaps.length < postingBlockSize) :
    Decoded start (wrappingDocs start (gaps.map (·.setWidth 32))) (some gaps) none
  /-- `Simd4x` gaps of `width` bits. -/
  | strict {width : Nat} {unpacked : List Doc32} (short : unpacked.length ≤ postingBlockSize)
    (fits : ∀ gap ∈ unpacked, gap.toNat < 2 ^ width) : Decoded start (decodeDocs start unpacked) none (some width)
  | other (docs : List Doc32) : Decoded start docs none none

section

variable {doc last : Doc32} {gaps : List Doc32}

theorem wrappingDocs_cons (doc : Doc32) (gaps : List Doc32) : ∃ rest, wrappingDocs doc gaps = doc :: rest := by
  cases gaps <;> exact ⟨_, rfl⟩

theorem toNat_last_wrappingDocs (h : (wrappingDocs doc gaps).getLast? = some last) :
    last.toNat = (doc.toNat + (gaps.map (·.toNat)).sum) % 2 ^ 32 := by
  induction gaps generalizing doc with
  | nil =>
    obtain rfl : doc = last := by simpa [wrappingDocs] using h
    simp [Nat.mod_eq_of_lt doc.isLt]
  | cons gap gaps ih =>
    obtain ⟨rest, hrest⟩ := wrappingDocs_cons (doc + gap) gaps
    rw [wrappingDocs, hrest, getLast?_cons_cons, ← hrest] at h
    rw [ih h, BitVec.toNat_add, map_cons, sum_cons, Nat.mod_add_mod, Nat.add_assoc]

theorem isChain_wrappingDocs_cons {gap : Doc32} : (wrappingDocs doc (gap :: gaps)).IsChain (· < ·) ↔
    doc < doc + gap ∧ (wrappingDocs (doc + gap) gaps).IsChain (· < ·) := by
  obtain ⟨rest, hrest⟩ := wrappingDocs_cons (doc + gap) gaps
  rw [wrappingDocs, hrest, isChain_cons_cons]

theorem isChain_wrappingDocs (hpos : ∀ gap ∈ gaps, 0 < gap.toNat)
    (hsum : doc.toNat + (gaps.map (·.toNat)).sum < 2 ^ 32) : (wrappingDocs doc gaps).IsChain (· < ·) := by
  induction gaps generalizing doc with
  | nil => simp [wrappingDocs]
  | cons gap gaps ih =>
    rw [map_cons, sum_cons] at hsum
    have hgap := hpos gap (by simp)
    have hadd : (doc + gap).toNat = doc.toNat + gap.toNat := by
      rw [BitVec.toNat_add]
      omega
    refine isChain_wrappingDocs_cons.mpr ⟨?_, ih (fun g hg => hpos g (by simp [hg])) (by omega)⟩
    rw [BitVec.lt_def]
    omega

/-- A zero gap repeats a document. -/
theorem ne_zero_of_isChain (h : (wrappingDocs doc gaps).IsChain (· < ·)) : ∀ gap ∈ gaps, gap ≠ 0 := by
  induction gaps generalizing doc with
  | nil => simp
  | cons gap gaps ih =>
    obtain ⟨hlt, htail⟩ := isChain_wrappingDocs_cons.mp h
    rintro g hg rfl
    rcases mem_cons.mp hg with rfl | hg
    · simp at hlt
    · exact ih htail 0 hg rfl

/-- At most 127 gaps of at most `2 ^ 25` sum to less than `2 ^ 32`: a sum that wrapped would end below its
start. -/
theorem isChain_of_endpoints {first : Doc32} (hgaps : ∀ gap ∈ gaps, 0 < gap.toNat ∧ gap.toNat ≤ 2 ^ 25)
    (hlen : gaps.length < postingBlockSize) (hle : first ≤ last)
    (hfirst : (wrappingDocs doc gaps).head? = some first)
    (hlast : (wrappingDocs doc gaps).getLast? = some last) : (wrappingDocs doc gaps).IsChain (· < ·) := by
  obtain rfl : doc = first := by
    obtain ⟨rest, hrest⟩ := wrappingDocs_cons doc gaps
    simpa [hrest] using hfirst
  have hsum : (gaps.map (·.toNat)).sum ≤ (gaps.map (·.toNat)).length • 2 ^ 25 := by
    refine sum_le_card_nsmul _ _ fun n hn => ?_
    obtain ⟨gap, hgap, rfl⟩ := mem_map.mp hn
    exact (hgaps gap hgap).2
  rw [length_map, Nat.nsmul_eq_mul] at hsum
  rw [postingBlockSize] at hlen
  rw [BitVec.le_def, toNat_last_wrappingDocs hlast] at hle
  exact isChain_wrappingDocs (fun gap hgap => (hgaps gap hgap).1) (by omega)

end

theorem decodeDocs_eq (first : Doc32) {unpacked : List Doc32} (h : unpacked.length ≤ postingBlockSize) :
    ∃ doc gaps, gaps ⊆ unpacked ∧ gaps.length < postingBlockSize ∧
      decodeDocs first unpacked = wrappingDocs doc (gaps.map (· + 1)) := by
  unfold decodeDocs
  split
  case isTrue hfull =>
    exact ⟨_, _, tail_subset _, by rw [length_tail, hfull]; decide, rfl⟩
  case isFalse hpart => exact ⟨_, _, List.Subset.refl _, by omega, rfl⟩

section

variable {start first last : Doc32} {docs : List Doc32} {byteGaps : Option (List Byte)}
  {strictGapWidth : Option Nat}

/-- The order that the check assumes is the one of the documents, once the end points are right. -/
theorem docsOrdered_iff (h : Decoded start docs byteGaps strictGapWidth) (hle : first ≤ last)
    (hfirst : docs.head? = some first) (hlast : docs.getLast? = some last) :
    docsOrdered docs byteGaps strictGapWidth = true ↔ docs.IsChain (· < ·) := by
  cases h with
  | other => simp [docsOrdered]
  | @bytes gaps short =>
    have hzero : ∀ gap : Byte, gap.setWidth 32 = 0#32 ↔ gap = 0 := by decide
    refine ⟨fun h => isChain_of_endpoints (fun gap hgap => ?_) (by simpa using short) hle hfirst hlast, fun h => ?_⟩
    · obtain ⟨byte, hbyte, rfl⟩ := mem_map.mp hgap
      have hall : gaps.all (· != 0) = true := h
      have hne : byte ≠ 0 := by simpa using all_eq_true.mp hall byte hbyte
      have := BitVec.toNat_ne.mp hne
      simp at this ⊢
      omega
    · have := ne_zero_of_isChain h
      simpa [docsOrdered, hzero] using this
  | @strict width unpacked short fits =>
    by_cases hwidth : width ≤ 25
    · simp only [docsOrdered, Option.any_some, hwidth, decide_true, if_true, true_iff]
      obtain ⟨doc, gaps, hsub, hlen, heq⟩ := decodeDocs_eq start short
      rw [heq] at hfirst hlast ⊢
      refine isChain_of_endpoints (fun gap hgap => ?_) (by simpa using hlen) hle hfirst hlast
      obtain ⟨g, hg, rfl⟩ := mem_map.mp hgap
      have := (fits g (hsub hg)).trans_le (Nat.pow_le_pow_right (by decide) hwidth)
      simp
      omega
    · simp [docsOrdered, hwidth]

theorem verifyBlockDocs_iff : verifyBlockDocs docs first last byteGaps strictGapWidth = true ↔
    docsOrdered docs byteGaps strictGapWidth = true ∧ first ≤ last ∧ last.toNat ≠ terminated ∧
      docs.head? = some first ∧ docs.getLast? = some last := by
  simp [verifyBlockDocs, and_assoc]

/-- The shortcuts of the check answer as the comparison of all neighbours, and what passes is strictly
increasing from `first` to `last`. -/
theorem verifyBlockDocs_eq_full (h : Decoded start docs byteGaps strictGapWidth) :
    verifyBlockDocs docs first last byteGaps strictGapWidth = verifyBlockDocs docs first last none none ∧
      (verifyBlockDocs docs first last byteGaps strictGapWidth = true →
        docs.Pairwise (· < ·) ∧ docs.head? = some first ∧ docs.getLast? = some last) := by
  refine ⟨?_, fun hok => ?_⟩
  · rw [Bool.eq_iff_iff, verifyBlockDocs_iff, verifyBlockDocs_iff]
    refine and_congr_left fun ⟨hle, _, hfirst, hlast⟩ => ?_
    have hfull : Decoded start docs none none := .other docs
    rw [docsOrdered_iff h hle hfirst hlast, docsOrdered_iff hfull hle hfirst hlast]
  · obtain ⟨hord, hle, -, hfirst, hlast⟩ := verifyBlockDocs_iff.mp hok
    exact ⟨isChain_iff_pairwise.mp ((docsOrdered_iff h hle hfirst hlast).mp hord), hfirst, hlast⟩

/-- Three documents with gaps of one byte. -/
theorem verifyBlockDocs_three :
    verifyBlockDocs [7, 8, 263] 7 263 (some [1, 255]) none = true ∧ [(7 : Doc32), 8, 263].Pairwise (· < ·) := by
  have hdocs : Decoded 7 [7, 8, 263] (some [1, 255]) none := @Decoded.bytes 7 [1, 255] (by decide)
  have hok : verifyBlockDocs [7, 8, 263] 7 263 (some [1, 255]) none = true := by decide
  exact ⟨hok, ((verifyBlockDocs_eq_full hdocs).2 hok).1⟩

end

end Summa
