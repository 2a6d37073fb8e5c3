import Summa.Error
import Summa.Lib.Fallible
import Summa.Lib.LittleEndian

/-!
# Blocks of sparse postings (`structures/postings/sparse/block.rs`)

`from_owned_bytes` slices a block out of a file, and the decoders widen its packed columns. What runs
out of a slice, out of a fixed array or over `u32::MAX` has no result here: outer `none`.

`admits_iff`: the checks of `from_owned_bytes` guard the decoders exactly for blocks that are
`WellSized`; no check compares the header with the lengths of the columns, so other blocks get through
to the decoders (`not_admits_short`).
-/

namespace Summa.Sparse

open List

def maxBlockSize : Nat := 256

inductive WeightQuantization where
  | float32 | float16 | uInt8 | uInt4
  deriving DecidableEq, Repr

def WeightQuantization.fromU8 : Nat → Option WeightQuantization
  | 0 => some float32
  | 1 => some float16
  | 2 => some uInt8
  | 3 => some uInt4
  | _ => none

/-- The header; its `max_weight` is not read here. -/
structure BlockHeader where
  count : Nat
  docIdBits : Nat
  ordinalBits : Nat
  weightQuant : WeightQuantization
  firstDocId : Nat
  deriving DecidableEq, Repr

def BlockHeader.size : Nat := 16

/-- The `n` bytes at `start`, as a number. -/
def field (b : List Byte) (start n : Nat) : Nat := leNat ((b.drop start).take n)

def BlockHeader.read (b : List Byte) : Except String BlockHeader :=
  match WeightQuantization.fromU8 (field b 4 1) with
  | none => .error "Invalid weight quant"
  | some weightQuant => .ok ⟨field b 0 2, field b 2 1, field b 3 1, weightQuant, field b 8 4⟩

structure SparseBlock where
  header : BlockHeader
  docIdsData : List Byte
  ordinalsData : List Byte
  weightsData : List Byte
  lastDocId : Nat
  deriving DecidableEq, Repr

/-! ## Packed columns (`structures/simd.rs`) -/

inductive RoundedBitWidth where
  | zero | bits8 | bits16 | bits32
  deriving DecidableEq, Repr

namespace RoundedBitWidth

def tryFromU8 : Nat → Option RoundedBitWidth
  | 0 => some zero
  | 8 => some bits8
  | 16 => some bits16
  | 32 => some bits32
  | _ => none

def fromU8 (bits : Nat) : RoundedBitWidth := (tryFromU8 bits).getD bits32

def bytesPerValue : RoundedBitWidth → Nat
  | zero => 0
  | bits8 => 1
  | bits16 => 2
  | bits32 => 4

end RoundedBitWidth

/-- The first `count` values of a column. -/
def columnValues (input : List Byte) (width : RoundedBitWidth) (count : Nat) : List Nat :=
  (range count).map fun i => field input (i * width.bytesPerValue) width.bytesPerValue

/-- Every kernel reads the bytes of `count` values and no others. -/
def unpackRounded (input : List Byte) (width : RoundedBitWidth) (count : Nat) : Option (List Nat) :=
  if count * width.bytesPerValue ≤ input.length then some (columnValues input width count) else none

/-- `+` on `u32`. -/
def addU32 (a b : Nat) : Option Nat := if a + b ≤ u32Max then some (a + b) else none

/-- `array[..n]` of a scratch array. -/
def scratch (n : Nat) : Option Unit := if n ≤ maxBlockSize then some () else none

def computeLastDoc (header : BlockHeader) (docIdsData : List Byte) : Option Nat :=
  if header.count ≤ 1 then some header.firstDocId
  else if header.docIdBits = 0 then some header.firstDocId
  else do
    let numDeltas := header.count - 1
    scratch numDeltas
    let deltas ← unpackRounded docIdsData (.fromU8 header.docIdBits) numDeltas
    let sum ← deltas.foldlM addU32 0
    addU32 header.firstDocId sum

/-! ## Loading -/

/-- The first 32 bytes in hexadecimal, as the messages have them. -/
def firstHex (b : List Byte) : String :=
  " ".intercalate ((b.take 32).map fun x =>
    String.ofList [Nat.digitChar (x.toNat / 16), Nat.digitChar (x.toNat % 16)])

/-- The checks of `from_owned_bytes`: the header and the three columns. -/
def sections (b : List Byte) : Result (BlockHeader × List Byte × List Byte × List Byte) :=
  if b.length < BlockHeader.size + 8 then .error (.corruption "sparse block too small")
  else match BlockHeader.read b with
    | .error e => .error (.corruption e)
    | .ok header =>
      if header.count = 0 then
        .error (.corruption
          s!"sparse block has count=0 (data_len={b.length}, first_32_bytes=[{firstHex b}])")
      else
        let p := BlockHeader.size
        let docIdsLen := field b p 2
        let ordinalsLen := field b (p + 2) 2
        let weightsLen := field b (p + 4) 2
        let dataStart := p + 8
        let ordStart := dataStart + docIdsLen
        let wtStart := ordStart + ordinalsLen
        let expectedEnd := wtStart + weightsLen
        if expectedEnd > b.length then
          .error (.corruption (s!"sparse block sub-block overflow: count={header.count} " ++
            s!"doc_ids={docIdsLen}B ords={ordinalsLen}B wts={weightsLen}B need={expectedEnd}B " ++
            s!"have={b.length}B (first_32=[{firstHex b}])"))
        else .ok (header, (b.drop dataStart).take docIdsLen, (b.drop ordStart).take ordinalsLen,
          (b.drop wtStart).take weightsLen)

def fromOwnedBytes (b : List Byte) : Option (Result SparseBlock) :=
  match sections b with
  | .error e => some (.error e)
  | .ok (header, docIdsData, ordinalsData, weightsData) => do
    let lastDocId ← computeLastDoc header docIdsData
    return .ok ⟨header, docIdsData, ordinalsData, weightsData, lastDocId⟩

/-! ## Decoding -/

/-- The in-place prefix sum of `decode_doc_ids_into`, behind a document. -/
def prefixSum (previous : Nat) : List Nat → Option (List Nat)
  | [] => some [previous]
  | delta :: deltas => do
    let next ← addU32 delta previous
    let rest ← prefixSum next deltas
    return previous :: rest

namespace SparseBlock

def decodeDocIdsInto (self : SparseBlock) : Option (List Nat) :=
  let count := self.header.count
  if count = 0 then none
  else if count ≤ 1 then some [self.header.firstDocId]
  else if self.header.docIdBits = 0 then some (replicate count self.header.firstDocId)
  else do
    let deltas ← unpackRounded self.docIdsData (.fromU8 self.header.docIdBits) (count - 1)
    prefixSum self.header.firstDocId deltas

def decodeOrdinalsInto (self : SparseBlock) : Option (List Nat) :=
  let count := self.header.count
  if self.header.ordinalBits = 0 then some (replicate count 0)
  else do
    scratch count
    let temp ← unpackRounded self.ordinalsData (.fromU8 self.header.ordinalBits) count
    return temp.map (· % 2 ^ 16)

end SparseBlock

/-! ## What the checks admit -/

/-- The columns have what the header announces, and the documents are in range. -/
structure WellSized (header : BlockHeader) (docIdsData ordinalsData : List Byte) : Prop where
  count : header.count ≤ maxBlockSize
  docIds : (header.count - 1) * (RoundedBitWidth.fromU8 header.docIdBits).bytesPerValue ≤ docIdsData.length
  ordinals : header.count * (RoundedBitWidth.fromU8 header.ordinalBits).bytesPerValue ≤ ordinalsData.length
  lastDoc : header.firstDocId +
    (columnValues docIdsData (.fromU8 header.docIdBits) (header.count - 1)).sum ≤ u32Max

/-- The bytes are rejected or decode without a fault; those with a count over the limit, a short
column or documents out of range are rejected. -/
def Admits (b : List Byte) : Prop :=
  (∃ r, fromOwnedBytes b = some r ∧ ∀ block, r = .ok block →
    block.decodeDocIdsInto.isSome ∧ block.decodeOrdinalsInto.isSome) ∧
  ∀ header docIdsData ordinalsData weightsData,
    sections b = .ok (header, docIdsData, ordinalsData, weightsData) →
    ¬ WellSized header docIdsData ordinalsData → ∃ e, fromOwnedBytes b = some (.error e)

theorem foldlM_addU32 {s : Nat} {ds : List Nat} (h : s + ds.sum ≤ u32Max) :
    ds.foldlM addU32 s = some (s + ds.sum) := by
  induction ds generalizing s with
  | nil => rfl
  | cons d ds ih =>
    rw [sum_cons, ← Nat.add_assoc] at h
    rw [foldlM_cons, addU32, if_pos (by omega), sum_cons, ← Nat.add_assoc]
    exact ih h

theorem prefixSum_isSome (previous : Nat) {ds : List Nat} (h : previous + ds.sum ≤ u32Max) :
    (prefixSum previous ds).isSome := by
  induction ds generalizing previous with
  | nil => rfl
  | cons d ds ih =>
    rw [sum_cons] at h
    obtain ⟨rest, hrest⟩ := Option.isSome_iff_exists.mp (ih (d + previous) (by omega))
    simp [prefixSum, addU32, hrest, show d + previous ≤ u32Max by omega]

variable {header : BlockHeader} {docIdsData ordinalsData weightsData : List Byte} {lastDocId : Nat}

variable (h : WellSized header docIdsData ordinalsData)

include h in
theorem WellSized.computeLastDoc :
    ∃ lastDocId, computeLastDoc header docIdsData = some lastDocId := by
  unfold Sparse.computeLastDoc
  split
  · exact ⟨_, rfl⟩
  split
  · exact ⟨_, rfl⟩
  have hscratch : header.count - 1 ≤ maxBlockSize := (Nat.sub_le ..).trans h.count
  have hsum : 0 + (columnValues docIdsData (.fromU8 header.docIdBits) (header.count - 1)).sum ≤ u32Max := by
    have := h.lastDoc
    omega
  simp only [scratch, if_pos hscratch, unpackRounded, if_pos h.docIds, Option.bind_eq_bind, Option.bind_some,
    foldlM_addU32 hsum, Nat.zero_add, addU32, if_pos h.lastDoc]
  exact ⟨_, rfl⟩

include h in
theorem WellSized.decodeDocIdsInto (h0 : header.count ≠ 0) :
    (SparseBlock.decodeDocIdsInto ⟨header, docIdsData, ordinalsData, weightsData, lastDocId⟩).isSome := by
  unfold SparseBlock.decodeDocIdsInto
  simp only [h0, if_false]
  split
  · rfl
  split
  · rfl
  simp only [unpackRounded, if_pos h.docIds, Option.bind_eq_bind, Option.bind_some]
  exact prefixSum_isSome _ h.lastDoc

include h in
theorem WellSized.decodeOrdinalsInto :
    (SparseBlock.decodeOrdinalsInto ⟨header, docIdsData, ordinalsData, weightsData, lastDocId⟩).isSome := by
  unfold SparseBlock.decodeOrdinalsInto
  dsimp only
  split
  · rfl
  simp only [scratch, if_pos h.count, unpackRounded, if_pos h.ordinals, Option.bind_eq_bind, Option.bind_some]
  rfl

theorem count_of_sections {b : List Byte} (h : sections b = .ok (header, docIdsData, ordinalsData, weightsData)) :
    header.count ≠ 0 := by
  unfold sections at h
  obtain ⟨-, h⟩ := Fallible.ite_eq_ok.mp h
  split at h
  · cases h
  · obtain ⟨h0, h⟩ := Fallible.ite_eq_ok.mp h
    obtain ⟨-, h⟩ := Fallible.ite_eq_ok.mp h
    cases h
    exact h0

/-- Exactly the bytes that fail a check or make a well-sized block are handled. -/
theorem admits_iff (b : List Byte) :
    Admits b ↔ ∀ header docIdsData ordinalsData weightsData,
      sections b = .ok (header, docIdsData, ordinalsData, weightsData) →
      WellSized header docIdsData ordinalsData := by
  constructor
  · rintro ⟨-, hrejects⟩ header docIdsData ordinalsData weightsData hsections
    by_contra hbad
    obtain ⟨e, he⟩ := hrejects _ _ _ _ hsections hbad
    -- past the checks nothing is rejected
    simp only [fromOwnedBytes, hsections] at he
    cases hlast : computeLastDoc header docIdsData <;> rw [hlast] at he <;> cases he
  · intro h
    refine ⟨?_, fun _ _ _ _ hsections hbad => absurd (h _ _ _ _ hsections) hbad⟩
    unfold fromOwnedBytes
    cases hsections : sections b with
    | error e => exact ⟨_, rfl, nofun⟩
    | ok parts =>
      obtain ⟨header, docIdsData, ordinalsData, weightsData⟩ := parts
      have hsized := h _ _ _ _ hsections
      obtain ⟨lastDocId, hlast⟩ := hsized.computeLastDoc
      refine ⟨.ok ⟨header, docIdsData, ordinalsData, weightsData, lastDocId⟩, by simp [hlast], ?_⟩
      rintro block ⟨⟩
      exact ⟨hsized.decodeDocIdsInto (count_of_sections hsections), hsized.decodeOrdinalsInto⟩

/-- A header with two postings, whose documents take a byte each, and no columns. -/
def shortBlock : List Byte := 2 :: 0 :: 8 :: replicate 21 0

/-- The delta of the second document is read out of an empty column. -/
theorem not_admits_short : fromOwnedBytes shortBlock = none ∧ ¬ Admits shortBlock := by
  have hnone : fromOwnedBytes shortBlock = none := rfl
  refine ⟨hnone, fun h => ?_⟩
  obtain ⟨r, hr, -⟩ := h.1
  rw [hnone] at hr
  cases hr

end Summa.Sparse
