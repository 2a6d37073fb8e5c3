import Summa.Directories.Directory
import Summa.Lib.Fallible
import Summa.Structures.FastField.BitPack
import Mathlib.Data.List.MinMax

/-!
# Fast-field codecs (`structures/fast_field/codec.rs`)

Four codecs: constant, bit-packed, linear and block-wise linear. `serializeAuto` estimates the size of each and
writes with the smallest; `validateAuto` checks a payload; `autoRead`, `autoReadBatch` and
`autoReadBatchWithCursor` read it.

Values are numbers below `2 ^ 64`, differences are integers (`i128` in the source). A reader returns `none` where
the source would panic: on a slice outside the payload.
-/

namespace Summa.FastField

open Fallible List

inductive CodecType where
  | constant
  | bitpacked
  | linear
  | blockwiseLinear
  deriving DecidableEq, Repr

/-- The tag of a codec. -/
def CodecType.toByte : CodecType → Byte
  | constant => 0
  | bitpacked => 1
  | linear => 2
  | blockwiseLinear => 3

def CodecType.fromU8 (v : Byte) : Option CodecType :=
  if v = 0 then some constant
  else if v = 1 then some bitpacked
  else if v = 2 then some linear
  else if v = 3 then some blockwiseLinear
  else none

@[simp] theorem CodecType.fromU8_toByte (codec : CodecType) : fromU8 codec.toByte = some codec := by
  cases codec <;> rfl

/-- `BLOCKWISE_LINEAR_BLOCK_SIZE`. -/
def blockSize : Nat := 512

/-- The conversion `as u64` of an `i128`. -/
def asU64 (z : Int) : Nat := (z % 2 ^ 64).toNat

/-- The bytes of an `i64`. -/
def i64Bytes (z : Int) : List Byte := leBytes 8 (asU64 z)

/-- The `i64` with the bits of a `u64`. -/
def asI64 (n : Nat) : Int := if n < 2 ^ 63 then n else n - 2 ^ 64

def i64Min : Int := -2 ^ 63

def i64Max : Int := 2 ^ 63 - 1

/-- `i128::MAX`, the start of a minimum. -/
def i128Max : Int := 2 ^ 127 - 1

/-- `i128::MIN`, the start of a maximum. -/
def i128Min : Int := -2 ^ 127

/-- Minimum number of bits needed to represent `val`. -/
def bitsNeededU64 (val : Nat) : Nat := val.size

/-- Interpolate value at index `i` on the line from first to last over `n` values. -/
def interpolate (first last n i : Nat) : Nat :=
  if n ≤ 1 then first
  else asU64 (first + ((last - first : Int) * i).tdiv (n - 1))

/-- The number of bytes of `count` packed values. -/
def packedBytes (count bitsPerValue : Nat) : Nat := (count * bitsPerValue + 7) / 8

section Constant

/-- All values are identical. -/
structure ConstantEstimator where
  first : Option Nat
  allSame : Bool

namespace ConstantEstimator

def default : ConstantEstimator := ⟨none, false⟩

def collect (self : ConstantEstimator) (value : Nat) : ConstantEstimator :=
  match self.first with
  | none => ⟨some value, true⟩
  | some first => if value ≠ first then { self with allSame := false } else self

def estimate (self : ConstantEstimator) : Option Nat := if self.allSame then some 9 else none

def serialize (values : List Nat) : List Byte :=
  CodecType.constant.toByte :: leBytes 8 (values.headD 0)

end ConstantEstimator

end Constant

section Bitpacked

/-- Min-subtract + global bitpack. -/
structure BitpackedEstimator where
  min : Nat
  max : Nat
  count : Nat
  initialized : Bool

namespace BitpackedEstimator

def default : BitpackedEstimator := ⟨0, 0, 0, false⟩

def collect (self : BitpackedEstimator) (value : Nat) : BitpackedEstimator :=
  if self.initialized then ⟨Min.min self.min value, Max.max self.max value, self.count + 1, true⟩
  else ⟨value, value, self.count + 1, true⟩

def estimate (self : BitpackedEstimator) : Option Nat :=
  if self.count = 0 then some 0
  else some (10 + packedBytes self.count (bitsNeededU64 (self.max - self.min)))

/-- The smallest value and the width of the others above it. -/
def header (values : List Nat) : Nat × Nat :=
  match values.min?, values.max? with
  | some minVal, some maxVal => (minVal, bitsNeededU64 (maxVal - minVal))
  | _, _ => (0, 0)

def serialize (values : List Nat) : List Byte :=
  let (minValue, bpv) := header values
  CodecType.bitpacked.toByte :: (leBytes 8 minValue ++ (leBytes 1 bpv ++
    if 0 < bpv ∧ values ≠ [] then bitpackWrite (values.map (· - minValue)) bpv else []))

end BitpackedEstimator

/-- Read a single value; `data` starts behind the tag. -/
def bitpackedRead (data : List Byte) (index : Nat) : Option Nat := do
  let minValue ← readLe? 8 data 0
  let bpv ← readLe? 1 data 8
  if bpv = 0 then some minValue
  else do
    let packed ← dropBytes? data 9
    some ((bitpackRead packed bpv index + minValue) % 2 ^ 64)

/-- Widths of whole bytes: exactly one input chunk per output. -/
def decodeByteAlignedBatch (width : Nat) (packed : List Byte) (start : Nat) (out : List Nat) (min : Nat) :
    Option (List Nat) :=
  if out = [] then some []
  else do
    let bytes ← sliceBytes? packed (start * width) (out.length * width)
    some ((range out.length).map fun i => (columnAt width bytes i + min) % 2 ^ 64)

/-- Read consecutive values into `out`. -/
def bitpackedReadBatch (data : List Byte) (startIndex : Nat) (out : List Nat) : Option (List Nat) := do
  let minValue ← readLe? 8 data 0
  let bpv ← readLe? 1 data 8
  if bpv = 0 then some (replicate out.length minValue)
  else do
    let packed ← dropBytes? data 9
    if bpv = 8 then decodeByteAlignedBatch 1 packed startIndex out minValue
    else if bpv = 16 then decodeByteAlignedBatch 2 packed startIndex out minValue
    else if bpv = 32 then decodeByteAlignedBatch 4 packed startIndex out minValue
    else if bpv = 64 then decodeByteAlignedBatch 8 packed startIndex out minValue
    else
      some ((range out.length).map fun i =>
        (bitpackRead packed bpv (startIndex + i) + minValue) % 2 ^ 64)

end Bitpacked

section Linear

/-- What the values differ from the line through the first and the last. -/
def residuals (values : List Nat) : List Int :=
  values.zipIdx.map fun v =>
    (v.1 : Int) - interpolate (values.headD 0) (values.getLastD 0) values.length v.2

/-- A line through the first and the last value, residuals bit-packed. -/
structure LinearEstimator where
  count : Nat
  first : Nat
  last : Nat
  minVal : Nat
  maxVal : Nat
  minResidual : Int
  maxResidual : Int
  valuesCollected : Bool
  overflow : Bool

namespace LinearEstimator

def default : LinearEstimator := ⟨0, 0, 0, 0, 0, 0, 0, false, false⟩

def collect (self : LinearEstimator) (value : Nat) : LinearEstimator :=
  let self :=
    if self.valuesCollected then { self with minVal := min self.minVal value, maxVal := max self.maxVal value }
    else { self with first := value, minVal := value, maxVal := value, valuesCollected := true }
  { self with last := value, count := self.count + 1 }

/-- Bounds of the residuals from the extreme values; the offset has to fit an `i64`. -/
def finalize (self : LinearEstimator) : LinearEstimator :=
  if self.count < 2 then self
  else
    let minRes : Int := self.minVal - max self.first self.last
    let maxRes : Int := self.maxVal - min self.first self.last
    if minRes < i64Min ∨ i64Max < maxRes then { self with overflow := true }
    else { self with minResidual := minRes, maxResidual := maxRes }

def estimate (self : LinearEstimator) : Option Nat :=
  if self.count < 2 ∨ self.overflow then none
  else some (30 + packedBytes self.count (bitsNeededU64 (asU64 (self.maxResidual - self.minResidual))))

def serialize (values : List Nat) : IoResult (List Byte) := do
  failIf (values.length < 2) (.invalidInput "linear needs ≥ 2 values")
  let minResidual := (residuals values).foldl min i128Max
  failIf (minResidual < i64Min ∨ i64Max < minResidual)
    (.invalidInput "linear codec: residual offset exceeds i64 range")
  let shifted := (residuals values).map fun r => asU64 (r - minResidual)
  let bpv := bitsNeededU64 (shifted.max?.getD 0)
  .ok (CodecType.linear.toByte :: (leBytes 8 (values.headD 0) ++ (leBytes 8 (values.getLastD 0) ++
    (leBytes 4 values.length ++ (i64Bytes minResidual ++ (leBytes 1 bpv ++
      if 0 < bpv then bitpackWrite shifted bpv else []))))))

end LinearEstimator

/-- Read a single value; `data` starts behind the tag. -/
def linearRead (data : List Byte) (index : Nat) : Option Nat := do
  let first ← readLe? 8 data 0
  let last ← readLe? 8 data 8
  let n ← readLe? 4 data 16
  let offset ← readLe? 8 data 20
  let bpv ← readLe? 1 data 28
  let residual ← if bpv = 0 then some 0 else (dropBytes? data 29).map fun packed => bitpackRead packed bpv index
  some (asU64 (interpolate first last n index + asI64 offset + residual))

end Linear

section Blockwise

structure BlockEstimate where
  minResidual : Int
  bitsPerValue : Nat
  serializedSize : Nat
  deriving DecidableEq

/-- The estimate for one block; none if a residual does not fit an `i64`. -/
def estimateBlock (block : List Nat) : Option BlockEstimate :=
  if block.length < 2 then some ⟨0, 0, 29⟩
  else
    let minRes := (residuals block).foldl min i128Max
    let maxRes := (residuals block).foldl max i128Min
    if minRes < i64Min ∨ i64Max < maxRes then none
    else
      let bits := bitsNeededU64 (asU64 (maxRes - minRes))
      some ⟨minRes, bits, 29 + packedBytes block.length bits⟩

/-- Values `b * 512 ..`, at most 512 of them. -/
def blockAt (values : List Nat) (b : Nat) : List Nat := (values.drop (b * blockSize)).take blockSize

/-- Per-block linear interpolation with per-block bit-packed residuals. -/
structure BlockwiseLinearEstimator where
  count : Nat
  completedSize : Nat
  currentBlock : List Nat
  completedBlocks : List BlockEstimate
  tailEstimate : Option BlockEstimate
  overflow : Bool

namespace BlockwiseLinearEstimator

def default : BlockwiseLinearEstimator := ⟨0, 0, [], [], none, false⟩

variable (self : BlockwiseLinearEstimator)

/-- Estimate complete blocks; stop at one that does not fit. -/
def collectBlocks (self : BlockwiseLinearEstimator) : List (List Nat) → BlockwiseLinearEstimator
  | [] => self
  | block :: blocks =>
    match estimateBlock block with
    | some estimate =>
      collectBlocks { self with
        completedSize := self.completedSize + estimate.serializedSize
        completedBlocks := self.completedBlocks ++ [estimate] } blocks
    | none => { self with overflow := true }

def collectValues (values : List Nat) : BlockwiseLinearEstimator :=
  let self := collectBlocks { default with count := values.length }
    ((range (values.length / blockSize)).map (blockAt values))
  if self.overflow then self
  else { self with currentBlock := values.drop (values.length / blockSize * blockSize) }

def finalize : BlockwiseLinearEstimator :=
  let tail := if self.currentBlock = [] ∨ self.overflow then none else estimateBlock self.currentBlock
  { self with
    tailEstimate := tail
    overflow := self.overflow || (decide (self.currentBlock ≠ []) && tail.isNone) }

def estimate : Option Nat :=
  if self.count < 2 * blockSize ∨ self.overflow then none
  else if self.currentBlock = [] then some (9 + self.completedSize)
  else (self.tailEstimate.or (estimateBlock self.currentBlock)).map fun tail =>
    9 + self.completedSize + tail.serializedSize

/-- One block of the payload, with its estimate. -/
def blockRecord (block : List Nat) (estimate : BlockEstimate) : List Byte :=
  let shifted := (residuals block).map fun r => if block.length < 2 then 0 else asU64 (r - estimate.minResidual)
  let packed := if 0 < estimate.bitsPerValue then bitpackWrite shifted estimate.bitsPerValue else []
  leBytes 8 (block.headD 0) ++ (leBytes 8 (block.getLastD 0) ++ (i64Bytes estimate.minResidual ++
    (leBytes 1 estimate.bitsPerValue ++ (leBytes 4 packed.length ++ packed))))

/-- The estimate that is used for block `b`. -/
def estimateFor (values : List Nat) (b : Nat) : IoResult BlockEstimate :=
  let n := values.length
  let estimatesMatch := self.count = n ∧ self.completedBlocks.length = n / blockSize ∧
    (n % blockSize = 0 ∨ self.tailEstimate.isSome)
  let estimate := if estimatesMatch then self.completedBlocks[b]?.or self.tailEstimate else none
  match estimate.or (estimateBlock (blockAt values b)) with
  | some estimate => .ok estimate
  | none => .error (.invalidInput "blockwise linear codec: per-block residual offset exceeds i64 range")

def serialize (values : List Nat) : IoResult (List Byte) := do
  let n := values.length
  let numBlocks := (n + (blockSize - 1)) / blockSize
  let records ← (range numBlocks).mapM fun b => do
    let estimate ← self.estimateFor values b
    .ok (blockRecord (blockAt values b) estimate)
  .ok (CodecType.blockwiseLinear.toByte :: (leBytes 4 n ++ (leBytes 4 numBlocks ++ records.flatten)))

end BlockwiseLinearEstimator

/-- The header of a block of the payload. -/
structure BlockHeader where
  first : Nat
  last : Nat
  offset : Int
  bpv : Nat

def readBlockHeader (data : List Byte) (pos : Nat) : Option BlockHeader := do
  let first ← readLe? 8 data pos
  let last ← readLe? 8 data (pos + 8)
  let offset ← readLe? 8 data (pos + 16)
  let bpv ← readLe? 1 data (pos + 24)
  some ⟨first, last, asI64 offset, bpv⟩

/-- The value at an index of a block of `blockLen` values. -/
def BlockHeader.value (self : BlockHeader) (packed : List Byte) (blockLen index : Nat) : Nat :=
  asU64 (interpolate self.first self.last blockLen index + self.offset +
    if self.bpv = 0 then 0 else bitpackRead packed self.bpv index)

/-- The loop over the blocks `b..`, of which there are `left`. -/
def blockwiseLinearReadLoop (data : List Byte) (numValues index : Nat) : (left b pos : Nat) → Option Nat
  | 0, _, _ => some 0
  | left + 1, b, pos => do
    let header ← readBlockHeader data pos
    let packedLen ← readLe? 4 data (pos + 25)
    if b = index / blockSize then
      let blockLen := min ((b + 1) * blockSize) numValues - b * blockSize
      let packed ← dropBytes? data (pos + 29)
      some (header.value packed blockLen (index % blockSize))
    else blockwiseLinearReadLoop data numValues index left (b + 1) (pos + (29 + packedLen))

/-- Resume from a validated header checkpoint. -/
def blockwiseLinearReadFrom (data : List Byte) (index firstBlock pos : Nat) : Option Nat := do
  let numValues ← readLe? 4 data 0
  let numBlocks ← readLe? 4 data 4
  blockwiseLinearReadLoop data numValues index (numBlocks - firstBlock) firstBlock pos

def blockwiseLinearRead (data : List Byte) (index : Nat) : Option Nat := blockwiseLinearReadFrom data index 0 8

/-- Position in one admitted column payload. -/
structure BlockwiseLinearCursor where
  block : Nat
  offset : Nat
  deriving DecidableEq, Repr

def BlockwiseLinearCursor.default : BlockwiseLinearCursor := ⟨0, 8⟩

/-- The loop of a batch read; `written` are the values that are in the output, of which `validLen` are wanted. -/
def blockwiseBatchLoop (data : List Byte) (numValues startIndex validLen : Nat) :
    (left blockIdx pos : Nat) → (written : List Nat) → BlockwiseLinearCursor →
      Option (List Nat × BlockwiseLinearCursor)
  | 0, _, _, written, cursor => some (written, cursor)
  | left + 1, blockIdx, pos, written, cursor => do
    let packedLen ← readLe? 4 data (pos + 25)
    if blockIdx < startIndex / blockSize then
      blockwiseBatchLoop data numValues startIndex validLen left (blockIdx + 1) (pos + (29 + packedLen)) written
        cursor
    else do
      let header ← readBlockHeader data pos
      let packed ← sliceBytes? data (pos + 29) packedLen
      let blockStart := blockIdx * blockSize
      let blockLen := min (numValues - blockStart) blockSize
      let indexInBlock := if blockIdx = startIndex / blockSize then startIndex - blockStart else 0
      let take := min (blockLen - indexInBlock) (validLen - written.length)
      let written := written ++ (range take).map fun i => header.value packed blockLen (indexInBlock + i)
      let cursor : BlockwiseLinearCursor :=
        if indexInBlock + take = blockLen then ⟨blockIdx + 1, pos + (29 + packedLen)⟩ else ⟨blockIdx, pos⟩
      if written.length = validLen then some (written, cursor)
      else
        blockwiseBatchLoop data numValues startIndex validLen left (blockIdx + 1) (pos + (29 + packedLen)) written
          cursor

def blockwiseLinearReadBatchWithCursor (data : List Byte) (startIndex : Nat) (out : List Nat)
    (cursor : BlockwiseLinearCursor) : Option (List Nat × BlockwiseLinearCursor) :=
  if out = [] then some ([], cursor)
  else do
    let numValues ← readLe? 4 data 0
    let numBlocks ← readLe? 4 data 4
    let validLen := min out.length (numValues - startIndex)
    let zeros := replicate (out.length - validLen) 0
    if validLen = 0 then some (zeros, cursor)
    else do
      let cursor := if startIndex / blockSize < cursor.block then .default else cursor
      let (written, cursor) ← blockwiseBatchLoop data numValues startIndex validLen (numBlocks - cursor.block)
        cursor.block cursor.offset [] cursor
      some (written ++ ((out.take validLen).drop written.length ++ zeros), cursor)

end Blockwise

section Auto

/-- What the selection uses of an estimator. -/
structure Candidate where
  estimate : Option Nat
  serialize : IoResult (List Byte)

/-- Serialize values using the codec that produces the smallest output. -/
def serializeAuto (values : List Nat) : IoResult (List Byte) :=
  let constant := values.foldl .collect ConstantEstimator.default
  let bitpacked := values.foldl .collect BitpackedEstimator.default
  let linear := (values.foldl .collect LinearEstimator.default).finalize
  let blockwise := (BlockwiseLinearEstimator.collectValues values).finalize
  let bitpackedBytes : IoResult (List Byte) := .ok (BitpackedEstimator.serialize values)
  let candidates : List Candidate := [
    ⟨constant.estimate, .ok (ConstantEstimator.serialize values)⟩,
    ⟨bitpacked.estimate, bitpackedBytes⟩,
    ⟨linear.estimate, LinearEstimator.serialize values⟩,
    ⟨blockwise.estimate, blockwise.serialize values⟩]
  let sized := candidates.filterMap fun c => c.estimate.map fun size => (size, c.serialize)
  match sized.argmin (·.1) with
  | some best => best.2
  | none => bitpackedBytes

/-- The packed length that goes with a width; the sums of the source cannot overflow after this check. -/
def checkedPackedLen (count bpv : Nat) : IoResult Nat := do
  failIf (64 < bpv) (.invalidData "fast field bit width exceeds 64")
  failIf (u64Max < count * bpv + 7) (.invalidData "fast field size overflow")
  .ok (packedBytes count bpv)

/-- The check of the blocks `blockIdx..`, of which there are `left`: the position behind the last. -/
def validateBlocks (rest : List Byte) (count : Nat) : (left blockIdx pos : Nat) → IoResult Nat
  | 0, _, pos => .ok pos
  | left + 1, blockIdx, pos => do
    failIf (rest.length < pos + 29)
      (.unexpectedEof "blockwise fast field block header is truncated")
    let declared := readLe 4 rest (pos + 25)
    let blockCount := min (count - blockIdx * blockSize) blockSize
    let expected ← checkedPackedLen blockCount (readLe 1 rest (pos + 24))
    failIf (declared ≠ expected) (.invalidData "blockwise fast field packed length is inconsistent")
    failIf (rest.length < pos + 29 + declared) (.unexpectedEof "blockwise fast field data is truncated")
    validateBlocks rest count left (blockIdx + 1) (pos + 29 + declared)

def validateConstant (rest : List Byte) : IoResult Unit :=
  failIf (rest.length ≠ 8) (.invalidData "invalid constant fast field length")

def validateBitpacked (rest : List Byte) (expectedValues : Nat) : IoResult Unit := do
  failIf (rest.length < 9) (.unexpectedEof "bitpacked fast field header is truncated")
  let packedLen ← checkedPackedLen expectedValues (readLe 1 rest 8)
  failIf (rest.length ≠ 9 + packedLen) (.invalidData "bitpacked fast field length is inconsistent")

def validateLinear (rest : List Byte) (expectedValues : Nat) : IoResult Unit := do
  failIf (rest.length < 29) (.unexpectedEof "linear fast field header is truncated")
  let count := readLe 4 rest 16
  failIf (count ≠ expectedValues ∨ count < 2) (.invalidData "linear fast field value count is inconsistent")
  let packedLen ← checkedPackedLen count (readLe 1 rest 28)
  failIf (rest.length ≠ 29 + packedLen) (.invalidData "linear fast field length is inconsistent")

def validateBlockwise (rest : List Byte) (expectedValues : Nat) : IoResult Unit := do
  failIf (rest.length < 8) (.unexpectedEof "blockwise fast field header is truncated")
  let count := readLe 4 rest 0
  let numBlocks := readLe 4 rest 4
  failIf (count ≠ expectedValues ∨ numBlocks ≠ (count + (blockSize - 1)) / blockSize)
    (.invalidData "blockwise fast field counts are inconsistent")
  let pos ← validateBlocks rest count numBlocks 0 8
  failIf (pos ≠ rest.length) (.invalidData "blockwise fast field contains trailing data")

variable (data : List Byte)

/-- Validate a payload before exposing it through the readers. -/
def validateAuto (expectedValues : Nat) : IoResult Unit :=
  match data with
  | [] => .error (.unexpectedEof "fast field codec is missing")
  | codecId :: rest =>
    match CodecType.fromU8 codecId with
    | some .constant => validateConstant rest
    | some .bitpacked => validateBitpacked rest expectedValues
    | some .linear => validateLinear rest expectedValues
    | some .blockwiseLinear => validateBlockwise rest expectedValues
    | none => .error (.invalidData "unknown fast field codec")

/-- Batch decode with an optional sequential advantage for the block-wise codec. -/
def autoReadBatchWithCursor (startIndex : Nat) (out : List Nat)
    (cursor : BlockwiseLinearCursor) : Option (List Nat × BlockwiseLinearCursor) :=
  match data with
  | [] => some (replicate out.length 0, cursor)
  | codecId :: rest =>
    if out = [] then some ([], cursor)
    else
      match CodecType.fromU8 codecId with
      | some .constant => (readLe? 8 rest 0).map fun val => (replicate out.length val, cursor)
      | some .bitpacked => (bitpackedReadBatch rest startIndex out).map fun out => (out, cursor)
      | some .linear =>
        ((range out.length).mapM fun i => linearRead rest (startIndex + i)).map fun out => (out, cursor)
      | some .blockwiseLinear => blockwiseLinearReadBatchWithCursor rest startIndex out cursor
      | none => some (replicate out.length 0, cursor)

def autoReadBatch (startIndex : Nat) (out : List Nat) : Option (List Nat) :=
  (autoReadBatchWithCursor data startIndex out .default).map (·.1)

/-- Read a single value. -/
def autoRead (index : Nat) : Option Nat :=
  match data with
  | [] => some 0
  | codecId :: rest =>
    match CodecType.fromU8 codecId with
    | some .constant => readLe? 8 rest 0
    | some .bitpacked => bitpackedRead rest index
    | some .linear => linearRead rest index
    | some .blockwiseLinear => blockwiseLinearRead rest index
    | none => some 0

end Auto

end Summa.FastField
