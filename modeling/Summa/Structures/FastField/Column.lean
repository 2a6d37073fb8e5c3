import Summa.Lib.BinarySearch
import Summa.Lib.ByteKeys
import Summa.Structures.FastField
import Summa.Structures.FastField.Codec

/-!
# Fast-field columns in a file (`structures/fast_field/mod.rs`, `checkpoints.rs`)

A column is a sequence of blocks that are decoded on their own: a fresh segment has one, a merged one the blocks of
its sources. `FastFieldReader.openColumn` checks a column and splits it; the readers find the block of a document and
decode there. Point reads of the block-wise codec resume at one of at most 256 checkpoints. In text columns a value
is an ordinal in the dictionary of its block; the ordinals of all blocks are mapped to those of a merged dictionary.

As in the codecs, `none` is a panic of the source. Opening can fail in both ways: with an error and, on a dictionary
whose last length is cut off, with a panic (`Failure`). The text state is computed here whenever it is used; the
source keeps it.
-/

namespace Summa.FastField

open Fallible

/-- `FAST_FIELD_MISSING`: the raw value of a document without a value. -/
def fastFieldMissing : Nat := u64Max

/-- How opening a column can fail. -/
inductive Failure where
  | panic
  | io (error : IoError)

/-- The `?` of the source on an I/O result. -/
def orFail {α : Type} (r : IoResult α) : Except Failure α := r.mapError .io

/-- A read that panics outside the data. -/
def orPanic {α : Type} : Option α → Except Failure α
  | some a => .ok a
  | none => .error .panic

section Dictionary

/-- `std::str::from_utf8` succeeds. -/
def validUtf8 (bytes : List Byte) : Bool :=
  (ByteArray.mk (bytes.map UInt8.ofBitVec).toArray).validateUTF8

/-- Sorted dictionary for text ordinal columns: the texts, each behind its length. -/
structure TextDictReader where
  data : List Byte
  count : Nat

namespace TextDictReader

/-- The place and the length of each text. Places are kept as `u32`. -/
def offsetsLoop (data : List Byte) : (left pos : Nat) → Option (List (Nat × Nat))
  | 0, _ => some []
  | left + 1, pos => do
    let len ← readLe? 4 data pos
    let rest ← offsetsLoop data left (pos + 4 + len)
    some (((pos + 4) % 2 ^ 32, len) :: rest)

def ensureOffsets (self : TextDictReader) : Option (List (Nat × Nat)) := offsetsLoop self.data self.count 0

/-- The bytes of one text. -/
def slice (self : TextDictReader) (entry : Nat × Nat) : Option (List Byte) := sliceBytes? self.data entry.1 entry.2

/-- Get string by ordinal. -/
def get (self : TextDictReader) (ordinal : Nat) : Option (Option Key) := do
  let offsets ← self.ensureOffsets
  match offsets[ordinal]? with
  | none => some none
  | some entry => do
    let bytes ← self.slice entry
    some (if validUtf8 bytes then some bytes else none)

end TextDictReader

/-- The checks of a dictionary: `previous` is the text before. The length is read without a check. -/
def validateTexts (data : List Byte) : (left pos : Nat) → (previous : Option Key) → Except Failure Nat
  | 0, pos, _ => .ok pos
  | left + 1, pos, previous => do
    let len ← orPanic (readLe? 4 data pos)
    failIf (data.length < pos + 4 + len) (.io (.unexpectedEof "text dictionary entry is truncated"))
    let value := sliceBytes data (pos + 4) len
    -- the text of this error is the standard library's
    failIf (validUtf8 value = false) (.io (.invalidData "invalid utf-8 sequence"))
    failIf (previous.any fun previous => decide (value ≤ previous))
      (.io (.invalidData "text dictionary entries are not strictly increasing"))
    validateTexts data left (pos + 4 + len) (some value)

def validateTextDictBytes (data : List Byte) (count : Nat) : Except Failure Unit := do
  failIf (data.length < count * 4) (.io (.unexpectedEof "text dictionary entry table is truncated"))
  let pos ← validateTexts data count 0 none
  failIf (pos ≠ data.length) (.io (.invalidData "text dictionary contains trailing data"))

end Dictionary

/-- On-disk index entry for one block within a blocked column. -/
structure BlockIndexEntry where
  numDocs : Nat
  dataLen : Nat
  dictCount : Nat
  dictLen : Nat

/-- `BLOCK_INDEX_ENTRY_SIZE`. -/
def blockIndexEntrySize : Nat := 16

namespace BlockIndexEntry

def writeTo (self : BlockIndexEntry) : List Byte :=
  leBytes 4 self.numDocs ++ (leBytes 4 self.dataLen ++ (leBytes 4 self.dictCount ++ leBytes 4 self.dictLen))

def readFrom (data : List Byte) (pos : Nat) : BlockIndexEntry :=
  ⟨readLe 4 data pos, readLe 4 data (pos + 4), readLe 4 data (pos + 8), readLe 4 data (pos + 12)⟩

end BlockIndexEntry

/-- What a reader uses of the entry of a column in the table of contents. -/
structure FastFieldTocEntry where
  columnType : FastFieldColumnType
  multi : Bool
  dataOffset : Nat
  dataLen : Nat
  numDocs : Nat

/-- One independently-decodable block within a blocked column. -/
structure ColumnBlock where
  cumulativeDocs : Nat
  numDocs : Nat
  data : List Byte
  offsetData : List Byte
  valueData : List Byte
  dict : Option TextDictReader
  rawDict : List Byte

section Checkpoints

/-- `MAX_CHECKPOINTS`. -/
def maxCheckpoints : Nat := 256

/-- A block of the block-wise codec and where it starts behind the tag. -/
structure Checkpoint where
  columnBlock : Nat
  codecBlock : Nat
  offset : Nat
  deriving DecidableEq, Repr

/-- The number of codec blocks of a block-wise payload. -/
def codecBlocks (data : List Byte) : Option Nat :=
  if data.head? = some CodecType.blockwiseLinear.toByte then readLe? 4 data 5 else some 0

/-- The checkpoints of one payload; `ordinal` counts the codec blocks of the column. -/
def payloadCheckpoints (data : List Byte) (stride columnBlock : Nat) :
    (left codecBlock offset ordinal : Nat) → Option (List Checkpoint)
  | 0, _, _, _ => some []
  | left + 1, codecBlock, offset, ordinal => do
    let packed ← readLe? 4 data (offset + 25)
    let rest ← payloadCheckpoints data stride columnBlock left (codecBlock + 1) (offset + (29 + packed)) (ordinal + 1)
    some (if ordinal % stride = 0 then
      ⟨columnBlock % 2 ^ 32, codecBlock % 2 ^ 32, (offset - 1) % 2 ^ 32⟩ :: rest
    else rest)

/-- The checkpoints of the payloads from number `columnBlock` on. -/
def columnCheckpoints (stride : Nat) :
    (payloads : List (List Byte)) → (columnBlock ordinal : Nat) → Option (List Checkpoint)
  | [], _, _ => some []
  | data :: payloads, columnBlock, ordinal => do
    let count ← codecBlocks data
    let first ← payloadCheckpoints data stride columnBlock count 0 9 ordinal
    let rest ← columnCheckpoints stride payloads (columnBlock + 1) (ordinal + count)
    some (first ++ rest)

/-- `Checkpoints::new`. -/
def newCheckpoints (payloads : List (List Byte)) (multi : Bool) : Option (List Checkpoint) :=
  if multi then some []
  else do
    let counts ← payloads.mapM codecBlocks
    let stride := max ((counts.sum + (maxCheckpoints - 1)) / maxCheckpoints) 1
    columnCheckpoints stride payloads 0 0

/-- `Checkpoints::read`: a value of payload number `block`. -/
def readCheckpointed (checkpoints : List Checkpoint) (payloads : List (List Byte)) (block localDoc : Nat) :
    Option Nat := do
  let data ← payloads[block]?
  if data.head? ≠ some CodecType.blockwiseLinear.toByte then autoRead data localDoc
  else
    let codecBlock := localDoc / blockSize
    let upTo := partitionPoint (fun i => (checkpoints[i]?).any fun c =>
      decide (c.columnBlock < block % 2 ^ 32 ∨ c.columnBlock = block % 2 ^ 32 ∧ c.codecBlock ≤ codecBlock))
      0 checkpoints.length
    let found := if upTo = 0 then none else (checkpoints[upTo - 1]?).filter fun c => c.columnBlock = block % 2 ^ 32
    match found with
    | some c => blockwiseLinearReadFrom data.tail localDoc c.codecBlock c.offset
    | none => blockwiseLinearReadFrom data.tail localDoc 0 8

end Checkpoints

/-- Reads a single fast-field column. -/
structure FastFieldReader where
  columnType : FastFieldColumnType
  numDocs : Nat
  multi : Bool
  blocks : List ColumnBlock
  checkpoints : List Checkpoint

section Open

/-- The offsets of a multi-value block: they start at zero and do not go down. The result is the last. -/
def checkOffsets (offsetData : List Byte) : (left index previous : Nat) → Except Failure Nat
  | 0, _, previous => .ok previous
  | left + 1, index, previous => do
    let offset ← orPanic (autoRead offsetData index)
    failIf (u32Max < offset ∨ (index = 0 ∧ offset ≠ 0) ∨ offset < previous)
      (.io (.invalidData "fast field value offsets are invalid"))
    checkOffsets offsetData left (index + 1) offset

/-- The offset and the value column of a multi-value block. -/
def splitMulti (blockRaw : List Byte) (numDocs : Nat) : Except Failure (List Byte × List Byte) := do
  failIf (blockRaw.length < 4) (.io (.unexpectedEof "fast field multi-value header is truncated"))
  let offsetColLen := readLe 4 blockRaw 0
  failIf (blockRaw.length < 4 + offsetColLen) (.io (.unexpectedEof "fast field offset column is truncated"))
  let offsetData := sliceBytes blockRaw 4 offsetColLen
  let valueData := blockRaw.drop (4 + offsetColLen)
  orFail (validateAuto offsetData (numDocs + 1))
  let values ← checkOffsets offsetData (numDocs + 1) 0 0
  orFail (validateAuto valueData values)
  .ok (offsetData, valueData)

/-- The checked sub-columns of a block; a block with single values has none. -/
def subColumns (multi : Bool) (blockData : List Byte) (numDocs : Nat) : Except Failure (List Byte × List Byte) :=
  if multi then splitMulti blockData numDocs
  else do
    orFail (validateAuto blockData numDocs)
    .ok ([], [])

/-- The dictionary of a block goes with the type of the column. -/
def checkDict (columnType : FastFieldColumnType) (entry : BlockIndexEntry) (dict : List Byte) : Except Failure Unit :=
  if columnType = .textOrdinal then do
    failIf (entry.dictCount = 0 ∧ entry.dictLen ≠ 0) (.io (.invalidData "empty fast field dictionary has data"))
    validateTextDictBytes dict entry.dictCount
  else
    failIf (entry.dictCount ≠ 0 ∨ entry.dictLen ≠ 0)
      (.io (.invalidData "numeric fast field contains a text dictionary"))

/-- One block of the file, from `pos` on. -/
def openBlock (file : List Byte) (toc : FastFieldTocEntry) (entry : BlockIndexEntry) (pos cumulative : Nat) :
    Except Failure ColumnBlock := do
  let dataEnd := pos + entry.dataLen
  failIf (toc.dataOffset + toc.dataLen < dataEnd + entry.dictLen)
    (.io (.unexpectedEof "fast field: block data/dict truncated"))
  let blockData := sliceBytes file pos entry.dataLen
  let (offsetData, valueData) ← subColumns toc.multi blockData entry.numDocs
  let dictBytes := sliceBytes file dataEnd entry.dictLen
  checkDict toc.columnType entry dictBytes
  .ok {
    cumulativeDocs := cumulative
    numDocs := entry.numDocs
    data := blockData
    offsetData := offsetData
    valueData := valueData
    dict := if 0 < entry.dictCount then some ⟨dictBytes, entry.dictCount⟩ else none
    rawDict := dictBytes }

/-- The blocks one behind the other, with the position and the number of documents behind the last. -/
def openBlocks (file : List Byte) (toc : FastFieldTocEntry) :
    (entries : List BlockIndexEntry) → (pos cumulative : Nat) → Except Failure (List ColumnBlock × Nat × Nat)
  | [], pos, cumulative => .ok ([], pos, cumulative)
  | entry :: entries, pos, cumulative => do
    let block ← openBlock file toc entry pos cumulative
    failIf (u32Max < cumulative + entry.numDocs) (.io (.invalidData "fast field doc count overflow"))
    let (blocks, stop) ← openBlocks file toc entries (pos + entry.dataLen + entry.dictLen) (cumulative + entry.numDocs)
    .ok (block :: blocks, stop)

/-- `FastFieldReader::open`. -/
def FastFieldReader.openColumn (file : List Byte) (toc : FastFieldTocEntry) : Except Failure FastFieldReader := do
  let regionStart := toc.dataOffset
  let regionEnd := regionStart + toc.dataLen
  failIf (u64Max < regionEnd) (.io (.invalidData "fast field data range overflow"))
  failIf (file.length < regionEnd) (.io (.unexpectedEof "fast field data out of bounds"))
  failIf (regionEnd < regionStart + 4) (.io (.unexpectedEof "fast field: missing num_blocks"))
  let numBlocks := readLe 4 file regionStart
  let indexEnd := regionStart + 4 + numBlocks * blockIndexEntrySize
  failIf (regionEnd < indexEnd) (.io (.unexpectedEof "fast field: block index truncated"))
  let entries := (List.range numBlocks).map fun i =>
    BlockIndexEntry.readFrom file (regionStart + 4 + i * blockIndexEntrySize)
  let (blocks, pos, cumulative) ← openBlocks file toc entries indexEnd 0
  failIf (pos ≠ regionEnd ∨ cumulative ≠ toc.numDocs)
    (.io (.invalidData "fast field block totals are inconsistent with the TOC"))
  failIf (0 < toc.numDocs ∧ blocks = []) (.io (.invalidData "non-empty fast field has no blocks"))
  let checkpoints ← orPanic (newCheckpoints (blocks.map (·.data)) toc.multi)
  .ok ⟨toc.columnType, toc.numDocs, toc.multi, blocks, checkpoints⟩

end Open

section TextState

/-- Global dictionary and the map of each block from its ordinals to those of the global dictionary. -/
structure TextState where
  globalDict : TextDictReader
  ordinalMaps : List (List Nat)

/-- Add a text to sorted distinct texts. -/
def insertText (keys : List Key) (text : Key) : List Key := keys.filter (· < text) ++ text :: keys.filter (text < ·)

/-- The texts of a block's dictionary; one that `get` does not return is a panic. -/
def dictTexts (dict : TextDictReader) : Option (List Key) :=
  (List.range dict.count).mapM fun ordinal => (dict.get ordinal).join

/-- The bytes of a dictionary. -/
def dictBytes (keys : List Key) : List Byte := keys.flatMap fun key => leBytes 4 key.length ++ key

/-- The merge of at least two dictionaries; a block without a dictionary has none. -/
def mergeDicts (dicts : List (Option (List Key))) : TextState :=
  let keys := (dicts.map (·.getD [])).flatten.foldl insertText []
  let map := fun texts : List Key => texts.map fun text => keys.idxOf text % 2 ^ 32
  ⟨⟨dictBytes keys, keys.length % 2 ^ 32⟩, dicts.map fun dict => (dict.map map).getD []⟩

def buildTextState (blocks : List ColumnBlock) : Option TextState :=
  match blocks.filter (·.dict.isSome) with
  | [] => some ⟨⟨[], 0⟩, List.replicate blocks.length []⟩
  | [block] => some ⟨⟨block.rawDict, (block.dict.map (·.count)).getD 0⟩, List.replicate blocks.length []⟩
  | _ => do
    let dicts ← blocks.mapM fun block =>
      match block.dict with
      | none => some none
      | some dict => (dictTexts dict).map some
    some (mergeDicts dicts)

/-- The ordinal of the global dictionary; an empty map changes nothing. -/
def remap (map : List Nat) (raw : Nat) : Nat :=
  if raw = fastFieldMissing ∨ map = [] then raw else map[raw]?.getD fastFieldMissing

end TextState

namespace FastFieldReader

variable (self : FastFieldReader)

/-- Whether ordinals are mapped. -/
def needsRemap : Bool := decide (self.columnType = .textOrdinal ∧ 1 < self.blocks.length)

/-- The map of a block. -/
def ordinalMap (block : Nat) : Option (List Nat) := do
  let state ← buildTextState self.blocks
  state.ordinalMaps[block]?

/-- Remap a block-local raw ordinal to a global ordinal. -/
def remapOrdinal (block raw : Nat) : Option Nat :=
  if self.needsRemap ∧ raw ≠ fastFieldMissing then (self.ordinalMap block).map fun map => remap map raw
  else some raw

variable (docId : Nat)

/-- The block of a document and the document in it. -/
def findBlock : Nat × Nat :=
  if self.blocks.length = 1 then (0, docId)
  else
    let bi := partitionPoint (fun i => (self.blocks[i]?).any fun b => decide (b.cumulativeDocs ≤ docId)) 0
      self.blocks.length - 1
    (bi, docId - (self.blocks[bi]?.map (·.cumulativeDocs)).getD 0)

/-- The values of a document in a multi-value block. -/
def valueRangeIn (block : ColumnBlock) (localDoc : Nat) : Option (Nat × Nat) := do
  let start ← autoRead block.offsetData localDoc
  let stop ← autoRead block.offsetData (localDoc + 1)
  some (start % 2 ^ 32, stop % 2 ^ 32)

/-- The value that is stored for a document; in a multi-value column the first. -/
def rawValue : Option Nat := do
  let (bi, localDoc) := self.findBlock docId
  let block ← self.blocks[bi]?
  if self.multi then do
    let (start, stop) ← valueRangeIn block localDoc
    if stop ≤ start then some fastFieldMissing else autoRead block.valueData start
  else readCheckpointed self.checkpoints (self.blocks.map (·.data)) bi localDoc

/-- Get raw u64 value for a document. -/
def getU64 : Option Nat :=
  if self.numDocs ≤ docId then some fastFieldMissing
  else do
    let raw ← self.rawValue docId
    self.remapOrdinal (self.findBlock docId).1 raw

/-- Block and value range of a document; empty in a column with single values. -/
def blockValueRange : Option (Nat × Nat × Nat) :=
  if self.multi = false ∨ self.numDocs ≤ docId then some (0, 0, 0)
  else do
    let (bi, localDoc) := self.findBlock docId
    let block ← self.blocks[bi]?
    let (start, stop) ← valueRangeIn block localDoc
    some (bi, start, stop)

/-- Check if this document has a value. -/
def hasValue : Option Bool :=
  if self.multi then (self.blockValueRange docId).map fun range => decide (range.2.1 < range.2.2)
  else if self.numDocs ≤ docId then some false
  else (self.getU64 docId).map fun raw => decide (raw ≠ fastFieldMissing)

end FastFieldReader

end Summa.FastField
