import Mathlib.Data.List.AList
import Summa.Lib.ByteColumn
import Summa.Segment.LogicalAddress
import Summa.Segment.Norms

/-!
# Chunk maps (`segment/chunk_map.rs`)

A chunk map gives the document, the ordinal and the length of every chunk of a field. A `.chunks` file is a
header, a table of contents and the data of the sections:

* a chunk map section has the three columns one after the other, and, when the chunks are not sorted by
  unit, the slots in the order of their units;
* a length section has one length for each document, as two bytes or as a byte norm.

Files are byte strings, and the reader works on the bytes. The columns of a builder are one list of
entries here. Errors are those of kind `InvalidData`, with their texts.
-/

namespace Summa

/-- `io::Result` with errors of kind `InvalidData`. -/
abbrev InvalidData (α : Type) := Except String α

/-- `MAGIC`: "CHNK". -/
def chunkMagic : Nat := 0x4B4E4843

def chunkVersion : Nat := 5

def documentVersion : Nat := 4

def addressedVersion : Nat := 3

def chunkHeaderSize : Nat := 12

def tocEntrySize : Nat := 28

def kindChunkMap : Nat := 0

def kindDocLengths : Nat := 1

def kindAddressedChunkMap : Nat := 2

def kindDocumentMap : Nat := 3

def kindByteNorms : Nat := 4

def maxChunkLength : Nat := 2 ^ 16 - 1

/-! ## Writing -/

/-- One chunk of a field. -/
structure ChunkEntry where
  docId : Nat
  ordinal : Nat
  length : Nat
  deriving DecidableEq, Repr

def ChunkEntry.unit (entry : ChunkEntry) : LogicalUnit := ⟨entry.docId, entry.ordinal⟩

/-- The map of a field while a segment is built. -/
structure ChunkMapBuilder where
  entries : List ChunkEntry
  totalTokens : Nat
  documentUnits : Bool
  deriving DecidableEq, Repr

namespace ChunkMapBuilder

def empty (documentUnits : Bool) : ChunkMapBuilder := ⟨[], 0, documentUnits⟩

variable (self : ChunkMapBuilder)

def push (docId ordinal tokenCount : Nat) : InvalidData (Nat × ChunkMapBuilder) :=
  if u32Max < self.entries.length then
    .error "chunked text field exceeds u32::MAX chunks in one segment"
  else
    .ok (self.entries.length,
      { self with
        entries := self.entries ++ [⟨docId, ordinal, min tokenCount maxChunkLength⟩]
        totalTokens := self.totalTokens + tokenCount })

def units : List LogicalUnit := self.entries.map ChunkEntry.unit

/-- Sorted, and no two neighbours equal. -/
def logicallyOrdered : Bool :=
  (self.units.zip self.units.tail).all (fun p => p.1 ≤ p.2) &&
    (self.units.zip self.units.tail).all fun p => p.1 ≠ p.2

def sectionKind : Nat :=
  if self.documentUnits then kindDocumentMap
  else if self.logicallyOrdered then kindChunkMap
  else kindAddressedChunkMap

def sectionBytes : Nat :=
  self.entries.length * if self.sectionKind = kindChunkMap then 8 else 12

/-- The unit of a slot. -/
def unitAt (slot : Nat) : LogicalUnit := self.units.getD slot ⟨0, 0⟩

/-- `map.len() as u32`. -/
def len32 : Nat := self.entries.length % 2 ^ 32

/-- The slots sorted by unit. -/
def sortedSlots : List Nat :=
  (List.range self.len32).insertionSort fun a b => self.unitAt a ≤ self.unitAt b

/-- Whether two neighbours of the sorted slots have one unit. -/
def hasDuplicate : Bool :=
  (self.sortedSlots.zip self.sortedSlots.tail).any fun p => self.unitAt p.1 = self.unitAt p.2

def sectionData : InvalidData (List Byte) :=
  let columns := encodeColumn 4 (self.entries.map (·.docId)) ++
    encodeColumn 2 (self.entries.map (·.ordinal)) ++ encodeColumn 2 (self.entries.map (·.length))
  if self.sectionKind = kindChunkMap then .ok columns
  else if self.hasDuplicate then .error "duplicate logical text chunk"
  else .ok (columns ++ encodeColumn 4 self.sortedSlots)

end ChunkMapBuilder

/-- The lengths of a plain text field, one for each document. -/
structure DocLengthsColumn where
  fieldId : Nat
  lengths : List Nat
  totalTokens : Nat
  deriving DecidableEq, Repr

/-- The lengths of a field as a file has them. -/
structure DocLengths where
  quantized : Bool
  lengths : List Byte
  numDocs : Nat
  totalTokens : Nat
  deriving DecidableEq, Repr

/-- A length column to write: a new one, or one that is copied from a file. -/
inductive NormColumn where
  | new (column : DocLengthsColumn) (quantized : Bool)
  | encoded (fieldId : Nat) (lengths : DocLengths)
  deriving DecidableEq, Repr

namespace NormColumn

def fieldId : NormColumn → Nat
  | .new column _ => column.fieldId
  | .encoded field _ => field

def quantized : NormColumn → Bool
  | .new _ quantized => quantized
  | .encoded _ lengths => lengths.quantized

def count : NormColumn → Nat
  | .new column _ => column.lengths.length
  | .encoded _ lengths => lengths.numDocs

def totalTokens : NormColumn → Nat
  | .new column _ => column.totalTokens
  | .encoded _ lengths => lengths.totalTokens

def write : NormColumn → List Byte
  | .encoded _ lengths => lengths.lengths
  | .new column true => encodeColumn 1 (column.lengths.map normEncode)
  | .new column false => encodeColumn 2 column.lengths

end NormColumn

/-- What the table of contents says about a section, and the size it reserves. -/
structure TocRow where
  fieldId : Nat
  kind : Nat
  count : Nat
  totalTokens : Nat
  size : Nat
  deriving DecidableEq, Repr

/-- The table of contents for sections that start at `offset`. -/
def tocBytes : Nat → List TocRow → List Byte
  | _, [] => []
  | offset, row :: rows =>
    leBytes 4 row.fieldId ++ leBytes 4 row.kind ++ leBytes 4 row.count ++ leBytes 8 row.totalTokens ++
      leBytes 8 offset ++ tocBytes (offset + row.size) rows

/-- Header and table of contents. -/
def headBytes (version : Nat) (rows : List TocRow) : List Byte :=
  leBytes 4 chunkMagic ++ leBytes 4 version ++ leBytes 4 rows.length ++
    tocBytes (chunkHeaderSize + tocEntrySize * rows.length) rows

def ChunkMapBuilder.tocRow (fieldId : Nat) (map : ChunkMapBuilder) : TocRow :=
  ⟨fieldId, map.sectionKind, map.entries.length, map.totalTokens, map.sectionBytes⟩

def NormColumn.tocRow (column : NormColumn) : TocRow :=
  ⟨column.fieldId, if column.quantized then kindByteNorms else kindDocLengths, column.count,
    column.totalTokens, column.count * if column.quantized then 1 else 2⟩

/-- The file for the maps and length columns of a segment. Every caller asks for `quantizedVersion` when it
has a byte column. -/
def writeChunkMapColumns (fields : List (Nat × ChunkMapBuilder)) (norms : List NormColumn)
    (quantizedVersion : Bool) : InvalidData (List Byte) := do
  let version := if quantizedVersion then chunkVersion
    else if fields.any (·.2.documentUnits) then documentVersion
    else addressedVersion
  let rows := fields.map (fun f => f.2.tocRow f.1) ++ norms.map NormColumn.tocRow
  let data ← fields.mapM fun f => f.2.sectionData
  .ok (headBytes version rows ++ (data.flatten ++ norms.flatMap NormColumn.write))

/-! ## Reading -/

namespace DocLengths

def normCode (self : DocLengths) (doc : Nat) : Nat := (self.lengths[doc]?.map BitVec.toNat).getD 0

/-- The scoring length of the field in a document, 0 when there is none. -/
def length (self : DocLengths) (doc : Nat) : Nat :=
  if self.quantized then normDecode (self.normCode doc)
  else (decodeColumn 2 self.lengths)[doc]?.getD 0

end DocLengths

/-- The map of a field as a file has it. -/
structure ChunkMap where
  docIds : List Byte
  ordinals : List Byte
  lengths : List Byte
  numChunks : Nat
  totalTokens : Nat
  logicallyOrdered : Bool
  logicalSlots : Option (List Byte)
  documentUnits : Bool
  deriving DecidableEq, Repr

namespace ChunkMap

variable (self : ChunkMap)

def docId (vid : Nat) : Nat := columnAt 4 self.docIds vid

def ordinal (vid : Nat) : Nat := columnAt 2 self.ordinals vid

/-- An id behind the map scores as one token (`INVALID_CHUNK_LENGTH`). -/
def length (vid : Nat) : Nat := (decodeColumn 2 self.lengths)[vid]?.getD 1

def resolve (vid : Nat) : LogicalUnit := ⟨self.docId vid, self.ordinal vid⟩

/-- The slot at an index of the order by unit. -/
def logicalSlot (index : Nat) : Nat :=
  match self.logicalSlots with
  | some slots => columnAt 4 slots index
  | none => index

/-- The ordinals of a document with their slots. -/
def slotsForDocument (doc : Nat) : List (Nat × Nat) :=
  (orderedDocumentSlots self.numChunks doc fun index => some (self.resolve (self.logicalSlot index))).map
    fun entry => (entry.1, self.logicalSlot entry.2)

def slotForUnit (unit : LogicalUnit) : Option Nat :=
  (orderedSlotForUnit self.numChunks unit fun index => some (self.resolve (self.logicalSlot index))).map
    self.logicalSlot

end ChunkMap

/-- Everything a `.chunks` file holds. -/
structure ChunkMapFile where
  chunkMaps : AList (fun _ : Nat => ChunkMap)
  docLengths : AList (fun _ : Nat => DocLengths)

/-- An entry of the table of contents. -/
structure TocEntry where
  fieldId : Nat
  kind : Nat
  count : Nat
  totalTokens : Nat
  offset : Nat
  deriving DecidableEq, Repr

variable (bytes : List Byte)

/-- The entry number `i` of the table of contents. -/
def readTocEntry (i : Nat) : TocEntry :=
  let start := chunkHeaderSize + tocEntrySize * i
  ⟨readLe 4 bytes start, readLe 4 bytes (start + 4), readLe 4 bytes (start + 8), readLe 8 bytes (start + 12),
    readLe 8 bytes (start + 20)⟩

/-- The bytes an entry of a section takes. -/
def bytesPerEntry (version kind : Nat) : Option Nat :=
  if kind = kindChunkMap then some 8
  else if kind = kindAddressedChunkMap then some 12
  else if kind = kindDocumentMap ∧ 4 ≤ version then some 12
  else if kind = kindDocLengths then some 2
  else if kind = kindByteNorms ∧ 5 ≤ version then some 1
  else none

/-- The map in a section at `offset`. -/
def sectionMap (entry : TocEntry) : ChunkMap :=
  let n := entry.count
  let docIds := sliceBytes bytes entry.offset (n * 4)
  let ordinals := sliceBytes bytes (entry.offset + n * 4) (n * 2)
  ⟨docIds, ordinals, sliceBytes bytes (entry.offset + n * 6) (n * 2), n, entry.totalTokens,
    logicallyOrdered (((decodeColumn 4 docIds).zip (decodeColumn 2 ordinals)).map
      fun p => some ⟨p.1, p.2⟩),
    if entry.kind ≠ kindChunkMap then some (sliceBytes bytes (entry.offset + n * 8) (n * 4)) else none,
    entry.kind == kindDocumentMap⟩

/-- The slots are in range and their units rise. -/
def checkSlots (map : ChunkMap) : Option LogicalUnit → List Nat → InvalidData Unit
  | _, [] => .ok ()
  | previous, slot :: slots =>
    if map.numChunks ≤ slot then .error "text logical slot out of range"
    else
      let key := map.resolve slot
      if map.documentUnits ∧ (map.numChunks ≤ key.doc ∨ key.ordinal ≠ 0) then
        .error "document map must cover each document once with ordinal zero"
      else if previous.any (fun p => key ≤ p) then
        .error "text logical slots are not a sorted unique permutation"
      else checkSlots map (some key) slots

def checkMap (kind : Nat) (map : ChunkMap) : InvalidData Unit :=
  if kind = kindChunkMap ∧ map.logicallyOrdered = false then
    .error "chunk map requires logical ordering or an addressed section"
  else
    match map.logicalSlots with
    | some slots => checkSlots map none (decodeColumn 4 slots)
    | none => .ok ()

/-- One section: where the next one has to start, and the file so far. -/
def readSection (version : Nat) (state : Nat × ChunkMapFile) (entry : TocEntry) :
    InvalidData (Nat × ChunkMapFile) :=
  if entry.offset ≠ state.1 ∨ entry.fieldId ∈ state.2.chunkMaps ∨ entry.fieldId ∈ state.2.docLengths then
    .error "chunk map has overlapping sections, gaps or duplicate fields"
  else
    let fieldId := entry.fieldId
    let kind := entry.kind
    match bytesPerEntry version kind with
    | none => .error s!"unknown chunk map section kind {kind} for field {fieldId}"
    | some width =>
      let stop := entry.offset + entry.count * width
      if u64Max < stop then .error "chunk map size overflow"
      else if bytes.length < stop then .error s!"chunk map section of field {fieldId} exceeds file length"
      else if kind = kindChunkMap ∨ kind = kindAddressedChunkMap ∨ kind = kindDocumentMap then do
        let map := sectionMap bytes entry
        checkMap kind map
        .ok (stop, { state.2 with chunkMaps := state.2.chunkMaps.insert fieldId map })
      else
        let lengths := sliceBytes bytes entry.offset (entry.count * width)
        if kind = kindByteNorms ∧ lengths.any (fun code => maxChunkLength < normDecode code.toNat) then
          .error "byte norm exceeds saturated document length"
        else
          .ok (stop, { state.2 with
            docLengths := state.2.docLengths.insert fieldId
              ⟨kind == kindByteNorms, lengths, entry.count, entry.totalTokens⟩ })

/-- Parse a `.chunks` file. -/
def readChunkMaps : InvalidData ChunkMapFile :=
  if bytes.length < chunkHeaderSize then .error "chunk map file shorter than its header"
  else
    let magic := readLe 4 bytes 0
    let version := readLe 4 bytes 4
    let numSections := readLe 4 bytes 8
    let tocEnd := chunkHeaderSize + tocEntrySize * numSections
    if magic ≠ chunkMagic then
      let hex := String.ofList (Nat.toDigits 16 magic)
      .error s!"chunk map magic mismatch: 0x{hex}"
    else if version ≠ addressedVersion ∧ version ≠ documentVersion ∧ version ≠ chunkVersion then
      .error s!"unsupported chunk map version {version} (expected {chunkVersion}); rebuild the index"
    else if bytes.length < tocEnd then .error "chunk map table of contents truncated"
    else do
      let state ← (List.range numSections).foldlM
        (fun state i => readSection bytes version state (readTocEntry bytes i)) (tocEnd, ⟨∅, ∅⟩)
      if state.1 ≠ bytes.length then .error "trailing chunk map data" else .ok state.2

end Summa
