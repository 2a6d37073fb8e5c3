import Summa.Segment.ChunkMap

/-!
# Merging chunk maps (`write_merged_chunk_maps_ordered`)

The maps of a field are written one after the other, the documents of each moved by its offset. With an
order for the field, the chunks of all sources are written in that order, and the slots by unit go through
its inverse. Length columns are joined; they stay byte norms only if every source has them.

The source writes the columns in batches and asks between batches whether it was cancelled; neither shows in
the bytes of a file that is finished.
-/

namespace Summa

/-- A source of a merged map. -/
structure ChunkMapSource where
  map : ChunkMap
  /-- Added to the documents of the source. -/
  docOffset : Nat

/-- A source of a merged length column, with the number of documents of its segment. -/
structure DocLengthsSource where
  lengths : Option DocLengths
  numDocs : Nat

/-- A permutation of the chunks of all sources: new place to old, and back. -/
structure ChunkMapOrder where
  order : List Nat
  inverse : List Nat

def allQuantized (sources : List DocLengthsSource) : Bool :=
  (sources.filterMap (·.lengths)).all (·.quantized)

section Order

variable (sources : List ChunkMapSource)

/-- The number of chunks of all sources. -/
def chunkCount : Nat := (sources.map (·.map.numChunks)).sum

/-- The number of chunks before each source. -/
def chunkBases : Nat → List ChunkMapSource → List Nat
  | _, [] => []
  | base, source :: sources => base :: chunkBases (base + source.map.numChunks) sources

def anyDocuments : Bool := sources.any (·.map.documentUnits)

def anyUnordered : Bool := sources.any fun s => !s.map.logicallyOrdered

/-- `order` and `inverse` cover the chunks and undo each other. -/
def checkOrder (plan : ChunkMapOrder) : InvalidData Unit :=
  if chunkCount sources ≠ plan.order.length ∨ plan.order.length ≠ plan.inverse.length then
    .error "text map permutation has the wrong extent"
  else if plan.order.zipIdx.all (fun p => plan.inverse[p.1]? = some p.2) then .ok ()
  else .error "text map order and inverse disagree"

end Order

variable (plan : Option ChunkMapOrder) (sources : List ChunkMapSource)

/-- The checks on one field before anything is written. -/
def checkField : InvalidData Unit := do
  match plan with
  | some plan => checkOrder sources plan
  | none => .ok ()
  if anyDocuments sources ∧ (sources.any fun s => !s.map.documentUnits) then
    .error "cannot merge document and chunk scoring units for one text field"
  else .ok ()

/-- Whether the merged section has the slots by unit. -/
def mergedAddressed : Bool :=
  plan.isSome || anyDocuments sources || anyUnordered sources

def mergedMapRow (fieldId : Nat) (plan : Option ChunkMapOrder) (sources : List ChunkMapSource) :
    InvalidData TocRow :=
  let count := chunkCount sources
  if u32Max < count then .error s!"chunked field {fieldId} exceeds u32::MAX chunks after merge"
  else
    let kind := if anyDocuments sources then kindDocumentMap
      else if plan.isSome ∨ anyUnordered sources then kindAddressedChunkMap
      else kindChunkMap
    .ok ⟨fieldId, kind, count, (sources.map (·.map.totalTokens)).sum,
      count * if mergedAddressed plan sources then 12 else 8⟩

def mergedNormRow (fieldId : Nat) (sources : List DocLengthsSource) : InvalidData TocRow :=
  let count := (sources.map (·.numDocs)).sum
  if u32Max < count then .error s!"field {fieldId} exceeds u32::MAX documents after merge"
  else
    .ok ⟨fieldId, if allQuantized sources then kindByteNorms else kindDocLengths, count,
      ((sources.filterMap (·.lengths)).map (·.totalTokens)).sum,
      count * if allQuantized sources then 1 else 2⟩

/-- The source and the slot of chunk `old` of all sources. -/
def locateChunk (old : Nat) : Option (ChunkMapSource × Nat) :=
  let bases := chunkBases 0 sources
  let index := partitionPoint (fun i => bases.getD i 0 ≤ old) 0 bases.length - 1
  sources[index]?.map fun source => (source, old - bases.getD index 0)

/-- The columns and slots of a field that is written in a given order. -/
def orderedMapData (plan : ChunkMapOrder) (sources : List ChunkMapSource) : InvalidData (List Byte) := do
  let chunks := plan.order.filterMap (locateChunk sources)
  let docs ← chunks.mapM fun c =>
    if u32Max < c.1.map.docId c.2 + c.1.docOffset then .error "reordered document ID overflow"
    else .ok (c.1.map.docId c.2 + c.1.docOffset)
  let slots := (sources.zip (chunkBases 0 sources)).flatMap fun s =>
    (List.range s.1.map.numChunks).map fun logical =>
      plan.inverse.getD (s.1.map.logicalSlot logical + s.2) 0
  .ok (encodeColumn 4 docs ++ encodeColumn 2 (chunks.map fun c => c.1.map.ordinal c.2) ++
    encodeColumn 2 (chunks.map fun c => c.1.map.length c.2) ++ encodeColumn 4 slots)

/-- The document column of one source, moved by its offset. -/
def shiftedDocs (source : ChunkMapSource) : InvalidData (List Byte) :=
  if source.docOffset = 0 then .ok source.map.docIds
  else do
    let docs ← (decodeColumn 4 source.map.docIds).mapM fun doc =>
      if u32Max < doc + source.docOffset then .error "document id overflow while merging chunk maps"
      else .ok (doc + source.docOffset)
    .ok (encodeColumn 4 docs)

/-- The columns, and the slots if needed, of a field whose sources follow each other. -/
def joinedMapData : InvalidData (List Byte) := do
  let docs ← sources.mapM shiftedDocs
  let slots := (sources.zip (chunkBases 0 sources)).flatMap fun s =>
    (List.range s.1.map.numChunks).map fun i => s.1.map.logicalSlot i + s.2
  .ok (docs.flatten ++ sources.flatMap (·.map.ordinals) ++ sources.flatMap (·.map.lengths) ++
    if anyDocuments sources || anyUnordered sources then encodeColumn 4 slots else [])

def mergedMapData : InvalidData (List Byte) :=
  match plan with
  | some plan => orderedMapData plan sources
  | none => joinedMapData sources

/-- The lengths of one source in the encoding of the merged column. -/
def mergedLengths (quantized : Bool) (source : DocLengthsSource) : InvalidData (List Byte) :=
  match source.lengths with
  | some lengths =>
    let covered := lengths.numDocs
    let documents := source.numDocs
    if covered ≠ documents then
      .error s!"length column covers {covered} documents, segment has {documents}"
    else if lengths.quantized ∧ quantized = false then
      .ok (encodeColumn 2 (lengths.lengths.map fun code => normDecode code.toNat))
    else .ok lengths.lengths
  | none => .ok (List.replicate (source.numDocs * if quantized then 1 else 2) 0)

def writeMergedChunkMapsOrdered (fields : List (Nat × List ChunkMapSource))
    (norms : List (Nat × List DocLengthsSource)) (orders : AList (fun _ : Nat => ChunkMapOrder)) :
    InvalidData (List Byte) := do
  let live := fields.filter fun f => f.2.any fun s => 0 < s.map.numChunks
  live.forM fun f => checkField (orders.lookup f.1) f.2
  let version := if norms.any (fun n => allQuantized n.2) then chunkVersion
    else if live.any (fun f => anyDocuments f.2) then documentVersion
    else addressedVersion
  let mapRows ← live.mapM fun f => mergedMapRow f.1 (orders.lookup f.1) f.2
  let normRows ← norms.mapM fun n => mergedNormRow n.1 n.2
  let maps ← live.mapM fun f => mergedMapData (orders.lookup f.1) f.2
  let lengths ← norms.mapM fun n => n.2.mapM (mergedLengths (allQuantized n.2))
  .ok (headBytes version (mapRows ++ normRows) ++ (maps.flatten ++ (lengths.map List.flatten).flatten))

end Summa
