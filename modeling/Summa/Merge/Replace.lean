import Summa.Merge.Publication

/-!
# Replacing segments (`merge/segment_manager.rs`)

* `replaceSegments`: replace source segments by one output (merge, reorder, vector rewrite,
  compaction). The output takes the sources' visibility of the moment of publication, a compaction
  only if it is still the one that was read.
* `publishVectorGeneration`: replace sources one by one, the lifecycle records unchanged.

`OutputReader` is what the full reader of the output reports besides the row count: the optimizer's
debts, copied into the lifecycle record.
-/

namespace Summa

variable {ρ : Type}

def saturatingAdd (a b : Nat) : Nat := min (a + b) u32Max

/-- How a replacement's rows were laid out. -/
inductive ReplacementLayout where
  /-- Block-copy merge: sources concatenated. -/
  | blockCopy
  /-- Stable row filtering. -/
  | compacted
  /-- A BP pass produced the replacement layout. -/
  | bpReordered (converged : Bool)
  | maintenanceOnly
  | preserveSingleSource
  deriving DecidableEq, Repr

/-- `(reordered, bp_converged, bp_unconverged_passes)` of a replacement; `none` for the layouts that
keep their source's record, for which it is never called. -/
def replacementBpState (parentHasDebt : Bool) (parentUnconvergedPasses : Nat) :
    ReplacementLayout → Option (Bool × Bool × Nat)
  | .blockCopy => some (false, !parentHasDebt, if parentHasDebt then parentUnconvergedPasses else 0)
  | .bpReordered converged =>
    some (true, converged, if converged then 0 else saturatingAdd parentUnconvergedPasses 1)
  | .compacted | .maintenanceOnly | .preserveSingleSource => none

/-- Seismic maintenance counters `(passes, stalls)` of a replacement. -/
def replacementSeismicState (parents : List SegmentMetaInfo) (pendingTerms : Nat)
    (layout : ReplacementLayout) : Nat × Nat :=
  if pendingTerms = 0 then (0, 0)
  else
    let parentPendingTerms := (parents.map (·.seismicPendingTerms)).sum
    let passes := (parents.map (·.seismicMaintenancePasses)).foldl max 0
    let stalls := (parents.map (·.seismicNoProgressPasses)).foldl max 0
    let madeProgress := decide (pendingTerms < parentPendingTerms)
    let stalls := if parents.length > 1 || madeProgress then 0 else stalls
    match layout with
    | .bpReordered _ | .maintenanceOnly =>
      (saturatingAdd passes 1,
        if parents.length = 1 && !madeProgress then saturatingAdd stalls 1 else stalls)
    | _ => (passes, stalls)

/-- What the reader of a completed output reports. -/
structure OutputReader where
  numDocs : Nat
  hasSurvivingBmp : Bool
  annFragmented : Bool
  /-- Pending terms of each Seismic index. -/
  seismicPendingTerms : List Nat

/-- The sum of the Seismic debts, checked to fit a `u32`. -/
def seismicDebt (terms : List Nat) : Result Nat :=
  terms.foldlM (fun total t =>
    if total + t > u32Max then .error (.corruption "Seismic maintenance debt exceeds u32")
    else .ok (total + t)) 0

/-- The arguments of `replace_segments`. -/
structure Replacement where
  oldIds : List SegmentId
  newId : SegmentId
  docCount : Nat
  layout : ReplacementLayout
  /-- The visibility that a compaction read, by source. -/
  expectedDeletions : Option (List (SegmentId × Option DeletionMeta))
  deriving DecidableEq, Repr

namespace Replacement

variable (self : Replacement)

variable (md : IndexMetadata)

/-- The sources' lifecycle records; the sources are all there when it is read. -/
def parents : List SegmentMetaInfo := self.oldIds.filterMap md.get

/-- The lifecycle record of the output, before counters and visibility. -/
def replacementInfo (reader : OutputReader) : Result SegmentMetaInfo :=
  let parents := self.parents md
  match replacementBpState (parents.any (!·.bpConverged))
      ((parents.map (·.bpUnconvergedPasses)).foldl max 0) self.layout with
  | some (reordered, bpConverged, bpUnconvergedPasses) =>
    let generation := (parents.map (·.generation)).foldl max 0
    if generation + 1 > u32Max then .error (.corruption "merge generation exceeds u32::MAX")
    else .ok { deletions := none, numDocs := self.docCount, ancestors := self.oldIds
               generation := generation + 1, reordered, bpConverged, bpUnconvergedPasses
               seismicPendingTerms := 0, seismicMaintenancePasses := 0
               seismicNoProgressPasses := 0, annFragmented := false }
  | none =>
    match self.oldIds with
    | [sourceId] =>
      match md.get sourceId with
      | none => .error (.corruption "layout-preserving replacement source disappeared")
      | some source =>
        let source := { source with numDocs := self.docCount }
        if self.layout = .preserveSingleSource then .ok source
        else if source.generation + 1 > u32Max then
          .error (.corruption "maintenance generation overflow")
        else
          let source := { source with ancestors := self.oldIds, generation := source.generation + 1 }
          if self.layout = .compacted then
            .ok { source with
              deletions := none
              bpConverged := source.bpConverged && !(reader.hasSurvivingBmp && source.reordered) }
          else .ok source
    | _ => .error (.internal "layout-preserving replacement requires exactly one source")

/-- The deletion files of the sources. -/
def sourceMasks : List SegmentId :=
  (self.parents md).filterMap (·.deletionId)

/-- Clear the dead rows of one source at its offset in the output. -/
def appendDeletion (dir : Directory ρ) (alive : DocBitset) (offset : Nat) (info : SegmentMetaInfo) :
    Result DocBitset :=
  match info.deletions with
  | none => .ok alive
  | some deletion => do
    let source ← deletion.load (dir.deletionFile deletion.id) info.numDocs
    Deletion.appendDeadRows alive source info.numDocs offset

def appendSource (dir : Directory ρ) (acc : DocBitset × Nat) (info : SegmentMetaInfo) :
    Result (DocBitset × Nat) := do
  let alive ← appendDeletion dir acc.1 acc.2 info
  if acc.2 + info.numDocs > u32Max then .error (.corruption "merge row count overflow")
  else return (alive, acc.2 + info.numDocs)

/-- The mask of the concatenated sources, and their row count. -/
def appendSources (dir : Directory ρ) (parents : List SegmentMetaInfo) (docCount : Nat) :
    Result (DocBitset × Nat) :=
  parents.foldlM (appendSource dir) (.all docCount, 0)

/-- The visibility of the output: its reference, the deletion file written for it, and the
deletion files that retire. -/
def outputVisibility (env : TxEnv ρ) (dir : Directory ρ) (md : IndexMetadata)
    (info : SegmentMetaInfo) :
    Result (Option DeletionMeta × List (SegmentId × List Byte) × List SegmentId) :=
  let parents := self.parents md
  if self.layout = .compacted then .ok (info.deletions, [], self.sourceMasks md)
  else if ¬ parents.any (·.deletions.isSome) then .ok (info.deletions, [], [])
  else match parents with
    | [source] =>
      if source.numDocs ≠ self.docCount then
        .error (.corruption "layout-preserving replacement changed physical row count")
      else .ok (source.deletions, [], [])
    | _ => do
      let merged ← appendSources dir parents self.docCount
      if merged.2 ≠ self.docCount then
        .error (.corruption "layout-preserving merge changed physical row count")
      else
        env.protect (env.newId 0)
        let mask ← Deletion.write (env.newId 0) self.docCount merged.1
        return (some mask.1, [(env.newId 0, mask.2)], self.sourceMasks md)

/-- The visibility a compaction read is still the current one. -/
def checkExpected : Result Unit :=
  match self.expectedDeletions with
  | some expected =>
    if self.oldIds.any fun id => expected.lookup id != (md.get id).map (·.deletions) then
      .error (.internal "row visibility changed during compaction; retry with a fresh snapshot")
    else .ok ()
  | none =>
    if self.layout = .compacted then .error (.internal "compaction requires a visibility snapshot")
    else .ok ()

/-- `replace_segments`. -/
def replaceSegments (env : TxEnv ρ) (dir : Directory ρ) (md : IndexMetadata)
    (reader : Result OutputReader) : Result Publication := do
  validateCompletedSegment dir self.newId self.docCount
  let reader ← reader
  if reader.numDocs ≠ self.docCount then
    throw (.corruption s!"replacement segment {self.newId} opened with other docs")
  let seismicPendingTerms ← seismicDebt reader.seismicPendingTerms
  if self.oldIds.any fun id => !md.hasSegment id then
    throw (.corruption "replace_segments: source segment(s) not in metadata")
  self.checkExpected md
  let info ← self.replacementInfo md reader
  let seismic := replacementSeismicState (self.parents md) seismicPendingTerms self.layout
  let (deletions, written, masks) ← self.outputVisibility env dir md info
  let next := (self.oldIds.foldl IndexMetadata.removeSegment md).addSegmentMeta self.newId
    { info with
      deletions
      seismicPendingTerms
      annFragmented := reader.annFragmented
      seismicMaintenancePasses := seismic.1
      seismicNoProgressPasses := seismic.2 }
  return { next, written
           registered := self.newId :: (deletions.map (·.id)).toList
           retired := (self.oldIds ++ masks).dedup.filter fun id => !next.ownsId id }

end Replacement

/-- A staged vector rewrite of one segment. -/
structure StagedVectorSegment where
  sourceId : SegmentId
  outputId : SegmentId
  docCount : Nat
  deriving DecidableEq, Repr

/-- Move one lifecycle record from the source to the output. -/
def moveSegment (next : IndexMetadata) (staged : StagedVectorSegment) : Result IndexMetadata :=
  match next.get staged.sourceId with
  | none => .error (.corruption "vector generation source disappeared before publication")
  | some info =>
    let next := next.removeSegment staged.sourceId
    if next.hasSegment staged.outputId then
      .error (.corruption "vector generation output is already metadata-live")
    else .ok (next.addSegmentMeta staged.outputId info)

/-- `publish_vector_generation_with_schema`, the segment part. -/
def publishVectorGeneration (dir : Directory ρ) (md : IndexMetadata)
    (staged : List StagedVectorSegment) : Result Publication := do
  validateCompletedSegments dir (staged.map fun s => (s.outputId, s.docCount))
  let next ← staged.foldlM moveSegment md
  if next.publicationGeneration + 1 ≥ 2 ^ 64 then
    throw (.corruption "vector publication generation exhausted u64")
  return { next := { next with publicationGeneration := next.publicationGeneration + 1 }
           written := []
           registered := staged.map (·.outputId)
           retired := staged.map (·.sourceId) }

end Summa
