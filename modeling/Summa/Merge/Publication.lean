import Mathlib.Data.List.Sort
import Summa.Index.Metadata

/-!
# Publishing segments (`merge/segment_manager.rs`, `merge/row_mutation.rs`)

The metadata transactions of the segment manager. Each one runs under the state lock: it reads the
current metadata and the directory, writes new deletion files, and returns the next metadata and
the identities that leave it (`Publication`), or an error that publishes nothing.

* `commit`: add the segments of a prepared generation.
* `commitWithDeletes`: hide the committed rows of the deleted keys, add the new segments, hide
  their cancelled rows.

`Merge/Replace.lean` has the transactions that replace segments.

A directory maps an identity to its file: the rows of a segment or the bytes of a deletion file.
New identities come from `newId` (`SegmentId::new`), claimed through `protect`
(`protect_new_segment`).
-/

namespace Summa

/-- What is stored under an identity. The rows stand for all files of a segment. -/
inductive File (ρ : Type) where
  | segment (rows : List ρ)
  | deletions (bytes : List Byte)
  deriving DecidableEq

/-- The segment and deletion files on disk. -/
abbrev Directory (ρ : Type) := SegmentId → Option (File ρ)

variable {ρ : Type}

namespace Directory

/-- The rows of a segment, if its files are there. -/
def rows (dir : Directory ρ) (id : SegmentId) : Option (List ρ) :=
  match dir id with
  | some (.segment rows) => some rows
  | _ => none

def deletionFile (dir : Directory ρ) (id : SegmentId) : Option (List Byte) :=
  match dir id with
  | some (.deletions bytes) => some bytes
  | _ => none

/-- The directory after the deletion files `written`, the first of them first. -/
def writeAll (dir : Directory ρ) (written : List (SegmentId × List Byte)) : Directory ρ :=
  written.foldl (fun dir w => Function.update dir w.1 (some (.deletions w.2))) dir

end Directory

/-- Loads the visibility of a segment: all rows without a deletion file. -/
def SegmentMetaInfo.visibility (self : SegmentMetaInfo) (dir : Directory ρ) : Result DocBitset :=
  match self.deletions with
  | none => .ok (.all self.numDocs)
  | some deletion => deletion.load (dir.deletionFile deletion.id) self.numDocs

/-- The result of a metadata transaction. -/
structure Publication where
  next : IndexMetadata
  /-- The deletion files it wrote, claimed until the end of the transaction. -/
  written : List (SegmentId × List Byte)
  /-- The identities to be registered with the tracker. -/
  registered : List SegmentId
  /-- The identities that leave the metadata, to be marked for deletion. -/
  retired : List SegmentId

/-- A transaction that has not done anything yet. -/
def Publication.start (md : IndexMetadata) : Publication where
  next := md
  written := []
  registered := []
  retired := []

/-- The mandatory core of a completed segment: its files, with the expected row count. -/
def validateCompletedSegment (dir : Directory ρ) (id : SegmentId) (expectedDocs : Nat) :
    Result Unit :=
  match dir.rows id with
  | none => .error (.corruption s!"segment {id} cannot be published: mandatory file is missing")
  | some rows =>
    if rows.length ≠ expectedDocs then
      .error (.corruption s!"segment {id} cannot be published: metadata identity/docs mismatch")
    else .ok ()

/-- Validate every segment of a prepared generation. -/
def validateCompletedSegments (dir : Directory ρ) (segments : List (SegmentId × Nat)) :
    Result Unit :=
  segments.forM fun s => validateCompletedSegment dir s.1 s.2

/-- Add the segments that the metadata does not have yet. -/
def addNewSegments (md : IndexMetadata) (newSegments : List (SegmentId × Nat)) : IndexMetadata :=
  newSegments.foldl (fun next s => if next.hasSegment s.1 then next else next.addSegment s.1 s.2) md

/-- Atomic commit: register new segments. -/
def commit (dir : Directory ρ) (md : IndexMetadata) (newSegments : List (SegmentId × Nat)) :
    Result Publication := do
  validateCompletedSegments dir newSegments
  return { next := addNewSegments md newSegments
           written := []
           registered := (newSegments.map Prod.fst).filter fun id => !md.hasSegment id
           retired := [] }

/-! ## Commit with deletes -/

/-- The cancelled rows of a segment that is not published yet (`StagedSegment`). -/
structure StagedSegment where
  dead : List Nat
  deriving DecidableEq, Repr

/-- The rows that are not cancelled; `none` when no row is. -/
def StagedSegment.liveRows (self : StagedSegment) (numDocs : Nat) : Option DocBitset :=
  if self.dead = [] then none else some (self.dead.foldl DocBitset.clear (.all numDocs))

/-- The parts of the manager that a transaction reads besides metadata and files. -/
structure TxEnv (ρ : Type) where
  /-- The primary key of a row. -/
  key : ρ → String
  /-- The schema has a primary field. -/
  primaryField : Bool
  /-- Admission is closed: commit visibility scans stop. -/
  shutdown : Bool
  /-- `SegmentId::new`: the `i`-th identity generated in this transaction. -/
  newId : Nat → SegmentId
  /-- `protect_new_segment`. -/
  protect : SegmentId → Result Unit

variable (env : TxEnv ρ)

/-- Rows of one committed segment whose primary key is in `keys`; `none` when no live row
matches. -/
def deletionTargets (dir : Directory ρ) (keys : List String)
    (segmentId : SegmentId) (info : SegmentMetaInfo) : Result (Option (SegmentId × DocBitset)) :=
  match dir.rows segmentId with
  | none => .error .io
  | some rows => do
    let column := FastFieldReader.ofKeys (rows.map env.key)
    let ordinals ← Deletion.targetOrdinals column info.numDocs keys env.shutdown
    if ordinals = [] then return none
    let alive ← info.visibility dir
    let result ← Deletion.clearTargetRows column ordinals alive env.shutdown
    return if result.2 then some (segmentId, result.1) else none

/-- Write the mask of one segment under a new identity. -/
def writeMask (acc : Publication) (segmentId : SegmentId) (info : SegmentMetaInfo)
    (alive : DocBitset) (retired : List SegmentId) : Result Publication := do
  let id := env.newId acc.written.length
  env.protect id
  let mask ← Deletion.write id info.numDocs alive
  return { acc with
    next := acc.next.addSegmentMeta segmentId { info with deletions := some mask.1 }
    written := acc.written ++ [(id, mask.2)]
    retired := acc.retired ++ retired }

/-- Publish the new mask of one committed segment; its old mask retires. -/
def hideCommitted (md : IndexMetadata) (acc : Publication)
    (target : SegmentId × DocBitset) : Result Publication :=
  match md.get target.1 with
  | none => .error (.internal "segment_metas index out of range")
  | some info => writeMask env acc target.1 info target.2 info.deletionId.toList

/-- Hide the cancelled rows of one new segment. -/
def hideStaged (md : IndexMetadata) (acc : Publication)
    (staged : SegmentId × StagedSegment) : Result Publication :=
  if md.hasSegment staged.1 then
    .error (.corruption "staged visibility must refer to a new segment")
  else match acc.next.get staged.1 with
    | none => .error (.corruption "staged segment is missing")
    | some info =>
      match staged.2.liveRows info.numDocs with
      | none => .error (.internal "staged visibility has no cancelled rows")
      | some alive => writeMask env acc staged.1 info alive []

/-- The committed segments with a target row, with their new masks, in identity order. -/
def changedSegments (dir : Directory ρ) (md : IndexMetadata) (keys : List String) :
    Result (List (SegmentId × DocBitset)) := do
  let sources := if keys = [] then [] else md.segmentMetas.entries
  let targets ← sources.mapM fun s => deletionTargets env dir keys s.1 s.2
  return (targets.filterMap id).insertionSort fun a b => a.1 ≤ b.1

/-- `commit_with_deletes`. -/
def commitWithDeletes (dir : Directory ρ) (md : IndexMetadata)
    (newSegments : List (SegmentId × Nat)) (keys : List String)
    (stagedDeletions : List (SegmentId × StagedSegment)) : Result Publication :=
  if keys = [] ∧ stagedDeletions = [] then commit dir md newSegments
  else if ¬ env.primaryField then .error (.schema "row deletion requires a primary key")
  else do
    validateCompletedSegments dir newSegments
    let changed ← changedSegments env dir md keys.dedup
    let hidden ← changed.foldlM (hideCommitted env md) (.start md)
    -- Only committed rows are targets: the replacement rows of this transaction are added after.
    let added := { hidden with next := addNewSegments hidden.next newSegments }
    let staged ← stagedDeletions.foldlM (hideStaged env md) added
    if staged.next.publicationGeneration + 1 ≥ 2 ^ 64 then
      .error (.corruption "publication generation overflow")
    else
      let next := { staged.next with
        publicationGeneration := staged.next.publicationGeneration + 1 }
      return { staged with
        next
        registered := next.ownedIds
        retired := staged.retired.filter fun id => !next.ownsId id }

end Summa
