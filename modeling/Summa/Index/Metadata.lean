import Mathlib.Data.List.AList
import Summa.Segment.Deletion

/-!
# Index metadata (`index/metadata.rs`)

`IndexMetadata` is the published state of an index: for each segment its lifecycle record. The
other fields of the source record (schema, vector fields) are not read by the segment lifecycle.
`ownedIds` are the file identities that one metadata generation protects: its segments and their
deletion files.
-/

namespace Summa

/-- Per-segment metadata stored in index metadata. -/
structure SegmentMetaInfo where
  /-- Exact immutable row visibility generation; absence means all rows live. -/
  deletions : Option DeletionMeta
  numDocs : Nat
  ancestors : List SegmentId
  generation : Nat
  reordered : Bool
  bpConverged : Bool
  bpUnconvergedPasses : Nat
  seismicPendingTerms : Nat
  seismicMaintenancePasses : Nat
  seismicNoProgressPasses : Nat
  annFragmented : Bool
  deriving DecidableEq, Repr

namespace SegmentMetaInfo

/-- A fresh segment (generation 0, no ancestors, not reordered). -/
def fresh (numDocs : Nat) : SegmentMetaInfo where
  deletions := none
  numDocs := numDocs
  ancestors := []
  generation := 0
  reordered := false
  bpConverged := true
  bpUnconvergedPasses := 0
  seismicPendingTerms := 0
  seismicMaintenancePasses := 0
  seismicNoProgressPasses := 0
  annFragmented := false

/-- The deletion file of a segment, if it has one. -/
def deletionId (self : SegmentMetaInfo) : Option SegmentId := self.deletions.map (·.id)

end SegmentMetaInfo

/-- The segment map of the metadata. -/
abbrev SegmentMetas := AList fun _ : SegmentId => SegmentMetaInfo

structure IndexMetadata where
  publicationGeneration : Nat
  segmentMetas : SegmentMetas

namespace IndexMetadata

variable (self : IndexMetadata)

variable (id : SegmentId)

def get : Option SegmentMetaInfo :=
  self.segmentMetas.lookup id

def hasSegment : Bool := (self.get id).isSome

def segmentIds : List SegmentId := self.segmentMetas.keys

/-- Every file identity protected by this metadata generation. -/
def ownedIds : List SegmentId :=
  self.segmentMetas.keys ++ self.segmentMetas.entries.filterMap fun e => e.2.deletionId

def ownsId : Bool :=
  self.hasSegment id || self.segmentMetas.entries.any fun e => e.2.deletionId == some id

/-- Insert fully constructed lifecycle metadata. -/
def addSegmentMeta (info : SegmentMetaInfo) : IndexMetadata :=
  { self with segmentMetas := self.segmentMetas.insert id info }

def addSegment (numDocs : Nat) : IndexMetadata :=
  self.addSegmentMeta id (.fresh numDocs)

def removeSegment : IndexMetadata :=
  { self with segmentMetas := self.segmentMetas.erase id }

/-! ## Lookups -/

variable {md : IndexMetadata} {id id' : SegmentId} {info : SegmentMetaInfo}

theorem hasSegment_iff : md.hasSegment id = true ↔ ∃ info, md.get id = some info :=
  Option.isSome_iff_exists

theorem hasSegment_eq_false : md.hasSegment id = false ↔ md.get id = none := by
  unfold hasSegment; cases md.get id <;> simp

theorem mem_segmentIds : id ∈ md.segmentIds ↔ ∃ info, md.get id = some info := by
  rw [← hasSegment_iff, hasSegment, get, AList.lookup_isSome, AList.mem_keys]; rfl

theorem mem_entries {e : Sigma fun _ : SegmentId => SegmentMetaInfo} :
    e ∈ md.segmentMetas.entries ↔ md.get e.1 = some e.2 :=
  (AList.mem_lookup_iff (a := e.1) (b := e.2) (s := md.segmentMetas)).symm

@[simp] theorem get_addSegmentMeta_self : (md.addSegmentMeta id info).get id = some info :=
  AList.lookup_insert _

theorem get_addSegmentMeta_ne (h : id' ≠ id) : (md.addSegmentMeta id info).get id' = md.get id' :=
  AList.lookup_insert_ne h

theorem get_addSegmentMeta :
    (md.addSegmentMeta id info).get id' = if id' = id then some info else md.get id' := by
  split
  · rename_i h; rw [h, get_addSegmentMeta_self]
  · exact get_addSegmentMeta_ne ‹_›

theorem get_removeSegment : (md.removeSegment id).get id' = if id' = id then none else md.get id' := by
  split
  · rename_i h; rw [h]; exact AList.lookup_erase _ _
  · exact AList.lookup_erase_ne ‹_›

/-- An owned identity is a segment or the deletion file of one. -/
theorem mem_ownedIds : id ∈ md.ownedIds ↔ (∃ info, md.get id = some info) ∨
    ∃ s info, md.get s = some info ∧ info.deletionId = some id := by
  rw [ownedIds, List.mem_append, ← mem_segmentIds, List.mem_filterMap]
  refine or_congr Iff.rfl ⟨?_, ?_⟩
  · rintro ⟨⟨s, info⟩, he, hd⟩; exact ⟨s, info, mem_entries.mp he, hd⟩
  · rintro ⟨s, info, he, hd⟩; exact ⟨⟨s, info⟩, mem_entries.mpr he, hd⟩

theorem ownsId_iff : md.ownsId id = true ↔ id ∈ md.ownedIds := by
  rw [mem_ownedIds, ownsId, Bool.or_eq_true, hasSegment_iff, List.any_eq_true]
  refine or_congr Iff.rfl ⟨?_, ?_⟩
  · rintro ⟨⟨s, info⟩, he, hd⟩; exact ⟨s, info, mem_entries.mp he, by simpa using hd⟩
  · rintro ⟨s, info, he, hd⟩; exact ⟨⟨s, info⟩, mem_entries.mpr he, by simpa using hd⟩

end IndexMetadata

end Summa
