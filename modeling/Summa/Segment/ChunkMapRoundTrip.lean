import Summa.Segment.ChunkMapSpec

/-!
# Chunk maps written and reopened

The file that `writeChunkMapColumns` writes for builders with distinct units is read back
(`writeChunkMapColumns_spec`): every field has a map that holds the chunks of its builder, every length
column the lengths that were given.
-/

namespace Summa

open List Fallible

/-! ## Builders -/

/-- A chunk as it is given to a builder. -/
structure TextChunk where
  docId : Nat
  ordinal : Nat
  tokenCount : Nat
  deriving DecidableEq, Repr

/-- The chunk as it is stored: the token count saturates. -/
def TextChunk.entry (c : TextChunk) : ChunkEntry := ⟨c.docId, c.ordinal, min c.tokenCount maxChunkLength⟩

/-- A builder that is given the chunks in turn. -/
def ChunkMapBuilder.pushAll (documentUnits : Bool) (chunks : List TextChunk) : InvalidData ChunkMapBuilder :=
  chunks.foldlM (fun builder c => do
    let pushed ← builder.push c.docId c.ordinal c.tokenCount
    .ok pushed.2) (.empty documentUnits)

namespace ChunkMapBuilder

theorem foldlM_push {chunks : List TextChunk} {builder : ChunkMapBuilder}
    (h : builder.entries.length + chunks.length ≤ u32Max) :
    chunks.foldlM (fun builder c => do
      let pushed ← builder.push c.docId c.ordinal c.tokenCount
      .ok pushed.2) builder =
    (.ok { builder with
      entries := builder.entries ++ chunks.map TextChunk.entry
      totalTokens := builder.totalTokens + (chunks.map (·.tokenCount)).sum } : InvalidData ChunkMapBuilder) := by
  induction chunks generalizing builder with
  | nil => simp [pure, Except.pure]
  | cons c chunks ih =>
    rw [length_cons] at h
    rw [foldlM_cons, push, if_neg (by omega), ok_bind, ok_bind,
      ih (by simp only [length_append, length_singleton]; omega)]
    simp [TextChunk.entry, Nat.add_assoc]

theorem pushAll_eq {chunks : List TextChunk} (h : chunks.length ≤ u32Max) (documentUnits : Bool) :
    pushAll documentUnits chunks =
      .ok ⟨chunks.map TextChunk.entry, (chunks.map (·.tokenCount)).sum, documentUnits⟩ := by
  have hroom : (empty documentUnits).entries.length + chunks.length ≤ u32Max := by simpa [empty] using h
  simpa [pushAll, empty] using foldlM_push hroom

/-- A builder whose chunks are distinct and fit the format. -/
structure Ok (builder : ChunkMapBuilder) : Prop where
  fits : ∀ e ∈ builder.entries, e.Fits
  count : builder.entries.length ≤ u32Max
  distinct : builder.units.Nodup
  total : builder.totalTokens ≤ builder.entries.length * u32Max
  documents : builder.documentUnits = true →
    ∀ e ∈ builder.entries, e.docId < builder.entries.length ∧ e.ordinal = 0

variable {builder : ChunkMapBuilder}

/-- Neighbours that rise are a list that rises. -/
theorem all_zip_tail {units : List LogicalUnit} :
    ((units.zip units.tail).all (fun p => decide (p.1 ≤ p.2)) &&
      (units.zip units.tail).all fun p => decide (p.1 ≠ p.2)) = true ↔ units.Pairwise (· < ·) := by
  rw [← isChain_iff_pairwise, isChain_iff_zip_tail, Bool.and_eq_true, all_eq_true, all_eq_true]
  simp only [decide_eq_true_iff, lt_iff_le_and_ne]
  exact forall₂_and.symm

theorem logicallyOrdered_iff : builder.logicallyOrdered = true ↔ builder.units.Pairwise (· < ·) :=
  all_zip_tail

theorem unitAt_eq (builder : ChunkMapBuilder) : builder.unitAt = unitOf builder.entries := rfl

section

variable (h : builder.Ok)

include h

theorem perm_sortedSlots : builder.sortedSlots.Perm (range builder.entries.length) := by
  have hlen : builder.len32 = builder.entries.length := by
    have := h.count
    simp only [u32Max] at this
    rw [len32, Nat.mod_eq_of_lt (by omega)]
  rw [sortedSlots, hlen]
  exact perm_insertionSort _ _

/-- The slots of a builder with distinct units are strictly sorted by unit. -/
theorem sortedSlots_sorted : (builder.sortedSlots.map (unitOf builder.entries)).Pairwise (· < ·) := by
  let rel : Nat → Nat → Prop := fun a b => builder.unitAt a ≤ builder.unitAt b
  have hle : (builder.sortedSlots.map (unitOf builder.entries)).Pairwise (· ≤ ·) := by
    rw [pairwise_map]
    exact pairwise_insertionSort rel _
  have hnodup : (builder.sortedSlots.map (unitOf builder.entries)).Nodup := by
    rw [((perm_sortedSlots h).map _).nodup_iff, map_unitOf_range]
    exact h.distinct
  exact (hle.and hnodup).imp fun hab => lt_of_le_of_ne hab.1 hab.2

theorem hasDuplicate_eq_false : builder.hasDuplicate = false := by
  have hs := sortedSlots_sorted h
  rw [pairwise_map, ← isChain_iff_pairwise, isChain_iff_zip_tail] at hs
  rw [hasDuplicate, any_eq_false]
  intro p hp
  rw [decide_eq_true_iff, unitAt_eq]
  exact (hs p hp).ne

end

/-- The slots of a builder in the order of their units. -/
def sectionSlots (builder : ChunkMapBuilder) : List Nat :=
  if builder.sectionKind = kindChunkMap then range builder.entries.length else builder.sortedSlots

/-- The section that is written for a builder. -/
def toSection (fieldId : Nat) (builder : ChunkMapBuilder) : ChunkSection :=
  mapSection fieldId builder.sectionKind builder.entries builder.sectionSlots builder.totalTokens

theorem sectionKind_spec (builder : ChunkMapBuilder) :
    (builder.sectionKind = kindChunkMap ∨ builder.sectionKind = kindAddressedChunkMap ∨
      builder.sectionKind = kindDocumentMap) ∧
    (builder.sectionKind = kindChunkMap → builder.logicallyOrdered = true) ∧
    (builder.sectionKind = kindDocumentMap → builder.documentUnits = true) := by
  unfold sectionKind
  cases builder.documentUnits <;> cases builder.logicallyOrdered <;> decide

theorem perm_sectionSlots (h : builder.Ok) : builder.sectionSlots.Perm (range builder.entries.length) := by
  unfold sectionSlots
  split
  · exact .refl _
  · exact perm_sortedSlots h

theorem Ok.sectionOk (h : builder.Ok) {fieldId version : Nat} (hfield : fieldId ≤ u32Max)
    (hversion : builder.documentUnits = true → 4 ≤ version) :
    MapSectionOk version fieldId builder.sectionKind builder.entries builder.sectionSlots
      builder.totalTokens where
  field_le := hfield
  kind_map := builder.sectionKind_spec.1
  fits := h.fits
  count := h.count
  total_le := h.total
  slots_length := by simpa using (perm_sectionSlots h).length_eq
  slots_lt := fun slot hs => mem_range.mp ((perm_sectionSlots h).mem_iff.mp hs)
  slots_sorted := by
    unfold sectionSlots
    split
    · next hk =>
      rw [map_unitOf_range]
      exact logicallyOrdered_iff.mp (builder.sectionKind_spec.2.1 hk)
    · exact sortedSlots_sorted h
  plain hk := by rw [sectionSlots, if_pos hk]
  documents hk := by
    have hd := builder.sectionKind_spec.2.2 hk
    exact ⟨hversion hd, h.documents hd⟩

theorem Ok.sectionData (h : builder.Ok) (fieldId : Nat) :
    builder.sectionData = .ok (builder.toSection fieldId).data := by
  unfold ChunkMapBuilder.sectionData
  simp only [hasDuplicate_eq_false h, Bool.false_eq_true, ↓reduceIte, toSection, mapSection, sectionSlots]
  split
  · simp [columnBytes]
  · rfl

end ChunkMapBuilder

/-! ## Length columns -/

namespace NormColumn

/-- The lengths a column stands for: a new byte column rounds them down. -/
def values : NormColumn → List Nat
  | .new column true => column.lengths.map fun length => normDecode (normEncode length)
  | .new column false => column.lengths
  | .encoded _ lengths => (range lengths.numDocs).map lengths.length

/-- A column that fits the format. -/
def Ok : NormColumn → Prop
  | .new column _ => column.lengths.length ≤ u32Max ∧ (∀ l ∈ column.lengths, l < 2 ^ 16) ∧
      column.totalTokens ≤ u64Max
  | .encoded _ lengths => ∃ values, lengths.Holds values

/-- The column as it is read from the file. -/
def stored (column : NormColumn) : DocLengths :=
  ⟨column.quantized, column.write, column.count, column.totalTokens⟩

theorem Ok.holds {column : NormColumn} (h : column.Ok) : column.stored.Holds column.values := by
  match column, h with
  | .new column false, ⟨hcount, hlt, htotal⟩ => exact ⟨rfl, hcount, hlt, nofun, fun _ => rfl, htotal⟩
  | .new column true, ⟨hcount, hlt, htotal⟩ =>
    refine ⟨by simp [stored, count, values], by simpa [values] using hcount, ?_, fun _ => ?_, nofun, htotal⟩
    · intro v hv
      obtain ⟨l, hl, rfl⟩ := mem_map.mp hv
      exact (normEncode_spec l).2.trans_lt (hlt l hl)
    · -- a byte holds the code
      show (encodeColumn 1 (column.lengths.map normEncode)).map _ = _
      have hbyte : ∀ l, (leBytes 1 (normEncode l)).map (fun code => normDecode code.toNat) =
          [normDecode (normEncode l)] := by
        intro l
        have := (normEncode_spec l).1
        simp only [leBytes, map_cons, map_nil, BitVec.toNat_ofNat]
        rw [Nat.mod_eq_of_lt (by omega)]
      rw [encodeColumn, flatMap_map, map_flatMap]
      simp only [hbyte, values]
      exact map_eq_flatMap.symm
  | .encoded fieldId lengths, ⟨vs, hvs⟩ =>
    have hvalues : (NormColumn.encoded fieldId lengths).values = vs := hvs.values_eq
    rw [hvalues]
    exact hvs

end NormColumn

/-! ## The file -/

/-- What the format asks of the fields of a file: ids that are `u32` and distinct, and a size that a file can
have. -/
structure FieldsFit (ids : List Nat) (size : Nat) : Prop where
  distinct : ids.Nodup
  ids_le : ∀ id ∈ ids, id ≤ u32Max
  count : ids.length ≤ u32Max
  size : size ≤ u64Max

theorem FieldsFit.sublist {ids ids' : List Nat} {size : Nat} (h : FieldsFit ids size) (hs : ids'.Sublist ids) :
    FieldsFit ids' size :=
  ⟨h.distinct.sublist hs, fun id hid => h.ids_le id (hs.mem hid), hs.length_le.trans h.count, h.size⟩

/-- A file of map sections and length columns that are accepted is read back section by section. -/
theorem readChunkMaps_columns {α β : Type} {version : Nat} {maps : List α} {columns : List β}
    {toMap : α → ChunkSection} {field : β → Nat} {lengths : β → DocLengths}
    (hversion : version = addressedVersion ∨ version = documentVersion ∨ version = chunkVersion)
    (hmaps : ∀ a ∈ maps, (toMap a).Ok version ∧ (toMap a).isMap = true)
    (hnorms : ∀ b ∈ columns, (normSection (field b) (lengths b)).Ok version)
    (hfit : FieldsFit (maps.map (fun a => (toMap a).row.fieldId) ++ columns.map field)
      (chunkFile version (maps.map toMap ++ columns.map fun b => normSection (field b) (lengths b))).length) :
    ∃ file, readChunkMaps (chunkFile version
        (maps.map toMap ++ columns.map fun b => normSection (field b) (lengths b))) = .ok file ∧
      (∀ a ∈ maps, file.chunkMaps.lookup (toMap a).row.fieldId = some (toMap a).map) ∧
      ∀ b ∈ columns, file.docLengths.lookup (field b) = some (lengths b) := by
  let sections := maps.map toMap ++ columns.map fun b => normSection (field b) (lengths b)
  have hids : sections.map (·.row.fieldId) = maps.map (fun a => (toMap a).row.fieldId) ++ columns.map field := by
    simp only [sections, map_append, map_map]
    rfl
  have hok : ∀ sec ∈ sections, sec.Ok version := by
    intro sec hs
    rcases mem_append.mp hs with hs | hs
    · obtain ⟨a, ha, rfl⟩ := mem_map.mp hs
      exact (hmaps a ha).1
    · obtain ⟨b, hb, rfl⟩ := mem_map.mp hs
      exact hnorms b hb
  have hnodup : (sections.map (·.row.fieldId)).Nodup := hids ▸ hfit.distinct
  have hcount : sections.length ≤ u32Max := by
    have := hfit.count
    rw [← hids, length_map] at this
    exact this
  refine ⟨_, readChunkMaps_chunkFile hok hnodup hversion hcount hfit.size, fun a ha => ?_, fun b hb => ?_⟩
  · have hmem : toMap a ∈ sections := mem_append_left _ (mem_map.mpr ⟨a, ha, rfl⟩)
    exact (lookup_sections hnodup hmem ⟨∅, ∅⟩).1 (hmaps a ha).2
  · have hmem : normSection (field b) (lengths b) ∈ sections :=
      mem_append_right _ (mem_map.mpr ⟨b, hb, rfl⟩)
    have hfound := (lookup_sections hnodup hmem ⟨∅, ∅⟩).2 DocLengths.Holds.isMap_normSection
    rwa [DocLengths.Holds.docLengths_normSection] at hfound

/-- The version of a file tells its readers of document units and of quantized lengths. -/
theorem version_spec {version : Nat} {quantized documents : Bool}
    (h : version = if quantized then chunkVersion else if documents then documentVersion else addressedVersion) :
    (version = addressedVersion ∨ version = documentVersion ∨ version = chunkVersion) ∧
      (documents = true → 4 ≤ version) ∧ (quantized = true → 5 ≤ version) := by
  subst h
  cases quantized <;> cases documents <;> decide

/-- The maps and length columns of a file, read back. -/
structure FileHolds (file : ChunkMapFile) (fields : List (Nat × ChunkMapBuilder)) (norms : List NormColumn) :
    Prop where
  maps : ∀ f ∈ fields, ∃ m, file.chunkMaps.lookup f.1 = some m ∧ m.Holds f.2.entries ∧
    m.totalTokens = f.2.totalTokens
  norms : ∀ n ∈ norms, ∃ d, file.docLengths.lookup n.fieldId = some d ∧ d.Holds n.values ∧
    d.totalTokens = n.totalTokens

theorem writeChunkMapColumns_spec {fields : List (Nat × ChunkMapBuilder)} {norms : List NormColumn}
    {quantizedVersion : Bool} (hfields : ∀ f ∈ fields, f.2.Ok) (hnorms : ∀ n ∈ norms, n.Ok)
    (hquantized : ∀ n ∈ norms, n.quantized = true → quantizedVersion = true) :
    ∃ bytes, writeChunkMapColumns fields norms quantizedVersion = .ok bytes ∧
      (FieldsFit (fields.map Prod.fst ++ norms.map NormColumn.fieldId) bytes.length →
        ∃ file, readChunkMaps bytes = .ok file ∧ FileHolds file fields norms) := by
  let version := if quantizedVersion then chunkVersion
    else if fields.any (·.2.documentUnits) then documentVersion
    else addressedVersion
  have hdata : fields.mapM (fun f => f.2.sectionData) =
      .ok ((fields.map fun f => f.2.toSection f.1).map (·.data)) := by
    rw [mapM_eq_ok_iff, map_map, map_map]
    apply map_congr_left
    intro f hf
    exact (hfields f hf).sectionData f.1
  have hwrite : writeChunkMapColumns fields norms quantizedVersion = .ok (chunkFile version
      (fields.map (fun f => f.2.toSection f.1) ++ norms.map fun n => normSection n.fieldId n.stored)) := by
    unfold writeChunkMapColumns
    simp only [hdata, ok_bind]
    simp only [chunkFile, map_append, map_map, flatten_append, version]
    rfl
  refine ⟨_, hwrite, fun hfit => ?_⟩
  obtain ⟨hversion, hfour, hfive⟩ := version_spec (show version = _ from rfl)
  have hmap : ∀ f ∈ fields, MapSectionOk version f.1 f.2.sectionKind f.2.entries f.2.sectionSlots
      f.2.totalTokens := fun f hf =>
    (hfields f hf).sectionOk (hfit.ids_le _ (mem_append_left _ (mem_map.mpr ⟨f, hf, rfl⟩)))
      fun hd => hfour (any_eq_true.mpr ⟨f, hf, hd⟩)
  have hnorm : ∀ n ∈ norms, (normSection n.fieldId n.stored).Ok version := fun n hn =>
    (hnorms n hn).holds.ok (hfit.ids_le _ (mem_append_right _ (mem_map.mpr ⟨n, hn, rfl⟩)))
      fun hq => hfive (hquantized n hn hq)
  obtain ⟨file, hread, hmaps, hcolumns⟩ := readChunkMaps_columns hversion
    (fun f hf => ⟨(hmap f hf).ok, ChunkSection.isMap_iff.mpr (hmap f hf).kind_map⟩) hnorm hfit
  exact ⟨file, hread, fun f hf => ⟨_, hmaps f hf, (hmap f hf).holds, rfl⟩,
    fun n hn => ⟨_, hcolumns n hn, (hnorms n hn).holds, rfl⟩⟩

end Summa
