import Mathlib.Algebra.Order.BigOperators.Group.List
import Summa.Segment.ChunkMapMergeSpec

/-!
# Merged chunk map files

A merge that is accepted writes a file of one section per field (`writeMergedChunkMapsOrdered_eq_ok`), and
the file is read back (`readMerged`): maps of the chunks of all sources in their order, length columns of the
lengths of all sources, with zeros where a source has none. `chunkMaps_laws` puts the two writers together.
-/

namespace Summa

open List Fallible DocLengthsSource ChunkMapBuilder

/-! ## The section of a field -/

variable (plan : Option ChunkMapOrder)

/-- The kind of a merged map. -/
def mergedKind (sources : List ChunkMapSource) : Nat :=
  if anyDocuments sources then kindDocumentMap
  else if plan.isSome ∨ anyUnordered sources then kindAddressedChunkMap
  else kindChunkMap

/-- Sources of one field that a merge puts together: maps that were read from files, whose units keep their
order, and whose documents, if they are the units, stay in the range of the merged map. -/
structure MergeSources (sources : List ChunkMapSource) : Prop where
  valid : ∀ s ∈ sources, s.Valid
  ascending : Ascending sources
  documents : anyDocuments sources = true → ∀ e ∈ mergedEntries sources, e.docId < chunkCount sources

/-- What the writer checks of a field. -/
structure MergeAccepts (sources : List ChunkMapSource) : Prop where
  order : ∀ p, plan = some p → p.Undoes (chunkCount sources)
  /-- The sources have one kind of unit. -/
  units : anyDocuments sources = true → ∀ s ∈ sources, s.map.documentUnits = true
  count : chunkCount sources ≤ u32Max
  docs : DocsFit (mergedEntries sources)

def mergedTotal (sources : List ChunkMapSource) : Nat := (sources.map (·.map.totalTokens)).sum

/-- The slots by unit, which are all slots in turn when the section has none. -/
def mergedSlots (sources : List ChunkMapSource) : List Nat :=
  if mergedKind plan sources = kindChunkMap then range (chunkCount sources) else arrangedSlots plan sources

def mergedSection (fieldId : Nat) (plan : Option ChunkMapOrder) (sources : List ChunkMapSource) :
    ChunkSection :=
  mapSection fieldId (mergedKind plan sources) (arranged plan sources) (mergedSlots plan sources)
    (mergedTotal sources)

variable {sources : List ChunkMapSource}

theorem checkField_eq_ok {plan : Option ChunkMapOrder} :
    checkField plan sources = .ok () ↔ (∀ p, plan = some p → p.Undoes (chunkCount sources)) ∧
      (anyDocuments sources = true → ∀ s ∈ sources, s.map.documentUnits = true) := by
  have hmix (first : InvalidData Unit) : (first >>= fun _ =>
      if anyDocuments sources ∧ (sources.any fun s => !s.map.documentUnits) then
        .error "cannot merge document and chunk scoring units for one text field"
      else .ok ()) = .ok () ↔
      first = .ok () ∧ (anyDocuments sources = true → ∀ s ∈ sources, s.map.documentUnits = true) := by
    cases first with
    | error e => exact ⟨nofun, fun h => (nomatch h.1)⟩
    | ok u =>
      simp
  cases plan with
  | none => exact (hmix (.ok ())).trans (and_congr_left' ⟨fun _ => nofun, fun _ => rfl⟩)
  | some p =>
    refine (hmix (checkOrder sources p)).trans (and_congr_left' ?_)
    rw [checkOrder_eq_ok]
    exact ⟨fun h q hq => Option.some.inj hq ▸ h, fun h => h p rfl⟩

theorem mergedKind_spec (sources : List ChunkMapSource) :
    (mergedKind plan sources = kindChunkMap ∨ mergedKind plan sources = kindAddressedChunkMap ∨
      mergedKind plan sources = kindDocumentMap) ∧
    (mergedKind plan sources = kindChunkMap → plan = none ∧ anyUnordered sources = false) ∧
    (mergedKind plan sources = kindDocumentMap → anyDocuments sources = true) := by
  unfold mergedKind
  cases anyDocuments sources <;> cases plan <;> cases anyUnordered sources <;>
    simp [kindChunkMap, kindAddressedChunkMap, kindDocumentMap]

theorem mergedAddressed_iff (sources : List ChunkMapSource) :
    mergedAddressed plan sources = true ↔ mergedKind plan sources ≠ kindChunkMap := by
  unfold mergedAddressed mergedKind
  cases anyDocuments sources <;> cases plan <;> cases anyUnordered sources <;>
    simp [kindChunkMap, kindAddressedChunkMap, kindDocumentMap]

section

variable (fieldId : Nat) {plan : Option ChunkMapOrder} {sources : List ChunkMapSource}
  (hvalid : ∀ s ∈ sources, s.Valid) (hplan : ∀ p, plan = some p → p.Undoes (chunkCount sources))

include hvalid hplan

theorem mergedMapRow_eq_ok (row : TocRow) :
    mergedMapRow fieldId plan sources = .ok row ↔
      chunkCount sources ≤ u32Max ∧ row = (mergedSection fieldId plan sources).row := by
  have hrow : (mergedSection fieldId plan sources).row = ⟨fieldId, mergedKind plan sources, chunkCount sources,
      mergedTotal sources, chunkCount sources * if mergedAddressed plan sources then 12 else 8⟩ := by
    simp only [mergedSection, mapSection, length_arranged hvalid hplan, mergedAddressed_iff]
    by_cases hk : mergedKind plan sources = kindChunkMap <;> simp [hk]
  rw [hrow]
  unfold mergedMapRow
  rw [ite_eq_ok, Except.ok.injEq, not_lt, eq_comm]
  rfl

theorem mergedData_eq_ok (data : List Byte) :
    mergedMapData plan sources = .ok data ↔
      DocsFit (mergedEntries sources) ∧ data = (mergedSection fieldId plan sources).data := by
  have hfit : DocsFit (arranged plan sources) ↔ DocsFit (mergedEntries sources) :=
    ⟨fun h e he => h e ((perm_arranged hvalid hplan).mem_iff.mpr he),
      fun h e he => h e ((perm_arranged hvalid hplan).mem_iff.mp he)⟩
  rw [mergedMapData_eq_ok hvalid hplan, hfit]
  have hdata : (mergedSection fieldId plan sources).data = columnBytes (arranged plan sources) ++
      if mergedAddressed plan sources then encodeColumn 4 (arrangedSlots plan sources) else [] := by
    simp only [mergedSection, mapSection, mergedAddressed_iff, mergedSlots]
    by_cases hk : mergedKind plan sources = kindChunkMap <;> simp [hk]
  rw [hdata]

end

theorem mergedTotal_le (hvalid : ∀ s ∈ sources, s.Valid) :
    mergedTotal sources ≤ chunkCount sources * u32Max := by
  induction sources with
  | nil => simp [mergedTotal]
  | cons s sources ih =>
    rw [forall_mem_cons] at hvalid
    have htail := ih hvalid.2
    have hs := ChunkMap.Holds.total hvalid.1
    rw [← ChunkMap.Holds.numChunks hvalid.1] at hs
    simp only [mergedTotal, chunkCount, map_cons, sum_cons, Nat.add_mul] at htail ⊢
    omega

/-- The section of a merged field is accepted, and holds the chunks of all sources. -/
theorem MergeSources.sectionOk {fieldId version : Nat} {plan : Option ChunkMapOrder}
    (h : MergeSources sources) (ha : MergeAccepts plan sources)
    (hfield : fieldId ≤ u32Max) (hversion : anyDocuments sources = true → 4 ≤ version) :
    MapSectionOk version fieldId (mergedKind plan sources) (arranged plan sources) (mergedSlots plan sources)
      (mergedTotal sources) := by
  have hlen := length_arranged h.valid ha.order
  have hmem : ∀ e ∈ arranged plan sources, e ∈ mergedEntries sources :=
    fun e => (perm_arranged h.valid ha.order).mem_iff.mp
  -- an entry is one of a source, with its document moved
  have hsource : ∀ e ∈ arranged plan sources, ∃ s ∈ sources, ∃ e₀ ∈ s.map.entries,
      e.ordinal = e₀.ordinal ∧ e.length = e₀.length := by
    intro e he
    obtain ⟨s, hs, he⟩ := mem_flatMap.mp (hmem e he)
    obtain ⟨e₀, he₀, rfl⟩ := mem_map.mp he
    exact ⟨s, hs, e₀, he₀, rfl, rfl⟩
  obtain ⟨hlt, hcount, hunits⟩ := arrangedSlots_spec h.valid ha.order
  obtain ⟨hkind, hplain, hdocuments⟩ := mergedKind_spec plan sources
  refine ⟨hfield, hkind, fun e he => ?_, hlen ▸ ha.count, hlen ▸ mergedTotal_le h.valid, ?_, ?_, ?_, fun hk => ?_,
    fun hk => ?_⟩
  · obtain ⟨s, hs, e₀, he₀, hordinal, hlength⟩ := hsource e he
    have hfits := ChunkMap.Holds.fits (h.valid s hs) e₀ he₀
    exact ⟨ha.docs e (hmem e he), hordinal ▸ hfits.ordinal, hlength ▸ hfits.length⟩
  · unfold mergedSlots
    split
    · rw [length_range, hlen]
    · rw [hcount, hlen]
  · rw [hlen]
    unfold mergedSlots
    split
    · exact fun slot hs => mem_range.mp hs
    · exact hlt
  · unfold mergedSlots
    split
    · next hk =>
      -- every source is sorted, and they follow each other
      obtain ⟨rfl, hordered⟩ := hplain hk
      rw [← hlen, map_unitOf_range]
      exact mergedUnits_sorted h.valid h.ascending hordered
    · rw [hunits]
      exact joinedUnits_sorted h.valid h.ascending
  · rw [mergedSlots, if_pos hk, hlen]
  · have hany := hdocuments hk
    refine ⟨hversion hany, fun e he => ⟨hlen ▸ h.documents hany e (hmem e he), ?_⟩⟩
    obtain ⟨s, hs, e₀, he₀, hordinal, -⟩ := hsource e he
    exact hordinal.trans (ChunkMap.Holds.documents (h.valid s hs) (ha.units hany s hs) e₀ he₀).2

/-! ## Length columns -/

namespace DocLengthsSource

variable (source : DocLengthsSource)

/-- A source whose lengths, if it has some, were read from a file. -/
def Valid : Prop := ∀ d, source.lengths = some d → ∃ values, d.Holds values

/-- The lengths cover the documents of the segment. -/
def Covered : Prop := ∀ d, source.lengths = some d → d.numDocs = source.numDocs

/-- The lengths of a source: zero for every document when it has none. -/
def values : List Nat :=
  match source.lengths with
  | some d => d.values
  | none => replicate source.numDocs 0

end DocLengthsSource

/-- The bytes of a source in a merged column. -/
def mergedBytes (quantized : Bool) (source : DocLengthsSource) : List Byte :=
  match source.lengths with
  | some d =>
    if d.quantized ∧ quantized = false then encodeColumn 2 (d.lengths.map fun code => normDecode code.toNat)
    else d.lengths
  | none => replicate (source.numDocs * if quantized then 1 else 2) 0

theorem mergedLengths_eq_ok (quantized : Bool) (source : DocLengthsSource) (bytes : List Byte) :
    mergedLengths quantized source = .ok bytes ↔ source.Covered ∧ bytes = mergedBytes quantized source := by
  unfold mergedLengths Covered mergedBytes
  cases source.lengths with
  | none => simp [eq_comm]
  | some d =>
    by_cases hcov : d.numDocs = source.numDocs
    · simp only [hcov, ne_eq, not_true_eq_false, ↓reduceIte, Option.some.injEq, forall_eq', true_and]
      split <;> simp [eq_comm]
    · simp [hcov]

namespace DocLengthsSource

variable {source : DocLengthsSource}

theorem length_values (hc : source.Covered) : source.values.length = source.numDocs := by
  unfold values
  cases hl : source.lengths with
  | none => simp
  | some d => simp [DocLengths.values, hc d hl]

theorem values_lt (h : source.Valid) : ∀ v ∈ source.values, v < 2 ^ 16 := by
  unfold values
  cases hl : source.lengths with
  | none => simp
  | some d =>
    obtain ⟨vs, hvs⟩ := h d hl
    simp only [hvs.values_eq]
    exact hvs.values_lt

/-- In a byte column every source has byte norms. -/
theorem mergedBytes_norms (h : source.Valid) (hq : ∀ d, source.lengths = some d → d.quantized = true) :
    (mergedBytes true source).map (fun code => normDecode code.toNat) = source.values := by
  unfold mergedBytes values
  cases hl : source.lengths with
  | none => simp [normDecode]
  | some d =>
    obtain ⟨vs, hvs⟩ := h d hl
    simp [hvs.norms (hq d hl), hvs.values_eq]

theorem mergedBytes_exact (h : source.Valid) : mergedBytes false source = encodeColumn 2 source.values := by
  unfold mergedBytes values
  cases hl : source.lengths with
  | none => simp [encodeColumn_replicate_zero]
  | some d =>
    obtain ⟨vs, hvs⟩ := h d hl
    cases hq : d.quantized with
    | true => simp [hq, hvs.norms hq, hvs.values_eq]
    | false => simp [hq, hvs.exact hq, hvs.values_eq]

end DocLengthsSource

/-- The merged column of a field. -/
def mergedColumn (sources : List DocLengthsSource) : DocLengths :=
  ⟨allQuantized sources, sources.flatMap (mergedBytes (allQuantized sources)), (sources.map (·.numDocs)).sum,
    ((sources.filterMap (·.lengths)).map (·.totalTokens)).sum⟩

theorem mergedNormRow_eq_ok (fieldId : Nat) (sources : List DocLengthsSource) (row : TocRow) :
    mergedNormRow fieldId sources = .ok row ↔
      (sources.map (·.numDocs)).sum ≤ u32Max ∧ row = (normSection fieldId (mergedColumn sources)).row := by
  unfold mergedNormRow
  rw [ite_eq_ok, Except.ok.injEq, not_lt, eq_comm]
  rfl

/-- What the writer checks of a length column. -/
structure LengthsAccept (sources : List DocLengthsSource) : Prop where
  covered : ∀ s ∈ sources, s.Covered
  count : (sources.map (·.numDocs)).sum ≤ u32Max

theorem mergedColumn_holds {sources : List DocLengthsSource} (hvalid : ∀ s ∈ sources, s.Valid)
    (ha : LengthsAccept sources)
    (htotal : ((sources.filterMap (·.lengths)).map (·.totalTokens)).sum ≤ u64Max) :
    (mergedColumn sources).Holds (sources.flatMap values) := by
  have hcount : (sources.map (·.numDocs)).sum = (sources.flatMap values).length := by
    rw [length_flatMap]
    congr 1
    apply map_congr_left
    intro s hs
    exact (length_values (ha.covered s hs)).symm
  refine ⟨hcount, hcount ▸ ha.count, fun v hv => ?_, fun hq => ?_, fun hq => ?_, htotal⟩
  · obtain ⟨s, hs, hv⟩ := mem_flatMap.mp hv
    exact values_lt (hvalid s hs) v hv
  · have hq : allQuantized sources = true := hq
    simp only [mergedColumn, hq, map_flatMap]
    refine flatMap_congr fun s hs => mergedBytes_norms (hvalid s hs) fun d hd => ?_
    exact all_eq_true.mp hq d (mem_filterMap.mpr ⟨s, hs, hd⟩)
  · have hq : allQuantized sources = false := hq
    simp only [mergedColumn, hq]
    rw [flatMap_def, flatMap_def, encodeColumn_flatten, map_map]
    congr 1
    apply map_congr_left
    intro s hs
    exact mergedBytes_exact (hvalid s hs)

/-! ## The file -/

/-- The fields that have chunks. -/
def liveFields (fields : List (Nat × List ChunkMapSource)) : List (Nat × List ChunkMapSource) :=
  fields.filter fun f => f.2.any fun s => 0 < s.map.numChunks

section

variable (fields : List (Nat × List ChunkMapSource)) (norms : List (Nat × List DocLengthsSource))
  (orders : AList (fun _ : Nat => ChunkMapOrder))

/-- What the writer checks. -/
structure MergeWritable : Prop where
  maps : ∀ f ∈ liveFields fields, MergeAccepts (orders.lookup f.1) f.2
  norms : ∀ n ∈ norms, LengthsAccept n.2

/-- The version of a merged file. -/
def mergedVersion : Nat :=
  if norms.any (fun n => allQuantized n.2) then chunkVersion
  else if (liveFields fields).any (fun f => anyDocuments f.2) then documentVersion
  else addressedVersion

def mergedSections : List ChunkSection :=
  (liveFields fields).map (fun f => mergedSection f.1 (orders.lookup f.1) f.2) ++
    norms.map fun n => normSection n.1 (mergedColumn n.2)

variable {fields norms orders}

theorem writeMergedChunkMapsOrdered_eq_ok (hvalid : ∀ f ∈ liveFields fields, ∀ s ∈ f.2, s.Valid)
    (bytes : List Byte) :
    writeMergedChunkMapsOrdered fields norms orders = .ok bytes ↔ MergeWritable fields norms orders ∧
      bytes = chunkFile (mergedVersion fields norms) (mergedSections fields norms orders) := by
  have hcheck : (liveFields fields).forM (fun f => checkField (orders.lookup f.1) f.2) = .ok () ↔
      ∀ f ∈ liveFields fields, (∀ p, orders.lookup f.1 = some p → p.Undoes (chunkCount f.2)) ∧
        (anyDocuments f.2 = true → ∀ s ∈ f.2, s.map.documentUnits = true) := by
    rw [forM_eq_ok]
    exact forall₂_congr fun f _ => checkField_eq_ok
  have hnormRows := fun rows => mapM_eq_ok_of_item (r := rows) (l := norms)
    fun n _ row => mergedNormRow_eq_ok n.1 n.2 row
  have hlengths := fun data => mapM_eq_ok_of_item (r := data) (l := norms)
    fun n _ bytes => mapM_eq_ok_of_item (r := bytes) (l := n.2)
      fun s _ bytes => mergedLengths_eq_ok (allQuantized n.2) s bytes
  -- with the plans checked, every section is written as it should be
  have hrows := fun (hplan : ∀ f ∈ liveFields fields, ∀ p, orders.lookup f.1 = some p →
      p.Undoes (chunkCount f.2)) rows => mapM_eq_ok_of_item (r := rows) (l := liveFields fields)
    fun f hf row => mergedMapRow_eq_ok f.1 (hvalid f hf) (hplan f hf) row
  have hdata := fun (hplan : ∀ f ∈ liveFields fields, ∀ p, orders.lookup f.1 = some p →
      p.Undoes (chunkCount f.2)) data => mapM_eq_ok_of_item (r := data) (l := liveFields fields)
    fun f hf data => mergedData_eq_ok f.1 (hvalid f hf) (hplan f hf) data
  have hfile : chunkFile (mergedVersion fields norms) (mergedSections fields norms orders) =
      headBytes (mergedVersion fields norms)
        ((liveFields fields).map (fun f => (mergedSection f.1 (orders.lookup f.1) f.2).row) ++
          norms.map fun n => (normSection n.1 (mergedColumn n.2)).row) ++
      (((liveFields fields).map fun f => (mergedSection f.1 (orders.lookup f.1) f.2).data).flatten ++
        ((norms.map fun n => n.2.map (mergedBytes (allQuantized n.2))).map flatten).flatten) := by
    simp only [chunkFile, mergedSections, map_append, map_map, flatten_append]
    rfl
  unfold writeMergedChunkMapsOrdered
  rw [hfile]
  constructor
  · intro h
    obtain ⟨u, hc, h⟩ := bind_eq_ok h
    have hc := hcheck.mp hc
    have hplan := fun f hf => (hc f hf).1
    obtain ⟨rows, hr, h⟩ := bind_eq_ok h
    obtain ⟨nrows, hn, h⟩ := bind_eq_ok h
    obtain ⟨data, hd, h⟩ := bind_eq_ok h
    obtain ⟨lengths, hl, h⟩ := bind_eq_ok h
    obtain ⟨hcount, rfl⟩ := (hrows hplan rows).mp hr
    obtain ⟨hncount, rfl⟩ := (hnormRows nrows).mp hn
    obtain ⟨hdocs, rfl⟩ := (hdata hplan data).mp hd
    obtain ⟨hcov, rfl⟩ := (hlengths lengths).mp hl
    exact ⟨⟨fun f hf => ⟨(hc f hf).1, (hc f hf).2, hcount f hf, hdocs f hf⟩,
      fun n hn => ⟨hcov n hn, hncount n hn⟩⟩, (Except.ok.inj h).symm⟩
  · rintro ⟨hw, rfl⟩
    have hplan := fun f hf => (hw.maps f hf).order
    have hc := hcheck.mpr fun f hf => ⟨(hw.maps f hf).order, (hw.maps f hf).units⟩
    have hr := (hrows hplan _).mpr ⟨fun f hf => (hw.maps f hf).count, rfl⟩
    have hn := (hnormRows _).mpr ⟨fun n hn => (hw.norms n hn).count, rfl⟩
    have hd := (hdata hplan _).mpr ⟨fun f hf => (hw.maps f hf).docs, rfl⟩
    have hl := (hlengths _).mpr ⟨fun n hn => (hw.norms n hn).covered, rfl⟩
    simp only [liveFields] at hc hr hd
    simp only [hc, hr, hn, hd, hl, ok_bind]
    rfl

/-- A merged file is read back: a map of the chunks of all sources for each field that has some, a column of
the lengths of all sources for each length column. -/
theorem readMerged (hsources : ∀ f ∈ liveFields fields, MergeSources f.2)
    (hnorms : ∀ n ∈ norms, ∀ s ∈ n.2, s.Valid) (htotal : ∀ n ∈ norms, (mergedColumn n.2).totalTokens ≤ u64Max)
    (hw : MergeWritable fields norms orders)
    (hfit : FieldsFit (fields.map Prod.fst ++ norms.map Prod.fst)
      (chunkFile (mergedVersion fields norms) (mergedSections fields norms orders)).length) :
    ∃ file, readChunkMaps (chunkFile (mergedVersion fields norms) (mergedSections fields norms orders)) =
        .ok file ∧
      (∀ f ∈ liveFields fields, ∃ m, file.chunkMaps.lookup f.1 = some m ∧
        m.Holds (arranged (orders.lookup f.1) f.2) ∧ m.totalTokens = mergedTotal f.2) ∧
      ∀ n ∈ norms, file.docLengths.lookup n.1 = some (mergedColumn n.2) ∧
        (mergedColumn n.2).Holds (n.2.flatMap values) := by
  have hlive : (liveFields fields).Sublist fields := filter_sublist
  have hfit := hfit.sublist ((hlive.map Prod.fst).append_right (norms.map Prod.fst))
  obtain ⟨hversion, hfour, hfive⟩ := version_spec (show mergedVersion fields norms = _ from rfl)
  have hmap : ∀ f ∈ liveFields fields, MapSectionOk (mergedVersion fields norms) f.1
      (mergedKind (orders.lookup f.1) f.2) (arranged (orders.lookup f.1) f.2)
      (mergedSlots (orders.lookup f.1) f.2) (mergedTotal f.2) := fun f hf =>
    (hsources f hf).sectionOk (hw.maps f hf)
      (hfit.ids_le _ (mem_append_left _ (mem_map.mpr ⟨f, hf, rfl⟩)))
      fun hd => hfour (any_eq_true.mpr ⟨f, hf, hd⟩)
  have hcolumn : ∀ n ∈ norms, (mergedColumn n.2).Holds (n.2.flatMap values) := fun n hn =>
    mergedColumn_holds (hnorms n hn) (hw.norms n hn) (htotal n hn)
  have hnorm : ∀ n ∈ norms, (normSection n.1 (mergedColumn n.2)).Ok (mergedVersion fields norms) := fun n hn =>
    (hcolumn n hn).ok (hfit.ids_le _ (mem_append_right _ (mem_map.mpr ⟨n, hn, rfl⟩)))
      fun hq => hfive (any_eq_true.mpr ⟨n, hn, hq⟩)
  obtain ⟨file, hread, hmaps, hcolumns⟩ := readChunkMaps_columns hversion
    (fun f hf => ⟨(hmap f hf).ok, ChunkSection.isMap_iff.mpr (hmap f hf).kind_map⟩) hnorm hfit
  exact ⟨file, hread, fun f hf => ⟨_, hmaps f hf, (hmap f hf).holds, rfl⟩,
    fun n hn => ⟨hcolumns n hn, hcolumn n hn⟩⟩

end

/-! ## The laws of written and merged maps -/

/-- The chunks of a field of one segment: at most `u32::MAX` of them, no two with one unit, and, when
documents are the units, each document below their number with ordinal zero. -/
structure ChunksFit (documentUnits : Bool) (chunks : List TextChunk) : Prop where
  count : chunks.length ≤ u32Max
  distinct : (chunks.map fun c => c.entry.unit).Nodup
  fits : ∀ c ∈ chunks, c.docId ≤ u32Max ∧ c.ordinal < 2 ^ 16 ∧ c.tokenCount ≤ u32Max
  documents : documentUnits = true → ∀ c ∈ chunks, c.docId < chunks.length ∧ c.ordinal = 0

/-- The builder that was given the chunks. -/
def builtMap (documentUnits : Bool) (chunks : List TextChunk) : ChunkMapBuilder :=
  ⟨chunks.map TextChunk.entry, (chunks.map (·.tokenCount)).sum, documentUnits⟩

theorem ChunksFit.ok {documentUnits : Bool} {chunks : List TextChunk} (h : ChunksFit documentUnits chunks) :
    (builtMap documentUnits chunks).Ok where
  fits := by
    simp only [builtMap, forall_mem_map]
    intro c hc
    obtain ⟨hd, ho, -⟩ := h.fits c hc
    exact ⟨hd, ho, by simp only [TextChunk.entry, maxChunkLength]; omega⟩
  count := by simpa [builtMap] using h.count
  distinct := by
    rw [units, builtMap, map_map]
    exact h.distinct
  total := by
    have hsum := sum_le_card_nsmul (chunks.map (·.tokenCount)) u32Max fun n hn => by
      obtain ⟨c, hc, rfl⟩ := mem_map.mp hn
      exact (h.fits c hc).2.2
    simpa [builtMap] using hsum
  documents hd := by
    simp only [builtMap, forall_mem_map, length_map]
    exact fun c hc => h.documents hd c hc

/-- Maps that are written and reopened obey the laws for the chunks that were pushed, and merged maps obey
them for the chunks of all sources, moved and then permuted. The length columns of both files have the
lengths that were given, joined, with zeros for the segments that have none. -/
theorem chunkMaps_laws :
    (∀ (fields : List (Nat × Bool × List TextChunk)) (norms : List NormColumn) (quantizedVersion : Bool),
      (∀ f ∈ fields, ChunksFit f.2.1 f.2.2) → (∀ n ∈ norms, n.Ok) →
      (∀ n ∈ norms, n.quantized = true → quantizedVersion = true) →
      ∃ builders bytes,
        fields.mapM (fun f => do
          let builder ← pushAll f.2.1 f.2.2
          .ok (f.1, builder)) = .ok builders ∧
        writeChunkMapColumns builders norms quantizedVersion = .ok bytes ∧
        (FieldsFit (fields.map Prod.fst ++ norms.map NormColumn.fieldId) bytes.length →
          ∃ file, readChunkMaps bytes = .ok file ∧
            (∀ f ∈ fields, ∃ m, file.chunkMaps.lookup f.1 = some m ∧ m.Holds (f.2.2.map TextChunk.entry) ∧
              m.Laws (f.2.2.map TextChunk.entry) (f.2.2.map (·.tokenCount)).sum) ∧
            ∀ n ∈ norms, ∃ d, file.docLengths.lookup n.fieldId = some d ∧ d.Holds n.values ∧
              d.Laws n.values n.totalTokens)) ∧
    ∀ (fields : List (Nat × List ChunkMapSource)) (norms : List (Nat × List DocLengthsSource))
      (orders : AList (fun _ : Nat => ChunkMapOrder)),
      (∀ f ∈ liveFields fields, MergeSources f.2) → (∀ n ∈ norms, ∀ s ∈ n.2, s.Valid) →
      (∀ n ∈ norms, ((n.2.filterMap (·.lengths)).map (·.totalTokens)).sum ≤ u64Max) →
      (MergeWritable fields norms orders ↔ ∃ bytes, writeMergedChunkMapsOrdered fields norms orders = .ok bytes) ∧
      ∀ bytes, writeMergedChunkMapsOrdered fields norms orders = .ok bytes →
        FieldsFit (fields.map Prod.fst ++ norms.map Prod.fst) bytes.length →
        ∃ file, readChunkMaps bytes = .ok file ∧
          (∀ f ∈ liveFields fields, ∃ m, file.chunkMaps.lookup f.1 = some m ∧
            m.Holds (arranged (orders.lookup f.1) f.2) ∧
            m.Laws (arranged (orders.lookup f.1) f.2) (f.2.map (·.map.totalTokens)).sum) ∧
          ∀ n ∈ norms, ∃ d, file.docLengths.lookup n.1 = some d ∧
            d.Holds (n.2.flatMap values) ∧
            d.Laws (n.2.flatMap values)
              ((n.2.filterMap (·.lengths)).map (·.totalTokens)).sum := by
  refine ⟨fun fields norms quantizedVersion hfields hnorms hquantized => ?_,
    fun fields norms orders hsources hnorms htotal => ⟨?_, fun bytes hwrite hfit => ?_⟩⟩
  · have hbuild : fields.mapM (fun f => do
        let builder ← pushAll f.2.1 f.2.2
        .ok (f.1, builder)) = .ok (fields.map fun f => (f.1, builtMap f.2.1 f.2.2)) := by
      rw [mapM_eq_ok_iff, map_map]
      apply map_congr_left
      intro f hf
      rw [pushAll_eq (hfields f hf).count]
      rfl
    have hok : ∀ b ∈ fields.map fun f => (f.1, builtMap f.2.1 f.2.2), b.2.Ok :=
      forall_mem_map.mpr fun f hf => (hfields f hf).ok
    obtain ⟨bytes, hwrite, hread⟩ := writeChunkMapColumns_spec hok hnorms hquantized
    refine ⟨_, bytes, hbuild, hwrite, fun hfit => ?_⟩
    rw [map_map] at hread
    obtain ⟨file, hr, hmaps, hcolumns⟩ := hread hfit
    refine ⟨file, hr, fun f hf => ?_, fun n hn => ?_⟩
    · obtain ⟨m, hm, hholds, htotal⟩ := hmaps _ (mem_map.mpr ⟨f, hf, rfl⟩)
      have hlaws := hholds.laws
      rw [htotal] at hlaws
      exact ⟨m, hm, hholds, hlaws⟩
    · obtain ⟨d, hd, hholds, htotal⟩ := hcolumns n hn
      exact ⟨d, hd, hholds, htotal ▸ hholds.laws⟩
  · have hvalid : ∀ f ∈ liveFields fields, ∀ s ∈ f.2, s.Valid := fun f hf => (hsources f hf).valid
    constructor
    · intro hw
      exact ⟨_, (writeMergedChunkMapsOrdered_eq_ok hvalid _).mpr ⟨hw, rfl⟩⟩
    · rintro ⟨bytes, hwrite⟩
      exact ((writeMergedChunkMapsOrdered_eq_ok hvalid bytes).mp hwrite).1
  · obtain ⟨hw, rfl⟩ := (writeMergedChunkMapsOrdered_eq_ok (fun f hf => (hsources f hf).valid) bytes).mp hwrite
    obtain ⟨file, hread, hmaps, hcolumns⟩ := readMerged hsources hnorms htotal hw hfit
    refine ⟨file, hread, fun f hf => ?_, fun n hn => ?_⟩
    · obtain ⟨m, hm, hholds, htotal⟩ := hmaps f hf
      refine ⟨m, hm, hholds, ?_⟩
      have hlaws := hholds.laws
      rwa [htotal] at hlaws
    · obtain ⟨hd, hholds⟩ := hcolumns n hn
      exact ⟨_, hd, hholds, hholds.laws⟩

/-- A map of two chunks that are not in the order of their units. -/
def sampleChunkMap : ChunkMap :=
  ⟨encodeColumn 4 [3, 1], encodeColumn 2 [0, 2], encodeColumn 2 [5, 65535], 2, 70005, false,
    some (encodeColumn 4 [1, 0]), false⟩

theorem sampleChunkMap_holds : sampleChunkMap.Holds [⟨3, 0, 5⟩, ⟨1, 2, 65535⟩] where
  docIds := rfl
  ordinals := rfl
  lengths := rfl
  numChunks := rfl
  fits := by
    simp only [forall_mem_cons]
    exact ⟨⟨by decide, by decide, by decide⟩, ⟨by decide, by decide, by decide⟩, nofun⟩
  count := by decide
  ordered := by decide
  slots_lt := by decide
  slots_sorted := by decide
  documents := nofun
  total := by decide

/-- The map merged with itself. -/
def sampleSources : List (Nat × List ChunkMapSource) := [(7, [⟨sampleChunkMap, 0⟩, ⟨sampleChunkMap, 4⟩])]

/-- A byte column and a segment without lengths. -/
def sampleLengths : List (Nat × List DocLengthsSource) :=
  [(8, [⟨some ⟨true, [4, 25], 2, 29⟩, 2⟩, ⟨none, 2⟩])]

/-- The chunks in reverse. -/
def sampleOrders : AList (fun _ : Nat => ChunkMapOrder) := AList.singleton 7 ⟨[3, 2, 1, 0], [3, 2, 1, 0]⟩

theorem sampleSources_ok : ∀ f ∈ liveFields sampleSources, MergeSources f.2 := by
  refine forall_mem_singleton.mpr ?_
  have hvalid : sampleChunkMap.Holds sampleChunkMap.entries := by
    exact sampleChunkMap_holds
  refine ⟨?_, ?_, nofun⟩
  · simp only [forall_mem_cons]
    exact ⟨hvalid, hvalid, nofun⟩
  · simp only [Ascending, ChunkMapSource.shifted]
    decide

theorem sampleWritable : MergeWritable sampleSources sampleLengths sampleOrders := by
  constructor
  · refine forall_mem_singleton.mpr ⟨fun p hp => ?_, nofun, by decide, by unfold DocsFit; decide⟩
    obtain rfl := Option.some.inj hp
    exact checkOrder_eq_ok.mp rfl
  · intro n hn
    obtain rfl := mem_singleton.mp hn
    refine ⟨?_, by decide⟩
    simp only [forall_mem_cons, Covered]
    exact ⟨fun d hd => Option.some.inj hd ▸ rfl, nofun, nofun⟩

/-- The two halves at one input each: the chunks of `sampleChunkMap` are written with a byte column, and the
map is merged with itself in reverse, with the lengths of one segment missing. -/
theorem chunkMaps_laws_sample :
    (∃ builders bytes file,
      [(7, false, [(⟨3, 0, 5⟩ : TextChunk), ⟨1, 2, 70000⟩])].mapM (fun f => do
        let builder ← pushAll f.2.1 f.2.2
        .ok (f.1, builder)) = .ok builders ∧
      writeChunkMapColumns builders [.new ⟨8, [4, 40], 44⟩ true] true = .ok bytes ∧
      readChunkMaps bytes = .ok file ∧
      (∃ m, file.chunkMaps.lookup 7 = some m ∧ m.Laws [⟨3, 0, 5⟩, ⟨1, 2, 65535⟩] 70005) ∧
      ∃ d, file.docLengths.lookup 8 = some d ∧ d.Laws [4, 40] 44) ∧
    ∃ bytes file, writeMergedChunkMapsOrdered sampleSources sampleLengths sampleOrders = .ok bytes ∧
      readChunkMaps bytes = .ok file ∧
      (∃ m, file.chunkMaps.lookup 7 = some m ∧
        m.Laws [⟨5, 2, 65535⟩, ⟨7, 0, 5⟩, ⟨1, 2, 65535⟩, ⟨3, 0, 5⟩] 140010) ∧
      ∃ d, file.docLengths.lookup 8 = some d ∧ d.Laws [4, 25, 0, 0] 29 := by
  constructor
  · obtain ⟨builders, bytes, hb, hw, hread⟩ := chunkMaps_laws.1
      [(7, false, [(⟨3, 0, 5⟩ : TextChunk), ⟨1, 2, 70000⟩])] [.new ⟨8, [4, 40], 44⟩ true] true
      (forall_mem_singleton.mpr ⟨by decide, by decide, by decide, nofun⟩)
      (forall_mem_singleton.mpr ⟨by decide, by decide, by decide⟩) fun _ _ _ => rfl
    have hwrite : ([(7, false, [(⟨3, 0, 5⟩ : TextChunk), ⟨1, 2, 70000⟩])].mapM (fun f => do
        let builder ← pushAll f.2.1 f.2.2
        .ok (f.1, builder)) >>= fun builders =>
          writeChunkMapColumns builders [.new ⟨8, [4, 40], 44⟩ true] true) = .ok bytes := by
      rw [hb]
      exact hw
    have hlen : true = decide (bytes.length ≤ u64Max) := Eq.trans (by decide +kernel)
      (congrArg (fun r => r.toOption.all fun written => decide (written.length ≤ u64Max)) hwrite)
    obtain ⟨file, hr, hmaps, hcolumns⟩ := hread ⟨by decide, by decide, by decide, of_decide_eq_true hlen.symm⟩
    obtain ⟨m, hm, -, hlaws⟩ := hmaps _ (mem_singleton.mpr rfl)
    obtain ⟨d, hd, -, hlengths⟩ := hcolumns _ (mem_singleton.mpr rfl)
    have hvalues : (NormColumn.new ⟨8, [4, 40], 44⟩ true).values = [4, 40] := by decide +kernel
    rw [hvalues] at hlengths
    exact ⟨builders, bytes, file, hb, hw, hr, ⟨m, hm, hlaws⟩, d, hd, hlengths⟩
  · have hlengths : ∀ n ∈ sampleLengths, ∀ s ∈ n.2, s.Valid := by
      simp only [sampleLengths, forall_mem_cons]
      refine ⟨⟨fun d hd => ?_, nofun, nofun⟩, nofun⟩
      obtain rfl := Option.some.inj hd
      exact ⟨[4, 25], rfl, by decide, by decide, fun _ => by decide, nofun, by decide⟩
    obtain ⟨hiff, hread⟩ := chunkMaps_laws.2 sampleSources sampleLengths sampleOrders sampleSources_ok hlengths
      (by decide)
    obtain ⟨bytes, hwrite⟩ := hiff.mp sampleWritable
    have hbytes := ((writeMergedChunkMapsOrdered_eq_ok (fun f hf => (sampleSources_ok f hf).valid) bytes).mp
      hwrite).2
    have hsize : bytes.length ≤ u64Max := by
      rw [hbytes]
      decide +kernel
    obtain ⟨file, hr, hmaps, hcolumns⟩ := hread bytes hwrite ⟨by decide, by decide, by decide, hsize⟩
    refine ⟨bytes, file, hwrite, hr, ?_, ?_⟩
    · obtain ⟨m, hm, -, hlaws⟩ := hmaps (7, [⟨sampleChunkMap, 0⟩, ⟨sampleChunkMap, 4⟩]) (by
        simp [liveFields, sampleSources, sampleChunkMap])
      refine ⟨m, hm, ?_⟩
      have hchunks : arranged (sampleOrders.lookup 7) [⟨sampleChunkMap, 0⟩, ⟨sampleChunkMap, 4⟩] =
          [⟨5, 2, 65535⟩, ⟨7, 0, 5⟩, ⟨1, 2, 65535⟩, ⟨3, 0, 5⟩] := by decide +kernel
      rwa [hchunks] at hlaws
    · obtain ⟨d, hd, -, hlaws⟩ := hcolumns _ (mem_singleton.mpr rfl)
      refine ⟨d, hd, ?_⟩
      have hvalues : [(⟨some ⟨true, [4, 25], 2, 29⟩, 2⟩ : DocLengthsSource), ⟨none, 2⟩].flatMap
          values = [4, 25, 0, 0] := by decide +kernel
      rwa [hvalues] at hlaws

/-- The map of one chunk of a document. -/
def singleChunkMap (doc : Nat) : ChunkMap := ⟨leBytes 4 doc, [0, 0], [1, 0], 1, 1, true, none, false⟩

/-- Offsets that put a later source before an earlier one. The maps of document 5 and of document 0 are both
written and reopened; merged without offsets their units are distinct, but the merge takes the concatenation
for sorted, and the reader refuses the file. -/
theorem merged_before_earlier_source :
    (∀ doc ∈ [5, 0], ∃ bytes file, writeChunkMapColumns [(7, ⟨[⟨doc, 0, 1⟩], 1, false⟩)] [] false = .ok bytes ∧
      readChunkMaps bytes = .ok file ∧ file.chunkMaps.lookup 7 = some (singleChunkMap doc)) ∧
    ((mergedEntries [⟨singleChunkMap 5, 0⟩, ⟨singleChunkMap 0, 0⟩]).map ChunkEntry.unit).Nodup ∧
    ∃ bytes, writeMergedChunkMapsOrdered [(7, [⟨singleChunkMap 5, 0⟩, ⟨singleChunkMap 0, 0⟩])] [] ∅ = .ok bytes ∧
      readChunkMaps bytes = .error "chunk map requires logical ordering or an addressed section" := by
  refine ⟨?_, by decide, _, rfl, rfl⟩
  simp only [forall_mem_cons]
  exact ⟨⟨_, _, rfl, rfl, rfl⟩, ⟨_, _, rfl, rfl, rfl⟩, nofun⟩

end Summa
