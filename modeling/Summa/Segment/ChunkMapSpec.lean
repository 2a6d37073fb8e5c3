import Summa.Segment.ChunkMapFile

/-!
# What a chunk map says

`ChunkMap.Laws`: resolving a slot, finding the slot of a unit, listing the slots of a document, lengths and
total, in terms of the chunks of the map. `ChunkMap.Holds` is what a map read from a file guarantees about
its bytes; it gives the laws (`Holds.laws`) and is what a merge asks of its sources. `mapSection` is a
section with given chunks and slots; the reader accepts it and finds a map that holds the chunks
(`MapSectionOk.ok`, `MapSectionOk.holds`).
-/

namespace Summa

open List

/-- The chunk of each slot has the unit and length given, and the searches find it. -/
structure ChunkMap.Laws (m : ChunkMap) (entries : List ChunkEntry) (total : Nat) : Prop where
  numChunks : m.numChunks = entries.length
  resolve : ∀ v (h : v < entries.length), m.resolve v = entries[v].unit
  slotForUnit : ∀ v < entries.length, m.slotForUnit (m.resolve v) = some v
  /-- The slots of a document come in the order of their ordinals. -/
  documentOrder : ∀ d, ((m.slotsForDocument d).map Prod.fst).Pairwise (· < ·)
  documentSlots : ∀ d ordinal slot, (ordinal, slot) ∈ m.slotsForDocument d ↔
    ∃ e, entries[slot]? = some e ∧ e.docId = d ∧ e.ordinal = ordinal
  lengths : ∀ v (h : v < entries.length), m.length v = entries[v].length
  totalTokens : m.totalTokens = total

/-- The numbers of a chunk fit their columns. -/
structure ChunkEntry.Fits (e : ChunkEntry) : Prop where
  docId : e.docId ≤ u32Max
  ordinal : e.ordinal < 2 ^ 16
  length : e.length < 2 ^ 16

/-- The unit of a slot. -/
def unitOf (entries : List ChunkEntry) (slot : Nat) : LogicalUnit :=
  (entries.map ChunkEntry.unit).getD slot ⟨0, 0⟩

/-- The slots of a map in the order of their units. -/
def ChunkMap.slotList (m : ChunkMap) : List Nat := (range m.numChunks).map m.logicalSlot

/-- The bytes of a map are the columns of `entries`, and its slots are sorted by unit. -/
structure ChunkMap.Holds (m : ChunkMap) (entries : List ChunkEntry) : Prop where
  docIds : m.docIds = encodeColumn 4 (entries.map (·.docId))
  ordinals : m.ordinals = encodeColumn 2 (entries.map (·.ordinal))
  lengths : m.lengths = encodeColumn 2 (entries.map (·.length))
  numChunks : m.numChunks = entries.length
  fits : ∀ e ∈ entries, e.Fits
  count : entries.length ≤ u32Max
  ordered : m.logicallyOrdered = true ↔ (entries.map ChunkEntry.unit).Pairwise (· < ·)
  slots_lt : ∀ slot ∈ m.slotList, slot < entries.length
  slots_sorted : (m.slotList.map (unitOf entries)).Pairwise (· < ·)
  documents : m.documentUnits = true → ∀ e ∈ entries, e.docId < entries.length ∧ e.ordinal = 0
  /-- A chunk has at most `u32::MAX` tokens. -/
  total : m.totalTokens ≤ entries.length * u32Max

theorem unitOf_eq {entries : List ChunkEntry} {slot : Nat} (h : slot < entries.length) :
    unitOf entries slot = entries[slot].unit := by
  simp [unitOf, getElem?_eq_getElem h]

theorem ChunkMap.getElem_slotList {m : ChunkMap} {i : Nat} (hi : i < m.slotList.length) :
    m.slotList[i] = m.logicalSlot i := by
  simp [slotList]

section

variable {entries : List ChunkEntry} (hfits : ∀ e ∈ entries, e.Fits)

include hfits

theorem docIds_lt : ∀ n ∈ entries.map (·.docId), n < 256 ^ 4 :=
  forall_mem_map.mpr fun e he => lt_pow_of_le_u32Max (hfits e he).docId

theorem ordinals_lt : ∀ n ∈ entries.map (·.ordinal), n < 256 ^ 2 :=
  forall_mem_map.mpr fun e he => (hfits e he).ordinal

end

namespace ChunkMap.Holds

variable {m : ChunkMap} {entries : List ChunkEntry} (h : m.Holds entries)

include h

theorem docId_eq {v : Nat} (hv : v < entries.length) : m.docId v = entries[v].docId := by
  rw [docId, h.docIds, columnAt_encodeColumn (docIds_lt h.fits) (by simpa using hv), getElem_map]

theorem ordinal_eq {v : Nat} (hv : v < entries.length) : m.ordinal v = entries[v].ordinal := by
  rw [ordinal, h.ordinals, columnAt_encodeColumn (ordinals_lt h.fits) (by simpa using hv), getElem_map]

theorem decode_lengths : decodeColumn 2 m.lengths = entries.map (·.length) := by
  have hfit : ∀ n ∈ entries.map (·.length), n < 256 ^ 2 :=
    forall_mem_map.mpr fun e he => (h.fits e he).length
  rw [h.lengths, decodeColumn_encodeColumn (by omega) hfit]

theorem length_eq {v : Nat} (hv : v < entries.length) : m.length v = entries[v].length := by
  rw [ChunkMap.length, h.decode_lengths, getElem?_map, getElem?_eq_getElem hv]
  rfl

theorem resolve_eq {v : Nat} (hv : v < entries.length) : m.resolve v = entries[v].unit := by
  rw [resolve, h.docId_eq hv, h.ordinal_eq hv]
  rfl

theorem length_slotList : m.slotList.length = entries.length := by
  rw [slotList, length_map, length_range, h.numChunks]

/-- The slots by unit are all slots. -/
theorem perm_slotList : m.slotList.Perm (range entries.length) := by
  have hnodup : m.slotList.Nodup := by
    have := h.slots_sorted.imp fun hlt => ne_of_lt hlt
    exact List.Nodup.of_map _ this
  refine (subperm_of_subset hnodup fun slot hs => ?_).perm_of_length_le ?_
  · exact mem_range.mpr (h.slots_lt slot hs)
  · rw [length_range, h.length_slotList]

/-- The map from indices by unit to units, as the searches see it. -/
theorem resolve_slots (i : Nat) (hi : i < (m.slotList.map (unitOf entries)).length) :
    some (m.resolve (m.logicalSlot i)) = some (m.slotList.map (unitOf entries))[i] := by
  have hi' : i < m.slotList.length := by simpa using hi
  have hlt := h.slots_lt _ (getElem_mem hi')
  rw [getElem_map, unitOf_eq hlt, ← h.resolve_eq hlt, getElem_slotList hi']

theorem slotForUnit_eq {v : Nat} (hv : v < entries.length) : m.slotForUnit (m.resolve v) = some v := by
  -- slot `v` stands at some index of the order by unit
  have hmem : v ∈ m.slotList := h.perm_slotList.mem_iff.mpr (mem_range.mpr hv)
  obtain ⟨i, hi, hget⟩ := mem_iff_getElem.mp hmem
  have hi' : i < (m.slotList.map (unitOf entries)).length := by simpa using hi
  have hunit : (m.slotList.map (unitOf entries))[i] = m.resolve v := by
    rw [getElem_map, hget, unitOf_eq hv, h.resolve_eq hv]
  have hfind := orderedSlotForUnit_eq h.resolve_slots h.slots_sorted hi'
  have hlen : (m.slotList.map (unitOf entries)).length = m.numChunks := by simp [slotList]
  rw [hunit, hlen] at hfind
  rw [slotForUnit, hfind, Option.map_some, ← getElem_slotList hi, hget]

theorem slotsForDocument_eq (d : Nat) :
    m.slotsForDocument d = (m.slotList.filter fun slot => (unitOf entries slot).doc = d).map
      fun slot => ((unitOf entries slot).ordinal, slot) := by
  have hlen : (m.slotList.map (unitOf entries)).length = m.numChunks := by simp [slotList]
  have hfind := orderedDocumentSlots_eq h.resolve_slots h.slots_sorted d
  rw [hlen] at hfind
  have hzip : (m.slotList.map (unitOf entries)).zipIdx =
      (range m.numChunks).map fun i => (unitOf entries (m.logicalSlot i), i) := by
    apply ext_getElem
    · simp [slotList]
    · intro i h₁ h₂
      simp [slotList]
  rw [slotsForDocument, hfind, hzip, slotList, filter_map, filter_map, map_map, map_map,
    map_map]
  rfl

theorem documentOrder (d : Nat) : ((m.slotsForDocument d).map Prod.fst).Pairwise (· < ·) := by
  rw [h.slotsForDocument_eq, map_map, pairwise_map]
  have hsorted := h.slots_sorted
  rw [pairwise_map] at hsorted
  refine (hsorted.filter _).imp_of_mem fun {a b} ha hb hlt => ?_
  have hda := of_decide_eq_true (mem_filter.mp ha).2
  have hdb := of_decide_eq_true (mem_filter.mp hb).2
  rcases LogicalUnit.lt_iff.mp hlt with hlt | hlt
  · omega
  · exact hlt.2

theorem mem_slotsForDocument (d ordinal slot : Nat) : (ordinal, slot) ∈ m.slotsForDocument d ↔
    ∃ e, entries[slot]? = some e ∧ e.docId = d ∧ e.ordinal = ordinal := by
  rw [h.slotsForDocument_eq, mem_map]
  constructor
  · rintro ⟨s, hs, heq⟩
    obtain ⟨rfl, rfl⟩ := Prod.mk.injEq .. ▸ heq
    obtain ⟨hmem, hdoc⟩ := mem_filter.mp hs
    have hlt := h.slots_lt s hmem
    have hdoc := of_decide_eq_true hdoc
    rw [unitOf_eq hlt] at hdoc ⊢
    exact ⟨entries[s], getElem?_eq_getElem hlt, hdoc, rfl⟩
  · rintro ⟨e, he, rfl, rfl⟩
    obtain ⟨hlt, rfl⟩ := List.getElem?_eq_some_iff.mp he
    have hmem : slot ∈ m.slotList := h.perm_slotList.mem_iff.mpr (mem_range.mpr hlt)
    refine ⟨slot, mem_filter.mpr ⟨hmem, ?_⟩, ?_⟩
    · rw [unitOf_eq hlt]
      exact decide_eq_true rfl
    · rw [unitOf_eq hlt]
      rfl

theorem laws : m.Laws entries m.totalTokens where
  numChunks := h.numChunks
  resolve _ hv := h.resolve_eq hv
  slotForUnit _ hv := h.slotForUnit_eq hv
  documentOrder := h.documentOrder
  documentSlots := h.mem_slotsForDocument
  lengths _ hv := h.length_eq hv
  totalTokens := rfl

/-- Slots that are in range and sorted by unit pass the check of the reader. -/
theorem checkSlots {slots : List Nat} {previous : Option LogicalUnit}
    (hlt : ∀ slot ∈ slots, slot < entries.length) (hs : (slots.map (unitOf entries)).Pairwise (· < ·))
    (hprev : ∀ p ∈ previous, ∀ slot ∈ slots, p < unitOf entries slot) :
    Summa.checkSlots m previous slots = .ok () := by
  induction slots generalizing previous with
  | nil => rfl
  | cons slot slots ih =>
    have hslot := hlt slot mem_cons_self
    have hunit : m.resolve slot = unitOf entries slot := by rw [h.resolve_eq hslot, unitOf_eq hslot]
    rw [map_cons, pairwise_cons] at hs
    have hdoc : ¬ (m.documentUnits = true ∧
        (m.numChunks ≤ (m.resolve slot).doc ∨ (m.resolve slot).ordinal ≠ 0)) := by
      rintro ⟨hd, hbad⟩
      have := h.documents hd _ (getElem_mem hslot)
      rw [h.resolve_eq hslot, h.numChunks] at hbad
      simp only [ChunkEntry.unit] at hbad
      omega
    have hrise : ¬ previous.any (fun p => m.resolve slot ≤ p) = true := by
      cases previous with
      | none => simp
      | some p =>
        rw [Option.any_some, decide_eq_true_iff, not_le, hunit]
        exact hprev p rfl slot mem_cons_self
    simp only [Summa.checkSlots]
    rw [if_neg (by rw [h.numChunks]; omega), if_neg hdoc, if_neg hrise]
    refine ih (fun s hs => hlt s (mem_cons_of_mem _ hs)) hs.2 fun p hp s hs' => ?_
    rw [Option.mem_some_iff] at hp
    rw [← hp, hunit]
    exact hs.1 _ (mem_map.mpr ⟨s, hs', rfl⟩)

end ChunkMap.Holds

/-! ## Sections with given chunks -/

/-- The three columns of a map. -/
def columnBytes (entries : List ChunkEntry) : List Byte :=
  encodeColumn 4 (entries.map (·.docId)) ++ encodeColumn 2 (entries.map (·.ordinal)) ++
    encodeColumn 2 (entries.map (·.length))

/-- A section of a kind with the chunks `entries`, whose order by unit is `slots`. -/
def mapSection (fieldId kind : Nat) (entries : List ChunkEntry) (slots : List Nat) (total : Nat) :
    ChunkSection :=
  ⟨⟨fieldId, kind, entries.length, total, entries.length * if kind = kindChunkMap then 8 else 12⟩,
    columnBytes entries ++ if kind = kindChunkMap then [] else encodeColumn 4 slots⟩

/-- What makes a section of chunks acceptable. -/
structure MapSectionOk (version fieldId kind : Nat) (entries : List ChunkEntry) (slots : List Nat)
    (total : Nat) : Prop where
  field_le : fieldId ≤ u32Max
  kind_map : kind = kindChunkMap ∨ kind = kindAddressedChunkMap ∨ kind = kindDocumentMap
  fits : ∀ e ∈ entries, e.Fits
  count : entries.length ≤ u32Max
  total_le : total ≤ entries.length * u32Max
  slots_length : slots.length = entries.length
  slots_lt : ∀ slot ∈ slots, slot < entries.length
  slots_sorted : (slots.map (unitOf entries)).Pairwise (· < ·)
  /-- A section without slots is in the order of its units. -/
  plain : kind = kindChunkMap → slots = range entries.length
  documents : kind = kindDocumentMap →
    4 ≤ version ∧ ∀ e ∈ entries, e.docId < entries.length ∧ e.ordinal = 0

theorem map_unitOf_range (entries : List ChunkEntry) :
    (range entries.length).map (unitOf entries) = entries.map ChunkEntry.unit := by
  rw [← length_map (f := ChunkEntry.unit)]
  exact map_range_eq fun i hi => by simp [unitOf, getElem?_eq_getElem hi]

namespace MapSectionOk

variable {version fieldId kind total : Nat} {entries : List ChunkEntry} {slots : List Nat}

section

variable (h : MapSectionOk version fieldId kind entries slots total)

include h

theorem total_le_u64Max : total ≤ u64Max := by
  have h₁ := h.total_le
  have h₂ : entries.length * u32Max ≤ u32Max * u32Max := Nat.mul_le_mul_right _ h.count
  have h₃ : u32Max * u32Max ≤ u64Max := by decide
  omega

theorem slots_fit : ∀ n ∈ slots, n < 256 ^ 4 := fun n hn =>
  lt_pow_of_le_u32Max ((h.slots_lt n hn).le.trans h.count)

/-- The map that is read from the section. -/
theorem map_eq : (mapSection fieldId kind entries slots total).map =
    ⟨encodeColumn 4 (entries.map (·.docId)), encodeColumn 2 (entries.map (·.ordinal)),
      encodeColumn 2 (entries.map (·.length)), entries.length, total,
      logicallyOrdered ((entries.map ChunkEntry.unit).map some),
      if kind ≠ kindChunkMap then some (encodeColumn 4 slots) else none, kind == kindDocumentMap⟩ := by
  generalize hrest : (if kind = kindChunkMap then [] else encodeColumn 4 slots) = rest
  have hsplit : columnBytes entries ++ rest = encodeColumn 4 (entries.map (·.docId)) ++
      (encodeColumn 2 (entries.map (·.ordinal)) ++ (encodeColumn 2 (entries.map (·.length)) ++ rest)) := by
    simp [columnBytes]
  have hdocs : sliceBytes (columnBytes entries ++ rest) 0 (entries.length * 4) =
      encodeColumn 4 (entries.map (·.docId)) := by
    rw [hsplit]
    exact sliceBytes_at [] rfl (by simp)
  have hords : sliceBytes (columnBytes entries ++ rest) (entries.length * 4) (entries.length * 2) =
      encodeColumn 2 (entries.map (·.ordinal)) := by
    rw [hsplit]
    exact sliceBytes_at _ (by simp) (by simp)
  have hlens : sliceBytes (columnBytes entries ++ rest) (entries.length * 6) (entries.length * 2) =
      encodeColumn 2 (entries.map (·.length)) := by
    rw [hsplit, ← append_assoc]
    exact sliceBytes_at _ (by simp; omega) (by simp)
  have hunits : ((decodeColumn 4 (encodeColumn 4 (entries.map (·.docId)))).zip
      (decodeColumn 2 (encodeColumn 2 (entries.map (·.ordinal))))).map
        (fun p => some (⟨p.1, p.2⟩ : LogicalUnit)) = (entries.map ChunkEntry.unit).map some := by
    rw [decodeColumn_encodeColumn (by omega) (docIds_lt h.fits), decodeColumn_encodeColumn (by omega) (ordinals_lt h.fits),
      zip_map', map_map, map_map]
    rfl
  simp only [ChunkSection.map, sectionMap, ChunkSection.entry, mapSection, Nat.zero_add, hrest, hdocs, hords,
    hlens, hunits]
  congr 1
  by_cases hk : kind = kindChunkMap
  · simp [hk]
  · rw [if_pos hk, if_pos hk, ← hrest, if_neg hk]
    nth_rewrite 1 [← append_nil (encodeColumn 4 slots)]
    refine congrArg some (sliceBytes_at (columnBytes entries) ?_ ?_)
    · simp [columnBytes]
      omega
    · simp [h.slots_length]

theorem logicalSlot_eq {i : Nat} (hi : i < slots.length) :
    (mapSection fieldId kind entries slots total).map.logicalSlot i = slots[i] := by
  rw [h.map_eq]
  by_cases hk : kind = kindChunkMap
  · simp [ChunkMap.logicalSlot, hk, h.plain hk]
  · simp only [ChunkMap.logicalSlot, ne_eq, hk, not_false_eq_true, ↓reduceIte]
    exact columnAt_encodeColumn h.slots_fit hi

theorem slotList_eq : (mapSection fieldId kind entries slots total).map.slotList = slots := by
  have hnum : (mapSection fieldId kind entries slots total).map.numChunks = entries.length := by
    rw [h.map_eq]
  rw [ChunkMap.slotList, hnum, ← h.slots_length]
  exact map_range_eq fun i hi => h.logicalSlot_eq hi

theorem holds : (mapSection fieldId kind entries slots total).map.Holds entries where
  docIds := by rw [h.map_eq]
  ordinals := by rw [h.map_eq]
  lengths := by rw [h.map_eq]
  numChunks := by rw [h.map_eq]
  fits := h.fits
  count := h.count
  ordered := by rw [h.map_eq]; exact logicallyOrdered_iff
  slots_lt := by rw [h.slotList_eq]; exact h.slots_lt
  slots_sorted := by rw [h.slotList_eq]; exact h.slots_sorted
  documents hd := by
    exact (h.documents (beq_iff_eq.mp hd)).2
  total := by rw [h.map_eq]; exact h.total_le

theorem length_data : (mapSection fieldId kind entries slots total).data.length =
    entries.length * if kind = kindChunkMap then 8 else 12 := by
  simp only [mapSection, columnBytes]
  split
  · simp
    omega
  · simp [h.slots_length]
    omega

theorem ok : (mapSection fieldId kind entries slots total).Ok version where
  fieldId := h.field_le
  count := h.count
  totalTokens := h.total_le_u64Max
  size := h.length_data.symm
  width := by
    refine ⟨if kind = kindChunkMap then 8 else 12, ?_, h.length_data⟩
    show bytesPerEntry version kind = _
    rcases h.kind_map with hk | hk | hk
    · rw [if_pos hk, bytesPerEntry, if_pos hk]
    · rw [hk]
      rfl
    · have hv := (h.documents hk).1
      rw [hk]
      simp [bytesPerEntry, hv, kindChunkMap, kindAddressedChunkMap, kindDocumentMap]
  map _ := by
    have hmap := h.map_eq
    have hholds := h.holds
    show checkMap kind _ = .ok ()
    unfold checkMap
    by_cases hk : kind = kindChunkMap
    · -- no slots: the chunks themselves are sorted
      have hsorted : (entries.map ChunkEntry.unit).Pairwise (· < ·) := by
        rw [← map_unitOf_range, ← h.plain hk]
        exact h.slots_sorted
      rw [if_neg (by rw [hholds.ordered.mpr hsorted]; simp), hmap]
      simp [hk]
    · rw [if_neg (by simp [hk])]
      have hslots : (mapSection fieldId kind entries slots total).map.logicalSlots =
          some (encodeColumn 4 slots) := by rw [hmap]; simp [hk]
      rw [hslots]
      show checkSlots _ none (decodeColumn 4 (encodeColumn 4 slots)) = .ok ()
      rw [decodeColumn_encodeColumn (by omega) h.slots_fit]
      exact hholds.checkSlots h.slots_lt h.slots_sorted fun p hp => absurd hp (Option.not_mem_none p)
  norms hk := by
    have hk : kind = kindByteNorms := hk
    rcases h.kind_map with h' | h' | h' <;> rw [hk] at h' <;> cases h'

end

end MapSectionOk

/-! ## Length columns -/

/-- The length of every document, 0 behind the last one, and the total. -/
structure DocLengths.Laws (d : DocLengths) (values : List Nat) (total : Nat) : Prop where
  numDocs : d.numDocs = values.length
  length : ∀ doc, d.length doc = values[doc]?.getD 0
  totalTokens : d.totalTokens = total

/-- The bytes of a column are the lengths `values`, as byte norms or as two bytes each. -/
structure DocLengths.Holds (d : DocLengths) (values : List Nat) : Prop where
  numDocs : d.numDocs = values.length
  count : values.length ≤ u32Max
  values_lt : ∀ v ∈ values, v < 2 ^ 16
  norms : d.quantized = true → d.lengths.map (fun code => normDecode code.toNat) = values
  exact : d.quantized = false → d.lengths = encodeColumn 2 values
  total : d.totalTokens ≤ u64Max

theorem DocLengths.Holds.laws {d : DocLengths} {values : List Nat} (h : d.Holds values) :
    d.Laws values d.totalTokens := by
  refine ⟨h.numDocs, fun doc => ?_, rfl⟩
  unfold DocLengths.length
  cases hq : d.quantized with
  | true =>
    rw [if_pos rfl, ← h.norms hq, getElem?_map, DocLengths.normCode]
    cases d.lengths[doc]? with
    | none => rfl
    | some code => rfl
  | false =>
    rw [if_neg Bool.false_ne_true, h.exact hq, decodeColumn_encodeColumn (by omega) h.values_lt]

/-- The lengths of a column. -/
def DocLengths.values (d : DocLengths) : List Nat := (range d.numDocs).map d.length

theorem DocLengths.Holds.values_eq {d : DocLengths} {values : List Nat} (h : d.Holds values) :
    d.values = values := by
  rw [DocLengths.values, h.numDocs]
  refine map_range_eq fun i hi => ?_
  rw [h.laws.length, getElem?_eq_getElem hi]
  rfl

/-- A section with a length column. -/
def normSection (fieldId : Nat) (d : DocLengths) : ChunkSection :=
  ⟨⟨fieldId, if d.quantized then kindByteNorms else kindDocLengths, d.numDocs, d.totalTokens,
    d.numDocs * if d.quantized then 1 else 2⟩, d.lengths⟩

namespace DocLengths.Holds

variable {d : DocLengths} {values : List Nat} {fieldId version : Nat} (h : d.Holds values)

include h

theorem length_bytes : d.lengths.length = d.numDocs * if d.quantized then 1 else 2 := by
  cases hq : d.quantized with
  | true => rw [h.numDocs, ← h.norms hq, length_map]; simp
  | false => rw [h.numDocs, h.exact hq, length_encodeColumn]; simp

theorem ok (hfield : fieldId ≤ u32Max) (hversion : d.quantized = true → 5 ≤ version) :
    (normSection fieldId d).Ok version where
  fieldId := hfield
  count := by
    show d.numDocs ≤ u32Max
    rw [h.numDocs]
    exact h.count
  totalTokens := h.total
  size := h.length_bytes.symm
  width := by
    refine ⟨if d.quantized then 1 else 2, ?_, h.length_bytes⟩
    cases hq : d.quantized with
    | true => simp [normSection, hq, bytesPerEntry, hversion hq, kindByteNorms, kindChunkMap,
        kindAddressedChunkMap, kindDocumentMap, kindDocLengths]
    | false => simp [normSection, hq, bytesPerEntry, kindChunkMap, kindAddressedChunkMap, kindDocumentMap,
        kindDocLengths]
  map hm := by
    rw [ChunkSection.isMap_iff] at hm
    cases hq : d.quantized <;> simp [normSection, hq, kindByteNorms, kindChunkMap, kindAddressedChunkMap,
      kindDocumentMap, kindDocLengths] at hm
  norms hk code hc := by
    have hq : d.quantized = true := by
      cases hq : d.quantized with
      | true => rfl
      | false => simp [normSection, hq, kindDocLengths, kindByteNorms] at hk
    have hmem : normDecode code.toNat ∈ values := by
      rw [← h.norms hq]
      exact mem_map.mpr ⟨code, hc, rfl⟩
    exact Nat.le_of_lt_succ (h.values_lt _ hmem)

omit h in
theorem isMap_normSection : (normSection fieldId d).isMap = false := by
  cases hq : d.quantized <;> simp [ChunkSection.isMap, normSection, hq, kindByteNorms, kindChunkMap,
    kindAddressedChunkMap, kindDocumentMap, kindDocLengths]

omit h in
theorem docLengths_normSection : (normSection fieldId d).docLengths = d := by
  obtain ⟨quantized, lengths, numDocs, totalTokens⟩ := d
  cases quantized <;> rfl

end DocLengths.Holds

end Summa
