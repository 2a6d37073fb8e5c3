import Mathlib.Data.List.GetD
import Summa.Segment.ChunkMapMerge
import Summa.Segment.ChunkMapRoundTrip

/-!
# Merged chunk maps

The data that a merge writes for a field (`mergedMapData_eq_ok`): its map holds the
chunks of its sources, moved by their offsets, one source after the other, or in the order that was given.
This needs the units of each source to come before those of the sources after it, since the slots by unit are
those of the sources, one after the other.
-/

namespace Summa

open List Fallible

/-- The chunk with its document moved. -/
def ChunkEntry.shift (offset : Nat) (e : ChunkEntry) : ChunkEntry := { e with docId := e.docId + offset }

@[simp] theorem ChunkEntry.unit_shift (offset : Nat) (e : ChunkEntry) :
    (e.shift offset).unit = e.unit.shift offset := rfl

/-- The chunks of a map. -/
def ChunkMap.entries (m : ChunkMap) : List ChunkEntry :=
  (range m.numChunks).map fun v => ⟨m.docId v, m.ordinal v, m.length v⟩

namespace ChunkMapSource

/-- A source whose map was read from a file. -/
def Valid (source : ChunkMapSource) : Prop := source.map.Holds source.map.entries

/-- The chunks of a source in the merged file. -/
def shifted (source : ChunkMapSource) : List ChunkEntry := source.map.entries.map (·.shift source.docOffset)

theorem Valid.numChunks {source : ChunkMapSource} (h : source.Valid) :
    source.map.numChunks = source.shifted.length := by
  rw [shifted, length_map]
  exact ChunkMap.Holds.numChunks h

end ChunkMapSource

/-- The chunks of all sources, one source after the other. -/
def mergedEntries (sources : List ChunkMapSource) : List ChunkEntry :=
  sources.flatMap ChunkMapSource.shifted

@[simp] theorem mergedEntries_cons (source : ChunkMapSource) (sources : List ChunkMapSource) :
    mergedEntries (source :: sources) = source.shifted ++ mergedEntries sources := rfl

/-- The chunks of the merged map: with a plan, the chunk number `order[new]` of all sources stands at `new`. -/
def arranged (plan : Option ChunkMapOrder) (sources : List ChunkMapSource) : List ChunkEntry :=
  match plan with
  | some plan => plan.order.map fun old => (mergedEntries sources).getD old ⟨0, 0, 0⟩
  | none => mergedEntries sources

/-- The slots by unit of all sources, one source after the other. -/
def joinedSlots (base : Nat) (sources : List ChunkMapSource) : List Nat :=
  (sources.zip (chunkBases base sources)).flatMap fun s =>
    (range s.1.map.numChunks).map fun i => s.1.map.logicalSlot i + s.2

theorem joinedSlots_cons (base : Nat) (source : ChunkMapSource) (sources : List ChunkMapSource) :
    joinedSlots base (source :: sources) =
      source.map.slotList.map (· + base) ++ joinedSlots (base + source.map.numChunks) sources := by
  rw [joinedSlots, chunkBases, zip_cons_cons, flatMap_cons, ChunkMap.slotList, map_map]
  rfl

/-! ## The slots by unit -/

section

variable {sources : List ChunkMapSource} (hvalid : ∀ s ∈ sources, s.Valid)

include hvalid

theorem length_mergedEntries : (mergedEntries sources).length = chunkCount sources := by
  rw [mergedEntries, length_flatMap, chunkCount]
  congr 1
  apply map_congr_left
  intro s hs
  exact (hvalid s hs).numChunks.symm

theorem joinedSlots_spec (pre : List ChunkEntry) :
    (∀ slot ∈ joinedSlots pre.length sources, slot < pre.length + chunkCount sources) ∧
      (joinedSlots pre.length sources).length = chunkCount sources ∧
      (joinedSlots pre.length sources).map (unitOf (pre ++ mergedEntries sources)) =
        sources.flatMap fun s => s.map.slotList.map fun slot =>
          (unitOf s.map.entries slot).shift s.docOffset := by
  induction sources generalizing pre with
  | nil => exact ⟨nofun, rfl, rfl⟩
  | cons s sources ih =>
    have hs := hvalid s mem_cons_self
    have hlen : pre.length + s.map.numChunks = (pre ++ s.shifted).length := by
      rw [length_append, hs.numChunks]
    obtain ⟨hlt, hcount, hunits⟩ := ih (fun s hs => hvalid s (mem_cons_of_mem _ hs))
      (pre ++ s.shifted)
    have hslots : ∀ slot ∈ s.map.slotList, slot < s.map.entries.length :=
      ChunkMap.Holds.slots_lt hs
    have hnum : s.map.numChunks = s.map.entries.length := ChunkMap.Holds.numChunks hs
    have hsum : chunkCount (s :: sources) = s.map.numChunks + chunkCount sources := by
      simp [chunkCount]
    rw [joinedSlots_cons, hlen, hsum]
    refine ⟨fun slot hm => ?_, ?_, ?_⟩
    · rcases mem_append.mp hm with hm | hm
      · obtain ⟨i, hi, rfl⟩ := mem_map.mp hm
        have := hslots i hi
        omega
      · have := hlt slot hm
        omega
    · rw [length_append, length_map, hcount, ChunkMap.slotList, length_map, length_range]
    · rw [map_append, flatMap_cons, mergedEntries_cons, ← append_assoc, hunits, map_map]
      congr 1
      apply map_congr_left
      intro slot hm
      have hi := hslots slot hm
      have hi' : slot + pre.length < (pre ++ s.shifted ++ mergedEntries sources).length := by
        simp only [length_append, ← hs.numChunks]
        omega
      rw [Function.comp, unitOf_eq hi', unitOf_eq hi]
      have hget : (pre ++ s.shifted ++ mergedEntries sources)[slot + pre.length] =
          s.map.entries[slot].shift s.docOffset := by
        rw [getElem_append_left (by simp only [length_append, ← hs.numChunks]; omega),
          getElem_append_right (by omega)]
        simp [ChunkMapSource.shifted]
      rw [hget, ChunkEntry.unit_shift]

end

/-- The units of each source come before those of the sources after it. -/
def Ascending (sources : List ChunkMapSource) : Prop :=
  sources.Pairwise fun a b => ∀ x ∈ a.shifted, ∀ y ∈ b.shifted, x.unit < y.unit

variable {sources : List ChunkMapSource}

theorem joinedUnits_sorted (hvalid : ∀ s ∈ sources, s.Valid) (hasc : Ascending sources) :
    (sources.flatMap fun s => s.map.slotList.map fun slot =>
      (unitOf s.map.entries slot).shift s.docOffset).Pairwise (· < ·) := by
  rw [pairwise_flatMap]
  refine ⟨fun s hs => ?_, hasc.imp_of_mem fun {a b} ha hb hab x hx y hy => ?_⟩
  · have hsorted := ChunkMap.Holds.slots_sorted (hvalid s hs)
    rw [pairwise_map] at hsorted ⊢
    exact hsorted.imp fun hlt => (LogicalUnit.shift_lt_shift _).mpr hlt
  · obtain ⟨i, hi, rfl⟩ := mem_map.mp hx
    obtain ⟨j, hj, rfl⟩ := mem_map.mp hy
    have hi := ChunkMap.Holds.slots_lt (hvalid a ha) i hi
    have hj := ChunkMap.Holds.slots_lt (hvalid b hb) j hj
    rw [unitOf_eq hi, unitOf_eq hj]
    exact hab _ (mem_map.mpr ⟨_, getElem_mem hi, rfl⟩) _
      (mem_map.mpr ⟨_, getElem_mem hj, rfl⟩)

/-- Sources that are sorted themselves give a sorted map. -/
theorem mergedUnits_sorted (hvalid : ∀ s ∈ sources, s.Valid)
    (hasc : Ascending sources) (hordered : anyUnordered sources = false) :
    ((mergedEntries sources).map ChunkEntry.unit).Pairwise (· < ·) := by
  rw [mergedEntries, map_flatMap, pairwise_flatMap]
  refine ⟨fun s hs => ?_, hasc.imp fun hab x hx y hy => ?_⟩
  · have hs' : s.map.logicallyOrdered = true := by
      have := (any_eq_false.mp hordered) s hs
      simpa using this
    have hsorted := (ChunkMap.Holds.ordered (hvalid s hs)).mp hs'
    rw [pairwise_map] at hsorted ⊢
    rw [ChunkMapSource.shifted, pairwise_map]
    exact hsorted.imp fun hlt => (LogicalUnit.shift_lt_shift _).mpr hlt
  · obtain ⟨e, he, rfl⟩ := mem_map.mp hx
    obtain ⟨f, hf, rfl⟩ := mem_map.mp hy
    exact hab e he f hf

/-! ## The chunks in a given order -/

/-- The two lists of a plan are a permutation of `n` chunks and its inverse. -/
structure ChunkMapOrder.Undoes (plan : ChunkMapOrder) (n : Nat) : Prop where
  order_length : plan.order.length = n
  inverse_length : plan.inverse.length = n
  undo : ∀ new (h : new < plan.order.length), plan.inverse[plan.order[new]]? = some new

theorem checkOrder_eq_ok {plan : ChunkMapOrder} :
    checkOrder sources plan = .ok () ↔ plan.Undoes (chunkCount sources) := by
  have hall : plan.order.zipIdx.all (fun p => decide (plan.inverse[p.1]? = some p.2)) = true ↔
      ∀ new (h : new < plan.order.length), plan.inverse[plan.order[new]]? = some new := by
    rw [all_eq_true]
    constructor
    · intro hp new hnew
      have hmem : (plan.order[new], new) ∈ plan.order.zipIdx :=
        mk_mem_zipIdx_iff_getElem?.mpr (getElem?_eq_getElem hnew)
      exact of_decide_eq_true (hp _ hmem)
    · rintro hp ⟨old, new⟩ hmem
      obtain ⟨hnew, rfl⟩ := List.getElem?_eq_some_iff.mp (mk_mem_zipIdx_iff_getElem?.mp hmem)
      exact decide_eq_true (hp new hnew)
  rw [checkOrder, ite_eq_ok, not_or, not_not, not_not, ← ite_not, ite_eq_ok, not_not, hall]
  exact ⟨fun ⟨⟨ho, hi⟩, hu, _⟩ => ⟨ho.symm, (ho.trans hi).symm, hu⟩,
    fun ⟨ho, hi, hu⟩ => ⟨⟨ho.symm, ho.trans hi.symm⟩, hu, rfl⟩⟩

namespace ChunkMapOrder.Undoes

variable {plan : ChunkMapOrder} {n : Nat} (h : plan.Undoes n)

include h

theorem order_lt {old : Nat} (hold : old ∈ plan.order) : old < n := by
  obtain ⟨new, hnew, rfl⟩ := mem_iff_getElem.mp hold
  have := (List.getElem?_eq_some_iff.mp (h.undo new hnew)).1
  rwa [h.inverse_length] at this

theorem order_nodup : plan.order.Nodup := by
  rw [nodup_iff_injective_get]
  rintro ⟨i, hi⟩ ⟨j, hj⟩ heq
  have hi' := h.undo i hi
  rw [show plan.order[i] = plan.order[j] from heq, h.undo j hj] at hi'
  exact Fin.ext (Option.some.inj hi').symm

theorem perm_order : plan.order.Perm (range n) := by
  refine (subperm_of_subset h.order_nodup fun old hold => ?_).perm_of_length_le ?_
  · exact mem_range.mpr (h.order_lt hold)
  · rw [length_range, h.order_length]

/-- The order brings back what the inverse moved. -/
theorem redo {old : Nat} (hold : old < n) :
    ∃ hnew : plan.inverse.getD old 0 < plan.order.length, plan.order[plan.inverse.getD old 0] = old := by
  obtain ⟨new, hnew, rfl⟩ := mem_iff_getElem.mp (h.perm_order.mem_iff.mpr (mem_range.mpr hold))
  have hinv : plan.inverse.getD plan.order[new] 0 = new := by
    rw [getD_eq_getElem?_getD, h.undo new hnew]
    rfl
  simp only [hinv]
  exact ⟨hnew, trivial⟩

end ChunkMapOrder.Undoes

/-- The slots by unit of the merged map. -/
def arrangedSlots (plan : Option ChunkMapOrder) (sources : List ChunkMapSource) : List Nat :=
  match plan with
  | some plan => (joinedSlots 0 sources).map fun old => plan.inverse.getD old 0
  | none => joinedSlots 0 sources

section

variable {sources : List ChunkMapSource} {plan : Option ChunkMapOrder} (hvalid : ∀ s ∈ sources, s.Valid)
  (hplan : ∀ p, plan = some p → p.Undoes (chunkCount sources))

include hvalid hplan

theorem perm_arranged : (arranged plan sources).Perm (mergedEntries sources) := by
  cases plan with
  | none => exact List.Perm.refl _
  | some p =>
    have hrange : (range (chunkCount sources)).map (fun old => (mergedEntries sources).getD old ⟨0, 0, 0⟩) =
        mergedEntries sources := by
      rw [← length_mergedEntries hvalid]
      exact map_range_eq fun i hi => getD_eq_getElem _ _ hi
    have := (hplan p rfl).perm_order.map fun old => (mergedEntries sources).getD old ⟨0, 0, 0⟩
    rwa [hrange] at this

theorem length_arranged : (arranged plan sources).length = chunkCount sources := by
  rw [(perm_arranged hvalid hplan).length_eq, length_mergedEntries hvalid]

theorem arrangedSlots_spec :
    (∀ slot ∈ arrangedSlots plan sources, slot < chunkCount sources) ∧
      (arrangedSlots plan sources).length = chunkCount sources ∧
      (arrangedSlots plan sources).map (unitOf (arranged plan sources)) =
        sources.flatMap fun s => s.map.slotList.map fun slot =>
          (unitOf s.map.entries slot).shift s.docOffset := by
  obtain ⟨hlt, hlen, hunits⟩ := joinedSlots_spec hvalid []
  simp only [length_nil, Nat.zero_add, nil_append] at hlt hlen hunits
  cases plan with
  | none => exact ⟨hlt, hlen, hunits⟩
  | some p =>
    have hu := hplan p rfl
    refine ⟨fun slot hs => ?_, by rw [arrangedSlots, length_map, hlen], ?_⟩
    · obtain ⟨old, hold, rfl⟩ := mem_map.mp hs
      obtain ⟨hnew, -⟩ := hu.redo (hlt old hold)
      rwa [hu.order_length] at hnew
    · rw [← hunits, arrangedSlots, map_map]
      apply map_congr_left
      intro old hold
      obtain ⟨hnew, hredo⟩ := hu.redo (hlt old hold)
      have hold' : old < (mergedEntries sources).length := by
        rw [length_mergedEntries hvalid]
        exact hlt old hold
      have hnew' : p.inverse.getD old 0 < (arranged (some p) sources).length := by
        rw [arranged, length_map]
        exact hnew
      rw [Function.comp, unitOf_eq hnew', unitOf_eq hold']
      simp only [arranged, getElem_map, hredo, getD_eq_getElem _ _ hold']

end

/-! ## The columns -/

/-- A located chunk as it is written. -/
def chunkOf (c : ChunkMapSource × Nat) : ChunkEntry :=
  ⟨c.1.map.docId c.2 + c.1.docOffset, c.1.map.ordinal c.2, c.1.map.length c.2⟩

theorem ChunkMapSource.shifted_getElem? {source : ChunkMapSource} {slot : Nat}
    (h : slot < source.map.numChunks) : source.shifted[slot]? = some (chunkOf (source, slot)) := by
  simp [shifted, ChunkMap.entries, getElem?_range h, chunkOf, ChunkEntry.shift]

theorem le_chunkBases {base : Nat} {i : Nat}
    (h : i < (chunkBases base sources).length) : base ≤ (chunkBases base sources).getD i 0 := by
  induction sources generalizing base i with
  | nil => cases h
  | cons s sources ih =>
    cases i with
    | zero => exact Nat.le_refl _
    | succ i =>
      rw [chunkBases, getD_cons_succ]
      have := ih (Nat.lt_of_succ_lt_succ h)
      omega

/-- The source that a chunk of the concatenation lies in. -/
theorem exists_source_at (hvalid : ∀ s ∈ sources, s.Valid) {base old : Nat}
    (hlow : base ≤ old) (hhigh : old < base + chunkCount sources) :
    ∃ i s, sources[i]? = some s ∧
      SplitsAt (fun j => decide ((chunkBases base sources).getD j 0 ≤ old)) (chunkBases base sources).length
        (i + 1) ∧ (mergedEntries sources)[old - base]? =
        some (chunkOf (s, old - (chunkBases base sources).getD i 0)) := by
  induction sources generalizing base with
  | nil =>
    simp only [chunkCount, map_nil, sum_nil] at hhigh
    omega
  | cons s sources ih =>
    have hs := hvalid s mem_cons_self
    have hsum : chunkCount (s :: sources) = s.map.numChunks + chunkCount sources := by simp [chunkCount]
    rw [chunkBases]
    by_cases hin : old < base + s.map.numChunks
    · -- the later sources start behind the chunk
      refine ⟨0, s, rfl, ⟨by simp, fun j hj => ?_, fun j hj hb => ?_⟩, ?_⟩
      · obtain rfl : j = 0 := by omega
        exact decide_eq_true hlow
      · obtain ⟨j, rfl⟩ : ∃ k, j = k + 1 := ⟨j - 1, by omega⟩
        rw [getD_cons_succ]
        have := le_chunkBases (Nat.lt_of_succ_lt_succ hb)
        exact decide_eq_false (by omega)
      · have hslot : old - base < s.map.numChunks := by omega
        rw [mergedEntries_cons, getElem?_append_left (by rw [← hs.numChunks]; exact hslot),
          ChunkMapSource.shifted_getElem? hslot]
        rfl
    · obtain ⟨i, t, hi, hsplit, hget⟩ := ih (fun s hs => hvalid s (mem_cons_of_mem _ hs))
        (show base + s.map.numChunks ≤ old by omega) (by omega)
      refine ⟨i + 1, t, hi, ⟨Nat.succ_le_succ hsplit.le, fun j hj => ?_, fun j hj hb => ?_⟩, ?_⟩
      · cases j with
        | zero => exact decide_eq_true hlow
        | succ j =>
          exact hsplit.below j (by omega)
      · obtain ⟨j, rfl⟩ : ∃ k, j = k + 1 := ⟨j - 1, by omega⟩
        exact hsplit.above j (by omega) (Nat.lt_of_succ_lt_succ hb)
      · rw [mergedEntries_cons, getElem?_append_right (by rw [← hs.numChunks]; omega), ← hs.numChunks,
          Nat.sub_sub, hget, getD_cons_succ]

theorem locateChunk_map (hvalid : ∀ s ∈ sources, s.Valid) {old : Nat} (h : old < chunkCount sources) :
    (locateChunk sources old).map chunkOf = some ((mergedEntries sources).getD old ⟨0, 0, 0⟩) := by
  obtain ⟨i, s, hi, hsplit, hget⟩ := exists_source_at hvalid (Nat.zero_le old) (by omega)
  rw [Nat.sub_zero] at hget
  rw [getD_eq_getElem?_getD (l := mergedEntries sources), hget]
  simp only [locateChunk, partitionPoint_spec hsplit, Nat.add_sub_cancel, hi, Option.map_some,
    Option.getD_some]

/-- A number that is written if it fits. -/
theorem fits_eq_ok {n doc : Nat} {text : String} :
    (if u32Max < n then .error text else .ok n : InvalidData Nat) = .ok doc ↔ n ≤ u32Max ∧ doc = n := by
  rw [ite_eq_ok, Except.ok.injEq, not_lt, eq_comm]

/-- The documents of a list of chunks are `u32`. -/
def DocsFit (entries : List ChunkEntry) : Prop := ∀ e ∈ entries, e.docId ≤ u32Max

section

variable {sources : List ChunkMapSource} (hvalid : ∀ s ∈ sources, s.Valid)

include hvalid

theorem orderedMapData_eq_ok {plan : ChunkMapOrder} (hplan : plan.Undoes (chunkCount sources))
    {data : List Byte} :
    orderedMapData plan sources = .ok data ↔ DocsFit (arranged (some plan) sources) ∧
      data = columnBytes (arranged (some plan) sources) ++ encodeColumn 4 (arrangedSlots (some plan) sources) := by
  set chunks := arranged (some plan) sources with hset
  obtain ⟨located, hlocated⟩ : ∃ located, plan.order.filterMap (locateChunk sources) = located := ⟨_, rfl⟩
  have hchunks : located.map chunkOf = chunks := by
    rw [← hlocated, map_filterMap, hset, arranged, ← filterMap_eq_map]
    apply filterMap_congr
    intro old hold
    exact locateChunk_map hvalid (hplan.order_lt hold)
  have hdocs : ∀ docs, (located.mapM (fun c =>
      if u32Max < c.1.map.docId c.2 + c.1.docOffset then .error "reordered document ID overflow"
      else .ok (c.1.map.docId c.2 + c.1.docOffset)) : InvalidData (List Nat)) = .ok docs ↔
      DocsFit chunks ∧ docs = chunks.map (·.docId) := by
    intro docs
    rw [mapM_eq_ok_of_item fun c _ doc => fits_eq_ok, ← hchunks, DocsFit, forall_mem_map,
      map_map]
    rfl
  have hslots : (sources.zip (chunkBases 0 sources)).flatMap (fun s =>
      (range s.1.map.numChunks).map fun logical =>
        plan.inverse.getD (s.1.map.logicalSlot logical + s.2) 0) = arrangedSlots (some plan) sources := by
    simp only [arrangedSlots, joinedSlots, map_flatMap, map_map]
    rfl
  have hcolumns : ∀ docs, docs = chunks.map (·.docId) →
      encodeColumn 4 docs ++
        encodeColumn 2 (located.map fun c => c.1.map.ordinal c.2) ++
        encodeColumn 2 (located.map fun c => c.1.map.length c.2) =
      columnBytes chunks := by
    rintro docs rfl
    rw [columnBytes, ← hchunks, map_map, map_map, map_map]
    rfl
  rw [orderedMapData, hlocated]
  refine (bind_eq_ok_of_iff hdocs).trans (and_congr_right fun _ => ?_)
  rw [hcolumns _ rfl, hslots, Except.ok.injEq, eq_comm]

omit hvalid in
theorem shiftedDocs_eq_ok {source : ChunkMapSource} (h : source.Valid) (bytes : List Byte) :
    shiftedDocs source = .ok bytes ↔
      DocsFit source.shifted ∧ bytes = encodeColumn 4 (source.shifted.map (·.docId)) := by
  have hbytes : source.map.docIds = encodeColumn 4 (source.map.entries.map (·.docId)) := ChunkMap.Holds.docIds h
  have hfits : ∀ e ∈ source.map.entries, e.docId ≤ u32Max := fun e he => (ChunkMap.Holds.fits h e he).docId
  have hdocs : source.shifted.map (·.docId) = (source.map.entries.map (·.docId)).map (· + source.docOffset) := by
    rw [ChunkMapSource.shifted, map_map, map_map]
    rfl
  have hfit : DocsFit source.shifted ↔
      ∀ doc ∈ source.map.entries.map (·.docId), doc + source.docOffset ≤ u32Max := by
    rw [DocsFit, ChunkMapSource.shifted, forall_mem_map, forall_mem_map]
    rfl
  unfold shiftedDocs
  split
  · next h0 =>
    -- nothing moves
    rw [Except.ok.injEq, hfit, hdocs, h0, hbytes, forall_mem_map]
    simp only [Nat.add_zero, map_id_fun', id_eq]
    exact ⟨fun hb => ⟨hfits, hb.symm⟩, fun hb => hb.2.symm⟩
  · have hdecode : decodeColumn 4 source.map.docIds = source.map.entries.map (·.docId) := by
      rw [hbytes]
      refine decodeColumn_encodeColumn (by omega) ?_
      rw [forall_mem_map]
      exact fun e he => lt_pow_of_le_u32Max (hfits e he)
    have hmap : ∀ docs, ((source.map.entries.map (·.docId)).mapM (fun doc =>
        if u32Max < doc + source.docOffset then .error "document id overflow while merging chunk maps"
        else .ok (doc + source.docOffset)) : InvalidData (List Nat)) = .ok docs ↔
        (∀ doc ∈ source.map.entries.map (·.docId), doc + source.docOffset ≤ u32Max) ∧
          docs = (source.map.entries.map (·.docId)).map (· + source.docOffset) :=
      fun docs => mapM_eq_ok_of_item fun doc _ b => fits_eq_ok
    rw [hdecode, hdocs, hfit]
    refine (bind_eq_ok_of_iff hmap).trans (and_congr_right fun _ => ?_)
    rw [Except.ok.injEq, eq_comm]

theorem joinedMapData_eq_ok {data : List Byte} :
    joinedMapData sources = .ok data ↔ DocsFit (arranged none sources) ∧
      data = columnBytes (arranged none sources) ++
        if anyDocuments sources || anyUnordered sources then encodeColumn 4 (arrangedSlots none sources)
        else [] := by
  have hdocs : ∀ docs, sources.mapM shiftedDocs = .ok docs ↔ DocsFit (mergedEntries sources) ∧
      docs = sources.map fun s => encodeColumn 4 (s.shifted.map (·.docId)) := by
    intro docs
    rw [mapM_eq_ok_of_item fun s hs => shiftedDocs_eq_ok (hvalid s hs)]
    simp only [DocsFit, mergedEntries, forall_mem_flatMap]
  have hcolumn : ∀ (w : Nat) (f : ChunkEntry → Nat), (sources.map fun s => encodeColumn w (s.shifted.map f)).flatten =
      encodeColumn w ((mergedEntries sources).map f) := by
    intro w f
    rw [mergedEntries, map_flatMap, flatMap_def, encodeColumn_flatten, map_map]
    rfl
  -- ordinals and lengths are copied
  have hcopied : ∀ {bytes : ChunkMap → List Byte} {f : ChunkEntry → Nat}, (∀ e offset, f (e.shift offset) = f e) →
      (∀ s ∈ sources, bytes s.map = encodeColumn 2 (s.map.entries.map f)) →
      sources.flatMap (fun s => bytes s.map) = encodeColumn 2 ((mergedEntries sources).map f) := by
    intro bytes f hf hbytes
    rw [← hcolumn, flatMap_def]
    congr 1
    apply map_congr_left
    intro s hs
    simp only [hbytes s hs, ChunkMapSource.shifted, map_map, Function.comp_def, hf]
  have hords := hcopied (fun _ _ => rfl) fun s hs => ChunkMap.Holds.ordinals (hvalid s hs)
  have hlens := hcopied (fun _ _ => rfl) fun s hs => ChunkMap.Holds.lengths (hvalid s hs)
  unfold joinedMapData
  refine (bind_eq_ok_of_iff hdocs).trans (and_congr_right fun _ => ?_)
  rw [hcolumn, hords, hlens, Except.ok.injEq, eq_comm]
  rfl

/-- The data of a field: the columns of its chunks and, if they are asked for, their slots by unit. -/
theorem mergedMapData_eq_ok {plan : Option ChunkMapOrder}
    (hplan : ∀ p, plan = some p → p.Undoes (chunkCount sources)) {data : List Byte} :
    mergedMapData plan sources = .ok data ↔ DocsFit (arranged plan sources) ∧
      data = columnBytes (arranged plan sources) ++
        if mergedAddressed plan sources then encodeColumn 4 (arrangedSlots plan sources) else [] := by
  cases plan with
  | none => exact joinedMapData_eq_ok hvalid
  | some p => exact orderedMapData_eq_ok hvalid (hplan p rfl)

end

end Summa
