import Summa.Lib.Fallible
import Summa.Segment.ChunkMap

/-!
# The layout of `.chunks` files

Both writers produce a file of this shape: header, table of contents, and the data of the sections in the
order of the table (`chunkFile`). `readChunkMaps_chunkFile`: a file whose sections pass the checks of the
reader is read back, and each section gives the map or the lengths that stand in its data.
-/

namespace Summa

open List Fallible

/-- A section: its row in the table of contents and its data. -/
structure ChunkSection where
  row : TocRow
  data : List Byte

def chunkFile (version : Nat) (sections : List ChunkSection) : List Byte :=
  headBytes version (sections.map (·.row)) ++ (sections.map (·.data)).flatten

/-- The table of contents as it is read. -/
def tocEntries : Nat → List TocRow → List TocEntry
  | _, [] => []
  | offset, row :: rows =>
    ⟨row.fieldId, row.kind, row.count, row.totalTokens, offset⟩ :: tocEntries (offset + row.size) rows

namespace ChunkSection

variable (sec : ChunkSection)

/-- The section on its own, at the start of its data. -/
def entry : TocEntry := ⟨sec.row.fieldId, sec.row.kind, sec.row.count, sec.row.totalTokens, 0⟩

/-- The map in the data of a section. -/
def map : ChunkMap := sectionMap sec.data sec.entry

/-- The lengths in the data of a section. -/
def docLengths : DocLengths :=
  ⟨sec.row.kind == kindByteNorms, sec.data, sec.row.count, sec.row.totalTokens⟩

def isMap : Bool :=
  sec.row.kind == kindChunkMap || sec.row.kind == kindAddressedChunkMap || sec.row.kind == kindDocumentMap

/-- The numbers of the row fit, the data has the size the table says, and the reader accepts it. -/
structure Ok (sec : ChunkSection) (version : Nat) : Prop where
  fieldId : sec.row.fieldId ≤ u32Max
  count : sec.row.count ≤ u32Max
  totalTokens : sec.row.totalTokens ≤ u64Max
  size : sec.row.size = sec.data.length
  width : ∃ width, bytesPerEntry version sec.row.kind = some width ∧ sec.data.length = sec.row.count * width
  map : sec.isMap = true → checkMap sec.row.kind sec.map = .ok ()
  norms : sec.row.kind = kindByteNorms → ∀ code ∈ sec.data, normDecode code.toNat ≤ maxChunkLength

/-- What the section adds to a file. -/
def insertInto (file : ChunkMapFile) : ChunkMapFile :=
  if sec.isMap then { file with chunkMaps := file.chunkMaps.insert sec.row.fieldId sec.map }
  else { file with docLengths := file.docLengths.insert sec.row.fieldId sec.docLengths }

end ChunkSection

/-! ## The table of contents -/

variable {start n version : Nat} {bytes post : List Byte} {sections : List ChunkSection}

theorem readLe_of_drop {w : Nat} (h : bytes.drop start = leBytes w n ++ post)
    (hn : n < 256 ^ w) : readLe w bytes start = n := by
  have hlen := length_leBytes w n
  rw [readLe, sliceBytes, h, take_left' hlen, leNat_leBytes_of_lt hn]

theorem drop_of_drop {w : Nat} (h : bytes.drop start = leBytes w n ++ post) :
    bytes.drop (start + w) = post := by
  rw [← drop_drop, h, drop_left' (length_leBytes w n)]

/-- The numbers of a row fit their fields. -/
structure TocRow.Fits (row : TocRow) (offset : Nat) : Prop where
  fieldId : row.fieldId ≤ u32Max
  kind : row.kind ≤ u32Max
  count : row.count ≤ u32Max
  totalTokens : row.totalTokens ≤ u64Max
  offset : offset ≤ u64Max

theorem lt_pow_of_le_u32Max (h : n ≤ u32Max) : n < 256 ^ 4 := by
  simp only [u32Max] at h
  omega

theorem lt_pow_of_le_u64Max (h : n ≤ u64Max) : n < 256 ^ 8 := by
  simp only [u64Max] at h
  omega

/-- The entries read at the place of the table are those of its rows. -/
theorem readTocEntry_eq {rows : List TocRow} (first : Nat) {offset : Nat}
    (h : bytes.drop (chunkHeaderSize + tocEntrySize * first) = tocBytes offset rows ++ post)
    (hfit : ∀ pre row rest, rows = pre ++ row :: rest → row.Fits (offset + (pre.map (·.size)).sum)) :
    (range' first rows.length).map (readTocEntry bytes) = tocEntries offset rows := by
  induction rows generalizing first offset with
  | nil => rfl
  | cons row rows ih =>
    have hrow : row.Fits offset := by simpa using hfit [] row rows rfl
    simp only [tocBytes, append_assoc] at h
    have h₁ := drop_of_drop h
    have h₂ := drop_of_drop h₁
    have h₃ := drop_of_drop h₂
    have h₄ := drop_of_drop h₃
    have h₅ := drop_of_drop h₄
    have hentry : readTocEntry bytes first =
        ⟨row.fieldId, row.kind, row.count, row.totalTokens, offset⟩ := by
      simp only [readTocEntry, TocEntry.mk.injEq]
      exact ⟨readLe_of_drop h (lt_pow_of_le_u32Max hrow.fieldId),
        readLe_of_drop h₁ (lt_pow_of_le_u32Max hrow.kind),
        readLe_of_drop h₂ (lt_pow_of_le_u32Max hrow.count),
        readLe_of_drop h₃ (lt_pow_of_le_u64Max hrow.totalTokens),
        readLe_of_drop h₄ (lt_pow_of_le_u64Max hrow.offset)⟩
    have hnext : bytes.drop (chunkHeaderSize + tocEntrySize * (first + 1)) =
        tocBytes (offset + row.size) rows ++ post := by
      congr 1
    rw [length_cons, range'_succ, map_cons, hentry, tocEntries]
    congr 1
    refine ih (first + 1) hnext fun pre r rest hsplit => ?_
    have := hfit (row :: pre) r rest (by rw [hsplit]; rfl)
    rwa [map_cons, sum_cons, ← Nat.add_assoc] at this

/-! ## The sections -/

theorem sliceBytes_inside (pre data post : List Byte) {len : Nat} (h : start + len ≤ data.length) :
    sliceBytes (pre ++ (data ++ post)) (pre.length + start) len = sliceBytes data start len := by
  rw [sliceBytes, sliceBytes, ← drop_drop, drop_left, drop_append_of_le_length (by omega),
    take_append_of_le_length (by rw [length_drop]; omega)]

theorem kind_le_u32Max {kind width : Nat} (h : bytesPerEntry version kind = some width) : kind ≤ u32Max := by
  by_contra hgt
  have hne : ∀ k ≤ 4, kind ≠ k := by
    intro k hk
    simp only [u32Max] at hgt
    omega
  simp [bytesPerEntry, hne kindChunkMap (by decide), hne kindAddressedChunkMap (by decide),
    hne kindDocumentMap (by decide), hne kindDocLengths (by decide), hne kindByteNorms (by decide)] at h

/-- A map section has eight bytes for each entry, twelve with slots. -/
theorem bytesPerEntry_map {kind width : Nat} (h : bytesPerEntry version kind = some width)
    (hm : kind = kindChunkMap ∨ kind = kindAddressedChunkMap ∨ kind = kindDocumentMap) :
    width = if kind = kindChunkMap then 8 else 12 := by
  rcases hm with rfl | rfl | rfl
  · simp only [bytesPerEntry, ↓reduceIte, Option.some.injEq] at h
    simp [← h]
  · simp [bytesPerEntry, kindChunkMap, kindAddressedChunkMap] at h
    simp [← h, kindChunkMap, kindAddressedChunkMap]
  · simp [bytesPerEntry, kindChunkMap, kindAddressedChunkMap, kindDocumentMap, kindDocLengths,
      kindByteNorms] at h
    simp [← h.2, kindChunkMap, kindDocumentMap]

namespace ChunkSection

variable {sec : ChunkSection} {version : Nat}

theorem isMap_iff : sec.isMap = true ↔
    sec.row.kind = kindChunkMap ∨ sec.row.kind = kindAddressedChunkMap ∨ sec.row.kind = kindDocumentMap := by
  simp [isMap, or_assoc]

/-- The map read inside a file is the one of the section on its own. -/
theorem sectionMap_inside (pre post : List Byte) {width : Nat}
    (hlen : sec.data.length = sec.row.count * width)
    (hwidth : width = if sec.row.kind = kindChunkMap then 8 else 12) :
    sectionMap (pre ++ (sec.data ++ post)) { sec.entry with offset := pre.length } = sec.map := by
  have h8 : sec.row.count * 8 ≤ sec.data.length := by
    rw [hlen, hwidth]
    split <;> omega
  have hdocs := sliceBytes_inside pre sec.data post (show 0 + sec.row.count * 4 ≤ _ by omega)
  have hords := sliceBytes_inside pre sec.data post
    (show sec.row.count * 4 + sec.row.count * 2 ≤ _ by omega)
  have hlens := sliceBytes_inside pre sec.data post
    (show sec.row.count * 6 + sec.row.count * 2 ≤ _ by omega)
  rw [Nat.add_zero] at hdocs
  simp only [ChunkSection.map, sectionMap, entry, hdocs, hords, hlens, Nat.zero_add]
  by_cases hk : sec.row.kind = kindChunkMap
  · simp [hk]
  · have hslots := sliceBytes_inside pre sec.data post
      (show sec.row.count * 8 + sec.row.count * 4 ≤ _ by rw [hlen, hwidth, if_neg hk]; omega)
    simp only [hk, ne_eq, not_false_eq_true, ↓reduceIte, hslots]

/-- One section of a file is read. -/
theorem Ok.readSection (h : sec.Ok version) (pre post : List Byte) {file : ChunkMapFile}
    (hfresh : sec.row.fieldId ∉ file.chunkMaps ∧ sec.row.fieldId ∉ file.docLengths)
    (hsize : pre.length + sec.data.length ≤ u64Max) :
    readSection (pre ++ (sec.data ++ post)) version (pre.length, file)
      { sec.entry with offset := pre.length } =
    .ok (pre.length + sec.row.size, sec.insertInto file) := by
  obtain ⟨width, hwidth, hlen⟩ := h.width
  have hstop : ¬ (pre ++ (sec.data ++ post)).length < pre.length + sec.row.count * width := by
    simp only [length_append]
    omega
  have hover : ¬ u64Max < pre.length + sec.row.count * width := by omega
  unfold Summa.readSection
  simp only [entry, ne_eq, not_true_eq_false, hfresh.1, hfresh.2, or_self, ↓reduceIte, hwidth, hover, hstop]
  by_cases hm : sec.isMap = true
  · have hkind := isMap_iff.mp hm
    have hmap := sectionMap_inside pre post hlen (bytesPerEntry_map hwidth hkind)
    rw [entry] at hmap
    simp only [if_pos hkind, hmap, h.map hm, ok_bind]
    rw [insertInto, if_pos hm, h.size, hlen]
  · have hkind := mt isMap_iff.mpr hm
    have hlens := sliceBytes_inside pre sec.data post (show 0 + sec.row.count * width ≤ _ by omega)
    rw [Nat.add_zero] at hlens
    have hall : sliceBytes sec.data 0 (sec.row.count * width) = sec.data := by
      rw [sliceBytes, drop_zero, ← hlen, take_length]
    have hnorm : ¬ (sec.row.kind = kindByteNorms ∧
        (sec.data.any fun code => maxChunkLength < normDecode code.toNat) = true) := by
      rintro ⟨hk, hany⟩
      obtain ⟨code, hc, hlt⟩ := any_eq_true.mp hany
      exact absurd (h.norms hk code hc) (not_le.mpr (of_decide_eq_true hlt))
    simp only [if_neg hkind, hlens, hall, if_neg hnorm]
    rw [insertInto, if_neg hm, h.size, hlen]
    rfl

end ChunkSection

/-- The fields of the sections so far are those of the file. -/
theorem mem_insertInto (sec : ChunkSection) (file : ChunkMapFile) (id : Nat) :
    (id ∈ (sec.insertInto file).chunkMaps ∨ id ∈ (sec.insertInto file).docLengths) ↔
      id = sec.row.fieldId ∨ id ∈ file.chunkMaps ∨ id ∈ file.docLengths := by
  unfold ChunkSection.insertInto
  split
  · simp only [AList.mem_insert, or_assoc]
  · simp only [AList.mem_insert]
    exact or_left_comm

variable (hok : ∀ sec ∈ sections, sec.Ok version) (hnodup : (sections.map (·.row.fieldId)).Nodup)

include hok hnodup in
/-- The sections from some place of a file on are read in turn. -/
theorem foldlM_readSection (pre : List Byte) (file : ChunkMapFile)
    (hfresh : ∀ sec ∈ sections, sec.row.fieldId ∉ file.chunkMaps ∧ sec.row.fieldId ∉ file.docLengths)
    (hsize : pre.length + (sections.map (·.data)).flatten.length ≤ u64Max) :
    (tocEntries pre.length (sections.map (·.row))).foldlM
      (readSection (pre ++ (sections.map (·.data)).flatten) version) (pre.length, file) =
    .ok (pre.length + (sections.map (·.data)).flatten.length,
      sections.foldl (fun file sec => sec.insertInto file) file) := by
  induction sections generalizing pre file with
  | nil => rfl
  | cons sec sections ih =>
    rw [map_cons, flatten_cons, length_append] at hsize
    rw [map_cons, nodup_cons] at hnodup
    have hsec := hok sec mem_cons_self
    have hread := hsec.readSection pre (sections.map (·.data)).flatten (hfresh sec mem_cons_self)
      (by omega)
    have hpre : pre.length + sec.row.size = (pre ++ sec.data).length := by
      rw [length_append, hsec.size]
    have hlater : ∀ s ∈ sections, s.row.fieldId ∉ (sec.insertInto file).chunkMaps ∧
        s.row.fieldId ∉ (sec.insertInto file).docLengths := by
      intro s hs
      have hold := hfresh s (mem_cons_of_mem _ hs)
      have hne : s.row.fieldId ≠ sec.row.fieldId := fun he =>
        hnodup.1 (mem_map.mpr ⟨s, hs, he⟩)
      have hnot := mt (mem_insertInto sec file s.row.fieldId).mp
        (not_or.mpr ⟨hne, not_or.mpr hold⟩)
      exact not_or.mp hnot
    have hrest := ih (fun s hs => hok s (mem_cons_of_mem _ hs)) hnodup.2 (pre ++ sec.data) (sec.insertInto file)
      hlater (by rw [length_append]; omega)
    simp only [map_cons, flatten_cons, tocEntries, foldlM_cons, foldl_cons,
      length_append]
    rw [ChunkSection.entry] at hread
    rw [hread, ok_bind, hpre]
    rw [append_assoc] at hrest
    rw [hrest, length_append, Nat.add_assoc]

/-! ## The file -/

theorem length_tocBytes (offset : Nat) (rows : List TocRow) :
    (tocBytes offset rows).length = tocEntrySize * rows.length := by
  induction rows generalizing offset with
  | nil => rfl
  | cons row rows ih =>
    simp only [tocBytes, length_append, length_leBytes, ih, length_cons, tocEntrySize]
    omega

theorem length_headBytes (version : Nat) (rows : List TocRow) :
    (headBytes version rows).length = chunkHeaderSize + tocEntrySize * rows.length := by
  simp only [headBytes, length_append, length_leBytes, length_tocBytes, chunkHeaderSize]

include hok in
theorem sum_size_eq :
    ((sections.map (·.row)).map (·.size)).sum = (sections.map (·.data)).flatten.length := by
  rw [length_flatten, map_map, map_map]
  congr 1
  apply map_congr_left
  intro sec hs
  exact (hok sec hs).size

include hok hnodup in
/-- A file whose sections are accepted is read section by section. -/
theorem readChunkMaps_chunkFile
    (hversion : version = addressedVersion ∨ version = documentVersion ∨ version = chunkVersion)
    (hcount : sections.length ≤ u32Max) (hsize : (chunkFile version sections).length ≤ u64Max) :
    readChunkMaps (chunkFile version sections) =
      .ok (sections.foldl (fun file sec => sec.insertInto file) ⟨∅, ∅⟩) := by
  have hhead := length_headBytes version (sections.map (·.row))
  rw [length_map] at hhead
  have hlen : (chunkFile version sections).length =
      chunkHeaderSize + tocEntrySize * sections.length + (sections.map (·.data)).flatten.length := by
    rw [chunkFile, length_append, hhead]
  -- the three numbers of the header
  have h₀ : (chunkFile version sections).drop 0 = leBytes 4 chunkMagic ++ (leBytes 4 version ++
      (leBytes 4 sections.length ++ (tocBytes (chunkHeaderSize + tocEntrySize * sections.length)
        (sections.map (·.row)) ++ (sections.map (·.data)).flatten))) := by
    simp only [chunkFile, headBytes, drop_zero, append_assoc, length_map]
  have h₁ := drop_of_drop h₀
  have h₂ := drop_of_drop h₁
  have h₃ := drop_of_drop h₂
  have hmagic := readLe_of_drop h₀ (by decide)
  have hver : readLe 4 (chunkFile version sections) 4 = version := readLe_of_drop h₁ (by
    rcases hversion with rfl | rfl | rfl <;> decide)
  have hnum : readLe 4 (chunkFile version sections) 8 = sections.length :=
    readLe_of_drop h₂ (lt_pow_of_le_u32Max hcount)
  have htoc : (range sections.length).map (readTocEntry (chunkFile version sections)) =
      tocEntries (chunkHeaderSize + tocEntrySize * sections.length) (sections.map (·.row)) := by
    have hread := readTocEntry_eq 0 h₃ fun pre row rest hsplit => by
      have hmem : row ∈ sections.map (·.row) := by rw [hsplit]; simp
      obtain ⟨sec, hs, rfl⟩ := mem_map.mp hmem
      have hs := hok sec hs
      obtain ⟨width, hwidth, -⟩ := hs.width
      have hsum := sum_size_eq hok
      rw [hsplit, map_append, sum_append] at hsum
      exact ⟨hs.fieldId, kind_le_u32Max hwidth, hs.count, hs.totalTokens, by omega⟩
    rwa [length_map, ← range_eq_range'] at hread
  have hfold := foldlM_readSection hok hnodup (headBytes version (sections.map (·.row))) ⟨∅, ∅⟩
    (fun sec _ => ⟨AList.notMem_empty _, AList.notMem_empty _⟩) (by
      rw [hhead, ← hlen]
      exact hsize)
  rw [hhead] at hfold
  unfold readChunkMaps
  rw [if_neg (by rw [hlen]; omega)]
  simp only [hmagic, hver, hnum, ne_eq, not_true_eq_false, ↓reduceIte]
  rw [if_neg (by rcases hversion with h | h | h <;> simp [h]), if_neg (by rw [hlen]; omega),
    ← foldlM_map, htoc]
  rw [← chunkFile] at hfold
  rw [hfold, ok_bind, if_neg (by rw [hlen]; simp)]

theorem lookup_insertInto_of_ne {sec : ChunkSection} {id : Nat} (h : id ≠ sec.row.fieldId)
    (file : ChunkMapFile) :
    (sec.insertInto file).chunkMaps.lookup id = file.chunkMaps.lookup id ∧
      (sec.insertInto file).docLengths.lookup id = file.docLengths.lookup id := by
  unfold ChunkSection.insertInto
  split
  · exact ⟨AList.lookup_insert_ne h, rfl⟩
  · exact ⟨rfl, AList.lookup_insert_ne h⟩

theorem lookup_foldl_of_not_mem {id : Nat} (h : id ∉ sections.map (·.row.fieldId)) (file : ChunkMapFile) :
    (sections.foldl (fun file sec => sec.insertInto file) file).chunkMaps.lookup id =
        file.chunkMaps.lookup id ∧
      (sections.foldl (fun file sec => sec.insertInto file) file).docLengths.lookup id =
        file.docLengths.lookup id := by
  induction sections generalizing file with
  | nil => exact ⟨rfl, rfl⟩
  | cons sec sections ih =>
    rw [map_cons, mem_cons, not_or] at h
    obtain ⟨hmaps, hlens⟩ := ih h.2 (sec.insertInto file)
    obtain ⟨hm, hl⟩ := lookup_insertInto_of_ne h.1 file
    exact ⟨hmaps.trans hm, hlens.trans hl⟩

include hnodup in
/-- Each section of a file is found under its field. -/
theorem lookup_sections {sec : ChunkSection} (hs : sec ∈ sections) (file : ChunkMapFile) :
    (sec.isMap = true → (sections.foldl (fun file sec => sec.insertInto file) file).chunkMaps.lookup
        sec.row.fieldId = some sec.map) ∧
      (sec.isMap = false → (sections.foldl (fun file sec => sec.insertInto file) file).docLengths.lookup
        sec.row.fieldId = some sec.docLengths) := by
  induction sections generalizing file with
  | nil => cases hs
  | cons first sections ih =>
    rw [map_cons, nodup_cons] at hnodup
    rcases mem_cons.mp hs with rfl | hs
    · obtain ⟨hmaps, hlens⟩ := lookup_foldl_of_not_mem hnodup.1 (sec.insertInto file)
      constructor
      · intro hm
        rw [foldl_cons, hmaps, ChunkSection.insertInto, if_pos hm]
        exact AList.lookup_insert _
      · intro hm
        rw [foldl_cons, hlens, ChunkSection.insertInto, if_neg (by simp [hm])]
        exact AList.lookup_insert _
    · exact ih hnodup.2 hs (first.insertInto file)

end Summa
