import Summa.Index.Writer

/-!
# The readers of the committed segments

`PkSegmentData.Reads` is what loading a segment gives: the column, the live ordinals and the row
table agree with the rows of the segment. Under it the lookups of the writer mean what they should:

* `hasLiveKey_iff`: the key has a live row in the loaded visibility;
* `probeTarget_ok`: the content hash of a key is read from a live row with that key.
-/

namespace Summa

open List Fallible PkSegmentData

open FastFieldReader

namespace PkSegmentData

variable {field : Field} {d : PkSegmentData} {key : String}

/-- The column of the primary field over the rows of the segment. -/
def column (field : Field) (d : PkSegmentData) : FastFieldReader := .ofKeys (d.rows.map (·.key field))

/-- The readers agree with the rows of the segment. -/
structure Reads (field : Field) (d : PkSegmentData) : Prop where
  fastField : d.fastField = some (d.column field)
  length : d.rows.length < 2 ^ 32
  mask : d.aliveDocs.isSome = d.deletionMeta.isSome
  ordinals : d.liveKeyOrdinals = d.aliveDocs.map (liveOrdinals · (d.column field))
  lookup : ∀ l, d.contentHash = some l → l.store = d.rows ∧
    ∀ ordinal row, l.row ordinal (d.column field) d = .ok row →
      d.alive row = true ∧ (row, ordinal) ∈ (d.column field).scanSingleValues

/-! ## Live ordinals -/

theorem contains_foldl_setIf {p : Nat × Nat → Bool} {vs : List (Nat × Nat)} {b : DocBitset}
    (hp : ∀ v ∈ vs, p v = true → v.2 / 64 < b.bits.length) (o : Nat) :
    (vs.foldl (fun keys v => if p v then keys.set v.2 else keys) b).contains o = true ↔
      b.contains o = true ∨ ∃ v ∈ vs, p v = true ∧ v.2 = o := by
  induction vs generalizing b with
  | nil => simp
  | cons v vs ih =>
    rw [foldl_cons]
    cases hv : p v with
    | true =>
      rw [if_pos rfl, ih fun u hu hpu => by
        rw [BloomFilter.length_set]; exact hp u (mem_cons_of_mem _ hu) hpu,
        DocBitset.contains_set _ _ _ (hp v mem_cons_self hv)]
      simp only [Bool.or_eq_true, decide_eq_true_eq, mem_cons, exists_eq_or_imp, hv, true_and,
        or_assoc, eq_comm (a := o)]
    | false =>
      rw [if_neg (by simp), ih fun u hu hpu => hp u (mem_cons_of_mem _ hu) hpu]
      simp [hv]

theorem contains_liveOrdinals {alive : DocBitset} {col : FastFieldReader} {o : Nat} :
    (liveOrdinals alive col).contains o = true ↔
      ∃ n, (n, o) ∈ col.scanSingleValues ∧ alive.contains n = true ∧ o < col.dict.length := by
  unfold liveOrdinals
  rw [contains_foldl_setIf]
  · rw [DocBitset.contains_new]
    simp only [Bool.false_eq_true, false_or, Bool.and_eq_true, decide_eq_true_eq]
    constructor
    · rintro ⟨⟨n, o'⟩, hmem, ⟨ha, hlt⟩, rfl⟩
      exact ⟨n, hmem, ha, hlt⟩
    · rintro ⟨n, hmem, ha, hlt⟩
      exact ⟨(n, o), hmem, ⟨ha, hlt⟩, rfl⟩
  · intro v _ hv
    simp only [Bool.and_eq_true, decide_eq_true_eq] at hv
    rw [DocBitset.new, length_replicate]
    exact lt_divCeil64 hv.2

/-! ## Lookups -/

theorem represents_column (field : Field) (d : PkSegmentData) :
    (d.column field).Represents (d.rows.map (·.key field)) := represents_ofKeys _

/-- The rows at an ordinal are the rows with its key. -/
theorem mem_scan_column {n o : Nat} (ho : (d.column field).dict[o]? = some key) :
    (n, o) ∈ (d.column field).scanSingleValues ↔
      ∃ doc, d.rows[n]? = some doc ∧ doc.key field = key := by
  rw [(represents_column field d).mem_scanSingleValues]
  constructor
  · intro hv
    obtain ⟨k, hk, hd⟩ := (represents_column field d).value_eq_some hv
    rw [ho] at hd
    cases hd
    simpa using hk
  · rintro ⟨doc, hdoc, rfl⟩
    obtain ⟨v, hv, hd⟩ := (represents_column field d).value n (doc.key field) (by simp [hdoc])
    rw [hv]
    -- the dictionary has each key once
    obtain ⟨hlt, he⟩ := List.getElem?_eq_some_iff.mp hd
    obtain ⟨hlt', he'⟩ := List.getElem?_eq_some_iff.mp ho
    rw [(List.Nodup.getElem_inj_iff (represents_column field d).nodup).mp (he.trans he'.symm)]

theorem dict_length_le : (d.column field).dict.length ≤ d.rows.length := by
  have := (dedup_sublist (d.rows.map (·.key field))).length_le
  rwa [length_map] at this

/-- The key has a live row in the loaded visibility. -/
theorem Reads.hasLiveKey_iff (h : d.Reads field) : d.hasLiveKey key = true ↔
    ∃ n doc, d.rows[n]? = some doc ∧ doc.key field = key ∧ d.alive n = true := by
  unfold hasLiveKey
  rw [h.fastField, Option.bind_some]
  cases ho : (d.column field).textOrdinal key with
  | none =>
    simp only [Bool.false_eq_true, false_iff, not_exists, not_and]
    intro n doc hdoc hkey
    obtain ⟨v, -, hd⟩ := (represents_column field d).value n key (by simp [hdoc, hkey])
    rw [((represents_column field d).textOrdinal_eq_some).mpr hd] at ho
    cases ho
  | some o =>
    have hdict := (represents_column field d).textOrdinal_eq_some.mp ho
    have hlt := (List.getElem?_eq_some_iff.mp hdict).1
    have hmod : o % 2 ^ 32 = o :=
      Nat.mod_eq_of_lt (lt_of_lt_of_le hlt (dict_length_le.trans h.length.le))
    simp only [hmod, h.ordinals]
    unfold alive
    cases ha : d.aliveDocs with
    | none =>
      simp only [Option.map_none, Option.all_none, and_true, true_iff]
      have hmem : key ∈ d.rows.map (·.key field) :=
        mem_dedup.mp (mem_of_getElem? hdict)
      obtain ⟨doc, hdoc, hkey⟩ := mem_map.mp hmem
      obtain ⟨n, hn⟩ := mem_iff_getElem?.mp hdoc
      exact ⟨n, doc, hn, hkey⟩
    | some bits =>
      simp only [Option.map_some, Option.all_some, contains_liveOrdinals, mem_scan_column hdict]
      constructor
      · rintro ⟨n, ⟨doc, hdoc, hkey⟩, hb, -⟩
        exact ⟨n, doc, hdoc, hkey, hb⟩
      · rintro ⟨n, doc, hdoc, hkey, hb⟩
        exact ⟨n, ⟨doc, hdoc, hkey⟩, hb, hlt⟩

end PkSegmentData

/-! ## The row table -/

namespace ContentHashLookup

variable {d : PkSegmentData} {col : FastFieldReader} {l : ContentHashLookup} {ordinal row : Nat}

/-- The table leads only to live rows with the ordinal. -/
theorem foldlM_fillRow {start rows : List Nat} (hstart : ∀ r ∈ start, r = noRow)
    (h : col.scanSingleValues.foldlM (fillRow d) start = .ok rows) (hr : rows[ordinal]? = some row)
    (hne : row ≠ noRow) : d.alive row = true ∧ (row, ordinal) ∈ col.scanSingleValues := by
  refine foldlM_eq_ok_rec (motive := fun _ rows => ∀ o r, rows[o]? = some r → r ≠ noRow →
    d.alive r = true ∧ (r, o) ∈ col.scanSingleValues) h
    (fun o r hr hne => absurd (hstart r (mem_of_getElem? hr)) hne) ?_ ordinal row hr hne
  intro pre v acc acc' hv hacc hstep o r hr hne
  unfold fillRow at hstep
  split at hstep
  · cases hstep
    exact hacc o r hr hne
  rename_i halive
  split at hstep
  · cases hstep
  split at hstep
  · cases hstep
  cases hstep
  rw [getElem?_set] at hr
  split at hr
  · rename_i heq
    split at hr
    · cases hr
      exact ⟨by simpa using halive, heq ▸ hv⟩
    · cases hr
  · exact hacc o r hr hne

theorem foldlM_scanRow (h : col.scanSingleValues.foldlM (scanRow d ordinal) noRow = .ok row)
    (hne : row ≠ noRow) : d.alive row = true ∧ (row, ordinal) ∈ col.scanSingleValues := by
  refine foldlM_eq_ok_rec (motive := fun _ r => r ≠ noRow →
    d.alive r = true ∧ (r, ordinal) ∈ col.scanSingleValues) h (fun hne => absurd rfl hne) ?_ hne
  intro pre v acc acc' hv hacc hstep hne
  unfold scanRow at hstep
  split at hstep
  · rename_i hmatch
    split at hstep
    · cases hstep
    · cases hstep
      exact ⟨hmatch.2, hmatch.1 ▸ hv⟩
  · cases hstep
    exact hacc hne

/-- The row that the lookup of a segment finds is live and has the ordinal. -/
theorem row_of_new {store : List Document} (hnew : new store col d = .ok l)
    (h : l.row ordinal col d = .ok row) : d.alive row = true ∧ (row, ordinal) ∈ col.scanSingleValues := by
  unfold ContentHashLookup.row at h
  obtain ⟨r, hr, h⟩ := bind_eq_ok h
  split at h
  · cases h
  rename_i hne
  cases h
  unfold findRow at hr
  unfold new at hnew
  split at hnew
  · cases hnew
  split at hnew
  · cases hnew
  split at hnew
  · cases hnew
    exact foldlM_scanRow hr hne
  · obtain ⟨rows, hrows, hnew⟩ := bind_eq_ok hnew
    cases hnew
    cases hr
    cases hg : rows[ordinal]? with
    | none => rw [hg] at hne; exact absurd rfl hne
    | some r =>
      rw [hg] at hne
      exact foldlM_fillRow (fun r hr => eq_of_mem_replicate hr) hrows hg hne

theorem store_of_new {store : List Document} (hnew : new store col d = .ok l) : l.store = store := by
  unfold new at hnew
  split at hnew
  · cases hnew
  split at hnew
  · cases hnew
  split at hnew
  · cases hnew
    rfl
  · obtain ⟨rows, -, hnew⟩ := bind_eq_ok hnew
    cases hnew
    rfl

/-- Lookups read only the visibility of the segment. -/
theorem row_congr {d' : PkSegmentData} (h : d'.aliveDocs = d.aliveDocs) :
    l.row ordinal col d' = l.row ordinal col d := by
  have hscan : scanRow d' ordinal = scanRow d ordinal := by
    funext r v
    simp [scanRow, alive, h]
  unfold ContentHashLookup.row findRow
  rw [hscan]

end ContentHashLookup

/-- One segment in the search for the committed row of a key. -/
theorem PrimaryKeyIndex.probeTarget_ok {field : Field} {d : PkSegmentData} {key : String}
    {target target' : Option ContentHashTarget} (hd : d.Reads field)
    (h : probeTarget key target d = .ok target') :
    (target' = target ∧ d.hasLiveKey key = false) ∨
      target = none ∧ ∃ row doc, target' = some ⟨d.rows, row⟩ ∧ d.rows[row]? = some doc ∧
        doc.key field = key ∧ d.alive row = true := by
  unfold probeTarget at h
  unfold hasLiveKey
  rw [hd.fastField] at h ⊢
  rw [Option.bind_some]
  simp only at h
  cases ho : (d.column field).textOrdinal key with
  | none =>
    rw [ho] at h
    cases h
    exact .inl ⟨rfl, rfl⟩
  | some ordinal =>
    rw [ho] at h
    simp only at h ⊢
    split at h
    · rename_i hlive
      cases h
      exact .inl ⟨rfl, by simpa using hlive⟩
    split at h
    · cases h
    rename_i htarget
    split at h
    · cases h
    rename_i lookup hlookup
    obtain ⟨row, hrow, h⟩ := bind_eq_ok h
    cases h
    obtain ⟨hstore, hrows⟩ := hd.lookup lookup hlookup
    obtain ⟨halive, hscan⟩ := hrows ordinal row hrow
    have hdict := (represents_column field d).textOrdinal_eq_some.mp ho
    obtain ⟨doc, hdoc, hkey⟩ := (mem_scan_column hdict).mp hscan
    exact .inr ⟨by simpa using htarget, row, doc, by rw [hstore], hdoc, hkey, halive⟩

/-! ## Loading -/

variable {dir : Directory Document} {cfg : WriterConfig} {field : Field} {id : SegmentId}
  {deletion : Option (Nat × DeletionMeta)} {d : PkSegmentData}

/-- What loading a segment and preparing its live keys gives. -/
structure LoadSpec (dir : Directory Document) (field : Field) (id : SegmentId)
    (deletion : Option (Nat × DeletionMeta)) (d : PkSegmentData) : Prop where
  reads : d.rows.length < 2 ^ 32 → d.Reads field
  segmentId : d.segmentId = id
  rows : dir.rows id = some d.rows
  deletionMeta : d.deletionMeta = deletion.map Prod.snd
  alive : ∀ numDocs mask, deletion = some (numDocs, mask) →
    ∃ bits, mask.load (dir.deletionFile mask.id) numDocs = .ok bits ∧ d.aliveDocs = some bits

theorem prepareLiveKeys_eq {alive : Option DocBitset} (hord : d.liveKeyOrdinals = none)
    (halive : d.aliveDocs = alive) (hcol : d.fastField = some (d.column field)) :
    d.prepareLiveKeys = { d with
      liveKeyOrdinals := alive.map (liveOrdinals · (d.column field)) } := by
  unfold prepareLiveKeys
  obtain ⟨segmentId, rows, contentHash, deletionMeta, aliveDocs, liveKeyOrdinals, fastField⟩ := d
  replace hcol : fastField = some (.ofKeys (rows.map (·.key field))) := hcol
  cases hord
  cases halive
  cases hcol
  cases aliveDocs <;> rfl

theorem loadSpec (h : prepareLiveKeys <$>
    loadPkSegmentData dir cfg.schema field id deletion = .ok d) : LoadSpec dir field id deletion d := by
  cases hload : loadPkSegmentData dir cfg.schema field id deletion with
  | error e => rw [hload] at h; cases h
  | ok data =>
    rw [hload] at h
    cases h
    unfold loadPkSegmentData at hload
    split at hload
    · cases hload
    rename_i rows hrows
    obtain ⟨alive, halive, hload⟩ := bind_eq_ok hload
    have hbits : ∀ numDocs mask, deletion = some (numDocs, mask) →
        ∃ bits, mask.load (dir.deletionFile mask.id) numDocs = .ok bits ∧ alive = some bits := by
      rintro numDocs mask rfl
      obtain ⟨bits, hbits, heq⟩ := bind_eq_ok halive
      cases heq
      exact ⟨bits, hbits, rfl⟩
    have hmask : alive.isSome = (deletion.map Prod.snd).isSome := by
      cases deletion with
      | none => cases halive; rfl
      | some del =>
        obtain ⟨bits, -, rfl⟩ := hbits del.1 del.2 rfl
        rfl
    split at hload
    · cases hload
      rw [prepareLiveKeys_eq rfl rfl rfl]
      exact ⟨fun hlen => ⟨rfl, hlen, hmask, rfl, nofun⟩, rfl, hrows, rfl, hbits⟩
    · obtain ⟨lookup, hnew, hload⟩ := bind_eq_ok hload
      cases hload
      rw [prepareLiveKeys_eq rfl rfl rfl]
      refine ⟨fun hlen => ⟨rfl, hlen, hmask, rfl, fun l hl => ?_⟩, rfl, hrows, rfl, hbits⟩
      cases hl
      refine ⟨ContentHashLookup.store_of_new hnew, fun ordinal row hrow => ?_⟩
      exact ContentHashLookup.row_of_new hnew ((ContentHashLookup.row_congr rfl).trans hrow)

end Summa
