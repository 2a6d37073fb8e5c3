import Summa.Merge.Immutable
import Summa.Index.CommittedData
import Summa.Merge.LiveBag

/-!
# The committed snapshot of a writer

`snapshotRows data f` are the live rows that the committed readers show. `Held` is what every reader
keeps while the index changes under it; a refresh that loads only the segments it does not hold then
shows exactly the published rows (`snapshotRows_refreshed`).
-/

namespace Summa

open List Fallible

/-- The live rows with `f` that these readers show. -/
def snapshotRows (data : List PkSegmentData) (f : Document → Bool) : List Document :=
  data.flatMap fun d => (select d.alive d.rows).filter f

/-- The key has a live row in the segments of these readers. -/
def SnapshotLive (field : Field) (data : List PkSegmentData) (key : String) : Prop :=
  ∃ d ∈ data, ∃ n doc, d.rows[n]? = some doc ∧ doc.key field = key ∧ d.alive n = true

variable {field : Field} {data : List PkSegmentData} {d : PkSegmentData} {key : String}
  {m m' : Manager Document}

theorem snapshotLive_iff : SnapshotLive field data key ↔
    ∃ doc, doc ∈ snapshotRows data fun doc => doc.key field = key := by
  simp only [SnapshotLive, snapshotRows, mem_flatMap, mem_filter, mem_select,
    decide_eq_true_eq]
  constructor
  · rintro ⟨d, hd, n, doc, hdoc, hkey, halive⟩
    exact ⟨doc, d, hd, ⟨n, hdoc, halive⟩, hkey⟩
  · rintro ⟨doc, d, hd, ⟨n, hdoc, halive⟩, hkey⟩
    exact ⟨d, hd, n, doc, hdoc, hkey, halive⟩

theorem any_hasLiveKey_iff (h : ∀ d ∈ data, d.Reads field) :
    data.any (·.hasLiveKey key) = true ↔ SnapshotLive field data key := by
  rw [any_eq_true]
  exact exists_congr fun d => and_congr_right fun hd => (h d hd).hasLiveKey_iff

/-- The search for the committed row of a key finds a live row of the key, if there is one. -/
theorem PrimaryKeyIndex.foldlM_probeTarget {target target' : Option ContentHashTarget}
    (hdata : ∀ d ∈ data, d.Reads field) (h : data.foldlM (probeTarget key) target = .ok target') :
    (target' = target ∧ ¬ SnapshotLive field data key) ∨
      ∃ t doc, target' = some t ∧ t.store[t.row]? = some doc ∧
        doc ∈ snapshotRows data fun doc => doc.key field = key := by
  induction data generalizing target with
  | nil =>
    cases h
    exact .inl ⟨rfl, fun ⟨_, hd, _⟩ => (nomatch hd)⟩
  | cons d data ih =>
    obtain ⟨t₁, hprobe, h⟩ := bind_eq_ok h
    have hreads := hdata d mem_cons_self
    have htail := ih (fun d hd => hdata d (mem_cons_of_mem _ hd)) h
    simp only [snapshotRows, flatMap_cons, mem_append]
    rcases htail with ⟨rfl, hno⟩ | ⟨t, doc, rfl, hdoc, hmem⟩
    · rcases probeTarget_ok hreads hprobe with ⟨rfl, hlive⟩ | ⟨-, row, doc, rfl, hdoc, hkey, halive⟩
      · refine .inl ⟨rfl, fun ⟨d', hd', hex⟩ => ?_⟩
        rcases mem_cons.mp hd' with rfl | hd'
        · rw [hreads.hasLiveKey_iff.mpr hex] at hlive
          cases hlive
        · exact hno ⟨d', hd', hex⟩
      · exact .inr ⟨_, doc, rfl, hdoc, .inl (mem_filter.mpr
          ⟨mem_select.mpr ⟨row, hdoc, halive⟩, decide_eq_true hkey⟩)⟩
    · exact .inr ⟨t, doc, rfl, hdoc, .inr hmem⟩

/-! ## Readers of published segments -/

/-- The mask that the reader loaded, with its bits. -/
def PkSegmentData.mask (d : PkSegmentData) : Option (DeletionMeta × DocBitset) :=
  d.deletionMeta.bind fun deletion => d.aliveDocs.map fun bits => (deletion, bits)

/-- A reader that was loaded from the index and remembers what it loaded. -/
structure PkSegmentData.Held (field : Field) (m : Manager Document) (d : PkSegmentData) : Prop where
  reads : d.Reads field
  remembers : m.Remembers d.segmentId d.rows d.mask

theorem PkSegmentData.Held.step (h : d.Held field m) (hinv : m.Inv) {e : Event Document}
    (hstep : Manager.Step m e m') : d.Held field m' :=
  ⟨h.reads, h.remembers.step hinv hstep⟩

/-- While the segment has the mask that was loaded, the reader shows its live rows. -/
theorem PkSegmentData.Held.live_eq (h : d.Held field m) (hinv : m.Inv) {info : SegmentMetaInfo}
    (hg : m.metadata.get d.segmentId = some info) (hdel : info.deletions = d.deletionMeta) :
    m.live d.segmentId = select d.alive d.rows := by
  have hrows := h.remembers.rows (by rw [hg]; simp)
  obtain ⟨rows, hfile, hlen⟩ := (hinv.wellFormed d.segmentId info hg).files
  rw [hrows] at hfile
  cases hfile
  unfold Manager.live liveRows
  rw [hrows, Option.getD_some, visible_of_get hg]
  refine select_congr fun n hn => ?_
  have hmask := h.reads.mask
  unfold PkSegmentData.alive
  cases hd : d.deletionMeta with
  | none =>
    rw [hd] at hmask hdel
    rw [shows_of_deletions_eq_none hdel, ← hlen, decide_eq_true hn, Option.isSome_eq_false_iff.mp hmask |>
      Option.isNone_iff_eq_none.mp]
    rfl
  | some deletion =>
    rw [hd] at hmask hdel
    obtain ⟨bits, hbits⟩ := Option.isSome_iff_exists.mp hmask
    have hm : d.mask = some (deletion, bits) := by simp [PkSegmentData.mask, hd, hbits]
    rw [shows_eq (h.remembers.alive info _ hg hm hdel), hbits, Option.all_some]

/-- A reader that was just loaded. -/
theorem LoadSpec.held {id : SegmentId} (hinv : m.Inv)
    (h : LoadSpec m.dir field id (IndexWriter.recordedDeletion m.metadata id) d)
    {info : SegmentMetaInfo} (hg : m.metadata.get id = some info) :
    d.Held field m ∧ info.deletions = d.deletionMeta := by
  have hrec : IndexWriter.recordedDeletion m.metadata id =
      info.deletions.map fun deletion => (info.numDocs, deletion) := by
    rw [IndexWriter.recordedDeletion, hg, Option.bind_some]
  have hdel : info.deletions = d.deletionMeta := by
    rw [h.deletionMeta, hrec, Option.map_map]
    cases info.deletions <;> rfl
  obtain rfl := h.segmentId
  refine ⟨⟨h.reads (hinv.rows _ _ h.rows), hinv.remembers hg h.rows ?_ fun mask hmask => ?_⟩, hdel⟩
  · rw [hdel, PkSegmentData.mask]
    cases hd : d.deletionMeta with
    | none => rfl
    | some deletion =>
      obtain ⟨bits, -, hbits⟩ := h.alive info.numDocs deletion (by rw [hrec, hdel, hd]; rfl)
      rw [hbits]
      rfl
  · obtain ⟨deletion, hd, hb⟩ := Option.bind_eq_some_iff.mp hmask
    obtain ⟨bits, hload, hbits⟩ := h.alive info.numDocs deletion (by rw [hrec, hdel, hd]; rfl)
    rw [hbits, Option.map_some] at hb
    cases hb
    simp only [SegmentMetaInfo.visibility, hdel, hd]
    exact hload

/-! ## Refreshes -/

section Refresh

variable {cfg : WriterConfig} {s : IndexWriter} {loaded newData : List PkSegmentData}

/-- Readers that hold each published segment once, with its mask, show the published rows. -/
theorem snapshotRows_eq_rowsOf (hinv : m.Inv) (hheld : ∀ d ∈ data, d.Held field m)
    (hnodup : (data.map (·.segmentId)).Nodup)
    (hids : ∀ id, id ∈ data.map (·.segmentId) ↔ id ∈ m.metadata.segmentIds)
    (hdel : ∀ d ∈ data, ∀ info, m.metadata.get d.segmentId = some info →
      info.deletions = d.deletionMeta) (f : Document → Bool) :
    (snapshotRows data f : Multiset Document) = m.rowsOf f := by
  have hlive : snapshotRows data f =
      (data.map (·.segmentId)).flatMap fun id => (m.live id).filter f := by
    rw [snapshotRows, flatMap_map]
    refine flatMap_congr fun d hd => ?_
    obtain ⟨info, hg⟩ := IndexMetadata.mem_segmentIds.mp
      ((hids d.segmentId).mp (mem_map_of_mem hd))
    rw [(hheld d hd).live_eq hinv hg (hdel d hd info hg)]
  have hset : (data.map (·.segmentId)).toFinset = m.metadata.segmentIds.toFinset := by
    ext id
    rw [mem_toFinset, mem_toFinset, hids]
  rw [hlive, ← Manager.sum_coe_of_nodup hnodup, hset]
  rfl

theorem loadNewData_ids (hload : s.loadNewData cfg = .ok loaded) :
    loaded.map (·.segmentId) = s.manager.metadata.segmentIds.filter fun id => id ∉ s.existingIds :=
  map_of_mapM_eq_ok (fun _ _ h => (loadSpec h).segmentId) hload

theorem loadNewData_held (hinv : s.manager.Inv) (hload : s.loadNewData cfg = .ok loaded)
    (hd : d ∈ loaded) : d.Held cfg.field s.manager ∧
      ∀ info, s.manager.metadata.get d.segmentId = some info → info.deletions = d.deletionMeta := by
  obtain ⟨id, hid, hspec⟩ := (mapM_eq_ok hload).1 d hd
  have hspec := loadSpec hspec
  obtain ⟨info, hg⟩ := IndexMetadata.mem_segmentIds.mp (mem_filter.mp hid).1
  obtain ⟨hheld, hdel⟩ := hspec.held hinv hg
  refine ⟨hheld, fun info' hg' => ?_⟩
  rw [hspec.segmentId, hg] at hg'
  cases hg'
  exact hdel

/-- **Refresh.** The refreshed readers show exactly the published rows, although only the segments
that the writer does not hold with their mask are loaded. -/
theorem snapshotRows_refreshed (hinv : s.manager.Inv)
    (hheld : ∀ d ∈ s.committedData, d.Held cfg.field s.manager)
    (hnodup : (s.committedData.map (·.segmentId)).Nodup)
    (hload : s.loadNewData cfg = .ok loaded) (hperm : newData.Perm loaded) {data : List PkSegmentData}
    (hdata : replaceCommittedData s.committedData newData s.manager.metadata.segmentIds = data) :
    (∀ d ∈ newData, d.Held cfg.field s.manager) ∧ (data.map (·.segmentId)).Nodup ∧
      ∀ f, (snapshotRows data f : Multiset Document) = s.manager.rowsOf f := by
  have hnew : ∀ id, id ∈ newData.map (·.segmentId) ↔
      id ∈ s.manager.metadata.segmentIds ∧ id ∉ s.existingIds := by
    intro id
    rw [(hperm.map _).mem_iff, loadNewData_ids hload, mem_filter, decide_eq_true_eq]
  have hnewHeld : ∀ d ∈ newData, d.Held cfg.field s.manager ∧
      ∀ info, s.manager.metadata.get d.segmentId = some info → info.deletions = d.deletionMeta :=
    fun d hd => loadNewData_held hinv hload (hperm.mem_iff.mp hd)
  -- the readers that are kept are up to date: their identity was not loaded again
  have hkept : ∀ d ∈ s.committedData, d.segmentId ∈ s.manager.metadata.segmentIds →
      d.segmentId ∉ newData.map (·.segmentId) → d.deletionMeta =
        (IndexWriter.recordedDeletion s.manager.metadata d.segmentId).map Prod.snd := by
    intro d hd hid hno
    have hex : d.segmentId ∈ s.existingIds := by
      by_contra hex
      exact hno ((hnew _).mpr ⟨hid, hex⟩)
    obtain ⟨d', hd', heq⟩ := mem_map.mp hex
    rw [mem_filter, decide_eq_true_eq] at hd'
    obtain rfl := inj_on_of_nodup_map hnodup hd'.1 hd heq
    exact hd'.2
  have hmem : ∀ {d}, d ∈ data ↔
      (d ∈ s.committedData ∧ d.segmentId ∈ s.manager.metadata.segmentIds ∧
        d.segmentId ∉ newData.map (·.segmentId)) ∨ d ∈ newData := by
    intro d
    rw [← hdata, replaceCommittedData, mem_append, mem_filter, Bool.and_eq_true,
      decide_eq_true_eq, Bool.not_eq_true', decide_eq_false_iff_not]
  have hids : (data.map (·.segmentId)).Nodup := by
    rw [← hdata, replaceCommittedData, map_append, nodup_append]
    refine ⟨hnodup.sublist (filter_sublist.map _), ?_, ?_⟩
    · rw [(hperm.map _).nodup_iff, loadNewData_ids hload]
      exact s.manager.metadata.segmentMetas.keys_nodup.filter _
    · intro id hid id' hid' heq
      obtain ⟨d, hd, rfl⟩ := mem_map.mp hid
      rw [mem_filter, Bool.and_eq_true, Bool.not_eq_true', decide_eq_false_iff_not] at hd
      exact hd.2.2 (heq ▸ hid')
  have hheld' : ∀ d ∈ data, d.Held cfg.field s.manager := by
    intro d hd
    rcases hmem.mp hd with ⟨hd, -, -⟩ | hd
    · exact hheld d hd
    · exact (hnewHeld d hd).1
  refine ⟨fun d hd => (hnewHeld d hd).1, hids, snapshotRows_eq_rowsOf hinv hheld' hids
    (fun id => ?_) fun d hd info hg => ?_⟩
  · constructor
    · intro hid
      obtain ⟨d, hd, rfl⟩ := mem_map.mp hid
      rcases hmem.mp hd with ⟨-, hid, -⟩ | hd
      · exact hid
      · exact ((hnew _).mp (mem_map_of_mem hd)).1
    · intro hid
      by_cases hin : id ∈ newData.map (·.segmentId)
      · obtain ⟨d, hd, rfl⟩ := mem_map.mp hin
        exact mem_map_of_mem (hmem.mpr (.inr hd))
      · have hex : id ∈ s.existingIds := by
          by_contra hex
          exact hin ((hnew id).mpr ⟨hid, hex⟩)
        obtain ⟨d, hd, rfl⟩ := mem_map.mp hex
        exact mem_map_of_mem (hmem.mpr (.inl ⟨(mem_filter.mp hd).1, hid, hin⟩))
  · rcases hmem.mp hd with ⟨hd, hid, hno⟩ | hd
    · rw [hkept d hd hid hno, IndexWriter.recordedDeletion, hg, Option.bind_some, Option.map_map]
      cases info.deletions <;> rfl
    · exact (hnewHeld d hd).2 info hg

end Refresh

end Summa
