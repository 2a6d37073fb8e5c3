import Summa.Index.WriterInvariant

/-!
# Commits, aborts and refreshes keep the invariant of the writer

* A generation that is given up leaves the committed versions (`Inv.discard`).
* A publication makes the current versions the committed ones (`Inv.publish`): the committed rows of
  the deleted keys go, and the visible rows of the prepared segments come.
* The readers of a refresh show the published rows (`Inv.beginRefresh`). A replacement may install
  readers that miss a later publication; the reservations cover that until the commit's own refresh
  (`Inv.finishCommit`).
-/

namespace Summa

open List

namespace IndexWriter

variable {cfg : WriterConfig} {w : IndexWriter} {v : Versions}

/-- The generation without its built segments. -/
def builders (w : IndexWriter) : Generation :=
  ⟨w.staging.queue ++ w.workers.filterMap (·.received),
    w.workers.map (fun x => (x.stagedRows, x.docs)) ++ [], w.staging.heap⟩

theorem generation_eq_builders (hbuilt : w.builtSegments = []) (hseg : w.flushedSegments = []) :
    w.generation = w.builders := by
  simp only [IndexWriter.generation, builders, hbuilt, hseg, append_nil, map_nil]

section

variable (h : Inv cfg w v)

include h

/-- The phase moves between preparation and publication. -/
theorem Inv.setPhase {phase : CommitPhase} (hold : w.phase ≠ .published)
    (hnew : phase ≠ .published) (hclosed : phase ≠ .idle → w.flushed ∧ w.builtSegments = [] ∧
      w.senderClosed = true ∧ w.cycleFailed = false) : Inv cfg { w with phase } v := by
  have hstale : IndexWriter.stale { w with phase } ↔ w.stale :=
    or_congr_right (iff_of_false hnew hold)
  exact { h with
    accurate := fun hs => h.accurate (mt hstale.mpr hs)
    pending_accurate := fun r hr hk => h.pending_accurate r hr (hk.imp_left (mt hstale.mpr))
    pending_commit := fun r hr hk => absurd (h.pending_commit r hr hk) hold
    deletes := fun hs => h.deletes (hstale.mp hs)
    entries := fun hs => h.entries (mt hstale.mpr hs)
    idle := fun hs => h.idle (mt hstale.mpr hs)
    closed := hclosed
    published := fun hp => absurd hp hnew }

theorem Inv.close (hphase : w.phase = .idle) : Inv cfg { w with senderClosed := true } v :=
  { h with closed := fun hne => absurd hphase hne }

theorem Inv.collect (hphase : w.phase = .idle) (hclosed : w.senderClosed = true)
    (hflush : w.flushed) (hok : w.cycleFailed = false) :
    Inv cfg { w with
      builtSegments := []
      flushedSegments := w.flushedSegments ++ w.builtSegments
      phase := .prepared } v := by
  have hperm : ([] ++ (w.flushedSegments ++ w.builtSegments)).Perm
      (w.builtSegments ++ w.flushedSegments) := by
    rw [nil_append]
    exact perm_append_comm
  let w' : IndexWriter := { w with
    builtSegments := []
    flushedSegments := w.flushedSegments ++ w.builtSegments }
  have hin : w'.generation.inflight.Perm w.generation.inflight := .refl _
  have hgen := fun hok => (h.generation hok).perm hin ((hperm.map _).append_left _) rfl
  have hmoved : Inv cfg { w with
      builtSegments := []
      flushedSegments := w.flushedSegments ++ w.builtSegments } v :=
    { h with
      owned := h.owned.perm (.refl _) hperm
      closed := fun hne => absurd hphase hne
      published := fun hp => absurd (hphase.symm.trans hp) nofun
      generation := fun hok => (hgen hok).1
      latest := fun hok => (h.latest hok).congr fun d => exists_congr fun r => (hgen hok).2 d r }
  exact hmoved.setPhase (by rw [hphase]; nofun) nofun fun _ => ⟨hflush, rfl, hclosed, hok⟩

theorem Inv.signalShutdown : Inv cfg { w with shutdown := true, senderClosed := true } v :=
  { h with
    closed := fun hne =>
      ⟨(h.closed hne).1, (h.closed hne).2.1, rfl, (h.closed hne).2.2.2⟩ }

/-! ## The end of a generation -/

/-- The segments that are left when the prepared segments are gone. -/
theorem Inv.emptyGeneration (hflush : w.flushed) (hok : w.cycleFailed = false)
    (reserved : String → Option Nat) :
    w.builders.Inv cfg.field reserved ∧ ∀ d, ¬ ∃ r, w.builders.Live d r := by
  have hin : w.staging.queue ++ w.workers.filterMap (·.received) = [] := by
    rw [hflush.1, nil_append]
    exact filterMap_eq_nil_iff.mpr fun x hx => (hflush.2 x hx).1
  rw [builders, hin]
  have hsub : (w.workers.map (fun x : Worker => (x.stagedRows, x.docs)) ++ []).Sublist
      w.generation.segments := (List.Sublist.refl _).append (nil_sublist _)
  obtain ⟨hi, hl⟩ := (h.generation hok).restrict hsub fun {n docs} hs => by
    rw [append_nil] at hs
    obtain ⟨x, hx, heq⟩ := mem_map.mp hs
    cases heq
    exact (hflush.2 x hx).2.1
  exact ⟨hi, fun d ⟨r, hr⟩ => hl d r hr⟩

/-- Give the generation up, before the workers resume. -/
theorem Inv.dropGeneration (hphase : w.phase ≠ .published) (hflush : w.flushed) :
    Inv cfg w.dropGeneration { v with current := v.committed } ∧
      w.dropGeneration.staging.keys.deletes = [] := by
  have hno : ∀ r, w.refresh = some r → r.kind ≠ .commit :=
    fun r hr hk => hphase (h.pending_commit r hr hk)
  have howned : Owned w.manager (w.workers.filterMap (·.building)) ([] ++ []) :=
    h.owned.mono (.refl _) (nil_sublist _)
  unfold IndexWriter.dropGeneration clearUncommittedPkReservations
  split
  · rename_i hret
    have hstale : w.stale := .inl hret
    have hdel := h.deletes hstale
    exact ⟨{ h with
      owned := howned
      accurate := fun hs => absurd (.inl hret) hs
      pending_accurate := fun r hr hk =>
        hk.elim (fun hs => absurd (.inl hret) hs) fun hk => absurd hk (hno r hr)
      pending_commit := fun r hr hk => absurd hk (hno r hr)
      deletes := fun _ => hdel
      entries := fun hs => absurd (.inl hret) hs
      idle := fun hs => absurd (.inl hret) hs
      closed := fun hne => absurd rfl hne
      published := nofun
      generation := fun hok => (h.emptyGeneration hflush hok _).1
      latest := fun hok => hdel ▸ Latest.of_empty (h.emptyGeneration hflush hok w.reserved).2 rfl }, hdel⟩
  · rename_i hret
    have hstale : ¬ w.stale := by
      rintro (hs | hs)
      · exact hret hs
      · exact hphase hs
    have hview : ∀ {data}, Accurate w.manager data →
        View cfg.field w.manager w.reserved w.staging.keys.bloom v.committed data →
        View cfg.field w.manager (fun _ => none) w.staging.keys.bloom v.committed data :=
      fun hacc hv => hv.mono (fun _ hk => hk) fun k hk _ => (hacc.snapshotLive (h.rows k)).mpr hk
    exact ⟨{ h with
      owned := howned
      view := hview (h.accurate hstale) h.view
      accurate := fun _ => h.accurate hstale
      pending := fun r hr => hview (h.pending_accurate r hr (.inl hstale)) (h.pending r hr)
      pending_accurate := fun r hr _ => h.pending_accurate r hr (.inl hstale)
      pending_commit := fun r hr hk => absurd hk (hno r hr)
      bloom := fun k hk => h.bloom k (hk.imp id fun hne => absurd rfl hne)
      deletes := fun _ => rfl
      entries := nofun
      idle := fun _ k _ => (if_neg not_mem_nil).symm
      closed := fun hne => absurd rfl hne
      published := nofun
      reservations := h.reservations.clear
      generation := fun hok => (h.emptyGeneration hflush hok _).1
      latest := fun hok => Latest.of_empty (h.emptyGeneration hflush hok w.reserved).2 rfl }, rfl⟩

theorem Inv.discard (hphase : w.phase ≠ .published) (hflush : w.flushed) :
    Inv cfg w.discard { v with current := v.committed } := by
  obtain ⟨hinv, hdel⟩ := h.dropGeneration hphase hflush
  refine hinv.resumeWorkers ?_ ?_ ?_ ?_ hdel rfl
  all_goals unfold IndexWriter.dropGeneration clearUncommittedPkReservations
  all_goals split
  all_goals first | rfl | exact hflush

end

/-! ## Publication -/

theorem lookup_of_mem {α β : Type} [BEq α] [LawfulBEq α] {l : List (α × β)}
    (hnodup : (l.map Prod.fst).Nodup) {a : α} {b : β} (hmem : (a, b) ∈ l) : l.lookup a = some b := by
  induction l with
  | nil => cases hmem
  | cons p l ih =>
    rw [map_cons, nodup_cons] at hnodup
    rw [lookup_cons]
    rcases mem_cons.mp hmem with rfl | hmem
    · rw [beq_self_eq_true]
    · have hne : (a == p.1) = false := by
        rw [beq_eq_false_iff_ne]
        rintro rfl
        exact hnodup.1 (mem_map.mpr ⟨_, hmem, rfl⟩)
      rw [hne]
      exact ih hnodup.2 hmem

/-- The rows that are hidden in a prepared segment are its dead rows. -/
theorem cancelled_stagedDeletions (hnodup : (w.flushedSegments.map (·.id)).Nodup)
    {p : PreparedSegment} (hp : p ∈ w.flushedSegments) (n : Nat) :
    cancelled w.stagedDeletions p.id n = (w.staging.heap.segments p.stagedRows).dead.contains n := by
  have hkeys : (w.stagedDeletions.reverse.map Prod.fst).Nodup := by
    rw [map_reverse, nodup_reverse, stagedDeletions, map_map]
    exact hnodup.sublist (filter_sublist.map _)
  unfold cancelled
  by_cases hdead : (w.staging.heap.segments p.stagedRows).dead = []
  · -- another segment with this identity does not exist
    have hnone : w.stagedDeletions.reverse.lookup p.id = none := by
      rw [lookup_eq_none_iff]
      intro s hs
      rw [mem_reverse, stagedDeletions, mem_map] at hs
      obtain ⟨q, hq, rfl⟩ := hs
      rw [mem_filter, decide_eq_true_eq] at hq
      rw [bne_iff_ne]
      intro heq
      obtain rfl := inj_on_of_nodup_map hnodup hp hq.1 heq
      exact hq.2 hdead
    rw [hnone, hdead]
    rfl
  · have hmem : (p.id, w.staging.heap.segments p.stagedRows) ∈ w.stagedDeletions.reverse := by
      rw [mem_reverse, stagedDeletions, mem_map]
      exact ⟨p, mem_filter.mpr ⟨hp, decide_eq_true hdead⟩, rfl⟩
    rw [lookup_of_mem hkeys hmem, Option.any_some]

section Publish

variable {env : TxEnv Document} {m : Manager Document}

theorem Inv.flushed_nodup (h : Inv cfg w v) : (w.flushedSegments.map (·.id)).Nodup :=
  h.owned.nodup.sublist ((List.Sublist.map _ (sublist_append_right _ _)).trans
    (sublist_append_right _ _))

theorem map_metadataEntries (w : IndexWriter) :
    w.metadataEntries.map Prod.fst = w.flushedSegments.map (·.id) := by
  rw [metadataEntries, map_map]
  rfl

section

variable (h : Inv cfg w v)

include h

variable (hphase : w.phase = .publishing) (hkey : env.key = fun doc => doc.key cfg.field)
  (hcommit : Manager.Step w.manager (.commit env w.metadataEntries w.staging.keys.deletes w.stagedDeletions) m)

include hphase hcommit in
/-- The rows of the prepared segments in the published state. -/
theorem Inv.newRows (f : Document → Bool) :
    ((w.metadataEntries.map Prod.fst).flatMap fun id => (m.live id).filter f) =
      w.generation.visibleRows f := by
  obtain ⟨hflush, hbuilt, -, -⟩ := h.closed (by rw [hphase]; nofun)
  have hkeeps := h.manager.keepsRows hcommit
  have hnodup := h.flushed_nodup
  -- the builders are empty
  have hworkers : (w.workers.map fun x => (x.stagedRows, x.docs)).flatMap (fun s =>
      (select (fun n => !(w.staging.heap.segments s.1).dead.contains n) s.2).filter f) = [] := by
    rw [flatMap_eq_nil_iff]
    intro s hs
    obtain ⟨x, hx, rfl⟩ := mem_map.mp hs
    rw [(hflush.2 x hx).2.1]
    rfl
  rw [map_metadataEntries, Generation.visibleRows]
  unfold IndexWriter.generation
  rw [hbuilt, nil_append, flatMap_append, hworkers, nil_append, flatMap_map,
    flatMap_map]
  refine flatMap_congr fun p hp => ?_
  obtain ⟨⟨hnone, -⟩, rows, hfile, -⟩ := h.owned.segments p (mem_append_right _ hp)
  have hlookup : w.metadataEntries.lookup p.id = some p.numDocs :=
    lookup_of_mem (map_metadataEntries w ▸ hnodup) (mem_map.mpr ⟨p, hp, rfl⟩)
  rw [hkeeps.added p.id p.numDocs (IndexMetadata.hasSegment_eq_false.mpr hnone) hlookup]
  simp only [cancelled_stagedDeletions hnodup hp]
  rfl

/-- The committed rows whose key is not deleted. -/
theorem Inv.keptRows (key : String) :
    w.manager.rowsOf (fun doc => decide (doc.key cfg.field = key) &&
        !w.staging.keys.deletes.contains (doc.key cfg.field)) =
      ((if key ∈ w.staging.keys.deletes then none else v.committed key).toList :
        Multiset Document) := by
  have hcongr : (fun doc : Document => decide (doc.key cfg.field = key) &&
      !w.staging.keys.deletes.contains (doc.key cfg.field)) = fun doc =>
        decide (doc.key cfg.field = key) && !w.staging.keys.deletes.contains key := by
    funext doc
    by_cases hk : doc.key cfg.field = key
    · rw [hk]
    · simp [hk]
  rw [hcongr]
  by_cases hdel : key ∈ w.staging.keys.deletes
  · simp only [contains_eq_mem, hdel, decide_true, Bool.not_true, Bool.and_false]
    refine Finset.sum_eq_zero fun id _ => ?_
    rw [filter_eq_nil_iff.mpr fun _ _ => Bool.false_ne_true]
    rfl
  · rw [if_neg hdel, ← h.rows key]
    simp only [contains_eq_mem, hdel, decide_false, Bool.not_false, Bool.and_true]
    rfl

include hphase hkey hcommit in
theorem Inv.publishedRows (key : String) :
    m.rowsOf (fun doc => doc.key cfg.field = key) = ((v.current key).toList : Multiset Document) := by
  obtain ⟨hflush, hbuilt, -, hok⟩ := h.closed (by rw [hphase]; nofun)
  have hin : w.generation.inflight = [] := by
    unfold IndexWriter.generation
    rw [hflush.1, nil_append]
    exact filterMap_eq_nil_iff.mpr fun x hx => (hflush.2 x hx).1
  have hnew : ∀ n ∈ w.metadataEntries, w.manager.metadata.hasSegment n.1 = false := by
    intro n hn
    obtain ⟨p, hp, rfl⟩ := mem_map.mp hn
    exact IndexMetadata.hasSegment_eq_false.mpr
      (h.owned.segments p (mem_append_right _ hp)).1.1
  rw [Manager.rowsOf_commit _ (h.manager.keepsRows hcommit) hnew
    (map_metadataEntries w ▸ h.flushed_nodup), h.newRows hphase hcommit, hkey, h.keptRows key]
  exact (h.generation hok).publishedRows (h.latest hok) hin key

/-- A key without a reservation has no document in the generation. -/
theorem Inv.current_of_free (hok : w.cycleFailed = false) {key : String} (hfree : w.reserved key = none) :
    v.current key = if key ∈ w.staging.keys.deletes then none else v.committed key := by
  refine (h.latest hok).idle fun d ⟨r, hl⟩ heq => ?_
  have hlink := (h.generation hok).linked hl
  rw [heq, hfree] at hlink
  cases hlink

/-- A current version without a reservation is committed. -/
theorem Inv.committed_of_current (hok : w.cycleFailed = false) {key : String}
    (hcur : v.current key ≠ none) (hfree : w.reserved key = none) : v.committed key ≠ none := by
  rw [h.current_of_free hok hfree] at hcur
  split at hcur
  · exact absurd rfl hcur
  · exact hcur

include hphase hkey hcommit in
theorem Inv.publish :
    Inv cfg ({ w with
      manager := m
      flushedSegments := []
      phase := .published }.withKeys w.staging.keys.markDeletesPublished)
      { v with committed := v.current } := by
  obtain ⟨hflush, hbuilt, hretained, hok⟩ := h.closed (by rw [hphase]; nofun)
  have hno : ∀ r, w.refresh = some r → r.kind ≠ .commit := fun r hr hk => by
    have := h.pending_commit r hr hk
    rw [hphase] at this
    cases this
  have hview : ∀ {data},
      View cfg.field w.manager w.reserved w.staging.keys.bloom v.committed data →
      View cfg.field m w.reserved w.staging.keys.bloom v.current data := fun hv =>
    (hv.step h.manager hcommit).mono (fun _ hk => hk) fun k hk hfree =>
      hv.covers k (h.committed_of_current hok hk hfree) hfree
  have hempty := h.emptyGeneration hflush hok w.reserved
  have hgen : IndexWriter.generation ({ w with
      manager := m
      flushedSegments := []
      phase := .published }.withKeys w.staging.keys.markDeletesPublished) = w.builders :=
    generation_eq_builders hbuilt rfl
  exact { h with
    manager := Manager.inv_step h.manager hcommit
    rows := h.publishedRows hphase hkey hcommit
    owned := by
      have hbuilding : w.workers.filterMap (·.building) = [] :=
        filterMap_eq_nil_iff.mpr fun x hx => (hflush.2 x hx).2.2
      simp only [withKeys, hbuilding, hbuilt]
      exact ⟨nodup_nil, nofun, nofun⟩
    view := hview h.view
    accurate := fun hs => absurd (.inr rfl) hs
    pending := fun r hr => hview (h.pending r hr)
    pending_accurate := fun r hr hk =>
      hk.elim (fun hs => absurd (.inr rfl) hs) fun hk => absurd hk (hno r hr)
    pending_commit := fun r hr hk => absurd hk (hno r hr)
    bloom := fun k hk => by
      by_cases hfree : w.reserved k = none
      · exact h.bloom k (.inl (h.committed_of_current hok (hk.resolve_right (· hfree)) hfree))
      · exact h.bloom k (.inr hfree)
    deletes := fun _ => rfl
    entries := fun hs => absurd (.inr rfl) hs
    idle := fun hs => absurd (.inr rfl) hs
    closed := fun _ => ⟨hflush, hbuilt, hretained, hok⟩
    published := fun _ => ⟨rfl, rfl⟩
    generation := fun _ => hgen ▸ hempty.1
    latest := fun _ => hgen ▸ Latest.of_empty hempty.2 rfl }

end

end Publish

/-- The publication is not refreshed: the reservations are retained. -/
theorem Inv.retain (h : Inv cfg w v) (hphase : w.phase = .published) {refresh : Option PendingRefresh}
    (hrefresh : ∀ r, refresh = some r → w.refresh = some r ∧ r.kind ≠ .commit) :
    Inv cfg { w with refresh, pkReservationsRetained := true, phase := .idle } v := by
  have hstale : w.stale := .inr hphase
  exact { h with
    accurate := fun hs => absurd (.inl rfl) hs
    pending := fun r hr => h.pending r (hrefresh r hr).1
    pending_accurate := fun r hr hk =>
      hk.elim (fun hs => absurd (.inl rfl) hs) fun hk => absurd hk (hrefresh r hr).2
    pending_commit := fun r hr hk => absurd hk (hrefresh r hr).2
    deletes := fun _ => h.deletes hstale
    entries := fun hs => absurd (.inl rfl) hs
    idle := fun hs => absurd (.inl rfl) hs
    closed := fun hne => absurd rfl hne
    published := nofun }

/-- A commit of nothing publishes nothing. -/
theorem Inv.commitNothing (h : Inv cfg w v) (hphase : w.phase = .prepared)
    (hseg : w.flushedSegments = []) (hdel : w.staging.keys.deletes = []) :
    Inv cfg { w with phase := .idle }.resumeWorkers { v with committed := v.current } := by
  obtain ⟨hflush, hbuilt, -, hok⟩ := h.closed (by rw [hphase]; nofun)
  have hempty := (h.emptyGeneration hflush hok w.reserved).2
  have hgen := generation_eq_builders hbuilt hseg
  have hsame : v.current = v.committed := by
    funext k
    rw [(h.latest hok).idle fun d hl => absurd (hgen ▸ hl) (hempty d), hdel, if_neg not_mem_nil]
  have hv : { v with committed := v.current } = v := by
    obtain ⟨committed, current⟩ := v
    cases hsame
    rfl
  rw [hv]
  have hidle : Inv cfg { w with phase := .idle } v :=
    h.setPhase (by rw [hphase]; nofun) nofun fun hne => absurd rfl hne
  exact hidle.resumeWorkers rfl hflush hbuilt hseg hdel hsame

/-! ## Refreshes -/

section Refresh

variable {r : PendingRefresh}

theorem Inv.beginRefresh (h : Inv cfg w v) (kind : PrimaryKeyRefresh)
    {loaded newData : List PkSegmentData} (hkind : kind = .commit → w.phase = .published)
    (hload : w.loadNewData cfg = .ok loaded) (hperm : newData.Perm loaded) :
    Inv cfg { w with refresh := some ⟨kind, newData, w.manager.metadata.segmentIds⟩ } v := by
  obtain ⟨hheld, hnodup, hacc⟩ :=
    snapshotRows_refreshed h.manager h.view.held h.view.nodup hload hperm rfl
  have hacc : Accurate w.manager
      (replaceCommittedData w.committedData newData w.manager.metadata.segmentIds) := hacc
  have hview : View cfg.field w.manager w.reserved w.staging.keys.bloom v.committed
      (replaceCommittedData w.committedData newData w.manager.metadata.segmentIds) := by
    refine ⟨fun d hd => ?_, hnodup, fun k hk _ => (hacc.snapshotLive (h.rows k)).mpr hk,
      fun k hk => h.bloom k (.inl ((hacc.snapshotLive (h.rows k)).mp hk))⟩
    rcases mem_append.mp hd with hd | hd
    · exact h.view.held d (mem_filter.mp hd).1
    · exact hheld d hd
  exact { h with
    pending := fun r hr => by
      cases hr
      exact hview
    pending_accurate := fun r hr _ => by
      cases hr
      exact hacc
    pending_commit := fun r hr hk => by
      cases hr
      exact hkind hk }

theorem Inv.finishReplacement (h : Inv cfg w v) (hr : w.refresh = some r) :
    Inv cfg { w with committedData := w.refreshedData r, refresh := none } v :=
  { h with
    view := h.pending r hr
    accurate := fun hs => h.pending_accurate r hr (.inl hs)
    pending := nofun
    pending_accurate := nofun
    pending_commit := nofun }

theorem Inv.failReplacement (h : Inv cfg w v) : Inv cfg { w with refresh := none } v :=
  { h with
    pending := nofun
    pending_accurate := nofun
    pending_commit := nofun }

theorem Inv.finishCommit (h : Inv cfg w v) (hr : w.refresh = some r) (hkind : r.kind = .commit) :
    Inv cfg ({ w with
      committedData := w.refreshedData r
      refresh := none
      pkReservationsRetained := false
      phase := .idle }.withKeys (w.staging.keys.refreshData r.newData)).resumeWorkers v := by
  have hphase := h.pending_commit r hr hkind
  obtain ⟨hflush, hbuilt, -, hok⟩ := h.closed (by rw [hphase]; nofun)
  obtain ⟨hseg, hcur⟩ := h.published hphase
  have hacc := h.pending_accurate r hr (.inr hkind)
  have hgrow : ∀ k, w.staging.keys.bloom.mayContain k = true →
      ((PrimaryKeyState.dictKeys r.newData).foldl BloomFilter.insert
        w.staging.keys.bloom).mayContain k = true :=
    fun k hk => BloomFilter.mayContain_foldl_insert _ (.inr hk)
  have hempty := h.emptyGeneration hflush hok fun _ => none
  rw [← generation_eq_builders hbuilt hseg] at hempty
  have hidle : Inv cfg ({ w with
      committedData := w.refreshedData r
      refresh := none
      pkReservationsRetained := false
      phase := .idle }.withKeys (w.staging.keys.refreshData r.newData)) v :=
    { h with
      view := (h.pending r hr).mono hgrow fun k hk _ => (hacc.snapshotLive (h.rows k)).mpr hk
      accurate := fun _ => hacc
      pending := nofun
      pending_accurate := nofun
      pending_commit := nofun
      bloom := fun k hk => hgrow k (h.bloom k (hk.imp id fun hne => absurd rfl hne))
      deletes := fun _ => rfl
      entries := nofun
      idle := fun _ k _ => by rw [hcur]; exact (if_neg not_mem_nil).symm
      closed := fun hne => absurd rfl hne
      published := nofun
      reservations := h.reservations.clear
      generation := fun _ => hempty.1
      latest := fun _ => Latest.of_empty hempty.2 hcur }
  exact hidle.resumeWorkers rfl hflush hbuilt hseg rfl hcur

theorem Inv.failCommitRefresh (h : Inv cfg w v) (hphase : w.phase = .published) :
    Inv cfg { w with
      refresh := none
      pkReservationsRetained := true
      phase := .idle }.resumeWorkers v := by
  obtain ⟨hflush, hbuilt, -, -⟩ := h.closed (by rw [hphase]; nofun)
  obtain ⟨hseg, hcur⟩ := h.published hphase
  have hidle : Inv cfg { w with refresh := none, pkReservationsRetained := true, phase := .idle } v :=
    h.retain hphase nofun
  exact hidle.resumeWorkers rfl hflush hbuilt hseg (h.deletes (.inr hphase)) hcur

end Refresh

end IndexWriter

end Summa
