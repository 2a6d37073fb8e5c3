import Summa.Index.WriterInvariant

/-!
# Workers keep the invariant of the writer

Workers change no key and no version: they move documents between the queue, their builders and the
built segments (`Inv.moveDocuments`), and the lifecycle under the writer steps on its own
(`Inv.background`). A failure only marks the generation.
-/

namespace Summa

open List

namespace IndexWriter

variable {cfg : WriterConfig} {w : IndexWriter} {v : Versions} {pre post : List Worker} {x x' : Worker}

/-! ## One worker of the list -/

theorem filterMap_middle {α : Type} (f : Worker → Option α) (pre post : List Worker) (x : Worker) :
    ((pre ++ x :: post).filterMap f).Perm ((f x).toList ++ (pre ++ post).filterMap f) := by
  refine (perm_middle.filterMap f).trans ?_
  rw [filterMap_cons]
  cases f x <;> exact .refl _

/-- The generation, with one worker apart. -/
theorem generation_perm (hw : w.workers = pre ++ x :: post) :
    w.generation.inflight.Perm
        (x.received.toList ++ (w.staging.queue ++ (pre ++ post).filterMap (·.received))) ∧
      w.generation.segments.Perm ((x.stagedRows, x.docs) ::
        ((pre ++ post).map (fun x => (x.stagedRows, x.docs)) ++
          (w.builtSegments ++ w.flushedSegments).map w.builtRows)) := by
  unfold IndexWriter.generation
  rw [hw]
  refine ⟨?_, (perm_middle.map _).append_right _⟩
  refine ((filterMap_middle (·.received) pre post x).append_left _).trans ?_
  rw [← append_assoc, ← append_assoc]
  exact perm_append_comm.append_right _

/-- The workers are paused outside the idle phase. -/
theorem Inv.phase_of_busy (h : Inv cfg w v) (hx : x ∈ w.workers)
    (hbusy : x.received ≠ none ∨ x.docs ≠ [] ∨ x.building ≠ none) : w.phase = .idle := by
  by_contra hne
  obtain ⟨hr, hd, hb⟩ := (h.closed hne).1.2 x hx
  rcases hbusy with hb' | hb' | hb'
  · exact hb' hr
  · exact hb' hd
  · exact hb' hb

/-- Workers move documents, or fail; the keys and the versions stay. -/
theorem Inv.moveDocuments (h : Inv cfg w v) {heap : StagedHeap} {queue : List QueuedDocument}
    {ws : List Worker} (failed : Bool) (hphase : w.phase = .idle)
    (hbuilding : (ws.filterMap (·.building)).Sublist (w.workers.filterMap (·.building)))
    (hreserved : Reserved heap w.reserved) (hbound : ∀ x ∈ ws, x.stagedRows < heap.nextSegment)
    (hgen : failed = false → w.cycleFailed = false ∧
      (IndexWriter.generation { w with
        staging := { w.staging with heap, queue }, workers := ws }).Inv cfg.field w.reserved ∧
      ∀ d r, (IndexWriter.generation { w with
        staging := { w.staging with heap, queue }, workers := ws }).Live d r ↔ w.generation.Live d r) :
    Inv cfg { w with
      staging := { w.staging with heap, queue }, workers := ws, cycleFailed := failed } v :=
  { h with
    owned := h.owned.mono hbuilding (.refl _)
    closed := fun hne => absurd hphase hne
    published := fun hp => absurd (hphase.symm.trans hp) nofun
    reservations := hreserved
    workers := hbound
    generation := fun hok => (hgen hok).2.1
    latest := fun hok => (h.latest (hgen hok).1).congr fun d =>
      exists_congr fun r => (hgen hok).2.2 d r }

theorem building_sublist (hw : w.workers = pre ++ x :: post)
    (hb : x'.building = none ∨ x'.building = x.building) :
    ((pre ++ x' :: post).filterMap (·.building)).Sublist (w.workers.filterMap (·.building)) := by
  rw [hw, filterMap_append, filterMap_append, filterMap_cons, filterMap_cons]
  refine (List.Sublist.refl _).append ?_
  rcases hb with hb | hb
  · rw [hb]
    cases x.building with
    | none => exact .refl _
    | some b => exact sublist_cons_self _ _
  · rw [hb]

theorem workers_bound (h : Inv cfg w v) (hw : w.workers = pre ++ x :: post) {heap : StagedHeap}
    (hnext : w.staging.heap.nextSegment ≤ heap.nextSegment)
    (hx : x'.stagedRows < heap.nextSegment) : ∀ y ∈ pre ++ x' :: post, y.stagedRows < heap.nextSegment := by
  intro y hy
  have hold : ∀ y ∈ w.workers, y.stagedRows < heap.nextSegment :=
    fun y hy => (h.workers y hy).trans_le hnext
  rw [hw] at hold
  rcases mem_append.mp hy with hy | hy
  · exact hold y (mem_append_left _ hy)
  · rcases mem_cons.mp hy with rfl | hy
    · exact hx
    · exact hold y (mem_append_right _ (mem_cons_of_mem _ hy))

theorem mem_workers (hw : w.workers = pre ++ x :: post) : x ∈ w.workers := by
  rw [hw]
  exact mem_append_right _ mem_cons_self

/-! ## Documents -/

section Documents

variable {q : QueuedDocument} {heap : StagedHeap} {queue : List QueuedDocument}

theorem Inv.receive (h : Inv cfg w v) (hq : w.staging.queue = q :: queue)
    (hw : w.workers = pre ++ x :: post) (hrec : x.received = none) :
    Inv cfg { w with
      staging := { w.staging with queue }
      workers := pre ++ { x with received := some q } :: post } v := by
  have hphase : w.phase = .idle := by
    by_contra hne
    have := (h.closed hne).1.1
    rw [hq] at this
    cases this
  refine h.moveDocuments w.cycleFailed hphase (building_sublist hw (.inr rfl))
    h.reservations (workers_bound h hw le_rfl (h.workers x (mem_workers hw))) fun hok => ⟨hok, ?_⟩
  obtain ⟨hin, hseg⟩ := generation_perm hw
  obtain ⟨hin', hseg'⟩ := generation_perm (x := { x with received := some q })
    (w := { w with
      staging := { w.staging with queue }
      workers := pre ++ { x with received := some q } :: post }) rfl
  refine (h.generation hok).perm (hin'.trans (.trans ?_ hin.symm)) (hseg'.trans hseg.symm) rfl
  rw [hrec, hq]
  exact .refl _

/-- The segments of everybody but one worker. -/
def otherSegments (w : IndexWriter) (ws : List Worker) : List (Nat × List Document) :=
  ws.map (fun x => (x.stagedRows, x.docs)) ++ (w.builtSegments ++ w.flushedSegments).map w.builtRows

section Received

variable (h : Inv cfg w v) (hw : w.workers = pre ++ x :: post) (hrec : x.received = some q)

include h hw hrec

/-- A worker is done with its document. What it does to the generation does not depend on what
everybody else has. -/
theorem Inv.handOver {docs : List Document} (failed : Bool) (hreserved : Reserved heap w.reserved)
    (hnext : heap.nextSegment = w.staging.heap.nextSegment)
    (hstep : failed = false → w.cycleFailed = false ∧ ∀ inflight segments,
      Generation.Inv ⟨q :: inflight, (x.stagedRows, x.docs) :: segments, w.staging.heap⟩ cfg.field
        w.reserved →
      Generation.Inv ⟨inflight, (x.stagedRows, docs) :: segments, heap⟩ cfg.field w.reserved ∧
        ∀ d r, Generation.Live ⟨inflight, (x.stagedRows, docs) :: segments, heap⟩ d r ↔
          Generation.Live ⟨q :: inflight, (x.stagedRows, x.docs) :: segments, w.staging.heap⟩ d r) :
    Inv cfg { w with
      staging := { w.staging with heap }
      workers := pre ++ { x with received := none, docs } :: post
      cycleFailed := failed } v := by
  have hx := mem_workers hw
  refine h.moveDocuments failed (h.phase_of_busy hx (.inl (by rw [hrec]; nofun)))
    (building_sublist hw (.inr rfl)) hreserved (workers_bound h hw hnext.ge (hnext ▸ h.workers x hx))
    fun hok => ?_
  obtain ⟨hokw, hstep⟩ := hstep hok
  obtain ⟨hin, hseg⟩ := generation_perm hw
  rw [hrec] at hin
  obtain ⟨hi, hl⟩ := (h.generation hokw).perm (show (⟨q :: (w.staging.queue ++
    (pre ++ post).filterMap (·.received)), (x.stagedRows, x.docs) :: w.otherSegments (pre ++ post),
    w.staging.heap⟩ : Generation).inflight.Perm _ from hin.symm) hseg.symm rfl
  obtain ⟨hi₁, hl₁⟩ := hstep _ _ hi
  obtain ⟨hin', hseg'⟩ := generation_perm (x := { x with received := none, docs })
    (w := { w with
      staging := { w.staging with heap }
      workers := pre ++ { x with received := none, docs } :: post }) rfl
  obtain ⟨hi₂, hl₂⟩ := hi₁.perm hin' hseg' rfl
  exact ⟨hokw, hi₂, fun d r => (hl₂ d r).trans ((hl₁ d r).trans (hl d r))⟩

theorem Inv.attach (hattach : w.staging.heap.attach q.row x.stagedRows x.docs.length = (true, heap)) :
    Inv cfg { w with
      staging := { w.staging with heap }
      workers := pre ++ { x with received := none, docs := x.docs ++ [q.doc] } :: post } v := by
  unfold StagedHeap.attach at hattach
  split at hattach
  · cases hattach
  rename_i hactive
  rw [Bool.not_eq_true] at hactive
  cases hattach
  exact h.handOver hw hrec w.cycleFailed (h.reservations.attach (h.workers x (mem_workers hw))) rfl
    fun hok => ⟨hok, fun _ _ hi => hi.attach hactive⟩

theorem Inv.skip (hattach : w.staging.heap.attach q.row x.stagedRows x.docs.length = (false, heap)) :
    Inv cfg { w with
      staging := { w.staging with heap }
      workers := pre ++ { x with received := none } :: post } v := by
  unfold StagedHeap.attach at hattach
  split at hattach
  · rename_i hcancelled
    cases hattach
    exact h.handOver hw hrec w.cycleFailed h.reservations rfl
      fun hok => ⟨hok, fun _ _ hi => hi.skip hcancelled⟩
  · cases hattach

theorem Inv.failDocument (hheap : heap = w.staging.heap ∨
      w.staging.heap.attach q.row x.stagedRows x.docs.length = (true, heap)) :
    Inv cfg { w with
      staging := { w.staging with heap }
      workers := pre ++ { x with received := none } :: post
      cycleFailed := true } v := by
  obtain ⟨hreserved, hnext⟩ : Reserved heap w.reserved ∧
      heap.nextSegment = w.staging.heap.nextSegment := by
    rcases hheap with rfl | hattach
    · exact ⟨h.reservations, rfl⟩
    · unfold StagedHeap.attach at hattach
      split at hattach
      · cases hattach
      · cases hattach
        exact ⟨h.reservations.attach (h.workers x (mem_workers hw)), rfl⟩
  exact h.handOver hw hrec true hreserved hnext nofun

theorem Inv.drain (hfail : w.cycleFailed = true) :
    Inv cfg { w with workers := pre ++ { x with received := none } :: post } v :=
  h.handOver hw hrec w.cycleFailed h.reservations rfl fun hok => nomatch hfail.symm.trans hok

end Received

end Documents

/-! ## The lifecycle under the writer -/

theorem Accurate.step {m m' : Manager Document} {data : List PkSegmentData} (h : Accurate m data)
    (hinv : m.Inv) {e : Event Document} (hstep : Manager.Step m e m')
    (he : ∀ env newSegments keys staged, e ≠ .commit env newSegments keys staged) : Accurate m' data :=
  fun f => (h f).trans (hinv.rowsOf_step f hstep he).symm

theorem Inv.background (h : Inv cfg w v) {e : Event Document} {m : Manager Document}
    (hstep : Manager.Step w.manager e m)
    (hcommit : ∀ env newSegments keys staged, e ≠ .commit env newSegments keys staged)
    (hown : ∀ p ∈ w.ownedSegments, m.ops p.2 = w.manager.ops p.2) : Inv cfg { w with manager := m } v := by
  -- the built segments keep their rows
  have hgen : IndexWriter.generation { w with manager := m } = w.generation := by
    unfold IndexWriter.generation
    congr 2
    refine map_congr_left fun p hp => ?_
    obtain ⟨⟨-, op, hop, htask⟩, rows, hfile, -⟩ := h.owned.segments p hp
    have hfile' := h.manager.produced_file hstep hop htask hfile
    simp only [builtRows, Directory.rows_congr (hfile'.trans hfile.symm)]
  exact { h with
    manager := Manager.inv_step h.manager hstep
    rows := fun k => (h.manager.rowsOf_step _ hstep hcommit).trans (h.rows k)
    owned := h.owned.step h.manager hstep hcommit hown
    view := h.view.step h.manager hstep
    accurate := fun hs => Accurate.step (h.accurate hs) h.manager hstep hcommit
    pending := fun r hr => (h.pending r hr).step h.manager hstep
    pending_accurate := fun r hr hk =>
      Accurate.step (h.pending_accurate r hr hk) h.manager hstep hcommit
    generation := fun hok => hgen ▸ h.generation hok
    latest := fun hok => hgen ▸ h.latest hok }

/-! ## Segments -/

section Segments

variable {id : SegmentId} {token : Nat} {active : ActiveOperationState}
  {guard : SegmentOperationGuard}

theorem used_of_produces (h : w.manager.Inv) (hp : w.manager.Produces token id) : id ∈ w.manager.used := by
  obtain ⟨-, op, hop, htask⟩ := hp
  have hout := ((h.ops token op hop).output id (by rw [htask]; rfl)).1
  exact h.used_guard token op hop id hout

theorem Inv.claimSegment (h : Inv cfg w v) (hw : w.workers = pre ++ x :: post)
    (hdocs : x.docs ≠ []) (hidle : x.building = none) (hid : id ∉ w.manager.used)
    (hreg : w.manager.active.tryRegisterIndexing [id] = some (active, guard)) :
    Inv cfg { w with
      manager := w.manager.start active guard (.segment id) {id}
      workers := pre ++ { x with building := some (id, guard.operationToken) } :: post } v := by
  have hx := mem_workers hw
  have hphase := h.phase_of_busy hx (.inr (.inl hdocs))
  have htoken : w.manager.ops guard.operationToken = none := by
    obtain ⟨rfl, -⟩ := ActiveOk.tryRegisterKind_eq_some hreg
    exact Option.map_eq_none_iff.mp h.manager.active.not_registered
  have hold : ∀ p ∈ w.ownedSegments,
      (w.manager.start active guard (.segment id) {id}).ops p.2 = w.manager.ops p.2 ∧
        w.manager.Produces p.2 p.1 := by
    intro p hp
    have hprod : w.manager.Produces p.2 p.1 := by
      rcases mem_append.mp hp with hp | hp
      · exact h.owned.building p hp
      · obtain ⟨q, hq, rfl⟩ := mem_map.mp hp
        exact (h.owned.segments q hq).1
    refine ⟨Function.update_of_ne ?_ _ _, hprod⟩
    intro heq
    obtain ⟨-, op, hop, -⟩ := hprod
    rw [heq, htoken] at hop
    cases hop
  have hback := h.background (.beginSegment hid hreg) nofun fun p hp => (hold p hp).1
  have hbuilding : ((pre ++ { x with building := some (id, guard.operationToken) } :: post).filterMap
      (·.building)).Perm ((id, guard.operationToken) :: w.workers.filterMap (·.building)) := by
    refine (filterMap_middle _ pre post _).trans (.cons _ ?_)
    rw [hw]
    refine .trans ?_ (filterMap_middle _ pre post x).symm
    rw [hidle]
    exact .refl _
  have hnew : ∀ p ∈ w.ownedSegments, p.1 ≠ id := by
    rintro p hp rfl
    exact hid (used_of_produces h.manager (hold p hp).2)
  have hprod : (w.manager.start active guard (.segment id) {id}).Produces guard.operationToken id := by
    refine ⟨?_, _, Function.update_self .., rfl⟩
    by_contra hne
    obtain ⟨info, hg⟩ := Option.ne_none_iff_exists'.mp hne
    exact hid (h.manager.used_of_owned (mem_ownedIds_self hg))
  obtain ⟨hin, hseg⟩ := generation_perm (w := { w with
    manager := w.manager.start active guard (.segment id) {id} }) hw
  obtain ⟨hin', hseg'⟩ := generation_perm
    (x := { x with building := some (id, guard.operationToken) })
    (w := { w with
      manager := w.manager.start active guard (.segment id) {id}
      workers := pre ++ { x with building := some (id, guard.operationToken) } :: post }) rfl
  have hgen := fun hok => (hback.generation hok).perm (hin'.trans hin.symm) (hseg'.trans hseg.symm) rfl
  exact { hback with
    owned := (hback.owned.claim hprod (fun p hp => hnew p (mem_append_left _ hp)) fun p hp =>
      hnew (p.id, p.token) (mem_append_right _ (mem_map.mpr ⟨p, hp, rfl⟩))).perm
        hbuilding (.refl _)
    closed := fun hne => absurd hphase hne
    published := fun hp => absurd (hphase.symm.trans hp) nofun
    workers := workers_bound h hw le_rfl (h.workers x hx)
    generation := fun hok => (hgen hok).1
    latest := fun hok => (hback.latest hok).congr fun d => exists_congr fun r => (hgen hok).2 d r }

theorem Inv.buildSegment (h : Inv cfg w v) (hw : w.workers = pre ++ x :: post)
    (hbuild : x.building = some (id, token)) (hnew : w.manager.dir id = none)
    (hlen : x.docs.length < 2 ^ 32) :
    Inv cfg { w with
      manager := w.manager.writeFile id (some (.segment x.docs))
      staging := { w.staging with heap := w.staging.heap.newSegment.2 }
      workers := pre ++ x.restart w.staging.heap.newSegment.1 :: post
      builtSegments := w.builtSegments ++ [⟨id, token, x.docs.length, x.stagedRows⟩] } v := by
  have hx := mem_workers hw
  have hphase := h.phase_of_busy hx (.inr (.inr (by rw [hbuild]; exact Option.some_ne_none _)))
  have hmem : (id, token) ∈ w.workers.filterMap (·.building) :=
    mem_filterMap.mpr ⟨x, hx, hbuild⟩
  obtain ⟨-, op, hop, htask⟩ := h.owned.building _ hmem
  have hback := h.background (.writeSegment x.docs hop htask hnew hlen) (fun _ _ _ _ heq => by cases heq) fun _ _ => rfl
  have hfile : (w.manager.writeFile id (some (.segment x.docs))).dir id = some (.segment x.docs) :=
    Manager.dir_writeFile_self ..
  have hbuilding : (w.workers.filterMap (·.building)).Perm
      ((id, token) :: (pre ++ post).filterMap (·.building)) := by
    rw [hw]
    refine (filterMap_middle _ pre post x).trans ?_
    rw [hbuild]
    exact .refl _
  have hbuilding' : ((pre ++ x.restart w.staging.heap.newSegment.1 :: post).filterMap
      (·.building)).Perm ((pre ++ post).filterMap (·.building)) := filterMap_middle _ pre post _
  set p : PreparedSegment := ⟨id, token, x.docs.length, x.stagedRows⟩ with hp
  have hbuilt : (w.builtSegments ++ [p] ++ w.flushedSegments).Perm
      (p :: (w.builtSegments ++ w.flushedSegments)) := by
    rw [append_assoc]
    exact perm_middle
  have hrows : builtRows { w with manager := w.manager.writeFile id (some (.segment x.docs)) } p =
      (x.stagedRows, x.docs) := by
    simp only [builtRows, Directory.rows, hp, hfile, Option.getD_some]
  -- the builder becomes a built segment, and a new one is there
  obtain ⟨hin, hseg⟩ := generation_perm (w := { w with
    manager := w.manager.writeFile id (some (.segment x.docs)) }) hw
  obtain ⟨hin', hseg'⟩ := generation_perm
    (x := x.restart w.staging.heap.newSegment.1)
    (w := { w with
      manager := w.manager.writeFile id (some (.segment x.docs))
      staging := { w.staging with heap := w.staging.heap.newSegment.2 }
      workers := pre ++ x.restart w.staging.heap.newSegment.1 :: post
      builtSegments := w.builtSegments ++ [p] }) rfl
  have hgen := fun hok => by
    obtain ⟨hi, hl⟩ := (hback.generation hok).newSegment hback.reservations
    have hperm := hi.perm (hin'.trans hin.symm) (hseg'.trans (.cons _ (.trans ?_ hseg.symm))) rfl
    · exact And.intro hperm.1 fun d r => (hperm.2 d r).trans (hl d r)
    · refine ((hbuilt.map _).append_left _).trans ?_
      exact hrows ▸ perm_middle
  exact { hback with
    owned := ((hback.owned.perm hbuilding.symm (.refl _)).build hfile rfl).perm hbuilding' hbuilt
    closed := fun hne => absurd hphase hne
    published := fun hp => by cases hphase.symm.trans hp
    workers := workers_bound h hw (Nat.le_succ _) (Nat.lt_succ_self _)
    reservations := h.reservations.newSegment
    generation := fun hok => (hgen hok).1
    latest := fun hok => (hback.latest hok).congr fun d => exists_congr fun r => (hgen hok).2 d r }

theorem Inv.failSegment (h : Inv cfg w v) (hw : w.workers = pre ++ x :: post) (hdocs : x.docs ≠ []) :
    Inv cfg { w with
      staging := { w.staging with heap := w.staging.heap.newSegment.2 }
      workers := pre ++ x.restart w.staging.heap.newSegment.1 :: post
      cycleFailed := true } v :=
  h.moveDocuments true (h.phase_of_busy (mem_workers hw) (.inr (.inl hdocs)))
    (building_sublist hw (.inl rfl)) h.reservations.newSegment
    (workers_bound h hw (Nat.le_succ _) (Nat.lt_succ_self _)) nofun

end Segments

end IndexWriter

end Summa
