import Summa.Index.Generation
import Summa.Index.Snapshot

/-!
# The invariant of the writer

* **Segments** (`Owned`): the segments that the writer builds and holds are claimed, unpublished and
  complete.
* **Readers** (`View`): committed readers and the readers of a pending refresh. They show the
  published rows unless a publication is not refreshed yet (`stale`); then the reservations cover
  what they miss.
* **Keys**: the filter knows every committed and every reserved key; the staged entry of a key has
  the content hash of its current version.
* **Generation**: see `Generation.lean`. Nothing is known of a failed generation; it is discarded.
-/

namespace Summa

open List

/-- Operation `t` produces segment `id`, which is not published. -/
def Manager.Produces (m : Manager Document) (t : Nat) (id : SegmentId) : Prop :=
  m.metadata.get id = none ∧ ∃ op, m.ops t = some op ∧ op.task = .segment id

/-- The segments of a writer: `building` are claimed, `segs` are also written. -/
structure Owned (m : Manager Document) (building : List (SegmentId × Nat))
    (segs : List PreparedSegment) : Prop where
  nodup : (building.map Prod.fst ++ segs.map (·.id)).Nodup
  building : ∀ p ∈ building, m.Produces p.2 p.1
  segments : ∀ p ∈ segs, m.Produces p.token p.id ∧
    ∃ rows, m.dir p.id = some (.segment rows) ∧ rows.length = p.numDocs

/-- Readers that the writer has or is about to install. -/
structure View (field : Field) (m : Manager Document) (reserved : String → Option Nat)
    (bloom : BloomFilter) (committed : String → Option Document) (data : List PkSegmentData) :
    Prop where
  held : ∀ d ∈ data, d.Held field m
  nodup : (data.map (·.segmentId)).Nodup
  /-- A committed key that they do not show is reserved. -/
  covers : ∀ k, committed k ≠ none → reserved k = none → SnapshotLive field data k
  bloom : ∀ k, SnapshotLive field data k → bloom.mayContain k = true

/-- The readers show the published rows. -/
def Accurate (m : Manager Document) (data : List PkSegmentData) : Prop :=
  ∀ f, (snapshotRows data f : Multiset Document) = m.rowsOf f

namespace IndexWriter

variable (w : IndexWriter)

/-- The row that each staged key has reserved. -/
def reserved (key : String) : Option Nat :=
  (w.staging.keys.uncommitted.lookup key).map (·.row)

/-- The staged segment and the rows of a built segment. -/
def builtRows (p : PreparedSegment) : Nat × List Document :=
  (p.stagedRows, (w.manager.dir.rows p.id).getD [])

def generation : Generation where
  inflight := w.staging.queue ++ w.workers.filterMap (·.received)
  segments := w.workers.map (fun x => (x.stagedRows, x.docs)) ++
    (w.builtSegments ++ w.flushedSegments).map w.builtRows
  heap := w.staging.heap

/-- The writer after a call. -/
def withStaging (staging : Staging) : IndexWriter := { w with staging }

@[simp] theorem withStaging_staging (w : IndexWriter) (staging : Staging) :
    (w.withStaging staging).staging = staging := rfl

/-- A publication of the writer is not in the committed readers yet. -/
def stale : Prop := w.pkReservationsRetained = true ∨ w.phase = .published

structure Inv (cfg : WriterConfig) (w : IndexWriter) (v : Versions) : Prop where
  manager : w.manager.Inv
  rows : ∀ k, w.rowsOfKey cfg k = ((v.committed k).toList : Multiset Document)
  owned : Owned w.manager (w.workers.filterMap (·.building)) (w.builtSegments ++ w.flushedSegments)
  view : View cfg.field w.manager w.reserved w.staging.keys.bloom v.committed w.committedData
  accurate : ¬ w.stale → Accurate w.manager w.committedData
  pending : ∀ r, w.refresh = some r →
    View cfg.field w.manager w.reserved w.staging.keys.bloom v.committed (w.refreshedData r)
  pending_accurate : ∀ r, w.refresh = some r → ¬ w.stale ∨ r.kind = .commit →
    Accurate w.manager (w.refreshedData r)
  pending_commit : ∀ r, w.refresh = some r → r.kind = .commit → w.phase = .published
  bloom : ∀ k, v.committed k ≠ none ∨ w.reserved k ≠ none →
    w.staging.keys.bloom.mayContain k = true
  deletes : w.stale → w.staging.keys.deletes = []
  /-- A staged entry has the content hash of the current version. -/
  entries : ¬ w.stale → ∀ k p, w.staging.keys.uncommitted.lookup k = some p →
    ∃ doc, v.current k = some doc ∧ documentHash doc cfg.schema = .ok p.hash
  idle : ¬ w.stale → ∀ k, w.staging.keys.uncommitted.lookup k = none →
    v.current k = if k ∈ w.staging.keys.deletes then none else v.committed k
  /-- The workers are paused from the preparation to the end of a commit. -/
  closed : w.phase ≠ .idle → w.flushed ∧ w.builtSegments = [] ∧ w.senderClosed = true ∧
    w.cycleFailed = false
  published : w.phase = .published → w.flushedSegments = [] ∧ v.current = v.committed
  reservations : Reserved w.staging.heap w.reserved
  workers : ∀ x ∈ w.workers, x.stagedRows < w.staging.heap.nextSegment
  generation : w.cycleFailed = false → w.generation.Inv cfg.field w.reserved
  latest : w.cycleFailed = false →
    Latest cfg.field (fun d => ∃ r, w.generation.Live d r) w.staging.keys.deletes v

end IndexWriter

/-! ## Segments -/

namespace Owned

variable {m m' : Manager Document} {building building' : List (SegmentId × Nat)}
  {segs segs' : List PreparedSegment}

theorem perm (h : Owned m building segs) (hb : building'.Perm building) (hs : segs'.Perm segs) :
    Owned m building' segs' :=
  ⟨(((hb.map _).append (hs.map _)).nodup_iff).mpr h.nodup,
    fun p hp => h.building p (hb.mem_iff.mp hp), fun p hp => h.segments p (hs.mem_iff.mp hp)⟩

theorem mono (h : Owned m building segs) (hb : building'.Sublist building)
    (hs : segs'.Sublist segs) : Owned m building' segs' :=
  ⟨h.nodup.sublist ((hb.map _).append (hs.map _)), fun p hp => h.building p (hb.subset hp),
    fun p hp => h.segments p (hs.subset hp)⟩

theorem claim (h : Owned m building segs) {id : SegmentId} {token : Nat}
    (hp : m.Produces token id) (hb : ∀ p ∈ building, p.1 ≠ id) (hs : ∀ p ∈ segs, p.id ≠ id) :
    Owned m ((id, token) :: building) segs := by
  refine ⟨nodup_cons.mpr ⟨fun hmem => ?_, h.nodup⟩, fun p hp' => ?_, h.segments⟩
  · rcases mem_append.mp hmem with hmem | hmem
    · obtain ⟨p, hp, heq⟩ := mem_map.mp hmem
      exact hb p hp heq
    · obtain ⟨p, hp, heq⟩ := mem_map.mp hmem
      exact hs p hp heq
  · rcases mem_cons.mp hp' with rfl | hp'
    · exact hp
    · exact h.building p hp'

/-- A claimed segment is written. -/
theorem build {p : PreparedSegment} {rows : List Document}
    (h : Owned m ((p.id, p.token) :: building) segs) (hfile : m.dir p.id = some (.segment rows))
    (hlen : rows.length = p.numDocs) : Owned m building (p :: segs) := by
  refine ⟨?_, fun q hq => h.building q (mem_cons_of_mem _ hq), fun q hq => ?_⟩
  · rw [map_cons, (perm_middle).nodup_iff]
    exact h.nodup
  · rcases mem_cons.mp hq with rfl | hq
    · exact ⟨h.building _ mem_cons_self, rows, hfile, hlen⟩
    · exact h.segments q hq

/-- Other parties leave the segments of the writer alone. -/
theorem step (h : Owned m building segs) (hinv : m.Inv) {e : Event Document} (hstep : Manager.Step m e m')
    (he : ∀ env newSegments keys staged, e ≠ .commit env newSegments keys staged)
    (hown : ∀ p ∈ building ++ segs.map (fun p => (p.id, p.token)), m'.ops p.2 = m.ops p.2) :
    Owned m' building segs := by
  have hprod : ∀ p ∈ building ++ segs.map (fun p => (p.id, p.token)),
      m.Produces p.2 p.1 → m'.Produces p.2 p.1 := by
    rintro p hp ⟨hnone, op, hop, htask⟩
    exact ⟨hinv.produced_unpublished hstep hop htask he hnone, op, (hown p hp).trans hop, htask⟩
  refine ⟨h.nodup, fun p hp => hprod p (mem_append_left _ hp) (h.building p hp), fun p hp => ?_⟩
  obtain ⟨hp', rows, hfile, hlen⟩ := h.segments p hp
  obtain ⟨op, hop, htask⟩ := hp'.2
  exact ⟨hprod (p.id, p.token) (mem_append_right _ (mem_map.mpr ⟨p, hp, rfl⟩)) hp',
    rows, hinv.produced_file hstep hop htask hfile, hlen⟩

end Owned

/-! ## Views -/

section Views

variable {field : Field} {m m' : Manager Document} {reserved reserved' : String → Option Nat}
  {bloom bloom' : BloomFilter} {committed committed' : String → Option Document}
  {data : List PkSegmentData}

theorem View.step (h : View field m reserved bloom committed data) (hinv : m.Inv)
    {e : Event Document} (hstep : Manager.Step m e m') : View field m' reserved bloom committed data :=
  ⟨fun d hd => (h.held d hd).step hinv hstep, h.nodup, h.covers, h.bloom⟩

/-- More keys are covered, and the filter has grown. -/
theorem View.mono (h : View field m reserved bloom committed data)
    (hbloom : ∀ k, bloom.mayContain k = true → bloom'.mayContain k = true)
    (hcovers : ∀ k, committed' k ≠ none → reserved' k = none → SnapshotLive field data k) :
    View field m reserved' bloom' committed' data :=
  ⟨h.held, h.nodup, hcovers, fun k hk => hbloom k (h.bloom k hk)⟩

/-- What accurate readers show of a key. -/
theorem Accurate.rows (h : Accurate m data) {key : String} {version : Option Document}
    (hrows : m.rowsOf (fun doc => doc.key field = key) = (version.toList : Multiset Document)) :
    (snapshotRows data fun doc => doc.key field = key).Perm version.toList :=
  Multiset.coe_eq_coe.mp ((h _).trans hrows)

theorem Accurate.snapshotLive (h : Accurate m data) {key : String} {version : Option Document}
    (hrows : m.rowsOf (fun doc => doc.key field = key) = (version.toList : Multiset Document)) :
    SnapshotLive field data key ↔ version ≠ none := by
  rw [snapshotLive_iff]
  simp only [(h.rows hrows).mem_iff, Option.mem_toList]
  exact Option.ne_none_iff_exists'.symm

end Views

/-! ## A new cycle of the workers -/

namespace IndexWriter

variable {cfg : WriterConfig} {w : IndexWriter} {v : Versions}

/-- What the new staged segments of the workers are. -/
structure FreshSegments (heap : StagedHeap) (ws : List Worker) (heap' : StagedHeap) : Prop where
  rows : heap'.rows = heap.rows
  nextRow : heap'.nextRow = heap.nextRow
  nextSegment : heap.nextSegment ≤ heap'.nextSegment
  nodup : (ws.map (·.stagedRows)).Nodup
  bound : ∀ x ∈ ws, heap.nextSegment ≤ x.stagedRows ∧ x.stagedRows < heap'.nextSegment
  dead : ∀ x ∈ ws, (heap'.segments x.stagedRows).dead = []
  segments : ∀ h < heap.nextSegment, heap'.segments h = heap.segments h

theorem freshWorkers_fresh (ws : List Worker) (heap : StagedHeap) :
    FreshSegments heap (freshWorkers ws heap).1 (freshWorkers ws heap).2 := by
  induction ws generalizing heap with
  | nil => exact ⟨rfl, rfl, le_rfl, nodup_nil, nofun, nofun, fun _ _ => rfl⟩
  | cons x ws ih =>
    have h := ih heap.newSegment.2
    have hlt : heap.nextSegment < heap.newSegment.2.nextSegment := Nat.lt_succ_self _
    refine ⟨h.rows, h.nextRow, hlt.le.trans h.nextSegment, ?_, fun y hy => ?_, fun y hy => ?_,
      fun n hn => ?_⟩
    · refine nodup_cons.mpr ⟨fun hmem => ?_, h.nodup⟩
      obtain ⟨y, hy, heq⟩ := mem_map.mp hmem
      have hle := (h.bound y hy).1
      rw [heq] at hle
      exact absurd hlt hle.not_gt
    · rcases mem_cons.mp hy with rfl | hy
      · exact ⟨le_rfl, hlt.trans_le h.nextSegment⟩
      · exact ⟨hlt.le.trans (h.bound y hy).1, (h.bound y hy).2⟩
    · rcases mem_cons.mp hy with rfl | hy
      · exact congrArg StagedSegment.dead
          ((h.segments heap.nextSegment hlt).trans StagedHeap.segments_newSegment_self)
      · exact h.dead y hy
    · exact (h.segments n (hn.trans hlt)).trans (StagedHeap.segments_newSegment_ne hn.ne)

theorem freshWorkers_map {α : Type} (f : Worker → α) (hf : ∀ x h, f { x with stagedRows := h } = f x)
    (ws : List Worker) (heap : StagedHeap) : (freshWorkers ws heap).1.map f = ws.map f := by
  induction ws generalizing heap with
  | nil => rfl
  | cons x ws ih => exact congrArg₂ cons (hf x _) (ih _)

theorem freshWorkers_filterMap {α : Type} (f : Worker → Option α)
    (hf : ∀ x h, f { x with stagedRows := h } = f x) (ws : List Worker) (heap : StagedHeap) :
    (freshWorkers ws heap).1.filterMap f = ws.filterMap f := by
  have hid : ∀ l : List Worker, l.filterMap f = (l.map f).filterMap id := fun l => by
    rw [filterMap_map, Function.id_comp]
  rw [hid, hid, freshWorkers_map f hf]

theorem freshWorkers_idle {ws : List Worker} (heap : StagedHeap)
    (h : ∀ x ∈ ws, x.received = none ∧ x.docs = [] ∧ x.building = none) :
    ∀ x ∈ (freshWorkers ws heap).1, x.received = none ∧ x.docs = [] ∧ x.building = none := by
  intro x hx
  have hmem := mem_map_of_mem (f := fun x : Worker => (x.received, x.docs, x.building)) hx
  rw [freshWorkers_map _ fun _ _ => rfl] at hmem
  obtain ⟨y, hy, heq⟩ := mem_map.mp hmem
  obtain ⟨hr, hd, hb⟩ := h y hy
  rw [hr, hd, hb, Prod.mk.injEq, Prod.mk.injEq] at heq
  exact ⟨heq.1.symm, heq.2.1.symm, heq.2.2.symm⟩

/-- New staged segments of idle workers are an empty generation. -/
theorem FreshSegments.generation {heap heap' : StagedHeap} {ws : List Worker}
    {reserved : String → Option Nat} (h : FreshSegments heap ws heap') (field : Field)
    (hidle : ∀ x ∈ ws, x.received = none ∧ x.docs = [] ∧ x.building = none) (hr : Reserved heap reserved) :
    Generation.Inv ⟨[], ws.map (fun x => (x.stagedRows, x.docs)), heap'⟩ field reserved ∧
      ∀ d r, ¬ Generation.Live ⟨[], ws.map (fun x => (x.stagedRows, x.docs)), heap'⟩ d r := by
  refine Generation.Inv.empty rfl ?_ (fun s hs => ?_) fun {n docs} hs => ?_
  · rw [map_map]
    exact h.nodup
  · obtain ⟨x, hx, rfl⟩ := mem_map.mp hs
    exact (h.bound x hx).2
  · obtain ⟨x, hx, heq⟩ := mem_map.mp hs
    cases heq
    refine ⟨(hidle x hx).2.1, h.dead x hx, fun r n hrow => ?_⟩
    rw [h.rows] at hrow
    exact absurd (hr.located (congrArg RowState.location hrow)) (h.bound x hx).1.not_gt

/-- The workers resume with nothing staged. -/
theorem Inv.resumeWorkers (h : Inv cfg w v) (hphase : w.phase = .idle) (hflush : w.flushed)
    (hb : w.builtSegments = []) (hf : w.flushedSegments = [])
    (hdel : w.staging.keys.deletes = []) (hcur : v.current = v.committed) : Inv cfg w.resumeWorkers v := by
  unfold IndexWriter.resumeWorkers
  split
  · exact h
  have hfresh := freshWorkers_fresh w.workers w.staging.heap
  have hidle := freshWorkers_idle w.staging.heap hflush.2
  have hgen := hfresh.generation cfg.field hidle h.reservations
  -- the generation of the resumed writer is that of its workers alone
  have heq : ∀ ws heap, (∀ x ∈ ws, x.received = none ∧ x.docs = [] ∧ x.building = none) →
      IndexWriter.generation { w with
        staging := { w.staging with queue := [], heap }, workers := ws, senderClosed := false,
        cycleFailed := false } = ⟨[], ws.map (fun x => (x.stagedRows, x.docs)), heap⟩ := by
    intro ws heap hws
    simp only [IndexWriter.generation, hb, hf, append_nil, map_nil, nil_append,
      Generation.mk.injEq, and_true]
    exact filterMap_eq_nil_iff.mpr fun x hx => (hws x hx).1
  refine { h with
    owned := ?_
    closed := fun hne => absurd hphase hne
    reservations := ⟨h.reservations.injective, fun hk => ?_, fun hloc => ?_⟩
    workers := fun x hx => (hfresh.bound x hx).2
    generation := fun _ => ?_
    latest := fun _ => ?_ }
  · rw [freshWorkers_filterMap _ fun _ _ => rfl]
    exact h.owned
  · rw [hfresh.nextRow]
    exact h.reservations.bound hk
  · rw [hfresh.rows] at hloc
    exact (h.reservations.located hloc).trans_le hfresh.nextSegment
  · rw [heq _ _ hidle]
    exact hgen.1
  · rw [heq _ _ hidle, hdel]
    exact Latest.of_empty (fun d hd => hgen.2 d hd.choose hd.choose_spec) hcur

end IndexWriter

end Summa
