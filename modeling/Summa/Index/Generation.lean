import Summa.Index.Versions

/-!
# One generation of staged documents

The documents between admission and publication: queued, taken by a worker, or in a builder or a
built segment. A document is live while its row handle is not cancelled (`Live`).

* `Generation.Inv`: every row of a staged segment is dead or has exactly one active handle, and the
  handle of each live document is the reserved one of its key. The operations of calls and workers
  keep it, in any order.
* `Latest`: the live document of a key is its current version. The rows that a generation publishes
  are therefore the current versions (`Inv.publishedRows`).
-/

namespace Summa

open List Function StagedHeap

/-- The documents of a generation: `segments` are the staged segments of the builders and of the
built segments, with their rows. -/
structure Generation where
  inflight : List QueuedDocument
  segments : List (Nat × List Document)
  heap : StagedHeap

/-- What the reservations need of the row handles, in every generation. -/
structure Reserved (heap : StagedHeap) (reserved : String → Option Nat) : Prop where
  injective : ∀ {k k' r}, reserved k = some r → reserved k' = some r → k = k'
  bound : ∀ {k r}, reserved k = some r → r < heap.nextRow
  located : ∀ {r h n}, (heap.rows r).location = some (h, n) → h < heap.nextSegment

namespace Generation

/-- The handle of a document that would be published. -/
inductive Live (g : Generation) (doc : Document) (row : Nat) : Prop
  | waiting (hq : ⟨doc, row⟩ ∈ g.inflight) (hrow : g.heap.rows row = ⟨false, none⟩)
  | placed {h docs n} (hseg : (h, docs) ∈ g.segments) (hdoc : docs[n]? = some doc)
    (hrow : g.heap.rows row = ⟨false, some (h, n)⟩)

/-- Handles and staged segments agree, and each live document holds the reservation of its key. -/
structure Inv (g : Generation) (field : Field) (reserved : String → Option Nat) : Prop where
  rows_nodup : (g.inflight.map (·.row)).Nodup
  rows_bound : ∀ q ∈ g.inflight, q.row < g.heap.nextRow
  waiting : ∀ q ∈ g.inflight, (g.heap.rows q.row).location = none
  segments_nodup : (g.segments.map Prod.fst).Nodup
  segments_bound : ∀ s ∈ g.segments, s.1 < g.heap.nextSegment
  position : ∀ {h docs n}, (h, docs) ∈ g.segments →
    (n < docs.length ↔ n ∈ (g.heap.segments h).dead ∨ ∃ r, g.heap.rows r = ⟨false, some (h, n)⟩)
  alive : ∀ {h docs n r}, (h, docs) ∈ g.segments → g.heap.rows r = ⟨false, some (h, n)⟩ →
    n ∉ (g.heap.segments h).dead
  linked : ∀ {doc row}, g.Live doc row → reserved (doc.key field) = some row

variable {g g' : Generation} {field : Field} {reserved : String → Option Nat} {doc doc' : Document}
  {row row' h n : Nat} {docs : List Document} {q : QueuedDocument} {key : String}

theorem Live.active (hl : g.Live doc row) : (g.heap.rows row).cancelled = false := by
  cases hl with
  | waiting hq hrow => rw [hrow]
  | placed hseg hdoc hrow => rw [hrow]

variable (hi : g.Inv field reserved)

include hi in
/-- An active handle in a staged segment has a document. -/
theorem Inv.live_of_row (hseg : (h, docs) ∈ g.segments)
    (hrow : g.heap.rows row = ⟨false, some (h, n)⟩) : ∃ doc, docs[n]? = some doc ∧ g.Live doc row := by
  have hn := (hi.position hseg).mpr (.inr ⟨row, hrow⟩)
  exact ⟨docs[n], getElem?_eq_getElem hn, .placed hseg (getElem?_eq_getElem hn) hrow⟩

include hi in
/-- A row of a staged segment has one active handle. -/
theorem Inv.row_unique (hseg : (h, docs) ∈ g.segments)
    (hrow : g.heap.rows row = ⟨false, some (h, n)⟩)
    (hrow' : g.heap.rows row' = ⟨false, some (h, n)⟩) : row = row' := by
  obtain ⟨doc, hdoc, hlive⟩ := hi.live_of_row hseg hrow
  have hlive' : g.Live doc row' := .placed hseg hdoc hrow'
  exact Option.some.inj ((hi.linked hlive).symm.trans (hi.linked hlive'))

theorem Live.mono (hl : g.Live doc row) (hq : g.inflight ⊆ g'.inflight) (hs : g.segments ⊆ g'.segments)
    (hrows : ∀ {loc}, g.heap.rows row = ⟨false, loc⟩ → g'.heap.rows row = ⟨false, loc⟩) : g'.Live doc row := by
  rcases hl with ⟨hmem, hrow⟩ | ⟨hseg, hdoc, hrow⟩
  · exact .waiting (hq hmem) (hrows hrow)
  · exact .placed (hs hseg) hdoc (hrows hrow)

include hi in
/-- Only membership matters. -/
theorem Inv.perm (hq : g'.inflight.Perm g.inflight)
    (hs : g'.segments.Perm g.segments) (hheap : g'.heap = g.heap) :
    g'.Inv field reserved ∧ ∀ doc row, g'.Live doc row ↔ g.Live doc row := by
  obtain ⟨inflight', segments', heap'⟩ := g'
  subst hheap
  refine (and_iff_right_of_imp fun hlive => ?_).mpr fun doc row =>
    ⟨fun hl => hl.mono hq.subset hs.subset id, fun hl => hl.mono hq.symm.subset hs.symm.subset id⟩
  exact ⟨((hq.map _).nodup_iff).mpr hi.rows_nodup, fun q hmem => hi.rows_bound q (hq.mem_iff.mp hmem),
    fun q hmem => hi.waiting q (hq.mem_iff.mp hmem), ((hs.map _).nodup_iff).mpr hi.segments_nodup,
    fun s hmem => hi.segments_bound s (hs.mem_iff.mp hmem), fun hseg => hi.position (hs.mem_iff.mp hseg),
    fun hseg => hi.alive (hs.mem_iff.mp hseg), fun hl => hi.linked ((hlive _ _).mp hl)⟩

/-- A generation with nothing in it. -/
theorem Inv.empty (hq : g.inflight = []) (hnodup : (g.segments.map Prod.fst).Nodup)
    (hbound : ∀ s ∈ g.segments, s.1 < g.heap.nextSegment)
    (hdocs : ∀ {h docs}, (h, docs) ∈ g.segments → docs = [] ∧ (g.heap.segments h).dead = [] ∧
      ∀ r n, g.heap.rows r ≠ ⟨false, some (h, n)⟩) :
    g.Inv field reserved ∧ ∀ doc row, ¬ g.Live doc row := by
  refine (and_iff_right_of_imp fun hlive => ⟨by rw [hq]; exact nodup_nil, by simp [hq], by simp [hq],
    hnodup, hbound, fun {h docs n} hseg => ?_, fun {h docs n r} hseg hrow => ?_,
    fun hl => absurd hl (hlive _ _)⟩).mpr ?_
  · rintro doc row (⟨hmem, -⟩ | ⟨hseg, hdoc, -⟩)
    · rw [hq] at hmem
      cases hmem
    · rw [(hdocs hseg).1] at hdoc
      cases hdoc
  · obtain ⟨hd, hdead, hrows⟩ := hdocs hseg
    rw [hd, hdead]
    simp [hrows]
  · exact absurd hrow ((hdocs hseg).2.2 r n)

/-! ## Calls -/

section

variable (hi : g.Inv field reserved)

include hi

/-- An active handle in a staged segment is not a new one. -/
theorem Inv.ne_nextRow (hr : Reserved g.heap reserved)
    (hseg : (h, docs) ∈ g.segments) (hrow : g.heap.rows row = ⟨false, some (h, n)⟩) :
    row ≠ g.heap.nextRow := by
  obtain ⟨doc, -, hlive⟩ := hi.live_of_row hseg hrow
  exact (hr.bound (hi.linked hlive)).ne

/-- A handle that was created and not used. -/
theorem Inv.newRow (hr : Reserved g.heap reserved) :
    { g with heap := g.heap.newRow.2 }.Inv field reserved ∧
      ∀ doc row, { g with heap := g.heap.newRow.2 }.Live doc row ↔ g.Live doc row := by
  have hplaced : ∀ {h docs n r}, (h, docs) ∈ g.segments →
      (g.heap.newRow.2.rows r = ⟨false, some (h, n)⟩ ↔ g.heap.rows r = ⟨false, some (h, n)⟩) := by
    intro h docs n r hseg
    by_cases hne : r = g.heap.nextRow
    · subst hne
      rw [rows_newRow_self]
      exact ⟨nofun, fun hrow => absurd rfl (hi.ne_nextRow hr hseg hrow)⟩
    · rw [rows_newRow_ne hne]
  have hqueue : ∀ q ∈ g.inflight, g.heap.newRow.2.rows q.row = g.heap.rows q.row :=
    fun q hq => rows_newRow_ne (hi.rows_bound q hq).ne
  refine (and_iff_right_of_imp fun hlive => ⟨hi.rows_nodup,
    fun q hq => (hi.rows_bound q hq).trans (Nat.lt_succ_self _), fun q hq => ?_, hi.segments_nodup,
    hi.segments_bound, fun hseg => ?_,
    fun hseg hrow => hi.alive hseg ((hplaced hseg).mp hrow),
    fun hl => hi.linked ((hlive _ _).mp hl)⟩).mpr ?_
  · intro doc row
    constructor
    · rintro (⟨hq, hrow⟩ | ⟨hseg, hdoc, hrow⟩)
      · exact .waiting hq ((hqueue _ hq).symm.trans hrow)
      · exact .placed hseg hdoc ((hplaced hseg).mp hrow)
    · rintro (⟨hq, hrow⟩ | ⟨hseg, hdoc, hrow⟩)
      · exact .waiting hq ((hqueue _ hq).trans hrow)
      · exact .placed hseg hdoc ((hplaced hseg).mpr hrow)
  · rw [hqueue q hq]
    exact hi.waiting q hq
  · rw [hi.position hseg]
    exact or_congr_right (exists_congr fun r => (hplaced hseg).symm)

/-- A document with a new handle enters the queue and takes the reservation of its key. -/
theorem Inv.push (hrow : g.heap.rows q.row = ⟨false, none⟩)
    (hlt : q.row < g.heap.nextRow) (hnew : ∀ p ∈ g.inflight, p.row ≠ q.row)
    (hkey : reserved (q.doc.key field) = none) :
    { g with inflight := g.inflight ++ [q] }.Inv field
        (update reserved (q.doc.key field) (some q.row)) ∧
      ∀ d r, { g with inflight := g.inflight ++ [q] }.Live d r ↔
        g.Live d r ∨ d = q.doc ∧ r = q.row := by
  refine (and_iff_right_of_imp fun hlive => ⟨?_, fun p hp => ?_, fun p hp => ?_, hi.segments_nodup,
    hi.segments_bound, hi.position, hi.alive, fun {d r} hl => ?_⟩).mpr ?_
  · intro d r
    constructor
    · rintro (⟨hq, hrow'⟩ | ⟨hseg, hdoc, hrow'⟩)
      · rcases mem_append.mp hq with hq | hq
        · exact .inl (.waiting hq hrow')
        · cases mem_singleton.mp hq
          exact .inr ⟨rfl, rfl⟩
      · exact .inl (.placed hseg hdoc hrow')
    · rintro (hl | ⟨rfl, rfl⟩)
      · exact hl.mono (subset_append_left ..) (.refl _) id
      · exact .waiting (mem_append_right _ mem_cons_self) hrow
  · rw [map_append, nodup_append]
    refine ⟨hi.rows_nodup, by simp, fun r hr r' hr' => ?_⟩
    obtain ⟨p, hp, rfl⟩ := mem_map.mp hr
    rw [map_singleton, mem_singleton] at hr'
    exact hr' ▸ hnew p hp
  · rcases mem_append.mp hp with hp | hp
    · exact hi.rows_bound p hp
    · rw [mem_singleton.mp hp]
      exact hlt
  · rcases mem_append.mp hp with hp | hp
    · exact hi.waiting p hp
    · rw [mem_singleton.mp hp]
      exact congrArg RowState.location hrow
  · rcases (hlive d r).mp hl with hl | ⟨rfl, rfl⟩
    · have hlink := hi.linked hl
      rw [update_of_ne, hlink]
      intro heq
      rw [heq, hkey] at hlink
      cases hlink
    · exact update_self ..

/-- The reserved row of a key is cancelled, wherever it is. -/
theorem Inv.cancel (hr : Reserved g.heap reserved) (hkey : reserved key = some row) :
    { g with heap := g.heap.cancel row }.Inv field (update reserved key none) ∧
      ∀ d r, { g with heap := g.heap.cancel row }.Live d r ↔ g.Live d r ∧ d.key field ≠ key := by
  have hactive : ∀ {r loc}, (g.heap.cancel row).rows r = ⟨false, loc⟩ ↔
      r ≠ row ∧ g.heap.rows r = ⟨false, loc⟩ := by
    intro r loc
    by_cases hne : r = row
    · subst hne
      have hself : ((g.heap.cancel r).rows r).cancelled = true := cancelled_cancel_self
      refine ⟨fun h => ?_, fun h => absurd rfl h.1⟩
      rw [h] at hself
      cases hself
    · rw [rows_cancel_ne hne]
      exact (and_iff_right hne).symm
  refine (and_iff_right_of_imp fun hlive => ⟨hi.rows_nodup, fun q hq => ?_, fun q hq => ?_, hi.segments_nodup,
    fun s hs => ?_, fun {h docs n} hseg => ?_, fun {h docs n r} hseg hrow => ?_, fun {d r} hl => ?_⟩).mpr ?_
  · have hne : ∀ {d r}, g.Live d r → (r ≠ row ↔ d.key field ≠ key) := by
      intro d r hl
      have hlink := hi.linked hl
      refine not_congr ⟨?_, ?_⟩
      · rintro rfl
        exact hr.injective hlink hkey
      · intro heq
        rw [heq, hkey] at hlink
        exact (Option.some.inj hlink).symm
    intro d r
    constructor
    · intro hl'
      have hl : g.Live d r := hl'.mono (.refl _) (.refl _) fun hrow => (hactive.mp hrow).2
      exact ⟨hl, (hne hl).mp (hactive.mp (congrArg (RowState.mk · _) hl'.active)).1⟩
    · rintro ⟨hl, hk⟩
      exact hl.mono (.refl _) (.refl _) fun hrow => hactive.mpr ⟨(hne hl).mpr hk, hrow⟩
  · rw [nextRow_cancel]
    exact hi.rows_bound q hq
  · rw [Option.eq_none_iff_forall_ne_some]
    intro loc hloc
    have := location_cancel hloc
    rw [hi.waiting q hq] at this
    cases this
  · rw [nextSegment_cancel]
    exact hi.segments_bound s hs
  · rw [hi.position hseg, mem_dead_cancel]
    constructor
    · rintro (hdead | ⟨r, hrow⟩)
      · exact .inl (.inl hdead)
      · by_cases hne : r = row
        · subst hne
          exact .inl (.inr (by rw [hrow]; exact ⟨rfl, rfl⟩))
        · exact .inr ⟨r, hactive.mpr ⟨hne, hrow⟩⟩
    · rintro ((hdead | ⟨hc, hl⟩) | ⟨r, hrow⟩)
      · exact .inl hdead
      · exact .inr ⟨row, by rw [← hc, ← hl]⟩
      · exact .inr ⟨r, (hactive.mp hrow).2⟩
  · obtain ⟨hne, hrow⟩ := hactive.mp hrow
    rw [mem_dead_cancel]
    rintro (hdead | ⟨hc, hl⟩)
    · exact hi.alive hseg hrow hdead
    · exact hne (hi.row_unique hseg hrow (by rw [← hc, ← hl]))
  · obtain ⟨hl, hk⟩ := (hlive d r).mp hl
    rw [update_of_ne hk]
    exact hi.linked hl

end

/-! ## Workers -/

section Workers

variable {qs : List QueuedDocument} {segs : List (Nat × List Document)} {heap : StagedHeap}

/-- A queued document becomes the next row of a builder. -/
theorem Inv.attach (hi : Inv ⟨q :: qs, (h, docs) :: segs, heap⟩ field reserved)
    (hactive : (heap.rows q.row).cancelled = false) :
    Inv ⟨qs, (h, docs ++ [q.doc]) :: segs, { heap with
        rows := update heap.rows q.row ⟨false, some (h, docs.length)⟩ }⟩ field reserved ∧
      ∀ d r, Live ⟨qs, (h, docs ++ [q.doc]) :: segs, { heap with
        rows := update heap.rows q.row ⟨false, some (h, docs.length)⟩ }⟩ d r ↔
          Live ⟨q :: qs, (h, docs) :: segs, heap⟩ d r := by
  have hwait : heap.rows q.row = ⟨false, none⟩ := by
    have hnone := hi.waiting q mem_cons_self
    rw [← hactive, ← hnone]
  have hqs : ∀ p ∈ qs, p.row ≠ q.row := fun p hp heq =>
    (nodup_cons.mp hi.rows_nodup).1 (mem_map.mpr ⟨p, hp, heq⟩)
  have hsegs : ∀ {h' docs'}, (h', docs') ∈ segs → h' ≠ h := fun hs heq =>
    (nodup_cons.mp hi.segments_nodup).1 (mem_map.mpr ⟨_, hs, heq⟩)
  -- the rows of the staged segments: those of before, and the new one
  have hplaced : ∀ {h' n r}, update heap.rows q.row ⟨false, some (h, docs.length)⟩ r =
      ⟨false, some (h', n)⟩ ↔ heap.rows r = ⟨false, some (h', n)⟩ ∨
        r = q.row ∧ h' = h ∧ n = docs.length := by
    intro h' n r
    by_cases hr : r = q.row
    · subst hr
      simp [hwait, eq_comm]
    · simp [hr]
  have hlt : ∀ {n r}, heap.rows r = ⟨false, some (h, n)⟩ → n < docs.length := fun hrow =>
    (hi.position mem_cons_self).mpr (.inr ⟨_, hrow⟩)
  refine (and_iff_right_of_imp fun hlive => ⟨(nodup_cons.mp hi.rows_nodup).2,
    fun p hp => hi.rows_bound p (mem_cons_of_mem _ hp), fun p hp => ?_, hi.segments_nodup,
    fun s hs => ?_, fun {h' docs' n} hseg => ?_, fun {h' docs' n r} hseg hrow => ?_,
    fun hl => hi.linked ((hlive _ _).mp hl)⟩).mpr ?_
  · intro d r
    constructor
    · rintro (⟨hq, hrow⟩ | ⟨hseg, hdoc, hrow⟩)
      · exact .waiting (mem_cons_of_mem _ hq)
          ((update_of_ne (hqs _ hq) _ _).symm.trans hrow)
      · rcases hplaced.mp hrow with hrow | ⟨rfl, rfl, rfl⟩
        · rcases mem_cons.mp hseg with heq | hseg
          · cases heq
            rw [getElem?_append_left (hlt hrow)] at hdoc
            exact .placed mem_cons_self hdoc hrow
          · exact .placed (mem_cons_of_mem _ hseg) hdoc hrow
        · rcases mem_cons.mp hseg with heq | hseg
          · cases heq
            rw [getElem?_concat_length] at hdoc
            cases hdoc
            exact .waiting mem_cons_self hwait
          · exact absurd rfl (hsegs hseg)
    · rintro (⟨hq, hrow⟩ | ⟨hseg, hdoc, hrow⟩)
      · rcases mem_cons.mp hq with rfl | hq
        · exact .placed mem_cons_self getElem?_concat_length
            (hplaced.mpr (.inr ⟨rfl, rfl, rfl⟩))
        · exact .waiting hq ((update_of_ne (hqs _ hq) _ _).trans hrow)
      · rcases mem_cons.mp hseg with heq | hseg
        · cases heq
          exact .placed mem_cons_self ((getElem?_append_left (hlt hrow)).trans hdoc)
            (hplaced.mpr (.inl hrow))
        · exact .placed (mem_cons_of_mem _ hseg) hdoc (hplaced.mpr (.inl hrow))
  · exact (congrArg RowState.location (update_of_ne (hqs p hp) _ _)).trans
      (hi.waiting p (mem_cons_of_mem _ hp))
  · rcases mem_cons.mp hs with rfl | hs
    · exact hi.segments_bound (h, docs) mem_cons_self
    · exact hi.segments_bound s (mem_cons_of_mem _ hs)
  · simp only [hplaced]
    rcases mem_cons.mp hseg with heq | hseg
    · cases heq
      have hpos := hi.position (n := n) mem_cons_self
      rw [length_append, length_singleton, Nat.lt_succ_iff_lt_or_eq, hpos, or_assoc]
      refine or_congr_right ⟨?_, ?_⟩
      · rintro (⟨r, hrow⟩ | hn)
        · exact ⟨r, .inl hrow⟩
        · exact ⟨q.row, .inr ⟨rfl, rfl, hn⟩⟩
      · rintro ⟨r, hrow | ⟨-, -, hn⟩⟩
        · exact .inl ⟨r, hrow⟩
        · exact .inr hn
    · rw [hi.position (mem_cons_of_mem _ hseg)]
      simp [hsegs hseg]
  · rcases hplaced.mp hrow with hrow | ⟨rfl, rfl, rfl⟩
    · rcases mem_cons.mp hseg with heq | hseg
      · cases heq
        exact hi.alive mem_cons_self hrow
      · exact hi.alive (mem_cons_of_mem _ hseg) hrow
    · intro hdead
      exact absurd ((hi.position mem_cons_self).mpr (.inl hdead)) (Nat.lt_irrefl _)

/-- A document that was cancelled in the queue is skipped. -/
theorem Inv.skip (hi : Inv ⟨q :: qs, segs, heap⟩ field reserved) (hc : (heap.rows q.row).cancelled = true) :
    Inv ⟨qs, segs, heap⟩ field reserved ∧
      ∀ d r, Live ⟨qs, segs, heap⟩ d r ↔ Live ⟨q :: qs, segs, heap⟩ d r := by
  refine (and_iff_right_of_imp fun hlive => ⟨(nodup_cons.mp hi.rows_nodup).2,
    fun p hp => hi.rows_bound p (mem_cons_of_mem _ hp),
    fun p hp => hi.waiting p (mem_cons_of_mem _ hp), hi.segments_nodup, hi.segments_bound,
    hi.position, hi.alive, fun hl => hi.linked ((hlive _ _).mp hl)⟩).mpr ?_
  · intro d r
    constructor
    · exact fun hl => hl.mono (subset_cons_self ..) (.refl _) id
    · intro hl
      have hact := hl.active
      rcases hl with ⟨hq, hrow⟩ | ⟨hseg, hdoc, hrow⟩
      · rcases mem_cons.mp hq with rfl | hq
        · exact absurd (hact.symm.trans hc) nofun
        · exact .waiting hq hrow
      · exact .placed hseg hdoc hrow

/-- A builder starts with a new staged segment. -/
theorem Inv.newSegment (hi : Inv ⟨qs, segs, heap⟩ field reserved) (hr : Reserved heap reserved) :
    Inv ⟨qs, (heap.newSegment.1, []) :: segs, heap.newSegment.2⟩ field reserved ∧
      ∀ d r, Live ⟨qs, (heap.newSegment.1, []) :: segs, heap.newSegment.2⟩ d r ↔
        Live ⟨qs, segs, heap⟩ d r := by
  have hold : ∀ {h docs}, (h, docs) ∈ segs →
      heap.newSegment.2.segments h = heap.segments h := fun hseg =>
    segments_newSegment_ne (hi.segments_bound _ hseg).ne
  refine (and_iff_right_of_imp fun hlive => ⟨hi.rows_nodup, hi.rows_bound, hi.waiting, ?_, fun s hs => ?_,
    fun {h docs n} hseg => ?_,
    fun {h docs n r} hseg hrow => ?_, fun hl => hi.linked ((hlive _ _).mp hl)⟩).mpr ?_
  · intro d r
    constructor
    · rintro (⟨hq, hrow⟩ | ⟨hseg, hdoc, hrow⟩)
      · exact .waiting hq hrow
      · rcases mem_cons.mp hseg with heq | hseg
        · cases heq
          cases hdoc
        · exact .placed hseg hdoc hrow
    · exact fun hl => hl.mono (.refl _) (subset_cons_self ..) id
  · refine nodup_cons.mpr ⟨fun hmem => ?_, hi.segments_nodup⟩
    obtain ⟨s, hs, heq⟩ := mem_map.mp hmem
    exact absurd (hi.segments_bound s hs) (heq ▸ Nat.lt_irrefl _)
  · rcases mem_cons.mp hs with rfl | hs
    · exact Nat.lt_succ_self _
    · exact (hi.segments_bound s hs).trans (Nat.lt_succ_self _)
  · rcases mem_cons.mp hseg with heq | hseg
    · cases heq
      refine ⟨nofun, fun hn => ?_⟩
      rcases hn with hdead | ⟨r, hrow⟩
      · have hnew : heap.newSegment.2.segments heap.nextSegment = ⟨[]⟩ :=
          segments_newSegment_self
        exact absurd (hnew ▸ hdead) not_mem_nil
      · exact absurd (hr.located (congrArg RowState.location hrow)) (Nat.lt_irrefl _)
    · rw [hold hseg]
      exact hi.position hseg
  · rcases mem_cons.mp hseg with heq | hseg
    · cases heq
      exact absurd (hr.located (congrArg RowState.location hrow)) (Nat.lt_irrefl _)
    · rw [hold hseg]
      exact hi.alive hseg hrow

include hi in
/-- Builders without documents are left when the segments of a generation are taken away. -/
theorem Inv.restrict (hsub : segs.Sublist g.segments)
    (hdocs : ∀ {h docs}, (h, docs) ∈ segs → docs = []) {reserved' : String → Option Nat} :
    Inv ⟨[], segs, g.heap⟩ field reserved' ∧ ∀ d r, ¬ Live ⟨[], segs, g.heap⟩ d r := by
  refine Inv.empty rfl (hi.segments_nodup.sublist (hsub.map _))
    (fun s hs => hi.segments_bound s (hsub.subset hs)) fun {h docs} hs => ?_
  have hpos := fun n => hi.position (n := n) (hsub.subset hs)
  obtain rfl := hdocs hs
  refine ⟨rfl, eq_nil_iff_forall_not_mem.mpr fun n hn => ?_, fun r n hrow => ?_⟩
  · exact absurd ((hpos n).mpr (.inl hn)) (Nat.not_lt_zero n)
  · exact absurd ((hpos n).mpr (.inr ⟨r, hrow⟩)) (Nat.not_lt_zero n)

end Workers

/-! ## Publication -/

/-- The rows with `f` that are published with the dead rows hidden. -/
def visibleRows (g : Generation) (f : Document → Bool) : List Document :=
  g.segments.flatMap fun s =>
    (select (fun n => !(g.heap.segments s.1).dead.contains n) s.2).filter f

include hi in
theorem Inv.live_of_position (hseg : (h, docs) ∈ g.segments)
    (hdoc : docs[n]? = some doc) (hn : (!(g.heap.segments h).dead.contains n) = true) :
    ∃ r, g.heap.rows r = ⟨false, some (h, n)⟩ ∧ g.Live doc r := by
  rw [Bool.not_eq_true', contains_eq_mem, decide_eq_false_iff_not] at hn
  obtain ⟨hlt, -⟩ := List.getElem?_eq_some_iff.mp hdoc
  obtain hdead | ⟨r, hrow⟩ := (hi.position hseg).mp hlt
  · exact absurd hdead hn
  · exact ⟨r, hrow, .placed hseg hdoc hrow⟩

include hi in
theorem Inv.visibleRows_eq_nil (hidle : ∀ d r, g.Live d r → d.key field ≠ key) :
    g.visibleRows (fun d => d.key field = key) = [] := by
  rw [visibleRows, flatMap_eq_nil_iff]
  rintro ⟨h, docs⟩ hseg
  refine filter_select_eq_nil fun n d hd hn => ?_
  obtain ⟨r, -, hl⟩ := hi.live_of_position hseg hd hn
  exact decide_eq_false (hidle d r hl)

include hi in
/-- All documents are in segments: the only visible row of a key is its live document. -/
theorem Inv.visibleRows_eq_singleton (hq : g.inflight = [])
    (hl : g.Live doc row) : g.visibleRows (fun d => d.key field = doc.key field) = [doc] := by
  have hlink := hi.linked hl
  rcases hl with ⟨hmem, -⟩ | @⟨h, docs, n, hseg, hdoc, hrow⟩
  · rw [hq] at hmem
    cases hmem
  have hplace : ∀ {h' docs' j d}, (h', docs') ∈ g.segments → docs'[j]? = some d →
      (!(g.heap.segments h').dead.contains j) = true → d.key field = doc.key field →
      h' = h ∧ j = n := by
    intro h' docs' j d hseg' hd hj hkey
    obtain ⟨r, hr, hl'⟩ := hi.live_of_position hseg' hd hj
    have hlink' := hi.linked hl'
    rw [hkey, hlink] at hlink'
    cases hlink'
    rw [hrow] at hr
    cases hr
    exact ⟨rfl, rfl⟩
  have hmine : (select (fun n => !(g.heap.segments h).dead.contains n) docs).filter
      (fun d => d.key field = doc.key field) = [doc] := by
    refine filter_select_eq_singleton hdoc ?_ (decide_eq_true rfl) fun j d hd hj hkey =>
      (hplace hseg hd hj (of_decide_eq_true hkey)).2
    rw [Bool.not_eq_true', contains_eq_mem, decide_eq_false_iff_not]
    exact hi.alive hseg hrow
  have hother : ∀ s ∈ g.segments, s.1 ≠ h →
      (select (fun n => !(g.heap.segments s.1).dead.contains n) s.2).filter
        (fun d => d.key field = doc.key field) = [] := by
    rintro ⟨h', docs'⟩ hseg' hne
    exact filter_select_eq_nil fun j d hd hj =>
      decide_eq_false fun hkey => hne (hplace hseg' hd hj hkey).1
  obtain ⟨pre, post, hsplit⟩ := append_of_mem hseg
  have hnodup := hi.segments_nodup
  rw [hsplit, map_append, map_cons, nodup_middle, nodup_cons, mem_append,
    not_or] at hnodup
  rw [visibleRows, hsplit, flatMap_append, flatMap_cons, hmine,
    flatMap_eq_nil_iff.mpr, flatMap_eq_nil_iff.mpr]
  · rfl
  · intro s hs
    exact hother s (by rw [hsplit]; simp [hs]) fun heq =>
      hnodup.1.2 (mem_map.mpr ⟨s, hs, heq⟩)
  · intro s hs
    exact hother s (by rw [hsplit]; simp [hs]) fun heq =>
      hnodup.1.1 (mem_map.mpr ⟨s, hs, heq⟩)

end Generation

/-! ## Reservations -/

namespace Reserved

variable {heap : StagedHeap} {reserved : String → Option Nat} {row h n : Nat} {key : String}

section

variable (hr : Reserved heap reserved)

include hr

theorem newRow : Reserved heap.newRow.2 reserved where
  injective := hr.injective
  bound hk := (hr.bound hk).trans (Nat.lt_succ_self _)
  located {r h n} hloc := by
    by_cases hne : r = heap.nextRow
    · rw [hne, rows_newRow_self] at hloc
      cases hloc
    · rw [rows_newRow_ne hne] at hloc
      exact hr.located hloc

/-- The handle that was created last is reserved. -/
theorem reserve : Reserved heap.newRow.2 (update reserved key (some heap.newRow.1)) := by
  have hold : ∀ {k r}, update reserved key (some heap.newRow.1) k = some r →
      (k = key ∧ r = heap.nextRow) ∨ reserved k = some r ∧ r < heap.nextRow := by
    intro k r hk
    rcases update_eq_some hk with ⟨hself, hk⟩ | ⟨-, hk⟩
    · exact .inl ⟨hself, (Option.some.inj hk).symm⟩
    · exact .inr ⟨hk, hr.bound hk⟩
  refine ⟨fun {k k' r} hk hk' => ?_, fun {k r} hk => ?_, hr.newRow.located⟩
  · rcases hold hk with ⟨rfl, rfl⟩ | ⟨hk, hlt⟩ <;> rcases hold hk' with ⟨rfl, heq⟩ | ⟨hk', hlt'⟩
    · rfl
    · exact absurd hlt' (Nat.lt_irrefl _)
    · exact absurd heq hlt.ne
    · exact hr.injective hk hk'
  · rcases hold hk with ⟨-, rfl⟩ | ⟨-, hlt⟩
    · exact Nat.lt_succ_self _
    · exact hlt.trans (Nat.lt_succ_self _)

theorem release : Reserved (heap.cancel row) (update reserved key none) := by
  refine ⟨fun hk hk' => hr.injective (of_update_none hk).2 (of_update_none hk').2, fun hk => ?_, fun hloc => ?_⟩
  · rw [nextRow_cancel]
    exact hr.bound (of_update_none hk).2
  · rw [nextSegment_cancel]
    exact hr.located (location_cancel hloc)

theorem attach (hh : h < heap.nextSegment) :
    Reserved { heap with rows := update heap.rows row ⟨false, some (h, n)⟩ } reserved where
  injective := hr.injective
  bound := hr.bound
  located {r h' n'} hloc := by
    replace hloc : (update heap.rows row ⟨false, some (h, n)⟩ r).location = some (h', n') :=
      hloc
    by_cases hne : r = row
    · rw [hne, update_self] at hloc
      cases hloc
      exact hh
    · rw [update_of_ne hne] at hloc
      exact hr.located hloc

theorem newSegment : Reserved heap.newSegment.2 reserved :=
  ⟨hr.injective, hr.bound, fun hloc => (hr.located hloc).trans (Nat.lt_succ_self _)⟩

theorem clear : Reserved heap fun _ => none :=
  ⟨nofun, nofun, hr.located⟩

omit hr in
theorem empty (h : ∀ r, (heap.rows r).location = none) : Reserved heap fun _ => none :=
  ⟨nofun, nofun, fun {r _ _} hloc => by rw [h r] at hloc; cases hloc⟩

end

end Reserved

/-! ## Versions -/

/-- The live documents of a generation are the current versions of their keys; the other keys have
their committed version, unless they are deleted. -/
structure Latest (field : Field) (live : Document → Prop) (deletes : List String) (v : Versions) :
    Prop where
  current : ∀ {doc}, live doc → v.current (doc.key field) = some doc
  idle : ∀ {k}, (∀ doc, live doc → doc.key field ≠ k) →
    v.current k = if k ∈ deletes then none else v.committed k
  /-- A document hides a committed version only with a deletion of its key. -/
  fresh : ∀ {doc}, live doc → doc.key field ∉ deletes → v.committed (doc.key field) = none

namespace Latest

variable {field : Field} {live live' : Document → Prop} {deletes deletes' : List String}
  {v : Versions} {doc : Document} {key : String}

theorem congr (hl : Latest field live deletes v) (h : ∀ doc, live' doc ↔ live doc) :
    Latest field live' deletes v :=
  (funext fun doc => propext (h doc) : live' = live) ▸ hl

/-- A generation without documents and deletions. -/
theorem of_empty (hlive : ∀ doc, ¬ live doc) (hcur : v.current = v.committed) : Latest field live [] v :=
  ⟨fun h => absurd h (hlive _), fun _ => by rw [hcur, if_neg not_mem_nil],
    fun h => absurd h (hlive _)⟩

/-- A new version of a key that has no live document and no committed version left. -/
theorem insert (hl : Latest field live deletes v) (hidle : ∀ d, live d → d.key field ≠ doc.key field)
    (hdel : doc.key field ∈ deletes ∨ v.committed (doc.key field) = none)
    (hlive : ∀ d, live' d ↔ live d ∨ d = doc) :
    Latest field live' deletes (v.set (doc.key field) (some doc)) := by
  refine ⟨fun {d} hd => ?_, fun {k} hk => ?_, fun {d} hd hno => ?_⟩
  · rcases (hlive d).mp hd with hd | rfl
    · rw [Versions.set_current_ne (hidle d hd), hl.current hd]
    · exact Versions.set_current_self
  · rw [Versions.set_current_ne fun heq => hk doc ((hlive doc).mpr (.inr rfl)) heq.symm]
    exact hl.idle fun d hd => hk d ((hlive d).mpr (.inl hd))
  · rcases (hlive d).mp hd with hd | rfl
    · exact hl.fresh hd hno
    · exact hdel.resolve_left hno

/-- The key is deleted and loses its live document. -/
theorem remove (hl : Latest field live deletes v) (hdel : ∀ k, k ∈ deletes' ↔ k ∈ deletes ∨ k = key)
    (hlive : ∀ d, live' d ↔ live d ∧ d.key field ≠ key) : Latest field live' deletes' (v.set key none) := by
  refine ⟨fun {d} hd => ?_, fun {k} hk => ?_, fun {d} hd hno => ?_⟩
  · obtain ⟨hd, hne⟩ := (hlive d).mp hd
    rw [Versions.set_current_ne hne, hl.current hd]
  · by_cases heq : k = key
    · rw [heq, Versions.set_current_self, if_pos ((hdel key).mpr (.inr rfl))]
    · rw [Versions.set_current_ne heq, hl.idle fun d hd hkey =>
        hk d ((hlive d).mpr ⟨hd, hkey ▸ heq⟩) hkey]
      simp only [hdel, heq, or_false]
      rfl
  · exact hl.fresh ((hlive d).mp hd).1 fun hmem => hno ((hdel _).mpr (.inl hmem))

end Latest

/-- **Publication.** Of each key, the committed rows that are not deleted and the visible rows of the
generation are together its current version. -/
theorem Generation.Inv.publishedRows {g : Generation} {field : Field}
    {reserved : String → Option Nat} {deletes : List String} {v : Versions}
    (hi : g.Inv field reserved) (hl : Latest field (fun d => ∃ r, g.Live d r) deletes v)
    (hq : g.inflight = []) (key : String) :
    ((if key ∈ deletes then none else v.committed key).toList : Multiset Document) +
      (g.visibleRows fun d => d.key field = key : List Document) = (v.current key).toList := by
  by_cases hlive : ∃ d r, g.Live d r ∧ d.key field = key
  · obtain ⟨d, r, hd, rfl⟩ := hlive
    have hnone : (if d.key field ∈ deletes then none else v.committed (d.key field)) = none := by
      split
      · rfl
      · exact hl.fresh ⟨r, hd⟩ ‹_›
    rw [hnone, hi.visibleRows_eq_singleton hq hd, hl.current ⟨r, hd⟩]
    rfl
  · rw [not_exists] at hlive
    have hidle : ∀ d r, g.Live d r → d.key field ≠ key :=
      fun d r hd hkey => hlive d ⟨r, hd, hkey⟩
    rw [hi.visibleRows_eq_nil hidle, hl.idle fun d hd => hidle d hd.choose hd.choose_spec]
    simp

end Summa
