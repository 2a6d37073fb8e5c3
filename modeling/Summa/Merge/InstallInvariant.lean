import Summa.Merge.Invariant

/-!
# Publications keep the lifecycle invariant

`Installable s outputs pub` collects what a publication needs: it owns and retires as `OwnsSpec`
says, its state is well formed, its outputs are claimed by nobody else who uses them, and the
segments that running operations claim stay published with their records. `Inv.install` then gives
the invariant after any of the three transactions.
-/

namespace Summa

namespace Manager

variable {ρ : Type} {s s' : Manager ρ} {t : Nat} {op : Operation ρ}

/-- What a publication needs of the state it is installed in. -/
structure Installable (s : Manager ρ) (outputs : List SegmentId) (pub : Publication) : Prop where
  owns : OwnsSpec s.metadata outputs pub
  wellFormed : WellFormed (s.dir.writeAll pub.written) pub.next
  written : ∀ w ∈ pub.written, w.1 ∉ s.used
  outputs : ∀ i ∈ outputs, i ∉ s.detached ∧ s.tracker.isDeletionProtected i = false ∧
    ∀ t op, s.ops t = some op → i ∈ op.guard.segmentIds →
      op.task.isClosed = true ∨ op.task = .segment i ∧ pub.next.get i ≠ none
  /-- The segments of running operations stay. -/
  kept : ∀ t op, s.ops t = some op → op.task.isClosed = false → ∀ i ∈ op.guard.segmentIds,
    s.metadata.get i ≠ none → pub.next.get i ≠ none
  /-- A segment with an old mask has its old record. -/
  records : ∀ i info' deletion, s.metadata.get i ≠ none → pub.next.get i = some info' →
    info'.deletions = some deletion → deletion.id ∈ s.used →
      ∃ info, s.metadata.get i = some info ∧ info.deletions = info'.deletions ∧
        info.numDocs = info'.numDocs

namespace Installable

variable {outputs : List SegmentId} {pub : Publication} (hi : s.Installable outputs pub) (h : s.Inv)

include hi

variable {i : SegmentId}

theorem not_written (hu : i ∈ s.used) : i ∉ pub.written.map Prod.fst := by
  intro hmem
  obtain ⟨w, hw, rfl⟩ := List.mem_map.mp hmem
  exact hi.written w hw hu

theorem dir_eq (hu : i ∈ s.used) : s.dir.writeAll pub.written i = s.dir i :=
  Directory.writeAll_of_not_mem (hi.not_written hu)

theorem mem_ownedIds_iff (i : SegmentId) : i ∈ pub.next.ownedIds ↔
    (i ∈ s.metadata.ownedIds ∨ i ∈ pub.registered) ∧ i ∉ pub.retired := by
  constructor
  · exact fun hmem => ⟨hi.owns.registers i hmem, fun hr => (hi.owns.retired i hr).2 hmem⟩
  · rintro ⟨hmem | hmem, hr⟩
    · by_contra hno
      exact hr (hi.owns.lost i hmem hno)
    · exact hi.owns.registered i hmem

/-- Only retired identities become protected. -/
theorem protected_of_install (hp : (s.install pub).tracker.isDeletionProtected i = true) :
    s.tracker.isDeletionProtected i = true ∨ i ∈ s.metadata.ownedIds ∧ i ∉ pub.next.ownedIds := by
  rcases SegmentTracker.isDeletionProtected_of_mark hp with hp | hr
  · rw [SegmentTracker.isDeletionProtected_registerAll] at hp
    exact .inl hp
  · exact .inr (hi.owns.retired i hr)

include h

theorem registered_not_protected (hmem : i ∈ pub.registered) : s.tracker.isDeletionProtected i = false := by
  rcases hi.owns.owned i (hi.owns.registered i hmem) with ho | ho | hw
  · exact h.tracker.not_protected ho
  · exact (hi.outputs i ho).2.1
  · rw [← Bool.not_eq_true]
    exact fun hp => hi.not_written (h.used_tracker i hp) hw

theorem trackerOk : TrackerOk
    ((pub.registered.foldl SegmentTracker.register s.tracker).markForDeletion pub.retired).1
    s.held (· ∈ pub.next.ownedIds) := by
  have hreg := h.tracker.registerAll fun i hmem => hi.registered_not_protected h hmem
  have hmark := hreg.markForDeletion pub.retired
  rwa [← funext fun i => propext (hi.mem_ownedIds_iff i)] at hmark

/-- A claimed identity of a running operation that is not published stays so. -/
theorem not_owned (hop : s.ops t = some op) (hg : i ∈ op.guard.segmentIds)
    (hclosed : op.task.isClosed = false) (hseg : op.task ≠ .segment i)
    (hno : i ∉ s.metadata.ownedIds) : i ∉ pub.next.ownedIds := by
  intro hmem
  rcases hi.owns.owned i hmem with ho | ho | hw
  · exact hno ho
  · rcases (hi.outputs i ho).2.2 t op hop hg with hc | ⟨hs, -⟩
    · rw [hclosed] at hc; cases hc
    · exact hseg hs
  · exact hi.not_written (h.used_guard t op hop i hg) hw

theorem liveRows_eq {info' : SegmentMetaInfo} {deletion : DeletionMeta}
    (hm : s.metadata.get i ≠ none) (hg : pub.next.get i = some info')
    (hd : info'.deletions = some deletion) (hu : deletion.id ∈ s.used) :
    ∃ info, s.metadata.get i = some info ∧ info.deletions = some deletion ∧
      liveRows (s.dir.writeAll pub.written) pub.next i = liveRows s.dir s.metadata i := by
  obtain ⟨info, hinfo, hdel, hnum⟩ := hi.records i info' deletion hm hg hd hu
  refine ⟨info, hinfo, hdel.trans hd, liveRows_congr hinfo hg hdel hnum ?_ fun m hm => ?_⟩
  · exact hi.dir_eq (h.used_of_owned (mem_ownedIds_self hinfo))
  · exact hi.dir_eq (h.used_of_owned (mem_ownedIds_mask hinfo hm))

theorem contentOk (hop : s.ops t = some op) : op.task.ContentOk (s.dir.writeAll pub.written) pub.next
    (s.used ∪ (pub.written.map Prod.fst).toFinset) := by
  have hok := h.ops t op hop
  refine ContentOk.change hok.content Finset.subset_union_left (fun i f ho hf => .inl ?_) (fun i hs => ?_)
    fun i hs info' deletion hg hd hu => hi.liveRows_eq h (hok.sources i hs).2 hg hd hu
  · rwa [hi.dir_eq (h.used_guard t op hop i (hok.output i ho).1)] at hf
  · exact Directory.rows_congr (hi.dir_eq (h.used_guard t op hop i (hok.sources i hs).1))

theorem opOk (hop : s.ops t = some op) : (s.install pub).OpOk op := by
  have hok := h.ops t op hop
  have hclosed : ∀ i, op.task.output = some i ∨ op.task.deletes = some i ∨ i ∈ op.task.sources →
      op.task.isClosed = false := by
    intro i hcase
    cases htask : op.task with
    | closed output => rw [htask] at hcase; simp [Task.output, Task.deletes, Task.sources] at hcase
    | _ => rfl
  have hpub : ∀ i, op.task = .segment i → i ∈ op.guard.segmentIds → i ∈ s.metadata.ownedIds →
      pub.next.get i ≠ none := fun i hseg hg ho =>
    hi.kept t op hop (by rw [hseg]; rfl) i hg (hok.segment i hseg ho)
  refine ⟨hok.claims, fun i ho => ?_, fun i hseg ho => ?_, fun i ho hseg => ?_, fun i hs => ?_,
    fun i hd => ?_, hok.cleanup, hok.nodup, hi.contentOk h hop⟩
  · obtain ⟨hg, hp, hd, ht⟩ := hok.output i ho
    refine ⟨hg, hp, hd, ?_⟩
    rw [← Bool.not_eq_true] at ht ⊢
    intro hprot
    rcases hi.protected_of_install hprot with hprot | ⟨hown, hno⟩
    · exact ht hprot
    · by_cases hseg : op.task = .segment i
      · obtain ⟨info, hinfo⟩ := Option.ne_none_iff_exists'.mp (hpub i hseg hg hown)
        exact hno (mem_ownedIds_self hinfo)
      · exact hok.unpublished i ho hseg hown
  · have hg := (hok.output i (by rw [hseg]; rfl)).1
    rcases hi.owns.owned i ho with hown | hout | hw
    · exact hpub i hseg hg hown
    · rcases (hi.outputs i hout).2.2 t op hop hg with hc | ⟨-, hne⟩
      · rw [hseg] at hc; cases hc
      · exact hne
    · exact absurd hw (hi.not_written (h.used_guard t op hop i hg))
  · exact hi.not_owned h hop (hok.output i ho).1 (hclosed i (.inl ho)) hseg (hok.unpublished i ho hseg)
  · obtain ⟨hg, hne⟩ := hok.sources i hs
    exact ⟨hg, hi.kept t op hop (hclosed i (.inr (.inr hs))) i hg hne⟩
  · obtain ⟨hg, hno, ht⟩ := hok.deletes i hd
    have hseg : op.task ≠ .segment i := fun heq => by rw [heq] at hd; cases hd
    refine ⟨hg, hi.not_owned h hop hg (hclosed i (.inr (.inl hd))) hseg hno, ?_⟩
    rw [← Bool.not_eq_true] at ht ⊢
    intro hprot
    rcases hi.protected_of_install hprot with hprot | ⟨hown, -⟩
    · exact ht hprot
    · exact hno hown

/-- A publication keeps the invariant. -/
theorem inv : (s.install pub).Inv where
  active := h.active
  tracker := hi.trackerOk h
  wellFormed := hi.wellFormed
  rows i rows hrows := h.rows i rows (Directory.rows_of_writeAll hrows)
  used_dir i hne := by
    rcases Directory.ne_none_of_writeAll hne with hd | hw
    · exact Finset.mem_union_left _ (h.used_dir i hd)
    · exact Finset.mem_union_right _ (List.mem_toFinset.mpr hw)
  used_guard t op hop i hg := Finset.mem_union_left _ (h.used_guard t op hop i hg)
  used_cleanup i hc := Finset.mem_union_left _ (h.used_cleanup i hc)
  used_tracker i hp := by
    refine Finset.mem_union_left _ ?_
    rcases hi.protected_of_install hp with hp | ⟨hown, -⟩
    · exact h.used_tracker i hp
    · exact h.used_of_owned hown
  ops _ _ hop := hi.opOk h hop
  detached i hd hmem := by
    rcases hi.owns.owned i hmem with ho | ho | hw
    · exact h.detached i hd ho
    · exact (hi.outputs i ho).1 hd
    · exact hi.not_written (h.used_cleanup i (.inr hd)) hw

end Installable

end Manager

end Summa
