import Mathlib.Algebra.Order.BigOperators.Group.List
import Summa.Merge.LifecycleRows

/-!
# Which files a deletion may take

In every state that the lifecycle reaches, the claimed identities are the disjoint union of the live
guards (`ClaimsPartition`), and no step deletes a file that the metadata references (`SafeDeletion`).
The tracker and the operations that delete under their own claim also leave the files of snapshots
and of running operations alone. A closed operation (one that has published or given up) may lose a
file that its guard still names, and the cleanup of a dropped operation looks at the metadata only.
-/

namespace Summa

namespace Manager

variable {ρ : Type} {s s' : Manager ρ} {t : Nat} {op : Operation ρ}

/-- The claimed identities are the disjoint union of the identities of the live guards. -/
structure ClaimsPartition (s : Manager ρ) : Prop where
  union : ∀ i, i ∈ s.active.segmentIds ↔ ∃ t op, s.ops t = some op ∧ i ∈ op.guard.segmentIds
  disjoint : ∀ t t' op op' i, s.ops t = some op → s.ops t' = some op' → i ∈ op.guard.segmentIds →
    i ∈ op'.guard.segmentIds → t = t'

/-- What the deletion of `id` by `who` leaves alone. -/
structure SafeDeletion (s : Manager ρ) (who : Deleter) (id : SegmentId) : Prop where
  metadata : id ∉ s.metadata.ownedIds
  /-- An identity of a snapshot is taken only by the cleanup of a dropped operation, and only once it is retired. -/
  snapshots : ∀ snap ∈ s.snapshots, id ∈ snap → who = .detached ∧ id ∈ s.tracker.pendingDeletions
  /-- Another operation with a claim on `id` is closed. -/
  claims : who ≠ .detached → ∀ t op, s.ops t = some op → id ∈ op.guard.segmentIds →
    who = .claimed t ∨ op.task.isClosed = true

theorem Inv.claimsPartition (h : s.Inv) : s.ClaimsPartition where
  union i := by
    rw [h.active.segmentIds]
    constructor
    · rintro ⟨t, g, hg, hi⟩
      obtain ⟨op, hop, rfl⟩ := guards_eq_some.mp hg
      exact ⟨t, op, hop, hi⟩
    · rintro ⟨t, op, hop, hi⟩
      exact ⟨t, op.guard, guards_eq_some.mpr ⟨op, hop, rfl⟩, hi⟩
  disjoint t t' op op' i hop hop' hi hi' := (h.op_eq hop' hop hi' hi).1

theorem held_pos {snap : List SegmentId} {i : SegmentId} (hsnap : snap ∈ s.snapshots) (hi : i ∈ snap) :
    0 < s.held i := by
  have hle : snap.count i ≤ s.held i :=
    List.single_le_sum (fun _ _ => Nat.zero_le _) _ (List.mem_map_of_mem hsnap)
  exact (List.count_pos_iff.mpr hi).trans_le hle

/-- A running operation claims nothing that the tracker has retired. -/
theorem Inv.closed_of_scheduled (h : s.Inv) {id : SegmentId}
    (hid : id ∈ s.tracker.scheduledDeletions) (hop : s.ops t = some op)
    (hg : id ∈ op.guard.segmentIds) : op.task.isClosed = true := by
  have hok := h.ops t op hop
  have hprot := SegmentTracker.isDeletionProtected_iff.mpr (.inr hid)
  rcases hok.claims id hg with hc | ho | hs | hd
  · exact hc
  · rw [(hok.output id ho).2.2.2] at hprot
    cases hprot
  · obtain ⟨info, hinfo⟩ := Option.ne_none_iff_exists'.mp (hok.sources id hs).2
    exact absurd hid (h.tracker.owned_not_scheduled (mem_ownedIds_self hinfo))
  · rw [(hok.deletes id hd).2.2] at hprot
    cases hprot

theorem Inv.safeDeletion (h : s.Inv) {who : Deleter} {id : SegmentId}
    (hstep : Step s (.delete who id) s') : s.SafeDeletion who id := by
  have hown := (h.deletes_not_owned hstep).1
  refine ⟨hown, fun snap hsnap hid => ?_, fun hwho t op hop hg => ?_⟩
  · have hpos : 0 < s.held id := held_pos hsnap hid
    have hpend := (h.tracker.held_owned id hpos).resolve_left hown
    refine ⟨?_, hpend⟩
    cases hstep with
    | deleteClaimed hop htask =>
      obtain ⟨-, -, hprot⟩ := (h.ops _ _ hop).deletes id htask
      rw [SegmentTracker.isDeletionProtected_iff.mpr (.inl hpend)] at hprot
      cases hprot
    | deleteRetired hsched =>
      rw [h.tracker.scheduled_not_held hsched] at hpos
      cases hpos
    | deleteDetached => rfl
  · cases hstep with
    | deleteClaimed hop' htask =>
      obtain ⟨rfl, -⟩ := h.op_eq hop' hop ((h.ops _ _ hop').deletes id htask).1 hg
      exact .inl rfl
    | deleteRetired hid => exact .inr (h.closed_of_scheduled hid hop hg)
    | deleteDetached => exact absurd rfl hwho

/-- A deletion can take a file that another guard still claims. Two commits delete rows of one segment, and the second
retires the mask of the first, whose guard is not dropped yet. -/
theorem reach_retired_mask : ∃ s s' : Manager String, ∃ op, (lifecycle String).Reach s ∧
    Step s (.delete .retired 10) s' ∧ s.ops 0 = some op ∧ 10 ∈ op.guard.segmentIds := by
  refine ⟨_, _, _, .step (.step (.init init_twoSegments)
    (show Step _ (.commit (stringEnv 10) [] ["a"] []) _ from
      .commit (nofun) (stringEnv_injective 10) (stringEnv_not_mem (by decide)) rfl rfl))
    (show Step _ (.commit (stringEnv 20) [] ["b"] []) _ from
      .commit (nofun) (stringEnv_injective 20) ?_ rfl rfl),
    .deleteRetired ?_, rfl, ?_⟩
  · exact stringEnv_not_mem (by decide)
  · decide +kernel
  · decide

/-- The vector rewrite of one segment with one row. -/
def rewriteTo (source output : SegmentId) : Replacement where
  oldIds := [source]
  newId := output
  docCount := 1
  layout := .preserveSingleSource
  expectedDeletions := none

end Manager

end Summa
