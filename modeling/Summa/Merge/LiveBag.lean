import Mathlib.Algebra.BigOperators.Group.Finset.Basic
import Summa.Merge.LifecycleRows

/-!
# The live rows of an index as a whole

`Manager.rowsOf s f` is the bag of live rows that satisfy `f`, over all published segments. A commit
removes the rows of the deleted keys and adds the rows of its new segments (`rowsOf_commit`); every
other step of the lifecycle keeps the bag (`Inv.rowsOf_step`).
-/

namespace Summa

open List IndexMetadata

namespace Manager

variable {ρ : Type} {s s' : Manager ρ} {t : Nat} {op : Operation ρ} (f : ρ → Bool)

/-- The live rows that satisfy `f`, of all published segments. -/
def rowsOf (s : Manager ρ) : Multiset ρ :=
  ∑ id ∈ s.metadata.segmentIds.toFinset, ((s.live id).filter f : Multiset ρ)

theorem mem_segmentIds_toFinset {md : IndexMetadata} {id : SegmentId} :
    id ∈ md.segmentIds.toFinset ↔ md.hasSegment id = true := by
  rw [mem_toFinset, mem_segmentIds, hasSegment_iff]

/-- Any larger set of segments gives the same bag. -/
theorem rowsOf_eq_sum {S : Finset SegmentId} (h : ∀ id, s.metadata.hasSegment id = true → id ∈ S) :
    s.rowsOf f = ∑ id ∈ S, ((s.live id).filter f : Multiset ρ) := by
  refine Finset.sum_subset (fun id hid => h id (mem_segmentIds_toFinset.mp hid)) fun id _ hid => ?_
  rw [mem_segmentIds_toFinset, Bool.not_eq_true, hasSegment_eq_false] at hid
  rw [live_eq_nil hid]
  rfl

theorem sum_coe_of_nodup {ι α : Type} [DecidableEq ι] {l : List ι} (hl : l.Nodup) (g : ι → List α) :
    ∑ i ∈ l.toFinset, (g i : Multiset α) = (l.flatMap g : Multiset α) := by
  rw [sum_toFinset _ hl]
  clear hl
  induction l with
  | nil => rfl
  | cons a l ih => rw [map_cons, sum_cons, ih, flatMap_cons, Multiset.coe_add]

/-- A commit: the committed rows without the deleted keys, and the rows of the new segments. -/
theorem rowsOf_commit {env : TxEnv ρ} {newSegments : List (SegmentId × Nat)} {keys : List String}
    {staged : List (SegmentId × StagedSegment)} (h : CommitKeeps env newSegments keys staged s s')
    (hnew : ∀ n ∈ newSegments, s.metadata.hasSegment n.1 = false)
    (hnodup : (newSegments.map Prod.fst).Nodup) :
    s'.rowsOf f = s.rowsOf (fun r => f r && !keys.contains (env.key r)) +
      ((newSegments.map Prod.fst).flatMap fun id => (s'.live id).filter f : List ρ) := by
  rw [← sum_coe_of_nodup hnodup]
  have hdis : Disjoint s.metadata.segmentIds.toFinset (newSegments.map Prod.fst).toFinset := by
    rw [Finset.disjoint_left]
    intro id hid hmem
    obtain ⟨n, hn, rfl⟩ := mem_map.mp (mem_toFinset.mp hmem)
    rw [mem_segmentIds_toFinset, hnew n hn] at hid
    cases hid
  have hsub : ∀ id, s'.metadata.hasSegment id = true →
      id ∈ s.metadata.segmentIds.toFinset ∪ (newSegments.map Prod.fst).toFinset := by
    intro id hid
    rw [Finset.mem_union, mem_segmentIds_toFinset, mem_toFinset]
    by_contra hno
    rw [not_or, Bool.not_eq_true] at hno
    have hlook : newSegments.lookup id = none :=
      Option.eq_none_iff_forall_ne_some.mpr fun n hl => hno.2 (mem_map_of_mem (mem_of_lookup hl))
    rw [h.others id hno.1 hlook] at hid
    cases hid
  rw [rowsOf_eq_sum f hsub, Finset.sum_union hdis]
  refine congrArg (· + _) (Finset.sum_congr rfl fun id hid => ?_)
  rw [(h.committed id (mem_segmentIds_toFinset.mp hid)).2, filter_filter]

/-- The segments `old` make place for `new`, which show the same rows. -/
theorem rowsOf_moved {old new : List SegmentId} (hold : old.Nodup) (hnew : new.Nodup)
    (hsrc : ∀ id ∈ old, s.metadata.hasSegment id = true) (hout : ∀ id ∈ new, s.metadata.hasSegment id = false)
    (hgone : ∀ id ∈ old, s'.metadata.hasSegment id = false)
    (hothers : ∀ id, id ∉ old → id ∉ new →
      s'.metadata.get id = s.metadata.get id ∧ s'.live id = s.live id)
    (hlive : new.flatMap s'.live = old.flatMap s.live) : s'.rowsOf f = s.rowsOf f := by
  set S := s.metadata.segmentIds.toFinset ∪ new.toFinset with hS
  have hmem : ∀ id, s.metadata.hasSegment id = true → id ∈ S := fun id hid =>
    Finset.mem_union_left _ (mem_segmentIds_toFinset.mpr hid)
  have hmem' : ∀ id, s'.metadata.hasSegment id = true → id ∈ S := by
    intro id hid
    by_cases hn : id ∈ new
    · exact Finset.mem_union_right _ (mem_toFinset.mpr hn)
    by_cases ho : id ∈ old
    · rw [hgone id ho] at hid
      cases hid
    · rw [hasSegment, (hothers id ho hn).1] at hid
      exact hmem id hid
  have hsub : old.toFinset ∪ new.toFinset ⊆ S := by
    refine Finset.union_subset (fun id hid => ?_) Finset.subset_union_right
    exact hmem id (hsrc id (mem_toFinset.mp hid))
  have hdis : Disjoint old.toFinset new.toFinset := by
    rw [Finset.disjoint_left]
    intro id ho hn
    have := hout id (mem_toFinset.mp hn)
    rw [hsrc id (mem_toFinset.mp ho)] at this
    cases this
  -- the rows of a segment that is not published are none
  have hzero : ∀ (m : Manager ρ) (l : List SegmentId), (∀ id ∈ l, m.metadata.hasSegment id = false) →
      ∑ id ∈ l.toFinset, ((m.live id).filter f : Multiset ρ) = 0 := by
    intro m l hl
    refine Finset.sum_eq_zero fun id hid => ?_
    rw [live_eq_nil (hasSegment_eq_false.mp (hl id (mem_toFinset.mp hid)))]
    rfl
  rw [rowsOf_eq_sum f hmem', rowsOf_eq_sum f hmem, ← Finset.sum_sdiff hsub, ← Finset.sum_sdiff hsub,
    Finset.sum_union hdis, Finset.sum_union hdis, hzero s' old hgone, hzero s new hout, zero_add,
    add_zero, sum_coe_of_nodup hold, sum_coe_of_nodup hnew, ← filter_flatMap,
    ← filter_flatMap, hlive]
  refine congrArg (· + _) (Finset.sum_congr rfl fun id hid => ?_)
  simp only [Finset.mem_sdiff, Finset.mem_union, mem_toFinset, not_or] at hid
  rw [(hothers id hid.2.1 hid.2.2).2]

/-- A step that is not a commit keeps the bag. -/
theorem Inv.rowsOf_step (h : s.Inv) {e : Event ρ} (hstep : Step s e s')
    (he : ∀ env newSegments keys staged, e ≠ .commit env newSegments keys staged) :
    s'.rowsOf f = s.rowsOf f := by
  have hkeeps := h.keepsRows hstep
  cases e with
  | commit env newSegments keys staged => exact absurd rfl (he env newSegments keys staged)
  | replace r =>
    cases hstep with
    | publish hop htask hinj hnew hpub hclaim =>
      have hok := h.ops _ _ hop
      have hnone := h.get_output hop (i := r.newId) (by rw [htask]; rfl) (by rw [htask]; simp)
      have hnodup := hok.nodup
      have hsrc := hok.sources
      rw [htask] at hnodup hsrc
      refine rowsOf_moved f hnodup (nodup_singleton r.newId) (fun id hid => ?_) (fun id hid => ?_)
        hkeeps.sources (fun id hid hne => hkeeps.others id hid (by simpa using hne)) ?_
      · exact hasSegment_iff.mpr (Option.ne_none_iff_exists'.mp (hsrc id hid).2)
      · rw [mem_singleton.mp hid]
        exact hasSegment_eq_false.mpr hnone
      · rw [flatMap_singleton]
        exact hkeeps.output
  | replaceVectors staged =>
    cases hstep with
    | publishVectors hprep hpub =>
      obtain ⟨hsrc, hout, hmove, -⟩ := h.moveSpec hprep hpub
      refine rowsOf_moved f hmove.sources_nodup hmove.outputs_nodup ?_ ?_ ?_ hkeeps.others ?_
      · simp only [mem_map]
        rintro _ ⟨v, hv, rfl⟩
        exact hasSegment_iff.mpr (Option.ne_none_iff_exists'.mp (hsrc v hv))
      · simp only [mem_map]
        rintro _ ⟨v, hv, rfl⟩
        exact hasSegment_eq_false.mpr (hout v hv)
      · simp only [mem_map]
        rintro _ ⟨v, hv, rfl⟩
        exact hkeeps.sources v hv
      · rw [flatMap_map, flatMap_map]
        exact flatMap_congr fun v hv => (hkeeps.output v hv).2
  | delete | internal =>
    unfold rowsOf
    rw [hkeeps.1, hkeeps.2.2]

end Manager

end Summa
