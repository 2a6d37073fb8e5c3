import Mathlib.Algebra.Order.BigOperators.Group.Finset
import Summa.Merge.DeletionSafety
import Summa.Merge.Immutable
import Summa.Merge.LiveBag

/-!
# Whole runs of the segment lifecycle

What the steps mean for a run, however its parties interleave.

* `rowsOf_of_run`: a live row goes away only by a commit that deletes its key, and only commits add rows.
* `remembers_of_run`: what a reader loaded of a published segment stays right, and a segment that left the
  metadata does not come back.
* `held_file_of_run`: a file that a snapshot holds stays as it is, but for the cleanup of a dropped operation.
-/

namespace Summa

open List IndexMetadata

section

variable {ρ : Type}

def Event.isCommit : Event ρ → Bool
  | .commit _ _ _ _ => true
  | .replace _ | .replaceVectors _ | .delete _ _ | .internal => false

/-- No commit, or one that deletes no key of a row that satisfies `f`. -/
def Event.Spares (f : ρ → Bool) : Event ρ → Prop
  | .commit env _ keys _ => ∀ r, f r = true → env.key r ∉ keys
  | .replace _ | .replaceVectors _ | .delete _ _ | .internal => True

end

namespace Manager

variable {ρ : Type} {s s' : Manager ρ} {e : Event ρ} {es : List (Event ρ)} {id : SegmentId} {snap : List SegmentId}

/-! ## Live rows -/

/-- A commit keeps the live rows of the other keys. -/
theorem rowsOf_le_commit {f : ρ → Bool} {env : TxEnv ρ} {newSegments : List (SegmentId × Nat)}
    {keys : List String} {staged : List (SegmentId × StagedSegment)}
    (h : CommitKeeps env newSegments keys staged s s') (hkeys : ∀ r, f r = true → env.key r ∉ keys) :
    s.rowsOf f ≤ s'.rowsOf f := by
  rw [rowsOf_eq_sum f (S := s.metadata.segmentIds.toFinset ∪ s'.metadata.segmentIds.toFinset) fun i hi =>
      Finset.mem_union_left _ (mem_segmentIds_toFinset.mpr hi),
    rowsOf_eq_sum f fun i hi => Finset.mem_union_right _ (mem_segmentIds_toFinset.mpr hi)]
  refine Finset.sum_le_sum fun i _ => ?_
  cases hi : s.metadata.hasSegment i with
  | false =>
    rw [live_eq_nil (hasSegment_eq_false.mp hi)]
    exact Multiset.zero_le _
  | true =>
    have hsame : (s.live i).filter (fun r => f r && !keys.contains (env.key r)) = (s.live i).filter f := by
      refine filter_congr fun r _ => ?_
      cases hr : f r with
      | false => rfl
      | true => simp [hkeys r hr]
    rw [(h.committed i hi).2, filter_filter, hsame]

/-- No live row is lost but by a commit that deletes its key, and without commits the live rows stay the same. -/
theorem rowsOf_of_run (f : ρ → Bool) (hreach : (lifecycle ρ).Reach s) (hrun : (lifecycle ρ).Run s es s')
    (hspares : ∀ e ∈ es, e.Spares f) :
    s.rowsOf f ≤ s'.rowsOf f ∧ ((∀ e ∈ es, e.isCommit = false) → s'.rowsOf f = s.rowsOf f) := by
  refine hrun.keeps hreach ?_ ?_
  · exact ⟨le_rfl, fun _ => rfl⟩
  rintro a e b he hreach ⟨hle, heq⟩ hstep
  have hinv : a.Inv := inductive_inv.reach hreach
  cases e with
  | commit env newSegments keys staged =>
    refine ⟨hle.trans (rowsOf_le_commit (hinv.keepsRows hstep) (hspares _ he)), fun hno => ?_⟩
    cases hno _ he
  | replace | replaceVectors | delete | internal =>
    rw [hinv.rowsOf_step f hstep fun _ _ _ _ h => by cases h]
    exact ⟨hle, heq⟩

/-- The key `"c"` is deleted while a merge runs; no other row is lost. -/
theorem rowsOf_of_merge : ∃ s' : Manager String, (lifecycle String).Run merging
    [.commit (stringEnv 10) [] ["c"] [], .replace merge01] s' ∧
      merging.rowsOf (· != "c") ≤ s'.rowsOf (· != "c") := by
  obtain ⟨s', hrun⟩ : ∃ s', (lifecycle String).Run merging
      [.commit (stringEnv 10) [] ["c"] [], .replace merge01] s' := by
    refine ⟨_, .cons (.commit (nofun) (stringEnv_injective 10) (stringEnv_not_mem (by decide)) rfl rfl)
      (.cons (.publish (t := 0) rfl rfl (stringEnv_injective 20) ?_
        (show merge01.replaceSegments _ _ _ (.ok ⟨3, false, false, []⟩) = _ from rfl) rfl) .nil)⟩
    exact stringEnv_not_mem (by decide)
  exact ⟨s', hrun, (rowsOf_of_run _ reach_merging hrun (by simp [Event.Spares, stringEnv])).1⟩

/-! ## Published segments -/

/-- What a reader remembers of a segment stays right along a run, and a segment that is gone does not come back. -/
theorem remembers_of_run {rows : List ρ} {mask : Option (DeletionMeta × DocBitset)}
    (hreach : (lifecycle ρ).Reach s) (hr : s.Remembers id rows mask) (hrun : (lifecycle ρ).Run s es s') :
    s'.Remembers id rows mask ∧ (s.metadata.get id = none → s'.metadata.get id = none) := by
  refine hrun.keeps hreach ?_ ?_
  · exact ⟨hr, fun hnone => hnone⟩
  rintro a e b - hreach ⟨hmem, hgone⟩ hstep
  have hinv : a.Inv := inductive_inv.reach hreach
  refine ⟨hmem.step hinv hstep, fun hnone => ?_⟩
  by_contra hne
  obtain ⟨t, op, hop, hout, -⟩ := hinv.output_of_published hstep (hgone hnone) hne
  exact hmem.gone (hgone hnone) t op hop hout

/-- The segment 0 was loaded with a mask that hides its first row; then a row of another segment is deleted. -/
theorem remembers_of_masked : ∃ (s s' : Manager String) (info : SegmentMetaInfo) (deletion : DeletionMeta)
    (alive : DocBitset), (lifecycle String).Run s [.commit (stringEnv 20) [] ["c"] []] s' ∧
      s'.Remembers 0 ["a", "b"] (some (deletion, alive)) ∧ (alive.contains 0 = false ∧ alive.contains 1 = true) ∧
      s'.metadata.get 0 = some info ∧ info.deletions = some deletion ∧ info.visibility s'.dir = .ok alive := by
  obtain ⟨s, s', info, deletion, hfirst, hsecond, hload, hrows, hkept, hmask, hshown⟩ : ∃ (s s' : Manager String)
      (info : SegmentMetaInfo) (deletion : DeletionMeta),
      Step twoSegments (.commit (stringEnv 10) [] ["a"] []) s ∧ Step s (.commit (stringEnv 20) [] ["c"] []) s' ∧
        s.metadata.get 0 = some info ∧ s.dir.rows 0 = some ["a", "b"] ∧ s'.metadata.get 0 = some info ∧
        info.deletions = some deletion ∧ info.shows s.dir 0 = false ∧ info.shows s.dir 1 = true := by
    refine ⟨_, _, _, _, .commit (nofun) (stringEnv_injective 10) (stringEnv_not_mem (by decide)) rfl rfl,
      .commit (nofun) (stringEnv_injective 20) (stringEnv_not_mem (by decide)) rfl rfl, rfl, rfl, rfl, rfl, ?_, ?_⟩
    · decide +kernel
    · decide +kernel
  have hreach : (lifecycle String).Reach s := .step (.init init_twoSegments) hfirst
  have hinv : s.Inv := inductive_inv.reach hreach
  obtain ⟨alive, halive⟩ := (hinv.wellFormed 0 info hload).mask
  rw [SegmentMetaInfo.shows, SegmentMetaInfo.shows, halive] at hshown
  have hloaded : s.Remembers 0 ["a", "b"] (some (deletion, alive)) := by
    refine hinv.remembers hload hrows hmask fun m hm => ?_
    cases hm
    exact halive
  have hrun : (lifecycle String).Run s [.commit (stringEnv 20) [] ["c"] []] s' := .cons hsecond .nil
  have hmem := (remembers_of_run hreach hloaded hrun).1
  exact ⟨s, s', info, deletion, alive, hrun, hmem, hshown, hkept, hmask, hmem.alive info _ hkept rfl hmask⟩

/-! ## Files of snapshots -/

/-- A held file stays, whoever steps, but for the cleanup of a dropped operation. -/
theorem Inv.held_file (h : s.Inv) (hstep : Step s e s') (hsnap : snap ∈ s.snapshots) (hid : id ∈ snap)
    (he : e ≠ .delete .detached id) : s'.dir id = s.dir id := by
  have hpos : 0 < s.held id := held_pos hsnap hid
  -- it is published, or retired and waits for its last holder
  have hheld := h.tracker.held_owned id hpos
  have hprot : id ∈ s.tracker.pendingDeletions → s.tracker.isDeletionProtected id = true := fun hp =>
    SegmentTracker.isDeletionProtected_iff.mpr (.inl hp)
  have hused : id ∈ s.used := hheld.elim h.used_of_owned fun hp => h.used_tracker id (hprot hp)
  have hout : ∀ {t op}, s.ops t = some op → op.task.output = some id → id ∈ s.metadata.ownedIds :=
    fun hop ho => hheld.resolve_right fun hp => by
      have := ((h.ops _ _ hop).output id ho).2.2.2
      rw [hprot hp] at this
      cases this
  have hwrite : ∀ {i : SegmentId} {f : Option (File ρ)}, id ≠ i → (s.writeFile i f).dir id = s.dir id :=
    fun hne => s.dir_writeFile_ne hne _
  obtain (rfl | ⟨who, i, rfl⟩) | ⟨-, -, -, -, -, -, -, hdir⟩ := h.step_cases hstep
  · cases hstep with
    | writeSegment rows hop htask hnew =>
      refine hwrite ?_
      rintro rfl
      exact h.wellFormed.ne_none (hout hop (by rw [htask]; rfl)) hnew
    | writeRewrite hop htask | writeVector hop htask =>
      refine hwrite ?_
      rintro rfl
      have ho := congrArg Task.output htask
      exact (h.ops _ _ hop).unpublished _ ho (by rw [htask]; simp) (hout hop ho)
    | failTransaction files hnew =>
      refine Directory.writeAll_of_not_mem fun hmem => ?_
      obtain ⟨w, hw, rfl⟩ := mem_map.mp hmem
      exact hnew w hw hused
    | _ => rfl
  · have hne : id ≠ i := by
      rintro rfl
      obtain ⟨rfl, -⟩ := (h.safeDeletion hstep).snapshots snap hsnap hid
      exact he rfl
    cases hstep <;> exact hwrite hne
  · exact hdir id hused

/-- The runs in which `snap` is held and no cleanup of a dropped operation deletes `id`. -/
def holding (ρ : Type) (snap : List SegmentId) (id : SegmentId) : Lts (Manager ρ) (Event ρ) where
  init s := (lifecycle ρ).Reach s ∧ snap ∈ s.snapshots
  step s e s' := Step s e s' ∧ snap ∈ s'.snapshots ∧ e ≠ .delete .detached id

/-- While a snapshot is held, its files stay as they are. -/
theorem held_file_of_run (hinit : (holding ρ snap id).init s) (hid : id ∈ snap)
    (hrun : (holding ρ snap id).Run s es s') : s'.dir id = s.dir id := by
  have hinv : (holding ρ snap id).Inductive fun x => (lifecycle ρ).Reach x ∧ snap ∈ x.snapshots :=
    ⟨fun _ h => h, fun _ _ _ h hstep => ⟨.step h.1 hstep.1, hstep.2.1⟩⟩
  refine hrun.keeps (.init hinit) rfl ?_
  rintro a e b - hreach hdir ⟨hstep, -, he⟩
  obtain ⟨hreach, hsnap⟩ := hinv.reach hreach
  exact ((inductive_inv.reach hreach).held_file hstep hsnap hid he).trans hdir

/-- A snapshot holds the segment 1, which is rewritten and retired afterwards. -/
theorem held_file_of_rewrite : ∃ s s' : Manager String, (holding String [1] 1).Run s
    [.internal, .internal, .replace (rewriteTo 1 2)] s' ∧ 1 ∉ s'.metadata.ownedIds ∧
      1 ∈ s'.tracker.pendingDeletions ∧ s.dir 1 = some (.segment ["c"]) ∧ s'.dir 1 = s.dir 1 := by
  obtain ⟨s, s', hinit, hrun, hgone, hpend, hfile⟩ : ∃ s s' : Manager String, (holding String [1] 1).init s ∧
      (holding String [1] 1).Run s [.internal, .internal, .replace (rewriteTo 1 2)] s' ∧
        1 ∉ s'.metadata.ownedIds ∧ 1 ∈ s'.tracker.pendingDeletions ∧ s.dir 1 = some (.segment ["c"]) := by
    refine ⟨_, _, ⟨.step (.init init_twoSegments) (.acquireSnapshot [1] (by decide)), .head _⟩,
      .cons ⟨.beginRewrite (r := rewriteTo 1 2) ?_ ?_ ?_ ?_ ?_ ?_ rfl
          (show ActiveOperationState.tryRegister _ _ = _ from rfl), .head _, fun h => by cases h⟩
        (.cons ⟨.writeRewrite (t := 0) rfl rfl, .head _, fun h => by cases h⟩
          (.cons ⟨.publish (t := 0) rfl rfl (stringEnv_injective 10) ?_
            (show Replacement.replaceSegments _ _ _ _ (.ok ⟨1, false, false, []⟩) = _ from rfl) rfl, .head _,
              fun h => by cases h⟩ .nil)), ?_, ?_, rfl⟩
    all_goals first
      | decide +kernel
      | exact stringEnv_not_mem (by decide +kernel)
      | exact nofun
  exact ⟨s, s', hrun, hgone, hpend, hfile, held_file_of_run hinit (.head _) hrun⟩

end Manager

end Summa
