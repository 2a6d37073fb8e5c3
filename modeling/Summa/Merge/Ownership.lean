import Summa.Merge.ReplaceSpec

/-!
# The identities that a publication adds and retires

`OwnsSpec md outputs pub`: the next metadata owns identities that the last one owned, outputs of the
transaction and the deletion files it wrote; it retires exactly the identities that are no longer
owned. Proved for the three transactions; the file lifecycle (`Merge/Lifecycle.lean`) uses nothing
else about them.
-/

namespace Summa

open List Fallible IndexMetadata SegmentMetaInfo

variable {ρ : Type} {env : TxEnv ρ} {dir : Directory ρ} {md : IndexMetadata} {id m : SegmentId}

structure OwnsSpec (md : IndexMetadata) (outputs : List SegmentId) (pub : Publication) : Prop where
  owned : ∀ i ∈ pub.next.ownedIds,
    i ∈ md.ownedIds ∨ i ∈ outputs ∨ i ∈ pub.written.map Prod.fst
  retired : ∀ i ∈ pub.retired, i ∈ md.ownedIds ∧ i ∉ pub.next.ownedIds
  lost : ∀ i ∈ md.ownedIds, i ∉ pub.next.ownedIds → i ∈ pub.retired
  registered : ∀ i ∈ pub.registered, i ∈ pub.next.ownedIds
  registers : ∀ i ∈ pub.next.ownedIds, i ∈ md.ownedIds ∨ i ∈ pub.registered

/-! ## Commits -/

/-- An intermediate state of a commit: no segment is lost, and each mask is an old one of the same
segment or one of this transaction; the old masks that are gone are retired. -/
structure TxOwns (md : IndexMetadata) (outputs : List SegmentId) (acc : Publication) : Prop where
  kept : ∀ t info, md.get t = some info → ∃ info', acc.next.get t = some info'
  segments : ∀ t info, acc.next.get t = some info → (∃ info₀, md.get t = some info₀) ∨ t ∈ outputs
  masks : ∀ t info m, acc.next.get t = some info → info.deletionId = some m →
    (∃ info₀, md.get t = some info₀ ∧ info₀.deletions = info.deletions) ∨
      m ∈ acc.written.map Prod.fst
  lost : ∀ t info m, md.get t = some info → info.deletionId = some m →
    (∃ info', acc.next.get t = some info' ∧ info'.deletionId = some m) ∨ m ∈ acc.retired
  retired : ∀ m ∈ acc.retired, ∃ t info, md.get t = some info ∧ info.deletionId = some m

theorem TxOwns.start (md : IndexMetadata) : TxOwns md [] (.start md) where
  kept _ info h := ⟨info, h⟩
  segments _ info h := .inl ⟨info, h⟩
  masks _ info _ h _ := .inl ⟨info, h, rfl⟩
  lost _ info _ h hm := .inl ⟨info, h, hm⟩
  retired _ h := nomatch h

section Steps

variable {outputs retired : List SegmentId} {acc acc' : Publication} {info : SegmentMetaInfo}
  {alive : DocBitset}

variable (h : TxOwns md outputs acc)

include h in
/-- Writing a mask replaces the old mask of that segment, which must be retired. -/
theorem TxOwns.writeMask (hid : acc.next.get id ≠ none)
    (hold : ∀ info₀ m, md.get id = some info₀ → info₀.deletionId = some m → m ∈ retired)
    (hret : ∀ m ∈ retired, ∃ t info, md.get t = some info ∧ info.deletionId = some m)
    (hw : writeMask env acc id info alive retired = .ok acc') : TxOwns md outputs acc' := by
  obtain ⟨-, -, -, rfl⟩ := writeMask_eq_ok hw
  refine ⟨fun t infoT hg => ?_, fun t infoT hg => ?_, fun t infoT m hg hm => ?_,
    fun t infoT m hg hm => ?_, fun m hm => ?_⟩
  · rw [get_addSegmentMeta]
    split
    · exact ⟨_, rfl⟩
    · exact h.kept t infoT hg
  · rw [get_addSegmentMeta] at hg
    split at hg
    · rename_i heq
      obtain ⟨old, hold⟩ := Option.ne_none_iff_exists'.mp hid
      exact heq ▸ h.segments id old hold
    · exact h.segments t infoT hg
  · rw [get_addSegmentMeta] at hg
    rw [map_append, mem_append]
    split at hg
    · cases hg
      cases hm
      exact .inr (.inr (by simp))
    · rcases h.masks t infoT m hg hm with hmd | hwr
      · exact .inl hmd
      · exact .inr (.inl hwr)
  · rw [get_addSegmentMeta, mem_append]
    split
    · rename_i heq
      exact .inr (.inr (hold infoT m (heq ▸ hg) hm))
    · rcases h.lost t infoT m hg hm with hk | hr
      · exact .inl hk
      · exact .inr (.inl hr)
  · rcases mem_append.mp hm with hm | hm
    · exact h.retired m hm
    · exact hret m hm

include h in
theorem TxOwns.hideCommitted {target : SegmentId × DocBitset}
    (hstep : hideCommitted env md acc target = .ok acc') : TxOwns md outputs acc' := by
  obtain ⟨info, hg, hstep⟩ := hideCommitted_eq_ok hstep
  obtain ⟨info', hg'⟩ := h.kept _ info hg
  refine h.writeMask (by rw [hg']; simp) (fun info₀ m h₀ hm => ?_) (fun m hm => ?_) hstep
  · rw [hg] at h₀
    cases h₀
    rw [hm]; simp
  · exact ⟨_, info, hg, by simpa using hm⟩

include h in
theorem TxOwns.hideStaged {s : SegmentId × StagedSegment}
    (hstep : hideStaged env md acc s = .ok acc') : TxOwns md outputs acc' := by
  obtain ⟨info, alive, hnew, hg, -, hstep⟩ := hideStaged_eq_ok hstep
  refine h.writeMask (by rw [hg]; simp) (fun info₀ m h₀ _ => ?_) ?_ hstep
  · rw [hnew] at h₀
    cases h₀
  · exact nofun

theorem TxOwns.addNewSegments {newSegments : List (SegmentId × Nat)} (h : TxOwns md [] acc) :
    TxOwns md (newSegments.map Prod.fst) { acc with next := addNewSegments acc.next newSegments } := by
  have hget : ∀ t info, (Summa.addNewSegments acc.next newSegments).get t = some info →
      acc.next.get t = some info ∨ t ∈ newSegments.map Prod.fst ∧ info.deletionId = none := by
    intro t info hg
    rw [get_addNewSegments] at hg
    cases ha : acc.next.get t with
    | some info' => rw [ha, Option.some_or] at hg; exact .inl hg
    | none =>
      rw [ha, Option.none_or, Option.map_eq_some_iff] at hg
      obtain ⟨n, hl, rfl⟩ := hg
      exact .inr ⟨mem_map_of_mem (mem_of_lookup hl), rfl⟩
  have hkeep : ∀ t info, acc.next.get t = some info →
      (Summa.addNewSegments acc.next newSegments).get t = some info := by
    intro t info hg; rw [get_addNewSegments, hg, Option.some_or]
  refine ⟨fun t info hg => ?_, fun t info hg => ?_, fun t info m hg hm => ?_,
    fun t info m hg hm => ?_, h.retired⟩
  · obtain ⟨info', hg'⟩ := h.kept t info hg
    exact ⟨info', hkeep t info' hg'⟩
  · rcases hget t info hg with hg | ⟨ht, -⟩
    · rcases h.segments t info hg with hmd | hnil
      · exact .inl hmd
      · cases hnil
    · exact .inr ht
  · rcases hget t info hg with hg | ⟨-, hnone⟩
    · exact h.masks t info m hg hm
    · rw [hnone] at hm; cases hm
  · rcases h.lost t info m hg hm with ⟨info', hg', hm'⟩ | hr
    · exact .inl ⟨info', hkeep t info' hg', hm'⟩
    · exact .inr hr

include h in
/-- At the end the retired identities that are still owned are dropped. -/
theorem TxOwns.ownsSpec {pub : Publication}
    (hget : ∀ t, pub.next.get t = acc.next.get t) (hw : pub.written = acc.written)
    (hr : pub.retired = acc.retired.filter fun id => !pub.next.ownsId id)
    (hreg : ∀ i ∈ pub.registered, i ∈ pub.next.ownedIds)
    (hregs : ∀ i ∈ pub.next.ownedIds, i ∈ md.ownedIds ∨ i ∈ pub.registered) : OwnsSpec md outputs pub := by
  have hret : ∀ i, i ∈ pub.retired ↔ i ∈ acc.retired ∧ i ∉ pub.next.ownedIds := by
    intro i
    rw [hr, mem_filter, Bool.not_eq_true', ← Bool.not_eq_true, ownsId_iff]
  refine ⟨fun i hi => ?_, fun i hi => ?_, fun i hi hni => ?_, hreg, hregs⟩
  · rw [hw]
    rcases mem_ownedIds.mp hi with ⟨info, hg⟩ | ⟨s, info, hg, hm⟩
    · rw [hget] at hg
      rcases h.segments i info hg with ⟨info₀, h₀⟩ | hout
      · exact .inl (mem_ownedIds_self h₀)
      · exact .inr (.inl hout)
    · rw [hget] at hg
      rcases h.masks s info i hg hm with ⟨info₀, h₀, hd⟩ | hwr
      · exact .inl (mem_ownedIds_mask h₀ (by rw [deletionId, hd]; exact hm))
      · exact .inr (.inr hwr)
  · obtain ⟨hacc, hno⟩ := (hret i).mp hi
    obtain ⟨t, info, hg, hm⟩ := h.retired i hacc
    exact ⟨mem_ownedIds_mask hg hm, hno⟩
  · refine (hret i).mpr ⟨?_, hni⟩
    rcases mem_ownedIds.mp hi with ⟨info, hg⟩ | ⟨s, info, hg, hm⟩
    · obtain ⟨info', hg'⟩ := h.kept i info hg
      exact absurd (mem_ownedIds_self ((hget i).trans hg')) hni
    · rcases h.lost s info i hg hm with ⟨info', hg', hm'⟩ | hr
      · exact absurd (mem_ownedIds_mask ((hget s).trans hg') hm') hni
      · exact hr

end Steps

variable {newSegments : List (SegmentId × Nat)} {staged : List (SegmentId × StagedSegment)} {pub : Publication}

/-- The stages of a commit that deletes. -/
theorem txOwns_of_stages {changed : List (SegmentId × DocBitset)} {hidden last : Publication}
    (hhid : changed.foldlM (hideCommitted env md) (.start md) = .ok hidden)
    (hlast : staged.foldlM (hideStaged env md)
      { hidden with next := addNewSegments hidden.next newSegments } = .ok last) :
    TxOwns md (newSegments.map Prod.fst) last := by
  have h₁ : TxOwns md [] hidden :=
    foldlM_eq_ok_rec hhid (TxOwns.start md) fun _ _ _ _ _ hacc hstep => hacc.hideCommitted hstep
  exact foldlM_eq_ok_rec hlast h₁.addNewSegments fun _ _ _ _ _ hacc hstep => hacc.hideStaged hstep

/-- The mask of a segment after a commit is the one it had, or one that the commit wrote. -/
theorem commitWithDeletes_masks {keys : List String}
    (h : commitWithDeletes env dir md newSegments keys staged = .ok pub) {info : SegmentMetaInfo}
    (hg : pub.next.get id = some info) (hm : info.deletionId = some m) :
    (∃ info₀, md.get id = some info₀ ∧ info₀.deletions = info.deletions) ∨
      m ∈ pub.written.map Prod.fst := by
  by_cases hne : keys = [] ∧ staged = []
  · rw [commitWithDeletes, if_pos hne, commit] at h
    obtain ⟨⟨⟩, -, h⟩ := bind_eq_ok h
    cases h
    exact (TxOwns.start md).addNewSegments.masks id info m hg hm
  · obtain ⟨-, -, changed, hidden, last, -, hhid, hlast, -, rfl⟩ := commitWithDeletes_eq_ok h hne
    exact (txOwns_of_stages hhid hlast).masks id info m hg hm

theorem commitWithDeletes_owns {keys : List String}
    (h : commitWithDeletes env dir md newSegments keys staged = .ok pub) :
    OwnsSpec md (newSegments.map Prod.fst) pub := by
  by_cases hne : keys = [] ∧ staged = []
  · rw [commitWithDeletes, if_pos hne, commit] at h
    obtain ⟨⟨⟩, -, h⟩ := bind_eq_ok h
    cases h
    refine (TxOwns.start md).addNewSegments.ownsSpec (fun _ => rfl) rfl rfl (fun i hi => ?_)
      fun i hi => ?_
    · obtain ⟨hi, hno⟩ := mem_filter.mp hi
      rw [Bool.not_eq_true', hasSegment_eq_false] at hno
      obtain ⟨s, hs, rfl⟩ := mem_map.mp hi
      obtain ⟨n, hn⟩ := exists_lookup hs
      exact mem_ownedIds_self (by rw [get_addNewSegments, hno, hn]; rfl)
    · rcases mem_ownedIds.mp hi with ⟨info, hg⟩ | ⟨t, info, hg, hm⟩
      · cases hmd : md.get i with
        | some info₀ => exact .inl (mem_ownedIds_self hmd)
        | none =>
          refine .inr (mem_filter.mpr ⟨?_, by simp [hasSegment, hmd]⟩)
          rcases (TxOwns.start md).addNewSegments.segments i info hg with ⟨info₀, h₀⟩ | hout
          · rw [hmd] at h₀; cases h₀
          · exact hout
      · rcases (TxOwns.start md).addNewSegments.masks t info i hg hm with ⟨info₀, h₀, hd⟩ | hw
        · exact .inl (mem_ownedIds_mask h₀ (by rw [deletionId, hd]; exact hm))
        · cases hw
  obtain ⟨-, -, changed, hidden, last, -, hhid, hlast, -, rfl⟩ := commitWithDeletes_eq_ok h hne
  exact (txOwns_of_stages hhid hlast).ownsSpec (fun _ => rfl) rfl rfl (fun _ hi => hi) fun _ hi => .inr hi

/-! ## Replacements -/

namespace Replacement

variable {self : Replacement} {info : SegmentMetaInfo}

/-- The masks of the sources are shared by the output or retired, and the output has no other mask
than one of a source or one written for it. -/
theorem outputVisibility_owns {reader : OutputReader} (hinfo : self.replacementInfo md reader = .ok info)
    {out : Option DeletionMeta × List (SegmentId × List Byte) × List SegmentId}
    (h : self.outputVisibility env dir md info = .ok out) :
    (∀ deletion, out.1 = some deletion →
      deletion.id ∈ self.sourceMasks md ∨ deletion.id ∈ out.2.1.map Prod.fst) ∧
    (∀ m ∈ self.sourceMasks md, m ∈ out.2.2 ∨ out.1.map (·.id) = some m) ∧
    ∀ m ∈ out.2.2, m ∈ self.sourceMasks md := by
  obtain ⟨-, hdel, -⟩ := replacementInfo_eq_ok hinfo
  have hmem : ∀ source ∈ self.parents md, ∀ deletion, source.deletions = some deletion →
      deletion.id ∈ self.sourceMasks md := by
    intro source hs deletion hd
    exact mem_filterMap.mpr ⟨source, hs, by simp [deletionId, hd]⟩
  have hold : ∀ deletion, info.deletions = some deletion → deletion.id ∈ self.sourceMasks md := by
    intro deletion hd
    rcases hdel with hnone | ⟨-, source, hs, heq⟩
    · rw [hnone] at hd; cases hd
    · exact hmem source hs deletion (heq ▸ hd)
  unfold outputVisibility at h
  simp only at h
  split at h
  · cases h
    exact ⟨fun d hd => .inl (hold d hd), fun m hm => .inl hm, fun m hm => hm⟩
  split at h
  · rename_i hnone
    cases h
    refine ⟨fun d hd => .inl (hold d hd), fun m hm => ?_, forall_mem_nil _⟩
    obtain ⟨source, hs, hd⟩ := mem_filterMap.mp hm
    simp only [any_eq_true, not_exists, not_and, Option.not_isSome_iff_eq_none] at hnone
    simp [deletionId, hnone source hs] at hd
  split at h
  · rename_i source hpar
    split at h
    · cases h
    cases h
    refine ⟨fun d hd => .inl (hmem source (by simp [hpar]) d hd), fun m hm => ?_,
      forall_mem_nil _⟩
    simp only [sourceMasks, hpar] at hm
    right
    simpa [deletionId] using hm
  · obtain ⟨merged, -, h⟩ := bind_eq_ok h
    split at h
    · cases h
    obtain ⟨⟨⟩, -, h⟩ := bind_eq_ok h
    obtain ⟨mask, hw, h⟩ := bind_eq_ok h
    obtain ⟨-, -, rfl⟩ := Deletion.write_eq_ok hw
    cases h
    refine ⟨fun d hd => .inr ?_, fun m hm => .inl hm, fun m hm => hm⟩
    cases hd
    simp

theorem mem_sourceMasks : m ∈ self.sourceMasks md ↔
    ∃ s ∈ self.oldIds, ∃ info, md.get s = some info ∧ info.deletionId = some m := by
  simp only [sourceMasks, parents, mem_filterMap]
  constructor
  · rintro ⟨info, ⟨s, hs, hg⟩, hm⟩; exact ⟨s, hs, info, hg, hm⟩
  · rintro ⟨s, hs, info, hg, hm⟩; exact ⟨info, ⟨s, hs, hg⟩, hm⟩

theorem replaceSegments_owns {reader : Result OutputReader} {pub : Publication}
    (hnew : md.get self.newId = none) (h : self.replaceSegments env dir md reader = .ok pub) :
    OwnsSpec md [self.newId] pub := by
  obtain ⟨-, hsrc, -, r, info, out, info', hinfo, hout, hself, hother, hdel, -, hwr, hreg, hret⟩ :=
    replaceSegments_eq_ok h
  obtain ⟨hmask, hsource, hmasks⟩ := outputVisibility_owns hinfo hout
  have hmem : ∀ i, i ∈ pub.retired ↔ (i ∈ self.oldIds ∨ i ∈ out.2.2) ∧ i ∉ pub.next.ownedIds := by
    intro i
    rw [hret, mem_filter, mem_dedup, mem_append, Bool.not_eq_true',
      ← Bool.not_eq_true, ownsId_iff]
  have hids : ∀ i ∈ pub.next.ownedIds, i ∈ md.ownedIds ∨ i = self.newId ∨ info'.deletionId = some i := by
    intro i hi
    rcases mem_ownedIds.mp hi with ⟨infoI, hg⟩ | ⟨t, infoT, hg, hm⟩
    · rcases eq_or_ne i self.newId with rfl | hne
      · exact .inr (.inl rfl)
      · rw [hother i hne] at hg
        exact .inl (mem_ownedIds_self (Option.ite_none_left_eq_some.mp hg).2)
    · rcases eq_or_ne t self.newId with rfl | hne
      · rw [hself] at hg
        cases hg
        exact .inr (.inr hm)
      · rw [hother t hne] at hg
        exact .inl (mem_ownedIds_mask (Option.ite_none_left_eq_some.mp hg).2 hm)
  refine ⟨fun i hi => ?_, fun i hi => ?_, fun i hi hni => (hmem i).mpr ⟨?_, hni⟩, fun i hi => ?_,
    fun i hi => ?_⟩
  · rcases hids i hi with hi | rfl | hm
    · exact .inl hi
    · exact .inr (.inl (by simp))
    · obtain ⟨deletion, hd, rfl⟩ : ∃ deletion, info'.deletions = some deletion ∧ deletion.id = i := by
        simpa [deletionId] using hm
      rcases hmask deletion (hdel ▸ hd) with hs | hw
      · obtain ⟨s, -, infoS, hgS, hmS⟩ := mem_sourceMasks.mp hs
        exact .inl (mem_ownedIds_mask hgS hmS)
      · exact .inr (.inr (hwr ▸ hw))
  · obtain ⟨hi, hni⟩ := (hmem i).mp hi
    refine ⟨?_, hni⟩
    rcases hi with hi | hi
    · obtain ⟨infoI, hg⟩ := hsrc i hi
      exact mem_ownedIds_self hg
    · obtain ⟨s, -, infoS, hgS, hmS⟩ := mem_sourceMasks.mp (hmasks i hi)
      exact mem_ownedIds_mask hgS hmS
  · rcases mem_ownedIds.mp hi with ⟨infoI, hg⟩ | ⟨t, infoT, hg, hm⟩
    · by_contra hno
      rw [not_or] at hno
      have hne : i ≠ self.newId := by rintro rfl; rw [hnew] at hg; cases hg
      exact hni (mem_ownedIds_self (by rw [hother i hne, if_neg hno.1]; exact hg))
    · have hne : t ≠ self.newId := by rintro rfl; rw [hnew] at hg; cases hg
      by_cases ht : t ∈ self.oldIds
      · rcases hsource i (mem_sourceMasks.mpr ⟨t, ht, infoT, hg, hm⟩) with hr | hd
        · exact .inr hr
        · exact absurd (mem_ownedIds_mask hself (by rw [deletionId, hdel]; exact hd)) hni
      · exact absurd (mem_ownedIds_mask (by rw [hother t hne, if_neg ht]; exact hg) hm) hni
  · rw [hreg, mem_cons, Option.mem_toList] at hi
    rcases hi with rfl | hi
    · exact mem_ownedIds_self hself
    · exact mem_ownedIds_mask hself hi
  · rw [hreg, mem_cons, Option.mem_toList]
    exact hids i hi

end Replacement

/-! ## Vector generations -/

/-- A segment's identity is not the identity of a deletion file. -/
theorem WellFormed.segment_ne_mask (hwf : WellFormed dir md) {info info' : SegmentMetaInfo}
    {s : SegmentId} (hs : md.get s = some info) (ht : md.get id = some info')
    (hm : info'.deletionId = some m) : s ≠ m := by
  rintro rfl
  obtain ⟨rows, hrows, -⟩ := (hwf s info hs).files
  obtain ⟨alive, hv⟩ := (hwf id info' ht).mask
  obtain ⟨deletion, hd, rfl⟩ : ∃ deletion, info'.deletions = some deletion ∧ deletion.id = s := by
    simpa [deletionId] using hm
  have hfile : dir.deletionFile deletion.id = none := by
    unfold Directory.rows at hrows
    unfold Directory.deletionFile
    split at hrows
    · rename_i heq; rw [heq]
    · cases hrows
  simp only [visibility, hd, hfile, DeletionMeta.load] at hv
  split at hv <;> cases hv

theorem publishVectorGeneration_eq_ok {staged : List StagedVectorSegment}
    (h : publishVectorGeneration dir md staged = .ok pub) :
    validateCompletedSegments dir (staged.map fun s => (s.outputId, s.docCount)) = .ok () ∧
    ∃ next, staged.foldlM moveSegment md = .ok next ∧
      pub = {
        next := { next with publicationGeneration := next.publicationGeneration + 1 }
        written := []
        registered := staged.map (·.outputId)
        retired := staged.map (·.sourceId) } := by
  unfold publishVectorGeneration at h
  obtain ⟨⟨⟩, hvalid, h⟩ := bind_eq_ok h
  obtain ⟨next, hnext, h⟩ := bind_eq_ok h
  split at h
  · cases h
  cases h
  exact ⟨hvalid, next, hnext, rfl⟩

theorem publishVectorGeneration_owns (hwf : WellFormed dir md) {staged : List StagedVectorSegment}
    (hsrc : ∀ s ∈ staged, md.get s.sourceId ≠ none) (hout : ∀ s ∈ staged, md.get s.outputId = none)
    (h : publishVectorGeneration dir md staged = .ok pub) : OwnsSpec md (staged.map (·.outputId)) pub := by
  obtain ⟨-, next, hnext, rfl⟩ := publishVectorGeneration_eq_ok h
  obtain ⟨hmoved, hremoved, hkept, -, -⟩ := foldlM_moveSegment hsrc hout hnext
  -- every record of the next generation is a record of the last one
  have hrec : ∀ t info, next.get t = some info → (t ∈ staged.map (·.outputId) ∨ md.get t = some info) ∧
      ∃ s, md.get s = some info := by
    intro t info hg
    by_cases ho : t ∈ staged.map (·.outputId)
    · obtain ⟨s, hs, rfl⟩ := mem_map.mp ho
      obtain ⟨info', hg', ho'⟩ := hmoved s hs
      rw [hg] at ho'
      cases ho'
      exact ⟨.inl ho, s.sourceId, hg'⟩
    · by_cases hs : t ∈ staged.map (·.sourceId)
      · obtain ⟨s, hmem, rfl⟩ := mem_map.mp hs
        rw [hremoved s hmem] at hg
        cases hg
      · rw [hkept t hs ho] at hg
        exact ⟨.inr hg, t, hg⟩
  -- and every record of the last one is in the next one
  have hmd : ∀ t info, md.get t = some info → ∃ s, next.get s = some info ∧
      (t ∉ staged.map (·.sourceId) → s = t) := by
    intro t info hg
    by_cases hs : t ∈ staged.map (·.sourceId)
    · obtain ⟨s, hmem, rfl⟩ := mem_map.mp hs
      obtain ⟨info', hg', ho'⟩ := hmoved s hmem
      rw [hg] at hg'
      cases hg'
      exact ⟨s.outputId, ho', fun hn => absurd hs hn⟩
    · have ho : t ∉ staged.map (·.outputId) := by
        intro ho
        obtain ⟨s, hmem, rfl⟩ := mem_map.mp ho
        rw [hout s hmem] at hg
        cases hg
      exact ⟨t, by rw [hkept t hs ho]; exact hg, fun _ => rfl⟩
  have howned : ∀ i ∈ next.ownedIds, i ∈ md.ownedIds ∨ i ∈ staged.map (·.outputId) := by
    intro i hi
    rcases mem_ownedIds.mp hi with ⟨info, hg⟩ | ⟨t, info, hg, hm⟩
    · rcases (hrec i info hg).1 with ho | hg'
      · exact .inr ho
      · exact .inl (mem_ownedIds_self hg')
    · obtain ⟨-, s, hs⟩ := hrec t info hg
      exact .inl (mem_ownedIds_mask hs hm)
  refine ⟨fun i hi => (howned i hi).imp_right .inl, fun i hi => ?_, fun i hi hni => ?_,
    fun i hi => ?_, howned⟩
  · obtain ⟨s, hs, rfl⟩ := mem_map.mp hi
    obtain ⟨info, hg, -⟩ := hmoved s hs
    refine ⟨mem_ownedIds_self hg, fun hown => ?_⟩
    rcases mem_ownedIds.mp hown with ⟨info', hg'⟩ | ⟨t, info', hg', hm⟩
    · have hnone : next.get s.sourceId = some info' := hg'
      rw [hremoved s hs] at hnone
      cases hnone
    · obtain ⟨-, s', hs'⟩ := hrec t info' hg'
      exact hwf.segment_ne_mask hg hs' hm rfl
  · rcases mem_ownedIds.mp hi with ⟨info, hg⟩ | ⟨t, info, hg, hm⟩
    · by_contra hno
      obtain ⟨s, hs, heq⟩ := hmd i info hg
      exact hni (mem_ownedIds_self (heq hno ▸ hs))
    · obtain ⟨s, hs, -⟩ := hmd t info hg
      exact absurd (mem_ownedIds_mask hs hm) hni
  · obtain ⟨s, hs, rfl⟩ := mem_map.mp hi
    obtain ⟨info, -, ho⟩ := hmoved s hs
    exact mem_ownedIds_self ho

end Summa
