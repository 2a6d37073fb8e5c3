import Summa.Merge.LifecycleRows

/-!
# Published segments do not change

A reader that loaded a segment may keep what it loaded: while the segment is published its rows are
the same, and while its mask is the loaded one its visibility is the same (`Remembers`). This holds
because no identity is used twice: an identity that left the metadata is no output of any operation
(`Remembers.gone`), and a new mask has a new identity. `Remembers.step` is the step lemma.

The segment of a producer keeps its file until the producer gives it up (`Inv.produced_file`).
-/

namespace Summa

open IndexMetadata

namespace Manager

variable {ρ : Type} {s s' : Manager ρ} {t : Nat} {op : Operation ρ} {id : SegmentId}

/-- What a reader that loaded segment `id` remembers of it: its rows, and its mask if it had one. -/
structure Remembers (s : Manager ρ) (id : SegmentId) (rows : List ρ)
    (mask : Option (DeletionMeta × DocBitset)) : Prop where
  used : id ∈ s.used
  mask_used : ∀ m, mask = some m → m.1.id ∈ s.used
  /-- A segment that left the metadata does not come back. -/
  gone : s.metadata.get id = none → ∀ t op, s.ops t = some op → op.task.output ≠ some id
  rows : s.metadata.get id ≠ none → s.dir.rows id = some rows
  alive : ∀ info m, s.metadata.get id = some info → mask = some m → info.deletions = some m.1 →
    info.visibility s.dir = .ok m.2

/-- What is loaded from the published state is remembered. -/
theorem Inv.remembers (h : s.Inv) {info : SegmentMetaInfo} {rows : List ρ}
    {mask : Option (DeletionMeta × DocBitset)} (hg : s.metadata.get id = some info)
    (hrows : s.dir.rows id = some rows) (hmask : info.deletions = mask.map Prod.fst)
    (hvis : ∀ m, mask = some m → info.visibility s.dir = .ok m.2) : s.Remembers id rows mask where
  used := h.used_of_owned (mem_ownedIds_self hg)
  mask_used m hm := h.used_of_owned (mem_ownedIds_mask hg (by
    rw [SegmentMetaInfo.deletionId, hmask, hm]; rfl))
  gone hnone := by rw [hg] at hnone; cases hnone
  rows _ := hrows
  alive info' m hg' hm _ := by
    rw [hg] at hg'
    cases hg'
    exact hvis m hm

/-! ## Outputs are new identities -/

theorem ops_claimMasks {ids : List SegmentId} (hclaim : claimMasks ids s = some s')
    (hop : s'.ops t = some op) : s.ops t = some op ∨ op.task = .closed none := by
  induction ids generalizing s with
  | nil => cases hclaim; exact .inl hop
  | cons id ids ih =>
    rw [claimMasks] at hclaim
    split at hclaim
    · cases hclaim
    · rcases ih hclaim with h | h
      · rcases update_eq_some h with ⟨-, heq⟩ | ⟨-, heq⟩
        · cases heq
          exact .inr rfl
        · exact .inl heq
      · exact .inr h

theorem used_claimMasks {ids : List SegmentId} (hclaim : claimMasks ids s = some s') : s.used ⊆ s'.used := by
  induction ids generalizing s with
  | nil => cases hclaim; exact subset_rfl
  | cons id ids ih =>
    rw [claimMasks] at hclaim
    split at hclaim
    · cases hclaim
    · exact Finset.subset_union_left.trans (ih hclaim)

variable {e : Event ρ}

theorem Step.used_subset (hstep : Step s e s') : s.used ⊆ s'.used := by
  cases hstep with
  | commit _ _ _ _ hclaim | publish _ _ _ _ _ hclaim =>
    exact Finset.subset_union_left.trans (used_claimMasks hclaim)
  | beginSegment | failTransaction | beginRewrite | beginVector | publishVectors | sweep =>
    exact Finset.subset_union_left
  | _ => exact subset_rfl

/-- The outputs of the operations after a step are outputs before it or new. -/
theorem Step.output_or_new (hstep : Step s e s') {i : SegmentId}
    (hop : s'.ops t = some op) (hout : op.task.output = some i) :
    (∃ op₀, s.ops t = some op₀ ∧ op₀.task.output = some i) ∨ i ∉ s.used := by
  have hupdate : ∀ {t₀ : Nat} {new : Option (Operation ρ)}, Function.update s.ops t₀ new t = some op →
      (new = some op → i ∉ s.used) →
      (∃ op₀, s.ops t = some op₀ ∧ op₀.task.output = some i) ∨ i ∉ s.used := by
    intro t₀ new hop hnew
    rcases update_eq_some hop with ⟨-, heq⟩ | ⟨-, heq⟩
    · exact .inr (hnew heq)
    · exact .inl ⟨op, heq, hout⟩
  have hclosed : ∀ {o : Option SegmentId}, op.task ≠ .closed o := by
    intro o hcl
    rw [hcl] at hout
    cases hout
  cases hstep with
  | beginSegment hid hreg | beginRewrite _ _ hid | beginVector _ hid =>
    exact hupdate hop fun heq => by cases heq; cases hout; exact hid
  | commit hprep hinj hnew hpub hclaim =>
    rcases ops_claimMasks hclaim hop with heq | hcl
    · exact .inl ⟨op, heq, hout⟩
    · exact absurd hcl hclosed
  | publish hop₀ htask hinj hnew hpub hclaim =>
    rcases ops_claimMasks hclaim hop with heq | hcl
    · exact hupdate heq fun heq => by cases heq; cases hout
    · exact absurd hcl hclosed
  | publishVectors hprep hpub =>
    obtain ⟨op₀, hop₀, -, ⟨v, rows, -, -, hcl⟩ | ⟨rfl, -⟩⟩ := closeVectors_eq_some hop
    · exact absurd hcl hclosed
    · exact .inl ⟨op, hop₀, hout⟩
  | failOutput hop₀ htask =>
    refine hupdate hop fun heq => ?_
    cases heq
    split at hout <;> cases hout
  | sweep hid howns hreg hprot => exact hupdate hop fun heq => by cases heq; cases hout
  | drop | abandon => exact hupdate hop nofun
  | _ => exact .inl ⟨op, hop, hout⟩

/-! ## Segments that come and go -/

/-- A segment that a step publishes is the output of an operation, of a producer only in a commit. -/
theorem Inv.output_of_published (h : s.Inv) (hstep : Step s e s')
    (hnone : s.metadata.get id = none) (hne : s'.metadata.get id ≠ none) :
    ∃ t op, s.ops t = some op ∧ op.task.output = some id ∧
      ((∀ env newSegments keys staged, e ≠ .commit env newSegments keys staged) →
        op.task ≠ .segment id) := by
  have hkeeps := h.keepsRows hstep
  cases e with
  | commit env newSegments keys staged =>
    cases hstep with
    | commit hprep hinj hnew hpub hclaim =>
      cases hl : newSegments.lookup id with
      | none =>
        have hno := hkeeps.others id (hasSegment_eq_false.mpr hnone) hl
        exact absurd (hasSegment_eq_false.mp hno) hne
      | some n =>
        obtain ⟨t, op, hop, htask⟩ := hprep (id, n) (mem_of_lookup hl)
        exact ⟨t, op, hop, by rw [htask]; rfl, fun he => absurd rfl (he _ _ _ _)⟩
  | replace r =>
    cases hstep with
    | @publish _ t op _ rows _ _ _ hop htask hinj hnew hpub hclaim =>
      refine ⟨t, op, hop, ?_, fun _ => by rw [htask]; simp⟩
      rw [htask]
      by_contra hid
      by_cases hsrc : id ∈ r.oldIds
      · exact hne (hasSegment_eq_false.mp (hkeeps.sources id hsrc))
      · exact hne ((hkeeps.others id hsrc fun heq => hid (by rw [heq]; rfl)).1.trans hnone)
  | replaceVectors staged =>
    cases hstep with
    | publishVectors hprep hpub =>
      by_cases hout : id ∈ staged.map (·.outputId)
      · obtain ⟨v, hv, rfl⟩ := List.mem_map.mp hout
        obtain ⟨t, op, rows, hop, htask⟩ := hprep v hv
        exact ⟨t, op, hop, by rw [htask]; rfl, fun _ => by rw [htask]; simp⟩
      by_cases hsrc : id ∈ staged.map (·.sourceId)
      · obtain ⟨v, hv, rfl⟩ := List.mem_map.mp hsrc
        exact absurd (hasSegment_eq_false.mp (hkeeps.sources v hv)) hne
      · exact absurd ((hkeeps.others id hsrc hout).1.trans hnone) hne
  | delete | internal => exact absurd (hkeeps.1 ▸ hnone) hne

/-- A segment that a step removes is claimed as a source, so it is nobody's output. -/
theorem Inv.not_output_of_removed (h : s.Inv) (hstep : Step s e s')
    (hne : s.metadata.get id ≠ none) (hnone : s'.metadata.get id = none)
    (hop : s.ops t = some op) : op.task.output ≠ some id := by
  have hkeeps := h.keepsRows hstep
  -- whoever has it as a source claims it, and its own output is not published
  have hsource : ∀ t' op', s.ops t' = some op' → id ∈ op'.task.sources → (∀ i, op'.task ≠ .segment i) →
      op.task.output ≠ some id := by
    intro t' op' hop' hsrc hseg hout
    obtain ⟨-, rfl⟩ := h.op_eq hop' hop ((h.ops t' op' hop').sources id hsrc).1
      ((h.ops t op hop).output id hout).1
    exact hne (h.get_output hop hout (hseg id))
  cases e with
  | commit env newSegments keys staged =>
    cases hstep with
    | commit hprep hinj hnew hpub hclaim =>
      have hmd := (((h.installable_commit hinj hnew hpub hprep).inv h).claimMasks hclaim).2.1
      have hkept := hasSegment_of_rowCounts ((h.commitSpec hinj hnew hpub).numDocs id)
      obtain ⟨info, hg⟩ := Option.ne_none_iff_exists'.mp hne
      rw [hmd] at hnone
      have hlost := hkept.symm.trans (hasSegment_eq_false.mpr hnone)
      rw [hasSegment_eq_false, get_addNewSegments, hg] at hlost
      cases hlost
  | replace r =>
    cases hstep with
    | publish hop' htask hinj hnew hpub hclaim =>
      by_cases hsrc : id ∈ r.oldIds
      · exact hsource _ _ hop' (by rw [htask]; exact hsrc) (by rw [htask]; simp)
      · by_cases hid : id = r.newId
        · exact absurd (h.get_output hop' (by rw [htask]; exact congrArg some hid.symm)
            (by rw [htask]; simp)) hne
        · exact absurd ((hkeeps.others id hsrc hid).1 ▸ hnone) hne
  | replaceVectors staged =>
    cases hstep with
    | publishVectors hprep hpub =>
      by_cases hsrc : id ∈ staged.map (·.sourceId)
      · obtain ⟨v, hv, rfl⟩ := List.mem_map.mp hsrc
        obtain ⟨t', op', rows, hop', htask⟩ := hprep v hv
        exact hsource t' op' hop' (by rw [htask]; simp [Task.sources]) (by rw [htask]; simp)
      by_cases hout : id ∈ staged.map (·.outputId)
      · obtain ⟨v, hv, rfl⟩ := List.mem_map.mp hout
        exact absurd ((h.moveSpec hprep hpub).2.1 v hv) hne
      · exact absurd ((hkeeps.others id hsrc hout).1 ▸ hnone) hne
  | delete | internal => exact absurd (hkeeps.1 ▸ hnone) hne

/-- A step publishes nothing, or it installs a publication that leaves the files of known identities. -/
theorem Inv.step_cases (h : s.Inv) (hstep : Step s e s') :
    (e = .internal ∨ ∃ who id, e = .delete who id) ∨
      ∃ (s₁ : Manager ρ) (outputs : List SegmentId) (pub : Publication), s₁.Installable outputs pub ∧
        s₁.used = s.used ∧ s₁.metadata = s.metadata ∧ s'.metadata = pub.next ∧ ∀ i ∈ s.used, s'.dir i = s.dir i := by
  cases hstep with
  | commit hprep hinj hnew hpub hclaim =>
    have hi := h.installable_commit hinj hnew hpub hprep
    obtain ⟨-, hmd, hdir⟩ := (hi.inv h).claimMasks hclaim
    exact .inr ⟨s, _, _, hi, rfl, rfl, hmd, fun i hu => (congrFun hdir i).trans (hi.dir_eq hu)⟩
  | publish hop htask hinj hnew hpub hclaim =>
    have hi := h.installable_replace hop htask hinj hnew hpub
    obtain ⟨-, hmd, hdir⟩ := (hi.inv (h.closeRewrite hop htask)).claimMasks hclaim
    exact .inr ⟨_, _, _, hi, rfl, rfl, hmd, fun i hu => (congrFun hdir i).trans (hi.dir_eq hu)⟩
  | publishVectors hprep hpub =>
    have hi := h.installable_vectors hprep hpub
    exact .inr ⟨_, _, _, hi, rfl, rfl, rfl, fun i hu => hi.dir_eq hu⟩
  | deleteClaimed | deleteDetached | deleteRetired => exact .inl (.inr ⟨_, _, rfl⟩)
  | _ => exact .inl (.inl rfl)

/-! ## What is remembered stays true -/

section Step

variable {rows : List ρ} {mask : Option (DeletionMeta × DocBitset)}

theorem Remembers.step (hr : s.Remembers id rows mask) (h : s.Inv) {e : Event ρ}
    (hstep : Step s e s') : s'.Remembers id rows mask := by
  have hused := hstep.used_subset
  have hback : s'.metadata.get id ≠ none → s.metadata.get id ≠ none := by
    intro hne hnone
    obtain ⟨t, op, hop, hout, -⟩ := h.output_of_published hstep hnone hne
    exact hr.gone hnone t op hop hout
  have hgone : s'.metadata.get id = none → ∀ t op, s'.ops t = some op → op.task.output ≠ some id := by
    intro hnone t op' hop' hout'
    rcases hstep.output_or_new hop' hout' with ⟨op, hop, hout⟩ | hnew
    · by_cases hne : s.metadata.get id = none
      · exact hr.gone hne t op hop hout
      · exact h.not_output_of_removed hstep hne hnone hop hout
    · exact hnew hr.used
  have hmask := fun m hm => hused (hr.mask_used m hm)
  obtain he | ⟨s₁, outputs, pub, hi, hused₁, hmd₁, hmd, hdir⟩ := h.step_cases hstep
  · obtain ⟨hmd, hdir⟩ := h.frame hstep he
    refine ⟨hused hr.used, hmask, hgone, fun hne => ?_, fun info m hg hm hd => ?_⟩
    · obtain ⟨info, hg⟩ := Option.ne_none_iff_exists'.mp (hback hne)
      rw [Directory.rows_congr (hdir id (mem_ownedIds_self hg))]
      exact hr.rows (hback hne)
    · rw [hmd] at hg
      rw [visibility_congr fun m' hm' => hdir m' (mem_ownedIds_mask hg hm')]
      exact hr.alive info m hg hm hd
  · refine ⟨hused hr.used, hmask, hgone,
      fun hne => (Directory.rows_congr (hdir id hr.used)).trans (hr.rows (hback hne)),
      fun info m hg hm hd => ?_⟩
    -- a mask that was known has its old record
    have hu := hr.mask_used m hm
    have hne := hback (by rw [hg]; simp)
    obtain ⟨info₀, hg₀, hd₀, hn₀⟩ := hi.records id info m.1 (hmd₁ ▸ hne) (hmd ▸ hg) hd (hused₁ ▸ hu)
    rw [hd] at hd₀
    have halive := hr.alive info₀ m (hmd₁ ▸ hg₀) hm hd₀
    simp only [SegmentMetaInfo.visibility, hd₀, hn₀] at halive
    simpa only [SegmentMetaInfo.visibility, hd, Directory.deletionFile_congr (hdir _ hu)] using halive

end Step

/-! ## The segment of a producer -/

variable (hstep : Step s e s') (hop : s.ops t = some op) (htask : op.task = .segment id)

include hstep hop htask in
/-- The file of a segment that is not given up stays, whoever steps. -/
theorem Inv.produced_file (h : s.Inv) {file : File ρ} (hfile : s.dir id = some file) :
    s'.dir id = some file := by
  obtain ⟨hguard, -, hdet, hprot⟩ := (h.ops t op hop).output id (by rw [htask]; rfl)
  have hused := h.used_guard t op hop id hguard
  -- no other operation claims it
  have hother : ∀ {t' op' i}, s.ops t' = some op' → i ∈ op'.guard.segmentIds → op'.task ≠ .segment id →
      id ≠ i := by
    rintro t' op' i hop' hg hne rfl
    obtain ⟨-, rfl⟩ := h.op_eq hop hop' hguard hg
    exact hne htask
  have hwrite : ∀ {i : SegmentId} {f : Option (File ρ)}, id ≠ i → (s.writeFile i f).dir id = some file :=
    fun hne => (s.dir_writeFile_ne hne _).trans hfile
  obtain he | ⟨-, -, -, -, -, -, -, hdir⟩ := h.step_cases hstep
  case inr => exact (hdir id hused).trans hfile
  cases hstep with
  | writeSegment rows hop' htask' hnew hlen =>
    refine hwrite ?_
    rintro rfl
    rw [hfile] at hnew
    cases hnew
  | commit | publish | publishVectors => rcases he with he | ⟨_, _, he⟩ <;> cases he
  | failTransaction files hnew =>
    refine (Directory.writeAll_of_not_mem fun hmem => ?_).trans hfile
    obtain ⟨w, hw, rfl⟩ := List.mem_map.mp hmem
    exact hnew w hw hused
  | writeRewrite hop' htask' | writeVector hop' htask' =>
    exact hwrite (hother hop' ((h.ops _ _ hop').output _ (by rw [htask']; rfl)).1 (by rw [htask']; simp))
  | deleteClaimed hop' htask' =>
    refine hwrite (hother hop' ((h.ops _ _ hop').deletes _ htask').1 fun heq => ?_)
    rw [heq] at htask'
    cases htask'
  | deleteDetached hid =>
    refine hwrite ?_
    rintro rfl
    exact hdet hid
  | deleteRetired hid =>
    refine hwrite ?_
    rintro rfl
    rw [SegmentTracker.isDeletionProtected_iff.mpr (.inr hid)] at hprot
    cases hprot
  | _ => exact hfile

include hstep hop htask in
/-- Only a commit publishes the segment of a producer. -/
theorem Inv.produced_unpublished (h : s.Inv)
    (he : ∀ env newSegments keys staged, e ≠ .commit env newSegments keys staged) (hnone : s.metadata.get id = none) :
    s'.metadata.get id = none := by
  by_contra hne
  obtain ⟨t', op', hop', hout, hseg⟩ := h.output_of_published hstep hnone hne
  obtain ⟨-, rfl⟩ := h.op_eq hop hop' ((h.ops t op hop).output id (by rw [htask]; rfl)).1
    ((h.ops t' op' hop').output id hout).1
  exact hseg he htask

end Manager

end Summa
