import Summa.Merge.InstallInvariant

/-!
# Every reachable state of the lifecycle has the invariant

One lemma per transaction that it is installable, then the step lemma over all steps
(`inv_step`) and the invariant of all runs (`inductive_inv`).
-/

namespace Summa

open List

namespace Manager

variable {ρ : Type} {s s' : Manager ρ} {t : Nat} {op : Operation ρ}

/-! ## The transactions are installable -/

variable {env : TxEnv ρ} {id : SegmentId} {active : ActiveOperationState} {guard : SegmentOperationGuard} {rows : List ρ}

theorem Inv.fresh (h : s.Inv) (hinj : Function.Injective env.newId)
    (hnew : ∀ i, env.newId i ∉ s.used) : env.Fresh s.dir := by
  refine ⟨hinj, fun i => ?_⟩
  by_contra hne
  exact hnew i (h.used_dir _ hne)

theorem not_used_of_wrote (hnew : ∀ i, env.newId i ∉ s.used)
    {written : List (SegmentId × List Byte)} (hw : env.Wrote written) : ∀ w ∈ written, w.1 ∉ s.used := by
  intro w hmem
  have : w.1 ∈ written.map Prod.fst := mem_map_of_mem hmem
  rw [hw, mem_map] at this
  obtain ⟨i, -, heq⟩ := this
  rw [← heq]
  exact hnew i

/-- The row counts of a prepared generation fit a `u32`: its segments were validated. -/
theorem Inv.newSegments_lt (h : s.Inv) {newSegments : List (SegmentId × Nat)}
    (hvalid : validateCompletedSegments s.dir newSegments = .ok ()) : ∀ n ∈ newSegments, n.2 < 2 ^ 32 := by
  intro n hn
  obtain ⟨rows, hrows, hlen⟩ := validateCompletedSegment_eq_ok.mp
    (validateCompletedSegments_eq_ok.mp hvalid n hn)
  rw [← hlen]
  exact h.rows n.1 rows hrows

theorem validated_of_commit {dir : Directory ρ} {md : IndexMetadata}
    {newSegments : List (SegmentId × Nat)} {keys : List String}
    {staged : List (SegmentId × StagedSegment)} {pub : Publication}
    (h : commitWithDeletes env dir md newSegments keys staged = .ok pub) :
    validateCompletedSegments dir newSegments = .ok () := by
  by_cases hne : keys = [] ∧ staged = []
  · rw [commitWithDeletes, if_pos hne, commit] at h
    obtain ⟨⟨⟩, hvalid, -⟩ := Fallible.bind_eq_ok h
    exact hvalid
  · exact (commitWithDeletes_eq_ok h hne).1

section Commit

variable {env : TxEnv ρ} {newSegments : List (SegmentId × Nat)} {keys : List String}
  {staged : List (SegmentId × StagedSegment)} {pub : Publication}

variable (h : s.Inv) (hinj : Function.Injective env.newId) (hnew : ∀ i, env.newId i ∉ s.used)
  (hpub : commitWithDeletes env s.dir s.metadata newSegments keys staged = .ok pub)

include h hinj hnew hpub

theorem Inv.commitSpec : CommitSpec env s.dir s.metadata newSegments keys staged pub :=
  commitWithDeletes_spec hpub h.wellFormed (h.fresh hinj hnew) (h.newSegments_lt (validated_of_commit hpub))

theorem Inv.installable_commit
    (hprep : ∀ n ∈ newSegments, ∃ t op, s.ops t = some op ∧ op.task = .segment n.1) :
    s.Installable (newSegments.map Prod.fst) pub := by
  have hspec := h.commitSpec hinj hnew hpub
  have hget : ∀ i, (addNewSegments s.metadata newSegments).get i ≠ none → pub.next.get i ≠ none := by
    intro i hne hnone
    have hcount := hspec.numDocs i
    rw [rowCounts, rowCounts, hnone] at hcount
    simp at hcount
    exact hne hcount
  refine ⟨commitWithDeletes_owns hpub, hspec.wellFormed, not_used_of_wrote hnew hspec.wrote,
    fun i hi => ?_, fun t op _ _ i _ hne => hget i ?_, fun i info' deletion hne hg hd hu => ?_⟩
  · obtain ⟨n, hn, rfl⟩ := mem_map.mp hi
    obtain ⟨t₀, op₀, hop₀, htask₀⟩ := hprep n hn
    obtain ⟨hguard, -, hdet, hprot⟩ := (h.ops t₀ op₀ hop₀).output n.1 (by rw [htask₀]; rfl)
    refine ⟨hdet, hprot, fun t op hop hg => .inr ?_⟩
    obtain ⟨-, rfl⟩ := h.op_eq hop₀ hop hguard hg
    refine ⟨htask₀, hget n.1 ?_⟩
    obtain ⟨c, hc⟩ := exists_lookup hn
    rw [get_addNewSegments, hc]
    cases s.metadata.get n.1 <;> simp
  · rw [get_addNewSegments]
    obtain ⟨info, hinfo⟩ := Option.ne_none_iff_exists'.mp hne
    simp [hinfo]
  · rcases commitWithDeletes_masks hpub hg (m := deletion.id)
      (by simp [SegmentMetaInfo.deletionId, hd]) with ⟨info₀, h₀, hdel⟩ | hw
    · refine ⟨info₀, h₀, hdel, ?_⟩
      have hcount := hspec.numDocs i
      rw [rowCounts, rowCounts, hg, get_addNewSegments, h₀] at hcount
      simpa using hcount.symm
    · obtain ⟨w, hmem, heq⟩ := mem_map.mp hw
      exact absurd (heq ▸ hu) (not_used_of_wrote hnew hspec.wrote w hmem)

end Commit

section Replace

variable {env : TxEnv ρ} {r : Replacement} {rows : List ρ} {reader : Result OutputReader}
  {pub : Publication}

/-- The output of an unpublished rewrite is not in the metadata. -/
theorem Inv.get_output (h : s.Inv) (hop : s.ops t = some op) {i : SegmentId}
    (hi : op.task.output = some i) (hseg : op.task ≠ .segment i) : s.metadata.get i = none := by
  by_contra hne
  obtain ⟨info, hg⟩ := Option.ne_none_iff_exists'.mp hne
  exact (h.ops t op hop).unpublished i hi hseg (mem_ownedIds_self hg)

theorem Inv.closeRewrite (h : s.Inv) (hop : s.ops t = some op) (htask : op.task = .rewrite r rows) :
    (s.setTask t op (.closed (some r.newId))).Inv :=
  h.setTask hop (opOk_closed fun i hi => (h.ops t op hop).cleanup i (by rw [htask]; exact hi))

section

variable (h : s.Inv) (hop : s.ops t = some op) (htask : op.task = .rewrite r rows)
  (hinj : Function.Injective env.newId) (hnew : ∀ i, env.newId i ∉ s.used)
  (hpub : r.replaceSegments env s.dir s.metadata reader = .ok pub)

include h hop htask hinj hnew hpub

theorem Inv.replaceSpec : Replacement.ReplaceSpec env s.dir s.metadata r pub := by
  have hcontent := (h.ops t op hop).content
  rw [htask] at hcontent
  exact Replacement.replaceSegments_spec h.wellFormed (h.fresh hinj hnew) hcontent.2.2.1 hpub

theorem Inv.installable_replace : (s.setTask t op (.closed (some r.newId))).Installable [r.newId] pub := by
  have hspec := h.replaceSpec hop htask hinj hnew hpub
  have hok := h.ops t op hop
  have hout : op.task.output = some r.newId := by rw [htask]; rfl
  have hnone := h.get_output hop hout (by rw [htask]; simp)
  obtain ⟨hguard, -, hdet, hprot⟩ := hok.output r.newId hout
  refine ⟨Replacement.replaceSegments_owns hnone hpub, hspec.wellFormed,
    not_used_of_wrote hnew hspec.wrote, fun i hi => ?_, fun t' op' hop' hcl i hg hne => ?_,
    fun i info' deletion hne hg hd hu => ?_⟩
  · rw [mem_singleton.mp hi]
    refine ⟨hdet, hprot, fun t' op' hop' hg => .inl ?_⟩
    rcases update_eq_some hop' with ⟨-, heq⟩ | ⟨hne, hold⟩
    · cases heq; rfl
    · exact absurd (h.op_eq hop hold hguard hg).1 hne
  · rcases update_eq_some hop' with ⟨-, heq⟩ | ⟨ht, hold⟩
    · cases heq; cases hcl
    · have hmem : i ∉ r.oldIds := by
        intro hmem
        have hsrc := (hok.sources i (by rw [htask]; exact hmem)).1
        exact ht (h.op_eq hop hold hsrc hg).1
      have hid : i ≠ r.newId := by rintro rfl; exact hne hnone
      rw [hspec.kept i hmem hid]; exact hne
  · have hid : i ≠ r.newId := by rintro rfl; exact hne hnone
    by_cases hmem : i ∈ r.oldIds
    · rw [hspec.removed i hmem hid] at hg; cases hg
    · rw [hspec.kept i hmem hid] at hg
      exact ⟨info', hg, rfl, rfl⟩

end

end Replace

section Vectors

variable {staged : List StagedVectorSegment} {pub : Publication}

/-- An operation after `closeVectors`: closed if its rewrite is in `staged`, unchanged if not. -/
theorem closeVectors_eq_some {op' : Operation ρ} (h : (s.closeVectors staged).ops t = some op') :
    ∃ op, s.ops t = some op ∧ op'.guard = op.guard ∧
      ((∃ v rows, v ∈ staged ∧ op.task = .vector v rows ∧ op'.task = .closed (some v.outputId)) ∨
        op' = op ∧ ∀ v rows, op.task = .vector v rows → v ∉ staged) := by
  obtain ⟨op, hop, heq⟩ := Option.map_eq_some_iff.mp h
  refine ⟨op, hop, ?_⟩
  cases htask : op.task with
  | vector v rows =>
    rw [htask] at heq
    simp only at heq
    split at heq
    · rename_i hv
      rw [← heq]
      exact ⟨rfl, .inl ⟨v, rows, hv, rfl, rfl⟩⟩
    · rename_i hv
      rw [← heq]
      refine ⟨rfl, .inr ⟨rfl, fun v' rows' heq' => ?_⟩⟩
      cases heq'
      exact hv
  | _ =>
    rw [htask] at heq
    rw [← heq]
    exact ⟨rfl, .inr ⟨rfl, nofun⟩⟩

theorem guards_closeVectors : (s.closeVectors staged).guards = s.guards := by
  funext t
  refine (Option.map_map _ _ _).trans ?_
  refine congrArg (fun f => (s.ops t).map f) (funext fun op => ?_)
  simp only [Function.comp_apply]
  split
  · split <;> rfl
  · rfl

theorem Inv.closeVectors (h : s.Inv) : (s.closeVectors staged).Inv :=
  { h with
    active := by rw [guards_closeVectors]; exact h.active
    used_guard := fun t op' hop' i hi => by
      obtain ⟨op, hop, hg, -⟩ := closeVectors_eq_some hop'
      exact h.used_guard t op hop i (hg ▸ hi)
    ops := fun t op' hop' => by
      obtain ⟨op, hop, hg, ⟨v, rows, -, htask, hcl⟩ | ⟨rfl, -⟩⟩ := closeVectors_eq_some hop'
      · obtain ⟨guard, task⟩ := op'
        cases hcl
        cases hg
        refine opOk_closed fun i hi => (h.ops t op hop).cleanup i ?_
        rw [htask]; exact hi
      · exact (h.ops t op' hop).congr }

section

variable (h : s.Inv)
  (hprep : ∀ v ∈ staged, ∃ t op rows, s.ops t = some op ∧ op.task = .vector v rows)
  (hpub : publishVectorGeneration s.dir s.metadata staged = .ok pub)

include h hprep hpub

theorem Inv.moveSpec :
    (∀ v ∈ staged, s.metadata.get v.sourceId ≠ none) ∧
    (∀ v ∈ staged, s.metadata.get v.outputId = none) ∧ MoveSpec s.metadata staged pub.next ∧
      pub.written = [] := by
  have hsrc : ∀ v ∈ staged, s.metadata.get v.sourceId ≠ none := by
    intro v hv
    obtain ⟨t, op, rows, hop, htask⟩ := hprep v hv
    exact ((h.ops t op hop).sources v.sourceId (by rw [htask]; simp [Task.sources])).2
  have hout : ∀ v ∈ staged, s.metadata.get v.outputId = none := by
    intro v hv
    obtain ⟨t, op, rows, hop, htask⟩ := hprep v hv
    exact h.get_output hop (by rw [htask]; rfl) (by rw [htask]; simp)
  obtain ⟨-, next, hnext, rfl⟩ := publishVectorGeneration_eq_ok hpub
  obtain ⟨hmoved, hremoved, hkept, hsrcs, houts⟩ := foldlM_moveSegment hsrc hout hnext
  exact ⟨hsrc, hout, ⟨hmoved, hremoved, hkept, hsrcs, houts⟩, rfl⟩

/-- The output of a staged vector rewrite has the rows of its source. -/
theorem Inv.vector_rows : ∀ v ∈ staged, s.dir.rows v.outputId = s.dir.rows v.sourceId := by
  intro v hv
  obtain ⟨t, op, rows, hop, htask⟩ := hprep v hv
  obtain ⟨rows', hrows', -⟩ := validateCompletedSegment_eq_ok.mp (validateCompletedSegments_eq_ok.mp
    (publishVectorGeneration_eq_ok hpub).1 (v.outputId, v.docCount) (mem_map_of_mem hv))
  have hok := h.ops t op hop
  have hcontent := hok.content
  rw [htask] at hcontent
  have hsame := hcontent.1 _ (Directory.rows_eq_some.mp hrows')
  cases hsame
  obtain ⟨info, hinfo⟩ := Option.ne_none_iff_exists'.mp
    (hok.sources v.sourceId (by rw [htask]; simp [Task.sources])).2
  obtain ⟨rows₀, hrows₀, -⟩ := (h.wellFormed _ _ hinfo).files
  rw [hrows', hrows₀, hcontent.2, hrows₀]
  rfl

theorem Inv.installable_vectors : (s.closeVectors staged).Installable (staged.map (·.outputId)) pub := by
  obtain ⟨hsrc, hout, hmove, hwritten⟩ := h.moveSpec hprep hpub
  have hclosed : ∀ v ∈ staged, ∀ i, i = v.sourceId ∨ i = v.outputId → ∀ t op,
      (s.closeVectors staged).ops t = some op → i ∈ op.guard.segmentIds →
        op.task.isClosed = true := by
    intro v hv i hi t op' hop' hg
    obtain ⟨t₀, op₀, rows, hop₀, htask⟩ := hprep v hv
    have hok := h.ops t₀ op₀ hop₀
    have hi₀ : i ∈ op₀.guard.segmentIds := by
      rcases hi with rfl | rfl
      · exact (hok.sources _ (by rw [htask]; simp [Task.sources])).1
      · exact (hok.output _ (by rw [htask]; rfl)).1
    obtain ⟨op, hop, hgeq, hcase⟩ := closeVectors_eq_some hop'
    obtain ⟨-, rfl⟩ := h.op_eq hop₀ hop hi₀ (hgeq ▸ hg)
    rcases hcase with ⟨_, _, -, -, hcl⟩ | ⟨-, hno⟩
    · rw [hcl]; rfl
    · exact absurd hv (hno v rows htask)
  have hkept : ∀ i, s.metadata.get i ≠ none → i ∉ staged.map (·.sourceId) →
      pub.next.get i = s.metadata.get i := by
    intro i hne hs
    refine hmove.kept i hs fun ho => ?_
    obtain ⟨v, hv, rfl⟩ := mem_map.mp ho
    exact hne (hout v hv)
  refine ⟨publishVectorGeneration_owns h.wellFormed hsrc hout hpub, fun i info hg => ?_,
    by simp [hwritten], fun i hi => ?_, fun t op hop hcl i hg hne => ?_,
    fun i info' deletion hne hg hd hu => ?_⟩
  · rw [hwritten]
    by_cases ho : i ∈ staged.map (·.outputId)
    · obtain ⟨v, hv, rfl⟩ := mem_map.mp ho
      obtain ⟨info', hinfo', hnext⟩ := hmove.moved v hv
      rw [hg] at hnext
      cases hnext
      obtain ⟨files, bound, mask⟩ := h.wellFormed _ _ hinfo'
      refine ⟨?_, bound, mask⟩
      rw [← h.vector_rows hprep hpub v hv] at files
      exact files
    · by_cases hs : i ∈ staged.map (·.sourceId)
      · obtain ⟨v, hv, rfl⟩ := mem_map.mp hs
        rw [hmove.removed v hv] at hg
        cases hg
      · rw [hmove.kept i hs ho] at hg
        exact h.wellFormed i info hg
  · obtain ⟨v, hv, rfl⟩ := mem_map.mp hi
    obtain ⟨t₀, op₀, rows, hop₀, htask⟩ := hprep v hv
    obtain ⟨-, -, hdet, hprot⟩ := (h.ops t₀ op₀ hop₀).output v.outputId (by rw [htask]; rfl)
    exact ⟨hdet, hprot, fun t op hop hg => .inl (hclosed v hv _ (.inr rfl) t op hop hg)⟩
  · have hs : i ∉ staged.map (·.sourceId) := by
      intro hs
      obtain ⟨v, hv, rfl⟩ := mem_map.mp hs
      rw [hclosed v hv _ (.inl rfl) t op hop hg] at hcl
      cases hcl
    rw [hkept i hne hs]; exact hne
  · have hs : i ∉ staged.map (·.sourceId) := by
      intro hs
      obtain ⟨v, hv, rfl⟩ := mem_map.mp hs
      rw [hmove.removed v hv] at hg
      cases hg
    rw [hkept i hne hs] at hg
    exact ⟨info', hg, rfl, rfl⟩

end

end Vectors

/-! ## Every step keeps the invariant -/

section

variable (h : s.Inv)

include h

/-- Claiming deletion files changes nothing but the active operations. -/
theorem Inv.claimMasks {ids : List SegmentId} (hclaim : claimMasks ids s = some s') :
    s'.Inv ∧ s'.metadata = s.metadata ∧ s'.dir = s.dir := by
  induction ids generalizing s with
  | nil => cases hclaim; exact ⟨h, rfl, rfl⟩
  | cons id ids ih =>
    rw [Manager.claimMasks] at hclaim
    split at hclaim
    · cases hclaim
    · rename_i active guard hreg
      have hstart : (s.start active guard (.closed none) {id}).Inv :=
        h.start hreg (by simp) (opOk_closed nofun)
      obtain ⟨hinv, hmd, hdir⟩ := ih hstart hclaim
      exact ⟨hinv, hmd, hdir⟩

/-- A new identity is nobody's. -/
theorem Inv.fresh_id (hid : id ∉ s.used) :
    s.dir id = none ∧ id ∉ s.metadata.ownedIds ∧ id ∉ s.pendingCleanup ∧ id ∉ s.detached ∧
      s.tracker.isDeletionProtected id = false := by
  refine ⟨?_, fun hm => hid (h.used_of_owned hm), fun hm => hid (h.used_cleanup id (.inl hm)),
    fun hm => hid (h.used_cleanup id (.inr hm)), ?_⟩
  · by_contra hne
    exact hid (h.used_dir id hne)
  · rw [← Bool.not_eq_true]
    exact fun hp => hid (h.used_tracker id hp)

theorem Inv.beginSegment (hid : id ∉ s.used)
    (hreg : s.active.tryRegisterIndexing [id] = some (active, guard)) :
    (s.start active guard (.segment id) {id}).Inv := by
  obtain ⟨-, hown, hclean, hdet, hprot⟩ := h.fresh_id hid
  obtain ⟨rfl, -⟩ := ActiveOk.tryRegisterKind_eq_some hreg
  refine h.start hreg (by simp) ⟨fun i hi => ?_, fun i hi => ?_, fun i hi hmem => ?_, fun i hi hseg => ?_,
    nofun, nofun, nofun, nodup_nil,
    trivial⟩
  · exact .inr (.inl (by rw [mem_singleton.mp hi]; rfl))
  · cases hi
    exact ⟨mem_singleton_self _, hclean, hdet, hprot⟩
  · cases hi
    exact absurd hmem hown
  · cases hi
    exact absurd rfl hseg

/-- The rows that a rewrite reads are the ones its publication needs. -/
theorem Inv.rowsOk {r : Replacement} {used : Finset SegmentId} (hsub : s.used ⊆ used)
    (hone : r.layout = .compacted → ∃ id info deletion, r.oldIds = [id] ∧
      s.metadata.get id = some info ∧ info.deletions = some deletion)
    (hexp : r.expectedDeletions = s.readDeletions r) : r.RowsOk s.dir s.metadata used (s.readRows r) := by
  unfold Replacement.RowsOk readRows
  rw [hexp, readDeletions]
  split
  · rename_i hl
    obtain ⟨id, info, deletion, hids, hinfo, hdel⟩ := hone hl
    refine ⟨id, deletion, hids, by simp [hids, hinfo, hdel], hsub (h.used_of_owned ?_),
      fun _ _ _ => by simp [hids]⟩
    exact mem_ownedIds_mask hinfo (by simp [SegmentMetaInfo.deletionId, hdel])
  · exact ⟨rfl, rfl⟩

/-- A rewrite starts: it claims its sources and an output that is nobody's. -/
theorem Inv.startRewrite {task : Task ρ} {vectorUpdate : Bool} (hw : task.writes ≠ none)
    (hout : task.output = some id) (hid : id ∉ s.used)
    (hsrc : ∀ i ∈ task.sources, s.metadata.hasSegment i = true) (hnodup : task.sources.Nodup)
    (hcontent : s.dir id = none → task.ContentOk s.dir s.metadata (s.used ∪ {id}))
    (hreg : s.active.tryRegisterKind (task.sources ++ [id]) false vectorUpdate = some (active, guard)) :
    (s.start active guard task {id}).Inv := by
  obtain ⟨hnone, hown, hclean, hdet, hprot⟩ := h.fresh_id hid
  obtain ⟨rfl, -⟩ := ActiveOk.tryRegisterKind_eq_some hreg
  have hget : ∀ i ∈ task.sources, s.metadata.get i ≠ none := fun i hi =>
    Option.ne_none_iff_exists'.mpr (IndexMetadata.hasSegment_iff.mp (hsrc i hi))
  obtain ⟨hseg, hdel, hcleanup⟩ : (∀ i, task ≠ .segment i) ∧ task.deletes = none ∧
      task.cleanup = some id := by
    cases task <;> simp_all [Task.writes, Task.output, Task.deletes, Task.cleanup]
  refine h.start hreg (fun i hi => ?_) ⟨fun i hi => ?_, fun i hi => ?_, fun i hi => absurd hi (hseg i),
    fun i hi _ => ?_, fun i hi => ⟨mem_append_left _ hi, hget i hi⟩, fun i hi => ?_,
    fun i hi => ?_, hnodup, hcontent hnone⟩
  · rcases mem_append.mp hi with hi | hi
    · obtain ⟨info, hinfo⟩ := Option.ne_none_iff_exists'.mp (hget i hi)
      exact Finset.mem_union_left _ (h.used_of_owned (mem_ownedIds_self hinfo))
    · exact Finset.mem_union_right _ (by simpa using hi)
  · rcases mem_append.mp hi with hi | hi
    · exact .inr (.inr (.inl hi))
    · exact .inr (.inl (by rw [mem_singleton.mp hi]; exact hout))
  · obtain rfl := Option.some.inj (hout.symm.trans hi)
    exact ⟨by simp, hclean, hdet, hprot⟩
  · obtain rfl := Option.some.inj (hout.symm.trans hi)
    exact hown
  · cases hdel.symm.trans hi
  · obtain rfl := Option.some.inj (hcleanup.symm.trans hi)
    simp

/-- A producer that gives up goes on to delete its output. -/
theorem Inv.failOutput (hop : s.ops t = some op) (htask : op.task.output = some id) :
    (s.setTask t op (if s.metadata.ownsId id then .closed none
      else .deleting id op.task.sources)).Inv := by
  have hok := h.ops t op hop
  obtain ⟨hg, -, -, hprot⟩ := hok.output id htask
  split
  · exact h.setTask hop (opOk_closed nofun)
  · rename_i hown
    rw [IndexMetadata.ownsId_iff] at hown
    refine h.setTask hop ⟨fun i hi => ?_, nofun, nofun,
      nofun, hok.sources, fun i hi => ?_, nofun, hok.nodup,
      trivial⟩
    · rcases hok.claims i hi with hc | ho | hs | hd
      · cases htask' : op.task <;> rw [htask'] at hc htask <;> simp [Task.output, Task.isClosed] at hc htask
      · rw [htask] at ho
        cases ho
        exact .inr (.inr (.inr rfl))
      · exact .inr (.inr (.inl hs))
      · cases htask' : op.task <;> rw [htask'] at hd htask <;> simp [Task.output, Task.deletes] at hd htask
    · cases hi
      exact ⟨hg, hown, hprot⟩

theorem Inv.sweep (hid : id ∈ s.used) (howns : s.metadata.ownsId id = false)
    (hreg : s.active.tryRegister [id] = some (active, guard))
    (hprot : s.tracker.isDeletionProtected id = false) : (s.start active guard (.deleting id []) ∅).Inv := by
  obtain ⟨rfl, -⟩ := ActiveOk.tryRegisterKind_eq_some hreg
  rw [← Bool.not_eq_true, IndexMetadata.ownsId_iff] at howns
  refine h.start hreg (by simp [hid]) ⟨fun i hi => ?_, nofun, nofun,
    nofun, nofun, fun i hi => ?_, nofun,
    nodup_nil, trivial⟩
  · exact .inr (.inr (.inr (by rw [mem_singleton.mp hi]; rfl)))
  · cases hi
    exact ⟨mem_singleton_self _, howns, hprot⟩

theorem Inv.writeSegment (hop : s.ops t = some op)
    (htask : op.task = .segment id) (hnew : s.dir id = none) (hlen : rows.length < 2 ^ 32) :
    (s.writeFile id (some (.segment rows))).Inv := by
  have hg := ((h.ops t op hop).output id (by rw [htask]; rfl)).1
  refine h.writeFile (fun hown => h.wellFormed.ne_none hown hnew) (h.used_guard t op hop id hg) ?_ ?_
  · intro rows' heq
    cases heq
    exact hlen
  · intro f _ t' op' hop' ho
    obtain ⟨-, rfl⟩ := h.op_eq hop hop' hg ((h.ops t' op' hop').output id ho).1
    exact .inr htask

/-- The rows that a task writes fit a segment. -/
theorem Inv.writes_length (hop : s.ops t = some op)
    (hw : op.task.writes = some (.segment rows)) : rows.length < 2 ^ 32 := by
  have hcontent := (h.ops t op hop).content
  cases htask : op.task with
  | rewrite r rows' =>
    rw [htask] at hw hcontent
    cases hw
    rw [← hcontent.2.1]
    exact hcontent.2.2.1
  | vector staged rows' =>
    rw [htask] at hw hcontent
    cases hw
    rw [hcontent.2]
    cases hrows : s.dir.rows staged.sourceId with
    | none => simp
    | some rows₀ => exact h.rows _ _ hrows
  | segment | deleting | closed => rw [htask] at hw; cases hw

/-- Writing the output of a rewrite. -/
theorem Inv.writeOutput (hop : s.ops t = some op)
    (hout : op.task.output = some id) (hw : op.task.writes = some (.segment rows)) :
    (s.writeFile id (some (.segment rows))).Inv := by
  have hok := h.ops t op hop
  have hg := (hok.output id hout).1
  refine h.writeFile (hok.unpublished id hout ?_) (h.used_guard t op hop id hg) ?_ ?_
  · intro hseg
    rw [hseg] at hw
    cases hw
  · intro rows' heq
    cases heq
    exact h.writes_length hop hw
  · intro f hf t' op' hop' ho
    obtain ⟨-, rfl⟩ := h.op_eq hop hop' hg ((h.ops t' op' hop').output id ho).1
    exact .inl (hw.trans hf)

theorem Inv.acquireSnapshot {ids : List SegmentId} (hids : ∀ i ∈ ids, i ∈ s.metadata.ownedIds) :
    Inv { s with
      tracker := (s.tracker.acquire ids).1
      snapshots := (s.tracker.acquire ids).2 :: s.snapshots } := by
  obtain ⟨hsnap, hok⟩ := h.tracker.acquire hids
  rw [hsnap]
  refine h.moveTracker ?_ fun i hp => by rwa [SegmentTracker.isDeletionProtected_acquire] at hp
  have hheld : (fun i => s.held i + ids.count i) =
      fun i => ((ids :: s.snapshots).map fun snap => snap.count i).sum := by
    funext i
    rw [map_cons, sum_cons, Nat.add_comm]
    rfl
  rwa [hheld] at hok

theorem Inv.dropSnapshot {snap : List SegmentId} (hsnap : snap ∈ s.snapshots) :
    Inv { s with
      tracker := (s.tracker.release snap).1
      snapshots := s.snapshots.erase snap } := by
  refine h.moveTracker (h.tracker.release fun i => ?_)
    fun i hp => SegmentTracker.isDeletionProtected_of_release hp
  have hperm := ((perm_cons_erase hsnap).map fun snap => snap.count i).sum_eq
  rw [map_cons, sum_cons, Nat.add_comm] at hperm
  exact hperm

/-- The files that a step deletes are not published. -/
theorem Inv.deletes_not_owned {who : Deleter}
    (hstep : Step s (.delete who id) s') : id ∉ s.metadata.ownedIds ∧ id ∈ s.used := by
  cases hstep with
  | deleteClaimed hop htask =>
    obtain ⟨hg, hown, -⟩ := (h.ops _ _ hop).deletes id htask
    exact ⟨hown, h.used_guard _ _ hop id hg⟩
  | deleteDetached hid => exact ⟨h.detached id hid, h.used_cleanup id (.inr hid)⟩
  | deleteRetired hid =>
    exact ⟨fun hown => h.tracker.owned_not_scheduled hown hid,
      h.used_tracker id (SegmentTracker.isDeletionProtected_iff.mpr (.inr hid))⟩

theorem Inv.deleteFile {who : Deleter} (hstep : Step s (.delete who id) s') : (s.writeFile id none).Inv :=
  h.writeFile (h.deletes_not_owned hstep).1 (h.deletes_not_owned hstep).2 (nofun)
    nofun

/-- One step keeps the invariant. -/
theorem inv_step {e : Event ρ} (hstep : Step s e s') : s'.Inv := by
  cases hstep with
  | beginSegment hid hreg => exact h.beginSegment hid hreg
  | writeSegment rows hop htask hnew hlen => exact h.writeSegment hop htask hnew hlen
  | commit hprep hinj hnew hpub hclaim =>
    exact (((h.installable_commit hinj hnew hpub hprep).inv h).claimMasks hclaim).1
  | failTransaction files hnew => exact h.failTransaction hnew
  | beginRewrite hnodup hsrc hid hone hcount hlen hexp hreg =>
    exact h.startRewrite (by simp [Task.writes]) rfl hid hsrc hnodup
      (fun hnone => ⟨fun _ hf => (by cases hnone.symm.trans hf), hcount, hlen,
        h.rowsOk Finset.subset_union_left hone hexp⟩) hreg
  | writeRewrite hop htask | writeVector hop htask =>
    exact h.writeOutput hop (by rw [htask]; rfl) (by rw [htask]; rfl)
  | publish hop htask hinj hnew hpub hclaim =>
    exact (((h.installable_replace hop htask hinj hnew hpub).inv
      (h.closeRewrite hop htask)).claimMasks hclaim).1
  | beginVector hsrc hid hreg =>
    exact h.startRewrite (by simp [Task.writes]) rfl hid (by simpa [Task.sources] using hsrc)
      (nodup_singleton _) (fun hnone => ⟨fun _ hf => (by cases hnone.symm.trans hf), rfl⟩) hreg
  | publishVectors hprep hpub => exact (h.installable_vectors hprep hpub).inv h.closeVectors
  | failOutput hop htask => exact h.failOutput hop htask
  | sweep hid howns hreg hprot => exact h.sweep hid howns hreg hprot
  | deleteClaimed hop htask => exact h.deleteFile (.deleteClaimed hop htask)
  | drop hop =>
    have hdrop := h.drop hop fun i (hi : i ∈ (∅ : Finset SegmentId)) => absurd hi (Finset.notMem_empty i)
    rwa [Finset.empty_union] at hdrop
  | @abandon _ _ id hop htask =>
    exact h.drop hop fun i (hi : i ∈ ({id} : Finset SegmentId)) =>
      (h.ops _ _ hop).cleanup i (by rw [htask, Finset.mem_singleton.mp hi])
  | checkCleanup hid => exact h.checkCleanup hid
  | deleteDetached hid => exact h.deleteFile (.deleteDetached hid)
  | finishDetached => exact h.finishDetached _
  | deleteRetired hid => exact h.deleteFile (.deleteRetired hid)
  | completeDeletion ids =>
    exact h.moveTracker (h.tracker.completeDeletion ids)
      fun i hp => SegmentTracker.isDeletionProtected_of_complete hp
  | acquireSnapshot ids hids => exact h.acquireSnapshot hids
  | dropSnapshot hsnap => exact h.dropSnapshot hsnap
  | stopMaintenance | stopAccepting | pauseNonIndexing | resumeNonIndexing => exact h.flags rfl rfl rfl

end

theorem Init.inv (h : s.Init) : s.Inv where
  active := by
    rw [h.active]
    have hg : s.guards = fun _ => none := by funext t; simp [guards, h.ops]
    rw [hg]
    exact ActiveOk.new
  tracker := by
    rw [h.tracker]
    have hheld : s.held = fun _ => 0 := by funext i; simp [held, h.snapshots]
    rw [hheld]
    refine ⟨fun i => ?_, fun i hi => ?_, by simp, by simp, by simp, by simp⟩
    · simp only
      split <;> rfl
    · simp [IndexMetadata.ownsId_iff.mpr hi]
  wellFormed := h.wellFormed
  rows := h.rows
  used_dir := h.used
  used_guard t op hop := by rw [h.ops] at hop; cases hop
  used_cleanup i hi := by rw [h.pendingCleanup, h.detached] at hi; simp at hi
  used_tracker i hi := by rw [h.tracker, SegmentTracker.isDeletionProtected_iff] at hi; simp at hi
  ops t op hop := by rw [h.ops] at hop; cases hop
  detached i hi := by rw [h.detached] at hi; cases hi

theorem inductive_inv : (lifecycle ρ).Inductive Inv :=
  ⟨fun _ h => Init.inv h, fun _ _ _ h hstep => inv_step h hstep⟩

end Manager

end Summa
