import Summa.Merge.Lifecycle

/-!
# The invariant of the segment lifecycle

`Manager.Inv` holds in every state that the lifecycle reaches (`inductive_inv`). It says that the
three owners agree: the claims are the disjoint union of the guards (`active`), the tracker counts
the snapshots and registers the metadata's files (`tracker`), and each operation's identities are
still its own (`OpOk`): its sources are published, its unpublished output is known to nobody else.

Each step is one of a few changes, and each change has one lemma: starting an operation, going on
with another task, dropping a guard, writing or deleting a file, moving the tracker, and installing
a publication (`Inv.install`), which needs of the transaction only `OwnsSpec`, `WellFormed` and what
it keeps (`Frame`).
-/

namespace Summa

open Function Finset

variable {ρ : Type}

/-- The rows that a rewrite carries are the ones its publication needs. -/
def Replacement.RowsOk (r : Replacement) (dir : Directory ρ) (md : IndexMetadata)
    (used : Finset SegmentId) (rows : List ρ) : Prop :=
  if r.layout = .compacted then
    ∃ id deletion, r.oldIds = [id] ∧ r.expectedDeletions = some [(id, some deletion)] ∧
      deletion.id ∈ used ∧ ∀ info, md.get id = some info → info.deletions = some deletion →
        rows = liveRows dir md id
  else r.expectedDeletions = none ∧ rows = r.oldIds.flatMap fun id => (dir.rows id).getD []

/-- The output file of a task, once written, has the rows that the task read. -/
def Task.ContentOk (dir : Directory ρ) (md : IndexMetadata) (used : Finset SegmentId) :
    Task ρ → Prop
  | .rewrite r rows => (∀ f, dir r.newId = some f → f = .segment rows) ∧
    r.docCount = rows.length ∧ r.docCount < 2 ^ 32 ∧ r.RowsOk dir md used rows
  | .vector staged rows => (∀ f, dir staged.outputId = some f → f = .segment rows) ∧
    rows = (dir.rows staged.sourceId).getD []
  | .segment _ | .deleting _ _ | .closed _ => True

namespace Manager

/-- What holds of one running operation. -/
structure OpOk (s : Manager ρ) (op : Operation ρ) : Prop where
  /-- An operation that is not closed claims nothing but what it uses. -/
  claims : ∀ i ∈ op.guard.segmentIds, op.task.isClosed = true ∨ op.task.output = some i ∨
    i ∈ op.task.sources ∨ op.task.deletes = some i
  output : ∀ i, op.task.output = some i → i ∈ op.guard.segmentIds ∧ i ∉ s.pendingCleanup ∧
    i ∉ s.detached ∧ s.tracker.isDeletionProtected i = false
  /-- A segment of a producer is published as a segment or not at all. -/
  segment : ∀ i, op.task = .segment i → i ∈ s.metadata.ownedIds → s.metadata.get i ≠ none
  unpublished : ∀ i, op.task.output = some i → op.task ≠ .segment i → i ∉ s.metadata.ownedIds
  sources : ∀ i ∈ op.task.sources, i ∈ op.guard.segmentIds ∧ s.metadata.get i ≠ none
  deletes : ∀ i, op.task.deletes = some i → i ∈ op.guard.segmentIds ∧ i ∉ s.metadata.ownedIds ∧
    s.tracker.isDeletionProtected i = false
  cleanup : ∀ i, op.task.cleanup = some i → i ∈ op.guard.segmentIds
  nodup : op.task.sources.Nodup
  content : op.task.ContentOk s.dir s.metadata s.used

/-- The invariant of the lifecycle. -/
structure Inv (s : Manager ρ) : Prop where
  active : ActiveOk s.active s.guards
  tracker : TrackerOk s.tracker s.held (· ∈ s.metadata.ownedIds)
  wellFormed : WellFormed s.dir s.metadata
  rows : ∀ i rows, s.dir.rows i = some rows → rows.length < 2 ^ 32
  used_dir : ∀ i, s.dir i ≠ none → i ∈ s.used
  used_guard : ∀ t op, s.ops t = some op → ∀ i ∈ op.guard.segmentIds, i ∈ s.used
  used_cleanup : ∀ i, i ∈ s.pendingCleanup ∨ i ∈ s.detached → i ∈ s.used
  used_tracker : ∀ i, s.tracker.isDeletionProtected i = true → i ∈ s.used
  ops : ∀ t op, s.ops t = some op → s.OpOk op
  /-- A cleanup that saw its output outside the metadata never sees it inside again. -/
  detached : ∀ i ∈ s.detached, i ∉ s.metadata.ownedIds

variable {s s' : Manager ρ} {t : Nat} {op : Operation ρ}

theorem Inv.used_of_owned (h : s.Inv) {i : SegmentId} (hi : i ∈ s.metadata.ownedIds) : i ∈ s.used :=
  h.used_dir i (h.wellFormed.ne_none hi)

theorem guards_eq_some {g : SegmentOperationGuard} :
    s.guards t = some g ↔ ∃ op, s.ops t = some op ∧ op.guard = g :=
  Option.map_eq_some_iff

variable {task : Task ρ} {active : ActiveOperationState} {guard : SegmentOperationGuard}

/-- The content of a task depends on its output file, on the rows of its sources and, for a compaction, on the
mask that it read. -/
theorem ContentOk.change {dir dir' : Directory ρ} {md md' : IndexMetadata} {used used' : Finset SegmentId}
    (h : task.ContentOk dir md used) (hsub : used ⊆ used')
    (hout : ∀ i f, task.output = some i → dir' i = some f →
      dir i = some f ∨ task.writes = some f ∨ task = .segment i)
    (hsrc : ∀ i ∈ task.sources, dir'.rows i = dir.rows i)
    (hlive : ∀ i ∈ task.sources, ∀ info' deletion, md'.get i = some info' → info'.deletions = some deletion →
      deletion.id ∈ used → ∃ info, md.get i = some info ∧ info.deletions = some deletion ∧
        liveRows dir' md' i = liveRows dir md i) : task.ContentOk dir' md' used' := by
  cases task with
  | rewrite r rows =>
    obtain ⟨hf, hc, hlt, hrows⟩ := h
    refine ⟨fun f hnew => ?_, hc, hlt, ?_⟩
    · obtain hold | hw | hw := hout r.newId f rfl hnew
      · exact hf f hold
      · cases hw; rfl
      · cases hw
    unfold Replacement.RowsOk at *
    split
    · rename_i hl
      rw [if_pos hl] at hrows
      obtain ⟨id, deletion, hids, hexp, hmem, hread⟩ := hrows
      refine ⟨id, deletion, hids, hexp, hsub hmem, fun info' hg hd => ?_⟩
      obtain ⟨info, hinfo, hdel, heq⟩ := hlive id (by simp [Task.sources, hids]) info' deletion hg hd hmem
      rw [heq, hread info hinfo hdel]
    · rename_i hl
      rw [if_neg hl] at hrows
      exact ⟨hrows.1, hrows.2.trans (List.flatMap_congr fun i hs => by rw [hsrc i hs])⟩
  | vector staged rows =>
    refine ⟨fun f hnew => ?_, h.2.trans (by rw [hsrc staged.sourceId (by simp [Task.sources])])⟩
    obtain hold | hw | hw := hout staged.outputId f rfl hnew
    · exact h.1 f hold
    · cases hw; rfl
    · cases hw
  | segment | deleting | closed => trivial

/-- The operation's content does not depend on files that are neither published nor its output. -/
theorem OpOk.content_dir {dir : Directory ρ} {used : Finset SegmentId} (h : s.OpOk op) (hsub : s.used ⊆ used)
    (hown : ∀ i ∈ s.metadata.ownedIds, dir i = s.dir i)
    (hout : ∀ i f, op.task.output = some i → dir i = some f →
      s.dir i = some f ∨ op.task.writes = some f ∨ op.task = .segment i) :
    op.task.ContentOk dir s.metadata used := by
  have hsrc : ∀ i ∈ op.task.sources, dir.rows i = s.dir.rows i := by
    intro i hi
    obtain ⟨info, hg⟩ := Option.ne_none_iff_exists'.mp (h.sources i hi).2
    exact Directory.rows_congr (hown i (mem_ownedIds_self hg))
  refine ContentOk.change h.content hsub hout hsrc fun i hi info _ hg hd _ => ⟨info, hg, hd, ?_⟩
  rw [liveRows, liveRows, visible_congr hown, hsrc i hi]

/-- An operation's facts survive more used identities, and cleanups and retirements of identities
it does not claim. -/
theorem OpOk.mono (h : s.OpOk op) (hmd : s'.metadata = s.metadata) (hdir : s'.dir = s.dir)
    (hused : s.used ⊆ s'.used)
    (hclean : ∀ i ∈ op.guard.segmentIds, op.task.output = some i →
      (i ∈ s'.pendingCleanup → i ∈ s.pendingCleanup) ∧ (i ∈ s'.detached → i ∈ s.detached))
    (hprot : ∀ i, s'.tracker.isDeletionProtected i = true → s.tracker.isDeletionProtected i = true) :
    s'.OpOk op := by
  have hprot' : ∀ i, s.tracker.isDeletionProtected i = false →
      s'.tracker.isDeletionProtected i = false := by
    intro i hi
    rw [← Bool.not_eq_true] at hi ⊢
    exact fun h' => hi (hprot i h')
  refine ⟨h.claims, fun i hi => ?_, ?_, ?_, ?_, fun i hi => ?_, h.cleanup, h.nodup, ?_⟩
  · obtain ⟨hg, hp, hd, ht⟩ := h.output i hi
    exact ⟨hg, fun h' => hp ((hclean i hg hi).1 h'), fun h' => hd ((hclean i hg hi).2 h'),
      hprot' i ht⟩
  · rw [hmd]; exact h.segment
  · rw [hmd]; exact h.unpublished
  · rw [hmd]; exact h.sources
  · rw [hmd]
    obtain ⟨hg, ho, ht⟩ := h.deletes i hi
    exact ⟨hg, ho, hprot' i ht⟩
  · rw [hmd, hdir]
    exact h.content_dir hused (fun _ _ => rfl) fun _ _ _ hf => .inl hf

/-- An operation's facts are about the files and their owners. -/
theorem OpOk.congr {active : ActiveOperationState} {ops : Nat → Option (Operation ρ)} (h : s.OpOk op) :
    OpOk { s with active, ops } op :=
  ⟨h.claims, h.output, h.segment, h.unpublished, h.sources, h.deletes, h.cleanup, h.nodup, h.content⟩

/-! ## Operations start, go on and end -/

theorem guards_start {fresh : Finset SegmentId} : (s.start active guard task fresh).guards =
      update s.guards guard.operationToken (some guard) := by
  funext t
  unfold guards start
  rcases eq_or_ne t guard.operationToken with rfl | hne
  · simp
  · simp [hne]

theorem Inv.start (h : s.Inv) {fresh : Finset SegmentId} {ids : List SegmentId} {indexing vectorUpdate : Bool}
    (hreg : s.active.tryRegisterKind ids indexing vectorUpdate = some (active, guard))
    (hids : ∀ i ∈ ids, i ∈ s.used ∪ fresh) (hop : (s.start active guard task fresh).OpOk ⟨guard, task⟩) :
    (s.start active guard task fresh).Inv := by
  refine { h with
    active := by rw [guards_start]; exact h.active.register hreg
    used_dir := fun i hi => mem_union_left _ (h.used_dir i hi)
    used_guard := fun t op hop' i hi => ?_
    used_cleanup := fun i hi => mem_union_left _ (h.used_cleanup i hi)
    used_tracker := fun i hi => mem_union_left _ (h.used_tracker i hi)
    ops := fun t op hop' => ?_ }
  · obtain ⟨hg, -⟩ := ActiveOk.tryRegisterKind_eq_some hreg
    rcases update_eq_some hop' with ⟨rfl, hnew⟩ | ⟨-, hold⟩
    · cases hnew
      exact hids i (by simpa [hg] using hi)
    · exact mem_union_left _ (h.used_guard t op hold i hi)
  · rcases update_eq_some hop' with ⟨rfl, hnew⟩ | ⟨-, hold⟩
    · cases hnew
      exact hop
    · exact (h.ops t op hold).mono rfl rfl subset_union_left
        (fun _ _ _ => ⟨fun h => h, fun h => h⟩) fun _ h => h

theorem guards_setTask (hop : s.ops t = some op) (task : Task ρ) :
    (s.setTask t op task).guards = s.guards := by
  funext t'
  unfold guards setTask
  rcases eq_or_ne t' t with rfl | hne
  · simp [hop]
  · simp [hne]

theorem Inv.setTask (h : s.Inv) (hop : s.ops t = some op)
    (hok : s.OpOk { op with task }) : (s.setTask t op task).Inv := by
  refine { h with
    active := by rw [guards_setTask hop]; exact h.active
    used_guard := fun t' op' hop' i hi => ?_
    ops := fun t' op' hop' => OpOk.congr ?_ }
  · rcases update_eq_some hop' with ⟨rfl, hnew⟩ | ⟨-, hold⟩
    · cases hnew
      exact h.used_guard t' op hop i hi
    · exact h.used_guard t' op' hold i hi
  · rcases update_eq_some hop' with ⟨rfl, hnew⟩ | ⟨-, hold⟩
    · cases hnew
      exact hok
    · exact h.ops t' op' hold

/-- A closed operation promises nothing. -/
theorem opOk_closed {output : Option SegmentId}
    (hout : ∀ i, output = some i → i ∈ guard.segmentIds) : s.OpOk ⟨guard, .closed output⟩ where
  claims _ _ := .inl rfl
  output _ h := nomatch h
  segment _ h := nomatch h
  unpublished _ h := nomatch h
  sources _ h := nomatch h
  deletes _ h := nomatch h
  cleanup := hout
  nodup := List.nodup_nil
  content := trivial

theorem guards_drop : ({ s with ops := update s.ops t none } : Manager ρ).guards =
    update s.guards t none := by
  funext t'
  unfold guards
  rcases eq_or_ne t' t with rfl | hne
  · simp
  · simp [hne]

/-- Dropping a guard; its identity `clean`, if any, waits for its cleanup. -/
theorem Inv.drop (h : s.Inv) (hop : s.ops t = some op) {clean : Finset SegmentId}
    (hclean : ∀ i ∈ clean, i ∈ op.guard.segmentIds) :
    Inv { s with
      active := s.active.dropGuard op.guard
      ops := update s.ops t none
      pendingCleanup := clean ∪ s.pendingCleanup } := by
  have hactive := h.active.drop (t := t) (guards_eq_some.mpr ⟨op, hop, rfl⟩)
  rw [← guards_drop] at hactive
  refine { h with
    active := hactive
    used_guard := fun t' op' hop' i hi => ?_
    used_cleanup := fun i hi => ?_
    ops := fun t' op' hop' => ?_ }
  · rcases update_eq_some hop' with ⟨-, hnew⟩ | ⟨-, hold⟩
    · cases hnew
    · exact h.used_guard t' op' hold i hi
  · rcases hi with hi | hi
    · rcases mem_union.mp hi with hi | hi
      · exact h.used_guard t op hop i (hclean i hi)
      · exact h.used_cleanup i (.inl hi)
    · exact h.used_cleanup i (.inr hi)
  · rcases update_eq_some hop' with ⟨-, hnew⟩ | ⟨hne, hold⟩
    · cases hnew
    · refine (h.ops t' op' hold).mono rfl rfl subset_rfl (fun i hi _ => ⟨fun hmem => ?_, fun h => h⟩)
        fun _ h => h
      rcases mem_union.mp hmem with hmem | hmem
      · -- the dropped guard and this one are disjoint
        exact absurd (h.active.disjoint t' t _ _ i (guards_eq_some.mpr ⟨op', hold, rfl⟩)
          (guards_eq_some.mpr ⟨op, hop, rfl⟩) hi (hclean i hmem)) hne
      · exact hmem

theorem Inv.flags (h : s.Inv) (hids : active.segmentIds = s.active.segmentIds)
    (htok : active.operationTokens = s.active.operationTokens)
    (hnext : active.nextOperationToken = s.active.nextOperationToken) : Inv { s with active } :=
  { h with
    active := h.active.flags hids htok hnext
    ops := fun t op hop => (h.ops t op hop).congr }

/-! ## Files -/

/-- Writing or deleting a file that is not published. -/
theorem Inv.writeFile (h : s.Inv) {id : SegmentId} {file : Option (File ρ)}
    (hown : id ∉ s.metadata.ownedIds) (hused : id ∈ s.used)
    (hlen : ∀ rows, file = some (.segment rows) → rows.length < 2 ^ 32)
    (hout : ∀ f, file = some f → ∀ t op, s.ops t = some op → op.task.output = some id →
      op.task.writes = some f ∨ op.task = .segment id) : (s.writeFile id file).Inv := by
  have hkeep : ∀ i ∈ s.metadata.ownedIds, (s.writeFile id file).dir i = s.dir i := by
    intro i hi
    refine s.dir_writeFile_ne ?_ file
    rintro rfl
    exact hown hi
  refine { h with
    wellFormed := h.wellFormed.congr hkeep
    rows := fun i rows hrows => ?_
    used_dir := fun i hi => ?_
    ops := fun t op hop => ?_ }
  · rcases eq_or_ne i id with rfl | hne
    · rw [Directory.rows_eq_some, dir_writeFile_self] at hrows
      exact hlen rows hrows
    · rw [Directory.rows_congr (s.dir_writeFile_ne hne file)] at hrows
      exact h.rows i rows hrows
  · rcases eq_or_ne i id with rfl | hne
    · exact hused
    · rw [s.dir_writeFile_ne hne] at hi
      exact h.used_dir i hi
  · have hok := h.ops t op hop
    refine ⟨hok.claims, hok.output, hok.segment, hok.unpublished, hok.sources, hok.deletes, hok.cleanup,
      hok.nodup, ?_⟩
    refine hok.content_dir subset_rfl hkeep fun i f hi hf => ?_
    rcases eq_or_ne i id with rfl | hne
    · rw [dir_writeFile_self] at hf
      exact .inr (hout f hf t op hop hi)
    · rw [s.dir_writeFile_ne hne] at hf
      exact .inl hf

/-- Two operations that claim one identity are the same. -/
theorem Inv.op_eq (h : s.Inv) {t' : Nat} {op' : Operation ρ} (hop : s.ops t = some op)
    (hop' : s.ops t' = some op') {i : SegmentId} (hi : i ∈ op.guard.segmentIds)
    (hi' : i ∈ op'.guard.segmentIds) : t' = t ∧ op' = op := by
  have ht := h.active.disjoint t' t _ _ i (guards_eq_some.mpr ⟨op', hop', rfl⟩)
    (guards_eq_some.mpr ⟨op, hop, rfl⟩) hi' hi
  subst ht
  rw [hop] at hop'
  cases hop'
  exact ⟨rfl, rfl⟩

/-! ## Readers and cleanups -/

theorem Inv.moveTracker (h : s.Inv) {tracker : SegmentTracker} {snapshots : List (List SegmentId)}
    (hok : TrackerOk tracker (fun i => (snapshots.map fun snap => snap.count i).sum)
      (· ∈ s.metadata.ownedIds))
    (hprot : ∀ i, tracker.isDeletionProtected i = true → s.tracker.isDeletionProtected i = true) :
    Inv { s with tracker, snapshots } :=
  { h with
    tracker := hok
    used_tracker := fun i hi => h.used_tracker i (hprot i hi)
    ops := fun t op hop => (h.ops t op hop).mono rfl rfl subset_rfl
      (fun _ _ _ => ⟨fun h => h, fun h => h⟩) hprot }

theorem Inv.checkCleanup (h : s.Inv) {id : SegmentId} (hid : id ∈ s.pendingCleanup) :
    Inv { s with
      pendingCleanup := s.pendingCleanup.erase id
      detached := if s.metadata.ownsId id then s.detached else insert id s.detached } := by
  have hdet : ∀ i, i ∈ (if s.metadata.ownsId id then s.detached else insert id s.detached) →
      i ∈ s.detached ∨ i = id ∧ id ∉ s.metadata.ownedIds := by
    intro i hi
    split at hi
    · exact .inl hi
    · rename_i hno
      rw [IndexMetadata.ownsId_iff] at hno
      rcases mem_insert.mp hi with rfl | hi
      · exact .inr ⟨rfl, hno⟩
      · exact .inl hi
  refine { h with
    used_cleanup := fun i hi => ?_
    ops := fun t op hop => ?_
    detached := fun i hi => ?_ }
  · rcases hi with hi | hi
    · exact h.used_cleanup i (.inl (mem_of_mem_erase hi))
    · rcases hdet i hi with hi | ⟨rfl, -⟩
      · exact h.used_cleanup i (.inr hi)
      · exact h.used_cleanup i (.inl hid)
  · refine (h.ops t op hop).mono rfl rfl subset_rfl (fun i _ hi => ⟨mem_of_mem_erase,
      fun hmem => ?_⟩) fun _ h => h
    rcases hdet i hmem with hmem | ⟨rfl, -⟩
    · exact hmem
    · exact absurd hid ((h.ops t op hop).output i hi).2.1
  · rcases hdet i hi with hi | ⟨rfl, hno⟩
    · exact h.detached i hi
    · exact hno

theorem Inv.finishDetached (h : s.Inv) (id : SegmentId) : Inv { s with detached := s.detached.erase id } :=
  { h with
    used_cleanup := fun i hi => h.used_cleanup i (hi.imp_right mem_of_mem_erase)
    ops := fun t op hop => (h.ops t op hop).mono rfl rfl subset_rfl
      (fun _ _ _ => ⟨fun h => h, mem_of_mem_erase⟩) fun _ h => h
    detached := fun i hi => h.detached i (mem_of_mem_erase hi) }

/-- Files under new identities, left behind by a failed transaction. -/
theorem Inv.failTransaction (h : s.Inv) {files : List (SegmentId × List Byte)}
    (hnew : ∀ w ∈ files, w.1 ∉ s.used) :
    Inv { s with
      dir := s.dir.writeAll files
      pendingCleanup := s.pendingCleanup ∪ (files.map Prod.fst).toFinset
      used := s.used ∪ (files.map Prod.fst).toFinset } := by
  have hmem : ∀ i ∈ s.used, i ∉ files.map Prod.fst := by
    intro i hi hmem
    obtain ⟨w, hw, rfl⟩ := List.mem_map.mp hmem
    exact hnew w hw hi
  have hkeep : ∀ i ∈ s.used, s.dir.writeAll files i = s.dir i := fun i hi =>
    Directory.writeAll_of_not_mem (hmem i hi)
  have hown : ∀ i ∈ s.metadata.ownedIds, s.dir.writeAll files i = s.dir i := fun i hi =>
    hkeep i (h.used_of_owned hi)
  refine { h with
    wellFormed := h.wellFormed.congr hown
    rows := fun i rows hrows => h.rows i rows (Directory.rows_of_writeAll hrows)
    used_dir := fun i hi => ?_
    used_guard := fun t op hop i hi => mem_union_left _ (h.used_guard t op hop i hi)
    used_cleanup := fun i hi => ?_
    used_tracker := fun i hi => mem_union_left _ (h.used_tracker i hi)
    ops := fun t op hop => ?_ }
  · rcases Directory.ne_none_of_writeAll hi with hi | hi
    · exact mem_union_left _ (h.used_dir i hi)
    · exact mem_union_right _ (List.mem_toFinset.mpr hi)
  · rcases hi with hi | hi
    · rcases mem_union.mp hi with hi | hi
      · exact mem_union_left _ (h.used_cleanup i (.inl hi))
      · exact mem_union_right _ hi
    · exact mem_union_left _ (h.used_cleanup i (.inr hi))
  · have hok := h.ops t op hop
    have hused : ∀ i, op.task.output = some i → i ∈ s.used := fun i hi =>
      h.used_guard t op hop i (hok.output i hi).1
    refine ⟨hok.claims, fun i hi => ?_, hok.segment, hok.unpublished, hok.sources, hok.deletes, hok.cleanup,
      hok.nodup, ?_⟩
    · obtain ⟨hg, hp, hd, ht⟩ := hok.output i hi
      refine ⟨hg, fun hc => ?_, hd, ht⟩
      rcases mem_union.mp hc with hc | hc
      · exact hp hc
      · exact hmem i (hused i hi) (List.mem_toFinset.mp hc)
    · exact hok.content_dir subset_union_left hown fun i f hi hf =>
        .inl ((hkeep i (hused i hi)).symm.trans hf)

end Manager

end Summa
