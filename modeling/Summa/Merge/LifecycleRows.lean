import Summa.Merge.Reachable

/-!
# Live rows across publications

What each step of the lifecycle does to the rows that readers see (`Manager.live`), in any
interleaving: a commit hides the live rows of the deleted keys and shows the rows of its new segments
that were not cancelled while staged; a replacement moves the rows that are live at its publication to
its output; every other step changes no live row (`Event.KeepsRows`).
-/

namespace Summa

open IndexMetadata

namespace Manager

variable {ρ : Type} (s : Manager ρ) (id : SegmentId)

/-- Row `d` of segment `id` is visible in the published state. -/
def shows (d : Nat) : Bool := visible s.dir s.metadata id d

/-- The visible rows of a segment in the published state. -/
def live : List ρ := liveRows s.dir s.metadata id

/-- The number of rows of a segment's file. -/
def rowCount : Nat := ((s.dir.rows id).getD []).length

end Manager

open Manager Function

/-- The live rows after a commit. -/
structure CommitKeeps {ρ : Type} (env : TxEnv ρ) (newSegments : List (SegmentId × Nat))
    (keys : List String) (staged : List (SegmentId × StagedSegment)) (s s' : Manager ρ) : Prop where
  /-- The committed rows whose key is deleted are hidden, and no other committed row. -/
  committed : ∀ id, s.metadata.hasSegment id = true → (∀ d, s'.shows id d =
    (s.shows id d && !targetRow env s.dir keys id d)) ∧
      s'.live id = (s.live id).filter fun r => !keys.contains (env.key r)
  /-- Of a new segment only the rows that were cancelled while staged are hidden. -/
  added : ∀ id n, s.metadata.hasSegment id = false → newSegments.lookup id = some n →
    s'.live id = select (fun d => !cancelled staged id d) ((s.dir.rows id).getD [])
  others : ∀ id, s.metadata.hasSegment id = false → newSegments.lookup id = none →
    s'.metadata.hasSegment id = false

/-- The live rows after a replacement. -/
structure ReplaceKeeps {ρ : Type} (r : Replacement) (s s' : Manager ρ) : Prop where
  /-- The output shows the rows of its sources that are live when it is published. -/
  output : s'.live r.newId = r.oldIds.flatMap s.live
  /-- Row `d` of a source becomes row `d` after the rows of the sources before it. -/
  shifted : r.layout ≠ .compacted → ∀ pre id post, r.oldIds = pre ++ id :: post →
    ∀ d < s.rowCount id, s'.shows r.newId ((pre.map s.rowCount).sum + d) = s.shows id d
  /-- A compaction is published only over the visibility it read. -/
  unchanged : r.layout = .compacted → r.expectedDeletions = s.readDeletions r
  sources : ∀ id ∈ r.oldIds, s'.metadata.hasSegment id = false
  others : ∀ id, id ∉ r.oldIds → id ≠ r.newId →
    s'.metadata.get id = s.metadata.get id ∧ s'.live id = s.live id

/-- The live rows after the publication of a vector generation. -/
structure VectorsKeep {ρ : Type} (staged : List StagedVectorSegment) (s s' : Manager ρ) : Prop where
  output : ∀ v ∈ staged, s'.shows v.outputId = s.shows v.sourceId ∧
    s'.live v.outputId = s.live v.sourceId
  sources : ∀ v ∈ staged, s'.metadata.hasSegment v.sourceId = false
  others : ∀ id, id ∉ staged.map (·.sourceId) → id ∉ staged.map (·.outputId) →
    s'.metadata.get id = s.metadata.get id ∧ s'.live id = s.live id

/-- What a step with this event does to the live rows. -/
def Event.KeepsRows {ρ : Type} (s s' : Manager ρ) : Event ρ → Prop
  | .commit env newSegments keys staged => CommitKeeps env newSegments keys staged s s'
  | .replace r => ReplaceKeeps r s s'
  | .replaceVectors staged => VectorsKeep staged s s'
  | .delete _ _ | .internal => s'.metadata = s.metadata ∧ s'.shows = s.shows ∧ s'.live = s.live

namespace Manager

variable {ρ : Type} {s s' : Manager ρ} {t : Nat} {op : Operation ρ}

/-! ## Steps that publish nothing -/

theorem live_eq_nil {id : SegmentId} (h : s.metadata.get id = none) : s.live id = [] := by
  unfold live liveRows
  rw [visible_of_get_eq_none h]
  generalize (s.dir.rows id).getD [] = rows
  induction rows with
  | nil => rfl
  | cons a rows ih => exact ih

/-- Only published files matter. -/
theorem live_congr (hmd : s'.metadata = s.metadata) (hdir : ∀ i ∈ s.metadata.ownedIds, s'.dir i = s.dir i) :
    s'.shows = s.shows ∧ s'.live = s.live := by
  have hvis : visible s'.dir s'.metadata = visible s.dir s.metadata := by
    rw [hmd]; exact visible_congr hdir
  refine ⟨hvis, funext fun id => ?_⟩
  cases hg : s.metadata.get id with
  | none => rw [live_eq_nil hg, live_eq_nil (by rw [hmd]; exact hg)]
  | some info =>
    unfold live liveRows
    rw [hvis, Directory.rows_congr (hdir id (mem_ownedIds_self hg))]

/-- A step without a publication changes no published file. -/
theorem Inv.frame (h : s.Inv) {e : Event ρ} (hstep : Step s e s')
    (he : e = .internal ∨ ∃ who id, e = .delete who id) :
    s'.metadata = s.metadata ∧ ∀ i ∈ s.metadata.ownedIds, s'.dir i = s.dir i := by
  have hwrite : ∀ {id : SegmentId} {file : Option (File ρ)}, id ∉ s.metadata.ownedIds →
      ∀ i ∈ s.metadata.ownedIds, (s.writeFile id file).dir i = s.dir i := by
    intro id file hown i hi
    refine s.dir_writeFile_ne ?_ file
    rintro rfl
    exact hown hi
  have hdelete : ∀ {who : Deleter} {id : SegmentId} {s' : Manager ρ}, Step s (.delete who id) s' →
      ∀ i ∈ s.metadata.ownedIds, (s.writeFile id none).dir i = s.dir i :=
    fun hstep => hwrite (h.deletes_not_owned hstep).1
  cases hstep with
  | commit | publish | publishVectors => rcases he with he | ⟨_, _, he⟩ <;> cases he
  | writeSegment rows hop htask hnew hlen =>
    exact ⟨rfl, hwrite fun hown => h.wellFormed.ne_none hown hnew⟩
  | failTransaction files hnew =>
    refine ⟨rfl, fun i hi => Directory.writeAll_of_not_mem fun hmem => ?_⟩
    obtain ⟨w, hw, rfl⟩ := List.mem_map.mp hmem
    exact hnew w hw (h.used_of_owned hi)
  | writeRewrite hop htask | writeVector hop htask =>
    exact ⟨rfl, hwrite ((h.ops _ _ hop).unpublished _ (by rw [htask]; rfl) (by rw [htask]; simp))⟩
  | deleteClaimed hop htask => exact ⟨rfl, hdelete (.deleteClaimed hop htask)⟩
  | deleteDetached hid => exact ⟨rfl, hdelete (.deleteDetached hid)⟩
  | deleteRetired hid => exact ⟨rfl, hdelete (.deleteRetired hid)⟩
  | _ => exact ⟨rfl, fun _ _ => rfl⟩

/-! ## Publications -/

/-- A segment whose record and files stay has the same rows. -/
theorem live_kept {pub : Publication} {id : SegmentId} (hget : pub.next.get id = s.metadata.get id)
    (hsame : ∀ m ∈ s.metadata.ownedIds, s.dir.writeAll pub.written m = s.dir m) :
    liveRows (s.dir.writeAll pub.written) pub.next id = s.live id := by
  cases hg : s.metadata.get id with
  | none =>
    rw [live_eq_nil hg]
    exact live_eq_nil (s := s.install pub) (hget.trans hg)
  | some info =>
    exact liveRows_congr hg (hget.trans hg) rfl rfl (hsame id (mem_ownedIds_self hg))
      fun m hm => hsame m (mem_ownedIds_mask hg hm)

/-- Claiming the deletion files of a transaction changes no row. -/
theorem Inv.rows_claimMasks (h : s.Inv) {ids : List SegmentId} (hclaim : s.claimMasks ids = some s') :
    s'.metadata = s.metadata ∧ s'.shows = s.shows ∧ s'.live = s.live := by
  obtain ⟨-, hmd, hdir⟩ := h.claimMasks hclaim
  exact ⟨hmd, live_congr hmd fun i _ => by rw [hdir]⟩

theorem hasSegment_of_rowCounts {md md' : IndexMetadata} {id : SegmentId}
    (h : rowCounts md id = rowCounts md' id) : md.hasSegment id = md'.hasSegment id := by
  have := congrArg Option.isSome h
  simpa [rowCounts, hasSegment] using this

section Commit

variable {env : TxEnv ρ} {newSegments : List (SegmentId × Nat)} {keys : List String}
  {staged : List (SegmentId × StagedSegment)} {pub : Publication}

theorem Inv.commit_keeps (h : s.Inv) (hinj : Function.Injective env.newId) (hnew : ∀ i, env.newId i ∉ s.used)
    (hpub : commitWithDeletes env s.dir s.metadata newSegments keys staged = .ok pub) :
    CommitKeeps env newSegments keys staged s (s.install pub) := by
  have hspec := h.commitSpec hinj hnew hpub
  -- the transaction writes no file that is there
  have hrows : ∀ id, s.dir id ≠ none → (s.dir.writeAll pub.written).rows id = s.dir.rows id :=
    fun id hne => Directory.rows_congr ((h.fresh hinj hnew).writeAll_eq hspec.wrote hne)
  refine ⟨fun id hid => ?_, fun id n hid hn => ?_, fun id hid hn => ?_⟩
  · obtain ⟨info, hg⟩ := hasSegment_iff.mp hid
    have hvis := hspec.committed id info hg
    refine ⟨hvis, ?_⟩
    calc (s.install pub).live id
        = select (visible (s.dir.writeAll pub.written) pub.next id) ((s.dir.rows id).getD []) := by
          rw [← hrows id (h.wellFormed.ne_none (mem_ownedIds_self hg))]
          rfl
      _ = select (fun d => visible s.dir s.metadata id d && !targetRow env s.dir keys id d)
            ((s.dir.rows id).getD []) := select_congr fun d _ => hvis d
      _ = (s.live id).filter fun r => !keys.contains (env.key r) := select_and_not _ _ _
  · rw [hasSegment_eq_false] at hid
    obtain ⟨rows, hfile, hlen⟩ := validateCompletedSegment_eq_ok.mp
      (validateCompletedSegments_eq_ok.mp (validated_of_commit hpub) (id, n) (mem_of_lookup hn))
    have hlive : (s.install pub).live id =
        select (visible (s.dir.writeAll pub.written) pub.next id) ((s.dir.rows id).getD []) := by
      rw [← hrows id (Directory.rows_ne_none hfile)]
      rfl
    rw [hlive]
    refine select_congr fun d hd => ?_
    rw [hfile, Option.getD_some] at hd
    simp only at hlen
    rw [hspec.added id n hid hn, decide_eq_true (hlen ▸ hd), Bool.true_and]
  · rw [hasSegment_eq_false] at hid
    have hsame : pub.next.hasSegment id = (addNewSegments s.metadata newSegments).hasSegment id :=
      hasSegment_of_rowCounts (hspec.numDocs id)
    refine hsame.trans ?_
    rw [hasSegment_eq_false, get_addNewSegments, hid, hn]
    rfl

end Commit

section Replace

variable {env : TxEnv ρ} {r : Replacement} {rows : List ρ} {reader : Result OutputReader}
  {pub : Publication}

/-- The output file of a rewrite has the rows that the task read. -/
theorem Inv.output_rows (h : s.Inv) (hop : s.ops t = some op) (htask : op.task = .rewrite r rows)
    (hpub : r.replaceSegments env s.dir s.metadata reader = .ok pub) :
    s.dir.rows r.newId = some rows ∧ r.RowsOk s.dir s.metadata s.used rows := by
  have hcontent := (h.ops t op hop).content
  rw [htask] at hcontent
  obtain ⟨hfile, -, -, hok⟩ := hcontent
  obtain ⟨rows', hrows', -⟩ := validateCompletedSegment_eq_ok.mp (Replacement.replaceSegments_eq_ok hpub).1
  have heq := hfile _ (Directory.rows_eq_some.mp hrows')
  cases heq
  exact ⟨hrows', hok⟩

theorem Inv.replace_keeps (h : s.Inv) (hop : s.ops t = some op) (htask : op.task = .rewrite r rows)
    (hinj : Function.Injective env.newId) (hnew : ∀ i, env.newId i ∉ s.used)
    (hpub : r.replaceSegments env s.dir s.metadata reader = .ok pub) :
    ReplaceKeeps r s ((s.setTask t op (.closed (some r.newId))).install pub) := by
  have hspec := h.replaceSpec hop htask hinj hnew hpub
  have hfresh := h.fresh hinj hnew
  obtain ⟨hrows, hok⟩ := h.output_rows hop htask hpub
  have hnone := h.get_output hop (i := r.newId) (by rw [htask]; rfl) (by rw [htask]; simp)
  unfold Replacement.RowsOk at hok
  -- a compaction is published over the mask that it read
  have hcompacted : r.layout = .compacted →
      liveRows (s.dir.writeAll pub.written) pub.next r.newId = r.oldIds.flatMap s.live ∧
        r.expectedDeletions = s.readDeletions r := by
    intro hl
    rw [if_pos hl] at hok
    obtain ⟨id, deletion, hids, hexp, -, hlive⟩ := hok
    obtain ⟨id', info, expected, hids', hinfo, hexp', hlook⟩ := hspec.expected hl
    rw [hids] at hids'
    cases hids'
    rw [hexp] at hexp'
    cases hexp'
    have hdel : info.deletions = some deletion := by simpa using hlook.symm
    refine ⟨?_, by simp [readDeletions, hl, hexp, hids, hinfo, hdel]⟩
    rw [hids, List.flatMap_singleton]
    exact (hspec.liveRows_compacted hfresh hl hrows).trans (hlive info hinfo hdel)
  refine ⟨?_, fun hl pre id post hids d hd => ?_, fun hl => (hcompacted hl).2, fun id hid => ?_,
    fun id hid hne => ?_⟩
  · by_cases hl : r.layout = .compacted
    · exact (hcompacted hl).1
    · rw [if_neg hl] at hok
      exact hspec.liveRows_copied h.wellFormed hfresh hl (hok.2 ▸ hrows)
  · rw [if_neg hl] at hok
    exact hspec.visible_shifted h.wellFormed hfresh hl (hok.2 ▸ hrows) hids hd
  · have hne : id ≠ r.newId := by
      rintro rfl
      obtain ⟨info, hinfo⟩ := hspec.sources r.newId hid
      rw [hnone] at hinfo
      cases hinfo
    exact hasSegment_eq_false.mpr (hspec.removed id hid hne)
  · have hget : pub.next.get id = s.metadata.get id := hspec.kept id hid hne
    exact ⟨hget, live_kept hget fun m hm =>
      hfresh.writeAll_eq hspec.wrote (h.wellFormed.ne_none hm)⟩

end Replace

theorem Inv.vectors_keep (h : s.Inv) {staged : List StagedVectorSegment} {pub : Publication}
    (hprep : ∀ v ∈ staged, ∃ t op rows, s.ops t = some op ∧ op.task = .vector v rows)
    (hpub : publishVectorGeneration s.dir s.metadata staged = .ok pub) :
    VectorsKeep staged s ((s.closeVectors staged).install pub) := by
  obtain ⟨-, -, hmove, hwritten⟩ := h.moveSpec hprep hpub
  have hdir : s.dir.writeAll pub.written = s.dir := by rw [hwritten]; rfl
  refine ⟨fun v hv => ?_, fun v hv => hasSegment_eq_false.mpr (hmove.removed v hv),
    fun id hsrc hout => ?_⟩
  · obtain ⟨info, hold, hnext⟩ := hmove.moved v hv
    have hvis : visible (s.dir.writeAll pub.written) pub.next v.outputId =
        visible s.dir s.metadata v.sourceId := by
      rw [hdir, visible_of_get hnext, visible_of_get hold]
    refine ⟨hvis, ?_⟩
    have hlive : liveRows (s.dir.writeAll pub.written) pub.next v.outputId =
        liveRows s.dir s.metadata v.sourceId := by
      unfold liveRows
      rw [hvis, hdir, h.vector_rows hprep hpub v hv]
    exact hlive
  · have hget : pub.next.get id = s.metadata.get id := hmove.kept id hsrc hout
    exact ⟨hget, live_kept hget fun m _ => congrFun hdir m⟩

/-- One step does to the live rows what its event says. -/
theorem Inv.keepsRows (h : s.Inv) {e : Event ρ} (hstep : Step s e s') : e.KeepsRows s s' := by
  cases e with
  | commit env newSegments keys staged =>
    cases hstep with
    | commit hprep hinj hnew hpub hclaim =>
      obtain ⟨committed, added, others⟩ := h.commit_keeps hinj hnew hpub
      obtain ⟨hmd, hshows, hlive⟩ :=
        ((h.installable_commit hinj hnew hpub hprep).inv h).rows_claimMasks hclaim
      constructor
      · rw [hshows, hlive]; exact committed
      · rw [hlive]; exact added
      · rw [hmd]; exact others
  | replace r =>
    cases hstep with
    | publish hop htask hinj hnew hpub hclaim =>
      obtain ⟨output, shifted, unchanged, sources, others⟩ :=
        h.replace_keeps hop htask hinj hnew hpub
      obtain ⟨hmd, hshows, hlive⟩ := ((h.installable_replace hop htask hinj hnew hpub).inv
        (h.closeRewrite hop htask)).rows_claimMasks hclaim
      constructor
      · rw [hlive]; exact output
      · rw [hshows]; exact shifted
      · exact unchanged
      · rw [hmd]; exact sources
      · rw [hmd, hlive]; exact others
  | replaceVectors staged =>
    cases hstep with
    | publishVectors hprep hpub => exact h.vectors_keep hprep hpub
  | delete who id =>
    obtain ⟨hmd, hdir⟩ := h.frame hstep (.inr ⟨who, id, rfl⟩)
    exact ⟨hmd, live_congr hmd hdir⟩
  | internal =>
    obtain ⟨hmd, hdir⟩ := h.frame hstep (.inl rfl)
    exact ⟨hmd, live_congr hmd hdir⟩

/-- **Live rows are kept.** From every state that the lifecycle reaches, every step does to the live
rows what its event says. -/
theorem keepsRows_of_reach {e : Event ρ} (hreach : (lifecycle ρ).Reach s) (hstep : Step s e s') :
    e.KeepsRows s s' :=
  (inductive_inv.reach hreach).keepsRows hstep

/-! ## Runs of a small index -/

/-- The state of an index that was just opened. -/
def opened {ρ : Type} (metadata : IndexMetadata) (dir : Directory ρ) (used : Finset SegmentId) :
    Manager ρ where
  metadata
  dir
  tracker := ⟨fun i => if metadata.ownsId i then some 0 else none, ∅, ∅⟩
  active := .new
  ops := fun _ => none
  snapshots := []
  pendingCleanup := ∅
  detached := ∅
  used

theorem init_opened {metadata : IndexMetadata} {dir : Directory ρ} {used : Finset SegmentId}
    (hwf : WellFormed dir metadata) (hrows : ∀ i rows, dir.rows i = some rows → rows.length < 2 ^ 32)
    (hused : ∀ i, dir i ≠ none → i ∈ used) : (opened metadata dir used).Init :=
  ⟨hwf, hrows, rfl, rfl, rfl, rfl, rfl, rfl, hused⟩

/-- The rows are their own keys; new identities start at `base`. -/
def stringEnv (base : Nat) : TxEnv String where
  key := id
  primaryField := true
  shutdown := false
  newId i := base + i
  protect _ := .ok ()

theorem stringEnv_injective (base : Nat) : Function.Injective (stringEnv base).newId :=
  fun _ _ h => Nat.add_left_cancel h

theorem stringEnv_not_mem {base : Nat} {used : Finset SegmentId} (h : ∀ i ∈ used, i < base)
    (i : Nat) : (stringEnv base).newId i ∉ used := fun hmem =>
  absurd (h _ hmem) (Nat.not_lt.mpr (Nat.le_add_right base i))

/-- A producer has written segment 0 with two rows, in an index without segments. -/
def produced : Manager String :=
  ((opened ⟨0, ∅⟩ (fun _ => none) ∅).start
    { ActiveOperationState.new with
      segmentIds := ∅ ∪ [0].toFinset, operationTokens := insert 0 ∅, indexingTokens := insert 0 ∅
      nextOperationToken := 1 }
    ⟨[0], 0⟩ (.segment 0) {0}).writeFile 0 (some (.segment ["a", "b"]))

theorem reach_produced : (lifecycle String).Reach produced := by
  have hinit : (opened ⟨0, ∅⟩ (fun _ => none) ∅ : Manager String).Init :=
    init_opened (nofun) (nofun) fun _ h => absurd rfl h
  have hop : (⟨⟨[0], 0⟩, .segment 0⟩ : Operation String).task = .segment 0 := rfl
  exact .step (.step (.init hinit) (.beginSegment (by decide) rfl))
    (.writeSegment (t := 0) ["a", "b"] rfl hop rfl (by decide))

/-- A commit can hide a row of a segment that it adds: the row was cancelled while staged. -/
theorem commit_hides_cancelled_row : ∃ s s' : Manager String, (lifecycle String).Reach s ∧
    Step s (.commit (stringEnv 10) [(0, 2)] [] [(0, ⟨[0]⟩)]) s' ∧
    s.metadata.hasSegment 0 = false ∧ s'.dir.rows 0 = some ["a", "b"] ∧ s'.live 0 = ["b"] := by
  refine ⟨produced, _, reach_produced, .commit (fun n hn => ?_) (stringEnv_injective 10)
    (stringEnv_not_mem (by decide)) rfl rfl, rfl, rfl, by decide +kernel⟩
  rw [List.mem_singleton.mp hn]
  exact ⟨0, _, rfl, rfl⟩

/-- The merge of the segments 0 and 1 into 2. -/
def merge01 : Replacement where
  oldIds := [0, 1]
  newId := 2
  docCount := 3
  layout := .blockCopy
  expectedDeletions := none

/-- An index with the segments `["a", "b"]` and `["c"]`. -/
def twoSegments : Manager String :=
  opened ((addSegment ⟨0, ∅⟩ 0 2).addSegment 1 1)
    (update (update (fun _ => none) 0 (some (.segment ["a", "b"]))) 1
      (some (.segment ["c"]))) {0, 1}

theorem init_twoSegments : twoSegments.Init := by
  refine init_opened (fun id info hg => ?_) (fun i rows hrows => ?_) fun i hi => ?_
  · rw [addSegment, get_addSegmentMeta, addSegment,
      get_addSegmentMeta] at hg
    split_ifs at hg with h1 h0
    · subst h1; cases hg
      exact ⟨⟨["c"], rfl, rfl⟩, by decide, _, rfl⟩
    · subst h0; cases hg
      exact ⟨⟨["a", "b"], rfl, rfl⟩, by decide, _, rfl⟩
    · cases hg
  · rw [Directory.rows_eq_some, update_apply, update_apply] at hrows
    split_ifs at hrows <;> cases hrows <;> decide
  · rw [update_apply, update_apply] at hi
    split_ifs at hi <;> simp_all

/-- The merge of both segments has written its output. -/
def merging : Manager String :=
  (twoSegments.start
    { ActiveOperationState.new with
      segmentIds := ∅ ∪ [0, 1, 2].toFinset, operationTokens := insert 0 ∅, nextOperationToken := 1 }
    ⟨[0, 1, 2], 0⟩ (.rewrite merge01 ["a", "b", "c"]) {2}).writeFile 2
      (some (.segment ["a", "b", "c"]))

theorem reach_merging : (lifecycle String).Reach merging := by
  have hread : twoSegments.readRows merge01 = ["a", "b", "c"] := by decide +kernel
  have hbegin := Step.beginRewrite (s := twoSegments) (r := merge01) (by decide) (by decide)
    (by decide) (nofun) (by rw [hread]; rfl) (by decide) rfl
    (show twoSegments.active.tryRegister _ = some _ from rfl)
  have hop : (⟨⟨[0, 1, 2], 0⟩, .rewrite merge01 ["a", "b", "c"]⟩ : Operation String).task =
      .rewrite merge01 ["a", "b", "c"] := rfl
  exact .step (.step (.init init_twoSegments) hbegin) (.writeRewrite (t := 0) rfl hop)

/-- The key `"c"` is deleted while the merge runs: the merged segment does not show its row. -/
theorem merge_keeps_concurrent_delete : ∃ s s' : Manager String,
    Step merging (.commit (stringEnv 10) [] ["c"] []) s ∧ Step s (.replace merge01) s' ∧
    Event.KeepsRows s s' (.replace merge01) ∧ s'.live 2 = ["a", "b"] := by
  obtain ⟨s, s', hcommit, hpublish, hlive⟩ : ∃ s s' : Manager String,
      Step merging (.commit (stringEnv 10) [] ["c"] []) s ∧ Step s (.replace merge01) s' ∧
      s'.live 2 = ["a", "b"] := by
    refine ⟨_, _, .commit (nofun) (stringEnv_injective 10)
      (stringEnv_not_mem (by decide)) rfl rfl, .publish (t := 0) rfl rfl (stringEnv_injective 20) ?_
      (show merge01.replaceSegments _ _ _ (.ok ⟨3, false, false, []⟩) = _ from rfl) rfl, ?_⟩
    · exact stringEnv_not_mem (by decide)
    · decide +kernel
  exact ⟨s, s', hcommit, hpublish, keepsRows_of_reach (.step reach_merging hcommit) hpublish, hlive⟩

end Manager

end Summa
