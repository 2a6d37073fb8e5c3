import Summa.Merge.LiveRows

/-!
# What a commit shows

`commitWithDeletes_spec`: the published state after a commit. A committed segment shows its rows
whose key is not deleted; a new segment shows its rows that were not cancelled while staged.

The transaction is a fold of `writeMask` steps, so its visibility is the old one overlaid with the
masks (`overlay`), and the key scan (`deletionTargets_spec`) says which masks these are.
-/

namespace Summa

open List Function Fallible IndexMetadata

variable {ρ : Type} {env : TxEnv ρ} {dir : Directory ρ} {md : IndexMetadata} {id : SegmentId}

/-! ## Validation and new segments -/

theorem validateCompletedSegment_eq_ok {n : Nat} :
    validateCompletedSegment dir id n = .ok () ↔ ∃ rows, dir.rows id = some rows ∧ rows.length = n := by
  unfold validateCompletedSegment
  cases dir.rows id with
  | none => simp
  | some rows => by_cases h : rows.length = n <;> simp [h]

theorem validateCompletedSegments_eq_ok {segments : List (SegmentId × Nat)} :
    validateCompletedSegments dir segments = .ok () ↔
      ∀ s ∈ segments, validateCompletedSegment dir s.1 s.2 = .ok () :=
  forM_eq_ok

theorem mem_of_lookup {l : List (SegmentId × Nat)} {id n : Nat} (h : l.lookup id = some n) : (id, n) ∈ l := by
  obtain ⟨pre, suf, hsplit, -⟩ := lookup_eq_some_iff.mp h
  simp [hsplit]

theorem exists_lookup {l : List (SegmentId × Nat)} {s : SegmentId × Nat} (h : s ∈ l) : ∃ n, l.lookup s.1 = some n := by
  rw [← Option.ne_none_iff_exists', ne_eq, lookup_eq_none_iff]
  exact fun hall => by simpa using hall s h

/-- The first entry of a new segment counts, and only if the metadata does not have it. -/
theorem get_addNewSegments (md : IndexMetadata) (newSegments : List (SegmentId × Nat))
    (id : SegmentId) : (addNewSegments md newSegments).get id =
      (md.get id).or ((newSegments.lookup id).map .fresh) := by
  induction newSegments generalizing md with
  | nil => simp [addNewSegments]
  | cons s newSegments ih =>
    have hstep : addNewSegments md (s :: newSegments) =
        addNewSegments (if md.hasSegment s.1 then md else md.addSegment s.1 s.2) newSegments := rfl
    rw [hstep, ih, lookup_cons]
    by_cases hs : md.hasSegment s.1 = true
    · obtain ⟨info, hinfo⟩ := hasSegment_iff.mp hs
      rw [if_pos hs]
      by_cases hid : id = s.1
      · simp [hid, hinfo]
      · rw [beq_eq_false_iff_ne.mpr hid]
    · rw [if_neg hs, addSegment, get_addSegmentMeta]
      by_cases hid : id = s.1
      · rw [Bool.not_eq_true, hasSegment_eq_false] at hs
        simp [hid, hs]
      · rw [if_neg hid, beq_eq_false_iff_ne.mpr hid]

@[simp] theorem publicationGeneration_addNewSegments (md : IndexMetadata)
    (newSegments : List (SegmentId × Nat)) :
    (addNewSegments md newSegments).publicationGeneration = md.publicationGeneration := by
  induction newSegments generalizing md with
  | nil => rfl
  | cons s newSegments ih =>
    rw [addNewSegments, foldl_cons, ← addNewSegments, ih]
    split <;> rfl

/-! ## The key scan -/

/-- Row `d` of segment `id` has a key in `keys`. -/
def targetRow (env : TxEnv ρ) (dir : Directory ρ) (keys : List String) (id : SegmentId) (d : Nat) :
    Bool :=
  holdsAt (fun r => keys.contains (env.key r)) ((dir.rows id).getD []) d

theorem isTarget_map {rows : List ρ} (hrows : dir.rows id = some rows) (keys : List String) (d : Nat) :
    Deletion.isTarget (rows.map env.key) keys d = targetRow env dir keys id d := by
  simp [Deletion.isTarget, targetRow, holdsAt, hrows, Option.any_map]

/-- What the scan of one committed segment finds: no live target row, or the mask without the
target rows. -/
inductive ScanResult (env : TxEnv ρ) (dir : Directory ρ) (md : IndexMetadata) (keys : List String)
    (id : SegmentId) (numDocs : Nat) : Option (SegmentId × DocBitset) → Prop
  | unchanged (h : ∀ d, visible dir md id d = true → targetRow env dir keys id d = false) :
    ScanResult env dir md keys id numDocs none
  | changed (alive : DocBitset) (fits : alive.Fits numDocs)
    (contains : ∀ d, alive.contains d = (visible dir md id d && !targetRow env dir keys id d))
    (d : Nat) (live : visible dir md id d = true) (target : targetRow env dir keys id d = true) :
    ScanResult env dir md keys id numDocs (some (id, alive))

theorem deletionTargets_spec (hwf : WellFormed dir md) {info : SegmentMetaInfo}
    (hg : md.get id = some info) (hs : env.shutdown = false) (keys : List String) :
    ∃ r, deletionTargets env dir keys id info = .ok r ∧
      ScanResult env dir md keys id info.numDocs r := by
  obtain ⟨rows, hrows, hlen⟩ := (hwf id info hg).files
  obtain ⟨alive, hv, hf, hvis⟩ := hwf.visibility_eq_ok hg
  have hc := FastFieldReader.represents_ofKeys (rows.map env.key)
  have hord := Deletion.targetOrdinals_eq_ok hc keys
  rw [length_map, hlen] at hord
  obtain ⟨alive', changed, hclear, hf', hcont, hch⟩ := Deletion.contains_clearTargetRows hc keys hf
  simp only [isTarget_map hrows, ← hvis] at hcont hch
  simp only [deletionTargets, hrows, hs, hord, hv, hclear, ok_bind]
  split
  · rename_i hnil
    refine ⟨none, rfl, .unchanged fun d _ => ?_⟩
    rw [← Bool.not_eq_true, ← isTarget_map hrows]
    intro ht
    obtain ⟨v, -, hmem⟩ := Deletion.value_of_isTarget hc ht
    rw [hnil] at hmem
    cases hmem
  · cases hch' : changed with
    | false =>
      refine ⟨none, rfl, .unchanged fun d hlive => ?_⟩
      rw [← Bool.not_eq_true]
      exact fun ht => absurd (hch.mpr ⟨d, hlive, ht⟩) (by rw [hch']; simp)
    | true =>
      obtain ⟨d, hlive, ht⟩ := hch.mp hch'
      exact ⟨some (id, alive'), rfl, .changed alive' hf' hcont d hlive ht⟩

/-- A scan that succeeds was not cancelled. -/
theorem shutdown_of_deletionTargets (hwf : WellFormed dir md) {info : SegmentMetaInfo}
    (hg : md.get id = some info) {keys : List String} (hkeys : keys ≠ [])
    {r : Option (SegmentId × DocBitset)} (h : deletionTargets env dir keys id info = .ok r) :
    env.shutdown = false := by
  obtain ⟨rows, hrows, hlen⟩ := (hwf id info hg).files
  simp only [deletionTargets, hrows] at h
  obtain ⟨ordinals, hord, -⟩ := bind_eq_ok h
  unfold Deletion.targetOrdinals at hord
  split at hord
  · cases hord
  · split at hord
    · cases hord
    · rename_i hns
      simpa [hkeys] using hns

/-- What `changedSegments` returns: each mask hides the target rows of its segment, and the
segments without a mask have no live target row. -/
structure ChangedSpec (env : TxEnv ρ) (dir : Directory ρ) (md : IndexMetadata)
    (keys : List String) (changed : List (SegmentId × DocBitset)) : Prop where
  mask : ∀ m ∈ changed, ∃ info, md.get m.1 = some info ∧ m.2.Fits info.numDocs ∧
    (∀ d, m.2.contains d = (visible dir md m.1 d && !targetRow env dir keys m.1 d)) ∧
    ∃ d, visible dir md m.1 d = true ∧ targetRow env dir keys m.1 d = true
  rest : ∀ id info, md.get id = some info → id ∉ changed.map Prod.fst →
    ∀ d, visible dir md id d = true → targetRow env dir keys id d = false

theorem changedSegments_eq_ok (hwf : WellFormed dir md) {keys : List String}
    {changed : List (SegmentId × DocBitset)} (h : changedSegments env dir md keys = .ok changed) :
    ChangedSpec env dir md keys changed := by
  unfold changedSegments at h
  obtain ⟨targets, hmap, h⟩ := bind_eq_ok h
  cases h
  by_cases hkeys : keys = []
  · rw [if_pos hkeys] at hmap
    cases hmap
    refine ⟨nofun, fun id info hg _ d _ => ?_⟩
    simp [targetRow, holdsAt, hkeys]
  rw [if_neg hkeys] at hmap
  obtain ⟨hres, hsrc⟩ := mapM_eq_ok hmap
  have hscan : ∀ id info r, md.get id = some info → deletionTargets env dir keys id info = .ok r →
      ScanResult env dir md keys id info.numDocs r := by
    intro id info r hg hr
    obtain ⟨r', hr', hspec⟩ :=
      deletionTargets_spec hwf hg (shutdown_of_deletionTargets hwf hg hkeys hr) keys
    rw [hr] at hr'
    cases hr'
    exact hspec
  refine ⟨fun m hm => ?_, fun id info hg hid d hd => ?_⟩
  · rw [mem_insertionSort, mem_filterMap] at hm
    obtain ⟨r, hr, rfl⟩ := hm
    obtain ⟨e, he, hf⟩ := hres _ hr
    have hspec := hscan e.1 e.2 _ (mem_entries.mp he) hf
    cases hspec with
    | changed alive fits cont d live target =>
      exact ⟨e.2, mem_entries.mp he, fits, cont, d, live, target⟩
  · obtain ⟨r, hr, hf⟩ := hsrc ⟨id, info⟩ (mem_entries.mpr hg)
    have hspec := hscan id info r hg hf
    cases hspec with
    | unchanged h => exact h d hd
    | changed alive fits cont d' live target =>
      refine absurd (mem_map.mpr ⟨(id, alive), ?_, rfl⟩) hid
      exact (mem_insertionSort _).mpr (mem_filterMap.mpr ⟨_, hr, rfl⟩)

/-! ## The transaction as a fold of masks -/

/-- The visibility `vis` with the masks set one after another. -/
def overlay (vis : SegmentId → Nat → Bool) (masks : List (SegmentId × DocBitset)) :
    SegmentId → Nat → Bool :=
  masks.foldl (fun vis m => update vis m.1 m.2.contains) vis

theorem overlay_append (vis : SegmentId → Nat → Bool) (masks : List (SegmentId × DocBitset))
    (m : SegmentId × DocBitset) :
    overlay vis (masks ++ [m]) = update (overlay vis masks) m.1 m.2.contains := by
  simp [overlay]

/-- Where the masks of a segment all show `f`, the overlay shows `f`. -/
theorem overlay_eq {vis f : SegmentId → Nat → Bool} {masks : List (SegmentId × DocBitset)}
    (h : ∀ m ∈ masks, m.2.contains = f m.1) (t : SegmentId) :
    overlay vis masks t = if t ∈ masks.map Prod.fst then f t else vis t := by
  induction masks using reverseRecOn with
  | nil => rfl
  | append_singleton masks m ih =>
    rw [overlay_append]
    rcases eq_or_ne t m.1 with rfl | hne
    · rw [update_self, h m (by simp), if_pos (by simp)]
    · rw [update_of_ne hne, ih fun m' hm' => h m' (mem_append_left _ hm')]
      simp only [map_append, mem_append, map_cons, map_nil, mem_singleton,
        hne, or_false]

/-- An intermediate state of the transaction: its files took the first fresh identities, it is
well formed, and the segments have the row counts `num`. -/
structure TxOk (env : TxEnv ρ) (dir : Directory ρ) (num : SegmentId → Option Nat)
    (acc : Publication) : Prop where
  wrote : env.Wrote acc.written
  wf : WellFormed (dir.writeAll acc.written) acc.next
  numDocs : ∀ t, (acc.next.get t).map (·.numDocs) = num t

def rowCounts (md : IndexMetadata) (t : SegmentId) : Option Nat := (md.get t).map (·.numDocs)

section Steps

variable {num : SegmentId → Option Nat} {acc acc' : Publication} {info : SegmentMetaInfo}
  {alive : DocBitset} {retired : List SegmentId}

theorem TxOk.writeMask (hfresh : env.Fresh dir) (hok : TxOk env dir num acc)
    (hnum : num id = some info.numDocs) (h : writeMask env acc id info alive retired = .ok acc') :
    TxOk env dir num acc' ∧ visible (dir.writeAll acc'.written) acc'.next =
      update (visible (dir.writeAll acc.written) acc.next) id alive.contains := by
  obtain ⟨old, hold, hn⟩ : ∃ old, acc.next.get id = some old ∧ old.numDocs = info.numDocs := by
    have := hok.numDocs id
    rwa [hnum, Option.map_eq_some_iff] at this
  obtain ⟨hw, hwf, hset⟩ := writeMask_spec hfresh hok.wrote hok.wf hold hn h
  exact ⟨⟨hw, hwf, fun t => (hset.numDocs t).trans (hok.numDocs t)⟩, hset.visible_eq⟩

theorem TxOk.hideCommitted (hfresh : env.Fresh dir) (hok : TxOk env dir (rowCounts md) acc)
    {m : SegmentId × DocBitset} (h : hideCommitted env md acc m = .ok acc') :
    TxOk env dir (rowCounts md) acc' ∧ visible (dir.writeAll acc'.written) acc'.next =
      update (visible (dir.writeAll acc.written) acc.next) m.1 m.2.contains := by
  obtain ⟨info, hg, h⟩ := hideCommitted_eq_ok h
  exact hok.writeMask hfresh (by simp [rowCounts, hg]) h

/-- The rows of a staged segment that are not cancelled. -/
theorem StagedSegment.contains_liveRows {st : StagedSegment} {n : Nat}
    (h : st.liveRows n = some alive) (d : Nat) :
    alive.contains d = (decide (d < n) && !st.dead.contains d) := by
  unfold StagedSegment.liveRows at h
  split at h
  · cases h
  · cases h
    suffices hgen : ∀ (dead : List Nat) (b : DocBitset),
        (dead.foldl DocBitset.clear b).contains d = (b.contains d && !dead.contains d) by
      rw [hgen, DocBitset.contains_all]
    intro dead
    induction dead with
    | nil => simp
    | cons e dead ih =>
      intro b
      rw [foldl_cons, ih, DocBitset.contains_clear, contains_cons]
      by_cases hde : d = e
      · simp [hde]
      · simp [hde, beq_eq_false_iff_ne.mpr hde]

theorem TxOk.hideStaged (hfresh : env.Fresh dir) (hok : TxOk env dir num acc)
    {s : SegmentId × StagedSegment} (h : hideStaged env md acc s = .ok acc') :
    TxOk env dir num acc' ∧ md.get s.1 = none ∧ ∃ n alive, num s.1 = some n ∧
      s.2.liveRows n = some alive ∧ visible (dir.writeAll acc'.written) acc'.next =
        update (visible (dir.writeAll acc.written) acc.next) s.1 alive.contains := by
  obtain ⟨info, alive, hnew, hg, halive, h⟩ := hideStaged_eq_ok h
  have hnum : num s.1 = some info.numDocs := by rw [← hok.numDocs, hg]; rfl
  obtain ⟨hok', hvis⟩ := hok.writeMask hfresh hnum h
  exact ⟨hok', hnew, _, alive, hnum, halive, hvis⟩

end Steps

/-! ## The whole commit -/

/-- Row `d` of the new segment `t` was cancelled while staged. The last entry of a segment
counts. -/
def cancelled (staged : List (SegmentId × StagedSegment)) (t : SegmentId) (d : Nat) : Bool :=
  (staged.reverse.lookup t).any fun st => st.dead.contains d

theorem cancelled_append (staged : List (SegmentId × StagedSegment)) (s : SegmentId × StagedSegment)
    (t : SegmentId) (d : Nat) : cancelled (staged ++ [s]) t d =
      if t = s.1 then s.2.dead.contains d else cancelled staged t d := by
  unfold cancelled
  rw [reverse_append, reverse_singleton, singleton_append, lookup_cons]
  split
  · rename_i h; rw [if_pos (beq_iff_eq.mp h)]; rfl
  · rename_i h; rw [if_neg (beq_eq_false_iff_ne.mp h)]

section Whole

variable (env dir md) (newSegments : List (SegmentId × Nat)) (keys : List String)
  (staged : List (SegmentId × StagedSegment)) (pub : Publication)

/-- The published state after a commit. -/
structure CommitSpec : Prop where
  wrote : env.Wrote pub.written
  wellFormed : WellFormed (dir.writeAll pub.written) pub.next
  numDocs : ∀ t, rowCounts pub.next t = rowCounts (addNewSegments md newSegments) t
  /-- Committed segments: the visible rows whose key is not deleted. -/
  committed : ∀ t info, md.get t = some info → ∀ d, visible (dir.writeAll pub.written) pub.next t d =
    (visible dir md t d && !targetRow env dir keys t d)
  /-- Segments of this commit: the rows that are not cancelled. -/
  added : ∀ t n, md.get t = none → newSegments.lookup t = some n → ∀ d,
    visible (dir.writeAll pub.written) pub.next t d = (decide (d < n) && !cancelled staged t d)

variable {env dir md newSegments keys staged pub}

theorem WellFormed.txOk (env : TxEnv ρ) (hwf : WellFormed dir md) : TxOk env dir (rowCounts md) (.start md) :=
  ⟨rfl, hwf, fun _ => rfl⟩

/-- The masks of the deleted keys. -/
theorem foldlM_hideCommitted (hwf : WellFormed dir md) (hfresh : env.Fresh dir)
    {changed : List (SegmentId × DocBitset)} (hch : ChangedSpec env dir md keys changed)
    (h : changed.foldlM (hideCommitted env md) (.start md) = .ok pub) :
    TxOk env dir (rowCounts md) pub ∧ ∀ t d, visible (dir.writeAll pub.written) pub.next t d =
      (visible dir md t d && !targetRow env dir keys t d) := by
  have hfold : TxOk env dir (rowCounts md) pub ∧
      visible (dir.writeAll pub.written) pub.next = overlay (visible dir md) changed := by
    refine foldlM_eq_ok_rec h ⟨hwf.txOk env, rfl⟩ ?_
    rintro pre m acc acc' - ⟨hok, hvis⟩ hstep
    obtain ⟨hok', hvis'⟩ := hok.hideCommitted hfresh hstep
    exact ⟨hok', by rw [hvis', hvis, overlay_append]⟩
  refine ⟨hfold.1, fun t d => ?_⟩
  rw [hfold.2, overlay_eq (f := fun t d => visible dir md t d && !targetRow env dir keys t d)]
  · split
    · rfl
    · rename_i ht
      cases hv : visible dir md t d with
      | false => rfl
      | true =>
        obtain ⟨info, hg⟩ : ∃ info, md.get t = some info := by
          cases hg : md.get t with
          | none => rw [visible_of_get_eq_none hg] at hv; cases hv
          | some info => exact ⟨info, rfl⟩
        simp [hch.rest t info hg ht d hv]
  · intro m hm
    obtain ⟨info, -, -, hcont, -⟩ := hch.mask m hm
    funext d; exact hcont d

/-- Adding validated segments: they show all their rows. -/
theorem addNewSegments_spec {next : IndexMetadata} (hfresh : env.Fresh dir) (hok : TxOk env dir (rowCounts md) pub)
    (hvalid : validateCompletedSegments dir newSegments = .ok ()) (hnum : ∀ s ∈ newSegments, s.2 < 2 ^ 32)
    (hnext : addNewSegments pub.next newSegments = next) :
    TxOk env dir (rowCounts (addNewSegments md newSegments)) { pub with next := next } ∧
    (∀ t info, md.get t = some info →
      visible (dir.writeAll pub.written) next t = visible (dir.writeAll pub.written) pub.next t) ∧
    ∀ t n, md.get t = none → newSegments.lookup t = some n → ∀ d,
      visible (dir.writeAll pub.written) next t d = decide (d < n) := by
  have hnone : ∀ t, pub.next.get t = none ↔ md.get t = none := by
    intro t
    have := hok.numDocs t
    unfold rowCounts at this
    cases hp : pub.next.get t <;> cases hm : md.get t <;> simp [hp, hm] at this ⊢
  have hget : ∀ t, next.get t = (pub.next.get t).or ((newSegments.lookup t).map .fresh) :=
    hnext ▸ get_addNewSegments pub.next newSegments
  have hold : ∀ t info, md.get t = some info → next.get t = pub.next.get t := by
    intro t info hg
    obtain ⟨info', hg'⟩ := Option.ne_none_iff_exists'.mp (mt (hnone t).mp (hg ▸ nofun))
    rw [hget, hg', Option.some_or]
  have hnew : ∀ t n, md.get t = none → newSegments.lookup t = some n → next.get t = some (.fresh n) := by
    intro t n hm hl
    rw [hget, (hnone t).mpr hm, hl]; rfl
  refine ⟨⟨hok.wrote, ?_, fun t => ?_⟩, fun t info hg => ?_, fun t n hm hl d => ?_⟩
  · intro t info hg
    rw [hget] at hg
    cases hp : pub.next.get t with
    | some info' => rw [hp, Option.some_or] at hg; cases hg; exact hok.wf t info hp
    | none =>
      rw [hp, Option.none_or, Option.map_eq_some_iff] at hg
      obtain ⟨n, hl, rfl⟩ := hg
      have hmem := mem_of_lookup hl
      obtain ⟨rows, hrows, hlen⟩ := validateCompletedSegment_eq_ok.mp
        (validateCompletedSegments_eq_ok.mp hvalid _ hmem)
      refine ⟨⟨rows, ?_, hlen⟩, hnum _ hmem, .all n, rfl⟩
      rw [Directory.rows_congr (hfresh.writeAll_eq hok.wrote (Directory.rows_ne_none hrows))]
      exact hrows
  · have := hok.numDocs t
    unfold rowCounts at this ⊢
    rw [hget, get_addNewSegments]
    cases hp : pub.next.get t <;> cases hm : md.get t <;> simp_all
  · funext d; simp only [visible, hold t info hg]
  · rw [visible_of_get (hnew t n hm hl), shows_of_deletions_eq_none rfl]; rfl

/-- The masks of the cancelled rows. -/
theorem foldlM_hideStaged (hfresh : env.Fresh dir) {num : SegmentId → Option Nat}
    {acc : Publication} (hok : TxOk env dir num acc) (h : staged.foldlM (hideStaged env md) acc = .ok pub) :
    TxOk env dir num pub ∧
    (∀ t info, md.get t = some info → visible (dir.writeAll pub.written) pub.next t =
      visible (dir.writeAll acc.written) acc.next t) ∧
    ∀ t n, num t = some n → (∀ d, visible (dir.writeAll acc.written) acc.next t d = decide (d < n)) →
      ∀ d, visible (dir.writeAll pub.written) pub.next t d =
        (decide (d < n) && !cancelled staged t d) := by
  refine foldlM_eq_ok_rec h ⟨hok, fun _ _ _ => rfl, fun t n _ hall d => by rw [hall]; simp [cancelled]⟩ ?_
  rintro pre s acc₁ acc₂ - ⟨hok₁, hold, hnew⟩ hstep
  obtain ⟨hok₂, hs, n₀, alive, hn₀, halive, hvis⟩ := hok₁.hideStaged hfresh hstep
  refine ⟨hok₂, fun t info hg => ?_, fun t n hn hall d => ?_⟩
  · have hne : t ≠ s.1 := by rintro rfl; rw [hs] at hg; cases hg
    rw [hvis, update_of_ne hne, hold t info hg]
  · rw [hvis, cancelled_append]
    rcases eq_or_ne t s.1 with rfl | hne
    · rw [hn] at hn₀
      cases hn₀
      rw [update_self, if_pos rfl, StagedSegment.contains_liveRows halive]
    · rw [update_of_ne hne, if_neg hne, hnew t n hn hall d]

theorem commit_spec (hwf : WellFormed dir md) (hfresh : env.Fresh dir)
    (hnum : ∀ s ∈ newSegments, s.2 < 2 ^ 32) (h : commit dir md newSegments = .ok pub) :
    CommitSpec env dir md newSegments [] [] pub := by
  unfold commit at h
  obtain ⟨⟨⟩, hvalid, h⟩ := bind_eq_ok h
  cases h
  obtain ⟨hok, hold, hnew⟩ := addNewSegments_spec hfresh (hwf.txOk env) hvalid hnum rfl
  refine ⟨hok.wrote, hok.wf, hok.numDocs, fun t info hg d => ?_, fun t n hm hl d => ?_⟩
  · refine (congrFun (hold t info hg) d).trans ?_
    simp [Publication.start, targetRow, holdsAt]
  · refine (hnew t n hm hl d).trans ?_
    simp [cancelled]

/-- Only membership of a key counts. -/
theorem targetRow_dedup (keys : List String) : targetRow env dir keys.dedup = targetRow env dir keys := by
  funext t d
  have : (fun r => keys.dedup.contains (env.key r)) = fun r => keys.contains (env.key r) := by
    funext r
    rw [Bool.eq_iff_iff, contains_iff_mem, contains_iff_mem, mem_dedup]
  simp only [targetRow, this]

variable (h : commitWithDeletes env dir md newSegments keys staged = .ok pub)

include h in
/-- Inversion of a commit that deletes: its four stages. -/
theorem commitWithDeletes_eq_ok (hne : ¬ (keys = [] ∧ staged = [])) :
    validateCompletedSegments dir newSegments = .ok () ∧ env.primaryField = true ∧
    ∃ changed hidden last, changedSegments env dir md keys.dedup = .ok changed ∧
      changed.foldlM (hideCommitted env md) (.start md) = .ok hidden ∧
      staged.foldlM (hideStaged env md)
        { hidden with next := addNewSegments hidden.next newSegments } = .ok last ∧
      last.next.publicationGeneration + 1 < 2 ^ 64 ∧
      pub = { last with
        next := { last.next with publicationGeneration := last.next.publicationGeneration + 1 }
        registered := last.next.ownedIds
        retired := last.retired.filter fun id =>
          !ownsId { last.next with
            publicationGeneration := last.next.publicationGeneration + 1 } id } := by
  unfold commitWithDeletes at h
  rw [if_neg hne] at h
  split at h
  · cases h
  rename_i hprim
  obtain ⟨⟨⟩, hvalid, h⟩ := bind_eq_ok h
  obtain ⟨changed, hch, h⟩ := bind_eq_ok h
  obtain ⟨hidden, hhid, h⟩ := bind_eq_ok h
  obtain ⟨last, hlast, h⟩ := bind_eq_ok h
  split at h
  · cases h
  cases h
  exact ⟨hvalid, by simpa using hprim, changed, hidden, last, hch, hhid, hlast, by omega, rfl⟩

include h in
theorem commitWithDeletes_spec (hwf : WellFormed dir md) (hfresh : env.Fresh dir)
    (hnum : ∀ s ∈ newSegments, s.2 < 2 ^ 32) :
    CommitSpec env dir md newSegments keys staged pub := by
  by_cases hne : keys = [] ∧ staged = []
  · obtain ⟨rfl, rfl⟩ := hne
    exact commit_spec hwf hfresh hnum h
  obtain ⟨hvalid, -, changed, hidden, last, hch, hhid, hlast, -, rfl⟩ :=
    commitWithDeletes_eq_ok h hne
  obtain ⟨hok₁, hvis₁⟩ := foldlM_hideCommitted hwf hfresh (changedSegments_eq_ok hwf hch) hhid
  obtain ⟨hok₂, hold₂, hnew₂⟩ := addNewSegments_spec hfresh hok₁ hvalid hnum rfl
  obtain ⟨hok₃, hold₃, hnew₃⟩ := foldlM_hideStaged hfresh hok₂ hlast
  refine ⟨hok₃.wrote, hok₃.wf, hok₃.numDocs, fun t info hg d => ?_, fun t n hm hl d => ?_⟩
  · have hvis := congrFun ((hold₃ t info hg).trans (hold₂ t info hg)) d
    rw [hvis₁, targetRow_dedup] at hvis
    exact hvis
  · refine hnew₃ t n ?_ (hnew₂ t n hm hl) d
    simp [rowCounts, get_addNewSegments, hm, hl, SegmentMetaInfo.fresh]

end Whole

end Summa
