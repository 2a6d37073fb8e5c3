import Summa.Merge.LifecycleRows

/-!
# Retrying a commit

A commit can take effect and still report an error to its caller, who then calls
`commit_with_deletes` again with the same arguments. The retry runs over metadata that already has
the new segments (`Retried`). It keeps the live rows exactly when nothing was cancelled while staged
and no row of the new segments has a deleted key (`RetrySafe`): staged deletions of a segment that is
already published are an error, and the key scan now covers the new segments.
-/

namespace Summa

open IndexMetadata

variable {ρ : Type} (env env' : TxEnv ρ) (dir : Directory ρ) (md : IndexMetadata)
  (newSegments : List (SegmentId × Nat)) (keys : List String)
  (staged : List (SegmentId × StagedSegment)) (pub : Publication)

/-- A call took effect, and the manager still accepts the same call over the published state. -/
structure Retried : Prop where
  wellFormed : WellFormed dir md
  counts : ∀ n ∈ newSegments, n.2 < 2 ^ 32
  fresh : env.Fresh dir
  took : commitWithDeletes env dir md newSegments keys staged = .ok pub
  key : env'.key = env.key
  primaryField : env'.primaryField = env.primaryField
  fresh' : env'.Fresh (dir.writeAll pub.written)
  accepting : env'.shutdown = false

/-- The call succeeds in the state `dir`, `md` and leaves its live rows. -/
def KeepsLive : Prop :=
  ∃ pub, commitWithDeletes env dir md newSegments keys staged = .ok pub ∧
    ∀ id d, visible (dir.writeAll pub.written) pub.next id d = visible dir md id d

/-- No live row has a deleted key. -/
def NoLiveTarget : Prop := ∀ id d, visible dir md id d = true → targetRow env dir keys id d = false

/-- Nothing was cancelled while staged, and the key scan finds no row in the new segments. -/
def RetrySafe : Prop :=
  staged = [] ∧ (keys = [] ∨
    (∀ n ∈ newSegments, md.hasSegment n.1 = false → ∀ row ∈ (dir.rows n.1).getD [],
      env.key row ∉ keys) ∧ md.publicationGeneration + 2 < 2 ^ 64)

/-! ## The generation counter -/

variable {env env' dir md newSegments keys staged pub} {acc acc' : Publication}

/-- Writing masks leaves the counter. -/
theorem publicationGeneration_foldlM {α : Type} {f : Publication → α → Result Publication} {l : List α}
    (hf : ∀ {a x a'}, f a x = .ok a' → ∃ id info alive retired, writeMask env a id info alive retired = .ok a')
    (h : l.foldlM f acc = .ok acc') : acc'.next.publicationGeneration = acc.next.publicationGeneration := by
  refine Fallible.foldlM_eq_ok_rec h rfl ?_
  intro _ x a a' _ ha hstep
  obtain ⟨id, info, alive, retired, hstep⟩ := hf hstep
  obtain ⟨-, -, -, rfl⟩ := writeMask_eq_ok hstep
  exact ha

/-- A commit that deletes counts the generation up by one. -/
theorem publicationGeneration_commitWithDeletes
    (h : commitWithDeletes env dir md newSegments keys staged = .ok pub) (hne : ¬(keys = [] ∧ staged = [])) :
    pub.next.publicationGeneration = md.publicationGeneration + 1 ∧
      md.publicationGeneration + 1 < 2 ^ 64 := by
  obtain ⟨-, -, changed, hidden, last, -, hhid, hlast, hgen, rfl⟩ := commitWithDeletes_eq_ok h hne
  have hlast := publicationGeneration_foldlM (fun h => by
    obtain ⟨info, alive, -, -, -, h⟩ := hideStaged_eq_ok h
    exact ⟨_, info, alive, _, h⟩) hlast
  have hhid := publicationGeneration_foldlM (fun h => by
    obtain ⟨info, -, h⟩ := hideCommitted_eq_ok h
    exact ⟨_, info, _, _, h⟩) hhid
  rw [publicationGeneration_addNewSegments, hhid] at hlast
  simp only [Publication.start] at hlast
  exact ⟨by simp only [hlast], hlast ▸ hgen⟩

/-! ## What the retry sees -/

namespace Retried

variable (h : Retried env env' dir md newSegments keys staged pub)

include h

theorem spec : CommitSpec env dir md newSegments keys staged pub :=
  commitWithDeletes_spec h.took h.wellFormed h.fresh h.counts

/-- The first call has left the files that were there. -/
theorem rows_eq {id : SegmentId} (hne : dir id ≠ none) : (dir.writeAll pub.written).rows id = dir.rows id :=
  Directory.rows_congr (h.fresh.writeAll_eq h.spec.wrote hne)

theorem rows_of_mem {n : SegmentId × Nat} (hn : n ∈ newSegments) :
    ∃ rows, dir.rows n.1 = some rows ∧ rows.length = n.2 :=
  validateCompletedSegment_eq_ok.mp
    (validateCompletedSegments_eq_ok.mp (Manager.validated_of_commit h.took) n hn)

theorem targetRow_eq {id : SegmentId} (hne : dir id ≠ none) :
    targetRow env' (dir.writeAll pub.written) keys id = targetRow env dir keys id := by
  funext d
  simp only [targetRow, h.key, h.rows_eq hne]

/-- The segments after the first call: the old ones and the new ones. -/
theorem hasSegment_eq (id : SegmentId) : pub.next.hasSegment id =
    (md.hasSegment id || (newSegments.lookup id).isSome) := by
  rw [Manager.hasSegment_of_rowCounts (h.spec.numDocs id), hasSegment,
    get_addNewSegments, hasSegment]
  cases md.get id <;> simp

/-- The retry hides the rows with a deleted key, in every segment. -/
theorem visible_retry {pub' : Publication}
    (hretry : commitWithDeletes env' (dir.writeAll pub.written) pub.next newSegments keys staged =
      .ok pub') (id : SegmentId) (d : Nat) :
    visible ((dir.writeAll pub.written).writeAll pub'.written) pub'.next id d =
      (visible (dir.writeAll pub.written) pub.next id d &&
        !targetRow env' (dir.writeAll pub.written) keys id d) := by
  have hspec := commitWithDeletes_spec hretry h.spec.wellFormed h.fresh' h.counts
  cases hg : pub.next.get id with
  | some info => exact hspec.committed id info hg d
  | none =>
    have hno := h.hasSegment_eq id
    rw [hasSegment_eq_false.mpr hg, eq_comm, Bool.or_eq_false_iff] at hno
    have hsame := Manager.hasSegment_of_rowCounts (hspec.numDocs id)
    have hlook : newSegments.lookup id = none := by simpa using hno.2
    have hnone : pub'.next.get id = none := by
      rw [← hasSegment_eq_false, hsame, hasSegment_eq_false,
        get_addNewSegments, hg, hlook]
      rfl
    rw [visible_of_get_eq_none hnone, visible_of_get_eq_none hg, Bool.false_and]

/-- Without cancelled rows: the first call left no live target row in the old segments, and shows
all rows of the new ones. -/
theorem live_target_iff (hst : staged = []) :
    NoLiveTarget env' (dir.writeAll pub.written) pub.next keys ↔
    ∀ n ∈ newSegments, md.hasSegment n.1 = false → ∀ row ∈ (dir.rows n.1).getD [],
      env.key row ∉ keys := by
  constructor
  · intro hnone n hn hnew row hrow hkey
    obtain ⟨m, hl⟩ := exists_lookup hn
    obtain ⟨rows, hrows, (hlen : rows.length = m)⟩ := h.rows_of_mem (mem_of_lookup hl)
    rw [hrows, Option.getD_some] at hrow
    obtain ⟨d, hd, hget⟩ := List.mem_iff_getElem.mp hrow
    have hvis := h.spec.added n.1 m (hasSegment_eq_false.mp hnew) hl d
    rw [decide_eq_true (hlen ▸ hd), hst] at hvis
    have htarget := hnone n.1 d hvis
    rw [h.targetRow_eq (Directory.rows_ne_none hrows)] at htarget
    simp [targetRow, holdsAt, hrows, List.getElem?_eq_getElem hd, hget, hkey] at htarget
  · intro hkeys id d hvis
    cases hg : md.get id with
    | some info =>
      rw [h.spec.committed id info hg, Bool.and_eq_true] at hvis
      rw [h.targetRow_eq (h.wellFormed.ne_none (mem_ownedIds_self hg))]
      simpa using hvis.2
    | none =>
      have hseg : pub.next.hasSegment id = true := by
        cases hp : pub.next.get id with
        | none => rw [visible_of_get_eq_none hp] at hvis; cases hvis
        | some info => exact hasSegment_iff.mpr ⟨info, hp⟩
      rw [h.hasSegment_eq, hasSegment_eq_false.mpr hg, Bool.false_or] at hseg
      obtain ⟨m, hl⟩ := Option.isSome_iff_exists.mp hseg
      obtain ⟨rows, hrows, hlen⟩ := h.rows_of_mem (mem_of_lookup hl)
      rw [h.targetRow_eq (Directory.rows_ne_none hrows), ← Bool.not_eq_true]
      simp only [targetRow, holdsAt, hrows, Option.getD_some, Option.any_eq_true]
      rintro ⟨row, hrow, hkey⟩
      refine hkeys (id, m) (mem_of_lookup hl) (hasSegment_eq_false.mpr hg) row ?_
        (List.contains_iff_mem.mp hkey)
      rw [hrows]
      exact List.mem_of_getElem? hrow

theorem validated : validateCompletedSegments (dir.writeAll pub.written) newSegments = .ok () := by
  refine validateCompletedSegments_eq_ok.mpr fun n hn => validateCompletedSegment_eq_ok.mpr ?_
  obtain ⟨rows, hrows, hlen⟩ := h.rows_of_mem hn
  exact ⟨rows, (h.rows_eq (Directory.rows_ne_none hrows)).trans hrows, hlen⟩

/-- The retry fails as soon as a row was cancelled: its segment is published by now. -/
theorem retry_error (hst : staged ≠ []) (pub' : Publication) :
    commitWithDeletes env' (dir.writeAll pub.written) pub.next newSegments keys staged ≠
      .ok pub' := by
  intro hretry
  have hne : ¬(keys = [] ∧ staged = []) := fun hc => hst hc.2
  obtain ⟨-, -, changed, hidden, last, hch, hhid, hlast, -⟩ := commitWithDeletes_eq_ok h.took hne
  obtain ⟨-, -, changed', hidden', last', -, -, hlast', -⟩ := commitWithDeletes_eq_ok hretry hne
  obtain ⟨⟨id, st⟩, rest, rfl⟩ := List.exists_cons_of_ne_nil hst
  obtain ⟨acc, hfirst, -⟩ := Fallible.bind_eq_ok hlast
  obtain ⟨acc', hfirst', -⟩ := Fallible.bind_eq_ok hlast'
  -- the first call found the segment among the new ones
  have hlook : (newSegments.lookup id).isSome = true := by
    have hcounts := (foldlM_hideCommitted h.wellFormed h.fresh
      (changedSegments_eq_ok h.wellFormed hch) hhid).1.numDocs id
    obtain ⟨info, -, hnew, hinfo, -⟩ := hideStaged_eq_ok hfirst
    simp only [get_addNewSegments] at hinfo
    rw [rowCounts, hnew] at hcounts
    have hhidden : hidden.next.get id = none := by simpa using hcounts
    rw [hhidden, Option.none_or, Option.map_eq_some_iff] at hinfo
    obtain ⟨n, hn, -⟩ := hinfo
    rw [hn]; rfl
  -- the second call refuses it
  have hpublished : pub.next.hasSegment id = true := by rw [h.hasSegment_eq, hlook, Bool.or_true]
  rw [hideStaged, if_pos hpublished] at hfirst'
  cases hfirst'

/-- Without a live target row no segment changes. -/
theorem changedSegments_retry (hnone : NoLiveTarget env' (dir.writeAll pub.written) pub.next keys) :
    changedSegments env' (dir.writeAll pub.written) pub.next keys.dedup = .ok [] := by
  have hscan : ∀ e ∈ pub.next.segmentMetas.entries,
      deletionTargets env' (dir.writeAll pub.written) keys.dedup e.1 e.2 = .ok none := by
    intro e he
    obtain ⟨r, hr, hres⟩ := deletionTargets_spec h.spec.wellFormed (mem_entries.mp he)
      h.accepting keys.dedup
    rw [hr]
    cases hres with
    | unchanged _ => rfl
    | changed alive _ _ d hlive htarget =>
      rw [targetRow_dedup, hnone e.1 d hlive] at htarget
      cases htarget
  unfold changedSegments
  obtain ⟨targets, htargets⟩ : ∃ targets, ((if keys.dedup = [] then []
      else pub.next.segmentMetas.entries).mapM fun e =>
        deletionTargets env' (dir.writeAll pub.written) keys.dedup e.1 e.2) = .ok targets := by
    refine Fallible.mapM_of_forall fun e he => ⟨none, hscan e ?_⟩
    split at he
    · cases he
    · exact he
  have hfilter : targets.filterMap id = [] := by
    rw [List.filterMap_eq_nil_iff]
    intro r hr
    obtain ⟨e, he, hf⟩ := (Fallible.mapM_eq_ok htargets).1 r hr
    split at he
    · cases he
    · rw [hscan e he] at hf
      cases hf
      rfl
  simp only [htargets, Fallible.ok_bind, hfilter]
  rfl

theorem retry_ok (hkeys : keys ≠ []) (hnone : NoLiveTarget env' (dir.writeAll pub.written) pub.next keys)
    (hgen : md.publicationGeneration + 2 < 2 ^ 64) :
    ∃ pub', commitWithDeletes env' (dir.writeAll pub.written) pub.next newSegments keys [] =
      .ok pub' := by
  have hne : ¬(keys = [] ∧ staged = []) := fun hc => hkeys hc.1
  have hfield : env'.primaryField = true :=
    h.primaryField.trans (commitWithDeletes_eq_ok h.took hne).2.1
  obtain ⟨hcount, -⟩ := publicationGeneration_commitWithDeletes h.took hne
  unfold commitWithDeletes
  rw [if_neg (fun hc => hkeys hc.1), if_neg (by simp [hfield]), h.validated, h.changedSegments_retry hnone]
  simp only [Fallible.ok_bind, List.foldlM_nil, pure, Except.pure, Publication.start,
    publicationGeneration_addNewSegments, hcount]
  rw [if_neg (by omega)]
  exact ⟨_, rfl⟩

end Retried

open Manager in
theorem stringEnv_fresh {base : Nat} {dir : Directory String} (h : ∀ i, dir i ≠ none → i < base) :
    (stringEnv base).Fresh dir := by
  refine ⟨stringEnv_injective base, fun i => ?_⟩
  by_contra hne
  exact absurd (h _ hne) (Nat.not_lt.mpr (Nat.le_add_right base i))

/-- Segment 0 has a committed row `"a"`; segment 1 is to be committed. -/
def replacedDir (rows : List String) : Directory String :=
  Function.update (Function.update (fun _ => none) 0 (some (.segment ["a"]))) 1
    (some (.segment rows))

end Summa
