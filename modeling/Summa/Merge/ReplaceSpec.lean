import Summa.Merge.CommitSpec
import Summa.Merge.Replace

/-!
# What a replacement shows

`replaceSegments_spec`: the published state after a replacement whose output has the sources' rows,
one source after the other. The output shows row `d` of a source, shifted by the rows of the sources
before it, exactly when the source showed it at the moment of publication; a compacted output shows
all its rows. `foldlM_moveSegment`: a vector generation moves the entry of each source, with its mask, to
its output.
-/

namespace Summa

open List Fallible IndexMetadata SegmentMetaInfo

variable {ρ : Type} {env : TxEnv ρ} {dir : Directory ρ} {md : IndexMetadata} {id : SegmentId}

namespace Replacement

/-- The row counts and visibilities of the sources. -/
def parts (dir : Directory ρ) (parents : List SegmentMetaInfo) : List (Nat × (Nat → Bool)) :=
  parents.map fun info => (info.numDocs, info.shows dir)

theorem sum_parts (parents : List SegmentMetaInfo) :
    ((parts dir parents).map Prod.fst).sum = (parents.map (·.numDocs)).sum := by
  simp [parts, Function.comp_def]

/-- One source: the rows at its offset take its visibility. -/
theorem appendSource_eq_ok {acc acc' : DocBitset × Nat} {info : SegmentMetaInfo} {n : Nat}
    (hlen : acc.1.bits.length = divCeil64 n) (h : appendSource dir acc info = .ok acc') :
    acc'.2 = acc.2 + info.numDocs ∧ acc'.1.bits.length = divCeil64 n ∧
      ∀ d, (d < acc.2 ∨ acc.2 + info.numDocs ≤ d → acc'.1.contains d = acc.1.contains d) ∧
        (acc.2 ≤ d → d < acc.2 + info.numDocs →
          acc'.1.contains d = (acc.1.contains d && info.shows dir (d - acc.2))) := by
  unfold appendSource at h
  obtain ⟨alive, halive, h⟩ := bind_eq_ok h
  split at h
  · cases h
  cases h
  unfold appendDeletion at halive
  cases hd : info.deletions with
  | none =>
    simp only [hd] at halive
    cases halive
    refine ⟨rfl, hlen, fun d => ⟨fun _ => rfl, fun hle hlt => ?_⟩⟩
    rw [shows_of_deletions_eq_none hd, decide_eq_true (by omega), Bool.and_true]
  | some deletion =>
    simp only [hd] at halive
    obtain ⟨source, hload, happ⟩ := bind_eq_ok halive
    have hvis : info.visibility dir = .ok source := by
      simp only [visibility, hd]; exact hload
    have hbound : divCeil64 (acc.2 + info.numDocs) ≤ acc.1.bits.length := by
      unfold Deletion.appendDeadRows at happ
      split at happ
      · cases happ
      · omega
    obtain ⟨alive', happ', hlen', hcont⟩ :=
      Deletion.appendDeadRows_eq_ok (fits_of_visibility hvis) hbound
    rw [happ] at happ'
    cases happ'
    refine ⟨rfl, hlen'.trans hlen, fun d => ⟨fun hout => ?_, fun hle hlt => ?_⟩⟩
    · rw [hcont, decide_eq_false (by omega)]; simp
    · rw [hcont, decide_eq_true ⟨hle, hlt⟩, shows_eq hvis]; simp

/-- The merged mask shows the sources one after the other. -/
theorem appendSources_eq_ok {parents : List SegmentMetaInfo} {n : Nat} {merged : DocBitset × Nat}
    (h : appendSources dir parents n = .ok merged) :
    merged.2 = (parents.map (·.numDocs)).sum ∧ merged.1.bits.length = divCeil64 n ∧
      ∀ d, merged.1.contains d = (decide (d < n) && shifted (parts dir parents) d) := by
  refine foldlM_eq_ok_rec h ⟨rfl, DocBitset.length_all n, fun d => by simp [parts, shifted]⟩ ?_
  rintro pre info acc acc' - ⟨hoff, hlen, hcont⟩ hstep
  obtain ⟨hoff', hlen', hcont'⟩ := appendSource_eq_ok hlen hstep
  refine ⟨by rw [hoff', hoff]; simp, hlen', fun d => ?_⟩
  have hpart : parts dir (pre ++ [info]) = parts dir pre ++ [(info.numDocs, info.shows dir)] := by
    simp [parts]
  have hsum : ((parts dir pre).map Prod.fst).sum = acc.2 := by rw [sum_parts, hoff]
  rw [hpart, shifted_append, hsum]
  by_cases hlt : d < acc.2
  · rw [if_pos hlt, (hcont' d).1 (.inl hlt), hcont]
  · rw [if_neg hlt]
    have hpre : acc.1.contains d = decide (d < n) := by
      rw [hcont, shifted_of_sum_le (by omega), Bool.and_true]
    by_cases hin : d < acc.2 + info.numDocs
    · rw [(hcont' d).2 (by omega) hin, hpre, shifted, if_pos (by simpa using by omega)]
    · rw [(hcont' d).1 (.inr (by omega)), hpre, shifted, if_neg (by simpa using by omega), shifted,
        Bool.and_true]

variable {self : Replacement} {reader : OutputReader} {info : SegmentMetaInfo} {pub : Publication}

/-- The record of the output has its row count. A mask in it is the one of its only source. -/
theorem replacementInfo_eq_ok (h : self.replacementInfo md reader = .ok info) :
    info.numDocs = self.docCount ∧
      (info.deletions = none ∨ self.layout ≠ .compacted ∧ ∃ source ∈ self.parents md,
        info.deletions = source.deletions) ∧
      (self.layout = .compacted → ∃ s, self.oldIds = [s]) := by
  unfold replacementInfo at h
  simp only at h
  split at h
  · rename_i reordered bpConverged passes hbp
    split at h
    · cases h
    cases h
    refine ⟨rfl, .inl rfl, fun hc => ?_⟩
    rw [hc] at hbp
    cases hbp
  · split at h
    · rename_i s hids
      split at h
      · cases h
      rename_i source hg
      have hmem : source ∈ self.parents md := by simp [parents, hids, hg]
      split at h
      · rename_i hp
        cases h
        exact ⟨rfl, .inr ⟨by simp [hp], source, hmem, rfl⟩, fun _ => ⟨s, hids⟩⟩
      · split at h
        · cases h
        · split at h
          · cases h
            exact ⟨rfl, .inl rfl, fun _ => ⟨s, hids⟩⟩
          · rename_i hc
            cases h
            exact ⟨rfl, .inr ⟨hc, source, hmem, rfl⟩, fun _ => ⟨s, hids⟩⟩
    · cases h

/-- Sources that show all their rows, concatenated, show all rows. -/
theorem shifted_parts_of_no_deletions {parents : List SegmentMetaInfo}
    (h : ∀ info ∈ parents, info.deletions = none) (d : Nat) : shifted (parts dir parents) d = true := by
  induction parents generalizing d with
  | nil => rfl
  | cons info parents ih =>
    rw [parts, map_cons, shifted]
    split
    · rename_i hd
      exact (shows_of_deletions_eq_none (h info mem_cons_self) d).trans (decide_eq_true hd)
    · exact ih (fun i hi => h i (mem_cons_of_mem _ hi)) _

/-- The visibility of the output of a replacement that keeps the rows: the sources' visibility, one
after the other. -/
theorem outputVisibility_eq_ok
    (hmask : ∀ source ∈ self.parents md, ∃ alive, source.visibility dir = .ok alive)
    (hdoc : self.docCount < 2 ^ 32) (hlayout : self.layout ≠ .compacted)
    (hinfo : self.replacementInfo md reader = .ok info)
    {out : Option DeletionMeta × List (SegmentId × List Byte) × List SegmentId}
    (h : self.outputVisibility env dir md info = .ok out) :
    env.Wrote out.2.1 ∧ ∀ info' : SegmentMetaInfo, info'.deletions = out.1 →
      info'.numDocs = self.docCount → ∃ alive, info'.visibility (dir.writeAll out.2.1) = .ok alive ∧
        ∀ d, alive.contains d =
          (decide (d < self.docCount) && shifted (parts dir (self.parents md)) d) := by
  obtain ⟨-, hdel, -⟩ := replacementInfo_eq_ok hinfo
  unfold outputVisibility at h
  simp only [if_neg hlayout] at h
  split at h
  · -- no source has a deletion file
    rename_i hnone
    cases h
    have hall : ∀ source ∈ self.parents md, source.deletions = none := by
      intro source hs
      simp only [any_eq_true, not_exists, not_and, Option.not_isSome_iff_eq_none] at hnone
      exact hnone source hs
    have hinfo : info.deletions = none := by
      rcases hdel with hd | ⟨-, source, hs, hd⟩
      · exact hd
      · rw [hd, hall source hs]
    refine ⟨rfl, fun info' hd hn => ⟨.all self.docCount, ?_, fun d => ?_⟩⟩
    · simp [visibility, hd, hinfo, hn]
    · rw [DocBitset.contains_all, shifted_parts_of_no_deletions hall, Bool.and_true]
  · split at h
    · -- one source: its mask is shared
      rename_i source hpar
      split at h
      · cases h
      rename_i hcount
      rw [not_not] at hcount
      cases h
      obtain ⟨alive, halive⟩ := hmask source (by simp [hpar])
      refine ⟨rfl, fun info' hd hn => ⟨alive, ?_, fun d => ?_⟩⟩
      · rw [← halive]; unfold visibility; rw [hd, hn, hcount]; rfl
      · have hf := fits_of_visibility halive
        simp only [parts, hpar, map_cons, map_nil, shifted, shows_eq halive, hcount]
        by_cases hd : d < self.docCount
        · simp [hd]
        · simp [hd, hf.padding d (by omega)]
    · -- a merged mask
      obtain ⟨merged, hmerged, h⟩ := bind_eq_ok h
      obtain ⟨-, hlen, hcont⟩ := appendSources_eq_ok hmerged
      split at h
      · cases h
      obtain ⟨⟨⟩, -, h⟩ := bind_eq_ok h
      obtain ⟨mask, hw, h⟩ := bind_eq_ok h
      obtain ⟨hf, hlt, rfl⟩ := Deletion.write_eq_ok hw
      cases h
      refine ⟨rfl, fun info' hd hn => ⟨merged.1, ?_, hcont⟩⟩
      simp only [visibility, hd, hn]
      have hfile : (dir.writeAll [(env.newId 0, Deletion.encode self.docCount
          (self.docCount - merged.1.count) merged.1)]).deletionFile (env.newId 0) =
          some (Deletion.encode self.docCount (self.docCount - merged.1.count) merged.1) := by
        simp [Directory.writeAll, Directory.deletionFile]
      rw [hfile]
      exact Deletion.load_encode hdoc hf hlt

theorem get_foldl_removeSegment (ids : List SegmentId) (t : SegmentId) :
    (ids.foldl removeSegment md).get t = if t ∈ ids then none else md.get t := by
  induction ids generalizing md with
  | nil => rfl
  | cons s ids ih =>
    rw [foldl_cons, ih, get_removeSegment]
    by_cases hs : t = s <;> by_cases ht : t ∈ ids <;> simp [hs, ht]

/-- Inversion of `replaceSegments`. -/
theorem replaceSegments_eq_ok {reader : Result OutputReader}
    (h : self.replaceSegments env dir md reader = .ok pub) :
    validateCompletedSegment dir self.newId self.docCount = .ok () ∧
    (∀ s ∈ self.oldIds, ∃ info, md.get s = some info) ∧ self.checkExpected md = .ok () ∧
    ∃ r info out info', self.replacementInfo md r = .ok info ∧
      self.outputVisibility env dir md info = .ok out ∧
      pub.next.get self.newId = some info' ∧
      (∀ t, t ≠ self.newId → pub.next.get t = if t ∈ self.oldIds then none else md.get t) ∧
      info'.deletions = out.1 ∧ info'.numDocs = info.numDocs ∧
      pub.written = out.2.1 ∧ pub.registered = self.newId :: info'.deletionId.toList ∧
      pub.retired = (self.oldIds ++ out.2.2).dedup.filter fun id => !pub.next.ownsId id := by
  unfold replaceSegments at h
  obtain ⟨⟨⟩, hvalid, h⟩ := bind_eq_ok h
  obtain ⟨r, -, h⟩ := bind_eq_ok h
  simp only at h
  split at h
  · cases h
  obtain ⟨debt, -, h⟩ := bind_eq_ok h
  split at h
  · cases h
  rename_i hsrc
  obtain ⟨⟨⟩, hexp, h⟩ := bind_eq_ok h
  obtain ⟨info, hinfo, h⟩ := bind_eq_ok h
  obtain ⟨out, hout, h⟩ := bind_eq_ok h
  cases h
  refine ⟨hvalid, fun s hs => ?_, hexp, r, info, out, _, hinfo, hout, get_addSegmentMeta_self,
    fun t ht => ?_, rfl, rfl, rfl, rfl, rfl⟩
  rotate_left
  · rw [get_addSegmentMeta_ne ht, get_foldl_removeSegment]
  rw [← hasSegment_iff]
  simp only [any_eq_true, not_exists, not_and, Bool.not_eq_true, Bool.not_eq_false'] at hsrc
  exact hsrc s hs

/-- The published state after a replacement. -/
structure ReplaceSpec (env : TxEnv ρ) (dir : Directory ρ) (md : IndexMetadata)
    (r : Replacement) (pub : Publication) : Prop where
  wrote : env.Wrote pub.written
  wellFormed : WellFormed (dir.writeAll pub.written) pub.next
  sources : ∀ s ∈ r.oldIds, ∃ info, md.get s = some info
  output : rowCounts pub.next r.newId = some r.docCount
  removed : ∀ s ∈ r.oldIds, s ≠ r.newId → pub.next.get s = none
  kept : ∀ t, t ∉ r.oldIds → t ≠ r.newId → pub.next.get t = md.get t
  /-- The rows are kept: the sources' visibility, one after the other. -/
  visible_copied : r.layout ≠ .compacted → ∀ d,
    visible (dir.writeAll pub.written) pub.next r.newId d =
      (decide (d < r.docCount) && shifted (parts dir (r.parents md)) d)
  /-- Dead rows were dropped: the output shows all its rows. -/
  visible_compacted : r.layout = .compacted → ∀ d,
    visible (dir.writeAll pub.written) pub.next r.newId d = decide (d < r.docCount)
  /-- The visibility that a compaction read is the current one. -/
  expected : r.layout = .compacted → ∃ s info expected, r.oldIds = [s] ∧
    md.get s = some info ∧ r.expectedDeletions = some expected ∧
      expected.lookup s = some info.deletions

theorem replaceSegments_spec {reader : Result OutputReader} (hwf : WellFormed dir md)
    (hfresh : env.Fresh dir) (hdoc : self.docCount < 2 ^ 32)
    (h : self.replaceSegments env dir md reader = .ok pub) : ReplaceSpec env dir md self pub := by
  obtain ⟨hvalid, hsrc, hexp, r, info, out, info', hinfo, hout, hself, hother, hdel, hnum, hwr, -, -⟩ :=
    replaceSegments_eq_ok h
  obtain ⟨hcount, hdel₀, hone⟩ := replacementInfo_eq_ok hinfo
  have hmask : ∀ source ∈ self.parents md, ∃ alive, source.visibility dir = .ok alive := by
    intro source hs
    obtain ⟨s, -, hg⟩ := mem_filterMap.mp hs
    exact (hwf s source hg).mask
  -- the visibility of the output, in both cases
  have hvis : env.Wrote pub.written ∧ ∃ alive,
      info'.visibility (dir.writeAll pub.written) = .ok alive ∧
      (self.layout ≠ .compacted → ∀ d, alive.contains d =
        (decide (d < self.docCount) && shifted (parts dir (self.parents md)) d)) ∧
      (self.layout = .compacted → ∀ d, alive.contains d = decide (d < self.docCount)) := by
    rw [hwr]
    by_cases hl : self.layout = .compacted
    · have hnone : info.deletions = none := by
        rcases hdel₀ with hd | ⟨hne, -⟩
        · exact hd
        · exact absurd hl hne
      unfold outputVisibility at hout
      simp only [if_pos hl] at hout
      cases hout
      refine ⟨rfl, .all self.docCount, ?_, fun hne => absurd hl hne, fun _ d => by simp⟩
      simp [visibility, hdel, hnone, hnum, hcount]
    · obtain ⟨hw, hall⟩ := outputVisibility_eq_ok hmask hdoc hl hinfo hout
      obtain ⟨alive, halive, hcont⟩ := hall info' hdel (hnum.trans hcount)
      exact ⟨hw, alive, halive, fun _ => hcont, fun hc => absurd hc hl⟩
  obtain ⟨hw, alive, halive, hcopy, hcomp⟩ := hvis
  refine ⟨hw, ?_, hsrc, ?_, fun s hs hne => by rw [hother s hne, if_pos hs],
    fun t ht hne => by rw [hother t hne, if_neg ht], fun hl d => ?_, fun hl d => ?_, fun hl => ?_⟩
  · intro t infoT ht
    rcases eq_or_ne t self.newId with rfl | hne
    · rw [hself] at ht
      cases ht
      obtain ⟨rows, hrows, hlen⟩ := validateCompletedSegment_eq_ok.mp hvalid
      refine ⟨⟨rows, ?_, ?_⟩, ?_, alive, halive⟩
      · rw [Directory.rows_congr (hfresh.writeAll_eq hw (Directory.rows_ne_none hrows))]
        exact hrows
      · rw [hlen, hnum, hcount]
      · rw [hnum, hcount]; exact hdoc
    · rw [hother t hne] at ht
      split at ht
      · cases ht
      exact (hwf.congr fun i hi => hfresh.writeAll_eq hw (hwf.ne_none hi)) t infoT ht
  · simp [rowCounts, hself, hnum, hcount]
  · rw [visible_eq hself halive, hcopy hl]
  · rw [visible_eq hself halive, hcomp hl]
  · obtain ⟨s, hs⟩ := hone hl
    obtain ⟨infoS, hg⟩ := hsrc s (by simp [hs])
    unfold checkExpected at hexp
    split at hexp
    · rename_i expected he
      split at hexp
      · cases hexp
      rename_i hany
      refine ⟨s, infoS, expected, hs, hg, he, ?_⟩
      simpa [hs, hg] using hany
    · rw [if_pos hl] at hexp
      cases hexp

/-! ## Live rows -/

/-- The sources' parts, by segment. -/
theorem parts_parents (hwf : WellFormed dir md) (hsrc : ∀ s ∈ self.oldIds, ∃ info, md.get s = some info) :
    parts dir (self.parents md) =
      self.oldIds.map fun s => (((dir.rows s).getD []).length, visible dir md s) := by
  unfold parts parents
  generalize self.oldIds = ids at hsrc
  induction ids with
  | nil => rfl
  | cons s ids ih =>
    obtain ⟨info, hg⟩ := hsrc s mem_cons_self
    obtain ⟨rows, hrows, hlen⟩ := (hwf s info hg).files
    rw [filterMap_cons_some hg, map_cons, map_cons,
      ih fun t ht => hsrc t (mem_cons_of_mem _ ht)]
    simp [hrows, hlen, visible_of_get hg]

namespace ReplaceSpec

variable (hspec : ReplaceSpec env dir md self pub) (hwf : WellFormed dir md)
  (hfresh : env.Fresh dir)

include hspec

theorem rows_length {rows : List ρ} (hfresh : env.Fresh dir) (hrows : dir.rows self.newId = some rows) :
    rows.length = self.docCount ∧ (dir.writeAll pub.written).rows self.newId = some rows := by
  obtain ⟨info, hg, hn⟩ := Option.map_eq_some_iff.mp hspec.output
  obtain ⟨rows', hrows', hlen⟩ := (hspec.wellFormed self.newId info hg).files
  have heq : (dir.writeAll pub.written).rows self.newId = some rows := by
    rw [Directory.rows_congr (hfresh.writeAll_eq hspec.wrote (Directory.rows_ne_none hrows)), hrows]
  rw [heq] at hrows'
  cases hrows'
  exact ⟨hlen.trans hn, heq⟩

include hwf hfresh

variable (hlayout : self.layout ≠ .compacted)
  (hrows : dir.rows self.newId = some (self.oldIds.flatMap fun s => (dir.rows s).getD []))

include hlayout hrows in
/-- The output of a replacement that keeps the rows has the live rows of its sources. -/
theorem liveRows_copied :
    liveRows (dir.writeAll pub.written) pub.next self.newId =
      self.oldIds.flatMap (liveRows dir md) := by
  obtain ⟨hlen, hrows'⟩ := hspec.rows_length hfresh hrows
  unfold liveRows
  rw [hrows', Option.getD_some, ← select_shifted self.oldIds (fun s => (dir.rows s).getD [])
    (fun s => visible dir md s), ← parts_parents hwf hspec.sources]
  refine select_congr fun d hd => ?_
  rw [hspec.visible_copied hlayout, decide_eq_true (by omega), Bool.true_and]

include hlayout hrows in
/-- Row `d` of a source is row `d` of the output, shifted by the rows of the sources before it. -/
theorem visible_shifted
    {pre post : List SegmentId} {s : SegmentId} (hids : self.oldIds = pre ++ s :: post) {d : Nat}
    (hd : d < ((dir.rows s).getD []).length) :
    visible (dir.writeAll pub.written) pub.next self.newId
      ((pre.map fun t => ((dir.rows t).getD []).length).sum + d) = visible dir md s d := by
  obtain ⟨hlen, -⟩ := hspec.rows_length hfresh hrows
  have hsum : (pre.map fun t => ((dir.rows t).getD []).length).sum + d < self.docCount := by
    rw [← hlen, hids, flatMap_append, flatMap_cons, length_append, length_append,
      length_flatMap]
    omega
  rw [hspec.visible_copied hlayout, decide_eq_true hsum, Bool.true_and,
    parts_parents hwf hspec.sources, hids, map_append, map_cons]
  have hpre : (pre.map fun t => ((dir.rows t).getD []).length).sum =
      ((pre.map fun t => (((dir.rows t).getD []).length, visible dir md t)).map Prod.fst).sum := by
    rw [map_map]; rfl
  rw [hpre]
  exact shifted_at _ (((dir.rows s).getD []).length, visible dir md s) _ hd

omit hwf in
/-- A compacted output has exactly the rows it was given. -/
theorem liveRows_compacted (hlayout : self.layout = .compacted) {rows : List ρ}
    (hrows : dir.rows self.newId = some rows) :
    liveRows (dir.writeAll pub.written) pub.next self.newId = rows := by
  obtain ⟨hlen, hrows'⟩ := hspec.rows_length hfresh hrows
  unfold liveRows
  rw [hrows', Option.getD_some]
  refine select_true fun d hd => ?_
  rw [hspec.visible_compacted hlayout, decide_eq_true (by omega)]

end ReplaceSpec

end Replacement

/-! ## Vector generations -/

/-- Each source's record moves to its output; the other segments keep theirs. -/
structure MoveSpec (md : IndexMetadata) (staged : List StagedVectorSegment) (next : IndexMetadata) :
    Prop where
  moved : ∀ s ∈ staged, ∃ info, md.get s.sourceId = some info ∧ next.get s.outputId = some info
  removed : ∀ s ∈ staged, next.get s.sourceId = none
  kept : ∀ t, t ∉ staged.map (·.sourceId) → t ∉ staged.map (·.outputId) → next.get t = md.get t
  sources_nodup : (staged.map (·.sourceId)).Nodup
  outputs_nodup : (staged.map (·.outputId)).Nodup

theorem foldlM_moveSegment {staged : List StagedVectorSegment} {next : IndexMetadata}
    (hsrc : ∀ s ∈ staged, md.get s.sourceId ≠ none) (hout : ∀ s ∈ staged, md.get s.outputId = none)
    (h : staged.foldlM moveSegment md = .ok next) : MoveSpec md staged next := by
  have hdis : ∀ a ∈ staged, ∀ b ∈ staged, a.sourceId ≠ b.outputId := by
    intro a ha b hb heq
    exact hsrc a ha (heq ▸ hout b hb)
  have hrec : (∀ s ∈ staged, s ∈ staged) ∧ MoveSpec md staged next := by
    refine foldlM_eq_ok_rec (motive := fun pre next => (∀ s ∈ pre, s ∈ staged) ∧
      MoveSpec md pre next) h ⟨by simp, ⟨by simp, by simp, fun _ _ _ => rfl, by simp, by simp⟩⟩ ?_
    rintro pre a acc acc' ha ⟨hsub, hmoved, hremoved, hkept, hsrcs, houts⟩ hstep
    unfold moveSegment at hstep
    split at hstep
    · cases hstep
    rename_i info hg
    simp only at hstep
    split at hstep
    · cases hstep
    rename_i hfree
    cases hstep
    rw [Bool.not_eq_true, hasSegment_eq_false, get_removeSegment,
      if_neg (hdis a ha a ha).symm] at hfree
    have hget : ∀ t, ((acc.removeSegment a.sourceId).addSegmentMeta a.outputId info).get t =
        if t = a.outputId then some info else if t = a.sourceId then none else acc.get t := by
      intro t; rw [get_addSegmentMeta, get_removeSegment]
    -- the source was not moved before
    have hnew : ∀ s ∈ pre, a.sourceId ≠ s.sourceId := by
      intro s hs heq
      rw [heq, hremoved s hs] at hg
      cases hg
    have hmd : md.get a.sourceId = some info := by
      rw [← hkept a.sourceId, hg]
      · simp only [mem_map, not_exists, not_and]
        exact fun s hs heq => hnew s hs heq.symm
      · simp only [mem_map, not_exists, not_and]
        exact fun s hs heq => hdis a ha s (hsub s hs) heq.symm
    -- and the output was not there
    have hne : ∀ s ∈ pre, a.outputId ≠ s.outputId := by
      intro s hs heq
      obtain ⟨info', -, hout'⟩ := hmoved s hs
      rw [← heq, hfree] at hout'
      cases hout'
    refine ⟨fun s hs => ?_, fun s hs => ?_, fun s hs => ?_, fun t ht ht' => ?_, ?_, ?_⟩
    · rcases mem_append.mp hs with hs | hs
      · exact hsub s hs
      · rw [mem_singleton.mp hs]; exact ha
    · rcases mem_append.mp hs with hs | hs
      · obtain ⟨info', hsrc', hout'⟩ := hmoved s hs
        refine ⟨info', hsrc', ?_⟩
        rw [hget, if_neg (hne s hs).symm, if_neg (hdis a ha s (hsub s hs)).symm, hout']
      · rw [mem_singleton.mp hs]
        exact ⟨info, hmd, by rw [hget, if_pos rfl]⟩
    · rcases mem_append.mp hs with hs | hs
      · rw [hget, if_neg (hdis s (hsub s hs) a ha)]
        split
        · rfl
        · exact hremoved s hs
      · rw [mem_singleton.mp hs, hget, if_neg (hdis a ha a ha), if_pos rfl]
    · simp only [map_append, mem_append, map_cons, map_nil, mem_singleton,
        not_or] at ht ht'
      rw [hget, if_neg ht'.2, if_neg ht.2, hkept t ht.1 ht'.1]
    · simpa [nodup_append, hsrcs] using fun s hs => (hnew s hs).symm
    · simpa [nodup_append, houts] using fun s hs => (hne s hs).symm
  exact hrec.2

end Summa
