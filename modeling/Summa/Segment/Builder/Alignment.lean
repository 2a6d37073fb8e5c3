import Summa.Segment.Builder.Postings

/-!
# Frequencies and positions of one term

A term is indexed value by value: a value adds the number of the term's occurrences to the posting
list and their positions to the position list. `Aligned` says what readers rely on: each posting's
frequency is the number of the document's positions, so that its cursor addresses them.

`aligned_run_iff` decides, for any sequence of values and any spills, when this holds. `Added`
records each addition with the state it met: a value that is merged into a posting in memory is added
modulo 65536, so the frequency falls behind when such a value has more than 65535 occurrences, unless
what was kept reaches the cap anyway.
-/

namespace Summa

open List

open PostingListBuilder PositionPostingListBuilder

variable {shouldSpill : PostingListBuilder → Bool}

/-- The values of one term in indexing order: the document (or chunk) and the term's positions in
the value. -/
abbrev TermValues := List (Nat × List Nat)

/-- `add_position` for each position of a value. -/
def addPositions (q : Option PositionPostingListBuilder) (docId : Nat) (positions : List Nat) :
    PositionPostingListBuilder :=
  positions.foldl (fun q p => q.addPosition docId p) (q.getD .new)

def runPostings (shouldSpill : PostingListBuilder → Bool) (b : Option PostingListBuilder)
    (vs : TermValues) : Option PostingListBuilder :=
  vs.foldl (fun b v => some (addTermPosting shouldSpill b v.1 v.2.length)) b

def runPositions (q : Option PositionPostingListBuilder) (vs : TermValues) :
    Option PositionPostingListBuilder :=
  vs.foldl (fun q v => some (addPositions q v.1 v.2)) q

/-- An addition to a posting list: the value's count, and whether it was merged into the last
posting in memory. -/
structure Added where
  docId : Nat
  count : Nat
  merged : Bool
  deriving DecidableEq, Repr

/-- What is kept of the count. -/
def Added.kept (a : Added) : Nat := if a.merged then a.count % (u16Max + 1) else min a.count u16Max

/-- The additions that indexing the values makes. -/
def additions (shouldSpill : PostingListBuilder → Bool) :
    Option PostingListBuilder → TermValues → List Added
  | _, [] => []
  | b, v :: vs =>
    ⟨v.1, v.2.length, b.any (·.merges v.1)⟩ ::
      additions shouldSpill (some (addTermPosting shouldSpill b v.1 v.2.length)) vs

theorem count_of_additions {shouldSpill : PostingListBuilder → Bool} {b : Option PostingListBuilder} {vs : TermValues}
    {a : Added} (ha : a ∈ additions shouldSpill b vs) : ∃ v ∈ vs, a.count = v.2.length := by
  induction vs generalizing b with
  | nil => cases ha
  | cons v vs ih =>
    rcases mem_cons.mp ha with rfl | ha
    · exact ⟨v, mem_cons_self, rfl⟩
    · obtain ⟨later, hlater, hcount⟩ := ih ha
      exact ⟨later, mem_cons_of_mem _ hlater, hcount⟩

/-- What the additions keep for document `u`. -/
def keptTotal (u : Nat) (as : List Added) : Nat := ((as.filter (·.docId = u)).map Added.kept).sum

/-- The occurrences that the additions count for document `u`. -/
def countTotal (u : Nat) (as : List Added) : Nat := ((as.filter (·.docId = u)).map (·.count)).sum

/-- No value of document `u` that was merged into a posting in memory has more than 65535
occurrences, or what was kept of the document's counts reaches 65535 nevertheless. -/
def InStep (u : Nat) (as : List Added) : Prop :=
  (∀ a ∈ as, a.docId = u → a.merged = true → a.count ≤ u16Max) ∨ u16Max ≤ keptTotal u as

/-- Iterating the postings with their cursors finds each document's positions in the stream. -/
def Aligned (postings : List Posting) (positions : List (Nat × List Nat)) : Prop :=
  postings.map (·.docId) = positions.map (·.1) ∧
    ∀ (i : Nat) (e : PostingEntry), (BlockPostingList.build postings true).entries[i]? = some e →
      ∃ ps, positions[i]? = some (e.docId, ps) ∧ e.termFreq = ps.length ∧
        (PositionStreamEncoder.encode (positions.map (·.2))).readInto e.cursor e.termFreq =
          some (ps.insertionSort (· ≤ ·))

/-- The cursors address the positions exactly when frequencies and position counts agree. -/
theorem aligned_iff {postings : List Posting} {positions : List (Nat × List Nat)}
    (hs : (postings.map (·.docId)).Pairwise (· < ·)) (hd : postings.map (·.docId) = positions.map (·.1)) :
    Aligned postings positions ↔ postings.map (·.termFreq) = positions.map (·.2.length) := by
  have hentries : ∀ i, (BlockPostingList.build postings true).entries[i]? =
      (postings[i]?).map fun p =>
        PostingEntry.mk p.docId p.termFreq ((postings.take i).map (·.termFreq)).sum := by
    intro i
    rw [BlockPostingList.entries_build hs, getElem?_entriesFrom]
    simp
  have hlen : postings.length = positions.length := by simpa using congrArg length hd
  constructor
  · rintro ⟨-, h⟩
    refine ext_getElem (by simpa using hlen) ?_
    intro i h1 h2
    have hi : i < postings.length := by simpa using h1
    obtain ⟨ps, hps, htf, -⟩ := h i _ (by rw [hentries, getElem?_eq_getElem hi]; rfl)
    obtain ⟨hi', hget⟩ := List.getElem?_eq_some_iff.mp hps
    rw [getElem_map, getElem_map, hget]
    exact htf
  · intro h
    refine ⟨hd, ?_⟩
    intro i e he
    rw [hentries, Option.map_eq_some_iff] at he
    obtain ⟨p, hp, rfl⟩ := he
    obtain ⟨hi, rfl⟩ := List.getElem?_eq_some_iff.mp hp
    have hi' : i < positions.length := hlen ▸ hi
    have hdoc : postings[i].docId = positions[i].1 := by
      have := congrArg (·[i]?) hd
      simpa [hi, hi'] using this
    have htf : postings[i].termFreq = positions[i].2.length := by
      have := congrArg (·[i]?) h
      simpa [hi, hi'] using this
    -- the frequencies before the posting are the lengths of the position lists before it
    have hcursor : ((postings.take i).map (·.termFreq)).sum =
        (((positions.map (·.2)).take i).map length).sum := by
      rw [map_take, h, map_take, map_map]
      rfl
    refine ⟨positions[i].2, by rw [getElem?_eq_getElem hi', hdoc], htf, ?_⟩
    rw [hcursor, htf]
    exact PositionStreamEncoder.readInto_encode (by rw [getElem?_map, getElem?_eq_getElem hi']; rfl)

/-! ## The posting list -/

variable {b : Option PostingListBuilder} {docId count u : Nat}

/-- All postings of a term that may not be indexed yet. -/
def allPostings (b : Option PostingListBuilder) : List Posting := (b.map (·.all)).getD []

theorem addTermPosting_ok (h : ∀ p ∈ b, p.Ok) (hd : ∀ d ∈ (allPostings b).map (·.docId), d ≤ docId) :
    (addTermPosting shouldSpill b docId count).Ok := by
  cases b with
  | none => exact ok_new.add (by simp [PostingListBuilder.new, PostingListBuilder.all])
  | some b =>
    have hadd : (b.add docId count).Ok := (h b rfl).add hd
    unfold addTermPosting
    simp only []
    split
    · exact hadd.spill
    · exact hadd

/-- A spill moves postings only. -/
theorem all_addTermPosting :
    (addTermPosting shouldSpill b docId count).all = ((b.getD .new).add docId count).all := by
  cases b with
  | none => rfl
  | some b =>
    unfold addTermPosting
    simp only []
    split
    · exact all_spill
    · rfl

theorem mem_docs_addTermPosting {d : Nat} :
    d ∈ ((addTermPosting shouldSpill b docId count).all.map (·.docId)) ↔
      d ∈ (allPostings b).map (·.docId) ∨ d = docId := by
  rw [all_addTermPosting]
  cases b <;> exact mem_docs_add

theorem min_docTotal_addTermPosting (x : Nat) :
    min (docTotal u (addTermPosting shouldSpill b docId count).all + x) u16Max =
      min (docTotal u (allPostings b) +
        (if u = docId then Added.kept ⟨docId, count, b.any (·.merges docId)⟩ else 0) + x) u16Max := by
  rw [all_addTermPosting]
  cases b <;> exact min_docTotal_add x

theorem keptTotal_cons (a : Added) (as : List Added) :
    keptTotal u (a :: as) = (if u = a.docId then a.kept else 0) + keptTotal u as := by
  rcases eq_or_ne u a.docId with rfl | hne
  · simp [keptTotal]
  · simp [keptTotal, hne, hne.symm]

variable (shouldSpill) in
/-- Indexing the values: the postings stay sorted, their documents are those of the values, and
each frequency is, up to the cap, what the additions kept. -/
theorem runPostings_spec {vs : TermValues} (hok : ∀ p ∈ b, p.Ok)
    (hb : ∀ d ∈ (allPostings b).map (·.docId), ∀ v ∈ vs, d ≤ v.1) (hs : (vs.map (·.1)).Pairwise (· ≤ ·)) :
    (∀ p ∈ runPostings shouldSpill b vs, p.Ok) ∧
      (∀ d, d ∈ (allPostings (runPostings shouldSpill b vs)).map (·.docId) ↔
        d ∈ (allPostings b).map (·.docId) ∨ d ∈ vs.map (·.1)) ∧
      ∀ u, min (docTotal u (allPostings (runPostings shouldSpill b vs))) u16Max =
        min (docTotal u (allPostings b) + keptTotal u (additions shouldSpill b vs)) u16Max := by
  induction vs generalizing b with
  | nil => exact ⟨hok, by simp [runPostings], by simp [runPostings, keptTotal, additions]⟩
  | cons v vs ih =>
    obtain ⟨hv, hvs⟩ := pairwise_cons.mp hs
    obtain ⟨h1, h2, h3⟩ := ih (b := some (addTermPosting shouldSpill b v.1 v.2.length))
      (by
        rintro p ⟨⟩
        exact addTermPosting_ok hok fun d hd => hb d hd v mem_cons_self)
      (by
        intro d hd w hw
        rcases mem_docs_addTermPosting.mp hd with hd | rfl
        · exact hb d hd w (mem_cons_of_mem _ hw)
        · exact hv w.1 (mem_map_of_mem hw))
      hvs
    refine ⟨h1, ?_, ?_⟩
    · intro d
      refine (h2 d).trans ?_
      rw [map_cons, mem_cons, ← or_assoc]
      exact or_congr_left mem_docs_addTermPosting
    · intro u
      refine (h3 u).trans ?_
      rw [additions, keptTotal_cons, ← Nat.add_assoc]
      exact min_docTotal_addTermPosting _

theorem kept_le (a : Added) : a.kept ≤ a.count := by
  unfold Added.kept
  split
  · exact Nat.mod_le ..
  · exact Nat.min_le_left ..

/-- Sums of pointwise smaller terms agree only if the terms do. -/
theorem kept_eq_of_sum_eq {as : List Added} (h : (as.map Added.kept).sum = (as.map (·.count)).sum) :
    ∀ a ∈ as, a.kept = a.count := by
  induction as with
  | nil => simp
  | cons a as ih =>
    simp only [map_cons, sum_cons] at h
    have hle : (as.map Added.kept).sum ≤ (as.map (·.count)).sum :=
      sum_le_sum fun a _ => kept_le a
    have hk := kept_le a
    intro c hc
    rcases mem_cons.mp hc with rfl | hc
    · omega
    · exact ih (by omega) c hc

theorem min_keptTotal_eq_iff {as : List Added} :
    min (keptTotal u as) u16Max = min (countTotal u as) u16Max ↔ InStep u as := by
  have hle : keptTotal u as ≤ countTotal u as := sum_le_sum fun a _ => kept_le a
  by_cases hcap : u16Max ≤ keptTotal u as
  · simp only [InStep, hcap, or_true, iff_true]
    omega
  -- below the cap the sums agree exactly, that is, nothing was dropped
  · simp only [InStep, hcap, or_false]
    have heq : min (keptTotal u as) u16Max = min (countTotal u as) u16Max ↔
        keptTotal u as = countTotal u as := by omega
    rw [heq]
    constructor
    · intro h a ha hu hm
      have := kept_eq_of_sum_eq h a (mem_filter.mpr ⟨ha, by simpa using hu⟩)
      have hlt : a.count % (u16Max + 1) < u16Max + 1 := Nat.mod_lt _ (Nat.succ_pos _)
      simp only [Added.kept, hm, if_true] at this
      omega
    · intro h
      refine congrArg sum (map_congr_left fun a ha => ?_)
      have hmem := mem_filter.mp ha
      have hsingle : a.kept ≤ keptTotal u as :=
        single_le_sum (fun _ _ => Nat.zero_le _) _ (mem_map_of_mem ha)
      unfold Added.kept at hsingle ⊢
      split at hsingle
      case isTrue hm =>
        have := h a hmem.1 (by simpa using hmem.2) hm
        rw [if_pos hm]
        exact Nat.mod_eq_of_lt (by omega)
      case isFalse hm =>
        rw [if_neg hm]
        omega

/-! ## The position list -/

variable {q : Option PositionPostingListBuilder}

/-- The recorded positions of a term that may not be indexed yet. -/
def allPositions (q : Option PositionPostingListBuilder) : List (Nat × List Nat) :=
  (q.map (·.postings)).getD []

theorem foldl_addPosition_of_last {init : List (Nat × List Nat)} {old : List Nat}
    (ps : List Nat) : (ps.foldl (fun q p => PositionPostingListBuilder.addPosition q docId p)
      ⟨init ++ [(docId, old)]⟩).postings = init ++ [(docId, old ++ ps)] := by
  induction ps generalizing old with
  | nil => simp
  | cons p ps ih =>
    rw [foldl_cons, addPosition_of_last rfl, ih, append_assoc]
    rfl

theorem getD_new_postings : (q.getD .new).postings = allPositions q := by
  cases q <;> rfl

theorem docPositions_of_last {q : PositionPostingListBuilder} {init : List (Nat × List Nat)} {ps : List Nat}
    (h : q.postings = init ++ [(docId, ps)]) : q.docPositions u =
      (⟨init⟩ : PositionPostingListBuilder).docPositions u ++ if u = docId then ps else [] := by
  rw [docPositions, h, docPositions]
  rcases eq_or_ne u docId with rfl | hne
  · simp
  · simp [hne, hne.symm]

/-- The positions of one value: appended to its document, which is the last one or a new one. -/
theorem addPositions_spec {ps : List Nat} (hne : ps ≠ [])
    (hs : ((allPositions q).map (·.1)).Pairwise (· < ·)) (hd : ∀ d ∈ (allPositions q).map (·.1), d ≤ docId) :
    ((addPositions q docId ps).postings.map (·.1)).Pairwise (· < ·) ∧
      (∀ d, d ∈ (addPositions q docId ps).postings.map (·.1) ↔
        d ∈ (allPositions q).map (·.1) ∨ d = docId) ∧
      ∀ u, (addPositions q docId ps).docPositions u =
        (⟨allPositions q⟩ : PositionPostingListBuilder).docPositions u ++ if u = docId then ps else [] := by
  by_cases hlast : ∃ init old, allPositions q = init ++ [(docId, old)]
  · obtain ⟨init, old, hcat⟩ := hlast
    have hq : q.getD .new = ⟨init ++ [(docId, old)]⟩ := by
      rw [← hcat, ← getD_new_postings]
    have hpost : (addPositions q docId ps).postings = init ++ [(docId, old ++ ps)] := by
      rw [addPositions, hq, foldl_addPosition_of_last]
    rw [hcat] at hs ⊢
    refine ⟨by rw [hpost]; simpa using hs, ?_, ?_⟩
    · intro d
      rw [hpost]
      simp only [map_append, map_cons, map_nil, mem_append, mem_singleton]
      tauto
    · intro u
      rw [docPositions_of_last hpost, docPositions_of_last rfl]
      split <;> simp
  · -- every recorded document is smaller
    have hlt : ∀ d ∈ (allPositions q).map (·.1), d < docId := by
      refine lt_of_getLast?_ne hs hd ?_
      rw [getLast?_map, Ne, Option.map_eq_some_iff]
      rintro ⟨last, hl, rfl⟩
      obtain ⟨init, hcat⟩ := getLast?_eq_some_iff.mp hl
      exact hlast ⟨init, last.2, hcat⟩
    obtain ⟨p, ps', rfl⟩ := exists_cons_of_ne_nil hne
    have hpost : (addPositions q docId (p :: ps')).postings =
        allPositions q ++ [(docId, p :: ps')] := by
      rw [addPositions, foldl_cons,
        addPosition_of_new (by simpa [getD_new_postings] using hlt), foldl_addPosition_of_last,
        getD_new_postings]
      rfl
    refine ⟨?_, ?_, ?_⟩
    · rw [hpost, map_append, pairwise_append]
      exact ⟨hs, pairwise_singleton .., by simpa using hlt⟩
    · intro d
      rw [hpost]
      simp
    · exact fun u => docPositions_of_last hpost

/-- The occurrences in the values of document `u`. -/
def valueCount (u : Nat) (vs : TermValues) : Nat := ((vs.filter (·.1 = u)).map (·.2.length)).sum

theorem runPositions_spec {vs : TermValues} (hne : ∀ v ∈ vs, v.2 ≠ [])
    (hs : ((allPositions q).map (·.1)).Pairwise (· < ·))
    (hb : ∀ d ∈ (allPositions q).map (·.1), ∀ v ∈ vs, d ≤ v.1) (hvs : (vs.map (·.1)).Pairwise (· ≤ ·)) :
    ((allPositions (runPositions q vs)).map (·.1)).Pairwise (· < ·) ∧
      (∀ d, d ∈ (allPositions (runPositions q vs)).map (·.1) ↔
        d ∈ (allPositions q).map (·.1) ∨ d ∈ vs.map (·.1)) ∧
      ∀ u, (⟨allPositions (runPositions q vs)⟩ : PositionPostingListBuilder).docPositions u =
        (⟨allPositions q⟩ : PositionPostingListBuilder).docPositions u ++
          (vs.filter (·.1 = u)).flatMap (·.2) := by
  induction vs generalizing q with
  | nil => exact ⟨hs, by simp [runPositions], by simp [runPositions]⟩
  | cons v vs ih =>
    obtain ⟨hv, hvs'⟩ := pairwise_cons.mp hvs
    obtain ⟨h1, h2, h3⟩ := addPositions_spec (hne v mem_cons_self) hs
      fun d hd => hb d hd v mem_cons_self
    obtain ⟨r1, r2, r3⟩ := ih (q := some (addPositions q v.1 v.2))
      (fun w hw => hne w (mem_cons_of_mem _ hw)) h1
      (by
        intro d hd w hw
        rcases (h2 d).mp hd with hd | rfl
        · exact hb d hd w (mem_cons_of_mem _ hw)
        · exact hv w.1 (mem_map_of_mem hw))
      hvs'
    refine ⟨r1, ?_, ?_⟩
    · intro d
      refine (r2 d).trans ?_
      rw [map_cons, mem_cons, ← or_assoc]
      exact or_congr_left (h2 d)
    · intro u
      refine (r3 u).trans ?_
      have h3u := h3 u
      simp only [allPositions, Option.map_some, Option.getD_some] at h3u ⊢
      rw [h3u, append_assoc]
      congr 1
      rcases eq_or_ne u v.1 with rfl | hne'
      · simp
      · simp [hne', hne'.symm]

variable (shouldSpill) in
theorem countTotal_additions (vs : TermValues) :
    countTotal u (additions shouldSpill b vs) = valueCount u vs := by
  induction vs generalizing b with
  | nil => rfl
  | cons v vs ih =>
    have := ih (b := some (addTermPosting shouldSpill b v.1 v.2.length))
    simp only [countTotal, valueCount, additions] at this ⊢
    rcases eq_or_ne u v.1 with rfl | hne
    · simp [this]
    · simp [hne.symm, this]

/-! ## Alignment -/

theorem docPositions_of_mem {q : PositionPostingListBuilder} {d : Nat × List Nat}
    (hs : (q.postings.map (·.1)).Pairwise (· < ·)) (hd : d ∈ q.postings) : q.docPositions d.1 = d.2 := by
  rw [docPositions, filter_key_eq_singleton hs hd]
  simp

variable {vs : TermValues} (hne : ∀ v ∈ vs, v.2 ≠ []) (hs : (vs.map (·.1)).Pairwise (· ≤ ·))

include hs in
/-- The postings that a flush writes for a term: one for each document with values, in order. -/
theorem runPostings_written {b : PostingListBuilder} (hb : runPostings shouldSpill none vs = some b) :
    (b.written.map (·.docId)).Pairwise (· < ·) ∧ (∀ d, d ∈ b.written.map (·.docId) ↔ d ∈ vs.map (·.1)) ∧
      ∀ p ∈ b.written, p.termFreq =
        min (keptTotal p.docId (additions shouldSpill none vs)) u16Max := by
  obtain ⟨hok, hdocs, htotal⟩ := runPostings_spec shouldSpill (b := none)
    (by simp) (by simp [allPostings]) hs
  rw [hb] at hok hdocs htotal
  simp only [allPostings, Option.map_some, Option.getD_some, Option.map_none, Option.getD_none,
    map_nil, not_mem_nil, false_or, docTotal_nil, Nat.zero_add] at hdocs htotal
  obtain ⟨hws, hwdocs, hwtf⟩ := (hok b rfl).written
  exact ⟨hws, fun d => (hwdocs d).trans (hdocs d), fun p hp => (hwtf p hp).trans (htotal _)⟩

include hne hs in
/-- The positions that a flush writes for a term: those of each document with values, capped. -/
theorem runPositions_written {q : PositionPostingListBuilder} (hq : runPositions none vs = some q) :
    (q.written.map (·.1)).Pairwise (· < ·) ∧ (∀ d, d ∈ q.written.map (·.1) ↔ d ∈ vs.map (·.1)) ∧
      ∀ d ∈ q.written, d.2 = ((vs.filter (·.1 = d.1)).flatMap (·.2)).take u16Max := by
  obtain ⟨hqs, hqdocs, hpositions⟩ := runPositions_spec (q := none) hne (by simp [allPositions])
    (by simp [allPositions]) hs
  rw [hq] at hqs hqdocs hpositions
  simp only [allPositions, Option.map_some, Option.getD_some, Option.map_none, Option.getD_none,
    map_nil, not_mem_nil, false_or] at hqs hqdocs hpositions
  have hqw : q.written.map (·.1) = q.postings.map (·.1) := by simp [PositionPostingListBuilder.written]
  rw [hqw]
  refine ⟨hqs, hqdocs, fun d hd => ?_⟩
  obtain ⟨d', hd', rfl⟩ := mem_map.mp hd
  have hdoc : q.docPositions d'.1 = _ := hpositions d'.1
  rw [docPositions_of_mem hqs hd'] at hdoc
  simp [hdoc, docPositions]

theorem length_flatMap_eq_valueCount (u : Nat) (vs : TermValues) :
    ((vs.filter (·.1 = u)).flatMap (·.2)).length = valueCount u vs := by
  simp [valueCount, length_flatMap]

include hne hs in
/-- Frequencies and positions of a term stay aligned exactly when every document is in step. -/
theorem aligned_run_iff {b : PostingListBuilder} {q : PositionPostingListBuilder}
    (hb : runPostings shouldSpill none vs = some b) (hq : runPositions none vs = some q) :
    Aligned b.written q.written ↔ ∀ u, InStep u (additions shouldSpill none vs) := by
  obtain ⟨hws, hwdocs, htf⟩ := runPostings_written hs hb
  obtain ⟨hqs, hqdocs, hpositions⟩ := runPositions_written hne hs hq
  have hdocs : b.written.map (·.docId) = q.written.map (·.1) :=
    eq_of_strict hws hqs fun d => (hwdocs d).trans (hqdocs d).symm
  -- the number of positions of a document is the number of its occurrences, up to the cap
  have hlen : ∀ d ∈ q.written, d.2.length = min (valueCount d.1 vs) u16Max := by
    intro d hd
    rw [hpositions d hd, length_take, length_flatMap_eq_valueCount, Nat.min_comm]
  have hagree : b.written.map (·.termFreq) = q.written.map (·.2.length) ↔
      ∀ u ∈ vs.map (·.1), min (keptTotal u (additions shouldSpill none vs)) u16Max =
        min (valueCount u vs) u16Max := by
    have h1 : b.written.map (·.termFreq) = (b.written.map (·.docId)).map fun u =>
        min (keptTotal u (additions shouldSpill none vs)) u16Max := by
      rw [map_map]
      exact map_congr_left htf
    have h2 : q.written.map (·.2.length) = (b.written.map (·.docId)).map fun u =>
        min (valueCount u vs) u16Max := by
      rw [hdocs, map_map]
      exact map_congr_left hlen
    rw [h1, h2, map_inj_left]
    exact ⟨fun h u hu => h u ((hwdocs u).mpr hu), fun h u hu => h u ((hwdocs u).mp hu)⟩
  rw [aligned_iff hws hdocs, hagree]
  constructor
  · intro h u
    by_cases hu : u ∈ vs.map (·.1)
    · rw [← min_keptTotal_eq_iff, countTotal_additions]
      exact h u hu
    · -- a document without values has no additions
      have h0 : valueCount u vs = 0 := by
        have : vs.filter (·.1 = u) = [] := by
          rw [filter_eq_nil_iff]
          intro v hv hvu
          exact hu (by simpa using ⟨v.2, by simpa [← (of_decide_eq_true hvu)] using hv⟩)
        simp [valueCount, this]
      have hk : keptTotal u (additions shouldSpill none vs) ≤ 0 := by
        rw [← h0, ← countTotal_additions shouldSpill (b := none)]
        exact sum_le_sum fun a _ => kept_le a
      rw [← min_keptTotal_eq_iff, countTotal_additions, h0]
      omega
  · intro h u _
    rw [← countTotal_additions shouldSpill (b := none)]
    exact min_keptTotal_eq_iff.mpr (h u)

end Summa
