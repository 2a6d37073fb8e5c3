import Summa.Segment.Builder.TermValues

/-!
# Term frequencies against position streams

The reader of a position stream addresses a document by the frequencies of the documents before it, so
each stored frequency has to be the number of positions that were written for the document. Both are
capped at 65535, and `build_positions_streaming` says that they stay in step.

* `termFreqs_aligned_iff`: for any documents, any spills and any term of a field with positions this
  holds exactly when every document is `InStep`: no value of it that was merged into a posting in memory
  has more than 65535 occurrences, or what was kept of its counts reaches 65535 nevertheless. So it holds if no
  value has more than 65535 occurrences of the term.
* `termFreq_behind_positions`: a document whose first value has the term once and whose second
  value has it 65536 times is stored with frequency 1 and 65535 positions.
-/

namespace Summa.SegmentBuilder

open List PostingListBuilder

/-- The frequencies of a term's posting list and its position stream agree, document by document, and
every cursor addresses the document's own positions. -/
def TermAligned (b : SegmentBuilder) (field : Nat) (term : Term) : Prop :=
  ∀ postings, b.invertedIndex ⟨field, false, term⟩ = some postings →
    ∃ positions, b.positionIndex ⟨field, false, term⟩ = some positions ∧
      Aligned postings.written positions.written

theorem runPostings_none_cons (shouldSpill : PostingListBuilder → Bool) (v : Nat × List Nat)
    (vs : TermValues) : ∃ b q, runPostings shouldSpill none (v :: vs) = some b ∧
      runPositions none (v :: vs) = some q := by
  have hsome {β : Type} (f : Option β → Nat × List Nat → β) (vs : TermValues) (b : β) :
      ∃ b', vs.foldl (fun b v => some (f b v)) (some b) = some b' := by
    induction vs generalizing b with
    | nil => exact ⟨b, rfl⟩
    | cons v vs ih => exact ih _
  obtain ⟨b, hb⟩ := hsome (fun b v => Summa.addTermPosting shouldSpill b v.1 v.2.length) vs _
  obtain ⟨q, hq⟩ := hsome (fun q v => addPositions q v.1 v.2) vs _
  exact ⟨b, q, hb, hq⟩

/-- For every sequence of documents and all spills, the frequencies of a term with positions and its
position stream agree exactly when every document is in step. They do if no value has more than 65535
occurrences of the term. -/
theorem termFreqs_aligned_iff {schema : TextSchema} {shouldSpill : PostingListBuilder → Bool}
    {docs : List TextDocument} {b : SegmentBuilder} {calls : List TextCall} {field : Nat}
    {mode : PositionMode} (term : Term) (h : addDocuments schema shouldSpill docs = .ok b)
    (hc : documentCalls schema 0 (fun _ => 0) docs = .ok calls)
    (hmode : positionMode schema field = some mode) :
    (b.TermAligned field term ↔
      ∀ u, InStep u (additions shouldSpill none (termValues mode field term calls))) ∧
    ((∀ doc ∈ docs, ∀ value ∈ doc, value.1 = field → value.2.countP (·.text = term) ≤ u16Max) →
      b.TermAligned field term) := by
  suffices hiff : b.TermAligned field term ↔
      ∀ u, InStep u (additions shouldSpill none (termValues mode field term calls)) by
    refine ⟨hiff, fun hshort => hiff.mpr fun u => .inl fun a ha _ _ => ?_⟩
    obtain ⟨v, hv, hcount⟩ := count_of_additions ha
    obtain ⟨c, hmem, rfl⟩ := mem_map.mp hv
    obtain ⟨hcall, hfield⟩ := mem_filter.mp hmem
    obtain ⟨doc, hdoc, hvalue⟩ := value_of_documentCalls hc hcall
    rw [hcount, TextCall.length_positions]
    exact hshort doc hdoc _ hvalue (of_decide_eq_true hfield).1
  obtain ⟨hinv, hpos⟩ := index_addDocuments field term h hc mode
  unfold TermAligned
  rw [hinv, hpos hmode]
  have hne : ∀ v ∈ termValues mode field term calls, v.2 ≠ [] := fun v hv => termValues_ne_nil hv
  have hs := termValues_sorted mode term (units_documentCalls hc field).1
  cases hvs : termValues mode field term calls with
  | nil => simp [runPostings, InStep, additions]
  | cons v vs =>
    rw [hvs] at hne hs
    obtain ⟨pl, ql, hb, hq⟩ := runPostings_none_cons shouldSpill v vs
    rw [← aligned_run_iff hne hs hb hq, hb, hq]
    constructor
    · intro hall
      obtain ⟨ql', heq, haligned⟩ := hall pl rfl
      obtain rfl : ql = ql' := by simpa using heq
      exact haligned
    · rintro haligned _ ⟨⟩
      exact ⟨ql, rfl, haligned⟩

/-- A schema whose fields are plain and record token positions. -/
def positionsSchema : TextSchema := fun _ =>
  some ⟨true, false, some .tokenPosition, [], by simp, by simp, by simp⟩

def sampleTerm : Term := ⟨[97], by decide⟩

def sampleToken (position : Fin 8) : Token := ⟨sampleTerm, position, by omega⟩

/-- Two values in the first document and one in the second, all in step. -/
theorem termFreqs_aligned_sample : ∃ b,
    addDocuments positionsSchema shouldSpill
      [[(0, [sampleToken 3, sampleToken 1]), (0, [sampleToken 0])], [(0, [sampleToken 2])]] = .ok b ∧
      (b.invertedIndex ⟨0, false, sampleTerm⟩).map (·.written) = some [⟨0, 3⟩, ⟨1, 1⟩] ∧
      b.TermAligned 0 sampleTerm := by
  refine ⟨_, rfl, by decide, ?_⟩
  have h := @termFreqs_aligned_iff positionsSchema shouldSpill
    [[(0, [sampleToken 3, sampleToken 1]), (0, [sampleToken 0])], [(0, [sampleToken 2])]] _
    [⟨0, 0, 0, [sampleToken 3, sampleToken 1]⟩, ⟨0, 0, 1, [sampleToken 0]⟩,
      ⟨0, 1, 0, [sampleToken 2]⟩] 0 .tokenPosition sampleTerm rfl rfl rfl
  exact h.2 (by decide)

/-- The runs of a term that stands once in the first value and `n` times in the second. -/
theorem index_repeated {n : Nat} (hn : n ≠ 0) : ∃ b,
    addDocuments positionsSchema shouldSpill
      [[(0, [sampleToken 0]), (0, replicate n (sampleToken 0))]] = .ok b ∧
      b.invertedIndex ⟨0, false, sampleTerm⟩ = some ⟨[⟨0, min (1 + n % (u16Max + 1)) u16Max⟩], []⟩ ∧
      b.positionIndex ⟨0, false, sampleTerm⟩ = some ⟨[(0, 0 :: replicate n 0)]⟩ := by
  have hpos : TextCall.positions ⟨0, 0, 1, replicate n (sampleToken 0)⟩ .tokenPosition
      sampleTerm = replicate n 0 := by
    rw [TextCall.positions, filter_replicate_of_pos (by decide), map_replicate]
    rfl
  have hvalues : termValues .tokenPosition 0 sampleTerm
      [⟨0, 0, 0, [sampleToken 0]⟩, ⟨0, 0, 1, replicate n (sampleToken 0)⟩] =
        [(0, [0]), (0, replicate n 0)] := by
    have h1 : sampleTerm ∈ TextCall.terms ⟨0, 0, 0, [sampleToken 0]⟩ := by decide
    have h2 : sampleTerm ∈ TextCall.terms ⟨0, 0, 1, replicate n (sampleToken 0)⟩ := by
      rw [TextCall.mem_terms, ← TextCall.length_positions _ .tokenPosition, hpos, length_replicate]
      exact hn
    simp only [termValues, filter_cons, h1, h2, and_self, decide_true, if_true, filter_nil,
      map_cons, map_nil, hpos]
    rfl
  obtain ⟨hinv, hposIndex⟩ := index_addDocuments 0 sampleTerm
    (show addDocuments positionsSchema shouldSpill
      [[(0, [sampleToken 0]), (0, replicate n (sampleToken 0))]] = .ok _ from rfl)
    (show documentCalls _ _ _ _ =
      .ok [⟨0, 0, 0, [sampleToken 0]⟩, ⟨0, 0, 1, replicate n (sampleToken 0)⟩] from rfl)
    .tokenPosition
  rw [hvalues] at hinv hposIndex
  refine ⟨_, rfl, hinv.trans ?_, (hposIndex rfl).trans ?_⟩
  · simp only [runPostings, foldl_cons, foldl_nil, length_replicate]
    rfl
  · refine congrArg some (congrArg PositionPostingListBuilder.mk ?_)
    exact @foldl_addPosition_of_last _ [] [0] (replicate n 0)

/-- A second value with 65536 occurrences leaves the frequency at 1, while 65535 positions are
written. -/
theorem termFreq_behind_positions : ∃ b postings positions,
    addDocuments positionsSchema shouldSpill
      [[(0, [sampleToken 0]), (0, replicate 65536 (sampleToken 0))]] = .ok b ∧
      b.invertedIndex ⟨0, false, sampleTerm⟩ = some postings ∧
      b.positionIndex ⟨0, false, sampleTerm⟩ = some positions ∧
      postings.written = [⟨0, 1⟩] ∧ positions.written.map (·.2.length) = [65535] := by
  obtain ⟨b, hb, hinv, hpos⟩ := index_repeated (n := 65536) (by decide)
  refine ⟨b, _, _, hb, hinv, hpos, by decide, ?_⟩
  show [((0 :: replicate 65536 0).take u16Max).length] = [65535]
  rw [length_take, length_cons, length_replicate]
  decide

end Summa.SegmentBuilder
