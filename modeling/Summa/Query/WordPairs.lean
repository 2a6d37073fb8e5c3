import Summa.Query.StoredTerm

/-!
# Phrases of two common words (`query/phrase.rs`)

A phrase query of two adjacent common words reads the postings of the pair instead of the positions of
the words.

* `stored_pair_eq_hits`: the documents and frequencies stored for the pair are those that a phrase scorer
  computes from the stored words.
-/

namespace Summa

open List PhraseScorer

/-- A phrase query. The constructors give each term an offset. -/
structure PhraseQuery where
  field : Nat
  terms : List Term
  offsets : List Nat
  slop : Nat
  length_offsets : offsets.length = terms.length

namespace PhraseQuery

/-- Whether every term must directly follow the previous one. -/
def isAdjacent (self : PhraseQuery) : Bool :=
  (self.offsets.zip self.offsets.tail).all fun pair => pair.2 = pair.1 + 1

/-- The pair term that holds the matches of the phrase in a segment of the schema. -/
def wordPair (self : PhraseQuery) (schema : TextSchema) : Option (List Byte) :=
  if self.terms.length ≠ 2 ∨ self.slop ≠ 0 ∨ ¬ self.isAdjacent then none
  else
    match schema self.field, self.terms with
    | some entry, [first, second] =>
      if first ∈ entry.commonGrams ∧ second ∈ entry.commonGrams then
        some (SegmentBuilder.wordPairTerm first.1 second.1)
      else none
    | _, _ => none

/-- A query that reads a pair is an exact phrase of two adjacent common words. -/
theorem wordPair_eq_some {self : PhraseQuery} {schema : TextSchema} {key : List Byte}
    (h : self.wordPair schema = some key) :
    ∃ entry first second o, schema self.field = some entry ∧ self.terms = [first, second] ∧
      self.offsets = [o, o + 1] ∧ self.slop = 0 ∧ first ∈ entry.commonGrams ∧
      second ∈ entry.commonGrams ∧ key = SegmentBuilder.wordPairTerm first.1 second.1 := by
  unfold wordPair at h
  obtain ⟨hcond, h⟩ := Option.ite_none_left_eq_some.mp h
  have hlen : self.terms.length = 2 := not_not.mp fun hne => hcond (.inl hne)
  have hslop : self.slop = 0 := not_not.mp fun hne => hcond (.inr (.inl hne))
  have hadj : self.isAdjacent = true := not_not.mp fun hne => hcond (.inr (.inr hne))
  split at h
  case h_1 entry first second hentry hterms =>
    obtain ⟨hmem, h⟩ := Option.ite_none_right_eq_some.mp h
    cases h
    obtain ⟨o, o', hoff⟩ := length_eq_two.mp (self.length_offsets.trans hlen)
    have hnext : o' = o + 1 := by simpa [isAdjacent, hoff] using hadj
    exact ⟨entry, first, second, o, hentry, hterms, hnext ▸ hoff, hslop, hmem.1, hmem.2, rfl⟩
  case h_2 => cases h

end PhraseQuery

open SegmentBuilder

/-- The frequency of an adjacent pair, from the positions of the two words. -/
theorem phraseFrequency_pair {t₁ t₂ : PhraseTerm} {w₁ w₂ : List Nat} {d : Nat} (o : Nat)
    (h₁ : t₁.positionsIn d = w₁.insertionSort (· ≤ ·)) (h₂ : t₂.positionsIn d = w₂.insertionSort (· ≤ ·)) :
    phraseFrequency [t₁, t₂] [o, o + 1] 0 d = w₁.countP fun p => p + 1 ∈ w₂ := by
  have hat : ∀ p, PhraseAt [t₁, t₂] [o, o + 1] 0 d p ↔ p + 1 ∈ w₂ := by
    intro p
    unfold PhraseAt
    constructor
    · intro h
      obtain ⟨q, hq, habs⟩ := h 1 (by simp) (by omega)
      have hq' : q ∈ w₂ := by simpa [positionsOf, h₂] using hq
      have heq : q = p + 1 := by
        simp only [getD_cons_succ, getD_cons_zero, abs_le] at habs
        omega
      exact heq ▸ hq'
    · intro h i hi hpos
      obtain rfl : i = 1 := by
        rw [length_cons, length_cons, length_nil] at hi
        omega
      refine ⟨p + 1, by simpa [positionsOf, h₂] using h, ?_⟩
      simp only [getD_cons_succ, getD_cons_zero, abs_le]
      omega
  have hfirst : positionsOf [t₁, t₂] 0 d = w₁.insertionSort (· ≤ ·) := by simp [positionsOf, h₁]
  rw [phraseFrequency, hfirst, (perm_insertionSort (· ≤ ·) w₁).countP_eq]
  exact countP_congr fun p _ => by rw [decide_eq_true_eq, decide_eq_true_eq, hat]

/-- What a segment stores under the term of a common word pair is what a phrase scorer computes from the
positions of the two words; if a word is missing, nothing is stored. -/
theorem stored_pair_eq_hits {schema : TextSchema} {shouldSpill : PostingListBuilder → Bool}
    {docs : List TextDocument} {b : SegmentBuilder} {query : PhraseQuery} {key : List Byte}
    (kernel : IntersectKernel) (hkey : query.wordPair schema = some key)
    (hle : ∀ doc ∈ docs, ∀ word, occurrences query.field word doc ≤ u16Max)
    (hids : docs.length ≤ terminated) (h : addDocuments schema shouldSpill docs = .ok b) :
    ∃ first second, query.terms = [first, second] ∧
      termKeyBytes ⟨query.field, true, pairTerm first second⟩ =
        leBytes 4 query.field ++ key ∧
      ((b.invertedIndex ⟨query.field, false, first⟩ = none ∨
            b.invertedIndex ⟨query.field, false, second⟩ = none) ∧
          b.stored ⟨query.field, true, pairTerm first second⟩ = [] ∨
        ∃ t₁ t₂, b.StoresTerm query.field first t₁ ∧ b.StoresTerm query.field second t₂ ∧
          ∀ fuel, (b.stored ⟨query.field, true, pairTerm first second⟩).length < fuel →
            hits (.unpositioned [t₁, t₂] query.offsets query.slop) kernel fuel
                (start kernel [t₁, t₂] query.offsets query.slop) =
              (b.stored ⟨query.field, true, pairTerm first second⟩).map fun p =>
                (p.docId, p.termFreq)) := by
  obtain ⟨entry, first, second, o, hentry, hterms, hoff, hslop, hfirst, hsecond, rfl⟩ :=
    PhraseQuery.wordPair_eq_some hkey
  have hne : entry.commonGrams ≠ [] := ne_nil_of_mem hfirst
  obtain ⟨mode, hmode⟩ : ∃ mode, positionMode schema query.field = some mode := by
    rw [positionMode, hentry, Option.bind_some, if_pos (entry.grams_plain hne).1]
    cases hpos : entry.positions with
    | none => simpa [hpos] using entry.grams_positions hne
    | some mode => exact ⟨mode, rfl⟩
  obtain ⟨per, hcalls, hrec, hsorted, hdocs, htf⟩ :=
    stored_pairs hentry hmode hfirst hsecond hle h
  have hcount : ∀ d, pairCount schema query.field first second (callsAt 0 per d) = _ := fun d =>
    pairCount_eq hentry hmode hfirst hsecond
  refine ⟨first, second, hterms, termKeyBytes_pair (entry.grams_words first hfirst).2, ?_⟩
  -- a word without positions leaves no pair
  have hempty : (∀ d, pairCount schema query.field first second (callsAt 0 per d) = 0) →
      b.stored ⟨query.field, true, pairTerm first second⟩ = [] := by
    intro hzero
    rw [eq_nil_iff_forall_not_mem]
    intro p hp
    exact (hdocs p.docId).mp (mem_map_of_mem hp) (hzero _)
  rcases written_term hmode (fun doc hd => hle doc hd first) hids h hcalls hrec with
    ⟨hnone, hnil⟩ | ⟨t₁, hstores₁, hpos₁⟩
  · exact .inl ⟨.inl hnone, hempty fun d => by rw [hcount, hnil]; rfl⟩
  rcases written_term hmode (fun doc hd => hle doc hd second) hids h hcalls hrec with
    ⟨hnone, hnil⟩ | ⟨t₂, hstores₂, hpos₂⟩
  · exact .inl ⟨.inr hnone, hempty fun d => by rw [hcount, hnil]; simp⟩
  refine .inr ⟨t₁, t₂, hstores₁, hstores₂, fun fuel hfuel => ?_⟩
  have hfreq : ∀ d, phraseFrequency [t₁, t₂] [o, o + 1] 0 d =
      pairCount schema query.field first second (callsAt 0 per d) := fun d =>
    (phraseFrequency_pair o (hpos₁ d) (hpos₂ d)).trans (hcount d).symm
  -- the documents of both lists are those with a pair, in order
  have hmatches : phraseMatches [t₁, t₂] [o, o + 1] 0 =
      (b.stored ⟨query.field, true, pairTerm first second⟩).map (·.docId) := by
    refine eq_of_strict (phraseCandidates_sorted.filter _) hsorted fun d => ?_
    rw [hdocs, ← hfreq, mem_phraseMatches (by simp), ← Nat.pos_iff_ne_zero, phraseFrequency,
      countP_pos_iff]
    simp only [decide_eq_true_eq]
  rw [hoff, hslop, hits_start kernel (by simp) rfl (by simp)
    (by rw [hmatches, length_map]; exact hfuel), hmatches, map_map]
  refine map_congr_left fun p hp => ?_
  rw [Function.comp_apply, hfreq, ← htf p hp]

def sampleOf : Term := ⟨[111, 102], by decide⟩

def sampleThe : Term := ⟨[116, 104, 101], by decide⟩

/-- A schema whose field pairs "of" and "the". -/
def pairSchema : TextSchema := fun field =>
  if field = 0 then
    some ⟨true, false, some .full, [sampleOf, sampleThe], by decide, by decide, by decide⟩
  else none

/-- A document with "of" twice and "the" twice at the next position, over two values. -/
def pairDocument : TextDocument :=
  [(0, [⟨sampleOf, 0, by decide⟩, ⟨sampleThe, 1, by decide⟩]),
   (0, [⟨sampleOf, 3, by decide⟩, ⟨sampleThe, 4, by decide⟩, ⟨sampleThe, 4, by decide⟩])]

def pairQuery : PhraseQuery := ⟨0, [sampleOf, sampleThe], [0, 1], 0, rfl⟩

theorem stored_pair_sample : ∃ b,
    addDocuments pairSchema PostingListBuilder.shouldSpill [pairDocument] = .ok b ∧
      b.stored ⟨0, true, pairTerm sampleOf sampleThe⟩ = [⟨0, 2⟩] ∧
      ∃ t₁ t₂, b.StoresTerm 0 sampleOf t₁ ∧ b.StoresTerm 0 sampleThe t₂ ∧
        hits (.unpositioned [t₁, t₂] [0, 1] 0) intersectPostingBlocks 2
          (start intersectPostingBlocks [t₁, t₂] [0, 1] 0) = [(0, 2)] := by
  have hstored : ∃ b, addDocuments pairSchema PostingListBuilder.shouldSpill [pairDocument] = .ok b ∧
      b.stored ⟨0, true, pairTerm sampleOf sampleThe⟩ = [⟨0, 2⟩] := ⟨_, rfl, by decide +kernel⟩
  obtain ⟨b, hb, hstored⟩ := hstored
  have hle : ∀ doc ∈ [pairDocument], ∀ word, occurrences pairQuery.field word doc ≤ u16Max := by
    intro doc hdoc word
    obtain rfl := mem_singleton.mp hdoc
    exact countP_le_length.trans (by decide)
  obtain ⟨first, second, hterms, -, hpair⟩ := stored_pair_eq_hits intersectPostingBlocks
    (show pairQuery.wordPair pairSchema = some _ from rfl) hle (by decide) hb
  obtain ⟨rfl, rfl⟩ : sampleOf = first ∧ sampleThe = second := by simpa [pairQuery] using hterms
  refine ⟨b, hb, hstored, ?_⟩
  rcases hpair with ⟨-, hnil⟩ | ⟨t₁, t₂, h₁, h₂, hhits⟩
  · exact absurd (hstored.symm.trans hnil) (by simp)
  · refine ⟨t₁, t₂, h₁, h₂, (hhits 2 ?_).trans ?_⟩
    · rw [show pairQuery.field = 0 from rfl, hstored]
      decide
    · rw [show pairQuery.field = 0 from rfl, hstored]
      rfl

end Summa
