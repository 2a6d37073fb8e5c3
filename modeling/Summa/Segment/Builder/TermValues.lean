import Summa.Lib.Fallible
import Summa.Lib.Fold
import Summa.Segment.Builder.Text

/-!
# What adding documents does to one term

The postings and positions of a term depend only on the values that contain it. `termValues` lists
these for a sequence of calls of `index_text_field`, and `index_addDocuments` says that the builder
holds exactly the run of `Alignment` over them. The scoring units of a field never decrease
(`units_documentCalls`), as posting lists require.
-/

namespace Summa

open List Function Fallible

/-- The values of a term in a sequence of calls: the scoring unit and the encoded positions. -/
def termValues (mode : PositionMode) (field : Nat) (term : Term) (calls : List TextCall) : TermValues :=
  (calls.filter fun c => c.field = field ∧ term ∈ c.terms).map fun c => (c.unit, c.positions mode term)

variable {mode : PositionMode} {field : Nat} {term : Term}

theorem termValues_append (calls calls' : List TextCall) :
    termValues mode field term (calls ++ calls') =
      termValues mode field term calls ++ termValues mode field term calls' := by
  simp [termValues]

theorem termValues_ne_nil {calls : List TextCall} {v : Nat × List Nat}
    (hv : v ∈ termValues mode field term calls) : v.2 ≠ [] := by
  obtain ⟨c, hc, rfl⟩ := mem_map.mp hv
  have hmem := mem_filter.mp hc
  have hterm : term ∈ c.terms := (of_decide_eq_true hmem.2).2
  rw [ne_eq, ← length_eq_zero_iff, TextCall.length_positions]
  exact TextCall.mem_terms.mp hterm

/-! ## Scoring units -/

/-- Where the scoring units of a field continue. -/
def nextUnit (schema : TextSchema) (docId : Nat) (chunks : Nat → Nat) (field : Nat) : Nat :=
  if (schema field).any (·.chunked) then chunks field else docId

/-- The units of the calls of one field. -/
def unitsOf (field : Nat) (calls : List TextCall) : List Nat :=
  (calls.filter (·.field = field)).map (·.unit)

theorem unitsOf_cons (c : TextCall) (calls : List TextCall) :
    unitsOf field (c :: calls) = (if c.field = field then [c.unit] else []) ++ unitsOf field calls := by
  by_cases h : c.field = field <;> simp [unitsOf, h]

theorem unitsOf_append (calls calls' : List TextCall) :
    unitsOf field (calls ++ calls') = unitsOf field calls ++ unitsOf field calls' := by
  simp [unitsOf]

variable {schema : TextSchema} {shouldSpill : PostingListBuilder → Bool}

/-- Within a document the units of a field do not decrease, from the next unit on; afterwards the
field continues behind them. -/
theorem units_textCalls {docId : Nat} {ordinals chunks : Nat → Nat} {doc : TextDocument}
    {r : List TextCall × (Nat → Nat)} (h : textCalls schema docId ordinals chunks doc = .ok r) (field : Nat) :
    (unitsOf field r.1).Pairwise (· ≤ ·) ∧
      (∀ u ∈ unitsOf field r.1, nextUnit schema docId chunks field ≤ u ∧
        u ≤ nextUnit schema (docId + 1) r.2 field) ∧
      nextUnit schema docId chunks field ≤ nextUnit schema (docId + 1) r.2 field := by
  induction doc generalizing ordinals chunks r with
  | nil =>
    cases h
    refine ⟨.nil, by simp [unitsOf], ?_⟩
    unfold nextUnit
    split
    · exact le_rfl
    · exact Nat.le_succ _
  | cons v doc ih =>
    obtain ⟨f, tokens⟩ := v
    simp only [textCalls] at h
    split at h
    case h_1 => exact ih h
    case h_2 entry hentry =>
      split at h
      case isTrue => exact ih h
      case isFalse =>
        split at h
        case isTrue hchunked =>
          obtain ⟨-, h⟩ := ite_eq_ok.mp h
          obtain ⟨r', hr, h⟩ := bind_eq_ok h
          cases h
          obtain ⟨h1, h2, h3⟩ := ih hr
          rcases eq_or_ne f field with rfl | hne
          · -- the chunk takes the next virtual id, the later ones are behind it
            have hc : (schema f).any (·.chunked) = true := by simp [hentry, hchunked]
            simp only [nextUnit, hc, if_true, update_self] at h2 h3 ⊢
            rw [unitsOf_cons, if_pos rfl, singleton_append]
            refine ⟨pairwise_cons.mpr ⟨fun u hu => ?_, h1⟩, ?_, by omega⟩
            · exact Nat.le_of_succ_le (h2 u hu).1
            · intro u hu
              rcases mem_cons.mp hu with rfl | hu
              · exact ⟨le_rfl, Nat.le_of_succ_le h3⟩
              · exact ⟨Nat.le_of_succ_le (h2 u hu).1, (h2 u hu).2⟩
          · have hup : update chunks f (chunks f + 1) field = chunks field :=
              update_of_ne hne.symm ..
            simp only [nextUnit, hup] at h2 h3 ⊢
            rw [unitsOf_cons, if_neg hne, nil_append]
            exact ⟨h1, h2, h3⟩
        case isFalse hplain =>
          obtain ⟨r', hr, h⟩ := bind_eq_ok h
          cases h
          obtain ⟨h1, h2, h3⟩ := ih hr
          rcases eq_or_ne f field with rfl | hne
          · have hc : (schema f).any (·.chunked) = false := by simpa [hentry] using hplain
            simp only [nextUnit, hc, Bool.false_eq_true, if_false] at h2 h3 ⊢
            rw [unitsOf_cons, if_pos rfl, singleton_append]
            refine ⟨pairwise_cons.mpr ⟨fun u hu => (h2 u hu).1, h1⟩, ?_, h3⟩
            intro u hu
            rcases mem_cons.mp hu with rfl | hu
            · exact ⟨le_rfl, by omega⟩
            · exact h2 u hu
          · rw [unitsOf_cons, if_neg hne, nil_append]
            exact ⟨h1, h2, h3⟩

/-- Over a segment the units of a field do not decrease. -/
theorem units_documentCalls {docId : Nat} {chunks : Nat → Nat} {docs : List TextDocument}
    {calls : List TextCall} (h : documentCalls schema docId chunks docs = .ok calls) (field : Nat) :
    (unitsOf field calls).Pairwise (· ≤ ·) ∧
      ∀ u ∈ unitsOf field calls, nextUnit schema docId chunks field ≤ u := by
  induction docs generalizing docId chunks calls with
  | nil =>
    cases h
    exact ⟨.nil, by simp [unitsOf]⟩
  | cons doc docs ih =>
    obtain ⟨r, hr, h⟩ := bind_eq_ok h
    obtain ⟨rest, hrest, h⟩ := bind_eq_ok h
    cases h
    obtain ⟨h1, h2, h3⟩ := units_textCalls hr field
    obtain ⟨g1, g2⟩ := ih hrest
    rw [unitsOf_append]
    refine ⟨pairwise_append.mpr ⟨h1, g1, fun u hu w hw => ?_⟩, ?_⟩
    · exact (h2 u hu).2.trans (g2 w hw)
    · intro u hu
      rcases mem_append.mp hu with hu | hu
      · exact (h2 u hu).1
      · exact h3.trans (g2 u hu)

/-- Each call indexes a value of its document. -/
theorem value_of_textCalls {docId : Nat} {ordinals chunks : Nat → Nat} {doc : TextDocument}
    {r : List TextCall × (Nat → Nat)} (h : textCalls schema docId ordinals chunks doc = .ok r) {c : TextCall}
    (hc : c ∈ r.1) : (c.field, c.tokens) ∈ doc := by
  induction doc generalizing ordinals chunks r with
  | nil =>
    cases h
    cases hc
  | cons v doc ih =>
    obtain ⟨f, tokens⟩ := v
    simp only [textCalls] at h
    split at h
    case h_1 => exact mem_cons_of_mem _ (ih h hc)
    case h_2 entry hentry =>
      split at h
      case isTrue => exact mem_cons_of_mem _ (ih h hc)
      case isFalse =>
        split at h
        case isTrue =>
          obtain ⟨-, h⟩ := ite_eq_ok.mp h
          obtain ⟨r', hr, h⟩ := bind_eq_ok h
          cases h
          rcases mem_cons.mp hc with rfl | hc
          · exact mem_cons_self
          · exact mem_cons_of_mem _ (ih hr hc)
        case isFalse =>
          obtain ⟨r', hr, h⟩ := bind_eq_ok h
          cases h
          rcases mem_cons.mp hc with rfl | hc
          · exact mem_cons_self
          · exact mem_cons_of_mem _ (ih hr hc)

theorem value_of_documentCalls {docId : Nat} {chunks : Nat → Nat} {docs : List TextDocument}
    {calls : List TextCall} (h : documentCalls schema docId chunks docs = .ok calls) {c : TextCall} (hc : c ∈ calls) :
    ∃ doc ∈ docs, (c.field, c.tokens) ∈ doc := by
  induction docs generalizing docId chunks calls with
  | nil =>
    cases h
    cases hc
  | cons doc docs ih =>
    obtain ⟨r, hr, h⟩ := bind_eq_ok h
    obtain ⟨rest, hrest, h⟩ := bind_eq_ok h
    cases h
    rcases mem_append.mp hc with hc | hc
    · exact ⟨doc, mem_cons_self, value_of_textCalls hr hc⟩
    · obtain ⟨later, hlater, hvalue⟩ := ih hrest hc
      exact ⟨later, mem_cons_of_mem _ hlater, hvalue⟩

variable (mode term) in
theorem termValues_sorted {calls : List TextCall} (h : (unitsOf field calls).Pairwise (· ≤ ·)) :
    ((termValues mode field term calls).map (·.1)).Pairwise (· ≤ ·) := by
  refine h.sublist ?_
  have : (calls.filter fun c => c.field = field ∧ term ∈ c.terms).Sublist
      (calls.filter (·.field = field)) := by
    rw [show (calls.filter fun c => c.field = field ∧ term ∈ c.terms) =
      (calls.filter (·.field = field)).filter (term ∈ ·.terms) by
        simp [filter_filter, Bool.and_comm]]
    exact filter_sublist
  simpa [termValues, unitsOf, comp_def] using this.map (·.unit)

/-! ## The builder -/

namespace SegmentBuilder

variable {self : SegmentBuilder}

variable (field term schema shouldSpill) in
/-- A term that a value does not contain keeps its postings and positions. -/
theorem index_foldl_indexTerm (self : SegmentBuilder) (call : TextCall) {ts : List Term} (hts : ts.Nodup) :
    (ts.foldl (indexTerm schema shouldSpill call) self).invertedIndex ⟨field, false, term⟩ =
        (if call.field = field ∧ term ∈ ts then
          some (Summa.addTermPosting shouldSpill (self.invertedIndex ⟨field, false, term⟩) call.unit
            (call.tf term))
        else self.invertedIndex ⟨field, false, term⟩) ∧
      (∀ mode, positionMode schema field = some mode →
        (ts.foldl (indexTerm schema shouldSpill call) self).positionIndex ⟨field, false, term⟩ =
          if call.field = field ∧ term ∈ ts then
            some (addPositions (self.positionIndex ⟨field, false, term⟩) call.unit
              (call.positions mode term))
          else self.positionIndex ⟨field, false, term⟩) := by
  by_cases hf : call.field = field
  · -- the step at a term touches the key of that term only
    subst hf
    simp only [true_and]
    have hkey : ∀ t, t ≠ term → (⟨call.field, false, term⟩ : TermKey) ≠ ⟨call.field, false, t⟩ := by
      simp [eq_comm]
    refine ⟨foldl_of_key (·.invertedIndex ⟨call.field, false, term⟩) (fun b => some
      (Summa.addTermPosting shouldSpill b call.unit (call.tf term))) hts (fun s => ?_) (fun t _ ht s => ?_) self,
      fun mode hmode => foldl_of_key (·.positionIndex ⟨call.field, false, term⟩) (fun b => some
        (addPositions b call.unit (call.positions mode term))) hts (fun s => ?_) (fun t _ ht s => ?_) self⟩
    · unfold indexTerm
      split <;> exact update_self ..
    · unfold indexTerm
      split <;> exact update_of_ne (hkey t ht) ..
    · simp only [indexTerm, hmode]
      exact update_self ..
    · simp only [indexTerm, hmode]
      exact update_of_ne (hkey t ht) ..
  · simp only [hf, false_and, if_false]
    have hkey : ∀ t, (⟨field, false, term⟩ : TermKey) ≠ ⟨call.field, false, t⟩ := by
      simp [Ne.symm hf]
    refine ⟨foldl_keep (·.invertedIndex ⟨field, false, term⟩) (fun t _ s => ?_) self,
      fun _ _ => foldl_keep (·.positionIndex ⟨field, false, term⟩) (fun t _ s => ?_) self⟩
    · unfold indexTerm
      split <;> exact update_of_ne (hkey t) ..
    · unfold indexTerm
      split
      · rfl
      · exact update_of_ne (hkey t) ..

variable (field term schema shouldSpill) in
/-- The postings and positions of a term are the runs over its values. -/
theorem index_foldl_indexTextField (self : SegmentBuilder) (mode : PositionMode) (calls : List TextCall) :
    (calls.foldl (indexTextField schema shouldSpill) self).invertedIndex ⟨field, false, term⟩ =
        runPostings shouldSpill (self.invertedIndex ⟨field, false, term⟩)
          (termValues mode field term calls) ∧
      (positionMode schema field = some mode →
        (calls.foldl (indexTextField schema shouldSpill) self).positionIndex ⟨field, false, term⟩ =
          runPositions (self.positionIndex ⟨field, false, term⟩)
            (termValues mode field term calls)) := by
  induction calls generalizing self with
  | nil => exact ⟨rfl, fun _ => rfl⟩
  | cons c calls ih =>
    obtain ⟨h1, h2⟩ := ih (self.indexTextField schema shouldSpill c)
    obtain ⟨s1, s2⟩ := index_foldl_indexTerm field term schema shouldSpill
      { self with pairOccurrences := self.pairOccurrences ++ commonOccurrences schema c } c
      (show c.terms.Nodup from nodup_dedup _)
    have hvalues : termValues mode field term (c :: calls) =
        (if c.field = field ∧ term ∈ c.terms then [(c.unit, c.positions mode term)] else []) ++
          termValues mode field term calls := by
      by_cases hc : c.field = field ∧ term ∈ c.terms
      · simp [termValues, hc]
      · simp only [termValues, filter_cons, hc, decide_false, Bool.false_eq_true, if_false,
          nil_append]
    rw [foldl_cons, hvalues]
    refine ⟨?_, fun hmode => ?_⟩
    · rw [h1, runPostings, runPostings, foldl_append, indexTextField, s1]
      split <;> simp
    · rw [h2 hmode, runPositions, runPositions, foldl_append, indexTextField, s2 mode hmode]
      split <;> simp

/-- What `s'` keeps of `s` when only postings of word pairs were added. -/
structure PairFrame (s s' : SegmentBuilder) : Prop where
  words : ∀ field term, s'.invertedIndex ⟨field, false, term⟩ = s.invertedIndex ⟨field, false, term⟩
  positionIndex : s'.positionIndex = s.positionIndex
  nextDocId : s'.nextDocId = s.nextDocId
  chunks : s'.chunks = s.chunks

variable (shouldSpill) in
/-- Word pairs are indexed under keys of their own. -/
theorem pairFrame_foldl (docId : Nat) (tf : Nat × Term × Term → Nat) (pairs : List (Nat × Term × Term))
    (self : SegmentBuilder) : PairFrame self (pairs.foldl (fun self pair =>
      self.addTermPosting shouldSpill ⟨pair.1, true, pairTerm pair.2.1 pair.2.2⟩ docId (tf pair)) self) := by
  refine foldlRecOn (motive := PairFrame self) pairs _ ⟨fun _ _ => rfl, rfl, rfl, rfl⟩ fun s h pair _ => ?_
  refine ⟨fun field term => Eq.trans ?_ (h.words field term), h.positionIndex, h.nextDocId, h.chunks⟩
  exact update_of_ne (by simp) ..

variable (shouldSpill) in
theorem pairFrame_indexWordPairs (self : SegmentBuilder) (docId : Nat) :
    PairFrame self (self.indexWordPairs shouldSpill docId) := by
  have h := pairFrame_foldl shouldSpill docId
    (pairStarts (self.pairOccurrences.insertionSort (· ≤ ·))).count
    (pairStarts (self.pairOccurrences.insertionSort (· ≤ ·))).dedup { self with pairOccurrences := [] }
  exact ⟨h.words, h.positionIndex, h.nextDocId, h.chunks⟩

/-- What `s'` keeps of `s` when only postings and positions of words were added. -/
structure WordFrame (s s' : SegmentBuilder) : Prop where
  pairs : ∀ field term, s'.invertedIndex ⟨field, true, term⟩ = s.invertedIndex ⟨field, true, term⟩
  nextDocId : s'.nextDocId = s.nextDocId
  chunks : s'.chunks = s.chunks

variable (schema shouldSpill) in
/-- Text indexing records the occurrences of common words and leaves the pairs alone. -/
theorem wordFrame_foldl (self : SegmentBuilder) (calls : List TextCall) :
    WordFrame self (calls.foldl (indexTextField schema shouldSpill) self) ∧
      (calls.foldl (indexTextField schema shouldSpill) self).pairOccurrences =
        self.pairOccurrences ++ calls.flatMap (commonOccurrences schema) := by
  have hterms : ∀ (call : TextCall) (s : SegmentBuilder),
      WordFrame s (call.terms.foldl (indexTerm schema shouldSpill call) s) ∧
        (call.terms.foldl (indexTerm schema shouldSpill call) s).pairOccurrences = s.pairOccurrences := by
    intro call s
    refine foldlRecOn (motive := fun s' => WordFrame s s' ∧ s'.pairOccurrences = s.pairOccurrences)
      call.terms _ ⟨⟨fun _ _ => rfl, rfl, rfl⟩, rfl⟩ fun s' ⟨h, hocc⟩ t _ => ?_
    unfold indexTerm
    split <;> exact ⟨⟨fun field term => (update_of_ne (by simp) ..).trans (h.pairs field term),
      h.nextDocId, h.chunks⟩, hocc⟩
  induction calls generalizing self with
  | nil => exact ⟨⟨fun _ _ => rfl, rfl, rfl⟩, by simp⟩
  | cons c calls ih =>
    obtain ⟨h, hocc⟩ := ih (self.indexTextField schema shouldSpill c)
    obtain ⟨hc, hoccs⟩ := hterms c
      { self with pairOccurrences := self.pairOccurrences ++ commonOccurrences schema c }
    refine ⟨⟨fun field term => (h.pairs field term).trans (hc.pairs field term),
      h.nextDocId.trans hc.nextDocId, h.chunks.trans hc.chunks⟩, hocc.trans ?_⟩
    rw [flatMap_cons, ← append_assoc]
    exact congrArg (· ++ _) hoccs

/-- A document makes the calls of `textCalls`, and the later documents go on behind them. -/
theorem addDocument_eq_ok {doc : TextDocument} {self' : SegmentBuilder}
    (h : self.addDocument schema shouldSpill doc = .ok self') : ∃ r s,
    textCalls schema self.nextDocId (fun _ => 0) self.chunks doc = .ok r ∧
      s = r.1.foldl (indexTextField schema shouldSpill)
        { self with nextDocId := self.nextDocId + 1, chunks := r.2 } ∧
      self' = s.indexWordPairs shouldSpill self.nextDocId ∧ PairFrame s self' ∧
      self'.nextDocId = self.nextDocId + 1 ∧
      ∀ {docs calls}, documentCalls schema self'.nextDocId self'.chunks docs = .ok calls →
        documentCalls schema self.nextDocId self.chunks (doc :: docs) = .ok (r.1 ++ calls) := by
  obtain ⟨r, hr, h⟩ := bind_eq_ok h
  cases h
  have hwords := (wordFrame_foldl schema shouldSpill
    { self with nextDocId := self.nextDocId + 1, chunks := r.2 } r.1).1
  have hpairs := pairFrame_indexWordPairs shouldSpill (r.1.foldl (indexTextField schema shouldSpill)
    { self with nextDocId := self.nextDocId + 1, chunks := r.2 }) self.nextDocId
  refine ⟨r, _, hr, rfl, rfl, hpairs, hpairs.nextDocId.trans hwords.nextDocId, fun {docs calls} hcalls => ?_⟩
  rw [hpairs.nextDocId, hpairs.chunks, hwords.nextDocId, hwords.chunks] at hcalls
  rw [documentCalls, hr, ok_bind]
  exact congrArg (· >>= fun calls => pure (r.1 ++ calls)) hcalls

variable (field term) in
/-- Adding documents makes the calls `documentCalls` lists. -/
theorem index_addDocuments_from {docs : List TextDocument} {self' : SegmentBuilder}
    (h : docs.foldlM (addDocument schema shouldSpill) self = .ok self') (mode : PositionMode) :
    ∃ calls, documentCalls schema self.nextDocId self.chunks docs = .ok calls ∧
      self'.invertedIndex ⟨field, false, term⟩ =
        runPostings shouldSpill (self.invertedIndex ⟨field, false, term⟩)
          (termValues mode field term calls) ∧
      (positionMode schema field = some mode → self'.positionIndex ⟨field, false, term⟩ =
        runPositions (self.positionIndex ⟨field, false, term⟩)
          (termValues mode field term calls)) := by
  induction docs generalizing self with
  | nil =>
    cases h
    exact ⟨[], rfl, rfl, fun _ => rfl⟩
  | cons doc docs ih =>
    obtain ⟨s, hs, h⟩ := bind_eq_ok h
    obtain ⟨r, s, -, rfl, rfl, hframe, -, hdoc⟩ := addDocument_eq_ok hs
    obtain ⟨calls, hcalls, hinv, hpos⟩ := ih h
    obtain ⟨i1, i2⟩ := index_foldl_indexTextField field term schema shouldSpill
      { self with nextDocId := self.nextDocId + 1, chunks := r.2 } mode r.1
    refine ⟨r.1 ++ calls, hdoc hcalls, ?_, fun hmode => ?_⟩
    · rw [hinv, hframe.words, i1, termValues_append]
      exact (foldl_append ..).symm
    · rw [hpos hmode, hframe.positionIndex, i2 hmode, termValues_append]
      exact (foldl_append ..).symm

variable (field term) in
theorem index_addDocuments {docs : List TextDocument} {b : SegmentBuilder} {calls : List TextCall}
    (h : addDocuments schema shouldSpill docs = .ok b)
    (hc : documentCalls schema 0 (fun _ => 0) docs = .ok calls) (mode : PositionMode) :
    b.invertedIndex ⟨field, false, term⟩ =
        runPostings shouldSpill none (termValues mode field term calls) ∧
      (positionMode schema field = some mode → b.positionIndex ⟨field, false, term⟩ =
        runPositions none (termValues mode field term calls)) := by
  obtain ⟨calls', hcalls, hinv, hpos⟩ := index_addDocuments_from field term h mode
  obtain rfl : calls = calls' := by simpa [hc, new] using hcalls
  exact ⟨hinv, hpos⟩

end SegmentBuilder

end Summa
