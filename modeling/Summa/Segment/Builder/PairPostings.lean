import Summa.Segment.Builder.WordPairs

/-!
# Postings of word pairs over a segment

A field with common words is not chunked, so the values of a document share its id (`Recorded`). The
postings of a pair are the counters of the documents.

* `pairs_addDocuments_from`: the additions to a pair while the documents are added.
* `stored_pairs`: what is stored for a pair when no word occurs more than 65535 times in a document.
-/

namespace Summa

open List Fallible

variable {shouldSpill : PostingListBuilder → Bool} {vs : TermValues} {u : Nat}

/-! ## Small counts -/

theorem count_le_valueCount {v : Nat × List Nat} (hv : v ∈ vs) : v.2.length ≤ valueCount v.1 vs :=
  single_le_sum (fun _ _ => Nat.zero_le _) _
    (mem_map_of_mem (mem_filter.mpr ⟨hv, decide_eq_true rfl⟩))

theorem mem_docs_iff (hne : ∀ v ∈ vs, v.2 ≠ []) : u ∈ vs.map (·.1) ↔ valueCount u vs ≠ 0 := by
  constructor
  · intro hu h0
    obtain ⟨v, hv, rfl⟩ := mem_map.mp hu
    have hle := count_le_valueCount hv
    exact hne v hv (length_eq_zero_iff.mp (by omega))
  · intro h
    by_contra hu
    have hnil : vs.filter (·.1 = u) = [] := by
      rw [filter_eq_nil_iff]
      intro v hv heq
      exact hu (of_decide_eq_true heq ▸ mem_map_of_mem hv)
    exact h (by simp [valueCount, hnil])

variable (shouldSpill) in
/-- Nothing is lost of a document with at most 65535 occurrences. -/
theorem inStep_of_le (h : valueCount u vs ≤ u16Max) : InStep u (additions shouldSpill none vs) := by
  refine .inl fun a ha hu _ => ?_
  have hle : a.count ≤ countTotal u (additions shouldSpill none vs) :=
    single_le_sum (fun _ _ => Nat.zero_le _) _
      (mem_map_of_mem (mem_filter.mpr ⟨ha, decide_eq_true hu⟩))
  rw [countTotal_additions] at hle
  omega

/-- The postings stored for a term. -/
def SegmentBuilder.stored (b : SegmentBuilder) (key : TermKey) : List Posting :=
  ((b.invertedIndex key).map (·.written)).getD []

/-- The stored postings of a term are its documents with their counts. -/
theorem stored_run (hne : ∀ v ∈ vs, v.2 ≠ []) (hs : (vs.map (·.1)).Pairwise (· ≤ ·))
    (hle : ∀ u, valueCount u vs ≤ u16Max) {b : SegmentBuilder} {key : TermKey}
    (hb : b.invertedIndex key = runPostings shouldSpill none vs) :
    ((b.stored key).map (·.docId)).Pairwise (· < ·) ∧
      (∀ d, d ∈ (b.stored key).map (·.docId) ↔ valueCount d vs ≠ 0) ∧
      ∀ p ∈ b.stored key, p.termFreq = valueCount p.docId vs := by
  cases hrun : runPostings shouldSpill none vs with
  | none =>
    have hnil : vs = [] := by
      cases vs with
      | nil => rfl
      | cons v vs =>
        obtain ⟨pl, -, hpl, -⟩ := SegmentBuilder.runPostings_none_cons shouldSpill v vs
        rw [hpl] at hrun
        cases hrun
    subst hnil
    simp [SegmentBuilder.stored, hb, runPostings, valueCount]
  | some pl =>
    have hstored : b.stored key = pl.written := by simp [SegmentBuilder.stored, hb, hrun]
    obtain ⟨h1, h2, h3⟩ := runPostings_written hs hrun
    rw [hstored]
    refine ⟨h1, fun d => (h2 d).trans (mem_docs_iff hne), fun p hp => ?_⟩
    have hkept := min_keptTotal_eq_iff.mpr (inStep_of_le shouldSpill (hle p.docId))
    rw [h3 p hp, hkept, countTotal_additions, Nat.min_eq_left (hle _)]

namespace SegmentBuilder

variable {field n : Nat} {first second word : Term} {schema : TextSchema} {mode : PositionMode}
  {entry : TextField} {docs : List TextDocument} {per : List (List TextCall)} {cs : List TextCall}

/-! ## The calls of a document -/

/-- The calls that were made for each document, from document `n` on. -/
inductive Recorded (field : Nat) : Nat → List TextDocument → List (List TextCall) → Prop where
  | nil {n : Nat} : Recorded field n [] []
  | cons {n : Nat} {doc : TextDocument} {docs : List TextDocument} {cs : List TextCall}
      {per : List (List TextCall)} (units : ∀ c ∈ cs, c.field = field → c.unit = n)
      (tokens : (cs.filter (·.field = field)).flatMap (·.tokens) =
        (doc.filter (·.1 = field)).flatMap (·.2))
      (rest : Recorded field (n + 1) docs per) : Recorded field n (doc :: docs) (cs :: per)

/-- The calls of document `u`. -/
def callsAt : Nat → List (List TextCall) → Nat → List TextCall
  | _, [], _ => []
  | n, cs :: per, u => if u = n then cs else callsAt (n + 1) per u

theorem callsAt_of_lt (h : u < n) : callsAt n per u = [] := by
  induction per generalizing n with
  | nil => rfl
  | cons cs per ih =>
    rw [callsAt, if_neg (by omega)]
    exact ih (by omega)

/-- The values of a plain field are indexed under the document's id, all their tokens. -/
theorem textCalls_plain {docId : Nat} {ordinals chunks : Nat → Nat} {doc : TextDocument}
    {r : List TextCall × (Nat → Nat)} (hentry : schema field = some entry)
    (hindexed : entry.indexed = true) (hplain : entry.chunked = false)
    (h : textCalls schema docId ordinals chunks doc = .ok r) :
    (∀ c ∈ r.1, c.field = field → c.unit = docId) ∧
      (r.1.filter (·.field = field)).flatMap (·.tokens) = (doc.filter (·.1 = field)).flatMap (·.2) := by
  induction doc generalizing ordinals chunks r with
  | nil =>
    cases h
    simp
  | cons v doc ih =>
    obtain ⟨f, tokens⟩ := v
    simp only [textCalls] at h
    rcases eq_or_ne f field with rfl | hne
    · rw [hentry] at h
      simp only [hindexed, hplain, Bool.true_eq_false, if_false, Bool.false_eq_true] at h
      obtain ⟨r', hr, h⟩ := bind_eq_ok h
      cases h
      obtain ⟨h1, h2⟩ := ih hr
      refine ⟨forall_mem_cons.mpr ⟨fun _ => rfl, h1⟩, ?_⟩
      simpa using h2
    · -- a value of another field makes no call of this one
      have hdoc : ((f, tokens) :: doc).filter (·.1 = field) = doc.filter (·.1 = field) :=
        filter_cons_of_neg (by simpa using hne)
      rw [hdoc]
      split at h
      case h_1 => exact ih h
      case h_2 =>
        split at h
        case isTrue => exact ih h
        case isFalse =>
          split at h
          case isTrue =>
            obtain ⟨-, h⟩ := ite_eq_ok.mp h
            obtain ⟨r', hr, h⟩ := bind_eq_ok h
            cases h
            obtain ⟨h1, h2⟩ := ih hr
            exact ⟨forall_mem_cons.mpr ⟨fun hf => absurd hf hne, h1⟩, by simpa [hne] using h2⟩
          case isFalse =>
            obtain ⟨r', hr, h⟩ := bind_eq_ok h
            cases h
            obtain ⟨h1, h2⟩ := ih hr
            exact ⟨forall_mem_cons.mpr ⟨fun hf => absurd hf hne, h1⟩, by simpa [hne] using h2⟩

/-- The positions recorded for a document are those of its calls. -/
theorem flatMap_termValues (h : Recorded field n docs per) (u : Nat) :
    ((termValues mode field word per.flatten).filter (·.1 = u)).flatMap (·.2) =
      wordPositions mode field word (callsAt n per u) := by
  induction h with
  | nil => rfl
  | @cons n doc docs cs per units tokens rest ih =>
    have hunit : ∀ v ∈ termValues mode field word cs, v.1 = n := by
      intro v hv
      obtain ⟨c, hc, rfl⟩ := mem_map.mp hv
      obtain ⟨hc, hf⟩ := mem_filter.mp hc
      exact units c hc (of_decide_eq_true hf).1
    rw [flatten_cons, termValues_append, filter_append, flatMap_append, ih, callsAt]
    rcases eq_or_ne u n with rfl | hne
    · have hall : (termValues mode field word cs).filter (·.1 = u) = termValues mode field word cs :=
        filter_eq_self.mpr fun v hv => decide_eq_true (hunit v hv)
      rw [if_pos rfl, hall, callsAt_of_lt (Nat.lt_succ_self u)]
      simp [wordPositions, termValues]
    · have hnone : (termValues mode field word cs).filter (·.1 = u) = [] :=
        filter_eq_nil_iff.mpr fun v hv heq => hne ((of_decide_eq_true heq).symm.trans (hunit v hv))
      rw [if_neg hne, hnone]
      rfl

theorem length_wordPositions : (wordPositions mode field word cs).length =
    ((cs.filter (·.field = field)).flatMap (·.tokens)).countP (·.text = word) := by
  induction cs with
  | nil => rfl
  | cons c cs ih =>
    rw [wordPositions_cons, length_append, ih]
    by_cases hf : c.field = field
    · simp [hf, TextCall.tf]
    · simp [hf]

/-- The occurrences of a word in the values of a field. -/
def occurrences (field : Nat) (word : Term) (doc : TextDocument) : Nat :=
  ((doc.filter (·.1 = field)).flatMap (·.2)).countP (·.text = word)

theorem length_wordPositions_le (h : Recorded field n docs per)
    (hle : ∀ doc ∈ docs, occurrences field word doc ≤ u16Max) (u : Nat) :
    (wordPositions mode field word (callsAt n per u)).length ≤ u16Max := by
  induction h with
  | nil => exact Nat.zero_le _
  | @cons n doc docs cs per units tokens rest ih =>
    obtain ⟨hdoc, hdocs⟩ := forall_mem_cons.mp hle
    rw [callsAt]
    split
    · rw [length_wordPositions, tokens]
      exact hdoc
    · exact ih hdocs

/-! ## Pairs -/

/-- The additions to a pair, document by document. -/
def pairValues (schema : TextSchema) (field : Nat) (first second : Term) :
    Nat → List (List TextCall) → TermValues
  | _, [] => []
  | n, cs :: per => pairValue n (pairCount schema field first second cs) ++
      pairValues schema field first second (n + 1) per

theorem mem_pairValue {count : Nat} {v : Nat × List Nat} (hv : v ∈ pairValue n count) :
    v.1 = n ∧ v.2 ≠ [] := by
  unfold pairValue at hv
  split at hv
  case isTrue => simp at hv
  case isFalse h0 =>
    obtain rfl := mem_singleton.mp hv
    exact ⟨rfl, by simpa using h0⟩

theorem pairValues_ge {v : Nat × List Nat} (hv : v ∈ pairValues schema field first second n per) :
    n ≤ v.1 ∧ v.2 ≠ [] := by
  induction per generalizing n with
  | nil => simp [pairValues] at hv
  | cons cs per ih =>
    rcases mem_append.mp hv with hv | hv
    · exact ⟨(mem_pairValue hv).1.ge, (mem_pairValue hv).2⟩
    · exact ⟨Nat.le_of_succ_le (ih hv).1, (ih hv).2⟩

theorem pairValues_sorted : ((pairValues schema field first second n per).map (·.1)).Pairwise (· ≤ ·) := by
  induction per generalizing n with
  | nil => exact .nil
  | cons cs per ih =>
    rw [pairValues, map_append, pairwise_append]
    refine ⟨?_, ih, ?_⟩
    · unfold pairValue
      split <;> simp
    · intro a ha b hb
      obtain ⟨v, hv, rfl⟩ := mem_map.mp ha
      obtain ⟨w, hw, rfl⟩ := mem_map.mp hb
      rw [(mem_pairValue hv).1]
      exact Nat.le_of_succ_le (pairValues_ge hw).1

theorem valueCount_pairValues (u : Nat) :
    valueCount u (pairValues schema field first second n per) =
      pairCount schema field first second (callsAt n per u) := by
  induction per generalizing n with
  | nil => rfl
  | cons cs per ih =>
    have happend : ∀ vs vs' : TermValues, valueCount u (vs ++ vs') = valueCount u vs + valueCount u vs' := by
      simp [valueCount]
    rw [pairValues, happend, ih, callsAt]
    rcases eq_or_ne u n with rfl | hne
    · have hzero : pairCount schema field first second [] = 0 := rfl
      rw [if_pos rfl, callsAt_of_lt (Nat.lt_succ_self u), hzero, pairValue]
      split
      case isTrue h0 => rw [h0]; rfl
      case isFalse => simp [valueCount]
    · rw [if_neg hne]
      have hnone : (pairValue n (pairCount schema field first second cs)).filter (·.1 = u) = [] :=
        filter_eq_nil_iff.mpr fun v hv heq =>
          hne ((of_decide_eq_true heq).symm.trans (mem_pairValue hv).1)
      simp [valueCount, hnone]

theorem pairs_addDocuments_from {self self' : SegmentBuilder} (hentry : schema field = some entry)
    (hindexed : entry.indexed = true) (hplain : entry.chunked = false) (hfirst : 0 ∉ first.1)
    (hocc : self.pairOccurrences = []) (h : docs.foldlM (addDocument schema shouldSpill) self = .ok self') :
    ∃ per, documentCalls schema self.nextDocId self.chunks docs = .ok per.flatten ∧
      Recorded field self.nextDocId docs per ∧
      self'.invertedIndex ⟨field, true, pairTerm first second⟩ =
        runPostings shouldSpill (self.invertedIndex ⟨field, true, pairTerm first second⟩)
          (pairValues schema field first second self.nextDocId per) := by
  induction docs generalizing self with
  | nil =>
    cases h
    exact ⟨[], rfl, .nil, rfl⟩
  | cons doc docs ih =>
    obtain ⟨s, hs, h⟩ := bind_eq_ok h
    obtain ⟨r, s, hr, rfl, rfl, -, hnext, hdoc⟩ := addDocument_eq_ok hs
    obtain ⟨hunits, htokens⟩ := textCalls_plain hentry hindexed hplain hr
    obtain ⟨hwords, hrecorded⟩ := wordFrame_foldl schema shouldSpill
      { self with nextDocId := self.nextDocId + 1, chunks := r.2 } r.1
    obtain ⟨hadd, hreset⟩ := pairs_indexWordPairs field second shouldSpill self.nextDocId hfirst
      (hrecorded.trans (show self.pairOccurrences ++ _ = _ by rw [hocc, nil_append]))
    obtain ⟨per, hcalls, hrec, hinv⟩ := ih hreset h
    rw [hnext] at hrec hinv
    refine ⟨r.1 :: per, hdoc hcalls, .cons hunits htokens hrec, ?_⟩
    rw [hinv, hadd, hwords.pairs]
    exact (foldl_append ..).symm

/-- The stored postings of a pair are the documents with their counters. -/
theorem stored_pairs {b : SegmentBuilder} (hentry : schema field = some entry)
    (hmode : positionMode schema field = some mode) (hfirst : first ∈ entry.commonGrams)
    (hsecond : second ∈ entry.commonGrams) (hle : ∀ doc ∈ docs, ∀ word, occurrences field word doc ≤ u16Max)
    (h : addDocuments schema shouldSpill docs = .ok b) :
    ∃ per, documentCalls schema 0 (fun _ => 0) docs = .ok per.flatten ∧ Recorded field 0 docs per ∧
      ((b.stored ⟨field, true, pairTerm first second⟩).map (·.docId)).Pairwise (· < ·) ∧
      (∀ d, d ∈ (b.stored ⟨field, true, pairTerm first second⟩).map (·.docId) ↔
        pairCount schema field first second (callsAt 0 per d) ≠ 0) ∧
      ∀ p ∈ b.stored ⟨field, true, pairTerm first second⟩,
        p.termFreq = pairCount schema field first second (callsAt 0 per p.docId) := by
  obtain ⟨hindexed, hplain⟩ := entry.grams_plain (ne_nil_of_mem hfirst)
  obtain ⟨per, hcalls, hrec, hinv⟩ := pairs_addDocuments_from hentry hindexed hplain
    (entry.grams_words first hfirst).2 rfl h
  have hcount : ∀ u, valueCount u (pairValues schema field first second 0 per) ≤ u16Max := by
    intro u
    rw [valueCount_pairValues, pairCount_eq hentry hmode hfirst hsecond]
    exact countP_le_length.trans (length_wordPositions_le hrec (fun doc hd => hle doc hd first) u)
  obtain ⟨h1, h2, h3⟩ := stored_run (fun v hv => (pairValues_ge hv).2) pairValues_sorted hcount hinv
  simp only [valueCount_pairValues] at h2 h3
  exact ⟨per, hcalls, hrec, h1, h2, h3⟩

end SegmentBuilder

end Summa
