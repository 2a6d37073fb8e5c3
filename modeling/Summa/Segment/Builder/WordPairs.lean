import Mathlib.Data.List.Count
import Summa.Segment.Builder.TermFrequencies

/-!
# Common word pairs (`segment/builder/mod.rs`, `structures/word_pairs.rs`)

At the end of a document `indexWordPairs` counts, for each pair of common words, the starts of the pair:
occurrences of the first word with the second word at the next position.

* `count_pairStarts`: the counter of a pair, from the sorted occurrences.
* `pairCount_eq`: the same count from the positions that are indexed for the two words.
* `pairs_indexWordPairs`: the end of a document adds the count of a pair to its postings.
* `termKeyBytes_pair`: the pair is written under the term that a phrase query looks up.
-/

namespace Summa

open List

/-- The occurrence of `word` at `position` in the values of `field`. -/
def occurrence (field position : Nat) (word : Term) : Occurrence := toLex (field, toLex (position, word))

namespace SegmentBuilder

variable {field position : Nat} {first second word : Term} {l rest : List Occurrence}

def fieldOf (o : Occurrence) : Nat := (ofLex o).1

def positionOf (o : Occurrence) : Nat := (ofLex (ofLex o).2).1

def wordOf (o : Occurrence) : Term := (ofLex (ofLex o).2).2

/-- Field and position, by which sorted occurrences are grouped. -/
def placeOf (o : Occurrence) : Nat ×ₗ Nat := toLex (fieldOf o, positionOf o)

theorem occurrence_eta (o : Occurrence) : o = occurrence (fieldOf o) (positionOf o) (wordOf o) := rfl

@[simp] theorem placeOf_occurrence : placeOf (occurrence field position word) = toLex (field, position) := rfl

variable {o : Occurrence}

theorem eq_occurrence_iff :
    o = occurrence field position word ↔ placeOf o = toLex (field, position) ∧ wordOf o = word := by
  constructor
  · rintro rfl
    exact ⟨rfl, rfl⟩
  · rintro ⟨hp, rfl⟩
    obtain ⟨hf, hp⟩ := Prod.mk.inj hp
    rw [occurrence_eta o, hf, hp]
    rfl

theorem le_iff {o' : Occurrence} :
    o ≤ o' ↔ placeOf o < placeOf o' ∨ placeOf o = placeOf o' ∧ wordOf o ≤ wordOf o' := by
  obtain ⟨f, p, w⟩ := o
  obtain ⟨f', p', w'⟩ := o'
  show toLex (f, toLex (p, w)) ≤ toLex (f', toLex (p', w')) ↔ toLex (f, p) < toLex (f', p') ∨
    toLex (f, p) = toLex (f', p') ∧ w ≤ w'
  simp only [Prod.Lex.toLex_le_toLex, Prod.Lex.toLex_lt_toLex, EmbeddingLike.apply_eq_iff_eq,
    Prod.mk.injEq]
  tauto

/-! ## Counting -/

theorem filter_following (hs : rest.Pairwise (· ≤ ·)) :
    ((rest.dropWhile fun o => toLex ((ofLex o).1, (ofLex (ofLex o).2).1) <
        toLex (field, position)).takeWhile
      fun o => (ofLex o).1 = field ∧ (ofLex (ofLex o).2).1 = position) =
      rest.filter fun o => placeOf o = toLex (field, position) := by
  have hkey : rest.Pairwise fun a b => placeOf a ≤ placeOf b :=
    hs.imp fun h => (le_iff.mp h).elim le_of_lt fun h => h.1.le
  rw [← takeWhile_dropWhile_key _ hkey]
  refine congrArg (takeWhile · _) (funext fun o => ?_)
  rw [decide_eq_decide]
  exact ⟨fun ⟨hf, hp⟩ => by rw [placeOf, fieldOf, positionOf, hf, hp], fun h => Prod.mk.inj h⟩

/-- The words at the next position, each once. -/
def followers (o : Occurrence) (rest : List Occurrence) : List Term :=
  ((rest.filter fun o' => placeOf o' = toLex (fieldOf o, positionOf o + 1)).map wordOf).destutter (· ≠ ·)

theorem pairStarts_cons (hs : rest.Pairwise (· ≤ ·)) :
    pairStarts (o :: rest) = (if positionOf o + 1 < 2 ^ 32 then
      (followers o rest).map (fieldOf o, wordOf o, ·) else []) ++ pairStarts rest := by
  rw [pairStarts]
  simp only [filter_following hs]
  by_cases hp : positionOf o + 1 < 2 ^ 32
  · rw [if_pos hp]
    exact if_pos hp
  · rw [if_neg hp]
    exact if_neg hp

/-- Whether an occurrence is a start of a pair, among the occurrences `l`. -/
def StartsPair (l : List Occurrence) (field : Nat) (first second : Term) (o : Occurrence) : Prop :=
  fieldOf o = field ∧ wordOf o = first ∧ positionOf o + 1 < 2 ^ 32 ∧
    occurrence field (positionOf o + 1) second ∈ l

instance (l : List Occurrence) (field : Nat) (first second : Term) :
    DecidablePred (StartsPair l field first second) := fun _ => inferInstanceAs (Decidable (_ ∧ _))

/-- A start counts each of the words at the next position once. -/
theorem count_followers (hs : rest.Pairwise (· ≤ ·)) :
    ((followers o rest).map (fieldOf o, wordOf o, ·)).count (field, first, second) =
      if fieldOf o = field ∧ wordOf o = first ∧ occurrence field (positionOf o + 1) second ∈ rest then 1
      else 0 := by
  have hwords : ((rest.filter fun o' => placeOf o' = toLex (fieldOf o, positionOf o + 1)).map
      wordOf).Pairwise (· ≤ ·) := by
    rw [pairwise_map]
    refine (hs.filter _).imp_of_mem fun {a b} ha hb hle => ?_
    have ha' : placeOf a = _ := of_decide_eq_true (mem_filter.mp ha).2
    have hb' : placeOf b = _ := of_decide_eq_true (mem_filter.mp hb).2
    rcases le_iff.mp hle with hlt | ⟨-, hw⟩
    · exact absurd hlt (by rw [ha', hb']; exact lt_irrefl _)
    · exact hw
  have hmem : second ∈ (rest.filter fun o' => placeOf o' = toLex (fieldOf o, positionOf o + 1)).map wordOf ↔
      occurrence (fieldOf o) (positionOf o + 1) second ∈ rest := by
    rw [mem_map]
    constructor
    · rintro ⟨o', ho', hw⟩
      obtain ⟨ho', hplace⟩ := mem_filter.mp ho'
      exact eq_occurrence_iff.mpr ⟨of_decide_eq_true hplace, hw⟩ ▸ ho'
    · intro h
      exact ⟨_, mem_filter.mpr ⟨h, decide_eq_true rfl⟩, rfl⟩
  rw [followers, hwords.destutter_eq_dedup]
  by_cases hsame : fieldOf o = field ∧ wordOf o = first
  · obtain ⟨rfl, rfl⟩ := hsame
    rw [count_map_of_injective _ _ fun a b h => (Prod.mk.inj (Prod.mk.inj h).2).2,
      (nodup_dedup _).count]
    simp only [mem_dedup, hmem, true_and]
  · rw [if_neg fun h => hsame ⟨h.1, h.2.1⟩, count_eq_zero]
    rintro h
    obtain ⟨w, -, heq⟩ := mem_map.mp h
    simp only [Prod.mk.injEq] at heq
    exact hsame ⟨heq.1, heq.2.1⟩

/-- The counter of a pair is the number of its starts. -/
theorem count_pairStarts (hs : l.Pairwise (· ≤ ·)) (field : Nat) (first second : Term) :
    (pairStarts l).count (field, first, second) = l.countP (StartsPair l field first second) := by
  induction l with
  | nil => rfl
  | cons o rest ih =>
    obtain ⟨ho, hrest⟩ := pairwise_cons.mp hs
    -- no pair ends at `o` among the occurrences from `o` on
    have hself : ∀ o' ∈ o :: rest, occurrence (fieldOf o') (positionOf o' + 1) second ≠ o := by
      intro o' ho' heq
      have hle : placeOf o ≤ placeOf o' := by
        rcases mem_cons.mp ho' with rfl | ho'
        · exact le_rfl
        · exact (le_iff.mp (ho o' ho')).elim le_of_lt fun h => h.1.le
      have hlt : placeOf o' < placeOf o := by
        rw [← heq, placeOf_occurrence, placeOf, Prod.Lex.toLex_lt_toLex]
        exact .inr ⟨rfl, Nat.lt_succ_self _⟩
      exact absurd hlt hle.not_gt
    have hiff : ∀ o' ∈ o :: rest, StartsPair (o :: rest) field first second o' ↔
        StartsPair rest field first second o' := by
      intro o' ho'
      refine and_congr_right fun hf => and_congr_right fun _ => and_congr_right fun _ => ?_
      rw [mem_cons, or_iff_right (hf ▸ hself o' ho')]
    have htail : rest.countP (StartsPair (o :: rest) field first second) =
        rest.countP (StartsPair rest field first second) :=
      countP_congr fun o' ho' => by
        rw [decide_eq_true_eq, decide_eq_true_eq, hiff o' (mem_cons_of_mem _ ho')]
    have hhead : StartsPair (o :: rest) field first second o ↔ StartsPair rest field first second o :=
      hiff o mem_cons_self
    rw [countP_cons, htail, pairStarts_cons hrest, count_append, ih hrest, Nat.add_comm]
    refine congrArg _ ?_
    simp only [decide_eq_true_eq, hhead]
    by_cases hp : positionOf o + 1 < 2 ^ 32
    · rw [if_pos hp, count_followers hrest]
      simp only [StartsPair, hp, true_and]
    · rw [if_neg hp, if_neg fun h => hp h.2.2.1, count_nil]

/-! ## Positions -/

variable {schema : TextSchema} {mode : PositionMode} {entry : TextField} {calls : List TextCall}

theorem encodedPosition_lt (elementOrdinal : Nat) (h : position < 2 ^ 32) :
    encodedPosition mode elementOrdinal position < 2 ^ 32 := by
  have hordinal : min elementOrdinal maxPositionElementOrdinal <<< 20 < 2 ^ 32 := by
    have : min elementOrdinal maxPositionElementOrdinal ≤ maxPositionElementOrdinal := Nat.min_le_right ..
    simp only [maxPositionElementOrdinal] at this ⊢
    omega
  cases mode with
  | ordinal => exact hordinal
  | tokenPosition => exact h
  | full =>
    refine Nat.or_lt_two_pow hordinal (lt_of_le_of_lt (Nat.min_le_right ..) ?_)
    decide

/-- The positions of a word that indexing the calls records. -/
def wordPositions (mode : PositionMode) (field : Nat) (word : Term) (calls : List TextCall) : List Nat :=
  (termValues mode field word calls).flatMap (·.2)

theorem wordPositions_cons (c : TextCall) : wordPositions mode field word (c :: calls) =
    (if c.field = field then c.positions mode word else []) ++ wordPositions mode field word calls := by
  unfold wordPositions termValues
  by_cases hf : c.field = field
  · by_cases hw : word ∈ c.terms
    · simp [hf, hw]
    · have hnil : c.positions mode word = [] := by
        rw [← length_eq_zero_iff, TextCall.length_positions]
        exact not_not.mp fun h => hw (TextCall.mem_terms.mpr h)
      simp [hw, hnil]
  · simp [hf]

theorem wordPositions_lt : ∀ p ∈ wordPositions mode field word calls, p < 2 ^ 32 := by
  intro p hp
  obtain ⟨v, hv, hp⟩ := mem_flatMap.mp hp
  obtain ⟨c, -, rfl⟩ := mem_map.mp hv
  obtain ⟨t, -, rfl⟩ := mem_map.mp hp
  exact encodedPosition_lt _ t.position_lt

variable (hentry : schema field = some entry) (hmode : positionMode schema field = some mode)

include hentry hmode in
/-- The recorded occurrences of a common word are those at its positions. -/
theorem countP_commonOccurrences (hw : word ∈ entry.commonGrams) (P : Nat → Bool)
    (calls : List TextCall) :
    (calls.flatMap (commonOccurrences schema)).countP
        (fun o => fieldOf o = field ∧ wordOf o = word ∧ P (positionOf o) = true) =
      (wordPositions mode field word calls).countP P := by
  induction calls with
  | nil => rfl
  | cons c calls ih =>
    rw [flatMap_cons, countP_append, ih, wordPositions_cons, countP_append]
    refine congrArg (· + _) ?_
    by_cases hf : c.field = field
    · rw [if_pos hf, commonOccurrences, hf, hentry, hmode]
      rw [countP_map, countP_filter, TextCall.positions, countP_map, countP_filter]
      refine countP_congr fun t _ => ?_
      simp only [Function.comp_apply, Bool.and_eq_true, decide_eq_true_eq]
      constructor
      · rintro ⟨⟨-, rfl, hp⟩, -⟩
        exact ⟨hp, rfl⟩
      · rintro ⟨hp, rfl⟩
        exact ⟨⟨rfl, rfl, hp⟩, hw⟩
    · rw [if_neg hf, countP_nil, countP_eq_zero]
      intro o ho
      have hfield : fieldOf o = c.field := by
        unfold commonOccurrences at ho
        split at ho
        · obtain ⟨t, -, rfl⟩ := mem_map.mp ho
          rfl
        · simp at ho
      simp [hfield, hf]

include hentry hmode in
theorem mem_commonOccurrences (hw : word ∈ entry.commonGrams) :
    occurrence field position word ∈ calls.flatMap (commonOccurrences schema) ↔
      position ∈ wordPositions mode field word calls := by
  have hcount := countP_commonOccurrences hentry hmode hw (· = position) calls
  have hleft : 0 < (calls.flatMap (commonOccurrences schema)).countP (fun o => fieldOf o = field ∧
      wordOf o = word ∧ decide (positionOf o = position) = true) ↔
      occurrence field position word ∈ calls.flatMap (commonOccurrences schema) := by
    rw [countP_pos_iff]
    constructor
    · rintro ⟨o, ho, h⟩
      obtain ⟨rfl, rfl, hpos⟩ := of_decide_eq_true h
      obtain rfl := of_decide_eq_true hpos
      exact ho
    · intro ho
      exact ⟨_, ho, decide_eq_true ⟨rfl, rfl, decide_eq_true rfl⟩⟩
  rw [← hleft, hcount, countP_pos_iff]
  simp

/-- The counter of a pair after the calls of a document. -/
def pairCount (schema : TextSchema) (field : Nat) (first second : Term) (calls : List TextCall) : Nat :=
  (pairStarts ((calls.flatMap (commonOccurrences schema)).insertionSort (· ≤ ·))).count
    (field, first, second)

include hentry hmode in
/-- A pair is counted at the positions of its first word that the second word follows. -/
theorem pairCount_eq (hfirst : first ∈ entry.commonGrams) (hsecond : second ∈ entry.commonGrams) :
    pairCount schema field first second calls = (wordPositions mode field first calls).countP
      fun p => p + 1 ∈ wordPositions mode field second calls := by
  have hperm := perm_insertionSort (· ≤ ·) (calls.flatMap (commonOccurrences schema))
  rw [pairCount, count_pairStarts (pairwise_insertionSort _ _), hperm.countP_eq,
    ← countP_commonOccurrences hentry hmode hfirst]
  refine countP_congr fun o _ => ?_
  simp only [StartsPair, decide_eq_true_eq, hperm.mem_iff, mem_commonOccurrences hentry hmode hsecond]
  refine and_congr_right fun _ => and_congr_right fun _ => and_iff_right_of_imp fun hp => ?_
  exact wordPositions_lt _ hp

/-! ## Keys -/

/-- `word_pair_term`: the term `0xFF first 0xFF second`. -/
def wordPairTerm (first second : List Byte) : List Byte := 255 :: (first ++ 255 :: second)

/-- The serialized dictionary key of an interned key: field id, then term bytes. -/
def termKeyBytes (key : TermKey) : Key :=
  leBytes 4 key.field ++
    if key.wordPair then
      -- `split_once('\0')`
      wordPairTerm (key.term.1.takeWhile (· ≠ 0)) ((key.term.1.dropWhile (· ≠ 0)).tail)
    else key.term.1

variable (second) in
theorem split_pairTerm (h : 0 ∉ first.1) :
    (pairTerm first second).1.takeWhile (· ≠ 0) = first.1 ∧
      ((pairTerm first second).1.dropWhile (· ≠ 0)).tail = second.1 := by
  have hall : ∀ x ∈ first.1, decide (x ≠ 0) = true := fun x hx =>
    decide_eq_true fun h0 => h (h0 ▸ hx)
  unfold pairTerm
  rw [takeWhile_append_of_pos hall, dropWhile_append_of_pos hall]
  simp

/-- A pair is written under the term that a phrase query looks up in the field. -/
theorem termKeyBytes_pair (h : 0 ∉ first.1) : termKeyBytes ⟨field, true, pairTerm first second⟩ =
    leBytes 4 field ++ wordPairTerm first.1 second.1 := by
  obtain ⟨h1, h2⟩ := split_pairTerm second h
  rw [termKeyBytes, if_pos rfl, h1, h2]

theorem pairTerm_inj {first' second' : Term} (h : 0 ∉ first.1) (h' : 0 ∉ first'.1)
    (heq : pairTerm first second = pairTerm first' second') : first = first' ∧ second = second' := by
  obtain ⟨h1, h2⟩ := split_pairTerm second h
  obtain ⟨h1', h2'⟩ := split_pairTerm second' h'
  rw [heq] at h1 h2
  exact ⟨Subtype.ext (h1.symm.trans h1'), Subtype.ext (h2.symm.trans h2')⟩

/-! ## Postings -/

variable {shouldSpill : PostingListBuilder → Bool}

/-- Each pair adds to its own key. -/
theorem pairs_foldl_addTermPosting {pairs : List (Nat × Term × Term)} (docId : Nat)
    (tf : Nat × Term × Term → Nat) (hnodup : pairs.Nodup) (hwords : ∀ p ∈ pairs, 0 ∉ p.2.1.1)
    (hfirst : 0 ∉ first.1) (self : SegmentBuilder) :
    (pairs.foldl (fun self pair => self.addTermPosting shouldSpill
        ⟨pair.1, true, pairTerm pair.2.1 pair.2.2⟩ docId (tf pair)) self).invertedIndex
          ⟨field, true, pairTerm first second⟩ =
      if (field, first, second) ∈ pairs then
        some (Summa.addTermPosting shouldSpill (self.invertedIndex ⟨field, true, pairTerm first second⟩)
          docId (tf (field, first, second)))
      else self.invertedIndex ⟨field, true, pairTerm first second⟩ := by
  refine foldl_of_key (·.invertedIndex ⟨field, true, pairTerm first second⟩) (fun b => some
    (Summa.addTermPosting shouldSpill b docId (tf (field, first, second)))) hnodup
    (fun s => ?_) (fun pair hmem hne s => ?_) self
  · exact Function.update_self ..
  refine Function.update_of_ne (fun heq => ?_) ..
  injection heq with hf _ ht
  obtain ⟨h1, h2⟩ := pairTerm_inj hfirst (hwords pair hmem) ht
  exact hne (Prod.ext hf.symm (Prod.ext h1.symm h2.symm))

theorem wordOf_commonOccurrences (ho : o ∈ calls.flatMap (commonOccurrences schema)) : 0 ∉ (wordOf o).1 := by
  obtain ⟨c, -, ho⟩ := mem_flatMap.mp ho
  unfold commonOccurrences at ho
  split at ho
  case h_1 entry mode hentry _ =>
    obtain ⟨t, ht, rfl⟩ := mem_map.mp ho
    exact (entry.grams_words _ (of_decide_eq_true (mem_filter.mp ht).2)).2
  case h_2 => simp at ho

/-- The value that a document adds to a pair. -/
def pairValue (docId count : Nat) : TermValues :=
  if count = 0 then [] else [(docId, replicate count 0)]

variable (shouldSpill field second) in
/-- A document adds one posting to each pair that it holds. -/
theorem pairs_indexWordPairs {self : SegmentBuilder} (docId : Nat) (hfirst : 0 ∉ first.1)
    (hocc : self.pairOccurrences = calls.flatMap (commonOccurrences schema)) :
    (self.indexWordPairs shouldSpill docId).invertedIndex ⟨field, true, pairTerm first second⟩ =
        runPostings shouldSpill (self.invertedIndex ⟨field, true, pairTerm first second⟩)
          (pairValue docId (pairCount schema field first second calls)) ∧
      (self.indexWordPairs shouldSpill docId).pairOccurrences = [] := by
  have hperm := perm_insertionSort (· ≤ ·) (calls.flatMap (commonOccurrences schema))
  have hwords : ∀ p ∈ (pairStarts (self.pairOccurrences.insertionSort (· ≤ ·))).dedup,
      0 ∉ p.2.1.1 := by
    rintro ⟨f, a, b⟩ hp
    rw [hocc, mem_dedup, ← count_pos_iff, count_pairStarts (pairwise_insertionSort _ _),
      countP_pos_iff] at hp
    obtain ⟨o, ho, hstart⟩ := hp
    rw [← (of_decide_eq_true hstart).2.1]
    exact wordOf_commonOccurrences (hperm.mem_iff.mp ho)
  have hmem : (field, first, second) ∈ (pairStarts
      ((calls.flatMap (commonOccurrences schema)).insertionSort (· ≤ ·))).dedup ↔
      pairCount schema field first second calls ≠ 0 := by
    rw [mem_dedup, ← count_pos_iff, Nat.pos_iff_ne_zero]
    rfl
  refine ⟨?_, ?_⟩
  · unfold indexWordPairs pairValue
    rw [pairs_foldl_addTermPosting docId _ (nodup_dedup _) hwords hfirst, hocc]
    by_cases h0 : pairCount schema field first second calls = 0
    · rw [if_neg (by rw [hmem]; exact not_not.mpr h0), if_pos h0]
      rfl
    · rw [if_pos (hmem.mpr h0), if_neg h0]
      simp [runPostings, pairCount]
  · unfold indexWordPairs
    exact foldl_keep pairOccurrences (by intros; rfl) _

end SegmentBuilder

end Summa
