import Summa.Query.Phrase

/-!
# Phrase checks against positions

Whatever way a check takes, it finds out whether the candidate holds the phrase and leaves a state from
which the number of its occurrences can be computed.

* `checkPhrasePositions_spec`: for any terms, distances and slop.

The specification is `phraseCount`: the first term's positions, with multiplicity, that have a partner in
every other term.
-/

namespace Summa

open List Function

namespace PhrasePlan

/-- What `unpositioned` guarantees for two or more terms. -/
structure Ok (plan : PhrasePlan) : Prop where
  two_le : 2 ≤ plan.numTerms
  order : plan.termOrder.Perm (range plan.numTerms)
  lead : plan.termOrder.head? = some plan.lead
  delta_zero : plan.deltas 0 = 0
  bound : plan.boundTerm = if plan.exactTermBounds then plan.lead else 0

namespace Ok

variable {plan : PhrasePlan} {t : Nat} (h : plan.Ok)

include h

theorem mem_termOrder : t ∈ plan.termOrder ↔ t < plan.numTerms := by
  rw [h.order.mem_iff, mem_range]

theorem lead_lt : plan.lead < plan.numTerms := h.mem_termOrder.mp (mem_of_head? h.lead)

theorem termOrder_eq : plan.termOrder = plan.lead :: plan.termOrder.tail := by
  obtain ⟨rest, hrest⟩ := head?_eq_some_iff.mp h.lead
  rw [hrest, tail_cons]

theorem mem_tail : t ∈ plan.termOrder.tail ↔ t < plan.numTerms ∧ t ≠ plan.lead := by
  have hnodup : plan.termOrder.Nodup := h.order.nodup_iff.mpr nodup_range
  have hmem := h.mem_termOrder (t := t)
  rw [h.termOrder_eq] at hnodup hmem
  rw [mem_cons] at hmem
  have hlead := (nodup_cons.mp hnodup).1
  constructor
  · intro ht
    exact ⟨hmem.mp (.inr ht), fun heq => hlead (heq ▸ ht)⟩
  · rintro ⟨hlt, hne⟩
    exact (hmem.mpr hlt).resolve_left hne

end Ok

end PhrasePlan

/-- The first term's positions with a partner in every other term, for the positions `ts` of the terms
in one document. -/
def phraseCount (plan : PhrasePlan) (ts : Nat → List Nat) : Nat :=
  (ts 0).countP (startMatches plan.slop
    ((PhraseCheck.otherTerms plan).map fun i => (ts i, plan.deltas i)))

/-- What the terms of a plan guarantee about their positions in one document. -/
structure PositionsOk (plan : PhrasePlan) (ts : Nat → List Nat) : Prop where
  planOk : plan.Ok
  lt : ∀ i < plan.numTerms, ∀ p ∈ ts i, p < 2 ^ 32
  unique : plan.exactTermBounds = true → (ts 0).Nodup
  length_lt : (ts 0).length < 2 ^ 32

/-- The cursors read the positions `ts` at the current postings, each in its own stream. -/
structure Reads (n : Nat) (streams : Nat → PositionStream) (its : Nat → BlockPostingIterator)
    (lists : Nat → TermPositionCursor) (ts : Nat → List Nat) : Prop where
  ok : ∀ i < n, (lists i).Ok
  stream : ∀ i < n, (lists i).positions = streams i
  entry : ∀ i < n, ∃ e, (its i).entry = some e ∧
    e.cursor + e.termFreq ≤ (lists i).positions.values.length ∧
    ts i = (lists i).positions.positionsAt e.cursor e.termFreq

namespace Reads

variable {n i : Nat} {streams : Nat → PositionStream} {its : Nat → BlockPostingIterator} {lists : Nat → TermPositionCursor}
  {ts : Nat → List Nat}

section

variable (h : Reads n streams its lists ts)

include h

/-- The positions of the current posting lie in the stream. -/
theorem fits (hi : i < n) :
    (its i).positionCursor + (its i).termFreq ≤ (lists i).positions.values.length ∧
      ts i = (lists i).positions.positionsAt (its i).positionCursor (its i).termFreq := by
  obtain ⟨e, he, hfit, hts⟩ := h.entry i hi
  simp only [BlockPostingIterator.positionCursor, BlockPostingIterator.termFreq, he, Option.map_some,
    Option.getD_some]
  exact ⟨hfit, hts⟩

theorem termFreq (hi : i < n) : (its i).termFreq = (ts i).length := by
  obtain ⟨hfit, hts⟩ := h.fits hi
  rw [hts, PositionStream.positionsAt, length_absolute, length_take, length_drop]
  omega

theorem sorted (hi : i < n) : (ts i).Pairwise (· ≤ ·) := by
  rw [(h.fits hi).2]
  exact absolute_sorted ..

/-- A cursor may have moved in its stream. -/
theorem update {cur : TermPositionCursor} (hc : cur.Ok)
    (hp : cur.positions = (lists i).positions) : Reads n streams its (Function.update lists i cur) ts := by
  have hcur : ∀ j < n, (Function.update lists i cur j).Ok ∧
      (Function.update lists i cur j).positions = (lists j).positions := by
    intro j hj
    rcases eq_or_ne j i with rfl | hne
    · rw [update_self]
      exact ⟨hc, hp⟩
    · rw [update_of_ne hne]
      exact ⟨h.ok j hj, rfl⟩
  refine ⟨fun j hj => (hcur j hj).1, fun j hj => (hcur j hj).2.trans (h.stream j hj), fun j hj => ?_⟩
  rw [(hcur j hj).2]
  exact h.entry j hj

end

end Reads

/-- A check that has found nothing yet. -/
structure PhraseCheck.Fresh (n : Nat) (streams : Nat → PositionStream) (its : Nat → BlockPostingIterator)
    (ts : Nat → List Nat) (c : PhraseCheck) : Prop extends Reads n streams its c.positionLists ts where
  firstMatch : c.firstMatch = false
  frequency : c.frequency = none

namespace PhraseCheck.Fresh

variable {n i : Nat} {streams : Nat → PositionStream} {its : Nat → BlockPostingIterator} {ts : Nat → List Nat}
  {c : PhraseCheck} (h : Fresh n streams its ts c)

include h

theorem readTermPositions (hi : i < n) :
    ∃ c', c.readTermPositions its i = (true, c') ∧ Fresh n streams its ts c' ∧
      c'.positionBufs = update c.positionBufs i (ts i) := by
  obtain ⟨hfit, hts⟩ := h.fits hi
  obtain ⟨hres, hok, hsame⟩ := (h.ok i hi).readInto hfit
  refine ⟨(c.readTermPositions its i).2, Prod.ext ?_ rfl, ⟨h.update hok hsame, h.firstMatch, h.frequency⟩, ?_⟩
  · simp only [PhraseCheck.readTermPositions, hres, Option.isSome_some]
  · simp only [PhraseCheck.readTermPositions, hres, Option.getD_some, hts]

theorem readOne (hi : i < n) (h1 : (its i).termFreq = 1) :
    ∃ c' position, c.readOne its i = (some position, c') ∧ ts i = [position] ∧ Fresh n streams its ts c' := by
  obtain ⟨hfit, hts⟩ := h.fits hi
  rw [h1] at hfit hts
  obtain ⟨hres, hok, hsame⟩ := (h.ok i hi).readOne hfit
  obtain ⟨position, hpos⟩ := length_eq_one_iff.mp ((h.termFreq hi).symm.trans h1)
  refine ⟨(c.readOne its i).2, position, Prod.ext ?_ rfl, hpos, h.update hok hsame, h.firstMatch, h.frequency⟩
  simp only [PhraseCheck.readOne, hres, ← hts, hpos, head?_cons]

theorem contains (hi : i < n) (target : Nat) :
    ∃ c', c.contains its i target = (decide (target ∈ ts i), c') ∧ Fresh n streams its ts c' := by
  obtain ⟨hfit, hts⟩ := h.fits hi
  obtain ⟨hres, hok, hsame⟩ := (h.ok i hi).contains hfit target
  refine ⟨(c.contains its i target).2, Prod.ext ?_ rfl, h.update hok hsame, h.firstMatch, h.frequency⟩
  rw [Bool.eq_iff_iff, decide_eq_true_eq, hts]
  exact hres

end PhraseCheck.Fresh

namespace PhraseCheck

/-- A check decided whether the phrase occurs, and its state gives the number of occurrences. -/
structure Checked (plan : PhrasePlan) (streams : Nat → PositionStream) (its : Nat → BlockPostingIterator)
    (ts : Nat → List Nat) (r : Bool × PhraseCheck) : Prop where
  reads : Reads plan.numTerms streams its r.2.positionLists ts
  matched : r.1 = decide (0 < phraseCount plan ts)
  firstMatch : r.2.firstMatch = r.1
  frequency : r.1 = true → r.2.exactPhraseFrequency plan = phraseCount plan ts

variable {plan : PhrasePlan} {streams : Nat → PositionStream} {its : Nat → BlockPostingIterator}
  {ts : Nat → List Nat} {c : PhraseCheck}

theorem mem_otherTerms {i : Nat} : i ∈ otherTerms plan ↔ 1 ≤ i ∧ i < plan.numTerms := by
  rw [otherTerms, tail_range, mem_range'_1]
  omega

variable {p anchor last : Nat} {l : List Nat}

/-- The lists that a match aligns with the first one. -/
def others (plan : PhrasePlan) (ts : Nat → List Nat) : List (List Nat × Nat) :=
  (otherTerms plan).map fun i => (ts i, plan.deltas i)

/-- Without slop, a partner stands exactly at its distance. -/
theorem startMatches_zero :
    startMatches 0 (others plan ts) p = true ↔ ∀ i ∈ otherTerms plan, p + plan.deltas i ∈ ts i := by
  simp only [startMatches, others, all_map, all_eq_true, comp_apply, any_eq_true,
    inWindow, Nat.sub_zero, Nat.add_zero, decide_eq_true_eq]
  refine forall₂_congr fun i _ => ⟨?_, fun h => ⟨_, h, le_rfl, le_rfl⟩⟩
  rintro ⟨q, hq, hle, hge⟩
  rwa [le_antisymm hle hge]

/-- Without slop, a start of the first term matches if every term has its place. -/
theorem startMatches_all (hplan : plan.Ok) (hslop : plan.slop = 0) :
    p ∈ ts 0 ∧ startMatches plan.slop (others plan ts) p = true ↔
      ∀ t < plan.numTerms, p + plan.deltas t ∈ ts t := by
  rw [hslop, startMatches_zero]
  constructor
  · rintro ⟨h0, hall⟩ t ht
    rcases Nat.eq_zero_or_pos t with rfl | hpos
    · rwa [hplan.delta_zero]
    · exact hall t (mem_otherTerms.mpr ⟨hpos, ht⟩)
  · intro hall
    refine ⟨?_, fun i hi => hall i (mem_otherTerms.mp hi).2⟩
    simpa [hplan.delta_zero] using hall 0 (Nat.zero_lt_of_lt hplan.two_le)

/-- At most one position can satisfy `P`. -/
theorem countP_of_unique {P : Nat → Bool} {a : Nat} (hnodup : l.Nodup) (huniq : ∀ p ∈ l, P p = true → p = a) :
    l.countP P = if a ∈ l ∧ P a = true then 1 else 0 := by
  by_cases h : a ∈ l ∧ P a = true
  · rw [if_pos h, ← count_eq_one_of_mem hnodup h.1, count]
    refine countP_congr fun p hp => ⟨fun hP => by simp [huniq p hp hP], fun heq => ?_⟩
    rw [eq_of_beq heq]
    exact h.2
  · rw [if_neg h, countP_eq_zero]
    intro p hp hP
    exact h ⟨huniq p hp hP ▸ hp, huniq p hp hP ▸ hP⟩

/-! ## Singletons -/

variable (h : Fresh plan.numTerms streams its ts c)

include h in
theorem probeTerms_spec (anchor start : Nat) {terms : List Nat}
    (hterms : ∀ t ∈ terms, t < plan.numTerms) (hts : PositionsOk plan ts) :
    ∃ c', probeTerms plan its anchor start terms c =
        (decide (∀ t ∈ terms, t ≠ anchor → start + plan.deltas t ∈ ts t), c') ∧
      Fresh plan.numTerms streams its ts c' := by
  induction terms generalizing c with
  | nil => exact ⟨c, by simp [probeTerms], h⟩
  | cons t terms ih =>
    have hterms' : ∀ t ∈ terms, t < plan.numTerms := fun x hx => hterms x (mem_cons_of_mem _ hx)
    have ht := hterms t mem_cons_self
    unfold probeTerms
    split
    case isTrue heq =>
      obtain ⟨c', hprobe, hc⟩ := ih h hterms'
      refine ⟨c', ?_, hc⟩
      rw [hprobe]
      congr 1
      simp [heq]
    case isFalse hne =>
      split
      case isTrue hbig =>
        refine ⟨c, ?_, h⟩
        congr 1
        symm
        rw [decide_eq_false_iff_not]
        intro hall
        have := hts.lt t ht _ (hall t mem_cons_self hne)
        omega
      case isFalse =>
        obtain ⟨c', hcont, hc⟩ := h.contains ht (start + plan.deltas t)
        rw [hcont]
        simp only [decide_eq_true_eq]
        split
        case isTrue hmem =>
          obtain ⟨c'', hprobe, hc'⟩ := ih hc hterms'
          refine ⟨c'', ?_, hc'⟩
          rw [hprobe]
          congr 1
          simp [hne, hmem]
        case isFalse hmem =>
          refine ⟨c', ?_, hc⟩
          congr 1
          simp [hne, hmem]

/-- A check that ended without a match. -/
theorem checked_of_none {r : PhraseCheck} (hreads : Reads plan.numTerms streams its r.positionLists ts)
    (hr : r.firstMatch = false) (hcount : phraseCount plan ts = 0) : Checked plan streams its ts (false, r) :=
  ⟨hreads, by simp [hcount], hr, by simp⟩

/-- A check that found the only match. -/
theorem checked_of_one {r : PhraseCheck} (hreads : Reads plan.numTerms streams its r.positionLists ts)
    (hr : r.firstMatch = true) (hf : r.frequency = some 1) (hcount : phraseCount plan ts = 1) :
    Checked plan streams its ts (true, r) :=
  ⟨hreads, by simp [hcount], hr, fun _ => by simp [exactPhraseFrequency, hr, hf, hcount]⟩

include h in
/-- The partner of the only position decides. -/
theorem checked_contains {i target : Nat} (hi : i < plan.numTerms)
    (hcount : phraseCount plan ts = if target ∈ ts i then 1 else 0) :
    Checked plan streams its ts ((c.contains its i target).1, { (c.contains its i target).2 with
      firstMatch := (c.contains its i target).1
      frequency := some (if (c.contains its i target).1 then 1 else 0) }) := by
  obtain ⟨c', hcont, hc⟩ := h.contains hi target
  rw [hcont]
  by_cases hmem : target ∈ ts i
  · simp only [hmem, decide_true, if_true]
    exact checked_of_one hc.toReads rfl rfl (by rw [hcount, if_pos hmem])
  · simp only [hmem, decide_false, Bool.false_eq_true, if_false]
    exact checked_of_none hc.toReads rfl (by rw [hcount, if_neg hmem])

theorem phraseCount_pair (hslop : plan.slop = 0) (h2 : plan.numTerms = 2) :
    phraseCount plan ts = (ts 0).countP (hasPartner (ts 1) (plan.deltas 1)) := by
  have hother : otherTerms plan = [1] := by rw [otherTerms, h2]; rfl
  refine countP_congr fun p _ => ?_
  rw [hslop, ← others, startMatches_zero, hother, hasPartner, decide_eq_true_eq]
  simp

/-! ## Enumerating the first term's starts -/

include h in
/-- The first match of the first buffer with the enumerated one, from which counting goes on. -/
theorem firstExact_spec (hslop : plan.slop = 0)
    {other delta : Nat} {starts partners : List Nat} (henum : enumerated plan = (other, delta))
    (hb0 : c.positionBufs 0 = starts) (hbo : c.positionBufs other = partners)
    (h0 : starts.Pairwise (· ≤ ·)) (hp : partners.Pairwise (· ≤ ·))
    (hcount : phraseCount plan ts = starts.countP (hasPartner partners delta)) :
    Checked plan streams its ts (c.firstExact other delta) := by
  have hspec := nextExactPhraseMatch_spec (i := 0) (by simpa using h0) hp (.start _ _ delta _)
  rw [drop_zero] at hspec
  unfold firstExact
  rw [hb0, hbo]
  cases hnext : nextExactPhraseMatch starts partners delta 0 0 with
  | mk found rest =>
    obtain ⟨i', j'⟩ := rest
    rw [hnext] at hspec
    cases found with
    | none =>
      refine checked_of_none h.toReads rfl ?_
      rw [hcount, countP_eq_length_filter, show _ = [] from hspec, length_nil]
    | some m =>
      obtain ⟨⟨s, -, hfilter⟩, hres⟩ := hspec
      have hlen : phraseCount plan ts = (starts.drop i').countP (hasPartner partners delta) + 1 := by
        rw [hcount, countP_eq_length_filter, hfilter, length_cons,
          ← countP_eq_length_filter]
      refine ⟨h.toReads, by simp [hlen], rfl, fun _ => ?_⟩
      simp only [exactPhraseFrequency, Option.isSome_some, not_true_eq_false, if_false, h.frequency, hslop,
        if_true, henum, update_self, hb0, hbo]
      rw [countExactPhraseMatches_eq h0.drop hp hres, hlen]

/-! ## Filtering the rarest term's starts -/

/-- The terms that `filterStarts` reads. -/
def filtered (anchor last : Nat) : List Nat → List Nat
  | [] => []
  | term :: rest =>
    if term = last ∧ (anchor = 0 ∨ rest = []) then filtered anchor last rest
    else term :: filtered anchor last rest

theorem filtered_subset : filtered anchor last l ⊆ l := by
  induction l with
  | nil => exact List.Subset.refl _
  | cons t l ih =>
    unfold filtered
    split
    · exact fun x hx => mem_cons_of_mem _ (ih hx)
    · exact cons_subset_cons _ ih

theorem mem_filtered {t : Nat} (ht : t ∈ l) (hne : t ≠ last) : t ∈ filtered anchor last l := by
  induction l with
  | nil => cases ht
  | cons x l ih =>
    unfold filtered
    split
    case isTrue hx =>
      rcases mem_cons.mp ht with rfl | ht
      · exact absurd hx.1 hne
      · exact ih ht
    case isFalse =>
      rcases mem_cons.mp ht with rfl | ht
      · exact mem_cons_self
      · exact mem_cons_of_mem _ (ih ht)

/-- With another anchor than the first term, only the end of the list is left out. -/
theorem last_mem_filtered (hanchor : anchor ≠ 0) (ht : last ∈ l)
    (hend : l.getLast? ≠ some last) : last ∈ filtered anchor last l := by
  induction l with
  | nil => cases ht
  | cons x l ih =>
    unfold filtered
    rcases mem_cons.mp ht with rfl | ht
    · rw [if_neg]
      · exact mem_cons_self
      · rintro ⟨-, h0 | rfl⟩
        · exact hanchor h0
        · simp at hend
    · have hne : l ≠ [] := ne_nil_of_mem ht
      rw [getLast?_cons_of_ne_nil hne] at hend
      split
      · exact ih ht hend
      · exact mem_cons_of_mem _ (ih ht hend)

include h in
/-- Filtering keeps the starts that all terms of the list have, or finds that there are none. -/
theorem filterStarts_spec (last : Nat)
    (hl : ∀ t ∈ l, t < plan.numTerms ∧ t ≠ anchor) (hs : (c.positionBufs anchor).Pairwise (· ≤ ·)) :
    ∃ b c', filterStarts plan its anchor last l c = (b, c') ∧ Fresh plan.numTerms streams its ts c' ∧
      (b = false → ∀ s ∈ c.positionBufs anchor, ∃ t ∈ l, s + plan.deltas t ∉ ts t) ∧
      (b = true → c'.positionBufs anchor = (c.positionBufs anchor).filter (fun s =>
          ∀ t ∈ filtered anchor last l, s + plan.deltas t ∈ ts t) ∧
        (∀ t ∈ filtered anchor last l, c'.positionBufs t = ts t) ∧
        ∀ t ∉ filtered anchor last l, t ≠ anchor → c'.positionBufs t = c.positionBufs t) := by
  induction l generalizing c with
  | nil => exact ⟨true, c, rfl, h, by simp, fun _ => ⟨by simp [filtered], by simp [filtered],
      fun _ _ _ => rfl⟩⟩
  | cons t l ih =>
    have hl' : ∀ t ∈ l, t < plan.numTerms ∧ t ≠ anchor := fun x hx => hl x (mem_cons_of_mem _ hx)
    obtain ⟨htn, hta⟩ := hl t mem_cons_self
    unfold filterStarts filtered
    split
    case isTrue hskip =>
      obtain ⟨b, c', heq, hc, hfalse, htrue⟩ := ih h hl' hs
      refine ⟨b, c', heq, hc, fun hb s hs' => ?_, htrue⟩
      obtain ⟨x, hx, hno⟩ := hfalse hb s hs'
      exact ⟨x, mem_cons_of_mem _ hx, hno⟩
    case isFalse hskip =>
      obtain ⟨r, hread, hr, hbufs⟩ := h.readTermPositions htn
      have hstarts : retainExactPhraseStarts (r.positionBufs anchor) (r.positionBufs t) (plan.deltas t) =
          (c.positionBufs anchor).filter (hasPartner (ts t) (plan.deltas t)) := by
        rw [hbufs, update_self, update_of_ne hta.symm]
        exact retainExactPhraseStarts_eq (h.sorted htn) hs
      simp only [hread, not_true_eq_false, if_false, hstarts]
      set next : PhraseCheck := { r with
        positionBufs := update r.positionBufs anchor
          ((c.positionBufs anchor).filter (hasPartner (ts t) (plan.deltas t))) } with hnext
      have hfresh : Fresh plan.numTerms streams its ts next := ⟨hr.toReads, hr.firstMatch, hr.frequency⟩
      split
      case isTrue hnil =>
        refine ⟨false, _, rfl, hfresh, fun _ s hs' => ⟨t, mem_cons_self, fun hmem => ?_⟩, nofun⟩
        have := filter_eq_nil_iff.mp hnil s hs'
        exact this (by simpa [hasPartner] using hmem)
      case isFalse =>
        have hbuf : next.positionBufs anchor =
            (c.positionBufs anchor).filter (hasPartner (ts t) (plan.deltas t)) := by simp [hnext]
        obtain ⟨b, c', heq, hc, hfalse, htrue⟩ := ih hfresh hl'
          (by rw [hbuf]; exact hs.filter _)
        refine ⟨b, c', heq, hc, fun hb s hs' => ?_, fun hb => ⟨?_, fun x hx => ?_, fun x hx hne => ?_⟩⟩
        · by_cases hp : s + plan.deltas t ∈ ts t
          · obtain ⟨x, hx, hno⟩ := hfalse hb s
              (by rw [hbuf]; exact mem_filter.mpr ⟨hs', by simpa [hasPartner] using hp⟩)
            exact ⟨x, mem_cons_of_mem _ hx, hno⟩
          · exact ⟨t, mem_cons_self, hp⟩
        · rw [(htrue hb).1, hbuf, filter_filter]
          refine filter_congr fun s _ => ?_
          rw [Bool.eq_iff_iff]
          simp [hasPartner, and_comm]
        · by_cases hxf : x ∈ filtered anchor last l
          · exact (htrue hb).2.1 x hxf
          · obtain rfl : x = t := by simpa [hxf] using hx
            rw [(htrue hb).2.2 x hxf hta]
            simp [hnext, hbufs, hta]
        · rw [mem_cons, not_or] at hx
          rw [(htrue hb).2.2 x hx.2 hne]
          simp [hnext, hbufs, hne, hx.1]

/-- The starts that the anchor's positions stand for. -/
def anchorStarts (plan : PhrasePlan) (ts : Nat → List Nat) : List Nat :=
  if plan.lead = 0 then ts 0
  else ((ts plan.lead).filter (plan.deltas plan.lead ≤ ·)).map (· - plan.deltas plan.lead)

theorem mem_anchorStarts (hp : p ∈ ts 0) (hplan : plan.Ok) :
    p ∈ anchorStarts plan ts ↔ p + plan.deltas plan.lead ∈ ts plan.lead := by
  unfold anchorStarts
  split
  case isTrue h0 =>
    rw [h0, hplan.delta_zero]
    exact Iff.rfl
  case isFalse =>
    simp only [mem_map, mem_filter, decide_eq_true_eq]
    constructor
    · rintro ⟨x, ⟨hx, hle⟩, rfl⟩
      rwa [Nat.sub_add_cancel hle]
    · exact fun h => ⟨_, ⟨h, Nat.le_add_left ..⟩, Nat.add_sub_cancel ..⟩

include h in
theorem anchorStarts_sorted (hplan : plan.Ok) :
    (anchorStarts plan ts).Pairwise (· ≤ ·) := by
  have hn := hplan.two_le
  unfold anchorStarts
  split
  · exact h.sorted (by omega)
  · rw [pairwise_map]
    exact ((h.sorted hplan.lead_lt).filter _).imp fun hle => Nat.sub_le_sub_right hle _

/-- A first-term position matches if it is a start of the anchor that all other terms have. -/
theorem startMatches_iff (hplan : plan.Ok) (hslop : plan.slop = 0) (hp : p ∈ ts 0) :
    startMatches plan.slop (others plan ts) p = true ↔
      p ∈ anchorStarts plan ts ∧ ∀ t ∈ plan.termOrder.tail, p + plan.deltas t ∈ ts t := by
  refine (and_iff_right hp).symm.trans ?_
  rw [startMatches_all hplan hslop, mem_anchorStarts hp hplan]
  constructor
  · exact fun hall => ⟨hall _ hplan.lead_lt, fun t ht => hall t (hplan.mem_tail.mp ht).1⟩
  · rintro ⟨h1, h2⟩ t ht
    rcases eq_or_ne t plan.lead with rfl | hne
    · exact h1
    · exact h2 t (hplan.mem_tail.mpr ⟨ht, hne⟩)

theorem phraseCount_eq_zero (hplan : plan.Ok) (hslop : plan.slop = 0)
    (hnone : ∀ s ∈ anchorStarts plan ts, ∃ t ∈ plan.termOrder.tail, s + plan.deltas t ∉ ts t) :
    phraseCount plan ts = 0 := by
  rw [phraseCount, countP_eq_zero]
  intro p hp hm
  obtain ⟨hs, hall⟩ := (startMatches_iff hplan hslop hp).mp hm
  obtain ⟨t, ht, hno⟩ := hnone p hs
  exact hno (hall t ht)

include h in
theorem shiftStarts_spec (hbuf : c.positionBufs plan.lead = ts plan.lead) :
    Fresh plan.numTerms streams its ts (c.shiftStarts plan plan.lead) ∧
      (c.shiftStarts plan plan.lead).positionBufs plan.lead = anchorStarts plan ts := by
  unfold shiftStarts anchorStarts
  split
  case isTrue h0 => exact ⟨h, by rw [hbuf, h0]⟩
  case isFalse => exact ⟨⟨h.toReads, h.firstMatch, h.frequency⟩, by simp only [update_self, hbuf]⟩

/-! ## The checks without slop -/

section

variable (hts : PositionsOk plan ts) (hslop : plan.slop = 0)

include h hts hslop

theorem checkSingleton_spec (h1 : (its plan.boundTerm).termFreq = 1) :
    Checked plan streams its ts (c.checkSingleton plan its) := by
  have hplan := hts.planOk
  have hn := hplan.two_le
  have hbound : plan.boundTerm < plan.numTerms := by
    rw [hplan.bound]
    split
    · exact hplan.lead_lt
    · omega
  obtain ⟨r, position, hone, hpos, hr⟩ := h.readOne hbound h1
  -- all matches start at the same place, and the first term has it once
  have hstart : ∀ p ∈ ts 0, startMatches plan.slop (others plan ts) p = true →
      p + plan.deltas plan.boundTerm = position := by
    intro p hp hm
    simpa [hpos] using (startMatches_all hplan hslop).mp ⟨hp, hm⟩ _ hbound
  have hnodup : (ts 0).Nodup := by
    cases hx : plan.exactTermBounds with
    | true => exact hts.unique hx
    | false =>
      have hb := hplan.bound
      rw [hx] at hb
      simp only [Bool.false_eq_true, if_false] at hb
      rw [hb] at hpos
      rw [hpos]
      exact nodup_singleton _
  unfold checkSingleton
  rw [hone]
  simp only []
  split
  case isTrue hunder =>
    refine checked_of_none hr.toReads hr.firstMatch ?_
    rw [phraseCount, countP_eq_zero]
    intro p hp hm
    have := hstart p hp hm
    omega
  case isFalse hover =>
    obtain ⟨start, rfl⟩ := Nat.exists_eq_add_of_le' (not_lt.mp hover)
    have hcount : phraseCount plan ts = if start ∈ ts 0 ∧ startMatches plan.slop (others plan ts) start = true
        then 1 else 0 :=
      countP_of_unique hnodup fun p hp hm => Nat.add_right_cancel (hstart p hp hm)
    obtain ⟨c', hprobe, hc⟩ := probeTerms_spec hr plan.boundTerm start
      (fun t ht => hplan.mem_termOrder.mp ht) hts
    rw [Nat.add_sub_cancel, hprobe]
    simp only [decide_eq_true_eq]
    -- the probes decide whether the start is a match
    have hiff : (∀ t ∈ plan.termOrder, t ≠ plan.boundTerm → start + plan.deltas t ∈ ts t) ↔
        start ∈ ts 0 ∧ startMatches plan.slop (others plan ts) start = true := by
      rw [startMatches_all hplan hslop]
      refine ⟨fun hall t ht => ?_, fun hall t ht _ => hall t (hplan.mem_termOrder.mp ht)⟩
      rcases eq_or_ne t plan.boundTerm with rfl | hne
      · rw [hpos]
        exact mem_singleton.mpr rfl
      · exact hall t (hplan.mem_termOrder.mpr ht) hne
    split
    case isTrue hall =>
      exact checked_of_one hc.toReads rfl rfl (by rw [hcount, if_pos (hiff.mp hall)])
    case isFalse hall =>
      exact checked_of_none hc.toReads hc.firstMatch (by rw [hcount, if_neg (fun hm => hall (hiff.mpr hm))])

/-- The first of two terms occurs once. -/
theorem probePair_first (h2 : plan.numTerms = 2) (h1 : (its 0).termFreq = 1) :
    Checked plan streams its ts (c.probePair plan its 0 1) := by
  obtain ⟨r, position, hone, hpos, hr⟩ := h.readOne (i := 0) (by omega) h1
  have hcount : phraseCount plan ts = if position + plan.deltas 1 ∈ ts 1 then 1 else 0 := by
    rw [phraseCount_pair hslop h2, hpos, countP_singleton]
    simp [hasPartner]
  unfold probePair
  rw [hone]
  simp only [Option.bind_some, if_true]
  by_cases hbig : 2 ^ 32 ≤ position + plan.deltas 1
  · rw [if_pos hbig]
    refine checked_of_none hr.toReads rfl ?_
    rw [hcount, if_neg]
    intro hmem
    have := hts.lt 1 (by omega) _ hmem
    omega
  · rw [if_neg hbig]
    exact checked_contains hr (by omega) hcount

/-- The second of two terms occurs once, and the first does not repeat a position. -/
theorem probePair_second (h2 : plan.numTerms = 2) (hexact : plan.exactTermBounds = true)
    (h1 : (its 1).termFreq = 1) : Checked plan streams its ts (c.probePair plan its 1 0) := by
  obtain ⟨r, position, hone, hpos, hr⟩ := h.readOne (i := 1) (by omega) h1
  have hstart : ∀ p ∈ ts 0, hasPartner (ts 1) (plan.deltas 1) p = true →
      p = position - plan.deltas 1 ∧ plan.deltas 1 ≤ position := by
    intro p _ hp
    rw [hasPartner, decide_eq_true_eq, hpos, mem_singleton] at hp
    omega
  have hcount : phraseCount plan ts =
      if position - plan.deltas 1 ∈ ts 0 ∧ hasPartner (ts 1) (plan.deltas 1) (position - plan.deltas 1)
        then 1 else 0 := by
    rw [phraseCount_pair hslop h2]
    exact countP_of_unique (hts.unique hexact) fun p hp hm => (hstart p hp hm).1
  unfold probePair
  rw [hone]
  simp only [Option.bind_some, Nat.one_ne_zero, if_false]
  by_cases hunder : position < plan.deltas 1
  · rw [if_pos hunder]
    refine checked_of_none hr.toReads rfl ?_
    rw [hcount, if_neg]
    rintro ⟨hmem, hm⟩
    have := (hstart _ hmem hm).2
    omega
  · rw [if_neg hunder]
    have hpartner : hasPartner (ts 1) (plan.deltas 1) (position - plan.deltas 1) = true := by
      rw [hasPartner, decide_eq_true_eq, hpos, Nat.sub_add_cancel (by omega)]
      exact mem_singleton.mpr rfl
    exact checked_contains hr (by omega) (by simp only [hcount, hpartner, and_true])

theorem checkPair_spec (h2 : plan.numTerms = 2) : Checked plan streams its ts (c.checkPair plan its) := by
  unfold checkPair
  split
  case isTrue h1 => exact probePair_first h hts hslop h2 h1
  case isFalse =>
    split
    case isTrue h1 => exact probePair_second h hts hslop h2 h1.1 h1.2
    case isFalse =>
      obtain ⟨r, hread, hr, hbufs⟩ := h.readTermPositions (i := 0) (by omega)
      obtain ⟨r', hread', hr', hbufs'⟩ := hr.readTermPositions (i := 1) (by omega)
      simp only [hread, hread', not_true_eq_false, if_false]
      have hb0 : r'.positionBufs 0 = ts 0 := by simp [hbufs', hbufs]
      have hb1 : r'.positionBufs 1 = ts 1 := by simp [hbufs']
      have henum : enumerated plan = (1, plan.deltas 1) := by simp [enumerated, h2]
      exact firstExact_spec hr' hslop henum hb0 hb1 (h.sorted (by omega)) (h.sorted (by omega))
        (phraseCount_pair hslop h2)

theorem checkRarest_spec (h2 : plan.numTerms ≠ 2) : Checked plan streams its ts (c.checkRarest plan its) := by
  have hplan := hts.planOk
  have hn := hplan.two_le
  have hsorted := anchorStarts_sorted h hplan
  obtain ⟨r, hread, hr, hbufs⟩ := h.readTermPositions hplan.lead_lt
  obtain ⟨hshift, hbuf⟩ := shiftStarts_spec hr (by rw [hbufs, update_self])
  unfold checkRarest
  simp only [hread, not_true_eq_false, if_false, hbuf]
  split
  case isTrue hnil =>
    exact checked_of_none hshift.toReads hshift.firstMatch
      (phraseCount_eq_zero hplan hslop (by simp [hnil]))
  case isFalse =>
    set last := if plan.lead = 0 then plan.termOrder.getLastD 0 else 0 with hlast
    obtain ⟨b, f, heq, hf, hfalse, htrue⟩ := filterStarts_spec hshift last
      (fun t ht => hplan.mem_tail.mp ht) (by rwa [hbuf])
    rw [hbuf] at hfalse htrue
    rw [heq]
    cases b with
    | false =>
      exact checked_of_none hf.toReads hf.firstMatch (phraseCount_eq_zero hplan hslop (hfalse rfl))
    | true =>
      obtain ⟨hstarts, hin, -⟩ := htrue rfl
      have hkept : (f.positionBufs plan.lead).Pairwise (· ≤ ·) := by
        rw [hstarts]
        exact hsorted.filter _
      have htail : plan.termOrder.tail ≠ [] := by
        have := hplan.order.length_eq
        rw [hplan.termOrder_eq, length_cons, length_range] at this
        exact ne_nil_of_length_pos (by omega)
      have hend : plan.termOrder.getLast? = plan.termOrder.tail.getLast? := by
        conv_lhs => rw [hplan.termOrder_eq]
        exact getLast?_cons_of_ne_nil htail
      by_cases h0 : plan.lead = 0
      · -- the first term is the rarest: its own starts were filtered
        have hmem : last ∈ plan.termOrder.tail := by
          rw [hlast, if_pos h0, getLastD_eq_getLast?, hend,
            getLast?_eq_some_getLast htail, Option.getD_some]
          exact getLast_mem htail
        obtain ⟨hlastn, hne⟩ := hplan.mem_tail.mp hmem
        rw [h0] at hne
        obtain ⟨l, hread', hl, hbufs'⟩ := hf.readTermPositions hlastn
        simp only [h0, true_or, if_true, hread', not_true_eq_false, if_false]
        rw [h0] at hstarts hkept
        have hbuf0 : l.positionBufs 0 = f.positionBufs 0 := by rw [hbufs', update_of_ne hne.symm]
        have hbufl : l.positionBufs last = ts last := by rw [hbufs', update_self]
        have henum : enumerated plan = (last, plan.deltas last) := by
          simp [enumerated, h2, h0, hlast]
        refine firstExact_spec hl hslop henum hbuf0 hbufl hkept (h.sorted hlastn) ?_
        rw [hstarts, anchorStarts, if_pos h0, countP_filter, phraseCount]
        refine countP_congr fun p hp => ?_
        rw [← others, startMatches_iff hplan hslop hp, Bool.and_eq_true, hasPartner, decide_eq_true_eq,
          decide_eq_true_eq]
        constructor
        · rintro ⟨-, hall⟩
          exact ⟨hall last hmem, fun t ht => hall t (filtered_subset ht)⟩
        · rintro ⟨hl, hall⟩
          refine ⟨by simpa [anchorStarts, h0] using hp, fun t ht => ?_⟩
          rcases eq_or_ne t last with rfl | hne'
          · exact hl
          · exact hall t (mem_filtered ht hne')
      · -- a rarer term gave the starts: enumerate the first term against them
        have hlast0 : last = 0 := by rw [hlast, if_neg h0]
        have hmem : 0 ∈ plan.termOrder.tail := hplan.mem_tail.mpr ⟨by omega, Ne.symm h0⟩
        have henum : enumerated plan = (plan.lead, 0) := by simp [enumerated, h2, h0]
        have hcount : phraseCount plan ts = (ts 0).countP (hasPartner (f.positionBufs plan.lead) 0) := by
          refine countP_congr fun p hp => ?_
          rw [← others, startMatches_iff hplan hslop hp, hasPartner, decide_eq_true_eq, hstarts, mem_filter,
            decide_eq_true_eq, Nat.add_zero]
          refine and_congr_right fun _ => ⟨fun hall t ht => hall t (filtered_subset ht), ?_⟩
          intro hall t ht
          rcases eq_or_ne t 0 with rfl | hne
          · rwa [hplan.delta_zero]
          · exact hall t (mem_filtered ht (hlast0 ▸ hne))
        have hzero := h.sorted (i := 0) (by omega)
        by_cases hcond : plan.termOrder.getLast? = some 0
        · obtain ⟨l, hread', hl, hbufs'⟩ := hf.readTermPositions (i := 0) (by omega)
          simp only [h0, hcond, or_true, if_true, hlast0, hread', not_true_eq_false, if_false]
          have hbuf0 : l.positionBufs 0 = ts 0 := by rw [hbufs', update_self]
          have hbufl : l.positionBufs plan.lead = f.positionBufs plan.lead := by
            rw [hbufs', update_of_ne h0]
          exact firstExact_spec hl hslop henum hbuf0 hbufl hzero hkept hcount
        · simp only [h0, hcond, or_self, if_false, not_true_eq_false]
          have hbuf0 : f.positionBufs 0 = ts 0 := by
            refine hin 0 ?_
            rw [hlast0]
            exact last_mem_filtered h0 hmem (hend ▸ hcond)
          exact firstExact_spec hf hslop henum hbuf0 rfl hzero hkept hcount

theorem checkExactPhrasePositions_spec :
    Checked plan streams its ts (c.checkExactPhrasePositions plan its) := by
  unfold checkExactPhrasePositions
  split
  case isTrue h1 => exact checkSingleton_spec h hts hslop h1.2
  case isFalse =>
    split
    case isTrue h2 => exact checkPair_spec h hts hslop h2
    case isFalse h2 => exact checkRarest_spec h hts hslop h2

end

/-! ## Slop -/

include h in
theorem readAll_spec (hl : ∀ t ∈ l, t < plan.numTerms) :
    ∃ c', readAll its l c = (true, c') ∧ Fresh plan.numTerms streams its ts c' ∧
      (∀ t ∈ l, c'.positionBufs t = ts t) ∧ ∀ t ∉ l, c'.positionBufs t = c.positionBufs t := by
  induction l generalizing c with
  | nil => exact ⟨c, rfl, h, by simp, fun _ _ => rfl⟩
  | cons t l ih =>
    obtain ⟨r, hread, hr, hbufs⟩ := h.readTermPositions (hl t mem_cons_self)
    obtain ⟨c', heq, hc, hin, hout⟩ := ih hr fun x hx => hl x (mem_cons_of_mem _ hx)
    refine ⟨c', ?_, hc, fun x hx => ?_, fun x hx => ?_⟩
    · simp only [readAll, hread, if_true, heq]
    · by_cases hxl : x ∈ l
      · exact hin x hxl
      · obtain rfl : x = t := by simpa [hxl] using hx
        rw [hout x hxl, hbufs, update_self]
    · rw [mem_cons, not_or] at hx
      rw [hout x hx.2, hbufs, update_of_ne hx.1]

theorem others_sorted (h : Reads plan.numTerms streams its c.positionLists ts) :
    ∀ o ∈ others plan ts, o.1.Pairwise (· ≤ ·) := by
  intro o ho
  obtain ⟨i, hi, rfl⟩ := mem_map.mp ho
  exact h.sorted (mem_otherTerms.mp hi).2

theorem behind_start (plan : PhrasePlan) (ts : Nat → List Nat) (slop s : Nat) :
    Behind slop s (others plan ts) ((otherTerms plan).map fun _ => 0) := by
  rw [Behind, others, forall₂_map_left_iff, forall₂_map_right_iff, forall₂_same]
  simp

/-- Writing the cursors of a scan back and reading them again. -/
theorem map_indices {indices : List Nat} (hlen : indices.length = (otherTerms plan).length) :
    (otherTerms plan).map (fun i => (indices[i - 1]?).getD 0) = indices := by
  refine ext_getElem (by simp [hlen]) fun k h1 h2 => ?_
  have hk : (otherTerms plan)[k] = k + 1 := by
    simp [otherTerms, tail_range]
    omega
  simp [hk, h2]

theorem scan_eq (hbufs : ∀ i < plan.numTerms, c.positionBufs i = ts i) (hn : 2 ≤ plan.numTerms)
    (maxMatches : Nat) : c.scan plan maxMatches = scanPhraseMatches (ts 0) (others plan ts) plan.slop
      ((otherTerms plan).map c.positionIndices) c.nextStart maxMatches := by
  have hothers : ((otherTerms plan).map fun i => (c.positionBufs i, plan.deltas i)) = others plan ts :=
    map_congr_left fun i hi => by rw [hbufs i (mem_otherTerms.mp hi).2]
  rw [scan, hothers, hbufs 0 (by omega)]

/-- A scan for the first match, and the scan that goes on from it. -/
theorem scan_resume (hsorted : ∀ o ∈ others plan ts, o.1.Pairwise (· ≤ ·))
    (h0 : (ts 0).Pairwise (· ≤ ·)) (hlen : (ts 0).length < 2 ^ 32) {r : Nat × List Nat × Nat}
    (hr : scanPhraseMatches (ts 0) (others plan ts) plan.slop ((otherTerms plan).map fun _ => 0) 0 1 = r) :
    (r.1 = 0 → phraseCount plan ts = 0) ∧ (r.1 ≠ 0 →
      (scanPhraseMatches (ts 0) (others plan ts) plan.slop
        ((otherTerms plan).map fun i => (r.2.1[i - 1]?).getD 0) r.2.2 u32Max).1 + 1 =
          phraseCount plan ts) := by
  have hrun : scanStarts plan.slop (others plan ts) 1 (ts 0) 0 ((otherTerms plan).map fun _ => 0) 0 = r := by
    rw [← hr]
    rfl
  obtain ⟨left, h1, h2, h3, h4, h5, h6⟩ := scanStarts_spec hsorted 0 h0 Nat.one_pos
    (fun s _ => behind_start plan ts plan.slop s) hrun
  have hcount : r.1 + left.countP (startMatches plan.slop (others plan ts)) = phraseCount plan ts := by
    rw [h4, Nat.zero_add]
    rfl
  refine ⟨fun hz => by have := h6 (by omega); omega, fun hnz => ?_⟩
  have hdrop : (ts 0).drop r.2.2 = left := by
    rw [suffix_iff_eq_drop.mp h2]
    congr 1
    omega
  rw [scanPhraseMatches, if_neg (by decide), hdrop]
  cases hl : left with
  | nil =>
    rw [hl, countP_nil] at hcount
    simp only [scanStarts]
    omega
  | cons s rest =>
    have hbehind := h3 s (by simp [hl])
    have hlength : r.2.1.length = (otherTerms plan).length := by
      rw [← hbehind.length_eq, others, length_map]
    rw [map_indices hlength, ← hl]
    obtain ⟨left', g1, g2, g3, g4, g5, g6⟩ := scanStarts_spec hsorted r.2.2
      (h0.sublist h2.sublist) (show 0 < u32Max by decide) h3 rfl
    -- there are not as many starts as the scan may count
    have hle : left.countP (startMatches plan.slop (others plan ts)) ≤ left.length := countP_le_length
    unfold u32Max at *
    omega

theorem checkPhrasePositions_spec (hts : PositionsOk plan ts)
    (h : Reads plan.numTerms streams its c.positionLists ts) :
    Checked plan streams its ts (c.checkPhrasePositions plan its) := by
  have hn := hts.planOk.two_le
  have hfresh : Fresh plan.numTerms streams its ts { c with firstMatch := false, frequency := none } :=
    ⟨h, rfl, rfl⟩
  unfold checkPhrasePositions
  split
  case isTrue hslop =>
    exact checkExactPhrasePositions_spec hfresh hts hslop
  case isFalse hslop =>
    obtain ⟨r, heq, hr, hin, -⟩ := readAll_spec hfresh
      (fun t ht => mem_range.mp ht : ∀ t ∈ range plan.numTerms, t < plan.numTerms)
    simp only [heq, not_true_eq_false, if_false]
    generalize r.positionBufs = bufs at hin ⊢
    have hbufs : ∀ i < plan.numTerms, bufs i = ts i := fun i hi => hin i (mem_range.mpr hi)
    rw [scan_eq hbufs hn 1]
    generalize hs : scanPhraseMatches (ts 0) (others plan ts) plan.slop
      ((otherTerms plan).map fun _ => 0) 0 1 = s
    obtain ⟨hzero, hsome⟩ := scan_resume (others_sorted h) (h.sorted (by omega)) hts.length_lt hs
    refine ⟨hr.toReads, ?_, rfl, fun hfound => ?_⟩
    · rw [Bool.eq_iff_iff, bne_iff_ne, decide_eq_true_eq]
      constructor
      · intro hne
        omega
      · intro hpos hz
        omega
    · rw [← hsome (bne_iff_ne.mp hfound), exactPhraseFrequency, if_neg (not_not.mpr hfound)]
      simp only [hr.frequency, hslop, if_false]
      rw [scan_eq hbufs hn u32Max]

end PhraseCheck

end Summa
