import Mathlib.Data.List.TakeWhile
import Mathlib.Tactic.Linarith
import Summa.Lib.SortedList

/-!
# Position scans of phrases (`query/phrase.rs`)

The scans run over sorted position lists with one cursor in each list; a cursor never goes back, so a
scan can stop at a match and be resumed later.

* `nextExactPhraseMatch_spec`: the next start whose partner at an exact distance exists.
* `countExactPhraseMatches_eq`, `retainExactPhraseStarts_eq`: counting and keeping such starts, each
  with its multiplicity.
* `scanStarts_spec`: starts with a partner within `slop` in every other list.
-/

namespace Summa

open List

variable {starts positions : List Nat} {delta i j : Nat}

/-! ## Exact distances -/

/-- The next place of a start with a partner at distance `delta`, and the two cursors behind it. -/
def nextExactPhraseMatch (starts positions : List Nat) (delta nextStart positionIndex : Nat) :
    Option Nat × Nat × Nat :=
  if h : nextStart < starts.length ∧ positionIndex < positions.length then
    if starts[nextStart] + delta < positions[positionIndex] then
      nextExactPhraseMatch starts positions delta (nextStart + 1) positionIndex
    else if positions[positionIndex] < starts[nextStart] + delta then
      nextExactPhraseMatch starts positions delta nextStart (positionIndex + 1)
    else (some nextStart, nextStart + 1, positionIndex)
  else (none, nextStart, positionIndex)
termination_by (starts.length - nextStart) + (positions.length - positionIndex)
decreasing_by all_goals omega

/-- Whether a start has its partner. -/
def hasPartner (positions : List Nat) (delta start : Nat) : Bool := start + delta ∈ positions

/-- No position before cursor `j` is the partner of a start from `i` on. -/
def Resumed (starts positions : List Nat) (delta i j : Nat) : Prop :=
  ∀ s ∈ starts.drop i, s + delta ∈ positions → s + delta ∈ positions.drop j

theorem Resumed.start (starts positions : List Nat) (delta i : Nat) :
    Resumed starts positions delta i 0 := fun _ _ h => h

theorem nextExactPhraseMatch_lt {m i' j' : Nat}
    (h : nextExactPhraseMatch starts positions delta i j = (some m, i', j')) :
    i ≤ m ∧ m < starts.length ∧ i' = m + 1 := by
  fun_induction nextExactPhraseMatch starts positions delta i j with
  | case1 i j hin hlt ih =>
    obtain ⟨h1, h2⟩ := ih h
    exact ⟨by omega, h2⟩
  | case2 i j hin hge hlt ih => exact ih h
  | case3 i j hin hge hge' =>
    cases h
    exact ⟨le_rfl, hin.1, rfl⟩
  | case4 i j hout => cases h

theorem getElem_le_of_mem_drop {l : List Nat} {q : Nat} (hs : (l.drop i).Pairwise (· ≤ ·)) (hi : i < l.length)
    (hq : q ∈ l.drop i) : l[i] ≤ q := by
  rw [drop_eq_getElem_cons hi] at hs hq
  rcases mem_cons.mp hq with rfl | hq
  · exact le_rfl
  · exact (pairwise_cons.mp hs).1 q hq

variable (hs : (starts.drop i).Pairwise (· ≤ ·)) (hp : positions.Pairwise (· ≤ ·))
  (h : Resumed starts positions delta i j)

include hs hp h in
/-- The next match is the first start with a partner, and the cursors can be used to go on. -/
theorem nextExactPhraseMatch_spec :
    match nextExactPhraseMatch starts positions delta i j with
    | (none, _, _) => (starts.drop i).filter (hasPartner positions delta) = []
    | (some m, i', j') => (∃ s, starts[m]? = some s ∧
        (starts.drop i).filter (hasPartner positions delta) =
          s :: (starts.drop i').filter (hasPartner positions delta)) ∧
        Resumed starts positions delta i' j' := by
  fun_induction nextExactPhraseMatch starts positions delta i j with
  | case1 i j hin hlt ih =>
    have hdrop := drop_eq_getElem_cons hin.1
    -- the partner of this start would lie before the cursor
    have hno : hasPartner positions delta starts[i] = false := by
      rw [hasPartner, decide_eq_false_iff_not]
      intro hmem
      have := getElem_le_of_mem_drop hp.drop hin.2 (h _ (by rw [hdrop]; exact mem_cons_self) hmem)
      omega
    rw [hdrop] at hs
    have hfilter : (starts.drop i).filter (hasPartner positions delta) =
        (starts.drop (i + 1)).filter (hasPartner positions delta) := by
      rw [hdrop, filter_cons_of_neg (by simp [hno])]
    rw [hfilter]
    exact ih (pairwise_cons.mp hs).2
      fun s hs' => h s (by rw [hdrop]; exact mem_cons_of_mem _ hs')
  | case2 i j hin hge hlt ih =>
    refine ih hs fun s hs' hmem => ?_
    have hmem' := h s hs' hmem
    have hle := getElem_le_of_mem_drop hs hin.1 hs'
    rw [drop_eq_getElem_cons hin.2] at hmem'
    rcases mem_cons.mp hmem' with heq | hmem'
    · omega
    · exact hmem'
  | case3 i j hin hge hge' =>
    have hdrop := drop_eq_getElem_cons hin.1
    have heq : starts[i] + delta = positions[j] := by omega
    have hyes : hasPartner positions delta starts[i] = true := by
      rw [hasPartner, decide_eq_true_eq, heq]
      exact getElem_mem hin.2
    refine ⟨⟨starts[i], getElem?_eq_getElem hin.1, ?_⟩, fun s hs' hmem => ?_⟩
    · rw [hdrop, filter_cons_of_pos hyes]
    · exact h s (by rw [hdrop]; exact mem_cons_of_mem _ hs') hmem
  | case4 i j hout =>
    rw [filter_eq_nil_iff]
    intro s hs' hmem
    have hmem' := h s hs' (by simpa [hasPartner] using hmem)
    have h1 := length_pos_of_mem hs'
    have h2 := length_pos_of_mem hmem'
    rw [length_drop] at h1 h2
    omega

/-- The loop of `exact_phrase_frequency` over the remaining matches. -/
def countExactPhraseMatches (starts positions : List Nat) (delta nextStart positionIndex : Nat) : Nat :=
  match h : nextExactPhraseMatch starts positions delta nextStart positionIndex with
  | (some _, nextStart', positionIndex') =>
    countExactPhraseMatches starts positions delta nextStart' positionIndex' + 1
  | (none, _, _) => 0
termination_by starts.length - nextStart
decreasing_by
  obtain ⟨h1, h2, h3⟩ := nextExactPhraseMatch_lt h
  omega

include hs hp h in
theorem countExactPhraseMatches_eq :
    countExactPhraseMatches starts positions delta i j =
      (starts.drop i).countP (hasPartner positions delta) := by
  fun_induction countExactPhraseMatches starts positions delta i j with
  | case1 i j m _ j' hnext ih =>
    have hspec := nextExactPhraseMatch_spec hs hp h
    obtain ⟨h1, h2, rfl⟩ := nextExactPhraseMatch_lt hnext
    rw [hnext] at hspec
    obtain ⟨⟨s, -, hfilter⟩, hres⟩ := hspec
    have hsub := drop_sublist_drop_left starts (show i ≤ m + 1 by omega)
    rw [ih (hs.sublist hsub) hres, countP_eq_length_filter, countP_eq_length_filter, hfilter,
      length_cons]
  | case2 i j i' j' hnext =>
    have hspec := nextExactPhraseMatch_spec hs hp h
    rw [hnext] at hspec
    rw [countP_eq_length_filter, hspec, length_nil]

/-- The loop of `retain_exact_phrase_starts`; it writes behind the starts it has still to read. -/
def retainFrom (starts positions : List Nat) (delta nextStart positionIndex retained : Nat) : List Nat :=
  match h : nextExactPhraseMatch starts positions delta nextStart positionIndex with
  | (some matched, nextStart', positionIndex') =>
    retainFrom (starts.set retained (starts[matched]?.getD 0)) positions delta nextStart'
      positionIndex' (retained + 1)
  | (none, _, _) => starts.take retained
termination_by starts.length - nextStart
decreasing_by
  obtain ⟨h1, h2, h3⟩ := nextExactPhraseMatch_lt h
  rw [length_set]
  omega

def retainExactPhraseStarts (starts positions : List Nat) (delta : Nat) : List Nat :=
  retainFrom starts positions delta 0 0 0

include hs hp h in
theorem retainFrom_eq {retained : Nat} (hle : retained ≤ i) :
    retainFrom starts positions delta i j retained =
      starts.take retained ++ (starts.drop i).filter (hasPartner positions delta) := by
  fun_induction retainFrom starts positions delta i j retained with
  | case1 starts i j retained m _ j' hnext ih =>
    have hspec := nextExactPhraseMatch_spec hs hp h
    obtain ⟨h1, h2, rfl⟩ := nextExactPhraseMatch_lt hnext
    rw [hnext] at hspec
    obtain ⟨⟨s, hm, hfilter⟩, hres⟩ := hspec
    have hsub := drop_sublist_drop_left starts (show i ≤ m + 1 by omega)
    -- the write is behind the cursor
    have hdrop : (starts.set retained (starts[m]?.getD 0)).drop (m + 1) = starts.drop (m + 1) :=
      drop_set_of_lt (by omega)
    rw [ih (by rw [hdrop]; exact hs.sublist hsub) (by unfold Resumed; rw [hdrop]; exact hres)
      (by omega), hdrop, hfilter, hm, Option.getD_some]
    have htake : (starts.set retained s).take (retained + 1) = starts.take retained ++ [s] := by
      rw [take_succ_eq_append_getElem (by rw [length_set]; omega), getElem_set_self,
        take_set_of_le (le_refl retained)]
    rw [htake, append_assoc, singleton_append]
  | case2 starts i j retained i' j' hnext =>
    have hspec := nextExactPhraseMatch_spec hs hp h
    rw [hnext] at hspec
    rw [hspec, append_nil]

include hp in
theorem retainExactPhraseStarts_eq (hs : starts.Pairwise (· ≤ ·)) :
    retainExactPhraseStarts starts positions delta = starts.filter (hasPartner positions delta) := by
  rw [retainExactPhraseStarts, retainFrom_eq (by simpa using hs) hp (.start _ _ _ _) le_rfl]
  simp

/-! ## Distances up to a slop -/

/-- Whether `position` lies in the interval around `expected`. -/
def inWindow (slop expected position : Nat) : Bool :=
  expected - slop ≤ position ∧ position ≤ expected + slop

/-- Whether a start has a partner in every other list; the lists come with their distances. -/
def startMatches (slop : Nat) (others : List (List Nat × Nat)) (start : Nat) : Bool :=
  others.all fun o => o.1.any (inWindow slop (start + o.2))

/-- One start of `scan_phrase_matches`: whether it matches, or nothing when a list is finished. -/
def alignTerms (slop start : Nat) : List (List Nat × Nat) → List Nat → Option Bool × List Nat
  | (buf, delta) :: others, index :: indices =>
    let expected := start + delta
    let index := index + ((buf.drop index).takeWhile (· < expected - slop)).length
    match buf[index]? with
    | none => (none, index :: indices)
    | some position =>
      if expected + slop < position then (some false, index :: indices)
      else
        let r := alignTerms slop start others indices
        (r.1, index :: r.2)
  | _, indices => (some true, indices)

/-- The loop of `scan_phrase_matches` over the starts that are left. -/
def scanStarts (slop : Nat) (others : List (List Nat × Nat)) (maxMatches : Nat) :
    List Nat → Nat → List Nat → Nat → Nat × List Nat × Nat
  | [], matched, indices, nextStart => (matched, indices, nextStart)
  | start :: starts, matched, indices, nextStart =>
    match alignTerms slop start others indices with
    | (none, indices) => (matched, indices, nextStart + 1)
    | (some false, indices) => scanStarts slop others maxMatches starts matched indices (nextStart + 1)
    | (some true, indices) =>
      if matched + 1 = maxMatches then (matched + 1, indices, nextStart + 1)
      else scanStarts slop others maxMatches starts (matched + 1) indices (nextStart + 1)

def scanPhraseMatches (first : List Nat) (others : List (List Nat × Nat)) (slop : Nat)
    (indices : List Nat) (nextStart maxMatches : Nat) : Nat × List Nat × Nat :=
  if maxMatches = 0 then (0, indices, nextStart)
  else scanStarts slop others maxMatches (first.drop nextStart) 0 indices nextStart

/-- What the cursors have passed lies below the interval of `start`. -/
def Behind (slop start : Nat) (others : List (List Nat × Nat)) (indices : List Nat) : Prop :=
  List.Forall₂ (fun o index => ∀ q ∈ o.1.take index, q < start + o.2 - slop) others indices

variable {slop : Nat} {others : List (List Nat × Nat)} {indices : List Nat}

theorem Behind.mono {start start' : Nat}
    (h : Behind slop start others indices) (hle : start ≤ start') : Behind slop start' others indices :=
  List.Forall₂.imp (fun _ _ ho q hq => (ho q hq).trans_le (by omega)) h

theorem alignTerms_spec {start : Nat}
    (hs : ∀ o ∈ others, o.1.Pairwise (· ≤ ·)) (h : Behind slop start others indices) :
    Behind slop start others (alignTerms slop start others indices).2 ∧
      match (alignTerms slop start others indices).1 with
      | some b => startMatches slop others start = b
      | none => ∀ s, start ≤ s → startMatches slop others s = false := by
  induction h with
  | nil => exact ⟨.nil, by simp [alignTerms, startMatches]⟩
  | @cons o index others indices ho htail ih =>
    obtain ⟨buf, delta⟩ := o
    obtain ⟨ih1, ih2⟩ := ih fun o ho => hs o (mem_cons_of_mem _ ho)
    have hbuf : buf.Pairwise (· ≤ ·) := hs (buf, delta) mem_cons_self
    set index' := index + ((buf.drop index).takeWhile (· < start + delta - slop)).length with hindex
    -- all that the cursor passes now lies below the interval too
    have hpassed : ∀ q ∈ buf.take index', q < start + delta - slop := by
      intro q hq
      rw [hindex, take_add] at hq
      rcases mem_append.mp hq with hq | hq
      · exact ho q hq
      · have hpre := prefix_iff_eq_take.mp
          ( takeWhile_prefix (l := buf.drop index) (· < start + delta - slop))
        rw [← hpre] at hq
        simpa using mem_takeWhile_imp hq
    have hunder : ∀ q ∈ buf.take index', ∀ s, start ≤ s → inWindow slop (s + delta) q = false := by
      intro q hq s hle
      have := hpassed q hq
      simp only [inWindow, decide_eq_false_iff_not]
      omega
    unfold alignTerms
    simp only [← hindex]
    cases hpos : buf[index']? with
    | none =>
      refine ⟨.cons hpassed htail, fun s hle => ?_⟩
      have hall : buf.take index' = buf := take_of_length_le (getElem?_eq_none_iff.mp hpos)
      rw [hall] at hunder
      simp only [startMatches, all_cons, Bool.and_eq_false_iff]
      exact .inl (any_eq_false.mpr fun q hq => by simp [hunder q hq s hle])
    | some position =>
      obtain ⟨hlt, heq⟩ := List.getElem?_eq_some_iff.mp hpos
      have hlow : start + delta - slop ≤ position := by
        have hdrop : buf.drop index' = (buf.drop index).dropWhile (· < start + delta - slop) := by
          rw [hindex, ← drop_drop, drop_length_takeWhile]
        have hhead := head?_dropWhile_not (· < start + delta - slop) (buf.drop index)
        rw [← hdrop, head?_drop, hpos] at hhead
        simpa using hhead
      have hrest : ∀ q ∈ buf.drop index', position ≤ q :=
        fun q hq => heq ▸ getElem_le_of_mem_drop hbuf.drop hlt hq
      simp only []
      split
      case isTrue hhigh =>
        refine ⟨.cons hpassed htail, ?_⟩
        simp only [startMatches, all_cons, Bool.and_eq_false_iff]
        refine .inl (any_eq_false.mpr fun q hq => ?_)
        rw [← take_append_drop index' buf] at hq
        rcases mem_append.mp hq with hq | hq
        · simp [hunder q hq start le_rfl]
        · have := hrest q hq
          simp only [inWindow, decide_eq_true_eq]
          omega
      case isFalse hhigh =>
        refine ⟨.cons hpassed ih1, ?_⟩
        have hany : buf.any (inWindow slop (start + delta)) = true := by
          rw [any_eq_true]
          exact ⟨position, mem_of_getElem? hpos, by simp only [inWindow, decide_eq_true_eq]; omega⟩
        cases hr : (alignTerms slop start others indices).1 with
        | none =>
          rw [hr] at ih2
          intro s hle
          simp only [startMatches, all_cons, Bool.and_eq_false_iff]
          exact .inr (ih2 s hle)
        | some b =>
          rw [hr] at ih2
          simp only [startMatches, all_cons, hany, Bool.true_and]
          exact ih2

/-- A scan counts the starts that match, up to `maxMatches`, and leaves the others to the next one. -/
theorem scanStarts_spec {maxMatches : Nat}
    (hs : ∀ o ∈ others, o.1.Pairwise (· ≤ ·)) {l : List Nat} {matched : Nat}
    (nextStart : Nat) (hl : l.Pairwise (· ≤ ·)) (hmax : matched < maxMatches)
    (h : ∀ s ∈ l, Behind slop s others indices) {r : Nat × List Nat × Nat}
    (hr : scanStarts slop others maxMatches l matched indices nextStart = r) :
    ∃ left, r.2.2 + left.length = nextStart + l.length ∧ left <:+ l ∧
      (∀ s ∈ left, Behind slop s others r.2.1) ∧
      r.1 + left.countP (startMatches slop others) = matched + l.countP (startMatches slop others) ∧
      r.1 ≤ maxMatches ∧ (r.1 < maxMatches → left.countP (startMatches slop others) = 0) := by
  subst hr
  induction l generalizing matched nextStart indices with
  | nil => exact ⟨[], by simp [scanStarts], suffix_rfl, by simp, rfl, hmax.le, fun _ => rfl⟩
  | cons start l ih =>
    obtain ⟨hle, hl'⟩ := pairwise_cons.mp hl
    obtain ⟨hbehind, hres⟩ := alignTerms_spec hs (h start mem_cons_self)
    have hlater : ∀ s ∈ l, Behind slop s others (alignTerms slop start others indices).2 :=
      fun s hs' => hbehind.mono (hle s hs')
    unfold scanStarts
    split
    case h_1 indices' halign =>
      rw [halign] at hlater hres
      have hnone : l.countP (startMatches slop others) = 0 := by
        rw [countP_eq_zero]
        intro s hs'
        simp [hres s (hle s hs')]
      refine ⟨l, by simp; omega, suffix_cons .., hlater, ?_, hmax.le, fun _ => hnone⟩
      rw [countP_cons_of_neg (by simp [hres start le_rfl])]
    case h_2 indices' halign =>
      rw [halign] at hlater hres
      obtain ⟨left, h1, h2, h3, h4, h5, h6⟩ := ih (nextStart + 1) hl' hmax hlater
      refine ⟨left, by rw [h1, length_cons]; omega, h2.trans (suffix_cons ..), h3, ?_, h5, h6⟩
      rw [h4, countP_cons_of_neg (by simp [show startMatches slop others start = false from hres])]
    case h_3 indices' halign =>
      rw [halign] at hlater hres
      have hcount : (start :: l).countP (startMatches slop others) =
          l.countP (startMatches slop others) + 1 := countP_cons_of_pos hres
      split
      case isTrue heq =>
        exact ⟨l, by simp; omega, suffix_cons .., hlater, by rw [hcount]; simp; omega, heq.le,
          fun hlt => absurd heq (by omega)⟩
      case isFalse hne =>
        obtain ⟨left, h1, h2, h3, h4, h5, h6⟩ := ih (nextStart + 1) hl'
          (show matched + 1 < maxMatches by omega) hlater
        refine ⟨left, by rw [h1, length_cons]; omega, h2.trans (suffix_cons ..), h3, ?_, h5, h6⟩
        rw [h4, hcount]
        omega

end Summa
