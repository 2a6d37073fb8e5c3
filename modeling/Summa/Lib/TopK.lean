import Mathlib.Data.List.Sort

/-!
# The greatest items of a stream

`offer k top a` offers `a` to the at most `k` greatest items seen so far, a heap read as its
descending list. Offering a whole stream leaves the first `k` items of its descending sort
(`foldl_offer_nil`), so the order of the stream does not matter; items below the least of a full
heap change nothing (`foldl_offer_of_lt`).
-/

namespace Summa.TopK

open List

variable {α : Type} [LinearOrder α]

/-- Push `a` while there is room, else let it replace the least item if it is greater. -/
def offer (k : Nat) (top : List α) (a : α) : List α :=
  if top.length < k then top.orderedInsert (· ≥ ·) a
  else if top.getLast?.any (a > ·) then top.dropLast.orderedInsert (· ≥ ·) a
  else top

variable {k : Nat} {top l l' : List α} {a : α}

theorem insertionSort_perm (h : l ~ l') : l.insertionSort (· ≥ ·) = l'.insertionSort (· ≥ ·) :=
  Perm.eq_of_pairwise' (pairwise_insertionSort ..) (pairwise_insertionSort ..)
    ((perm_insertionSort ..).trans (h.trans (perm_insertionSort ..).symm))

theorem take_orderedInsert (l : List α) (k : Nat) :
    (l.orderedInsert (· ≥ ·) a).take k = ((l.take k).orderedInsert (· ≥ ·) a).take k := by
  induction l generalizing k with
  | nil => simp
  | cons b l ih =>
    cases k with
    | zero => simp
    | succ k =>
      by_cases h : a ≥ b
      · cases k <;> simp [h, take_take]
      · simp [h, ih k]

theorem orderedInsert_eq {r : List α} (hl : l.Pairwise (· ≥ ·)) (hr : r.Pairwise (· ≥ ·))
    (hp : a :: l ~ r) : l.orderedInsert (· ≥ ·) a = r :=
  Perm.eq_of_pairwise' (hl.orderedInsert ..) hr ((perm_orderedInsert ..).trans hp)

/-- A heap step keeps the `k` greatest: both sides are descending lists of the same items. -/
theorem offer_eq_take (hs : top.Pairwise (· ≥ ·)) (hk : top.length ≤ k) (h0 : 0 < k) :
    offer k top a = (top.orderedInsert (· ≥ ·) a).take k := by
  rcases Nat.lt_or_eq_of_le hk with hlt | rfl
  · rw [offer, if_pos hlt, take_of_length_le (by rw [orderedInsert_length]; exact hlt)]
  · obtain ⟨init, m, rfl⟩ := (eq_nil_or_concat' top).resolve_left (ne_nil_of_length_pos h0)
    obtain ⟨hinit, -, hm⟩ := pairwise_append.mp hs
    rw [offer, if_neg (lt_irrefl _)]
    by_cases ha : a > m
    · -- the least item is last after the insertion too
      rw [orderedInsert_eq hs (r := init.orderedInsert (· ≥ ·) a ++ [m])]
      · simp [ha, orderedInsert_length]
      · refine pairwise_append.mpr ⟨hinit.orderedInsert .., by simp, fun b hb c hc => ?_⟩
        rcases (mem_orderedInsert _).mp hb with rfl | hb
        · rw [mem_singleton.mp hc]
          exact ha.le
        · exact hm b hb c hc
      · exact (perm_orderedInsert ..).symm.append_right [m]
    · rw [orderedInsert_eq hs (r := init ++ [m] ++ [a])]
      · rw [take_left' rfl]
        simp [ha]
      · refine pairwise_append.mpr ⟨hs, by simp, fun b hb c hc => ?_⟩
        rw [mem_singleton.mp hc]
        rcases mem_append.mp hb with hb | hb
        · exact (not_lt.mp ha).trans (hm b hb m (by simp))
        · rw [mem_singleton.mp hb]
          exact not_lt.mp ha
      · exact (perm_append_singleton ..).symm

theorem foldl_offer (h0 : 0 < k) (l seen : List α) :
    l.foldl (offer k) ((seen.insertionSort (· ≥ ·)).take k) =
      ((l ++ seen).insertionSort (· ≥ ·)).take k := by
  induction l generalizing seen with
  | nil => rfl
  | cons a l ih =>
    rw [foldl_cons, offer_eq_take ((pairwise_insertionSort ..).sublist (take_sublist ..))
      (by simp) h0, ← take_orderedInsert, ← insertionSort_cons, ih (a :: seen),
      insertionSort_perm perm_middle, cons_append]

theorem foldl_offer_nil (h0 : 0 < k) (l : List α) :
    l.foldl (offer k) [] = (l.insertionSort (· ≥ ·)).take k := by
  simpa using foldl_offer h0 l []

theorem foldl_offer_of_lt (hk : top.length = k) {m : α} (hm : top.getLast? = some m)
    (hl : ∀ a ∈ l, a < m) : l.foldl (offer k) top = top := by
  induction l with
  | nil => rfl
  | cons a l ih =>
    have ha : ¬ m < a := (hl a (by simp)).not_gt
    rw [foldl_cons, offer, if_neg (by omega), if_neg (by simp [hm, ha])]
    exact ih fun b hb => hl b (by simp [hb])

end Summa.TopK
