import Mathlib.Data.List.Basic

/-!
# Binary search

`partitionPoint p low high` is the loop `while low < high` that halves the range and keeps the side the
predicate points to. If `p` is true up to some place and false from there on, the loop ends at that place
(`partitionPoint_spec`). `partitionPointM` is the loop with a predicate that may fail; `gallop` and
`doublingSearch` double their steps from the front before they halve.
-/

namespace Summa

open List

/-- The first place in `low..high` at which `p` is false, for a predicate that is true first. -/
def partitionPoint (p : Nat → Bool) (low high : Nat) : Nat :=
  if h : low < high then
    let mid := low + (high - low) / 2
    if p mid then partitionPoint p (mid + 1) high else partitionPoint p low mid
  else low
  termination_by high - low

/-- The predicate is true below `at_` and false from there on, as far as `bound`. -/
structure SplitsAt (p : Nat → Bool) (bound at_ : Nat) : Prop where
  le : at_ ≤ bound
  below : ∀ i < at_, p i = true
  above : ∀ i, at_ ≤ i → i < bound → p i = false

variable {p : Nat → Bool} {bound at_ low high : Nat}

theorem SplitsAt.unique {a b : Nat} (ha : SplitsAt p bound a) (hb : SplitsAt p bound b) : a = b := by
  rcases Nat.lt_trichotomy a b with h | h | h
  · have := ha.above a (Nat.le_refl _) (by have := hb.le; omega)
    rw [hb.below a h] at this
    cases this
  · exact h
  · have := hb.above b (Nat.le_refl _) (by have := ha.le; omega)
    rw [ha.below b h] at this
    cases this

theorem partitionPoint_eq (h : SplitsAt p bound at_)
    (hlow : low ≤ at_) (hhigh : at_ ≤ high) (hb : high ≤ bound) : partitionPoint p low high = at_ := by
  fun_induction partitionPoint p low high with
  | case1 low high hlt mid hp ih =>
    refine ih ?_ hhigh hb
    by_contra hgt
    have := h.above mid (by omega) (by omega)
    rw [this] at hp
    cases hp
  | case2 low high hlt mid hp ih =>
    refine ih hlow ?_ (by omega)
    by_contra hgt
    exact hp (h.below mid (by omega))
  | case3 low high hge => omega

theorem le_partitionPoint (p : Nat → Bool) : low ≤ partitionPoint p low high := by
  fun_induction partitionPoint p low high with
  | case1 low high hlt mid hp ih => omega
  | case2 low high hlt mid hp ih => exact ih
  | case3 low high hge => exact Nat.le_refl _

/-- The loop moves up only behind a place at which the predicate holds, whatever the predicate is. -/
theorem partitionPoint_pred (h : low < partitionPoint p low high) :
    p (partitionPoint p low high - 1) = true := by
  fun_induction partitionPoint p low high with
  | case1 low high hlt mid hp ih =>
    by_cases hend : mid + 1 < partitionPoint p (mid + 1) high
    · exact ih hend
    · have hle : mid + 1 ≤ partitionPoint p (mid + 1) high := le_partitionPoint p
      have heq : partitionPoint p (mid + 1) high - 1 = mid := by omega
      rw [heq]
      exact hp
  | case2 low high hlt mid hp ih => exact ih h
  | case3 low high hge => omega

/-- The search over the whole range. -/
theorem partitionPoint_spec (h : SplitsAt p bound at_) : partitionPoint p 0 bound = at_ :=
  partitionPoint_eq h (Nat.zero_le _) h.le (Nat.le_refl _)

/-- Steps of doubling length while the predicate holds, then halving behind the last of them. -/
def gallop (p : Nat → Bool) (bound low high : Nat) : Nat :=
  if high < bound ∧ p high then gallop p bound (high + 1) (high * 2 + 1)
  else partitionPoint p low (min (high + 1) bound)
  termination_by bound - high

theorem gallop_eq (h : SplitsAt p bound at_) (hlow : low ≤ at_) : gallop p bound low high = at_ := by
  fun_induction gallop p bound low high with
  | case1 low high hp ih =>
    refine ih (Nat.succ_le_of_lt ?_)
    by_contra hge
    have := h.above high (Nat.not_lt.mp hge) hp.1
    rw [hp.2] at this
    cases this
  | case2 low high hp =>
    refine partitionPoint_eq h hlow (Nat.le_min.mpr ⟨?_, h.le⟩) (Nat.min_le_right ..)
    by_contra hgt
    exact hp ⟨by have := h.le; omega, h.below high (by omega)⟩

/-- The place to look at doubles while the predicate holds there. -/
def doublingBound (p : Nat → Bool) (len bound : Nat) : Nat :=
  if 0 < bound ∧ bound < len ∧ p bound then doublingBound p len (bound * 2) else bound
  termination_by len - bound

/-- Halving between the last two places looked at. -/
def doublingSearch (p : Nat → Bool) (len : Nat) : Nat :=
  let bound := doublingBound p len 1
  partitionPoint p (bound / 2) (min (bound + 1) len)

theorem doublingSearch_eq (h : SplitsAt p bound at_) : doublingSearch p bound = at_ := by
  have hbound : ∀ step, 0 < step → step / 2 ≤ at_ →
      doublingBound p bound step / 2 ≤ at_ ∧ at_ ≤ doublingBound p bound step + 1 := by
    intro step hpos hle
    fun_induction doublingBound p bound step with
    | case1 step hstep ih =>
      refine ih (by omega) ?_
      rw [Nat.mul_div_cancel _ Nat.two_pos]
      by_contra hgt
      have hfalse := h.above step (by omega) hstep.2.1
      rw [hstep.2.2] at hfalse
      cases hfalse
    | case2 step hstep =>
      refine ⟨hle, ?_⟩
      by_contra hgt
      exact hstep ⟨hpos, by have := h.le; omega, h.below step (by omega)⟩
  obtain ⟨hlow, hhigh⟩ := hbound 1 Nat.one_pos (Nat.zero_le at_)
  exact partitionPoint_eq h hlow (Nat.le_min.mpr ⟨hhigh, h.le⟩) (Nat.min_le_right ..)

/-- The same loop with a predicate that may fail. -/
def partitionPointM {ε : Type} (p : Nat → Except ε Bool) (low high : Nat) : Except ε Nat :=
  if low < high then
    let mid := low + (high - low) / 2
    match p mid with
    | .error e => .error e
    | .ok true => partitionPointM p (mid + 1) high
    | .ok false => partitionPointM p low mid
  else .ok low
  termination_by high - low

theorem partitionPointM_eq_ok {ε : Type} {p : Nat → Except ε Bool} {q : Nat → Bool}
    (h : ∀ i < high, p i = .ok (q i)) : partitionPointM p low high = .ok (partitionPoint q low high) := by
  fun_induction partitionPoint q low high with
  | case1 low high hlt mid hq ih =>
    rw [partitionPointM, if_pos hlt]
    simp only [show p (low + (high - low) / 2) = .ok true from hq ▸ h mid (by omega)]
    exact ih h
  | case2 low high hlt mid hq ih =>
    have hfalse : p mid = .ok false := by
      rw [h mid (by omega)]
      exact congrArg _ (eq_false_of_ne_true hq)
    rw [partitionPointM, if_pos hlt]
    simp only [show p (low + (high - low) / 2) = .ok false from hfalse]
    exact ih fun i hi => h i (by omega)
  | case3 low high hge => rw [partitionPointM, if_neg hge]

/-- A scan from the front stops at the same place. -/
theorem SplitsAt.dropWhile_range (h : SplitsAt p bound at_) :
    (range bound).dropWhile p = range' at_ (bound - at_) := by
  have hsplit : range bound = range at_ ++ range' at_ (bound - at_) := by
    rw [range_eq_range', range_eq_range']
    have happend : range' 0 at_ ++ range' (0 + at_) (bound - at_) =
        range' 0 (at_ + (bound - at_)) := range'_append_1
    rw [Nat.zero_add, Nat.add_sub_cancel' h.le] at happend
    exact happend.symm
  rw [hsplit, dropWhile_append_of_pos fun i hi => h.below i (mem_range.mp hi)]
  cases hrest : range' at_ (bound - at_) with
  | nil => rfl
  | cons i rest =>
    have hi : i ∈ range' at_ (bound - at_) := by rw [hrest]; exact mem_cons_self
    rw [mem_range'_1] at hi
    have hfalse := h.above i hi.1 (by omega)
    exact dropWhile_cons_of_neg (by rw [hfalse]; exact Bool.false_ne_true)

/-- A list splits behind its beginning with the predicate, if the predicate stays false once it is false. -/
theorem splitsAt_takeWhile {α : Type} {q : α → Bool} {l : List α}
    (h : l.Pairwise fun a b => q b = true → q a = true) :
    SplitsAt (fun i => l[i]?.any q) l.length (l.takeWhile q).length := by
  induction l with
  | nil => exact ⟨Nat.le_refl _, nofun, nofun⟩
  | cons a l ih =>
    obtain ⟨ha, hl⟩ := pairwise_cons.mp h
    cases hq : q a with
    | true =>
      obtain ⟨hle, hbelow, habove⟩ := ih hl
      rw [takeWhile_cons_of_pos hq, length_cons, length_cons]
      refine ⟨Nat.succ_le_succ hle, fun i hi => ?_, fun i hi hlt => ?_⟩
      · cases i with
        | zero => exact hq
        | succ i => exact hbelow i (Nat.lt_of_succ_lt_succ hi)
      · cases i with
        | zero => exact absurd hi (Nat.not_succ_le_zero _)
        | succ i => exact habove i (Nat.le_of_succ_le_succ hi) (Nat.lt_of_succ_lt_succ hlt)
    | false =>
      rw [takeWhile_cons_of_neg (by rw [hq]; exact Bool.false_ne_true)]
      refine ⟨Nat.zero_le _, nofun, fun i _ hlt => ?_⟩
      cases i with
      | zero => exact hq
      | succ i =>
        have hi : i < l.length := Nat.lt_of_succ_lt_succ hlt
        show l[i]?.any q = false
        rw [getElem?_eq_getElem hi, Option.any_some]
        exact eq_false_of_ne_true fun hb => Bool.false_ne_true (hq ▸ ha _ (getElem_mem hi) hb)

/-- A predicate that stays false once it is false splits somewhere. -/
theorem exists_splitsAt
    (h : ∀ i j, i ≤ j → j < bound → p j = true → p i = true) : ∃ at_, SplitsAt p bound at_ := by
  induction bound with
  | zero => exact ⟨0, Nat.le_refl _, fun i hi => absurd hi (Nat.not_lt_zero _), fun i _ hi => absurd hi (Nat.not_lt_zero _)⟩
  | succ bound ih =>
    obtain ⟨a, hle, hbelow, habove⟩ := ih fun i j hij hj => h i j hij (by omega)
    cases hp : p bound with
    | true =>
      exact ⟨bound + 1, Nat.le_refl _, fun i hi => h i bound (by omega) (by omega) hp, fun i hi hb => by omega⟩
    | false =>
      refine ⟨a, by omega, hbelow, fun i hi hb => ?_⟩
      rcases Nat.lt_or_eq_of_le (Nat.lt_succ_iff.mp hb) with hlt | rfl
      · exact habove i hi hlt
      · exact hp

end Summa
