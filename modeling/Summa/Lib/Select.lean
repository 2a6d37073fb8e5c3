import Mathlib.Algebra.Ring.Nat
import Mathlib.Data.List.Basic

/-!
# Selecting the positions of a list

`select p l` keeps the items of `l` at the positions with `p`. The rules say how a selection
splits over an append (`select_append`), that it reads `p` only at positions of the list
(`select_congr`), and that a selection by position of a property of the item is a filter
(`select_and_not`). `shifted` joins position predicates for a concatenation, each shifted by the
lengths of the parts before it (`select_shifted`).
-/

namespace Summa

open List

variable {α β : Type}

/-- The items of `l` at the positions with `p`, in order. -/
def select : (Nat → Bool) → List α → List α
  | _, [] => []
  | p, a :: l => if p 0 then a :: select (fun i => p (i + 1)) l else select (fun i => p (i + 1)) l

variable {p : Nat → Bool} {l : List α} {i : Nat}

theorem select_congr {q : Nat → Bool} (h : ∀ i < l.length, p i = q i) : select p l = select q l := by
  induction l generalizing p q with
  | nil => rfl
  | cons a l ih =>
    rw [select, select, h 0 (by simp), ih fun i hi => h (i + 1) (by simpa using hi)]

theorem select_true (h : ∀ i < l.length, p i = true) : select p l = l := by
  induction l generalizing p with
  | nil => rfl
  | cons a l ih =>
    rw [select, h 0 (by simp), if_pos rfl, ih fun i hi => h (i + 1) (by simpa using hi)]

theorem select_append (p : Nat → Bool) (l l' : List α) :
    select p (l ++ l') = select p l ++ select (fun i => p (l.length + i)) l' := by
  induction l generalizing p with
  | nil => simp [select]
  | cons a l ih =>
    have hshift : (fun i => p (l.length + i + 1)) = fun i => p ((a :: l).length + i) := by
      funext i; congr 1; simp only [length_cons]; omega
    rw [cons_append, select, select, ih, hshift]
    split <;> rfl

/-- The item at a position of a list satisfies `f`; false past the end. -/
def holdsAt (f : α → Bool) (l : List α) (i : Nat) : Bool := (l[i]?).any f

theorem select_and_not (p : Nat → Bool) (f : α → Bool) (l : List α) :
    select (fun i => p i && !holdsAt f l i) l = (select p l).filter fun a => !f a := by
  induction l generalizing p with
  | nil => rfl
  | cons a l ih =>
    have h0 : holdsAt f (a :: l) 0 = f a := rfl
    have hs : ∀ i, holdsAt f (a :: l) (i + 1) = holdsAt f l i := fun i => rfl
    rw [select, select]
    simp only [h0, hs]
    rw [ih]
    cases p 0 <;> cases hf : f a <;> simp [hf]

theorem mem_select {a : α} : a ∈ select p l ↔ ∃ i, l[i]? = some a ∧ p i = true := by
  induction l generalizing p with
  | nil => simp [select]
  | cons b l ih =>
    rw [select, ← Nat.or_exists_add_one]
    cases p 0 with
    | true => simp [ih, eq_comm (a := a) (b := b)]
    | false => simp [ih]

theorem filter_select_eq_nil {f : α → Bool}
    (h : ∀ i a, l[i]? = some a → p i = true → f a = false) : (select p l).filter f = [] := by
  rw [filter_eq_nil_iff]
  intro a ha
  obtain ⟨i, hi, hp⟩ := mem_select.mp ha
  rw [h i a hi hp]
  exact Bool.false_ne_true

/-- Only position `i` is selected and passes the filter. -/
theorem filter_select_eq_singleton {f : α → Bool} {a : α}
    (hi : l[i]? = some a) (hp : p i = true) (hf : f a = true)
    (hu : ∀ j b, l[j]? = some b → p j = true → f b = true → j = i) : (select p l).filter f = [a] := by
  induction l generalizing p i with
  | nil => cases hi
  | cons b l ih =>
    cases i with
    | zero =>
      cases hi
      have hnil : (select (fun i => p (i + 1)) l).filter f = [] := by
        refine filter_select_eq_nil fun j b hj hpj => ?_
        by_contra hb
        exact absurd (hu (j + 1) b hj hpj (by simpa using hb)) (Nat.succ_ne_zero j)
      rw [select, if_pos hp, filter_cons_of_pos hf, hnil]
    | succ i =>
      have htail := ih (p := fun i => p (i + 1)) hi hp fun j b hj hpj hfj =>
        Nat.succ.inj (hu (j + 1) b hj hpj hfj)
      rw [select]
      split
      · rename_i h0
        rw [filter_cons_of_neg, htail]
        intro hb
        exact absurd (hu 0 b rfl h0 hb) (Nat.succ_ne_zero i).symm
      · exact htail

/-- The predicate of a concatenation: at the positions of a part it reads the part's predicate.
True past the end. -/
def shifted : List (Nat × (Nat → Bool)) → Nat → Bool
  | [], _ => true
  | part :: parts, i => if i < part.1 then part.2 i else shifted parts (i - part.1)

theorem shifted_append (parts parts' : List (Nat × (Nat → Bool))) (i : Nat) :
    shifted (parts ++ parts') i = if i < (parts.map Prod.fst).sum then shifted parts i
      else shifted parts' (i - (parts.map Prod.fst).sum) := by
  induction parts generalizing i with
  | nil => simp
  | cons part parts ih =>
    simp only [cons_append, shifted, map_cons, sum_cons]
    by_cases hi : i < part.1
    · rw [if_pos hi, if_pos hi, if_pos (by omega)]
    · rw [if_neg hi, if_neg hi, ih]
      by_cases hs : i < part.1 + (parts.map Prod.fst).sum
      · rw [if_pos hs, if_pos (by omega)]
      · rw [if_neg hs, if_neg (by omega), Nat.sub_sub]

theorem shifted_of_sum_le {parts : List (Nat × (Nat → Bool))}
    (h : (parts.map Prod.fst).sum ≤ i) : shifted parts i = true := by
  have := shifted_append parts [] i
  rw [append_nil, if_neg (by omega)] at this
  exact this

/-- A part is read at its positions, shifted by the lengths of the parts before it. -/
theorem shifted_at (pre : List (Nat × (Nat → Bool))) (part : Nat × (Nat → Bool))
    (post : List (Nat × (Nat → Bool))) (hi : i < part.1) :
    shifted (pre ++ part :: post) ((pre.map Prod.fst).sum + i) = part.2 i := by
  rw [shifted_append, if_neg (by omega), Nat.add_sub_cancel_left, shifted, if_pos hi]

/-- Selecting from a concatenation selects from each part. -/
theorem select_shifted {ι : Type} (l : List ι) (items : ι → List α) (p : ι → Nat → Bool) :
    select (shifted (l.map fun a => ((items a).length, p a))) (l.flatMap items) =
      l.flatMap fun a => select (p a) (items a) := by
  induction l with
  | nil => rfl
  | cons a l ih =>
    rw [flatMap_cons, flatMap_cons, select_append, ← ih]
    congr 1
    · exact select_congr fun i hi => by simp [shifted, hi]
    · refine select_congr fun i _ => ?_
      rw [map_cons, shifted, if_neg (by omega), Nat.add_sub_cancel_left]

end Summa
