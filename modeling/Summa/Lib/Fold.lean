import Mathlib.Order.Lattice

/-!
# Folds over lists

Bounds of the folds that compute a maximum or a minimum, and folds whose steps change the entries of
different keys (`foldl_of_key`).
-/

namespace Summa

section

variable {α : Type*} [LinearOrder α] {l : List α} {a b r : α}

theorem foldl_max_le_iff : l.foldl max a ≤ b ↔ a ≤ b ∧ ∀ r ∈ l, r ≤ b := by
  induction l generalizing a with
  | nil => simp
  | cons x l ih => simp [ih, and_assoc]

theorem le_foldl_min_iff : b ≤ l.foldl min a ↔ b ≤ a ∧ ∀ r ∈ l, b ≤ r := by
  induction l generalizing a with
  | nil => simp
  | cons x l ih => simp [ih, and_assoc]

theorem le_foldl_max (h : r ∈ l) : r ≤ l.foldl max a := (foldl_max_le_iff.mp le_rfl).2 r h

theorem foldl_min_le (h : r ∈ l) : l.foldl min a ≤ r := (le_foldl_min_iff.mp le_rfl).2 r h

end

section

variable {σ κ β : Type*} {step : σ → κ → σ} {k : κ} {l : List κ} (get : σ → β)

theorem foldl_keep (h : ∀ j ∈ l, ∀ s, get (step s j) = get s) (s : σ) : get (l.foldl step s) = get s :=
  List.foldlRecOn (motive := fun t => get t = get s) l step rfl fun t ht j hj => (h j hj t).trans ht

/-- A fold that chooses one of two values ends with the first one or with one of the list. -/
theorem foldl_choice {op : β → β → β} (h : ∀ a b, op a b = a ∨ op a b = b) (l : List β) (a : β) :
    l.foldl op a = a ∨ l.foldl op a ∈ l := by
  refine List.foldlRecOn (motive := fun x => x = a ∨ x ∈ l) l op (.inl rfl) fun x hx y hy => ?_
  rcases h x y with hxy | hxy <;> rw [hxy]
  · exact hx
  · exact .inr hy

/-- A fold over different keys changes the entry of a key at most once. -/
theorem foldl_of_key (change : β → β) (hl : l.Nodup) (hself : ∀ s, get (step s k) = change (get s))
    (hother : ∀ j ∈ l, j ≠ k → ∀ s, get (step s j) = get s) (s : σ) [Decidable (k ∈ l)] :
    get (l.foldl step s) = if k ∈ l then change (get s) else get s := by
  split
  case isTrue hk =>
    obtain ⟨front, rest, rfl⟩ := List.append_of_mem hk
    have hne : ∀ j ∈ front ++ rest, j ≠ k := by
      rintro j hj rfl
      exact (List.nodup_cons.mp (List.perm_middle.nodup_iff.mp hl)).1 hj
    rw [List.foldl_append, List.foldl_cons, foldl_keep get fun j hj => ?_, hself, foldl_keep get fun j hj => ?_]
    · exact hother j (by simp [hj]) (hne j (by simp [hj]))
    · exact hother j (by simp [hj]) (hne j (by simp [hj]))
  case isFalse hk => exact foldl_keep get (fun j hj => hother j hj fun h => hk (h ▸ hj)) s

end

end Summa
