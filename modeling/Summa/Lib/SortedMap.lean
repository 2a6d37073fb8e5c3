import Mathlib.Order.Lattice

/-!
# Maps sorted by their keys

A map as the list of its entries in the order of the keys, with the operations that walk the order: the
last entry up to a key (`floor`) and the entries below a key from the last one on (`below`).
-/

namespace Summa

open List

structure SortedMap (κ ν : Type) [LinearOrder κ] where
  entries : List (κ × ν)
  sorted : (entries.map (·.1)).Pairwise (· < ·)

namespace SortedMap

variable {κ ν : Type} [LinearOrder κ]

def empty : SortedMap κ ν := ⟨[], .nil⟩

variable (self : SortedMap κ ν) (k : κ)

def find : Option ν := (self.entries.find? (·.1 = k)).map (·.2)

/-- Remove a key, if it is there. -/
def erase : SortedMap κ ν where
  entries := self.entries.filter (·.1 ≠ k)
  sorted := self.sorted.sublist (filter_sublist.map _)

/-- Add an entry, in the place of the one with its key. -/
def insert (v : ν) : SortedMap κ ν where
  entries := self.entries.filter (·.1 < k) ++ (k, v) :: self.entries.filter (k < ·.1)
  sorted := by
    have hsub (p : κ × ν → Bool) : ((self.entries.filter p).map (·.1)).Pairwise (· < ·) :=
      self.sorted.sublist (filter_sublist.map _)
    rw [map_append, map_cons, pairwise_append, pairwise_cons]
    refine ⟨hsub _, ⟨?_, hsub _⟩, ?_⟩
    · simp +contextual
    · intro a ha b hb
      have hak : a < k := by
        obtain ⟨e, he, rfl⟩ := mem_map.mp ha
        simpa using (mem_filter.mp he).2
      rcases mem_cons.mp hb with rfl | hb
      · exact hak
      · obtain ⟨e, he, rfl⟩ := mem_map.mp hb
        exact hak.trans (by simpa using (mem_filter.mp he).2)

/-- The last entry whose key is at most `k`. -/
def floor : Option (κ × ν) :=
  (self.entries.filter (·.1 ≤ k)).getLast?

/-- The entries whose key is below `k`, from the last one on. -/
def below : List (κ × ν) := (self.entries.filter (·.1 < k)).reverse

variable {self : SortedMap κ ν} {k : κ} {v : ν} {e : κ × ν}

@[simp] theorem mem_erase : e ∈ (self.erase k).entries ↔ e ∈ self.entries ∧ e.1 ≠ k := by
  simp [erase]

@[simp] theorem mem_insert : e ∈ (self.insert k v).entries ↔ e = (k, v) ∨ e ∈ self.entries ∧ e.1 ≠ k := by
  simp only [insert, mem_append, mem_cons, mem_filter, decide_eq_true_eq]
  constructor
  · rintro (⟨he, hlt⟩ | rfl | ⟨he, hlt⟩)
    · exact .inr ⟨he, hlt.ne⟩
    · exact .inl rfl
    · exact .inr ⟨he, hlt.ne'⟩
  · rintro (rfl | ⟨he, hne⟩)
    · exact .inr (.inl rfl)
    · rcases lt_or_gt_of_ne hne with hlt | hlt
      · exact .inl ⟨he, hlt⟩
      · exact .inr (.inr ⟨he, hlt⟩)

theorem mem_of_floor (h : self.floor k = some e) : e ∈ self.entries ∧ e.1 ≤ k := by
  simpa using mem_filter.mp (mem_of_getLast? h)

theorem mem_below : e ∈ self.below k ↔ e ∈ self.entries ∧ e.1 < k := by
  simp [below]

end SortedMap

end Summa
