import Mathlib.Data.Prod.Lex
import Summa.Lib.BinarySearch
import Summa.Lib.SortedList

/-!
# Logical units (`segment/logical_address.rs`)

A logical unit is a document with the ordinal of one of its values. Maps that are sorted by unit are
searched by halving; a slot without a unit counts as the last unit before it.
-/

namespace Summa

structure LogicalUnit where
  doc : Nat
  ordinal : Nat
  deriving DecidableEq, Repr

namespace LogicalUnit

/-- By document, then by ordinal. -/
instance : LinearOrder LogicalUnit :=
  LinearOrder.lift' (fun u => toLex (u.doc, u.ordinal)) fun a b h => by
    obtain ⟨da, oa⟩ := a
    obtain ⟨db, ob⟩ := b
    simpa using h

theorem lt_iff {a b : LogicalUnit} : a < b ↔ a.doc < b.doc ∨ a.doc = b.doc ∧ a.ordinal < b.ordinal :=
  Prod.Lex.lt_iff

/-- The unit with its document moved. -/
def shift (offset : Nat) (u : LogicalUnit) : LogicalUnit := { u with doc := u.doc + offset }

theorem shift_lt_shift {a b : LogicalUnit} (offset : Nat) : a.shift offset < b.shift offset ↔ a < b := by
  simp only [lt_iff, shift]
  omega

end LogicalUnit

/-- `previous` is below the first unit and the units rise. -/
def logicallyOrderedFrom : Option LogicalUnit → List LogicalUnit → Bool
  | _, [] => true
  | previous, u :: units =>
    if previous.any (fun p => u ≤ p) then false else logicallyOrderedFrom (some u) units

/-- Whether the units rise, slots without a unit ignored. -/
def logicallyOrdered (units : List (Option LogicalUnit)) : Bool :=
  logicallyOrderedFrom none (units.filterMap id)

/-- The unit at `slot`, or the last one before it. -/
def priorUnit (resolve : Nat → Option LogicalUnit) : Nat → Option LogicalUnit
  | 0 => resolve 0
  | slot + 1 =>
    match resolve (slot + 1) with
    | some u => some u
    | none => priorUnit resolve slot

def orderedLowerBound (physicalSlots : Nat) (target : LogicalUnit) (resolve : Nat → Option LogicalUnit) :
    Nat :=
  partitionPoint (fun mid => (priorUnit resolve mid).all (· < target)) 0 physicalSlots

/-- The places `low..high`. -/
def places (low high : Nat) : List Nat := List.range' low (high - low)

/-- The ordinals of a document with their slots. -/
def orderedDocumentSlots (physicalSlots doc : Nat) (resolve : Nat → Option LogicalUnit) :
    List (Nat × Nat) :=
  let low := orderedLowerBound physicalSlots ⟨doc, 0⟩ resolve
  (((places low physicalSlots).filterMap fun slot => (resolve slot).map (·, slot)).takeWhile
    fun entry => entry.1.doc == doc).map fun entry => (entry.1.ordinal, entry.2)

/-- The slot of a unit. -/
def orderedSlotForUnit (physicalSlots : Nat) (target : LogicalUnit) (resolve : Nat → Option LogicalUnit) :
    Option Nat :=
  let low := orderedLowerBound physicalSlots target resolve
  ((places low physicalSlots).findSome? fun slot => (resolve slot).map (·, slot)).bind fun entry =>
    if entry.1 = target then some entry.2 else none

/-! ## A sorted map without gaps -/

section

variable {units : List LogicalUnit}

theorem logicallyOrderedFrom_iff (previous : Option LogicalUnit) :
    logicallyOrderedFrom previous units = true ↔
      (∀ p ∈ previous, ∀ u ∈ units, p < u) ∧ units.Pairwise (· < ·) := by
  induction units generalizing previous with
  | nil => simp [logicallyOrderedFrom]
  | cons u units ih =>
    rw [logicallyOrderedFrom, List.pairwise_cons]
    cases previous with
    | none => simp [ih]
    | some p =>
      by_cases h : u ≤ p
      · simp [h, h.not_gt]
      · have hpu := not_le.mp h
        have hkeep : (∀ v ∈ units, u < v) → ∀ v ∈ units, p < v := fun hlater v hv => hpu.trans (hlater v hv)
        simp [h, ih, hpu]
        tauto

theorem logicallyOrdered_iff : logicallyOrdered (units.map some) = true ↔ units.Pairwise (· < ·) := by
  have hmap : (units.map some).filterMap id = units := by
    rw [List.filterMap_map]
    exact List.filterMap_some
  rw [logicallyOrdered, hmap, logicallyOrderedFrom_iff]
  simp

variable {resolve : Nat → Option LogicalUnit}

section

variable (hres : ∀ i (h : i < units.length), resolve i = some units[i]) (hs : units.Pairwise (· < ·))

include hres

theorem priorUnit_eq {i : Nat} (h : i < units.length) : priorUnit resolve i = some units[i] := by
  cases i with
  | zero => exact hres 0 h
  | succ i => rw [priorUnit, hres _ h]

/-- The places of a sorted map with their units. -/
theorem filterMap_resolve :
    (List.range units.length).filterMap (fun slot => (resolve slot).map (·, slot)) = units.zipIdx := by
  have hmap : (List.range units.length).filterMap (fun slot => (resolve slot).map (·, slot)) =
      (List.range units.length).map fun slot => ((resolve slot).getD ⟨0, 0⟩, slot) := by
    rw [← List.filterMap_eq_map]
    apply List.filterMap_congr
    intro slot hslot
    simp only [Function.comp_apply, hres slot (List.mem_range.mp hslot)]
    rfl
  rw [hmap]
  apply List.ext_getElem
  · simp
  · intro i h₁ h₂
    have hi : i < units.length := by simpa using h₁
    simp [hres i hi]

theorem all_priorUnit_lt {i : Nat} (h : i < units.length) (target : LogicalUnit) :
    (priorUnit resolve i).all (· < target) = decide (units[i] < target) := by
  rw [priorUnit_eq hres h, Option.all_some]

include hs

/-- The search for a unit stops where the units reach it. -/
theorem splitsAt_lowerBound (target : LogicalUnit) :
    SplitsAt (fun mid => (priorUnit resolve mid).all (· < target)) units.length
      (orderedLowerBound units.length target resolve) := by
  have hmono : ∀ i j, i ≤ j → j < units.length → (priorUnit resolve j).all (· < target) = true →
      (priorUnit resolve i).all (· < target) = true := by
    intro i j hij hj hp
    rw [all_priorUnit_lt hres hj, decide_eq_true_iff] at hp
    rw [all_priorUnit_lt hres (by omega), decide_eq_true_iff]
    exact (getElem_le_getElem hs hij hj).trans_lt hp
  obtain ⟨a, ha⟩ := exists_splitsAt hmono
  rw [orderedLowerBound, partitionPoint_spec ha]
  exact ha

theorem orderedSlotForUnit_eq {i : Nat} (h : i < units.length) :
    orderedSlotForUnit units.length units[i] resolve = some i := by
  have hsplit := splitsAt_lowerBound hres hs units[i]
  have hat : SplitsAt (fun mid => (priorUnit resolve mid).all (· < units[i])) units.length i := by
    refine ⟨h.le, fun j hj => ?_, fun j hj hjb => ?_⟩
    · rw [all_priorUnit_lt hres (hj.trans h), decide_eq_true_iff]
      exact List.pairwise_iff_getElem.mp hs j i (hj.trans h) h hj
    · rw [all_priorUnit_lt hres hjb, decide_eq_false_iff_not, not_lt]
      exact getElem_le_getElem hs hj hjb
  obtain ⟨n, hn⟩ : ∃ n, units.length - i = n + 1 := ⟨units.length - i - 1, by omega⟩
  rw [orderedSlotForUnit, hsplit.unique hat]
  simp only [places, hn, List.range'_succ, List.findSome?_cons, hres i h, Option.map_some,
    Option.bind_some, ↓reduceIte]

theorem orderedDocumentSlots_eq (doc : Nat) :
    orderedDocumentSlots units.length doc resolve =
      (units.zipIdx.filter fun entry => entry.1.doc = doc).map fun entry => (entry.1.ordinal, entry.2) := by
  have hsplit := splitsAt_lowerBound hres hs ⟨doc, 0⟩
  -- a unit is below the first one of the document exactly when its document is
  have hbelow : ∀ slot < units.length, ((resolve slot).map (·, slot)).all (fun entry => entry.1.doc < doc) =
      (priorUnit resolve slot).all (· < ⟨doc, 0⟩) := by
    intro slot hslot
    rw [all_priorUnit_lt hres hslot, hres slot hslot, Option.map_some, Option.all_some, decide_eq_decide,
      LogicalUnit.lt_iff]
    simp
  have hdrop : ((places (orderedLowerBound units.length ⟨doc, 0⟩ resolve) units.length).filterMap
      fun slot => (resolve slot).map (·, slot)) = units.zipIdx.dropWhile fun entry => entry.1.doc < doc := by
    have hsplit' : SplitsAt _ _ _ := ⟨hsplit.le, fun j hj => (hbelow j (hj.trans_le hsplit.le)).trans (hsplit.below j hj),
      fun j hj hjb => (hbelow j hjb).trans (hsplit.above j hj hjb)⟩
    rw [places, ← hsplit'.dropWhile_range, ← filterMap_resolve hres, List.dropWhile_filterMap]
  have hsorted : units.zipIdx.Pairwise fun a b => a.1.doc ≤ b.1.doc := by
    have hkeys : (units.zipIdx.map Prod.fst).Pairwise fun a b => a.doc ≤ b.doc := by
      rw [List.zipIdx_map_fst]
      refine hs.imp fun hlt => ?_
      rcases LogicalUnit.lt_iff.mp hlt with h | h
      · exact h.le
      · exact h.1.le
    rwa [List.pairwise_map] at hkeys
  rw [orderedDocumentSlots, hdrop]
  congr 1
  have := takeWhile_dropWhile_key doc hsorted
  simpa [beq_eq_decide] using this

end

end

end Summa
