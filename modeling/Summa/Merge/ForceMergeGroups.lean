import Mathlib.Data.List.MinMax
import Mathlib.Data.List.Sort
import Mathlib.Data.Prod.Lex
import Mathlib.Algebra.BigOperators.Group.List.Basic
import Mathlib.Algebra.Ring.Nat

/-!
# Groups of a forced merge (`merge/segment_manager.rs`)

`planForceMergeGroups` packs segments best fit, largest first. The groups partition the segments, a group of
several segments stays within the limit, and no two groups fit together (`planForceMergeGroups_packed`).
-/

namespace Summa

open List

/-- The documents of segments, which come with their identities. -/
def docsOf (segments : List (String × Nat)) : Nat := (segments.map (·.2)).sum

structure ForceMergeGroup where
  segments : List (String × Nat)
  totalDocs : Nat
  total_eq : totalDocs = docsOf segments
  ne_nil : segments ≠ []

namespace ForceMergeGroup

def single (segment : String × Nat) : ForceMergeGroup := ⟨[segment], segment.2, by simp [docsOf], by simp⟩

def push (self : ForceMergeGroup) (segment : String × Nat) : ForceMergeGroup :=
  ⟨self.segments ++ [segment], self.totalDocs + segment.2, by simp [docsOf, self.total_eq], by simp⟩

/-- The segments from small to large. -/
def sortSegments (self : ForceMergeGroup) : ForceMergeGroup where
  segments := self.segments.insertionSort fun a b => a.2 < b.2 ∨ a.2 = b.2 ∧ a.1 ≤ b.1
  totalDocs := self.totalDocs
  total_eq := self.total_eq.trans ((perm_insertionSort _ self.segments).map _).sum_eq.symm
  ne_nil := by
    rw [← length_pos_iff, length_insertionSort, length_pos_iff]
    exact self.ne_nil

theorem sortSegments_perm (self : ForceMergeGroup) : self.sortSegments.segments.Perm self.segments :=
  perm_insertionSort _ _

/-- The identity of the first segment. -/
def firstId (self : ForceMergeGroup) : String := (self.segments.head self.ne_nil).1

end ForceMergeGroup

/-- The fullest group with room for `docs`, the first of those. A sum that overflows does not fit either. -/
def bestGroup (maxDocs docs : Nat) (groups : List ForceMergeGroup) : Option Nat :=
  ((groups.zipIdx.filter fun g => g.1.totalDocs + docs ≤ maxDocs).argmax
    fun g => toLex (g.1.totalDocs, OrderDual.toDual g.2)).map (·.2)

/-- A turn of the packing loop. -/
def placeSegment (maxDocs : Nat) (groups : List ForceMergeGroup) (segment : String × Nat) : List ForceMergeGroup :=
  match bestGroup maxDocs segment.2 groups with
  | some index => groups.modify index (·.push segment)
  | none => groups ++ [.single segment]

def planForceMergeGroups (segments : List (String × Nat)) (maxDocs : Nat) : List ForceMergeGroup :=
  let segments := segments.insertionSort fun a b => b.2 < a.2 ∨ b.2 = a.2 ∧ a.1 ≤ b.1
  let groups := segments.foldl (placeSegment maxDocs) []
  (groups.map .sortSegments).insertionSort fun a b =>
    a.totalDocs < b.totalDocs ∨ a.totalDocs = b.totalDocs ∧ a.firstId ≤ b.firstId

/-- What the packing keeps of the groups. -/
structure Packed (maxDocs : Nat) (segments : List (String × Nat)) (groups : List ForceMergeGroup) : Prop where
  partition : (groups.flatMap (·.segments)).Perm segments
  limit : ∀ g ∈ groups, 1 < g.segments.length → g.totalDocs ≤ maxDocs
  maximal : groups.Pairwise fun a b => maxDocs < a.totalDocs + b.totalDocs

variable {maxDocs docs : Nat} {groups : List ForceMergeGroup} {segments : List (String × Nat)}

theorem Packed.perm {groups' : List ForceMergeGroup} (h : Packed maxDocs segments groups) (hp : groups.Perm groups') :
    Packed maxDocs segments groups' where
  partition := (hp.flatMap_right _).symm.trans h.partition
  limit g hg := h.limit g (hp.mem_iff.mpr hg)
  maximal := (hp.pairwise_iff fun h => by rwa [Nat.add_comm]).mp h.maximal

/-- A group with room, and the groups that a change of it leaves. -/
theorem bestGroup_eq_some {index : Nat} (h : bestGroup maxDocs docs groups = some index) :
    ∃ g rest, groups.Perm (g :: rest) ∧ (∀ f, (groups.modify index f).Perm (f g :: rest)) ∧
      g.totalDocs + docs ≤ maxDocs := by
  obtain ⟨⟨g, i⟩, hbest, rfl⟩ := Option.map_eq_some_iff.mp h
  obtain ⟨hmem, hfits⟩ := mem_filter.mp (argmax_mem hbest)
  obtain ⟨hlt, rfl⟩ := List.getElem?_eq_some_iff.mp (mk_mem_zipIdx_iff_getElem?.mp hmem)
  refine ⟨groups[i], groups.take i ++ groups.drop (i + 1), ?_, fun f => ?_, of_decide_eq_true hfits⟩
  · have hsplit : (groups.take i ++ groups[i] :: groups.drop (i + 1)).Perm _ := perm_middle
    rwa [getElem_cons_drop, take_append_drop] at hsplit
  · rw [modify_eq_take_cons_drop hlt]
    exact perm_middle

theorem bestGroup_eq_none (h : bestGroup maxDocs docs groups = none) :
    ∀ g ∈ groups, maxDocs < g.totalDocs + docs := by
  intro g hg
  obtain ⟨i, hi⟩ := getElem?_of_mem hg
  have hnil := argmax_eq_none.mp (Option.map_eq_none_iff.mp h)
  simpa using filter_eq_nil_iff.mp hnil (g, i) (mk_mem_zipIdx_iff_getElem?.mpr hi)

theorem Packed.place (h : Packed maxDocs segments groups) (segment : String × Nat) :
    Packed maxDocs (segments ++ [segment]) (placeSegment maxDocs groups segment) := by
  unfold placeSegment
  split
  case h_1 index hbest =>
    obtain ⟨g, rest, hgroups, hmodify, hfits⟩ := bestGroup_eq_some hbest
    obtain ⟨hpart, hlimit, hmax⟩ := h.perm hgroups
    rw [pairwise_cons] at hmax
    refine Packed.perm ⟨?_, ?_, pairwise_cons.mpr ⟨fun b hb => ?_, hmax.2⟩⟩ (hmodify _).symm
    · refine .trans ?_ (hpart.append_right [segment])
      simp only [flatMap_cons, ForceMergeGroup.push, append_assoc]
      exact perm_append_comm.append_left _
    · exact forall_mem_cons.mpr ⟨fun _ => hfits, (forall_mem_cons.mp hlimit).2⟩
    · exact (hmax.1 b hb).trans_le (Nat.add_le_add_right (Nat.le_add_right ..) _)
  case h_2 hbest =>
    refine ⟨?_, ?_, ?_⟩
    · rw [flatMap_append]
      exact h.partition.append_right _
    · simpa [ForceMergeGroup.single, or_imp, forall_and] using h.limit
    · simpa [pairwise_append, ForceMergeGroup.single] using ⟨h.maximal, bestGroup_eq_none hbest⟩

/-- The groups of a forced merge partition the segments, each group of several segments stays within the limit,
and no two groups fit together. -/
theorem planForceMergeGroups_packed (segments : List (String × Nat)) (maxDocs : Nat) :
    Packed maxDocs segments (planForceMergeGroups segments maxDocs) := by
  have hfold : ∀ (later placed : List (String × Nat)) (groups : List ForceMergeGroup),
      Packed maxDocs placed groups → Packed maxDocs (placed ++ later) (later.foldl (placeSegment maxDocs) groups) := by
    intro later
    induction later with
    | nil => intro placed groups h; rwa [append_nil]
    | cons segment later ih =>
      intro placed groups h
      have := ih _ _ (h.place segment)
      rwa [append_assoc] at this
  have hpacked := hfold (segments.insertionSort fun a b => b.2 < a.2 ∨ b.2 = a.2 ∧ a.1 ≤ b.1) [] []
    ⟨.nil, nofun, .nil⟩
  refine Packed.perm ⟨?_, ?_, ?_⟩ (perm_insertionSort _ _).symm
  · rw [flatMap_map]
    refine .trans (.flatMap_left _ fun g _ => g.sortSegments_perm) ?_
    exact hpacked.partition.trans (perm_insertionSort _ segments)
  · rw [forall_mem_map]
    intro g hg hlen
    exact hpacked.limit g hg (g.sortSegments_perm.length_eq ▸ hlen)
  · exact hpacked.maximal.map _ fun a b h => h

end Summa
