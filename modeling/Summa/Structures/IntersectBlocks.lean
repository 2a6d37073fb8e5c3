import Mathlib.Data.List.TakeWhile
import Summa.Structures.BlockPosting

/-!
# Intersection of two decoded blocks (`structures/simd.rs`)

A kernel walks two strictly increasing lists of documents from given places on and returns the places
of the equal documents, in order, and the places where it stopped. It may leave documents that it has
already matched ahead of a stop, but one of the lists is always finished.

* `Intersects`: what the caller may rely on, for any kernel.
* `Scanned`: the invariant of a kernel's loop, with one lemma for each way to move.
* `intersectPostingBlockGroups_spec`: the portable kernel, which compares groups of eight documents
  and shorter tails one by one.
-/

namespace Summa

open List

section

variable (left : List Nat) (a : Nat) (right : List Nat) (b : Nat) (pairs : List (Nat × Nat)) (i j : Nat)

/-- What a kernel finds from places `a` and `b` on: the places `pairs` of equal documents in order, and
the places `i` and `j` where it stopped. -/
structure Intersects : Prop where
  sound : ∀ p ∈ pairs, ∃ d, left[p.1]? = some d ∧ right[p.2]? = some d
  complete : ∀ x y d, a ≤ x → b ≤ y → left[x]? = some d → right[y]? = some d → (x, y) ∈ pairs
  ordered : pairs.Pairwise fun p q => p.1 < q.1
  left_le : i ≤ left.length
  right_le : j ≤ right.length
  ends : i = left.length ∨ j = right.length
  left_covered : ∀ x d, a ≤ x → x < i → left[x]? = some d → ∃ d' ∈ right, d ≤ d'
  right_covered : ∀ y d, b ≤ y → y < j → right[y]? = some d → ∃ d' ∈ left, d ≤ d'

/-- `Intersects` for what a kernel returns. -/
def Intersects.Result (r : List (Nat × Nat) × Nat × Nat) : Prop := Intersects left a right b r.1 r.2.1 r.2.2

/-- `Intersects` before the end: what lies ahead of both places is still to be matched. -/
structure Scanned : Prop where
  sound : ∀ p ∈ pairs, ∃ d, left[p.1]? = some d ∧ right[p.2]? = some d
  complete : ∀ x y d, a ≤ x → b ≤ y → left[x]? = some d → right[y]? = some d →
    (x, y) ∈ pairs ∨ i ≤ x ∧ j ≤ y
  ordered : pairs.Pairwise fun p q => p.1 < q.1
  before : ∀ p ∈ pairs, p.1 < i ∨ p.2 < j
  full : left.length ≤ pairs.length → i = left.length
  left_le : i ≤ left.length
  right_le : j ≤ right.length
  left_covered : ∀ x d, a ≤ x → x < i → left[x]? = some d → ∃ d' ∈ right, d ≤ d'
  right_covered : ∀ y d, b ≤ y → y < j → right[y]? = some d → ∃ d' ∈ left, d ≤ d'

end

variable {x y d i target j : Nat} {left right : List Nat}

/-- A later document is larger. -/
theorem lt_of_place {l : List Nat} (hs : l.Pairwise (· < ·)) {e : Nat} (hxy : x < y)
    (hx : l[x]? = some d) (hy : l[y]? = some e) : d < e := by
  obtain ⟨hxl, rfl⟩ := List.getElem?_eq_some_iff.mp hx
  obtain ⟨hyl, rfl⟩ := List.getElem?_eq_some_iff.mp hy
  exact pairwise_iff_getElem.mp hs x y hxl hyl hxy

theorem le_of_place {l : List Nat} (hs : l.Pairwise (· < ·)) {e : Nat} (hxy : x ≤ y)
    (hx : l[x]? = some d) (hy : l[y]? = some e) : d ≤ e := by
  rcases Nat.eq_or_lt_of_le hxy with rfl | hlt
  · exact (Option.some.inj (hx.symm.trans hy)).le
  · exact (lt_of_place hs hlt hx hy).le

theorem mem_take_drop {l : List Nat} {n : Nat} (hj : j ≤ y) (hlt : y < j + n) (hy : l[y]? = some d) :
    d ∈ (l.drop j).take n := by
  rw [mem_iff_getElem?]
  refine ⟨y - j, ?_⟩
  rw [getElem?_take_of_lt (by omega), getElem?_drop, ← hy]
  congr 1
  omega

/-- Pairs in the order of their left places, which stay below `i`. -/
theorem length_le_of_ordered {pairs : List (Nat × Nat)} (ho : pairs.Pairwise fun p q => p.1 < q.1)
    (hb : ∀ p ∈ pairs, p.1 < i) : pairs.length ≤ i := by
  have hnodup : (pairs.map Prod.fst).Nodup := pairwise_map.mpr (ho.imp fun h => h.ne)
  have hsub : pairs.map Prod.fst ⊆ range i := by
    intro x hx
    obtain ⟨p, hp, rfl⟩ := mem_map.mp hx
    exact mem_range.mpr (hb p hp)
  simpa using (subperm_of_subset hnodup hsub).length_le

namespace Scanned

variable {left right : List Nat} {a b i j i' k y d e : Nat} {pairs : List (Nat × Nat)}

theorem start (ha : a ≤ left.length) (hb : b ≤ right.length) : Scanned left a right b [] a b where
  sound := by simp
  complete := fun _ _ _ hx hy _ _ => .inr ⟨hx, hy⟩
  ordered := .nil
  before := by simp
  full := fun hle => by rw [length_nil] at hle; omega
  left_le := ha
  right_le := hb
  left_covered := fun x d hx hlt => by omega
  right_covered := fun y d hy hlt => by omega

section

variable (h : Scanned left a right b pairs i j)

include h

theorem finish (hend : i = left.length ∨ j = right.length) : Intersects left a right b pairs i j where
  __ := h
  complete := by
    intro x y d hx hy hl hr
    have hxl := (List.getElem?_eq_some_iff.mp hl).1
    have hyl := (List.getElem?_eq_some_iff.mp hr).1
    rcases h.complete x y d hx hy hl hr with hmem | ⟨h1, h2⟩
    · exact hmem
    · omega
  ends := hend

/-- Leave out documents of the left list that the right list does not have any more. -/
theorem moveLeft (hi : i ≤ i') (hle : i' ≤ left.length)
    (hskip : ∀ x d, i ≤ x → x < i' → left[x]? = some d →
      (∀ y, j ≤ y → right[y]? ≠ some d) ∧ ∃ d' ∈ right, d ≤ d') :
    Scanned left a right b pairs i' j where
  __ := h
  complete := by
    intro x y d hx hy hl hr
    rcases h.complete x y d hx hy hl hr with hmem | ⟨h1, h2⟩
    · exact .inl hmem
    · by_cases hlt : x < i'
      · exact absurd hr ((hskip x d h1 hlt hl).1 y h2)
      · exact .inr ⟨by omega, h2⟩
  before := fun p hp => (h.before p hp).imp_left fun hlt => hlt.trans_le hi
  full := fun hfull => hle.antisymm ((h.full hfull).ge.trans hi)
  left_le := hle
  left_covered := by
    intro x d hx hlt hl
    by_cases hxi : x < i
    · exact h.left_covered x d hx hxi hl
    · exact (hskip x d (by omega) hlt hl).2

/-- Leave the right documents up to place `k` behind: what is left of the left list lies beyond them. -/
theorem skipRight (hrs : right.Pairwise (· < ·)) (hk : right[k]? = some e) (hjk : j ≤ k)
    (hbeyond : ∀ x d, i ≤ x → left[x]? = some d → e < d) (hcov : ∃ d ∈ left, e ≤ d) :
    Scanned left a right b pairs i (k + 1) where
  __ := h
  complete := by
    intro x y d hx hy hl hr
    rcases h.complete x y d hx hy hl hr with hmem | ⟨h1, h2⟩
    · exact .inl hmem
    · refine .inr ⟨h1, Nat.succ_le_of_lt ?_⟩
      by_contra hge
      have := hbeyond x d h1 hl
      have := le_of_place hrs (Nat.not_lt.mp hge) hr hk
      omega
  before := fun p hp => (h.before p hp).imp_right fun hlt => by omega
  right_le := (List.getElem?_eq_some_iff.mp hk).1
  right_covered := by
    intro y d hy hlt hr
    have hde := le_of_place hrs (Nat.lt_succ_iff.mp hlt) hr hk
    exact hcov.imp fun f hf => ⟨hf.1, hde.trans hf.2⟩

/-- Take back left documents whose matches the right list has left behind. -/
theorem retreat (hi : i' ≤ i) (hp : ∀ p ∈ pairs, p.1 < i' ∨ p.2 < j)
    (hlen : pairs.length < left.length) : Scanned left a right b pairs i' j where
  __ := h
  complete := fun x y d hx hy hl hr =>
    (h.complete x y d hx hy hl hr).imp_right fun hle => ⟨hi.trans hle.1, hle.2⟩
  before := hp
  full := fun hfull => absurd hfull (Nat.not_le.mpr hlen)
  left_le := hi.trans h.left_le
  left_covered := fun x d hx hlt => h.left_covered x d hx (hlt.trans_le hi)

section

variable (hls : left.Pairwise (· < ·)) (hrs : right.Pairwise (· < ·))

include hls hrs

/-- The left places of the pairs found so far are behind a match ahead. -/
theorem before_found (hl : left[i]? = some d) (hr : right[y]? = some d) (hy : j ≤ y) :
    ∀ p ∈ pairs, p.1 < i := by
  intro p hp
  rcases h.before p hp with hlt | hlt
  · exact hlt
  · obtain ⟨e, hpl, hpr⟩ := h.sound p hp
    have hed := lt_of_place hrs (hlt.trans_le hy) hpr hr
    by_contra hge
    have := le_of_place hls (Nat.not_lt.mp hge) hl hpl
    omega

/-- Record the place of the current left document in the right list. -/
theorem found (hl : left[i]? = some d) (hr : right[y]? = some d) (hy : j ≤ y) :
    Scanned left a right b (pairs ++ [(i, y)]) (i + 1) j where
  __ := h
  sound := by
    intro p hp
    rcases mem_append.mp hp with hp | hp
    · exact h.sound p hp
    · obtain rfl : p = (i, y) := by simpa using hp
      exact ⟨d, hl, hr⟩
  complete := by
    intro x z e hx hz hle hre
    rcases h.complete x z e hx hz hle hre with hmem | ⟨h1, h2⟩
    · exact .inl (mem_append_left _ hmem)
    · rcases Nat.eq_or_lt_of_le h1 with rfl | hlt
      · -- the right list holds the document only once
        have hed : e = d := by rw [hl] at hle; exact (Option.some.inj hle).symm
        subst hed
        have hzy : z = y := (getElem?_inj (List.getElem?_eq_some_iff.mp hre).1
          (hrs.imp fun h => h.ne)).mp (hre.trans hr.symm)
        exact .inl (by simp [hzy])
      · exact .inr ⟨hlt, h2⟩
  ordered := by
    rw [pairwise_append]
    refine ⟨h.ordered, by simp, ?_⟩
    intro p hp q hq
    obtain rfl : q = (i, y) := by simpa using hq
    exact h.before_found hls hrs hl hr hy p hp
  before := by
    intro p hp
    refine .inl ?_
    rcases mem_append.mp hp with hp | hp
    · exact (h.before_found hls hrs hl hr hy p hp).trans (Nat.lt_succ_self i)
    · obtain rfl : p = (i, y) := by simpa using hp
      exact Nat.lt_succ_self i
  full := by
    intro hfull
    have hcount := length_le_of_ordered h.ordered (h.before_found hls hrs hl hr hy)
    have hlt := (List.getElem?_eq_some_iff.mp hl).1
    rw [length_append, length_singleton] at hfull
    omega
  left_le := (List.getElem?_eq_some_iff.mp hl).1
  left_covered := by
    intro x e hx hlt hle
    rcases Nat.eq_or_lt_of_le (Nat.lt_succ_iff.mp hlt) with rfl | hxi
    · rw [hl] at hle
      exact ⟨d, mem_of_getElem? hr, (Option.some.inj hle).ge⟩
    · exact h.left_covered x e hx hxi hle

/-- The right documents up to place `k` are below the current left one. -/
theorem passRight (hi : left[i]? = some d) (hk : right[k]? = some e) (hjk : j ≤ k) (hlt : e < d) :
    Scanned left a right b pairs i (k + 1) :=
  h.skipRight hrs hk hjk (fun _ _ hx hxd => hlt.trans_le (le_of_place hls hx hi hxd))
    ⟨d, mem_of_getElem? hi, hlt.le⟩

/-- Record a match and leave the right list behind it. -/
theorem foundPast (hi : left[i]? = some d) (hk : right[k]? = some d) (hjk : j ≤ k) :
    Scanned left a right b (pairs ++ [(i, k)]) (i + 1) (k + 1) :=
  (h.found hls hrs hi hk hjk).skipRight hrs hk hjk (fun _ _ hx hxd => lt_of_place hls hx hi hxd)
    ⟨d, mem_of_getElem? hi, le_rfl⟩

end

/-- The left documents before `i'` are below the current right one. -/
theorem passLeft (hrs : right.Pairwise (· < ·))
    (hj : right[j]? = some e) (hi : i ≤ i') (hle : i' ≤ left.length)
    (hlt : ∀ x d, i ≤ x → x < i' → left[x]? = some d → d < e) : Scanned left a right b pairs i' j := by
  refine h.moveLeft hi hle fun x f hx hxi hf => ?_
  have hfe := hlt x f hx hxi hf
  refine ⟨fun y hy heq => ?_, e, mem_of_getElem? hj, hfe.le⟩
  have := le_of_place hrs hy hj heq
  omega

/-- The left document lies inside a group of the right list without being in it. -/
theorem passAbsent {n : Nat} (hrs : right.Pairwise (· < ·)) (hi : left[i]? = some d)
    (hlast : right[j + n]? = some e) (hle : d ≤ e) (hno : d ∉ (right.drop j).take (n + 1)) :
    Scanned left a right b pairs (i + 1) j := by
  refine h.moveLeft (Nat.le_succ i) (List.getElem?_eq_some_iff.mp hi).1 fun x f hx hxi hf => ?_
  obtain rfl : x = i := by omega
  obtain rfl : d = f := Option.some.inj (hi.symm.trans hf)
  refine ⟨fun y hy heq => ?_, e, mem_of_getElem? hlast, hle⟩
  by_cases hyn : y < j + (n + 1)
  · exact hno (mem_take_drop hy hyn heq)
  · have := lt_of_place hrs (by omega) hlast heq
    omega

end

end Scanned

/-- `find_first_ge_u32`. -/
def findFirstGe (values : List Nat) (target : Nat) : Nat := (values.takeWhile (· < target)).length

/-- `equal_lane_8`. -/
def equalLane8 (group : List Nat) (target : Nat) : Option Nat := group.findIdx? (· == target)

theorem findFirstGe_pos (h : i < left.length)
    (hlt : left[i] < target) : 0 < findFirstGe (left.drop i) target := by
  rw [findFirstGe, drop_eq_getElem_cons h, takeWhile_cons_of_pos (by simpa using hlt)]
  exact Nat.succ_pos _

theorem findFirstGe_le (h : i ≤ left.length) : i + findFirstGe (left.drop i) target ≤ left.length := by
  have := ( takeWhile_prefix (l := left.drop i) (· < target)).length_le
  rw [length_drop] at this
  rw [findFirstGe]
  omega

theorem lt_of_findFirstGe (hx : i ≤ x)
    (hlt : x < i + findFirstGe (left.drop i) target) (hd : left[x]? = some d) : d < target := by
  have hn : x - i < ((left.drop i).takeWhile (· < target)).length := by
    rw [findFirstGe] at hlt
    omega
  have hpre := takeWhile_prefix (l := left.drop i) (· < target)
  have heq := hpre.getElem hn
  have hd' : (left.drop i)[x - i]? = some d := by
    rw [getElem?_drop, ← hd]
    congr 1
    omega
  obtain ⟨hlen, rfl⟩ := List.getElem?_eq_some_iff.mp hd'
  rw [← heq]
  simpa using mem_takeWhile_imp (getElem_mem hn)

/-- The portable kernel, and the tail of the others: groups of eight of the right list, then one by
one. `capacity` is the room for pairs. -/
def intersectPostingBlockGroups (capacity : Nat) (left right : List Nat) (i j : Nat)
    (pairs : List (Nat × Nat)) : List (Nat × Nat) × Nat × Nat :=
  if h : i < left.length ∧ j < right.length ∧ pairs.length < capacity then
    have hi := h.1
    have hj := h.2.1
    if hg : j + 8 ≤ right.length then
      if right[j + 7] < left[i] then
        intersectPostingBlockGroups capacity left right i (j + 8) pairs
      else if hd : left[i] < right[j] then
        have := findFirstGe_pos hi hd
        intersectPostingBlockGroups capacity left right (i + findFirstGe (left.drop i) right[j]) j pairs
      else
        match equalLane8 ((right.drop j).take 8) left[i] with
        | some lane =>
          if pairs.length + 1 = capacity then (pairs ++ [(i, j + lane)], i + 1, j + lane + 1)
          else intersectPostingBlockGroups capacity left right (i + 1) j (pairs ++ [(i, j + lane)])
        | none => intersectPostingBlockGroups capacity left right (i + 1) j pairs
    else if left[i] < right[j] then intersectPostingBlockGroups capacity left right (i + 1) j pairs
    else if right[j] < left[i] then intersectPostingBlockGroups capacity left right i (j + 1) pairs
    else intersectPostingBlockGroups capacity left right (i + 1) (j + 1) (pairs ++ [(i, j)])
  else (pairs, i, j)
termination_by (left.length - i) + (right.length - j)
decreasing_by all_goals omega

theorem lane_eq_some {lane n : Nat} (h : ((right.drop j).take n).findIdx? (· == target) = some lane) :
    lane < n ∧ right[j + lane]? = some target := by
  obtain ⟨hlt, heq, -⟩ := findIdx?_eq_some_iff_getElem.mp h
  rw [List.getElem?_eq_some_iff]
  rw [length_take, length_drop] at hlt
  exact ⟨by omega, by omega, by simpa using heq⟩

theorem lane_eq_none {group : List Nat} (h : group.findIdx? (· == target) = none) : target ∉ group := by
  intro hmem
  simpa using findIdx?_eq_none_iff.mp h target hmem

/-- The portable kernel finds what its contract says, if there is room for every pair. -/
theorem intersectPostingBlockGroups_spec {capacity : Nat} {a b : Nat}
    {pairs : List (Nat × Nat)} (hls : left.Pairwise (· < ·)) (hrs : right.Pairwise (· < ·))
    (hcap : left.length ≤ capacity) (h : Scanned left a right b pairs i j) :
    Intersects.Result left a right b (intersectPostingBlockGroups capacity left right i j pairs) := by
  fun_induction intersectPostingBlockGroups capacity left right i j pairs with
  | case1 i j pairs hin hi hj hg hlt ih =>
    exact ih (h.passRight hls hrs (getElem?_eq_getElem hi)
      (getElem?_eq_getElem (by omega)) (Nat.le_add_right ..) hlt)
  | case2 i j pairs hin hi hj hg hge hd hpos ih =>
    exact ih (h.passLeft hrs (getElem?_eq_getElem hj) (by omega)
      (findFirstGe_le hi.le) fun x d hx hxi hxd => lt_of_findFirstGe hx hxi hxd)
  | case3 i j pairs hin hi hj hg hge hd lane hlane hfull =>
    have hscan := h.foundPast hls hrs (getElem?_eq_getElem hi) (lane_eq_some hlane).2
      (Nat.le_add_right ..)
    refine hscan.finish (.inl (hscan.full ?_))
    rw [length_append, length_singleton, hfull]
    exact hcap
  | case4 i j pairs hin hi hj hg hge hd lane hlane hfull ih =>
    exact ih (h.found hls hrs (getElem?_eq_getElem hi) (lane_eq_some hlane).2
      (Nat.le_add_right ..))
  | case5 i j pairs hin hi hj hg hge hd hlane ih =>
    exact ih (h.passAbsent hrs (getElem?_eq_getElem hi) (getElem?_eq_getElem (by omega))
      (Nat.not_lt.mp hge) (lane_eq_none hlane))
  | case6 i j pairs hin hi hj hg hlt ih =>
    refine ih (h.passLeft hrs (getElem?_eq_getElem hj) (Nat.le_succ i) hi ?_)
    intro x d hx hxi hxd
    obtain rfl : x = i := by omega
    obtain rfl : left[x] = d := by simpa [getElem?_eq_getElem hi] using hxd
    exact hlt
  | case7 i j pairs hin hi hj hg hge hlt ih =>
    exact ih (h.passRight hls hrs (getElem?_eq_getElem hi)
      (getElem?_eq_getElem hj) le_rfl hlt)
  | case8 i j pairs hin hi hj hg hge hge' ih =>
    have heq : right[j] = left[i] := by omega
    exact ih (h.foundPast hls hrs (getElem?_eq_getElem hi)
      (by rw [getElem?_eq_getElem hj, heq]) le_rfl)
  | case9 i j pairs hout =>
    refine h.finish ?_
    have := h.full
    have := h.left_le
    have := h.right_le
    omega

/-- A function that intersects two decoded blocks of at most `postingBlockSize` documents. -/
structure IntersectKernel where
  run : List Nat → Nat → List Nat → Nat → List (Nat × Nat) × Nat × Nat
  spec : ∀ left a right b, left.Pairwise (· < ·) → right.Pairwise (· < ·) →
    left.length ≤ postingBlockSize → right.length ≤ postingBlockSize →
    a ≤ left.length → b ≤ right.length →
    Intersects left a right b (run left a right b).1 (run left a right b).2.1 (run left a right b).2.2

/-- `intersect_posting_blocks` where no vector unit is used. -/
def intersectPostingBlocks : IntersectKernel where
  run := fun left a right b => intersectPostingBlockGroups postingBlockSize left right a b []
  spec := fun _ _ _ _ hls hrs hlen _ ha hb =>
    intersectPostingBlockGroups_spec hls hrs hlen (.start ha hb)

end Summa
