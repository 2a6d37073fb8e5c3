import Summa.Lib.BinarySearch
import Summa.Structures.IntersectBlocks

/-!
# Intersection of two decoded blocks with vector units (`structures/simd.rs`)

With AVX2 the kernel is chosen by the density of the two suffixes. If they are alike, four documents of
each side are compared at once and the side that ends first goes on (`intersectPostingBlocksBalanced`).
Otherwise the groups of eight of the right list are searched for each left document in turn. Both leave
what is shorter than a group to the portable kernel.

* `intersectPostingBlocksAvx2`: the kernel, with its proof of the contract `Intersects`.
-/

namespace Summa

open List

/-- The last document of the `k`-th group of eight from `j` on is below `doc`. -/
def groupBelow (right : List Nat) (j doc k : Nat) : Bool := right[j + k * 8 + 7]?.any (· < doc)

/-- The groups from `j` on that end before `doc`. -/
def skipGroups (right : List Nat) (j doc : Nat) : Nat :=
  if groupBelow right j doc 0 then gallop (groupBelow right j doc) ((right.length - j) / 8) 0 1 else 0

/-- The loop over the left documents in `intersect_posting_blocks_avx2`, and the portable tail. -/
def intersectPostingBlocksGalloping (capacity : Nat) (left right : List Nat) (i j : Nat)
    (pairs : List (Nat × Nat)) : List (Nat × Nat) × Nat × Nat :=
  if h : i < left.length ∧ j + 8 ≤ right.length ∧ pairs.length < capacity then
    have hi := h.1
    let next := j + skipGroups right j left[i] * 8
    if next + 8 > right.length then intersectPostingBlockGroups capacity left right i next pairs
    else
      match equalLane8 ((right.drop next).take 8) left[i] with
      | some lane =>
        if pairs.length + 1 = capacity then
          intersectPostingBlockGroups capacity left right (i + 1) (next + lane + 1)
            (pairs ++ [(i, next + lane)])
        else intersectPostingBlocksGalloping capacity left right (i + 1) next (pairs ++ [(i, next + lane)])
      | none => intersectPostingBlocksGalloping capacity left right (i + 1) next pairs
  else intersectPostingBlockGroups capacity left right i j pairs
termination_by left.length - i

/-- `balanced_posting_suffixes`: documents of both sides lie about equally close. -/
def balancedPostingSuffixes (left : List Nat) (a : Nat) (right : List Nat) (b : Nat) : Bool :=
  let nl := left.length - a
  let nr := right.length - b
  if nl < 16 ∨ nr < 16 then false
  else
    let ls := (left.getLastD 0 - left.getD a 0 + 1) * nr
    let rs := (right.getLastD 0 - right.getD b 0 + 1) * nl
    ls ≤ rs * 2 ∧ rs ≤ ls * 2

/-- The lanes of a left group from place `x` on, matched in a group of the right list. The places are
those where the room for pairs ended. -/
def balancedLanes (capacity : Nat) (group : List Nat) (j : Nat) :
    List Nat → Nat → List (Nat × Nat) → List (Nat × Nat) × Option (Nat × Nat)
  | [], _, pairs => (pairs, none)
  | doc :: docs, x, pairs =>
    match group.findIdx? (· == doc) with
    | some lane =>
      if pairs.length + 1 = capacity then (pairs ++ [(x, j + lane)], some (x + 1, j + lane + 1))
      else balancedLanes capacity group j docs (x + 1) (pairs ++ [(x, j + lane)])
    | none => balancedLanes capacity group j docs (x + 1) pairs

/-- `intersect_posting_blocks_balanced` from places `i` and `j` on. -/
def intersectPostingBlocksBalanced (capacity : Nat) (left right : List Nat) (i j : Nat)
    (pairs : List (Nat × Nat)) : List (Nat × Nat) × Nat × Nat :=
  if h : i + 4 ≤ left.length ∧ j + 4 ≤ right.length ∧ pairs.length < capacity then
    let lm := left[i + 3]
    let rm := right[j + 3]
    match balancedLanes capacity ((right.drop j).take 4) j ((left.drop i).take 4) i pairs with
    | (pairs, some stop) => (pairs, stop)
    | (pairs, none) =>
      intersectPostingBlocksBalanced capacity left right (if lm ≤ rm then i + 4 else i)
        (if rm ≤ lm then j + 4 else j) pairs
  else intersectPostingBlockGroups capacity left right i j pairs
termination_by (left.length - i) + (right.length - j)
decreasing_by split <;> split <;> omega

variable {left right : List Nat} {a b i j d e capacity : Nat} {pairs : List (Nat × Nat)}

theorem groupBelow_iff {k : Nat} :
    groupBelow right j d k = true ↔ ∃ e, right[j + k * 8 + 7]? = some e ∧ e < d := by
  unfold groupBelow
  cases right[j + k * 8 + 7]? <;> simp

section

variable (hls : left.Pairwise (· < ·)) (hrs : right.Pairwise (· < ·)) (hcap : left.length ≤ capacity)

include hrs

theorem splitsAt_skipGroups (hj : j + 8 ≤ right.length) (doc : Nat) :
    SplitsAt (groupBelow right j doc) ((right.length - j) / 8) (skipGroups right j doc) := by
  obtain ⟨n, hn⟩ : ∃ n, SplitsAt (groupBelow right j doc) ((right.length - j) / 8) n := by
    refine exists_splitsAt fun x y hxy hy hbelow => ?_
    obtain ⟨d, hd, hlt⟩ := groupBelow_iff.mp hbelow
    have hx : right[j + x * 8 + 7]? = some right[j + x * 8 + 7] := getElem?_eq_getElem (by omega)
    exact groupBelow_iff.mpr ⟨_, hx, (le_of_place hrs (by omega) hx hd).trans_lt hlt⟩
  have heq : skipGroups right j doc = n := by
    unfold skipGroups
    split
    case isTrue => exact gallop_eq hn (Nat.zero_le n)
    case isFalse hzero =>
      by_contra hne
      exact hzero (hn.below 0 (by omega))
  rw [heq]
  exact hn

include hls hcap

theorem intersectPostingBlocksGalloping_spec (h : Scanned left a right b pairs i j) :
    Intersects.Result left a right b (intersectPostingBlocksGalloping capacity left right i j pairs) := by
  have skip : ∀ {i j pairs} (hi : i < left.length), j + 8 ≤ right.length →
      Scanned left a right b pairs i j →
      Scanned left a right b pairs i (j + skipGroups right j left[i] * 8) := by
    intro i j pairs hi hj h
    have hsplit := splitsAt_skipGroups hrs hj left[i]
    cases hskip : skipGroups right j left[i] with
    | zero => simpa using h
    | succ k =>
      obtain ⟨e, he, hlt⟩ := groupBelow_iff.mp (hsplit.below k (by omega))
      have := h.passRight hls hrs (getElem?_eq_getElem hi) he (by omega) hlt
      rwa [show j + (k + 1) * 8 = j + k * 8 + 7 + 1 by omega]
  fun_induction intersectPostingBlocksGalloping capacity left right i j pairs with
  | case1 i j pairs hin hi next hend =>
    exact intersectPostingBlockGroups_spec hls hrs hcap (skip hi hin.2.1 h)
  | case2 i j pairs hin hi next hend lane hlane hfull =>
    exact intersectPostingBlockGroups_spec hls hrs hcap ((skip hi hin.2.1 h).foundPast hls hrs
      (getElem?_eq_getElem hi) (lane_eq_some hlane).2 (Nat.le_add_right ..))
  | case3 i j pairs hin hi next hend lane hlane hfull ih =>
    exact ih ((skip hi hin.2.1 h).found hls hrs (getElem?_eq_getElem hi)
      (lane_eq_some hlane).2 (Nat.le_add_right ..))
  | case4 i j pairs hin hi next hend hlane ih =>
    have hlast : right[next + 7]? = some right[next + 7] := getElem?_eq_getElem (by omega)
    refine ih ((skip hi hin.2.1 h).passAbsent hrs (getElem?_eq_getElem hi) hlast ?_
      (lane_eq_none hlane))
    have habove := (splitsAt_skipGroups hrs hin.2.1 left[i]).above _ le_rfl (by omega)
    by_contra hgt
    rw [groupBelow_iff.mpr ⟨_, hlast, Nat.not_le.mp hgt⟩] at habove
    cases habove
  | case5 i j pairs hout => exact intersectPostingBlockGroups_spec hls hrs hcap h

section Balanced

variable {found : List (Nat × Nat)} {stop : Option (Nat × Nat)}

/-- The lanes up to the first left document beyond the group: those behind it match nothing. -/
theorem balancedLanes_spec {rm x : Nat} {docs : List Nat} (hrm : right[j + 3]? = some rm)
    (hdocs : docs <+: left.drop x) (hpairs : ∀ p ∈ pairs, p.1 < i ∨ p.2 < j + 4)
    (h : ∃ n, i ≤ n ∧ n ≤ x ∧ Scanned left a right b pairs n j ∧
      (n = x ∨ ∃ d, left[n]? = some d ∧ rm < d)) :
    balancedLanes capacity ((right.drop j).take 4) j docs x pairs = (found, stop) → match stop with
    | some stop => Intersects left a right b found stop.1 stop.2
    | none => (∀ p ∈ found, p.1 < i ∨ p.2 < j + 4) ∧
        ∃ n, i ≤ n ∧ n ≤ x + docs.length ∧ Scanned left a right b found n j ∧
          (n = x + docs.length ∨ ∃ d, left[n]? = some d ∧ rm < d) := by
  intro hrun
  induction docs generalizing x pairs with
  | nil =>
    obtain ⟨rfl, rfl⟩ := Prod.mk.inj hrun
    exact ⟨hpairs, h⟩
  | cons doc docs ih =>
    obtain ⟨n, hin, hnx, h, hn⟩ := h
    obtain ⟨later, hlater⟩ := hdocs
    have hdoc : left[x]? = some doc := by rw [← head?_drop, ← hlater]; rfl
    have hnext : docs <+: left.drop (x + 1) := ⟨later, by rw [← tail_drop, ← hlater]; rfl⟩
    rw [length_cons, show x + (docs.length + 1) = x + 1 + docs.length by omega]
    rw [balancedLanes] at hrun
    cases hlane : ((right.drop j).take 4).findIdx? (· == doc) with
    | some lane =>
      obtain ⟨hlt, hmatch⟩ := lane_eq_some hlane
      have hle := le_of_place hrs (show j + lane ≤ j + 3 by omega) hmatch hrm
      -- a document of the group does not lie behind one that is beyond it
      obtain rfl : n = x := by
        rcases hn with hn | ⟨d, hd, hgt⟩
        · exact hn
        · by_contra hne
          have := lt_of_place hls (lt_of_le_of_ne hnx hne) hd hdoc
          omega
      rw [hlane] at hrun
      simp only [] at hrun
      split at hrun
      case isTrue hfull =>
        obtain ⟨rfl, rfl⟩ := Prod.mk.inj hrun
        have hscan := h.foundPast hls hrs hdoc hmatch (Nat.le_add_right ..)
        refine hscan.finish (.inl (hscan.full ?_))
        rw [length_append, length_singleton, hfull]
        exact hcap
      case isFalse =>
        refine ih hnext ?_ ⟨n + 1, by omega, le_rfl,
          h.found hls hrs hdoc hmatch (Nat.le_add_right ..), .inl rfl⟩ hrun
        intro p hp
        rcases mem_append.mp hp with hp | hp
        · exact hpairs p hp
        · obtain rfl : p = (n, j + lane) := by simpa using hp
          exact .inr (Nat.add_lt_add_left hlt j)
    | none =>
      rw [hlane] at hrun
      refine ih hnext hpairs ?_ hrun
      rcases hn with rfl | hgt
      · by_cases hle : doc ≤ rm
        · exact ⟨n + 1, by omega, le_rfl, h.passAbsent hrs hdoc hrm hle (lane_eq_none hlane), .inl rfl⟩
        · exact ⟨n, hin, Nat.le_succ n, h, .inr ⟨doc, hdoc, Nat.not_le.mp hle⟩⟩
      · exact ⟨n, hin, hnx.trans (Nat.le_succ x), h, .inr hgt⟩

/-- One group of either side: the side that ends first goes on. -/
theorem balancedStep_spec {lm rm : Nat} (hlm : left[i + 3]? = some lm) (hrm : right[j + 3]? = some rm)
    (h : Scanned left a right b pairs i j) :
    balancedLanes capacity ((right.drop j).take 4) j ((left.drop i).take 4) i pairs = (found, stop) →
      match stop with
      | some stop => Intersects left a right b found stop.1 stop.2
      | none => Scanned left a right b found (if lm ≤ rm then i + 4 else i)
          (if rm ≤ lm then j + 4 else j) := by
  intro hrun
  have hil := (List.getElem?_eq_some_iff.mp hlm).1
  have lanes := balancedLanes_spec (i := i) hls hrs hcap hrm ( take_prefix ..)
    (fun p hp => (h.before p hp).imp_right fun hlt => hlt.trans_le (Nat.le_add_right ..))
    ⟨i, le_rfl, le_rfl, h, .inl rfl⟩ hrun
  cases stop with
  | some stop => exact lanes
  | none =>
    rw [length_take, length_drop, Nat.min_eq_left (by omega)] at lanes
    obtain ⟨hpairs, n, hin, hn, hscan, hend⟩ := lanes
    -- what is left of the left list lies beyond the right group, if the left group ends there
    have hright : rm ≤ lm → Scanned left a right b found n (j + 4) := by
      intro hle
      refine hscan.skipRight hrs hrm (Nat.le_add_right ..) (fun x d hx hxd => ?_)
        ⟨lm, mem_of_getElem? hlm, hle⟩
      rcases hend with rfl | ⟨e, he, hgt⟩
      · exact hle.trans_lt (lt_of_place hls (by omega) hlm hxd)
      · exact hgt.trans_le (le_of_place hls hx he hxd)
    by_cases hle : lm ≤ rm
    · obtain rfl : n = i + 4 := by
        rcases hend with hend | ⟨e, he, hgt⟩
        · exact hend
        · by_contra hne
          have := le_of_place hls (show n ≤ i + 3 by omega) he hlm
          omega
      by_cases hge : rm ≤ lm
      · rw [if_pos hle, if_pos hge]
        exact hright hge
      · rw [if_pos hle, if_neg hge]
        exact hscan
    · rw [if_neg hle, if_pos (Nat.le_of_not_le hle)]
      refine (hright (Nat.le_of_not_le hle)).retreat hin hpairs ?_
      -- the last left document of the group is beyond the right one and has no pair
      refine (length_le_of_ordered hscan.ordered fun p hp => ?_).trans_lt hil
      rcases hpairs p hp with hlt | hlt
      · omega
      · obtain ⟨d, hpl, hpr⟩ := hscan.sound p hp
        have := le_of_place hrs (Nat.lt_succ_iff.mp hlt) hpr hrm
        by_contra hge
        have := le_of_place hls (Nat.not_lt.mp hge) hlm hpl
        omega

theorem intersectPostingBlocksBalanced_spec (h : Scanned left a right b pairs i j) :
    Intersects.Result left a right b (intersectPostingBlocksBalanced capacity left right i j pairs) := by
  fun_induction intersectPostingBlocksBalanced capacity left right i j pairs with
  | case1 i j pairs hin found stop hrun =>
    exact balancedStep_spec hls hrs hcap (getElem?_eq_getElem (show i + 3 < left.length by omega))
      (getElem?_eq_getElem (show j + 3 < right.length by omega)) h hrun
  | case2 i j pairs hin lm rm found hrun ih =>
    exact ih (balancedStep_spec hls hrs hcap (getElem?_eq_getElem _)
      (getElem?_eq_getElem _) h hrun)
  | case3 i j pairs hout => exact intersectPostingBlockGroups_spec hls hrs hcap h

end Balanced

end

/-- `intersect_posting_blocks_avx2`. -/
def intersectPostingBlocksAvx2 : IntersectKernel where
  run := fun left a right b =>
    if balancedPostingSuffixes left a right b then
      intersectPostingBlocksBalanced postingBlockSize left right a b []
    else intersectPostingBlocksGalloping postingBlockSize left right a b []
  spec := by
    intro left a right b hls hrs hlen _ ha hb
    split
    case isTrue => exact intersectPostingBlocksBalanced_spec hls hrs hlen (.start ha hb)
    case isFalse => exact intersectPostingBlocksGalloping_spec hls hrs hlen (.start ha hb)

end Summa
