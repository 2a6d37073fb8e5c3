import Mathlib.Data.Prod.Lex
import Summa.Error
import Summa.Lib.LittleEndian
import Summa.Lib.TopK

/-!
# Selecting superblocks through coarse bounds

`selectGlobalLspHierarchical` selects the `gamma` greatest superblocks of all segments without
looking at every superblock: coarse groups are expanded best first, until the next group's bound is
strictly below the least selected one. `expandFrontier_eq` is the loop's result: the groups left
out would have offered nothing that is kept, so the loop keeps what a full scan keeps.

A bound is an `f32`, given by its bits.
-/

namespace Summa.Lsp

open List TopK

/-- A coarse group or a superblock, ordered as the tuple `(bound, segment, id)`. -/
structure Cell where
  bound : Nat
  segment : Nat
  id : Nat
  deriving DecidableEq, Repr

instance : LinearOrder Cell :=
  LinearOrder.lift' (fun c => toLex (c.bound, toLex (c.segment, c.id))) fun a b h => by
    cases a; cases b; simpa using h

/-- `bound > 0.0` -/
def gtZero (bits : Nat) : Bool := 0 < bits && bits ≤ 0x7f800000

/-- `bound <= 0.0`, which no NaN satisfies. -/
def leZero (bits : Nat) : Bool := bits = 0 || (0x80000000 ≤ bits && bits ≤ 0xff800000)

/-- `f32::total_cmp` compares by this key. -/
def totalKey (bits : Nat) : Int := if bits < 0x80000000 then bits else 0x7fffffff - bits

structure HierarchicalLspSelection where
  selected : List (List (Nat × Nat))
  expandedGroups : Nat
  evaluatedSuperblocks : Nat
  deriving DecidableEq, Repr

/-- The groups pushed on the frontier. -/
def groups (coarseBounds : List (Option (List Nat))) : List Cell :=
  coarseBounds.zipIdx.flatMap fun (bounds, segment) =>
    (bounds.getD []).zipIdx.flatMap fun (bound, coarseGroup) =>
      if gtZero bound then [⟨bound, segment, coarseGroup % 2 ^ 32⟩] else []

def candidates (segment : Nat) (expanded : List (Nat × Nat)) : List Cell :=
  (expanded.filter fun (_, bound) => !leZero bound).map
    fun (superblock, bound) => ⟨bound, segment, superblock⟩

variable (gamma : Nat) (expand : Nat → Nat → Result (List (Nat × Nat)))

/-- The loop over the frontier, popped greatest first; `top` is the heap, its minimum last. -/
def expandFrontier : List Cell → List Cell → Nat → Nat → Result (List Cell × Nat × Nat)
  | [], top, expandedGroups, evaluated => .ok (top, expandedGroups, evaluated)
  | group :: frontier, top, expandedGroups, evaluated =>
    if top.length = gamma ∧ top.getLast?.any (group.bound < ·.bound) then
      .ok (top, expandedGroups, evaluated)
    else do
      let expanded ← expand group.segment group.id
      expandFrontier frontier ((candidates group.segment expanded).foldl (offer gamma) top)
        (expandedGroups + 1) (min (evaluated + expanded.length) u64Max)

/-- The order of a segment's share: bound descending, then superblock ascending. -/
def Listed (a b : Nat × Nat) : Prop :=
  totalKey b.2 < totalKey a.2 ∨ totalKey b.2 = totalKey a.2 ∧ a.1 ≤ b.1

instance : DecidableRel Listed := fun _ _ => inferInstanceAs (Decidable (_ ∨ _))

instance : Std.Total Listed := ⟨fun a b => by unfold Listed; omega⟩

instance : IsTrans (Nat × Nat) Listed := ⟨fun a b c => by unfold Listed; omega⟩

def selectGlobalLspHierarchical (coarseBounds : List (Option (List Nat))) :
    Result HierarchicalLspSelection :=
  if gamma = 0 then .error (.internal "hierarchical LSP selection requires a positive gamma")
  else do
    let (top, expandedGroups, evaluatedSuperblocks) ←
      expandFrontier gamma expand ((groups coarseBounds).insertionSort (· ≥ ·)) [] 0 0
    .ok
      { selected := (range coarseBounds.length).map fun segment =>
          ((top.filter (·.segment = segment)).map fun c => (c.id, c.bound)).insertionSort Listed
        expandedGroups, evaluatedSuperblocks }

/-! ## The stop rule loses nothing -/

variable (superblocks : Nat → Nat → List (Nat × Nat))

/-- What a group offers. -/
def offered (group : Cell) : List Cell :=
  candidates group.segment (superblocks group.segment group.id)

variable {superblocks}

/-- The loop is a full scan of the frontier. -/
theorem expandFrontier_eq {frontier : List Cell} (top : List Cell) (n e : Nat)
    (hsorted : frontier.Pairwise (· ≥ ·))
    (hbound : ∀ group ∈ frontier, ∀ c ∈ offered superblocks group, c.bound ≤ group.bound) :
    ∃ n' e', expandFrontier gamma (fun s g => .ok (superblocks s g)) frontier top n e =
      .ok ((frontier.flatMap (offered superblocks)).foldl (offer gamma) top, n', e') := by
  induction frontier generalizing top n e with
  | nil => exact ⟨n, e, rfl⟩
  | cons group frontier ih =>
    obtain ⟨hle, hsorted⟩ := pairwise_cons.mp hsorted
    rw [expandFrontier]
    split
    · rename_i hstop
      obtain ⟨hfull, hlt⟩ := hstop
      obtain ⟨m, hm, hlt⟩ := Option.any_eq_true .. |>.mp hlt
      refine ⟨n, e, ?_⟩
      -- every later group's bound is at most this one's
      rw [foldl_offer_of_lt hfull hm]
      intro c hc
      obtain ⟨g, hg, hc⟩ := mem_flatMap.mp hc
      have hg' : g.bound ≤ group.bound := by
        rcases mem_cons.mp hg with rfl | hg
        · exact le_rfl
        · exact Prod.Lex.monotone_fst _ _ (hle g hg)
      have : c.bound < m.bound := ((hbound g hg c hc).trans hg').trans_lt (of_decide_eq_true hlt)
      exact Prod.Lex.toLex_lt_toLex.mpr (.inl this)
    · rw [flatMap_cons, foldl_append]
      exact ih _ _ _ hsorted fun g hg => hbound g (mem_cons_of_mem _ hg)

/-! ## The selection is that of a full scan -/

/-- A non-negative number: `+0.0` up to infinity, or `-0.0`. -/
def NonNeg (bits : Nat) : Prop := bits ≤ 0x7f800000 ∨ bits = 0x80000000

/-- `a <= b` of non-negative numbers: the two zeros are below all others. -/
def Le (a b : Nat) : Prop := gtZero a → gtZero b ∧ a ≤ b

variable (superblocks) (coarseBounds : List (Option (List Nat)))

/-- No superblock bound is negative, and a coarse bound is at least every superblock bound in its
group. Groups are numbered by a `u32`. -/
def SafeBounds : Prop :=
  ∀ x ∈ coarseBounds.zipIdx, ∀ y ∈ (x.1.getD []).zipIdx,
    y.2 < 2 ^ 32 ∧ ∀ p ∈ superblocks x.2 y.2, NonNeg p.2 ∧ Le p.2 y.1

/-- Every superblock with a positive bound, of every group of every segment. -/
def positiveSuperblocks : List Cell :=
  coarseBounds.zipIdx.flatMap fun (bounds, segment) =>
    (bounds.getD []).zipIdx.flatMap fun (_, group) =>
      ((superblocks segment group).filter (gtZero ·.2)).map fun p => ⟨p.2, segment, p.1⟩

/-- The superblocks of a segment among the `gamma` greatest of all, with their bounds. -/
def share (s : Nat) : List (Nat × Nat) :=
  ((((positiveSuperblocks superblocks coarseBounds).insertionSort (· ≥ ·)).take gamma).filter
    (·.segment = s)).map fun c => (c.id, c.bound)

variable {gamma superblocks coarseBounds} (h : SafeBounds superblocks coarseBounds)

theorem not_leZero {bits : Nat} (h : NonNeg bits) : (!leZero bits) = gtZero bits := by
  rcases h with h | rfl
  · by_cases h0 : bits = 0
    · rw [h0]; rfl
    · simp [leZero, gtZero, h0, h, Nat.pos_of_ne_zero h0, show ¬ 0x80000000 ≤ bits by omega]
  · rfl

include h

theorem SafeBounds.offered_eq {x : Option (List Nat) × Nat} {y : Nat × Nat}
    (hx : x ∈ coarseBounds.zipIdx) (hy : y ∈ (x.1.getD []).zipIdx) :
    offered superblocks ⟨y.1, x.2, y.2 % 2 ^ 32⟩ =
      ((superblocks x.2 y.2).filter (gtZero ·.2)).map fun p => ⟨p.2, x.2, p.1⟩ := by
  obtain ⟨hfit, hp⟩ := h x hx y hy
  rw [offered, Nat.mod_eq_of_lt hfit, candidates, filter_congr fun p hm => not_leZero (hp p hm).1]

/-- A group that is not on the frontier has nothing to offer. -/
theorem SafeBounds.offered_groups : (groups coarseBounds).flatMap (offered superblocks) =
    positiveSuperblocks superblocks coarseBounds := by
  rw [groups, positiveSuperblocks, flatMap_assoc]
  refine flatMap_congr fun x hx => ?_
  rw [flatMap_assoc]
  refine flatMap_congr fun y hy => ?_
  dsimp only
  split
  · rw [flatMap_singleton, h.offered_eq hx hy]
  · rename_i hb
    rw [filter_eq_nil_iff.mpr fun p hp hpos => hb (((h x hx y hy).2 p hp).2 hpos).1]
    rfl

theorem SafeBounds.offered_le {group c : Cell} (hgroup : group ∈ groups coarseBounds)
    (hc : c ∈ offered superblocks group) : c.bound ≤ group.bound := by
  obtain ⟨x, hx, hmem⟩ := mem_flatMap.mp hgroup
  obtain ⟨y, hy, hcell⟩ := mem_flatMap.mp hmem
  dsimp only at hcell
  split at hcell
  · obtain rfl := mem_singleton.mp hcell
    rw [h.offered_eq hx hy] at hc
    obtain ⟨p, hp, rfl⟩ := mem_map.mp hc
    obtain ⟨hp, hpos⟩ := mem_filter.mp hp
    exact (((h x hx y hy).2 p hp).2 hpos).2
  · cases hcell

omit h in
theorem totalKey_share {s : Nat} {a : Nat × Nat} (ha : a ∈ share gamma superblocks coarseBounds s) :
    totalKey a.2 = a.2 := by
  obtain ⟨c, hc, rfl⟩ := mem_map.mp ha
  have hc := (mem_insertionSort _).mp (mem_of_mem_take (mem_filter.mp hc).1)
  obtain ⟨_, -, hc⟩ := mem_flatMap.mp hc
  obtain ⟨_, -, hc⟩ := mem_flatMap.mp hc
  obtain ⟨p, hp, rfl⟩ := mem_map.mp hc
  have hpos : 0 < p.2 ∧ p.2 ≤ 0x7f800000 := by simpa [gtZero] using (mem_filter.mp hp).2
  exact if_pos (show p.2 < 0x80000000 by omega)

/-- The selection is the `gamma` greatest of all positive superblocks, each segment's share listed
by bound descending, then by superblock ascending. -/
theorem selectGlobalLspHierarchical_exact (hgamma : 0 < gamma) :
    ∃ r, selectGlobalLspHierarchical gamma (fun s g => .ok (superblocks s g)) coarseBounds = .ok r ∧
      r.selected.length = coarseBounds.length ∧
      ∀ s l, r.selected[s]? = some l → l ~ share gamma superblocks coarseBounds s ∧
        l.Pairwise fun a b => b.2 < a.2 ∨ b.2 = a.2 ∧ a.1 ≤ b.1 := by
  have hsort := perm_insertionSort (· ≥ ·) (groups coarseBounds)
  obtain ⟨n, e, hrun⟩ := expandFrontier_eq gamma [] 0 0 (pairwise_insertionSort (· ≥ ·) _)
    fun group hgroup c hc => h.offered_le (hsort.mem_iff.mp hgroup) hc
  rw [foldl_offer_nil hgamma, insertionSort_perm (hsort.flatMap_right _), h.offered_groups] at hrun
  rw [selectGlobalLspHierarchical, if_neg hgamma.ne', hrun]
  refine ⟨_, rfl, by simp, fun s l hl => ?_⟩
  obtain ⟨_, hs, rfl⟩ := List.getElem?_eq_some_iff.mp hl
  simp only [getElem_map, getElem_range]
  refine ⟨perm_insertionSort .., (pairwise_insertionSort ..).imp_of_mem fun ha hb hab => ?_⟩
  rw [Listed, totalKey_share ((mem_insertionSort _).mp ha),
    totalKey_share ((mem_insertionSort _).mp hb)] at hab
  omega

omit h in
/-- Two superblocks tie with a coarse bound, so both groups that hold one are expanded and each segment gets one. -/
theorem selectGlobalLspHierarchical_tie :
    ∃ r, selectGlobalLspHierarchical 2
        (fun s g => .ok (if s + g = 0 then [(0, 4), (1, 5)] else [(7, 0x80000000), (8, 5)]))
        [some [5], none, some [5]] = .ok r ∧ r.selected = [[(1, 5)], [], [(8, 5)]] := by
  have hsafe : SafeBounds (fun s g => if s + g = 0 then [(0, 4), (1, 5)] else [(7, 0x80000000), (8, 5)])
      [some [5], none, some [5]] := by
    unfold SafeBounds NonNeg Le
    decide
  obtain ⟨r, hr, hlen, hshare⟩ := selectGlobalLspHierarchical_exact hsafe (by decide : 0 < 2)
  obtain ⟨first, second, third, heq⟩ := length_eq_three.mp hlen
  rw [heq] at hshare
  have hfirst : first ~ [(1, 5)] := (hshare 0 first rfl).1.trans (by decide +kernel)
  have hsecond : second ~ [] := (hshare 1 second rfl).1.trans (by decide +kernel)
  have hthird : third ~ [(8, 5)] := (hshare 2 third rfl).1.trans (by decide +kernel)
  refine ⟨r, hr, ?_⟩
  rw [heq, perm_singleton.mp hfirst, perm_nil.mp hsecond, perm_singleton.mp hthird]

end Summa.Lsp
