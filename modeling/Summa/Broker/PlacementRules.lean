import Mathlib.Data.List.Infix
import Mathlib.Data.List.TakeWhile

/-!
# Placement rules: the glob matcher (`summa-broker/src/placement_rules.rs`)

`glob_match` decides whether an index name matches the pattern of a placement rule. It remembers the last star
only, and lets it swallow one more character at each mismatch. That is enough: what the pattern wants before the
next star is found at its first place, and the next star then makes up for every later place.

A star of the name is compared as a character first, so a star of the pattern that meets one is used up on it
(`Taken`). `globMatch_eq_true_iff` says for which patterns and names the matcher is right all the same.
-/

namespace Summa.Broker

open List

/-- What is left of the pattern and of the name, and the last star: the pattern after it and the name from
where it stopped swallowing. -/
def globLoop (p n : List Char) (star : Option (List Char × List Char))
    (h : ∀ s ∈ star, n.length ≤ s.2.length) : Bool :=
  match n, p, star with
  | [], p, _ => (p.dropWhile (· == '*')).isEmpty
  | c :: n, p, star =>
    if p.head? = some c then globLoop p.tail n star fun s hs => Nat.le_of_succ_le (h s hs)
    else if p.head? = some '*' then globLoop p.tail (c :: n) (some (p.tail, c :: n)) (by simp)
    else
      match star with
      -- let the last star swallow one more character and retry
      | some (starP, starN) => globLoop starP starN.tail (some (starP, starN.tail)) (by rintro _ ⟨⟩; rfl)
      | none => false
  termination_by (star.elim (n.length + 1) (·.2.length), p.length + n.length)
  decreasing_by
    · cases star <;> simp [Prod.lex_def]; omega
    · have : p ≠ [] := by rintro rfl; simp_all
      have := length_pos_iff.mpr this
      cases star <;> simp [Prod.lex_def]
      have := h _ rfl
      simp at this
      omega
    · have := h _ rfl
      simp [Prod.lex_def] at this ⊢
      omega

/-- Glob match supporting `*` (any run of characters, including empty). -/
def globMatch (pattern name : String) : Bool :=
  globLoop pattern.toList name.toList none (by simp)

/-- The name can be had from the pattern by putting some text for each star. -/
def Matches : (p n : List Char) → Prop
  | [], n => n = []
  | c :: p, n => if c = '*' then ∃ m, m <:+ n ∧ Matches p m else ∃ m, n = c :: m ∧ Matches p m

/-- The same, with a star that meets a star of the name standing for that star alone. -/
def Taken : (p n : List Char) → Prop
  | [], n => n = []
  | c :: p, n => if n.head? = some c then Taken p n.tail else c = '*' ∧ ∃ m, m <:+ n ∧ Taken p m

section

variable {p n m lit : List Char} {c : Char}

theorem taken_cons_iff : Taken (c :: p) (c :: n) ↔ Taken p n := by
  rw [Taken, if_pos head?_cons, tail_cons]

theorem Taken.matches (h : Taken p n) : Matches p n := by
  induction p generalizing n with
  | nil => exact h
  | cons c p ih =>
    rw [Taken] at h
    rw [Matches]
    split at h
    case isTrue hc =>
      obtain ⟨m, rfl⟩ := head?_eq_some_iff.mp hc
      split
      · exact ⟨m, suffix_cons c m, ih h⟩
      · exact ⟨m, rfl, ih h⟩
    case isFalse =>
      obtain ⟨hc, m, hm, h⟩ := h
      rw [if_pos hc]
      exact ⟨m, hm, ih h⟩

/-- In a name without a star none is met. -/
theorem Matches.taken (h : Matches p n) (hn : '*' ∉ n) : Taken p n := by
  induction p generalizing n with
  | nil => exact h
  | cons c p ih =>
    rw [Matches] at h
    split at h
    case isTrue hc =>
      obtain ⟨m, hm, h⟩ := h
      rw [Taken, if_neg fun hhead => hn (hc ▸ mem_of_head? hhead)]
      exact ⟨hc, m, hm, ih h fun hmem => hn (hm.subset hmem)⟩
    case isFalse =>
      obtain ⟨m, rfl, h⟩ := h
      exact taken_cons_iff.mpr (ih h fun hmem => hn (mem_cons_of_mem _ hmem))

theorem taken_append_iff : Taken (lit ++ p) (lit ++ n) ↔ Taken p n := by
  induction lit with
  | nil => rfl
  | cons c lit ih => exact taken_cons_iff.trans ih

theorem taken_star_iff (hn : n.head? ≠ some '*') : Taken ('*' :: p) n ↔ ∃ m, m <:+ n ∧ Taken p m := by
  rw [Taken, if_neg hn, and_iff_right rfl]

theorem not_taken (hc : p.head? ≠ some c) (hp : p.head? ≠ some '*') : ¬ Taken p (c :: n) := by
  cases p with
  | nil => nofun
  | cons d p =>
    rw [Taken, if_neg fun h => hc h.symm]
    exact fun h => hp (congrArg some h.1)

theorem taken_nil_iff : Taken p [] ↔ ∀ c ∈ p, c = '*' := by
  induction p with
  | nil => simp [Taken]
  | cons c p ih => simp [Taken, ih]

/-- What is behind a text in the pattern is found behind its first place in the name, if it is found at all. -/
theorem Taken.behind (h : Taken (lit ++ p) m) (hm : m <:+ lit ++ n) : ∃ k, k <:+ n ∧ Taken p k := by
  induction lit generalizing m with
  | nil => exact ⟨m, hm, h⟩
  | cons c lit ih =>
    rw [cons_append, suffix_cons_iff] at hm
    rw [cons_append, Taken] at h
    split at h
    case isTrue =>
      refine ih h ?_
      rcases hm with rfl | hm
      · exact suffix_rfl
      · exact (tail_suffix m).trans hm
    case isFalse hne =>
      -- the star stands for something else here, so this is not the first place
      obtain ⟨-, k, hk, h⟩ := h
      rcases hm with rfl | hm
      · exact absurd rfl hne
      · exact ih h (hk.trans hm)

end

/-- The question that is left: whether the rest of the pattern takes the rest of the name or, after a star,
whether what followed the star takes some end of the name. -/
def Left (p n : List Char) (star : Option (List Char × List Char)) : Prop :=
  star.elim (Taken p n) fun s => ∃ m, m <:+ s.2 ∧ Taken s.1 m

/-- Since the last star, one text was read in the pattern and in the name. -/
def Read (p n : List Char) (star : Option (List Char × List Char)) : Prop :=
  ∀ s ∈ star, ∃ lit, s = (lit ++ p, lit ++ n)

section

variable {p n : List Char} {star : Option (List Char × List Char)}

theorem left_iff (hread : Read p n star) (h : ∀ m, m <:+ n → Taken p m → Taken p n) :
    Left p n star ↔ Taken p n := by
  cases star with
  | none => rfl
  | some s =>
    obtain ⟨lit, rfl⟩ := hread s rfl
    constructor
    · rintro ⟨m, hm, htaken⟩
      obtain ⟨k, hk, htaken⟩ := htaken.behind hm
      exact h k hk htaken
    · intro htaken
      exact ⟨_, suffix_rfl, taken_append_iff.mpr htaken⟩

theorem left_star_iff (hread : Read ('*' :: p) n star) (hn : n.head? ≠ some '*') :
    Left ('*' :: p) n star ↔ ∃ m, m <:+ n ∧ Taken p m := by
  rw [← taken_star_iff hn]
  refine left_iff hread fun m hm h => (taken_star_iff hn).mpr ?_
  rw [Taken] at h
  split at h
  · exact ⟨m.tail, (tail_suffix m).trans hm, h⟩
  · obtain ⟨-, k, hk, h⟩ := h
    exact ⟨k, hk.trans hm, h⟩

/-- The text read since the last star is not found where it stands now: the star has to swallow more. -/
theorem left_swallow_iff {c : Char} {starP starN : List Char} (hread : Read p (c :: n) (some (starP, starN)))
    (hc : p.head? ≠ some c) (hp : p.head? ≠ some '*') :
    Left starP starN.tail (some (starP, starN.tail)) ↔ Left p (c :: n) (some (starP, starN)) := by
  obtain ⟨lit, heq⟩ := hread _ rfl
  obtain ⟨rfl, rfl⟩ := Prod.mk.inj heq
  have hnot : ¬ Taken (lit ++ p) (lit ++ c :: n) := fun h => not_taken hc hp (taken_append_iff.mp h)
  refine exists_congr fun m => and_congr_left fun hm => ⟨fun h => h.trans (tail_suffix _), fun h => ?_⟩
  cases hstar : lit ++ c :: n with
  | nil => simp at hstar
  | cons d starN =>
    rw [hstar] at h hnot
    obtain rfl | h := suffix_cons_iff.mp h
    · exact absurd hm hnot
    · exact h

/-- The invariant of the loop: it answers the question that is left. -/
theorem globLoop_iff (h : ∀ s ∈ star, n.length ≤ s.2.length) (hread : Read p n star) :
    globLoop p n star h = true ↔ Left p n star := by
  fun_induction globLoop p n star h with
  | case1 star p h =>
    rw [left_iff hread fun m hm h => suffix_nil.mp hm ▸ h, taken_nil_iff, List.isEmpty_iff, dropWhile_eq_nil_iff]
    simp
  | case2 c n p star _ hc _ ih =>
    obtain ⟨p, rfl⟩ := head?_eq_some_iff.mp hc
    rw [ih]
    · cases star with
      | none => exact taken_cons_iff.symm
      | some s => rfl
    · intro s hs
      obtain ⟨lit, rfl⟩ := hread s hs
      exact ⟨lit ++ [c], by simp⟩
  | case3 c n p star _ hc hp _ ih =>
    obtain ⟨p, rfl⟩ := head?_eq_some_iff.mp hp
    rw [left_star_iff hread fun h => hc h.symm]
    exact ih (by rintro _ ⟨⟩; exact ⟨[], rfl⟩)
  | case4 c n p hc hp starP starN _ _ ih =>
    rw [← left_swallow_iff hread hc hp]
    exact ih (by rintro _ ⟨⟩; exact ⟨[], rfl⟩)
  | case5 c n p hc hp => exact iff_of_false nofun (not_taken hc hp)

end

/-- The matcher is right about a pattern and a name exactly if the name is not matched, or can be had with
every star that meets a star of the name standing for that star alone; for instance if the name has no star. -/
theorem globMatch_eq_true_iff (pattern name : String) :
    ((globMatch pattern name = true ↔ Matches pattern.toList name.toList) ↔
      (Matches pattern.toList name.toList → Taken pattern.toList name.toList)) ∧
    ('*' ∉ name.toList → (globMatch pattern name = true ↔ Matches pattern.toList name.toList)) := by
  have hloop : globMatch pattern name = true ↔ Taken pattern.toList name.toList := globLoop_iff _ nofun
  rw [hloop]
  exact ⟨⟨Iff.mpr, fun h => ⟨Taken.matches, h⟩⟩, fun hn => ⟨Taken.matches, fun h => h.taken hn⟩⟩

theorem globMatch_star_of_name : ¬ (globMatch "a*" "a*b" = true ↔ Matches "a*".toList "a*b".toList) := by
  intro h
  have hmatches : Matches ['a', '*'] ['a', '*', 'b'] := ⟨_, rfl, [], nil_suffix, rfl⟩
  have htrue := h.mpr hmatches
  simp [globMatch, globLoop] at htrue

end Summa.Broker
