import Mathlib.Data.List.Sort

/-!
# Sorted lists

What scans of a sorted list find: dropping the items below a bound keeps those from the bound on
(`mem_dropWhile_lt`), and taking the items at a key after that is a filter by the key
(`takeWhile_dropWhile_key`). A strictly sorted list is determined by its items (`eq_of_strict`).
`lastAtMost` is the place of the last item that is not above a bound.
-/

namespace Summa

open List

variable {α κ : Type} [LinearOrder κ]

/-- Dropping as many items as the scan passes is dropping while it passes. -/
theorem drop_length_takeWhile (p : α → Bool) (l : List α) :
    l.drop (l.takeWhile p).length = l.dropWhile p := by
  have hdrop : (l.takeWhile p ++ l.dropWhile p).drop (l.takeWhile p).length = _ := drop_left
  rwa [takeWhile_append_dropWhile] at hdrop

/-- A scan past items that all stand in front splits the list as the filters do. -/
theorem scan_eq_filter {p : α → Bool} {l : List α} (h : l.Pairwise fun a b => p b = true → p a = true) :
    l.takeWhile p = l.filter p ∧ l.dropWhile p = l.filter (!p ·) := by
  induction l with
  | nil => exact ⟨rfl, rfl⟩
  | cons a l ih =>
    obtain ⟨ha, hl⟩ := pairwise_cons.mp h
    cases hp : p a with
    | true => simp [hp, ih hl]
    | false =>
      have hnone : ∀ b ∈ l, p b = false := fun b hb => by simpa [hp] using ha b hb
      have hall : l.filter (!p ·) = l := filter_eq_self.mpr fun b hb => by simp [hnone b hb]
      simpa [hp, hall] using hnone

theorem isChain_iff_zip_tail {R : α → α → Prop} {l : List α} :
    l.IsChain R ↔ ∀ p ∈ l.zip l.tail, R p.1 p.2 := by
  induction l with
  | nil => simp
  | cons a l ih =>
    cases l with
    | nil => simp
    | cons b l =>
      rw [isChain_cons_cons, ih]
      simp

variable {l : List κ} {bound : κ} {i : Nat}

variable (hs : l.Pairwise (· < ·))

include hs in
/-- What a sorted list keeps from a bound on. -/
theorem mem_dropWhile_lt {d : κ} :
    d ∈ l.dropWhile (· < bound) ↔ d ∈ l ∧ bound ≤ d := by
  rw [(scan_eq_filter (hs.imp fun hab => by simpa using hab.trans)).2]
  simp

/-- The items at a key stand together in a list that is sorted by key. -/
theorem takeWhile_dropWhile_key {key : α → κ} {l : List α} (k : κ)
    (hs : l.Pairwise fun a b => key a ≤ key b) :
    (l.dropWhile fun a => key a < k).takeWhile (fun a => key a = k) = l.filter (fun a => key a = k) := by
  rw [(scan_eq_filter (hs.imp fun hab => by simpa using hab.trans_lt)).2]
  -- behind the scan no key is smaller
  rw [(scan_eq_filter ((hs.filter _).imp_of_mem fun ha _ hab => ?_)).1, filter_filter]
  · refine filter_congr fun a _ => ?_
    simpa using fun h => h.ge
  · have hge := (mem_filter.mp ha).2
    simp only [decide_eq_true_iff, Bool.not_eq_true', decide_eq_false_iff_not, not_lt] at hge ⊢
    exact fun hb => le_antisymm (hab.trans_eq hb) hge

/-- Under a strict key the items at one item's key are that item alone. -/
theorem filter_key_eq_singleton {key : α → κ} {l : List α} {a : α} (hs : (l.map key).Pairwise (· < ·))
    (ha : a ∈ l) : l.filter (key · = key a) = [a] := by
  classical
  have hnodup : (l.map key).Nodup := hs.imp fun h => h.ne
  have hf : l.filter (key · = key a) = l.filter (· = a) := by
    refine filter_congr fun b hb => ?_
    rw [decide_eq_decide]
    exact ⟨fun h => inj_on_of_nodup_map hnodup hb ha h, fun h => by rw [h]⟩
  rw [hf, filter_eq, count_eq_one_of_mem hnodup.of_map ha]
  rfl

include hs in
/-- A strict list with a bound that is not its last item stays below it. -/
theorem lt_of_getLast?_ne (hle : ∀ a ∈ l, a ≤ bound) (hne : l.getLast? ≠ some bound) :
    ∀ a ∈ l, a < bound := by
  rcases eq_nil_or_concat' l with rfl | ⟨init, last, rfl⟩
  · exact nofun
  · have hlast : last < bound := lt_of_le_of_ne (hle last (by simp)) fun h => hne (by simp [h])
    intro a ha
    rcases mem_append.mp ha with ha | ha
    · exact ((pairwise_append.mp hs).2.2 a ha last mem_cons_self).trans hlast
    · rwa [mem_singleton.mp ha]

/-- Strictly sorted lists with the same members are equal. -/
theorem eq_of_strict {l' : List κ} (h : l.Pairwise (· < ·)) (h' : l'.Pairwise (· < ·))
    (hm : ∀ d, d ∈ l ↔ d ∈ l') : l = l' := by
  have hperm : l.Perm l' := (perm_ext_iff_of_nodup (h.imp fun h => h.ne) (h'.imp fun h => h.ne)).mpr hm
  exact hperm.eq_of_pairwise (fun a b _ _ hab hba => absurd hab hba.asymm) h h'

include hs in
/-- Items of a strictly sorted list are ordered as their places. -/
theorem getElem_le_getElem {j : Nat} (hij : i ≤ j) (hj : j < l.length) :
    l[i] ≤ l[j] := by
  rcases hij.eq_or_lt with rfl | hlt
  · exact le_refl _
  · exact (pairwise_iff_getElem.mp hs i j (hlt.trans hj) hj hlt).le

/-- The place of the last item of a sorted list that is at most `bound`. -/
def lastAtMost (l : List κ) (bound : κ) : Option Nat :=
  match (l.takeWhile (· ≤ bound)).length with
  | 0 => none
  | n + 1 => some n

theorem lastAtMost_cons_of_le {a : κ} (h : a ≤ bound) :
    lastAtMost (a :: l) bound = some ((lastAtMost l bound).elim 0 (· + 1)) := by
  rw [lastAtMost, lastAtMost, takeWhile_cons_of_pos (by simpa using h), length_cons]
  cases (l.takeWhile (· ≤ bound)).length <;> rfl

theorem lastAtMost_cons_of_lt {a : κ} (h : bound < a) : lastAtMost (a :: l) bound = none := by
  rw [lastAtMost, takeWhile_cons_of_neg (by simpa using h)]
  rfl

/-- The scan stops behind the last item that is at most `bound`. -/
theorem length_takeWhile_le (l : List κ) (bound : κ) :
    (l.takeWhile (· ≤ bound)).length = l.findIdx (bound < ·) := by
  have hnot : (fun a => !decide (a ≤ bound)) = fun a => decide (bound < a) := by
    funext a
    simp [← decide_not]
  rw [takeWhile_eq_take_findIdx_not, hnot, length_take, Nat.min_eq_left findIdx_le_length]

/-- The last such item stands before the first one above. -/
theorem lastAtMost_of_findIdx {p : κ → Bool} (hp : ∀ a, p a = true ↔ bound < a) :
    lastAtMost l bound = if 0 < l.findIdx p then some (l.findIdx p - 1) else none := by
  obtain rfl : p = fun a => decide (bound < a) := funext fun a => by rw [Bool.eq_iff_iff, hp, decide_eq_true_iff]
  rw [lastAtMost, length_takeWhile_le]
  cases l.findIdx fun a => decide (bound < a) <;> rfl

include hs in
/-- The item at the place, and those behind it. -/
theorem of_lastAtMost_eq_some (h : lastAtMost l bound = some i) :
    ∃ hi : i < l.length, l[i] ≤ bound ∧ ∀ j, i < j → ∀ hj : j < l.length, bound < l[j] := by
  have hidx : l.findIdx (bound < ·) = i + 1 := by
    rw [lastAtMost_of_findIdx fun _ => decide_eq_true_iff, Option.ite_none_right_eq_some] at h
    have := Option.some.inj h.2
    omega
  have hi : i < l.length := by
    have : l.findIdx (bound < ·) ≤ l.length := findIdx_le_length
    omega
  refine ⟨hi, ?_, fun j hij hj => ?_⟩
  · simpa using not_of_lt_findIdx (show i < l.findIdx (bound < ·) by omega)
  · have hnext : bound < l[i + 1] := by
      have := findIdx_getElem (w := show l.findIdx (bound < ·) < l.length by omega)
      simpa [hidx] using this
    exact hnext.trans_le (getElem_le_getElem hs hij hj)

include hs in
theorem of_lastAtMost_eq_none (h : lastAtMost l bound = none) : ∀ a ∈ l, bound < a := by
  cases l with
  | nil => exact nofun
  | cons b l =>
    have hb : bound < b := by
      by_contra hb
      rw [lastAtMost_cons_of_le (not_lt.mp hb)] at h
      cases h
    exact forall_mem_cons.mpr ⟨hb, fun a ha => hb.trans ((pairwise_cons.mp hs).1 a ha)⟩

include hs in
theorem lastAtMost_eq_some (hi : i < l.length)
    (hle : l[i] ≤ bound) (hnext : ∀ h : i + 1 < l.length, bound < l[i + 1]) : lastAtMost l bound = some i := by
  cases h : lastAtMost l bound with
  | none => exact absurd hle (of_lastAtMost_eq_none hs h _ (getElem_mem hi)).not_ge
  | some k =>
    obtain ⟨hk, hkle, hafter⟩ := of_lastAtMost_eq_some hs h
    rcases lt_trichotomy k i with hlt | rfl | hgt
    · exact absurd hle (hafter i hlt hi).not_ge
    · rfl
    · have hlt := hnext (by omega)
      exact absurd hkle (hlt.trans_le (getElem_le_getElem hs hgt hk)).not_ge

theorem lastAtMost_eq_none (h : ∀ hpos : 0 < l.length, bound < l[0]) : lastAtMost l bound = none := by
  cases l with
  | nil => rfl
  | cons a l => exact lastAtMost_cons_of_lt (h (by simp))

end Summa
