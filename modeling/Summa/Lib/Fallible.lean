import Mathlib.Data.List.Basic

/-!
# Rules for computations that may fail

What follows from a successful run of a sequence, a loop or a fold in `Except ε`.

* `bind_eq_ok`: a sequence that ends well ends well in its first part.
* `ite_eq_ok`, `failIf`: an early return with an error.
* `forM_eq_ok`, `mapM_eq_ok`, `map_of_mapM_eq_ok`, `mapM_of_forall`: loops over a list.
* `mapM_eq_ok_iff`, `mapM_eq_ok_of_item`, `mapM_eq_some_iff`: the results of a loop, item by item.
* `foldlM_eq_ok_rec`: the invariant rule for a fold, over the prefix that was processed;
  `foldlM_ne_error`: its errors are errors of its steps.
-/

namespace Summa.Fallible

open List

variable {ε α β σ : Type}

@[simp] theorem ok_bind (a : α) (f : α → Except ε β) : ((.ok a : Except ε α) >>= f) = f a := rfl

@[simp] theorem error_bind (e : ε) (f : α → Except ε β) :
    ((.error e : Except ε α) >>= f) = .error e := rfl

variable {f : α → Except ε β} {bad : Prop} {e : ε} {l : List α} {r : List β}

theorem bind_eq_ok {x : Except ε α} {b : β} (h : x >>= f = .ok b) : ∃ a, x = .ok a ∧ f a = .ok b := by
  cases x with
  | error e => cases h
  | ok a => exact ⟨a, rfl, h⟩

/-- A sequence whose first part ends well under a condition, with one result. -/
theorem bind_eq_ok_of_iff {x : Except ε α} {P : Prop} {a : α} {b : β} (h : ∀ a', x = .ok a' ↔ P ∧ a' = a) :
    x >>= f = .ok b ↔ P ∧ f a = .ok b := by
  constructor
  · intro hb
    obtain ⟨a', ha, hb⟩ := bind_eq_ok hb
    obtain ⟨hp, rfl⟩ := (h a').mp ha
    exact ⟨hp, hb⟩
  · rintro ⟨hp, hb⟩
    rw [(h a).mpr ⟨hp, rfl⟩]
    exact hb

/-- An early return with an error that was not taken. -/
theorem ite_eq_ok [Decidable bad] {x : Except ε α} {a : α} :
    (if bad then .error e else x) = .ok a ↔ ¬ bad ∧ x = .ok a := by
  split
  case isTrue h => exact ⟨nofun, fun hn => absurd h hn.1⟩
  case isFalse h => exact ⟨fun heq => ⟨h, heq⟩, fun hn => hn.2⟩

/-- `if bad { return Err(e) }`. -/
def failIf (bad : Prop) [Decidable bad] (e : ε) : Except ε Unit := if bad then .error e else .ok ()

theorem failIf_of_not [Decidable bad] (h : ¬ bad) : failIf bad e = .ok () := if_neg h

theorem failIf_eq_ok [Decidable bad] {u : Unit} : failIf bad e = .ok u ↔ ¬ bad :=
  ite_eq_ok.trans (and_iff_left rfl)

theorem failIf_coe_eq_ok {c : Bool} {u : Unit} : failIf c e = .ok u ↔ c = false :=
  failIf_eq_ok.trans (iff_of_eq (Bool.not_eq_true c))

/-- A check that passes leaves what comes behind it. -/
theorem failIf_bind [Decidable bad] (h : ¬ bad) (f : Unit → Except ε β) : (failIf bad e >>= f) = f () := by
  rw [failIf_of_not h, ok_bind]

theorem failIf_bind_eq_ok [Decidable bad] {f : Unit → Except ε β} {b : β} :
    (failIf bad e >>= f) = .ok b ↔ ¬ bad ∧ f () = .ok b := by
  rw [← ite_eq_ok (e := e), failIf]
  split <;> rfl

theorem forM_eq_ok {f : α → Except ε Unit} : l.forM f = .ok () ↔ ∀ a ∈ l, f a = .ok () := by
  induction l with
  | nil => exact ⟨nofun, fun _ => rfl⟩
  | cons a l ih =>
    have hstep : (a :: l).forM f = f a >>= fun _ => l.forM f := rfl
    rw [hstep, forall_mem_cons, ← ih]
    cases f a with
    | error e => exact ⟨nofun, fun h => (nomatch h.1)⟩
    | ok u => exact ⟨fun h => ⟨rfl, h⟩, fun h => h.2⟩

/-- A loop whose results tell their items: the items of the results are the items of the loop. -/
theorem map_of_mapM_eq_ok {g : β → α}
    (hg : ∀ a b, f a = .ok b → g b = a) (h : l.mapM f = .ok r) : r.map g = l := by
  induction l generalizing r with
  | nil => cases h; rfl
  | cons a l ih =>
    rw [mapM_cons] at h
    obtain ⟨b, hb, h⟩ := bind_eq_ok h
    obtain ⟨r', hr, h⟩ := bind_eq_ok h
    cases h
    rw [map_cons, hg a b hb, ih hr]

theorem mapM_of_forall (h : ∀ a ∈ l, ∃ b, f a = .ok b) : ∃ r, l.mapM f = .ok r := by
  induction l with
  | nil => exact ⟨[], rfl⟩
  | cons a l ih =>
    obtain ⟨b, hb⟩ := h a mem_cons_self
    obtain ⟨r, hr⟩ := ih fun a ha => h a (mem_cons_of_mem _ ha)
    exact ⟨b :: r, by rw [mapM_cons, hb, ok_bind, hr]; rfl⟩

/-- A loop ends well exactly with the results of its items. -/
theorem mapM_eq_ok_iff : l.mapM f = .ok r ↔ l.map f = r.map .ok := by
  induction l generalizing r with
  | nil => cases r <;> simp [pure, Except.pure]
  | cons a l ih =>
    rw [mapM_cons, map_cons]
    cases hf : f a with
    | error e => cases r <;> simp
    | ok b =>
      cases r with
      | nil => cases hl : l.mapM f <;> simp [pure, Except.pure]
      | cons b' r =>
        rw [map_cons, cons.injEq, ← ih]
        cases hl : l.mapM f <;> simp [pure, Except.pure]

/-- The results of a loop are the results of its items. -/
theorem mapM_eq_ok (h : l.mapM f = .ok r) :
    (∀ b ∈ r, ∃ a ∈ l, f a = .ok b) ∧ ∀ a ∈ l, ∃ b ∈ r, f a = .ok b := by
  have h := mapM_eq_ok_iff.mp h
  refine ⟨fun b hb => ?_, fun a ha => ?_⟩
  · have hmem : .ok b ∈ l.map f := h ▸ mem_map_of_mem hb
    exact mem_map.mp hmem
  · have hmem : f a ∈ r.map .ok := h ▸ mem_map_of_mem ha
    obtain ⟨b, hb, heq⟩ := mem_map.mp hmem
    exact ⟨b, hb, heq.symm⟩

/-- A loop whose items succeed under a condition, each with one result. -/
theorem mapM_eq_ok_of_item {P : α → Prop} {g : α → β} (h : ∀ a ∈ l, ∀ b, f a = .ok b ↔ P a ∧ b = g a) :
    l.mapM f = .ok r ↔ (∀ a ∈ l, P a) ∧ r = l.map g := by
  rw [mapM_eq_ok_iff]
  induction l generalizing r with
  | nil => simp [eq_comm]
  | cons a l ih =>
    rw [forall_mem_cons] at h
    cases r with
    | nil => simp
    | cons b r =>
      rw [map_cons, map_cons, cons.injEq, h.1 b, ih h.2, map_cons, cons.injEq,
        forall_mem_cons]
      tauto

/-- A loop of optional results ends with all of them. -/
theorem mapM_eq_some_iff {f : α → Option β} : l.mapM f = some r ↔ l.map f = r.map some := by
  induction l generalizing r with
  | nil => cases r <;> simp
  | cons a l ih =>
    rw [mapM_cons, map_cons]
    cases hf : f a with
    | none => cases r <;> simp
    | some b =>
      cases r with
      | nil => cases hl : l.mapM f <;> simp
      | cons b' r =>
        rw [map_cons, cons.injEq, ← ih]
        cases hl : l.mapM f <;> simp

/-- The invariant rule: what holds of the start and is kept by each step that succeeds, holds of
the result. `motive` speaks about the processed prefix. -/
@[elab_as_elim] theorem foldlM_eq_ok_rec {f : σ → α → Except ε σ} {motive : List α → σ → Prop} {s s' : σ}
    (h : l.foldlM f s = .ok s') (init : motive [] s)
    (step : ∀ pre a s s', a ∈ l → motive pre s → f s a = .ok s' → motive (pre ++ [a]) s') : motive l s' := by
  suffices hgen : ∀ (suf pre : List α) (s : σ), suf.foldlM f s = .ok s' → (∀ a ∈ suf, a ∈ l) →
      motive pre s → motive (pre ++ suf) s' from hgen l [] s h (fun _ ha => ha) init
  intro suf
  induction suf with
  | nil => intro pre s h _ hm; cases h; simpa using hm
  | cons a suf ih =>
    intro pre s h hsub hm
    obtain ⟨s₁, hs, h⟩ := bind_eq_ok h
    have := ih (pre ++ [a]) s₁ h (fun b hb => hsub b (mem_cons_of_mem _ hb))
      (step pre a s s₁ (hsub a mem_cons_self) hm hs)
    rwa [append_assoc] at this

/-- A fold fails only with an error of one of its steps. -/
theorem foldlM_ne_error {f : σ → α → Except ε σ} (h : ∀ s a, f s a ≠ .error e) (s : σ)
    (l : List α) : l.foldlM f s ≠ .error e := by
  induction l generalizing s with
  | nil => exact nofun
  | cons a l ih =>
    rw [foldlM_cons]
    cases hs : f s a with
    | error e' =>
      rw [error_bind, ← hs]
      exact h s a
    | ok s₁ => exact ih s₁

end Summa.Fallible
