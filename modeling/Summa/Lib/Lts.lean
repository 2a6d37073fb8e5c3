/-!
# Labelled transition systems and their invariants

A system has initial states and steps with labels. `Reach` are the states of all its runs (`Run`),
under any interleaving of its parties. `Inductive` is an inductive invariant: it holds initially and each
step from a state that has it keeps it.
-/

namespace Summa

structure Lts (σ ε : Type) where
  init : σ → Prop
  step : σ → ε → σ → Prop

namespace Lts

variable {σ ε : Type} (S : Lts σ ε)

/-- The states that a run reaches. -/
inductive Reach : σ → Prop
  | init {s : σ} : S.init s → Reach s
  | step {s s' : σ} {e : ε} : Reach s → S.step s e s' → Reach s'

/-- A run, with its labels. -/
inductive Run : σ → List ε → σ → Prop
  | nil {s : σ} : Run s [] s
  | cons {s s' s'' : σ} {e : ε} {es : List ε} : S.step s e s' → Run s' es s'' → Run s (e :: es) s''

/-- It holds initially and every step keeps it. -/
structure Inductive (I : σ → Prop) : Prop where
  init : ∀ s, S.init s → I s
  step : ∀ s e s', I s → S.step s e s' → I s'

variable {S}

theorem Run.reach {s s' : σ} {es : List ε} (h : S.Run s es s') (hs : S.Reach s) : S.Reach s' := by
  induction h with
  | nil => exact hs
  | cons hst _ ih => exact ih (.step hs hst)

/-- What every step of a run keeps, the run keeps. -/
@[elab_as_elim] theorem Run.keeps {I : σ → Prop} {s s' : σ} {es : List ε} (h : S.Run s es s') (hreach : S.Reach s)
    (hs : I s) (hstep : ∀ a e b, e ∈ es → S.Reach a → I a → S.step a e b → I b) : I s' := by
  induction h with
  | nil => exact hs
  | cons hst _ ih =>
    exact ih (.step hreach hst) (hstep _ _ _ (.head _) hreach hs hst) fun a e b he => hstep a e b (.tail _ he)

/-- A run is cut in two wherever its labels are. -/
theorem Run.of_append {s s'' : σ} {as bs : List ε} (h : S.Run s (as ++ bs) s'') :
    ∃ s', S.Run s as s' ∧ S.Run s' bs s'' := by
  induction as generalizing s with
  | nil => exact ⟨s, .nil, h⟩
  | cons a as ih =>
    cases h with
    | cons hst hrest =>
      obtain ⟨s', hleft, hright⟩ := ih hrest
      exact ⟨s', .cons hst hleft, hright⟩

theorem Inductive.reach {I : σ → Prop} (h : S.Inductive I) {s : σ} (hs : S.Reach s) : I s := by
  induction hs with
  | init hi => exact h.init _ hi
  | step _ hst ih => exact h.step _ _ _ ih hst

end Lts

end Summa
