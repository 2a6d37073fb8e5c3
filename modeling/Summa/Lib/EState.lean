
/-!
# Rules for stateful computations that may fail

`EStateM ε σ` keeps the state of a failed run. A `check` reads and may fail, but changes nothing;
the rules take a sequence with a check, or a sequence in general, apart.
-/

namespace Summa.EState

variable {ε σ α β : Type} {s s' : σ} {e : ε}

/-- A check that does not change the state. -/
def check (r : Except ε α) : EStateM ε σ α := fun s =>
  match r with
  | .ok a => .ok a s
  | .error e => .error e s

@[simp] theorem check_ok_bind (a : α) (f : α → EStateM ε σ β) :
    (check (.ok a) >>= f) s = f a s := rfl

@[simp] theorem check_error_bind (e : ε) (f : α → EStateM ε σ β) :
    (check (.error e) >>= f) s = .error e s := rfl

variable {r : Except ε α} {f : α → EStateM ε σ β}

theorem check_bind_ok {b : β} (h : (check r >>= f) s = .ok b s') : ∃ a, r = .ok a ∧ f a s = .ok b s' := by
  cases r with
  | error e => cases h
  | ok a => exact ⟨a, rfl, h⟩

theorem check_bind_error (h : (check r >>= f) s = .error e s') :
    (r = .error e ∧ s' = s) ∨ ∃ a, r = .ok a ∧ f a s = .error e s' := by
  cases r with
  | error e =>
    cases h
    exact .inl ⟨rfl, rfl⟩
  | ok a => exact .inr ⟨a, rfl, h⟩

/-- Every failed run goes from `s` to `s'` with `R s s'`. -/
def FailsWith (R : σ → σ → Prop) (c : EStateM ε σ α) : Prop := ∀ ⦃s e s'⦄, c s = .error e s' → R s s'

theorem FailsWith.check {R : σ → σ → Prop} [Std.Refl R] (rest : ∀ a, FailsWith R (f a)) :
    FailsWith R (check r >>= f) := by
  intro s e s' h
  rcases check_bind_error h with ⟨-, rfl⟩ | ⟨a, -, h⟩
  · exact Std.Refl.refl s'
  · exact rest a h

theorem FailsWith.get {R : σ → σ → Prop} {f : σ → EStateM ε σ β} (rest : ∀ a, FailsWith R (f a)) :
    FailsWith R (get >>= f) := fun s _ _ h => rest s h

theorem get_bind (f : σ → EStateM ε σ β) : ((get : EStateM ε σ σ) >>= f) s = f s s := rfl

theorem bind_ok {x : EStateM ε σ α} {b : β}
    (h : (x >>= f) s = .ok b s') : ∃ a s₁, x s = .ok a s₁ ∧ f a s₁ = .ok b s' := by
  change EStateM.bind x f s = .ok b s' at h
  unfold EStateM.bind at h
  split at h
  · rename_i a s₁ hx
    exact ⟨a, s₁, hx, h⟩
  · cases h

theorem bind_error {x : EStateM ε σ α} (h : (x >>= f) s = .error e s') :
    x s = .error e s' ∨ ∃ a s₁, x s = .ok a s₁ ∧ f a s₁ = .error e s' := by
  change EStateM.bind x f s = .error e s' at h
  unfold EStateM.bind at h
  split at h
  · rename_i a s₁ hx
    exact .inr ⟨a, s₁, hx, h⟩
  · rename_i hx
    cases h
    exact .inl hx

end Summa.EState
