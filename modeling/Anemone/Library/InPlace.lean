import Mathlib.Logic.Basic

/-!
# Changes in place

A routine that changes a state in place and may fail is an `EStateM` routine: what it has
written before an error stays written.  A routine that fails before its first write, if it fails,
is all or nothing.
-/

namespace InPlace

variable {ε σ τ α β : Type}

/-- A routine on a part of a state. -/
def within (part : σ → τ) (put : σ → τ → σ) (f : EStateM ε τ α) : EStateM ε σ α := fun s =>
  match f (part s) with
  | .ok a t => .ok a (put s t)
  | .error e t => .error e (put s t)

/-- From `s` the routine ends as `Q` says, or it fails and has written nothing. -/
def AllOrNothing (s : σ) (f : EStateM ε σ α) (Q : α → σ → Prop) : Prop :=
  match f s with
  | .ok a t => Q a t
  | .error _ t => t = s

variable {s : σ} {Q : α → σ → Prop}

@[simp] theorem allOrNothing_pure (a : α) :
    AllOrNothing s (pure a : EStateM ε σ α) Q ↔ Q a s := Iff.rfl

@[simp] theorem allOrNothing_throw (e : ε) :
    AllOrNothing s (throw e : EStateM ε σ α) Q ↔ True := iff_of_true rfl trivial

@[simp] theorem allOrNothing_modify {Q : Unit → σ → Prop} (f : σ → σ) :
    AllOrNothing s (modify f : EStateM ε σ Unit) Q ↔ Q () (f s) := Iff.rfl

@[simp] theorem allOrNothing_modifyGet (f : σ → α × σ) :
    AllOrNothing s (modifyGet f : EStateM ε σ α) Q ↔ Q (f s).1 (f s).2 := Iff.rfl

@[simp] theorem allOrNothing_get_bind (f : σ → EStateM ε σ α) :
    AllOrNothing s (get >>= f) Q ↔ AllOrNothing s (f s) Q := Iff.rfl

theorem AllOrNothing.mono {P : α → σ → Prop} {f : EStateM ε σ α} (h : AllOrNothing s f P)
    (hPQ : ∀ a t, P a t → Q a t) : AllOrNothing s f Q := by
  unfold AllOrNothing at h ⊢
  split at h
  · exact hPQ _ _ h
  · exact h

/-- What is looked up beforehand writes nothing. -/
theorem AllOrNothing.ofExcept_bind {x : Except ε β} {f : β → EStateM ε σ α}
    (h : ∀ b, x = .ok b → AllOrNothing s (f b) Q) : AllOrNothing s (ofExcept x >>= f) Q := by
  cases x with
  | ok b => exact h b rfl
  | error e => exact rfl

theorem AllOrNothing.within {part : σ → τ} {put : σ → τ → σ} {f : EStateM ε τ α}
    (hput : put s (part s) = s) (h : AllOrNothing (part s) f fun a t => Q a (put s t)) :
    AllOrNothing s (within part put f) Q := by
  unfold AllOrNothing at h ⊢
  unfold InPlace.within
  cases hf : f (part s) with
  | ok a t =>
    rw [hf] at h
    exact h
  | error e t =>
    rw [hf] at h
    exact h ▸ hput

/-- What follows may not fail: it would leave what was written. -/
theorem AllOrNothing.bind {P : β → σ → Prop} {f : EStateM ε σ β} {g : β → EStateM ε σ α}
    (h : AllOrNothing s f P) (hg : ∀ b t, P b t → ∃ a u, g b t = .ok a u ∧ Q a u) :
    AllOrNothing s (f >>= g) Q := by
  have hrun : (f >>= g) s = match f s with
    | .ok b t => g b t
    | .error e t => .error e t := rfl
  unfold AllOrNothing at h ⊢
  rw [hrun]
  cases hf : f s with
  | ok b t =>
    rw [hf] at h
    obtain ⟨a, u, hrest, hq⟩ := hg b t h
    simp only [hrest]
    exact hq
  | error e t =>
    rw [hf] at h
    exact h

end InPlace
