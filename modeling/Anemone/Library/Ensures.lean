import Anemone.Library.Checked

/-!
# Computations that return, or panic only in an allowed way

`Ensures allowed x P` says that a checked computation either returns a value with the property
`P` or stops with a panic that `allowed` admits.  The rules follow the constructs of the monad.
-/

namespace Checked

variable {α β : Type} {allowed : Panic → Prop}

/-- The computation returns a value with the property, or panics in an allowed way. -/
def Ensures (allowed : Panic → Prop) (x : Checked α) (P : α → Prop) : Prop :=
  match x with
  | .ok a => P a
  | .error e => allowed e

namespace Ensures

variable {x : Checked α} {f : α → Checked β}

/-- A sequence ensures what its second half ensures after its first. -/
theorem bind {P : β → Prop} :
    Ensures allowed (x >>= f) P ↔ Ensures allowed x fun a => Ensures allowed (f a) P := by
  cases x <;> exact Iff.rfl

theorem mono {P Q : α → Prop} (h : Ensures allowed x P)
    (hPQ : ∀ a, P a → Q a) : Ensures allowed x Q := by
  cases x with
  | ok a => exact hPQ a h
  | error e => exact h

variable {P : α → Prop}

/-- A specification of the first half is used for the second. -/
theorem bind_of {Q : β → Prop} (hx : Ensures allowed x P) (hf : ∀ a, P a → Ensures allowed (f a) Q) :
    Ensures allowed (x >>= f) Q := bind.mpr (hx.mono hf)

/-- An assertion that holds is passed. -/
theorem assert_bind {p : Prop} [Decidable p] {reason : String} {f : Unit → Checked β}
    {P : β → Prop} (hp : p) (h : Ensures allowed (f ()) P) :
    Ensures allowed (assert p reason >>= f) P := by
  rw [assert_of reason hp]
  exact h

/-- What a computation that returned has. -/
theorem of_eq_ok {a : α} (h : Ensures allowed x P) (ha : x = .ok a) : P a := by
  rw [ha] at h
  exact h

/-- A computation returns, or its panic is allowed. -/
theorem returns_or (h : Ensures allowed x P) :
    (∃ a, x = .ok a ∧ P a) ∨ ∃ e, x = .error e ∧ allowed e := by
  cases x with
  | ok a => exact .inl ⟨a, rfl, h⟩
  | error e => exact .inr ⟨e, rfl, h⟩

end Ensures

end Checked
