import Mathlib.Tactic.Ring

/-!
# Separated intervals

A family of half-open intervals `[lo i, hi i)` of natural numbers is separated when any
two of them leave a gap.  A separated family is determined by its union: a run of numbers
inside the union lies inside one interval, and the members are the maximal runs.
-/

namespace Intervals

variable {ι : Type} (lo hi : ι → ℕ) (S : Set ι)

/-- The numbers in some interval of the family. -/
def union : Set ℕ := {x | ∃ i ∈ S, lo i ≤ x ∧ x < hi i}

/-- Any two intervals of the family leave a gap. -/
def Separated : Prop := ∀ i ∈ S, ∀ j ∈ S, i ≠ j → hi i < lo j ∨ hi j < lo i

variable {lo hi S} {i : ι} {x : ℕ}

theorem mem_union_sdiff (hi' : i ∈ S) :
    x ∈ union lo hi S ↔ x ∈ union lo hi (S \ {i}) ∨ (lo i ≤ x ∧ x < hi i) := by
  constructor
  · rintro ⟨j, hj, hx⟩
    by_cases hne : j = i
    · exact .inr (hne ▸ hx)
    · exact .inl ⟨j, ⟨hj, hne⟩, hx⟩
  · rintro (⟨j, hj, hx⟩ | hx)
    · exact ⟨j, hj.1, hx⟩
    · exact ⟨i, hi', hx⟩

theorem mem_union_or {c : Prop} :
    x ∈ union lo hi {j | j ∈ S ∨ (c ∧ j = i)} ↔
      x ∈ union lo hi S ∨ (c ∧ lo i ≤ x ∧ x < hi i) := by
  constructor
  · rintro ⟨j, hj | ⟨hc, rfl⟩, hx⟩
    · exact .inl ⟨j, hj, hx⟩
    · exact .inr ⟨hc, hx⟩
  · rintro (⟨j, hj, hx⟩ | ⟨hc, hx⟩)
    · exact ⟨j, .inl hj, hx⟩
    · exact ⟨i, .inr ⟨hc, rfl⟩, hx⟩

/-- A run inside the union lies inside one interval. -/
theorem Separated.exists_of_run (h : Separated lo hi S) {a b : ℕ} (hab : a < b)
    (hrun : ∀ x, a ≤ x → x < b → x ∈ union lo hi S) : ∃ i ∈ S, lo i ≤ a ∧ b ≤ hi i := by
  induction b, hab using Nat.le_induction with
  | base =>
    obtain ⟨i, hi, hlo, hlt⟩ := hrun a le_rfl (Nat.lt_succ_self a)
    exact ⟨i, hi, hlo, hlt⟩
  | succ b hab ih =>
    obtain ⟨i, hi, hlo, hle⟩ := ih fun x hax hxb => hrun x hax (by omega)
    obtain ⟨j, hj, hloj, hltj⟩ := hrun b (by omega) (Nat.lt_succ_self b)
    -- the interval over `b` touches the one that ends there, so it is the same
    have hij : i = j := by
      by_contra hne
      rcases h i hi j hj hne with hlt | hlt <;> omega
    subst hij
    exact ⟨i, hi, hlo, hltj⟩

/-- Two intervals of the family that share a number are the same. -/
theorem Separated.eq_of_mem (h : Separated lo hi S) {j : ι} (hi' : i ∈ S) (hj : j ∈ S)
    (hxi : lo i ≤ x ∧ x < hi i) (hxj : lo j ≤ x ∧ x < hi j) : i = j := by
  by_contra hne
  rcases h i hi' j hj hne with hlt | hlt <;> omega

end Intervals
