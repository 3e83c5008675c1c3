import Mathlib.Algebra.Order.Group.Multiset
import Mathlib.Data.Finset.Defs
import Mathlib.Algebra.BigOperators.Group.List.Basic
import Mathlib.Tactic.Abel

/-!
# Things in places

A stock of things that move between places, where a place is a multiset.  The places hold the
stock if together they have every thing of it once and nothing else.  A move keeps the sum, so
that it keeps `Holds` whatever else the places are.
-/

namespace Places

open Function (update)
open List

variable {α : Type}

/-- The places have every thing of the stock once, and nothing else. -/
def Holds (places : List (Multiset α)) (stock : Finset α) : Prop := places.sum = stock.val

variable {places : List (Multiset α)} {p : Multiset α}

theorem le_sum_of_mem (h : p ∈ places) :
    p ≤ places.sum := by
  induction places with
  | nil => cases h
  | cons q places ih =>
    rw [sum_cons]
    rcases mem_cons.mp h with rfl | h
    · exact Multiset.le_add_right _ _
    · exact (ih h).trans (Multiset.le_add_left _ _)

variable {stock : Finset α} {x : α}

theorem Holds.nodup (h : Holds places stock) :
    places.sum.Nodup := by
  rw [h]
  exact stock.nodup

/-- Every thing that some place has is in exactly one place. -/
theorem existsUnique_of_nodup (h : places.sum.Nodup) (hx : x ∈ places.sum) :
    ∃! i : ℕ, ∃ p : Multiset α, places[i]? = some p ∧ x ∈ p := by
  induction places with
  | nil => cases hx
  | cons q places ih =>
    rw [sum_cons] at h hx
    obtain ⟨-, hrest, hdisjoint⟩ := Multiset.nodup_add.mp h
    have hlater : ∀ i p, places[i]? = some p → x ∈ p → x ∈ places.sum :=
      fun i p hp hmem => Multiset.mem_of_le (le_sum_of_mem (mem_of_getElem? hp)) hmem
    rcases Multiset.mem_add.mp hx with hq | hx
    · refine ⟨0, ⟨q, rfl, hq⟩, ?_⟩
      rintro (_ | i) ⟨p, hp, hmem⟩
      · rfl
      · exact absurd (hlater i p hp hmem) (Multiset.disjoint_left.mp hdisjoint hq)
    · obtain ⟨i, ⟨p, hp, hmem⟩, hunique⟩ := ih hrest hx
      refine ⟨i + 1, ⟨p, hp, hmem⟩, ?_⟩
      rintro (_ | j) ⟨p', hp', hmem'⟩
      · obtain rfl : q = p' := Option.some.inj hp'
        exact absurd hx (Multiset.disjoint_left.mp hdisjoint hmem')
      · rw [hunique j ⟨p', hp', hmem'⟩]

theorem Holds.existsUnique (h : Holds places stock) (hx : x ∈ stock) :
    ∃! i : ℕ, ∃ p : Multiset α, places[i]? = some p ∧ x ∈ p := by
  refine existsUnique_of_nodup h.nodup ?_
  rw [h]
  exact hx

theorem Holds.mem_stock (h : Holds places stock) (hp : p ∈ places) (hx : x ∈ p) : x ∈ stock := by
  have hmem := Multiset.mem_of_le (le_sum_of_mem hp) hx
  rw [h] at hmem
  exact hmem

theorem Holds.nodup_of_mem (h : Holds places stock) (hp : p ∈ places) : p.Nodup :=
  Multiset.nodup_of_le (le_sum_of_mem hp) h.nodup

/-! ## Places with an index -/

section Indexed

variable {ι : Type} {l : List ι} {i j : ι} {f : ι → Multiset α}

theorem le_sum_map (f : ι → Multiset α) (hi : i ∈ l) : f i ≤ (l.map f).sum :=
  le_sum_of_mem (mem_map_of_mem hi)

theorem disjoint_of_nodup (h : (l.map f).sum.Nodup) (hi : i ∈ l) (hj : j ∈ l) (hne : i ≠ j) :
    Disjoint (f i) (f j) := by
  induction l with
  | nil => cases hi
  | cons k l ih =>
    rw [map_cons, sum_cons] at h
    obtain ⟨-, hrest, hdisjoint⟩ := Multiset.nodup_add.mp h
    rcases mem_cons.mp hi with rfl | hi'
    · rcases mem_cons.mp hj with rfl | hj'
      · exact absurd rfl hne
      · exact hdisjoint.mono_right (le_sum_map f hj')
    · rcases mem_cons.mp hj with rfl | hj'
      · exact (hdisjoint.mono_right (le_sum_map f hi')).symm
      · exact ih hrest hi' hj'

variable [DecidableEq ι]

theorem sum_map_update (hnodup : l.Nodup) (f : ι → Multiset α) (hi : i ∈ l) (p : Multiset α) :
    (l.map (update f i p)).sum + f i = (l.map f).sum + p := by
  induction l with
  | nil => cases hi
  | cons k l ih =>
    obtain ⟨hk, hnodup⟩ := nodup_cons.mp hnodup
    rw [map_cons, sum_cons, map_cons, sum_cons]
    rcases mem_cons.mp hi with rfl | hi'
    · have hsame : l.map (update f i p) = l.map f := by
        refine map_congr_left fun j hj => Function.update_of_ne ?_ _ _
        rintro rfl
        exact hk hj
      rw [hsame, Function.update_self]
      abel
    · have hne : k ≠ i := by
        rintro rfl
        exact hk hi'
      rw [Function.update_of_ne hne, add_assoc, ih hnodup hi', add_assoc]

/-- Things move between a place and what is outside the places. -/
theorem sum_map_move (hnodup : l.Nodup) (hi : i ∈ l) {p outside outside' : Multiset α}
    (h : p + outside' = f i + outside) :
    (l.map (update f i p)).sum + outside' = (l.map f).sum + outside := by
  apply (Multiset.add_right_inj (s := f i)).mp
  calc f i + ((l.map (update f i p)).sum + outside')
      = ((l.map (update f i p)).sum + f i) + outside' := by abel
    _ = (l.map f).sum + (p + outside') := by rw [sum_map_update hnodup f hi, add_assoc]
    _ = f i + ((l.map f).sum + outside) := by rw [h]; abel

end Indexed

end Places
