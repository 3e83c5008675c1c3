import Mathlib.Data.List.Nodup

/-!
# Lists in memory

A memory in which every cell has the link to a next cell.  A list is `Linked` from a head if the
links lead through its cells in order and end.
-/

namespace Links

open Function List

variable {α : Type} {next next' : α → Option α} {head : Option α} {l : List α}

/-- The links from `head` lead through `l` and end there. -/
def Linked (next : α → Option α) : Option α → List α → Prop
  | head, [] => head = none
  | head, a :: l => head = some a ∧ Linked next (next a) l

/-- The first `n` cells from a head. -/
def follow (next : α → Option α) : ℕ → Option α → List α
  | 0, _ => []
  | _ + 1, none => []
  | n + 1, some a => a :: follow next n (next a)

namespace Linked

theorem follow_eq (h : Linked next head l) : follow next l.length head = l := by
  induction l generalizing head with
  | nil => rfl
  | cons a l ih =>
    obtain ⟨rfl, hrest⟩ := h
    rw [length_cons, follow, ih hrest]

theorem head_eq (h : Linked next head l) : head = l.head? := by
  cases l with
  | nil => exact h
  | cons a l => exact h.1

theorem congr (h : Linked next head l) (hsame : ∀ a ∈ l, next' a = next a) :
    Linked next' head l := by
  induction l generalizing head with
  | nil => exact h
  | cons a l ih =>
    refine ⟨h.1, ?_⟩
    rw [hsame a mem_cons_self]
    exact ih h.2 fun b hb => hsame b (mem_cons_of_mem _ hb)

variable [DecidableEq α]

theorem push (h : Linked next head l) {a : α} (hnew : a ∉ l) :
    Linked (update next a head) (some a) (a :: l) := by
  refine ⟨rfl, ?_⟩
  rw [update_self]
  refine h.congr fun b hb => update_of_ne ?_ _ _
  rintro rfl
  exact hnew hb

theorem append {m : List α} {head' : Option α} {last : α} (hm : Linked next head m)
    (hlast : m.getLast? = some last) (hl : Linked next head' l) (hnodup : (m ++ l).Nodup) :
    Linked (update next last head') head (m ++ l) := by
  induction m generalizing head with
  | nil => cases hlast
  | cons a m ih =>
    obtain ⟨rfl, hrest⟩ := hm
    obtain ⟨hnew, hnodup⟩ := nodup_cons.mp hnodup
    refine ⟨rfl, ?_⟩
    cases m with
    | nil =>
      -- the last cell of the first list
      obtain rfl : a = last := by simpa using hlast
      rw [update_self]
      refine hl.congr fun b hb => update_of_ne ?_ _ _
      rintro rfl
      exact hnew hb
    | cons b m =>
      rw [getLast?_cons_cons] at hlast
      have hne : a ≠ last := by
        rintro rfl
        exact hnew (mem_append_left _ (mem_of_getLast? hlast))
      rw [update_of_ne hne]
      exact ih hrest hlast hnodup

end Linked

end Links
