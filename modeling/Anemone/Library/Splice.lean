import Mathlib.Data.List.Basic

/-!
# Sequences, overwritten in places and cut into pages

A sequence is a function of the index.  `splice` overwrites it from some index on; a sequence that
is kept in pages, some of which may not be there, is read through `unpage`.
-/

namespace Splice

open List

variable {α : Type}

/-- The sequence with the entries of `data` from `start` on. -/
def splice (f : ℕ → α) (start : ℕ) (data : List α) : ℕ → α :=
  fun i => if start ≤ i then (data[i - start]?).getD (f i) else f i

@[simp] theorem splice_nil (f : ℕ → α) (start : ℕ) : splice f start [] = f := by
  funext i
  simp [splice]

theorem splice_append (f : ℕ → α) (start : ℕ) (a b : List α) :
    splice f start (a ++ b) = splice (splice f start a) (start + a.length) b := by
  funext i
  unfold splice
  by_cases hstart : start ≤ i
  · by_cases hb : start + a.length ≤ i
    · have hnone : a[i - start]? = none := getElem?_eq_none (by omega)
      have hidx : i - start - a.length = i - (start + a.length) := by omega
      rw [if_pos hstart, if_pos hb, if_pos hstart, getElem?_append_right (by omega), hnone, hidx]
      rfl
    · rw [if_pos hstart, if_neg hb, if_pos hstart, getElem?_append_left (by omega)]
  · rw [if_neg hstart, if_neg (by omega), if_neg hstart]

/-- A sequence kept in pages of `size` entries. -/
def unpage (size : ℕ) (pages : ℕ → Option (ℕ → α)) : ℕ → Option α :=
  fun i => (pages (i / size)).map fun page => page (i % size)

/-- Overwriting a part of one page overwrites the sequence. -/
theorem unpage_splice (size : ℕ) {pidx offset : ℕ} {pages pages' : ℕ → Option (ℕ → α)}
    {page : ℕ → α} {data : List α} (hfit : offset + data.length ≤ size)
    (hpage : pages pidx = some page) (hnew : pages' pidx = some (splice page offset data))
    (hold : ∀ p, p ≠ pidx → pages' p = pages p) :
    unpage size pages' = splice (unpage size pages) (pidx * size + offset) (data.map some) := by
  funext i
  unfold unpage
  by_cases hi : i / size = pidx
  · have hsplit : i = pidx * size + i % size := by
      rw [← hi, Nat.mul_comm]
      exact (Nat.div_add_mod i size).symm
    rw [hi, hnew]
    unfold splice
    by_cases hoff : offset ≤ i % size
    · have hidx : i - (pidx * size + offset) = i % size - offset := by omega
      rw [if_pos (by omega), hidx]
      simp only [Option.map_some, if_pos hoff, getElem?_map, hi, hpage]
      cases data[i % size - offset]? <;> rfl
    · rw [if_neg (by omega)]
      simp only [Option.map_some, if_neg hoff, hi, hpage]
  · rw [hold _ hi]
    unfold splice
    by_cases hstart : pidx * size + offset ≤ i
    · have hnone : (data.map some)[i - (pidx * size + offset)]? = none := by
        apply getElem?_eq_none
        rw [length_map]
        by_contra hlt
        apply hi
        apply Nat.div_eq_of_lt_le
        · omega
        · rw [Nat.succ_mul]
          omega
      rw [if_pos hstart, hnone]
      rfl
    · rw [if_neg hstart]

end Splice
