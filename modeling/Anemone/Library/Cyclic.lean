import Mathlib.Tactic.Ring

/-!
# Cyclic windows of a memory

A memory of `size` cells is used as a ring: the cell `i` places after `start` is
`(start + i) % size`.  A *window* is the list of what a run of such cells holds; it is at most two
*segments* of neighbouring cells.
-/

namespace Cyclic

open List

variable {α : Type}

/-- The cell `i` places after `start` in a ring of `size` cells. -/
def cell (size start i : ℕ) : ℕ := (start + i) % size

section Cells

variable {size start i j : ℕ}

theorem cell_lt (hsize : 0 < size) : cell size start i < size := Nat.mod_lt _ hsize

theorem cell_eq (hstart : start < size) (hi : i ≤ size) :
    cell size start i = if start + i < size then start + i else start + i - size := by
  unfold cell
  split
  · rename_i hlt
    exact Nat.mod_eq_of_lt hlt
  · rename_i hge
    rw [Nat.mod_eq_sub_mod (by omega)]
    exact Nat.mod_eq_of_lt (by omega)

@[simp] theorem cell_zero (hstart : start < size) : cell size start 0 = start :=
  Nat.mod_eq_of_lt hstart

theorem cell_cell (size start i j : ℕ) :
    cell size (cell size start i) j = cell size start (i + j) := by
  simp [cell, Nat.add_assoc]

end Cells

/-! ## Windows -/

/-- What the `n` cells from `start` on hold. -/
def window (cells : ℕ → α) (size start n : ℕ) : List α :=
  (List.range n).map fun i => cells (cell size start i)

section Windows

variable {cells cells' : ℕ → α} {size start m n : ℕ}

@[simp] theorem length_window : (window cells size start n).length = n := by simp [window]

theorem window_add (cells : ℕ → α) (size start m n : ℕ) : window cells size start (m + n) =
      window cells size start m ++ window cells size (cell size start m) n := by
  simp [window, range_add, cell_cell]

theorem window_take (h : m ≤ n) :
    (window cells size start n).take m = window cells size start m := by
  obtain ⟨k, rfl⟩ := Nat.exists_eq_add_of_le h
  rw [window_add]
  exact take_left' length_window

theorem window_drop (h : m ≤ n) :
    (window cells size start n).drop m = window cells size (cell size start m) (n - m) := by
  obtain ⟨k, rfl⟩ := Nat.exists_eq_add_of_le h
  rw [window_add, Nat.add_sub_cancel_left]
  exact drop_left' length_window

theorem window_congr (h : ∀ i < n, cells (cell size start i) = cells' (cell size start i)) :
    window cells size start n = window cells' size start n :=
  map_congr_left fun i hi => h i (mem_range.mp hi)

end Windows

/-! ## Storing a block -/

/-- The memory after a block is stored in neighbouring cells from `position` on. -/
def store (cells : ℕ → α) (position : ℕ) (items : List α) : ℕ → α :=
  fun p => if position ≤ p then (items[p - position]?).getD (cells p) else cells p

/-- The memory after a block is stored from `position` on, continuing at the first cell. -/
def storeWrapped (cells : ℕ → α) (size position : ℕ) (items : List α) : ℕ → α :=
  store (store cells position (items.take (size - position))) 0 (items.drop (size - position))

section Stores

variable {cells : ℕ → α} {size position start n p j : ℕ} {items : List α}

@[simp] theorem store_nil : store cells position [] = cells := by
  funext p
  simp [store]

theorem store_inside (hle : position ≤ p) (hlt : p - position < items.length) :
    store cells position items p = items[p - position] := by
  simp [store, hle, hlt]

theorem store_outside (h : p < position ∨ position + items.length ≤ p) :
    store cells position items p = cells p := by
  unfold store
  split
  · rw [getElem?_eq_none (by omega), Option.getD_none]
  · rfl

theorem storeWrapped_inside (hposition : position < size) (hlen : items.length ≤ size)
    (hj : j < items.length) :
    storeWrapped cells size position items (cell size position j) = items[j] := by
  rw [cell_eq hposition (by omega), storeWrapped]
  split
  · -- before the last cell: the second part lies below `position`
    rename_i hlt
    rw [store_outside (.inr (by simp; omega)),
      store_inside (by omega) (by simp; omega), getElem_take]
    congr 1
    omega
  · rename_i hge
    rw [store_inside (by omega) (by simp; omega), getElem_drop]
    congr 1
    omega

theorem storeWrapped_outside (hposition : position < size) (hj : items.length ≤ j)
    (hlt : j < size) :
    storeWrapped cells size position items (cell size position j) =
      cells (cell size position j) := by
  rw [cell_eq hposition (Nat.le_of_lt hlt), storeWrapped]
  split
  · rw [store_outside (.inr (by simp; omega)), store_outside (.inr (by simp; omega))]
  · rw [store_outside (.inr (by simp; omega)), store_outside (.inl (by omega))]

/-- A block stored right after a window extends it. -/
theorem window_storeWrapped (cells : ℕ → α) (items : List α) (hstart : start < size)
    (h : n + items.length ≤ size) :
    window (storeWrapped cells size (cell size start n) items) size start (n + items.length) =
      window cells size start n ++ items := by
  have hcell : cell size start n < size := cell_lt (by omega)
  rw [window_add]
  congr 1
  · -- the cells of the window lie a turn after the block
    apply window_congr
    intro i hi
    have hturn : cell size start i = cell size (cell size start n) (size - n + i) := by
      rw [cell_cell, cell, cell, show start + (n + (size - n + i)) = start + i + size by omega,
        Nat.add_mod_right]
    rw [hturn]
    exact storeWrapped_outside hcell (by omega) (by omega)
  · apply ext_getElem (by simp)
    intro i hi hi'
    simp only [window, getElem_map, getElem_range]
    exact storeWrapped_inside hcell (by omega) hi'

end Stores

/-! ## Reading in segments -/

/-- What `n` neighbouring cells from `position` on hold. -/
def segment (cells : ℕ → α) (position n : ℕ) : List α :=
  (List.range n).map fun i => cells (position + i)

@[simp] theorem length_segment (cells : ℕ → α) (position n : ℕ) :
    (segment cells position n).length = n := by simp [segment]

/-- A window is its segment up to the last cell, and then the rest from the first cell on. -/
theorem window_eq_segments {cells : ℕ → α} {size start n : ℕ} (hstart : start < size)
    (hn : n ≤ size) :
    window cells size start n = segment cells start (min (size - start) n) ++
        segment cells 0 (n - min (size - start) n) := by
  have hlength : n = min (size - start) n + (n - min (size - start) n) := by omega
  apply ext_getElem
  · rwa [length_window, length_append, length_segment, length_segment]
  intro i hi hi'
  rw [length_window] at hi
  simp only [window, segment, getElem_map, getElem_range, getElem_append,
    length_map, length_range, cell_eq hstart (show i ≤ size by omega)]
  split <;> split <;> congr 1 <;> omega

end Cyclic
