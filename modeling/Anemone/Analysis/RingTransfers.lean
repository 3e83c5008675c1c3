import Anemone.Interface.RingContents

/-!
# Every operation of a ring buffer is the operation of the queue it stands for

The free cells are those from the head on, so a pushed block lands where the window of the
contents ends.  A block that passes the last cell is moved in two parts.
-/

namespace Anemone.RingBuffer

open Checked (expect_some sub_of_le add_of_lt wordSize bind_eq_ok assert_of ok_bind pure_eq)
open List

variable {T : Type} {r : RingBuffer T} {contents : List T} {n position capacity : ℕ}

namespace Holds

theorem length_eq (h : r.Holds contents) : contents.length = r.len := by
  have hlen := congrArg length h.window
  simpa using hlen.symm

theorem length_le (h : r.Holds contents) : contents.length ≤ r.capacity := h.length_eq ▸ h.len_le

theorem isEmpty_iff (h : r.Holds contents) : r.isEmpty = true ↔ contents = [] := by
  rw [← length_eq_zero_iff, h.length_eq]
  simp [isEmpty]

theorem available_eq (h : r.Holds contents) :
    r.available = .ok (r.capacity - contents.length) := by
  rw [h.length_eq]
  exact sub_of_le h.len_le

theorem head_lt (h : r.Holds contents) : r.head < r.capacity := by
  rw [h.head_eq]
  exact Cyclic.cell_lt (Nat.zero_lt_of_lt h.tail_lt)

/-- **A position moves on without overflow**, by at most one turn. -/
theorem advance_eq (h : r.Holds contents) (hposition : position < r.capacity) (hn : n ≤ r.capacity) :
    r.advance position n = .ok (Cyclic.cell r.capacity position n) := by
  have hlayout : position + n < wordSize := by
    have := h.layout
    simp only [maxLayout, wordSize] at this ⊢
    omega
  have hcapacity : r.capacity ≠ 0 := by omega
  rw [advance, add_of_lt hlayout, ok_bind, assert_of _ hcapacity, ok_bind]
  rfl

end Holds

theorem new_holds (hpos : 0 < capacity) (hle : capacity ≤ maxLayout) :
    (new capacity : RingBuffer T).Holds [] where
  tail_lt := hpos
  head_eq := (Cyclic.cell_zero hpos).symm
  len_le := Nat.zero_le _
  layout := hle
  window := rfl

theorem tryNew_holds {size : ℕ} {allocated : Bool} (hsize : 0 < size)
    (h : tryNew size capacity allocated = .ok r) : r.capacity = capacity ∧ r.Holds [] := by
  unfold tryNew at h
  split at h
  · cases h
  · rename_i hvalid
    split at h
    · cases h
      have hle : capacity ≤ capacity * size := Nat.le_mul_of_pos_right capacity hsize
      exact ⟨rfl, new_holds (by omega) (by omega)⟩
    · cases h

theorem Holds.clear (h : r.Holds contents) : r.clear.Holds [] where
  tail_lt := Nat.zero_lt_of_lt h.tail_lt
  head_eq := (Cyclic.cell_zero (Nat.zero_lt_of_lt h.tail_lt)).symm
  len_le := Nat.zero_le _
  layout := h.layout
  window := rfl

theorem mapM_expect_some (items : List T) (reason : String) :
    (items.map some).mapM (fun cell => Checked.expect cell reason) = .ok items := by
  induction items with
  | nil => rfl
  | cons x rest ih => simp [mapM_cons, ih]

theorem copyOut_eq {items : List T} (hposition : position < r.capacity)
    (hn : position + n ≤ r.capacity) (hcells : Cyclic.segment r.buf position n = items.map some) :
    r.copyOut position n = .ok items := by
  rw [copyOut, assert_of _ hposition, ok_bind, assert_of _ hn, ok_bind, hcells]
  exact mapM_expect_some items _

/-- **The two segments of a part of the window** are a split of the items in it. -/
theorem Holds.segments (h : r.Holds contents) (hn : n ≤ r.len) :
    Cyclic.segment r.buf r.tail (min (r.capacity - r.tail) n) =
        ((contents.take n).take (min (r.capacity - r.tail) n)).map some ∧
      Cyclic.segment r.buf 0 (n - min (r.capacity - r.tail) n) =
        ((contents.take n).drop (min (r.capacity - r.tail) n)).map some := by
  have hwindow : Cyclic.window r.buf r.capacity r.tail n = (contents.take n).map some := by
    rw [map_take, ← h.window, Cyclic.window_take hn]
  rw [Cyclic.window_eq_segments h.tail_lt (Nat.le_trans hn h.len_le)] at hwindow
  rw [map_take, map_drop, ← hwindow]
  exact ⟨(take_left' (Cyclic.length_segment ..)).symm, (drop_left' (Cyclic.length_segment ..)).symm⟩

/-- **The window moves forward over the items taken.** -/
theorem Holds.popped (h : r.Holds contents) (hn : n ≤ r.len) :
    { r with tail := Cyclic.cell r.capacity r.tail n, len := r.len - n }.Holds
      (contents.drop n) where
  tail_lt := Cyclic.cell_lt (Nat.zero_lt_of_lt h.tail_lt)
  head_eq := by
    rw [Cyclic.cell_cell, Nat.add_sub_cancel' hn]
    exact h.head_eq
  len_le := Nat.le_trans (Nat.sub_le ..) h.len_le
  layout := h.layout
  window := by
    rw [map_drop, ← h.window, Cyclic.window_drop hn]

theorem Holds.tryPop_cons {first : T} {rest : List T} (h : r.Holds (first :: rest)) :
    ∃ r' : RingBuffer T, r.tryPop = .ok (some first, r') ∧ r'.capacity = r.capacity ∧
      r'.Holds rest := by
  have hlen : r.len = rest.length + 1 := by rw [← h.length_eq, length_cons]
  have hcell : r.buf r.tail = some first := by
    have hwindow := h.window
    rw [hlen, Nat.add_comm, Cyclic.window_add, map_cons] at hwindow
    have hhead : r.buf (Cyclic.cell r.capacity r.tail 0) = some first := (cons.inj hwindow).1
    rwa [Cyclic.cell_zero h.tail_lt] at hhead
  have hempty : ¬r.isEmpty = true := by simp [isEmpty, hlen]
  have hone : 1 ≤ r.len := by omega
  refine ⟨{ r with tail := Cyclic.cell r.capacity r.tail 1, len := r.len - 1 }, ?_, rfl,
    h.popped hone⟩
  rw [tryPop, if_neg hempty, item, assert_of _ h.tail_lt, ok_bind, hcell, expect_some,
    ok_bind, h.advance_eq h.tail_lt (Nat.le_trans hone h.len_le), ok_bind,
    sub_of_le hone, ok_bind]
  rfl

section

variable (h : r.Holds contents)

include h

theorem Holds.tryPopSlice (room : ℕ) :
    ∃ r' : RingBuffer T, r.tryPopSlice room = .ok (contents.take room, r') ∧
      r'.capacity = r.capacity ∧ r'.Holds (contents.drop room) := by
  have hlen := h.length_eq
  have htail := h.tail_lt
  have hle := h.len_le
  unfold RingBuffer.tryPopSlice
  by_cases hzero : min r.len room = 0
  · -- nothing to pop: no room, or no items
    have hnothing : contents.take room = [] ∧ contents.drop room = contents := by
      rcases Nat.eq_zero_or_pos room with rfl | hroom
      · simp
      · have : contents = [] := eq_nil_of_length_eq_zero (by omega)
        simp [this]
    refine ⟨r, ?_, rfl, hnothing.2.symm ▸ h⟩
    rw [if_pos hzero, hnothing.1]
    rfl
  · have hn : min r.len room ≤ r.len := Nat.min_le_left ..
    have htake : contents.take (min r.len room) = contents.take room := by
      rw [Nat.min_comm, ← take_take, ← hlen, take_length]
    have hdrop : contents.drop (min r.len room) = contents.drop room := by
      rcases Nat.le_total r.len room with hr | hr
      · rw [Nat.min_eq_left hr, drop_eq_nil_of_le (by omega), drop_eq_nil_of_le (by omega)]
      · rw [Nat.min_eq_right hr]
    obtain ⟨hfirst, hsecond⟩ := h.segments hn
    set k := min r.len room with hk
    set m := min (r.capacity - r.tail) k with hm
    have hcopyFirst := copyOut_eq htail (by omega) hfirst
    have hcopySecond : r.copyOutSecond (k - m) = .ok ((contents.take k).drop m) := by
      unfold copyOutSecond
      split
      · exact copyOut_eq (by omega) (by omega) hsecond
      · rw [drop_eq_nil_of_le (by rw [length_take]; omega)]
        rfl
    refine ⟨{ r with tail := Cyclic.cell r.capacity r.tail k, len := r.len - k }, ?_, rfl,
      hdrop ▸ h.popped hn⟩
    rw [if_neg hzero, sub_of_le (Nat.le_of_lt htail), ok_bind, ← hm]
    dsimp only
    rw [sub_of_le (Nat.min_le_right ..), ok_bind, hcopyFirst, ok_bind, hcopySecond, ok_bind,
      h.advance_eq htail (by omega), ok_bind, sub_of_le hn, ok_bind, take_append_drop,
      htake]
    rfl

/-- **The two readable slices are the contents.** -/
theorem Holds.readableSlices :
    ∃ first second, r.readableSlices = .ok (first, second) ∧ first ++ second = contents := by
  have hlen := h.length_eq
  have htail := h.tail_lt
  have hle := h.len_le
  obtain ⟨hfirst, hsecond⟩ := h.segments (Nat.le_refl r.len)
  have htake : contents.take r.len = contents := by rw [← hlen, take_length]
  rw [htake] at hfirst hsecond
  refine ⟨_, _, ?_, take_append_drop (min (r.capacity - r.tail) r.len) contents⟩
  rw [RingBuffer.readableSlices, sub_of_le (Nat.le_of_lt htail), ok_bind]
  dsimp only
  rw [sub_of_le (Nat.min_le_right ..), ok_bind, copyOut_eq htail (by omega) hfirst, ok_bind,
    copyOut_eq (by omega) (by omega) hsecond, ok_bind]
  rfl

theorem Holds.iter : r.iter = .ok contents := by
  obtain ⟨first, second, hslices, rfl⟩ := h.readableSlices
  rw [RingBuffer.iter, hslices]
  rfl

/-- **A block of items stored at the head extends the window.** -/
theorem Holds.pushed (items : List T) (hfit : r.len + items.length ≤ r.capacity) : { r with
      buf := Cyclic.storeWrapped r.buf r.capacity r.head (items.map some)
      head := Cyclic.cell r.capacity r.head items.length
      len := r.len + items.length }.Holds (contents ++ items) where
  tail_lt := h.tail_lt
  head_eq := by
    rw [h.head_eq, Cyclic.cell_cell]
  len_le := hfit
  layout := h.layout
  window := by
    have hwindow := Cyclic.window_storeWrapped r.buf (items.map some) h.tail_lt
      (by rwa [length_map] : r.len + (items.map some).length ≤ r.capacity)
    rw [length_map, ← h.head_eq, h.window, ← map_append] at hwindow
    exact hwindow

/-- **The two copies of a block are one wrapped store**; the second is left out where
the block ends before the last cell. -/
theorem Holds.copyIn_wrapped (block : List T) (hfit : block.length ≤ r.capacity) : (do
      let buf ← r.copyIn r.buf r.head (block.take (r.capacity - r.head))
      r.copyInSecond buf (block.drop (r.capacity - r.head))) =
      .ok (Cyclic.storeWrapped r.buf r.capacity r.head (block.map some)) := by
  have hhead := h.head_lt
  have hfirst : r.head + (block.take (r.capacity - r.head)).length ≤ r.capacity := by
    rw [length_take]
    omega
  rw [copyIn, assert_of _ hhead, ok_bind, assert_of _ hfirst, ok_bind, pure_eq, ok_bind,
    copyInSecond, Cyclic.storeWrapped, map_take]
  split
  · have hsecond : 0 + (block.drop (r.capacity - r.head)).length ≤ r.capacity := by
      rw [length_drop]
      omega
    rw [copyIn, assert_of _ (Nat.zero_lt_of_lt hhead), ok_bind, assert_of _ hsecond, ok_bind,
      map_drop]
    rfl
  · have hnil : block.drop (r.capacity - r.head) = [] := eq_nil_of_length_eq_zero (by omega)
    rw [← map_drop, hnil, map_nil, Cyclic.store_nil]
    rfl

/-- **A block is pushed as far as there is room.** -/
theorem Holds.tryPushSlice (items : List T) : ∃ r' : RingBuffer T,
      r.tryPushSlice items = .ok (min (r.capacity - contents.length) items.length, r') ∧
        r'.capacity = r.capacity ∧
        r'.Holds (contents ++ items.take (r.capacity - contents.length)) := by
  have hlen := h.length_eq
  have hhead := h.head_lt
  unfold RingBuffer.tryPushSlice
  rw [h.available_eq, ok_bind]
  dsimp only
  set k := min (r.capacity - contents.length) items.length with hk
  have htake : items.take (r.capacity - contents.length) = items.take k := by
    rw [hk, ← take_take, take_length]
  rw [htake]
  have hlength : (items.take k).length = k := by
    rw [length_take]
    omega
  by_cases hzero : k = 0
  · refine ⟨r, ?_, rfl, ?_⟩
    · rw [if_pos hzero, hzero]
      rfl
    · rw [hzero, take_zero, append_nil]
      exact h
  · set m := min (r.capacity - r.head) k with hm
    have hfirst : items.take m = (items.take k).take (r.capacity - r.head) := by
      rw [take_take]
    have hsecond : (items.drop m).take (k - m) = (items.take k).drop (r.capacity - r.head) := by
      rw [drop_take]
      rcases Nat.le_total (r.capacity - r.head) k with hc | hc
      · rw [hm, Nat.min_eq_left hc]
      · rw [hm, Nat.min_eq_right hc, Nat.sub_self, Nat.sub_eq_zero_of_le hc, take_zero, take_zero]
    have hcopies := h.copyIn_wrapped (items.take k) (by omega)
    rw [← hfirst, ← hsecond] at hcopies
    have hword : r.len + k < wordSize := by
      have := h.layout
      simp only [maxLayout, wordSize] at this ⊢
      omega
    have hpushed := h.pushed (items.take k) (by omega)
    rw [hlength] at hpushed
    obtain ⟨buf, hcopyIn, hcopySecond⟩ := bind_eq_ok.mp hcopies
    refine ⟨{ r with
      buf := Cyclic.storeWrapped r.buf r.capacity r.head ((items.take k).map some)
      head := Cyclic.cell r.capacity r.head k
      len := r.len + k }, ?_, rfl, hpushed⟩
    rw [if_neg hzero, sub_of_le (Nat.le_of_lt hhead), ok_bind, ← hm,
      sub_of_le (Nat.min_le_right ..), ok_bind, hcopyIn, ok_bind, hcopySecond, ok_bind,
      h.advance_eq hhead (by omega), ok_bind, add_of_lt hword, ok_bind]
    rfl

theorem Holds.tryPushSlice_all (items : List T)
    (hfit : contents.length + items.length ≤ r.capacity) :
    ∃ r' : RingBuffer T, r.tryPushSlice items = .ok (items.length, r') ∧
      r'.capacity = r.capacity ∧ r'.Holds (contents ++ items) := by
  obtain ⟨r', hpush, hcapacity, hholds⟩ := h.tryPushSlice items
  have hroom : items.length ≤ r.capacity - contents.length := by omega
  rw [Nat.min_eq_right hroom] at hpush
  rw [take_of_length_le hroom] at hholds
  exact ⟨r', hpush, hcapacity, hholds⟩

end

end Anemone.RingBuffer
