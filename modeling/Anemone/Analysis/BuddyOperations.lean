import Anemone.Analysis.BuddyMoves

/-!
# What `alloc` and `dealloc` do to a tiling

The loops are chains of the moves of `BuddyMoves`.  The block in hand counts as used all along, so
that the invariant of both loops is `Represents`.
-/

namespace Anemone.Buddy.Zone

open Checked (ok_bind bind_eq_ok pure_eq assert_of expect_some)
open List

open Dyadic (Block mate)

variable {M N order : ℕ} {z : Zone M N} {free : ℕ → List ℕ} {used : ℕ → ℕ} {o i : ℕ} {os : List ℕ}

theorem buddyBlockIdx_eq (i : ℕ) : buddyBlockIdx i = mate i := rfl

theorem Represents.onAlloc (h : Represents z free used) (bytes : ℕ) :
    Represents (z.onAlloc bytes) free used :=
  ⟨h.geometry.congr rfl rfl rfl, h.lists, h.bits, h.tiling⟩

theorem Represents.onDealloc (h : Represents z free used) (bytes : ℕ) :
    Represents (z.onDealloc bytes) free used :=
  ⟨h.geometry.congr rfl rfl rfl, h.lists, h.bits, h.tiling⟩

/-- the first block of order `o` inside block `i` of order `o + k` has its address. -/
theorem blockAddr_mul_pow (z : Zone M N) (o k i : ℕ) :
    z.blockAddr o (i * 2 ^ k) = z.blockAddr (o + k) i := by
  unfold blockAddr
  rw [pow_add]
  ring

/-- **the split loop** returns, and leaves the lowest block of the wanted order in
hand. -/
theorem splitDown_eq (k : ℕ) : ∀ {z : Zone M N} {free : ℕ → List ℕ} {i : ℕ}, o + k < N →
      Represents z free (fun u => used u + (⟨o + k, i⟩ : Block).weight u) →
      ∃ z' free', splitDown o k z i = .ok z' ∧ SameLayout z z' ∧ z'.stats = z.stats ∧
        Represents z' free' (fun u => used u + (⟨o, i * 2 ^ k⟩ : Block).weight u) := by
  induction k with
  | zero =>
    intro z free i _ h
    exact ⟨z, free, rfl, .refl z, rfl, by simpa using h⟩
  | succ k ih =>
    intro z free i hk h
    obtain ⟨z₁, hz₁, hlay₁, hst₁, hrep₁⟩ := splitOnce_eq (o := o + k) h (by omega)
    obtain ⟨z₂, free₂, hz₂, hlay₂, hst₂, hrep₂⟩ := ih (by omega) hrep₁
    refine ⟨z₂, free₂, ?_, hlay₁.trans hlay₂, hst₂.trans hst₁, ?_⟩
    · unfold splitDown
      rw [hz₁, ok_bind, hz₂]
    · rw [pow_succ, Nat.mul_comm (2 ^ k) 2, ← Nat.mul_assoc]
      exact hrep₂

theorem searchFrom_cons (h : Represents z free used) (hle : order ≤ o) (ho : o < N) {rest : List ℕ}
    (hcons : free o = i :: rest) :
    ∃ j z' free', searchFrom order (o :: os) z = .ok (.ok (z.blockAddr order j), z') ∧
      SameLayout z z' ∧
      Represents z' free' (fun u => used u + (⟨order, j⟩ : Block).weight u) := by
  obtain ⟨k, rfl⟩ := Nat.exists_eq_add_of_le hle
  obtain ⟨z₁, hz₁, hlay₁, -, hrep₁⟩ := allocBlock_cons h ho hcons
  obtain ⟨z₂, free₂, hz₂, hlay₂, -, hrep₂⟩ := splitDown_eq k ho hrep₁
  have hi : i < z₁.nblocks (order + k) := hrep₁.used_lt_nblocks
  have halign := hrep₁.geometry.alignedAddr_eq (order + k) i
  have hidx := hrep₁.geometry.blockIdx_eq ho hi
  rw [hlay₁.blockAddr] at halign hidx
  have hbytes := hrep₂.geometry.bytesPerBlock_eq (by omega) hrep₂.used_lt_nblocks
  have hz₂' : splitDown order (order + k - order) z₁ i = .ok z₂ := by
    rwa [Nat.add_sub_cancel_left]
  refine ⟨i * 2 ^ k, z₂.onAlloc (M * 2 ^ order), free₂, ?_, (hlay₁.trans hlay₂).trans ⟨rfl, rfl, rfl⟩,
    hrep₂.onAlloc (M * 2 ^ order)⟩
  unfold searchFrom
  rw [hz₁, blockAddr_mul_pow]
  simp only [ok_bind, halign, expect_some, hidx, hz₂', hbytes, pure_eq]

/-- **the search loop** fails only over empty orders, and otherwise returns a block of
the wanted order. -/
theorem searchFrom_spec (h : Represents z free used) (os : List ℕ)
    (hos : ∀ o ∈ os, order ≤ o ∧ o < N) :
    (searchFrom order os z = .ok (.error .outOfMemory, z) ∧ ∀ o ∈ os, free o = []) ∨
      ∃ j z' free', searchFrom order os z = .ok (.ok (z.blockAddr order j), z') ∧ SameLayout z z' ∧
        Represents z' free' (fun u => used u + (⟨order, j⟩ : Block).weight u) := by
  induction os with
  | nil => exact .inl ⟨rfl, by simp⟩
  | cons o os ih =>
    obtain ⟨hle, ho⟩ := hos o (by simp)
    cases hfree : free o with
    | cons i rest => exact .inr (searchFrom_cons h hle ho hfree)
    | nil =>
      have hstep : searchFrom order (o :: os) z = searchFrom order os z := by
        conv => lhs; unfold searchFrom
        rw [allocBlock_nil h ho hfree]
        rfl
      rw [hstep]
      rcases ih fun p hp => hos p (by simp [hp]) with ⟨heq, hall⟩ | hfound
      · refine .inl ⟨heq, fun p hp => ?_⟩
        rcases mem_cons.mp hp with rfl | hp
        · exact hfree
        · exact hall p hp
      · exact .inr hfound

/-- **`alloc`** of a valid order returns a block of that order out of the unused units,
or finds every order from it on empty; it never panics. -/
theorem alloc_spec (h : Represents z free used) (ho : o < N) :
    (z.alloc o = .ok (.error .outOfMemory, z) ∧ ∀ p, o ≤ p → p < N → free p = []) ∨
      ∃ j z' free', z.alloc o = .ok (.ok (z.blockAddr o j), z') ∧ SameLayout z z' ∧
        Represents z' free' (fun u => used u + (⟨o, j⟩ : Block).weight u) := by
  have hstep : z.alloc o = searchFrom o (range' o (N - o)) z := if_neg (by omega)
  rw [hstep]
  have hos : ∀ p ∈ range' o (N - o), o ≤ p ∧ p < N := by
    intro p hp
    rw [mem_range'_1] at hp
    omega
  rcases searchFrom_spec h (range' o (N - o)) hos with ⟨heq, hall⟩ | hfound
  · refine .inl ⟨heq, fun p hop hp => hall p ?_⟩
    rw [mem_range'_1]
    omega
  · exact .inr hfound

theorem mergeFrom_top {c : ℕ} (ho : o = N - 1) :
    mergeFrom (o :: os) z i c = .ok (i, o, z) := by
  unfold mergeFrom
  rw [if_pos ho]
  rfl

theorem mergeFrom_stop (h : Represents z free used) {c : ℕ} (ho : o + 1 < N) (hm : mate i ∉ free o) :
    mergeFrom (o :: os) z i c = .ok (i, o, z) := by
  have ho' : o < N := by omega
  unfold mergeFrom
  rw [if_neg (by omega), buddyBlockIdx_eq, h.geometry.bitmapForOrder_eq ho', ok_bind]
  by_cases hlen : mate i ≥ z.nblocks o
  · rw [if_pos hlen]
    rfl
  · have hbit : z.bit o (mate i) = false := by
      rw [← Bool.not_eq_true, h.bits o ho' _ (by omega)]
      exact hm
    rw [if_neg hlen, test_eq (by omega), Checked.unwrap_ok, ok_bind, hbit]
    rfl

/-- **join**: one round of the merge loop over a free mate. -/
theorem mergeFrom_join (h : Represents z free fun u => used u + (⟨o, i⟩ : Block).weight u)
    (os : List ℕ) (c : ℕ) (ho : o + 1 < N) (hm : mate i ∈ free o) :
    ∃ z', mergeFrom (o :: os) z i c = mergeFrom os z' (i / 2) o ∧ SameLayout z z' ∧
      z'.stats = z.stats ∧
      Represents z' (Function.update free o ((free o).erase (mate i)))
        (fun u => used u + (⟨o + 1, i / 2⟩ : Block).weight u) := by
  have ho' : o < N := by omega
  have hmi := h.lt_nblocks ho' hm
  have hbit : z.bit o (mate i) = true := (h.bits o ho' _ hmi).mpr hm
  obtain ⟨mem, hclear, hbits⟩ := exists_clear h.geometry ho' hmi
  have hgeo : (z.setMem mem).Geometry := h.geometry.congr rfl rfl rfl
  have hptr : (z.setMem mem).blockPtr (mate i) o = .ok (z.blockAddr o (mate i)) :=
    hgeo.blockPtr_eq ho' hmi
  have hlisted : z.blockAddr o (mate i) ∈ (z.setMem mem).freeLists o := by
    rw [setMem_freeLists, h.lists o ho']
    exact mem_map_of_mem hm
  have herase : (z.freeLists o).erase (z.blockAddr o (mate i)) =
      ((free o).erase (mate i)).map (z.blockAddr o) := by
    rw [h.lists o ho', map_erase (h.geometry.blockAddr_injective o)]
  refine ⟨(z.setList o (((free o).erase (mate i)).map (z.blockAddr o))).setMem mem, ?_,
    ⟨rfl, rfl, rfl⟩, rfl, h.edit (h.tiling.join ho' hm) (h.bits_erase ho' hbits)⟩
  conv => lhs; unfold mergeFrom
  rw [if_neg (by omega), buddyBlockIdx_eq, h.geometry.bitmapForOrder_eq ho', ok_bind,
    if_neg (by simpa using hmi), test_eq hmi, hbit]
  simp only [Checked.unwrap_ok, ok_bind, hclear, hptr, Bool.true_eq_false, if_false]
  rw [assert_of _ hlisted, ok_bind, setMem_freeLists, herase]
  rfl

/-- **the merge loop** returns, holding a block that cannot be joined further. -/
theorem mergeFrom_spec (k : ℕ) :
    ∀ {z : Zone M N} {free : ℕ → List ℕ} {o i : ℕ} (c : ℕ), o + (k + 1) = N →
      Represents z free (fun u => used u + (⟨o, i⟩ : Block).weight u) →
      ∃ j p z' free', mergeFrom (range' o (k + 1)) z i c = .ok (j, p, z') ∧
        SameLayout z z' ∧ p < N ∧ (p + 1 < N → mate j ∉ free' p) ∧
        Represents z' free' (fun u => used u + (⟨p, j⟩ : Block).weight u) := by
  induction k with
  | zero =>
    intro z free o i c hk h
    exact ⟨i, o, z, free, mergeFrom_top (by omega), .refl z, by omega, by omega, h⟩
  | succ k ih =>
    intro z free o i c hk h
    by_cases hm : mate i ∈ free o
    · obtain ⟨z₁, hz₁, hlay₁, -, hrep₁⟩ := mergeFrom_join h (range' (o + 1) (k + 1)) c (by omega) hm
      obtain ⟨j, p, z₂, free₂, hz₂, hlay₂, hp, hmp, hrep₂⟩ := ih o (by omega) hrep₁
      refine ⟨j, p, z₂, free₂, ?_, hlay₁.trans hlay₂, hp, hmp, hrep₂⟩
      rw [range'_succ, hz₁, hz₂]
    · refine ⟨i, o, z, free, ?_, .refl z, by omega, fun _ => hm, h⟩
      rw [range'_succ]
      exact mergeFrom_stop h (by omega) hm

/-- the address checks of `dealloc` pass on the address of an existing block, and what
is left is the double-free test. -/
theorem dealloc_blockAddr (h : z.Geometry) (ho : o < N) (hi : i < z.nblocks o) :
    z.dealloc (z.blockAddr o i) o =
      if z.bit o i = true then .ok (.error .doubleFree, z)
      else (do
        let (curBlockIdx, curOrder, z) ← mergeFrom (range' o (N - o)) z i o
        let z ← z.publish curOrder curBlockIdx
        pure (.ok (), z.onDealloc (M * 2 ^ o))) := by
  have hsub : (z.blockAddr o i - z.salloc) % (M * 2 ^ o) = 0 := by
    unfold blockAddr
    rw [Nat.add_sub_cancel_left, Nat.mul_mod_left]
  have hge : ¬ z.blockAddr o i < z.salloc := by
    unfold blockAddr
    omega
  have hlt : ¬ i ≥ z.nunits >>> o := by
    rw [Nat.shiftRight_eq_div_pow]
    exact Nat.not_le.mpr hi
  unfold dealloc
  rw [if_neg (by omega), h.alignedAddr_eq]
  simp only [hge, if_false, h.bytesPerBlock_eq ho hi, ok_bind, hsub, ne_eq,
    not_true_eq_false, h.blockIdx_eq ho hi, hlt, h.bitmapForOrder_eq ho, test_eq hi,
    Checked.unwrap_ok]
  rfl

/-- **`dealloc`** of a block in use returns it to the free lists; it never panics. -/
theorem dealloc_used (h : Represents z free fun u => used u + (⟨o, i⟩ : Block).weight u)
    (ho : o < N) :
    ∃ z' free', z.dealloc (z.blockAddr o i) o = .ok (.ok (), z') ∧ SameLayout z z' ∧
      Represents z' free' used := by
  have hi := h.used_lt_nblocks
  have hbit : z.bit o i ≠ true := by
    rw [ne_eq, h.bits o ho i hi]
    exact h.tiling.not_free_of_used ho (Block.covers_first ⟨o, i⟩) (Block.covers_first ⟨o, i⟩)
  obtain ⟨k, hk⟩ : ∃ k, o + (k + 1) = N := ⟨N - o - 1, by omega⟩
  obtain ⟨j, p, z₁, free₁, hz₁, hlay₁, hp, hm, hrep₁⟩ := mergeFrom_spec k o hk h
  obtain ⟨z₂, hz₂, hlay₂, -, hrep₂⟩ := publish_eq hrep₁ hp hm
  refine ⟨z₂.onDealloc (M * 2 ^ o), _, ?_, (hlay₁.trans hlay₂).trans ⟨rfl, rfl, rfl⟩,
    hrep₂.onDealloc _⟩
  rw [dealloc_blockAddr h.geometry ho hi, if_neg hbit, show N - o = k + 1 from by omega, hz₁]
  simp only [ok_bind, hz₂, pure_eq]

/-- `dealloc` of an existing block is refused, with the zone as it was, exactly when the
block is on the free list of its own order. -/
theorem dealloc_refused_iff (h : Represents z free used) (ho : o < N) (hi : i < z.nblocks o) :
    (∃ e, z.dealloc (z.blockAddr o i) o = .ok (.error e, z)) ↔ i ∈ free o := by
  rw [dealloc_blockAddr h.geometry ho hi, ← h.bits o ho i hi]
  constructor
  · rintro ⟨e, he⟩
    by_contra hbit
    rw [if_neg hbit, bind_eq_ok] at he
    obtain ⟨⟨j, p, z₁⟩, -, he⟩ := he
    rw [bind_eq_ok] at he
    obtain ⟨z₂, -, he⟩ := he
    cases he
  · intro hbit
    exact ⟨.doubleFree, if_pos hbit⟩

end Anemone.Buddy.Zone
