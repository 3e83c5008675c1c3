import Anemone.Model.BuddyZone
import Anemone.Library.Dyadic

/-!
# A zone is a coalesced tiling of its units

`Zone.Geometry` collects what never changes after construction: the bitmaps do not overlap each
other, and the allocable bytes end below the top of the address space.  `Zone.Represents z free
used` says that the free lists of `z` are the lists of block indices `free`, that the bit of a
block is set exactly when it is listed, and that the lists tile the units outside `used`.
-/

namespace Anemone.Buddy

open Checked (wordSize ok_bind)
open Dyadic (Tiling)

theorem bitmapLen_eq (bits : ℕ) : bitmapLen bits = (bits + 7) / 8 := by
  unfold bitmapLen
  omega

theorem and_shift_ne_zero (x : BitVec 8) {k : ℕ} (hk : k < 8) :
    ((x &&& (1#8 <<< k)) != 0#8) = x.getLsbD k := by
  rw [← BitVec.twoPow_eq, BitVec.and_twoPow]
  cases hx : x.getLsbD k with
  | false => simp
  | true =>
    have hne : BitVec.twoPow 8 k ≠ 0#8 := by
      intro h
      have := congrArg (fun y => BitVec.getLsbD y k) h
      simp [hk] at this
    simpa using hne

variable {i : ℕ}

namespace BitSlice

variable {s : BitSlice} {mem : Memory}

theorem test_of_lt (mem : Memory) (hi : i < s.len) :
    s.test mem i = .ok ((mem (s.bits + i / 8)).getLsbD (i % 8)) := by
  unfold test
  rw [if_neg (by omega), and_shift_ne_zero _ (Nat.mod_lt _ (by omega))]

theorem getLsbD_set (b j : ℕ) :
    (Function.update mem (s.bits + i / 8) (mem (s.bits + i / 8) ||| (1#8 <<< (i % 8)))
        (b + j / 8)).getLsbD (j % 8) =
      ((mem (b + j / 8)).getLsbD (j % 8) ||
        decide (b + j / 8 = s.bits + i / 8 ∧ j % 8 = i % 8)) := by
  by_cases h : b + j / 8 = s.bits + i / 8
  · rw [h, Function.update_self, BitVec.getLsbD_or, ← BitVec.twoPow_eq, BitVec.getLsbD_twoPow]
    simp [Nat.mod_lt, eq_comm]
  · simp [h]

theorem getLsbD_clear (b j : ℕ) :
    (Function.update mem (s.bits + i / 8) (mem (s.bits + i / 8) &&& ~~~(1#8 <<< (i % 8)))
        (b + j / 8)).getLsbD (j % 8) =
      ((mem (b + j / 8)).getLsbD (j % 8) &&
        !decide (b + j / 8 = s.bits + i / 8 ∧ j % 8 = i % 8)) := by
  by_cases h : b + j / 8 = s.bits + i / 8
  · rw [h, Function.update_self, BitVec.getLsbD_and, BitVec.getLsbD_not, ← BitVec.twoPow_eq,
      BitVec.getLsbD_twoPow]
    simp [Nat.mod_lt, eq_comm]
  · simp [h]

end BitSlice

namespace Zone

variable {M N : ℕ}

@[simp] theorem setMem_mem (z : Zone M N) (m : Memory) : (z.setMem m).mem = m := rfl
@[simp] theorem setMem_freeLists (z : Zone M N) (m : Memory) :
    (z.setMem m).freeLists = z.freeLists := rfl
@[simp] theorem setMem_bitmapOffset (z : Zone M N) (m : Memory) :
    (z.setMem m).bitmapOffset = z.bitmapOffset := rfl
@[simp] theorem setList_mem (z : Zone M N) (o : ℕ) (l : List ℕ) : (z.setList o l).mem = z.mem := rfl
@[simp] theorem setList_bitmapOffset (z : Zone M N) (o : ℕ) (l : List ℕ) :
    (z.setList o l).bitmapOffset = z.bitmapOffset := rfl
@[simp] theorem setList_freeLists (z : Zone M N) (o : ℕ) (l : List ℕ) :
    (z.setList o l).freeLists = Function.update z.freeLists o l := rfl

def bit (z : Zone M N) (o i : ℕ) : Bool := (z.mem (z.bitmapOffset o + i / 8)).getLsbD (i % 8)

def blockAddr (z : Zone M N) (o i : ℕ) : ℕ := z.salloc + i * (M * 2 ^ o)

def nblocks (z : Zone M N) (o : ℕ) : ℕ := z.nunits / 2 ^ o

/-- The facts about a zone's layout that no operation changes. -/
structure Geometry (z : Zone M N) : Prop where
  norder_le : N ≤ 64
  unit_pos : 0 < M
  salloc_pos : 0 < z.salloc
  salloc_dvd : M ∣ z.salloc
  /-- The allocable bytes end inside the address space. -/
  end_lt : z.salloc + z.nunits * M < wordSize
  /-- Bitmaps of different orders occupy different bytes. -/
  bitmaps_apart : ∀ o p, o < p → p < N →
    z.bitmapOffset o + bitmapLen (z.nblocks o) ≤ z.bitmapOffset p

/-- The free lists of `z` are the index lists `free`, its bitmaps agree with them, and
together with `used` they tile the zone's units. -/
structure Represents (z : Zone M N) (free : ℕ → List ℕ) (used : ℕ → ℕ) : Prop where
  geometry : z.Geometry
  lists : ∀ o < N, z.freeLists o = (free o).map (z.blockAddr o)
  bits : ∀ o < N, ∀ i < z.nblocks o, (z.bit o i = true ↔ i ∈ free o)
  tiling : Tiling N z.nunits free used

/-- The size checks of `from_slice` pass, with the bitmaps at the offset `first`, estimated at
`bytes`, and the blocks from `salloc` on. -/
structure Accepted (M N : ℕ) (hdr : NodeLayout) (slice : Region) (first bytes salloc : ℕ) :
    Prop where
  header : ∃ hdrStart, alignUp hdr.align slice.start = .ok hdrStart ∧
    slice.start + first = hdrStart + hdr.size
  bitmaps : bitmapBytes (slice.size / M) N = .ok bytes
  blocks : alignUp M (slice.start + first + bytes) = .ok salloc
  /-- The last check; the two others, for the header and the bitmaps, follow from it. -/
  inside : salloc < slice.start + slice.size

/-- The bitmaps are apart and in the zeroed bytes, which end below the blocks; the blocks are in
the region; and the free lists tile the units. -/
structure LaidOut (slice : Region) (first bytes : ℕ) (z : Zone M N) : Prop where
  apart : ∀ o p, o < p → p < N → ∃ s t, z.bitmapForOrder o = .ok s ∧
    z.bitmapForOrder p = .ok t ∧ s.bits + (s.len + 7) / 8 ≤ t.bits
  zeroed : ∀ o < N, ∃ s, z.bitmapForOrder o = .ok s ∧ first ≤ s.bits ∧
    s.bits + (s.len + 7) / 8 ≤ first + bytes
  below : slice.start + first + bytes ≤ z.salloc
  blocks : ∀ o < N, ∀ i < z.nunits / 2 ^ o, ∃ a, z.blockPtr i o = .ok a ∧ slice.start ≤ a ∧
    a + M * 2 ^ o ≤ slice.start + slice.size
  tiles : ∃ free, (∀ o < N, z.freeLists o = (free o).map (z.blockAddr o)) ∧
    Tiling N z.nunits free fun _ => 0

theorem lt_nblocks_iff (z : Zone M N) (o i : ℕ) :
    i < z.nblocks o ↔ (i + 1) * 2 ^ o ≤ z.nunits := by
  unfold nblocks
  rw [Nat.lt_iff_add_one_le, Nat.le_div_iff_mul_le (Nat.two_pow_pos o)]

variable {o i : ℕ} {z : Zone M N}

theorem blockAddr_le (z : Zone M N) (hi : i < z.nblocks o) :
    z.blockAddr o i + M * 2 ^ o ≤ z.salloc + z.nunits * M := by
  have hmul : M * ((i + 1) * 2 ^ o) ≤ z.nunits * M := by
    rw [Nat.mul_comm z.nunits]
    exact Nat.mul_le_mul_left M ((z.lt_nblocks_iff o i).mp hi)
  have hexp : M * ((i + 1) * 2 ^ o) = i * (M * 2 ^ o) + M * 2 ^ o := by ring
  unfold blockAddr
  omega

namespace Geometry

variable {z : Zone M N}

section

variable (h : z.Geometry)

include h

theorem bytesPerBlock_eq (ho : o < N) (hi : i < z.nblocks o) :
    bytesPerBlock M o = .ok (M * 2 ^ o) := by
  have hN := h.norder_le
  have hend := h.end_lt
  have hle : (i + 1) * 2 ^ o ≤ z.nunits := (z.lt_nblocks_iff o i).mp hi
  have hpos : 2 ^ o ≤ (i + 1) * 2 ^ o := Nat.le_mul_of_pos_left _ (Nat.succ_pos i)
  have hmul : M * 2 ^ o ≤ z.nunits * M := by
    rw [Nat.mul_comm z.nunits]
    exact Nat.mul_le_mul_left M (hpos.trans hle)
  unfold bytesPerBlock
  rw [Checked.shl_of_lt (by omega)]
  exact Checked.mul_of_lt (by omega)

theorem blockAddr_lt (hi : i < z.nblocks o) :
    z.blockAddr o i + M * 2 ^ o < wordSize :=
  (z.blockAddr_le hi).trans_lt h.end_lt

theorem blockPtr_eq (ho : o < N) (hi : i < z.nblocks o) :
    z.blockPtr i o = .ok (z.blockAddr o i) := by
  have hlt := h.blockAddr_lt hi
  have hb := h.bytesPerBlock_eq ho hi
  unfold blockAddr at hlt ⊢
  unfold blockPtr
  rw [hb, ok_bind, Checked.mul_of_lt (by omega), ok_bind, Checked.add_of_lt (by omega)]

theorem blockIdx_eq (ho : o < N) (hi : i < z.nblocks o) :
    z.blockIdx (z.blockAddr o i) o = .ok i := by
  have hpos : 0 < M * 2 ^ o := Nat.mul_pos h.unit_pos (Nat.two_pow_pos o)
  unfold blockIdx blockAddr
  rw [h.bytesPerBlock_eq ho hi, ok_bind, Checked.sub_of_le (by omega), ok_bind,
    Nat.add_sub_cancel_left, Nat.mul_div_cancel _ hpos]
  rfl

theorem bitmapForOrder_eq {o : ℕ} (ho : o < N) :
    z.bitmapForOrder o = .ok ⟨z.nblocks o, z.bitmapOffset o⟩ := by
  have hN := h.norder_le
  unfold bitmapForOrder
  rw [Checked.assert_of _ ho, ok_bind, Checked.shl_of_lt (by omega)]
  rfl

theorem alignedAddr_eq (o i : ℕ) :
    alignedAddr M (z.blockAddr o i) = some (z.blockAddr o i) := by
  have hd : M ∣ z.blockAddr o i :=
    Nat.dvd_add h.salloc_dvd (Dvd.dvd.mul_left (Nat.dvd_mul_right M _) i)
  exact if_pos (Nat.mod_eq_zero_of_dvd hd)

theorem blockAddr_pos (o i : ℕ) : z.blockAddr o i ≠ 0 := by
  have hpos := h.salloc_pos
  unfold blockAddr
  omega

theorem blockAddr_injective (o : ℕ) : Function.Injective (z.blockAddr o) := by
  have hpos : 0 < M * 2 ^ o := Nat.mul_pos h.unit_pos (Nat.two_pow_pos o)
  intro i j hij
  exact Nat.eq_of_mul_eq_mul_right hpos (Nat.add_left_cancel hij)

/-- Two bits share a byte and a place in it only if they are the same bit. -/
theorem bit_inj {o p j : ℕ} (ho : o < N) (hp : p < N) (hi : i < z.nblocks o) (hj : j < z.nblocks p)
    (hb : z.bitmapOffset p + j / 8 = z.bitmapOffset o + i / 8) (hm : j % 8 = i % 8) :
    p = o ∧ j = i := by
  rcases Nat.lt_trichotomy o p with hlt | rfl | hlt
  · have hapart := h.bitmaps_apart o p hlt hp
    rw [bitmapLen_eq] at hapart
    omega
  · exact ⟨rfl, by omega⟩
  · have hapart := h.bitmaps_apart p o hlt ho
    rw [bitmapLen_eq] at hapart
    omega

end

/-- The layout facts only mention fields that the operations keep. -/
theorem congr {z' : Zone M N} (h : z.Geometry) (hn : z'.nunits = z.nunits)
    (hs : z'.salloc = z.salloc) (hb : z'.bitmapOffset = z.bitmapOffset) : z'.Geometry where
  norder_le := h.norder_le
  unit_pos := h.unit_pos
  salloc_pos := hs ▸ h.salloc_pos
  salloc_dvd := hs ▸ h.salloc_dvd
  end_lt := by rw [hs, hn]; exact h.end_lt
  bitmaps_apart := by simpa only [nblocks, hn, hb] using h.bitmaps_apart

end Geometry

theorem exists_set (h : z.Geometry) (ho : o < N) (hi : i < z.nblocks o) :
    ∃ mem, BitSlice.set ⟨z.nblocks o, z.bitmapOffset o⟩ z.mem i = .ok mem ∧
      ∀ p < N, ∀ j < z.nblocks p,
        ((z.setMem mem).bit p j = true ↔ z.bit p j = true ∨ (p = o ∧ j = i)) := by
  refine ⟨_, if_neg (by simpa using hi), fun p hp j hj => ?_⟩
  unfold bit
  simp only [setMem_mem, setMem_bitmapOffset]
  rw [BitSlice.getLsbD_set (s := ⟨z.nblocks o, z.bitmapOffset o⟩)]
  simp only [Bool.or_eq_true, decide_eq_true_eq]
  constructor
  · rintro (hb | ⟨hb, hm⟩)
    · exact Or.inl hb
    · exact Or.inr (h.bit_inj ho hp hi hj hb hm)
  · rintro (hb | ⟨rfl, rfl⟩)
    · exact Or.inl hb
    · exact Or.inr ⟨rfl, rfl⟩

theorem exists_clear (h : z.Geometry) (ho : o < N) (hi : i < z.nblocks o) :
    ∃ mem, BitSlice.clear ⟨z.nblocks o, z.bitmapOffset o⟩ z.mem i = .ok mem ∧
      ∀ p < N, ∀ j < z.nblocks p,
        ((z.setMem mem).bit p j = true ↔ z.bit p j = true ∧ ¬(p = o ∧ j = i)) := by
  refine ⟨_, if_neg (by simpa using hi), fun p hp j hj => ?_⟩
  unfold bit
  simp only [setMem_mem, setMem_bitmapOffset]
  rw [BitSlice.getLsbD_clear (s := ⟨z.nblocks o, z.bitmapOffset o⟩)]
  simp only [Bool.and_eq_true, Bool.not_eq_true', decide_eq_false_iff_not]
  constructor
  · rintro ⟨hb, hne⟩
    refine ⟨hb, fun ⟨hpo, hji⟩ => hne ?_⟩
    subst hpo hji
    exact ⟨rfl, rfl⟩
  · rintro ⟨hb, hne⟩
    exact ⟨hb, fun ⟨hb', hm⟩ => hne (h.bit_inj ho hp hi hj hb' hm)⟩

theorem test_eq (hi : i < z.nblocks o) :
    BitSlice.test ⟨z.nblocks o, z.bitmapOffset o⟩ z.mem i = .ok (z.bit o i) :=
  BitSlice.test_of_lt z.mem hi

end Zone

end Anemone.Buddy
