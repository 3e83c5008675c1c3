import Anemone.Interface.BuddyTiling

/-!
# Each step of the allocator is one move of the tiling

`alloc_block` takes, a round of the split loop splits, a round of the merge loop joins, and the
tail of `dealloc` puts.  A step touches one list and one bit (`Represents.edit`).
-/

namespace Anemone.Buddy.Zone

open Function (update)
open List
open Checked (ok_bind pure_eq assert_of)

open Dyadic (Block Tiling mate)

variable {M N : ℕ} {z : Zone M N} {free : ℕ → List ℕ} {used : ℕ → ℕ} {o i : ℕ} {mem : Memory}

/-- the fields that fix a zone's addresses are the same. -/
structure SameLayout (z z' : Zone M N) : Prop where
  nunits : z'.nunits = z.nunits
  salloc : z'.salloc = z.salloc
  bitmapOffset : z'.bitmapOffset = z.bitmapOffset

theorem SameLayout.refl (z : Zone M N) : SameLayout z z := ⟨rfl, rfl, rfl⟩

theorem SameLayout.trans {a b c : Zone M N} (hab : SameLayout a b) (hbc : SameLayout b c) :
    SameLayout a c :=
  ⟨hbc.nunits.trans hab.nunits, hbc.salloc.trans hab.salloc,
    hbc.bitmapOffset.trans hab.bitmapOffset⟩

theorem SameLayout.blockAddr {z z' : Zone M N} (h : SameLayout z z') :
    z'.blockAddr = z.blockAddr := by
  funext o i
  simp only [Zone.blockAddr, h.salloc]

theorem SameLayout.nblocks {z z' : Zone M N} (h : SameLayout z z') (o : ℕ) :
    z'.nblocks o = z.nblocks o := by
  simp only [Zone.nblocks, h.nunits]

/-- **one edit**: a new list for one order and new bytes, agreeing with each other. -/
theorem Represents.edit (h : Represents z free used) {l : List ℕ} {used' : ℕ → ℕ}
    (ht : Tiling N z.nunits (update free o l) used')
    (hbits : ∀ p < N, ∀ j < z.nblocks p, ((z.setMem mem).bit p j = true ↔ j ∈ update free o l p)) :
    Represents ((z.setList o (l.map (z.blockAddr o))).setMem mem) (update free o l) used' where
  geometry := h.geometry.congr rfl rfl rfl
  lists p hp := by
    by_cases hpo : p = o
    · subst hpo
      simp only [setMem_freeLists, setList_freeLists, Function.update_self]
      rfl
    · simp only [setMem_freeLists, setList_freeLists, Function.update_of_ne hpo]
      exact h.lists p hp
  bits := hbits
  tiling := ht

theorem Represents.bits_append (h : Represents z free used) (hset : ∀ p < N, ∀ j < z.nblocks p,
      ((z.setMem mem).bit p j = true ↔ z.bit p j = true ∨ (p = o ∧ j = i))) :
    ∀ p < N, ∀ j < z.nblocks p,
      ((z.setMem mem).bit p j = true ↔ j ∈ update free o (free o ++ [i]) p) := by
  intro p hp j hj
  rw [hset p hp j hj, h.bits p hp j hj]
  by_cases hpo : p = o
  · subst hpo
    simp
  · simp [hpo]

theorem Represents.bits_erase (h : Represents z free used) (ho : o < N)
    (hclear : ∀ p < N, ∀ j < z.nblocks p,
      ((z.setMem mem).bit p j = true ↔ z.bit p j = true ∧ ¬(p = o ∧ j = i))) :
    ∀ p < N, ∀ j < z.nblocks p,
      ((z.setMem mem).bit p j = true ↔ j ∈ update free o ((free o).erase i) p) := by
  intro p hp j hj
  rw [hclear p hp j hj, h.bits p hp j hj]
  by_cases hpo : p = o
  · subst hpo
    rw [Function.update_self, (h.tiling.free_nodup hp).mem_erase_iff]
    simp [and_comm]
  · simp [hpo]

theorem Represents.lt_nblocks (h : Represents z free used) (ho : o < N) (hi : i ∈ free o) :
    i < z.nblocks o :=
  (z.lt_nblocks_iff o i).mpr (h.tiling.free_le ho hi)

theorem Represents.used_lt_nblocks
    (h : Represents z free fun u => used u + (⟨o, i⟩ : Block).weight u) : i < z.nblocks o :=
  (z.lt_nblocks_iff o i).mpr h.tiling.used_le

theorem allocBlock_nil (h : Represents z free used) (ho : o < N) (hnil : free o = []) :
    z.allocBlock o = .ok (none, z) := by
  have hl := h.lists o ho
  rw [hnil, map_nil] at hl
  unfold allocBlock
  rw [assert_of _ ho, ok_bind, hl]
  rfl

/-- **take**: popping the head of an order's list returns its address. -/
theorem allocBlock_cons (h : Represents z free used) (ho : o < N) {rest : List ℕ}
    (hcons : free o = i :: rest) :
    ∃ z', z.allocBlock o = .ok (some (z.blockAddr o i), z') ∧ SameLayout z z' ∧ z'.stats = z.stats ∧
      Represents z' (update free o rest)
        (fun u => used u + (⟨o, i⟩ : Block).weight u) := by
  have hmem : i ∈ free o := by simp [hcons]
  have hi := h.lt_nblocks ho hmem
  have hl := h.lists o ho
  rw [hcons, map_cons] at hl
  have hrest : (free o).erase i = rest := by rw [hcons, erase_cons_head]
  obtain ⟨mem, hclear, hbit⟩ := exists_clear h.geometry ho hi
  have hgeo : (z.setList o (rest.map (z.blockAddr o))).Geometry := h.geometry.congr rfl rfl rfl
  refine ⟨(z.setList o (rest.map (z.blockAddr o))).setMem mem, ?_, ⟨rfl, rfl, rfl⟩, rfl, ?_⟩
  · have hidx : (z.setList o (rest.map (z.blockAddr o))).blockIdx (z.blockAddr o i) o = .ok i :=
      hgeo.blockIdx_eq ho hi
    have hclear' : BitSlice.clear ⟨(z.setList o (rest.map (z.blockAddr o))).nblocks o,
          (z.setList o (rest.map (z.blockAddr o))).bitmapOffset o⟩
        (z.setList o (rest.map (z.blockAddr o))).mem i = .ok mem := hclear
    unfold allocBlock
    rw [assert_of _ ho, ok_bind, hl]
    simp only [hidx, hgeo.bitmapForOrder_eq ho, ok_bind, hclear', Checked.unwrap_ok,
      assert_of _ (h.geometry.blockAddr_pos o i), pure_eq]
  · have ht := h.tiling.take ho hmem
    rw [hrest] at ht
    refine h.edit ht ?_
    simpa only [hrest] using h.bits_erase ho hbit

/-- **put**: setting the bit of the block in use and appending it to its list. -/
theorem publish_eq (h : Represents z free fun u => used u + (⟨o, i⟩ : Block).weight u)
    (ho : o < N) (hm : o + 1 < N → mate i ∉ free o) :
    ∃ z', z.publish o i = .ok z' ∧ SameLayout z z' ∧ z'.stats = z.stats ∧
      Represents z' (update free o (free o ++ [i])) used := by
  have hi := h.used_lt_nblocks
  obtain ⟨mem, hset, hbit⟩ := exists_set h.geometry ho hi
  have hgeo : (z.setMem mem).Geometry := h.geometry.congr rfl rfl rfl
  have hptr : (z.setMem mem).blockPtr i o = .ok (z.blockAddr o i) := hgeo.blockPtr_eq ho hi
  refine ⟨(z.setList o ((free o ++ [i]).map (z.blockAddr o))).setMem mem, ?_, ⟨rfl, rfl, rfl⟩,
    rfl, h.edit (h.tiling.put ho hm) (h.bits_append hbit)⟩
  unfold publish
  rw [h.geometry.bitmapForOrder_eq ho, ok_bind, hset, Checked.unwrap_ok, ok_bind]
  simp only [hptr, ok_bind, setMem_freeLists, h.lists o ho, pure_eq, map_append, map_cons, map_nil]
  rfl

/-- **split**: the upper half of the block in use becomes free.  Both halves are
unmarked, since a free block over either would overlap the block in use. -/
theorem splitOnce_eq (h : Represents z free fun u => used u + (⟨o + 1, i⟩ : Block).weight u)
    (ho : o + 1 < N) :
    ∃ z', z.splitOnce o i = .ok z' ∧ SameLayout z z' ∧ z'.stats = z.stats ∧
      Represents z' (update free o (free o ++ [i * 2 + 1]))
        (fun u => used u + (⟨o, i * 2⟩ : Block).weight u) := by
  have ho' : o < N := by omega
  have hpow : (i + 1) * 2 ^ (o + 1) = (i * 2 + 1 + 1) * 2 ^ o := by rw [pow_succ]; ring
  have hle : (i * 2 + 1 + 1) * 2 ^ o ≤ z.nunits := hpow ▸ h.tiling.used_le
  have hhi : i * 2 + 1 < z.nblocks o := (z.lt_nblocks_iff _ _).mpr hle
  have hlo : i * 2 < z.nblocks o := by omega
  have hbl : z.bit o (i * 2) = false := by
    rw [← Bool.not_eq_true, h.bits o ho' _ hlo]
    exact h.tiling.not_free_of_used ho'
      ((Dyadic.covers_succ o i _).mpr (.inl (Block.covers_first _))) (Block.covers_first ⟨o, i * 2⟩)
  have hbh : z.bit o (i * 2 + 1) = false := by
    rw [← Bool.not_eq_true, h.bits o ho' _ hhi]
    exact h.tiling.not_free_of_used ho'
      ((Dyadic.covers_succ o i _).mpr (.inr (Block.covers_first _)))
      (Block.covers_first ⟨o, i * 2 + 1⟩)
  obtain ⟨mem, hset, hbit⟩ := exists_set h.geometry ho' hhi
  have hgeo : (z.setMem mem).Geometry := h.geometry.congr rfl rfl rfl
  have hptr : (z.setMem mem).blockPtr (i * 2 + 1) o = .ok (z.blockAddr o (i * 2 + 1)) :=
    hgeo.blockPtr_eq ho' hhi
  refine ⟨(z.setList o ((free o ++ [i * 2 + 1]).map (z.blockAddr o))).setMem mem, ?_,
    ⟨rfl, rfl, rfl⟩, rfl, h.edit (h.tiling.split ho) (h.bits_append hbit)⟩
  unfold splitOnce
  rw [h.geometry.bitmapForOrder_eq ho', ok_bind, test_eq hlo, test_eq hhi, hbl, hbh]
  simp only [Checked.unwrap_ok, ok_bind, hset, hptr,
    setMem_freeLists, h.lists o ho', pure_eq, map_append, map_cons,
    map_nil]
  rfl

end Anemone.Buddy.Zone
