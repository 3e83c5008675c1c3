import Anemone.Analysis.BuddyOperations

/-!
# `from_slice` builds a tiling

The bitmaps are sized for the whole region before the units behind them are counted, so that they
lie in zeroed bytes.  The greedy initialisation is a chain of `put`s, with at most one block per
order below the top: no two mates are free together.
-/

namespace Anemone.Buddy.Zone

open Checked (wordSize bind_eq_ok ok_bind assert_of)
open Function List
open Dyadic (Block mate)

variable {M N o n first bytes : ℕ}

/-- the bytes of the bitmaps of the orders below `o`, for `n` units. -/
def bitmapsBelow (n o : ℕ) : ℕ := ∑ p ∈ Finset.range o, bitmapLen (n / 2 ^ p)

theorem bitmapsBelow_succ (n o : ℕ) :
    bitmapsBelow n (o + 1) = bitmapsBelow n o + bitmapLen (n / 2 ^ o) :=
  Finset.sum_range_succ _ _

theorem bitmapsBelow_mono (n : ℕ) {p : ℕ} (h : o ≤ p) : bitmapsBelow n o ≤ bitmapsBelow n p :=
  Finset.sum_le_sum_of_subset (Finset.range_mono h)

theorem bitmapsBelow_le {m : ℕ} (h : n ≤ m) (o : ℕ) : bitmapsBelow n o ≤ bitmapsBelow m o := by
  apply Finset.sum_le_sum
  intro p _
  have hdiv : n / 2 ^ p ≤ m / 2 ^ p := Nat.div_le_div_right h
  rw [bitmapLen_eq, bitmapLen_eq]
  omega

/-- the estimate of the first pass, and the bound on the number of orders that its
shifts impose. -/
theorem bitmapBytes_eq_ok (h : bitmapBytes n o = .ok bytes) :
    bytes = bitmapsBelow n o ∧ o ≤ 64 := by
  induction o generalizing bytes with
  | zero =>
    cases h
    exact ⟨rfl, by omega⟩
  | succ o ih =>
    simp only [bitmapBytes, bind_eq_ok, Checked.shl_eq_ok, Checked.add_eq_ok] at h
    obtain ⟨acc, hacc, _, ⟨ho, rfl⟩, -, rfl⟩ := h
    obtain ⟨rfl, -⟩ := ih hacc
    exact ⟨(bitmapsBelow_succ n o).symm, ho⟩

theorem layBitmaps_eq_ok {stop : ℕ} {table : ℕ → ℕ} (h : layBitmaps n first o = .ok (stop, table)) :
    stop = first + bitmapsBelow n o ∧ ∀ p < o, table p = first + bitmapsBelow n p := by
  induction o generalizing stop table with
  | zero =>
    cases h
    exact ⟨rfl, by simp⟩
  | succ o ih =>
    simp only [layBitmaps, bind_eq_ok, Checked.shl_eq_ok, Checked.add_eq_ok] at h
    obtain ⟨⟨off, tab⟩, hoff, _, ⟨-, rfl⟩, _, ⟨-, rfl⟩, heq⟩ := h
    obtain ⟨rfl, htab⟩ := ih hoff
    cases heq
    refine ⟨by rw [bitmapsBelow_succ, Nat.add_assoc], fun p hp => ?_⟩
    rcases Nat.lt_succ_iff_lt_or_eq.mp hp with hlt | rfl
    · rw [update_of_ne (by omega)]
      exact htab p hlt
    · rw [update_self]

theorem layBitmaps_returns (ho : o ≤ 64) (h : first + bitmapsBelow n o < wordSize) :
    ∃ r, layBitmaps n first o = .ok r := by
  induction o with
  | zero => exact ⟨_, rfl⟩
  | succ o ih =>
    rw [bitmapsBelow_succ, ← Nat.add_assoc] at h
    obtain ⟨⟨off, tab⟩, hoff⟩ := ih (by omega) (by omega)
    rw [← (layBitmaps_eq_ok hoff).1] at h
    simp only [layBitmaps, hoff, ok_bind, Checked.shl_of_lt (show o < 64 by omega),
      Checked.add_of_lt h]
    exact ⟨_, rfl⟩

theorem and_mask {a k : ℕ} (ha : a < wordSize) (hk : k ≤ 64) :
    a &&& (wordSize - 2 ^ k) = a / 2 ^ k * 2 ^ k := by
  have hmask : wordSize - 2 ^ k = (2 ^ (64 - k) - 1) * 2 ^ k := by
    rw [Nat.sub_mul, ← pow_add, Nat.sub_add_cancel hk, Nat.one_mul]
    rfl
  apply Nat.eq_of_testBit_eq
  intro j
  rw [hmask, Nat.testBit_and, Nat.testBit_mul_two_pow, Nat.testBit_mul_two_pow,
    Nat.testBit_two_pow_sub_one, Nat.testBit_div_two_pow]
  by_cases hj : k ≤ j
  · have hbit : ¬ j - k < 64 - k → a.testBit j = false := by
      intro hge
      exact Nat.testBit_lt_two_pow (ha.trans_le (Nat.pow_le_pow_right (by omega) (by omega)))
    simp only [hj, decide_true, Bool.true_and, Nat.sub_add_cancel hj]
    by_cases hlt : j - k < 64 - k
    · simp [hlt]
    · simp [hlt, hbit hlt]
  · simp [hj]

/-- an aligned-up address is a multiple of the alignment, at or above the address. -/
theorem alignUp_eq_ok {align a r : ℕ} (hpow : ∃ k, align = 2 ^ k) (h : alignUp align a = .ok r) :
    align ∣ r ∧ a ≤ r := by
  obtain ⟨k, rfl⟩ := hpow
  simp only [alignUp, bind_eq_ok, Checked.add_eq_ok, Checked.sub_eq_ok] at h
  obtain ⟨_, ⟨hlt, rfl⟩, _, ⟨hle, rfl⟩, heq⟩ := h
  have hk : k ≤ 64 := by
    by_contra hgt
    have : wordSize ≤ 2 ^ k := Nat.pow_le_pow_right (by omega) (by omega)
    omega
  have hpos : 0 < 2 ^ k := Nat.two_pow_pos k
  cases heq
  rw [and_mask (by omega) hk]
  refine ⟨Nat.dvd_mul_left _ _, ?_⟩
  have hdm := Nat.div_add_mod (a + 2 ^ k - 1) (2 ^ k)
  rw [Nat.mul_comm] at hdm
  omega

/-- the units from `a` up to `n`, counted as used while they are not listed yet. -/
def pending (a n u : ℕ) : ℕ := if a ≤ u ∧ u < n then 1 else 0

theorem pending_eq_add_weight {i : ℕ} (h : (i + 1) * 2 ^ o ≤ n) :
    pending (i * 2 ^ o) n =
      fun u => pending ((i + 1) * 2 ^ o) n u + (⟨o, i⟩ : Block).weight u := by
  funext u
  have hpos : 0 < 2 ^ o := Nat.two_pow_pos o
  have hexp : (i + 1) * 2 ^ o = i * 2 ^ o + 2 ^ o := by ring
  unfold pending Block.weight
  split_ifs <;> simp only [Block.Covers] at * <;> omega

variable {z : Zone M N} {free : ℕ → List ℕ} {hdr : NodeLayout} {slice : Region} {mem : Memory}

theorem pushBlocks_step {used : ℕ → ℕ} {i : ℕ}
    (h : Represents z free fun u => used u + (⟨o, i⟩ : Block).weight u) (ho : o < N)
    (hm : o + 1 < N → mate i ∉ free o) :
    ∃ mem, BitSlice.set ⟨z.nblocks o, z.bitmapOffset o⟩ z.mem i = .ok mem ∧
      Represents ((z.setList o (z.freeLists o ++ [z.blockAddr o i])).setMem mem)
        (update free o (free o ++ [i])) used := by
  obtain ⟨mem, hset, hbits⟩ := exists_set h.geometry ho h.used_lt_nblocks
  refine ⟨mem, hset, ?_⟩
  have happ : z.freeLists o ++ [z.blockAddr o i] = (free o ++ [i]).map (z.blockAddr o) := by
    rw [h.lists o ho, map_append, map_singleton]
  rw [happ]
  exact h.edit (h.tiling.put ho hm) (h.bits_append hbits)

/-- **the inner loop** lists `k` consecutive blocks of one order. -/
theorem pushBlocks_spec {s k : ℕ} (ho : o < N)
    (h : Represents z free (pending (s * 2 ^ o) z.nunits)) (hnil : free o = [])
    (hk : (s + k) * 2 ^ o ≤ z.nunits) (hone : o + 1 < N → k ≤ 1) :
    ∃ z', pushBlocks o (s * 2 ^ o) s k z = .ok z' ∧ SameLayout z z' ∧
      Represents z' (update free o (range' s k))
        (pending ((s + k) * 2 ^ o) z.nunits) := by
  induction k with
  | zero =>
    refine ⟨z, rfl, .refl z, ?_⟩
    rw [range'_zero, ← hnil, update_eq_self]
    exact h
  | succ k ih =>
    have hexp : (s + (k + 1)) * 2 ^ o = (s + k) * 2 ^ o + 2 ^ o := by ring
    have hk' : (s + k) * 2 ^ o ≤ z.nunits := by
      rw [hexp] at hk
      exact (Nat.le_add_right _ _).trans hk
    obtain ⟨z₁, hz₁, hlay, hrep⟩ := ih hk' (fun hN => (hone hN).trans' (by omega))
    rw [pending_eq_add_weight (by rw [Nat.add_assoc]; exact hk)] at hrep
    have hm : o + 1 < N → mate (s + k) ∉ update free o (range' s k) o := by
      intro hN
      have hk0 : k = 0 := by have := hone hN; omega
      simp [hk0]
    obtain ⟨mem, hset, hrep'⟩ := pushBlocks_step hrep ho hm
    have haddr : z₁.salloc + (s * 2 ^ o + k * 2 ^ o) * M = z₁.blockAddr o (s + k) := by
      unfold blockAddr
      ring
    have hgeo : (z₁.setList o (z₁.freeLists o ++ [z₁.blockAddr o (s + k)])).Geometry :=
      hrep.geometry.congr rfl rfl rfl
    rw [update_self, update_idem, ← range'_1_concat] at hrep'
    refine ⟨(z₁.setList o (z₁.freeLists o ++ [z₁.blockAddr o (s + k)])).setMem mem, ?_,
      hlay.trans ⟨rfl, rfl, rfl⟩, hrep'⟩
    have hN := hgeo.norder_le
    unfold pushBlocks
    simp only [hz₁, ok_bind, Checked.shl_of_lt (show o < 64 by omega), haddr,
      hgeo.bitmapForOrder_eq ho]
    rw [show (z₁.setList o (z₁.freeLists o ++ [z₁.blockAddr o (s + k)])).nblocks o =
      z₁.nblocks o from rfl, setList_bitmapOffset, setList_mem, hset]
    rfl

/-- **the outer loop** lists everything that is pending. -/
theorem fillOrders_spec (rem : ℕ) {cur : ℕ} (ho : o ≤ N)
    (h : Represents z free (pending cur z.nunits)) (hnil : ∀ p < o, free p = [])
    (hsum : cur + rem = z.nunits) (hdvd : 2 ^ o ∣ cur) (hrem : o < N → rem < 2 ^ o) (hN : 0 < N) :
    ∃ z' free', fillOrders o z rem cur = .ok z' ∧ SameLayout z z' ∧
      Represents z' free' (fun _ => 0) := by
  induction o generalizing z free rem cur with
  | zero =>
    refine ⟨z, free, rfl, .refl z, ?_⟩
    have hzero : pending cur z.nunits = fun _ => 0 := by
      funext u
      unfold pending
      rw [if_neg (by omega)]
    rwa [hzero] at h
  | succ o ih =>
    have hpos : 0 < 2 ^ o := Nat.two_pow_pos o
    obtain ⟨s, rfl⟩ : 2 ^ o ∣ cur := (pow_dvd_pow 2 (Nat.le_succ o)).trans hdvd
    rw [Nat.mul_comm (2 ^ o) s] at *
    have hle : rem / 2 ^ o * 2 ^ o ≤ rem := Nat.div_mul_le_self rem (2 ^ o)
    have hlt : rem - rem / 2 ^ o * 2 ^ o < 2 ^ o := by
      have := Nat.div_add_mod' rem (2 ^ o)
      omega
    have hexp : (s + rem / 2 ^ o) * 2 ^ o = s * 2 ^ o + rem / 2 ^ o * 2 ^ o := by ring
    have hone : o + 1 < N → rem / 2 ^ o ≤ 1 := by
      intro hlt'
      have hr := hrem hlt'
      rw [pow_succ] at hr
      exact Nat.lt_succ_iff.mp (Nat.div_lt_of_lt_mul (by omega))
    obtain ⟨z₁, hz₁, hlay₁, hrep₁⟩ :=
      pushBlocks_spec (by omega) h (hnil o (by omega)) (by omega) hone
    rw [hexp, ← hlay₁.nunits] at hrep₁
    obtain ⟨z₂, free₂, hz₂, hlay₂, hrep₂⟩ := ih (rem - rem / 2 ^ o * 2 ^ o) (by omega) hrep₁
      (fun p hp => by rw [update_of_ne (by omega), hnil p (by omega)])
      (by rw [hlay₁.nunits]; omega)
      (Nat.dvd_add (Nat.dvd_mul_left _ _) (Nat.dvd_mul_left _ _)) (fun _ => hlt)
    have hN64 := h.geometry.norder_le
    refine ⟨z₂, free₂, ?_, hlay₁.trans hlay₂, hrep₂⟩
    unfold fillOrders
    rw [Checked.shl_of_lt (show o < 64 by omega), ok_bind,
      assert_of _ (Nat.mul_mod_left s (2 ^ o)), ok_bind,
      Nat.mul_div_cancel s hpos, hz₁, ok_bind, hz₂]

theorem represents_pending (first bytes : ℕ) (hgeo : z.Geometry)
    (hlists : z.freeLists = fun _ => [])
    (htable : ∀ p < N, z.bitmapOffset p = first + bitmapsBelow z.nunits p)
    (hbytes : bitmapsBelow z.nunits N ≤ bytes)
    (hzero : ∀ k, first ≤ k → k < first + bytes → z.mem k = 0#8) :
    Represents z (fun _ => []) (pending 0 z.nunits) where
  geometry := hgeo
  lists o _ := by simp [hlists]
  bits o ho i hi := by
    have hsucc := bitmapsBelow_succ z.nunits o
    have hmono := bitmapsBelow_mono z.nunits (show o + 1 ≤ N from ho)
    rw [bitmapLen_eq] at hsucc
    unfold nblocks at hi
    have hmem : z.mem (z.bitmapOffset o + i / 8) = 0#8 :=
      hzero _ (by rw [htable o ho]; omega) (by rw [htable o ho]; omega)
    simp [bit, hmem]
  tiling :=
    { cover := fun u => by simp [Dyadic.load, pending]
      apart := by simp }

theorem Accepted.of_fromSlice (hM : ∃ k, M = 2 ^ k) (h : fromSlice M N hdr slice mem = .ok z) :
    ∃ first bytes salloc, Accepted M N hdr slice first bytes salloc := by
  simp only [fromSlice, bind_eq_ok, Checked.assert_eq_ok, Checked.add_eq_ok] at h
  obtain ⟨hdrStart, hhdr, _, ⟨-, rfl⟩, -, hfit, bytes, hbytes, bstop, ⟨-, rfl⟩, -, hbfit, salloc,
    halign, -, hsalloc, -⟩ := h
  have hhdrle := (alignUp_eq_ok hdr.align_pow hhdr).2
  have hfirst : slice.start + (hdrStart + hdr.size - slice.start) = hdrStart + hdr.size := by omega
  exact ⟨hdrStart + hdr.size - slice.start, bytes, salloc, ⟨hdrStart, hhdr, hfirst⟩, hbytes,
    hfirst.symm ▸ halign, hsalloc⟩

/-- **construction**: an accepted region becomes a zone all of whose units are free. -/
theorem Accepted.fromSlice_returns {salloc : ℕ} (h : Accepted M N hdr slice first bytes salloc)
    (hM : ∃ k, M = 2 ^ k) (hN : 0 < N) (mem : Memory) :
    ∃ z free, fromSlice M N hdr slice mem = .ok z ∧ Represents z free (fun _ => 0) ∧
      z.salloc = salloc ∧ slice.start + first + bytes ≤ salloc ∧
      salloc + z.nunits * M ≤ slice.start + slice.size ∧
      bitmapsBelow z.nunits N ≤ bytes ∧
      ∀ o < N, z.bitmapOffset o = first + bitmapsBelow z.nunits o := by
  obtain ⟨⟨hdrStart, hhdr, hfirst⟩, hbytes, halign, hsalloc⟩ := h
  obtain ⟨hbytes', hN64⟩ := bitmapBytes_eq_ok hbytes
  obtain ⟨-, hhdrle⟩ := alignUp_eq_ok hdr.align_pow hhdr
  obtain ⟨hdvd, hsle⟩ := alignUp_eq_ok hM halign
  have hMpos : 0 < M := by
    obtain ⟨k, rfl⟩ := hM
    exact Nat.two_pow_pos k
  have hhdrpos := hdr.size_pos
  have hfits := slice.fits
  generalize hn : (slice.start + slice.size - salloc) / M = n
  have hmul : n * M ≤ slice.start + slice.size - salloc := hn ▸ Nat.div_mul_le_self _ M
  have hover : n ≤ slice.size / M := hn ▸ Nat.div_le_div_right (by omega)
  have hbelow : bitmapsBelow n N ≤ bytes := hbytes' ▸ bitmapsBelow_le hover N
  have hword : first + bitmapsBelow n N < wordSize := by omega
  obtain ⟨⟨stop, table⟩, hlay⟩ := layBitmaps_returns hN64 hword
  obtain ⟨-, htable⟩ := layBitmaps_eq_ok hlay
  generalize hz₀ : (Zone.mk (fun k => if first ≤ k ∧ k < first + bytes then 0#8 else mem k)
    ZoneStats.zeroed n table salloc (fun _ => []) : Zone M N) = z₀
  have hgeo : z₀.Geometry := by
    subst hz₀
    refine ⟨hN64, hMpos, by dsimp only; omega, hdvd, by dsimp only; omega, fun o p hop hp => ?_⟩
    have hsucc := bitmapsBelow_succ n o
    have hmono := bitmapsBelow_mono n (show o + 1 ≤ p from hop)
    simp only [nblocks, htable o (hop.trans hp), htable p hp]
    omega
  have hrep : Represents z₀ (fun _ => []) (pending 0 z₀.nunits) := by
    refine represents_pending first bytes hgeo ?_ ?_ ?_ ?_ <;> subst hz₀
    · rfl
    · exact htable
    · exact hbelow
    · intro k hlo hhi
      exact if_pos ⟨hlo, hhi⟩
  obtain ⟨z₁, free, hz₁, hsame, hrep₁⟩ := fillOrders_spec n le_rfl hrep (fun _ _ => rfl)
    (by subst hz₀; exact Nat.zero_add n) (Nat.dvd_zero _) (fun hlt => absurd hlt (lt_irrefl N)) hN
  have hnunits : z₁.nunits = n := hsame.nunits.trans (by rw [← hz₀])
  refine ⟨{ z₁ with stats := { z₁.stats with allocableBytes := n * M } }, free, ?_,
    ⟨hrep₁.geometry.congr rfl rfl rfl, hrep₁.lists, hrep₁.bits, hrep₁.tiling⟩,
    hsame.salloc.trans (by rw [← hz₀]), hsle, by dsimp only; rw [hnunits]; omega,
    by dsimp only; rwa [hnunits],
    fun o ho => ?_⟩
  · unfold fromSlice
    simp only [hhdr, ok_bind]
    rw [Checked.add_of_lt (show hdrStart + hdr.size < wordSize by omega), ok_bind,
      assert_of _ (show hdrStart + hdr.size ≤ slice.start + slice.size by omega),
      ok_bind, hbytes, ok_bind, ← hfirst,
      Checked.add_of_lt (show slice.start + first + bytes < wordSize by omega), ok_bind,
      assert_of _ (show slice.start + first + bytes ≤ slice.start + slice.size by omega),
      ok_bind]
    simp only [Nat.add_sub_cancel_left, halign, ok_bind, assert_of _ hsalloc, hn, hlay, hz₀, hz₁]
    rfl
  · rw [show z₁.bitmapOffset = table from hsame.bitmapOffset.trans (by rw [← hz₀]), hnunits]
    exact htable o ho

theorem fromSlice_spec (hM : ∃ k, M = 2 ^ k) (hN : 0 < N) (h : fromSlice M N hdr slice mem = .ok z) :
    ∃ free, Represents z free (fun _ => 0) := by
  obtain ⟨_, _, _, hacc⟩ := Accepted.of_fromSlice hM h
  obtain ⟨z', free, hz', hrep, -⟩ := hacc.fromSlice_returns hM hN mem
  cases h.symm.trans hz'
  exact ⟨free, hrep⟩

end Anemone.Buddy.Zone
