import Mathlib.Algebra.Order.BigOperators.Group.Finset
import Mathlib.Tactic.Ring

/-!
# Dyadic blocks and coalesced tilings

A block of order `o` is a run of `2 ^ o` units starting at a multiple of `2 ^ o`.  A tiling of `n`
units keeps, for each order below `N`, a list of free block indices; the units that no free block
covers are counted by `used`:

  (free blocks over `u`) + `used u` = 1 for `u < n`, and 0 beyond.

The equation is linear in the lists, so each move of a buddy system is a rewriting of one summand.
That no two mates below the top order are free together makes the lists canonical.
-/

namespace Dyadic

open Function (update)
open List Function

/-- A block: the `2 ^ order` units from `index * 2 ^ order` on. -/
structure Block where
  /-- The binary logarithm of the block's length. -/
  order : ℕ
  /-- The block's position among the blocks of its order. -/
  index : ℕ
deriving DecidableEq, Repr

/-- The block `b` contains the unit `u`. -/
def Block.Covers (b : Block) (u : ℕ) : Prop :=
  b.index * 2 ^ b.order ≤ u ∧ u < (b.index + 1) * 2 ^ b.order

instance (b : Block) (u : ℕ) : Decidable (b.Covers u) :=
  inferInstanceAs (Decidable (_ ∧ _))

/-- The other half of the block's parent. -/
def mate (i : ℕ) : ℕ := if i % 2 = 0 then i + 1 else i - 1

/-- The indicator of a block, as a count. -/
def Block.weight (b : Block) (u : ℕ) : ℕ := if b.Covers u then 1 else 0

theorem Block.covers_iff (b : Block) (u : ℕ) : b.Covers u ↔ u / 2 ^ b.order = b.index := by
  have hpos : 0 < 2 ^ b.order := Nat.two_pow_pos _
  rw [Nat.div_eq_iff hpos, Block.Covers, Nat.add_mul, Nat.one_mul]
  omega

theorem Block.covers_first (b : Block) : b.Covers (b.index * 2 ^ b.order) := by
  rw [Block.covers_iff, Nat.mul_div_cancel _ (Nat.two_pow_pos _)]

theorem Block.covers_last (b : Block) : b.Covers ((b.index + 1) * 2 ^ b.order - 1) := by
  have hpos : 0 < 2 ^ b.order := Nat.two_pow_pos _
  unfold Block.Covers
  rw [Nat.add_mul, Nat.one_mul]
  omega

theorem covers_succ (o i u : ℕ) : (⟨o + 1, i⟩ : Block).Covers u ↔
      (⟨o, i * 2⟩ : Block).Covers u ∨ (⟨o, i * 2 + 1⟩ : Block).Covers u := by
  simp only [Block.covers_iff, pow_succ, ← Nat.div_div_eq_div_mul]
  omega

/-- Block by block, a parent weighs what its halves weigh together. -/
theorem weight_split (o i u : ℕ) : (⟨o + 1, i⟩ : Block).weight u =
      (⟨o, i * 2⟩ : Block).weight u + (⟨o, i * 2 + 1⟩ : Block).weight u := by
  simp only [Block.weight, Block.covers_iff, pow_succ, ← Nat.div_div_eq_div_mul]
  split_ifs <;> omega

/-- A block and its mate weigh what their parent weighs. -/
theorem weight_join (o i u : ℕ) : (⟨o, i⟩ : Block).weight u + (⟨o, mate i⟩ : Block).weight u =
      (⟨o + 1, i / 2⟩ : Block).weight u := by
  rw [weight_split]
  unfold mate
  split_ifs with h
  · rw [show i / 2 * 2 = i from by omega]
  · rw [show i / 2 * 2 = i - 1 from by omega, show i - 1 + 1 = i from by omega, Nat.add_comm]

theorem mate_ne (i : ℕ) : mate i ≠ i := by
  unfold mate
  split_ifs <;> omega

@[simp] theorem mate_mate (i : ℕ) : mate (mate i) = i := by
  unfold mate
  split_ifs <;> omega

variable {u N : ℕ} {b : Block} {free : ℕ → List ℕ} {bs : List Block}

theorem weight_of_covers (h : b.Covers u) : b.weight u = 1 := if_pos h

/-- Of two blocks over one unit the one of smaller order is inside the other. -/
theorem covers_of_covers {c : Block} {v : ℕ} (hle : b.order ≤ c.order) (hb : b.Covers u)
    (hc : c.Covers u) (hv : b.Covers v) : c.Covers v := by
  rw [Block.covers_iff] at hb hc hv ⊢
  obtain ⟨k, hk⟩ := Nat.exists_eq_add_of_le hle
  rw [hk, pow_add, ← Nat.div_div_eq_div_mul] at hc ⊢
  rw [hv, ← hb, hc]

/-! ## Tilings -/

/-- How many blocks of the list `l` of order-`o` indices cover the unit `u`. -/
def rowLoad (o : ℕ) (l : List ℕ) (u : ℕ) : ℕ := (l.map fun i => (⟨o, i⟩ : Block).weight u).sum

/-- How many free blocks of all orders below `N` cover the unit `u`. -/
def load (N : ℕ) (free : ℕ → List ℕ) (u : ℕ) : ℕ := ∑ o ∈ Finset.range N, rowLoad o (free o) u

@[simp] theorem rowLoad_append (o u : ℕ) (l m : List ℕ) :
    rowLoad o (l ++ m) u = rowLoad o l u + rowLoad o m u := by
  simp [rowLoad]

@[simp] theorem rowLoad_singleton (o u i : ℕ) :
    rowLoad o [i] u = (⟨o, i⟩ : Block).weight u := by
  simp [rowLoad]

@[simp] theorem rowLoad_nil (o u : ℕ) : rowLoad o [] u = 0 := rfl

theorem rowLoad_erase {o i : ℕ} {l : List ℕ} (h : i ∈ l) :
    rowLoad o (l.erase i) u + (⟨o, i⟩ : Block).weight u = rowLoad o l u := by
  have hp : l.Perm (i :: l.erase i) := perm_cons_erase h
  have := (hp.map fun j => (⟨o, j⟩ : Block).weight u).sum_eq
  simp only [rowLoad, map_cons, sum_cons] at this ⊢
  omega

theorem load_update {o : ℕ} (free : ℕ → List ℕ) (l : List ℕ) (u : ℕ) (ho : o < N) :
    load N (update free o l) u + rowLoad o (free o) u =
      load N free u + rowLoad o l u := by
  have hmem : o ∈ Finset.range N := Finset.mem_range.mpr ho
  unfold load
  rw [← Finset.add_sum_erase _ _ hmem, ← Finset.add_sum_erase _ _ hmem]
  have hrest : ∑ p ∈ (Finset.range N).erase o, rowLoad p (update free o l p) u =
      ∑ p ∈ (Finset.range N).erase o, rowLoad p (free p) u := by
    apply Finset.sum_congr rfl
    intro p hp
    rw [update_of_ne (Finset.ne_of_mem_erase hp)]
  rw [hrest, update_self]
  omega

theorem one_le_load {o i : ℕ} (ho : o < N) (hi : i ∈ free o) (hu : (⟨o, i⟩ : Block).Covers u) :
    1 ≤ load N free u := by
  have hrow : 1 ≤ rowLoad o (free o) u := by
    rw [← rowLoad_erase hi, weight_of_covers hu]
    omega
  exact hrow.trans (Finset.single_le_sum (f := fun p => rowLoad p (free p) u)
    (fun _ _ => Nat.zero_le _) (Finset.mem_range.mpr ho))

theorem exists_of_load_pos (h : 0 < load N free u) :
    ∃ o < N, ∃ i ∈ free o, (⟨o, i⟩ : Block).Covers u := by
  obtain ⟨o, ho, hpos⟩ := Finset.exists_ne_zero_of_sum_ne_zero (Nat.pos_iff_ne_zero.mp h)
  obtain ⟨w, hw, hne⟩ : ∃ w ∈ (free o).map fun i => (⟨o, i⟩ : Block).weight u, w ≠ 0 := by
    by_contra hall
    push Not at hall
    exact hpos (sum_eq_zero hall)
  obtain ⟨i, hi, rfl⟩ := mem_map.mp hw
  refine ⟨o, Finset.mem_range.mp ho, i, hi, ?_⟩
  by_contra hc
  exact hne (if_neg hc)

/-- The free blocks of all orders below `N`. -/
def freeBlocks (N : ℕ) (free : ℕ → List ℕ) : List Block :=
  (List.range N).flatMap fun o => (free o).map (Block.mk o)

/-- How many blocks of a list cover the unit `u`. -/
def cover (bs : List Block) (u : ℕ) : ℕ := (bs.map fun b => b.weight u).sum

@[simp] theorem cover_nil (u : ℕ) : cover [] u = 0 := rfl

@[simp] theorem cover_cons (b : Block) (bs : List Block) (u : ℕ) :
    cover (b :: bs) u = b.weight u + cover bs u := by
  simp [cover]

@[simp] theorem cover_append (bs cs : List Block) (u : ℕ) :
    cover (bs ++ cs) u = cover bs u + cover cs u := by
  simp [cover]

/-- The load of the free lists is the cover of the free blocks. -/
theorem cover_freeBlocks (N : ℕ) (free : ℕ → List ℕ) (u : ℕ) :
    cover (freeBlocks N free) u = load N free u := by
  induction N with
  | zero => rfl
  | succ N ih =>
    have hrow : cover ((free N).map (Block.mk N)) u = rowLoad N (free N) u := by
      simp [cover, rowLoad, comp_def]
    rw [freeBlocks, range_succ, flatMap_append, cover_append, load, Finset.sum_range_succ]
    simpa [hrow, freeBlocks, load] using ih

theorem cover_erase (h : b ∈ bs) (u : ℕ) :
    cover (bs.erase b) u + b.weight u = cover bs u := by
  have hp := ((perm_cons_erase h).map fun c => c.weight u).sum_eq
  simp only [map_cons, sum_cons] at hp
  unfold cover
  omega

/-- A unit is covered exactly when some block contains it. -/
theorem cover_pos_iff (bs : List Block) (u : ℕ) : 0 < cover bs u ↔ ∃ b ∈ bs, b.Covers u := by
  induction bs with
  | nil => simp
  | cons b bs ih =>
    rw [cover_cons, exists_mem_cons_iff, ← ih]
    by_cases hb : b.Covers u
    · simp [weight_of_covers hb, hb]
    · simp [Block.weight, hb]

/-- Blocks that cover no unit twice are pairwise disjoint. -/
theorem pairwise_of_cover_le_one (h : ∀ u, cover bs u ≤ 1) :
    bs.Pairwise fun b c => ∀ u, b.Covers u → ¬ c.Covers u := by
  induction bs with
  | nil => exact List.Pairwise.nil
  | cons b bs ih =>
    refine pairwise_cons.mpr ⟨fun c hc u hb hcu => ?_, ih fun u => ?_⟩
    · have hu := h u
      have hpos := (cover_pos_iff bs u).mpr ⟨c, hc, hcu⟩
      rw [cover_cons, weight_of_covers hb] at hu
      omega
    · have hu := h u
      rw [cover_cons] at hu
      omega

/-- The free lists and the used units of `n` units: disjoint, complete and coalesced. -/
structure Tiling (N n : ℕ) (free : ℕ → List ℕ) (used : ℕ → ℕ) : Prop where
  /-- Every unit below `n` is covered once, and no other unit is. -/
  cover : ∀ u, load N free u + used u = if u < n then 1 else 0
  /-- No two mates below the top order are free together. -/
  apart : ∀ o, o + 1 < N → ∀ i ∈ free o, mate i ∉ free o

namespace Tiling

variable {N n : ℕ} {free : ℕ → List ℕ} {used : ℕ → ℕ} {o i : ℕ}

theorem take (h : Tiling N n free used) (ho : o < N) (hi : i ∈ free o) :
    Tiling N n (update free o ((free o).erase i))
      (fun u => used u + (⟨o, i⟩ : Block).weight u) where
  cover u := by
    have hc := h.cover u
    have hu := load_update free ((free o).erase i) u ho
    have he := rowLoad_erase (o := o) (u := u) hi
    omega
  apart p hp j hj hm := by
    by_cases hpo : p = o
    · subst hpo
      simp only [update_self] at hj hm
      exact h.apart p hp j (mem_of_mem_erase hj) (mem_of_mem_erase hm)
    · rw [update_of_ne hpo] at hj hm
      exact h.apart p hp j hj hm

/-- Two free blocks over one unit are the same block, listed once. -/
theorem eq_of_covers (h : Tiling N n free used) {p j : ℕ} (ho : o < N) (hp : p < N)
    (hi : i ∈ free o) (hj : j ∈ update free o ((free o).erase i) p) (hu : (⟨o, i⟩ : Block).Covers u)
    (hv : (⟨p, j⟩ : Block).Covers u) : False := by
  -- with `i` taken into use, a second block over `u` would be a second count
  have hc := (h.take ho hi).cover u
  have hl := one_le_load hp hj hv
  rw [weight_of_covers hu] at hc
  split_ifs at hc
  omega

theorem used_eq_zero (h : Tiling N n free used) (ho : o < N) (hi : i ∈ free o)
    (hu : (⟨o, i⟩ : Block).Covers u) : used u = 0 := by
  have hc := h.cover u
  have hl := one_le_load ho hi hu
  split_ifs at hc <;> omega

theorem lt_of_covers (h : Tiling N n free used) (ho : o < N) (hi : i ∈ free o)
    (hu : (⟨o, i⟩ : Block).Covers u) : u < n := by
  have hc := h.cover u
  have hl := one_le_load ho hi hu
  split_ifs at hc with hlt
  · exact hlt
  · omega

theorem free_le (h : Tiling N n free used) (ho : o < N) (hi : i ∈ free o) :
    (i + 1) * 2 ^ o ≤ n := by
  have hlt := h.lt_of_covers ho hi (Block.covers_last ⟨o, i⟩)
  simp only at hlt
  omega

theorem used_le (h : Tiling N n free fun u => used u + (⟨o, i⟩ : Block).weight u) :
    (i + 1) * 2 ^ o ≤ n := by
  have hc := h.cover ((i + 1) * 2 ^ o - 1)
  have hw : (⟨o, i⟩ : Block).weight ((i + 1) * 2 ^ o - 1) = 1 :=
    weight_of_covers (Block.covers_last ⟨o, i⟩)
  simp only [hw] at hc
  split_ifs at hc
  omega

theorem not_free_of_used (h : Tiling N n free fun u => used u + b.weight u) (ho : o < N)
    (hb : b.Covers u) (hu : (⟨o, i⟩ : Block).Covers u) : i ∉ free o := by
  intro hi
  have hz := h.used_eq_zero ho hi hu
  simp only [weight_of_covers hb] at hz
  omega

theorem free_nodup (h : Tiling N n free used) (ho : o < N) : (free o).Nodup := by
  rw [nodup_iff_count_le_one]
  intro i
  by_contra hcount
  have hi : i ∈ free o := count_pos_iff.mp (by omega)
  have hi' : i ∈ (free o).erase i := by
    rw [← count_pos_iff, count_erase_self]
    omega
  exact h.eq_of_covers ho ho hi (by simpa using hi') (Block.covers_first ⟨o, i⟩)
    (Block.covers_first ⟨o, i⟩)

/-- **Split** the block in use: its upper half becomes free. -/
theorem split (h : Tiling N n free fun u => used u + (⟨o + 1, i⟩ : Block).weight u)
    (ho : o + 1 < N) :
    Tiling N n (update free o (free o ++ [i * 2 + 1]))
      (fun u => used u + (⟨o, i * 2⟩ : Block).weight u) where
  cover u := by
    have hc := h.cover u
    have hu := load_update free (free o ++ [i * 2 + 1]) u (show o < N by omega)
    have hw := weight_split o i u
    simp only [rowLoad_append, rowLoad_singleton] at hu
    omega
  apart p hp j hj hm := by
    by_cases hpo : p = o
    · subst hpo
      -- both halves meet the block in use, so neither was free before
      have hlow : i * 2 ∉ free p :=
        h.not_free_of_used (by omega) ((covers_succ p i _).mpr (.inl (Block.covers_first _)))
          (Block.covers_first ⟨p, i * 2⟩)
      have hmate : mate (i * 2 + 1) = i * 2 := by unfold mate; split_ifs <;> omega
      simp only [update_self, mem_append, mem_singleton] at hj hm
      rcases hj with hj | rfl
      · rcases hm with hm | hm
        · exact h.apart p hp j hj hm
        · rw [← mate_mate j, hm, hmate] at hj
          exact hlow hj
      · rw [hmate] at hm
        rcases hm with hm | hm
        · exact hlow hm
        · omega
    · rw [update_of_ne hpo] at hj hm
      exact h.apart p hp j hj hm

/-- **Join** the block in use with its free mate. -/
theorem join (h : Tiling N n free fun u => used u + (⟨o, i⟩ : Block).weight u) (ho : o < N)
    (hm : mate i ∈ free o) :
    Tiling N n (update free o ((free o).erase (mate i)))
      (fun u => used u + (⟨o + 1, i / 2⟩ : Block).weight u) where
  cover u := by
    have hc := (h.take ho hm).cover u
    have hw := weight_join o i u
    omega
  apart := (h.take ho hm).apart

/-- **Put** the block in use back, when its mate is not free. -/
theorem put (h : Tiling N n free fun u => used u + (⟨o, i⟩ : Block).weight u) (ho : o < N)
    (hm : o + 1 < N → mate i ∉ free o) :
    Tiling N n (update free o (free o ++ [i])) used where
  cover u := by
    have hc := h.cover u
    have hu := load_update free (free o ++ [i]) u ho
    simp only [rowLoad_append, rowLoad_singleton] at hu
    omega
  apart p hp j hj hmj := by
    by_cases hpo : p = o
    · subst hpo
      simp only [update_self, mem_append, mem_singleton] at hj hmj
      rcases hj with hj | rfl
      · rcases hmj with hmj | hmj
        · exact h.apart p hp j hj hmj
        · rw [← mate_mate j, hmj] at hj
          exact hm hp hj
      · rcases hmj with hmj | hmj
        · exact hm hp hmj
        · exact mate_ne j hmj
    · rw [update_of_ne hpo] at hj hmj
      exact h.apart p hp j hj hmj

/-- A block all of whose units are unused lies in a free block of at least its order. -/
theorem exists_free_of_unused (h : Tiling N n free used) (ho : o < N)
    (hall : ∀ u, (⟨o, i⟩ : Block).Covers u → u < n ∧ used u = 0) :
    ∃ p < N, o ≤ p ∧ ∃ j ∈ free p, ∀ u, (⟨o, i⟩ : Block).Covers u → (⟨p, j⟩ : Block).Covers u := by
  induction o generalizing i with
  | zero =>
    have hu := hall _ (Block.covers_first ⟨0, i⟩)
    have hload : 0 < load N free (i * 2 ^ 0) := by
      have hc := h.cover (i * 2 ^ 0)
      simp only [hu.1, hu.2, if_true] at hc
      omega
    obtain ⟨p, hp, j, hj, hcov⟩ := exists_of_load_pos hload
    exact ⟨p, hp, Nat.zero_le p, j, hj, fun v hv =>
      covers_of_covers (Nat.zero_le p) (Block.covers_first ⟨0, i⟩) hcov hv⟩
  | succ o ih =>
    -- each half lies in a free block; unless one of these is larger than a half, they
    -- are two free mates
    obtain ⟨p, hp, hop, j, hj, hcov⟩ :=
      ih (i := i * 2) (by omega) fun u hu => hall u ((covers_succ o i u).mpr (.inl hu))
    obtain ⟨q, hq, hoq, k, hk, hcov'⟩ :=
      ih (i := i * 2 + 1) (by omega) fun u hu => hall u ((covers_succ o i u).mpr (.inr hu))
    have hlo := Block.covers_first ⟨o, i * 2⟩
    have hhi := Block.covers_first ⟨o, i * 2 + 1⟩
    rcases Nat.lt_or_ge o p with hlt | hge
    · exact ⟨p, hp, hlt, j, hj, fun v hv => covers_of_covers (b := ⟨o + 1, i⟩) hlt
        ((covers_succ o i _).mpr (.inl hlo)) (hcov _ hlo) hv⟩
    · rcases Nat.lt_or_ge o q with hlt | hge'
      · exact ⟨q, hq, hlt, k, hk, fun v hv => covers_of_covers (b := ⟨o + 1, i⟩) hlt
          ((covers_succ o i _).mpr (.inr hhi)) (hcov' _ hhi) hv⟩
      · obtain rfl : p = o := by omega
        obtain rfl : q = p := by omega
        have hj' : j = i * 2 := by
          have h1 := ((Block.covers_iff _ _).mp (hcov _ hlo)).symm
          simpa only [(Block.covers_iff _ _).mp hlo] using h1
        have hk' : k = i * 2 + 1 := by
          have h1 := ((Block.covers_iff _ _).mp (hcov' _ hhi)).symm
          simpa only [(Block.covers_iff _ _).mp hhi] using h1
        have hmate : mate (i * 2) = i * 2 + 1 := by unfold mate; split_ifs <;> omega
        exact absurd (hmate ▸ hk' ▸ hk) (h.apart q ho j hj |> fun hn => hj' ▸ hn)

/-- **The free lists are canonical**: a block is free exactly when all of its units are
unused and it has the top order or its mate is not wholly unused. -/
theorem mem_iff_maximal (h : Tiling N n free used) (ho : o < N) :
    i ∈ free o ↔ (∀ u, (⟨o, i⟩ : Block).Covers u → u < n ∧ used u = 0) ∧
      (o + 1 = N ∨ ¬ ∀ u, (⟨o, mate i⟩ : Block).Covers u → u < n ∧ used u = 0) := by
  constructor
  · intro hi
    refine ⟨fun u hu => ⟨h.lt_of_covers ho hi hu, h.used_eq_zero ho hi hu⟩, ?_⟩
    by_contra hno
    push Not at hno
    obtain ⟨hN, hall⟩ := hno
    -- the free block over the mate would meet `i`, unless it is the mate itself
    obtain ⟨p, hp, hop, j, hj, hcov⟩ := h.exists_free_of_unused ho hall
    have hfirst := hcov _ (Block.covers_first ⟨o, mate i⟩)
    rcases Nat.lt_or_ge o p with hlt | hge
    · have hpar : (⟨o + 1, i / 2⟩ : Block).Covers (mate i * 2 ^ o) := by
        rw [Block.covers_iff, pow_succ, ← Nat.div_div_eq_div_mul,
          Nat.mul_div_cancel _ (Nat.two_pow_pos _)]
        simp only [mate]
        split_ifs <;> omega
      have hi' : (⟨o + 1, i / 2⟩ : Block).Covers (i * 2 ^ o) := by
        rw [Block.covers_iff, pow_succ, ← Nat.div_div_eq_div_mul,
          Nat.mul_div_cancel _ (Nat.two_pow_pos _)]
      have hboth := covers_of_covers (c := ⟨p, j⟩) (show o + 1 ≤ p from hlt) hpar hfirst hi'
      refine h.eq_of_covers ho hp hi ?_ (Block.covers_first ⟨o, i⟩) hboth
      rwa [update_of_ne (by omega)]
    · obtain rfl : p = o := by omega
      have hj' : j = mate i := by
        rw [Block.covers_iff] at hfirst
        simpa only [Nat.mul_div_cancel _ (Nat.two_pow_pos p)] using hfirst.symm
      exact h.apart p (by omega) i hi (hj' ▸ hj)
  · rintro ⟨hall, htop⟩
    obtain ⟨p, hp, hop, j, hj, hcov⟩ := h.exists_free_of_unused ho hall
    rcases Nat.lt_or_ge o p with hlt | hge
    · -- a larger free block would contain the mate as well
      have hlast := hcov _ (Block.covers_first ⟨o, i⟩)
      have hpar : (⟨o + 1, i / 2⟩ : Block).Covers (i * 2 ^ o) := by
        rw [Block.covers_iff, pow_succ, ← Nat.div_div_eq_div_mul,
          Nat.mul_div_cancel _ (Nat.two_pow_pos _)]
      rcases htop with hN | hmate
      · omega
      · refine absurd (fun u hu => ?_) hmate
        have hpu : (⟨o + 1, i / 2⟩ : Block).Covers u := by
          rw [Block.covers_iff] at hu ⊢
          rw [pow_succ, ← Nat.div_div_eq_div_mul, hu]
          simp only [mate]
          split_ifs <;> omega
        have hju := covers_of_covers (c := ⟨p, j⟩) (show o + 1 ≤ p from hlt) hpar hlast hpu
        exact ⟨h.lt_of_covers hp hj hju, h.used_eq_zero hp hj hju⟩
    · obtain rfl : p = o := by omega
      have hfirst := hcov _ (Block.covers_first ⟨p, i⟩)
      rw [Block.covers_iff] at hfirst
      simp only [Nat.mul_div_cancel _ (Nat.two_pow_pos p)] at hfirst
      rwa [hfirst]

end Tiling

end Dyadic
