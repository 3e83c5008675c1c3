import Anemone.Model.RangeAllocator
import Anemone.Library.Intervals

/-!
# Two indexes of one set of ranges

`Holds s P` says that the two maps of the allocator `s` both index the ranges `P`, and that `P` is
a separated family: its ranges are not empty, end in a word, and leave a gap between any two.  So a
run of free integers lies inside one member of `P`.
-/

namespace Anemone.Ranges.RangeAllocator

open Rangable (start len)
open OrderedMap
open Intervals (Separated)

variable {R : Type} [Rangable R]

def stop (r : R) : ℕ := start r + len r

def Overlaps (s : RangeAllocator R) (range : R) : Prop := ∃ x, Covers range x ∧ x ∈ s.freeSet

/-- One call: a `free` of any integers, or any aligned allocation. -/
inductive Call [DecidableEq R] : RangeAllocator R → RangeAllocator R → Prop
  | free (s : RangeAllocator R) (range : R) {r : Except RangeAllocError Unit}
      {t : RangeAllocator R} (hend : start range + len range ≤ usizeMax)
      (h : s.free range = .ok (r, t)) : Call s t
  | allocateAligned (s : RangeAllocator R) (order : HashOrder R) (length align : ℕ)
      {r : Option R} {t : RangeAllocator R} (halign : 1 ≤ align)
      (h : s.allocateAligned order length align = .ok (r, t)) : Call s t

/-- Both indexes of the allocator hold exactly the ranges `P`, which are separated. -/
structure Holds (s : RangeAllocator R) (P : Set R) : Prop where
  byStart : ∀ (k : ℕ) (r : R), s.freeByStart[k]? = some r ↔ r ∈ P ∧ start r = k
  byLength : ∀ (n : ℕ) (r : R), (∃ set, s.freeByLength[n]? = some set ∧ r ∈ set) ↔ r ∈ P ∧ len r = n
  bucket_ne : ∀ (n : ℕ) (set : Finset R), s.freeByLength[n]? = some set → set ≠ ∅
  len_pos : ∀ r ∈ P, 0 < len r
  stop_le : ∀ r ∈ P, stop r ≤ usizeMax
  separated : Separated start stop P

theorem holds_new : Holds (new : RangeAllocator R) ∅ where
  byStart k r := by simp [new]
  byLength n r := by simp [new]
  bucket_ne n set h := by simp [new] at h
  len_pos r hr := hr.elim
  stop_le r hr := hr.elim
  separated i hi := hi.elim

namespace Holds

variable {s : RangeAllocator R} {P : Set R} {r : R}

theorem get_start (h : Holds s P) (hr : r ∈ P) : s.freeByStart[start r]? = some r :=
  (h.byStart (start r) r).mpr ⟨hr, rfl⟩

theorem freeSet_eq (h : Holds s P) : s.freeSet = Intervals.union start stop P := by
  ext x
  constructor
  · rintro ⟨k, r, hk, hx⟩
    exact ⟨r, ((h.byStart k r).mp hk).1, hx⟩
  · rintro ⟨r, hr, hx⟩
    exact ⟨start r, r, h.get_start hr, hx⟩

variable [DecidableEq R]

theorem remove (h : Holds s P) (hr : r ∈ P) :
    ∃ t, s.removeFreeRange r = .ok t ∧ Holds t (P \ {r}) := by
  obtain ⟨set, hset, hmem⟩ := (h.byLength (len r) r).mpr ⟨hr, rfl⟩
  refine ⟨_, by
    unfold removeFreeRange
    rw [h.get_start hr, hset]
    rfl, ?_⟩
  -- two members never share a start, so erasing by start erases `r` alone
  have hstart : ∀ q ∈ P, start q = start r → q = r := by
    intro q hq heq
    have hpos := h.len_pos q hq
    have hpos' := h.len_pos r hr
    exact h.separated.eq_of_mem hq hr (x := start r) (by unfold stop; omega) (by unfold stop; omega)
  constructor
  · intro k q
    simp only [get_erase, Set.mem_sdiff, Set.mem_singleton_iff]
    by_cases hk : start r = k
    · simp only [hk, if_true, reduceCtorEq, false_iff]
      rintro ⟨⟨hq, hne⟩, hqk⟩
      exact hne (hstart q hq (hqk.trans hk.symm))
    · rw [if_neg hk, h.byStart]
      constructor
      · rintro ⟨hq, rfl⟩
        exact ⟨⟨hq, fun heq => hk (heq ▸ rfl)⟩, rfl⟩
      · rintro ⟨⟨hq, -⟩, rfl⟩
        exact ⟨hq, rfl⟩
  · intro n q
    have hold := h.byLength n q
    by_cases hn : len r = n
    · subst hn
      have hin : q ∈ set ↔ q ∈ P ∧ len q = len r := by simpa [hset] using hold
      have hiff : (q ∈ P \ {r} ∧ len q = len r) ↔ q ≠ r ∧ q ∈ set := by
        rw [hin, Set.mem_sdiff, Set.mem_singleton_iff]
        tauto
      rw [hiff, ← Finset.mem_erase]
      by_cases hemp : set.erase r = ∅
      all_goals simp [hemp]
    · have hsame : (if set.erase r = ∅ then s.freeByLength.erase (len r)
          else s.freeByLength.insert (len r) (set.erase r))[n]? = s.freeByLength[n]? := by
        split_ifs
        · rw [get_erase, if_neg hn]
        · rw [get_insert, if_neg hn]
      dsimp only
      rw [hsame, hold, Set.mem_sdiff, Set.mem_singleton_iff]
      constructor
      · rintro ⟨hq, hqn⟩
        exact ⟨⟨hq, fun heq => hn (heq ▸ hqn)⟩, hqn⟩
      · rintro ⟨⟨hq, -⟩, hqn⟩
        exact ⟨hq, hqn⟩
  · intro n set' hset'
    dsimp only at hset'
    split_ifs at hset' with hemp
    · rw [get_erase] at hset'
      split_ifs at hset'
      exact h.bucket_ne n set' hset'
    · rw [get_insert] at hset'
      split_ifs at hset'
      · exact Option.some.inj hset' ▸ hemp
      · exact h.bucket_ne n set' hset'
  · exact fun q hq => h.len_pos q hq.1
  · exact fun q hq => h.stop_le q hq.1
  · exact fun i hi j hj hne => h.separated i hi.1 j hj.1 hne

/-- **Inserting** a range that leaves a gap to every member. -/
theorem insert (h : Holds s P) (hpos : 0 < len r) (hle : stop r ≤ usizeMax)
    (hgap : ∀ q ∈ P, stop q < start r ∨ stop r < start q) :
    Holds (s.insertFreeRange r) (P ∪ {r}) := by
  have hne : ∀ q ∈ P, start q ≠ start r := by
    intro q hq heq
    have hposq := h.len_pos q hq
    rcases hgap q hq with hlt | hlt <;> unfold stop at hlt <;> omega
  constructor
  · intro k q
    simp only [insertFreeRange, get_insert, Set.mem_union, Set.mem_singleton_iff]
    by_cases hk : start r = k
    · rw [if_pos hk]
      constructor
      · intro heq
        cases heq
        exact ⟨Or.inr rfl, hk⟩
      · rintro ⟨hq | rfl, hqk⟩
        · exact absurd (hqk.trans hk.symm) (hne q hq)
        · rfl
    · rw [if_neg hk, h.byStart]
      constructor
      · rintro ⟨hq, hqk⟩
        exact ⟨Or.inl hq, hqk⟩
      · rintro ⟨hq | rfl, hqk⟩
        · exact ⟨hq, hqk⟩
        · exact absurd hqk hk
  · intro n q
    have hold := h.byLength n q
    simp only [insertFreeRange, get_insert, Set.mem_union, Set.mem_singleton_iff]
    by_cases hn : len r = n
    · subst hn
      have hbucket : q ∈ s.freeByLength[len r]?.getD ∅ ↔ q ∈ P ∧ len q = len r := by
        rw [← hold]
        cases s.freeByLength[len r]? <;> simp
      simp only [if_true, Option.some.injEq, exists_eq_left', Finset.mem_insert, hbucket]
      constructor
      · rintro (rfl | ⟨hq, hqn⟩)
        · exact ⟨Or.inr rfl, rfl⟩
        · exact ⟨Or.inl hq, hqn⟩
      · rintro ⟨hq | rfl, hqn⟩
        · exact Or.inr ⟨hq, hqn⟩
        · exact Or.inl rfl
    · simp only [if_neg hn, hold]
      constructor
      · rintro ⟨hq, hqn⟩
        exact ⟨Or.inl hq, hqn⟩
      · rintro ⟨hq | rfl, hqn⟩
        · exact ⟨hq, hqn⟩
        · exact absurd hqn hn
  · intro n set hset
    simp only [insertFreeRange, get_insert] at hset
    split_ifs at hset
    · cases hset
      exact Finset.insert_ne_empty _ _
    · exact h.bucket_ne n set hset
  · rintro q (hq | rfl)
    · exact h.len_pos q hq
    · exact hpos
  · rintro q (hq | rfl)
    · exact h.stop_le q hq
    · exact hle
  · rintro i (hi | rfl) j (hj | rfl) hij
    · exact h.separated i hi j hj hij
    · exact hgap i hi
    · exact (hgap j hj).symm
    · exact absurd rfl hij

theorem insert_if (h : Holds s P) {c : Prop} [Decidable c]
    (hr : c → 0 < len r ∧ stop r ≤ usizeMax ∧ ∀ q ∈ P, stop q < start r ∨ stop r < start q) :
    Holds (if c then s.insertFreeRange r else s) {q | q ∈ P ∨ (c ∧ q = r)} := by
  by_cases hc : c
  · obtain ⟨hpos, hle, hgap⟩ := hr hc
    simp only [hc, if_true, true_and]
    exact h.insert hpos hle hgap
  · simpa [hc] using h

end Holds

end Anemone.Ranges.RangeAllocator
