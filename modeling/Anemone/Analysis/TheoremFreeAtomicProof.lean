import Anemone.Analysis.TheoremRangeAllocatorProof

/-!
# A refused free

`free` takes the left neighbour out of the indexes before it looks at the right one.  If the right
one then overlaps, the call is refused and the left one is gone.
-/

namespace Anemone.Ranges.RangeAllocator

open Checked (ok_bind bind_eq_ok pure_eq add_of_lt)
open Rangable (start len)

variable {R : Type} [Rangable R] {s t : RangeAllocator R} {P : Set R} {range : R}

theorem Holds.overlaps_iff (h : Holds s P) :
    s.Overlaps range ↔ 0 < len range ∧ ∃ q ∈ P, start q < stop range ∧ start range < stop q := by
  have hrange : stop range = start range + len range := rfl
  unfold Overlaps Covers
  rw [h.freeSet_eq]
  constructor
  · rintro ⟨x, ⟨hlo, hhi⟩, q, hq, hqlo, hqhi⟩
    exact ⟨by omega, q, hq, by omega, by omega⟩
  · rintro ⟨hlen, q, hq, hlo, hhi⟩
    have hpos := h.len_pos q hq
    have hstop : stop q = start q + len q := rfl
    exact ⟨max (start range) (start q), ⟨by omega, by omega⟩, q, hq, by omega, by omega⟩

variable [DecidableEq R]

/-- the right side of a range is refused if a free range starts in it. -/
theorem absorbNext_refused (h : Holds s P) {a b n : ℕ} {q : R} (hq : q ∈ P) (hqa : a ≤ start q)
    (hqb : start q < b) :
    t.absorbNext ((s.freeByStart.rangeFrom a).head?.map Prod.snd) b n =
      .ok (.error .freeingExistingRange, t) := by
  cases hhead : (s.freeByStart.rangeFrom a).head? with
  | none => exact absurd (OrderedMap.head_rangeFrom_eq_none hhead _ q (h.get_start hq)) (by omega)
  | some entry =>
    obtain ⟨k, r⟩ := entry
    obtain ⟨⟨hk, -⟩, hmin⟩ := OrderedMap.head_rangeFrom hhead
    obtain ⟨-, rfl⟩ := (h.byStart k r).mp hk
    exact if_pos ((hmin _ q (h.get_start hq) hqa).trans_lt hqb)

/-- **a free of integers that are free already** is refused, and undone unless a
free range ends at its start. -/
theorem free_refused (h : Holds s P) (hend : stop range ≤ usizeMax) (hover : s.Overlaps range) :
    ∃ t Q, s.free range = .ok (.error .freeingExistingRange, t) ∧ Holds t Q ∧
      (t = s ↔ ¬ ∃ q ∈ P, stop q = start range) := by
  obtain ⟨hlen, q, hq, hqlo, hqhi⟩ := h.overlaps_iff.mp hover
  have hlen' : len range = stop range - start range := by
    unfold stop
    omega
  have hstop : Checked.add (start range) (stop range - start range) = .ok (stop range) := by
    rw [← hlen']
    exact add_of_lt (lt_wordSize hend)
  have hrest : ∀ {f n : ℕ} {t : RangeAllocator R}, start range ≤ start q →
      s.absorbPrev ((s.freeByStart.rangeBelow (start range)).getLast?.map Prod.snd) (start range)
        (stop range - start range) = .ok (.ok (f, n), t) →
      s.free range = .ok (.error .freeingExistingRange, t) := by
    intro f n t hge hprev
    rw [free, if_neg (by omega), hlen', hstop]
    simp only [ok_bind, hprev, absorbNext_refused h hq hge hqlo]
    rfl
  rcases absorbPrev_cases h (show start range ≤ stop range by unfold stop; omega) hend with
    ⟨r, hr, hra, har, hprev⟩ | ⟨r, hr, hra, t, hholds, hprev⟩ | ⟨hleft, hprev⟩
  · refine ⟨s, P, ?_, h, iff_of_true rfl ?_⟩
    · rw [free, if_neg (by omega), hlen', hstop]
      simp only [ok_bind, hprev]
      rfl
    · -- a range that ended at the start would share its last integer with `r`
      rintro ⟨p, hp, hpa⟩
      have hpos := h.len_pos p hp
      have hstop : stop p = start p + len p := rfl
      have heq := h.separated.eq_of_mem (x := start range - 1) hp hr (by omega) (by omega)
      subst heq
      omega
  · have hge : start range ≤ start q := by
      have hpos := h.len_pos r hr
      have hstop : stop r = start r + len r := rfl
      by_contra hlt
      have heq := h.separated.eq_of_mem (x := start range - 1) hq hr (by omega) (by omega)
      subst heq
      omega
    refine ⟨t, _, hrest hge hprev, hholds, iff_of_false (fun heq => ?_) (not_not.mpr ⟨r, hr, hra⟩)⟩
    subst heq
    exact ((hholds.byStart (start r) r).mp (h.get_start hr)).1.2 rfl
  · have hge : start range ≤ start q := by
      by_contra hlt
      have := hleft q hq (Nat.not_le.mp hlt)
      omega
    refine ⟨s, P, hrest hge hprev, h, iff_of_true rfl ?_⟩
    rintro ⟨p, hp, hpa⟩
    have hpos := h.len_pos p hp
    have := hleft p hp (by unfold stop at hpa; omega)
    omega

variable [LawfulRangable R]

theorem Holds.call (h : Holds s P) (hst : Call s t) : ∃ Q, Holds t Q := by
  cases hst with
  | free range hend heq =>
    by_cases hover : s.Overlaps range
    · obtain ⟨t', Q, heq', hQ, -⟩ := free_refused h hend hover
      cases heq.symm.trans heq'
      exact ⟨Q, hQ⟩
    · exact h.step (.free s range hend (fun x hx hfree => hover ⟨x, hx, hfree⟩) heq)
  | allocateAligned order length align halign heq =>
    exact h.step (.allocateAligned s order length align halign heq)

/-- **A refused free is not always undone.**  In every state that any calls lead to, `free`
returns, and refuses exactly the ranges that overlap a free range; a refused call leaves both
indexes as they were exactly if no free range ends at the start of the refused one.

SOURCE: range-allocator/src/lib.rs:142-184 -/
theorem free_atomic_iff (hrun : Run.Reaches Call (new : RangeAllocator R) s) (range : R)
    (hend : start range + len range ≤ usizeMax) :
    ∃ r t, s.free range = .ok (r, t) ∧ (r = .error .freeingExistingRange ↔ s.Overlaps range) ∧
      ((r = .error .freeingExistingRange → t = s) ↔
        ¬ (s.Overlaps range ∧ ∃ (k : ℕ) (q : R), s.freeByStart[k]? = some q ∧
          stop q = start range)) := by
  obtain ⟨P, h⟩ := hrun.invariant (P := fun s : RangeAllocator R => ∃ P, Holds s P)
    (fun _ _ ⟨_, hP⟩ hst => hP.call hst) ⟨∅, holds_new⟩
  by_cases hover : s.Overlaps range
  · obtain ⟨t, -, heq, -, hsame⟩ := free_refused h hend hover
    have htouch : (∃ q ∈ P, stop q = start range) ↔
        ∃ (k : ℕ) (q : R), s.freeByStart[k]? = some q ∧ stop q = start range :=
      ⟨fun ⟨q, hq, hstop⟩ => ⟨_, q, h.get_start hq, hstop⟩,
        fun ⟨k, q, hk, hstop⟩ => ⟨q, ((h.byStart k q).mp hk).1, hstop⟩⟩
    refine ⟨_, t, heq, iff_of_true rfl hover, ?_⟩
    simpa [hover, ← htouch] using hsame
  · obtain ⟨t, -, heq, -⟩ := free_spec h hend fun x hx hfree => hover ⟨x, hx, hfree⟩
    exact ⟨_, t, heq, by simp [hover], by simp [hover]⟩

/-- The allocator with `[0, 5)` and `[7, 10)` free. -/
theorem reaches_two_ranges : ∃ s : RangeAllocator VirtPageRange, Run.Reaches Call new s ∧
    s.freeByStart[0]? = some ⟨0, 5⟩ ∧ s.freeByStart[7]? = some ⟨7, 3⟩ := by
  have hrun : (do
      let (_, s) ← (new : RangeAllocator VirtPageRange).free ⟨0, 5⟩
      let (_, t) ← s.free ⟨7, 3⟩
      pure (t.freeByStart[0]?, t.freeByStart[7]?) : Checked _) =
        .ok (some ⟨0, 5⟩, some ⟨7, 3⟩) := by decide +kernel
  simp only [bind_eq_ok] at hrun
  obtain ⟨⟨r, s⟩, hfirst, ⟨r', t⟩, hsecond, hret⟩ := hrun
  simp only [pure_eq, Except.ok.injEq, Prod.mk.injEq] at hret
  exact ⟨t, (Relation.ReflTransGen.single (.free new _ (by decide) hfirst)).tail
    (.free s _ (by decide) hsecond), hret⟩

theorem Overlaps.of_get {s : RangeAllocator VirtPageRange} (h : s.freeByStart[7]? = some ⟨7, 3⟩) :
    s.Overlaps ⟨5, 3⟩ := ⟨7, by unfold Covers; decide, 7, _, h, by unfold Covers; decide⟩

/-- Freeing `[5, 8)` is refused and drops `[0, 5)`. -/
theorem free_not_atomic : ∃ s t : RangeAllocator VirtPageRange, Run.Reaches Call new s ∧
    s.free ⟨5, 3⟩ = .ok (.error .freeingExistingRange, t) ∧ t ≠ s := by
  obtain ⟨s, hrun, hleft, hright⟩ := reaches_two_ranges
  obtain ⟨P, h⟩ := hrun.invariant (P := fun s : RangeAllocator VirtPageRange => ∃ P, Holds s P)
    (fun _ _ ⟨_, hP⟩ hst => hP.call hst) ⟨∅, holds_new⟩
  obtain ⟨t, -, heq, -, hsame⟩ := free_refused h (by decide) (.of_get hright)
  exact ⟨s, t, hrun, heq, fun hts => hsame.mp hts ⟨_, ((h.byStart 0 _).mp hleft).1, rfl⟩⟩

theorem free_atomic_iff_two_ranges : ∃ s t : RangeAllocator VirtPageRange, Run.Reaches Call new s ∧
    s.free ⟨5, 3⟩ = .ok (.error .freeingExistingRange, t) ∧ s.Overlaps ⟨5, 3⟩ := by
  obtain ⟨s, hrun, -, hright⟩ := reaches_two_ranges
  obtain ⟨r, t, heq, hiff, -⟩ := free_atomic_iff hrun ⟨5, 3⟩ (by decide)
  exact ⟨s, t, hrun, hiff.mpr (.of_get hright) ▸ heq, .of_get hright⟩

end Anemone.Ranges.RangeAllocator
