import Anemone.Analysis.RangeLookups

/-!
# Running a script that clears a range

Remove, trim or punch: each operation replaces an area by its parts outside the range.
-/

namespace Anemone.Uspace

open Ranges (VirtPageRange)
open Ranges.VirtPageRange
open Extents (WellKeyed Over Fits Apart look insertAll)

/-- The parts of an area outside a range it meets. -/
def VmArea.outside (a : VmArea) (range : VirtPageRange) : List VmArea :=
  (if a.range.start < range.start then [a.below range.start] else []) ++
  (if range.stop < a.range.stop then [a.above range.stop] else [])

section Outside

variable {a : VmArea} {range : VirtPageRange}

theorem isPiece_outside (hmeet : a.range.intersects range) {b : VmArea}
    (hb : b ∈ a.outside range) : IsPiece a b := by
  rcases List.mem_append.mp hb with hb | hb
  · split_ifs at hb with hlt
    · cases List.mem_singleton.mp hb
      exact VmArea.isPiece_below hlt hmeet.2.le
    · cases hb
  · split_ifs at hb with hlt
    · cases List.mem_singleton.mp hb
      exact VmArea.isPiece_above hmeet.1.le hlt
    · cases hb

theorem outside_pairwise (hrange : range.start < range.stop) :
    (a.outside range).Pairwise Apart := by
  have hapart : a.range.start < range.start → Apart (a.below range.start) (a.above range.stop) :=
    fun hlt => VmArea.apart_below_above hlt.le hrange.le
  unfold VmArea.outside
  split_ifs with h₁ h₂
  · simpa using hapart h₁
  all_goals simp

theorem exists_outside_iff {vpn : ℕ} (hover : Over a vpn) :
    (∃ b ∈ a.outside range, Over b vpn) ↔ ¬ range.contains vpn := by
  have hlo : a.range.start ≤ vpn := hover.1
  have hhi : vpn < a.range.stop := hover.2
  constructor
  · rintro ⟨b, hb, hb'⟩ hin
    unfold contains at hin
    rcases List.mem_append.mp hb with hb | hb
    · split_ifs at hb with hlt
      · cases List.mem_singleton.mp hb
        have hstop : vpn < (a.below range.start).range.stop := hb'.2
        rw [VmArea.below_stop hlt.le] at hstop
        omega
      · cases hb
    · split_ifs at hb with hlt
      · cases List.mem_singleton.mp hb
        have hstart : range.stop ≤ vpn := hb'.1
        omega
      · cases hb
  · intro hout
    unfold contains at hout
    by_cases hbelow : vpn < range.start
    · refine ⟨a.below range.start, List.mem_append_left _ (by rw [if_pos (by omega)]; simp), hlo, ?_⟩
      change vpn < (a.below range.start).range.stop
      rw [VmArea.below_stop (by omega)]
      exact hbelow
    · refine ⟨a.above range.stop, List.mem_append_right _ (by rw [if_pos (by omega)]; simp), ?_, ?_⟩
      · change range.stop ≤ vpn
        omega
      · change vpn < (a.above range.stop).range.stop
        rw [VmArea.above_stop (by omega)]
        exact hhi

end Outside

section OneArea

variable {m : OrderedMap VmArea} (hm : WellKeyed m) {k : ℕ} {a : VmArea} (ha : m[k]? = some a)
  {range : VirtPageRange} (hrange : range.start < range.stop)
  (hmeet : a.range.intersects range)

include hm ha hrange hmeet

/-- **Whichever operation the composer picks, it leaves the parts outside.** -/
theorem runOps_unmapOps (hres : a.reservation = none) :
    runOps m (unmapOps range k a) = .ok (insertAll (m.erase k) (a.outside range)) := by
  have hkey : a.range.start = k := hm.key k a ha
  obtain ⟨hcutStart, hcutStop, hcut⟩ := cutRange_spec hmeet
  have hmeet' := hmeet
  unfold intersects at hmeet
  have hnpages : a.range.npages = a.range.stop - a.range.start := by
    simp only [stop]
    omega
  have hfree : ∀ b ∈ a.outside range, (m.erase k)[b.range.start]? = none := by
    intro b hb
    have hpiece := isPiece_outside hmeet' hb
    exact (hm.erase k).get_of_fits hpiece.nonempty (hm.fits_erase ha hpiece.start_le hpiece.stop_le)
  rw [unmapOps, runOps_cons]
  refine ⟨insertAll (m.erase k) (a.outside range), ?_, rfl⟩
  by_cases hlo : a.range.start < range.start
  · by_cases hhi : range.stop < a.range.stop
    · -- the range lies inside the area
      have hcutEq : cutRange a range = range := by
        simp only [cutRange, stop] at *
        obtain ⟨s, n⟩ := range
        simp only [mk.injEq] at *
        omega
      have hout : a.outside range = [a.below range.start, a.above range.stop] := by
        simp [VmArea.outside, hlo, hhi]
      rw [if_neg (by unfold covers; omega), if_neg (by omega), if_neg (by omega), hcutEq]
      simp only [runOp, Checked.bind_eq_ok, Checked.expect_eq_ok, Checked.assert_eq_ok]
      refine ⟨a, ha, (), hres, _, punch_eq_ok.mpr ⟨⟨hlo, hrange.le, hhi⟩, rfl⟩, _,
        insertNew_eq_ok.mpr ⟨hfree _ (by simp [hout]), rfl⟩, ?_⟩
      rw [insertNew_eq_ok, hout]
      refine ⟨?_, rfl⟩
      rw [OrderedMap.get_insert, if_neg]
      · exact hfree _ (by simp [hout])
      · simp only [VmArea.below_start, VmArea.above_start]
        omega
    · -- the range reaches the end of the area
      have hout : a.outside range = [a.below range.start] := by
        simp [VmArea.outside, hlo, hhi]
      rw [if_neg (by unfold covers; omega), if_neg (by omega), if_pos (by omega)]
      simp only [runOp, Checked.bind_eq_ok, Checked.expect_eq_ok, Checked.assert_eq_ok,
        Checked.unwrap_eq_ok]
      refine ⟨a, ha, (), hres, a.below range.start, ?_, ?_⟩
      · rw [VmArea.trimEnd_eq (by omega), hcutStart]
        congr 2
        omega
      · rw [hout, ← OrderedMap.insert_erase, ← hkey]
        rfl
  · by_cases hhi : range.stop < a.range.stop
    · -- the range reaches the start of the area
      have hout : a.outside range = [a.above range.stop] := by
        simp [VmArea.outside, hlo, hhi]
      rw [if_neg (by unfold covers; omega), if_pos (by omega)]
      simp only [runOp, Checked.bind_eq_ok, Checked.expect_eq_ok, Checked.assert_eq_ok,
        Checked.unwrap_eq_ok]
      refine ⟨a, ha, (), hres, a.above range.stop, ?_, ?_⟩
      · rw [VmArea.trimStart_eq (by omega), hcutStop]
        congr 2
        omega
      · rw [hout, insertNew_eq_ok]
        exact ⟨hfree _ (by simp [hout]), rfl⟩
    · -- the range covers the area
      have hout : a.outside range = [] := by
        simp [VmArea.outside, hlo, hhi]
      rw [if_pos (by unfold covers; omega), hout]
      simp only [runOp, Checked.bind_eq_ok, Checked.expect_eq_ok, Checked.assert_eq_ok]
      exact ⟨a, ha, (), hres, rfl⟩

theorem outside_spec : WellKeyed (insertAll (m.erase k) (a.outside range)) ∧
      (∀ vpn, look VmArea.view (insertAll (m.erase k) (a.outside range)) vpn =
        if range.contains vpn ∧ Over a vpn then none else look VmArea.view m vpn) ∧
      (∀ (j : ℕ) (b : VmArea), j ≠ k → m[j]? = some b →
        (insertAll (m.erase k) (a.outside range))[j]? = some b) ∧
      (a.range.start < range.start →
        (insertAll (m.erase k) (a.outside range))[k]? = some (a.below range.start)) := by
  obtain ⟨hne, hfit⟩ := fits_pieces hm ha fun b hb => isPiece_outside hmeet hb
  obtain ⟨hwk, hlook, hkeep, hfound⟩ := (hm.erase k).insertAll VmArea.view hne hfit
    (outside_pairwise hrange)
  refine ⟨hwk, ?_, ?_, ?_⟩
  · intro vpn
    by_cases hover : Over a vpn
    · by_cases hin : range.contains vpn
      · -- nothing is over a page of the area inside the range
        rw [if_pos ⟨hin, hover⟩, hlook vpn, hm.look_erase VmArea.view ha, if_pos hover]
        intro b hb hb'
        exact exists_outside_iff hover |>.mp ⟨b, hb, hb'⟩ hin
      · obtain ⟨b, hb, hb'⟩ := (exists_outside_iff hover).mpr hin
        rw [if_neg fun h => hin h.1, hm.look_eq_some.mpr ⟨k, a, ha, hover, rfl⟩,
          ← (isPiece_outside hmeet hb).view_eq hb']
        exact hwk.look_eq_some.mpr ⟨_, b, hfound b hb, hb', rfl⟩
    · rw [if_neg fun h => hover h.2, hlook vpn, hm.look_erase VmArea.view ha, if_neg hover]
      intro b hb hb'
      exact hover ((isPiece_outside hmeet hb).over hb')
  · intro j b hj hb
    apply hkeep
    rw [OrderedMap.get_erase, if_neg hj.symm]
    exact hb
  · intro hlt
    have hkey : a.range.start = k := hm.key k a ha
    have hmem : a.below range.start ∈ a.outside range := by
      simp [VmArea.outside, hlt]
    have := hfound _ hmem
    change (insertAll (m.erase k) (a.outside range))[a.range.start]? = _ at this
    rw [hkey] at this
    exact this

end OneArea

variable {m : OrderedMap VmArea}

/-- **A whole script clears its areas from the range**, and leaves the lower part
of an area that starts below it at its key. -/
theorem runOps_unmapScript (hm : WellKeyed m) {range : VirtPageRange}
    (hrange : range.start < range.stop) {es : List (ℕ × VmArea)}
    (hsorted : es.Pairwise fun x y => x.1 < y.1)
    (hes : ∀ e ∈ es, m[e.1]? = some e.2 ∧ e.2.range.intersects range) (hres : ¬ HasReserved es) :
    ∃ m', runOps m (es.flatMap fun e => unmapOps range e.1 e.2) = .ok m' ∧ WellKeyed m' ∧
      (∀ vpn, look VmArea.view m' vpn =
        if ∃ e ∈ es, Over e.2 vpn then if range.contains vpn then none else look VmArea.view m vpn
        else look VmArea.view m vpn) ∧
      (∀ (k : ℕ) (a : VmArea), (∀ e ∈ es, e.1 ≠ k) → m[k]? = some a → m'[k]? = some a) ∧
      ∀ e ∈ es, e.2.range.start < range.start → m'[e.1]? = some (e.2.below range.start) := by
  let after (e : ℕ × VmArea) : Option VmArea :=
    if e.2.range.start < range.start then some (e.2.below range.start) else none
  obtain ⟨m', hrun, hwk, hlook, hkeep, hafter⟩ := runOps_areaScript
    (fun e => unmapOps range e.1 e.2) (fun vpn v => if range.contains vpn then none else v) after
    (fun e => e.2.range.intersects range ∧ e.2.reservation = none)
    (by
      rintro m hm ⟨k, a⟩ ⟨hmeet, hfree⟩ ha
      obtain ⟨hwk, hlook, hkeep, hbelow⟩ := outside_spec hm ha hrange hmeet
      refine ⟨_, runOps_unmapOps hm ha hrange hmeet hfree, hwk, ?_, hkeep, ?_⟩
      · intro vpn
        rw [hlook]
        by_cases hover : Over a vpn
        all_goals simp [hover]
      · intro b hb
        simp only [after, Option.ite_none_right_eq_some, Option.some.injEq] at hb
        obtain ⟨hlt, rfl⟩ := hb
        exact hbelow hlt)
    hm hsorted fun e he =>
      ⟨⟨(hes e he).2, by_contra fun hno => hres ⟨e, he, hno⟩⟩, (hes e he).1⟩
  refine ⟨m', hrun, hwk, hlook, hkeep, ?_⟩
  intro e he hlt
  exact hafter e he _ (if_pos hlt)

theorem fits_of_clear (hm : WellKeyed m) {a : VmArea} (ha : a.range.start < a.range.stop)
    (hclear : ∀ vpn, a.range.contains vpn → viewOf m vpn = none) : Fits m a := by
  intro k w hw
  have hwne : w.range.start < w.range.stop := hm.nonempty k w hw
  change w.range.stop ≤ a.range.start ∨ a.range.stop ≤ w.range.start
  by_contra hmeet
  have hnone := hclear (max w.range.start a.range.start) (by
    unfold contains
    omega)
  rw [viewOf_eq_look, hm.look_eq_none] at hnone
  apply hnone k w hw
  change w.range.start ≤ _ ∧ _ < w.range.stop
  omega

namespace UserSpace

variable {L : Layout} {s : UserSpace}

/-- **Unmapping is refused or clears the range of the page map.** -/
theorem composeUnmapRange_cases (hm : WellKeyed s.vmas) (range : VirtPageRange) :
    ((validateRange L range ≠ .ok () ∨ PageMap.Touches s.view range) ∧
        ∃ e, s.composeUnmapRange L range = .error e) ∨
      ((validateRange L range = .ok () ∧ ¬ PageMap.Touches s.view range) ∧
        s.composeUnmapRange L range =
          .ok ((s.findIntersectionStarts range).flatMap fun e => unmapOps range e.1 e.2) ∧
        ∃ m', runOps s.vmas ((s.findIntersectionStarts range).flatMap fun e =>
            unmapOps range e.1 e.2) = .ok m' ∧ WellKeyed m' ∧
          viewOf m' = PageMap.clear s.view range ∧
          (∀ (k : ℕ) (a : VmArea), s.vmas[k]? = some a → ¬ a.range.intersects range →
            m'[k]? = some a) ∧
          ∀ (k : ℕ) (a : VmArea), s.vmas[k]? = some a → a.range.intersects range →
            a.range.start < range.start → m'[k]? = some (a.below range.start)) := by
  cases hvalid : validateRange L range with
  | error e =>
    left
    refine ⟨.inl (by simp), e, ?_⟩
    unfold composeUnmapRange
    rw [hvalid]
  | ok u =>
    have hrange := start_lt_stop_of_valid hvalid
    have hcompose : s.composeUnmapRange L range =
        composeUnmapOps range (s.findIntersectionStarts range) := by
      unfold composeUnmapRange
      rw [hvalid]
    by_cases hres : HasReserved (s.findIntersectionStarts range)
    · left
      exact ⟨.inr ((touches_iff hm hrange).mpr hres), _,
        hcompose.trans (composeUnmapOps_error hres)⟩
    · right
      refine ⟨⟨rfl, fun ht => hres ((touches_iff hm hrange).mp ht)⟩,
        hcompose.trans (composeUnmapOps_ok hres), ?_⟩
      obtain ⟨m', hrun, hwk, hlook, hkeep, hbelow⟩ := runOps_unmapScript hm hrange
        (s.findIntersectionStarts_pairwise range)
        (fun e he => (mem_findIntersectionStarts hm).mp he) hres
      refine ⟨m', hrun, hwk, ?_, ?_, ?_⟩
      · funext vpn
        rw [viewOf_eq_look, hlook]
        unfold PageMap.clear view
        rw [viewOf_eq_look]
        by_cases hin : range.contains vpn
        · cases hold : look VmArea.view s.vmas vpn with
          | none => split_ifs <;> rfl
          | some v => rw [if_pos (exists_found hm hin hold)]
        · simp only [hin, if_false, ite_self]
      · intro k a ha hmeet
        apply hkeep k a _ ha
        rintro ⟨j, b⟩ he rfl
        obtain ⟨hb, hmeet'⟩ := (mem_findIntersectionStarts hm).mp he
        rw [ha] at hb
        cases hb
        exact hmeet hmeet'
      · intro k a ha hmeet hlt
        exact hbelow (k, a) ((mem_findIntersectionStarts hm).mpr ⟨ha, hmeet⟩) hlt

end UserSpace

end Anemone.Uspace
