import Anemone.Analysis.UnmapScript

/-!
# Moving areas

What a shifted area says, and that the shifted areas have room beside each other in the target.
Clearing the source after the target, though both scripts were composed against the first map,
works if no area meets both ranges, or if the source ends a page or more before the target.
-/

namespace Anemone.Uspace

open Ranges (VirtPageRange)
open Ranges.VirtPageRange
open Extents (WellKeyed Over Fits Apart)
open UserSpace (mem_findIntersectionStarts)

variable {m : OrderedMap VmArea} {range target : VirtPageRange} {k : ℕ} {a : VmArea}

section Moved

variable {a : VmArea} {source : VirtPageRange} (ha : a.range.start < a.range.stop)
  (hsource : source.start < source.stop) (hmeet : a.range.intersects source) (targetStart : ℕ)

include ha hsource hmeet

theorem moved_range : (a.moved source targetStart).range.start
        = targetStart + (max a.range.start source.start - source.start) ∧
      (a.moved source targetStart).range.stop
        = targetStart + (min a.range.stop source.stop - source.start) ∧
      (a.moved source targetStart).range.start < (a.moved source targetStart).range.stop := by
  obtain ⟨hstart, hstop, hne⟩ := cutRange_spec hmeet
  have hrange : (a.moved source targetStart).range =
      ⟨targetStart + ((cutRange a source).start - source.start),
        (cutRange a source).stop - (cutRange a source).start⟩ := rfl
  have hstop' : (a.moved source targetStart).range.stop =
      targetStart + ((cutRange a source).start - source.start) +
        ((cutRange a source).stop - (cutRange a source).start) := rfl
  rw [hstop', hrange]
  simp only
  omega

theorem over_moved_iff (i : ℕ) : Over (a.moved source targetStart) (targetStart + i) ↔
      Over a (source.start + i) ∧ source.contains (source.start + i) := by
  obtain ⟨hstart, hstop, -⟩ := moved_range ha hsource hmeet targetStart
  unfold contains
  change (a.moved source targetStart).range.start ≤ _ ∧ _ < (a.moved source targetStart).range.stop ↔
    (a.range.start ≤ _ ∧ _ < a.range.stop) ∧ _
  rw [hstart, hstop]
  omega

theorem moved_view {i : ℕ} (hover : Over (a.moved source targetStart) (targetStart + i)) :
    (a.moved source targetStart).view (targetStart + i) = a.view (source.start + i) := by
  obtain ⟨hstart, hstop, -⟩ := cutRange_spec hmeet
  have hrange := (moved_range ha hsource hmeet targetStart).1
  obtain ⟨hover', -⟩ := (over_moved_iff ha hsource hmeet targetStart i).mp hover
  have hoff : (a.moved source targetStart).poffset =
      a.poffset + ((cutRange a source).start - a.range.start) := rfl
  have hpidx : (a.moved source targetStart).vmoPidx (targetStart + i) =
      a.vmoPidx (source.start + i) := by
    unfold VmArea.vmoPidx
    rw [hoff]
    omega
  unfold VmArea.view
  rw [hpidx]
  rfl

end Moved

/-- The areas a move puts into the target, without the tail. -/
def UserSpace.movedAreas (s : UserSpace) (source : VirtPageRange) (targetStart : ℕ) :
    List VmArea :=
  (s.findIntersectionStarts source).map fun e => e.2.moved source targetStart

namespace UserSpace

variable {s : UserSpace} (hm : WellKeyed s.vmas) {source : VirtPageRange}
  (hsource : source.start < source.stop) (targetStart : ℕ) {v : PageView}

include hm hsource

theorem movedAreas_range : ∀ b ∈ s.movedAreas source targetStart,
    targetStart ≤ b.range.start ∧ b.range.start < b.range.stop ∧
      b.range.stop ≤ targetStart + source.npages := by
  intro b hb
  obtain ⟨⟨k, a⟩, he, rfl⟩ := List.mem_map.mp hb
  obtain ⟨ha, hmeet⟩ := (mem_findIntersectionStarts hm).mp he
  obtain ⟨hstart, hstop, hlt⟩ := moved_range (hm.nonempty k a ha) hsource hmeet targetStart
  refine ⟨?_, hlt, ?_⟩
  · change targetStart ≤ (a.moved source targetStart).range.start
    omega
  · rw [hstop]
    simp only [stop] at *
    omega

theorem movedAreas_pairwise : (s.movedAreas source targetStart).Pairwise
    fun b c => b.range.stop ≤ c.range.start := by
  unfold movedAreas
  rw [List.pairwise_map]
  apply List.Pairwise.imp_of_mem _ (findIntersectionStarts_apart hm source)
  rintro ⟨k, a⟩ ⟨j, b⟩ hx hy hle
  obtain ⟨ha, hmeetA⟩ := (mem_findIntersectionStarts hm).mp hx
  obtain ⟨hb, hmeetB⟩ := (mem_findIntersectionStarts hm).mp hy
  obtain ⟨-, hstop, -⟩ := moved_range (hm.nonempty k a ha) hsource hmeetA targetStart
  obtain ⟨hstart, -, -⟩ := moved_range (hm.nonempty j b hb) hsource hmeetB targetStart
  rw [hstop, hstart]
  simp only at hle
  omega

theorem exists_movedAreas {i : ℕ} (hi : source.contains (source.start + i))
    (hv : s.view (source.start + i) = some v) :
    ∃ b ∈ s.movedAreas source targetStart, Over b (targetStart + i) ∧
      b.view (targetStart + i) = v := by
  rw [view, viewOf_eq_look, hm.look_eq_some] at hv
  obtain ⟨k, a, ha, hover, rfl⟩ := hv
  have hmeet : a.range.intersects source := ⟨hover.1.trans_lt hi.2, hi.1.trans_lt hover.2⟩
  have hne : a.range.start < a.range.stop := hm.nonempty k a ha
  have hover' := (over_moved_iff hne hsource hmeet targetStart i).mpr ⟨hover, hi⟩
  exact ⟨a.moved source targetStart,
    List.mem_map.mpr ⟨(k, a), (mem_findIntersectionStarts hm).mpr ⟨ha, hmeet⟩, rfl⟩, hover',
    moved_view hne hsource hmeet targetStart hover'⟩

omit hm hsource in
theorem movedAreas_unreserved (hres : ¬ HasReserved (s.findIntersectionStarts source)) :
    ∀ b ∈ s.movedAreas source targetStart, b.reservation = none := by
  intro b hb
  obtain ⟨e, he, rfl⟩ := List.mem_map.mp hb
  by_contra hno
  exact hres ⟨e, he, hno⟩

theorem getLast_movedAreas (hv : s.view (source.stop - 1) = some v) :
    ∃ template, (s.movedAreas source targetStart).getLast? = some template ∧
      template.prot = v.prot ∧ template.onFork = v.onFork := by
  rw [view, viewOf_eq_look, hm.look_eq_some] at hv
  obtain ⟨k, a, ha, hover, rfl⟩ := hv
  have hlo : a.range.start ≤ source.stop - 1 := hover.1
  have hhi : source.stop - 1 < a.range.stop := hover.2
  have hmeet : a.range.intersects source := ⟨by omega, by omega⟩
  have hmem := (mem_findIntersectionStarts hm).mpr ⟨ha, hmeet⟩
  have hsorted := findIntersectionStarts_apart hm source
  have hfound : ∀ e ∈ s.findIntersectionStarts source, e.2.range.start < source.stop :=
    fun e he => ((mem_findIntersectionStarts hm).mp he).2.1
  unfold movedAreas
  rcases List.eq_nil_or_concat (s.findIntersectionStarts source) with hnil | ⟨front, last, hes⟩
  · rw [hnil] at hmem
    cases hmem
  · rw [hes, List.concat_eq_append] at hmem hsorted hfound
    rw [hes, List.concat_eq_append]
    have hlast : (k, a) = last := by
      rcases List.mem_append.mp hmem with hfront | hlast
      · have hle := (List.pairwise_append.mp hsorted).2.2 (k, a) hfront last
          (List.mem_singleton_self _)
        have := hfound last (by simp)
        simp only at hle
        omega
      · exact List.mem_singleton.mp hlast
    refine ⟨a.moved source targetStart, ?_, rfl, rfl⟩
    rw [← hlast]
    simp

end UserSpace

/-- Areas inside a target that is clear, beside each other, can all be inserted; the target
then says what they say and the rest of the page map is as it was. -/
theorem runOps_install (hm : WellKeyed m)
    (hclear : ∀ vpn, target.contains vpn → viewOf m vpn = none) {areas : List VmArea}
    (hres : ∀ b ∈ areas, b.reservation = none)
    (hin : ∀ b ∈ areas, target.start ≤ b.range.start ∧ b.range.start < b.range.stop ∧
      b.range.stop ≤ target.stop)
    (hapart : areas.Pairwise fun b c => b.range.stop ≤ c.range.start) :
    ∃ m', runOps m (areas.map .insert) = .ok m' ∧
      (∀ b ∈ areas, ∀ vpn, Over b vpn → viewOf m' vpn = some (b.view vpn)) ∧
      ∀ vpn, ¬ target.contains vpn → viewOf m' vpn = viewOf m vpn := by
  have hne : ∀ b ∈ areas, b.range.start < b.range.stop := fun b hb => (hin b hb).2.1
  have hover : ∀ b ∈ areas, ∀ vpn, Over b vpn → target.contains vpn := fun b hb vpn hv =>
    ⟨(hin b hb).1.trans hv.1, hv.2.trans_le (hin b hb).2.2⟩
  have hfit : ∀ b ∈ areas, Fits m b := fun b hb =>
    fits_of_clear hm (hne b hb) fun vpn hv => hclear vpn (hover b hb vpn hv)
  have hapart' : areas.Pairwise Apart := hapart.imp fun hle => .inl hle
  obtain ⟨hwk, hlook, -, hfound⟩ := hm.insertAll VmArea.view hne hfit hapart'
  refine ⟨_, runOps_inserts hm hres hne hfit hapart', ?_, ?_⟩
  · intro b hb vpn hv
    rw [viewOf_eq_look]
    exact hwk.look_eq_some.mpr ⟨_, b, hfound b hb, hv, rfl⟩
  · intro vpn hout
    rw [viewOf_eq_look, viewOf_eq_look]
    exact hlook vpn fun b hb hv => hout (hover b hb vpn hv)

/-- An area that is cut off above a range, with a page to spare, is cleared from the range
by the same operations. -/
theorem unmapOps_below {cut : ℕ} (hstart : a.range.start < range.stop) (hcut : range.stop < cut)
    (hstop : cut ≤ a.range.stop) :
    unmapOps range k (a.below cut) = unmapOps range k a := by
  have hbelow : (a.below cut).range.stop = cut := VmArea.below_stop (by omega)
  have hcutEq : cutRange (a.below cut) range = cutRange a range := by
    unfold cutRange
    rw [hbelow, VmArea.below_start]
    simp only [mk.injEq, true_and]
    omega
  have hnot : ¬ cut ≤ range.stop := by omega
  have hnot' : ¬ a.range.stop ≤ range.stop := by omega
  simp only [unmapOps, hcutEq, covers, VmArea.below_start, hbelow, hnot, hnot', and_false, if_false]

/-- **The source is cleared after the target**, by the script composed against the
map before, if the two ranges are apart and no area meets both, or the source ends below the
target. -/
theorem UserSpace.runOps_clearBoth {s : UserSpace} (hm : WellKeyed s.vmas) {old : VirtPageRange}
    (hold : old.start < old.stop) (hapart : ¬ target.intersects old)
    (hsafe : old.stop < target.start ∨
      ∀ (k : ℕ) (a : VmArea), s.vmas[k]? = some a → a.range.intersects target →
        ¬ a.range.intersects old)
    (hres : ¬ HasReserved (s.findIntersectionStarts old)) (hwk : WellKeyed m)
    (hview : viewOf m = PageMap.clear s.view target)
    (hkeep : ∀ (k : ℕ) (a : VmArea), s.vmas[k]? = some a → ¬ a.range.intersects target →
      m[k]? = some a)
    (hbelow : ∀ (k : ℕ) (a : VmArea), s.vmas[k]? = some a → a.range.intersects target →
      a.range.start < target.start → m[k]? = some (a.below target.start)) :
    ∃ m', runOps m ((s.findIntersectionStarts old).flatMap fun e => unmapOps old e.1 e.2) =
        .ok m' ∧ WellKeyed m' ∧
      viewOf m' = PageMap.clear (PageMap.clear s.view target) old := by
  let now (e : ℕ × VmArea) : ℕ × VmArea :=
    (e.1, if e.2.range.intersects target then e.2.below target.start else e.2)
  have hnow : ∀ e ∈ s.findIntersectionStarts old, m[e.1]? = some (now e).2 ∧
      (now e).2.range.intersects old ∧ (now e).2.reservation = e.2.reservation ∧
      unmapOps old e.1 (now e).2 = unmapOps old e.1 e.2 ∧
      ∀ vpn, old.contains vpn → Over e.2 vpn → Over (now e).2 vpn := by
    rintro ⟨k, a⟩ he
    obtain ⟨ha, hmeet⟩ := (mem_findIntersectionStarts hm).mp he
    by_cases htarget : a.range.intersects target
    · have hlt : old.stop < target.start := by
        rcases hsafe with h | h
        · exact h
        · exact absurd hmeet (h k a ha htarget)
      have hnowEq : (now (k, a)).2 = a.below target.start := if_pos htarget
      have hstop : (a.below target.start).range.stop = target.start :=
        VmArea.below_stop (by unfold intersects at hmeet; omega)
      unfold intersects at hmeet htarget
      rw [hnowEq]
      refine ⟨hbelow k a ha htarget (by omega), ?_, rfl, unmapOps_below hmeet.1 hlt (by omega), ?_⟩
      · unfold intersects
        rw [hstop, VmArea.below_start]
        omega
      · intro vpn hin hover
        refine ⟨hover.1, ?_⟩
        change vpn < (a.below target.start).range.stop
        rw [hstop]
        exact hin.2.trans hlt
    · have hnowEq : (now (k, a)).2 = a := if_neg htarget
      rw [hnowEq]
      exact ⟨hkeep k a ha htarget, hmeet, rfl, rfl, fun _ _ h => h⟩
  have hscript : ((s.findIntersectionStarts old).flatMap fun e => unmapOps old e.1 e.2) =
      ((s.findIntersectionStarts old).map now).flatMap fun e => unmapOps old e.1 e.2 := by
    rw [List.flatMap_map]
    apply List.flatMap_congr
    intro e he
    exact ((hnow e he).2.2.2.1).symm
  have hsorted : ((s.findIntersectionStarts old).map now).Pairwise fun x y => x.1 < y.1 := by
    rw [List.pairwise_map]
    exact s.findIntersectionStarts_pairwise old
  obtain ⟨m', hrun, hwk', hlook, -, -⟩ := runOps_unmapScript hwk hold hsorted (by
      intro e he
      obtain ⟨x, hx, rfl⟩ := List.mem_map.mp he
      exact ⟨(hnow x hx).1, (hnow x hx).2.1⟩)
    (by
      rintro ⟨e, he, hno⟩
      obtain ⟨x, hx, rfl⟩ := List.mem_map.mp he
      exact hres ⟨x, hx, (hnow x hx).2.2.1 ▸ hno⟩)
  refine ⟨m', hscript ▸ hrun, hwk', ?_⟩
  funext vpn
  rw [viewOf_eq_look, hlook, ← viewOf_eq_look, hview]
  by_cases hin : old.contains vpn
  · simp only [PageMap.clear, hin, if_true]
    have hout : ¬ target.contains vpn := by
      intro ht
      apply hapart
      unfold contains at hin ht
      unfold intersects
      omega
    rw [if_neg hout]
    cases hv : s.view vpn with
    | none => split_ifs <;> rfl
    | some v =>
      rw [view, viewOf_eq_look] at hv
      obtain ⟨e, he, hover⟩ := exists_found hm hin hv
      rw [if_pos ⟨now e, List.mem_map_of_mem he, (hnow e he).2.2.2.2 vpn hin hover⟩]
  · simp only [PageMap.clear, hin, if_false, ite_self]

theorem target_of_mem_unmapScript {es : List (ℕ × VmArea)} {op : VmOperation}
    (hop : op ∈ es.flatMap fun e => unmapOps range e.1 e.2) (hk : op.target = some k) :
    ∃ a, (k, a) ∈ es := by
  obtain ⟨⟨j, a⟩, he, hop⟩ := List.mem_flatMap.mp hop
  refine ⟨a, ?_⟩
  simp only [unmapOps, List.mem_cons, List.not_mem_nil, or_false] at hop
  rcases hop with rfl | rfl
  · split_ifs at hk <;> cases hk <;> exact he
  · cases hk

/-- An area that was cut where the range ends cannot be cleared by the operations composed
for the whole area: nothing would be left above the range. -/
theorem runOp_unmapOps_panics {m' : OrderedMap VmArea} (hmeet : a.range.intersects range)
    (hpast : range.stop < a.range.stop) (hget : m[k]? = some (a.below range.stop)) :
    runOps m (unmapOps range k a) ≠ .ok m' := by
  intro hrun
  obtain ⟨hstart, hstop, -⟩ := cutRange_spec hmeet
  have hlt : a.range.start < range.stop := hmeet.1
  have hbelow : (a.below range.stop).range.stop = range.stop := VmArea.below_stop (by omega)
  have hlen : (a.below range.stop).range.npages = range.stop - a.range.start := by
    have hstop' : (a.below range.stop).range.stop =
        a.range.start + (a.below range.stop).range.npages := rfl
    omega
  obtain ⟨m₁, hop, -⟩ := runOps_cons.mp hrun
  have hcovers : ¬ range.covers a.range := fun h => absurd h.2 (by omega)
  have hend : ¬ a.range.stop ≤ range.stop := by omega
  rw [if_neg hcovers, if_neg hend] at hop
  split_ifs at hop with hfirst
  · simp only [runOp, Checked.bind_eq_ok, Checked.expect_eq_ok, Checked.unwrap_eq_ok] at hop
    obtain ⟨w, hw, -, -, b, htrim, -⟩ := hop
    rw [hget] at hw
    cases hw
    have := (VmArea.trimStart_eq_ok htrim).1
    omega
  · simp only [runOp, Checked.bind_eq_ok, Checked.expect_eq_ok] at hop
    obtain ⟨w, hw, -, -, p, hpunch, -⟩ := hop
    rw [hget] at hw
    cases hw
    have := (punch_eq_ok.mp hpunch).1
    omega

end Anemone.Uspace
