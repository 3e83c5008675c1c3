import Anemone.Analysis.TheoremRegistryProof
import Anemone.Interface.RangePieces

/-!
# Searching a range, and handing its pages over

The search finds every gap because the areas are in order, and stops because page 0 is guarded.
A discard translates the page after each part, which need not be a page of the area.
-/

namespace Anemone.Uspace

open Checked (assert bind_eq_ok ok_bind pure_eq assert_eq_ok)
open Ranges.VirtPageRange
open Ranges (VirtPageRange)
open Extents (WellKeyed Over)

variable {L : Layout} {s : UserSpace} {range : VirtPageRange} {a : VmArea} {debug : Bool}

theorem VmArea.vmoPidxIn_eq_ok {vpn pidx : ℕ} :
    a.vmoPidxIn debug vpn = .ok pidx ↔
      (debug = true → a.range.contains vpn) ∧ pidx = a.vmoPidx vpn := by
  simp only [VmArea.vmoPidxIn, bind_eq_ok, assert_eq_ok, pure_eq,
    Except.ok.injEq, exists_const, eq_comm (a := a.vmoPidx vpn)]

namespace UserSpace

/-- **A search without an available hint finds the highest gap.** -/
theorem findGap_finds (h : Registry L s.vmas) {npages : ℕ} (hn : 1 ≤ npages) {hint : Option ℕ}
    (hhint : ∀ u, hint = some u → ¬ s.Available L ⟨u, npages⟩) :
    s.Finds L npages hint (findGap npages s.vmas.toList.reverse L.uspaceTopVpn) := by
  cases hgap : findGap npages s.vmas.toList.reverse L.uspaceTopVpn with
  | none =>
    intro u hu
    obtain ⟨v, hv, -⟩ := findGap_highest h hu
    rw [hgap] at hv
    cases hv
  | some v =>
    refine .inr ⟨hhint, findGap_available h (by omega) hgap, fun u hu => ?_⟩
    obtain ⟨v', hv, hle⟩ := findGap_highest h hu
    rw [hgap] at hv
    cases hv
    exact hle

/-- **What a search for pages finds.**  Whatever the areas are, a search for at least one page
returns: the hint if the pages there are available, else the highest start of as many pages
that can be mapped, and nothing only if there are none below the top.

SOURCE: mm/uspace/mmap.rs:719-767 -/
theorem findAvailRange_finds (h : Registry L s.vmas) {npages : ℕ} (hn : 1 ≤ npages)
    (hint : Option ℕ) :
    ∃ result, s.findAvailRange L npages hint = .ok result ∧ s.Finds L npages hint result := by
  unfold findAvailRange
  rw [Checked.assert_of _ (by omega), ok_bind]
  cases hint with
  | none => exact ⟨_, rfl, findGap_finds h hn nofun⟩
  | some u =>
    by_cases havail : s.isRangeAvail L ⟨u, npages⟩ = true
    · simp only [havail, if_true]
      exact ⟨_, rfl, .inl ⟨rfl, isRangeAvail_iff.mp havail⟩⟩
    · simp only [havail]
      refine ⟨_, rfl, findGap_finds h hn fun u' hu' hu => ?_⟩
      cases hu'
      exact havail (isRangeAvail_iff.mpr hu)

/-- Eight pages mapped in the middle of the default layout. -/
def eightPages : Checked UserSpace := do
  let s₀ ← UserSpace.new .sv39 0 1
  let (_, s₁) ← s₀.mapAnonymous .sv39 2 ⟨some (3000000, true), false, 8, .rw, false, .empty⟩
  pure s₁

theorem eightPages_registered (h : eightPages = .ok s) : Registered .sv39 s := by
  simp only [eightPages, bind_eq_ok] at h
  obtain ⟨s₀, hnew, ⟨_, s₁⟩, hmap, hs⟩ := h
  cases hs
  exact (registered_of_new hnew).step (.mapAnonymous _ _ hmap)

/-- A hint inside the eight pages is passed over for the gap under the stack. -/
theorem findAvailRange_finds_eightPages : ∃ s : UserSpace, Registry .sv39 s.vmas ∧
    s.findAvailRange .sv39 4 (some 3000002) = .ok (some 67106811) ∧
    ∃ result, s.findAvailRange .sv39 4 (some 3000002) = .ok result ∧
      s.Finds .sv39 4 (some 3000002) result := by
  have hrun : (do
      let s ← eightPages
      assert (s.findAvailRange .sv39 4 (some 3000002) = .ok (some 67106811)) "" : Checked Unit) =
        .ok () := by
    decide +kernel
  simp only [bind_eq_ok, assert_eq_ok] at hrun
  obtain ⟨s, hs, hfound⟩ := hrun
  have h := (eightPages_registered hs).registry
  exact ⟨s, h, hfound, findAvailRange_finds h (by decide) _⟩

/-- The pages of the object behind the part of an area in the range. -/
def objectRange (range : VirtPageRange) (a : VmArea) : ObjectRange :=
  ⟨a.backing, a.vmoPidx (cutRange a range).start, a.vmoPidx (cutRange a range).stop⟩

section Found

variable (hm : WellKeyed s.vmas)
include hm

/-- **The areas found in a mapped range tile it**, and each contributes the pages of
its object that the range views through it. -/
theorem tiles_found (hcovers : PageMap.Covers s.view range) :
    s.Tiles range ((s.findIntersectionStarts range).map Prod.snd)
      ((s.findIntersectionStarts range).map fun e => objectRange range e.2) where
  registered := by
    intro a ha
    obtain ⟨⟨k, a⟩, he, rfl⟩ := List.mem_map.mp ha
    obtain ⟨hk, hmeet⟩ := (mem_findIntersectionStarts hm).mp he
    refine ⟨?_, hmeet⟩
    rw [show a.range.start = k from hm.key k a hk]
    exact hk
  apart := List.pairwise_map.mpr (findIntersectionStarts_apart hm range)
  covered := by
    intro vpn hin
    obtain ⟨v, hv⟩ := Option.ne_none_iff_exists'.mp (hcovers vpn hin)
    obtain ⟨e, he, hover⟩ := exists_found hm hin ((viewOf_eq_look _ _).symm.trans hv)
    exact ⟨e.2, List.mem_map_of_mem he, hover⟩
  pieces := by
    rw [List.forall₂_map_left_iff, List.forall₂_map_right_iff, List.forall₂_same]
    rintro ⟨k, a⟩ he
    obtain ⟨-, hmeet⟩ := (mem_findIntersectionStarts hm).mp he
    refine ⟨rfl, fun pidx => ?_⟩
    have hstart := (cutRange_spec hmeet).1
    rw [objectRange, vmoPidx_between (by simp only; omega)]
    apply exists_congr
    intro vpn
    have hcut : (_ ≤ vpn ∧ vpn < _) ↔ _ := cutRange_contains hmeet vpn
    rw [← and_assoc, hcut, and_comm (a := Over a vpn), and_assoc]
    rfl

/-- **A debug build translates the ends of all areas** exactly if there is one area,
and it goes on after the range. -/
theorem cut_ends_inside_iff (hcovers : PageMap.Covers s.view range)
    (hrange : range.start < range.stop) :
    (∀ e ∈ s.findIntersectionStarts range, e.2.range.contains (cutRange e.2 range).start ∧
      e.2.range.contains (cutRange e.2 range).stop) ↔ s.OneAreaBeyond range := by
  constructor
  · intro hall
    obtain ⟨v, hv⟩ := Option.ne_none_iff_exists'.mp (hcovers range.start ⟨Nat.le_refl _, hrange⟩)
    obtain ⟨⟨k, a⟩, he, hover⟩ :=
      exists_found hm ⟨Nat.le_refl _, hrange⟩ ((viewOf_eq_look _ _).symm.trans hv)
    obtain ⟨hk, hmeet⟩ := (mem_findIntersectionStarts hm).mp he
    have hlast := (hall _ he).2
    rw [(cutRange_spec hmeet).2.1] at hlast
    refine ⟨k, a, hk, hover, ?_⟩
    simp only [contains] at hlast ⊢
    omega
  · rintro ⟨k, a, hk, hfirst, hlast⟩ ⟨j, b⟩ he
    obtain ⟨hj, hmeet⟩ := (mem_findIntersectionStarts hm).mp he
    obtain ⟨hstart, hstop, -⟩ := cutRange_spec hmeet
    have hkey : a.range.start = k := hm.key k a hk
    have hkey' : b.range.start = j := hm.key j b hj
    simp only [contains, intersects] at *
    rcases Nat.lt_trichotomy j k with hlt | rfl | hlt
    · have : b.range.stop ≤ k := hm.apart j k b a hj hk hlt
      omega
    · rw [hk] at hj
      cases hj
      omega
    · have : a.range.stop ≤ j := hm.apart k j a b hk hj hlt
      omega

end Found

theorem syncRange_eq_ok {pages : ObjectRange} : syncRange debug range a = .ok pages ↔
    (debug = true → a.range.contains (cutRange a range).start) ∧ pages = objectRange range a := by
  have hend : a.vmoPidx (cutRange a range).start + (cutRange a range).npages =
      a.vmoPidx (cutRange a range).stop := by
    simp only [VmArea.vmoPidx, cutRange, stop]
    omega
  simp only [syncRange, bind_eq_ok, VmArea.vmoPidxIn_eq_ok, pure_eq,
    Except.ok.injEq, objectRange, ← hend]
  grind

theorem discardOp_eq_ok {op : ObjectRange × VirtPageRange} : discardOp debug range a = .ok op ↔
    (debug = true → a.range.contains (cutRange a range).start ∧
      a.range.contains (cutRange a range).stop) ∧ op = (objectRange range a, cutRange a range) := by
  simp only [discardOp, bind_eq_ok, VmArea.vmoPidxIn_eq_ok, pure_eq, Except.ok.injEq, objectRange]
  grind

/-- **Syncing translates first pages only**, so no build stops. -/
theorem collectSyncRanges_handsOver (hm : WellKeyed s.vmas) (debug : Bool) (range : VirtPageRange) :
    ∃ r, s.collectSyncRanges debug L range = .ok r ∧ s.HandsOver L range r := by
  unfold collectSyncRanges
  rcases findIntersectionStartsCovering_cases (L := L) hm range with
    ⟨hbad, e, he⟩ | ⟨hgood, hstarts⟩
  · rw [he]
    exact ⟨_, rfl, not_and_or.mpr hbad⟩
  · rw [hstarts]
    refine ⟨.ok _, bind_eq_ok.mpr
      ⟨_, (Checked.mapM_eq_ok fun _ _ => syncRange_eq_ok).mpr ⟨?_, rfl⟩, rfl⟩,
      hgood, _, tiles_found hm hgood.2⟩
    rintro ⟨k, a⟩ he -
    obtain ⟨hk, hmeet⟩ := (mem_findIntersectionStarts hm).mp he
    have hne : a.range.start < a.range.stop := hm.nonempty k a hk
    have hstart := (cutRange_spec hmeet).1
    simp only [contains, intersects] at *
    omega

/-- **Discarding also translates the page after each part**, which a debug build
accepts only inside the area. -/
theorem discardOps_eq_ok (hm : WellKeyed s.vmas)
    {r : Except SysError (List (ObjectRange × VirtPageRange))}
    (hgood : validateRange L range = .ok () ∧ PageMap.Covers s.view range) :
    s.discardOps debug L range = .ok r ↔ (debug = true → s.OneAreaBeyond range) ∧
      r = .ok ((s.findIntersectionStarts range).map fun e =>
        (objectRange range e.2, cutRange e.2 range)) := by
  unfold discardOps
  rcases findIntersectionStartsCovering_cases (L := L) hm range with
    ⟨hbad, -⟩ | ⟨-, hstarts⟩
  · exact absurd hgood (not_and_or.mpr hbad)
  simp only [hstarts, bind_eq_ok, pure_eq, Except.ok.injEq,
    Checked.mapM_eq_ok fun _ _ => discardOp_eq_ok]
  rw [← cut_ends_inside_iff hm hgood.2 (start_lt_stop_of_valid hgood.1)]
  grind

/-- **A release build discards what it collected.** -/
theorem discardRangeInner_eq (s : UserSpace) (mem : Memory) (range : VirtPageRange) :
    s.discardRangeInner L mem range = s.discardOps false L range >>= s.discardAll mem := by
  have hops : ∀ es : List (ℕ × VmArea), es.mapM (fun e => discardOp false range e.2) =
      .ok (es.map fun e => (objectRange range e.2, cutRange e.2 range)) := fun es =>
    (Checked.mapM_eq_ok fun _ _ => discardOp_eq_ok).mpr ⟨by simp, rfl⟩
  have hareas : ∀ (es : List (ℕ × VmArea)) (mem : Memory), discardAreas range es mem =
      es.foldlM (fun mem e => e.2.backing.discardRange mem (e.2.vmoPidx (cutRange e.2 range).start)
        (e.2.vmoPidx (cutRange e.2 range).stop)) mem := by
    intro es
    induction es with
    | nil => exact fun mem => rfl
    | cons e es ih =>
      intro mem
      rw [discardAreas, List.foldlM_cons]
      simp only [ih]
  unfold discardRangeInner discardOps
  cases s.findIntersectionStartsCovering L range with
  | error e => rfl
  | ok starts =>
    simp only [hops, hareas, ok_bind, pure_eq, discardAll, List.foldlM_map, List.foldl_map]
    rfl

/-- **What a discard and a sync hand over.**  In every registered address space and for every
range the search for areas succeeds exactly if the range is valid and every page of it is
mapped; a sync then hands every object the pages the range views of it, in any build; and so
does a discard, in a debug build exactly under the condition that the range and the page after
it lie in one area.  A release build discards what it collected.

SOURCE: mm/uspace/mmap.rs:418-447, mm/uspace/mmap.rs:615-717, mm/uspace/vma.rs:230-235 -/
theorem handed_over_iff (h : Registered L s) (debug : Bool) (range : VirtPageRange) :
    ((∃ starts, s.findIntersectionStartsCovering L range = .ok starts) ↔
      validateRange L range = .ok () ∧ PageMap.Covers s.view range) ∧
    (∃ r, s.collectSyncRanges debug L range = .ok r ∧ s.HandsOver L range r) ∧
    ((∃ r, s.discardOps debug L range = .ok r ∧ s.HandsOver L range (r.map (List.map Prod.fst))) ↔
      (debug = true → validateRange L range = .ok () → PageMap.Covers s.view range →
        s.OneAreaBeyond range)) ∧
    ∀ mem, s.discardRangeInner L mem range = s.discardOps false L range >>= s.discardAll mem := by
  have hm := h.registry.wellKeyed
  refine ⟨?_, collectSyncRanges_handsOver hm debug range, ?_,
    fun mem => discardRangeInner_eq s mem range⟩
  · rcases findIntersectionStartsCovering_cases (L := L) hm range with
      ⟨hbad, e, he⟩ | ⟨hgood, hstarts⟩
    · rw [he]
      exact ⟨nofun, fun hgood => absurd hgood (not_and_or.mpr hbad)⟩
    · exact ⟨fun _ => hgood, fun _ => ⟨_, hstarts⟩⟩
  · by_cases hgood : validateRange L range = .ok () ∧ PageMap.Covers s.view range
    · simp only [discardOps_eq_ok hm hgood]
      constructor
      · rintro ⟨r, ⟨hone, -⟩, -⟩ hdebug - -
        exact hone hdebug
      · intro hone
        refine ⟨_, ⟨fun hdebug => hone hdebug hgood.1 hgood.2, rfl⟩, hgood,
          (s.findIntersectionStarts range).map Prod.snd, ?_⟩
        rw [List.map_map]
        exact tiles_found hm hgood.2
    · refine ⟨fun _ _ hvalid hcovers => absurd ⟨hvalid, hcovers⟩ hgood, fun _ => ?_⟩
      rcases findIntersectionStartsCovering_cases (L := L) hm range with
        ⟨-, e, he⟩ | ⟨hgood', -⟩
      · refine ⟨.error e, ?_, hgood⟩
        rw [discardOps, he]
        rfl
      · exact absurd hgood' hgood

/-- A debug build stops at the discard of a whole mapping. -/
theorem discardOps_stops : ∃ s : UserSpace, Registered .sv39 s ∧
    (∃ starts, s.findIntersectionStartsCovering .sv39 ⟨3000000, 8⟩ = .ok starts) ∧
    s.discardOps true .sv39 ⟨3000000, 8⟩ =
      .error ⟨"assertion failed: self.range.contains(vpn)"⟩ := by
  have hrun : (do
      let s ← eightPages
      assert (s.discardOps true .sv39 ⟨3000000, 8⟩ =
        .error ⟨"assertion failed: self.range.contains(vpn)"⟩) ""
      pure (s.findIntersectionStartsCovering .sv39 ⟨3000000, 8⟩).toBool : Checked Bool) =
        .ok true := by decide +kernel
  simp only [bind_eq_ok, assert_eq_ok] at hrun
  obtain ⟨s, hs, _, hstop, hok⟩ := hrun
  refine ⟨s, eightPages_registered hs, ?_, hstop⟩
  cases hcover : s.findIntersectionStartsCovering .sv39 ⟨3000000, 8⟩ with
  | error e =>
    rw [hcover] at hok
    cases hok
  | ok starts => exact ⟨starts, rfl⟩

theorem handed_over_iff_eightPages : ∃ s : UserSpace, Registered .sv39 s ∧
    (∃ r, s.discardOps true .sv39 ⟨3000000, 7⟩ = .ok r) ∧
    ∃ r, s.collectSyncRanges true .sv39 ⟨3000000, 8⟩ = .ok r ∧
      s.HandsOver .sv39 ⟨3000000, 8⟩ r := by
  have hrun : (do
      let s ← eightPages
      let r ← s.discardOps true .sv39 ⟨3000000, 7⟩
      pure r.toBool : Checked Bool) = .ok true := by
    decide +kernel
  simp only [bind_eq_ok] at hrun
  obtain ⟨s, hs, r, hr, -⟩ := hrun
  have h := eightPages_registered hs
  exact ⟨s, h, ⟨r, hr⟩, (handed_over_iff h true ⟨3000000, 8⟩).2.1⟩

end UserSpace

end Anemone.Uspace
