import Anemone.Analysis.VmScripts

/-!
# Looking up ranges

What the searches of an address space say about its page map.
-/

namespace Anemone.Uspace

open Ranges (VirtPageRange)
open OrderedMap List
open Extents (WellKeyed Over look)

namespace UserSpace

variable {range : VirtPageRange} {s : UserSpace}

theorem mem_findIntersectionStarts {k : ℕ} {a : VmArea} (hm : WellKeyed s.vmas) :
    (k, a) ∈ s.findIntersectionStarts range ↔ s.vmas[k]? = some a ∧ a.range.intersects range := by
  unfold findIntersectionStarts
  rw [mem_filter, mem_rangeBelow]
  simp only [decide_eq_true_eq]
  constructor
  · rintro ⟨⟨hk, -⟩, hmeet⟩
    exact ⟨hk, hmeet⟩
  · rintro ⟨hk, hmeet⟩
    have hkey : a.range.start = k := hm.key k a hk
    refine ⟨⟨hk, ?_⟩, hmeet⟩
    rw [← hkey]
    exact hmeet.1

theorem meeting_findIntersectionStarts (hm : WellKeyed s.vmas)
    (range : VirtPageRange) : Meeting range (s.findIntersectionStarts range) := by
  rintro ⟨k, a⟩ he
  obtain ⟨hk, hmeet⟩ := (mem_findIntersectionStarts hm).mp he
  exact ⟨hm.nonempty k a hk, hmeet⟩

theorem findIntersectionStarts_pairwise (s : UserSpace) (range : VirtPageRange) :
    (s.findIntersectionStarts range).Pairwise fun x y => x.1 < y.1 :=
  (s.vmas.toList_pairwise.filter _).filter _

variable {L : Layout} {es : List (ℕ × VmArea)} {start npages gapEnd : ℕ}

theorem validateRange_eq_ok {u : Unit} :
    validateRange L range = .ok u ↔
      range.npages ≠ 0 ∧ range.stop ≤ L.uspaceTopVpn ∧ range.start ≠ 0 := by
  unfold validateRange
  split
  · next hbad =>
    refine ⟨nofun, fun h => ?_⟩
    omega
  · next hgood =>
    refine ⟨fun _ => ?_, fun _ => rfl⟩
    omega

theorem start_lt_stop_of_valid {u : Unit}
    (h : validateRange L range = .ok u) : range.start < range.stop := by
  have := (validateRange_eq_ok.mp h).1
  simp only [VirtPageRange.stop]
  omega

theorem isRangeAvail_iff : s.isRangeAvail L range = true ↔ s.Available L range := by
  unfold isRangeAvail Available
  split
  · next e he =>
    rw [he]
    simp
  · next he =>
    rw [he]
    simp only [all_eq_true, decide_not, Bool.not_eq_eq_eq_not, Bool.not_true,
      decide_eq_false_iff_not, true_and]
    constructor
    · intro hall k a ha
      exact hall (k, a) (mem_toList.mpr ha)
    · rintro hall ⟨k, a⟩ ha
      exact hall k a (mem_toList.mp ha)

/-- Some page of a range has a view with a property that an area gives all its pages
exactly if some area that meets the range gives it. -/
theorem exists_view_iff (hm : WellKeyed s.vmas) (hrange : range.start < range.stop)
    {Q : PageView → Prop} {P : VmArea → Prop} (hQ : ∀ a vpn, Q (a.view vpn) ↔ P a) :
    (∃ vpn v, range.contains vpn ∧ s.view vpn = some v ∧ Q v) ↔
      ∃ e ∈ s.findIntersectionStarts range, P e.2 := by
  constructor
  · rintro ⟨vpn, v, hin, hv, hq⟩
    rw [view, viewOf_eq_look, hm.look_eq_some] at hv
    obtain ⟨k, a, ha, hover, rfl⟩ := hv
    refine ⟨(k, a), (mem_findIntersectionStarts hm).mpr ⟨ha, ?_⟩, (hQ a vpn).mp hq⟩
    exact ⟨hover.1.trans_lt hin.2, hin.1.trans_lt hover.2⟩
  · rintro ⟨⟨k, a⟩, he, hp⟩
    obtain ⟨ha, hmeet⟩ := (mem_findIntersectionStarts hm).mp he
    have hne : a.range.start < a.range.stop := hm.nonempty k a ha
    unfold VirtPageRange.intersects at hmeet
    have hover : Over a (max a.range.start range.start) := by
      change a.range.start ≤ _ ∧ _ < a.range.stop
      omega
    refine ⟨max a.range.start range.start, a.view (max a.range.start range.start), ?_, ?_,
      (hQ a _).mpr hp⟩
    · unfold VirtPageRange.contains
      omega
    · rw [view, viewOf_eq_look]
      exact hm.look_eq_some.mpr ⟨k, a, ha, hover, rfl⟩

theorem touches_iff (hm : WellKeyed s.vmas) (hrange : range.start < range.stop) :
    PageMap.Touches s.view range ↔ HasReserved (s.findIntersectionStarts range) :=
  exists_view_iff hm hrange (Q := fun v => v.reservation ≠ none)
    (P := fun a => a.reservation ≠ none) fun _ _ => Iff.rfl

theorem exists_found (hm : WellKeyed s.vmas) {vpn : ℕ} (hin : range.contains vpn) {v : PageView}
    (hv : look VmArea.view s.vmas vpn = some v) :
    ∃ e ∈ s.findIntersectionStarts range, Over e.2 vpn := by
  obtain ⟨k, a, ha, hover, -⟩ := hm.look_eq_some.mp hv
  exact ⟨(k, a), (mem_findIntersectionStarts hm).mpr
    ⟨ha, hover.1.trans_lt hin.2, hin.1.trans_lt hover.2⟩, hover⟩

/-- **The coverage loop**, from a page `c` on that all remaining areas reach past:
it succeeds exactly if they are over every page from `c` to the end of the range. -/
theorem coveredBy_iff {c : ℕ} (hc : c < range.stop) (hreach : ∀ e ∈ es, c < e.2.range.stop)
    (hmeet : ∀ e ∈ es, e.2.range.start < range.stop)
    (hsorted : es.Pairwise fun x y => x.2.range.stop ≤ y.2.range.start)
    (hne : ∀ e ∈ es, e.2.range.start < e.2.range.stop) :
    coveredBy range c es = true ↔
      ∀ vpn, c ≤ vpn → vpn < range.stop → ∃ e ∈ es, Over e.2 vpn := by
  induction es generalizing c with
  | nil =>
    simp only [coveredBy, Bool.false_eq_true, not_mem_nil, false_and, exists_false,
      imp_false, false_iff, not_forall]
    exact ⟨c, Nat.le_refl c, fun h => h hc⟩
  | cons e es ih =>
    obtain ⟨hfirst, hsorted'⟩ := pairwise_cons.mp hsorted
    have hreachE := hreach e mem_cons_self
    unfold coveredBy
    by_cases hgap : e.2.range.start > c
    · -- page `c` is below this area and all later ones
      simp only [hgap, if_true, Bool.false_eq_true, false_iff]
      intro hall
      obtain ⟨x, hx, hover⟩ := hall c (Nat.le_refl c) hc
      have hstart : x.2.range.start ≤ c := hover.1
      rcases mem_cons.mp hx with rfl | hx
      · omega
      · have := hfirst x hx
        omega
    · simp only [hgap, if_false]
      by_cases hend : max c (min e.2.range.stop range.stop) ≥ range.stop
      · simp only [hend, if_true, true_iff]
        intro vpn hlo hhi
        refine ⟨e, mem_cons_self, ?_⟩
        change e.2.range.start ≤ vpn ∧ vpn < e.2.range.stop
        omega
      · simp only [hend, if_false]
        have hnext : max c (min e.2.range.stop range.stop) = e.2.range.stop := by omega
        rw [hnext, ih (by omega) (fun x hx => (hfirst x hx).trans_lt
          (hne x (mem_cons_of_mem _ hx))) (fun x hx => hmeet x (mem_cons_of_mem _ hx))
          hsorted' fun x hx => hne x (mem_cons_of_mem _ hx)]
        constructor
        · intro hall vpn hlo hhi
          by_cases hin : vpn < e.2.range.stop
          · refine ⟨e, mem_cons_self, ?_⟩
            change e.2.range.start ≤ vpn ∧ vpn < e.2.range.stop
            omega
          · obtain ⟨x, hx, hover⟩ := hall vpn (by omega) hhi
            exact ⟨x, mem_cons_of_mem _ hx, hover⟩
        · intro hall vpn hlo hhi
          obtain ⟨x, hx, hover⟩ := hall vpn (by omega) hhi
          rcases mem_cons.mp hx with rfl | hx
          · have hstop : vpn < x.2.range.stop := hover.2
            omega
          · exact ⟨x, hx, hover⟩

theorem findIntersectionStarts_apart (hm : WellKeyed s.vmas)
    (range : VirtPageRange) : (s.findIntersectionStarts range).Pairwise
      fun x y => x.2.range.stop ≤ y.2.range.start := by
  apply List.Pairwise.imp_of_mem _ (s.findIntersectionStarts_pairwise range)
  rintro ⟨k, a⟩ ⟨j, b⟩ hx hy hlt
  obtain ⟨ha, -⟩ := (mem_findIntersectionStarts hm).mp hx
  obtain ⟨hb, -⟩ := (mem_findIntersectionStarts hm).mp hy
  have hkey : b.range.start = j := hm.key j b hb
  rw [hkey]
  exact hm.apart k j a b ha hb hlt

/-- **Covering searches succeed on mapped ranges only.** -/
theorem findIntersectionStartsCovering_cases (hm : WellKeyed s.vmas) (range : VirtPageRange) :
    ((validateRange L range ≠ .ok () ∨ ¬ PageMap.Covers s.view range) ∧
        ∃ e, s.findIntersectionStartsCovering L range = .error e) ∨
      ((validateRange L range = .ok () ∧ PageMap.Covers s.view range) ∧
        s.findIntersectionStartsCovering L range = .ok (s.findIntersectionStarts range)) := by
  unfold findIntersectionStartsCovering
  cases hvalid : validateRange L range with
  | error e => exact .inl ⟨.inl (by simp), e, rfl⟩
  | ok u =>
    have hrange := start_lt_stop_of_valid hvalid
    have hfound : ∀ e ∈ s.findIntersectionStarts range,
        e.2.range.intersects range ∧ e.2.range.start < e.2.range.stop := by
      rintro ⟨k, a⟩ he
      obtain ⟨ha, hmeet⟩ := (mem_findIntersectionStarts hm).mp he
      exact ⟨hmeet, hm.nonempty k a ha⟩
    have hcovered := coveredBy_iff hrange (fun e he => (hfound e he).1.2)
      (fun e he => (hfound e he).1.1) (findIntersectionStarts_apart hm range)
      (fun e he => (hfound e he).2)
    have hmapped : (∀ vpn, range.start ≤ vpn → vpn < range.stop →
        ∃ e ∈ s.findIntersectionStarts range, Over e.2 vpn) ↔ PageMap.Covers s.view range := by
      constructor
      · intro hall vpn hin hnone
        obtain ⟨⟨k, a⟩, he, hover⟩ := hall vpn hin.1 hin.2
        rw [view, viewOf_eq_look, hm.look_eq_none] at hnone
        exact hnone k a ((mem_findIntersectionStarts hm).mp he).1 hover
      · intro hall vpn hlo hhi
        have hsome := hall vpn ⟨hlo, hhi⟩
        rw [view, viewOf_eq_look] at hsome
        obtain ⟨v, hv⟩ := Option.ne_none_iff_exists'.mp hsome
        exact exists_found hm ⟨hlo, hhi⟩ hv
    rw [hmapped] at hcovered
    simp only
    split_ifs with hc
    · exact .inr ⟨⟨trivial, hcovered.mp hc⟩, rfl⟩
    · exact .inl ⟨.inr fun h => hc (hcovered.mpr h), _, rfl⟩

/-- **Collecting the areas of a move** fails on ranges that are not mapped or touch
a reservation, and otherwise cuts and shifts every area of the source. -/
theorem collectMovableVmas_cases (hm : WellKeyed s.vmas) (source : VirtPageRange) (targetStart : ℕ) :
    ((validateRange L source ≠ .ok () ∨ ¬ PageMap.Covers s.view source ∨
        PageMap.Touches s.view source) ∧
        ∃ e, s.collectMovableVmas L source targetStart = .ok (.error e)) ∨
      ((validateRange L source = .ok () ∧ PageMap.Covers s.view source ∧
        ¬ HasReserved (s.findIntersectionStarts source)) ∧
        s.collectMovableVmas L source targetStart = .ok (.ok
          ((s.findIntersectionStarts source).map fun e => e.2.moved source targetStart))) := by
  unfold collectMovableVmas
  rcases findIntersectionStartsCovering_cases (L := L) hm source with
    ⟨hbad, e, he⟩ | ⟨⟨hvalid, hcovers⟩, hstarts⟩
  · rw [he]
    exact .inl ⟨hbad.imp_right .inl, e, rfl⟩
  · have hsource := start_lt_stop_of_valid hvalid
    have hmeeting := meeting_findIntersectionStarts hm source
    rw [hstarts]
    by_cases hres : HasReserved (s.findIntersectionStarts source)
    · exact .inl ⟨.inr (.inr ((touches_iff hm hsource).mpr hres)), _,
        collectMovable_error hsource hmeeting targetStart hres⟩
    · exact .inr ⟨⟨hvalid, hcovers, hres⟩, collectMovable_ok hsource hmeeting targetStart hres⟩

/-- **A gap found from the top down is free.** -/
theorem findGap_spec (h : findGap npages es gapEnd = some start)
    (hsorted : es.Pairwise fun x y => y.2.range.stop ≤ x.2.range.start)
    (hne : ∀ e ∈ es, e.2.range.start < e.2.range.stop) (hbelow : ∀ e ∈ es, e.2.range.stop ≤ gapEnd) :
    start + npages ≤ gapEnd ∧
      ∀ e ∈ es, e.2.range.stop ≤ start ∨ start + npages ≤ e.2.range.start := by
  induction es generalizing gapEnd with
  | nil => cases h
  | cons x es ih =>
    obtain ⟨hnext, hsorted'⟩ := pairwise_cons.mp hsorted
    have hnex := hne x mem_cons_self
    have hbelowx := hbelow x mem_cons_self
    unfold findGap at h
    split_ifs at h with hfits
    · cases h
      refine ⟨by omega, ?_⟩
      intro e he
      rcases mem_cons.mp he with rfl | he
      · omega
      · have := hnext e he
        omega
    · obtain ⟨hend, hrest⟩ := ih h hsorted' (fun e he => hne e (mem_cons_of_mem _ he)) hnext
      refine ⟨by omega, ?_⟩
      exact forall_mem_cons.mpr ⟨.inr hend, hrest⟩

/-- **No gap above an available start is passed over**, with an area below the start. -/
theorem findGap_ge {u : ℕ} (hbelow : ∃ e ∈ es, e.2.range.stop ≤ u) (hend : u + npages ≤ gapEnd)
    (hfree : ∀ e ∈ es, e.2.range.stop ≤ u ∨ u + npages ≤ e.2.range.start)
    (hne : ∀ e ∈ es, e.2.range.start < e.2.range.stop) :
    ∃ v, findGap npages es gapEnd = some v ∧ u ≤ v := by
  induction es generalizing gapEnd with
  | nil => simp at hbelow
  | cons x es ih =>
    unfold findGap
    split_ifs with hfits
    · exact ⟨_, rfl, by omega⟩
    · have hx : u + npages ≤ x.2.range.start :=
        (hfree x mem_cons_self).resolve_left fun hle => hfits (by omega)
      refine ih ?_ hx (fun e he => hfree e (mem_cons_of_mem _ he))
        (fun e he => hne e (mem_cons_of_mem _ he))
      obtain ⟨e, he, hle⟩ := hbelow
      rcases mem_cons.mp he with rfl | he
      · omega
      · exact ⟨e, he, hle⟩

section Search

variable (h : Registry L s.vmas) {npages : ℕ}
include h

theorem findGap_available (hn : npages ≠ 0)
    (hgap : findGap npages s.vmas.toList.reverse L.uspaceTopVpn = some start) :
    s.Available L ⟨start, npages⟩ := by
  have hm := h.wellKeyed
  have hsorted : s.vmas.toList.reverse.Pairwise
      fun x y => y.2.range.stop ≤ x.2.range.start := by
    rw [pairwise_reverse]
    apply List.Pairwise.imp_of_mem _ s.vmas.toList_pairwise
    rintro ⟨k, a⟩ ⟨j, b⟩ ha hb hlt
    have hb := mem_toList.mp hb
    have hkey : b.range.start = j := hm.key j b hb
    rw [hkey]
    exact hm.apart k j a b (mem_toList.mp ha) hb hlt
  obtain ⟨htop, hfree⟩ := findGap_spec hgap hsorted
    (fun e he => hm.nonempty e.1 e.2 (mem_toList.mp (mem_reverse.mp he)))
    (fun e he => h.below_top e.1 e.2 (mem_toList.mp (mem_reverse.mp he)))
  have hapart : ∀ (k : ℕ) (a : VmArea), s.vmas[k]? = some a →
      a.range.stop ≤ start ∨ start + npages ≤ a.range.start := fun k a ha =>
    hfree (k, a) (mem_reverse.mpr (mem_toList.mpr ha))
  refine ⟨validateRange_eq_ok.mpr ⟨hn, htop, ?_⟩, ?_⟩
  · -- page 0 is the guard's
    obtain ⟨guard, hguard, hrange, -⟩ := h.zeroGuard
    have := hapart _ guard hguard
    simp only [hrange, Layout.zeroGuardRange, VirtPageRange.stop] at this
    simp only
    omega
  · intro k a ha
    have := hapart k a ha
    simp only [VirtPageRange.intersects, VirtPageRange.stop] at *
    omega

theorem findGap_highest (havail : s.Available L ⟨start, npages⟩) :
    ∃ v, findGap npages s.vmas.toList.reverse L.uspaceTopVpn = some v ∧ start ≤ v := by
  obtain ⟨-, htop, hzero⟩ := validateRange_eq_ok.mp havail.1
  obtain ⟨guard, hguard, hrange, -⟩ := h.zeroGuard
  refine findGap_ge ⟨_, mem_reverse.mpr (mem_toList.mpr hguard), ?_⟩ htop ?_ ?_
  · simp only [hrange, Layout.zeroGuardRange, VirtPageRange.stop]
    exact Nat.one_le_iff_ne_zero.mpr hzero
  · intro e he
    have := havail.2 e.1 e.2 (mem_toList.mp (mem_reverse.mp he))
    simp only [VirtPageRange.intersects, VirtPageRange.stop] at *
    omega
  · intro e he
    exact h.wellKeyed.nonempty e.1 e.2 (mem_toList.mp (mem_reverse.mp he))

theorem findAvailRange_none_free (hcall : s.findAvailRange L npages none = .ok (some start)) :
    ∀ (k : ℕ) (a : VmArea), s.vmas[k]? = some a → ¬ a.range.intersects ⟨start, npages⟩ := by
  obtain ⟨_, hn, hgap⟩ := Checked.bind_eq_ok.mp hcall
  exact (findGap_available h (Checked.assert_eq_ok.mp hn) (Except.ok.inj hgap)).2

end Search

end UserSpace

end Anemone.Uspace
