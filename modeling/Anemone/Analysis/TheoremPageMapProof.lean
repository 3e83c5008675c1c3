import Anemone.Analysis.UnmapScript
import Anemone.Analysis.TheoremRegistryProof

/-!
# Edits of the areas are edits of the page map

Unmapping clears a range, replacing puts an area into a cleared range, protecting changes one
component.  The protect composer looks at the reservation before it compares protections, so it
refuses a range with a reserved area that would not change.
-/

namespace Anemone.Uspace

open Checked (ok_bind)
open Ranges.VirtPageRange
open Ranges (VirtPageRange)
open Extents (WellKeyed Over Fits Apart look)
open UserSpace (validateRange validateRange_eq_ok mem_findIntersectionStarts)

variable {L : Layout} {range : VirtPageRange}

section OneArea

variable {a : VmArea} {range : VirtPageRange} (prot : Protection)
  (ha : a.range.start < a.range.stop) (hrange : range.start < range.stop)
  (hmeet : a.range.intersects range)

include ha hrange hmeet

theorem protectParts_spec : (∀ b ∈ a.protectParts range prot, a.range.start ≤ b.range.start ∧
      b.range.start < b.range.stop ∧ b.range.stop ≤ a.range.stop ∧
      b.reservation = a.reservation) ∧
    (a.protectParts range prot).Pairwise Apart := by
  obtain ⟨hstart, hstop, hne⟩ := cutRange_spec hmeet
  constructor
  · intro b hb
    simp only [VmArea.protectParts, List.mem_append, List.mem_singleton] at hb
    rcases hb with (hb | rfl) | hb
    · split_ifs at hb with hlt
      · cases List.mem_singleton.mp hb
        have hpiece : IsPiece a (a.below (cutRange a range).start) :=
          VmArea.isPiece_below (by omega) (by omega)
        exact ⟨hpiece.start_le, hpiece.nonempty, hpiece.stop_le, rfl⟩
      · cases hb
    · have hpiece := isPiece_cut ha hrange hmeet
      exact ⟨hpiece.start_le, hpiece.nonempty, hpiece.stop_le, rfl⟩
    · split_ifs at hb with hlt
      · cases List.mem_singleton.mp hb
        have hpiece : IsPiece a (a.above (cutRange a range).stop) :=
          VmArea.isPiece_above (by omega) (by omega)
        exact ⟨hpiece.start_le, hpiece.nonempty, hpiece.stop_le, rfl⟩
      · cases hb
  · have hleft : ∀ c : VmArea, c.range.start = (cutRange a range).start ∨
        c.range.start = (cutRange a range).stop → Apart (a.below (cutRange a range).start) c := by
      intro c hc
      left
      change (a.below (cutRange a range).start).range.stop ≤ c.range.start
      rw [VmArea.below_stop (by omega)]
      omega
    have hmiddle : Apart ({ a.slice (cutRange a range) with prot := prot })
        (a.above (cutRange a range).stop) := .inl (Nat.le_refl _)
    unfold VmArea.protectParts
    split_ifs
    · simpa using ⟨⟨hleft _ (.inl rfl), hleft _ (.inr rfl)⟩, hmiddle⟩
    · simpa using hleft _ (.inl rfl)
    · simpa using hmiddle
    · simp

/-- A page of the area lies in one of the parts, which says what the area says, except that
inside the range the protection is the new one. -/
theorem exists_protectParts {vpn : ℕ} (hover : Over a vpn) :
    ∃ b ∈ a.protectParts range prot, Over b vpn ∧ b.view vpn =
      if range.contains vpn then { a.view vpn with prot := prot } else a.view vpn := by
  obtain ⟨hstart, hstop, hne⟩ := cutRange_spec hmeet
  have hlo : a.range.start ≤ vpn := hover.1
  have hhi : vpn < a.range.stop := hover.2
  by_cases hbelow : vpn < range.start
  · have hpiece : IsPiece a (a.below (cutRange a range).start) :=
      VmArea.isPiece_below (by omega) (by omega)
    have hover' : Over (a.below (cutRange a range).start) vpn := by
      refine ⟨hlo, ?_⟩
      change vpn < (a.below (cutRange a range).start).range.stop
      rw [VmArea.below_stop (by omega)]
      omega
    refine ⟨a.below (cutRange a range).start, ?_, hover', ?_⟩
    · simp only [VmArea.protectParts, List.mem_append]
      rw [if_pos (by omega)]
      simp
    · rw [if_neg (by unfold contains; omega), hpiece.view_eq hover']
  · by_cases habove : range.stop ≤ vpn
    · have hpiece : IsPiece a (a.above (cutRange a range).stop) :=
        VmArea.isPiece_above (by omega) (by omega)
      have hover' : Over (a.above (cutRange a range).stop) vpn := by
        constructor
        · change (cutRange a range).stop ≤ vpn
          omega
        · change vpn < (a.above (cutRange a range).stop).range.stop
          rw [VmArea.above_stop (by omega)]
          exact hhi
      refine ⟨a.above (cutRange a range).stop, ?_, hover', ?_⟩
      · simp only [VmArea.protectParts, List.mem_append]
        rw [if_pos (show range.stop < a.range.stop by omega)]
        simp
      · rw [if_neg (by unfold contains; omega), hpiece.view_eq hover']
    · have hpiece := isPiece_cut ha hrange hmeet
      have hover' : Over (a.slice (cutRange a range)) vpn := by
        change (cutRange a range).start ≤ vpn ∧ vpn < (cutRange a range).stop
        omega
      refine ⟨{ a.slice (cutRange a range) with prot := prot }, ?_, hover', ?_⟩
      · simp [VmArea.protectParts]
      · rw [if_pos (by unfold contains; omega), ← hpiece.view_eq hover']
        rfl

end OneArea

/-- **One area's part of a protect script** changes the protection of its pages in
the range. -/
theorem runOps_protectScript_one {m : OrderedMap VmArea} (hm : WellKeyed m)
    (hrange : range.start < range.stop) (prot : Protection) {e : ℕ × VmArea}
    (hmeet : e.2.range.intersects range) (hres : e.2.reservation = none) (he : m[e.1]? = some e.2) :
    ∃ m₁, runOps m (protectScript range prot e) = .ok m₁ ∧ WellKeyed m₁ ∧
      (∀ vpn, look VmArea.view m₁ vpn =
        if Over e.2 vpn then
          if range.contains vpn then
            (look VmArea.view m vpn).map fun v => { v with prot := prot }
          else look VmArea.view m vpn
        else look VmArea.view m vpn) ∧
      ∀ (k : ℕ) (a : VmArea), k ≠ e.1 → m[k]? = some a → m₁[k]? = some a := by
  obtain ⟨k, a⟩ := e
  have hne : a.range.start < a.range.stop := hm.nonempty k a he
  have hlookA : ∀ {vpn}, Over a vpn → look VmArea.view m vpn = some (a.view vpn) := fun hover =>
    hm.look_eq_some.mpr ⟨k, a, he, hover, rfl⟩
  unfold protectScript
  by_cases hsame : a.prot = prot
  · refine ⟨m, by rw [if_pos hsame]; rfl, hm, ?_, fun j b _ hb => hb⟩
    intro vpn
    by_cases hover : Over a vpn
    · have hview : { a.view vpn with prot := prot } = a.view vpn := by
        rw [← hsame]
        rfl
      simp [hover, hlookA hover, hview]
    · simp [hover]
  · rw [if_neg hsame]
    obtain ⟨hparts, hapart⟩ := protectParts_spec prot hne hrange hmeet
    have hfit : ∀ b ∈ a.protectParts range prot, Fits (m.erase k) b := fun b hb =>
      hm.fits_erase he (hparts b hb).1 (hparts b hb).2.2.1
    obtain ⟨hwk, hlook, hkeep, hfound⟩ := (hm.erase k).insertAll VmArea.view
      (fun b hb => (hparts b hb).2.1) hfit hapart
    have hinserts := runOps_inserts (hm.erase k)
      (fun b hb => (hparts b hb).2.2.2.trans hres) (fun b hb => (hparts b hb).2.1) hfit hapart
    refine ⟨_, ?_, hwk, ?_, ?_⟩
    · have hremove : runOps m [.remove k] = .ok (m.erase k) := by
        simp only [runOps_cons, runOp, Checked.bind_eq_ok, Checked.expect_eq_ok,
          Checked.assert_eq_ok]
        exact ⟨_, ⟨a, he, (), hres, rfl⟩, rfl⟩
      rw [runOps_append, runOps_append, hremove, ok_bind, hinserts]
      rfl
    · intro vpn
      by_cases hover : Over a vpn
      · obtain ⟨b, hb, hb', hview⟩ := exists_protectParts prot hne hrange hmeet hover
        rw [if_pos hover, hwk.look_eq_some.mpr ⟨_, b, hfound b hb, hb', rfl⟩, hview, hlookA hover]
        split_ifs <;> rfl
      · rw [if_neg hover, hlook vpn, hm.look_erase VmArea.view he, if_neg hover]
        intro b hb hb'
        exact hover ⟨(hparts b hb).1.trans hb'.1, hb'.2.trans_le (hparts b hb).2.2.1⟩
    · intro j b hj hb
      apply hkeep
      rw [OrderedMap.get_erase, if_neg hj.symm]
      exact hb

namespace UserSpace

variable {s : UserSpace}

/-- **A protect script changes one component on the range.** -/
theorem runOps_protectRange (hm : WellKeyed s.vmas) (hrange : range.start < range.stop)
    (prot : Protection) (hres : ¬ HasReserved (s.findIntersectionStarts range)) :
    ∃ m', runOps s.vmas ((s.findIntersectionStarts range).flatMap (protectScript range prot)) =
      .ok m' ∧ viewOf m' = PageMap.protect s.view range prot := by
  obtain ⟨m', hrun, -, hlook, -⟩ := runOps_areaScript (protectScript range prot)
    (fun vpn v => if range.contains vpn then v.map fun v => { v with prot := prot } else v)
    (fun _ => none) (fun e => e.2.range.intersects range ∧ e.2.reservation = none)
    (by
      rintro m hm e ⟨hmeet, hfree⟩ he
      obtain ⟨m₁, hrun, hwk, hlook, hkeep⟩ := runOps_protectScript_one hm hrange prot hmeet hfree he
      exact ⟨m₁, hrun, hwk, hlook, hkeep, nofun⟩)
    hm (s.findIntersectionStarts_pairwise range) (by
      rintro ⟨k, a⟩ he
      obtain ⟨ha, hmeet⟩ := (mem_findIntersectionStarts hm).mp he
      exact ⟨⟨hmeet, by_contra fun hno => hres ⟨_, he, hno⟩⟩, ha⟩)
  refine ⟨m', hrun, ?_⟩
  funext vpn
  rw [viewOf_eq_look, hlook]
  unfold PageMap.protect view
  rw [viewOf_eq_look]
  by_cases hin : range.contains vpn
  · cases hold : look VmArea.view s.vmas vpn with
    | none => split_ifs <;> rfl
    | some v => rw [if_pos (exists_found hm hin hold)]
  · simp only [hin, if_false, ite_self]

theorem refusesUnmap_iff : RefusesUnmap L s range ↔
    validateRange L range ≠ .ok () ∨ PageMap.Touches s.view range := by
  have hvalid : validateRange L range ≠ .ok () ↔
      range.npages = 0 ∨ range.start = 0 ∨ L.uspaceTopVpn < range.stop := by
    rw [ne_eq, validateRange_eq_ok]
    omega
  rw [hvalid]
  constructor
  · rintro (h | h | h | h)
    exacts [.inl (.inl h), .inl (.inr (.inl h)), .inl (.inr (.inr h)), .inr h]
  · rintro ((h | h | h) | h)
    exacts [.inl h, .inr (.inl h), .inr (.inr (.inl h)), .inr (.inr (.inr h))]

theorem runTransaction_of_runOps {ops : List VmOperation} {m' : OrderedMap VmArea}
    (h : runOps s.vmas ops = .ok m') :
    ∃ s', s.runTransaction ops = .ok s' ∧ s'.vmas = m' := by
  exact ⟨_, runTransaction_eq_ok.mpr ⟨m', h, rfl⟩, rfl⟩

theorem unmapInner_refines (hm : WellKeyed s.vmas) (range : VirtPageRange) :
    ∃ r s', s.unmapInner L range = .ok (r, s') ∧
      (s.RefusesUnmap L range → (∃ e, r = .error e) ∧ s' = s) ∧
      (¬ s.RefusesUnmap L range → r = .ok () ∧ s'.view = PageMap.clear s.view range) := by
  unfold unmapInner
  rcases composeUnmapRange_cases (L := L) hm range with
    ⟨hbad, e, he⟩ | ⟨⟨hvalid, htouch⟩, hops, m', hrun, -, hview, -, -⟩
  · rw [he]
    refine ⟨_, s, rfl, fun _ => ⟨⟨e, rfl⟩, rfl⟩, fun hno => ?_⟩
    exact absurd (refusesUnmap_iff.mpr hbad) hno
  · rw [hops]
    obtain ⟨s', hs', hvmas⟩ := runTransaction_of_runOps hrun
    refine ⟨.ok (), s', ?_, fun hbad => ?_, fun _ => ⟨rfl, ?_⟩⟩
    · simp only [hs']
      rfl
    · rcases refusesUnmap_iff.mp hbad with h | h
      · exact absurd hvalid h
      · exact absurd h htouch
    · rw [← hview, ← hvmas]
      rfl

theorem insertVma_of_avail (hm : WellKeyed s.vmas) {a : VmArea}
    (havail : s.isRangeAvail L a.range = true) :
    ∃ s', s.insertVma L a = .ok (.ok (), s') ∧ s'.view = PageMap.put s.view a ∧
      s'.table = s.table ∧ s'.heap = s.heap := by
  obtain ⟨hvalid, hroom⟩ := isRangeAvail_iff.mp havail
  have hne := start_lt_stop_of_valid hvalid
  have hfit := fits_of_room hroom
  have hfree : s.vmas[a.range.start]? = none := hm.get_of_fits hne hfit
  refine ⟨{ s with vmas := s.vmas.insert a.range.start a }, ?_, ?_, rfl, rfl⟩
  · unfold insertVma
    rw [if_pos havail, insertNew_eq_ok.mpr ⟨hfree, rfl⟩]
    rfl
  · funext vpn
    have hput := hm.look_insert VmArea.view hne hfit vpn
    rw [← viewOf_eq_look, ← viewOf_eq_look] at hput
    exact hput

theorem replaceRange_refines (hm : WellKeyed s.vmas) (range : VirtPageRange) {new : VmArea}
    (hres : new.reservation = none) :
    ∃ r s', s.replaceRange L range new = .ok (r, s') ∧
      (new.range ≠ range ∨ s.RefusesUnmap L range → (∃ e, r = .error e) ∧ s' = s) ∧
      (new.range = range → ¬ s.RefusesUnmap L range →
        r = .ok () ∧ s'.view = PageMap.put (PageMap.clear s.view range) new) := by
  unfold replaceRange
  by_cases hnew : new.range = range
  · rw [if_neg (not_not.mpr hnew), Checked.assert_of _ hres]
    rcases composeUnmapRange_cases (L := L) hm range with
      ⟨hbad, e, he⟩ | ⟨⟨hvalid, htouch⟩, hops, m', hrun, hwk, hview, -, -⟩
    · rw [he]
      refine ⟨_, s, rfl, fun _ => ⟨⟨e, rfl⟩, rfl⟩, fun _ hno => ?_⟩
      exact absurd (refusesUnmap_iff.mpr hbad) hno
    · rw [hops]
      have hrange : new.range.start < new.range.stop := by
        rw [hnew]
        exact start_lt_stop_of_valid hvalid
      have hfit : Fits m' new := by
        apply fits_of_clear hwk hrange
        intro vpn hin
        rw [hview]
        exact if_pos (hnew ▸ hin)
      have hins : runOps m' [.insert new] = .ok (m'.insert new.range.start new) :=
        runOps_inserts hwk (by simpa using hres) (by simpa using hrange) (by simpa using hfit)
          (List.pairwise_singleton Apart new)
      have hall : runOps s.vmas ((s.findIntersectionStarts range).flatMap
          (fun e => unmapOps range e.1 e.2) ++ [.insert new]) =
          .ok (m'.insert new.range.start new) := by
        rw [runOps_append, hrun]
        exact hins
      obtain ⟨s', hs', hvmas⟩ := runTransaction_of_runOps hall
      refine ⟨.ok (), s', ?_, fun hbad => ?_, fun _ _ => ⟨rfl, ?_⟩⟩
      · simp only [ok_bind, hs']
        rfl
      · rcases hbad with h | h
        · exact absurd hnew h
        · rcases refusesUnmap_iff.mp h with h | h
          · exact absurd hvalid h
          · exact absurd h htouch
      · funext vpn
        have hput := hwk.look_insert VmArea.view hrange hfit vpn
        rw [← viewOf_eq_look, ← viewOf_eq_look, hview] at hput
        unfold view
        rw [hvmas]
        exact hput
  · rw [if_pos hnew]
    exact ⟨_, s, rfl, fun _ => ⟨⟨_, rfl⟩, rfl⟩, fun h => absurd h hnew⟩

theorem protectRange_refines (h : Registered L s) (range : VirtPageRange) (prot : Protection)
    (hheap : ¬ s.OnHeapPath L range) :
    ∃ r s', s.protectRange L range prot = .ok (r, s') ∧
      (¬ s.AllowsProtect L range prot → (∃ e, r = .error e) ∧ s' = s) ∧
      (s.AllowsProtect L range prot →
        r = .ok () ∧ s'.view = PageMap.protect s.view range prot) := by
  have hm := h.registry.wellKeyed
  obtain ⟨heap, hheapVma, hheapRange⟩ := h.heapVma_eq
  have hslow : ¬ (heap.range.covers range ∧ range.stop ≤ pageUp s.heap.brk) := by
    rw [hheapRange]
    exact hheap
  unfold protectRange
  rw [hheapVma, ok_bind, if_neg hslow]
  rcases findIntersectionStartsCovering_cases (L := L) hm range with
    ⟨hbad, e, he⟩ | ⟨⟨hvalid, hcovers⟩, hstarts⟩
  · simp only [protectionChangeRelation, he]
    refine ⟨_, s, rfl, fun _ => ⟨⟨e, rfl⟩, rfl⟩, fun hallow => ?_⟩
    obtain ⟨⟨hne, hzero, htop⟩, hcovers, -⟩ := hallow
    rcases hbad with hbad | hbad
    · exact absurd (validateRange_eq_ok.mpr ⟨hne, htop, hzero⟩) hbad
    · exact absurd hcovers hbad
  have hrange := start_lt_stop_of_valid hvalid
  obtain ⟨hne, htop, hzero⟩ := validateRange_eq_ok.mp hvalid
  have hdiffers : s.Differs range prot ↔
      ∃ e ∈ s.findIntersectionStarts range, e.2.prot ≠ prot :=
    exists_view_iff hm hrange (Q := fun v => v.prot ≠ prot) (P := fun a => a.prot ≠ prot)
      fun _ _ => Iff.rfl
  have hmeeting := meeting_findIntersectionStarts hm range
  simp only [protectionChangeRelation, hstarts]
  by_cases hany : (s.findIntersectionStarts range).any fun e => decide (e.2.prot ≠ prot)
  · rw [if_pos hany]
    have hdiff : s.Differs range prot := by
      obtain ⟨e, he, hep⟩ := List.any_eq_true.mp hany
      exact hdiffers.mpr ⟨e, he, of_decide_eq_true hep⟩
    have hcompose : s.composeProtectRange L range prot =
        composeProtectOps range prot (s.findIntersectionStarts range) := by
      unfold composeProtectRange
      rw [hstarts]
    simp only [hcompose]
    by_cases hres : HasReserved (s.findIntersectionStarts range)
    · -- the composer meets a reservation
      rw [composeProtectOps_error hrange hmeeting prot hres]
      refine ⟨_, s, rfl, fun _ => ⟨⟨_, rfl⟩, rfl⟩, fun hallow => ?_⟩
      rcases hallow.2.2 with hno | hno
      · exact absurd hdiff hno
      · exact absurd ((touches_iff hm hrange).mpr hres) hno
    · rw [composeProtectOps_ok hrange hmeeting prot hres]
      obtain ⟨m', hrun, hview⟩ := runOps_protectRange hm hrange prot hres
      obtain ⟨s', hs', hvmas⟩ := runTransaction_of_runOps hrun
      refine ⟨.ok (), s', ?_, fun hno => ?_, fun _ => ⟨rfl, ?_⟩⟩
      · simp only [ok_bind, hs']
        rfl
      · exact absurd ⟨⟨hne, hzero, htop⟩, hcovers,
          .inr fun ht => hres ((touches_iff hm hrange).mp ht)⟩ hno
      · rw [← hview, ← hvmas]
        rfl
  · rw [if_neg hany]
    have hsame : ¬ s.Differs range prot := by
      intro hdiff
      obtain ⟨e, he, hep⟩ := hdiffers.mp hdiff
      exact hany (List.any_eq_true.mpr ⟨e, he, decide_eq_true hep⟩)
    refine ⟨.ok (), s, rfl, fun hno => ?_, fun _ => ⟨rfl, ?_⟩⟩
    · exact absurd ⟨⟨hne, hzero, htop⟩, hcovers, .inl hsame⟩ hno
    · -- every page of the range has the protection already
      funext vpn
      unfold PageMap.protect
      split_ifs with hin
      · cases hv : s.view vpn with
        | none => rfl
        | some v =>
          have hprot : v.prot = prot := by_contra fun hno => hsame ⟨vpn, v, hin, hv, hno⟩
          rw [Option.map_some, ← hprot]
      · rfl

end UserSpace

/-- **Edits refine the page map.**  For every address space that keeps the registry and
every range: unmapping is refused without any change if the range is empty, starts at page
0, ends above the top or touches a reservation, and otherwise clears the range and leaves
every other page as it was; replacing puts the view of the new area into the range besides;
protecting outside the heap path changes the protection on the range and nothing else if the
range is a mapped range of user pages in which nothing changes or nothing is reserved, and
is refused without any change otherwise.

SOURCE: mm/uspace/mmap.rs:319-416, mm/uspace/mmap.rs:598-613, mm/uspace/mmap.rs:844-1051, vma.rs:367-436 -/
theorem edits_refine_pageMap {s : UserSpace} (h : Registered L s) (range : VirtPageRange) :
    (∃ r s', s.unmapInner L range = .ok (r, s') ∧
      (s.RefusesUnmap L range → (∃ e, r = .error e) ∧ s' = s) ∧
      (¬ s.RefusesUnmap L range → r = .ok () ∧ s'.view = PageMap.clear s.view range)) ∧
    (∀ new : VmArea, new.reservation = none → ∃ r s', s.replaceRange L range new = .ok (r, s') ∧
        (new.range ≠ range ∨ s.RefusesUnmap L range → (∃ e, r = .error e) ∧ s' = s) ∧
        (new.range = range → ¬ s.RefusesUnmap L range →
          r = .ok () ∧ s'.view = PageMap.put (PageMap.clear s.view range) new)) ∧
    (∀ prot : Protection, ¬ s.OnHeapPath L range →
      ∃ r s', s.protectRange L range prot = .ok (r, s') ∧
        (¬ s.AllowsProtect L range prot → (∃ e, r = .error e) ∧ s' = s) ∧
        (s.AllowsProtect L range prot →
          r = .ok () ∧ s'.view = PageMap.protect s.view range prot)) := by
  have hm := h.registry.wellKeyed
  refine ⟨UserSpace.unmapInner_refines hm range, ?_, ?_⟩
  · intro new hres
    exact UserSpace.replaceRange_refines hm range hres
  · intro prot hheap
    exact UserSpace.protectRange_refines h range prot hheap

/-- The theorem at a range that starts in the middle of a mapping of eight pages. -/
theorem edits_refine_pageMap_sample : ∃ s : UserSpace, Registered .sv39 s ∧
    s.view 3000005 = some ⟨.anon 2 8, 5, .rw, .copyOnWrite, none⟩ ∧
    ∃ r s', s.unmapInner .sv39 ⟨3000002, 3⟩ = .ok (r, s') ∧
      (s.RefusesUnmap .sv39 ⟨3000002, 3⟩ → (∃ e, r = .error e) ∧ s' = s) ∧
      (¬ s.RefusesUnmap .sv39 ⟨3000002, 3⟩ →
        r = .ok () ∧ s'.view = PageMap.clear s.view ⟨3000002, 3⟩) := by
  have hrun : (do
      let s₀ ← UserSpace.new .sv39 0 1
      let (_, s) ← s₀.mapAnonymous .sv39 2 ⟨some (3000000, true), false, 8, .rw, false, .empty⟩
      pure (s.view 3000005) : Checked (Option PageView)) =
        .ok (some ⟨.anon 2 8, 5, .rw, .copyOnWrite, none⟩) := by decide +kernel
  simp only [Checked.bind_eq_ok] at hrun
  obtain ⟨s₀, hnew, ⟨_, s⟩, hmap, hview⟩ := hrun
  have hreg : Registered .sv39 s := (registered_of_new hnew).step (.mapAnonymous _ _ hmap)
  exact ⟨s, hreg, Except.ok.inj hview, (edits_refine_pageMap hreg ⟨3000002, 3⟩).1⟩

/-- One page mapped read-only right above the heap.  The range of the last heap page and
this one is mapped, and the only area of it with another protection is not reserved, yet
making the range writable is refused, because the heap is in it. -/
theorem protectRange_refuses_unchanged_heap : ∃ s : UserSpace, Registered .sv39 s ∧
    ¬ s.OnHeapPath .sv39 ⟨1048576, 2⟩ ∧ PageMap.Covers s.view ⟨1048576, 2⟩ ∧
    s.Differs ⟨1048576, 2⟩ .rw ∧
    (∀ vpn v, VirtPageRange.contains ⟨1048576, 2⟩ vpn → s.view vpn = some v → v.prot ≠ .rw →
      v.reservation = none) ∧
    ∃ s', s.protectRange .sv39 ⟨1048576, 2⟩ .rw = .ok (.error .permissionDenied, s') := by
  have hrun : (do
      let s₀ ← UserSpace.new .sv39 0 1
      let m ← s₀.mapAnonymous .sv39 2
        ⟨some (1048577, true), false, 1, ⟨true, false, false⟩, false, .empty⟩
      let r ← m.2.protectRange .sv39 ⟨1048576, 2⟩ .rw
      pure (pageUp m.2.heap.brk, m.2.view 1048576, m.2.view 1048577, r.1) :
      Checked (ℕ × Option PageView × Option PageView × Except SysError Unit)) =
        .ok (1, some ⟨.anon 1 1048576, 1048575, .rw, .copyOnWrite, some .heap⟩,
          some ⟨.anon 2 1, 0, ⟨true, false, false⟩, .copyOnWrite, none⟩,
          .error .permissionDenied) := by decide +kernel
  simp only [Checked.bind_eq_ok] at hrun
  obtain ⟨s₀, hnew, ⟨_, s⟩, hmap, ⟨r, s'⟩, hprotect, hdata⟩ := hrun
  have hreg : Registered .sv39 s := (registered_of_new hnew).step (.mapAnonymous _ _ hmap)
  simp only [Checked.pure_eq, Except.ok.injEq, Prod.mk.injEq] at hdata
  obtain ⟨hbrk, hheap, hpage, hr⟩ := hdata
  have hcases : ∀ vpn, VirtPageRange.contains ⟨1048576, 2⟩ vpn → vpn = 1048576 ∨ vpn = 1048577 := by
    intro vpn hin
    simp only [VirtPageRange.contains, VirtPageRange.stop] at hin
    omega
  refine ⟨s, hreg, ?_, ?_, ?_, ?_, s', ?_⟩
  · rintro ⟨-, hle⟩
    rw [hbrk] at hle
    simp [VirtPageRange.stop] at hle
  · intro vpn hin
    rcases hcases vpn hin with rfl | rfl
    · rw [hheap]; simp
    · rw [hpage]; simp
  · exact ⟨1048577, _, ⟨by decide, by decide⟩, hpage, by decide⟩
  · intro vpn v hin hv hprot
    rcases hcases vpn hin with rfl | rfl
    · rw [hheap] at hv
      cases hv
      exact absurd rfl hprot
    · rw [hpage] at hv
      cases hv
      rfl
  · rw [← hr]
    exact hprotect

end Anemone.Uspace
