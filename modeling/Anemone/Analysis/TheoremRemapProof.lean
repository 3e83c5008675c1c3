import Anemone.Analysis.RemapMoves
import Anemone.Analysis.TheoremPageMapProof

/-!
# When a remapping is right

A move runs one script: clear the target, clear the source, put the moved areas in.  Both
clearings are composed against the map before the call.  An area that meets both ranges is cut
by the first one: if the source ends where the target begins the second one panics, and if the
target lies below the source it misses the area, which has moved to another key.
-/

namespace Anemone.Uspace

open Checked (ok_bind bind_eq_ok pure_eq assert_of expect_some)
open Ranges.VirtPageRange Option

open Ranges (VirtPageRange)
open Extents (WellKeyed Over)

variable {L : Layout}

/-- The page maps before and after a remapping that ends up at `targetStart`. -/
structure Remapped (before after : PageMap) (object : ℕ) (mapping : RemapMapping)
    (targetStart : ℕ) : Prop where
  fixed : ∀ vpn, mapping.fixedTarget = some vpn → targetStart = vpn
  kept : ∀ i < min mapping.oldRange.npages mapping.newNpages,
    ∃ v, before (mapping.oldRange.start + i) = some v ∧ after (targetStart + i) = some v
  tail : ∀ i, mapping.oldRange.npages ≤ i → i < mapping.newNpages →
    ∃ last, before (mapping.oldRange.stop - 1) = some last ∧ after (targetStart + i) = some
        ⟨.anon object (mapping.newNpages - mapping.oldRange.npages),
          i - mapping.oldRange.npages, last.prot, last.onFork, none⟩
  cleared : ∀ vpn, mapping.oldRange.contains vpn →
    ¬ VirtPageRange.contains ⟨targetStart, mapping.newNpages⟩ vpn → after vpn = none
  other : ∀ vpn, ¬ mapping.oldRange.contains vpn →
    ¬ VirtPageRange.contains ⟨targetStart, mapping.newNpages⟩ vpn → after vpn = before vpn

namespace UserSpace

/-- The call returns, without a change on an error and with the pages moved otherwise. -/
def RemapsProperly (L : Layout) (s : UserSpace) (object : ℕ) (mapping : RemapMapping) : Prop :=
  ∃ r s', s.remapRange L object mapping = .ok (r, s') ∧ (∀ e, r = .error e → s' = s) ∧
    ∀ addr, r = .ok addr → ∃ targetStart, addr = toVirtAddr targetStart ∧
      Remapped s.view s'.view object mapping targetStart

def RefusesMove (L : Layout) (s : UserSpace) (mapping : RemapMapping) (targetStart : ℕ) : Prop :=
  mapping.newNpages = 0 ∨ s.RefusesUnmap L mapping.oldRange ∨
    s.RefusesUnmap L ⟨targetStart, mapping.newNpages⟩ ∨
    VirtPageRange.intersects ⟨targetStart, mapping.newNpages⟩ mapping.oldRange ∨
    ¬ PageMap.Covers s.view ⟨mapping.oldRange.start, min mapping.oldRange.npages mapping.newNpages⟩

def Straddles (s : UserSpace) (target old : VirtPageRange) : Prop :=
  ∃ (k : ℕ) (a : VmArea), s.vmas[k]? = some a ∧ a.range.intersects target ∧ a.range.intersects old

/-- What the script of a move to `targetStart` puts in. -/
structure Gathered (s : UserSpace) (object : ℕ) (mapping : RemapMapping) (targetStart : ℕ)
    (areas : List VmArea) : Prop where
  unreserved : ∀ b ∈ areas, b.reservation = none
  inside : ∀ b ∈ areas, targetStart ≤ b.range.start ∧ b.range.start < b.range.stop ∧
    b.range.stop ≤ targetStart + mapping.newNpages
  apart : areas.Pairwise fun b c => b.range.stop ≤ c.range.start
  kept : ∀ i < min mapping.oldRange.npages mapping.newNpages,
    ∃ v, s.view (mapping.oldRange.start + i) = some v ∧
      ∃ b ∈ areas, Over b (targetStart + i) ∧ b.view (targetStart + i) = v
  tail : ∀ i, mapping.oldRange.npages ≤ i → i < mapping.newNpages →
    ∃ last, s.view (mapping.oldRange.stop - 1) = some last ∧
      ∃ b ∈ areas, Over b (targetStart + i) ∧ b.view (targetStart + i) =
        ⟨.anon object (mapping.newNpages - mapping.oldRange.npages),
          i - mapping.oldRange.npages, last.prot, last.onFork, none⟩

variable {s : UserSpace} (hm : WellKeyed s.vmas) {object : ℕ} {mapping : RemapMapping}
  {targetStart : ℕ}

include hm

/-- **A covered source without reservations is gathered**, with a tail behind it if
the mapping grows. -/
theorem growMoved_spec (object targetStart : ℕ) (hold : mapping.oldRange.npages ≠ 0)
    (hnew : mapping.newNpages ≠ 0)
    (hcovers : PageMap.Covers s.view
      ⟨mapping.oldRange.start, min mapping.oldRange.npages mapping.newNpages⟩)
    (hres : ¬ HasReserved (s.findIntersectionStarts
      ⟨mapping.oldRange.start, min mapping.oldRange.npages mapping.newNpages⟩)) :
    ∃ areas, growMoved object mapping.oldRange.npages mapping.newNpages targetStart
        (s.movedAreas ⟨mapping.oldRange.start,
          min mapping.oldRange.npages mapping.newNpages⟩ targetStart) = .ok areas ∧
      s.Gathered object mapping targetStart areas := by
  obtain ⟨old, newNpages, mayMove, fixedTarget⟩ := mapping
  simp only at *
  have hsource : start ⟨old.start, min old.npages newNpages⟩ <
      stop ⟨old.start, min old.npages newNpages⟩ := by
    simp only [stop]
    omega
  have hrange := movedAreas_range hm hsource targetStart
  have hpairwise := movedAreas_pairwise hm hsource targetStart
  have hfree := movedAreas_unreserved targetStart hres
  have hkept : ∀ i < min old.npages newNpages, ∃ v, s.view (old.start + i) = some v ∧
      ∃ b ∈ s.movedAreas ⟨old.start, min old.npages newNpages⟩ targetStart,
        Over b (targetStart + i) ∧ b.view (targetStart + i) = v := by
    intro i hi
    have hin : contains ⟨old.start, min old.npages newNpages⟩ (old.start + i) := by
      simp only [contains, stop]
      omega
    obtain ⟨v, hv⟩ := ne_none_iff_exists'.mp (hcovers _ hin)
    exact ⟨v, hv, exists_movedAreas hm hsource targetStart hin hv⟩
  unfold growMoved
  by_cases hgrow : newNpages > old.npages
  · have hmin : min old.npages newNpages = old.npages := by omega
    rw [hmin] at hsource hrange hpairwise hfree hkept hcovers ⊢
    obtain ⟨last, hlast⟩ := ne_none_iff_exists'.mp (hcovers (old.stop - 1) (by
      simp only [contains, stop]
      omega))
    obtain ⟨template, htemplate, hprot, hfork⟩ := getLast_movedAreas hm hsource targetStart hlast
    let area := anonymousTailFromTemplate object template
      ⟨targetStart + old.npages, newNpages - old.npages⟩
    refine ⟨s.movedAreas old targetStart ++ [area], ?_, ?_, ?_, ?_, ?_, ?_⟩
    · rw [if_pos hgrow, htemplate]
      rfl
    · intro b hb
      rcases List.mem_append.mp hb with hb | hb
      · exact hfree b hb
      · cases List.mem_singleton.mp hb
        rfl
    · intro b hb
      rcases List.mem_append.mp hb with hb | hb
      · have := hrange b hb
        simp only at this ⊢
        omega
      · cases List.mem_singleton.mp hb
        simp only [area, anonymousTailFromTemplate, VmArea.new, stop]
        omega
    · rw [List.pairwise_append]
      refine ⟨hpairwise, List.pairwise_singleton _ _, ?_⟩
      intro b hb c hc
      cases List.mem_singleton.mp hc
      exact (hrange b hb).2.2
    · intro i hi
      obtain ⟨v, hv, b, hb, hfound⟩ := hkept i (by simpa [hmin] using hi)
      exact ⟨v, hv, b, List.mem_append_left _ hb, hfound⟩
    · intro i hlo hhi
      refine ⟨last, hlast, area, by simp, ?_, ?_⟩
      · change targetStart + old.npages ≤ _ ∧ _ < targetStart + old.npages +
          (newNpages - old.npages)
        simp only at hlo hhi
        omega
      · have hpidx : area.vmoPidx (targetStart + i) = i - old.npages := by
          simp only [area, VmArea.vmoPidx, anonymousTailFromTemplate, VmArea.new]
          omega
        unfold VmArea.view
        rw [hpidx, ← hprot, ← hfork]
        rfl
  · rw [if_neg hgrow]
    refine ⟨_, rfl, hfree, ?_, hpairwise, hkept, ?_⟩
    · intro b hb
      have := hrange b hb
      simp only at this ⊢
      omega
    · intro i hlo hhi
      simp only at hlo hhi
      omega

def moveScript (s : UserSpace) (mapping : RemapMapping) (targetStart : ℕ)
    (areas : List VmArea) : List VmOperation :=
  ((s.findIntersectionStarts ⟨targetStart, mapping.newNpages⟩).flatMap fun e =>
      unmapOps ⟨targetStart, mapping.newNpages⟩ e.1 e.2) ++
    ((s.findIntersectionStarts mapping.oldRange).flatMap fun e =>
      unmapOps mapping.oldRange e.1 e.2) ++ areas.map .insert

theorem clearTarget_of_free (fixed : Bool) {target : VirtPageRange}
    (hfree : fixed = false → ∀ (k : ℕ) (a : VmArea), s.vmas[k]? = some a →
      ¬ a.range.intersects target)
    (hvalid : validateRange L target = .ok ()) :
    s.clearTarget L fixed target = s.composeUnmapRange L target := by
  cases fixed with
  | true => rfl
  | false =>
    have hnone : s.findIntersectionStarts target = [] := by
      apply List.eq_nil_iff_forall_not_mem.mpr
      rintro ⟨k, a⟩ he
      obtain ⟨ha, hmeet⟩ := (mem_findIntersectionStarts hm).mp he
      exact hfree rfl k a ha hmeet
    unfold clearTarget composeUnmapRange
    rw [hvalid, hnone]
    rfl

/-- **A move is refused or runs its script.** -/
theorem moveTo_cases (object targetStart : ℕ)
    (hold : validateRange L mapping.oldRange = .ok ()) (hnew : mapping.newNpages ≠ 0)
    (hfree : mapping.fixedTarget.isSome = false → mapping.oldRange.npages ≤ mapping.newNpages ∧
      ∀ (k : ℕ) (a : VmArea), s.vmas[k]? = some a →
        ¬ a.range.intersects ⟨targetStart, mapping.newNpages⟩) :
    (s.RefusesMove L mapping targetStart ∧
        ∃ e, s.moveTo L object mapping targetStart = .ok (.error e, s)) ∨
      (¬ s.RefusesMove L mapping targetStart ∧
        ∃ areas, s.Gathered object mapping targetStart areas ∧
          s.moveTo L object mapping targetStart = (do
            let s' ← s.runTransaction (s.moveScript mapping targetStart areas)
            pure (.ok (toVirtAddr targetStart), s'))) := by
  obtain ⟨holdNe, holdTop, holdZero⟩ := validateRange_eq_ok.mp hold
  unfold moveTo
  simp only
  cases hvalid : validateRange L ⟨targetStart, mapping.newNpages⟩ with
  | error e =>
    left
    refine ⟨.inr (.inr (.inl (refusesUnmap_iff.mpr (.inl ?_)))), e, rfl⟩
    rw [hvalid]
    simp
  | ok u =>
    by_cases hmeet : mapping.fixedTarget.isSome = true ∧
        intersects ⟨targetStart, mapping.newNpages⟩ mapping.oldRange
    · left
      rw [if_pos hmeet]
      exact ⟨.inr (.inr (.inr (.inl hmeet.2))), _, rfl⟩
    rw [if_neg hmeet]
    rcases collectMovableVmas_cases (L := L) hm
        ⟨mapping.oldRange.start, min mapping.oldRange.npages mapping.newNpages⟩ targetStart with
      ⟨hbad, e, he⟩ | ⟨⟨-, hcovers, hres⟩, hmoved⟩
    · left
      rw [he]
      refine ⟨?_, e, rfl⟩
      rcases hbad with hbad | hbad | ⟨vpn, v, hin, hv, hne⟩
      · exfalso
        apply hbad
        rw [validateRange_eq_ok]
        simp only [stop] at *
        omega
      · exact .inr (.inr (.inr (.inr hbad)))
      · refine .inr (.inl (.inr (.inr (.inr ⟨vpn, v, ?_, hv, hne⟩))))
        simp only [contains, stop] at *
        omega
    obtain ⟨areas, hgrow, hgathered⟩ :=
      growMoved_spec hm object targetStart holdNe hnew hcovers hres
    have hmoved' : s.collectMovableVmas L
        ⟨mapping.oldRange.start, min mapping.oldRange.npages mapping.newNpages⟩ targetStart =
          .ok (.ok (s.movedAreas ⟨mapping.oldRange.start,
            min mapping.oldRange.npages mapping.newNpages⟩ targetStart)) := hmoved
    rw [hmoved', ok_bind]
    simp only
    rw [hgrow, ok_bind, clearTarget_of_free hm _ (fun h => (hfree h).2) hvalid]
    rcases composeUnmapRange_cases (L := L) hm ⟨targetStart, mapping.newNpages⟩ with
      ⟨hbad, e, he⟩ | ⟨⟨-, htouchT⟩, hopsT, -⟩
    · left
      rw [he]
      exact ⟨.inr (.inr (.inl (refusesUnmap_iff.mpr hbad))), e, rfl⟩
    rcases composeUnmapRange_cases (L := L) hm mapping.oldRange with
      ⟨hbad, e, he⟩ | ⟨⟨-, htouchO⟩, hopsO, -⟩
    · left
      rw [hopsT, he]
      exact ⟨.inr (.inl (refusesUnmap_iff.mpr hbad)), e, rfl⟩
    right
    rw [hopsT, hopsO]
    refine ⟨?_, areas, hgathered, rfl⟩
    rintro (h | h | h | h | h)
    · exact hnew h
    · rcases refusesUnmap_iff.mp h with h | h
      · exact h hold
      · exact htouchO h
    · rcases refusesUnmap_iff.mp h with h | h
      · exact h hvalid
      · exact htouchT h
    · -- only a target that was searched for is not compared with the source
      cases hfixed : mapping.fixedTarget.isSome with
      | true => exact hmeet ⟨hfixed, h⟩
      | false =>
        obtain ⟨hle, hroom⟩ := hfree hfixed
        unfold intersects at h
        simp only [stop] at h
        obtain ⟨v, hv⟩ := ne_none_iff_exists'.mp
          (hcovers (max targetStart mapping.oldRange.start) (by
            simp only [contains, stop]
            omega))
        rw [view, viewOf_eq_look, hm.look_eq_some] at hv
        obtain ⟨k, a, ha, ⟨hlo, hhi⟩, -⟩ := hv
        change a.range.start ≤ _ at hlo
        change _ < a.range.stop at hhi
        apply hroom k a ha
        simp only [intersects, stop] at *
        omega
    · exact h hcovers

omit hm in
theorem of_not_refusesMove (h : ¬ s.RefusesMove L mapping targetStart) :
    validateRange L mapping.oldRange = .ok () ∧ ¬ PageMap.Touches s.view mapping.oldRange ∧
      validateRange L ⟨targetStart, mapping.newNpages⟩ = .ok () ∧
      ¬ PageMap.Touches s.view ⟨targetStart, mapping.newNpages⟩ ∧
      ¬ intersects ⟨targetStart, mapping.newNpages⟩ mapping.oldRange := by
  simp only [RefusesMove, refusesUnmap_iff, not_or, ne_eq, not_not] at h
  exact ⟨h.2.1.1, h.2.1.2, h.2.2.1.1, h.2.2.1.2, h.2.2.2.1⟩

/-- **The script of a move does what it should** if no area meets both ranges or
the source ends below the target. -/
theorem runTransaction_moveScript {areas : List VmArea}
    (hgathered : s.Gathered object mapping targetStart areas)
    (hallowed : ¬ s.RefusesMove L mapping targetStart)
    (hfixed : ∀ vpn, mapping.fixedTarget = some vpn → targetStart = vpn)
    (hsafe : ¬ s.Straddles ⟨targetStart, mapping.newNpages⟩ mapping.oldRange ∨
      mapping.oldRange.stop < targetStart) :
    ∃ s', s.runTransaction (s.moveScript mapping targetStart areas) = .ok s' ∧
      Remapped s.view s'.view object mapping targetStart := by
  obtain ⟨hold, htouchO, hvalid, htouchT, hapart⟩ := of_not_refusesMove hallowed
  have holdRange := start_lt_stop_of_valid hold
  have hresO : ¬ HasReserved (s.findIntersectionStarts mapping.oldRange) :=
    fun h => htouchO ((touches_iff hm holdRange).mpr h)
  obtain ⟨-, -, m₁, hrun₁, hwk₁, hview₁, hkeep, hbelow⟩ :=
    (composeUnmapRange_cases (L := L) hm _).resolve_left
      fun hbad => hbad.1.elim (absurd hvalid) (absurd · htouchT)
  have hsafe' : mapping.oldRange.stop < targetStart ∨ ∀ (k : ℕ) (a : VmArea), s.vmas[k]? = some a →
        a.range.intersects ⟨targetStart, mapping.newNpages⟩ →
        ¬ a.range.intersects mapping.oldRange := by
    rcases hsafe with h | h
    · exact .inr fun k a ha htarget hsource => h ⟨k, a, ha, htarget, hsource⟩
    · exact .inl h
  obtain ⟨m₂, hrun₂, hwk₂, hview₂⟩ :=
    runOps_clearBoth hm holdRange hapart hsafe' hresO hwk₁ hview₁ hkeep hbelow
  have hclear : ∀ vpn, contains ⟨targetStart, mapping.newNpages⟩ vpn →
      viewOf m₂ vpn = none := by
    intro vpn hin
    rw [hview₂]
    simp only [PageMap.clear, hin, if_true, ite_self]
  obtain ⟨m₃, hrun₃, hin, hout⟩ := runOps_install hwk₂ hclear hgathered.unreserved
    hgathered.inside hgathered.apart
  have hall : runOps s.vmas (s.moveScript mapping targetStart areas) = .ok m₃ := by
    unfold moveScript
    rw [runOps_append, runOps_append, hrun₁, ok_bind, hrun₂, ok_bind, hrun₃]
  obtain ⟨s', hs', hvmas⟩ := runTransaction_of_runOps hall
  have hview : s'.view = viewOf m₃ := by
    rw [← hvmas]
    rfl
  refine ⟨s', hs', hfixed, ?_, ?_, ?_, ?_⟩
  · intro i hi
    obtain ⟨v, hv, b, hb, hover, rfl⟩ := hgathered.kept i hi
    exact ⟨_, hv, hview ▸ hin b hb _ hover⟩
  · intro i hlo hhi
    obtain ⟨last, hlast, b, hb, hover, hsay⟩ := hgathered.tail i hlo hhi
    refine ⟨last, hlast, ?_⟩
    rw [hview, hin b hb _ hover, hsay]
  · intro vpn hsource htarget
    rw [hview, hout vpn htarget, hview₂]
    simp only [PageMap.clear, hsource, if_true]
  · intro vpn hsource htarget
    rw [hview, hout vpn htarget, hview₂]
    simp only [PageMap.clear, hsource, htarget, if_false]

section Straddling

variable {areas : List VmArea} (hgathered : s.Gathered object mapping targetStart areas)
  (hallowed : ¬ s.RefusesMove L mapping targetStart) {k : ℕ} {a : VmArea}
  (ha : s.vmas[k]? = some a) (htarget : a.range.intersects ⟨targetStart, mapping.newNpages⟩)
  (hsource : a.range.intersects mapping.oldRange) {m' : OrderedMap VmArea}
  (hrun : runOps s.vmas (s.moveScript mapping targetStart areas) = .ok m')

include hgathered hallowed ha htarget hsource hrun

/-- **A target below the source hides the rest of the area from the second
clearing**: the first page of the source is mapped after the script. -/
theorem moveScript_misses_source (hbelow : targetStart + mapping.newNpages ≤
    mapping.oldRange.start) : viewOf m' mapping.oldRange.start ≠ none := by
  obtain ⟨-, -, hvalid, htouch, -⟩ := of_not_refusesMove hallowed
  obtain ⟨-, -, m₁, hrun₁, hwk₁, hview₁, -, -⟩ :=
    (composeUnmapRange_cases (L := L) hm _).resolve_left
      fun hbad => hbad.1.elim (absurd hvalid) (absurd · htouch)
  have hnew : mapping.newNpages ≠ 0 := (validateRange_eq_ok.mp hvalid).1
  simp only [intersects, stop] at htarget hsource
  have hover : Over a mapping.oldRange.start := by
    change a.range.start ≤ _ ∧ _ < a.range.start + a.range.npages
    omega
  have hfirst : viewOf m₁ mapping.oldRange.start = some (a.view mapping.oldRange.start) := by
    have hout : ¬ contains ⟨targetStart, mapping.newNpages⟩
        mapping.oldRange.start := by
      simp only [contains, stop]
      omega
    rw [hview₁, PageMap.clear, if_neg hout, view, viewOf_eq_look]
    exact hm.look_eq_some.mpr ⟨k, a, ha, hover, rfl⟩
  rw [viewOf_eq_look, hwk₁.look_eq_some] at hfirst
  obtain ⟨j, w, hw, hoverW, -⟩ := hfirst
  have hkeyW : w.range.start = j := hwk₁.key j w hw
  have hloW : w.range.start ≤ mapping.oldRange.start := hoverW.1
  have hhiW : mapping.oldRange.start < w.range.stop := hoverW.2
  have hnamed : ∀ b, (j, b) ∉ s.findIntersectionStarts mapping.oldRange := by
    intro b hb
    obtain ⟨hget, hmeet⟩ := (mem_findIntersectionStarts hm).mp hb
    have hkeyB : b.range.start = j := hm.key j b hget
    have hoverB : Over b mapping.oldRange.start := by
      change b.range.start ≤ _ ∧ _ < b.range.stop
      exact ⟨by omega, hmeet.2⟩
    have hkj : j = k := hm.unique hget ha hoverB hover
    have hkeyA : a.range.start = k := hm.key k a ha
    have hpage : contains ⟨targetStart, mapping.newNpages⟩
        (max a.range.start targetStart) := by
      simp only [contains, stop]
      omega
    have hcleared : viewOf m₁ (max a.range.start targetStart) = none := by
      rw [hview₁, PageMap.clear, if_pos hpage]
    rw [viewOf_eq_look, hwk₁.look_eq_none] at hcleared
    apply hcleared j w hw
    change w.range.start ≤ _ ∧ _ < w.range.stop
    omega
  have hrest : runOps m₁ (((s.findIntersectionStarts mapping.oldRange).flatMap fun e =>
      unmapOps mapping.oldRange e.1 e.2) ++ areas.map .insert) = .ok m' := by
    unfold moveScript at hrun
    rw [List.append_assoc, runOps_append, hrun₁] at hrun
    exact hrun
  obtain ⟨hwk', hkept⟩ := runOps_keeps hwk₁ hrest (k := j) (v := w) (by
      intro b hb
      rcases List.mem_append.mp hb with hb | hb
      · exact absurd hb (not_insert_mem_unmapScript b)
      · obtain ⟨c, hc, hcb⟩ := List.mem_map.mp hb
        cases hcb
        exact (hgathered.inside b hc).2.1)
    (by
      intro op hop htargets
      rcases List.mem_append.mp hop with hop | hop
      · obtain ⟨b, hb⟩ := target_of_mem_unmapScript hop htargets
        exact hnamed b hb
      · obtain ⟨c, -, rfl⟩ := List.mem_map.mp hop
        cases htargets) hw
  intro hnone
  rw [viewOf_eq_look, hwk'.look_eq_none] at hnone
  exact hnone j w hkept hoverW

omit hgathered in
/-- **A target right above the source cuts the area where the source ends**, and
clearing the source panics. -/
theorem moveScript_panics (habove : mapping.oldRange.stop = targetStart) : False := by
  obtain ⟨-, -, hvalid, htouch, -⟩ := of_not_refusesMove hallowed
  obtain ⟨-, -, m₁, hrun₁, hwk₁, -, -, hbelow⟩ :=
    (composeUnmapRange_cases (L := L) hm _).resolve_left
      fun hbad => hbad.1.elim (absurd hvalid) (absurd · htouch)
  have hlower : m₁[k]? = some (a.below mapping.oldRange.stop) := by
    rw [habove]
    exact hbelow k a ha htarget (habove ▸ hsource.1)
  unfold moveScript at hrun
  rw [List.append_assoc, runOps_append, hrun₁, ok_bind] at hrun
  obtain ⟨front, back, hes⟩ :=
    List.append_of_mem ((mem_findIntersectionStarts hm).mpr ⟨ha, hsource⟩)
  have hsorted := s.findIntersectionStarts_pairwise mapping.oldRange
  rw [hes] at hrun hsorted
  rw [List.flatMap_append, List.flatMap_cons, List.append_assoc, List.append_assoc,
    runOps_append] at hrun
  obtain ⟨m₂, hrun₂, hrun⟩ := bind_eq_ok.mp hrun
  rw [runOps_append] at hrun
  obtain ⟨m₃, hrun₃, -⟩ := bind_eq_ok.mp hrun
  obtain ⟨-, hkept⟩ := runOps_keeps hwk₁ hrun₂
    (fun b hb => absurd hb (not_insert_mem_unmapScript b))
    (by
      intro op hop hnames
      obtain ⟨b, hb⟩ := target_of_mem_unmapScript hop hnames
      have hlt := (List.pairwise_append.mp hsorted).2.2 _ hb _ List.mem_cons_self
      exact Nat.lt_irrefl k hlt) hlower
  have hpast : mapping.oldRange.stop < a.range.stop := habove ▸ htarget.2
  exact runOp_unmapOps_panics hsource hpast hkept hrun₃

end Straddling

variable {old : VirtPageRange} {mayMove : Bool} {newNpages : ℕ}

omit hm in
theorem remapped_refl (hcovers : PageMap.Covers s.view old) :
    Remapped s.view s.view object ⟨old, old.npages, mayMove, none⟩ old.start where
  fixed := by simp
  kept i hi := by
    obtain ⟨v, hv⟩ := ne_none_iff_exists'.mp (hcovers (old.start + i) (by
      simp only [contains, stop, min_self] at hi ⊢
      omega))
    exact ⟨v, hv, hv⟩
  tail i hlo hhi := absurd hhi (Nat.not_lt.mpr hlo)
  cleared vpn hin hout := absurd hin hout
  other _ _ _ := rfl

omit hm in
theorem remapped_shrink (hlt : newNpages < old.npages) (hcovers : PageMap.Covers s.view old) :
    Remapped s.view (PageMap.clear s.view ⟨old.start + newNpages, old.npages - newNpages⟩)
      object ⟨old, newNpages, mayMove, none⟩ old.start where
  fixed := by simp
  kept i hi := by
    obtain ⟨v, hv⟩ := ne_none_iff_exists'.mp (hcovers (old.start + i) (by
      simp only [contains, stop] at hi ⊢
      omega))
    refine ⟨v, hv, ?_⟩
    rw [PageMap.clear, if_neg]
    · exact hv
    · simp only [contains, stop] at hi ⊢
      omega
  tail i hlo hhi := absurd (hlt.trans_le hlo) (Nat.not_lt.mpr (Nat.le_of_lt hhi))
  cleared vpn hin hout := by
    rw [PageMap.clear, if_pos]
    simp only [contains, stop] at hin hout ⊢
    omega
  other vpn hin hout := by
    rw [PageMap.clear, if_neg]
    simp only [contains, stop] at hin hout ⊢
    omega

omit hm in
theorem remapped_grow (hlt : old.npages < newNpages) (hcovers : PageMap.Covers s.view old)
    {template : VmArea} {last : PageView} (hlast : s.view (old.stop - 1) = some last)
    (hprot : template.prot = last.prot) (hfork : template.onFork = last.onFork) :
    Remapped s.view (PageMap.put s.view (anonymousTailFromTemplate object template
        ⟨old.stop, newNpages - old.npages⟩))
      object ⟨old, newNpages, mayMove, none⟩ old.start where
  fixed := by simp
  kept i hi := by
    obtain ⟨v, hv⟩ := ne_none_iff_exists'.mp (hcovers (old.start + i) (by
      simp only [contains, stop] at hi ⊢
      omega))
    refine ⟨v, hv, ?_⟩
    rw [PageMap.put, if_neg]
    · exact hv
    · simp only [anonymousTailFromTemplate, VmArea.new, contains, stop] at hi ⊢
      omega
  tail i hlo hhi := by
    refine ⟨last, hlast, ?_⟩
    rw [PageMap.put, if_pos]
    · have hpidx : (anonymousTailFromTemplate object template
          ⟨old.stop, newNpages - old.npages⟩).vmoPidx (old.start + i) = i - old.npages := by
        simp only [VmArea.vmoPidx, anonymousTailFromTemplate, VmArea.new, stop]
        omega
      unfold VmArea.view
      rw [hpidx, ← hprot, ← hfork]
      rfl
    · simp only [anonymousTailFromTemplate, VmArea.new, contains, stop] at hlo hhi ⊢
      omega
  cleared vpn hin hout := by
    simp only [contains, stop] at hin hout
    omega
  other vpn hin hout := by
    rw [PageMap.put, if_neg]
    simp only [anonymousTailFromTemplate, VmArea.new, contains, stop] at hin hout ⊢
    omega

/-- **What stays in place is right.** -/
theorem remapInPlace_cases (object : ℕ)
    (hold : validateRange L mapping.oldRange = .ok ()) (hnew : mapping.newNpages ≠ 0)
    (hfixed : mapping.fixedTarget = none) :
    (s.remapInPlace L object mapping = .ok none ∧ mapping.oldRange.npages < mapping.newNpages) ∨
      ∃ r s', s.remapInPlace L object mapping = .ok (some (r, s')) ∧ (∀ e, r = .error e → s' = s) ∧
        ∀ addr, r = .ok addr → addr = toVirtAddr mapping.oldRange.start ∧
          Remapped s.view s'.view object mapping mapping.oldRange.start := by
  obtain ⟨old, newNpages, mayMove, fixedTarget⟩ := mapping
  simp only at *
  obtain ⟨holdNe, holdTop, holdZero⟩ := validateRange_eq_ok.mp hold
  have holdRange := start_lt_stop_of_valid hold
  subst hfixed
  unfold remapInPlace
  by_cases hle : newNpages ≤ old.npages
  · right
    rw [if_pos hle]
    rcases collectMovableVmas_cases (L := L) hm old old.start with
      ⟨-, e, he⟩ | ⟨⟨-, hcovers, hres⟩, hmoved⟩
    · rw [he]
      exact ⟨_, s, rfl, fun _ _ => rfl, by rintro _ ⟨⟩⟩
    rw [hmoved, ok_bind]
    simp only
    by_cases heq : newNpages = old.npages
    · rw [if_pos heq]
      refine ⟨_, s, rfl, fun _ _ => rfl, fun addr h => ⟨(Except.ok.inj h).symm, ?_⟩⟩
      rw [heq]
      exact remapped_refl hcovers
    · rw [if_neg heq]
      obtain ⟨r, s', hcall, -, hdone⟩ := unmapInner_refines (L := L) hm
        ⟨old.start + newNpages, old.npages - newNpages⟩
      have hallowed : ¬ s.RefusesUnmap L ⟨old.start + newNpages, old.npages - newNpages⟩ := by
        rw [refusesUnmap_iff, not_or, ne_eq, not_not, validateRange_eq_ok]
        constructor
        · simp only [stop] at *
          omega
        · rintro ⟨vpn, v, hin, hv, hne⟩
          apply hres
          rw [← touches_iff hm holdRange]
          refine ⟨vpn, v, ?_, hv, hne⟩
          simp only [contains, stop] at hin ⊢
          omega
      obtain ⟨rfl, hview⟩ := hdone hallowed
      rw [hcall, ok_bind]
      refine ⟨.ok (toVirtAddr old.start), s', rfl, by rintro _ ⟨⟩,
        fun addr h => ⟨(Except.ok.inj h).symm, ?_⟩⟩
      rw [hview]
      exact remapped_shrink (by omega) hcovers
  · rw [if_neg hle]
    by_cases havail : s.isRangeAvail L ⟨old.stop, newNpages - old.npages⟩ = true
    · right
      rw [if_pos havail]
      rcases collectMovableVmas_cases (L := L) hm old old.start with
        ⟨-, e, he⟩ | ⟨⟨-, hcovers, hres⟩, hmoved⟩
      · rw [he]
        exact ⟨_, s, rfl, fun _ _ => rfl, by rintro _ ⟨⟩⟩
      obtain ⟨last, hlast⟩ := ne_none_iff_exists'.mp (hcovers (old.stop - 1) (by
        unfold contains
        omega))
      obtain ⟨template, htemplate, hprot, hfork⟩ := getLast_movedAreas hm holdRange old.start hlast
      unfold movedAreas at htemplate
      obtain ⟨s', hins, hview, -, -⟩ := insertVma_of_avail (L := L) hm
        (a := anonymousTailFromTemplate object template ⟨old.stop, newNpages - old.npages⟩) havail
      rw [hmoved, ok_bind]
      simp only
      rw [htemplate, expect_some, ok_bind, hins, ok_bind]
      refine ⟨.ok (toVirtAddr old.start), s', rfl, by rintro _ ⟨⟩,
        fun addr h => ⟨(Except.ok.inj h).symm, ?_⟩⟩
      rw [hview]
      exact remapped_grow (by omega) hcovers hlast hprot hfork
    · rw [if_neg havail]
      cases mayMove with
      | true => exact .inl ⟨rfl, by omega⟩
      | false => exact .inr ⟨_, s, rfl, fun _ _ => rfl, by rintro _ ⟨⟩⟩

end UserSpace

/-- **When a remapping is right.**  For every address space that keeps the registry and
every call: the call returns, an error changes nothing, and a success moves exactly the
pages it should, if and only if, when a target is given, the move is refused, or no area
meets both target and source, or the source ends below the target with a page between them.

SOURCE: mm/uspace/mmap.rs:449-534, mm/uspace/mmap.rs:769-828, mm/uspace/mmap.rs:953-1050 -/
theorem remapRange_proper_iff {s : UserSpace} (h : Registered L s) (object : ℕ)
    (mapping : RemapMapping) :
    s.RemapsProperly L object mapping ↔ ∀ targetStart, mapping.fixedTarget = some targetStart →
        s.RefusesMove L mapping targetStart ∨
        ¬ s.Straddles ⟨targetStart, mapping.newNpages⟩ mapping.oldRange ∨
        mapping.oldRange.stop < targetStart := by
  have hm := h.registry.wellKeyed
  unfold UserSpace.RemapsProperly UserSpace.remapRange
  cases hold : UserSpace.validateRange L mapping.oldRange with
  | error e =>
    refine ⟨fun _ _ _ => .inl (.inr (.inl (UserSpace.refusesUnmap_iff.mpr (.inl ?_)))),
      fun _ => ⟨_, s, rfl, fun _ _ => rfl, by rintro _ ⟨⟩⟩⟩
    rw [hold]
    simp
  | ok u =>
  by_cases hnew : mapping.newNpages = 0
  · rw [if_pos hnew]
    exact ⟨fun _ _ _ => .inl (.inl hnew), fun _ => ⟨_, s, rfl, fun _ _ => rfl, by rintro _ ⟨⟩⟩⟩
  rw [if_neg hnew]
  cases hfixed : mapping.fixedTarget with
  | some targetStart =>
    simp only [Option.some.injEq, forall_eq']
    rcases UserSpace.moveTo_cases (L := L) hm object targetStart hold hnew
        (fun hno => by rw [hfixed] at hno; cases hno) with
      ⟨hbad, e, he⟩ | ⟨hallowed, areas, hgathered, hmove⟩
    · rw [he]
      exact ⟨fun _ => .inl hbad, fun _ => ⟨_, s, rfl, fun _ _ => rfl, by rintro _ ⟨⟩⟩⟩
    rw [hmove]
    constructor
    · rintro ⟨r, s', hcall, -, hdone⟩
      right
      by_contra hno
      obtain ⟨hstraddles, hclose⟩ := not_or.mp hno
      obtain ⟨k, a, ha, htarget, hsource⟩ := not_not.mp hstraddles
      obtain ⟨t, hrun, ht⟩ := bind_eq_ok.mp hcall
      cases ht
      obtain ⟨m', hops, rfl⟩ := UserSpace.runTransaction_eq_ok.mp hrun
      obtain ⟨addr, -, hremapped⟩ := hdone _ rfl
      obtain ⟨-, -, -, -, hapart⟩ := UserSpace.of_not_refusesMove hallowed
      have haddr := hremapped.fixed targetStart hfixed
      subst haddr
      have hrange := UserSpace.start_lt_stop_of_valid hold
      simp only [VirtPageRange.intersects, VirtPageRange.stop] at hapart hclose hrange
      by_cases hbelow : addr + mapping.newNpages ≤ mapping.oldRange.start
      · -- the first page of the source would have to be gone
        apply UserSpace.moveScript_misses_source hm hgathered hallowed ha htarget hsource hops hbelow
        apply hremapped.cleared
        all_goals
          simp only [VirtPageRange.contains, VirtPageRange.stop]
          omega
      · refine UserSpace.moveScript_panics hm hallowed ha htarget hsource hops ?_
        simp only [VirtPageRange.stop]
        omega
    · rintro (hbad | hsafe)
      · exact absurd hbad hallowed
      obtain ⟨s', hrun, hremapped⟩ := UserSpace.runTransaction_moveScript hm hgathered hallowed
        (fun vpn hvpn => Option.some.inj (hfixed.symm.trans hvpn)) hsafe
      rw [hrun]
      exact ⟨_, s', rfl, by rintro _ ⟨⟩,
        fun addr h => ⟨targetStart, (Except.ok.inj h).symm, hremapped⟩⟩
  | none =>
    simp only [reduceCtorEq, false_implies, implies_true, iff_true]
    rcases UserSpace.remapInPlace_cases (L := L) hm object hold hnew hfixed with
      ⟨hmoves, hgrows⟩ | ⟨r, s', hstays, herr, hdone⟩
    · rw [hmoves, ok_bind]
      have hsearch : ∃ found, s.findAvailRange L mapping.newNpages none = .ok found :=
        ⟨_, bind_eq_ok.mpr ⟨(), assert_of _ hnew, rfl⟩⟩
      obtain ⟨found, hfound⟩ := hsearch
      rw [hfound, ok_bind]
      cases found with
      | none => exact ⟨_, s, rfl, fun _ _ => rfl, by rintro _ ⟨⟩⟩
      | some targetStart =>
        simp only
        have hfree := UserSpace.findAvailRange_none_free h.registry hfound
        rcases UserSpace.moveTo_cases (L := L) hm object targetStart hold hnew
            (fun _ => ⟨Nat.le_of_lt hgrows, hfree⟩) with
          ⟨-, e, he⟩ | ⟨hallowed, areas, hgathered, hmove⟩
        · rw [he]
          exact ⟨_, s, rfl, fun _ _ => rfl, by rintro _ ⟨⟩⟩
        · obtain ⟨s', hrun, hremapped⟩ := UserSpace.runTransaction_moveScript hm hgathered
            hallowed (fun vpn hvpn => by rw [hfixed] at hvpn; cases hvpn)
            (.inl (by rintro ⟨k, a, ha, htarget, -⟩; exact hfree k a ha htarget))
          rw [hmove, hrun]
          exact ⟨_, s', rfl, by rintro _ ⟨⟩,
            fun addr h => ⟨targetStart, (Except.ok.inj h).symm, hremapped⟩⟩
    · rw [hstays, ok_bind]
      exact ⟨r, s', rfl, herr, fun addr h => ⟨_, hdone addr h⟩⟩

/-- The theorem at a mapping of twenty pages whose first four are moved, and grow to six, over
its own pages ten to fifteen: one area meets both ranges, and the call is right. -/
theorem remapRange_proper_iff_sample : ∃ s : UserSpace, Registered .sv39 s ∧
    s.view 3000003 = some ⟨.anon 5 20, 3, .rw, .copyOnWrite, none⟩ ∧
    s.RemapsProperly .sv39 6 ⟨⟨3000000, 4⟩, 6, true, some 3000010⟩ := by
  have hrun : (do
      let s₀ ← UserSpace.new .sv39 0 1
      let (_, s) ← s₀.mapAnonymous .sv39 5 ⟨some (3000000, true), false, 20, .rw, false, .empty⟩
      pure (s.view 3000003) : Checked (Option PageView)) =
        .ok (some ⟨.anon 5 20, 3, .rw, .copyOnWrite, none⟩) := by decide +kernel
  simp only [bind_eq_ok] at hrun
  obtain ⟨s₀, hnew, ⟨_, s⟩, hmap, hview⟩ := hrun
  have hreg : Registered .sv39 s := (registered_of_new hnew).step (.mapAnonymous _ _ hmap)
  refine ⟨s, hreg, Except.ok.inj hview, (remapRange_proper_iff hreg _ _).mpr ?_⟩
  intro targetStart htarget
  cases htarget
  exact .inr (.inr (by decide))

/-- A mapping of twenty pages.  Moving its pages six to nine onto its pages ten to thirteen
panics: the operation composed for the source must leave something above the hole, and the
target was cut away there.  Moving its last page onto page ten returns, but the page is then
mapped in both places, and page nine, in neither range, is gone. -/
theorem remapRange_breaks_straddled : ∃ s : UserSpace, Registered .sv39 s ∧
    s.remapRange .sv39 6 ⟨⟨3000006, 4⟩, 4, true, some 3000010⟩ =
      .error ⟨"punch-hole op must produce a right VMA"⟩ ∧
    ¬ s.RemapsProperly .sv39 6 ⟨⟨3000006, 4⟩, 4, true, some 3000010⟩ ∧
    s.view 3000009 = some ⟨.anon 5 20, 9, .rw, .copyOnWrite, none⟩ ∧
    ∃ s', s.remapRange .sv39 6 ⟨⟨3000019, 1⟩, 1, true, some 3000010⟩ =
        .ok (.ok (toVirtAddr 3000010), s') ∧
      s'.view 3000009 = none ∧
      s'.view 3000010 = some ⟨.anon 5 20, 19, .rw, .copyOnWrite, none⟩ ∧
      s'.view 3000019 = some ⟨.anon 5 20, 19, .rw, .copyOnWrite, none⟩ := by
  have hrun : (do
      let s₀ ← UserSpace.new .sv39 0 1
      let (_, s) ← s₀.mapAnonymous .sv39 5 ⟨some (3000000, true), false, 20, .rw, false, .empty⟩
      let (r, s') ← s.remapRange .sv39 6 ⟨⟨3000019, 1⟩, 1, true, some 3000010⟩
      pure (match s.remapRange .sv39 6 ⟨⟨3000006, 4⟩, 4, true, some 3000010⟩ with
          | .ok _ => none
          | .error p => some p,
        match r with
          | .ok addr => some addr
          | .error _ => none,
        [s.view 3000009, s'.view 3000009, s'.view 3000010, s'.view 3000019]) :
      Checked (Option Panic × Option ℕ × List (Option PageView))) =
        .ok (some ⟨"punch-hole op must produce a right VMA"⟩, some (toVirtAddr 3000010),
          [some ⟨.anon 5 20, 9, .rw, .copyOnWrite, none⟩, none,
            some ⟨.anon 5 20, 19, .rw, .copyOnWrite, none⟩,
            some ⟨.anon 5 20, 19, .rw, .copyOnWrite, none⟩]) := by decide +kernel
  simp only [bind_eq_ok] at hrun
  obtain ⟨s₀, hnew, ⟨_, s⟩, hmap, ⟨r, s'⟩, hmove, hseen⟩ := hrun
  have hreg : Registered .sv39 s := (registered_of_new hnew).step (.mapAnonymous _ _ hmap)
  simp only [pure_eq, Except.ok.injEq, Prod.mk.injEq, List.cons.injEq, and_true] at hseen
  obtain ⟨hpanic, haddr, hnine, hgone, hten, hlast⟩ := hseen
  have hpanics : s.remapRange .sv39 6 ⟨⟨3000006, 4⟩, 4, true, some 3000010⟩ =
      .error ⟨"punch-hole op must produce a right VMA"⟩ := by
    split at hpanic
    · cases hpanic
    · next hcall =>
      cases hpanic
      exact hcall
  refine ⟨s, hreg, hpanics, ?_, hnine, s', ?_, hgone, hten, hlast⟩
  · rintro ⟨r, t, hcall, -⟩
    rw [hpanics] at hcall
    cases hcall
  · rw [hmove]
    cases r with
    | ok addr =>
      cases haddr
      rfl
    | error e => cases haddr

end Anemone.Uspace
