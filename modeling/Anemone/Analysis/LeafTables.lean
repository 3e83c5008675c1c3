import Anemone.Analysis.FrameChains
import Anemone.Analysis.TheoremPageMapProof

/-!
# Leaves and the pages they belong to

A script that changes what the page map says about a page clears its leaf, so that what is left
in the page table belongs to a page that is as it was (`KeepsLeaves`).
-/

namespace Anemone.Uspace

open Checked (bind_eq_ok ok_bind)
open Ranges.VirtPageRange Option
open Ranges (VirtPageRange)
open Extents (WellKeyed Over)
open UserSpace (mem_findIntersectionStarts)

variable {L : Layout}

theorem get_foldl_tryUnmap (ranges : List VirtPageRange) (table : OrderedMap Pte) (vpn : ℕ) :
    (ranges.foldl tryUnmap table)[vpn]? =
      if ∃ range ∈ ranges, range.contains vpn then none else table[vpn]? := by
  induction ranges generalizing table with
  | nil => simp
  | cons range ranges ih =>
    rw [List.foldl_cons, ih, get_tryUnmap]
    by_cases hhead : range.contains vpn
    all_goals simp [hhead]

variable {range : VirtPageRange} {ops : List VmOperation}

theorem mem_unmaps :
    range ∈ unmaps ops ↔ .unmap range ∈ ops := by
  unfold unmaps
  rw [List.mem_filterMap]
  constructor
  · rintro ⟨op, hop, hrange⟩
    cases op <;> simp at hrange
    rw [← hrange]
    exact hop
  · intro hop
    exact ⟨_, hop, rfl⟩

namespace UserSpace

/-- The leaves of `s'` are leaves of `s`, of pages that are as they were. -/
def KeepsLeaves (s s' : UserSpace) : Prop :=
  ∀ (vpn : ℕ) (pte : Pte), s'.table[vpn]? = some pte →
    s.table[vpn]? = some pte ∧ ∀ v, s.view vpn = some v → s'.view vpn = some v

theorem KeepsLeaves.refl (s : UserSpace) : s.KeepsLeaves s := fun _ _ h => ⟨h, fun _ hv => hv⟩

/-- The pages of `s'` are pages of `s` that may have another protection, unless they are
reserved. -/
def KeepsPages (s s' : UserSpace) : Prop :=
  ∀ (vpn : ℕ) (v' : PageView), s'.view vpn = some v' → ∃ v, s.view vpn = some v ∧
    v'.backing = v.backing ∧ v'.pidx = v.pidx ∧ v'.onFork = v.onFork ∧
    v'.reservation = v.reservation ∧ (v.reservation ≠ none → v' = v)

theorem KeepsPages.of_le {s s' : UserSpace}
    (h : ∀ vpn v, s'.view vpn = some v → s.view vpn = some v) : s.KeepsPages s' :=
  fun vpn v' hv => ⟨v', h vpn v' hv, rfl, rfl, rfl, rfl, fun _ => rfl⟩

variable {s s' : UserSpace} (hm : WellKeyed s.vmas)

include hm

variable {a : VmArea} {es : List (ℕ × VmArea)}

/-- A leaf in the range, of a page that is mapped, does not survive a script that clears
the part it cuts from the page's area. -/
theorem not_mem_of_leaf {vpn : ℕ} {pte : Pte}
    (hleaf : ((unmaps ops).foldl tryUnmap s.table)[vpn]? = some pte) {k : ℕ}
    (ha : s.vmas[k]? = some a) (hover : Over a vpn)
    (hops : (k, a) ∈ s.findIntersectionStarts range → .unmap (cutRange a range) ∈ ops) :
    ¬ range.contains vpn := by
  intro hin
  have hmeet : a.range.intersects range := ⟨hover.1.trans_lt hin.2, hin.1.trans_lt hover.2⟩
  rw [get_foldl_tryUnmap, if_pos] at hleaf
  · cases hleaf
  · exact ⟨cutRange a range, mem_unmaps.mpr (hops ((mem_findIntersectionStarts hm).mpr
      ⟨ha, hmeet⟩)), (cutRange_contains hmeet vpn).mpr ⟨hover, hin⟩⟩

omit hm in
theorem leaf_of_foldl_tryUnmap {ranges : List VirtPageRange} {vpn : ℕ} {pte : Pte}
    (hleaf : (ranges.foldl tryUnmap s.table)[vpn]? = some pte) : s.table[vpn]? = some pte := by
  rw [get_foldl_tryUnmap] at hleaf
  split_ifs at hleaf
  exact hleaf

omit hm in
theorem unmap_mem_unmapScript {k : ℕ} (he : (k, a) ∈ es) :
    .unmap (cutRange a range) ∈ es.flatMap fun e => unmapOps range e.1 e.2 :=
  List.mem_flatMap.mpr ⟨(k, a), he, by simp [unmapOps]⟩

variable {r : Except SysError Unit} {prot : Protection} {object : ℕ}

/-- **Unmapping clears the leaves of what it unmaps.** -/
theorem unmapInner_keeps (hcall : s.unmapInner L range = .ok (r, s')) :
    s.KeepsLeaves s' ∧ s.KeepsPages s' ∧ s'.heap = s.heap := by
  unfold unmapInner at hcall
  rcases composeUnmapRange_cases (L := L) hm range with
    ⟨-, e, he⟩ | ⟨-, hops, m', hrun, -, hview, -, -⟩
  · rw [he] at hcall
    cases hcall
    exact ⟨.refl _, .of_le fun _ _ h => h, rfl⟩
  · rw [hops] at hcall
    obtain ⟨t, ht, hres⟩ := bind_eq_ok.mp hcall
    cases hres
    obtain ⟨vmas, hvmas, rfl⟩ := runTransaction_eq_ok.mp ht
    rw [hrun] at hvmas
    cases hvmas
    have hview' : ∀ vpn, viewOf m' vpn = PageMap.clear s.view range vpn := congrFun hview
    refine ⟨?_, ?_, rfl⟩
    · intro vpn pte hleaf
      refine ⟨leaf_of_foldl_tryUnmap hleaf, ?_⟩
      intro v hv
      obtain ⟨k, a, ha, hover, -⟩ := hm.look_eq_some.mp ((viewOf_eq_look _ _).symm.trans hv)
      have hout := not_mem_of_leaf hm hleaf ha hover unmap_mem_unmapScript
      exact (hview' vpn).trans ((if_neg hout).trans hv)
    · apply KeepsPages.of_le
      intro vpn v hv
      have hv' := (hview' vpn).symm.trans hv
      unfold PageMap.clear at hv'
      split_ifs at hv'
      exact hv'

theorem protectRange_script (h : Registered L s) (hheap : ¬ s.OnHeapPath L range)
    (hcall : s.protectRange L range prot = .ok (r, s')) :
    s' = s ∨ ∃ vmas, s' = { s with
      vmas := vmas
      table := (unmaps ((s.findIntersectionStarts range).flatMap
        (protectScript range prot))).foldl tryUnmap s.table } := by
  obtain ⟨heap, hheapVma, hheapRange⟩ := h.heapVma_eq
  have hslow : ¬ (heap.range.covers range ∧ range.stop ≤ pageUp s.heap.brk) := by
    rw [hheapRange]
    exact hheap
  unfold protectRange at hcall
  rw [hheapVma, ok_bind, if_neg hslow] at hcall
  split at hcall
  · cases hcall
    exact .inl rfl
  · cases hcall
    exact .inl rfl
  obtain ⟨composed, hcomposed, hcall⟩ := bind_eq_ok.mp hcall
  split at hcall
  · cases hcall
    exact .inl rfl
  · obtain ⟨t, hrun, ht⟩ := bind_eq_ok.mp hcall
    cases ht
    obtain ⟨-, rfl⟩ := composeProtectRange_eq_ok hm hcomposed
    obtain ⟨vmas, -, rfl⟩ := runTransaction_eq_ok.mp hrun
    exact .inr ⟨vmas, rfl⟩

/-- **Changing a protection clears the leaves of the areas that change.** -/
theorem protectRange_keeps (h : Registered L s) (hheap : ¬ s.OnHeapPath L range)
    (hcall : s.protectRange L range prot = .ok (r, s')) :
    s.KeepsLeaves s' ∧ s.KeepsPages s' ∧ s'.heap = s.heap := by
  obtain ⟨r₁, s₁, hcall₁, hrefused, hdone⟩ := protectRange_refines h range prot hheap
  have hscript := protectRange_script hm h hheap hcall
  rw [hcall₁] at hcall
  cases hcall
  by_cases hallowed : s.AllowsProtect L range prot
  · obtain ⟨rfl, hview⟩ := hdone hallowed
    rcases hscript with rfl | ⟨vmas, hs'⟩
    · exact ⟨.refl _, .of_le fun _ _ h => h, rfl⟩
    refine ⟨?_, ?_, by rw [hs']⟩
    · intro vpn pte hleaf
      rw [hs'] at hleaf
      refine ⟨leaf_of_foldl_tryUnmap hleaf, ?_⟩
      intro v hv
      obtain ⟨k, a, ha, hover, hav⟩ := hm.look_eq_some.mp ((viewOf_eq_look _ _).symm.trans hv)
      rw [hview]
      unfold PageMap.protect
      split_ifs with hin
      · -- the leaf is still there, so its area did not change
        have hsame : a.prot = prot := by
          by_contra hne
          apply not_mem_of_leaf hm hleaf ha hover _ hin
          intro he
          exact List.mem_flatMap.mpr ⟨(k, a), he, by simp [protectScript, hne]⟩
        rw [hv, map_some, ← hav, ← hsame]
        rfl
      · exact hv
    · intro vpn v' hv'
      rw [hview] at hv'
      unfold PageMap.protect at hv'
      split_ifs at hv' with hin
      · obtain ⟨v, hv, rfl⟩ := map_eq_some_iff.mp hv'
        refine ⟨v, hv, rfl, rfl, rfl, rfl, ?_⟩
        intro hres
        have hsame : ¬ s.Differs range prot := by
          rcases hallowed.2.2 with hno | hno
          · exact hno
          · exact absurd ⟨vpn, v, hin, hv, hres⟩ hno
        have hprot : v.prot = prot := by_contra fun hne => hsame ⟨vpn, v, hin, hv, hne⟩
        rw [← hprot]
      · exact ⟨v', hv', rfl, rfl, rfl, rfl, fun _ => rfl⟩
  · obtain ⟨-, rfl⟩ := hrefused hallowed
    exact ⟨.refl _, .of_le fun _ _ h => h, rfl⟩

omit hm in
theorem replaceRange_script {new : VmArea} (hcall : s.replaceRange L range new = .ok (r, s')) :
    s' = s ∨ ∃ vmas, s' = { s with
      vmas := vmas
      table := (unmaps ((s.findIntersectionStarts range).flatMap (fun e =>
        unmapOps range e.1 e.2) ++ [.insert new])).foldl tryUnmap s.table } := by
  unfold replaceRange at hcall
  split at hcall
  · cases hcall
    exact .inl rfl
  obtain ⟨_, -, hcall⟩ := bind_eq_ok.mp hcall
  split at hcall
  · cases hcall
    exact .inl rfl
  · next ops hops =>
    obtain ⟨t, hrun, ht⟩ := bind_eq_ok.mp hcall
    cases ht
    obtain ⟨vmas, -, rfl⟩ := runTransaction_eq_ok.mp hrun
    have hscript : ops = (s.findIntersectionStarts range).flatMap fun e =>
        unmapOps range e.1 e.2 := by
      unfold composeUnmapRange at hops
      split at hops
      · cases hops
      · by_cases hres : HasReserved (s.findIntersectionStarts range)
        · rw [composeUnmapOps_error hres] at hops
          cases hops
        · rw [composeUnmapOps_ok hres] at hops
          exact (Except.ok.inj hops).symm
    rw [hscript]
    exact .inr ⟨vmas, rfl⟩

theorem placeArea_keeps {clobbers : Bool} (hres : a.reservation = none)
    (hcall : s.placeArea L clobbers a.range a = .ok (r, s')) :
    s.KeepsLeaves s' ∧ s'.heap = s.heap ∧ ∀ vpn v, s'.view vpn = some v →
      s.view vpn = some v ∨ (a.range.contains vpn ∧ v = a.view vpn) := by
  have hsame : s.KeepsLeaves s ∧ s.heap = s.heap ∧ ∀ vpn v, s.view vpn = some v →
      s.view vpn = some v ∨ (a.range.contains vpn ∧ v = a.view vpn) :=
    ⟨.refl _, rfl, fun _ _ h => .inl h⟩
  unfold placeArea at hcall
  split at hcall
  · obtain ⟨r₁, s₁, hcall₁, hrefused, hdone⟩ := replaceRange_refines (L := L) hm a.range hres
    have hscript := replaceRange_script hcall
    rw [hcall₁] at hcall
    cases hcall
    rcases hscript with rfl | ⟨vmas, hs'⟩
    · exact hsame
    by_cases hbad : s.RefusesUnmap L a.range
    · obtain ⟨-, rfl⟩ := hrefused (.inr hbad)
      exact hsame
    obtain ⟨rfl, hview⟩ := hdone rfl hbad
    refine ⟨?_, by rw [hs'], ?_⟩
    · intro vpn pte hleaf
      rw [hs'] at hleaf
      refine ⟨leaf_of_foldl_tryUnmap hleaf, ?_⟩
      intro v hv
      obtain ⟨k, b, hb, hover, -⟩ := hm.look_eq_some.mp ((viewOf_eq_look _ _).symm.trans hv)
      have hout := not_mem_of_leaf hm hleaf hb hover fun he =>
        List.mem_append_left _ (unmap_mem_unmapScript he)
      rw [hview]
      simp only [PageMap.put, PageMap.clear, hout, if_false]
      exact hv
    · intro vpn v hv
      rw [hview] at hv
      unfold PageMap.put PageMap.clear at hv
      split_ifs at hv with hin
      · exact .inr ⟨hin, (some.inj hv).symm⟩
      · exact .inl hv
  · by_cases havail : s.isRangeAvail L a.range = true
    · obtain ⟨s₁, hcall₁, hview, htable, hheap⟩ := insertVma_of_avail hm havail
      rw [hcall₁] at hcall
      cases hcall
      refine ⟨?_, hheap, ?_⟩
      · intro vpn pte hleaf
        rw [htable] at hleaf
        refine ⟨hleaf, ?_⟩
        intro v hv
        obtain ⟨k, b, hb, hover, -⟩ := hm.look_eq_some.mp ((viewOf_eq_look _ _).symm.trans hv)
        have hout : ¬ a.range.contains vpn := fun hin =>
          (isRangeAvail_iff.mp havail).2 k b hb ⟨hover.1.trans_lt hin.2, hin.1.trans_lt hover.2⟩
        rw [hview]
        simp only [PageMap.put, hout, if_false]
        exact hv
      · intro vpn v hv
        rw [hview] at hv
        unfold PageMap.put at hv
        split_ifs at hv with hin
        · exact .inr ⟨hin, (some.inj hv).symm⟩
        · exact .inl hv
    · unfold insertVma at hcall
      rw [if_neg havail] at hcall
      cases hcall
      exact hsame

/-- **An anonymous mapping adds pages of its own object** and clears the leaves of
what it replaces. -/
theorem mapAnonymous_keeps {mapping : AnonymousMapping} {r : Except SysError ℕ}
    (hcall : s.mapAnonymous L object mapping = .ok (r, s')) :
    s.KeepsLeaves s' ∧ s'.heap = s.heap ∧ ∃ start : ℕ, ∀ vpn v, s'.view vpn = some v →
      s.view vpn = some v ∨ (start ≤ vpn ∧ v = ⟨.anon object mapping.npages, vpn - start,
        mapping.prot, forkPolicy mapping.shared, none⟩) := by
  have hnone : s.KeepsLeaves s ∧ s.heap = s.heap ∧ ∃ start : ℕ, ∀ vpn v, s.view vpn = some v →
      s.view vpn = some v ∨ (start ≤ vpn ∧ v = ⟨.anon object mapping.npages, vpn - start,
        mapping.prot, forkPolicy mapping.shared, none⟩) :=
    ⟨.refl _, rfl, 0, fun _ _ h => .inl h⟩
  obtain ⟨found, -, hcall⟩ := bind_eq_ok.mp hcall
  split at hcall
  · cases hcall
    exact hnone
  next start =>
  split at hcall
  · cases hcall
    exact hnone
  · cases hcall
    exact hnone
  next area _ harea =>
  cases harea
  obtain ⟨⟨r', t⟩, hplace, ht⟩ := bind_eq_ok.mp hcall
  cases ht
  obtain ⟨hleaves, hheap, hpages⟩ := placeArea_keeps hm rfl hplace
  refine ⟨hleaves, hheap, start, ?_⟩
  intro vpn v hv
  rcases hpages vpn v hv with hold | ⟨hin, rfl⟩
  · exact .inl hold
  · refine .inr ⟨hin.1, ?_⟩
    simp [VmArea.view, VmArea.vmoPidx, VmArea.new]

omit hm in
/-- The pages of objects that the pages of a range are views of. -/
def PagesIn (s : UserSpace) (range : VirtPageRange) (object pidx : ℕ) : Prop :=
  ∃ vpn v, range.contains vpn ∧ s.view vpn = some v ∧ v.backing.top = some object ∧ v.pidx = pidx

/-- The leaves of a range are cleared and the objects lose the pages behind them. -/
structure Withdraws (range : VirtPageRange) (s : UserSpace) (mem : Memory) (s' : UserSpace)
    (mem' : Memory) : Prop where
  vmas : s'.vmas = s.vmas
  table : ∀ vpn : ℕ, s'.table[vpn]? = if range.contains vpn then none else s.table[vpn]?
  memory : Memory.Retires (s.PagesIn range) mem mem'

omit hm in
theorem topPages_iff {lo hi pidx : ℕ} (hlo : a.range.start ≤ lo) :
    Memory.TopPages a.backing (a.vmoPidx lo) (a.vmoPidx hi) object pidx ↔
      a.backing.top = some object ∧ ∃ vpn, lo ≤ vpn ∧ vpn < hi ∧ a.vmoPidx vpn = pidx := by
  unfold Memory.TopPages
  rw [vmoPidx_between hlo]

variable {mem mem' : Memory}

omit hm in
theorem discardAreas_retires (h : discardAreas range es mem = .ok mem') :
    Memory.Retires (fun object pidx => ∃ e ∈ es, Memory.TopPages e.2.backing
      (e.2.vmoPidx (cutRange e.2 range).start) (e.2.vmoPidx (cutRange e.2 range).stop)
      object pidx) mem mem' := by
  induction es generalizing mem with
  | nil =>
    cases h
    apply (Memory.Retires.refl mem').congr
    intro object pidx
    simp
  | cons e es ih =>
    obtain ⟨mem₁, hfirst, hrest⟩ := bind_eq_ok.mp h
    apply ((Memory.retires_discardRange hfirst).trans (ih hrest)).congr
    intro object pidx
    simp only [List.mem_cons, exists_eq_or_imp]

/-- **Discarding is refused or withdraws the pages of the range.** -/
theorem discardRangeInner_cases (hcall : s.discardRangeInner L mem range = .ok (r, s', mem')) :
    ((validateRange L range ≠ .ok () ∨ ¬ PageMap.Covers s.view range) ∧ s' = s ∧ mem' = mem) ∨
      (validateRange L range = .ok () ∧ PageMap.Covers s.view range ∧
        Withdraws range s mem s' mem' ∧ s'.stack = s.stack ∧ s'.heap = s.heap) := by
  unfold discardRangeInner at hcall
  rcases findIntersectionStartsCovering_cases (L := L) hm range with
    ⟨hbad, e, he⟩ | ⟨⟨hvalid, hcovers⟩, hstarts⟩
  · rw [he] at hcall
    cases hcall
    exact .inl ⟨hbad, rfl, rfl⟩
  rw [hstarts] at hcall
  obtain ⟨mem₁, hdiscard, hres⟩ := bind_eq_ok.mp hcall
  cases hres
  refine .inr ⟨hvalid, hcovers, ⟨rfl, ?_, ?_⟩, rfl, rfl⟩
  · intro vpn
    have hfold : ((s.findIntersectionStarts range).foldl
        (fun t e => tryUnmap t (cutRange e.2 range)) s.table) =
        ((s.findIntersectionStarts range).map fun e => cutRange e.2 range).foldl tryUnmap
          s.table := by
      rw [List.foldl_map]
    simp only [hfold]
    rw [get_foldl_tryUnmap]
    congr 1
    simp only [List.mem_map, exists_exists_and_eq_and, eq_iff_iff]
    constructor
    · rintro ⟨⟨k, a⟩, he, hcut⟩
      exact ((cutRange_contains ((mem_findIntersectionStarts hm).mp he).2 vpn).mp hcut).2
    · intro hin
      obtain ⟨v, hv⟩ := ne_none_iff_exists'.mp (hcovers vpn hin)
      obtain ⟨⟨k, a⟩, he, hover⟩ := exists_found hm hin ((viewOf_eq_look _ _).symm.trans hv)
      exact ⟨(k, a), he, (cutRange_contains ((mem_findIntersectionStarts hm).mp he).2 vpn).mpr
        ⟨hover, hin⟩⟩
  · apply (discardAreas_retires hdiscard).congr
    intro object pidx
    constructor
    · rintro ⟨⟨k, a⟩, he, hgone⟩
      obtain ⟨ha, hmeet⟩ := (mem_findIntersectionStarts hm).mp he
      have hstart := (cutRange_spec hmeet).1
      obtain ⟨htop, vpn, hlo, hhi, hpidx⟩ := (topPages_iff (by simp only; omega)).mp hgone
      obtain ⟨hover, hin⟩ := (cutRange_contains hmeet vpn).mp ⟨hlo, hhi⟩
      refine ⟨vpn, a.view vpn, hin, ?_, htop, hpidx⟩
      rw [view, viewOf_eq_look]
      exact hm.look_eq_some.mpr ⟨k, a, ha, hover, rfl⟩
    · rintro ⟨vpn, v, hin, hv, htop, hpidx⟩
      obtain ⟨k, a, ha, hover, rfl⟩ := hm.look_eq_some.mp ((viewOf_eq_look _ _).symm.trans hv)
      have hmeet : a.range.intersects range := ⟨hover.1.trans_lt hin.2, hin.1.trans_lt hover.2⟩
      have hstart := (cutRange_spec hmeet).1
      obtain ⟨hlo, hhi⟩ := (cutRange_contains hmeet vpn).mpr ⟨hover, hin⟩
      exact ⟨(k, a), (mem_findIntersectionStarts hm).mpr ⟨ha, hmeet⟩,
        (topPages_iff (by simp only; omega)).mpr ⟨htop, vpn, hlo, hhi, hpidx⟩⟩

/-- **Lowering the program break withdraws whole pages of the heap.** -/
theorem setBrkInner_withdraws (h : Registered L s) (hbrk : s.heap.brk ≤ toVirtAddr L.heapRange.stop)
    {brk : ℕ} (hcall : s.setBrkInner mem brk = .ok (r, s', mem')) :
    (∃ range, Withdraws range s mem s' mem' ∧
        ∀ vpn, range.contains vpn → L.heapRange.contains vpn) ∧
      s'.heap.brk ≤ toVirtAddr L.heapRange.stop := by
  have hnothing : ∀ t : UserSpace, t.vmas = s.vmas → t.table = s.table →
      ∃ range, Withdraws range s mem t mem ∧
        ∀ vpn, range.contains vpn → L.heapRange.contains vpn := by
    intro t hvmas htable
    have hempty : ∀ vpn, ¬ contains ⟨0, 0⟩ vpn := fun vpn hin =>
      absurd hin.2 (Nat.not_lt_zero vpn)
    refine ⟨⟨0, 0⟩, ⟨hvmas, ?_, ?_⟩, fun vpn hin => absurd hin (hempty vpn)⟩
    · intro vpn
      rw [if_neg (hempty vpn), htable]
    · apply (Memory.Retires.refl mem).congr
      intro object pidx
      refine ⟨False.elim, ?_⟩
      rintro ⟨vpn, v, hin, -⟩
      exact hempty vpn hin
  obtain ⟨heap, hheap, hrange, -⟩ := h.registry.heap
  have hheapVma : s.heapVma = .ok heap := by
    unfold heapVma
    rw [h.heap_svpn, hheap]
    rfl
  unfold setBrkInner at hcall
  rw [hheapVma, ok_bind, hrange] at hcall
  split at hcall
  · cases hcall
    exact ⟨hnothing s rfl rfl, hbrk⟩
  next hbounds =>
  simp only at hcall
  split at hcall
  · split at hcall
    · cases hcall
      exact ⟨hnothing s rfl rfl, hbrk⟩
    · next hshrinks mem₁ hdecommit =>
      cases hcall
      have hlo : L.heapRange.start ≤ pageUp brk := by
        unfold pageUp toVirtAddr pageSize at *
        omega
      have hhi : pageUp s.heap.brk ≤ L.heapRange.stop := by
        unfold pageUp toVirtAddr pageSize at *
        omega
      have hlo' : heap.range.start ≤ pageUp brk := by
        rw [hrange]
        exact hlo
      have hend : heap.vmoPidx (pageUp brk) + (pageUp s.heap.brk - pageUp brk) =
          heap.vmoPidx (pageUp brk + (pageUp s.heap.brk - pageUp brk)) := by
        unfold VmArea.vmoPidx
        omega
      rw [hend] at hdecommit
      refine ⟨⟨⟨pageUp brk, pageUp s.heap.brk - pageUp brk⟩, ⟨rfl, ?_, ?_⟩, ?_⟩, ?_⟩
      · intro vpn
        exact get_tryUnmap _ _ vpn
      · apply (Memory.retires_decommitPrivateRange hdecommit).congr
        intro object pidx
        rw [topPages_iff hlo']
        constructor
        · rintro ⟨htop, vpn, hvlo, hvhi, hpidx⟩
          refine ⟨vpn, heap.view vpn, ⟨hvlo, hvhi⟩, ?_, htop, hpidx⟩
          rw [view, viewOf_eq_look]
          refine hm.look_eq_some.mpr ⟨_, heap, hheap, ?_, rfl⟩
          change heap.range.start ≤ vpn ∧ vpn < heap.range.stop
          rw [hrange]
          omega
        · rintro ⟨vpn, v, hin, hv, htop, hpidx⟩
          have hover : Over heap vpn := by
            change heap.range.start ≤ vpn ∧ vpn < heap.range.stop
            rw [hrange]
            simp only [contains, stop] at *
            omega
          have hheapView : s.view vpn = some (heap.view vpn) := by
            rw [view, viewOf_eq_look]
            exact hm.look_eq_some.mpr ⟨_, heap, hheap, hover, rfl⟩
          rw [hheapView] at hv
          cases hv
          exact ⟨htop, vpn, hin.1, hin.2, hpidx⟩
      · intro vpn hin
        simp only [contains, stop] at *
        omega
      · simp only
        omega
  · cases hcall
    refine ⟨hnothing _ rfl rfl, ?_⟩
    simp only
    omega

end UserSpace

end Anemone.Uspace
