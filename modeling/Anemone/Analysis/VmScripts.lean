import Anemone.Interface.PageView

/-!
# What a script does to the map of areas

`Edits` says once what an operation of a script can do: leave the map alone, put an area where
there is room, or replace an unreserved area by pieces of itself.
-/

namespace Anemone.Uspace

open Checked (ok_bind bind_eq_ok pure_eq assert_of assert_eq_ok expect_some expect_eq_ok)
open VmArea OrderedMap Checked List

open Ranges (VirtPageRange)
open Extents (WellKeyed Over Fits Apart look insertAll)

variable {range : VirtPageRange} {a b : VmArea}

namespace VmArea

/-- The part below a page. -/
def below (a : VmArea) (cut : ℕ) : VmArea :=
  { a with range := ⟨a.range.start, cut - a.range.start⟩ }

/-- The part from a page on. -/
def above (a : VmArea) (cut : ℕ) : VmArea :=
  { a with
    range := ⟨cut, a.range.stop - cut⟩
    poffset := a.poffset + (cut - a.range.start) }

theorem split_eq {cut : ℕ} (hlo : a.range.start ≤ cut) (hhi : cut ≤ a.range.stop) :
    a.split cut = .ok (if cut > a.range.start then some (a.below cut) else none,
      if cut < a.range.stop then some (a.above cut) else none) := by
  unfold split
  rw [if_neg (by omega)]
  rfl

theorem split_eq_ok {cut : ℕ} {p : Option VmArea × Option VmArea} (h : a.split cut = .ok p) :
    (a.range.start ≤ cut ∧ cut ≤ a.range.stop) ∧
      p = (if cut > a.range.start then some (a.below cut) else none,
        if cut < a.range.stop then some (a.above cut) else none) := by
  by_cases hin : a.range.start ≤ cut ∧ cut ≤ a.range.stop
  · rw [split_eq hin.1 hin.2] at h
    cases h
    exact ⟨hin, rfl⟩
  · unfold split at h
    rw [if_pos (by omega)] at h
    cases h

variable {a : VmArea} {cut : ℕ}

@[simp] theorem below_start : (a.below cut).range.start = a.range.start := rfl

theorem below_stop (h : a.range.start ≤ cut) : (a.below cut).range.stop = cut := by
  simp only [below, VirtPageRange.stop]
  omega

@[simp] theorem above_start : (a.above cut).range.start = cut := rfl

theorem above_stop (h : cut ≤ a.range.stop) : (a.above cut).range.stop = a.range.stop := by
  simp only [above, VirtPageRange.stop] at h ⊢
  omega

theorem isPiece_below (hlo : a.range.start < cut) (hhi : cut ≤ a.range.stop) :
    IsPiece a (a.below cut) where
  start_le := Nat.le_refl _
  nonempty := by rw [below_stop hlo.le]; exact hlo
  stop_le := by rw [below_stop hlo.le]; exact hhi
  poffset := by simp [below]
  same := ⟨rfl, rfl, rfl, rfl, rfl⟩

theorem isPiece_above (hlo : a.range.start ≤ cut) (hhi : cut < a.range.stop) :
    IsPiece a (a.above cut) where
  start_le := hlo
  nonempty := by rw [above_stop hhi.le]; exact hhi
  stop_le := by rw [above_stop hhi.le]
  poffset := rfl
  same := ⟨rfl, rfl, rfl, rfl, rfl⟩

theorem above_above {later : ℕ} (hlo : a.range.start ≤ cut) (hle : cut ≤ later)
    (hhi : cut ≤ a.range.stop) : (a.above cut).above later = a.above later := by
  have hstop : (a.above cut).range.stop = a.range.stop := above_stop hhi
  have hoff : a.poffset + (cut - a.range.start) + (later - cut)
      = a.poffset + (later - a.range.start) := by omega
  rw [above, hstop]
  simp only [above, mk.injEq, and_true, true_and]
  exact hoff

/-- The part inside a range. -/
def slice (a : VmArea) (cut : VirtPageRange) : VmArea :=
  { a with range := cut, poffset := a.poffset + (cut.start - a.range.start) }

theorem isPiece_slice (hlo : a.range.start ≤ range.start) (hne : range.start < range.stop)
    (hhi : range.stop ≤ a.range.stop) :
    IsPiece a (a.slice range) :=
  ⟨hlo, hne, hhi, rfl, rfl, rfl, rfl, rfl, rfl⟩

theorem apart_below_above {lower : ℕ} (hlo : a.range.start ≤ lower) (hle : lower ≤ cut) :
    Apart (a.below lower) (a.above cut) := by
  left
  change (a.below lower).range.stop ≤ cut
  rw [below_stop hlo]
  exact hle

variable {npages : ℕ}

theorem trimStart_eq_ok (h : a.trimStart npages = .ok b) :
    npages < a.range.npages ∧ b = a.above (a.range.start + npages) := by
  unfold trimStart at h
  split at h
  · cases h
  · next hlt =>
    cases h
    refine ⟨Nat.not_le.mp hlt, ?_⟩
    simp only [above, VirtPageRange.stop, mk.injEq, VirtPageRange.mk.injEq, and_true, true_and]
    omega

theorem trimStart_eq (h : npages < a.range.npages) :
    a.trimStart npages = .ok (a.above (a.range.start + npages)) := by
  unfold trimStart
  rw [if_neg (Nat.not_le.mpr h)]
  simp only [above, VirtPageRange.stop, Except.ok.injEq, mk.injEq, VirtPageRange.mk.injEq,
    and_true, true_and]
  omega

theorem trimEnd_eq_ok (h : a.trimEnd npages = .ok b) :
    npages < a.range.npages ∧ b = a.below (a.range.stop - npages) := by
  unfold trimEnd at h
  split at h
  · cases h
  · next hlt =>
    cases h
    refine ⟨Nat.not_le.mp hlt, ?_⟩
    simp only [below, VirtPageRange.stop, mk.injEq, VirtPageRange.mk.injEq, and_true, true_and]
    omega

theorem trimEnd_eq (h : npages < a.range.npages) :
    a.trimEnd npages = .ok (a.below (a.range.stop - npages)) := by
  unfold trimEnd
  rw [if_neg (Nat.not_le.mpr h)]
  simp only [below, VirtPageRange.stop, Except.ok.injEq, mk.injEq, VirtPageRange.mk.injEq,
    and_true, true_and]
  omega

end VmArea

variable {k : ℕ} {m m' : OrderedMap VmArea} {op : VmOperation}

theorem insertNew_eq_ok :
    insertNew m k a = .ok m' ↔ m[k]? = none ∧ m' = m.insert k a := by
  unfold insertNew
  rw [bind_eq_ok]
  constructor
  · rintro ⟨u, hassert, hpure⟩
    cases hpure
    exact ⟨assert_eq_ok.mp hassert, rfl⟩
  · rintro ⟨hnone, rfl⟩
    exact ⟨(), assert_of _ hnone, rfl⟩

/-- **A hole leaves two parts** exactly when it lies strictly inside the area. -/
theorem punch_eq_ok {hole : VirtPageRange} {p : VmArea × VmArea} :
    punch a hole = .ok p ↔
      (a.range.start < hole.start ∧ hole.start ≤ hole.stop ∧ hole.stop < a.range.stop) ∧
        p = (a.below hole.start, a.above hole.stop) := by
  have hle : hole.start ≤ hole.stop := Nat.le_add_right _ _
  constructor
  · intro h
    simp only [punch, bind_eq_ok, unwrap_eq_ok, expect_eq_ok] at h
    obtain ⟨⟨left, rest⟩, hsplit, mid, hmid, ⟨mleft, right⟩, hsplit', l, hl, r, hr, hp⟩ := h
    obtain ⟨hin, heq⟩ := split_eq_ok hsplit
    obtain ⟨rfl, rfl⟩ := Prod.mk.inj heq
    simp only [Option.ite_none_right_eq_some, Option.some.injEq] at hmid hl
    obtain ⟨hlt, rfl⟩ := hmid
    obtain ⟨hin', heq'⟩ := split_eq_ok hsplit'
    obtain ⟨rfl, rfl⟩ := Prod.mk.inj heq'
    simp only [Option.ite_none_right_eq_some, Option.some.injEq] at hr
    obtain ⟨hright, rfl⟩ := hr
    obtain ⟨hleft, rfl⟩ := hl
    rw [above_stop hin.2] at hright
    refine ⟨⟨hleft, hle, hright⟩, ?_⟩
    cases hp
    rw [above_above hin.1 hle hin.2]
  · rintro ⟨⟨hlo, -, hhi⟩, rfl⟩
    have hmid : hole.start ≤ a.range.stop := by omega
    have hstop : (a.above hole.start).range.stop = a.range.stop := above_stop hmid
    simp only [punch, bind_eq_ok, unwrap_eq_ok, expect_eq_ok]
    refine ⟨_, split_eq hlo.le hmid, a.above hole.start, if_pos (by omega), _,
      split_eq (a := a.above hole.start) hle (by rw [hstop]; omega), a.below hole.start,
      if_pos hlo, a.above hole.stop, ?_, rfl⟩
    rw [hstop, if_pos hhi, above_above hlo.le hle hmid]

/-- The key of the area an operation rewrites. -/
def VmOperation.target : VmOperation → Option ℕ
  | .remove start => some start
  | .trimStart start _ => some start
  | .trimEnd start _ => some start
  | .punchHole start _ => some start
  | .insert _ => none
  | .unmap _ => none

inductive Edits (m : OrderedMap VmArea) : VmOperation → OrderedMap VmArea → Prop
  | keep (range : VirtPageRange) : Edits m (.unmap range) m
  | add (a : VmArea)
      (room : ∀ (k : ℕ) (w : VmArea), m[k]? = some w → ¬ w.range.intersects a.range)
      (free : m[a.range.start]? = none) : Edits m (.insert a) (m.insert a.range.start a)
  | carve (op : VmOperation) (k : ℕ) (a : VmArea) (pieces : List VmArea)
      (target : op.target = some k) (found : m[k]? = some a) (unreserved : a.reservation = none)
      (parts : ∀ b ∈ pieces, IsPiece a b) (apart : pieces.Pairwise Apart) :
      Edits m op (insertAll (m.erase k) pieces)

/-- **Every operation that returns is an edit.** -/
theorem edits_of_runOp (hm : WellKeyed m) (h : runOp m op = .ok m') :
    Edits m op m' := by
  cases op with
  | remove start =>
    simp only [runOp, bind_eq_ok, expect_eq_ok, assert_eq_ok] at h
    obtain ⟨a, ha, _, hres, hm'⟩ := h
    cases hm'
    exact .carve _ start a [] rfl ha hres (by simp) List.Pairwise.nil
  | trimStart start npages =>
    simp only [runOp, bind_eq_ok, expect_eq_ok, assert_eq_ok, unwrap_eq_ok] at h
    obtain ⟨a, ha, _, hres, b, htrim, hins⟩ := h
    obtain ⟨hlt, rfl⟩ := trimStart_eq_ok htrim
    obtain ⟨-, rfl⟩ := insertNew_eq_ok.mp hins
    have hpiece : IsPiece a (a.above (a.range.start + npages)) := by
      apply isPiece_above (by omega)
      simp only [VirtPageRange.stop]
      omega
    exact .carve _ start a [a.above (a.range.start + npages)] rfl ha hres
      (by simpa using hpiece) (pairwise_singleton _ _)
  | trimEnd start npages =>
    simp only [runOp, bind_eq_ok, expect_eq_ok, assert_eq_ok, unwrap_eq_ok] at h
    obtain ⟨a, ha, _, hres, b, htrim, hm'⟩ := h
    obtain ⟨hlt, rfl⟩ := trimEnd_eq_ok htrim
    cases hm'
    have hkey : a.range.start = start := hm.key start a ha
    have hpiece : IsPiece a (a.below (a.range.stop - npages)) := by
      apply isPiece_below
      all_goals
        simp only [VirtPageRange.stop]
        omega
    rw [← insert_erase, ← hkey]
    rw [← hkey] at ha
    exact .carve _ _ a [a.below (a.range.stop - npages)] (by rw [hkey]; rfl) ha hres
      (by simpa using hpiece) (pairwise_singleton _ _)
  | punchHole start hole =>
    simp only [runOp, bind_eq_ok, expect_eq_ok, assert_eq_ok] at h
    obtain ⟨a, ha, _, hres, ⟨l, r⟩, hpunch, m₁, hl, hr⟩ := h
    obtain ⟨⟨hlo, hle, hhi⟩, heq⟩ := punch_eq_ok.mp hpunch
    cases heq
    obtain ⟨-, rfl⟩ := insertNew_eq_ok.mp hl
    obtain ⟨-, rfl⟩ := insertNew_eq_ok.mp hr
    have hleft : IsPiece a (a.below hole.start) := isPiece_below hlo (by omega)
    have hright : IsPiece a (a.above hole.stop) := isPiece_above (by omega) hhi
    exact .carve _ start a [a.below hole.start, a.above hole.stop] rfl ha hres
      (by simpa using ⟨hleft, hright⟩) (by simpa using apart_below_above hlo.le hle)
  | insert a =>
    simp only [runOp, bind_eq_ok, assert_eq_ok] at h
    obtain ⟨_, _, _, hroom, hins⟩ := h
    obtain ⟨hfree, rfl⟩ := insertNew_eq_ok.mp hins
    refine .add a ?_ hfree
    intro k w hw
    have := all_eq_true.mp hroom (k, w) (mem_toList.mpr hw)
    simpa using this
  | unmap range =>
    cases h
    exact .keep range

theorem fits_pieces (hm : WellKeyed m) (ha : m[k]? = some a) {pieces : List VmArea}
    (hparts : ∀ b ∈ pieces, IsPiece a b) :
    (∀ b ∈ pieces, Extent.lo b < Extent.hi b) ∧ ∀ b ∈ pieces, Fits (m.erase k) b := by
  constructor
  · intro b hb
    exact (hparts b hb).nonempty
  · intro b hb
    exact hm.fits_erase ha (hparts b hb).start_le (hparts b hb).stop_le

theorem fits_of_room (hroom : ∀ (k : ℕ) (w : VmArea), m[k]? = some w → ¬ w.range.intersects a.range) :
    Fits m a := by
  intro k w hw
  have hmeet := hroom k w hw
  unfold VirtPageRange.intersects at hmeet
  change w.range.stop ≤ a.range.start ∨ a.range.stop ≤ w.range.start
  omega

variable {v : VmArea}

namespace Edits

variable {m m' : OrderedMap VmArea} {op : VmOperation} (he : Edits m op m') (hm : WellKeyed m)

include he hm

theorem wellKeyed (hins : ∀ a, op = .insert a → a.range.start < a.range.stop) :
    WellKeyed m' := by
  cases he with
  | keep => exact hm
  | add a hroom _ =>
    have hne := hins a rfl
    exact hm.insert hne (fits_of_room hroom)
  | carve op k a pieces _ ha _ hparts hapart =>
    obtain ⟨hne, hfit⟩ := fits_pieces hm ha hparts
    exact ((hm.erase k).insertAll view hne hfit hapart).1

/-- **Areas an operation does not name stay.** -/
theorem keeps (hk : op.target ≠ some k) (hv : m[k]? = some v) :
    m'[k]? = some v := by
  cases he with
  | keep => exact hv
  | add a _ hfree =>
    rw [get_insert, if_neg]
    · exact hv
    · intro heq
      rw [← heq, hfree] at hv
      cases hv
  | carve op j a pieces htarget ha _ hparts hapart =>
    obtain ⟨hne, hfit⟩ := fits_pieces hm ha hparts
    apply ((hm.erase j).insertAll view hne hfit hapart).2.2.1
    rw [get_erase, if_neg]
    · exact hv
    · intro heq
      rw [heq] at htarget
      exact hk htarget

omit hm in
/-- An area of the new map was there before, is put in, or is a piece of one that was. -/
theorem origin (hv : m'[k]? = some v) :
    m[k]? = some v ∨ op = .insert v ∨ ∃ (j : ℕ) (a : VmArea), m[j]? = some a ∧ IsPiece a v := by
  cases he with
  | keep => exact .inl hv
  | add a _ _ =>
    rw [get_insert] at hv
    split at hv
    · cases hv
      exact .inr (.inl rfl)
    · exact .inl hv
  | carve op j a pieces _ ha _ hparts _ =>
    rcases Extents.mem_insertAll hv with hin | hget
    · exact .inr (.inr ⟨j, a, ha, hparts v hin⟩)
    · rw [get_erase] at hget
      split at hget
      · cases hget
      · exact .inl hget

theorem keeps_reserved (hv : m[k]? = some v) (hres : v.reservation ≠ none) : m'[k]? = some v := by
  apply he.keeps hm _ hv
  intro htarget
  cases he with
  | keep | add => cases htarget
  | carve op j a pieces hj ha hfree _ _ =>
    rw [htarget] at hj
    cases hj
    rw [ha] at hv
    cases hv
    exact hres hfree

end Edits

/-- An area that may be put into the registry. -/
structure Placed (L : Layout) (a : VmArea) : Prop where
  nonempty : 0 < a.range.npages
  below_top : a.range.stop ≤ L.uspaceTopVpn
  within : a.ViewsWithin

variable {L : Layout}

theorem Placed.start_lt_stop (h : Placed L a) :
    a.range.start < a.range.stop := by
  have := h.nonempty
  simp only [VirtPageRange.stop]
  omega

theorem Placed.piece (h : Placed L a) (hb : IsPiece a b) : Placed L b where
  nonempty := by
    have := hb.nonempty
    simp only [VirtPageRange.stop] at this
    omega
  below_top := hb.stop_le.trans h.below_top
  within maxPages hmax := by
    rw [hb.same.2.2.2.2] at hmax
    have hin := h.within maxPages hmax
    have hstart := hb.start_le
    have hstop := hb.stop_le
    simp only [VirtPageRange.stop] at hstop
    rw [hb.poffset]
    omega

theorem Registry.placed (h : Registry L m) (ha : m[k]? = some a) : Placed L a :=
  ⟨h.nonempty k a ha, h.below_top k a ha, h.within k a ha⟩

/-- The registry from its parts: a well-keyed map of placed areas with the reservations. -/
theorem Registry.of_placed (hm : WellKeyed m)
    (hplaced : ∀ (k : ℕ) (a : VmArea), m[k]? = some a → Placed L a)
    (hstack : Reserved m L.stackRange .stack) (hguard : Reserved m L.stackGuardRange .guard)
    (hheap : Reserved m L.heapRange .heap) (hzero : Reserved m Layout.zeroGuardRange .guard) :
    Registry L m where
  keyed := hm.key
  nonempty k a ha := (hplaced k a ha).nonempty
  disjoint k k' a a' ha ha' hne := by
    have hapart : a.range.stop ≤ a'.range.start ∨ a'.range.stop ≤ a.range.start :=
      hm.apart_of_ne ha ha' hne
    unfold VirtPageRange.intersects
    omega
  below_top k a ha := (hplaced k a ha).below_top
  stack := hstack
  stackGuard := hguard
  heap := hheap
  zeroGuard := hzero
  within k a ha := (hplaced k a ha).within

/-- **An edit keeps the registry**, if what it inserts may be placed. -/
theorem Registry.edits (h : Registry L m) (he : Edits m op m')
    (hins : ∀ a, op = .insert a → Placed L a) :
    Registry L m' := by
  have hm := h.wellKeyed
  have hreserved : ∀ {range r}, Reserved m range r → Reserved m' range r := by
    rintro range r ⟨a, ha, hrange, hres⟩
    exact ⟨a, he.keeps_reserved hm ha (by simp [hres]), hrange, hres⟩
  apply Registry.of_placed
  · exact he.wellKeyed hm fun a ha => (hins a ha).start_lt_stop
  · intro k a ha
    rcases he.origin ha with hold | hnew | ⟨j, b, hb, hpiece⟩
    · exact h.placed hold
    · exact hins a hnew
    · exact (h.placed hb).piece hpiece
  · exact hreserved h.stack
  · exact hreserved h.stackGuard
  · exact hreserved h.heap
  · exact hreserved h.zeroGuard

variable {ops : List VmOperation} {es : List (ℕ × VmArea)}

theorem runOps_cons :
    runOps m (op :: ops) = .ok m' ↔ ∃ m₁, runOp m op = .ok m₁ ∧ runOps m₁ ops = .ok m' := by
  unfold runOps
  rw [foldlM_cons, bind_eq_ok]

theorem runOps_append (ops more : List VmOperation) :
    runOps m (ops ++ more) = runOps m ops >>= fun m₁ => runOps m₁ more := by
  unfold runOps
  rw [foldlM_append]

theorem runOps_keeps (hm : WellKeyed m) (hrun : runOps m ops = .ok m')
    (hins : ∀ a, .insert a ∈ ops → a.range.start < a.range.stop)
    (hk : ∀ op ∈ ops, op.target ≠ some k) (hv : m[k]? = some v) :
    WellKeyed m' ∧ m'[k]? = some v := by
  induction ops generalizing m with
  | nil =>
    cases hrun
    exact ⟨hm, hv⟩
  | cons op ops ih =>
    obtain ⟨m₁, hop, hrest⟩ := runOps_cons.mp hrun
    have hedits := edits_of_runOp hm hop
    apply ih (hedits.wellKeyed hm fun a ha => hins a (ha ▸ mem_cons_self)) hrest
    · intro a ha
      exact hins a (mem_cons_of_mem _ ha)
    · intro op' hop'
      exact hk op' (mem_cons_of_mem _ hop')
    · exact hedits.keeps hm (hk op mem_cons_self) hv

/-- **A script that returns keeps the registry.** -/
theorem Registry.runOps (h : Registry L m) (hrun : runOps m ops = .ok m')
    (hins : ∀ a, .insert a ∈ ops → Placed L a) : Registry L m' := by
  induction ops generalizing m with
  | nil =>
    cases hrun
    exact h
  | cons op ops ih =>
    obtain ⟨m₁, hop, hrest⟩ := runOps_cons.mp hrun
    have hstep : Registry L m₁ := by
      apply h.edits (edits_of_runOp h.wellKeyed hop)
      rintro a rfl
      exact hins a mem_cons_self
    exact ih hstep hrest fun a ha => hins a (mem_cons_of_mem _ ha)

/-- **A script made area by area**, where the part for one area changes what the
page map says over that area only and leaves the other areas where they are.  The areas
still to come are then found where the composer saw them. -/
theorem runOps_areaScript (script : ℕ × VmArea → List VmOperation)
    (say : ℕ → Option PageView → Option PageView) (after : ℕ × VmArea → Option VmArea)
    (Apt : ℕ × VmArea → Prop)
    (hone : ∀ m : OrderedMap VmArea, WellKeyed m → ∀ e, Apt e → m[e.1]? = some e.2 →
      ∃ m₁, runOps m (script e) = .ok m₁ ∧ WellKeyed m₁ ∧ (∀ vpn, look view m₁ vpn =
          if Over e.2 vpn then say vpn (look view m vpn) else look view m vpn) ∧
        (∀ (k : ℕ) (a : VmArea), k ≠ e.1 → m[k]? = some a → m₁[k]? = some a) ∧
        ∀ a, after e = some a → m₁[e.1]? = some a)
    (hm : WellKeyed m) (hsorted : es.Pairwise fun x y => x.1 < y.1)
    (hes : ∀ e ∈ es, Apt e ∧ m[e.1]? = some e.2) :
    ∃ m', runOps m (es.flatMap script) = .ok m' ∧ WellKeyed m' ∧ (∀ vpn, look view m' vpn =
        if ∃ e ∈ es, Over e.2 vpn then say vpn (look view m vpn)
        else look view m vpn) ∧
      (∀ (k : ℕ) (a : VmArea), (∀ e ∈ es, e.1 ≠ k) → m[k]? = some a → m'[k]? = some a) ∧
      ∀ e ∈ es, ∀ a, after e = some a → m'[e.1]? = some a := by
  induction es generalizing m with
  | nil =>
    refine ⟨m, rfl, hm, by simp, ?_, by simp⟩
    intro k a _ ha
    exact ha
  | cons e es ih =>
    obtain ⟨hfirst, hsorted'⟩ := pairwise_cons.mp hsorted
    have hne : ∀ x ∈ es, x.1 ≠ e.1 := fun x hx => (hfirst x hx).ne'
    obtain ⟨hapt, he⟩ := hes e mem_cons_self
    obtain ⟨m₁, hhead, hwk, hlook, hkeep, hafter⟩ := hone m hm e hapt he
    obtain ⟨m', hrun, hwk', hlook', hkeep', hafter'⟩ := ih hwk hsorted' fun x hx =>
      ⟨(hes x (mem_cons_of_mem _ hx)).1, hkeep x.1 x.2 (hne x hx) (hes x (mem_cons_of_mem _ hx)).2⟩
    refine ⟨m', ?_, hwk', ?_, ?_, ?_⟩
    · rw [flatMap_cons, runOps_append, hhead]
      exact hrun
    · intro vpn
      rw [hlook', hlook]
      by_cases hover : Over e.2 vpn
      · -- no other area is over a page of this one
        have hno : ¬ ∃ x ∈ es, Over x.2 vpn := by
          rintro ⟨x, hx, hx'⟩
          exact hne x hx (hm.unique (hes x (mem_cons_of_mem _ hx)).2 he hx' hover)
        simp [hover, hno]
      · simp only [hover, if_false, mem_cons, exists_eq_or_imp, false_or]
    · intro k a hk ha
      apply hkeep' k a fun x hx => hk x (mem_cons_of_mem _ hx)
      exact hkeep k a (hk e mem_cons_self).symm ha
    · intro x hx a ha
      rcases mem_cons.mp hx with rfl | hx
      · exact hkeep' _ a hne (hafter a ha)
      · exact hafter' x hx a ha

theorem runOps_inserts (hm : WellKeyed m) {vs : List VmArea} (hres : ∀ v ∈ vs, v.reservation = none)
    (hne : ∀ v ∈ vs, v.range.start < v.range.stop) (hfit : ∀ v ∈ vs, Fits m v)
    (hapart : vs.Pairwise Apart) :
    runOps m (vs.map .insert) = .ok (insertAll m vs) := by
  induction vs generalizing m with
  | nil => rfl
  | cons v vs ih =>
    obtain ⟨hhead, htail⟩ := pairwise_cons.mp hapart
    have hnev := hne v mem_cons_self
    have hfitv := hfit v mem_cons_self
    rw [map_cons, runOps_cons]
    refine ⟨m.insert v.range.start v, ?_, ?_⟩
    · simp only [runOp, bind_eq_ok, assert_eq_ok]
      refine ⟨(), hres v mem_cons_self, (), ?_,
        insertNew_eq_ok.mpr ⟨hm.get_of_fits hnev hfitv, rfl⟩⟩
      apply all_eq_true.mpr
      rintro ⟨k, w⟩ hw
      have hbeside : w.range.stop ≤ v.range.start ∨ v.range.stop ≤ w.range.start :=
        hfitv k w (mem_toList.mp hw)
      apply decide_eq_true
      change ¬ (w.range.start < v.range.stop ∧ v.range.start < w.range.stop)
      omega
    · exact ih (hm.insert hnev hfitv) (fun w hw => hres w (mem_cons_of_mem _ hw))
        (fun w hw => hne w (mem_cons_of_mem _ hw))
        (fun w hw => Extents.fits_insert (hfit w (mem_cons_of_mem _ hw)) (hhead w hw)) htail

theorem UserSpace.runTransaction_eq_ok {s s' : UserSpace} :
    s.runTransaction ops = .ok s' ↔ ∃ vmas, Uspace.runOps s.vmas ops = .ok vmas ∧
      s' = { s with vmas := vmas, table := (unmaps ops).foldl tryUnmap s.table } := by
  unfold runTransaction
  rw [bind_eq_ok]
  constructor
  · rintro ⟨vmas, hrun, hs'⟩
    cases hs'
    exact ⟨vmas, hrun, rfl⟩
  · rintro ⟨vmas, hrun, rfl⟩
    exact ⟨vmas, hrun, rfl⟩

theorem cutRange_spec (h : a.range.intersects range) :
    (cutRange a range).start = max a.range.start range.start ∧
      (cutRange a range).stop = min a.range.stop range.stop ∧
      (a.range.start < a.range.stop → range.start < range.stop →
        (cutRange a range).start < (cutRange a range).stop) := by
  unfold VirtPageRange.intersects at h
  simp only [cutRange, VirtPageRange.stop] at *
  refine ⟨trivial, ?_, ?_⟩
  all_goals omega

theorem vmoPidx_between {lo hi pidx : ℕ} (hlo : a.range.start ≤ lo) :
    a.vmoPidx lo ≤ pidx ∧ pidx < a.vmoPidx hi ↔
      ∃ vpn, lo ≤ vpn ∧ vpn < hi ∧ a.vmoPidx vpn = pidx := by
  unfold vmoPidx
  constructor
  · intro h
    refine ⟨a.range.start + (pidx - a.poffset), ?_⟩
    omega
  · rintro ⟨vpn, hvlo, hvhi, heq⟩
    omega

theorem cutRange_contains (h : a.range.intersects range) (vpn : ℕ) :
    (cutRange a range).contains vpn ↔ Over a vpn ∧ range.contains vpn := by
  obtain ⟨hstart, hstop, -⟩ := cutRange_spec h
  unfold VirtPageRange.contains
  rw [hstart, hstop]
  change _ ↔ (a.range.start ≤ vpn ∧ vpn < a.range.stop) ∧ _
  omega

/-- The parts of an area, the one inside the range with another protection. -/
def VmArea.protectParts (a : VmArea) (range : VirtPageRange) (prot : Protection) : List VmArea :=
  (if a.range.start < range.start then [a.below (cutRange a range).start] else []) ++
  [{ a.slice (cutRange a range) with prot := prot }] ++
  (if range.stop < a.range.stop then [a.above (cutRange a range).stop] else [])

/-- The part of an area inside the source of a move, at its place in the target. -/
def VmArea.moved (a : VmArea) (source : VirtPageRange) (targetStart : ℕ) : VmArea :=
  { a.slice (cutRange a source) with
    range := ⟨targetStart + ((cutRange a source).start - source.start),
      (cutRange a source).stop - (cutRange a source).start⟩ }

section Cut

variable {a : VmArea} {range : VirtPageRange} (ha : a.range.start < a.range.stop)
  (hrange : range.start < range.stop) (h : a.range.intersects range)

include ha hrange h

theorem isPiece_cut : IsPiece a (a.slice (cutRange a range)) := by
  obtain ⟨hstart, hstop, hne⟩ := cutRange_spec h
  apply isPiece_slice
  · omega
  · exact hne ha hrange
  · omega

theorem split_cut : a.split (cutRange a range).start =
        .ok (if a.range.start < range.start then some (a.below (cutRange a range).start) else none,
          some (a.above (cutRange a range).start)) ∧
      (a.above (cutRange a range).start).split (cutRange a range).stop =
        .ok (some (a.slice (cutRange a range)),
          if range.stop < a.range.stop then some (a.above (cutRange a range).stop) else none) := by
  obtain ⟨hstart, hstop, hne⟩ := cutRange_spec h
  have hcut := hne ha hrange
  have hstart_le : a.range.start ≤ (cutRange a range).start := by omega
  have habove : (a.above (cutRange a range).start).range.stop = a.range.stop :=
    above_stop (by omega)
  have hslice : (a.above (cutRange a range).start).below (cutRange a range).stop
      = a.slice (cutRange a range) := by
    have hlen : (cutRange a range).stop - (cutRange a range).start = (cutRange a range).npages := by
      simp only [VirtPageRange.stop]
      omega
    simp only [below, above, slice, hlen]
  constructor
  · rw [split_eq hstart_le (by omega)]
    congr 3
    · simp only [gt_iff_lt, eq_iff_iff]
      omega
    · rw [if_pos (by omega)]
  · rw [split_eq (a := a.above (cutRange a range).start) hcut.le (by omega), hslice, habove,
      above_above hstart_le hcut.le (by omega)]
    congr 3
    · exact if_pos hcut
    · simp only [eq_iff_iff]
      omega

/-- **The protect composer takes one area out and puts back its parts**, the
middle one with the new protection. -/
theorem protectOps_eq (prot : Protection) (k : ℕ) :
    protectOps range prot k a = .ok ([.remove k] ++ (a.protectParts range prot).map .insert ++
      [.unmap (cutRange a range)]) := by
  obtain ⟨hleft, hright⟩ := split_cut ha hrange h
  simp only [protectOps, hleft, hright, unwrap_ok, ok_bind, expect_some, pure_eq, protectParts]
  split_ifs <;> rfl

theorem movedArea_eq (targetStart : ℕ) :
    movedArea range targetStart a = .ok (a.moved range targetStart) := by
  obtain ⟨hleft, hright⟩ := split_cut ha hrange h
  simp only [movedArea, hleft, hright, unwrap_ok, ok_bind, expect_some]
  rfl

end Cut

/-- Areas found in a range: they are nonempty and meet it. -/
def Meeting (range : VirtPageRange) (es : List (ℕ × VmArea)) : Prop :=
  ∀ e ∈ es, e.2.range.start < e.2.range.stop ∧ e.2.range.intersects range

variable {e : ℕ × VmArea}

theorem Meeting.tail (h : Meeting range (e :: es)) :
    Meeting range es := fun x hx =>
  h x (mem_cons_of_mem _ hx)

def HasReserved (es : List (ℕ × VmArea)) : Prop := ∃ e ∈ es, e.2.reservation ≠ none

theorem not_hasReserved_cons :
    ¬ HasReserved (e :: es) ↔ e.2.reservation = none ∧ ¬ HasReserved es := by
  simp [HasReserved]

theorem HasReserved.tail (h : HasReserved (e :: es)) (hres : e.2.reservation = none) :
    HasReserved es :=
  by_contra fun hno => not_hasReserved_cons.mpr ⟨hres, hno⟩ h

theorem composeUnmapOps_error (h : HasReserved es) :
    composeUnmapOps range es = .error .permissionDenied := by
  induction es with
  | nil => simp [HasReserved] at h
  | cons e es ih =>
    unfold composeUnmapOps
    by_cases hres : e.2.reservation = none
    · have hrest := h.tail hres
      rw [if_neg (by simp [hres]), ih hrest]
    · rw [if_pos hres]

theorem composeUnmapOps_ok (h : ¬ HasReserved es) :
    composeUnmapOps range es = .ok (es.flatMap fun e => unmapOps range e.1 e.2) := by
  induction es with
  | nil => rfl
  | cons e es ih =>
    obtain ⟨hres, hrest⟩ := not_hasReserved_cons.mp h
    unfold composeUnmapOps
    rw [if_neg (by simp [hres]), ih hrest]
    rfl

theorem not_insert_mem_unmapScript (a : VmArea) :
    .insert a ∉ es.flatMap fun e => unmapOps range e.1 e.2 := by
  intro hmem
  obtain ⟨e, -, he⟩ := mem_flatMap.mp hmem
  simp only [unmapOps, mem_cons, not_mem_nil, or_false, reduceCtorEq] at he
  split_ifs at he

/-- The operations of the protect script for one area: none when it does not change. -/
def protectScript (range : VirtPageRange) (prot : Protection) (e : ℕ × VmArea) :
    List VmOperation :=
  if e.2.prot = prot then []
  else [.remove e.1] ++ (e.2.protectParts range prot).map .insert ++ [.unmap (cutRange e.2 range)]

section Meeting

variable {range : VirtPageRange} (hrange : range.start < range.stop)
  {es : List (ℕ × VmArea)} (hes : Meeting range es)

include hrange hes

/-- **One reserved area makes the protect composer refuse**, whatever the other
areas are. -/
theorem composeProtectOps_error (prot : Protection) (h : HasReserved es) :
    composeProtectOps range prot es = .ok (.error .permissionDenied) := by
  induction es with
  | nil => simp [HasReserved] at h
  | cons e es ih =>
    unfold composeProtectOps
    by_cases hres : e.2.reservation = none
    · have hrest := h.tail hres
      obtain ⟨hne, hmeet⟩ := hes e mem_cons_self
      rw [if_neg (by simp [hres]), ih hes.tail hrest, protectOps_eq hne hrange hmeet]
      split_ifs <;> rfl
    · rw [if_pos hres]
      rfl

theorem composeProtectOps_ok (prot : Protection) (h : ¬ HasReserved es) :
    composeProtectOps range prot es = .ok (.ok (es.flatMap (protectScript range prot))) := by
  induction es with
  | nil => rfl
  | cons e es ih =>
    obtain ⟨hres, hrest⟩ := not_hasReserved_cons.mp h
    obtain ⟨hne, hmeet⟩ := hes e mem_cons_self
    unfold composeProtectOps
    rw [if_neg (by simp [hres]), ih hes.tail hrest, protectOps_eq hne hrange hmeet,
      flatMap_cons, protectScript]
    split_ifs <;> rfl

theorem collectMovable_error (targetStart : ℕ) (h : HasReserved es) :
    collectMovable range targetStart es = .ok (.error .permissionDenied) := by
  induction es with
  | nil => simp [HasReserved] at h
  | cons e es ih =>
    unfold collectMovable
    by_cases hres : e.2.reservation = none
    · have hrest := h.tail hres
      obtain ⟨hne, hmeet⟩ := hes e mem_cons_self
      rw [if_neg (by simp [hres]), ih hes.tail hrest, movedArea_eq hne hrange hmeet]
      rfl
    · rw [if_pos hres]
      rfl

theorem collectMovable_ok (targetStart : ℕ) (h : ¬ HasReserved es) :
    collectMovable range targetStart es =
      .ok (.ok (es.map fun e => e.2.moved range targetStart)) := by
  induction es with
  | nil => rfl
  | cons e es ih =>
    obtain ⟨hres, hrest⟩ := not_hasReserved_cons.mp h
    obtain ⟨hne, hmeet⟩ := hes e mem_cons_self
    unfold collectMovable
    rw [if_neg (by simp [hres]), ih hes.tail hrest, movedArea_eq hne hrange hmeet]
    rfl

end Meeting

end Anemone.Uspace
