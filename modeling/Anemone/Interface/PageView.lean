import Anemone.Library.Extents
import Anemone.Model.UserSpace

/-!
# An address space as a page map

What the areas of an address space say about one page is a `PageView`.  The map of areas is then a
partial function from pages to views, and the edits of the address space have a meaning on that
function that does not mention areas.  `Registry` is the invariant that the function rests on.
-/

namespace Anemone.Uspace

open Ranges (VirtPageRange)
open Extents (WellKeyed Over look covering)

instance : Extent VmArea where
  lo a := a.range.start
  hi a := a.range.stop

/-! ## Views -/

/-- What an address space says about one of its pages. -/
structure PageView where
  backing : VmObject
  pidx : ℕ
  prot : Protection
  onFork : ForkPolicy
  reservation : Option VmReservation
deriving DecidableEq, Repr

def VmArea.view (a : VmArea) (vpn : ℕ) : PageView :=
  ⟨a.backing, a.vmoPidx vpn, a.prot, a.onFork, a.reservation⟩

/-- The page map of a map of areas. -/
def viewOf (vmas : OrderedMap VmArea) (vpn : ℕ) : Option PageView :=
  (UserSpace.findVma vmas vpn).map fun a => a.view vpn

def UserSpace.view (s : UserSpace) (vpn : ℕ) : Option PageView := viewOf s.vmas vpn

theorem findVma_eq_covering (vmas : OrderedMap VmArea) (vpn : ℕ) :
    UserSpace.findVma vmas vpn = covering vmas vpn := by
  unfold UserSpace.findVma covering
  cases (vmas.rangeBelow (vpn + 1)).getLast? <;> rfl

theorem viewOf_eq_look (vmas : OrderedMap VmArea) (vpn : ℕ) :
    viewOf vmas vpn = look VmArea.view vmas vpn := by
  unfold viewOf look
  rw [findVma_eq_covering]

/-- A page map: the meaning of an address space. -/
abbrev PageMap : Type := ℕ → Option PageView

namespace PageMap

def clear (f : PageMap) (range : VirtPageRange) : PageMap := fun vpn =>
  if range.contains vpn then none else f vpn

/-- The pages of an area say what the area says. -/
def put (f : PageMap) (area : VmArea) : PageMap := fun vpn =>
  if area.range.contains vpn then some (area.view vpn) else f vpn

def protect (f : PageMap) (range : VirtPageRange) (prot : Protection) : PageMap := fun vpn =>
  if range.contains vpn then (f vpn).map fun v => { v with prot := prot } else f vpn

/-- Some page of the range belongs to the stack, the heap or a guard. -/
def Touches (f : PageMap) (range : VirtPageRange) : Prop :=
  ∃ vpn v, range.contains vpn ∧ f vpn = some v ∧ v.reservation ≠ none

def Covers (f : PageMap) (range : VirtPageRange) : Prop :=
  ∀ vpn, range.contains vpn → f vpn ≠ none

end PageMap

/-! ## Which edits are refused -/

namespace UserSpace

/-- The range is refused: empty, at page 0, above the top, or with a reservation in it. -/
def RefusesUnmap (L : Layout) (s : UserSpace) (range : VirtPageRange) : Prop :=
  range.npages = 0 ∨ range.start = 0 ∨ L.uspaceTopVpn < range.stop ∨ PageMap.Touches s.view range

/-- Some page of the range has another protection. -/
def Differs (s : UserSpace) (range : VirtPageRange) (prot : Protection) : Prop :=
  ∃ vpn v, range.contains vpn ∧ s.view vpn = some v ∧ v.prot ≠ prot

/-- The range can be protected: it is a mapped range of user pages, and either nothing in it
changes or nothing in it is a reservation. -/
def AllowsProtect (L : Layout) (s : UserSpace) (range : VirtPageRange) (prot : Protection) :
    Prop :=
  (range.npages ≠ 0 ∧ range.start ≠ 0 ∧ range.stop ≤ L.uspaceTopVpn) ∧
    PageMap.Covers s.view range ∧ (¬ s.Differs range prot ∨ ¬ PageMap.Touches s.view range)

/-- The range can be mapped: a range of user pages that meets no area. -/
def Available (L : Layout) (s : UserSpace) (range : VirtPageRange) : Prop :=
  validateRange L range = .ok () ∧
    ∀ (k : ℕ) (a : VmArea), s.vmas[k]? = some a → ¬ a.range.intersects range

/-- The range lies in the heap below the program break, where only leaves are rewritten. -/
def OnHeapPath (L : Layout) (s : UserSpace) (range : VirtPageRange) : Prop :=
  L.heapRange.covers range ∧ range.stop ≤ pageUp s.heap.brk

end UserSpace

/-! ## Pieces of an area -/

/-- A nonempty part of an area that views the same pages of the object. -/
structure IsPiece (a b : VmArea) : Prop where
  start_le : a.range.start ≤ b.range.start
  nonempty : b.range.start < b.range.stop
  stop_le : b.range.stop ≤ a.range.stop
  poffset : b.poffset = a.poffset + (b.range.start - a.range.start)
  same : b.prot = a.prot ∧ b.onFork = a.onFork ∧ b.flags = a.flags ∧
    b.reservation = a.reservation ∧ b.backing = a.backing

theorem IsPiece.view_eq {a b : VmArea} (h : IsPiece a b) {vpn : ℕ} (hv : Over b vpn) :
    b.view vpn = a.view vpn := by
  obtain ⟨hprot, hfork, -, hres, hback⟩ := h.same
  have hstart := h.start_le
  have hover : b.range.start ≤ vpn := hv.1
  have hpidx : b.vmoPidx vpn = a.vmoPidx vpn := by
    unfold VmArea.vmoPidx
    rw [h.poffset]
    omega
  unfold VmArea.view
  rw [hprot, hfork, hres, hback, hpidx]

theorem IsPiece.over {a b : VmArea} (h : IsPiece a b) {vpn : ℕ} (hv : Over b vpn) :
    Over a vpn :=
  ⟨h.start_le.trans hv.1, hv.2.trans_le h.stop_le⟩

/-! ## The registry invariant -/

/-- The `max_pages` of the anonymous object a chain of shadows ends in. -/
def VmObject.anonPages : VmObject → Option ℕ
  | .anon _ maxPages => some maxPages
  | .shadow _ parent => parent.anonPages
  | .empty => none
  | .external _ => none

/-- The pages an area views are pages of the anonymous object below it. -/
def VmArea.ViewsWithin (a : VmArea) : Prop :=
  ∀ maxPages, a.backing.anonPages = some maxPages → a.poffset + a.range.npages ≤ maxPages

def Reserved (vmas : OrderedMap VmArea) (range : VirtPageRange) (r : VmReservation) : Prop :=
  ∃ a : VmArea, vmas[range.start]? = some a ∧ a.range = range ∧ a.reservation = some r

/-- The invariant of the map of areas. -/
structure Registry (L : Layout) (vmas : OrderedMap VmArea) : Prop where
  keyed : ∀ (k : ℕ) (a : VmArea), vmas[k]? = some a → a.range.start = k
  nonempty : ∀ (k : ℕ) (a : VmArea), vmas[k]? = some a → 0 < a.range.npages
  disjoint : ∀ (k k' : ℕ) (a a' : VmArea), vmas[k]? = some a → vmas[k']? = some a' → k ≠ k' →
    ¬ a.range.intersects a'.range
  below_top : ∀ (k : ℕ) (a : VmArea), vmas[k]? = some a → a.range.stop ≤ L.uspaceTopVpn
  stack : Reserved vmas L.stackRange .stack
  stackGuard : Reserved vmas L.stackGuardRange .guard
  heap : Reserved vmas L.heapRange .heap
  zeroGuard : Reserved vmas Layout.zeroGuardRange .guard
  within : ∀ (k : ℕ) (a : VmArea), vmas[k]? = some a → a.ViewsWithin

/-- The address space keeps the registry, and its stack and heap records point into it. -/
structure Registered (L : Layout) (s : UserSpace) : Prop where
  registry : Registry L s.vmas
  stack_svpn : s.stack.svpn = L.stackRange.start
  heap_svpn : s.heap.svpn = L.heapRange.start

theorem Registry.wellKeyed {L : Layout} {vmas : OrderedMap VmArea} (h : Registry L vmas) :
    WellKeyed vmas where
  key := h.keyed
  nonempty k a ha := by
    have := h.nonempty k a ha
    change a.range.start < a.range.start + a.range.npages
    omega
  apart k k' a a' ha ha' hlt := by
    have hkey := h.keyed k a ha
    have hkey' := h.keyed k' a' ha'
    have hne := h.nonempty k a ha
    have hne' := h.nonempty k' a' ha'
    have hdis := h.disjoint k k' a a' ha ha' (Nat.ne_of_lt hlt)
    simp only [VirtPageRange.intersects, VirtPageRange.stop] at hdis
    change a.range.start + a.range.npages ≤ k'
    omega

end Anemone.Uspace
