import Anemone.Model.RangeAllocator

/-!
# User address spaces: areas and their edits

A `UserSpace` (mm/uspace) keeps its virtual memory areas in an ordered map keyed by their first
page.  Edits are composed into a script of small operations on that map, and the script is then
run; the composer promises that it cannot fail, and the runner asserts it.

Page numbers are natural numbers: every range a caller hands in comes from a byte address and a
byte count.  The debug-only assertions, the obligations to flush remote translation caches and the
frames and page tables kept alive until then are left out: they never decide an edit.  What the
backing objects hold is in `Anemone.Model.PageMemory`.
-/

namespace Anemone.Ranges.VirtPageRange

/-! ## Page ranges -/

/-- One past the last page, `VirtPageRange::end`. -/
def stop (r : VirtPageRange) : ℕ := r.start + r.npages

def contains (r : VirtPageRange) (pn : ℕ) : Prop := r.start ≤ pn ∧ pn < r.stop

def intersects (r other : VirtPageRange) : Prop := r.start < other.stop ∧ other.start < r.stop

def covers (r other : VirtPageRange) : Prop := r.start ≤ other.start ∧ other.stop ≤ r.stop

instance (r : VirtPageRange) (pn : ℕ) : Decidable (r.contains pn) :=
  inferInstanceAs (Decidable (_ ∧ _))

instance (r other : VirtPageRange) : Decidable (r.intersects other) :=
  inferInstanceAs (Decidable (_ ∧ _))

instance (r other : VirtPageRange) : Decidable (r.covers other) :=
  inferInstanceAs (Decidable (_ ∧ _))

end Anemone.Ranges.VirtPageRange

namespace Anemone.Uspace

open Checked (assert expect unwrap)
open Ranges (VirtPageRange)

inductive SysError where
  | invalidArgument
  | outOfMemory
  | alreadyMapped
  | notMapped
  | rangeNotMapped
  | permissionDenied
  | notSupported
deriving DecidableEq, Repr

/-- The constants a kernel build fixes, and what its layout has to leave room for: page 0,
the heap, one guard page and the stack. -/
structure Layout where
  uspaceTopVpn : ℕ
  maxUserStackPages : ℕ
  initUserStackPages : ℕ
  maxHeapPages : ℕ
  userFaultWindowPages : ℕ
  stack_pos : 0 < maxUserStackPages
  heap_pos : 0 < maxHeapPages
  window_pos : 0 < userFaultWindowPages
  init_le : initUserStackPages ≤ maxUserStackPages
  fits : 1 + maxHeapPages + 1 + maxUserStackPages ≤ uspaceTopVpn

/-- The Sv39 layout with the default configuration. -/
def Layout.sv39 : Layout where
  uspaceTopVpn := 2 ^ 26
  maxUserStackPages := 2 ^ 11
  initUserStackPages := 2 ^ 5
  maxHeapPages := 2 ^ 20
  userFaultWindowPages := 8
  stack_pos := by decide
  heap_pos := by decide
  window_pos := by decide
  init_le := by decide
  fits := by decide

def pageSize : ℕ := 4096

def toVirtAddr (vpn : ℕ) : ℕ := vpn * pageSize

def pageDown (addr : ℕ) : ℕ := addr / pageSize

def pageUp (addr : ℕ) : ℕ := (addr + pageSize - 1) / pageSize

/-! ## Areas -/

structure Protection where
  read : Bool
  write : Bool
  execute : Bool
deriving DecidableEq, Repr

namespace Protection

def empty : Protection := ⟨false, false, false⟩

def rw : Protection := ⟨true, true, false⟩

def contains (p q : Protection) : Prop :=
  (q.read → p.read) ∧ (q.write → p.write) ∧ (q.execute → p.execute)

instance (p q : Protection) : Decidable (p.contains q) :=
  inferInstanceAs (Decidable (_ ∧ _ ∧ _))

end Protection

/-- Whether a fork shares the backing of an area or shadows it on both sides. -/
inductive ForkPolicy where
  | shared
  | copyOnWrite
deriving DecidableEq, Repr

inductive VmReservation where
  | stack
  | heap
  | guard
deriving DecidableEq, Repr

structure VmFlags where
  growDown : Bool
deriving DecidableEq, Repr

def VmFlags.empty : VmFlags := ⟨false⟩

/-- A backing object.  `object` is the identity of the allocation; an `external` object is
one of the other implementations of the trait: an inode's page cache, a SysV segment, the
load object of an executable. -/
inductive VmObject where
  | anon (object : ℕ) (maxPages : ℕ)
  | shadow (object : ℕ) (parent : VmObject)
  | empty
  | external (object : ℕ)
deriving DecidableEq, Repr

structure VmArea where
  range : VirtPageRange
  /-- The page of the backing object that `range.start` views. -/
  poffset : ℕ
  prot : Protection
  onFork : ForkPolicy
  flags : VmFlags
  reservation : Option VmReservation
  backing : VmObject
deriving DecidableEq, Repr

namespace VmArea

/-- `VmArea::new`: an area that is not a reservation. -/
def new (range : VirtPageRange) (poffset : ℕ) (prot : Protection) (onFork : ForkPolicy)
    (flags : VmFlags) (backing : VmObject) : VmArea :=
  ⟨range, poffset, prot, onFork, flags, none, backing⟩

def newReserved (range : VirtPageRange) (poffset : ℕ) (prot : Protection)
    (onFork : ForkPolicy) (flags : VmFlags) (reservation : VmReservation)
    (backing : VmObject) : VmArea :=
  ⟨range, poffset, prot, onFork, flags, some reservation, backing⟩

def vmoPidx (a : VmArea) (vpn : ℕ) : ℕ := a.poffset + (vpn - a.range.start)

def split (a : VmArea) (cut : ℕ) : Except SysError (Option VmArea × Option VmArea) :=
  if cut < a.range.start ∨ cut > a.range.stop then .error .invalidArgument
  else .ok
    (if cut > a.range.start then some { a with range := ⟨a.range.start, cut - a.range.start⟩ }
      else none,
     if cut < a.range.stop then
        some { a with
          range := ⟨cut, a.range.stop - cut⟩
          poffset := a.poffset + (cut - a.range.start) }
      else none)

/-- Trimming the whole area is refused. -/
def trimStart (a : VmArea) (npages : ℕ) : Except SysError VmArea :=
  if npages ≥ a.range.npages then .error .invalidArgument
  else .ok { a with
    range := ⟨a.range.start + npages, a.range.npages - npages⟩
    poffset := a.poffset + npages }

def trimEnd (a : VmArea) (npages : ℕ) : Except SysError VmArea :=
  if npages ≥ a.range.npages then .error .invalidArgument
  else .ok { a with range := ⟨a.range.start, a.range.npages - npages⟩ }

end VmArea

/-! ## Leaf page-table entries

Only the leaves of the user half of the page table are kept, by virtual page.  They are
all of base size and none is global, and every entry kept is valid.  What the calls on this map
have to do with page tables in memory is in `Anemone.Analysis.TableMirror`. -/

structure PteFlags where
  read : Bool
  write : Bool
  execute : Bool
  user : Bool
deriving DecidableEq, Repr

namespace PteFlags

def inter (f g : PteFlags) : PteFlags :=
  ⟨f.read && g.read, f.write && g.write, f.execute && g.execute, f.user && g.user⟩

def union (f g : PteFlags) : PteFlags :=
  ⟨f.read || g.read, f.write || g.write, f.execute || g.execute, f.user || g.user⟩

def compl (f : PteFlags) : PteFlags := ⟨!f.read, !f.write, !f.execute, !f.user⟩

def ofProtection (p : Protection) : PteFlags := ⟨p.read, p.write, p.execute, true⟩

end PteFlags

structure Pte where
  ppn : ℕ
  flags : PteFlags
deriving DecidableEq, Repr

inductive LeafPteCommit where
  | added
  | unchanged
  | relaxed
  | replacedOrRestricted
deriving DecidableEq, Repr

/-- Every leaf of the range is cleared, `Mapper::try_unmap`. -/
def tryUnmap (table : OrderedMap Pte) (range : VirtPageRange) : OrderedMap Pte :=
  table.filter fun vpn _ => ¬ range.contains vpn

def changeFlags (table : OrderedMap Pte) (range : VirtPageRange)
    (op : PteFlags → Option PteFlags) : OrderedMap Pte :=
  table.map fun vpn pte =>
    if range.contains vpn then { pte with flags := (op pte.flags).getD pte.flags } else pte

/-! ## Address spaces -/

structure Stack where
  svpn : ℕ
  committedBottom : ℕ
deriving DecidableEq, Repr

structure Heap where
  svpn : ℕ
  brk : ℕ
deriving DecidableEq, Repr

structure UserSpace where
  table : OrderedMap Pte
  vmas : OrderedMap VmArea
  stack : Stack
  heap : Heap

/-- What a fallible method on `&mut self` returns: the state is there in both cases. -/
abbrev Outcome (α : Type) : Type := Except SysError α × UserSpace

/-- `assert!(map.insert(start, vma).is_none())`. -/
def insertNew (vmas : OrderedMap VmArea) (start : ℕ) (vma : VmArea) :
    Checked (OrderedMap VmArea) := do
  assert (vmas[start]? = none) "vmas.insert(start, vma).is_none()"
  pure (vmas.insert start vma)

namespace Layout

variable (L : Layout)

def stackRange : VirtPageRange := ⟨L.uspaceTopVpn - L.maxUserStackPages, L.maxUserStackPages⟩

def stackGuardRange : VirtPageRange := ⟨L.uspaceTopVpn - L.maxUserStackPages - 1, 1⟩

def heapRange : VirtPageRange := ⟨1, L.maxHeapPages⟩

end Layout

def Layout.zeroGuardRange : VirtPageRange := ⟨0, 1⟩

namespace UserSpace

/-- `UserSpace::new`, with the identities of the stack's and the heap's object. -/
def new (L : Layout) (stackObject heapObject : ℕ) : Checked UserSpace := do
  let stackVma := VmArea.newReserved L.stackRange 0 .rw .copyOnWrite .empty .stack
    (.anon stackObject L.maxUserStackPages)
  let stackGuardVma := VmArea.newReserved L.stackGuardRange 0 .empty .shared .empty .guard .empty
  let heapVma := VmArea.newReserved L.heapRange 0 .rw .copyOnWrite .empty .heap
    (.anon heapObject L.maxHeapPages)
  let zeroGuardVma := VmArea.newReserved Layout.zeroGuardRange 0 .empty .shared .empty .guard .empty
  let vmas ← insertNew ∅ stackVma.range.start stackVma
  let vmas ← insertNew vmas stackGuardVma.range.start stackGuardVma
  let vmas ← insertNew vmas heapVma.range.start heapVma
  let vmas ← insertNew vmas zeroGuardVma.range.start zeroGuardVma
  pure
    { table := ∅
      vmas := vmas
      stack := ⟨L.stackRange.start, L.stackRange.stop - L.initUserStackPages⟩
      heap := ⟨L.heapRange.start, toVirtAddr L.heapRange.start⟩ }

def stackVma (s : UserSpace) : Checked VmArea :=
  expect s.vmas[s.stack.svpn]? "stack reservation must stay registered"

def heapVma (s : UserSpace) : Checked VmArea :=
  expect s.vmas[s.heap.svpn]? "heap reservation must stay registered"

/-- The area that covers a page, `find_vma`. -/
def findVma (vmas : OrderedMap VmArea) (vpn : ℕ) : Option VmArea :=
  match (vmas.rangeBelow (vpn + 1)).getLast? with
  | some (_, area) => if area.range.contains vpn then some area else none
  | none => none

/-! ## Looking up ranges -/

/-- The areas that meet the range, in ascending order, with the starts they are found at. -/
def findIntersectionStarts (s : UserSpace) (range : VirtPageRange) : List (ℕ × VmArea) :=
  (s.vmas.rangeBelow range.stop).filter fun e => e.2.range.intersects range

def validateRange (L : Layout) (range : VirtPageRange) : Except SysError Unit :=
  if range.npages = 0 ∨ range.stop > L.uspaceTopVpn ∨ range.start = 0 then
    .error .invalidArgument
  else .ok ()

/-- The loop of `find_intersection_starts_covering`: whether the areas leave no gap. -/
def coveredBy (range : VirtPageRange) : ℕ → List (ℕ × VmArea) → Bool
  | _, [] => false
  | coveredUntil, (_, vma) :: rest =>
    if vma.range.start > coveredUntil then false
    else
      let coveredUntil := max coveredUntil (min vma.range.stop range.stop)
      if coveredUntil ≥ range.stop then true else coveredBy range coveredUntil rest

def findIntersectionStartsCovering (L : Layout) (s : UserSpace) (range : VirtPageRange) :
    Except SysError (List (ℕ × VmArea)) :=
  match validateRange L range with
  | .error e => .error e
  | .ok () =>
    let starts := s.findIntersectionStarts range
    if coveredBy range range.start starts then .ok starts else .error .rangeNotMapped

/-- Zero-length ranges are not available. -/
def isRangeAvail (L : Layout) (s : UserSpace) (range : VirtPageRange) : Bool :=
  match validateRange L range with
  | .error _ => false
  | .ok () => s.vmas.toList.all fun e => ¬ e.2.range.intersects range

/-- The downward walk over the gaps between areas, the highest area first. -/
def findGap (npages : ℕ) : List (ℕ × VmArea) → ℕ → Option ℕ
  | [], _ => none
  | (_, vma) :: rest, gapEnd =>
    if gapEnd ≥ vma.range.stop + npages then some (gapEnd - npages)
    else findGap npages rest vma.range.start

def findAvailRange (L : Layout) (s : UserSpace) (npages : ℕ) (hint : Option ℕ) :
    Checked (Option ℕ) := do
  assert (npages ≠ 0) "mapping zero pages is not allowed."
  match hint with
  | some hint =>
    if s.isRangeAvail L ⟨hint, npages⟩ then pure (some hint)
    else pure (findGap npages s.vmas.toList.reverse L.uspaceTopVpn)
  | none => pure (findGap npages s.vmas.toList.reverse L.uspaceTopVpn)

end UserSpace

/-! ## Scripts -/

inductive VmOperation where
  | remove (start : ℕ)
  | trimStart (start npages : ℕ)
  | trimEnd (start npages : ℕ)
  | punchHole (start : ℕ) (hole : VirtPageRange)
  | insert (vma : VmArea)
  | unmap (range : VirtPageRange)
deriving DecidableEq, Repr

/-- The areas left and right of a hole; both must be there. -/
def punch (vma : VmArea) (hole : VirtPageRange) : Checked (VmArea × VmArea) := do
  let (left, middleAndRight) ← unwrap (vma.split hole.start)
    "hole start must split inside the original VMA"
  let middleAndRight ← expect middleAndRight "hole split must leave a middle/right portion"
  let (_, right) ← unwrap (middleAndRight.split hole.stop)
    "hole end must split inside the remaining VMA"
  let left ← expect left "punch-hole op must produce a left VMA"
  let right ← expect right "punch-hole op must produce a right VMA"
  pure (left, right)

/-- One operation on the map of areas.  `unmap` is deferred to the end of the script. -/
def runOp (vmas : OrderedMap VmArea) : VmOperation → Checked (OrderedMap VmArea)
  | .remove start => do
    let removed ← expect vmas[start]? "remove op must target an existing VMA"
    assert (removed.reservation = none) "removed.reservation().is_none()"
    pure (vmas.erase start)
  | .trimStart start npages => do
    let vma ← expect vmas[start]? "trim-start op must target an existing VMA"
    assert (vma.reservation = none) "vma.reservation().is_none()"
    let vma ← unwrap (vma.trimStart npages) "trim-start op must keep a non-empty VMA"
    insertNew (vmas.erase start) vma.range.start vma
  | .trimEnd start npages => do
    let vma ← expect vmas[start]? "trim-end op must target an existing VMA"
    assert (vma.reservation = none) "vma.reservation().is_none()"
    let vma ← unwrap (vma.trimEnd npages) "trim-end op must keep a non-empty VMA"
    pure (vmas.insert start vma)
  | .punchHole start hole => do
    let vma ← expect vmas[start]? "punch-hole op must target an existing VMA"
    assert (vma.reservation = none) "vma.reservation().is_none()"
    let (left, right) ← punch vma hole
    let vmas ← insertNew (vmas.erase start) left.range.start left
    insertNew vmas right.range.start right
  | .insert vma => do
    assert (vma.reservation = none) "vma.reservation().is_none()"
    assert (vmas.toList.all fun e => ¬ e.2.range.intersects vma.range)
      "!any(|current| current.range().intersects(vma.range()))"
    insertNew vmas vma.range.start vma
  | .unmap _ => pure vmas

def runOps (vmas : OrderedMap VmArea) (ops : List VmOperation) : Checked (OrderedMap VmArea) :=
  ops.foldlM runOp vmas

/-- The ranges whose leaves a script clears. -/
def unmaps (ops : List VmOperation) : List VirtPageRange :=
  ops.filterMap fun
    | .unmap range => some range
    | _ => none

namespace UserSpace

def runTransaction (s : UserSpace) (ops : List VmOperation) : Checked UserSpace := do
  let vmas ← runOps s.vmas ops
  pure { s with vmas := vmas, table := (unmaps ops).foldl tryUnmap s.table }

end UserSpace

/-! ## Composing scripts -/

def cutRange (vma : VmArea) (range : VirtPageRange) : VirtPageRange :=
  let cutStart := max vma.range.start range.start
  let cutEnd := min vma.range.stop range.stop
  ⟨cutStart, cutEnd - cutStart⟩

/-- The operations that take one area out of a range. -/
def unmapOps (range : VirtPageRange) (start : ℕ) (vma : VmArea) : List VmOperation :=
  let cut := cutRange vma range
  [if range.covers vma.range then .remove start
   else if range.start ≤ vma.range.start then .trimStart start (cut.stop - vma.range.start)
   else if vma.range.stop ≤ range.stop then .trimEnd start (vma.range.stop - cut.start)
   else .punchHole start cut,
   .unmap cut]

/-- The operations that give one area's part of a range another protection. -/
def protectOps (range : VirtPageRange) (prot : Protection) (start : ℕ) (vma : VmArea) :
    Checked (List VmOperation) := do
  let cut := cutRange vma range
  let (left, maybeTarget) ← unwrap (vma.split cut.start)
    "protect composer must split on an intersecting VMA boundary"
  let maybeTarget ← expect maybeTarget
    "protect composer must retain the intersecting target segment"
  let (target, right) ← unwrap (maybeTarget.split cut.stop)
    "protect composer must split the target segment end"
  let target ← expect target "protect composer must produce a target VMA"
  pure ([.remove start] ++ left.toList.map .insert ++ [.insert { target with prot := prot }] ++
    right.toList.map .insert ++ [.unmap cut])

/-- The part of an area inside the source of a move, at its place in the target. -/
def movedArea (source : VirtPageRange) (targetStart : ℕ) (vma : VmArea) : Checked VmArea := do
  let cut := cutRange vma source
  let (_, maybeTarget) ← unwrap (vma.split cut.start)
    "remap source must split on an intersecting VMA boundary"
  let maybeTarget ← expect maybeTarget "remap source split must leave a target segment"
  let (target, _) ← unwrap (maybeTarget.split cut.stop)
    "remap source end must split on an intersecting VMA boundary"
  let target ← expect target "remap source must produce a target VMA"
  pure { target with
    range := ⟨targetStart + (cut.start - source.start), cut.stop - cut.start⟩ }

def composeUnmapOps (range : VirtPageRange) :
    List (ℕ × VmArea) → Except SysError (List VmOperation)
  | [] => .ok []
  | (start, vma) :: rest =>
    if vma.reservation ≠ none then .error .permissionDenied
    else
      match composeUnmapOps range rest with
      | .error e => .error e
      | .ok ops => .ok (unmapOps range start vma ++ ops)

def composeProtectOps (range : VirtPageRange) (prot : Protection) :
    List (ℕ × VmArea) → Checked (Except SysError (List VmOperation))
  | [] => pure (.ok [])
  | (start, vma) :: rest =>
    if vma.reservation ≠ none then pure (.error .permissionDenied)
    else if vma.prot = prot then composeProtectOps range prot rest
    else do
      let ops ← protectOps range prot start vma
      match ← composeProtectOps range prot rest with
      | .error e => pure (.error e)
      | .ok more => pure (.ok (ops ++ more))

def collectMovable (source : VirtPageRange) (targetStart : ℕ) :
    List (ℕ × VmArea) → Checked (Except SysError (List VmArea))
  | [] => pure (.ok [])
  | (_, vma) :: rest =>
    if vma.reservation ≠ none then pure (.error .permissionDenied)
    else do
      let target ← movedArea source targetStart vma
      match ← collectMovable source targetStart rest with
      | .error e => pure (.error e)
      | .ok more => pure (.ok (target :: more))

namespace UserSpace

def composeUnmapRange (L : Layout) (s : UserSpace) (range : VirtPageRange) :
    Except SysError (List VmOperation) :=
  match validateRange L range with
  | .error e => .error e
  | .ok () => composeUnmapOps range (s.findIntersectionStarts range)

def composeProtectRange (L : Layout) (s : UserSpace) (range : VirtPageRange)
    (prot : Protection) : Checked (Except SysError (List VmOperation)) :=
  match s.findIntersectionStartsCovering L range with
  | .error e => pure (.error e)
  | .ok starts => composeProtectOps range prot starts

def collectMovableVmas (L : Layout) (s : UserSpace) (source : VirtPageRange)
    (targetStart : ℕ) : Checked (Except SysError (List VmArea)) :=
  match s.findIntersectionStartsCovering L source with
  | .error e => pure (.error e)
  | .ok starts => collectMovable source targetStart starts

/-! ## Edits -/

def insertVma (L : Layout) (s : UserSpace) (vma : VmArea) : Checked (Outcome Unit) := do
  if s.isRangeAvail L vma.range then
    let vmas ← insertNew s.vmas vma.range.start vma
    pure (.ok (), { s with vmas := vmas })
  else pure (.error .alreadyMapped, s)

def unmapInner (L : Layout) (s : UserSpace) (range : VirtPageRange) : Checked (Outcome Unit) :=
  match s.composeUnmapRange L range with
  | .error e => pure (.error e, s)
  | .ok ops => do
    let s' ← s.runTransaction ops
    pure (.ok (), s')

def replaceRange (L : Layout) (s : UserSpace) (range : VirtPageRange) (new : VmArea) :
    Checked (Outcome Unit) := do
  if new.range ≠ range then pure (.error .invalidArgument, s)
  else
    assert (new.reservation = none) "replace_range must not install system-managed reservations"
    match s.composeUnmapRange L range with
    | .error e => pure (.error e, s)
    | .ok ops =>
      let s' ← s.runTransaction (ops ++ [.insert new])
      pure (.ok (), s')

/-- Where a mapping goes: a fixed hint is taken as it is. -/
def chooseStart (L : Layout) (s : UserSpace) (npages : ℕ) :
    Option (ℕ × Bool) → Checked (Option ℕ)
  | some (hint, true) => pure (some hint)
  | some (hint, false) => s.findAvailRange L npages (some hint)
  | none => s.findAvailRange L npages none

/-- A fixed mapping that clobbers replaces what is there; any other needs a free range. -/
def placeArea (L : Layout) (s : UserSpace) (clobbers : Bool) (range : VirtPageRange)
    (vma : VmArea) : Checked (Outcome Unit) :=
  if clobbers then s.replaceRange L range vma else s.insertVma L vma

/-- What `map_anonymous`, `map_file` and `map_object` share: they differ in the area they
build for the range that is chosen. -/
def mapArea (L : Layout) (s : UserSpace) (hint : Option (ℕ × Bool)) (clobber : Bool)
    (npages : ℕ) (area : VirtPageRange → Except SysError VmArea) : Checked (Outcome ℕ) := do
  match ← s.chooseStart L npages hint with
  | none => pure (.error .outOfMemory, s)
  | some vpn =>
    match validateRange L ⟨vpn, npages⟩, area ⟨vpn, npages⟩ with
    | .error e, _ => pure (.error e, s)
    | .ok (), .error e => pure (.error e, s)
    | .ok (), .ok vma =>
      let fixed := hint.any fun h => h.2
      let (r, s') ← s.placeArea L (fixed && clobber) ⟨vpn, npages⟩ vma
      pure (r.map fun _ => toVirtAddr vpn, s')

end UserSpace

structure AnonymousMapping where
  hint : Option (ℕ × Bool)
  clobber : Bool
  npages : ℕ
  prot : Protection
  shared : Bool
  flags : VmFlags
deriving DecidableEq, Repr

/-- `pages` is the inode's page cache, if it can be mapped at all. -/
structure FileMapping where
  hint : Option (ℕ × Bool)
  clobber : Bool
  npages : ℕ
  prot : Protection
  shared : Bool
  flags : VmFlags
  poffset : ℕ
  pages : Option ℕ
deriving DecidableEq, Repr

structure ObjectMapping where
  hint : Option (ℕ × Bool)
  clobber : Bool
  npages : ℕ
  prot : Protection
  onFork : ForkPolicy
  flags : VmFlags
  poffset : ℕ
  backing : VmObject
deriving DecidableEq, Repr

structure RemapMapping where
  oldRange : VirtPageRange
  newNpages : ℕ
  mayMove : Bool
  fixedTarget : Option ℕ
deriving DecidableEq, Repr

def forkPolicy (shared : Bool) : ForkPolicy := if shared then .shared else .copyOnWrite

namespace UserSpace

/-- `object` is the identity of the object the call allocates. -/
def mapAnonymous (L : Layout) (s : UserSpace) (object : ℕ) (mapping : AnonymousMapping) :
    Checked (Outcome ℕ) :=
  s.mapArea L mapping.hint mapping.clobber mapping.npages fun range =>
    .ok (.new range 0 mapping.prot (forkPolicy mapping.shared) mapping.flags
      (.anon object mapping.npages))

def mapFile (L : Layout) (s : UserSpace) (object : ℕ) (mapping : FileMapping) :
    Checked (Outcome ℕ) :=
  s.mapArea L mapping.hint mapping.clobber mapping.npages fun range =>
    match mapping.pages with
    | some pages =>
      .ok (.new range mapping.poffset mapping.prot (forkPolicy mapping.shared) mapping.flags
        (if mapping.shared then .external pages else .shadow object (.external pages)))
    | none => .error .notSupported

def mapObject (L : Layout) (s : UserSpace) (mapping : ObjectMapping) : Checked (Outcome ℕ) :=
  s.mapArea L mapping.hint mapping.clobber mapping.npages fun range =>
    .ok (.new range mapping.poffset mapping.prot mapping.onFork mapping.flags mapping.backing)

/-- `none` when no covered area changes, else whether one of them is restricted. -/
def protectionChangeRelation (L : Layout) (s : UserSpace) (range : VirtPageRange)
    (prot : Protection) : Except SysError (Option Bool) :=
  match s.findIntersectionStartsCovering L range with
  | .error e => .error e
  | .ok starts =>
    if starts.any fun e => e.2.prot ≠ prot then
      .ok (some (starts.any fun e => e.2.prot ≠ prot ∧ ¬ prot.contains e.2.prot))
    else .ok none

/-- The flag rewrite of the heap path: the permission bits become those of `prot`, the
others stay. -/
def heapFlags (prot : Protection) (oldFlags : PteFlags) : Option PteFlags :=
  let permissionMask : PteFlags := ⟨true, true, true, false⟩
  let newPermissions := PteFlags.ofProtection prot
  if oldFlags.inter permissionMask = newPermissions then none
  else some ((oldFlags.inter permissionMask.compl).union newPermissions)

/-- `protect_range`: below the program break only the leaves change. -/
def protectRange (L : Layout) (s : UserSpace) (range : VirtPageRange) (prot : Protection) :
    Checked (Outcome Unit) := do
  let heap ← s.heapVma
  if heap.range.covers range ∧ range.stop ≤ pageUp s.heap.brk then
    pure (.ok (), { s with table := changeFlags s.table range (heapFlags prot) })
  else
    match s.protectionChangeRelation L range prot with
    | .error e => pure (.error e, s)
    | .ok none => pure (.ok (), s)
    | .ok (some _) =>
      match ← s.composeProtectRange L range prot with
      | .error e => pure (.error e, s)
      | .ok ops =>
        let s' ← s.runTransaction ops
        pure (.ok (), s')

/-- The anonymous area that grows a mapping, with the policies of its last area. -/
def anonymousTailFromTemplate (object : ℕ) (template : VmArea) (range : VirtPageRange) :
    VmArea :=
  .new range 0 template.prot template.onFork template.flags (.anon object range.npages)

/-- A move to a larger range ends in a fresh anonymous tail. -/
def growMoved (object oldNpages newNpages targetStart : ℕ) (moved : List VmArea) :
    Checked (List VmArea) := do
  if newNpages > oldNpages then
    let template ← expect moved.getLast? "non-empty old range must produce a template VMA"
    pure (moved ++ [anonymousTailFromTemplate object template
      ⟨targetStart + oldNpages, newNpages - oldNpages⟩])
  else pure moved

/-- Only a fixed target is cleared; a target that was searched for is free. -/
def clearTarget (L : Layout) (s : UserSpace) (fixed : Bool) (target : VirtPageRange) :
    Except SysError (List VmOperation) :=
  if fixed then s.composeUnmapRange L target else .ok []

/-- The end of `remap_range`: one script that clears the fixed target, clears the source
and puts the moved areas in, both clearings composed against the map as it is now. -/
def moveTo (L : Layout) (s : UserSpace) (object : ℕ) (mapping : RemapMapping)
    (targetStart : ℕ) : Checked (Outcome ℕ) := do
  let old := mapping.oldRange
  let target : VirtPageRange := ⟨targetStart, mapping.newNpages⟩
  match validateRange L target with
  | .error e => pure (.error e, s)
  | .ok () =>
    if mapping.fixedTarget.isSome ∧ target.intersects old then
      pure (.error .invalidArgument, s)
    else
      let moveNpages := min old.npages mapping.newNpages
      match ← s.collectMovableVmas L ⟨old.start, moveNpages⟩ targetStart with
      | .error e => pure (.error e, s)
      | .ok moved =>
        let moved ← growMoved object old.npages mapping.newNpages targetStart moved
        match s.clearTarget L mapping.fixedTarget.isSome target, s.composeUnmapRange L old with
        | .error e, _ => pure (.error e, s)
        | .ok _, .error e => pure (.error e, s)
        | .ok targetOps, .ok oldOps =>
          let s' ← s.runTransaction (targetOps ++ oldOps ++ moved.map .insert)
          pure (.ok (toVirtAddr targetStart), s')

/-- `remap_range` without a fixed target, as far as it stays in place; `none` when the
mapping has to move. -/
def remapInPlace (L : Layout) (s : UserSpace) (object : ℕ) (mapping : RemapMapping) :
    Checked (Option (Outcome ℕ)) := do
  let old := mapping.oldRange
  if mapping.newNpages ≤ old.npages then
    match ← s.collectMovableVmas L old old.start with
    | .error e => pure (some (.error e, s))
    | .ok _ =>
      if mapping.newNpages = old.npages then pure (some (.ok (toVirtAddr old.start), s))
      else
        let tail : VirtPageRange :=
          ⟨old.start + mapping.newNpages, old.npages - mapping.newNpages⟩
        let (r, s') ← s.unmapInner L tail
        pure (some (r.map fun _ => toVirtAddr old.start, s'))
  else
    let tail : VirtPageRange := ⟨old.stop, mapping.newNpages - old.npages⟩
    if s.isRangeAvail L tail then
      match ← s.collectMovableVmas L old old.start with
      | .error e => pure (some (.error e, s))
      | .ok fragments =>
        let template ← expect fragments.getLast?
          "non-empty old range must produce a template VMA"
        let (r, s') ← s.insertVma L (anonymousTailFromTemplate object template tail)
        pure (some (r.map fun _ => toVirtAddr old.start, s'))
    else if mapping.mayMove then pure none
    else pure (some (.error .outOfMemory, s))

def remapRange (L : Layout) (s : UserSpace) (object : ℕ) (mapping : RemapMapping) :
    Checked (Outcome ℕ) := do
  match validateRange L mapping.oldRange with
  | .error e => pure (.error e, s)
  | .ok () =>
    if mapping.newNpages = 0 then pure (.error .invalidArgument, s)
    else
      match mapping.fixedTarget with
      | some targetStart => s.moveTo L object mapping targetStart
      | none =>
        match ← s.remapInPlace L object mapping with
        | some done => pure done
        | none =>
          match ← s.findAvailRange L mapping.newNpages none with
          | none => pure (.error .outOfMemory, s)
          | some targetStart => s.moveTo L object mapping targetStart

end UserSpace

end Anemone.Uspace
