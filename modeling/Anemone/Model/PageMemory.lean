import Anemone.Model.UserSpace

/-!
# The pages behind an address space

Backing objects (mm/uspace/vmo) hold frames by page index.  An anonymous object allocates on the
first write and shows the shared zero frame before it; a shadow shows its parent until a write
copies the page into it.  What the objects hold is one store, indexed by the identity of the
object.  A method runs to its end before the next one, so the second looks the source takes after
it has changed locks see what the first saw.
-/

namespace Anemone.Uspace

open Checked (assert)
open Ranges (VirtPageRange)

inductive PageFaultType where
  | read
  | write
  | execute
deriving DecidableEq, Repr

/-- `impl From<PageFaultType> for Protection`. -/
def PageFaultType.toProtection : PageFaultType → Protection
  | .read => ⟨true, false, false⟩
  | .write => ⟨false, true, false⟩
  | .execute => ⟨false, false, true⟩

structure ResolvedFrame where
  frame : ℕ
  writable : Bool
deriving DecidableEq, Repr

/-- The pages an anonymous object or the overlay of a shadow holds; only a shadow marks
pages as decommitted. -/
structure ObjectPages where
  resident : OrderedMap ℕ
  decommitted : ℕ → Bool

def ObjectPages.empty : ObjectPages := ⟨∅, fun _ => false⟩

/-- The bytes of a page, by their offset in it. -/
abbrev Page : Type := ℕ → UInt8

def zeroPage : Page := fun _ => 0

/-- The objects of the kernel, the next identity to hand out, the frames that are free, what
frames hold, and what the objects outside this development answer. -/
structure Memory where
  objects : ℕ → ObjectPages
  nextObject : ℕ
  zeroFrame : ℕ
  freeFrames : List ℕ
  bytes : ℕ → Page
  external : ℕ → ℕ → PageFaultType → Except SysError ResolvedFrame
  externalAhead : ℕ → ℕ → PageFaultType → Except SysError (Option ResolvedFrame)

namespace Memory

variable (mem : Memory)

def sharedZeroFrame : ResolvedFrame := ⟨mem.zeroFrame, false⟩

def setPages (object : ℕ) (pages : ObjectPages) : Memory :=
  { mem with objects := fun o => if o = object then pages else mem.objects o }

def fill (frame : ℕ) (page : Page) : Memory :=
  { mem with bytes := fun f => if f = frame then page else mem.bytes f }

/-- A frame with these bytes becomes the page of the object, which is decommitted no longer. -/
def install (object pidx frame : ℕ) (page : Page) : Memory :=
  let pages := mem.objects object
  (mem.setPages object ⟨pages.resident.insert pidx frame,
    fun i => i ≠ pidx && pages.decommitted i⟩).fill frame page

/-- `retire_frame_range`: the frames of the range leave the object. -/
def retireFrameRange (object lo hi : ℕ) : Memory :=
  let pages := mem.objects object
  mem.setPages object
    { pages with resident := pages.resident.filter fun pidx _ => ¬ (lo ≤ pidx ∧ pidx < hi) }

/-- A free frame, filled with these bytes, for a page of the object. -/
def allocInto (object pidx : ℕ) (page : Page) : Except SysError ResolvedFrame × Memory :=
  match mem.freeFrames with
  | [] => (.error .outOfMemory, mem)
  | frame :: rest =>
    (.ok ⟨frame, true⟩, { mem with freeFrames := rest }.install object pidx frame page)

inductive ShadowLookup where
  | resident (frame : ℕ)
  | decommitted
  | parent
deriving DecidableEq, Repr

def lookup (object pidx : ℕ) : Checked ShadowLookup := do
  let pages := mem.objects object
  match pages.resident[pidx]? with
  | some frame =>
    assert (pages.decommitted pidx = false) "!pages.decommitted.contains(&pidx)"
    pure (.resident frame)
  | none => pure (if pages.decommitted pidx then .decommitted else .parent)

end Memory

/-! ## Objects -/

namespace VmObject

def resolveFrame : VmObject → Memory → ℕ → PageFaultType →
    Checked (Except SysError ResolvedFrame × Memory)
  | .anon object maxPages, mem, pidx, access =>
    if pidx ≥ maxPages then pure (.error .invalidArgument, mem)
    else
      match (mem.objects object).resident[pidx]? with
      | some frame => pure (.ok ⟨frame, true⟩, mem)
      | none =>
        match access with
        | .write => pure (mem.allocInto object pidx zeroPage)
        | .read | .execute => pure (.ok mem.sharedZeroFrame, mem)
  | .shadow object parent, mem, pidx, access => do
    match ← mem.lookup object pidx, access with
    | .resident frame, _ => pure (.ok ⟨frame, true⟩, mem)
    | .decommitted, .write => pure (mem.allocInto object pidx zeroPage)
    | .parent, .write =>
      match ← parent.resolveFrame mem pidx .read with
      | (.error e, mem) => pure (.error e, mem)
      | (.ok resolved, mem) => pure (mem.allocInto object pidx (mem.bytes resolved.frame))
    | .decommitted, _ => pure (.ok mem.sharedZeroFrame, mem)
    | .parent, _ =>
      let (resolved, mem) ← parent.resolveFrame mem pidx access
      pure (resolved.map fun r => ⟨r.frame, false⟩, mem)
  | .empty, mem, _, _ => pure (.error .notMapped, mem)
  | .external object, mem, pidx, access => pure (mem.external object pidx access, mem)

def resolveFrameAhead : VmObject → Memory → ℕ → ℕ → PageFaultType →
    Checked (Except SysError (Option ResolvedFrame) × Memory)
  | .anon object maxPages, mem, pidx, _, access => do
    let (resolved, mem) ← (VmObject.anon object maxPages).resolveFrame mem pidx access
    pure (resolved.map some, mem)
  | .shadow object parent, mem, pidx, requestEnd, access => do
    assert (pidx < requestEnd) "fault-ahead request must contain its page"
    match ← mem.lookup object pidx, access with
    | .resident frame, _ => pure (.ok (some ⟨frame, true⟩), mem)
    | _, .write => pure (.ok none, mem)
    | .decommitted, _ => pure (.ok (some mem.sharedZeroFrame), mem)
    | .parent, _ =>
      let (resolved, mem) ← parent.resolveFrameAhead mem pidx requestEnd access
      pure (resolved.map fun r => r.map fun r => ⟨r.frame, false⟩, mem)
  | .empty, mem, _, _, _ => pure (.ok none, mem)
  | .external object, mem, pidx, _, access => pure (mem.externalAhead object pidx access, mem)

/-- `VmObject::discard_range`; the other objects keep what they hold elsewhere. -/
def discardRange (mem : Memory) (lo hi : ℕ) : VmObject → Checked Memory
  | .anon object maxPages => do
    assert (lo < maxPages ∧ hi ≤ maxPages ∧ lo ≤ hi)
      "VMA-backed discard range must stay within the anonymous VMO"
    pure (mem.retireFrameRange object lo hi)
  | .shadow object _ => do
    assert (lo ≤ hi) "VMA-backed discard range must be ordered"
    pure (mem.retireFrameRange object lo hi)
  | .empty => pure mem
  | .external _ => pure mem

def decommitPrivateRange (mem : Memory) (lo hi : ℕ) : VmObject → Except SysError Memory
  | .anon object maxPages =>
    if lo ≥ maxPages ∨ hi > maxPages ∨ lo > hi then .error .invalidArgument
    else .ok (mem.retireFrameRange object lo hi)
  | .shadow object _ =>
    if lo > hi then .error .invalidArgument
    else if lo = hi then .ok mem
    else
      let mem := mem.retireFrameRange object lo hi
      let pages := mem.objects object
      .ok (mem.setPages object
        { pages with decommitted := fun i => decide (lo ≤ i ∧ i < hi) || pages.decommitted i })
  | .empty => .error .notSupported
  | .external _ => .error .notSupported

end VmObject

/-! ## Page faults -/

/-- A leaf grants something; an entry without permissions reads back as a branch. -/
def Pte.isLeaf (pte : Pte) : Bool := pte.flags.read || pte.flags.write || pte.flags.execute

def PteFlags.contains (f g : PteFlags) : Bool := f.inter g = g

/-- `Mapper::commit_leaf`; `walk` says whether the tables on the way to the leaf are there
or can be allocated. -/
def commitLeaf (table : OrderedMap Pte) (vpn ppn : ℕ) (flags : PteFlags) (walk : ℕ → Bool) :
    Except SysError (LeafPteCommit × OrderedMap Pte) :=
  if ¬ (flags = ⟨false, false, false, false⟩ ∨ flags.read) then .error .invalidArgument
  else if ¬ walk vpn then .error .outOfMemory
  else
    let commit : LeafPteCommit :=
      match table[vpn]? with
      | none => .added
      | some old =>
        if old.isLeaf ∧ old.ppn = ppn ∧ old.flags = flags then .unchanged
        else if old.isLeaf ∧ old.ppn = ppn ∧ flags.contains old.flags then .relaxed
        else .replacedOrRestricted
    .ok (commit, table.insert vpn ⟨ppn, flags⟩)

/-- What a step leaves: an answer, the page table and the memory. -/
abbrev Paged (α : Type) : Type := Except SysError α × OrderedMap Pte × Memory

namespace VmArea

/-- The permissions of the area, less the write permission if the frame is not to be
written. -/
def resolvedFlags (a : VmArea) (resolved : ResolvedFrame) : PteFlags :=
  let flags := PteFlags.ofProtection a.prot
  if resolved.writable then flags else { flags with write := false }

/-- `VmArea::resolve_page_access`, which is `map_page`. -/
def mapPage (a : VmArea) (table : OrderedMap Pte) (mem : Memory) (walk : ℕ → Bool) (vpn : ℕ)
    (access : PageFaultType) : Checked (Paged LeafPteCommit) := do
  if ¬ a.prot.contains access.toProtection then pure (.error .permissionDenied, table, mem)
  else
    match ← a.backing.resolveFrame mem (a.vmoPidx vpn) access with
    | (.error e, mem) => pure (.error e, table, mem)
    | (.ok resolved, mem) =>
      match commitLeaf table vpn resolved.frame (a.resolvedFlags resolved) walk with
      | .error e => pure (.error e, table, mem)
      | .ok (commit, table) => pure (.ok commit, table, mem)

/-- The loop of `resolve_page_access_ahead` over the `n` pages from `vpn` on. -/
def aheadLoop (a : VmArea) (walk : ℕ → Bool) (requestEnd : ℕ) (access : PageFaultType) :
    ℕ → ℕ → OrderedMap Pte → Memory → Checked (OrderedMap Pte × Memory)
  | 0, _, table, mem => pure (table, mem)
  | n + 1, vpn, table, mem => do
    if (table[vpn]?).any Pte.isLeaf then pure (table, mem)
    else
      match ← a.backing.resolveFrameAhead mem (a.vmoPidx vpn) requestEnd access with
      | (.ok (some resolved), mem) =>
        match commitLeaf table vpn resolved.frame (a.resolvedFlags resolved) walk with
        | .ok (commit, table) =>
          assert (commit = .added) "fault-ahead may only install a previously absent leaf"
          a.aheadLoop walk requestEnd access n (vpn + 1) table mem
        | .error .outOfMemory => pure (table, mem)
        | .error _ => .error ⟨"fault-ahead leaf commit failed unexpectedly"⟩
      | (_, mem) => pure (table, mem)

/-- Best-effort mapping of the pages after a fault. -/
def resolvePageAccessAhead (a : VmArea) (table : OrderedMap Pte) (mem : Memory)
    (walk : ℕ → Bool) (demand stop : ℕ) (access : PageFaultType) :
    Checked (OrderedMap Pte × Memory) := do
  assert (a.range.contains demand) "self.range.contains(demand_vpn)"
  assert (demand < stop ∧ stop ≤ a.range.stop) "demand_vpn < end && end <= self.range.end()"
  let requestEnd := a.poffset + (stop - a.range.start)
  a.aheadLoop walk requestEnd access (stop - (demand + 1)) (demand + 1) table mem

end VmArea

inductive PageAccessContinuation where
  | userReturn
  | immediate
deriving DecidableEq, Repr

/-- Where the window of a fault ends, if it has one. -/
def PageAccessContinuation.faultAheadEnd (L : Layout) (demand limit : ℕ) :
    PageAccessContinuation → Checked (Option ℕ)
  | .userReturn => do
    assert (demand < limit) "demand < limit"
    pure (some (min (demand + L.userFaultWindowPages) limit))
  | .immediate => do
    assert (demand < limit) "demand < limit"
    pure none

namespace UserSpace

def stackAccessible (s : UserSpace) (addr : ℕ) : Checked Bool := do
  let stack ← s.stackVma
  pure (decide (stack.range.contains (pageDown addr)) &&
    decide (s.stack.committedBottom - 64 ≤ pageDown addr))

def heapAccessible (s : UserSpace) (addr : ℕ) : Checked Bool := do
  let heap ← s.heapVma
  pure (decide (heap.range.contains (pageDown addr)) && decide (pageDown addr < pageUp s.heap.brk))

/-- A demand access in an area and then its window, which ends at `limit`. -/
def resolveWindow (L : Layout) (a : VmArea) (table : OrderedMap Pte) (mem : Memory)
    (walk : ℕ → Bool) (demand limit : ℕ) (access : PageFaultType)
    (continuation : PageAccessContinuation) : Checked (Paged LeafPteCommit) := do
  match ← a.mapPage table mem walk demand access with
  | (.error e, table, mem) => pure (.error e, table, mem)
  | (.ok commit, table, mem) =>
    match ← continuation.faultAheadEnd L demand limit with
    | none => pure (.ok commit, table, mem)
    | some aheadEnd =>
      let (table, mem) ← a.resolvePageAccessAhead table mem walk demand aheadEnd access
      pure (.ok commit, table, mem)

/-- `resolve_page_access`, by the kind of reservation the address falls in. -/
def resolvePageAccess (L : Layout) (s : UserSpace) (mem : Memory) (walk : ℕ → Bool)
    (addr : ℕ) (access : PageFaultType) (continuation : PageAccessContinuation) :
    Checked (Except SysError LeafPteCommit × UserSpace × Memory) := do
  let vpn := pageDown addr
  match findVma s.vmas vpn with
  | none => pure (.error .notMapped, s, mem)
  | some area =>
    match area.reservation with
    | some .stack =>
      if ← s.stackAccessible addr then
        let stack ← s.stackVma
        match ← stack.mapPage s.table mem walk vpn access with
        | (.error e, table, mem) => pure (.error e, { s with table := table }, mem)
        | (.ok commit, table, mem) =>
          pure (.ok commit, { s with
            table := table
            stack := { s.stack with committedBottom := min vpn s.stack.committedBottom } }, mem)
      else pure (.error .notMapped, s, mem)
    | some .heap =>
      if ← s.heapAccessible addr then
        let heap ← s.heapVma
        let limit := min (pageUp s.heap.brk) heap.range.stop
        let (r, table, mem) ←
          resolveWindow L heap s.table mem walk vpn limit access continuation
        pure (r, { s with table := table }, mem)
      else pure (.error .notMapped, s, mem)
    | some .guard => pure (.error .notMapped, s, mem)
    | none =>
      let (r, table, mem) ←
        resolveWindow L area s.table mem walk vpn area.range.stop access continuation
      pure (r, { s with table := table }, mem)

/-! ## Program break, discard and fork -/

/-- `set_brk_inner`: whole pages above a lower break are decommitted and unmapped. -/
def setBrkInner (s : UserSpace) (mem : Memory) (brk : ℕ) :
    Checked (Except SysError Unit × UserSpace × Memory) := do
  let heap ← s.heapVma
  if brk < toVirtAddr heap.range.start ∨ brk > toVirtAddr heap.range.stop then
    pure (.error .outOfMemory, s, mem)
  else
    let newBrkVpn := pageUp brk
    let count := pageUp s.heap.brk - newBrkVpn
    if s.heap.brk > brk ∧ count ≠ 0 then
      let start := heap.vmoPidx newBrkVpn
      match heap.backing.decommitPrivateRange mem start (start + count) with
      | .error e => pure (.error e, s, mem)
      | .ok mem => pure (.ok (),
          { s with
            table := tryUnmap s.table ⟨newBrkVpn, count⟩
            heap := { s.heap with brk := brk } }, mem)
    else pure (.ok (), { s with heap := { s.heap with brk := brk } }, mem)

/-- The objects of `discard_range_inner` give up their pages one area after the other. -/
def discardAreas (range : VirtPageRange) : List (ℕ × VmArea) → Memory → Checked Memory
  | [], mem => pure mem
  | (_, vma) :: rest, mem => do
    let cut := cutRange vma range
    let mem ← vma.backing.discardRange mem (vma.vmoPidx cut.start) (vma.vmoPidx cut.stop)
    discardAreas range rest mem

def discardRangeInner (L : Layout) (s : UserSpace) (mem : Memory) (range : VirtPageRange) :
    Checked (Except SysError Unit × UserSpace × Memory) := do
  match s.findIntersectionStartsCovering L range with
  | .error e => pure (.error e, s, mem)
  | .ok starts =>
    let mem ← discardAreas range starts mem
    let table := starts.foldl (fun t e => tryUnmap t (cutRange e.2 range)) s.table
    pure (.ok (), { s with table := table }, mem)

end UserSpace

/-! ## Debug builds

With the build as a parameter, the two loops that translate the ends of a range. -/

/-- `vmo_pidx` with the assertion that only a debug build makes. -/
def VmArea.vmoPidxIn (debug : Bool) (a : VmArea) (vpn : ℕ) : Checked ℕ := do
  assert (debug = true → a.range.contains vpn) "assertion failed: self.range.contains(vpn)"
  pure (a.vmoPidx vpn)

/-- The pages of an object from `first` to `last`, `last` not included. -/
structure ObjectRange where
  backing : VmObject
  first : ℕ
  last : ℕ
deriving DecidableEq

namespace UserSpace

/-- The pages of its object that one area gives up, and where the range sees them. -/
def discardOp (debug : Bool) (range : VirtPageRange) (vma : VmArea) :
    Checked (ObjectRange × VirtPageRange) := do
  let cut := cutRange vma range
  let first ← vma.vmoPidxIn debug cut.start
  let last ← vma.vmoPidxIn debug cut.stop
  pure (⟨vma.backing, first, last⟩, cut)

/-- What `discard_range_inner` collects before it discards anything. -/
def discardOps (debug : Bool) (L : Layout) (s : UserSpace) (range : VirtPageRange) :
    Checked (Except SysError (List (ObjectRange × VirtPageRange))) :=
  match s.findIntersectionStartsCovering L range with
  | .error e => pure (.error e)
  | .ok starts => do
    let ops ← starts.mapM fun e => discardOp debug range e.2
    pure (.ok ops)

/-- The rest of `discard_range_inner`. -/
def discardAll (s : UserSpace) (mem : Memory) :
    Except SysError (List (ObjectRange × VirtPageRange)) →
      Checked (Except SysError Unit × UserSpace × Memory)
  | .error e => pure (.error e, s, mem)
  | .ok ops => do
    let mem ← ops.foldlM (fun mem op => op.1.backing.discardRange mem op.1.first op.1.last) mem
    pure (.ok (), { s with table := ops.foldl (fun t op => tryUnmap t op.2) s.table }, mem)

/-- The pages of its object that one area hands to a sync. -/
def syncRange (debug : Bool) (range : VirtPageRange) (vma : VmArea) : Checked ObjectRange := do
  let cut := cutRange vma range
  let startPidx ← vma.vmoPidxIn debug cut.start
  pure ⟨vma.backing, startPidx, startPidx + cut.npages⟩

def collectSyncRanges (debug : Bool) (L : Layout) (s : UserSpace) (range : VirtPageRange) :
    Checked (Except SysError (List ObjectRange)) :=
  match s.findIntersectionStartsCovering L range with
  | .error e => pure (.error e)
  | .ok starts => do
    let ranges ← starts.mapM fun e => syncRange debug range e.2
    pure (.ok ranges)

end UserSpace

/-- What the loop of a fork carries: both maps of areas, the parent's page table and the
next identity. -/
structure Forking where
  parent : OrderedMap VmArea
  child : OrderedMap VmArea
  table : OrderedMap Pte
  nextObject : ℕ

/-- `VmArea::fork`, but for the page table: the parent, the child and the next identity. -/
def VmArea.fork (a : VmArea) (nextObject : ℕ) : VmArea × VmArea × ℕ :=
  match a.onFork with
  | .shared => (a, a, nextObject)
  | .copyOnWrite =>
    ({ a with backing := .shadow nextObject a.backing },
      { a with backing := .shadow (nextObject + 1) a.backing }, nextObject + 2)

/-- What `VmArea::fork` does to the page table: the leaves of a copy-on-write area that may
be written lose their write permission. -/
def VmArea.forkTable (a : VmArea) (table : OrderedMap Pte) : OrderedMap Pte :=
  if a.onFork = .copyOnWrite ∧ a.prot.write then
    changeFlags table a.range fun flags =>
      if flags.write then some { flags with write := false } else none
  else table

/-- A fork of the area at `start`, which changes in place. -/
def Forking.fork (f : Forking) (start : ℕ) (a : VmArea) : Checked Forking := do
  let sides := a.fork f.nextObject
  let child ← insertNew f.child start sides.2.1
  pure ⟨f.parent.insert start sides.1, child, a.forkTable f.table, sides.2.2⟩

def forkAreas : List (ℕ × VmArea) → Forking → Checked Forking
  | [], f => pure f
  | (start, a) :: rest, f => do
    let f ← f.fork start a
    forkAreas rest f

/-- `fork_inner`; `tables` says whether the page table of the child can be allocated. -/
def UserSpace.forkInner (s : UserSpace) (mem : Memory) (tables : Bool) :
    Checked (Except SysError UserSpace × UserSpace × Memory) := do
  if tables then
    let f ← forkAreas s.vmas.toList ⟨s.vmas, ∅, s.table, mem.nextObject⟩
    let child : UserSpace := ⟨∅, f.child, s.stack, s.heap⟩
    pure (.ok child, { s with vmas := f.parent, table := f.table },
      { mem with nextObject := f.nextObject })
  else pure (.error .outOfMemory, s, mem)

end Anemone.Uspace
