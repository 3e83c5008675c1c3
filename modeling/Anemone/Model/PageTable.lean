import Anemone.Library.Radix
import Anemone.Model.UserSpace

/-!
# Page tables

The `Mapper` of mm/paging/mapper.rs.  An architecture is its constants and what an entry gives
back of the flags it was made from.  Physical memory is a function from frames to the entries they
would hold as a table, with the frames that the frame allocator has to give.
-/

namespace Anemone.Paging

open Checked (assert add)
open Ranges (VirtPageRange)
open Uspace (SysError LeafPteCommit)

/-! ## Entries -/

structure PteFlags where
  valid : Bool
  read : Bool
  write : Bool
  execute : Bool
  user : Bool
  global : Bool
  noncache : Bool
  strong : Bool
deriving DecidableEq, Repr

namespace PteFlags

def empty : PteFlags := ⟨false, false, false, false, false, false, false, false⟩

def isLeaf (f : PteFlags) : Bool := f.read || f.write || f.execute

def contains (f g : PteFlags) : Bool :=
  (!g.valid || f.valid) && (!g.read || f.read) && (!g.write || f.write) &&
    (!g.execute || f.execute) && (!g.user || f.user) && (!g.global || f.global) &&
    (!g.noncache || f.noncache) && (!g.strong || f.strong)

/-- Only NONE, R, RX, RW, RWX are valid for leaf pages. -/
def isSupportedRwxCombination (f : PteFlags) : Bool := f == empty || f.read

def asValid (f : PteFlags) : PteFlags := { f with valid := true }

def sansValid (f : PteFlags) : PteFlags := { f with valid := false }

/-- What an entry that points to a table is made from. -/
def branch (global : Bool) : PteFlags := { empty with valid := true, global := global }

end PteFlags

structure Pte where
  ppn : ℕ
  flags : PteFlags
deriving DecidableEq, Repr

namespace Pte

def zeroed : Pte := ⟨0, .empty⟩

def isValid (e : Pte) : Bool := e.flags.valid

def isLeaf (e : Pte) : Bool := e.isValid && e.flags.isLeaf

def isBranch (e : Pte) : Bool := e.isValid && !e.isLeaf

def isGlobal (e : Pte) : Bool := e.flags.global

end Pte

/-- `PagingArchTrait` and `PteArch`, as far as the mapper depends on them. -/
structure PagingArch where
  pageLevels : ℕ
  pgdirIdxBits : ℕ
  maxHugePageLevel : ℕ
  pageSizeBits : ℕ
  /-- The bits of a page number that an entry has room for. -/
  ppnBits : ℕ
  /-- The flags that an entry made from these flags has. -/
  encode : PteFlags → PteFlags
  levels_pos : 0 < pageLevels
  bits_pos : 0 < pgdirIdxBits
  huge_lt : maxHugePageLevel < pageLevels
  vpn_fits : pageLevels * pgdirIdxBits ≤ 64 - pageSizeBits
  ppn_fits : ppnBits ≤ 64
  huge_fits : maxHugePageLevel * pgdirIdxBits ≤ ppnBits
  encode_valid : ∀ f, (encode f).valid = f.valid
  encode_isLeaf : ∀ f, (encode f).isLeaf = f.isLeaf
  encode_global : ∀ f, (encode f).global = f.global

/-- RISC-V has no place for the memory type. -/
def sv39 : PagingArch where
  pageLevels := 3
  pgdirIdxBits := 9
  maxHugePageLevel := 2
  pageSizeBits := 12
  ppnBits := 54
  encode f := { f with noncache := false, strong := false }
  levels_pos := by decide
  bits_pos := by decide
  huge_lt := by decide
  vpn_fits := by decide
  ppn_fits := by decide
  huge_fits := by decide
  encode_valid _ := rfl
  encode_isLeaf _ := rfl
  encode_global _ := rfl

/-- LoongArch keeps strong order only for uncached pages, and an entry that points to a table
has the lowest privilege and the memory type zero. -/
def la64 : PagingArch where
  pageLevels := 3
  pgdirIdxBits := 9
  maxHugePageLevel := 2
  pageSizeBits := 12
  ppnBits := 46
  encode f :=
    if f.isLeaf then { f with strong := f.noncache && f.strong }
    else { f with user := false, noncache := true, strong := true }
  levels_pos := by decide
  bits_pos := by decide
  huge_lt := by decide
  vpn_fits := by decide
  ppn_fits := by decide
  huge_fits := by decide
  encode_valid f := by split <;> rfl
  encode_isLeaf f := by split <;> rfl
  encode_global f := by split <;> rfl

namespace PagingArch

variable (A : PagingArch)

def ptePerPgdir : ℕ := 2 ^ A.pgdirIdxBits

/-- The pages that an entry of a table of this level stands for. -/
def levelPages (level : ℕ) : ℕ := 2 ^ (level * A.pgdirIdxBits)

/-- The pages that a walk tells apart. -/
def vpnBits : ℕ := A.pageLevels * A.pgdirIdxBits

def index (level vpn : ℕ) : ℕ := (vpn >>> (level * A.pgdirIdxBits)) &&& (A.ptePerPgdir - 1)

def canonicalizeVpn (vpn : ℕ) : ℕ := Radix.signExtend A.vpnBits (64 - A.pageSizeBits) vpn

def newPte (ppn : ℕ) (flags : PteFlags) : Pte := ⟨ppn % 2 ^ A.ppnBits, A.encode flags⟩

end PagingArch

/-! ## Memory -/

structure Tables where
  entries : ℕ → ℕ → Pte
  free : List ℕ

namespace Tables

def set (t : Tables) (dir idx : ℕ) (pte : Pte) : Tables :=
  { t with entries := fun f i => if f = dir ∧ i = idx then pte else t.entries f i }

def allocFrameZeroed (t : Tables) : Option (ℕ × Tables) :=
  match t.free with
  | [] => none
  | ppn :: rest =>
    some (ppn, ⟨fun f i => if f = ppn then Pte.zeroed else t.entries f i, rest⟩)

/-- The drop of an `OwnedFrameHandle`. -/
def dealloc (t : Tables) (ppn : ℕ) : Tables := { t with free := ppn :: t.free }

def isEmptyPgdir (A : PagingArch) (t : Tables) (ppn : ℕ) : Bool :=
  (List.range A.ptePerPgdir).all fun idx => t.entries ppn idx == Pte.zeroed

end Tables

/-! ## Translation -/

structure Translated where
  ppn : ℕ
  flags : PteFlags
deriving DecidableEq, Repr

namespace Mapper

variable (A : PagingArch)

/-- The loop of `Mapper::translate`, from a table of some level on. -/
def translateAt (t : Tables) : ℕ → ℕ → ℕ → Option Translated
  | 0, pgdir, vpn =>
    let pte := t.entries pgdir (A.index 0 vpn)
    if pte.isBranch then none
    else if pte.isLeaf then some ⟨pte.ppn, pte.flags.sansValid⟩
    else none
  | level + 1, pgdir, vpn =>
    let pte := t.entries pgdir (A.index (level + 1) vpn)
    if pte.isBranch then translateAt t level pte.ppn vpn
    else if pte.isLeaf then
      let pageOffset := vpn % A.levelPages (level + 1)
      some ⟨pte.ppn + pageOffset, pte.flags.sansValid⟩
    else none

def translate (root : ℕ) (t : Tables) (vpn : ℕ) : Option Translated :=
  translateAt A t (A.pageLevels - 1) root vpn

/-! ## One mapping -/

/-- What the write of a leaf over an entry amounts to. -/
def commitOf (replacedValidAncestor : Bool) (pte : Pte) (ppn : ℕ) (flags : PteFlags) :
    LeafPteCommit :=
  let oldFlags := pte.flags.sansValid
  if replacedValidAncestor then .replacedOrRestricted
  else if !pte.isValid then .added
  else if pte.isLeaf && pte.ppn == ppn && oldFlags == flags then .unchanged
  else if pte.isLeaf && pte.ppn == ppn && flags.contains oldFlags then .relaxed
  else .replacedOrRestricted

/-- The loop of `map_one_commit`, from a table of some level on. -/
def mapOneAt (vpn ppn : ℕ) (flags : PteFlags) (levelAt : ℕ) (overwrite : Bool) :
    ℕ → ℕ → Bool → Tables → Checked (Except SysError LeafPteCommit × Tables)
  | level, pgdir, replacedValidAncestor, t =>
    let idx := A.index level vpn
    let pte := t.entries pgdir idx
    if level = levelAt then
      if pte.isValid && !overwrite then .ok (.error .alreadyMapped, t)
      else
        .ok (.ok (commitOf replacedValidAncestor pte ppn flags),
          t.set pgdir idx (A.newPte ppn flags.asValid))
    else
      match level with
      | 0 => .error ⟨"page-table level count must be nonzero"⟩
      | level + 1 =>
        if pte.isBranch then
          mapOneAt vpn ppn flags levelAt overwrite level pte.ppn replacedValidAncestor t
        else if pte.isLeaf && !overwrite then .ok (.error .alreadyMapped, t)
        else
          match t.allocFrameZeroed with
          | none => .ok (.error .outOfMemory, t)
          | some (newPgdirPpn, t) =>
            let branch := A.newPte newPgdirPpn (.branch flags.global)
            mapOneAt vpn ppn flags levelAt overwrite level branch.ppn
              (replacedValidAncestor || pte.isValid) (t.set pgdir idx branch)

def mapOneCommit (root : ℕ) (t : Tables) (vpn ppn : ℕ) (flags : PteFlags) (levelAt : ℕ)
    (overwrite : Bool) : Checked (Except SysError LeafPteCommit × Tables) := do
  if !flags.isSupportedRwxCombination then pure (.error .invalidArgument, t)
  else
    assert (levelAt < A.pageLevels) "Invalid `level_at` argument: greater than max level id"
    assert (vpn % A.levelPages levelAt = 0)
      "Invalid `vpn` argument: not aligned to the specified level"
    mapOneAt A vpn ppn flags levelAt overwrite (A.pageLevels - 1) root false t

def commitLeaf (root : ℕ) (t : Tables) (vpn ppn : ℕ) (flags : PteFlags) :
    Checked (Except SysError LeafPteCommit × Tables) :=
  mapOneCommit A root t vpn ppn flags 0 true

/-! ## Ranges -/

structure Mapping where
  vpn : ℕ
  ppn : ℕ
  flags : PteFlags
  npages : ℕ
  hugePages : Bool
deriving DecidableEq, Repr

def maxHpageLevel (m : Mapping) : ℕ :=
  if !m.hugePages then 0
  else min (Radix.trailingZeros (m.vpn ^^^ m.ppn) / A.pgdirIdxBits) A.maxHugePageLevel

/-- The inner loop: the first level, from the largest down, at which the next page is aligned
and that many pages are left. -/
def pickLevel (maxLevel nextVpn remaining : ℕ) : Option ℕ :=
  (List.range (maxLevel + 1)).reverse.find? fun level =>
    nextVpn % A.levelPages level == 0 && decide (A.levelPages level ≤ remaining)

/-- The outer loop of `map` and `map_overwrite`, with the number of pages that are mapped.  It
is given a number of rounds and stops with an error of its own when they are used up. -/
def mapLoop (root : ℕ) (m : Mapping) (overwrite : Bool) :
    ℕ → ℕ → Tables → Checked (Except SysError Unit × ℕ × Tables)
  | rounds, index, t =>
    if m.npages ≤ index then .ok (.ok (), index, t)
    else
      match rounds with
      | 0 => .error ⟨"the loop is still running"⟩
      | rounds + 1 => do
        let nextVpn ← add m.vpn index
        match pickLevel A (maxHpageLevel A m) nextVpn (m.npages - index) with
        | none => mapLoop root m overwrite rounds index t
        | some level =>
          let nextPpn ← add m.ppn index
          match ← mapOneCommit A root t nextVpn nextPpn m.flags level overwrite with
          | (.error e, t) => pure (.error e, index, t)
          | (.ok _, t) => mapLoop root m overwrite rounds (index + A.levelPages level) t

/-- Every round maps a page or more, so that there are no more rounds than pages. -/
def doMap (root : ℕ) (t : Tables) (m : Mapping) (overwrite : Bool) :
    Checked (Except SysError Unit × ℕ × Tables) := do
  assert (m.hugePages → m.flags.global) "internal error: huge page mapping must be global"
  mapLoop A root m overwrite m.npages 0 t

def mapOverwrite (root : ℕ) (t : Tables) (m : Mapping) :
    Checked (Except SysError Unit × Tables) := do
  let (result, _, t) ← doMap A root t m true
  pure (result, t)

/-! ## Traversal -/

inductive TraverseOrder where
  | preOrder
  | postOrder
deriving DecidableEq, Repr

/-- What a traversal does at an entry: `table`, `idx` and the level for an entry that points to
a table, `table`, `idx`, the first page and the level for a leaf. -/
structure TraverseOps (α : Type) where
  branchOp : ℕ → ℕ → ℕ → Tables × α → Tables × α
  leafOp : ℕ → ℕ → ℕ → ℕ → Tables × α → Tables × α

variable {α : Type}

/-- The body of the loop of `do_traverse`, given the traversal of the table below. -/
def visit (range : VirtPageRange) (ops : TraverseOps α) (order : TraverseOrder) (level : ℕ)
    (below : ℕ → ℕ → Tables × α → Checked (Tables × α)) (pgdir vpnPrefix : ℕ) (st : Tables × α)
    (idx : ℕ) : Checked (Tables × α) :=
  let pte := st.1.entries pgdir idx
  if !pte.isBranch && !pte.isLeaf then .ok st
  else
    let vpnPrefix := vpnPrefix * A.ptePerPgdir + idx
    let start := A.canonicalizeVpn (vpnPrefix * A.levelPages level)
    if ¬ range.intersects ⟨start, A.levelPages level⟩ then .ok st
    else if pte.isBranch then do
      assert (level ≠ 0) "assertion `left != right` failed"
      match order with
      | .preOrder =>
        let st := ops.branchOp pgdir idx level st
        below (st.1.entries pgdir idx).ppn vpnPrefix st
      | .postOrder =>
        let st ← below pte.ppn vpnPrefix st
        pure (ops.branchOp pgdir idx level st)
    else .ok (ops.leafOp pgdir idx start level st)

def doTraverse (range : VirtPageRange) (ops : TraverseOps α) (order : TraverseOrder) :
    ℕ → ℕ → ℕ → Tables × α → Checked (Tables × α)
  | 0, pgdir, vpnPrefix, st =>
    (List.range A.ptePerPgdir).foldlM
      (visit A range ops order 0 (fun _ _ st => .ok st) pgdir vpnPrefix) st
  | level + 1, pgdir, vpnPrefix, st =>
    (List.range A.ptePerPgdir).foldlM
      (visit A range ops order (level + 1) (doTraverse range ops order level) pgdir vpnPrefix) st

def traverse (root : ℕ) (range : VirtPageRange) (ops : TraverseOps α) (order : TraverseOrder)
    (st : Tables × α) : Checked (Tables × α) :=
  doTraverse A range ops order (A.pageLevels - 1) root 0 st

/-! ## Unmapping -/

inductive PageTableRetirement where
  | immediate
  | retire
  | keep
deriving DecidableEq, Repr

/-- An entry is cleared and the table it pointed to handed out. -/
def detach (retirement : PageTableRetirement) (pgdir idx ppn : ℕ) (st : Tables × List ℕ) :
    Tables × List ℕ :=
  match retirement with
  | .immediate => ((st.1.set pgdir idx .zeroed).dealloc ppn, st.2)
  | .retire => (st.1.set pgdir idx .zeroed, st.2 ++ [ppn])
  | .keep => st

def unmapOps (range : VirtPageRange) (retirement : PageTableRetirement) :
    TraverseOps (List ℕ) where
  branchOp pgdir idx _ st :=
    let pte := st.1.entries pgdir idx
    if st.1.isEmptyPgdir A pte.ppn && !pte.isGlobal then detach retirement pgdir idx pte.ppn st
    else st
  leafOp pgdir idx vpn level st :=
    let pte := st.1.entries pgdir idx
    if range.covers ⟨vpn, A.levelPages level⟩ ∧ !pte.isGlobal then
      (st.1.set pgdir idx .zeroed, st.2)
    else st

/-- `try_unmap_with`; the list is the vector that retired tables are pushed to. -/
def tryUnmapWith (root : ℕ) (t : Tables) (range : VirtPageRange)
    (retirement : PageTableRetirement) (retired : List ℕ) : Checked (Tables × List ℕ) :=
  traverse A root range (unmapOps A range retirement) .postOrder (t, retired)

def tryUnmap (root : ℕ) (t : Tables) (range : VirtPageRange) : Checked Tables := do
  let (t, _) ← tryUnmapWith A root t range .immediate []
  pure t

/-- `Mapper::map`: the transaction is dropped on an error, which unmaps what was mapped. -/
def map (root : ℕ) (t : Tables) (m : Mapping) : Checked (Except SysError Unit × Tables) := do
  match ← doMap A root t m false with
  | (.ok _, _, t) => pure (.ok (), t)
  | (.error e, mappedPages, t) =>
    let t ← tryUnmap A root t ⟨m.vpn, mappedPages⟩
    pure (.error e, t)

end Mapper

end Anemone.Paging
