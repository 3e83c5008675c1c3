import Anemone.Model.PageTable
import Mathlib.Algebra.BigOperators.Intervals

/-!
# What a page table is

A page table in memory is a tree: the entries of a table of some level, and below each entry that
points to a table the tree of that table.  It is well formed if its tables are distinct frames,
none of them free, and every entry is cleared, a leaf whose frame is aligned to its level, or
points to a table one level below.  `Consistent` leaves room for what `map` writes into a lowest
table for a request without any permission: an entry that is valid and no leaf.
-/

namespace Anemone.Paging

open Ranges (VirtPageRange)

/-- A leaf and the level of the table it stands in. -/
structure Leaf where
  level : ℕ
  pte : Pte
deriving DecidableEq, Repr

namespace Tables

variable (A : PagingArch) (t : Tables)

/-- The leaf over a page in the tree of an entry. -/
def leafIn : ℕ → Pte → ℕ → Option Leaf
  | 0, pte, _ => if pte.isLeaf then some ⟨0, pte⟩ else none
  | level + 1, pte, vpn =>
    if pte.isBranch then leafIn level (t.entries pte.ppn (A.index level vpn)) vpn
    else if pte.isLeaf then some ⟨level + 1, pte⟩ else none

/-- The leaf over a page in a table of some level. -/
def leafAt (level dir vpn : ℕ) : Option Leaf :=
  leafIn A t level (t.entries dir (A.index level vpn)) vpn

def tablesIn : ℕ → Pte → List ℕ
  | 0, _ => []
  | level + 1, pte =>
    if pte.isBranch then
      pte.ppn :: (List.range A.ptePerPgdir).flatMap
        fun idx => tablesIn level (t.entries pte.ppn idx)
    else []

/-- A table of some level and the tables below it. -/
def tablesAt (level dir : ℕ) : List ℕ :=
  dir :: (List.range A.ptePerPgdir).flatMap fun idx => tablesIn A t level (t.entries dir idx)

/-- The shape of the tree of an entry, where `base` says what stands in the lowest tables. -/
def ShapedIn (base : Pte → Prop) : ℕ → Pte → Prop
  | 0, pte => base pte
  | level + 1, pte =>
    pte = .zeroed ∨ (pte.isLeaf ∧ A.levelPages (level + 1) ∣ pte.ppn) ∨
      (pte.isBranch ∧ ∀ idx < A.ptePerPgdir, ShapedIn base level (t.entries pte.ppn idx))

def ShapedAt (base : Pte → Prop) (level dir : ℕ) : Prop :=
  ∀ idx < A.ptePerPgdir, ShapedIn A t base level (t.entries dir idx)

/-- Where the walk for a page down to the level `floor` ends in the tree of an entry: there, or
at an entry that points to no table.  The level, and the entry. -/
def reachIn (floor : ℕ) : ℕ → Pte → ℕ → ℕ × Pte
  | 0, pte, _ => (0, pte)
  | level + 1, pte, vpn =>
    if level + 1 = floor ∨ !pte.isBranch then (level + 1, pte)
    else reachIn floor level (t.entries pte.ppn (A.index level vpn)) vpn

def reachAt (floor level dir vpn : ℕ) : ℕ × Pte :=
  reachIn A t floor level (t.entries dir (A.index level vpn)) vpn

end Tables

/-- The tables are as they should be, apart from what stands in the lowest ones. -/
structure Intact (A : PagingArch) (base : Pte → Prop) (root : ℕ) (t : Tables) : Prop where
  shaped : t.ShapedAt A base (A.pageLevels - 1) root
  /-- No frame is two tables, or a table and free. -/
  nodup : (t.tablesAt A (A.pageLevels - 1) root ++ t.free).Nodup
  fits : ∀ f ∈ t.tablesAt A (A.pageLevels - 1) root ++ t.free, f < 2 ^ A.ppnBits

/-- An entry of a lowest table is cleared or a leaf. -/
def ClearOrLeaf (pte : Pte) : Prop := pte = .zeroed ∨ pte.isLeaf

/-- An entry of a lowest table is cleared or valid. -/
def ClearOrValid (pte : Pte) : Prop := pte = .zeroed ∨ pte.isValid

abbrev WellFormed (A : PagingArch) (root : ℕ) (t : Tables) : Prop := Intact A ClearOrLeaf root t

abbrev Consistent (A : PagingArch) (root : ℕ) (t : Tables) : Prop := Intact A ClearOrValid root t

/-- An entry has no more bits than there are for a page number. -/
def Tables.Encoded (A : PagingArch) (t : Tables) : Prop :=
  ∀ dir idx, (t.entries dir idx).ppn < 2 ^ A.ppnBits

/-- The translation still reaches the frame, with every permission it had. -/
def Translated.Keeps (old new : Translated) : Prop :=
  new.ppn = old.ppn ∧ (old.flags.read → new.flags.read) ∧ (old.flags.write → new.flags.write) ∧
    (old.flags.execute → new.flags.execute) ∧ (old.flags.user → new.flags.user)

namespace Mapper

variable (A : PagingArch)

def leafOf (root : ℕ) (t : Tables) (vpn : ℕ) : Option Leaf :=
  t.leafAt A (A.pageLevels - 1) root vpn

def tablesOf (root : ℕ) (t : Tables) : List ℕ := t.tablesAt A (A.pageLevels - 1) root

/-- Two pages with the same entry in a table of this level, if a walk gets so far. -/
def SameEntry (level v w : ℕ) : Prop := Radix.Agree A.pgdirIdxBits level A.pageLevels v w

instance (level v w : ℕ) : Decidable (SameEntry A level v w) :=
  inferInstanceAs (Decidable (Radix.Agree _ _ _ _ _))

/-! ## Mapping -/

/-- A page that the first `k` pages of a request name, up to the bits that a walk ignores. -/
def Named (m : Mapping) (k v : ℕ) : Prop := ∃ i < k, v ≡ m.vpn + i [MOD 2 ^ A.vpnBits]

/-- A page with a leaf that also covers one of the first `k` pages of a request. -/
def Shares (root : ℕ) (t : Tables) (m : Mapping) (k v : ℕ) : Prop :=
  ∃ leaf, leafOf A root t v = some leaf ∧ ∃ i < k, SameEntry A leaf.level v (m.vpn + i)

/-- A leaf for the pages of a request from the `j`-th on: it is aligned, and so are its pages,
and it lies in the request. -/
structure LeafFor (m : Mapping) (leaf : Leaf) (j : ℕ) : Prop where
  ends : j + A.levelPages leaf.level ≤ m.npages
  vpn_aligned : A.levelPages leaf.level ∣ m.vpn + j
  ppn_aligned : A.levelPages leaf.level ∣ m.ppn + j
  pte : leaf.pte = ⟨m.ppn + j, m.flags.asValid⟩

/-- The request is in the table: every page translates as asked, by leaves of the request. -/
structure Installed (root : ℕ) (t : Tables) (m : Mapping) : Prop where
  translates : ∀ i < m.npages, translate A root t (m.vpn + i) = some ⟨m.ppn + i, m.flags⟩
  leaves : ∀ i < m.npages, ∃ leaf j, leafOf A root t (m.vpn + i) = some leaf ∧
    LeafFor A m leaf j ∧ j ≤ i ∧ i < j + A.levelPages leaf.level

/-! ## Requests that are refused -/

/-- The level of the first leaf that a request asks for. -/
def firstLevel (m : Mapping) : ℕ :=
  (pickLevel A (maxHpageLevel A m) m.vpn m.npages).getD 0

def reachOf (root : ℕ) (t : Tables) (m : Mapping) (i : ℕ) : ℕ × Pte :=
  t.reachAt A (firstLevel A m) (A.pageLevels - 1) root (m.vpn + i)

/-- The tables for the `i`-th page of a request that are not there, and that no page before it
needs. -/
def newTables (root : ℕ) (t : Tables) (m : Mapping) (i : ℕ) : ℕ :=
  ((Finset.Ico (firstLevel A m) (reachOf A root t m i).1).filter
    fun level => ∀ j < i, ¬ SameEntry A (level + 1) (m.vpn + i) (m.vpn + j)).card

/-- The `i`-th page of a request for base pages is refused, or the first leaf of any request
for `i = 0`: the flags are not supported, the page has an entry, a page before it has the same
entry, or there are fewer free frames than tables to make for the pages up to this one. -/
def Refused (root : ℕ) (t : Tables) (m : Mapping) (i : ℕ) : Prop :=
  m.flags.isSupportedRwxCombination = false ∨ (reachOf A root t m i).2.isValid = true ∨
    (∃ j < i, SameEntry A 0 (m.vpn + i) (m.vpn + j)) ∨
    t.free.length < ∑ j ∈ Finset.range (i + 1), newTables A root t m j

/-! ## Unmapping -/

/-- The pages of the entry of some level over a page. -/
def leafRange (level vpn : ℕ) : VirtPageRange :=
  ⟨A.canonicalizeVpn (vpn / A.levelPages level * A.levelPages level), A.levelPages level⟩

/-- A page that loses its leaf: the leaf is not global and all of its pages are in the range. -/
def Removed (root : ℕ) (t : Tables) (range : VirtPageRange) (vpn : ℕ) : Prop :=
  ∃ leaf, leafOf A root t vpn = some leaf ∧ range.covers (leafRange A leaf.level vpn) ∧
    leaf.pte.isGlobal = false

/-- A table that is given up was reached by an entry that is not global, and holds nothing. -/
def Emptied (t t' : Tables) (dirs out : List ℕ) : Prop :=
  ∀ f ∈ out, (∀ idx < A.ptePerPgdir, t'.entries f idx = .zeroed) ∧
    ∃ dir ∈ dirs, ∃ idx < A.ptePerPgdir, (t.entries dir idx).isBranch = true ∧
      (t.entries dir idx).isGlobal = false ∧ (t.entries dir idx).ppn = f

/-- What is left of the leaf over a page when a range is unmapped. -/
def cut (range : VirtPageRange) (vpn : ℕ) : Option Leaf → Option Leaf
  | none => none
  | some leaf =>
    if range.covers (leafRange A leaf.level vpn) ∧ !leaf.pte.isGlobal then none else some leaf

/-- The tables `out` are handed out in the way the caller asked for. -/
def HandsOut (out : List ℕ) (st st' : Tables × List ℕ) : PageTableRetirement → Prop
  | .immediate => st'.1.free = out.reverse ++ st.1.free ∧ st'.2 = st.2
  | .retire => st'.1.free = st.1.free ∧ st'.2 = st.2 ++ out
  | .keep => st'.1.free = st.1.free ∧ st'.2 = st.2 ∧ out = []

end Mapper

end Anemone.Paging
