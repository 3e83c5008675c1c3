import Anemone.Library.Checked
import Anemone.Library.OrderedMap

/-!
# The range allocator

`RangeAllocator` (crates/range-allocator/src/lib.rs) keeps free ranges of integers in two indexes,
by start and by length.  A bucket of equal-length ranges is a hash set: a `Finset` here, walked in
whatever order `HashOrder` says, which may differ from call to call.
-/

namespace Anemone.Ranges

open Checked (assert expect add wordSize)

def usizeMax : ℕ := wordSize - 1

def checkedAdd (a b : ℕ) : Option ℕ := if a + b ≤ usizeMax then some (a + b) else none

class Rangable (R : Type) where
  start : R → ℕ
  len : R → ℕ
  fromParts : ℕ → ℕ → R

/-- What every implementation of the trait does on ranges that end in a word. -/
class LawfulRangable (R : Type) [Rangable R] : Prop where
  start_fromParts : ∀ s l, s + l ≤ usizeMax → Rangable.start (Rangable.fromParts s l : R) = s
  len_fromParts : ∀ s l, s + l ≤ usizeMax → Rangable.len (Rangable.fromParts s l : R) = l

/-- `core::ops::Range<u64>`, for `start ≤ end`. -/
structure RangeU64 where
  start : ℕ
  stop : ℕ
deriving DecidableEq, Repr

instance : Rangable RangeU64 where
  start r := r.start
  len r := r.stop - r.start
  fromParts start length := ⟨start, start + length⟩

instance : LawfulRangable RangeU64 where
  start_fromParts _ _ _ := rfl
  len_fromParts s l _ := Nat.add_sub_cancel_left s l

/-- A range of virtual pages, the ranges of mm/remap.rs. -/
structure VirtPageRange where
  start : ℕ
  npages : ℕ
deriving DecidableEq, Repr

instance : Rangable VirtPageRange where
  start := VirtPageRange.start
  len := VirtPageRange.npages
  fromParts := VirtPageRange.mk

instance : LawfulRangable VirtPageRange where
  start_fromParts _ _ _ := rfl
  len_fromParts _ _ _ := rfl

inductive RangeAllocError where
  | freeingExistingRange
deriving DecidableEq, Repr

/-- An order in which a hash set is iterated: every element, once. -/
structure HashOrder (R : Type) where
  iter : Finset R → List R
  mem_iter : ∀ s r, r ∈ iter s ↔ r ∈ s
  nodup_iter : ∀ s, (iter s).Nodup

structure RangeAllocator (R : Type) where
  freeByStart : OrderedMap R
  freeByLength : OrderedMap (Finset R)

namespace RangeAllocator

variable {R : Type} [Rangable R] [DecidableEq R]

open Rangable (start len fromParts)

def new : RangeAllocator R := ⟨∅, ∅⟩

def alignUp (value align : ℕ) : Option ℕ :=
  if align = 0 then none
  else if value % align = 0 then some value
  else checkedAdd value (align - value % align)

def tryAllocInRange (range : R) (length align : ℕ) : Option (ℕ × ℕ × ℕ) := do
  let rangeEnd ← checkedAdd (start range) (len range)
  let allocStart ← alignUp (start range) align
  let allocEnd ← checkedAdd allocStart length
  if allocEnd > rangeEnd then none
  else some (allocStart, allocEnd, rangeEnd)

def insertFreeRange (s : RangeAllocator R) (range : R) : RangeAllocator R where
  freeByStart := s.freeByStart.insert (start range) range
  freeByLength := s.freeByLength.insert (len range)
    (insert range (s.freeByLength[len range]?.getD ∅))

def removeFreeRange (s : RangeAllocator R) (range : R) : Checked (RangeAllocator R) := do
  let _ ← expect s.freeByStart[start range]?
    "Internal error: free_by_length and free_by_start are out of sync"
  let set ← expect s.freeByLength[len range]?
    "Internal error: free_by_length and free_by_start are out of sync"
  let set := set.erase range
  pure ⟨s.freeByStart.erase (start range),
    if set = ∅ then s.freeByLength.erase (len range) else s.freeByLength.insert (len range) set⟩

/-- The search of `allocate_aligned`: the shortest bucket that has a fitting range, and in
it the first one in iteration order. -/
def select (s : RangeAllocator R) (order : HashOrder R) (length align : ℕ) :
    Option (R × ℕ × ℕ × ℕ) :=
  (s.freeByLength.rangeFrom length).findSome? fun bucket =>
    (order.iter bucket.2).findSome? fun range =>
      (tryAllocInRange range length align).map fun found => (range, found)

def allocateAligned (s : RangeAllocator R) (order : HashOrder R) (length align : ℕ) :
    Checked (Option R × RangeAllocator R) := do
  assert (align ≠ 0) "alignment must be non-zero"
  if length = 0 then pure (none, s)
  else match s.select order length align with
  | none => pure (none, s)
  | some (range, allocStart, allocEnd, rangeEnd) =>
    let rangeStart := start range
    let s ← s.removeFreeRange range
    let s := if allocStart > rangeStart then
      s.insertFreeRange (fromParts rangeStart (allocStart - rangeStart)) else s
    let s := if allocEnd < rangeEnd then
      s.insertFreeRange (fromParts allocEnd (rangeEnd - allocEnd)) else s
    pure (some (fromParts allocStart length), s)

/-- The first half of `free`: refuse or absorb the free range before the freed one. -/
def absorbPrev (s : RangeAllocator R) (prev : Option R) (first length : ℕ) :
    Checked (Except RangeAllocError (ℕ × ℕ) × RangeAllocator R) :=
  match prev with
  | none => pure (.ok (first, length), s)
  | some r => do
    let rEnd ← add (start r) (len r)
    if rEnd > first then pure (.error .freeingExistingRange, s)
    else if rEnd = first then do
      let length ← add length (len r)
      let s ← s.removeFreeRange r
      pure (.ok (start r, length), s)
    else pure (.ok (first, length), s)

/-- The second half of `free`: refuse or absorb the free range behind the freed one. -/
def absorbNext (s : RangeAllocator R) (next : Option R) (stop length : ℕ) :
    Checked (Except RangeAllocError ℕ × RangeAllocator R) :=
  match next with
  | none => pure (.ok length, s)
  | some r =>
    if start r < stop then pure (.error .freeingExistingRange, s)
    else if start r = stop then do
      let length ← add length (len r)
      let s ← s.removeFreeRange r
      pure (.ok length, s)
    else pure (.ok length, s)

def free (s : RangeAllocator R) (range : R) :
    Checked (Except RangeAllocError Unit × RangeAllocator R) :=
  if len range = 0 then pure (.ok (), s)
  else do
    let stop ← add (start range) (len range)
    -- both neighbours are looked up before anything is removed
    let prev := (s.freeByStart.rangeBelow (start range)).getLast?.map Prod.snd
    let next := (s.freeByStart.rangeFrom (start range)).head?.map Prod.snd
    let (merged, s) ← s.absorbPrev prev (start range) (len range)
    match merged with
    | .error e => pure (.error e, s)
    | .ok (first, length) =>
      let (merged, s) ← s.absorbNext next stop length
      match merged with
      | .error e => pure (.error e, s)
      | .ok length => pure (.ok (), s.insertFreeRange (fromParts first length))

def Covers (r : R) (x : ℕ) : Prop := start r ≤ x ∧ x < start r + len r

def freeSet (s : RangeAllocator R) : Set ℕ :=
  {x | ∃ (k : ℕ) (r : R), s.freeByStart[k]? = some r ∧ Covers r x}

/-- One call: a `free` of integers that are not free, or any aligned allocation. -/
inductive Step : RangeAllocator R → RangeAllocator R → Prop
  | free (s : RangeAllocator R) (range : R) {r : Except RangeAllocError Unit}
      {t : RangeAllocator R} (hend : start range + len range ≤ usizeMax)
      (hdisj : ∀ x, Covers range x → x ∉ s.freeSet) (h : s.free range = .ok (r, t)) : Step s t
  | allocateAligned (s : RangeAllocator R) (order : HashOrder R) (length align : ℕ)
      {r : Option R} {t : RangeAllocator R} (halign : 1 ≤ align)
      (h : s.allocateAligned order length align = .ok (r, t)) : Step s t

end RangeAllocator

end Anemone.Ranges
