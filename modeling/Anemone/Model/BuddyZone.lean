import Anemone.Library.Checked

/-!
# One zone of the buddy allocator

`Zone` (crates/buddy-system/src/zone.rs) with the bit slices of its bitmaps (src/bitmap.rs).  A
zone manages the tail of one byte region: the header, then one bitmap per order, then `nunits`
allocable units of `MIN_BLOCK_BYTES` bytes from `salloc` on.

`mem` holds the bytes of the region by their offset from its start.  The intrusive free lists are
lists of block addresses.  Word arithmetic panics on overflow; the statistics counters wrap.
-/

namespace Anemone.Buddy

open Function (update)
open Checked (assert expect unwrap add mul sub shl wordSize)

/-- The errors of the allocator (src/error.rs). -/
inductive BuddyError where
  | invalidOrder
  | unalignedAddr
  | invalidAddr
  | outOfMemory
  | doubleFree
deriving DecidableEq, Repr

inductive BitSliceError where
  | outOfBounds
deriving DecidableEq, Repr

/-- The bytes of a region, by offset from its start. -/
abbrev Memory : Type := ℕ → BitVec 8

/-- A view of `len` bits from the byte offset `bits` on. -/
structure BitSlice where
  len : ℕ
  bits : ℕ
deriving DecidableEq, Repr

namespace BitSlice

/-- Tests if the bit at the given index is set. -/
def test (s : BitSlice) (mem : Memory) (index : ℕ) : Except BitSliceError Bool :=
  if index ≥ s.len then .error .outOfBounds
  else .ok ((mem (s.bits + index / 8) &&& (1#8 <<< (index % 8))) != 0#8)

def set (s : BitSlice) (mem : Memory) (index : ℕ) : Except BitSliceError Memory :=
  if index ≥ s.len then .error .outOfBounds
  else .ok (update mem (s.bits + index / 8) (mem (s.bits + index / 8) ||| (1#8 <<< (index % 8))))

def clear (s : BitSlice) (mem : Memory) (index : ℕ) : Except BitSliceError Memory :=
  if index ≥ s.len then .error .outOfBounds
  else .ok (update mem (s.bits + index / 8) (mem (s.bits + index / 8) &&& ~~~(1#8 <<< (index % 8))))

end BitSlice

/-- The bytes a bitmap of `bits` bits takes: `align_up!(bits, 8) / 8`. -/
def bitmapLen (bits : ℕ) : ℕ := (bits + 8 - 1) / 8 * 8 / 8

/-- A byte slice: it does not wrap around the address space, and is no longer than
`isize::MAX`. -/
structure Region where
  start : ℕ
  size : ℕ
  fits : start + size < wordSize
  size_lt : size < 2 ^ 63

/-- `size_of` and `align_of` the zone header. -/
structure NodeLayout where
  size : ℕ
  align : ℕ
  size_pos : 0 < size
  align_pow : ∃ k, align = 2 ^ k

structure ZoneStats where
  allocableBytes : ℕ
  totalAllocations : ℕ
  totalDeallocations : ℕ
  curAllocatedBytes : ℕ
  peakAllocatedBytes : ℕ
deriving DecidableEq, Repr

def ZoneStats.zeroed : ZoneStats := ⟨0, 0, 0, 0, 0⟩

/-- A zone of blocks of `M * 2 ^ o` bytes for the orders `o < N`. -/
structure Zone (M N : ℕ) where
  mem : Memory
  stats : ZoneStats
  /-- Number of allocable units of `M` bytes. -/
  nunits : ℕ
  /-- Offset of each order's bitmap in the region. -/
  bitmapOffset : ℕ → ℕ
  salloc : ℕ
  /-- The free block addresses of each order. -/
  freeLists : ℕ → List ℕ

/-- The index of the other half of the block's parent. -/
def buddyBlockIdx (blockIdx : ℕ) : ℕ :=
  if blockIdx % 2 = 0 then blockIdx + 1 else blockIdx - 1

/-- `AlignedAddr::new`: only multiples of the alignment. -/
def alignedAddr (align addr : ℕ) : Option ℕ := if addr % align = 0 then some addr else none

/-- `(addr + align - 1) & !(align - 1)`. -/
def alignUp (align addr : ℕ) : Checked ℕ := do
  let a ← add addr align
  let a ← sub a 1
  pure (a &&& (wordSize - align))

namespace Zone

variable {M N : ℕ}

def setMem (z : Zone M N) (mem : Memory) : Zone M N := { z with mem := mem }

/-- The zone with another free list of one order. -/
def setList (z : Zone M N) (order : ℕ) (l : List ℕ) : Zone M N :=
  { z with freeLists := update z.freeLists order l }

/-- The bitmap of an order: one bit per block of the order. -/
def bitmapForOrder (z : Zone M N) (order : ℕ) : Checked BitSlice := do
  assert (order < N) "assertion failed: order < NORDER"
  let n ← shl order
  pure ⟨z.nunits / n, z.bitmapOffset order⟩

def onAlloc (z : Zone M N) (bytes : ℕ) : Zone M N :=
  let cur := (z.stats.curAllocatedBytes + bytes) % wordSize
  { z with stats := { z.stats with
      totalAllocations := (z.stats.totalAllocations + 1) % wordSize
      curAllocatedBytes := cur
      peakAllocatedBytes := max z.stats.peakAllocatedBytes cur } }

def onDealloc (z : Zone M N) (bytes : ℕ) : Zone M N :=
  { z with stats := { z.stats with
      totalDeallocations := (z.stats.totalDeallocations + 1) % wordSize
      curAllocatedBytes := (z.stats.curAllocatedBytes + wordSize - bytes % wordSize) % wordSize } }

/-- `MIN_BLOCK_BYTES * (1 << order)`. -/
def bytesPerBlock (M order : ℕ) : Checked ℕ := do
  let n ← shl order
  mul M n

def blockIdx (z : Zone M N) (blockAddr order : ℕ) : Checked ℕ := do
  let bytes ← bytesPerBlock M order
  let off ← sub blockAddr z.salloc
  pure (off / bytes)

def blockPtr (z : Zone M N) (blockIdx order : ℕ) : Checked ℕ := do
  let bytes ← bytesPerBlock M order
  let off ← mul blockIdx bytes
  add z.salloc off

/-- Pop a block of exactly the given order and clear its bit. -/
def allocBlock (z : Zone M N) (order : ℕ) : Checked (Option ℕ × Zone M N) := do
  assert (order < N) "Internal error: invalid order"
  match z.freeLists order with
  | [] => pure (none, z)
  | hdr :: rest =>
    let z := z.setList order rest
    let idx ← z.blockIdx hdr order
    let bitmap ← z.bitmapForOrder order
    let mem ← unwrap (bitmap.clear z.mem idx) "Internal error: bitmap index out of bounds"
    assert (hdr ≠ 0) "Internal error: block address is null"
    pure (some hdr, z.setMem mem)

/-- One split: the upper half of block `cur` of order `lower + 1` becomes a free block of
order `lower`. -/
def splitOnce (z : Zone M N) (lower cur : ℕ) : Checked (Zone M N) := do
  let lowerBlockIdx := cur * 2
  let lowerBuddyIdx := lowerBlockIdx + 1
  let bitmap ← z.bitmapForOrder lower
  let a ← unwrap (bitmap.test z.mem lowerBlockIdx) "called `Result::unwrap()` on an `Err` value"
  let b ← unwrap (bitmap.test z.mem lowerBuddyIdx) "called `Result::unwrap()` on an `Err` value"
  assert (a = false ∧ b = false) "Internal error: buddy system consistency violated"
  let mem ← unwrap (bitmap.set z.mem lowerBuddyIdx) "Internal error: bitmap index out of bounds"
  let z := z.setMem mem
  let ptr ← z.blockPtr lowerBuddyIdx lower
  pure (z.setList lower (z.freeLists lower ++ [ptr]))

/-- The split loop from order `order + k` down to `order`, always keeping the lower half. -/
def splitDown (order : ℕ) : ℕ → Zone M N → ℕ → Checked (Zone M N)
  | 0, z, _ => pure z
  | k + 1, z, cur => do
    let z ← z.splitOnce (order + k) cur
    splitDown order k z (cur * 2)

/-- The search loop of `alloc` over the orders still to try. -/
def searchFrom (order : ℕ) : List ℕ → Zone M N → Checked (Except BuddyError ℕ × Zone M N)
  | [], z => pure (.error .outOfMemory, z)
  | o :: os, z => do
    let (block, z) ← z.allocBlock o
    match block with
    | none => searchFrom order os z
    | some block =>
      let aligned ← expect (alignedAddr M block) "Internal error: block address not aligned"
      let cur ← z.blockIdx aligned o
      let z ← splitDown order (o - order) z cur
      let bytes ← bytesPerBlock M order
      pure (.ok block, z.onAlloc bytes)

def alloc (z : Zone M N) (order : ℕ) : Checked (Except BuddyError ℕ × Zone M N) :=
  if order ≥ N then pure (.error .invalidOrder, z)
  else searchFrom order (List.range' order (N - order)) z

/-- The merge loop of `dealloc` over the orders still to try; it returns the block to
publish. -/
def mergeFrom : List ℕ → Zone M N → ℕ → ℕ → Checked (ℕ × ℕ × Zone M N)
  | [], z, curBlockIdx, curOrder => pure (curBlockIdx, curOrder, z)
  | o :: os, z, curBlockIdx, _ =>
    if o = N - 1 then pure (curBlockIdx, o, z)
    else do
      let buddyIdx := buddyBlockIdx curBlockIdx
      let bitmap ← z.bitmapForOrder o
      if buddyIdx ≥ bitmap.len then pure (curBlockIdx, o, z)
      else do
        let free ← unwrap (bitmap.test z.mem buddyIdx) "Internal error: bitmap index out of bounds"
        if free = false then pure (curBlockIdx, o, z)
        else do
          let mem ← unwrap (bitmap.clear z.mem buddyIdx)
            "Internal error: bitmap index out of bounds"
          let z := z.setMem mem
          let buddyPtr ← z.blockPtr buddyIdx o
          assert (buddyPtr ∈ z.freeLists o) "Internal error: buddy block not found in free list"
          mergeFrom os (z.setList o ((z.freeLists o).erase buddyPtr)) (curBlockIdx / 2) o

/-- Set the bit of a block and append it to its free list. -/
def publish (z : Zone M N) (order blockIdx : ℕ) : Checked (Zone M N) := do
  let bitmap ← z.bitmapForOrder order
  let mem ← unwrap (bitmap.set z.mem blockIdx) "Internal error: bitmap index out of bounds"
  let z := z.setMem mem
  let ptr ← z.blockPtr blockIdx order
  pure (z.setList order (z.freeLists order ++ [ptr]))

def dealloc (z : Zone M N) (addr order : ℕ) : Checked (Except BuddyError Unit × Zone M N) := do
  if order ≥ N then pure (.error .invalidOrder, z)
  else match alignedAddr M addr with
  | none => pure (.error .unalignedAddr, z)
  | some blockAddr =>
    if blockAddr < z.salloc then pure (.error .invalidAddr, z)
    else do
      let bytes ← bytesPerBlock M order
      if (blockAddr - z.salloc) % bytes ≠ 0 then pure (.error .unalignedAddr, z)
      else do
        let blockIdx ← z.blockIdx blockAddr order
        if blockIdx ≥ z.nunits >>> order then pure (.error .invalidAddr, z)
        else do
          let bitmap ← z.bitmapForOrder order
          let free ← unwrap (bitmap.test z.mem blockIdx)
            "Internal error: bitmap index out of bounds"
          if free = true then pure (.error .doubleFree, z)
          else do
            let (curBlockIdx, curOrder, z) ←
              mergeFrom (List.range' order (N - order)) z blockIdx order
            let z ← z.publish curOrder curBlockIdx
            pure (.ok (), z.onDealloc bytes)

/-! ## Construction -/

/-- The bytes of the bitmaps of the first orders, for an estimate of the units. -/
def bitmapBytes (nunits : ℕ) : ℕ → Checked ℕ
  | 0 => pure 0
  | o + 1 => do
    let acc ← bitmapBytes nunits o
    let n ← shl o
    add acc (bitmapLen (nunits / n))

/-- The offset cache of the first orders, and the offset behind them. -/
def layBitmaps (nunits first : ℕ) : ℕ → Checked (ℕ × (ℕ → ℕ))
  | 0 => pure (first, fun _ => 0)
  | o + 1 => do
    let (offset, table) ← layBitmaps nunits first o
    let n ← shl o
    let next ← add offset (bitmapLen (nunits / n))
    pure (next, update table o offset)

/-- Append the first `nblocks` blocks of an order, from unit `cur` on, to its free list. -/
def pushBlocks (order cur startIdx : ℕ) : ℕ → Zone M N → Checked (Zone M N)
  | 0, z => pure z
  | i + 1, z => do
    let z ← pushBlocks order cur startIdx i z
    let n ← shl order
    let blockAddr := z.salloc + (cur + i * n) * M
    let z := z.setList order (z.freeLists order ++ [blockAddr])
    let bitmap ← z.bitmapForOrder order
    let mem ← unwrap (bitmap.set z.mem (startIdx + i))
      "called `Result::unwrap()` on an `Err` value"
    pure (z.setMem mem)

/-- The top-down greedy initialisation of the orders below the given one. -/
def fillOrders : ℕ → Zone M N → ℕ → ℕ → Checked (Zone M N)
  | 0, z, _, _ => pure z
  | o + 1, z, rem, cur => do
    let n ← shl o
    let nblocks := rem / n
    assert (cur % n = 0) "assertion failed: cur_nunits % units_per_block == 0"
    let z ← pushBlocks o cur (cur / n) nblocks z
    fillOrders o z (rem - nblocks * n) (cur + nblocks * n)

/-- `ZoneNode::from_slice`: place the header and the bitmaps at the front of the region
and hand out everything behind them as free blocks. -/
def fromSlice (M N : ℕ) (hdr : NodeLayout) (slice : Region) (mem : Memory) :
    Checked (Zone M N) := do
  let stop := slice.start + slice.size
  let hdrStart ← alignUp hdr.align slice.start
  let hdrStop ← add hdrStart hdr.size
  assert (hdrStop ≤ stop) "zone size is too small to hold metadata"
  let overestimatedNunits := slice.size / M
  let bytes ← bitmapBytes overestimatedNunits N
  let bitmapsStart := hdrStop
  let bitmapsStop ← add bitmapsStart bytes
  assert (bitmapsStop ≤ stop) "zone size is too small to hold metadata"
  -- zero out the bitmaps
  let first := bitmapsStart - slice.start
  let mem : Memory := fun k => if first ≤ k ∧ k < first + bytes then 0#8 else mem k
  let salloc ← alignUp M bitmapsStop
  assert (salloc < stop) "zone size is too small to hold metadata"
  let actualNunits := (stop - salloc) / M
  let (_, table) ← layBitmaps actualNunits first N
  let z : Zone M N :=
    { mem := mem, stats := ZoneStats.zeroed, nunits := actualNunits, bitmapOffset := table,
      salloc := salloc, freeLists := fun _ => [] }
  let z ← fillOrders N z actualNunits 0
  pure { z with stats := { z.stats with allocableBytes := actualNunits * M } }

end Zone

end Anemone.Buddy
