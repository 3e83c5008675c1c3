import Anemone.Library.Checked
import Anemone.Library.Cyclic

/-!
# Ring buffers

The static ring buffer and the heap-backed one (utils/ring_buffer.rs) have the same text; they
differ in where the capacity is kept, which is a field here.  A cell that was never written is
`none`, and reading one as an item is an error of the model, like an index or a block copy beyond
the last cell.
-/

namespace Anemone

open Checked (assert expect)

structure RingBuffer (T : Type) where
  buf : ℕ → Option T
  capacity : ℕ
  len : ℕ
  head : ℕ
  tail : ℕ

inductive HeapRingBufferError where
  | invalidCapacity
  | allocation
deriving DecidableEq, Repr

namespace RingBuffer

variable {T : Type}

def new (capacity : ℕ) : RingBuffer T where
  buf := fun _ => none
  capacity := capacity
  len := 0
  head := 0
  tail := 0

/-- The largest size of an allocation, in bytes. -/
def maxLayout : ℕ := 2 ^ 63 - 1

/-- A heap-backed buffer of elements of `size` bytes; `allocated` is the answer of the allocator. -/
def tryNew (size capacity : ℕ) (allocated : Bool) :
    Except HeapRingBufferError (RingBuffer T) :=
  if capacity = 0 ∨ maxLayout < capacity * size then .error .invalidCapacity
  else if allocated = true then .ok (new capacity) else .error .allocation

variable (r : RingBuffer T)

def isEmpty : Bool := r.len == 0

def available : Checked ℕ := Checked.sub r.capacity r.len

/-- `buf[position]` as an item. -/
def item (position : ℕ) : Checked T := do
  assert (position < r.capacity) "index out of bounds"
  expect (r.buf position) "read of an uninitialized cell"

def advance (position n : ℕ) : Checked ℕ := do
  let sum ← Checked.add position n
  assert (r.capacity ≠ 0) "attempt to calculate the remainder with a divisor of zero"
  pure (sum % r.capacity)

def tryPop : Checked (Option T × RingBuffer T) :=
  if r.isEmpty then pure (none, r)
  else do
    let item ← r.item r.tail
    let tail ← r.advance r.tail 1
    let len ← Checked.sub r.len 1
    pure (some item, { r with tail, len })

/-- Copy items to the cells from `position` on. -/
def copyIn (cells : ℕ → Option T) (position : ℕ) (items : List T) : Checked (ℕ → Option T) := do
  assert (position < r.capacity) "index out of bounds"
  assert (position + items.length ≤ r.capacity) "copy beyond the last cell"
  pure (Cyclic.store cells position (items.map some))

/-- The part that continues at the first cell, if there is one. -/
def copyInSecond (cells : ℕ → Option T) (secondPart : List T) : Checked (ℕ → Option T) :=
  if 0 < secondPart.length then r.copyIn cells 0 secondPart else pure cells

def tryPushSlice (items : List T) : Checked (ℕ × RingBuffer T) := do
  let available ← r.available
  let toPush := min available items.length
  if toPush = 0 then pure (0, r)
  else
    let room ← Checked.sub r.capacity r.head
    let firstPart := min room toPush
    let secondPart ← Checked.sub toPush firstPart
    let buf ← r.copyIn r.buf r.head (items.take firstPart)
    let buf ← r.copyInSecond buf ((items.drop firstPart).take secondPart)
    let head ← r.advance r.head toPush
    let len ← Checked.add r.len toPush
    pure (toPush, { r with buf, head, len })

/-- Read `n` neighbouring cells from `position` on as items. -/
def copyOut (position n : ℕ) : Checked (List T) := do
  assert (position < r.capacity) "index out of bounds"
  assert (position + n ≤ r.capacity) "copy beyond the last cell"
  (Cyclic.segment r.buf position n).mapM fun cell => expect cell "read of an uninitialized cell"

/-- The part that continues at the first cell, if there is one. -/
def copyOutSecond (n : ℕ) : Checked (List T) :=
  if 0 < n then r.copyOut 0 n else pure []

/-- Pop into a buffer with room for `room` items; the popped items are returned. -/
def tryPopSlice (room : ℕ) : Checked (List T × RingBuffer T) :=
  let toPop := min r.len room
  if toPop = 0 then pure ([], r)
  else do
    let before ← Checked.sub r.capacity r.tail
    let firstPart := min before toPop
    let secondPart ← Checked.sub toPop firstPart
    let first ← r.copyOut r.tail firstPart
    let second ← r.copyOutSecond secondPart
    let tail ← r.advance r.tail toPop
    let len ← Checked.sub r.len toPop
    pure (first ++ second, { r with tail, len })

def readableSlices : Checked (List T × List T) := do
  let before ← Checked.sub r.capacity r.tail
  let firstLen := min before r.len
  let secondLen ← Checked.sub r.len firstLen
  let first ← r.copyOut r.tail firstLen
  let second ← r.copyOut 0 secondLen
  pure (first, second)

def iter : Checked (List T) := do
  let (first, second) ← r.readableSlices
  pure (first ++ second)

def clear : RingBuffer T := { r with head := 0, tail := 0, len := 0 }

end RingBuffer

end Anemone
