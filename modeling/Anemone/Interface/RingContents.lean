import Anemone.Model.RingBuffer

/-!
# A ring buffer as a bounded queue

What a ring buffer is for: a queue of at most `capacity` items, first in, first out.  `Holds` says
which queue a ring buffer stands for.
-/

namespace Anemone.RingBuffer

variable {T : Type}

/-- The ring buffer stands for the queue `contents`. -/
structure Holds (r : RingBuffer T) (contents : List T) : Prop where
  tail_lt : r.tail < r.capacity
  head_eq : r.head = Cyclic.cell r.capacity r.tail r.len
  len_le : r.len ≤ r.capacity
  layout : r.capacity ≤ maxLayout
  window : Cyclic.window r.buf r.capacity r.tail r.len = contents.map some

end Anemone.RingBuffer
