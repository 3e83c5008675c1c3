import Anemone.Model.TimerQueue

/-!
# What a timer queue is for

A timer queue stands for the collection of the requests that were put in and not taken out
again.  Its answers are about that collection only: the earliest monotonic request when it
is due, and the request a handle names.
-/

namespace Anemone.Timer.TimerQueue

variable {Callback : Type}

def queued (q : TimerQueue Callback) : Multiset (TimerEvent Callback) :=
  (q.events : Multiset (TimerEvent Callback)) + q.realtimeEvents

/-- The requests a sequence of calls inserts. -/
def insertedBy (ops : List (Op Callback)) : Multiset (TimerEvent Callback) :=
  ops.filterMap Op.inserted

/-- No entry of the vector precedes its parent. -/
def HeapOrder (events : List (TimerEvent Callback)) : Prop :=
  ∀ i child parent, 0 < i → events[i]? = some child → events[(i - 1) / 2]? = some parent →
    child.precedes parent = .ok false

/-- `pop_expired` takes out the least monotonic request if it is due, and nothing
otherwise. -/
def PopsLeast (q : TimerQueue Callback) (now : ℕ) : Prop :=
  ∃ answer q', q.popExpired now = .ok (answer, q') ∧
    ((∃ event, answer = some event ∧ event ∈ q.events ∧ event.deadline.sortKey ≤ now ∧
        (∀ other ∈ q.events, event.key ≤ other.key) ∧ event ::ₘ q'.queued = q.queued) ∨
      (answer = none ∧ q' = q ∧ ∀ other ∈ q.events, now < other.deadline.sortKey))

/-- `remove` takes out exactly the request with the given identity. -/
def RemovesNamed (q : TimerQueue Callback) (eventId : ℕ) : Prop :=
  ∃ answer q', q.remove eventId = .ok (answer, q') ∧
    (∀ event, answer = some event ↔ event ∈ q.queued ∧ event.eventId = eventId) ∧
    (answer.toList : Multiset (TimerEvent Callback)) + q'.queued = q.queued

/-- A queue that holds exactly what was inserted and not taken out, in heap order, and
answers from it. -/
structure Exact (q : TimerQueue Callback)
    (inserted removed : Multiset (TimerEvent Callback)) : Prop where
  /-- The monotonic vector is a heap of monotonic requests. -/
  monotonic : HeapOrder q.events ∧ ∀ event ∈ q.events, event.deadline.isRealtime = false
  /-- The calendar vector is a heap of calendar requests. -/
  realtime : HeapOrder q.realtimeEvents ∧
    ∀ event ∈ q.realtimeEvents, event.deadline.isRealtime = true
  accounted : q.queued + removed = inserted
  /-- What `pop_expired` answers at any time. -/
  popsLeast : ∀ now, q.PopsLeast now
  /-- What `remove` answers for any identity. -/
  removesNamed : ∀ eventId, q.RemovesNamed eventId

end Anemone.Timer.TimerQueue
