import Mathlib.Data.Prod.Lex
import Anemone.Library.Heap

/-!
# The soft-timer queue

One CPU's queue of timer requests: two vectors kept as binary heaps, for monotonic and for calendar
deadlines, and the last step sequence of the calendar that the queue has scanned.  Times and
sequence numbers are compared and never added to; a callback is of an arbitrary type.

SOURCE: time/timer/mod.rs:44-340
-/

namespace Anemone.Timer

variable {Callback : Type}

/-- Where the completion of a request runs.  A calendar request carries two completions that
exclude each other. -/
inductive TimerLane (Callback : Type) where
  | irq (callback : Callback)
  | threaded (callback : Callback)
  | realtimeThreaded (expired : Callback) (clockChanged : Option Callback)
deriving DecidableEq, Repr

/-- The deadline of a request in its clock domain. -/
inductive TimerDeadline where
  | monotonic (deadline : ℕ)
  | realtime (deadline : ℕ) (cancelOnChangeSeq : Option ℕ)
deriving DecidableEq, Repr

namespace TimerDeadline

def sortKey : TimerDeadline → ℕ
  | .monotonic deadline => deadline
  | .realtime deadline _ => deadline

def isRealtime : TimerDeadline → Bool
  | .monotonic _ => false
  | .realtime _ _ => true

/-- The step sequence a cancel-on-set request was armed with. -/
def armedSeq : TimerDeadline → Option ℕ
  | .monotonic _ => none
  | .realtime _ cancelOnChangeSeq => cancelOnChangeSeq

end TimerDeadline

structure TimerEvent (Callback : Type) where
  deadline : TimerDeadline
  eventId : ℕ
  lane : TimerLane Callback
deriving DecidableEq, Repr

namespace TimerEvent

def new (deadline eventId : ℕ) (lane : TimerLane Callback) : TimerEvent Callback :=
  { deadline := .monotonic deadline, eventId, lane }

def newRealtime (deadline : ℕ) (cancelOnChangeSeq : Option ℕ) (eventId : ℕ)
    (lane : TimerLane Callback) : TimerEvent Callback :=
  { deadline := .realtime deadline cancelOnChangeSeq, eventId, lane }

/-- What requests of one clock domain are ordered by. -/
def key (event : TimerEvent Callback) : ℕ ×ₗ ℕ :=
  toLex (event.deadline.sortKey, event.eventId)

def precedes (self other : TimerEvent Callback) : Checked Bool := do
  Checked.assert (self.deadline.isRealtime = other.deadline.isRealtime)
    "soft timer heap mixed clock domains"
  pure (decide (self.key < other.key))

end TimerEvent

inductive RealtimeReadyCause where
  | expired
  | clockChanged
deriving DecidableEq, Repr

structure TimerQueue (Callback : Type) where
  events : List (TimerEvent Callback)
  realtimeEvents : List (TimerEvent Callback)
  observedRealtimeChangeSeq : ℕ
deriving DecidableEq, Repr

namespace TimerQueue

def new : TimerQueue Callback :=
  { events := [], realtimeEvents := [], observedRealtimeChangeSeq := 0 }

def pushInto (events : List (TimerEvent Callback)) (event : TimerEvent Callback) :
    Checked (List (TimerEvent Callback)) :=
  BinaryHeap.push TimerEvent.precedes events event

def removeFrom (events : List (TimerEvent Callback)) (index : ℕ) :
    Checked (TimerEvent Callback × List (TimerEvent Callback)) :=
  BinaryHeap.remove TimerEvent.precedes events index

def push (q : TimerQueue Callback) (event : TimerEvent Callback) :
    Checked (TimerQueue Callback) := do
  Checked.assert (event.deadline.isRealtime = false)
    "assertion failed: !event.deadline.is_realtime()"
  let events ← pushInto q.events event
  pure { q with events }

def pushRealtime (q : TimerQueue Callback) (event : TimerEvent Callback) :
    Checked (TimerQueue Callback) := do
  Checked.assert (event.deadline.isRealtime = true) "assertion failed: event.deadline.is_realtime()"
  let realtimeEvents ← pushInto q.realtimeEvents event
  pure { q with realtimeEvents }

def popExpired (q : TimerQueue Callback) (now : ℕ) :
    Checked (Option (TimerEvent Callback) × TimerQueue Callback) :=
  match q.events[0]? with
  | none => pure (none, q)
  | some first =>
    if now < first.deadline.sortKey then pure (none, q)
    else do
      let (event, events) ← removeFrom q.events 0
      pure (some event, { q with events })

/-- Whether a request is cancelled by a step sequence. -/
def armedBefore (changeSeq : ℕ) (event : TimerEvent Callback) : Bool :=
  match event.deadline with
  | .realtime _ (some armedSeq) => decide (armedSeq < changeSeq)
  | _ => false

/-- The second half of `pop_ready_realtime`: expire the earliest request if it is due. -/
def expireFirst (q : TimerQueue Callback) (now : ℕ) :
    Checked (Option (TimerEvent Callback × RealtimeReadyCause) × TimerQueue Callback) :=
  match q.realtimeEvents[0]? with
  | none => pure (none, q)
  | some first =>
    match first.deadline with
    | .monotonic _ => .error ⟨"realtime heap contained a monotonic deadline"⟩
    | .realtime deadline _ =>
      if now < deadline then pure (none, q)
      else do
        let (event, realtimeEvents) ← removeFrom q.realtimeEvents 0
        pure (some (event, .expired), { q with realtimeEvents })

def popReadyRealtime (q : TimerQueue Callback) (now changeSeq : ℕ) :
    Checked (Option (TimerEvent Callback × RealtimeReadyCause) × TimerQueue Callback) :=
  if changeSeq < q.observedRealtimeChangeSeq then pure (none, q)
  else if q.observedRealtimeChangeSeq < changeSeq then
    match q.realtimeEvents.findIdx? (armedBefore changeSeq) with
    | some index => do
      let (event, realtimeEvents) ← removeFrom q.realtimeEvents index
      pure (some (event, .clockChanged), { q with realtimeEvents })
    | none => expireFirst { q with observedRealtimeChangeSeq := changeSeq } now
  else expireFirst q now

def takeReadyRealtime (q : TimerQueue Callback) (eventId now changeSeq : ℕ) :
    Checked (Option (TimerEvent Callback × RealtimeReadyCause) × TimerQueue Callback) :=
  if changeSeq < q.observedRealtimeChangeSeq then pure (none, q)
  else match q.realtimeEvents.findIdx? (fun event => event.eventId == eventId) with
    | none => pure (none, q)
    | some index => do
      let event ← BinaryHeap.read q.realtimeEvents index
      match event.deadline with
      | .monotonic _ => .error ⟨"realtime heap contained a monotonic deadline"⟩
      | .realtime deadline cancelOnChangeSeq =>
        if cancelOnChangeSeq.any (fun armedSeq => decide (armedSeq < changeSeq)) then
          let (event, realtimeEvents) ← removeFrom q.realtimeEvents index
          pure (some (event, .clockChanged), { q with realtimeEvents })
        else if deadline ≤ now then
          let (event, realtimeEvents) ← removeFrom q.realtimeEvents index
          pure (some (event, .expired), { q with realtimeEvents })
        else pure (none, q)

def remove (q : TimerQueue Callback) (eventId : ℕ) :
    Checked (Option (TimerEvent Callback) × TimerQueue Callback) :=
  match q.events.findIdx? (fun event => event.eventId == eventId) with
  | some index => do
    let (event, events) ← removeFrom q.events index
    pure (some event, { q with events })
  | none =>
    match q.realtimeEvents.findIdx? (fun event => event.eventId == eventId) with
    | none => pure (none, q)
    | some index => do
      let (event, realtimeEvents) ← removeFrom q.realtimeEvents index
      pure (some event, { q with realtimeEvents })

/-! ## Sequences of calls -/

inductive Op (Callback : Type) where
  | push (deadline eventId : ℕ) (lane : TimerLane Callback)
  | pushRealtime (deadline : ℕ) (cancelOnChangeSeq : Option ℕ) (eventId : ℕ)
      (lane : TimerLane Callback)
  | popExpired (now : ℕ)
  | popReadyRealtime (now changeSeq : ℕ)
  | takeReadyRealtime (eventId now changeSeq : ℕ)
  | remove (eventId : ℕ)

def Op.inserted : Op Callback → Option (TimerEvent Callback)
  | .push deadline eventId lane => some (.new deadline eventId lane)
  | .pushRealtime deadline cancelOnChangeSeq eventId lane =>
    some (.newRealtime deadline cancelOnChangeSeq eventId lane)
  | _ => none

/-- Perform a call; the first component is the request it took out. -/
def exec (q : TimerQueue Callback) :
    Op Callback → Checked (Option (TimerEvent Callback) × TimerQueue Callback)
  | .push deadline eventId lane => do
    let q' ← q.push (.new deadline eventId lane)
    pure (none, q')
  | .pushRealtime deadline cancelOnChangeSeq eventId lane => do
    let q' ← q.pushRealtime (.newRealtime deadline cancelOnChangeSeq eventId lane)
    pure (none, q')
  | .popExpired now => q.popExpired now
  | .popReadyRealtime now changeSeq => do
    let (ready, q') ← q.popReadyRealtime now changeSeq
    pure (ready.map Prod.fst, q')
  | .takeReadyRealtime eventId now changeSeq => do
    let (ready, q') ← q.takeReadyRealtime eventId now changeSeq
    pure (ready.map Prod.fst, q')
  | .remove eventId => q.remove eventId

/-- Perform a sequence of calls; the first component lists the requests they took out. -/
def execAll (q : TimerQueue Callback) :
    List (Op Callback) → Checked (List (TimerEvent Callback) × TimerQueue Callback)
  | [] => pure ([], q)
  | op :: ops => do
    let (out, q') ← q.exec op
    let (outs, q'') ← q'.execAll ops
    pure (out.toList ++ outs, q'')

end TimerQueue

end Anemone.Timer
