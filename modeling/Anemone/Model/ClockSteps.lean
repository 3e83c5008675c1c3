import Anemone.Model.TimerQueue

/-!
# Calendar steps, scanners and registrations

Scanners (the timer interrupt and the recheck after a step) and registrations read the calendar
and the step number together, and use what they read later, under the lock of a CPU's queue.
Everything may happen in between.  The calendar itself is not part of the state: every read
returns an arbitrary time.

A **scanner** is a CPU and a read; each round of the loops of `on_timer_interrupt` and
`recheck_realtime_requests` is one.  A **registration** takes the step number the request is armed
with, inserts the request, reads, and rechecks the request it inserted.

SOURCE: time/timer/mod.rs:358-514, time/timekeeper.rs:60-110
-/

namespace Anemone.Timer

open Function (update)

variable {Callback : Type}

structure RealtimeRead where
  now : ℕ
  changeSeq : ℕ
deriving DecidableEq, Repr

/-- The next identity, unless the identities are exhausted. -/
def tryAllocateEventId (next : ℕ) : Option ℕ :=
  if next + 1 < 2 ^ 64 then some next else none

namespace TimerQueue

def drainExpired (now : ℕ) : ℕ → TimerQueue Callback →
    Checked (List (TimerEvent Callback) × TimerQueue Callback)
  | 0, q => pure ([], q)
  | room + 1, q => do
    match ← q.popExpired now with
    | (none, q') => pure ([], q')
    | (some event, q') =>
      let (events, q'') ← drainExpired now room q'
      pure (event :: events, q'')

def drainRealtime (read : RealtimeRead) : ℕ → TimerQueue Callback →
    Checked (List (TimerEvent Callback × RealtimeReadyCause) × TimerQueue Callback)
  | 0, q => pure ([], q)
  | room + 1, q => do
    match ← q.popReadyRealtime read.now read.changeSeq with
    | (none, q') => pure ([], q')
    | (some ready, q') =>
      let (readies, q'') ← drainRealtime read room q'
      pure (ready :: readies, q'')

/-- One batch of the timer interrupt: due monotonic requests first, then calendar requests,
eight in all. -/
def interruptBatch (q : TimerQueue Callback) (monotonicNow : ℕ) (read : RealtimeRead) :
    Checked (List (TimerEvent Callback) × List (TimerEvent Callback × RealtimeReadyCause) ×
      TimerQueue Callback) := do
  let (events, q') ← drainExpired monotonicNow 8 q
  let (readies, q'') ← drainRealtime read (8 - events.length) q'
  pure (events, readies, q'')

/-- One batch of the recheck after a calendar step. -/
def recheckBatch (q : TimerQueue Callback) (read : RealtimeRead) :
    Checked (List (TimerEvent Callback × RealtimeReadyCause) × TimerQueue Callback) :=
  drainRealtime read 8 q

end TimerQueue

inductive Registration where
  | idle
  /-- The caller has taken the step number that arms the request, if it wants one. -/
  | armed (cancelOnChangeSeq : Option ℕ)
  | inserted (cpu eventId : ℕ)
  /-- The calendar has been read for the recheck. -/
  | reread (cpu eventId : ℕ) (read : RealtimeRead)
deriving DecidableEq, Repr

/-- The timekeeper's step number, the queues, and who is between a read and its use. -/
structure TimerSystem (Callback : Type) where
  changeSeq : ℕ
  nextEventId : ℕ
  queues : ℕ → TimerQueue Callback
  scans : List (ℕ × RealtimeRead)
  registrations : ℕ → Registration

namespace TimerSystem

inductive Label (Callback : Type) where
  | clockStep
  | scanRead (cpu : ℕ) (read : RealtimeRead)
  | scan (cpu : ℕ) (read : RealtimeRead)
      (taken : List (TimerEvent Callback × RealtimeReadyCause))
  | arm (registration : ℕ)
  | insert (cpu : ℕ) (event : TimerEvent Callback)
  | reread (registration : ℕ) (read : RealtimeRead)
  | recheck (cpu : ℕ) (read : RealtimeRead)
      (taken : Option (TimerEvent Callback × RealtimeReadyCause))
  | schedule (cpu : ℕ) (event : TimerEvent Callback)
  | cancel (cpu eventId : ℕ)

inductive Step (s : TimerSystem Callback) :
    Label Callback → TimerSystem Callback → Prop where
  | clockStep : Step s .clockStep { s with changeSeq := s.changeSeq + 1 }
  /-- A scanner reads the calendar for a queue. -/
  | scanRead (cpu now : ℕ) :
      Step s (.scanRead cpu ⟨now, s.changeSeq⟩)
        { s with scans := (cpu, ⟨now, s.changeSeq⟩) :: s.scans }
  /-- The timer interrupt drains a batch of its queue. -/
  | interrupt {cpu read before after monotonicNow events taken q}
      (held : s.scans = before ++ (cpu, read) :: after)
      (batch : (s.queues cpu).interruptBatch monotonicNow read = .ok (events, taken, q)) :
      Step s (.scan cpu read taken)
        { s with queues := update s.queues cpu q, scans := before ++ after }
  /-- The recheck after a step drains a batch of a queue. -/
  | recheckAll {cpu read before after taken q}
      (held : s.scans = before ++ (cpu, read) :: after)
      (batch : (s.queues cpu).recheckBatch read = .ok (taken, q)) :
      Step s (.scan cpu read taken)
        { s with queues := update s.queues cpu q, scans := before ++ after }
  /-- A caller takes the step number for a cancel-on-set request. -/
  | armCancelling {registration} (idle : s.registrations registration = .idle) :
      Step s (.arm registration)
        { s with registrations :=
            update s.registrations registration (.armed (some s.changeSeq)) }
  /-- A caller wants a request that calendar steps do not cancel. -/
  | armPlain {registration} (idle : s.registrations registration = .idle) :
      Step s (.arm registration)
        { s with registrations := update s.registrations registration (.armed none) }
  /-- The request enters the queue of the caller's CPU. -/
  | insert {registration cpu deadline cancelOnChangeSeq eventId lane q}
      (armed : s.registrations registration = .armed cancelOnChangeSeq)
      (alloc : tryAllocateEventId s.nextEventId = some eventId)
      (push : (s.queues cpu).pushRealtime
        (.newRealtime deadline cancelOnChangeSeq eventId lane) = .ok q) :
      Step s (.insert cpu (.newRealtime deadline cancelOnChangeSeq eventId lane)) { s with
          nextEventId := s.nextEventId + 1
          queues := update s.queues cpu q
          registrations := update s.registrations registration (.inserted cpu eventId) }
  /-- The registration reads the calendar for its recheck. -/
  | reread {registration cpu eventId} (now : ℕ)
      (inserted : s.registrations registration = .inserted cpu eventId) :
      Step s (.reread registration ⟨now, s.changeSeq⟩) { s with
          registrations := update s.registrations registration
            (.reread cpu eventId ⟨now, s.changeSeq⟩) }
  /-- The registration rechecks the request it inserted, and is finished. -/
  | recheck {registration cpu eventId read taken q}
      (held : s.registrations registration = .reread cpu eventId read)
      (take : (s.queues cpu).takeReadyRealtime eventId read.now read.changeSeq = .ok (taken, q)) :
      Step s (.recheck cpu read taken) { s with
          queues := update s.queues cpu q
          registrations := update s.registrations registration .idle }
  | schedule {cpu deadline eventId lane q}
      (alloc : tryAllocateEventId s.nextEventId = some eventId)
      (push : (s.queues cpu).push (.new deadline eventId lane) = .ok q) :
      Step s (.schedule cpu (.new deadline eventId lane)) { s with
          nextEventId := s.nextEventId + 1
          queues := update s.queues cpu q }
  | cancel {cpu eventId out q} (remove : (s.queues cpu).remove eventId = .ok (out, q)) :
      Step s (.cancel cpu eventId) { s with queues := update s.queues cpu q }

structure Start (s : TimerSystem Callback) : Prop where
  changeSeq : s.changeSeq = 0
  queues : ∀ cpu, s.queues cpu = TimerQueue.new
  scans : s.scans = []
  registrations : ∀ registration, s.registrations registration = .idle

abbrev History (Callback : Type) : Type := List (Label Callback × TimerSystem Callback)

end TimerSystem

end Anemone.Timer
