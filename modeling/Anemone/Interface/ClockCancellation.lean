import Anemone.Model.ClockSteps

/-!
# What a calendar step does to the requests it cancels

A cancel-on-set request is armed with a step number.  Whoever completes it and knows of a
later step has to complete it as cancelled; whoever knows less than the queue has to leave
the queue alone; and a queue that has scanned for a step keeps no request that the step
cancels, except one whose registration has yet to recheck it.
-/

namespace Anemone.Timer.TimerSystem

variable {Callback : Type}

/-- A completed request was not completed as expired by somebody who had read a step number
above the one it was armed with. -/
def RightCause (read : RealtimeRead)
    (ready : TimerEvent Callback × RealtimeReadyCause) : Prop :=
  ready.2 = .expired → TimerQueue.armedBefore read.changeSeq ready.1 = false

/-- Whoever completes requests in a step gives them the right cause. -/
def Label.RightCauses : Label Callback → Prop
  | .scan _ read taken => ∀ ready ∈ taken, RightCause read ready
  | .recheck _ read taken => ∀ ready, taken = some ready → RightCause read ready
  | _ => True

/-- In every step of a run, completed requests get the right cause. -/
def CausesRight (path : History Callback) : Prop := ∀ x ∈ path, x.1.RightCauses

/-- A step in which a scanner that knows less than the queue removes no calendar request. -/
def StaleScanIdle (s : TimerSystem Callback) (label : Label Callback)
    (t : TimerSystem Callback) : Prop :=
  ∀ cpu read taken, label = .scan cpu read taken →
    read.changeSeq < (s.queues cpu).observedRealtimeChangeSeq →
    taken = [] ∧ (t.queues cpu).realtimeEvents = (s.queues cpu).realtimeEvents

/-- The registration of a request has not rechecked it yet. -/
def Open (s : TimerSystem Callback) (cpu eventId : ℕ) : Prop :=
  ∃ registration, s.registrations registration = .inserted cpu eventId ∨
    ∃ read, s.registrations registration = .reread cpu eventId read

/-- No queue keeps a request that a step it has scanned for cancels, except those whose
registration is still open. -/
def Settled (s : TimerSystem Callback) : Prop :=
  ∀ cpu, ∀ event ∈ (s.queues cpu).realtimeEvents,
    TimerQueue.armedBefore (s.queues cpu).observedRealtimeChangeSeq event = true →
    s.Open cpu event.eventId

/-- A request enters the queue armed with a step number that the queue has not scanned
beyond. -/
def InsertsCurrent (s : TimerSystem Callback) : Label Callback → Prop
  | .insert cpu event =>
    TimerQueue.armedBefore (s.queues cpu).observedRealtimeChangeSeq event = false
  | _ => True

end Anemone.Timer.TimerSystem
