import Anemone.Model.Timekeeper

/-!
# What the calendar clock promises

A run is a list of calls, each with the counter value it reads and its answer.  The counter never
goes back and shows less than `2 ^ 63` nanoseconds of monotonic time.  The boot seed is possible
until the first change is asked for.
-/

namespace Anemone.Timer

open Checked (wordSize)

/-- A call of the timekeeper; a seed also reads the counter before it takes the lock. -/
inductive Call where
  | monotonic
  | realtime
  | coarseMonotonic
  | coarseRealtime
  | interrupt (isBsp : Bool)
  | seed (rtcEpochNs sample : ℕ)
  | set (targetNs : ℕ)
  | adjust (deltaNs : ℤ)
deriving DecidableEq

inductive Answer where
  | time (ns : ℕ)
  | read (read : RealtimeRead)
  | programmed (deadline : ℕ)
  | seeded (result : Except BootSeedError ℕ)
  | changed (result : Except SysError Bool)
deriving DecidableEq

def Call.run (tk : Timekeeper) (counter : ℕ) : Call → Checked (Answer × Timekeeper)
  | .monotonic => do pure (.time (← tk.monotonicNs counter), tk)
  | .realtime => do pure (.read (← tk.realtimeRead counter), tk)
  | .coarseMonotonic => pure (.time tk.coarseMonotonicNs, tk)
  | .coarseRealtime => do pure (.time (← tk.coarseRealtimeNs), tk)
  | .interrupt isBsp => do
    let (deadline, tk) ← tk.onTimerInterrupt isBsp counter
    pure (.programmed deadline, tk)
  | .seed rtcEpochNs sample => do
    let (result, tk) ← tk.seedBootRealtime rtcEpochNs sample counter
    pure (.seeded result, tk)
  | .set targetNs => do
    let (result, tk) ← tk.setRealtimeNs counter targetNs
    pure (.changed result, tk)
  | .adjust deltaNs => do
    let (result, tk) ← tk.adjustRealtimeNs counter deltaNs
    pure (.changed result, tk)

/-- Whether the call leaves the seed possible, and what a seed requires of the state. -/
def Call.Admits (seedable : Bool) (first last : ℕ) : Call → Bool → Prop
  | .seed _ sample, after => seedable = true ∧ first ≤ sample ∧ sample ≤ last ∧ after = false
  | .set _, after | .adjust _, after => after = false
  | _, after => after = seedable

/-- The timekeeper, the last counter value read, and whether the seed is still possible. -/
structure Clock where
  timekeeper : Timekeeper
  counter : ℕ
  seedable : Bool

/-- The monotonic time at a counter value. -/
def Timekeeper.nanosAt (tk : Timekeeper) (counter : ℕ) : ℕ :=
  tk.countsToNanos (counter - tk.bootCounter)

/-- The last monotonic time below `2 ^ 63` that the counter can show. -/
def Timekeeper.lastNanos (tk : Timekeeper) : ℕ :=
  tk.countsToNanos (min (wordSize - 1 - tk.bootCounter)
    ((2 ^ 63 * tk.frequencyHz - 1) / nanosPerSec))

structure Event where
  call : Call
  counter : ℕ
  answer : Answer
deriving DecidableEq

namespace Clock

def boot (tk : Timekeeper) : Clock := ⟨tk, tk.bootCounter, true⟩

/-- The counter may be read next with this value. -/
def Reads (s : Clock) (counter : ℕ) : Prop :=
  s.counter ≤ counter ∧ counter < wordSize ∧ s.timekeeper.nanosAt counter < 2 ^ 63

instance (s : Clock) (counter : ℕ) : Decidable (s.Reads counter) :=
  inferInstanceAs (Decidable (_ ∧ _))

inductive Step (s : Clock) : Event → Clock → Prop where
  | mk {call : Call} {counter : ℕ} {answer : Answer} {tk : Timekeeper} {seedable : Bool}
      (reads : s.Reads counter) (admits : call.Admits s.seedable s.counter counter seedable)
      (run : call.run s.timekeeper counter = .ok (answer, tk)) :
      Step s ⟨call, counter, answer⟩ ⟨tk, counter, seedable⟩

/-- **The change number counts the changes that move the clock**, and nothing else but an accepted
seed alters the snapshot. -/
def Counted (e : Event) (s t : RealtimeSnapshot) : Prop :=
  match e.call, e.answer with
  | .seed _ _, .seeded (.ok offset) => t = { s with offsetNs := offset }
  | _, .changed (.ok true) => t.offsetNs ≠ s.offsetNs ∧ t.changeSeq = s.changeSeq + 1
  | _, _ => t = s

/-- **A reading agrees with an earlier event**: `e` led to `s`, and the counter is read
in the later state `u`. -/
def Agrees (e : Event) (s u : Clock) (counter : ℕ) : Prop :=
  match e.call, e.answer with
  | .monotonic, .time ns | .coarseMonotonic, .time ns =>
    ∃ now, u.timekeeper.monotonicNs counter = .ok now ∧ ns ≤ now
  | .coarseRealtime, .time ns =>
    u.timekeeper.realtime.offsetNs = s.timekeeper.realtime.offsetNs →
      ∀ read, u.timekeeper.realtimeRead counter = .ok read → ns ≤ read.now
  | .set target, .changed (.ok _) =>
    u.timekeeper.realtime.changeSeq = s.timekeeper.realtime.changeSeq →
      ∀ read, u.timekeeper.realtimeRead counter = .ok read →
        read.now = target + (u.timekeeper.nanosAt counter - s.timekeeper.nanosAt e.counter)
  | _, _ => True

/-- No calendar reading panics, now or after any wait. -/
def ReadsReturn (s : Clock) : Prop :=
  ∀ counter, s.Reads counter → (∃ read, s.timekeeper.realtimeRead counter = .ok read) ∧
      ∃ ns, s.timekeeper.coarseRealtimeNs = .ok ns

/-- The offset a call asks for at a counter value. -/
def offsetAsked (s : Clock) (counter : ℕ) : Call → ℤ
  | .seed rtcEpochNs sample => rtcEpochNs - s.timekeeper.nanosAt sample
  | .set targetNs => targetNs - s.timekeeper.nanosAt counter
  | .adjust deltaNs => s.timekeeper.realtime.offsetNs + deltaNs
  | _ => s.timekeeper.realtime.offsetNs

/-- The offset in force after a call: the one asked for, unless the calendar would precede the
monotonic time or leave its word at the moment of the call. -/
def offsetAfter (s : Clock) (counter : ℕ) (call : Call) : ℕ :=
  let offset := s.offsetAsked counter call
  if 0 ≤ offset ∧ s.timekeeper.nanosAt counter + offset < wordSize then offset.toNat
  else s.timekeeper.realtime.offsetNs

/-- **The calendar lasts**: with the offset in force after the call it is still a 64-bit number
of nanoseconds at the last monotonic time. -/
def Lasting (s : Clock) (e : Event) : Prop :=
  s.offsetAfter e.counter e.call + s.timekeeper.lastNanos < wordSize

instance (s : Clock) (e : Event) : Decidable (s.Lasting e) := inferInstanceAs (Decidable (_ < _))

end Clock

end Anemone.Timer
