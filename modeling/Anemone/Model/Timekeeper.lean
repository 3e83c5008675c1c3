import Anemone.Model.ClockSteps

/-!
# The timekeeper

Monotonic time is the architecture counter since boot, in nanoseconds; the calendar is the
monotonic time plus an offset.  Every function that reads the counter takes the value it reads.
An operation that may fail answers with its error and the state it leaves behind.
-/

namespace Anemone.Timer

open Checked (wordSize)

def nanosPerSec : ℕ := 1000000000

inductive SysError where
  | invalidArgument
deriving DecidableEq, Repr

inductive BootSeedError where
  | epochBeforeMonotonic
  | realtimeOverflow
deriving DecidableEq, Repr

structure RealtimeSnapshot where
  offsetNs : ℕ
  changeSeq : ℕ
deriving DecidableEq, Repr

namespace RealtimeSnapshot

def new (monotonicNs realtimeNs : ℕ) : Option RealtimeSnapshot :=
  if monotonicNs ≤ realtimeNs then some ⟨realtimeNs - monotonicNs, 0⟩ else none

/-- Every check comes before the change of either field; `false` says that nothing moved. -/
def setOffset (s : RealtimeSnapshot) (monotonicNs newOffset : ℕ) :
    Checked (Except SysError Bool × RealtimeSnapshot) :=
  if monotonicNs + newOffset < wordSize then
    if s.offsetNs = newOffset then pure (.ok false, s)
    else if s.changeSeq + 1 < wordSize then pure (.ok true, ⟨newOffset, s.changeSeq + 1⟩)
    else .error ⟨"realtime change sequence exhausted"⟩
  else pure (.error .invalidArgument, s)

def setTarget (s : RealtimeSnapshot) (monotonicNs targetNs : ℕ) :
    Checked (Except SysError Bool × RealtimeSnapshot) :=
  if monotonicNs ≤ targetNs then s.setOffset monotonicNs (targetNs - monotonicNs)
  else pure (.error .invalidArgument, s)

def adjust (s : RealtimeSnapshot) (monotonicNs : ℕ) (deltaNs : ℤ) :
    Checked (Except SysError Bool × RealtimeSnapshot) :=
  -- a sum that leaves `i128` is not a `u64` either, and the error is the same
  if 0 ≤ s.offsetNs + deltaNs ∧ s.offsetNs + deltaNs < wordSize then
    s.setOffset monotonicNs (s.offsetNs + deltaNs).toNat
  else pure (.error .invalidArgument, s)

def seedBoot (s : RealtimeSnapshot) (rtcEpochNs monotonicSampleNs monotonicCommitNs : ℕ) :
    Checked (Except BootSeedError ℕ × RealtimeSnapshot) := do
  Checked.assert (s.offsetNs = 0) "RTC seed observed a nonzero boot offset"
  Checked.assert (s.changeSeq = 0) "RTC seed observed a runtime step"
  if monotonicSampleNs ≤ rtcEpochNs then
    let offsetNs := rtcEpochNs - monotonicSampleNs
    if monotonicCommitNs + offsetNs < wordSize then
      pure (.ok offsetNs, { s with offsetNs })
    else pure (.error .realtimeOverflow, s)
  else pure (.error .epochBeforeMonotonic, s)

end RealtimeSnapshot

structure Timekeeper where
  bootCounter : ℕ
  frequencyHz : ℕ
  countsPerTick : ℕ
  realtime : RealtimeSnapshot
  coarseMonoNs : ℕ
deriving DecidableEq, Repr

namespace Timekeeper

/-- A counter slower than the system's tick rate is refused. -/
def new (systemHz bootCounter frequencyHz : ℕ) : Option Timekeeper :=
  if frequencyHz < systemHz then none
  else (RealtimeSnapshot.new 0 0).map
    fun realtime => ⟨bootCounter, frequencyHz, frequencyHz / systemHz, realtime, 0⟩

variable (tk : Timekeeper)

def elapsedCounts (counter : ℕ) : Checked ℕ :=
  if tk.bootCounter ≤ counter then pure (counter - tk.bootCounter)
  else .error ⟨"architecture monotonic counter went backwards"⟩

def countsToNanos (counts : ℕ) : ℕ := counts * nanosPerSec / tk.frequencyHz

/-- A duration in counter units.  A product beyond `u128` has a quotient beyond `u64`. -/
def durationToMono (ns : ℕ) : Option ℕ :=
  let mono := ns * tk.frequencyHz / nanosPerSec
  if mono < wordSize then some mono else none

def checkedAdd (mono ns : ℕ) : Option ℕ := do
  let delta ← tk.durationToMono ns
  if mono + delta < wordSize then some (mono + delta) else none

/-- The deadline of a timeout that is asked for at the uptime `now`. -/
def deadlineAfter (now expire : ℕ) : ℕ :=
  let deadline := (tk.checkedAdd now expire).getD (wordSize - 1)
  if expire = 0 then deadline else min (deadline + 1) (wordSize - 1)

/-- A time as a 64-bit number of nanoseconds. -/
def fitNs (ns : ℕ) (reason : String) : Checked ℕ :=
  if ns < wordSize then pure ns else .error ⟨reason⟩

def monotonicNs (counter : ℕ) : Checked ℕ := do
  let counts ← tk.elapsedCounts counter
  fitNs (tk.countsToNanos counts) "monotonic clock value exceeded its internal nanosecond range"

def realtimeRead (counter : ℕ) : Checked RealtimeRead := do
  let monotonic ← tk.monotonicNs counter
  let now ← fitNs (monotonic + tk.realtime.offsetNs)
    "realtime clock value exceeded its internal nanosecond range"
  pure ⟨now, tk.realtime.changeSeq⟩

/-- The sample is taken before the timekeeper's lock and the commit time under it. -/
def seedBootRealtime (rtcEpochNs sample commit : ℕ) :
    Checked (Except BootSeedError ℕ × Timekeeper) := do
  let monotonicSampleNs ← tk.monotonicNs sample
  let monotonicCommitNs ← tk.monotonicNs commit
  let (result, realtime) ← tk.realtime.seedBoot rtcEpochNs monotonicSampleNs monotonicCommitNs
  pure (result, { tk with realtime })

def setRealtimeNs (counter targetNs : ℕ) : Checked (Except SysError Bool × Timekeeper) := do
  let monotonicNs ← tk.monotonicNs counter
  let (result, realtime) ← tk.realtime.setTarget monotonicNs targetNs
  pure (result, { tk with realtime })

def adjustRealtimeNs (counter : ℕ) (deltaNs : ℤ) :
    Checked (Except SysError Bool × Timekeeper) := do
  let monotonicNs ← tk.monotonicNs counter
  let (result, realtime) ← tk.realtime.adjust monotonicNs deltaNs
  pure (result, { tk with realtime })

def coarseMonotonicNs : ℕ := tk.coarseMonoNs

def coarseRealtimeNs : Checked ℕ :=
  fitNs (tk.coarseMonotonicNs + tk.realtime.offsetNs)
    "coarse realtime value exceeded its internal nanosecond range"

/-- The answer is the counter value the next interrupt is programmed for. -/
def onTimerInterrupt (isBsp : Bool) (counter : ℕ) : Checked (ℕ × Timekeeper) := do
  let deadline := (counter + tk.countsPerTick) % wordSize
  if isBsp then
    let elapsed ← tk.elapsedCounts counter
    let coarseMonoNs ← fitNs (tk.countsToNanos elapsed)
      "coarse monotonic value exceeded its internal nanosecond range"
    pure (deadline, { tk with coarseMonoNs })
  else pure (deadline, tk)

end Timekeeper

end Anemone.Timer
