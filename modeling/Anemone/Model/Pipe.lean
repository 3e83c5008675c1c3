import Anemone.Model.RingBuffer

/-!
# Pipes

The data path of a pipe (fs/pipe/io.rs) and the change of its capacity (fs/pipe/capacity.rs), as
sections that run under the lock of the pipe.  `System` has any number of calls, each at a place
of its program text, and the mutex that serializes readers.

Whether a wait was interrupted, whether memory was allocated, and what the copy to user memory
answered are part of the step.  Poll routes, the two events and the signal that goes with a broken
pipe are left out; a wait can end at any time.
-/

namespace Anemone.Pipe

open Checked (assert expect wordSize)

/-- The constants of the build, with what the compiler checks of them. -/
structure PipeConfig where
  /-- `PIPE_ATOMIC_WRITE_BYTES`, one page. -/
  atomicWriteBytes : ℕ
  capacityPages : ℕ
  maxCapacityPages : ℕ
  atomicWriteBytes_pos : 0 < atomicWriteBytes
  capacityPages_ge : 2 ≤ capacityPages
  capacityPages_isPowerOfTwo : capacityPages.isPowerOfTwo
  maxCapacityPages_isPowerOfTwo : maxCapacityPages.isPowerOfTwo
  maxCapacityPages_ge : capacityPages ≤ maxCapacityPages
  maxCapacityBytes_lt : maxCapacityPages * atomicWriteBytes < wordSize

namespace PipeConfig

def defaultCapacityBytes (config : PipeConfig) : ℕ :=
  config.capacityPages * config.atomicWriteBytes

def maxCapacityBytes (config : PipeConfig) : ℕ :=
  config.maxCapacityPages * config.atomicWriteBytes

end PipeConfig

/-- The errors of the calls; `fault` is any error of copying to user memory. -/
inductive SysError where
  | again
  | interrupted
  | brokenPipe
  | busy
  | permissionDenied
  | invalidArgument
  | outOfMemory
  | fault (code : ℕ)
deriving DecidableEq, Repr

structure PipeInner where
  buf : RingBuffer UInt8
  rxCnt : ℕ
  txCnt : ℕ

/-- What a section under the lock decides. -/
inductive Verdict where
  | returns (result : Except SysError ℕ)
  | waits
  | proceeds
deriving DecidableEq

namespace PipeInner

variable (pipe : PipeInner)

def pipeReadLocked (room : ℕ) : Checked (List UInt8 × PipeInner) := do
  let (bytes, buf) ← pipe.buf.tryPopSlice room
  pure (bytes, { pipe with buf })

def pipeWriteLocked (data : List UInt8) : Checked (ℕ × PipeInner) := do
  let available ← pipe.buf.available
  let (written, buf) ← pipe.buf.tryPushSlice (data.take (min available data.length))
  pure (written, { pipe with buf })

/-- The first look of a reader. -/
def readCheck (nonblock : Bool) : Verdict :=
  if pipe.buf.isEmpty && decide (0 < pipe.txCnt) then
    if nonblock then .returns (.error .again) else .waits
  else if pipe.buf.isEmpty then .returns (.ok 0)
  else .proceeds

/-- The second look of a reader, with the operation mutex. -/
def readRecheck : Verdict :=
  if pipe.buf.isEmpty then
    if pipe.txCnt = 0 then .returns (.ok 0) else .waits
  else .proceeds

def snapshotStaged (stagedLen : ℕ) : Checked (List UInt8) := do
  assert (stagedLen ≤ pipe.buf.len) "pipe staged prefix was consumed outside the RX operation gate"
  let bytes ← pipe.buf.iter
  assert ((bytes.take stagedLen).length = stagedLen) "pipe snapshot did not cover its staged prefix"
  pure (bytes.take stagedLen)

/-- Pop the bytes that were copied out, and compare them with what was staged. -/
def popStaged : List UInt8 → RingBuffer UInt8 → Checked (RingBuffer UInt8)
  | [], buf => pure buf
  | expected :: rest, buf => do
    let (actual, buf) ← buf.tryPop
    let actual ← expect actual "pipe staged prefix disappeared before commit"
    assert (actual = expected) "pipe staged prefix changed before read commit"
    popStaged rest buf

def commitStaged (staged : List UInt8) (copied : ℕ) : Checked PipeInner := do
  let buf ← popStaged (staged.take copied) pipe.buf
  pure { pipe with buf }

variable (config : PipeConfig)

def writeNonblock (data : List UInt8) : Checked (Verdict × PipeInner) := do
  let available ← pipe.buf.available
  if available = 0 ∨ (data.length ≤ config.atomicWriteBytes ∧ available < data.length) then
    pure (.returns (.error .again), pipe)
  else do
    let (written, pipe) ← pipe.pipeWriteLocked
      (data.take (if config.atomicWriteBytes < data.length then min available data.length
        else data.length))
    pure (.returns (.ok written), pipe)

/-- The bytes of a small write go in together. -/
def writeAtomic (data : List UInt8) : Checked (Verdict × PipeInner) := do
  let (written, pipe) ← pipe.pipeWriteLocked data
  assert (written = data.length) "atomic pipe write lost admission"
  pure (.returns (.ok written), pipe)

def writePartial (data : List UInt8) : Checked (Verdict × PipeInner) := do
  let available ← pipe.buf.available
  let (written, pipe) ← pipe.pipeWriteLocked (data.take (min available data.length))
  pure (.returns (.ok written), pipe)

/-- A write that may wait: one round of its loop. -/
def writeBlocking (data : List UInt8) : Checked (Verdict × PipeInner) := do
  let available ← pipe.buf.available
  if data.length ≤ config.atomicWriteBytes then
    if available < data.length then pure (.waits, pipe) else pipe.writeAtomic data
  else if available = 0 then pure (.waits, pipe)
  else pipe.writePartial data

/-- One section of a write. -/
def writeSection (data : List UInt8) (nonblock : Bool) : Checked (Verdict × PipeInner) :=
  if pipe.rxCnt = 0 then pure (.returns (.error .brokenPipe), pipe)
  else if nonblock then pipe.writeNonblock config data
  else pipe.writeBlocking config data

/-! ## Capacity -/

def normalizePipeCapacity (requested : ℕ) : Except SysError ℕ :=
  if 2 ^ 31 - 1 < requested then .error .invalidArgument
  else if requested = 0 then .ok config.atomicWriteBytes
  else if wordSize ≤ requested + (config.atomicWriteBytes - 1) then
    .error .invalidArgument
  else
    let pages := ((requested + (config.atomicWriteBytes - 1)) /
      config.atomicWriteBytes).nextPowerOfTwo
    if wordSize ≤ pages ∨ wordSize ≤ pages * config.atomicWriteBytes then
      .error .invalidArgument
    else .ok (pages * config.atomicWriteBytes)

/-- The capacity is there already, or too small for what is in the pipe. -/
def resizeCheck (capacity : ℕ) : Verdict :=
  if capacity = pipe.buf.capacity then .returns (.ok capacity)
  else if capacity < pipe.buf.len then .returns (.error .busy)
  else .proceeds

/-- The first section of a change of the capacity. -/
def resizeFirst (requested : ℕ) : Except SysError (ℕ × Verdict) :=
  match normalizePipeCapacity config requested with
  | .error err => .error err
  | .ok capacity =>
    if config.maxCapacityBytes < capacity then .error .permissionDenied
    else .ok (capacity, pipe.resizeCheck capacity)

/-- Move what is readable to a new buffer, and put the new buffer in place. -/
def moveTo (candidate : RingBuffer UInt8) : Checked PipeInner := do
  let (first, second) ← pipe.buf.readableSlices
  let (copiedFirst, candidate) ← candidate.tryPushSlice first
  let (copiedSecond, candidate) ← candidate.tryPushSlice second
  let copied ← Checked.add copiedFirst copiedSecond
  assert (copied = pipe.buf.len) "pipe resize candidate lost readable bytes"
  pure { pipe with buf := candidate }

/-- The second section of a change of the capacity. -/
def resizeSecond (capacity : ℕ) (allocated : Bool) :
    Checked (Except SysError ℕ × PipeInner) :=
  match RingBuffer.tryNew 1 capacity allocated with
  | .error _ => pure (.error .outOfMemory, pipe)
  | .ok candidate =>
    match pipe.resizeCheck capacity with
    | .returns result => pure (result, pipe)
    | _ => do
      let pipe ← pipe.moveTo candidate
      pure (.ok capacity, pipe)

end PipeInner

/-! ## Calls -/

/-- What a call is for.  A read goes to a kernel buffer, or to user memory through staging. -/
inductive Work where
  | read (user : Bool) (requested : ℕ) (nonblock : Bool)
  | write (data : List UInt8) (nonblock : Bool)
  | resize (requested : ℕ)
deriving DecidableEq, Repr

/-- Where a call is between two sections. -/
inductive Place where
  /-- Before its first section, or back in its loop. -/
  | checking
  | waiting
  /-- A reader that found bytes and asks for the operation mutex. -/
  | wantsGate
  /-- A reader with the operation mutex. -/
  | gated
  | staging (stagedLen : ℕ)
  | copying (staged : List UInt8)
  | committing (staged : List UInt8) (copied : ℕ)
  /-- A reader that is done and still has the operation mutex. -/
  | releasing (result : Except SysError ℕ)
  /-- A change of the capacity between its two sections. -/
  | examined (capacity : ℕ)
deriving DecidableEq

inductive Stage where
  | idle
  | running (work : Work) (place : Place)
  | returned (work : Work) (result : Except SysError ℕ)
deriving DecidableEq

structure System where
  inner : PipeInner
  /-- The call that has the operation mutex. -/
  gate : Option ℕ
  calls : ℕ → Stage

namespace System

variable (s : System) (config : PipeConfig)

/-- One section of one call, with where the call is and what it finds outside the pipe. -/
inductive Op where
  | start (call : ℕ) (work : Work)
  | check (call : ℕ) (user : Bool) (requested : ℕ) (nonblock : Bool)
  | wake (call : ℕ) (work : Work) (interrupted : Bool)
  | lockGate (call : ℕ) (work : Work)
  | recheck (call : ℕ) (user : Bool) (requested : ℕ) (nonblock : Bool)
  | snapshot (call : ℕ) (work : Work) (stagedLen : ℕ) (reserved : Bool)
  | copyOut (call : ℕ) (work : Work) (staged : List UInt8) (answer : Except SysError ℕ)
  | commit (call : ℕ) (work : Work) (staged : List UInt8) (copied : ℕ)
  | unlockGate (call : ℕ) (work : Work) (result : Except SysError ℕ)
  | attempt (call : ℕ) (data : List UInt8) (nonblock : Bool)
  | examine (call : ℕ) (requested : ℕ)
  | replace (call : ℕ) (requested : ℕ) (capacity : ℕ) (allocated : Bool)
  | participants (rx tx : ℕ)

/-- What a section put into the pipe or took out of it. -/
inductive Event where
  | quiet
  | accepted (call : ℕ) (bytes : List UInt8)
  | delivered (call : ℕ) (bytes : List UInt8)
deriving DecidableEq

/-- A section can run: the call is there, the mutex is free, and the copy to user memory made
progress within its source if it answered with a count. -/
def Enabled : Op → Prop
  | .start call _ => s.calls call = .idle
  | .check call user requested nonblock =>
    s.calls call = .running (.read user requested nonblock) .checking
  | .wake call work _ => s.calls call = .running work .waiting
  | .lockGate call work => s.calls call = .running work .wantsGate ∧ s.gate = none
  | .recheck call user requested nonblock =>
    s.calls call = .running (.read user requested nonblock) .gated
  | .snapshot call work stagedLen _ => s.calls call = .running work (.staging stagedLen)
  | .copyOut call work staged answer =>
    s.calls call = .running work (.copying staged) ∧
      ∀ copied, answer = .ok copied → 0 < copied ∧ copied ≤ staged.length
  | .commit call work staged copied => s.calls call = .running work (.committing staged copied)
  | .unlockGate call work result => s.calls call = .running work (.releasing result)
  | .attempt call data nonblock => s.calls call = .running (.write data nonblock) .checking
  | .examine call requested => s.calls call = .running (.resize requested) .checking
  | .replace call requested capacity _ =>
    s.calls call = .running (.resize requested) (.examined capacity)
  | .participants _ _ => True

def goTo (call : ℕ) (stage : Stage) : System :=
  { s with calls := Function.update s.calls call stage }

/-- A user read of nothing returns at once. -/
def startStage : Work → Stage
  | .read true 0 nonblock => .returned (.read true 0 nonblock) (.ok 0)
  | work => .running work .checking

/-- Where a section that ends with a verdict leaves its call. -/
def verdictStage (work : Work) (go : Place) : Verdict → Stage
  | .returns result => .returned work result
  | .waits => .running work .waiting
  | .proceeds => .running work go

/-- A reader with the operation mutex found bytes: a kernel read takes them, a user read stages. -/
def takeOrStage (call : ℕ) (user : Bool) (requested : ℕ) (nonblock : Bool) :
    Checked (Event × System) :=
  if user = true then
    pure (.quiet, s.goTo call
      (.running (.read user requested nonblock) (.staging (min requested s.inner.buf.len))))
  else do
    let (bytes, inner) ← s.inner.pipeReadLocked requested
    pure (.delivered call bytes, { s with inner }.goTo call
      (.running (.read user requested nonblock) (.releasing (.ok bytes.length))))

def recheckGated (call : ℕ) (user : Bool) (requested : ℕ) (nonblock : Bool) :
    Checked (Event × System) :=
  match s.inner.readRecheck with
  | .returns result =>
    pure (.quiet, s.goTo call (.running (.read user requested nonblock) (.releasing result)))
  | .waits =>
    pure (.quiet, { s with gate := none }.goTo call
      (.running (.read user requested nonblock) .checking))
  | .proceeds => s.takeOrStage call user requested nonblock

def snapshotOrFail (call : ℕ) (work : Work) (stagedLen : ℕ) (reserved : Bool) :
    Checked (Event × System) :=
  if reserved = false then
    pure (.quiet, s.goTo call (.running work (.releasing (.error .outOfMemory))))
  else do
    let staged ← s.inner.snapshotStaged stagedLen
    pure (.quiet, s.goTo call (.running work (.copying staged)))

def copiedOut (call : ℕ) (work : Work) (staged : List UInt8) :
    Except SysError ℕ → Checked (Event × System)
  | .error err => pure (.quiet, s.goTo call (.running work (.releasing (.error err))))
  | .ok copied => do
    assert (0 < copied ∧ copied ≤ staged.length) "nonempty pipe copyout made invalid progress"
    pure (.quiet, s.goTo call (.running work (.committing staged copied)))

/-- What a write has put into the pipe. -/
def acceptedEvent (call : ℕ) (data : List UInt8) : Verdict → Event
  | .returns (.ok written) => .accepted call (data.take written)
  | _ => .quiet

def run : Op → Checked (Event × System)
  | .start call work => pure (.quiet, s.goTo call (startStage work))
  | .check call user requested nonblock =>
    pure (.quiet, s.goTo call
      (verdictStage (.read user requested nonblock) .wantsGate (s.inner.readCheck nonblock)))
  | .wake call work interrupted =>
    pure (.quiet, s.goTo call (if interrupted = true then .returned work (.error .interrupted)
      else .running work .checking))
  | .lockGate call work =>
    pure (.quiet, { s with gate := some call }.goTo call (.running work .gated))
  | .recheck call user requested nonblock => s.recheckGated call user requested nonblock
  | .snapshot call work stagedLen reserved => s.snapshotOrFail call work stagedLen reserved
  | .copyOut call work staged answer => s.copiedOut call work staged answer
  | .commit call work staged copied => do
    let inner ← s.inner.commitStaged staged copied
    pure (.delivered call (staged.take copied), { s with inner }.goTo call
      (.running work (.releasing (.ok copied))))
  | .unlockGate call work result =>
    pure (.quiet, { s with gate := none }.goTo call (.returned work result))
  | .attempt call data nonblock => do
    let (verdict, inner) ← s.inner.writeSection config data nonblock
    pure (acceptedEvent call data verdict, { s with inner }.goTo call
      (verdictStage (.write data nonblock) .checking verdict))
  | .examine call requested =>
    match s.inner.resizeFirst config requested with
    | .error err => pure (.quiet, s.goTo call (.returned (.resize requested) (.error err)))
    | .ok (capacity, verdict) =>
      pure (.quiet, s.goTo call (verdictStage (.resize requested) (.examined capacity) verdict))
  | .replace call requested capacity allocated => do
    let (result, inner) ← s.inner.resizeSecond capacity allocated
    pure (.quiet, { s with inner }.goTo call (.returned (.resize requested) result))
  | .participants rx tx =>
    pure (.quiet, { s with inner := { s.inner with rxCnt := rx, txCnt := tx } })

def Step (s : System) (label : Op × Event) (t : System) : Prop :=
  s.Enabled label.1 ∧ s.run config label.1 = .ok (label.2, t)

def Start (s : System) : Prop :=
  (∃ allocated, RingBuffer.tryNew 1 config.defaultCapacityBytes allocated = .ok s.inner.buf) ∧
    s.gate = none ∧ ∀ call, s.calls call = .idle

end System

end Anemone.Pipe
