import Anemone.Model.Pipe
import Anemone.Interface.RingContents

/-!
# A pipe as a stream of bytes

The bytes that writes put in come out of reads once and in order.  `acceptedBytes` and
`deliveredBytes` are the two streams of a log, and `acceptances` and `deliveries` the parts of one
call.
-/

namespace Anemone.Pipe

namespace System

namespace Event

def acceptedBytes : Event → List UInt8
  | .accepted _ bytes => bytes
  | _ => []

def deliveredBytes : Event → List UInt8
  | .delivered _ bytes => bytes
  | _ => []

def acceptedFor (call : ℕ) : Event → List (List UInt8)
  | .accepted writer bytes => if writer = call then [bytes] else []
  | _ => []

def deliveredTo (call : ℕ) : Event → List (List UInt8)
  | .delivered reader bytes => if reader = call then [bytes] else []
  | _ => []

@[simp] theorem acceptedBytes_quiet : quiet.acceptedBytes = [] := rfl

@[simp] theorem deliveredBytes_quiet : quiet.deliveredBytes = [] := rfl

@[simp] theorem acceptedFor_quiet (call : ℕ) : quiet.acceptedFor call = [] := rfl

@[simp] theorem deliveredTo_quiet (call : ℕ) : quiet.deliveredTo call = [] := rfl

end Event

variable (log : List (Op × Event))

/-- The bytes accepted from writes, in the order in which they were put in. -/
def acceptedBytes : List UInt8 := log.flatMap fun label => label.2.acceptedBytes

/-- The bytes delivered to reads, in the order in which they were taken out. -/
def deliveredBytes : List UInt8 := log.flatMap fun label => label.2.deliveredBytes

def acceptances (call : ℕ) : List (List UInt8) := log.flatMap fun label => label.2.acceptedFor call

def deliveries (call : ℕ) : List (List UInt8) := log.flatMap fun label => label.2.deliveredTo call

end System

/-- What a call has put in and taken out when its result is decided: a successful write put in one
block, which is all of its data if that fits a page; a successful read took out as many bytes as it
reports; a call that fails did neither. -/
def Work.Accounts (config : PipeConfig) (accepted delivered : List (List UInt8)) :
    Work → Except SysError ℕ → Prop
  | .write data _, .ok written =>
    accepted = [data.take written] ∧ written ≤ data.length ∧
      (data.length ≤ config.atomicWriteBytes → written = data.length) ∧ delivered = []
  | .read _ requested _, .ok count =>
    accepted = [] ∧ delivered.flatten.length = count ∧ count ≤ requested
  | _, _ => accepted = [] ∧ delivered = []

namespace Stage

/-- The result of a call, once it is decided. -/
def result : Stage → Option (Except SysError ℕ)
  | .running _ (.releasing result) => some result
  | .returned _ result => some result
  | _ => none

def work : Stage → Option Work
  | .idle => none
  | .running work _ => some work
  | .returned work _ => some work

/-- What a call has put in and taken out so far: nothing before its result is decided. -/
def Accounts (config : PipeConfig) (accepted delivered : List (List UInt8)) (stage : Stage) :
    Prop :=
  match stage.work, stage.result with
  | some work, some result => work.Accounts config accepted delivered result
  | _, _ => accepted = [] ∧ delivered = []

end Stage

namespace System

/-- The pipe after a run with this log: the ring has what was accepted and not yet delivered, and
every call has put in and taken out what its stage says. -/
structure Streams (config : PipeConfig) (log : List (Op × Event)) (s : System)
    (contents : List UInt8) : Prop where
  holds : s.inner.buf.Holds contents
  stream : deliveredBytes log ++ contents = acceptedBytes log
  calls : ∀ call, (s.calls call).Accounts config (acceptances log call) (deliveries log call)

/-- What the next section does, whichever it is. -/
structure StepSafe (config : PipeConfig) (s : System) (contents : List UInt8) : Prop where
  returns : ∀ op, s.Enabled op → ∃ event t, s.run config op = .ok (event, t)
  /-- A copy to user memory that fails takes nothing out. -/
  failedCopy : ∀ call work staged err event t,
    Step config s (.copyOut call work staged (.error err), event) t → t.inner = s.inner
  /-- A change of the capacity keeps the bytes and their order. -/
  capacity : ∀ call requested capacity allocated event t,
    Step config s (.replace call requested capacity allocated, event) t → t.inner.buf.Holds contents
  /-- A read of something is told that there is nothing only where the ring is empty and no writer
  participates. -/
  endOfFile : ∀ label t call user requested nonblock, Step config s label t → 0 < requested →
    (s.calls call).result = none → (t.calls call).work = some (.read user requested nonblock) →
    (t.calls call).result = some (.ok 0) → contents = [] ∧ s.inner.txCnt = 0

end System

end Anemone.Pipe
