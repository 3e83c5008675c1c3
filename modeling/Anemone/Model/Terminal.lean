import Anemone.Model.TerminalOutput

/-!
# The line discipline of a terminal

Input bytes are kept in one queue (device/tty/discipline.rs): its last `canonicalPendingLen` bytes
are the line being edited, and the bytes before it are committed.  In canonical mode these are
divided by the queue of record lengths; a record of length zero is an end of file.

`TerminalInner` (device/tty/terminal.rs) joins the discipline with the modes and the output; each
of its operations is one step under its lock.  The wake-ups after an operation, the statistics, the
window size and the drain request are left out.  The bytes that a read delivers are part of its
result.
-/

namespace Anemone.Tty

open Checked (assert expect)

structure TtyCapacities where
  input : ℕ
  canonicalLine : ℕ
  output : ℕ
deriving DecidableEq, Repr

inductive SysError where
  | outOfMemory
deriving DecidableEq, Repr

inductive ReceiveResult where
  | consumed
  | consumedSignalControl (signal : TtySignalControl)
  | backpressured
deriving DecidableEq, Repr

inductive InputRead where
  | empty
  | eof
  | bytes (data : List UInt8)
deriving DecidableEq, Repr

structure TtyDiscipline where
  input : List UInt8
  inputCapacity : ℕ
  canonicalPendingLen : ℕ
  canonicalRecords : List ℕ
  recordsCapacity : ℕ
  canonicalColumn : ℕ
deriving DecidableEq, Repr

def saturatingAdd (a b : ℕ) : ℕ := min (a + b) (Checked.wordSize - 1)

namespace TtyDiscipline

/-- Reserve the two queues; `allocated` is what the allocator answers for each. -/
def tryNew (caps : TtyCapacities) (allocated : Bool × Bool) :
    Checked (Except SysError TtyDiscipline) :=
  if Checked.wordSize ≤ caps.input + caps.canonicalLine then
    .error ⟨"TTY input allocation size overflow"⟩
  else if allocated.1 = true ∧ allocated.2 = true then
    pure (.ok ⟨[], caps.input + caps.canonicalLine, 0, [], caps.input, 0⟩)
  else pure (.error .outOfMemory)

variable (d : TtyDiscipline)

def committedLen : Checked ℕ :=
  if d.canonicalPendingLen ≤ d.input.length then pure (d.input.length - d.canonicalPendingLen)
  else .error ⟨"TTY canonical pending length exceeds input queue"⟩

def pushInput (byte : UInt8) : Checked TtyDiscipline := do
  assert (d.input.length < d.inputCapacity)
    "TTY input queue would grow while the Terminal guard is held"
  pure { d with input := d.input ++ [byte] }

def pushLiteral : List UInt8 → TtyDiscipline → Checked TtyDiscipline
  | [], d => pure d
  | byte :: rest, d => do
    let d ← d.pushInput byte
    pushLiteral rest d

def pushRecord (recordLen : ℕ) : Checked TtyDiscipline := do
  assert (d.canonicalRecords.length < d.recordsCapacity)
    "canonical record queue would grow while the Terminal guard is held"
  pure { d with canonicalRecords := d.canonicalRecords ++ [recordLen] }

def popLoop : ℕ → List UInt8 → Checked (List UInt8 × List UInt8)
  | 0, input => pure ([], input)
  | count + 1, input => do
    let byte ← expect input.head? "committed TTY input metadata exceeds queued bytes"
    let (data, input) ← popLoop count input.tail
    pure (byte :: data, input)

/-- Pop `count` bytes into a destination of `room` bytes. -/
def popInput (count room : ℕ) : Checked (List UInt8 × TtyDiscipline) := do
  assert (count ≤ room) "assertion failed: count <= dst.len()"
  let committed ← d.committedLen
  assert (count ≤ committed) "assertion failed: count <= self.committed_len()"
  let (data, input) ← popLoop count d.input
  pure (data, { d with input })

def truncatePending : Checked TtyDiscipline := do
  let committed ← d.committedLen
  pure { d with
    input := d.input.take committed
    canonicalPendingLen := 0
    canonicalColumn := 0 }

def canCommitRecord (caps : TtyCapacities) (recordLen : ℕ) : Checked Bool := do
  let committed ← d.committedLen
  pure (decide (saturatingAdd committed recordLen ≤ caps.input) &&
    decide (d.canonicalRecords.length < caps.input) &&
    decide (d.canonicalRecords.length < d.recordsCapacity))

def commitPendingRecord : Checked TtyDiscipline :=
  { d with canonicalPendingLen := 0, canonicalColumn := 0 }.pushRecord d.canonicalPendingLen

def flushInput : TtyDiscipline :=
  { d with input := [], canonicalPendingLen := 0, canonicalRecords := [], canonicalColumn := 0 }

def commitUnread : Checked TtyDiscipline :=
  if d.input.length ≠ 0 then d.pushRecord d.input.length else pure d

def setCanonical (canonical : Bool) : Checked TtyDiscipline :=
  if canonical = true then do
    assert (d.canonicalRecords = []) "assertion failed: self.canonical_records.is_empty()"
    assert (d.canonicalPendingLen = 0) "assertion `left == right` failed"
    { d with canonicalColumn := 0 }.commitUnread
  else
    pure { d with canonicalRecords := [], canonicalPendingLen := 0, canonicalColumn := 0 }

/-! ## Erasing -/

/-- `input[position]` -/
def byteAt (position : ℕ) : Checked UInt8 := expect d.input[position]? "Out of bounds access"

/-- Walk back from `head` over continuation bytes, not beyond the first byte of the line. -/
def eraseScan (iutf8 : Bool) (pendingStart : ℕ) : ℕ → Checked (ℕ × UInt8)
  | 0 => do
    let byte ← d.byteAt 0
    if iutf8 && isUtf8Continuation byte && (0 != pendingStart) then
      .error ⟨"attempt to subtract with overflow"⟩
    else pure (0, byte)
  | head + 1 => do
    let byte ← d.byteAt (head + 1)
    if iutf8 && isUtf8Continuation byte && (head + 1 != pendingStart) then
      eraseScan iutf8 pendingStart head
    else pure (head + 1, byte)

/-- The length and the first byte of what an erase removes. -/
def canonicalEraseSpan (termios : TtyTermios) : Checked (Option (ℕ × UInt8)) :=
  if d.canonicalPendingLen = 0 then pure none
  else do
    let pendingStart ← Checked.sub d.input.length d.canonicalPendingLen
    let last ← Checked.sub d.input.length 1
    let (head, byte) ← d.eraseScan termios.iutf8 pendingStart last
    if termios.iutf8 && isUtf8Continuation byte then pure none
    else pure (some (d.input.length - head, byte))

/-- The printed characters back to the last tab, and whether there is one. -/
def tabScan (iutf8 : Bool) : List UInt8 → ℕ → ℕ × Bool
  | [], characters => (characters, false)
  | byte :: rest, characters =>
    if byte = 0x09 then (characters, true)
    else tabScan iutf8 rest
      (if !isAsciiControl byte && !(iutf8 && isUtf8Continuation byte) then characters + 1
        else characters)

def tabEraseColumns (termios : TtyTermios) : Checked ℕ := do
  let pendingStart ← Checked.sub d.input.length d.canonicalPendingLen
  let beforeErasedTab ← Checked.sub d.input.length 1
  assert (pendingStart ≤ beforeErasedTab) "range start index exceeds its end"
  let scan := tabScan termios.iutf8
    ((d.input.take beforeErasedTab).drop pendingStart).reverse 0
  let sum ← Checked.add (if scan.2 then 0 else d.canonicalColumn) scan.1
  pure (8 - sum % 8)

def eraseEchoFor (termios : TtyTermios) (erasedByte : UInt8) : Checked EchoBytes :=
  if erasedByte = 0x09 then do
    let columns ← d.tabEraseColumns termios
    termios.tabEraseEcho columns
  else pure termios.eraseEcho

/-! ## Receiving -/

abbrev Received := ReceiveResult × TtyDiscipline × TerminalOutput

variable (caps : TtyCapacities) (byte : UInt8) (termios : TtyTermios) (output : TerminalOutput)

def enqueueEcho (output : TerminalOutput) (echo : EchoBytes) (termios : TtyTermios) :
    Checked TerminalOutput := do
  let (enqueued, output) ← output.enqueue echo termios
  assert (enqueued = true) "assertion failed: output.enqueue(&echo, termios)"
  pure output

def receiveSignal (signal : TtySignalControl) : Checked Received := do
  assert (output.canEnqueueAfterClear caps.output (termios.signalEcho byte) termios = true)
    "configured TTY output queue cannot hold a signal echo after flush"
  let output ← output.clear
  let output ← enqueueEcho output (termios.signalEcho byte) termios
  pure (.consumedSignalControl signal, d.flushInput, output)

def receiveRaw : Checked Received := do
  let committed ← d.committedLen
  if caps.input ≤ committed then pure (.backpressured, d, output)
  else do
    let fits ← output.canEnqueue (termios.echoForByte byte) termios
    if fits = false then pure (.backpressured, d, output)
    else do
      let d ← d.pushInput byte
      let output ← enqueueEcho output (termios.echoForByte byte) termios
      pure (.consumed, d, output)

def eraseBytes (eraseLen : ℕ) (echo : EchoBytes) : Checked Received := do
  let fits ← output.canEnqueue echo termios
  if fits = false then pure (.backpressured, d, output)
  else do
    let kept ← Checked.sub d.input.length eraseLen
    let pending ← Checked.sub d.canonicalPendingLen eraseLen
    let output ← enqueueEcho output echo termios
    pure (.consumed, { d with input := d.input.take kept, canonicalPendingLen := pending }, output)

def receiveErase : Checked Received := do
  let span ← d.canonicalEraseSpan termios
  match span with
  | none => pure (.consumed, d, output)
  | some (eraseLen, erasedByte) => do
    let echo ← d.eraseEchoFor termios erasedByte
    d.eraseBytes termios output eraseLen echo

def receiveKill : Checked Received := do
  let fits ← output.canEnqueue termios.killEcho termios
  if fits = false then pure (.backpressured, d, output)
  else do
    let d ← d.truncatePending
    let output ← enqueueEcho output termios.killEcho termios
    pure (.consumed, d, output)

def receiveEof : Checked Received := do
  let fits ← d.canCommitRecord caps d.canonicalPendingLen
  if fits = false then pure (.backpressured, d, output)
  else do
    let d ← d.commitPendingRecord
    pure (.consumed, d, output)

def newlineFits (recordLen : ℕ) : Checked Bool := do
  let commits ← d.canCommitRecord caps recordLen
  if commits = false then pure false
  else output.canEnqueue (termios.echoForByte byte) termios

def receiveNewline : Checked Received := do
  let recordLen ← TerminalOutput.checkedSucc d.canonicalPendingLen
    "canonical record length overflow"
  let fits ← d.newlineFits caps byte termios output recordLen
  if fits = false then pure (.backpressured, d, output)
  else do
    let d ← d.pushInput byte
    let pending ← Checked.add d.canonicalPendingLen 1
    let d ← { d with canonicalPendingLen := pending }.commitPendingRecord
    let output ← enqueueEcho output (termios.echoForByte byte) termios
    pure (.consumed, d, output)

/-- The column at which the edited line starts is taken with its first byte. -/
def markColumn : TtyDiscipline :=
  if d.canonicalPendingLen = 0 then { d with canonicalColumn := output.column } else d

def receiveText : Checked Received :=
  if caps.canonicalLine - 1 ≤ d.canonicalPendingLen then pure (.backpressured, d, output)
  else do
    let fits ← output.canEnqueue (termios.echoForByte byte) termios
    if fits = false then pure (.backpressured, d, output)
    else do
      let d ← (d.markColumn output).pushInput byte
      let pending ← Checked.add d.canonicalPendingLen 1
      let output ← enqueueEcho output (termios.echoForByte byte) termios
      pure (.consumed, { d with canonicalPendingLen := pending }, output)

def receiveCanonical : Checked Received :=
  if TtyTermios.matchesControl termios.erase byte then d.receiveErase termios output
  else if TtyTermios.matchesControl termios.kill byte then d.receiveKill termios output
  else if TtyTermios.matchesControl termios.eof byte then d.receiveEof caps output
  else if byte = 0x0a then d.receiveNewline caps byte termios output
  else d.receiveText caps byte termios output

def receive : Checked Received :=
  match termios.signalControl byte with
  | some signal => d.receiveSignal caps byte termios output signal
  | none =>
    if termios.icanon = false then d.receiveRaw caps byte termios output
    else d.receiveCanonical caps byte termios output

def canReceiveLiteral (len : ℕ) : Checked Bool :=
  if termios.icanon = true then
    pure (decide (saturatingAdd d.canonicalPendingLen len ≤ caps.canonicalLine - 1))
  else do
    let committed ← d.committedLen
    pure (decide (saturatingAdd committed len ≤ caps.input))

/-- In canonical mode a literal belongs to the edited line. -/
def extendPending (len : ℕ) : Checked TtyDiscipline :=
  if termios.icanon = true then do
    let pending ← Checked.add d.canonicalPendingLen len
    pure { d with canonicalPendingLen := pending }
  else pure d

def receiveLiteral (literal : List UInt8) : Checked (ReceiveResult × TtyDiscipline) := do
  let fits ← d.canReceiveLiteral caps termios literal.length
  if fits = false then pure (.backpressured, d)
  else do
    assert (saturatingAdd d.input.length literal.length ≤ d.inputCapacity)
      "TTY literal token exceeds preallocated input storage"
    let d ← pushLiteral literal d
    let d ← d.extendPending termios literal.length
    pure (.consumed, d)

/-! ## Reading -/

def readRaw (room : ℕ) : Checked (InputRead × TtyDiscipline) := do
  let committed ← d.committedLen
  let (data, d) ← d.popInput (min room committed) room
  if data.length = 0 then pure (.empty, d) else pure (.bytes data, d)

/-- Shorten the first record by what was read of it. -/
def shortenRecord (recordLen count : ℕ) : Checked TtyDiscipline :=
  if count = recordLen then pure { d with canonicalRecords := d.canonicalRecords.tail }
  else do
    assert (d.canonicalRecords ≠ []) "TTY canonical record disappeared during read"
    pure { d with canonicalRecords := (recordLen - count) :: d.canonicalRecords.tail }

def readRecord (recordLen room : ℕ) : Checked (InputRead × TtyDiscipline) := do
  let (data, d) ← d.popInput (min room recordLen) (min room recordLen)
  assert (data.length ≠ 0) "canonical record exists without committed bytes"
  let d ← d.shortenRecord recordLen data.length
  pure (.bytes data, d)

def readCanonical (room : ℕ) : Checked (InputRead × TtyDiscipline) :=
  match d.canonicalRecords with
  | [] => pure (.empty, d)
  | recordLen :: rest =>
    if recordLen = 0 then pure (.eof, { d with canonicalRecords := rest })
    else if room = 0 then pure (.bytes [], d)
    else d.readRecord recordLen room

/-- Read into a destination of `room` bytes. -/
def read (room : ℕ) : Checked (InputRead × TtyDiscipline) :=
  if termios.icanon = false then d.readRaw room else d.readCanonical room

end TtyDiscipline

/-! ## The terminal -/

inductive TtyRxUnit where
  | byte (byte : UInt8)
  | break
  | faultedByte (byte : UInt8)
deriving DecidableEq, Repr

inductive TtyRxEffect where
  | consumed
  | signal (signal : TtySignalControl)
  | backpressured
deriving DecidableEq, Repr

structure TerminalInner where
  termios : TtyTermios
  discipline : TtyDiscipline
  output : TerminalOutput
  termiosGeneration : ℕ

/-- The byte that is received after the input modes are applied; an ignored carriage return is
none. -/
def mapInput (termios : TtyTermios) (byte : UInt8) : Option UInt8 :=
  let byte := if termios.istrip then byte &&& 0x7f else byte
  if byte = 0x0d then
    if termios.igncr then none else if termios.icrnl then some 0x0a else some byte
  else if byte = 0x0a ∧ termios.inlcr = true then some 0x0d
  else some byte

namespace TerminalInner

/-- The third answer of the allocator is for the output queue and the terminal itself. -/
def tryNewWithControl (caps : TtyCapacities) (allocated : Bool × Bool × Bool) :
    Checked (Except SysError TerminalInner) := do
  let discipline ← TtyDiscipline.tryNew caps (allocated.1, allocated.2.1)
  match discipline, TerminalOutput.tryNew caps.output allocated.2.2 with
  | .ok discipline, some output => pure (.ok ⟨.withControl, discipline, output, 0⟩)
  | _, _ => pure (.error .outOfMemory)

variable (inner : TerminalInner) (caps : TtyCapacities)

def literal (bytes : List UInt8) : Checked (ReceiveResult × TerminalInner) := do
  let (result, discipline) ← inner.discipline.receiveLiteral caps inner.termios bytes
  pure (result, { inner with discipline })

def receiveNormalByte (byte : UInt8) : Checked (ReceiveResult × TerminalInner) :=
  match mapInput inner.termios byte with
  | none => pure (.consumed, inner)
  | some byte =>
    if inner.termios.parmrk = true ∧ byte = 0xff then inner.literal caps [0xff, 0xff]
    else do
      let (result, discipline, output) ←
        inner.discipline.receive caps byte inner.termios inner.output
      pure (result, { inner with discipline, output })

def breakInterrupt : Checked (ReceiveResult × TerminalInner) := do
  let output ← inner.output.clear
  pure (.consumedSignalControl .interrupt,
    { inner with discipline := inner.discipline.flushInput, output })

def receiveUnit : TtyRxUnit → Checked (ReceiveResult × TerminalInner)
  | .break =>
    if inner.termios.ignbrk then pure (.consumed, inner)
    else if inner.termios.brkint then inner.breakInterrupt
    else if inner.termios.parmrk then inner.literal caps [0xff, 0x00, 0x00]
    else inner.literal caps [0x00]
  | .faultedByte byte =>
    if inner.termios.inpck = false then inner.receiveNormalByte caps byte
    else if inner.termios.ignpar then pure (.consumed, inner)
    else if inner.termios.parmrk then inner.literal caps [0xff, 0x00, byte]
    else inner.literal caps [0x00]
  | .byte byte => inner.receiveNormalByte caps byte

def rxEffect : ReceiveResult → TtyRxEffect
  | .consumed => .consumed
  | .consumedSignalControl signal => .signal signal
  | .backpressured => .backpressured

def receiveRxUnitEffectQuiet (unit : TtyRxUnit) : Checked (TtyRxEffect × TerminalInner) := do
  let (result, inner) ← inner.receiveUnit caps unit
  pure (rxEffect result, inner)

def readInputQuiet (room : ℕ) : Checked (InputRead × TerminalInner) := do
  let (result, discipline) ← inner.discipline.read inner.termios room
  pure (result, { inner with discipline })

def flushOutput (flush : Bool) : Checked TerminalOutput :=
  if flush = true then inner.output.clear else pure inner.output

/-- Flush the selected queues; a hang-up flushes both and a lost peer the input. -/
def flushQueues (input output : Bool) : Checked TerminalInner := do
  let output ← inner.flushOutput output
  pure { inner with
    discipline := if input then inner.discipline.flushInput else inner.discipline
    output }

def switchCanonical (termios : TtyTermios) : Checked TtyDiscipline :=
  if inner.termios.icanon ≠ termios.icanon then inner.discipline.setCanonical termios.icanon
  else pure inner.discipline

def commitTermiosIfGenerationQuiet (generation : ℕ) (drainedOutputGeneration : Option ℕ)
    (termios : TtyTermios) (flushInput : Bool) : Checked (Bool × TerminalInner) :=
  if inner.termiosGeneration ≠ generation ∨
      (∃ drained ∈ drainedOutputGeneration, inner.output.generation ≠ drained) then
    pure (false, inner)
  else do
    let discipline ← inner.switchCanonical termios
    let termiosGeneration ← TerminalOutput.checkedSucc inner.termiosGeneration
      "TTY termios generation overflow"
    pure (true, { inner with
      discipline := if flushInput then discipline.flushInput else discipline
      termios
      termiosGeneration })

def enqueueOutputQuiet (source : List UInt8) : Checked (ℕ × TerminalInner) := do
  let (consumed, output) ← inner.output.enqueueSlice source inner.termios
  pure (consumed, { inner with output })

def readOutput (room : ℕ) : Checked (List UInt8 × TerminalInner) := do
  let (bytes, output) ← inner.output.readOutput room
  pure (bytes, { inner with output })

inductive Op where
  | receive (unit : TtyRxUnit)
  | literal (bytes : List UInt8)
  | read (room : ℕ)
  | flush (input output : Bool)
  | commit (generation : ℕ) (drained : Option ℕ) (termios : TtyTermios) (flushInput : Bool)
  | write (source : List UInt8)
  | drain (room : ℕ)
deriving DecidableEq, Repr

inductive Answer where
  | effect (effect : TtyRxEffect)
  | result (result : ReceiveResult)
  | input (input : InputRead)
  | flushed
  | committed (committed : Bool)
  | accepted (count : ℕ)
  | drained (bytes : List UInt8)
deriving DecidableEq, Repr

def run : Op → Checked (Answer × TerminalInner)
  | .receive unit => do
    let (effect, inner) ← inner.receiveRxUnitEffectQuiet caps unit
    pure (.effect effect, inner)
  | .literal bytes => do
    let (result, inner) ← inner.literal caps bytes
    pure (.result result, inner)
  | .read room => do
    let (input, inner) ← inner.readInputQuiet room
    pure (.input input, inner)
  | .flush input output => do
    let inner ← inner.flushQueues input output
    pure (.flushed, inner)
  | .commit generation drained termios flushInput => do
    let (committed, inner) ←
      inner.commitTermiosIfGenerationQuiet generation drained termios flushInput
    pure (.committed committed, inner)
  | .write source => do
    let (count, inner) ← inner.enqueueOutputQuiet source
    pure (.accepted count, inner)
  | .drain room => do
    let (bytes, inner) ← inner.readOutput room
    pure (.drained bytes, inner)

def Step (inner : TerminalInner) (label : Op × Answer) (after : TerminalInner) : Prop :=
  inner.run caps label.1 = .ok (label.2, after)

end TerminalInner

end Anemone.Tty
