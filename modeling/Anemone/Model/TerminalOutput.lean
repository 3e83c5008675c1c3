import Anemone.Model.RingBuffer

/-!
# Terminal modes and the output processor

The echo of an input byte and the queue of transformed output (device/tty/terminal.rs).  Modes
that neither the line discipline nor the output processor reads are left out.  A fixed array of
eight bytes with a length is the list of the bytes in use.
-/

namespace Anemone.Tty

open Checked (assert expect)

inductive TtyTabMode where
  | literal
  | delay1
  | delay2
  | expand
deriving DecidableEq, Repr

structure TtyTermios where
  ignbrk : Bool
  brkint : Bool
  ignpar : Bool
  parmrk : Bool
  inpck : Bool
  istrip : Bool
  inlcr : Bool
  igncr : Bool
  icrnl : Bool
  iutf8 : Bool
  opost : Bool
  onlcr : Bool
  tabMode : TtyTabMode
  icanon : Bool
  isig : Bool
  echo : Bool
  echoe : Bool
  echok : Bool
  echonl : Bool
  intr : UInt8
  quit : UInt8
  erase : UInt8
  kill : UInt8
  eof : UInt8
  susp : UInt8
deriving DecidableEq, Repr

inductive TtySignalControl where
  | interrupt
  | quit
  | suspend
deriving DecidableEq, Repr

inductive EchoOperation where
  | process
  | eraseTab
deriving DecidableEq, Repr

structure EchoBytes where
  bytes : List UInt8
  operation : EchoOperation
deriving DecidableEq, Repr

namespace EchoBytes

def empty : EchoBytes := ⟨[], .process⟩

def one (first : UInt8) : EchoBytes := ⟨[first], .process⟩

def three (first second third : UInt8) : EchoBytes := ⟨[first, second, third], .process⟩

def backspaces (columns : ℕ) : Checked EchoBytes := do
  assert (columns ≤ 8) "assertion failed: columns <= 8"
  pure ⟨List.replicate columns 0x08, .eraseTab⟩

end EchoBytes

def isUtf8Continuation (byte : UInt8) : Bool := byte &&& 0xc0 == 0x80

def isAsciiControl (byte : UInt8) : Bool := byte < 0x20 || byte == 0x7f

namespace TtyTermios

/-- The modes of a new terminal. -/
def withControl : TtyTermios where
  ignbrk := false
  brkint := false
  ignpar := false
  parmrk := false
  inpck := false
  istrip := false
  inlcr := false
  igncr := false
  icrnl := true
  iutf8 := false
  opost := true
  onlcr := true
  tabMode := .literal
  icanon := true
  isig := true
  echo := true
  echoe := true
  echok := true
  echonl := false
  intr := 0x03
  quit := 0x1c
  erase := 0x7f
  kill := 0x15
  eof := 0x04
  susp := 0x1a

variable (termios : TtyTermios)

def matchesControl (control byte : UInt8) : Bool := control != 0 && byte == control

def signalControl (byte : UInt8) : Option TtySignalControl :=
  if termios.isig = false then none
  else if matchesControl termios.intr byte then some .interrupt
  else if matchesControl termios.quit byte then some .quit
  else if matchesControl termios.susp byte then some .suspend
  else none

def echoForByte (byte : UInt8) : EchoBytes :=
  if termios.echo || (termios.echonl && byte == 0x0a) then .one byte else .empty

def eraseEcho : EchoBytes :=
  if termios.echo && termios.echoe then .three 0x08 0x20 0x08
  else if termios.echo then .one termios.erase
  else .empty

def tabEraseEcho (columns : ℕ) : Checked EchoBytes :=
  if termios.echo && termios.echoe then EchoBytes.backspaces columns else pure termios.eraseEcho

def expandsTabs : Bool := termios.tabMode == .expand

def killEcho : EchoBytes :=
  if termios.echo && termios.echok then .one 0x0a
  else if termios.echo then .one termios.kill
  else .empty

def signalEcho (byte : UInt8) : EchoBytes :=
  if termios.echo = false then .empty else .three 0x5e (byte ^^^ 0x40) 0x0a

end TtyTermios

/-! ## Transformed output -/

structure OutputToken where
  bytes : List UInt8
  nextColumn : ℕ
deriving DecidableEq, Repr

def wrappingAdd (a b : ℕ) : ℕ := (a + b) % Checked.wordSize

def tabToken (termios : TtyTermios) (column : ℕ) : OutputToken :=
  ⟨if termios.expandsTabs then List.replicate (8 - column % 8) 0x20 else [0x09],
    wrappingAdd column (8 - column % 8)⟩

def transformToken (byte : UInt8) (termios : TtyTermios) (column : ℕ) : OutputToken :=
  if termios.opost = false then ⟨[byte], column⟩
  else if byte = 0x0a then
    if termios.onlcr then ⟨[0x0d, 0x0a], 0⟩ else ⟨[byte], column⟩
  else if byte = 0x0d then ⟨[byte], 0⟩
  else if byte = 0x08 then ⟨[byte], column - 1⟩
  else if byte = 0x09 then tabToken termios column
  else if !isAsciiControl byte && !(termios.iutf8 && isUtf8Continuation byte) then
    ⟨[byte], wrappingAdd column 1⟩
  else ⟨[byte], column⟩

def transformedLen (termios : TtyTermios) : List UInt8 → ℕ → ℕ
  | [], _ => 0
  | byte :: rest, column =>
    (transformToken byte termios column).bytes.length +
      transformedLen termios rest (transformToken byte termios column).nextColumn

structure TerminalOutput where
  queue : RingBuffer UInt8
  column : ℕ
  generation : ℕ

namespace TerminalOutput

/-- A queue of `capacity` bytes, if it can be allocated. -/
def tryNew (capacity : ℕ) (allocated : Bool) : Option TerminalOutput :=
  if capacity ≤ RingBuffer.maxLayout ∧ allocated = true then
    some ⟨RingBuffer.new capacity, 0, 0⟩
  else none

variable (output : TerminalOutput)

def echoOutputLen (source : EchoBytes) (termios : TtyTermios) : ℕ :=
  match source.operation with
  | .process => transformedLen termios source.bytes output.column
  | .eraseTab => source.bytes.length

def canEnqueue (source : EchoBytes) (termios : TtyTermios) : Checked Bool := do
  let available ← output.queue.available
  pure (decide (output.echoOutputLen source termios ≤ available))

def canEnqueueAfterClear (capacity : ℕ) (source : EchoBytes) (termios : TtyTermios) : Bool :=
  decide (output.echoOutputLen source termios ≤ capacity)

/-- `checked_add(1)`, with the text of its `expect`. -/
def checkedSucc (count : ℕ) (reason : String) : Checked ℕ :=
  if count + 1 < Checked.wordSize then pure (count + 1) else .error ⟨reason⟩

def bumpGeneration : Checked TerminalOutput := do
  let generation ← checkedSucc output.generation "TTY output generation overflow"
  pure { output with generation }

/-- The bytes that find room are transformed and pushed, and counted. -/
def enqueueLoop (termios : TtyTermios) :
    List UInt8 → TerminalOutput → ℕ → Checked (ℕ × TerminalOutput)
  | [], output, consumed => pure (consumed, output)
  | byte :: rest, output, consumed => do
    let available ← output.queue.available
    if available < (transformToken byte termios output.column).bytes.length then
      pure (consumed, output)
    else do
      let (pushed, queue) ←
        output.queue.tryPushSlice (transformToken byte termios output.column).bytes
      assert (pushed = (transformToken byte termios output.column).bytes.length)
        "assertion `left == right` failed"
      let output : TerminalOutput :=
        ⟨queue, (transformToken byte termios output.column).nextColumn, output.generation⟩
      enqueueLoop termios rest output (consumed + 1)

/-- A change of the queue is a new generation. -/
def bumpIf (changed : Bool) : Checked TerminalOutput :=
  if changed = true then output.bumpGeneration else pure output

def enqueueSlice (source : List UInt8) (termios : TtyTermios) : Checked (ℕ × TerminalOutput) := do
  let (consumed, output) ← enqueueLoop termios source output 0
  let output ← output.bumpIf (consumed != 0)
  pure (consumed, output)

/-- Backspaces over a tab are pushed as they are, and move the column back. -/
def enqueueEraseTab (bytes : List UInt8) : Checked (Bool × TerminalOutput) := do
  let available ← output.queue.available
  if available < bytes.length then pure (false, output)
  else do
    let (pushed, queue) ← output.queue.tryPushSlice bytes
    assert (pushed = bytes.length) "assertion `left == right` failed"
    let output : TerminalOutput := ⟨queue, output.column - bytes.length, output.generation⟩
    let output ← output.bumpIf (bytes.length != 0)
    pure (true, output)

def enqueue (source : EchoBytes) (termios : TtyTermios) : Checked (Bool × TerminalOutput) :=
  match source.operation with
  | .process => do
    let (consumed, output) ← output.enqueueSlice source.bytes termios
    pure (consumed == source.bytes.length, output)
  | .eraseTab => output.enqueueEraseTab source.bytes

def clear : Checked TerminalOutput :=
  if output.queue.isEmpty then pure output
  else { output with queue := output.queue.clear }.bumpGeneration

def popLoop : ℕ → RingBuffer UInt8 → Checked (List UInt8 × RingBuffer UInt8)
  | 0, queue => pure ([], queue)
  | count + 1, queue => do
    let (byte, queue) ← queue.tryPop
    let byte ← expect byte "Terminal output length changed under its owner guard"
    let (rest, queue) ← popLoop count queue
    pure (byte :: rest, queue)

def readOutput (room : ℕ) : Checked (List UInt8 × TerminalOutput) := do
  let (bytes, queue) ← popLoop (min room output.queue.len) output.queue
  let output ← { output with queue }.bumpIf (min room output.queue.len != 0)
  pure (bytes, output)

end TerminalOutput

end Anemone.Tty
