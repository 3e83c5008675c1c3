import Anemone.Interface.RingContents
import Anemone.Model.Terminal

/-!
# What a terminal keeps for its readers, and the room it needs for it

`Unread` is the input of a terminal as its users see it.  `TtyDiscipline.Holds` says how the queue,
the record lengths and the length of the edited line represent it, and `Sound` adds the bounds of
the queues.  `Fits` is the room that an operation needs, and `NearOverflow` the condition under
which a 64-bit counter may overflow in the next operation.
-/

namespace Anemone.Tty

/-- The input that is not read yet. -/
inductive Unread where
  | canonical (lines : List (List UInt8)) (edit : List UInt8)
  | raw (stream : List UInt8)
deriving DecidableEq, Repr

/-- The edited line without its last unit: a byte, or with `iutf8` a byte and the continuation
bytes after it.  Continuation bytes alone are not a unit. -/
def eraseUnit (iutf8 : Bool) (edit : List UInt8) : List UInt8 :=
  if iutf8 = true then
    match edit.reverse.dropWhile isUtf8Continuation with
    | [] => edit
    | _ :: rest => rest.reverse
  else edit.dropLast

/-- A byte that is neither a control character of the line editor nor a newline. -/
def TtyTermios.isText (termios : TtyTermios) (byte : UInt8) : Bool :=
  !TtyTermios.matchesControl termios.erase byte && !TtyTermios.matchesControl termios.kill byte &&
    !TtyTermios.matchesControl termios.eof byte && byte != 0x0a

namespace Unread

def bytes : Unread → List UInt8
  | canonical lines edit => lines.flatten ++ edit
  | raw stream => stream

def committed : Unread → List UInt8
  | canonical lines _ => lines.flatten
  | raw stream => stream

def isCanonical : Unread → Bool
  | canonical _ _ => true
  | raw _ => false

def append : Unread → List UInt8 → Unread
  | canonical lines edit, literal => canonical lines (edit ++ literal)
  | raw stream, literal => raw (stream ++ literal)

def type (termios : TtyTermios) (byte : UInt8) : Unread → Unread
  | raw stream => raw (stream ++ [byte])
  | canonical lines edit =>
    if TtyTermios.matchesControl termios.erase byte then
      canonical lines (eraseUnit termios.iutf8 edit)
    else if TtyTermios.matchesControl termios.kill byte then canonical lines []
    else if TtyTermios.matchesControl termios.eof byte then canonical (lines ++ [edit]) []
    else if byte = 0x0a then canonical (lines ++ [edit ++ [byte]]) []
    else canonical lines (edit ++ [byte])

/-- What a read into `room` bytes answers, and what is left. -/
def read (room : ℕ) : Unread → InputRead × Unread
  | raw stream =>
    if stream.take room = [] then (.empty, raw stream)
    else (.bytes (stream.take room), raw (stream.drop room))
  | canonical [] edit => (.empty, canonical [] edit)
  | canonical ([] :: rest) edit => (.eof, canonical rest edit)
  | canonical (line :: rest) edit =>
    (.bytes (line.take room),
      canonical (if line.length ≤ room then rest else line.drop room :: rest) edit)

def setCanonical (mode : Bool) : Unread → Unread
  | canonical lines edit => if mode = true then canonical lines edit else raw (lines.flatten ++ edit)
  | raw stream =>
    if mode = true then canonical (if stream = [] then [] else [stream]) [] else raw stream

def flush : Unread → Unread
  | canonical _ _ => canonical [] []
  | raw _ => raw []

end Unread

/-! ## What a received unit is to the discipline -/

/-- What a received unit is after the modes for faults and input are applied. -/
inductive Token where
  | ignored
  | interrupt
  | literal (bytes : List UInt8)
  | byte (byte : UInt8)
deriving DecidableEq, Repr

/-- A byte, unless it is ignored or the quoted marker. -/
def normalToken (termios : TtyTermios) (byte : UInt8) : Token :=
  match mapInput termios byte with
  | none => .ignored
  | some byte => if termios.parmrk = true ∧ byte = 0xff then .literal [0xff, 0xff] else .byte byte

def TtyRxUnit.token (termios : TtyTermios) : TtyRxUnit → Token
  | .break =>
    if termios.ignbrk then .ignored
    else if termios.brkint then .interrupt
    else if termios.parmrk then .literal [0xff, 0x00, 0x00]
    else .literal [0x00]
  | .faultedByte data =>
    if termios.inpck = false then normalToken termios data
    else if termios.ignpar then .ignored
    else if termios.parmrk then .literal [0xff, 0x00, data]
    else .literal [0x00]
  | .byte data => normalToken termios data

namespace Unread

/-- What receiving a token may answer and leave. -/
def Takes (termios : TtyTermios) (u : Unread) : Token → ReceiveResult → Unread → Prop
  | .ignored, result, after => result = .consumed ∧ after = u
  | .interrupt, result, after => result = .consumedSignalControl .interrupt ∧ after = u.flush
  | .literal bytes, result, after =>
    (result = .backpressured ∧ after = u) ∨ (result = .consumed ∧ after = u.append bytes)
  | .byte byte, result, after =>
    match termios.signalControl byte with
    | some signal => result = .consumedSignalControl signal ∧ after = u.flush
    | none =>
      (result = .backpressured ∧ after = u) ∨ (result = .consumed ∧ after = u.type termios byte)

/-- What an operation may answer and leave. -/
def Does (termios : TtyTermios) (u : Unread) :
    TerminalInner.Op → TerminalInner.Answer → Unread → Prop
  | .receive unit, answer, after =>
    ∃ result, answer = .effect (TerminalInner.rxEffect result) ∧
      u.Takes termios (unit.token termios) result after
  | .literal bytes, answer, after =>
    ∃ result, answer = .result result ∧ u.Takes termios (.literal bytes) result after
  | .read room, answer, after => answer = .input (u.read room).1 ∧ after = (u.read room).2
  | .flush input _, _, after => after = if input = true then u.flush else u
  | .commit _ _ termios' flushInput, answer, after =>
    (answer = .committed false ∧ after = u) ∨ (answer = .committed true ∧
        after = if flushInput = true then (u.setCanonical termios'.icanon).flush
          else u.setCanonical termios'.icanon)
  | .write _, _, after => after = u
  | .drain _, _, after => after = u

end Unread

/-! ## The discipline represents the unread input -/

/-- The queue and its metadata represent the unread input. -/
def TtyDiscipline.Holds (d : TtyDiscipline) : Unread → Prop
  | .canonical lines edit =>
    d.input = lines.flatten ++ edit ∧ d.canonicalRecords = lines.map List.length ∧
      d.canonicalPendingLen = edit.length
  | .raw stream => d.input = stream ∧ d.canonicalRecords = [] ∧ d.canonicalPendingLen = 0

/-- The queues are within what was reserved for them. -/
structure TtyDiscipline.Within (d : TtyDiscipline) (caps : TtyCapacities) : Prop where
  inputCapacity : d.inputCapacity = caps.input + caps.canonicalLine
  recordsCapacity : d.recordsCapacity = caps.input
  input_le : d.input.length ≤ caps.input + caps.canonicalLine
  records_le : d.canonicalRecords.length ≤ caps.input
  pending_le : d.canonicalPendingLen ≤ caps.canonicalLine - 1

/-- The output queue is a queue of bytes of its capacity. -/
def TerminalOutput.Ready (output : TerminalOutput) (capacity : ℕ) : Prop :=
  output.queue.capacity = capacity ∧ ∃ contents, output.queue.Holds contents

namespace TerminalInner

/-- The terminal is in order, and keeps `u` for its readers. -/
structure Sound (inner : TerminalInner) (caps : TtyCapacities) (u : Unread) : Prop where
  within : inner.discipline.Within caps
  holds : inner.discipline.Holds u
  mode : u.isCanonical = inner.termios.icanon
  output : inner.output.Ready caps.output

/-- There is room for what a token makes the terminal do. -/
def FitsToken (inner : TerminalInner) (caps : TtyCapacities) : Token → Prop
  | .literal bytes =>
    inner.termios.icanon = true →
      inner.discipline.canonicalPendingLen + bytes.length ≤ caps.canonicalLine - 1 →
        inner.discipline.input.length + bytes.length ≤ caps.input + caps.canonicalLine
  | .byte byte =>
    match inner.termios.signalControl byte with
    | some _ =>
      inner.output.echoOutputLen (inner.termios.signalEcho byte) inner.termios ≤ caps.output
    | none =>
      inner.termios.icanon = true → inner.termios.isText byte = true →
        inner.discipline.canonicalPendingLen < caps.canonicalLine - 1 →
          inner.output.canEnqueue (inner.termios.echoForByte byte) inner.termios = .ok true →
            inner.discipline.input.length < caps.input + caps.canonicalLine
  | _ => True

instance (inner : TerminalInner) (caps : TtyCapacities) (token : Token) :
    Decidable (inner.FitsToken caps token) := by
  unfold FitsToken
  split
  · infer_instance
  · split <;> infer_instance
  · infer_instance

/-- There is room for what an operation does. -/
def Fits (inner : TerminalInner) (caps : TtyCapacities) : Op → Prop
  | .receive unit => inner.FitsToken caps (unit.token inner.termios)
  | .literal bytes => inner.FitsToken caps (.literal bytes)
  | _ => True

instance (inner : TerminalInner) (caps : TtyCapacities) (op : Op) :
    Decidable (inner.Fits caps op) := by
  unfold Fits
  split <;> infer_instance

/-- One operation may bring a 64-bit counter to its end: one of the two generations, or the
column to which the characters of the edited line are added. -/
def NearOverflow (inner : TerminalInner) (caps : TtyCapacities) : Prop :=
  Checked.wordSize ≤ inner.output.generation + 2 ∨ Checked.wordSize ≤ inner.termiosGeneration + 1 ∨
    Checked.wordSize ≤ inner.discipline.canonicalColumn + (caps.input + caps.canonicalLine)

instance (inner : TerminalInner) (caps : TtyCapacities) : Decidable (inner.NearOverflow caps) :=
  inferInstanceAs (Decidable (_ ∨ _))

end TerminalInner

end Anemone.Tty
