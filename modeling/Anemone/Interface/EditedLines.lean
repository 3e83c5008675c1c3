import Anemone.Interface.TtyUnread

/-!
# The lines that were typed, and what reads have delivered of them

`typed` is the input of a run as the line editor leaves it, without the reads; `readResults` is
what the reads of the run answered.  An *item* is what a reader can tell apart: a byte of a line,
with the number of the line, or the end of file that an empty line stands for.
-/

namespace Anemone.Tty

open TerminalInner (Op Answer)

/-- What an accepted token makes of the input. -/
def Unread.accept (termios : TtyTermios) (u : Unread) : Token → Unread
  | .ignored => u
  | .interrupt => u
  | .literal bytes => u.append bytes
  | .byte byte => u.type termios byte

/-- What a step other than a read makes of the input, if it throws nothing away. -/
def Unread.after (termios : TtyTermios) (u : Unread) : Op × Answer → Unread
  | (.receive unit, .effect .consumed) => u.accept termios (unit.token termios)
  | (.literal bytes, .result .consumed) => u.append bytes
  | (.commit _ _ termios' _, .committed true) => u.setCanonical termios'.icanon
  | _ => u

def typed : TerminalInner → List ((Op × Answer) × TerminalInner) → Unread → Unread
  | _, [], u => u
  | inner, (label, after) :: rest, u => typed after rest (u.after inner.termios label)

def readResults : List ((Op × Answer) × TerminalInner) → List InputRead
  | [] => []
  | ((.read _, .input result), _) :: rest => result :: readResults rest
  | _ :: rest => readResults rest

def InputRead.data : InputRead → List UInt8
  | .bytes data => data
  | _ => []

def KeepsInput : Op × Answer → Prop
  | (.receive _, .effect (.signal _)) => False
  | (.flush input _, _) => input = false
  | (.commit _ _ _ flushInput, .committed true) => flushInput = false
  | _ => True

/-- A step that does not leave canonical mode. -/
def StaysCanonical : Op × Answer → Prop
  | (.commit _ _ termios _, .committed true) => termios.icanon = true
  | _ => True

/-! ## Items -/

/-- A line number, and a byte of the line or its end of file. -/
abbrev Item := ℕ × Option UInt8

def lineItems (number : ℕ) (line : List UInt8) : List Item :=
  if line = [] then [(number, none)] else line.map fun byte => (number, some byte)

/-- The items of lines with consecutive numbers. -/
def itemsFrom : ℕ → List (List UInt8) → List Item
  | _, [] => []
  | number, line :: rest => lineItems number line ++ itemsFrom (number + 1) rest

/-- The items that the answer of a read delivers: bytes of one line, or one end of file. -/
def Delivers : InputRead → List Item → Prop
  | .empty, items => items = []
  | .eof, items => ∃ number, items = [(number, none)]
  | .bytes data, items => ∃ number, items = data.map fun byte => (number, some byte)

end Anemone.Tty
