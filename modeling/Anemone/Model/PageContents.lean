import Anemone.Library.Splice
import Anemone.Model.Family

/-!
# What the pages hold

`read_bytes` and `write_bytes` go through an object page by page.  A family here is the private
anonymous area of every address space: one is created over a new anonymous object, and each fork
puts a shadow over the object of the parent on both sides.
-/

namespace Anemone.Uspace

open Splice (splice)

namespace VmObject

def pageBytes (page : Page) (pageOffset copyLen : ℕ) : List UInt8 :=
  (List.range copyLen).map fun i => page (pageOffset + i)

/-- The loop of `read_bytes`.  Every round copies a byte or more, so that there are no more
rounds than bytes. -/
def readLoop (b : VmObject) : ℕ → Memory → ℕ → ℕ →
    Checked (Except SysError (List UInt8) × Memory)
  | 0, m, _, _ => pure (.ok [], m)
  | rounds + 1, m, offset, len => do
    if len = 0 then pure (.ok [], m)
    else
      let pidx := offset / pageSize
      let pageOffset := offset % pageSize
      let copyLen := min len (pageSize - pageOffset)
      match ← b.resolveFrame m pidx .read with
      | (.error e, m) => pure (.error e, m)
      | (.ok resolved, m) =>
        let copied := pageBytes (m.bytes resolved.frame) pageOffset copyLen
        -- `checked_add`
        if offset + copyLen < Checked.wordSize then
          let (rest, m) ← readLoop b rounds m (offset + copyLen) (len - copyLen)
          pure (rest.map (copied ++ ·), m)
        else pure (.error .invalidArgument, m)

/-- `read_bytes` into a buffer of `len` bytes, which it returns. -/
def readBytes (b : VmObject) (m : Memory) (offset len : ℕ) :
    Checked (Except SysError (List UInt8) × Memory) :=
  b.readLoop len m offset len

def writeLoop (b : VmObject) : ℕ → Memory → ℕ → List UInt8 →
    Checked (Except SysError Unit × Memory)
  | 0, m, _, _ => pure (.ok (), m)
  | rounds + 1, m, offset, remaining => do
    if remaining = [] then pure (.ok (), m)
    else
      let pidx := offset / pageSize
      let pageOffset := offset % pageSize
      let copyLen := min remaining.length (pageSize - pageOffset)
      match ← b.resolveFrame m pidx .write with
      | (.error e, m) => pure (.error e, m)
      | (.ok resolved, m) =>
        if resolved.writable then
          let m := m.fill resolved.frame
            (splice (m.bytes resolved.frame) pageOffset (remaining.take copyLen))
          if offset + copyLen < Checked.wordSize then
            writeLoop b rounds m (offset + copyLen) (remaining.drop copyLen)
          else pure (.error .invalidArgument, m)
        else pure (.error .permissionDenied, m)

def writeBytes (b : VmObject) (m : Memory) (offset : ℕ) (data : List UInt8) :
    Checked (Except SysError Unit × Memory) :=
  b.writeLoop data.length m offset data

/-- `decommit_private_range` takes frames out of the object and touches no bytes. -/
def decommitBytes (b : VmObject) (m : Memory) (lo hi : ℕ) :
    Except SysError Unit × Memory :=
  match b.decommitPrivateRange m lo hi with
  | .error e => (.error e, m)
  | .ok m => (.ok (), m)

end VmObject

/-! ## Families -/

/-- The memory and the private area of every address space. -/
structure Family where
  memory : Memory
  areas : ℕ → Option VmArea

namespace Family

def set (w : Family) (i : ℕ) (a : VmArea) : Family :=
  { w with areas := fun j => if j = i then some a else w.areas j }

def setMemory (w : Family) (m : Memory) : Family := { w with memory := m }

def setNext (w : Family) (nextObject : ℕ) : Family :=
  { w with memory.nextObject := nextObject }

/-- No area yet, all objects empty, and the zero frame holds zeros and is not free. -/
structure Start (w : Family) : Prop where
  areas : ∀ i, w.areas i = none
  objects : ∀ object, w.memory.objects object = .empty
  zero_not_free : w.memory.zeroFrame ∉ w.memory.freeFrames
  nodup : w.memory.freeFrames.Nodup
  zero : w.memory.bytes w.memory.zeroFrame = zeroPage

/-- A frame that is the zero frame or some page. -/
def InUse (w : Family) (frame : ℕ) : Prop :=
  frame = w.memory.zeroFrame ∨
    ∃ object pidx : ℕ, (w.memory.objects object).resident[pidx]? = some frame

/-- What happens to the area of which address space, and what the call returns. -/
inductive Event where
  | create (i maxPages : ℕ)
  | write (i offset : ℕ) (data : List UInt8) (result : Except SysError Unit)
  | read (i offset len : ℕ) (result : Except SysError (List UInt8))
  | resolve (i pidx : ℕ) (access : PageFaultType)
  | fork (i child : ℕ)
  | decommit (i lo hi : ℕ) (result : Except SysError Unit)
  | exit (i : ℕ)
  | refill
  | release

/-- One call, or a move of the frame allocator or of the last reference to an object. -/
inductive Step (w : Family) : Event → Family → Prop
  | create {i maxPages : ℕ} {a : VmArea} (free : w.areas i = none)
      (isPrivate : a.onFork = .copyOnWrite)
      (backing : a.backing = .anon w.memory.nextObject maxPages) :
      Step w (.create i maxPages) ((w.setNext (w.memory.nextObject + 1)).set i a)
  | write {i offset : ℕ} {data : List UInt8} {result : Except SysError Unit} {a : VmArea}
      {m : Memory} (area : w.areas i = some a)
      (call : a.backing.writeBytes w.memory offset data = .ok (result, m)) :
      Step w (.write i offset data result) (w.setMemory m)
  | read {i offset len : ℕ} {result : Except SysError (List UInt8)} {a : VmArea}
      {m : Memory} (area : w.areas i = some a)
      (call : a.backing.readBytes w.memory offset len = .ok (result, m)) :
      Step w (.read i offset len result) (w.setMemory m)
  | resolve {i pidx : ℕ} {access : PageFaultType} {result : Except SysError ResolvedFrame}
      {a : VmArea} {m : Memory} (area : w.areas i = some a)
      (call : a.backing.resolveFrame w.memory pidx access = .ok (result, m)) :
      Step w (.resolve i pidx access) (w.setMemory m)
  | fork {i child : ℕ} {a : VmArea} (area : w.areas i = some a) (free : w.areas child = none) :
      Step w (.fork i child) (((w.setNext (a.fork w.memory.nextObject).2.2).set i
          (a.fork w.memory.nextObject).1).set child (a.fork w.memory.nextObject).2.1)
  | decommit {i lo hi : ℕ} {result : Except SysError Unit} {a : VmArea} {m : Memory}
      (area : w.areas i = some a)
      (call : a.backing.decommitBytes w.memory lo hi = (result, m)) :
      Step w (.decommit i lo hi result) (w.setMemory m)
  | exit (i : ℕ) :
      Step w (.exit i) { w with areas := fun j => if j = i then none else w.areas j }
  | refill {frames : List ℕ} {bytes : ℕ → Page}
      (unused : ∀ f ∈ frames, ¬ w.InUse f) (nodup : frames.Nodup)
      (kept : ∀ f, w.InUse f → bytes f = w.memory.bytes f) :
      Step w .refill (w.setMemory { w.memory with freeFrames := frames, bytes := bytes })
  | release {object : ℕ}
      (unused : ∀ (i : ℕ) (a : VmArea), w.areas i = some a → object ∉ a.backing.ids) :
      Step w .release (w.setMemory (w.memory.setPages object .empty))

end Family

end Anemone.Uspace
