import Anemone.Interface.Isolation
import Anemone.Model.PageContents

/-!
# Private memory, flat

What private anonymous memory is for: every address space has bytes of its own.  `Flat.Step` says
what the calls do to one copy for each address space, with no object, no frame and no sharing in
it.  `Mirrors` is what it means that a family of copy-on-write objects behaves like these copies.
-/

namespace Anemone.Uspace

open Function (update)
open Splice (splice unpage)

/-- The bytes of one address space; outside of the object there are none. -/
abbrev Flat : Type := ℕ → Option UInt8

namespace Flat

def zeros (maxPages : ℕ) : Flat := fun offset =>
  if offset / pageSize < maxPages then some 0 else none

def write (g : Flat) (offset : ℕ) (data : List UInt8) : Flat :=
  splice g offset (data.map some)

def decommit (g : Flat) (lo hi : ℕ) : Flat := fun offset =>
  if lo ≤ offset / pageSize ∧ offset / pageSize < hi then some 0 else g offset

/-- The bytes are there, and the end of each is a machine word. -/
def Present (g : Flat) (offset len : ℕ) : Prop :=
  ∀ i < len, (g (offset + i)).isSome ∧ offset + i + 1 < Checked.wordSize

instance (g : Flat) (offset len : ℕ) : Decidable (g.Present offset len) :=
  inferInstanceAs (Decidable (∀ i < len, _))

def read (g : Flat) (offset len : ℕ) : Except SysError (List UInt8) :=
  if g.Present offset len then .ok ((List.range len).map fun i => (g (offset + i)).getD 0)
  else .error .invalidArgument

/-- A refused write may have stored the first `stored` bytes of its data. -/
inductive Step (f : ℕ → Option Flat) : Family.Event → (ℕ → Option Flat) → Prop
  | create {i maxPages : ℕ} (free : f i = none) :
      Step f (.create i maxPages) (update f i (some (zeros maxPages)))
  | write {i offset : ℕ} {data : List UInt8} {g : Flat} (copy : f i = some g) :
      Step f (.write i offset data (.ok ())) (update f i (some (g.write offset data)))
  | writeRefused {i offset stored : ℕ} {data : List UInt8} {e : SysError} {g : Flat}
      (copy : f i = some g)
      (cause : e = .outOfMemory ∨ e = .invalidArgument ∧ ¬ g.Present offset data.length) :
      Step f (.write i offset data (.error e))
        (update f i (some (g.write offset (data.take stored))))
  | read {i offset len : ℕ} {g : Flat} (copy : f i = some g) :
      Step f (.read i offset len (g.read offset len)) f
  | resolve {i pidx : ℕ} {access : PageFaultType} : Step f (.resolve i pidx access) f
  | fork {i child : ℕ} {g : Flat} (copy : f i = some g) (free : f child = none) :
      Step f (.fork i child) (update f child (some g))
  | decommit {i lo hi : ℕ} {g : Flat} (copy : f i = some g) :
      Step f (.decommit i lo hi (.ok ())) (update f i (some (g.decommit lo hi)))
  | decommitRefused {i lo hi : ℕ} {e : SysError} {g : Flat} (copy : f i = some g)
      (cause : e = .invalidArgument ∧
        ¬ (lo < hi ∧ ∀ offset, lo ≤ offset / pageSize → offset / pageSize < hi →
          (g offset).isSome)) :
      Step f (.decommit i lo hi (.error e)) f
  | exit (i : ℕ) : Step f (.exit i) (update f i none)
  | refill : Step f .refill f
  | release : Step f .release f

end Flat

/-- The family behaves like the flat copies. -/
structure Family.Mirrors (w : Family) (f : ℕ → Option Flat) : Prop where
  areas : ∀ i, (w.areas i).isSome = (f i).isSome
  reads : ∀ (i : ℕ) (a : VmArea) (g : Flat), w.areas i = some a → f i = some g → ∀ offset len : ℕ,
      a.backing.readBytes w.memory offset len = .ok (g.read offset len, w.memory)
  writes : ∀ (i : ℕ) (a : VmArea) (g : Flat), w.areas i = some a → f i = some g →
    ∀ (offset : ℕ) (data : List UInt8), ∃ result m,
      a.backing.writeBytes w.memory offset data = .ok (result, m) ∧ (g.Present offset data.length →
          pageUp (offset % pageSize + data.length) ≤ w.memory.freeFrames.length →
            result = .ok ())
  lookups : ∀ object pidx : ℕ, ∃ found, w.memory.lookup object pidx = .ok found

/-! ## From objects to copies -/

namespace Memory

/-- What one object has to say about a page: its bytes, zeros, or nothing. -/
def layer (m : Memory) (object pidx : ℕ) : Option Page :=
  match (m.objects object).resident[pidx]? with
  | some frame => some (m.bytes frame)
  | none => if (m.objects object).decommitted pidx then some zeroPage else none

end Memory

/-- The page a chain of objects shows: that of the first object with something to say. -/
def VmObject.view (layer : ℕ → ℕ → Option Page) : VmObject → ℕ → Option Page
  | .anon object maxPages, pidx =>
    if pidx < maxPages then some ((layer object pidx).getD zeroPage) else none
  | .shadow object parent, pidx => (layer object pidx).or (parent.view layer pidx)
  | .empty, _ => none
  | .external _, _ => none

def VmObject.flat (m : Memory) (b : VmObject) : Flat := unpage pageSize (b.view m.layer)

def Family.flat (w : Family) (i : ℕ) : Option Flat :=
  (w.areas i).map fun a => a.backing.flat w.memory

end Anemone.Uspace
