import Anemone.Model.PageMemory

/-!
# Families of address spaces

A call edits one address space, a fork adds a child beside its parent, and in between frames come
back to the allocator and objects that nothing refers to any more lose their pages.  Every object
is anonymous, a shadow or empty, as fork and anonymous mappings make them.
-/

namespace Anemone.Uspace

open Ranges (VirtPageRange)

/-- The objects a reference to the backing keeps alive: the first is the one that is asked
for pages, the others are its parents. -/
def VmObject.ids : VmObject → List ℕ
  | .anon object _ => [object]
  | .shadow object parent => object :: parent.ids
  | .empty => []
  | .external _ => []

structure World where
  mem : Memory
  spaces : ℕ → Option UserSpace

namespace World

/-- One address space and the memory after a call. -/
def set (w : World) (i : ℕ) (s : UserSpace) (mem : Memory) : World :=
  ⟨mem, fun j => if j = i then some s else w.spaces j⟩

/-- No address space yet, all objects empty, and a frame allocator without the zero frame. -/
structure Start (w : World) : Prop where
  spaces : ∀ i, w.spaces i = none
  objects : ∀ object, w.mem.objects object = .empty
  zero_not_free : w.mem.zeroFrame ∉ w.mem.freeFrames
  nodup : w.mem.freeFrames.Nodup

end World

/-- What happens next, and to which address space. -/
inductive Call where
  | create (i : ℕ)
  | exit (i : ℕ)
  | mapAnonymous (i : ℕ) (mapping : AnonymousMapping)
  | resolvePageAccess (i : ℕ) (walk : ℕ → Bool) (addr : ℕ) (access : PageFaultType)
      (continuation : PageAccessContinuation)
  | fork (i child : ℕ) (tables : Bool)
  | unmap (i : ℕ) (range : VirtPageRange)
  | discard (i : ℕ) (range : VirtPageRange)
  | setBrk (i brk : ℕ)
  | protect (i : ℕ) (range : VirtPageRange) (prot : Protection)
  | refill (frames : List ℕ)
  | release (object : ℕ)

/-- One call, with whatever it returns; a call that panics has no step. -/
inductive World.Step (L : Layout) (w : World) : Call → World → Prop
  | create {i : ℕ} {s : UserSpace} (free : w.spaces i = none)
      (call : UserSpace.new L w.mem.nextObject (w.mem.nextObject + 1) = .ok s) :
      Step L w (.create i) (w.set i s { w.mem with nextObject := w.mem.nextObject + 2 })
  | exit (i : ℕ) : Step L w (.exit i) ⟨w.mem, fun j => if j = i then none else w.spaces j⟩
  | mapAnonymous {i : ℕ} {mapping : AnonymousMapping} {s s' : UserSpace}
      {r : Except SysError ℕ} (space : w.spaces i = some s)
      (call : s.mapAnonymous L w.mem.nextObject mapping = .ok (r, s')) :
      Step L w (.mapAnonymous i mapping)
        (w.set i s' { w.mem with nextObject := w.mem.nextObject + 1 })
  | resolvePageAccess {i : ℕ} {walk : ℕ → Bool} {addr : ℕ} {access : PageFaultType}
      {continuation : PageAccessContinuation} {s s' : UserSpace} {mem' : Memory}
      {r : Except SysError LeafPteCommit} (space : w.spaces i = some s)
      (call : s.resolvePageAccess L w.mem walk addr access continuation = .ok (r, s', mem')) :
      Step L w (.resolvePageAccess i walk addr access continuation) (w.set i s' mem')
  | fork {i child : ℕ} {tables : Bool} {s s' t : UserSpace} {mem' : Memory}
      (space : w.spaces i = some s) (free : w.spaces child = none)
      (call : s.forkInner w.mem tables = .ok (.ok t, s', mem')) :
      Step L w (.fork i child tables) ((w.set i s' mem').set child t mem')
  | forkRefused {i child : ℕ} {tables : Bool} {s s' : UserSpace} {mem' : Memory} {e : SysError}
      (space : w.spaces i = some s) (call : s.forkInner w.mem tables = .ok (.error e, s', mem')) :
      Step L w (.fork i child tables) (w.set i s' mem')
  | unmap {i : ℕ} {range : VirtPageRange} {s s' : UserSpace} {r : Except SysError Unit}
      (space : w.spaces i = some s) (call : s.unmapInner L range = .ok (r, s')) :
      Step L w (.unmap i range) (w.set i s' w.mem)
  | discard {i : ℕ} {range : VirtPageRange} {s s' : UserSpace} {mem' : Memory}
      {r : Except SysError Unit} (space : w.spaces i = some s)
      (call : s.discardRangeInner L w.mem range = .ok (r, s', mem')) :
      Step L w (.discard i range) (w.set i s' mem')
  | setBrk {i brk : ℕ} {s s' : UserSpace} {mem' : Memory} {r : Except SysError Unit}
      (space : w.spaces i = some s) (call : s.setBrkInner w.mem brk = .ok (r, s', mem')) :
      Step L w (.setBrk i brk) (w.set i s' mem')
  | protect {i : ℕ} {range : VirtPageRange} {prot : Protection} {s s' : UserSpace}
      {r : Except SysError Unit} (space : w.spaces i = some s)
      (call : s.protectRange L range prot = .ok (r, s')) :
      Step L w (.protect i range prot) (w.set i s' w.mem)
  | refill {frames : List ℕ}
      (fresh : ∀ f ∈ frames, f ≠ w.mem.zeroFrame ∧
        ∀ object pidx : ℕ, (w.mem.objects object).resident[pidx]? ≠ some f)
      (nodup : frames.Nodup) :
      Step L w (.refill frames) ⟨{ w.mem with freeFrames := frames }, w.spaces⟩
  | release {object : ℕ}
      (unused : ∀ (i : ℕ) (s : UserSpace), w.spaces i = some s →
        ∀ (k : ℕ) (a : VmArea), s.vmas[k]? = some a → object ∉ a.backing.ids) :
      Step L w (.release object) ⟨w.mem.setPages object .empty, w.spaces⟩

end Anemone.Uspace
