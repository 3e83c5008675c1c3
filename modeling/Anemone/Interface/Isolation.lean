import Anemone.Model.Family
import Anemone.Interface.PageView

/-!
# Isolation of address spaces

A leaf with the write permission is right as long as a read fault on its page would give the same
frame and say that it may be written.  The heap path of `protect_range` gives leaves the write
permission without asking the objects, and `discard_range_inner` takes frames out of objects that
other address spaces map.  `Careful` says when they do no harm.
-/

namespace Anemone.Uspace

open Ranges (VirtPageRange)

/-- The object on top of a chain, the only one that pages are written to. -/
def VmObject.top : VmObject → Option ℕ
  | .anon object _ => some object
  | .shadow object _ => some object
  | .empty => none
  | .external _ => none

/-- A read fault on the page would return the frame and let it be written. -/
def UserSpace.ResolvesWritable (s : UserSpace) (mem : Memory) (vpn frame : ℕ) : Prop :=
  ∃ a, UserSpace.findVma s.vmas vpn = some a ∧
    a.backing.resolveFrame mem (a.vmoPidx vpn) .read = .ok (.ok ⟨frame, true⟩, mem)

namespace World

/-- What holds of the frame of a writable leaf of address space `i`. -/
structure IsolatedLeaf (w : World) (i : ℕ) (s : UserSpace) (vpn frame : ℕ) : Prop where
  resolves : s.ResolvesWritable w.mem vpn frame
  not_zero : frame ≠ w.mem.zeroFrame
  not_shared : ∀ (j : ℕ) (t : UserSpace), j ≠ i → w.spaces j = some t →
    ∀ (k : ℕ) (b : VmArea), t.vmas[k]? = some b → b.onFork = .copyOnWrite →
      ∀ object ∈ b.backing.ids, ∀ pidx : ℕ, (w.mem.objects object).resident[pidx]? ≠ some frame

def Isolated (w : World) : Prop :=
  ∀ (i : ℕ) (s : UserSpace), w.spaces i = some s → ∀ (vpn : ℕ) (pte : Pte),
    s.table[vpn]? = some pte → pte.flags.write = true → w.IsolatedLeaf i s vpn pte.ppn

/-- Making heap pages writable asks for leaves that may be written already. -/
def CarefulProtect (L : Layout) (w : World) (i : ℕ) (range : VirtPageRange)
    (prot : Protection) : Prop :=
  ∀ s, w.spaces i = some s → s.OnHeapPath L range → prot.write = true →
    ∀ (vpn : ℕ) (pte : Pte), range.contains vpn → s.table[vpn]? = some pte →
      s.ResolvesWritable w.mem vpn pte.ppn

/-- Discarding mapped pages asks that no other address space has a writable leaf on a page
of an object that is discarded. -/
def CarefulDiscard (L : Layout) (w : World) (i : ℕ) (range : VirtPageRange) : Prop :=
  ∀ s, w.spaces i = some s → UserSpace.validateRange L range = .ok () →
    PageMap.Covers s.view range →
    ∀ (j : ℕ) (t : UserSpace), j ≠ i → w.spaces j = some t →
      ∀ (vpn vpn' : ℕ) (v v' : PageView) (pte : Pte), range.contains vpn →
        s.view vpn = some v → t.view vpn' = some v' → t.table[vpn']? = some pte →
        v.backing.top ≠ none → v.backing.top = v'.backing.top → v.pidx = v'.pidx →
        pte.flags.write = false

def Careful (L : Layout) (w : World) : Call → Prop
  | .protect i range prot => w.CarefulProtect L i range prot
  | .discard i range => w.CarefulDiscard L i range
  | _ => True

end World

end Anemone.Uspace
