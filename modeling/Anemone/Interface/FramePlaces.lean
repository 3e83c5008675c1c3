import Anemone.Model.FrameMagazine

/-!
# Where the frames are

The places a frame can be in: the backend, the magazine of a CPU, the hands of a call under
way, a live allocation.  An allocation of more than one page has all the frames it is charged
for, which the backend rounds up to a power of two.

`Honest` is what is assumed of the backend: `held` are the frames it has, an allocation takes
frames out of them, and what is given back is added to them.
-/

namespace Anemone.Frame

variable {B : Type}

structure Honest (A : FrameAllocator B) (held : B → Finset ℕ) : Prop where
  alloc_ok : ∀ b npages start b', A.alloc b npages = (.ok start, b') →
    (allocationCharge npages).isSome = true ∧ block start npages ⊆ held b ∧
      held b' = held b \ block start npages
  alloc_error : ∀ b npages e b', A.alloc b npages = (.error e, b') → held b' = held b
  admits_one : ∀ b b', A.alloc b 1 ≠ (.error .admission, b')
  dealloc : ∀ b start npages, Disjoint (held b) (block start npages) →
    held (A.dealloc b start npages) = held b ∪ block start npages

def Op.frames : Op → Multiset ℕ
  | .localPop | .takeBatch _ | .allocate _ _ | .sweep _ _ => 0
  | .publishLocal allocated batch => allocated ::ₘ batch
  | .returnRest allocated rest => allocated ::ₘ rest
  | .claim start npages => (block start npages).val
  | .sweepReturn _ batch _ => batch
  | .releaseLocal frame => {frame}
  | .returnDrain drain => drain
  | .deallocFolio start npages => (block start npages).val

def Shared.inMagazines (C : Config) (s : Shared B) : Multiset ℕ :=
  ((List.range C.cpuCount).map fun cpu => (s.magazines cpu : Multiset ℕ)).sum

namespace System

/-- The backend, the magazines, the calls under way and the live allocations. -/
def places (C : Config) (held : B → Finset ℕ) (s : System B) : List (Multiset ℕ) :=
  (held s.shared.backend).val ::
    ((List.range C.cpuCount).map fun cpu => (s.shared.magazines cpu : Multiset ℕ)) ++
    s.ops.map Op.frames ++ s.live.map fun a => (block a.1 a.2).val

def charged (s : System B) : ℕ := (s.live.map fun a => (allocationCharge a.2).getD 0).sum

/-- After boot: the backend has all frames, and they are counted. -/
structure Start (held : B → Finset ℕ) (all : Finset ℕ) (s : System B) : Prop where
  backend : held s.shared.backend = all
  magazines : ∀ cpu, s.shared.magazines cpu = []
  total : s.shared.totalPages = all.card
  free : s.shared.freePages = all.card
  counts : all.card < Checked.wordSize
  ops : s.ops = []
  live : s.live = []

/-- Every frame is in one place, the magazines are bounded and have no frame twice, the
counter is right, and no assertion fails whatever is done next. -/
structure Sound (C : Config) (A : FrameAllocator B) (held : B → Finset ℕ) (all : Finset ℕ)
    (s : System B) : Prop where
  placed : ∀ frame ∈ all, ∃! i : ℕ, ∃ place : Multiset ℕ,
    (s.places C held)[i]? = some place ∧ frame ∈ place
  nothing_else : ∀ place ∈ s.places C held, ∀ frame ∈ place, frame ∈ all
  bounded : ∀ cpu < C.cpuCount, (s.shared.magazines cpu).length ≤ C.capacity
  distinct : ∀ cpu < C.cpuCount, (s.shared.magazines cpu).Nodup
  total : s.shared.totalPages = all.card
  counted : s.shared.freePages + s.charged = s.shared.totalPages
  runs : ∀ op ∈ s.ops, ∀ cpu < C.cpuCount, ∃ r, exec C A cpu s.shared op = .ok r
  deallocs : ∀ a ∈ s.live, ∃ r, dealloc s.shared a.1 a.2 = .ok r

end System

end Anemone.Frame
