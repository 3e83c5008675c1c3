import Anemone.Library.Links
import Anemone.Library.Places
import Anemone.Model.SlabHeap

/-!
# Where the slots are

The nodes of a free list, read from the memory, and the places a slot can be in: the list of
an owner and a class, the batch or the hands of a call under way, or the hands of a user.
-/

namespace Anemone.Slab

/-- The nodes of a list: as many as its length says, from its head on. -/
def FreeList.nodes (mem : Mem) (l : FreeList) : List ℕ := Links.follow mem l.len l.head

/-- The links end after `len` nodes, and `tail` is the last of them. -/
structure FreeList.Linked (mem : Mem) (l : FreeList) : Prop where
  ends : Links.Linked mem l.head (l.nodes mem)
  len : l.len = (l.nodes mem).length
  tail : l.tail = (l.nodes mem).getLast?
  head_none : l.head = none ↔ l.nodes mem = []
  tail_none : l.tail = none ↔ l.nodes mem = []

def slots (C : Config) (span : SlabClass × ℕ) : List ℕ :=
  (List.range (C.spanBytes / span.1.slotBytes)).map fun k => span.2 + k * span.1.slotBytes

namespace Op

def cls : Op → SlabClass
  | .allocate cls | .localPop cls | .centralTake cls | .batchPop cls _ | .batchReady cls _ _
  | .publishLocal cls _ _ | .publishCentral cls _ _ | .deallocate cls _
  | .releaseLocal cls _ => cls

def batch : Op → FreeList
  | .allocate _ | .localPop _ | .centralTake _ | .deallocate _ _ | .releaseLocal _ _ => .new
  | .batchPop _ batch | .batchReady _ batch _ | .publishLocal _ batch _
  | .publishCentral _ batch _ => batch

/-- The slot that a call is about to return or to put back. -/
def slot : Op → Option ℕ
  | .allocate _ | .localPop _ | .centralTake _ | .batchPop _ _ => none
  | .batchReady _ _ allocated | .publishLocal _ _ allocated => some allocated
  | .publishCentral _ _ result => result
  | .deallocate _ ptr | .releaseLocal _ ptr => some ptr

def hands (mem : Mem) (op : Op) : List ℕ := op.slot.toList ++ op.batch.nodes mem

end Op

def positions (C : Config) : List (Owner × ℕ) :=
  (.central :: (List.range C.cpuCount).map .cpu).product (List.range C.classCount)

def Shared.listAt (s : Shared) (pos : Owner × ℕ) : FreeList := s.lists pos.1 pos.2

namespace System

/-- The lists, the calls under way and the users. -/
def places (C : Config) (s : System) : List (Multiset ℕ) :=
  ((positions C).map fun pos => ((s.shared.listAt pos).nodes s.shared.mem : Multiset ℕ)) ++
    (s.ops.map fun op => (op.hands s.shared.mem : Multiset ℕ)) ++ s.live.map fun o => {o.2}

def SlotOf (C : Config) (s : System) (index slot : ℕ) : Prop :=
  ∃ span ∈ s.spans, span.1.index = index ∧ slot ∈ slots C span

structure Start (s : System) : Prop where
  lists : ∀ owner index, s.shared.lists owner index = .new
  ops : s.ops = []
  live : s.live = []
  spans : s.spans = []

/-- Every slot is in one place and in lists of its own class only, the local lists are bounded,
every list is linked, and no assertion fails whatever is done next. -/
structure Sound (C : Config) (s : System) : Prop where
  placed : ∀ span ∈ s.spans, ∀ slot ∈ slots C span, ∃! i : ℕ, ∃ place : Multiset ℕ,
    (s.places C)[i]? = some place ∧ slot ∈ place
  distinct : ∀ place ∈ s.places C, place.Nodup
  of_list : ∀ pos ∈ positions C, ∀ slot ∈ (s.shared.listAt pos).nodes s.shared.mem,
    s.SlotOf C pos.2 slot
  of_op : ∀ op ∈ s.ops, ∀ slot ∈ op.hands s.shared.mem, s.SlotOf C op.cls.index slot
  of_live : ∀ o ∈ s.live, s.SlotOf C o.1.index o.2
  bounded : ∀ cpu < C.cpuCount, ∀ index < C.classCount,
    (s.shared.lists (.cpu cpu) index).len ≤ C.localCapacity
  linked : ∀ pos ∈ positions C, (s.shared.listAt pos).Linked s.shared.mem
  linked_batch : ∀ op ∈ s.ops, op.batch.Linked s.shared.mem
  runs : ∀ op ∈ s.ops, ∀ cpu < C.cpuCount, ∃ r, exec C cpu s.shared op = .ok r
  prepares : ∀ size align : ℕ, ∃ r, SlabClass.forLayout C size align = .ok r ∧
    ∀ cls, r = some cls → ∀ base, s.Fresh C base →
      ∃ r', PreparedSpan.new C s.shared.mem base cls = .ok r'

end System

end Anemone.Slab
