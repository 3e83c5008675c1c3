import Anemone.Library.Checked
import Mathlib.Data.Nat.Log

/-!
# The slab heap

`SlabAllocator` (mm/kmalloc/slab.rs) cuts spans into slots of one size and keeps the free slots of
each size class in intrusive lists: one central list behind a lock, and one local list per CPU.
`Mem` has the `FreeNode` at every address; what is there of a slot in use is up to its user.  As
with the frame magazines, `Op` is where a call stands, and `exec` is what it does next.
-/

namespace Anemone.Slab

open Function (update)
open Checked (assert expect wordSize)

/-- `MIN_CLASS_BYTES`: the size, and the alignment, of a `FreeNode`. -/
def minClassBytes : ℕ := 8

/-- The constants of a kernel build with what is asserted of them, and the number of CPUs. -/
structure Config where
  pageBytes : ℕ
  spanPages : ℕ
  maxObjectBytes : ℕ
  localCapacity : ℕ
  transferBatch : ℕ
  cpuCount : ℕ
  page_pow : ∃ k, pageBytes = 2 ^ k
  span_pow : ∃ k, spanPages = 2 ^ k
  max_pow : ∃ k, maxObjectBytes = 2 ^ k
  min_le_max : minClassBytes ≤ maxObjectBytes
  max_le_page : maxObjectBytes ≤ pageBytes
  span_fits : spanPages * pageBytes < wordSize
  two_slots : 2 ≤ spanPages * pageBytes / maxObjectBytes
  batch_pos : 0 < transferBatch
  batch_le : transferBatch ≤ localCapacity

def Config.spanBytes (C : Config) : ℕ := C.spanPages * C.pageBytes

/-- `CLASS_COUNT`; of a power of two, `trailing_zeros` is the logarithm. -/
def Config.classCount (C : Config) : ℕ := Nat.log 2 C.maxObjectBytes - Nat.log 2 minClassBytes + 1

def checkedAdd (a b : ℕ) : Option ℕ := if a + b < wordSize then some (a + b) else none

def checkedMul (a b : ℕ) : Option ℕ := if a * b < wordSize then some (a * b) else none

def checkedSub (a b : ℕ) : Option ℕ := if b ≤ a then some (a - b) else none

/-- The next power of two, if it is a `usize`. -/
def checkedNextPowerOfTwo (a : ℕ) : Option ℕ :=
  if a ≤ 2 ^ 63 then some (2 ^ Nat.clog 2 a) else none

structure SlabClass where
  index : ℕ
  slotBytes : ℕ
deriving DecidableEq, Repr

def SlabClass.forLayout (C : Config) (size align : ℕ) : Checked (Option SlabClass) :=
  match checkedNextPowerOfTwo (max (max size align) minClassBytes) with
  | none => pure none
  | some slotBytes =>
    if slotBytes > C.maxObjectBytes then pure none
    else do
      let index ← Checked.sub (Nat.log 2 slotBytes) (Nat.log 2 minClassBytes)
      assert (index < C.classCount) "assertion failed: index < CLASS_COUNT"
      pure (some ⟨index, slotBytes⟩)

/-! ## Free lists -/

/-- The `next` of the node at every address. -/
abbrev Mem : Type := ℕ → Option ℕ

structure FreeList where
  head : Option ℕ
  tail : Option ℕ
  len : ℕ
deriving DecidableEq, Repr

namespace FreeList

def new : FreeList := ⟨none, none, 0⟩

def isEmpty (l : FreeList) : Bool := l.head.isNone

def push (mem : Mem) (l : FreeList) (ptr : ℕ) : Checked (Mem × FreeList) := do
  assert (ptr % minClassBytes = 0)
    "assertion failed: (ptr.as_ptr() as usize).is_multiple_of(align_of::<FreeNode>())"
  let newLen ← expect (checkedAdd l.len 1) "free-list length overflow"
  let tail := if l.isEmpty then some ptr else l.tail
  assert (tail.isSome = true) "assertion failed: self.tail.is_some()"
  pure (update mem ptr l.head, ⟨some ptr, tail, newLen⟩)

def pop (mem : Mem) (l : FreeList) : Checked (Option ℕ × FreeList) :=
  match l.head with
  | none => pure (none, l)
  | some node => do
    let newLen ← expect (checkedSub l.len 1) "non-empty free list has zero length"
    match mem node with
    | none => do
      assert (newLen = 0) "assertion failed: self.len == 0"
      pure (some node, ⟨none, none, newLen⟩)
    | some next => do
      assert (newLen ≠ 0) "assertion failed: self.len != 0"
      assert (l.tail.isSome = true) "assertion failed: self.tail.is_some()"
      pure (some node, ⟨some next, l.tail, newLen⟩)

/-- The loop of `take_up_to`: the memory, what is left and what is taken. -/
def takeLoop : ℕ → Mem → FreeList → FreeList → Checked (Mem × FreeList × FreeList)
  | 0, mem, l, taken => pure (mem, l, taken)
  | rounds + 1, mem, l, taken => do
    let (ptr, l) ← pop mem l
    match ptr with
    | none => pure (mem, l, taken)
    | some ptr => do
      let (mem, taken) ← push mem taken ptr
      takeLoop rounds mem l taken

def takeUpTo (mem : Mem) (l : FreeList) (limit : ℕ) : Checked (Mem × FreeList × FreeList) :=
  takeLoop limit mem l new

def append (mem : Mem) (l other : FreeList) : Checked (Mem × FreeList) :=
  if other.isEmpty then do
    assert (other.tail = none) "assertion failed: other.tail.is_none()"
    assert (other.len = 0) "assertion failed: other.len == 0"
    pure (mem, l)
  else do
    assert (other.tail.isSome = true) "assertion failed: other.tail.is_some()"
    assert (other.len ≠ 0) "assertion failed: other.len != 0"
    if l.isEmpty then do
      assert (l.tail = none) "assertion failed: self.tail.is_none()"
      assert (l.len = 0) "assertion failed: self.len == 0"
      pure (mem, other)
    else do
      assert (l.tail.isSome = true) "assertion failed: self.tail.is_some()"
      assert (l.len ≠ 0) "assertion failed: self.len != 0"
      let newLen ← expect (checkedAdd l.len other.len) "free-list length overflow"
      let otherTail ← expect other.tail "non-empty list must have a tail"
      pure (update mem otherTail l.head, ⟨other.head, l.tail, newLen⟩)

end FreeList

/-! ## Spans -/

structure PreparedSpan where
  cls : SlabClass
  allocated : ℕ
  free : FreeList
deriving DecidableEq, Repr

/-- The loop of `PreparedSpan::new`, from the slot with number `index` on. -/
def carve (base slotBytes : ℕ) : ℕ → ℕ → Mem → FreeList → Checked (Option FreeList × Mem)
  | 0, _, mem, free => pure (some free, mem)
  | rounds + 1, index, mem, free =>
    match checkedMul index slotBytes with
    | none => pure (none, mem)
    | some offset => do
      let (mem, free) ← free.push mem (base + offset)
      carve base slotBytes rounds (index + 1) mem free

def PreparedSpan.new (C : Config) (mem : Mem) (base : ℕ) (cls : SlabClass) :
    Checked (Option PreparedSpan × Mem) :=
  -- nothing but zero is a multiple of zero
  if base % C.pageBytes ≠ 0 ∨ cls.slotBytes = 0 ∨ C.spanBytes % cls.slotBytes ≠ 0 then
    pure (none, mem)
  else
    let slotCount := C.spanBytes / cls.slotBytes
    if slotCount = 0 then pure (none, mem)
    else
      match checkedMul (slotCount - 1) cls.slotBytes with
      | none => pure (none, mem)
      | some lastOffset =>
        if checkedAdd lastOffset cls.slotBytes ≠ some C.spanBytes then pure (none, mem)
        else do
          let (free, mem) ← carve base cls.slotBytes (slotCount - 1) 1 mem .new
          pure (free.map fun free => ⟨cls, base, free⟩, mem)

/-! ## Calls -/

/-- Whose list it is. -/
inductive Owner where
  | central
  | cpu (id : ℕ)
deriving DecidableEq, Repr

/-- The memory, the lists of every owner and class, and whether `LOCAL_FREE` may be used. -/
structure Shared where
  mem : Mem
  lists : Owner → ℕ → FreeList
  storageReady : Bool

def Shared.setList (s : Shared) (owner : Owner) (cls : SlabClass) (mem : Mem) (l : FreeList) :
    Shared :=
  { s with
    mem := mem
    lists := update s.lists owner (update (s.lists owner) cls.index l) }

inductive Op where
  | allocate (cls : SlabClass)
  | localPop (cls : SlabClass)
  | centralTake (cls : SlabClass)
  | batchPop (cls : SlabClass) (batch : FreeList)
  | batchReady (cls : SlabClass) (batch : FreeList) (allocated : ℕ)
  | publishLocal (cls : SlabClass) (batch : FreeList) (allocated : ℕ)
  /-- `publish_central`, for a call that has nothing to return or a slot. -/
  | publishCentral (cls : SlabClass) (batch : FreeList) (result : Option ℕ)
  | deallocate (cls : SlabClass) (ptr : ℕ)
  | releaseLocal (cls : SlabClass) (ptr : ℕ)
deriving DecidableEq, Repr

inductive Outcome where
  | next (op : Op)
  | returns (cls : SlabClass) (ptr : ℕ)
  | done
deriving DecidableEq, Repr

section Exec

variable (C : Config)

/-- The memory, the local list and what is left of the batch. -/
def refillLocal (mem : Mem) (l batch : FreeList) : Checked (Mem × FreeList × FreeList) := do
  assert (l.len ≤ C.localCapacity) "assertion failed: local.len <= SLAB_LOCAL_CAPACITY"
  let available := C.localCapacity - l.len
  let (mem, batch, taken) ← batch.takeUpTo mem available
  let (mem, l) ← l.append mem taken
  assert (l.len ≤ C.localCapacity) "assertion failed: local.len <= SLAB_LOCAL_CAPACITY"
  pure (mem, l, batch)

/-- The memory, the local list and what it gives up. -/
def releaseLocal (mem : Mem) (l : FreeList) (ptr : ℕ) :
    Checked (Mem × FreeList × FreeList) := do
  assert (l.len ≤ C.localCapacity) "assertion failed: local.len <= SLAB_LOCAL_CAPACITY"
  let (mem, l) ← l.push mem ptr
  let (mem, l, drain) ←
    if l.len > C.localCapacity then l.takeUpTo mem C.transferBatch else pure (mem, l, .new)
  assert (l.len ≤ C.localCapacity) "assertion failed: local.len <= SLAB_LOCAL_CAPACITY"
  pure (mem, l, drain)

def returned (cls : SlabClass) : Option ℕ → Outcome
  | none => .done
  | some ptr => .returns cls ptr

def exec (cpu : ℕ) (s : Shared) : Op → Checked (Outcome × Shared)
  | .allocate cls => pure (.next (if s.storageReady then .localPop cls else .centralTake cls), s)
  | .localPop cls => do
    let (ptr, l) ← (s.lists (.cpu cpu) cls.index).pop s.mem
    pure (match ptr with | some ptr => .returns cls ptr | none => .next (.centralTake cls),
      s.setList (.cpu cpu) cls s.mem l)
  | .centralTake cls => do
    let (mem, l, batch) ← (s.lists .central cls.index).takeUpTo s.mem C.transferBatch
    pure (.next (.batchPop cls batch), s.setList .central cls mem l)
  | .batchPop cls batch => do
    let (ptr, batch) ← batch.pop s.mem
    pure (match ptr with | some ptr => .next (.batchReady cls batch ptr) | none => .done, s)
  | .batchReady cls batch allocated =>
    pure (.next (if s.storageReady then .publishLocal cls batch allocated
      else .publishCentral cls batch (some allocated)), s)
  | .publishLocal cls batch allocated => do
    let (mem, l, batch) ← refillLocal C s.mem (s.lists (.cpu cpu) cls.index) batch
    pure (.next (.publishCentral cls batch (some allocated)), s.setList (.cpu cpu) cls mem l)
  | .publishCentral cls batch result =>
    if batch.isEmpty then pure (returned cls result, s)
    else do
      let (mem, l) ← (s.lists .central cls.index).append s.mem batch
      pure (returned cls result, s.setList .central cls mem l)
  | .deallocate cls ptr =>
    if s.storageReady then pure (.next (.releaseLocal cls ptr), s)
    else do
      let (mem, one) ← FreeList.new.push s.mem ptr
      pure (.next (.publishCentral cls one none), { s with mem := mem })
  | .releaseLocal cls ptr => do
    let (mem, l, drain) ← releaseLocal C s.mem (s.lists (.cpu cpu) cls.index) ptr
    pure (.next (.publishCentral cls drain none), s.setList (.cpu cpu) cls mem l)

end Exec

/-! ## Systems -/

/-- The heap with the calls under way, the slots that users have, and the spans that were
cut into slots, by their base. -/
structure System where
  shared : Shared
  ops : List Op
  live : List (SlabClass × ℕ)
  spans : List (SlabClass × ℕ)

namespace System

def proceed (s : System) (before after : List Op) (shared : Shared) : Outcome → System
  | .next op => ⟨shared, before ++ op :: after, s.live, s.spans⟩
  | .returns cls ptr => ⟨shared, before ++ after, (cls, ptr) :: s.live, s.spans⟩
  | .done => ⟨shared, before ++ after, s.live, s.spans⟩

/-- The address is in a slot that some user has, or in none of the spans. -/
def Writable (C : Config) (s : System) (addr : ℕ) : Prop :=
  (∃ o ∈ s.live, o.2 ≤ addr ∧ addr < o.2 + o.1.slotBytes) ∨
    ∀ span ∈ s.spans, ¬ (span.2 ≤ addr ∧ addr < span.2 + C.spanBytes)

/-- A span in memory that no other span has a part of. -/
def Fresh (C : Config) (s : System) (base : ℕ) : Prop :=
  base + C.spanBytes ≤ wordSize ∧
    ∀ span ∈ s.spans, base + C.spanBytes ≤ span.2 ∨ span.2 + C.spanBytes ≤ base

inductive Step (C : Config) (s : System) : System → Prop
  /-- The storage of the CPUs is there from now on. -/
  | ready : Step C s { s with shared.storageReady := true }
  | write {mem : Mem} (h : ∀ addr, mem addr ≠ s.shared.mem addr → s.Writable C addr) :
      Step C s { s with shared.mem := mem }
  | allocate {size align : ℕ} {cls : SlabClass}
      (h : SlabClass.forLayout C size align = .ok (some cls)) :
      Step C s { s with ops := .allocate cls :: s.ops }
  /-- A span is prepared and handed to `publish`. -/
  | prepare {size align base : ℕ} {cls : SlabClass} {prepared : PreparedSpan} {mem : Mem}
      (hcls : SlabClass.forLayout C size align = .ok (some cls)) (fresh : s.Fresh C base)
      (h : PreparedSpan.new C s.shared.mem base cls = .ok (some prepared, mem)) :
      Step C s
        ⟨{ s.shared with mem := mem },
          .publishCentral prepared.cls prepared.free (some prepared.allocated) :: s.ops,
          s.live, (cls, base) :: s.spans⟩
  | deallocate {before after : List (SlabClass × ℕ)} {cls : SlabClass} {ptr : ℕ}
      (owned : s.live = before ++ (cls, ptr) :: after) :
      Step C s { s with ops := .deallocate cls ptr :: s.ops, live := before ++ after }
  | run {before after : List Op} {op : Op} {cpu : ℕ} {outcome : Outcome} {shared : Shared}
      (at_op : s.ops = before ++ op :: after) (hcpu : cpu < C.cpuCount)
      (h : exec C cpu s.shared op = .ok (outcome, shared)) :
      Step C s (s.proceed before after shared outcome)

end System

end Anemone.Slab
