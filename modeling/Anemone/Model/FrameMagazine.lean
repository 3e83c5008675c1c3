import Anemone.Library.Checked
import Anemone.Library.Places
import Mathlib.Data.Nat.Log
import Mathlib.Order.Interval.Finset.Nat

/-!
# Frame magazines

`LockedFrameAllocator` (mm/frame/allocator.rs, magazine.rs) keeps single free frames in one
magazine per CPU, in front of a backend that is any `FrameAllocator`, and counts free pages in
a counter of its own.

A call takes several locks one after the other, and between two of them the frames it works on
are its own.  `Op` is where a call stands, and `exec` is what it does under its next lock, on
the CPU it happens to run on.  A `System` is the allocator with all calls under way and all
allocations that are live: claimed in the counter and not released.

The initialised part of a batch or magazine is a list with the last frame first.
-/

namespace Anemone.Frame

open Checked (assert)

/-- The constants of a kernel build, and the number of CPUs that are there. -/
structure Config where
  capacity : ℕ
  batch : ℕ
  cpuCount : ℕ
  batch_pos : 0 < batch
  batch_le : batch ≤ capacity
  cpus_pos : 0 < cpuCount

inductive AllocFailure where
  | admission
  | unavailable
deriving DecidableEq, Repr

structure FrameAllocator (B : Type) where
  alloc : B → ℕ → Except AllocFailure ℕ × B
  dealloc : B → ℕ → ℕ → B

/-! ## Batches and magazines -/

def FrameBatch.push (N : ℕ) (frames : List ℕ) (frame : ℕ) : Checked (List ℕ) := do
  assert (frames.length < N) "frame batch exceeded its fixed capacity"
  assert (frame ∉ frames) "frame entered one transfer batch twice"
  pure (frame :: frames)

namespace Magazine

variable (C : Config)

def push (frames : List ℕ) (frame : ℕ) : Checked (List ℕ) := do
  assert (frames.length < C.capacity) "frame magazine exceeded its fixed capacity"
  assert (frame ∉ frames) "frame entered one magazine twice"
  pure (frame :: frames)

def refillLoop (frames : List ℕ) : List ℕ → Checked (List ℕ × List ℕ)
  | [] => pure (frames, [])
  | frame :: batch =>
    if frames.length < C.capacity then do
      let frames ← push C frames frame
      refillLoop frames batch
    else pure (frames, frame :: batch)

/-- The magazine and what is left of the batch. -/
def refill (frames batch : List ℕ) : Checked (List ℕ × List ℕ) := do
  assert (frames.length ≤ C.capacity) "assertion failed: self.len <= FRAME_MAGAZINE_CAPACITY"
  let (frames, batch) ← refillLoop C frames batch
  assert (frames.length ≤ C.capacity) "assertion failed: self.len <= FRAME_MAGAZINE_CAPACITY"
  pure (frames, batch)

def drainLoop : ℕ → List ℕ → List ℕ → Checked (List ℕ × List ℕ)
  | 0, frames, drain => pure (frames, drain)
  | _ + 1, [], _ => .error ⟨"full frame magazine could not provide a drain batch"⟩
  | rounds + 1, frame :: frames, drain => do
    let drain ← FrameBatch.push C.batch drain frame
    drainLoop rounds frames drain

/-- The magazine and what it gives up. -/
def release (frames : List ℕ) (frame : ℕ) : Checked (List ℕ × List ℕ) := do
  assert (frames.length ≤ C.capacity) "assertion failed: self.len <= FRAME_MAGAZINE_CAPACITY"
  let (frames, drain) ←
    if frames.length = C.capacity then drainLoop C C.batch frames [] else pure (frames, [])
  let frames ← push C frames frame
  assert (frames.length ≤ C.capacity) "assertion failed: self.len <= FRAME_MAGAZINE_CAPACITY"
  pure (frames, drain)

def takeAll : List ℕ → List ℕ → Checked (List ℕ)
  | [], batch => pure batch
  | frame :: frames, batch => do
    let batch ← FrameBatch.push C.capacity batch frame
    takeAll frames batch

end Magazine

/-! ## Accounting -/

/-- `allocation_charge`: the next power of two, if it is a `usize`. -/
def allocationCharge (npages : ℕ) : Option ℕ :=
  if npages ≤ 2 ^ 63 then some (2 ^ Nat.clog 2 npages) else none

/-- The frames of an allocation, what it is rounded up by included. -/
def block (start npages : ℕ) : Finset ℕ :=
  Finset.Ico start (start + (allocationCharge npages).getD 0)

namespace FrameAccounting

def claim (freePages pages : ℕ) : Checked ℕ :=
  if pages ≤ freePages then pure (freePages - pages)
  else .error ⟨"frame allocator free-page counter underflow"⟩

def release (totalPages freePages pages : ℕ) : Checked ℕ :=
  if freePages + pages < Checked.wordSize ∧ freePages + pages ≤ totalPages then
    pure (freePages + pages)
  else .error ⟨"frame allocator free pages exceeded total pages"⟩

end FrameAccounting

/-! ## Calls -/

structure Shared (B : Type) where
  backend : B
  magazines : ℕ → List ℕ
  totalPages : ℕ
  freePages : ℕ

/-- What a sweep is made for. -/
inductive Retry where
  | order0
  | folio (npages : ℕ)
  | finish
deriving DecidableEq, Repr

inductive Op where
  /-- `alloc_one`, and `alloc` of one page. -/
  | localPop
  | takeBatch (retried : Bool)
  | publishLocal (allocated : ℕ) (batch : List ℕ)
  | returnRest (allocated : ℕ) (rest : List ℕ)
  | claim (start npages : ℕ)
  /-- `alloc` of any other number of pages. -/
  | allocate (npages : ℕ) (retried : Bool)
  | sweep (cpu : ℕ) (next : Retry)
  | sweepReturn (cpu : ℕ) (batch : List ℕ) (next : Retry)
  /-- `dealloc` after the pages are counted as free. -/
  | releaseLocal (frame : ℕ)
  | returnDrain (drain : List ℕ)
  | deallocFolio (start npages : ℕ)
deriving DecidableEq, Repr

inductive Outcome where
  | next (op : Op)
  | returns (start npages : ℕ)
  | done
deriving DecidableEq, Repr

section Exec

variable {B : Type} (C : Config) (A : FrameAllocator B)

def takeOrder0Batch : ℕ → B → List ℕ → Checked (List ℕ × B)
  | 0, b, batch => pure (batch, b)
  | rounds + 1, b, batch =>
    match A.alloc b 1 with
    | (.ok frame, b) => do
      let batch ← FrameBatch.push C.batch batch frame
      takeOrder0Batch rounds b batch
    | (.error .unavailable, b) => pure (batch, b)
    | (.error .admission, _) => .error ⟨"order-0 frame request failed buddy admission"⟩

def returnToBuddy (b : B) (batch : List ℕ) : B :=
  batch.foldl (fun b frame => A.dealloc b frame 1) b

/-- The loop of `sweep_magazines` before a CPU, and what comes after the loop. -/
def resume (cpu : ℕ) (next : Retry) : Outcome :=
  if cpu < C.cpuCount then .next (.sweep cpu next)
  else
    match next with
    | .order0 => .next (.takeBatch true)
    | .folio npages => .next (.allocate npages true)
    | .finish => .done

def Shared.setMagazine (s : Shared B) (cpu : ℕ) (frames : List ℕ) : Shared B :=
  { s with magazines := Function.update s.magazines cpu frames }

def exec (cpu : ℕ) (s : Shared B) : Op → Checked (Outcome × Shared B)
  | .localPop =>
    match s.magazines cpu with
    | [] => pure (.next (.takeBatch false), s)
    | frame :: frames => pure (.next (.claim frame 1), s.setMagazine cpu frames)
  | .takeBatch retried => do
    let (batch, b) ← takeOrder0Batch C A C.batch s.backend []
    match batch with
    | [] =>
      pure (if retried then .done else resume C 0 .order0, { s with backend := b })
    | allocated :: batch => pure (.next (.publishLocal allocated batch), { s with backend := b })
  | .publishLocal allocated batch => do
    let (frames, rest) ← Magazine.refill C (s.magazines cpu) batch
    pure (.next (.returnRest allocated rest), s.setMagazine cpu frames)
  | .returnRest allocated rest =>
    pure (.next (.claim allocated 1), { s with backend := returnToBuddy A s.backend rest })
  | .claim start npages =>
    match allocationCharge npages with
    | none => pure (.done, s)
    | some charge => do
      let freePages ← FrameAccounting.claim s.freePages charge
      pure (.returns start npages, { s with freePages := freePages })
  | .allocate npages retried =>
    match A.alloc s.backend npages with
    | (.ok start, b) => pure (.next (.claim start npages), { s with backend := b })
    | (.error .admission, b) => pure (.done, { s with backend := b })
    | (.error .unavailable, b) =>
      pure (if retried then .done else resume C 0 (.folio npages), { s with backend := b })
  | .sweep i next => do
    let batch ← Magazine.takeAll C (s.magazines i) []
    pure (.next (.sweepReturn i batch next), s.setMagazine i [])
  | .sweepReturn i batch next =>
    pure (resume C (i + 1) next, { s with backend := returnToBuddy A s.backend batch })
  | .releaseLocal frame => do
    let (frames, drain) ← Magazine.release C (s.magazines cpu) frame
    pure (.next (.returnDrain drain), s.setMagazine cpu frames)
  | .returnDrain drain =>
    pure (.done, { s with backend := returnToBuddy A s.backend drain })
  | .deallocFolio start npages =>
    pure (.done, { s with backend := A.dealloc s.backend start npages })

/-- `alloc`, `alloc_one` and `sweep_magazines` before their first lock. -/
def begins : Op → Bool
  | .localPop => true
  | .allocate npages retried => npages ≠ 1 && !retried
  | .sweep cpu next => cpu == 0 && next == .finish
  | _ => false

def dealloc (s : Shared B) (start npages : ℕ) : Checked (Op × Shared B) := do
  let charge ← Checked.expect (allocationCharge npages)
    "allocated folio no longer has a valid buddy charge"
  let freePages ← FrameAccounting.release s.totalPages s.freePages charge
  pure (if npages = 1 then .releaseLocal start else .deallocFolio start npages,
    { s with freePages := freePages })

end Exec

/-! ## Systems -/

structure System (B : Type) where
  shared : Shared B
  ops : List Op
  live : List (ℕ × ℕ)

/-- The calls and allocations after a step of the call between `before` and `after`. -/
def System.proceed {B : Type} (s : System B) (before after : List Op) (shared : Shared B) :
    Outcome → System B
  | .next op => ⟨shared, before ++ op :: after, s.live⟩
  | .returns start npages => ⟨shared, before ++ after, (start, npages) :: s.live⟩
  | .done => ⟨shared, before ++ after, s.live⟩

/-- A call begins, or goes on, or the owner of an allocation gives it back. -/
inductive System.Step {B : Type} (C : Config) (A : FrameAllocator B) (s : System B) :
    System B → Prop
  | call {op : Op} (h : begins op = true) : Step C A s { s with ops := op :: s.ops }
  | run {before after : List Op} {op : Op} {cpu : ℕ} {outcome : Outcome} {shared : Shared B}
      (at_op : s.ops = before ++ op :: after) (hcpu : cpu < C.cpuCount)
      (h : exec C A cpu s.shared op = .ok (outcome, shared)) :
      Step C A s (s.proceed before after shared outcome)
  | dealloc {before after : List (ℕ × ℕ)} {start npages : ℕ} {op : Op} {shared : Shared B}
      (owned : s.live = before ++ (start, npages) :: after)
      (h : dealloc s.shared start npages = .ok (op, shared)) :
      Step C A s ⟨shared, op :: s.ops, before ++ after⟩

end Anemone.Frame
