import Anemone.Library.Heap

/-!
# Locks of `flock`

The grants on one inode (fs/lock/flock/mod.rs).  A section under the lock of the grants is one
function.  `System` has any number of threads, each at a place of its program text, and the
reference words of the opened descriptions, which change without the lock.  A listener runs its
predicate when it starts to listen and after every publication; in between it sleeps.
-/

/-!
## The reference word of an opened file description

One word per opened description (task/files/opened_description.rs): zero before the description is
published, then the number of references, and one terminal value once the last reference has gone.
The loops of compare and exchange are one atomic update each.
-/

namespace Anemone.OpenedDescription

open Checked (assert)

def retiredDescriptionRefs : ℕ := 2 ^ 64 - 1

def acquireDescriptionRef (observed : ℕ) : Checked ℕ := do
  assert (observed ≠ retiredDescriptionRefs) "retired opened file description cannot be republished"
  assert (observed < retiredDescriptionRefs - 1) "opened file description refcount overflow"
  pure (observed + 1)

/-- The word after a release, and whether it was the last one. -/
def releaseDescriptionRef (observed : ℕ) : Checked (ℕ × Bool) := do
  assert (observed ≠ 0 ∧ observed ≠ retiredDescriptionRefs)
    "opened file description refcount underflow"
  pure (if observed = 1 then retiredDescriptionRefs else observed - 1, observed == 1)

def descriptionIsLive (refs : ℕ) : Bool := decide (1 ≤ refs ∧ refs < retiredDescriptionRefs)

end Anemone.OpenedDescription

namespace Anemone.Flock

open Checked (assert)
open OpenedDescription

inductive FlockMode where
  | shared
  | exclusive
deriving DecidableEq, Repr

def FlockMode.conflictsWith (mode requested : FlockMode) : Bool :=
  mode == .exclusive || requested == .exclusive

inductive FlockOperation where
  | lock (mode : FlockMode) (nonblocking : Bool)
  | unlock
deriving DecidableEq, Repr

inductive FlockOutcome where
  | complete
  | wouldBlock
  | interrupted
  | retired
deriving DecidableEq, Repr

structure FlockGrant where
  owner : ℕ
  mode : FlockMode
deriving DecidableEq, Repr

inductive LockAttempt where
  | complete
  | converted
  | wait
  | wouldBlock
  | retired
deriving DecidableEq, Repr

/-- The place of the grant of an owner, by a loop that goes on to the end and asserts that there is
one at most. -/
def findOwner (duplicate : String) (owner : ℕ) :
    List FlockGrant → ℕ → Option ℕ → Checked (Option ℕ)
  | [], _, found => pure found
  | grant :: rest, index, found =>
    if grant.owner = owner then do
      assert (found = none) duplicate
      findOwner duplicate owner rest (index + 1) (some index)
    else findOwner duplicate owner rest (index + 1) found

def ownerIndex (grants : List FlockGrant) (owner : ℕ) : Checked (Option ℕ) :=
  findOwner "flock owner has duplicate inode grants" owner grants 0 none

def conflicts (grants : List FlockGrant) (owner : ℕ) (requested : FlockMode) : Bool :=
  grants.any fun grant => grant.owner != owner && grant.mode.conflictsWith requested

/-- The part of an attempt for an owner that has no grant. -/
def attemptNew (grants : List FlockGrant) (owner : ℕ) (mode : FlockMode) (nonblocking : Bool) :
    LockAttempt × List FlockGrant :=
  if conflicts grants owner mode = true then
    (if nonblocking = true then .wouldBlock else .wait, grants)
  else (.complete, grants ++ [⟨owner, mode⟩])

/-- The part of an attempt for an owner with a grant. -/
def attemptHeld (grants : List FlockGrant) (index : ℕ) (mode : FlockMode) :
    Checked (LockAttempt × List FlockGrant) := do
  let grant ← Checked.expect grants[index]? "index out of bounds"
  if grant.mode = mode then pure (.complete, grants)
  else do
    let (_, grants) ← BinaryHeap.swapRemove grants index
    pure (.converted, grants)

def attemptLock (grants : List FlockGrant) (live : Bool) (owner : ℕ) (mode : FlockMode)
    (nonblocking : Bool) : Checked (LockAttempt × List FlockGrant) :=
  if live = false then pure (.retired, grants)
  else do
    match ← ownerIndex grants owner with
    | some index => attemptHeld grants index mode
    | none => pure (attemptNew grants owner mode nonblocking)

/-- Take the grant at a place out, if there is one. -/
def removeAt (grants : List FlockGrant) : Option ℕ → Checked (Bool × List FlockGrant)
  | none => pure (false, grants)
  | some index => do
    let (_, grants) ← BinaryHeap.swapRemove grants index
    pure (true, grants)

/-- The section of an unlock: whether the description was live, and whether a grant was removed. -/
def unlockLocked (grants : List FlockGrant) (live : Bool) (owner : ℕ) :
    Checked (Option Bool × List FlockGrant) :=
  if live = false then pure (none, grants)
  else do
    let found ← ownerIndex grants owner
    let (removed, grants) ← removeAt grants found
    pure (some removed, grants)

def retireLocked (grants : List FlockGrant) (owner : ℕ) : Checked (List FlockGrant) := do
  let found ← findOwner "retiring flock owner has duplicate grants" owner grants 0 none
  let (_, grants) ← removeAt grants found
  pure grants

/-! ## Threads -/

inductive Stage where
  | idle
  /-- A request with a lease, before a section. -/
  | ready (owner : ℕ) (operation : FlockOperation)
  /-- In the section, after the word was read. -/
  | inside (owner : ℕ) (operation : FlockOperation) (live : Bool)
  /-- The grant of the other mode was removed, and the publication is to come. -/
  | converted (owner : ℕ) (mode : FlockMode) (nonblocking : Bool)
  /-- A grant was removed by an unlock, and the publication is to come. -/
  | unlocked
  /-- Listening; the predicate is to run if `pending`. -/
  | listening (owner : ℕ) (mode : FlockMode) (pending : Bool)
  /-- In the section of the predicate, after the word was read. -/
  | testing (owner : ℕ) (mode : FlockMode) (live : Bool)
  | returned (outcome : FlockOutcome)
  /-- The last reference has gone, and the section of the retirement is to come. -/
  | retiring (owner : ℕ)
  /-- The section of the retirement is done, and the publication is to come. -/
  | withdrawn (owner : ℕ)
  | released (owner : ℕ)
deriving DecidableEq, Repr

structure System where
  grants : List FlockGrant
  /-- The reference words of the descriptions. -/
  refs : ℕ → ℕ
  guard : Option ℕ
  threads : ℕ → Stage

namespace System

variable (s : System)

/-- One step of one thread, with the place it is at. -/
inductive Op where
  /-- A request starts; `upgraded` tells whether the description has storage. -/
  | request (thread owner : ℕ) (operation : FlockOperation) (upgraded : Bool)
  | enter (thread owner : ℕ) (operation : FlockOperation)
  | finish (thread owner : ℕ) (operation : FlockOperation) (live : Bool)
  | publishConverted (thread owner : ℕ) (mode : FlockMode) (nonblocking : Bool)
  | publishUnlocked (thread : ℕ)
  | enterTest (thread owner : ℕ) (mode : FlockMode)
  | finishTest (thread owner : ℕ) (mode : FlockMode) (live : Bool)
  | interrupt (thread owner : ℕ) (mode : FlockMode) (pending : Bool)
  | acquireRef (owner : ℕ)
  | releaseRef (thread owner : ℕ)
  | retire (thread owner : ℕ)
  | publishRetired (thread owner : ℕ)
deriving DecidableEq, Repr

/-- A step can be taken: the thread is there, and the lock is free for a section.  References are
released by who has them. -/
def Enabled : Op → Prop
  | .request thread _ _ _ => s.threads thread = .idle
  | .enter thread owner operation => s.threads thread = .ready owner operation ∧ s.guard = none
  | .finish thread owner operation live => s.threads thread = .inside owner operation live
  | .publishConverted thread owner mode nonblocking =>
    s.threads thread = .converted owner mode nonblocking
  | .publishUnlocked thread => s.threads thread = .unlocked
  | .enterTest thread owner mode =>
    s.threads thread = .listening owner mode true ∧ s.guard = none
  | .finishTest thread owner mode live => s.threads thread = .testing owner mode live
  | .interrupt thread owner mode pending => s.threads thread = .listening owner mode pending
  | .acquireRef owner => s.refs owner < retiredDescriptionRefs - 1
  | .releaseRef thread owner =>
    s.threads thread = .idle ∧ s.refs owner ≠ 0 ∧ s.refs owner ≠ retiredDescriptionRefs
  | .retire thread owner => s.threads thread = .retiring owner ∧ s.guard = none
  | .publishRetired thread owner => s.threads thread = .withdrawn owner

def live (owner : ℕ) : Bool := descriptionIsLive (s.refs owner)

def goTo (thread : ℕ) (stage : Stage) : System :=
  { s with threads := Function.update s.threads thread stage }

/-- Every listener runs its predicate again. -/
def Stage.notified : Stage → Stage
  | .listening owner mode _ => .listening owner mode true
  | stage => stage

/-- `recheck.publish(usize::MAX, false)` -/
def publish : System := { s with threads := fun thread => Stage.notified (s.threads thread) }

def attemptStage (owner : ℕ) (mode : FlockMode) (nonblocking : Bool) : LockAttempt → Stage
  | .complete => .returned .complete
  | .converted => .converted owner mode nonblocking
  | .wait => .listening owner mode true
  | .wouldBlock => .returned .wouldBlock
  | .retired => .returned .retired

def unlockStage : Option Bool → Stage
  | none => .returned .retired
  | some true => .unlocked
  | some false => .returned .complete

/-- The rest of a section, which ends by giving the lock back. -/
def finishSection (thread owner : ℕ) (operation : FlockOperation) (live : Bool) :
    Checked System :=
  match operation with
  | .lock mode nonblocking => do
    let (attempt, grants) ← attemptLock s.grants live owner mode nonblocking
    pure ({ s with grants, guard := none }.goTo thread (attemptStage owner mode nonblocking attempt))
  | .unlock => do
    let (removed, grants) ← unlockLocked s.grants live owner
    pure ({ s with grants, guard := none }.goTo thread (unlockStage removed))

def run : Op → Checked System
  -- SOURCE: fs/lock/flock/mod.rs:196-210, task/files/opened_description.rs:188-193
  | .request thread owner operation upgraded =>
    pure (s.goTo thread (if upgraded = true ∧ s.live owner = true then .ready owner operation
      else .returned .retired))
  | .enter thread owner operation =>
    pure ({ s with guard := some thread }.goTo thread (.inside owner operation (s.live owner)))
  | .finish thread owner operation live => s.finishSection thread owner operation live
  -- SOURCE: fs/lock/flock/mod.rs:132-138
  | .publishConverted thread owner mode nonblocking =>
    pure (s.publish.goTo thread (.ready owner (.lock mode nonblocking)))
  -- SOURCE: fs/lock/flock/mod.rs:169-173
  | .publishUnlocked thread => pure (s.publish.goTo thread (.returned .complete))
  -- SOURCE: fs/lock/flock/mod.rs:140-148
  | .enterTest thread owner mode =>
    pure ({ s with guard := some thread }.goTo thread (.testing owner mode (s.live owner)))
  | .finishTest thread owner mode live =>
    pure ({ s with guard := none }.goTo thread
      (if live = false ∨ conflicts s.grants owner mode = false then .ready owner (.lock mode false)
        else .listening owner mode false))
  | .interrupt thread _ _ _ => pure (s.goTo thread (.returned .interrupted))
  | .acquireRef owner => do
    let refs ← acquireDescriptionRef (s.refs owner)
    pure { s with refs := Function.update s.refs owner refs }
  -- SOURCE: task/files/opened_description.rs:375-389
  | .releaseRef thread owner => do
    let (refs, last) ← releaseDescriptionRef (s.refs owner)
    pure ({ s with refs := Function.update s.refs owner refs }.goTo thread
      (if last = true then .retiring owner else .idle))
  -- SOURCE: fs/lock/flock/mod.rs:176-187
  | .retire thread owner => do
    let grants ← retireLocked s.grants owner
    pure ({ s with grants }.goTo thread (.withdrawn owner))
  -- SOURCE: fs/lock/flock/mod.rs:191-192
  | .publishRetired thread owner => pure (s.publish.goTo thread (.released owner))

def Step (s : System) (op : Op) (t : System) : Prop := s.Enabled op ∧ s.run op = .ok t

def Start (s : System) : Prop :=
  s.grants = [] ∧ s.guard = none ∧ (∀ thread, s.threads thread = .idle) ∧ ∀ owner, s.refs owner = 0

end System

end Anemone.Flock
