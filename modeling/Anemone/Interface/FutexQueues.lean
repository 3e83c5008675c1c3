import Anemone.Model.Futex

/-!
# What the futex operations are for

`Requeued` says what a requeue is to do to the queues and the waiters, in terms of the queue that
the first key had.  `Consistent` says where a waiter is between two operations.
-/

namespace Anemone.Futex

namespace FutexSet

def queueOf (set : FutexSet) (key : FutexKey) : List ℕ := (set.getFutex key).getD []

def moved (set : FutexSet) (key1 : FutexKey) (nWake nRequeue : ℕ) : List ℕ :=
  ((set.queueOf key1).drop nWake).take nRequeue

/-- What a requeue is to do: the first `nWake` waiters on `key1` are woken, the next `nRequeue`
are moved to the end of the queue of `key2`, and the rest stays. -/
structure Requeued (set : FutexSet) (key1 key2 : FutexKey) (nWake nRequeue : ℕ)
    (after : FutexSet) : Prop where
  queues : ∀ key, after.queueOf key =
    (if key = key1 then (set.queueOf key).drop (nWake + nRequeue) else set.queueOf key) ++
      if key = key2 then set.moved key1 nWake nRequeue else []
  woken : ∀ waiter, (after.waiters waiter).woken = true ↔
    (set.waiters waiter).woken = true ∨ waiter ∈ (set.queueOf key1).take nWake
  key : ∀ waiter, (after.waiters waiter).key =
    if waiter ∈ set.moved key1 nWake nRequeue then key2 else (set.waiters waiter).key

/-- The call returns the number of woken and moved waiters, and has done what it is to do. -/
def MeetsRequeue (set : FutexSet) (key1 key2 : FutexKey) (nWake nRequeue : ℕ)
    (cmpVal : Option (BitVec 32)) (word : Except SysError (BitVec 32)) : Prop :=
  ∃ after, set.futexCmpRequeue key1 key2 nWake nRequeue cmpVal word =
      .ok (.ok (min nWake (set.queueOf key1).length +
        (set.moved key1 nWake nRequeue).length), after) ∧
    set.Requeued key1 key2 nWake nRequeue after

end FutexSet

namespace System

/-- Where the waiters are between two operations. -/
structure Consistent (s : System) : Prop where
  nodup : ∀ key, (s.set.queueOf key).Nodup
  /-- A waiter in a queue waits, is not woken, and has the key of the queue. -/
  queued : ∀ key, ∀ waiter ∈ s.set.queueOf key, s.stages waiter = .waiting ∧
    (s.set.waiters waiter).woken = false ∧ (s.set.waiters waiter).key = key
  /-- A waiter that waits and is not woken is in the queue of its key. -/
  member : ∀ waiter, s.stages waiter = .waiting → (s.set.waiters waiter).woken = false →
    waiter ∈ s.set.queueOf (s.set.waiters waiter).key
  /-- A waiter that is not there yet is not woken. -/
  fresh : ∀ waiter, s.stages waiter = .fresh → (s.set.waiters waiter).woken = false
  /-- A wait that was woken has returned success if it has returned. -/
  success : ∀ waiter result, s.stages waiter = .returned result →
    (s.set.waiters waiter).woken = true → result = .ok ()

/-- The count of a wake is the number of waiters it marked, and those were waiting. -/
def CountsMarked (s : System) (count : ℕ) (after : FutexSet) : Prop :=
  ∃ marked : List ℕ, marked.Nodup ∧ marked.length = count ∧
    (∀ waiter ∈ marked, s.stages waiter = .waiting ∧ (s.set.waiters waiter).woken = false) ∧
    ∀ waiter, (after.waiters waiter).woken = true ↔
      (s.set.waiters waiter).woken = true ∨ waiter ∈ marked

def Clean (s : System) : Prop := ∀ key, s.set.getFutex key ≠ some []

/-- The operation does not ask for a second queue next to a first one that is not there. -/
def FindsQueue (s : System) : Op → Prop
  | .requeue key1 key2 _ _ _ _ => s.set.existFutex key1 = true ∨ s.set.existFutex key2 = true
  | _ => True

/-- The panics that are left: two borrows of one queue, and a count beyond 32 bits. -/
def Remaining (op : Op) (panic : Panic) : Prop :=
  match op with
  | .requeue key1 key2 _ _ _ _ => key1 = key2 ∧ panic = FutexSet.duplicateKeys ∨
      panic = ⟨"attempt to add with overflow"⟩
  | _ => False

end System

end Anemone.Futex
