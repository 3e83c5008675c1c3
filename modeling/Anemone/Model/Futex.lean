import Anemone.Library.Checked

/-!
# Futex queues

The set of futex queues (task/api/futex/mod.rs) and the operations on it
(task/api/futex/futex.rs), each one step under the lock of the set.

A waiter is a number, the identity of its `Arc`; what is stored in it is looked up in `waiters`.
A word in user memory is seen through what faulting its page in and loading it answers.  The
tables that make keys from addresses, the events that the woken tasks sleep on, log lines and the
values printed with a panic are left out.
-/

namespace Anemone.Futex

open Function (update)
open Checked (assert)

structure PrivateFutexKey where
  uspaceId : ℕ
  wordIdx : ℕ
deriving DecidableEq, Repr

structure SharedFutexKey where
  soId : ℕ
  wordIdx : ℕ
deriving DecidableEq, Repr

inductive FutexKey where
  | left (key : PrivateFutexKey)
  | right (key : SharedFutexKey)
deriving DecidableEq, Repr

structure FutexWaiter where
  key : FutexKey
  woken : Bool
  bitset : BitVec 32
deriving DecidableEq, Repr

/-- The errors that the operations return; `fault` is any error of faulting a page in. -/
inductive SysError where
  | again
  | interrupted
  | timeout
  | fault (code : ℕ)
deriving DecidableEq, Repr

structure FutexSet where
  privateFutexes : PrivateFutexKey → Option (List ℕ)
  sharedFutexes : SharedFutexKey → Option (List ℕ)
  waiters : ℕ → FutexWaiter

namespace FutexSet

variable (set : FutexSet)

def getFutex : FutexKey → Option (List ℕ)
  | .left key => set.privateFutexes key
  | .right key => set.sharedFutexes key

def putFutex (futex : Option (List ℕ)) : FutexKey → FutexSet
  | .left key => { set with privateFutexes := update set.privateFutexes key futex }
  | .right key => { set with sharedFutexes := update set.sharedFutexes key futex }

def existFutex (key : FutexKey) : Bool := (set.getFutex key).isSome

/-- The text of a failed assertion about a key. -/
def keyPanic (inPrivate inShared : String) : FutexKey → String
  | .left _ => inPrivate
  | .right _ => inShared

def createFutex (key : FutexKey) : Checked FutexSet := do
  assert (set.getFutex key = none)
    (keyPanic "futex already exists for private key, this should never happen"
      "futex already exists for shared key, this should never happen" key)
  pure (set.putFutex (some []) key)

def removeFutex (key : FutexKey) : Checked FutexSet := do
  assert (set.getFutex key ≠ none)
    (keyPanic "futex not found for private key, this should never happen"
      "futex not found for shared key, this should never happen" key)
  pure (set.putFutex none key)

/-- What `get_disjoint_mut` of the hash map panics with. -/
def duplicateKeys : Panic := ⟨"duplicate keys found"⟩

/-- Two queues of one map are borrowed together, which panics if they are the same one. -/
def get2Futex (key1 key2 : FutexKey) : Checked (Option (List ℕ) × Option (List ℕ)) :=
  if key1 = key2 ∧ set.existFutex key1 = true then .error duplicateKeys
  else pure (set.getFutex key1, set.getFutex key2)

/-- Make the queue of a key if it is asked for and missing. -/
def createIfMissing (create : Bool) (key : FutexKey) : Checked FutexSet :=
  if create = true ∧ set.existFutex key = false then set.createFutex key else pure set

def removeIfEmpty (key : FutexKey) (futex : List ℕ) : Checked FutexSet :=
  if futex = [] then set.removeFutex key else pure set

/-- Run `f` on the queue of a key, and drop the queue if it is empty then. -/
def withFutex {R : Type} (key : FutexKey) (create : Bool)
    (f : (ℕ → FutexWaiter) → List ℕ → R × (ℕ → FutexWaiter) × List ℕ) :
    Checked (Option R × FutexSet) := do
  let set ← set.createIfMissing create key
  match set.getFutex key with
  | none => pure (none, set)
  | some futex =>
    let (ret, waiters, futex) := f set.waiters futex
    let set : FutexSet := { set.putFutex (some futex) key with waiters }
    let set ← set.removeIfEmpty key futex
    pure (some ret, set)

/-- Run `f` on the queues of two keys, and drop those that are empty then.  If the first one is
missing, the second one stays as it was made. -/
def with2Futex {R : Type} (key1 key2 : FutexKey) (create2 : Bool)
    (f : (ℕ → FutexWaiter) → List ℕ → List ℕ → Checked (R × (ℕ → FutexWaiter) × List ℕ × List ℕ)) :
    Checked (Option R × FutexSet) := do
  let set ← set.createIfMissing create2 key2
  match ← set.get2Futex key1 key2 with
  | (some futex1, some futex2) =>
    let (ret, waiters, futex1, futex2) ← f set.waiters futex1 futex2
    let set : FutexSet :=
      { (set.putFutex (some futex1) key1).putFutex (some futex2) key2 with waiters }
    let set ← set.removeIfEmpty key1 futex1
    let set ← set.removeIfEmpty key2 futex2
    pure (some ret, set)
  | _ => pure (none, set)

end FutexSet

/-! ## The loops -/

def markWoken (waiters : ℕ → FutexWaiter) (waiter : ℕ) : ℕ → FutexWaiter :=
  update waiters waiter { waiters waiter with woken := true }

def setKey (waiters : ℕ → FutexWaiter) (waiter : ℕ) (key : FutexKey) : ℕ → FutexWaiter :=
  update waiters waiter { waiters waiter with key }

def wakeFront : ℕ → (ℕ → FutexWaiter) → List ℕ → ℕ × (ℕ → FutexWaiter) × List ℕ
  | 0, waiters, futex => (0, waiters, futex)
  | _ + 1, waiters, [] => (0, waiters, [])
  | n + 1, waiters, waiter :: futex =>
    let (woken, waiters, futex) := wakeFront n (markWoken waiters waiter) futex
    (woken + 1, waiters, futex)

/-- Wake up to `n` waiters whose bits meet `bitset`, after looking at `tests` of them at most.
The others go to the end. -/
def wakeMatching (bitset : BitVec 32) :
    ℕ → ℕ → (ℕ → FutexWaiter) → List ℕ → ℕ × (ℕ → FutexWaiter) × List ℕ
  | 0, _, waiters, futex => (0, waiters, futex)
  | _ + 1, 0, waiters, futex => (0, waiters, futex)
  | _ + 1, _ + 1, waiters, [] => (0, waiters, [])
  | tests + 1, n + 1, waiters, waiter :: futex =>
    if (waiters waiter).bitset &&& bitset = 0 then
      wakeMatching bitset tests (n + 1) waiters (futex ++ [waiter])
    else
      let (woken, waiters, futex) := wakeMatching bitset tests n (markWoken waiters waiter) futex
      (woken + 1, waiters, futex)

/-- Move waiters from the front of one queue to the end of another.  A waiter is moved before the
count is compared. -/
def requeueLoop (key2 : FutexKey) (nRequeue : ℕ) :
    ℕ → (ℕ → FutexWaiter) → List ℕ → List ℕ → ℕ × (ℕ → FutexWaiter) × List ℕ × List ℕ
  | nRequeued, waiters, [], futex2 => (nRequeued, waiters, [], futex2)
  | nRequeued, waiters, waiter :: futex1, futex2 =>
    if nRequeue ≤ nRequeued + 1 then
      (nRequeued + 1, setKey waiters waiter key2, futex1, futex2 ++ [waiter])
    else
      requeueLoop key2 nRequeue (nRequeued + 1) (setKey waiters waiter key2) futex1
        (futex2 ++ [waiter])

/-! ## The operations -/

namespace FutexSet

variable (set : FutexSet)

def wakeAt (key : FutexKey) (nWaiters : ℕ) : Checked (ℕ × FutexSet) := do
  let (woken, set) ← set.withFutex key false (wakeFront nWaiters)
  pure (woken.getD 0, set)

/-- What the word of a dead task asks for: its page cannot be faulted in, it belongs to another
task, or it is marked, and has waiters or not. -/
inductive DeadWord where
  | fault (code : ℕ)
  | otherOwner
  | marked (hasWaiters : Bool)
deriving DecidableEq, Repr

/-- How many waiters the word of a dead task wakes. -/
def DeadWord.wakes : DeadWord → ℕ
  | .marked true => 1
  | _ => 0

def handleFutexDeath (key : FutexKey) (word : DeadWord) : Checked FutexSet := do
  let (_, set) ← set.withFutex key true (wakeFront word.wakes)
  pure set

def futexWake (key : FutexKey) (nWaiters : ℕ) (bitset : Option (BitVec 32)) :
    Checked (ℕ × FutexSet) := do
  let bitset := bitset.getD (BitVec.allOnes 32)
  let (woken, set) ← set.withFutex key false fun waiters futex =>
    -- the length is cast to 32 bits
    wakeMatching bitset (futex.length % 2 ^ 32) nWaiters waiters futex
  pure (woken.getD 0, set)

/-- The part of `futex_wait` under the lock: the answer is the error, or that a waiter is queued. -/
def futexWait (waiter : ℕ) (key : FutexKey) (val : BitVec 32) (bitset : Option (BitVec 32))
    (word : Except SysError (BitVec 32)) : Checked (Except SysError Unit × FutexSet) := do
  let (queued, set) ← set.withFutex key true fun waiters futex =>
    match word with
    | .error error => (.error error, waiters, futex)
    | .ok value =>
      if value ≠ val then (.error .again, waiters, futex)
      else
        (.ok (), update waiters waiter
          { key, woken := false, bitset := bitset.getD (BitVec.allOnes 32) }, futex ++ [waiter])
  let queued ← Checked.expect queued "called `Option::unwrap()` on a `None` value"
  pure (queued, set)

/-- Whether a wait that was interrupted or timed out counts as woken after all. -/
def handleWaitException (waiter : ℕ) : Checked (Bool × FutexSet) :=
  let key := (set.waiters waiter).key
  match set.getFutex key with
  | none => pure (true, set)
  | some futex =>
    if (set.waiters waiter).woken = true then pure (true, set)
    else
      match futex.findIdx? (fun other => other == waiter) with
      | none => .error ⟨"futex: inconsistency between key and waiter list."⟩
      | some pos => do
        let futex := futex.eraseIdx pos
        let set := set.putFutex (some futex) key
        let set ← set.removeIfEmpty key futex
        pure (false, set)

def addCounts (a b : ℕ) : Checked ℕ :=
  if a + b < 2 ^ 32 then pure (a + b) else .error ⟨"attempt to add with overflow"⟩

/-- What is done to the two queues: nothing if the word cannot be read or does not match. -/
def requeueQueues (key2 : FutexKey) (nWake nRequeue : ℕ) (cmpVal : Option (BitVec 32))
    (word : Except SysError (BitVec 32)) (waiters : ℕ → FutexWaiter) (futex1 futex2 : List ℕ) :
    Checked (Except SysError ℕ × (ℕ → FutexWaiter) × List ℕ × List ℕ) :=
  match word with
  | .error error => pure (.error error, waiters, futex1, futex2)
  | .ok value =>
    if cmpVal.any (fun val => decide (value ≠ val)) = true then
      pure (.error .again, waiters, futex1, futex2)
    else do
      let (nWoken, waiters, futex1) := wakeFront nWake waiters futex1
      let (nRequeued, waiters, futex1, futex2) :=
        requeueLoop key2 nRequeue 0 waiters futex1 futex2
      let handled ← addCounts nWoken nRequeued
      pure (.ok handled, waiters, futex1, futex2)

def futexCmpRequeue (key1 key2 : FutexKey) (nWake nRequeue : ℕ) (cmpVal : Option (BitVec 32))
    (word : Except SysError (BitVec 32)) : Checked (Except SysError ℕ × FutexSet) := do
  let (ret, set) ← set.with2Futex key1 key2 true
    (requeueQueues key2 nWake nRequeue cmpVal word)
  pure (ret.getD (.ok 0), set)

end FutexSet

/-! ## Waits -/

inductive Stage where
  | fresh
  | waiting
  | returned (result : Except SysError Unit)
deriving DecidableEq

structure System where
  set : FutexSet
  stages : ℕ → Stage

namespace System

variable (s : System)

/-- What is done under the lock.  An interrupted or timed out wait goes on with `exception`. -/
inductive Op where
  | wait (waiter : ℕ) (key : FutexKey) (val : BitVec 32) (bitset : Option (BitVec 32))
      (word : Except SysError (BitVec 32))
  | wake (key : FutexKey) (nWaiters : ℕ) (bitset : Option (BitVec 32))
  | wakeAt (key : FutexKey) (nWaiters : ℕ)
  | futexDeath (key : FutexKey) (word : FutexSet.DeadWord)
  | requeue (key1 key2 : FutexKey) (nWake nRequeue : ℕ) (cmpVal : Option (BitVec 32))
      (word : Except SysError (BitVec 32))
  | exception (waiter : ℕ) (error : SysError)
  | complete (waiter : ℕ)

/-- A new waiter is new, and only a wait that has not returned goes on.  The sleep of a waiter
ends without an exception only if it is marked woken (the predicate of `listen`). -/
def Enabled : Op → Prop
  | .wait waiter _ _ _ _ => s.stages waiter = .fresh
  | .exception waiter _ => s.stages waiter = .waiting
  | .complete waiter => s.stages waiter = .waiting ∧ (s.set.waiters waiter).woken = true
  | _ => True

def run : Op → Checked System
  | .wait waiter key val bitset word => do
    let (queued, set) ← s.set.futexWait waiter key val bitset word
    let stage := match queued with
      | .ok () => Stage.waiting
      | .error error => .returned (.error error)
    pure { set, stages := update s.stages waiter stage }
  | .wake key nWaiters bitset => do
    let (_, set) ← s.set.futexWake key nWaiters bitset
    pure { s with set }
  | .wakeAt key nWaiters => do
    let (_, set) ← s.set.wakeAt key nWaiters
    pure { s with set }
  | .futexDeath key word => do
    let set ← s.set.handleFutexDeath key word
    pure { s with set }
  | .requeue key1 key2 nWake nRequeue cmpVal word => do
    let (_, set) ← s.set.futexCmpRequeue key1 key2 nWake nRequeue cmpVal word
    pure { s with set }
  | .exception waiter error => do
    let (woken, set) ← s.set.handleWaitException waiter
    let result := if woken = true then .ok () else .error error
    pure { set, stages := update s.stages waiter (.returned result) }
  | .complete waiter =>
    pure { s with stages := update s.stages waiter (.returned (.ok ())) }

def Step (s : System) (op : Op) (t : System) : Prop := s.Enabled op ∧ s.run op = .ok t

structure Start (s : System) : Prop where
  queues : ∀ key, s.set.getFutex key = none
  stages : ∀ waiter, s.stages waiter = .fresh
  woken : ∀ waiter, (s.set.waiters waiter).woken = false

end System

end Anemone.Futex
