import Anemone.Model.SleepingMutex

/-!
# What a mutex guarantees

The lock word belongs to one task at a time, from the step that takes it to the step that
clears it.  And nobody sleeps on a mutex that is free and forgotten.
-/

namespace Anemone.Sched

/-- The task has taken the lock word and not cleared it. -/
def LockStage.owns : LockStage → Bool
  | .won _ | .wonCancelled _ | .wonCleaned _ | .wonRetiring _ | .acquired | .guard
  | .unlocking => true
  | _ => false

/-- A task in this stage was woken, and has not tried the lock word since. -/
def LockStage.wokenIn (r : Rounds) : LockStage → Prop
  | .slow again => again = true
  | .begun again token | .registered again token => again = true ∨ r.statuses token ≠ .armed
  | .failed token => r.statuses token ≠ .armed
  | .resumed _ | .cleaned _ | .retiring _ => True
  | _ => False

namespace MutexSystem

/-- The task sleeps in `lock`, and its round is armed. -/
def Parked (s : MutexSystem) (task : ℕ) : Prop :=
  ∃ token, s.stage task = .failed token ∧ s.rounds.statuses token = .armed

/-- The task was woken in `lock`, and is to try the lock word again. -/
def Woken (s : MutexSystem) (task : ℕ) : Prop := (s.stage task).wokenIn s.rounds

/-- The task has cleared the lock word, and has not yet woken anybody for it. -/
def StillToPublish (s : MutexSystem) (task : ℕ) : Prop :=
  ∃ i p, s.stage task = .publishing i ∧ s.system.publishes[i]? = some p ∧
    p.exclusiveSuccess = 0 ∧ p.phase ≠ .returned

structure Sound (s : MutexSystem) : Prop where
  /-- One task has the lock word, and so at most one guard exists. -/
  exclusive : ∀ task task', (s.stage task).owns → (s.stage task').owns → task = task'
  locker : ∀ task, s.stage task = .guard → s.locker = some task ∧ s.locked = true
  calm : ∀ task reason, s.stage task ≠ .panicked reason
  /-- If the lock is free and a task is parked, somebody is on the way. -/
  awake : s.locked = false → (∃ task, s.Parked task) →
    (∃ task, s.StillToPublish task) ∨ ∃ task, s.Woken task

end MutexSystem

end Anemone.Sched
