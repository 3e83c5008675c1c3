import Anemone.Model.WaitRounds

/-!
# One winner

What a run of the wait core shows of one round: how often it leaves `Armed`, what it leaves it
for, how many producers have ended it and how many placements were submitted for it.
-/

namespace Anemone.Sched.Rounds

open Run (last)

abbrev History : Type := List (Label × Rounds)

/-- The step takes the round out of `Armed`. -/
def Leaves (state : ℕ) (s t : Rounds) : Prop :=
  s.statuses state = .armed ∧ t.statuses state ≠ .armed ∧ state < t.nextState

instance (state : ℕ) (s t : Rounds) : Decidable (Leaves state s t) := instDecidableAnd

/-- How often the round leaves `Armed`. -/
def leaves (state : ℕ) : Rounds → History → ℕ
  | _, [] => 0
  | s, (_, t) :: path => (if Leaves state s t then 1 else 0) + leaves state t path

/-- How a round ends: completed, cancelled, or retired while it was armed. -/
def ending : WaitStateStatus → WaitOutcome
  | .completed reason => .completed reason
  | .cancelled reason => .cancelled reason
  | .retired | .armed => .armed

/-- How the round leaves `Armed` for the first time. -/
def firstLeave (state : ℕ) : Rounds → History → Option WaitOutcome
  | _, [] => none
  | s, (_, t) :: path =>
    if Leaves state s t then some (ending (t.statuses state)) else firstLeave state t path

/-- The round that a step has woken somebody from. -/
def Label.woke : Label → Option ℕ
  | .wake _ _ waitId (.woke _) => waitId
  | _ => none

/-- The round that a placement was submitted for. -/
def Label.placed : Label → Option ℕ
  | .submit _ state _ => some state
  | _ => none

/-- The round that `finish_wait` has ended, and the outcome it returns. -/
def Label.finished : Label → Option (ℕ × WaitOutcome)
  | .finishWait _ state (some outcome) => some (state, outcome)
  | .retire _ state outcome => some (state, outcome)
  | _ => none

def wokes (state : ℕ) (path : History) : ℕ :=
  (path.filter fun x => x.1.woke = some state).length

/-- How many placements were submitted for the round. -/
def placements (state : ℕ) (path : History) : ℕ :=
  (path.filter fun x => x.1.placed = some state).length

/-- The wake-ups of the round that are to be placed. -/
def unplaced (state : ℕ) (s : Rounds) : ℕ := (s.submits.filter fun x => x.2.1 = state).length

def completes : WaitOutcome → Bool
  | .completed _ => true
  | _ => false

structure OneWinner (s : Rounds) (path : History) : Prop where
  armed : ∀ task state, waitingOn ((last s path).sched task) = some state →
    (last s path).statuses state = .armed
  /-- A round that has begun leaves `Armed` once. -/
  once : ∀ state, state < (last s path).nextState →
    leaves state s path = if (last s path).statuses state = .armed then 0 else 1
  /-- One producer has woken the task if the round was completed, and none otherwise. -/
  winner : ∀ state, wokes state path =
    if (firstLeave state s path).any completes then 1 else 0
  placed : ∀ state, placements state path + unplaced state (last s path) = wokes state path
  /-- The outcome that `finish_wait` returns is how the round has left `Armed`. -/
  outcome : ∀ before after x state outcome, path = before ++ x :: after →
    x.1.finished = some (state, outcome) → firstLeave state s (before ++ [x]) = some outcome
  token : ∀ before after task token waitId commit t,
    path = before ++ (.wake task (some token) waitId commit, t) :: after →
    ∀ state, state ≠ token → t.statuses state = (last s before).statuses state ∧
      ∀ task', waitingOn ((last s before).sched task') = some state →
        t.sched task' = (last s before).sched task'

end Anemone.Sched.Rounds
