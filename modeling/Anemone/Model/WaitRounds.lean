import Anemone.Model.WaitCore

/-!
# Tasks, rounds and producers

A guard is what a waiter holds between `begin_wait` and `finish_wait`; producers hold tokens, of
any round that was begun.  What a call does after its transaction is a step of its own:
`finish_wait` retires a wait state, and a wake-up submits its placement.  `Label` is what the
caller of a step sees.
-/

namespace Anemone.Sched

structure Rounds where
  sched : ℕ → TaskSchedState
  statuses : Statuses
  nextState : ℕ
  /-- Tasks and wait states of the guards that are held. -/
  guards : List (ℕ × ℕ)
  /-- Calls of `finish_wait` that are to retire their wait state. -/
  retiring : List (ℕ × ℕ)
  /-- Wake-ups that are to be placed: the task, the wait state and how it was parked. -/
  submits : List (ℕ × ℕ × ParkState)

def waitingOn : TaskSchedState → Option ℕ
  | .waiting state _ _ => some state
  | .runnable | .zombie => none

namespace Rounds

inductive Label where
  | beginWait (task state : ℕ)
  | cancelWait (task state : ℕ) (result : WaitResult)
  | finishWait (task state : ℕ) (outcome : Option WaitOutcome)
  | retire (task state : ℕ) (outcome : WaitOutcome)
  /-- A wake-up with a token or without, the round it is about, and what it has done. -/
  | wake (task : ℕ) (token waitId : Option ℕ) (commit : WakeCommit)
  /-- The placement is submitted, and the call returns `Woke`. -/
  | submit (task state : ℕ) (park : ParkState)
  | permit (task token : ℕ) (granted : Bool)
  | schedule (task : ℕ) (mode : ScheduleMode)
deriving DecidableEq, Repr

def setSched (s : Rounds) (task : ℕ) (sched : TaskSchedState) (statuses : Statuses) : Rounds :=
  { s with sched := Function.update s.sched task sched, statuses := statuses }

/-- The placements that are to be submitted after a wake-up. -/
def pending (s : Rounds) (task : ℕ) (waitId : Option ℕ) (commit : WakeCommit) :
    List (ℕ × ℕ × ParkState) :=
  match waitId, (finishWakeAttempt commit).2 with
  | some state, some park => (task, state, park) :: s.submits
  | _, _ => s.submits

inductive Step (s : Rounds) : Label → Rounds → Prop
  | beginWait {task : ℕ} {interruptible : Bool} {sched : TaskSchedState}
      (h : Sched.beginWait (s.sched task) s.nextState interruptible = .ok sched) :
      Step s (.beginWait task s.nextState)
        { s.setSched task sched (Function.update s.statuses s.nextState .armed) with
          nextState := s.nextState + 1
          guards := (task, s.nextState) :: s.guards }
  | cancelWait {task state : ℕ} {reason : WaitReason} {result : WaitResult}
      {sched : TaskSchedState} {statuses : Statuses} (held : (task, state) ∈ s.guards)
      (h : Sched.cancelWait (s.sched task) s.statuses state reason = (result, sched, statuses)) :
      Step s (.cancelWait task state result) (s.setSched task sched statuses)
  | finishWait {before after : List (ℕ × ℕ)} {task state : ℕ} {outcome : Option WaitOutcome}
      {sched : TaskSchedState} {statuses : Statuses}
      (held : s.guards = before ++ (task, state) :: after)
      (h : Sched.finishWait (s.sched task) s.statuses state = (outcome, sched, statuses)) :
      Step s (.finishWait task state outcome) { s.setSched task sched statuses with
          guards := before ++ after
          retiring := if outcome.isSome then s.retiring else (task, state) :: s.retiring }
  | retire {before after : List (ℕ × ℕ)} {task state : ℕ}
      (called : s.retiring = before ++ (task, state) :: after) :
      Step s (.retire task state (WaitState.retire (s.statuses state)).1) { s with
          statuses := Function.update s.statuses state (WaitState.retire (s.statuses state)).2
          retiring := before ++ after }
  | wake {task : ℕ} {token : Option ℕ} {reason : WaitReason} {mode : WakeMode}
      {commit : WakeCommit} {sched : TaskSchedState} {statuses : Statuses}
      (begun : ∀ state, token = some state → state < s.nextState)
      (h : commitWake (s.sched task) s.statuses token reason mode = .ok (commit, sched, statuses)) :
      Step s (.wake task token (token.or (waitingOn (s.sched task))) commit)
        { s.setSched task sched statuses with
          submits := s.pending task (token.or (waitingOn (s.sched task))) commit }
  | submit {before after : List (ℕ × ℕ × ParkState)} {task state : ℕ} {park : ParkState}
      (called : s.submits = before ++ (task, state, park) :: after) :
      Step s (.submit task state park) { s with submits := before ++ after }
  | permit {task token : ℕ} {mode : WakeMode} (begun : token < s.nextState) :
      Step s (.permit task token
        (requeuePermitIfModeBlocked (s.sched task) s.statuses token mode)) s
  | schedule {task : ℕ} {mode : ScheduleMode} {sched : TaskSchedState}
      {decision : ScheduleDecision}
      (h : decideSchedule mode (s.sched task) s.statuses = .ok (sched, decision)) :
      Step s (.schedule task mode) (s.setSched task sched s.statuses)

structure Start (s : Rounds) : Prop where
  sched : ∀ task, waitingOn (s.sched task) = none
  nextState : s.nextState = 0
  guards : s.guards = []
  retiring : s.retiring = []
  submits : s.submits = []

end Rounds

end Anemone.Sched
