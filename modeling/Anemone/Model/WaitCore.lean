import Anemone.Library.Checked

/-!
# The wait core

A task that waits is `Waiting` on a wait state (sched/wait.rs), one for each round, and a wait
state is armed until it is completed, cancelled or retired.  Every call holds the lock of the task
while it looks at the status, and is one transaction on both.  A wait state is a number: what the
source compares by `Arc::ptr_eq` has one number each.
-/

namespace Anemone.Sched

open Function (update)

inductive ParkState where
  | prePark
  | parked
deriving DecidableEq, Repr

inductive WaitReason where
  | event
  | latch
  | timeout
  | signal
  | force
  | predicateReady
  | cancelled
deriving DecidableEq, Repr

inductive WakeMode where
  | interruptibleOnly
  | anyWait
  | force
deriving DecidableEq, Repr

def WakeMode.allows (mode : WakeMode) (interruptible : Bool) : Bool :=
  match mode with
  | .interruptibleOnly => interruptible
  | .anyWait | .force => true

inductive WaitStateStatus where
  | armed
  | completed (reason : WaitReason)
  | cancelled (reason : WaitReason)
  | retired
deriving DecidableEq, Repr

inductive TaskSchedState where
  | runnable
  | waiting (state : ℕ) (interruptible : Bool) (park : ParkState)
  | zombie
deriving DecidableEq, Repr

/-! ## Wait states -/

inductive WaitTransition where
  | completed
  | alreadyCompleted (reason : WaitReason)
  | alreadyCancelled (reason : WaitReason)
  | retired
deriving DecidableEq, Repr

inductive WaitResult where
  | cancelled (reason : WaitReason)
  | completed (reason : WaitReason)
  | retired
  | stale
deriving DecidableEq, Repr

def WaitResult.fromStatus : WaitStateStatus → WaitResult
  | .armed => .stale
  | .completed reason => .completed reason
  | .cancelled reason => .cancelled reason
  | .retired => .retired

inductive WaitOutcome where
  | armed
  | completed (reason : WaitReason)
  | cancelled (reason : WaitReason)
  | retired
deriving DecidableEq, Repr

def WaitOutcome.fromStatus : WaitStateStatus → WaitOutcome
  | .armed => .armed
  | .completed reason => .completed reason
  | .cancelled reason => .cancelled reason
  | .retired => .retired

abbrev Statuses : Type := ℕ → WaitStateStatus

namespace WaitState

def cancelIfArmed (status : WaitStateStatus) (reason : WaitReason) :
    WaitResult × WaitStateStatus :=
  match status with
  | .armed => (.cancelled reason, .cancelled reason)
  | .completed reason => (.completed reason, status)
  | .cancelled reason => (.cancelled reason, status)
  | .retired => (.retired, status)

def completeIfArmed (status : WaitStateStatus) (reason : WaitReason) :
    WaitTransition × WaitStateStatus :=
  match status with
  | .armed => (.completed, .completed reason)
  | .completed reason => (.alreadyCompleted reason, status)
  | .cancelled reason => (.alreadyCancelled reason, status)
  | .retired => (.retired, status)

def retire (status : WaitStateStatus) : WaitOutcome × WaitStateStatus :=
  (.fromStatus status, .retired)

end WaitState

/-! ## Transactions on a task -/

def beginWait (sched : TaskSchedState) (state : ℕ) (interruptible : Bool) :
    Checked TaskSchedState :=
  match sched with
  | .runnable => pure (.waiting state interruptible .prePark)
  | .waiting _ _ _ => .error ⟨"begin_wait nested active wait"⟩
  | .zombie => .error ⟨"begin_wait requires a runnable task"⟩

def cancelWait (sched : TaskSchedState) (statuses : Statuses) (guard : ℕ) (reason : WaitReason) :
    WaitResult × TaskSchedState × Statuses :=
  match sched with
  | .waiting state interruptible park =>
    if state = guard then
      let (result, status) := WaitState.cancelIfArmed (statuses guard) reason
      match result with
      | .cancelled _ => (result, .runnable, update statuses guard status)
      | _ => (result, .waiting state interruptible park, update statuses guard status)
    else (.fromStatus (statuses guard), sched, statuses)
  | _ => (.fromStatus (statuses guard), sched, statuses)

/-- The transaction of `finish_wait`; without an outcome, the guard's wait state is retired
after it. -/
def finishWait (sched : TaskSchedState) (statuses : Statuses) (guard : ℕ) :
    Option WaitOutcome × TaskSchedState × Statuses :=
  match sched with
  | .waiting state _ _ =>
    if state = guard then
      let (outcome, status) := WaitState.retire (statuses guard)
      (some outcome, .runnable, update statuses guard status)
    else (none, sched, statuses)
  | _ => (none, sched, statuses)

inductive WakeCommit where
  | woke (park : ParkState)
  | modeBlocked
  | stale
  | alreadyCompleted (reason : WaitReason)
  | alreadyCancelled (reason : WaitReason)
  | retired
deriving DecidableEq, Repr

def WakeCommit.ofTransition : WaitTransition → Checked WakeCommit
  | .completed => .error ⟨"new completion must carry park state"⟩
  | .alreadyCompleted reason => pure (.alreadyCompleted reason)
  | .alreadyCancelled reason => pure (.alreadyCancelled reason)
  | .retired => pure .retired

/-- The transaction of a wake-up: of the round of a token, or of whatever round it is. -/
def commitWake (sched : TaskSchedState) (statuses : Statuses) (token : Option ℕ)
    (reason : WaitReason) (mode : WakeMode) : Checked (WakeCommit × TaskSchedState × Statuses) :=
  match sched with
  | .waiting state interruptible park =>
    if token = none ∨ token = some state then
      match statuses state with
      | .completed reason => pure (.alreadyCompleted reason, sched, statuses)
      | .cancelled reason => pure (.alreadyCancelled reason, sched, statuses)
      | .retired => pure (.retired, sched, statuses)
      | .armed =>
        if mode.allows interruptible then
          let (transition, status) := WaitState.completeIfArmed (statuses state) reason
          match transition with
          | .completed => pure (.woke park, .runnable, update statuses state status)
          | transition => do
            let commit ← WakeCommit.ofTransition transition
            pure (commit, sched, update statuses state status)
        else pure (.modeBlocked, sched, statuses)
    else pure (.stale, sched, statuses)
  | _ => pure (.stale, sched, statuses)

def requeuePermitIfModeBlocked (sched : TaskSchedState) (statuses : Statuses) (token : ℕ)
    (mode : WakeMode) : Bool :=
  match sched with
  | .waiting state interruptible _ =>
    state = token && statuses state = .armed && !mode.allows interruptible
  | _ => false

inductive WakeResult where
  | woke
  | modeBlocked
  | stale
  | alreadyCompleted (reason : WaitReason)
  | alreadyCancelled (reason : WaitReason)
  | retired
deriving DecidableEq, Repr

/-- `finish_wake_attempt`: the result, and the placement that is submitted before it. -/
def finishWakeAttempt : WakeCommit → WakeResult × Option ParkState
  | .woke park => (.woke, some park)
  | .modeBlocked => (.modeBlocked, none)
  | .stale => (.stale, none)
  | .alreadyCompleted reason => (.alreadyCompleted reason, none)
  | .alreadyCancelled reason => (.alreadyCancelled reason, none)
  | .retired => (.retired, none)

/-! ## The decision of the scheduler -/

inductive ScheduleMode where
  | waitSleep (token : ℕ)
  | preempt
  | yield
  | idle
  | zombie
deriving DecidableEq, Repr

inductive ScheduleDecision where
  | yielded
  | preempted
  | idle
  | waitCoreParked (state : ℕ) (interruptible : Bool)
  | zombie
  | abortWaitSleep
  | deferredPreempt
deriving DecidableEq, Repr

def decideSchedule (mode : ScheduleMode) (sched : TaskSchedState) (statuses : Statuses) :
    Checked (TaskSchedState × ScheduleDecision) :=
  match sched with
  | .runnable =>
    match mode with
    | .waitSleep token =>
      if statuses token ≠ .armed then pure (.runnable, .abortWaitSleep)
      else .error ⟨"schedule_wait_sleep requires current wait round"⟩
    | .preempt => pure (.runnable, .preempted)
    | .yield => pure (.runnable, .yielded)
    | .idle => pure (.runnable, .idle)
    | .zombie => pure (.zombie, .zombie)
  | .waiting state interruptible .prePark =>
    match mode with
    | .waitSleep token =>
      if token = state then
        pure (.waiting state interruptible .parked, .waitCoreParked state interruptible)
      else .error ⟨"schedule_wait_sleep token mismatch"⟩
    | .preempt => pure (.waiting state interruptible .prePark, .deferredPreempt)
    | .yield => .error ⟨"schedule_yield cannot consume wait-core PrePark"⟩
    | .idle => .error ⟨"schedule_idle cannot consume wait-core PrePark"⟩
    | .zombie => .error ⟨"schedule_zombie_never_return cannot consume wait-core PrePark"⟩
  | .waiting state interruptible .parked =>
    match mode with
    | .waitSleep token =>
      if token = state then
        pure (.waiting state interruptible .parked, .waitCoreParked state interruptible)
      else .error ⟨"schedule_wait_sleep token mismatch on parked wait"⟩
    | .preempt => .error ⟨"schedule_preempt observed parked wait current task"⟩
    | .yield => .error ⟨"schedule_yield cannot consume wait-core Parked state"⟩
    | .idle => .error ⟨"schedule_idle cannot consume wait-core Parked state"⟩
    | .zombie => .error ⟨"schedule_zombie_never_return cannot consume wait-core Parked state"⟩
  | .zombie =>
    match mode with
    | .waitSleep _ => .error ⟨"schedule_wait_sleep cannot schedule zombie current task"⟩
    | .preempt => .error ⟨"schedule_preempt cannot preempt zombie current task"⟩
    | .yield => .error ⟨"schedule_yield requires runnable current task"⟩
    | .idle => .error ⟨"schedule_idle requires runnable current task"⟩
    | .zombie => .error ⟨"schedule_zombie_never_return cannot re-enter zombie current task"⟩

end Anemone.Sched
