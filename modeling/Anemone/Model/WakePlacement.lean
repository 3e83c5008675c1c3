import Anemone.Model.WaitCore

/-!
# One task and its CPU

A task belongs to one CPU (sched/mod.rs, processor.rs): it is the current task, or on the run
queue, or neither.  Who completes its wait has to see to it that it gets on the run queue
(`submit_wake_placement`): at once on its own CPU, by a message from another one.  The CPU handles
messages with interrupts enabled only.  The task is not the idle task, which is on no run queue.
-/

namespace Anemone.Sched

open Checked (assert)

/-- What the CPU of the task does. -/
inductive Cpu where
  /-- It runs the task, or an interrupt handler over it. -/
  | running (irq : Bool)
  /-- It is in `schedule_inner`, where the task has parked and is to be looked at again. -/
  | parking (state : ℕ) (interruptible : Bool)
  /-- The task is switched out, and the next one is not yet set. -/
  | scheduler
  | elsewhere (irq : Bool)
deriving DecidableEq, Repr

/-- Where the task is between `begin_wait` and the end of `finish_wait`. -/
inductive Round where
  | idle
  | active (state : ℕ)
  | retiring (state : ℕ)
deriving DecidableEq, Repr

/-- Where a call is made: on the CPU of the task or on another. -/
inductive Site where
  | owner
  | other
deriving DecidableEq, Repr

inductive IpiPayload where
  | enqueueNewTask
  | wakeUpTaskStaleSafe (park : ParkState)
deriving DecidableEq, Repr

structure TaskPlacement where
  sched : TaskSchedState
  statuses : Statuses
  nextState : ℕ
  round : Round
  cpu : Cpu
  /-- How often the task is on the run queue. -/
  queued : ℕ
  /-- The wake-ups that are committed and not yet placed, and where their callers are. -/
  submits : List (Site × ParkState)
  ipis : List IpiPayload
  published : Bool

namespace TaskPlacement

variable (s : TaskPlacement)

def isLocalCurrentTask : Bool :=
  match s.cpu with
  | .running _ | .parking _ _ | .scheduler => true
  | .elsewhere _ => false

/-! ## The run queue -/

def localEnqueueNewTask : Checked TaskPlacement := do
  assert (s.sched = .runnable) "assertion failed: task.is_sched_runnable()"
  if s.isLocalCurrentTask then pure s
  else if s.queued = 0 then pure { s with queued := s.queued + 1 }
  else pure s

inductive WakeEnqueueResult where
  | stale
  | alreadyCurrent
  | parkPending
  | alreadyQueued
  | enqueued
deriving DecidableEq, Repr

def localWakeEnqueue (park : ParkState) : WakeEnqueueResult × TaskPlacement :=
  if s.sched ≠ .runnable then (.stale, s)
  else if s.isLocalCurrentTask then
    match park with
    | .prePark => (.alreadyCurrent, s)
    | .parked => (.parkPending, s)
  else if s.queued ≠ 0 then (.alreadyQueued, s)
  else (.enqueued, { s with queued := s.queued + 1 })

def requeueCurrentWith : Checked TaskPlacement := do
  assert (s.sched = .runnable) "assertion failed: task.is_sched_runnable()"
  assert (s.isLocalCurrentTask = true)
    "only the current running task can be requeued through this path"
  assert (s.queued = 0) "current running task should not already be on run queue"
  pure { s with queued := s.queued + 1 }

def putPrevCurrentWith : Checked TaskPlacement := do
  assert (s.isLocalCurrentTask = true) "only the current running task can be put through this path"
  assert (s.queued = 0) "current running task should not already be on run queue"
  pure s

/-- The task is what `local_pick_next` picks. -/
def localPickNext : Checked TaskPlacement := do
  assert (s.sched = .runnable) "assertion failed: task.is_sched_runnable()"
  pure { s with queued := s.queued - 1, cpu := .running false }

def submitWakePlacement (site : Site) (park : ParkState) : TaskPlacement :=
  match site with
  | .owner => (s.localWakeEnqueue park).2
  | .other => { s with ipis := s.ipis ++ [.wakeUpTaskStaleSafe park] }

def enqueueNewTask (site : Site) : Checked TaskPlacement := do
  assert (s.sched = .runnable) "assertion failed: task.is_sched_runnable()"
  match site with
  | .owner => s.localEnqueueNewTask
  | .other => pure { s with ipis := s.ipis ++ [.enqueueNewTask] }

def handleIpi : IpiPayload → Checked TaskPlacement
  | .enqueueNewTask => s.localEnqueueNewTask
  | .wakeUpTaskStaleSafe park => pure (s.localWakeEnqueue park).2

/-! ## Scheduling -/

/-- `schedule_inner` until it switches, returns, or has parked the task. -/
def scheduleInner (mode : ScheduleMode) : Checked TaskPlacement := do
  let (sched, decision) ← decideSchedule mode s.sched s.statuses
  let s := { s with sched := sched }
  match decision with
  | .yielded | .preempted => do
    let s ← s.requeueCurrentWith
    pure { s with cpu := .scheduler }
  | .idle => .error ⟨"assertion failed: curr.flags().is_idle()"⟩
  | .waitCoreParked state interruptible => pure { s with cpu := .parking state interruptible }
  | .zombie => do
    let s ← s.putPrevCurrentWith
    pure { s with cpu := .scheduler }
  | .abortWaitSleep | .deferredPreempt => pure s

/-- `schedule_inner` after it has parked the task, up to the switch. -/
def afterPark (state : ℕ) (interruptible : Bool) : Checked TaskPlacement :=
  match s.sched with
  | .runnable => do
    let s ← s.requeueCurrentWith
    pure { s with cpu := .scheduler }
  | .waiting observed observedInterruptible _ =>
    if observed = state then do
      assert (observedInterruptible = interruptible)
        "assertion failed: observed_interruptible == interruptible"
      let s ← s.putPrevCurrentWith
      pure { s with cpu := .scheduler }
    else .error ⟨"schedule observed a different wait round after parking"⟩
  | .zombie => .error ⟨"zombie state observed after wait-core park"⟩

/-! ## Calls -/

inductive Call where
  | publish (site : Site)
  | beginWait (interruptible : Bool)
  | cancelWait (reason : WaitReason)
  | finishWait
  | retire
  | waitSleep
  | afterPark
  | preempt
  | yield
  | zombie
  | setIrq (irq : Bool)
  /-- The scheduler picks the task, or another one. -/
  | pick (this : Bool)
  /-- `wake_wait` of a token, or `wake_active_wait`. -/
  | wake (site : Site) (token : Option ℕ) (reason : WaitReason) (mode : WakeMode)
  | submit (before after : List (Site × ParkState)) (site : Site) (park : ParkState)
  | deliver (before after : List IpiPayload) (payload : IpiPayload)
deriving DecidableEq, Repr

/-- The CPU is in the code of some task or handler, and not in the scheduler. -/
def InCode : Cpu → Prop
  | .running _ | .elsewhere _ => True
  | .parking _ _ | .scheduler => False

/-- When a call can be made.  The task follows the protocol: it begins a wait only after the
last one is finished, sleeps in a wait only, and neither yields nor exits in one. -/
def Enabled : Call → Prop
  | .publish site => s.published = false ∧ (site = .owner → InCode s.cpu)
  | .beginWait _ => (∃ irq, s.cpu = .running irq) ∧ s.round = .idle
  | .cancelWait _ | .finishWait => (∃ irq, s.cpu = .running irq) ∧ ∃ state, s.round = .active state
  | .retire => (∃ irq, s.cpu = .running irq) ∧ ∃ state, s.round = .retiring state
  | .waitSleep => s.cpu = .running false ∧ ∃ state, s.round = .active state
  | .afterPark => ∃ state interruptible, s.cpu = .parking state interruptible
  | .preempt => ∃ irq, s.cpu = .running irq
  | .yield | .zombie => s.cpu = .running false ∧ s.round = .idle
  | .setIrq _ => InCode s.cpu
  | .pick this => (s.cpu = .scheduler ∨ ∃ irq, s.cpu = .elsewhere irq) ∧ (this = true → 0 < s.queued)
  | .wake site _ _ _ => site = .owner → InCode s.cpu
  | .submit before after site park =>
    s.submits = before ++ (site, park) :: after ∧ (site = .owner → InCode s.cpu)
  | .deliver before after payload =>
    s.ipis = before ++ payload :: after ∧ (s.cpu = .running true ∨ s.cpu = .elsewhere true)

def run : Call → Checked TaskPlacement
  | .publish site => ({ s with published := true } : TaskPlacement).enqueueNewTask site
  | .beginWait interruptible => do
    let sched ← Sched.beginWait s.sched s.nextState interruptible
    pure { s with
      sched := sched
      statuses := Function.update s.statuses s.nextState .armed
      nextState := s.nextState + 1
      round := .active s.nextState }
  | .cancelWait reason =>
    match s.round with
    | .active state =>
      let (_, sched, statuses) := Sched.cancelWait s.sched s.statuses state reason
      pure { s with sched := sched, statuses := statuses }
    | _ => pure s
  | .finishWait =>
    match s.round with
    | .active state =>
      match Sched.finishWait s.sched s.statuses state with
      | (some _, sched, statuses) => pure { s with sched := sched, statuses := statuses, round := .idle }
      | (none, sched, statuses) =>
        pure { s with sched := sched, statuses := statuses, round := .retiring state }
    | _ => pure s
  | .retire =>
    match s.round with
    | .retiring state =>
      pure { s with
        statuses := Function.update s.statuses state (WaitState.retire (s.statuses state)).2
        round := .idle }
    | _ => pure s
  | .waitSleep =>
    match s.round with
    | .active state => s.scheduleInner (.waitSleep state)
    | _ => pure s
  | .afterPark =>
    match s.cpu with
    | .parking state interruptible => s.afterPark state interruptible
    | _ => pure s
  | .preempt => s.scheduleInner .preempt
  | .yield => s.scheduleInner .yield
  | .zombie => s.scheduleInner .zombie
  | .setIrq irq =>
    match s.cpu with
    | .running _ => pure { s with cpu := .running irq }
    | .elsewhere _ => pure { s with cpu := .elsewhere irq }
    | _ => pure s
  | .pick this => if this then s.localPickNext else pure { s with cpu := .elsewhere false }
  | .wake site token reason mode => do
    let (commit, sched, statuses) ← commitWake s.sched s.statuses token reason mode
    let submits := match (finishWakeAttempt commit).2 with
      | some park => (site, park) :: s.submits
      | none => s.submits
    pure { s with sched := sched, statuses := statuses, submits := submits }
  | .submit before after site park =>
    pure (({ s with submits := before ++ after } : TaskPlacement).submitWakePlacement site park)
  | .deliver before after payload =>
    ({ s with ipis := before ++ after } : TaskPlacement).handleIpi payload

def Step (s t : TaskPlacement) : Prop := ∃ call, s.Enabled call ∧ s.run call = .ok t

end TaskPlacement

end Anemone.Sched
