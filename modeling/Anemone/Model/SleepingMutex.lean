import Anemone.Model.EventPublish

/-!
# The sleeping mutex

`Mutex` (sync/mutex.rs) is a lock word, a word that names the locker, and an event.  `lock` tries
the lock word once and then listens, uninterruptibly and exclusively, with the attempt as the
predicate; dropping the guard clears both words and publishes to one exclusive listener.
`LockStage` is where a task stands between two steps.  The assertions on the context of the caller
(interrupts, preemption) are left out.
-/

namespace Anemone.Sched

open Function (update)

inductive LockStage where
  | outside
  | called
  /-- At the head of the loop of `listen_uninterruptible`: for the first time, or again. -/
  | slow (again : Bool)
  | begun (again : Bool) (token : ℕ)
  | registered (again : Bool) (token : ℕ)
  /-- The predicate has failed: the task sleeps until its round is over. -/
  | failed (token : ℕ)
  | resumed (token : ℕ)
  | cleaned (token : ℕ)
  | retiring (token : ℕ)
  /-- The predicate holds: the task has the lock word. -/
  | won (token : ℕ)
  | wonCancelled (token : ℕ)
  | wonCleaned (token : ℕ)
  | wonRetiring (token : ℕ)
  /-- Before the task has named itself the locker. -/
  | acquired
  | guard
  /-- The guard is being dropped, and names no locker any more. -/
  | unlocking
  /-- The lock word is clear, and a call of `publish(1, true)` on its way. -/
  | publishing (call : ℕ)
  | panicked (reason : String)
deriving DecidableEq, Repr

/-- What `listen_uninterruptible` makes of the outcome of its wait. -/
def LockStage.afterWait : WaitOutcome → LockStage
  | .completed .event | .completed .force => .slow true
  | _ => .panicked "event wait saw unexpected wait outcome"

structure MutexSystem where
  system : EventSystem
  locked : Bool
  locker : Option ℕ
  stage : ℕ → LockStage

namespace MutexSystem

def rounds (s : MutexSystem) : Rounds := s.system.event.rounds

def setStage (s : MutexSystem) (task : ℕ) (stage : LockStage) : MutexSystem :=
  { s with stage := update s.stage task stage }

def setRounds (s : MutexSystem) (rounds : Rounds) : MutexSystem :=
  { s with system := s.system.setRounds rounds }

def setEvent (s : MutexSystem) (event : Event) : MutexSystem :=
  { s with system := { s.system with event := event } }

def tryLock (s : MutexSystem) (task : ℕ) (taken notTaken : LockStage) : MutexSystem :=
  if s.locked then s.setStage task notTaken
  else { s.setStage task taken with locked := true }

/-- The reason and the mode of `notify`. -/
def notifyAs (uninterruptible : Bool) : WaitReason × WakeMode :=
  if uninterruptible then (.force, .force) else (.signal, .interruptibleOnly)

inductive Step (s : MutexSystem) : MutexSystem → Prop
  | call {task : ℕ} (stage : s.stage task = .outside) :
      Step s (s.setStage task
        (if s.locker = some task then .panicked "Mutex cannot be locked recursively" else .called))
  | fast {task : ℕ} (stage : s.stage task = .called) :
      Step s (s.tryLock task .acquired (.slow false))
  | beginWait {task : ℕ} {again : Bool} {sched : TaskSchedState}
      (stage : s.stage task = .slow again)
      (h : Sched.beginWait (s.rounds.sched task) s.rounds.nextState false = .ok sched) :
      Step s ((s.setStage task (.begun again s.rounds.nextState)).setRounds
        { s.rounds.setSched task sched
            (update s.rounds.statuses s.rounds.nextState .armed) with
          nextState := s.rounds.nextState + 1
          guards := (task, s.rounds.nextState) :: s.rounds.guards })
  | beginPanics {task : ℕ} {again : Bool} {panic : Panic} (stage : s.stage task = .slow again)
      (h : Sched.beginWait (s.rounds.sched task) s.rounds.nextState false = .error panic) :
      Step s (s.setStage task (.panicked panic.reason))
  | register {task token : ℕ} {again : Bool} (stage : s.stage task = .begun again token) :
      Step s ((s.setStage task (.registered again token)).setEvent
        (s.system.event.registerListener ⟨task, token⟩ true))
  | test {task token : ℕ} {again : Bool} (stage : s.stage task = .registered again token) :
      Step s (s.tryLock task (.won token) (.failed token))
  | resume {task token : ℕ} (stage : s.stage task = .failed token)
      (slept : waitingOn (s.rounds.sched task) ≠ some token) :
      Step s (s.setStage task (.resumed token))
  | clean {task token : ℕ} (stage : s.stage task = .resumed token) :
      Step s ((s.setStage task (.cleaned token)).setEvent
        (s.system.event.cleanListener ⟨task, token⟩ true))
  | finish {task token : ℕ} {before after : List (ℕ × ℕ)} {outcome : Option WaitOutcome}
      {sched : TaskSchedState} {statuses : Statuses} (stage : s.stage task = .cleaned token)
      (held : s.rounds.guards = before ++ (task, token) :: after)
      (h : finishWait (s.rounds.sched task) s.rounds.statuses token = (outcome, sched, statuses)) :
      Step s ((s.setStage task
          (match outcome with | some outcome => .afterWait outcome | none => .retiring token)).setRounds
        { s.rounds.setSched task sched statuses with
          guards := before ++ after
          retiring := if outcome.isSome then s.rounds.retiring
            else (task, token) :: s.rounds.retiring })
  | retire {task token : ℕ} {before after : List (ℕ × ℕ)} (stage : s.stage task = .retiring token)
      (called : s.rounds.retiring = before ++ (task, token) :: after) :
      Step s ((s.setStage task
          (.afterWait (WaitState.retire (s.rounds.statuses token)).1)).setRounds
        { s.rounds with
          statuses := update s.rounds.statuses token (WaitState.retire (s.rounds.statuses token)).2
          retiring := before ++ after })
  | cancelWon {task token : ℕ} {result : WaitResult} {sched : TaskSchedState}
      {statuses : Statuses} (stage : s.stage task = .won token)
      (h : cancelWait (s.rounds.sched task) s.rounds.statuses token .predicateReady =
        (result, sched, statuses)) :
      Step s ((s.setStage task (.wonCancelled token)).setRounds
        (s.rounds.setSched task sched statuses))
  | cleanWon {task token : ℕ} (stage : s.stage task = .wonCancelled token) :
      Step s ((s.setStage task (.wonCleaned token)).setEvent
        (s.system.event.cleanListener ⟨task, token⟩ true))
  | finishWon {task token : ℕ} {before after : List (ℕ × ℕ)} {outcome : Option WaitOutcome}
      {sched : TaskSchedState} {statuses : Statuses} (stage : s.stage task = .wonCleaned token)
      (held : s.rounds.guards = before ++ (task, token) :: after)
      (h : finishWait (s.rounds.sched task) s.rounds.statuses token = (outcome, sched, statuses)) :
      Step s ((s.setStage task (if outcome.isSome then .acquired else .wonRetiring token)).setRounds
        { s.rounds.setSched task sched statuses with
          guards := before ++ after
          retiring := if outcome.isSome then s.rounds.retiring
            else (task, token) :: s.rounds.retiring })
  | retireWon {task token : ℕ} {before after : List (ℕ × ℕ)}
      (stage : s.stage task = .wonRetiring token)
      (called : s.rounds.retiring = before ++ (task, token) :: after) :
      Step s ((s.setStage task .acquired).setRounds { s.rounds with
          statuses := update s.rounds.statuses token (WaitState.retire (s.rounds.statuses token)).2
          retiring := before ++ after })
  | claim {task : ℕ} (stage : s.stage task = .acquired) :
      Step s (if s.locker = none then { s.setStage task .guard with locker := some task }
        else s.setStage task (.panicked "Mutex locker should be invalid when lock is released"))
  | drop {task : ℕ} (stage : s.stage task = .guard) :
      Step s (if s.locked = false then s.setStage task (.panicked "debug assertion")
        else if s.locker = some task then { s.setStage task .unlocking with locker := none }
        else s.setStage task (.panicked "Mutex can only be unlocked by the locker"))
  | unlock {task : ℕ} (stage : s.stage task = .unlocking) :
      Step s { s.setStage task (.publishing s.system.publishes.length) with
        locked := false
        system := { s.system with publishes := s.system.publishes ++ [Publish.new 1 true] } }
  | publish {task i : ℕ} {p q : Publish} {label : Publish.Label} {e : Event}
      (stage : s.stage task = .publishing i) (call : s.system.publishes[i]? = some p)
      (h : Publish.Step s.system.event p label e q) :
      Step s { s with system := ⟨e, s.system.publishes.set i q⟩ }
  | published {task i : ℕ} {p : Publish} (stage : s.stage task = .publishing i)
      (call : s.system.publishes[i]? = some p) (returned : p.phase = .returned) :
      Step s (s.setStage task .outside)
  | notify {task : ℕ} {uninterruptible : Bool} {commit : WakeCommit} {rounds : Rounds}
      (h : s.rounds.wakeRound task none (notifyAs uninterruptible).1 (notifyAs uninterruptible).2 =
        .ok (commit, rounds)) :
      Step s (s.setRounds rounds)
  | submit {task state : ℕ} {park : ParkState} {rounds : Rounds}
      (h : Rounds.Step s.rounds (.submit task state park) rounds) : Step s (s.setRounds rounds)
  /-- The scheduler parks the task, or it is preempted; it does not exit here. -/
  | schedule {task : ℕ} {mode : ScheduleMode} {rounds : Rounds} (mode_ne : mode ≠ .zombie)
      (h : Rounds.Step s.rounds (.schedule task mode) rounds) : Step s (s.setRounds rounds)

structure Start (s : MutexSystem) : Prop where
  system : s.system.Start
  runnable : ∀ task, s.rounds.sched task = .runnable
  locked : s.locked = false
  locker : s.locker = none
  stage : ∀ task, s.stage task = .outside

end MutexSystem

end Anemone.Sched
