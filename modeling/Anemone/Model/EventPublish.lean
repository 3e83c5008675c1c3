import Anemone.Model.WaitRounds

/-!
# Events

A listener is the task and the wait round that it listens with (sched/event.rs).  `publish` goes
through the two queues with the lock of the event held for one listener at a time: it detaches the
first listener, tries to end its round, and puts it back if its task may not be woken this way.
`Publish.Phase` is where a call stands between two of these steps.  Log lines are left out.
-/

namespace Anemone.Sched

/-- The transaction of a wake-up on the rounds of all tasks, with the placement it owes. -/
def Rounds.wakeRound (r : Rounds) (task : ℕ) (token : Option ℕ) (reason : WaitReason)
    (mode : WakeMode) : Checked (WakeCommit × Rounds) := do
  let (commit, sched, statuses) ← commitWake (r.sched task) r.statuses token reason mode
  pure (commit, { r.setSched task sched statuses with
    submits := r.pending task (token.or (waitingOn (r.sched task))) commit })

structure Listener where
  task : ℕ
  token : ℕ
deriving DecidableEq, Repr

inductive ListenerQueueKind where
  | nonExclusive
  | exclusive
deriving DecidableEq, Repr

/-- An event, and the rounds of the tasks that listen to it. -/
structure Event where
  rounds : Rounds
  nonExclusive : List Listener
  exclusive : List Listener

namespace Event

def queue (e : Event) : ListenerQueueKind → List Listener
  | .nonExclusive => e.nonExclusive
  | .exclusive => e.exclusive

def setQueue (e : Event) (kind : ListenerQueueKind) (listeners : List Listener) : Event :=
  match kind with
  | .nonExclusive => { e with nonExclusive := listeners }
  | .exclusive => { e with exclusive := listeners }

/-- `contains` and `push_back`; two listeners are equal if they are of the same wait. -/
def enqueue (e : Event) (kind : ListenerQueueKind) (listener : Listener) : Event :=
  if (e.queue kind).any fun l => l.token = listener.token then e
  else e.setQueue kind (e.queue kind ++ [listener])

def registerListener (e : Event) (listener : Listener) (exclusive : Bool) : Event :=
  e.enqueue (if exclusive then .exclusive else .nonExclusive) listener

def cleanListener (e : Event) (listener : Listener) (exclusive : Bool) : Event :=
  let kind := if exclusive then ListenerQueueKind.exclusive else .nonExclusive
  e.setQueue kind ((e.queue kind).filter fun l => l.token ≠ listener.token)

end Event

/-! ## A call of publish -/

inductive Publish.Phase where
  /-- The call has begun. -/
  | start
  /-- At the head of the loop over a queue, with the rounds that are left. -/
  | scan (kind : ListenerQueueKind) (left : ℕ)
  /-- The listener is detached and its task not woken yet. -/
  | detached (kind : ListenerQueueKind) (left : ℕ) (listener : Listener)
  /-- Its task may not be woken this way. -/
  | blocked (kind : ListenerQueueKind) (left : ℕ) (listener : Listener)
  /-- There is a permit to put it back. -/
  | permitted (kind : ListenerQueueKind) (left : ℕ) (listener : Listener)
  /-- Between the two loops. -/
  | between
  | returned
deriving DecidableEq, Repr

structure Publish where
  nExclusive : ℕ
  mode : WakeMode
  exclusiveSuccess : ℕ
  phase : Publish.Phase
deriving DecidableEq, Repr

namespace Publish

inductive Label where
  | look
  | pop (kind : ListenerQueueKind) (listener : Listener)
  | wake (kind : ListenerQueueKind) (listener : Listener) (commit : WakeCommit)
  | permit (listener : Listener) (granted : Bool)
  | requeue (listener : Listener)
  | leave
deriving DecidableEq, Repr

def new (nExclusive : ℕ) (wakeupUninterruptible : Bool) : Publish :=
  ⟨nExclusive, if wakeupUninterruptible then .anyWait else .interruptibleOnly, 0, .start⟩

/-- What `wake_detached_listener` makes of the result. -/
def afterWake (p : Publish) (kind : ListenerQueueKind) (left : ℕ) (listener : Listener) :
    WakeCommit → Publish
  | .woke _ =>
    match kind with
    | .nonExclusive => { p with phase := .scan kind left }
    | .exclusive =>
      { p with exclusiveSuccess := p.exclusiveSuccess + 1, phase := .scan kind left }
  | .modeBlocked => { p with phase := .blocked kind left listener }
  | _ => { p with phase := .scan kind left }

inductive Step (e : Event) (p : Publish) : Label → Event → Publish → Prop
  | look (phase : p.phase = .start) :
      Step e p .look e { p with phase := .scan .nonExclusive e.nonExclusive.length }
  | pop {kind : ListenerQueueKind} {left : ℕ} {listener : Listener} {rest : List Listener}
      (phase : p.phase = .scan kind (left + 1))
      (quota : kind = .exclusive → p.exclusiveSuccess < p.nExclusive)
      (front : e.queue kind = listener :: rest) :
      Step e p (.pop kind listener) (e.setQueue kind rest)
        { p with phase := .detached kind left listener }
  /-- The task of a listener is there as long as its round is armed: the waiter holds it. -/
  | dropped {kind : ListenerQueueKind} {left : ℕ} {listener : Listener}
      (phase : p.phase = .detached kind left listener)
      (ended : e.rounds.statuses listener.token ≠ .armed) :
      Step e p (.wake kind listener .stale) e { p with phase := .scan kind left }
  | wake {kind : ListenerQueueKind} {left : ℕ} {listener : Listener} {commit : WakeCommit}
      {rounds : Rounds} (phase : p.phase = .detached kind left listener)
      (h : e.rounds.wakeRound listener.task (some listener.token) .event p.mode =
        .ok (commit, rounds)) :
      Step e p (.wake kind listener commit) { e with rounds := rounds }
        (p.afterWake kind left listener commit)
  | permit {kind : ListenerQueueKind} {left : ℕ} {listener : Listener}
      (phase : p.phase = .blocked kind left listener)
      (h : requeuePermitIfModeBlocked (e.rounds.sched listener.task) e.rounds.statuses
        listener.token p.mode = true) :
      Step e p (.permit listener true) e { p with phase := .permitted kind left listener }
  | denied {kind : ListenerQueueKind} {left : ℕ} {listener : Listener}
      (phase : p.phase = .blocked kind left listener)
      (h : requeuePermitIfModeBlocked (e.rounds.sched listener.task) e.rounds.statuses
          listener.token p.mode = false ∨ e.rounds.statuses listener.token ≠ .armed) :
      Step e p (.permit listener false) e { p with phase := .scan kind left }
  | requeue {kind : ListenerQueueKind} {left : ℕ} {listener : Listener}
      (phase : p.phase = .permitted kind left listener) :
      Step e p (.requeue listener) (e.enqueue kind listener)
        { p with phase := .scan kind left }
  | leaveNonExclusive {left : ℕ} (phase : p.phase = .scan .nonExclusive left)
      (done : left = 0 ∨ e.nonExclusive = []) :
      Step e p .leave e { p with phase := .between }
  | lookExclusive (phase : p.phase = .between) :
      Step e p .look e { p with phase := .scan .exclusive e.exclusive.length }
  | leaveExclusive {left : ℕ} (phase : p.phase = .scan .exclusive left)
      (done : left = 0 ∨ e.exclusive = [] ∨ p.nExclusive ≤ p.exclusiveSuccess) :
      Step e p .leave e { p with phase := .returned }

end Publish

/-! ## Any number of calls -/

/-- An event with the calls of `publish` in the order they have begun. -/
structure EventSystem where
  event : Event
  publishes : List Publish

namespace EventSystem

inductive Label where
  | rounds (label : Rounds.Label)
  | register (listener : Listener) (exclusive : Bool)
  | clean (listener : Listener) (exclusive : Bool)
  | publish (nExclusive : ℕ) (wakeupUninterruptible : Bool)
  | step (i : ℕ) (label : Publish.Label)
deriving DecidableEq, Repr

def setRounds (s : EventSystem) (rounds : Rounds) : EventSystem :=
  { s with event := { s.event with rounds := rounds } }

/-- A waiter registers the round it holds the guard of, and cleans its listener up when the
round is not armed any more: it has cancelled it, or it has slept. -/
inductive Step (s : EventSystem) : Label → EventSystem → Prop
  | rounds {label : Rounds.Label} {rounds : Rounds} (h : Rounds.Step s.event.rounds label rounds) :
      Step s (.rounds label) (s.setRounds rounds)
  | register {listener : Listener} {exclusive : Bool}
      (held : (listener.task, listener.token) ∈ s.event.rounds.guards) :
      Step s (.register listener exclusive)
        { s with event := s.event.registerListener listener exclusive }
  | clean {listener : Listener} {exclusive : Bool}
      (ended : s.event.rounds.statuses listener.token ≠ .armed) :
      Step s (.clean listener exclusive)
        { s with event := s.event.cleanListener listener exclusive }
  | publish (nExclusive : ℕ) (wakeupUninterruptible : Bool) :
      Step s (.publish nExclusive wakeupUninterruptible)
        { s with publishes := s.publishes ++ [Publish.new nExclusive wakeupUninterruptible] }
  | step {i : ℕ} {label : Publish.Label} {p q : Publish} {e : Event}
      (call : s.publishes[i]? = some p) (h : Publish.Step s.event p label e q) :
      Step s (.step i label) ⟨e, s.publishes.set i q⟩

structure Start (s : EventSystem) : Prop where
  rounds : s.event.rounds.Start
  nonExclusive : s.event.nonExclusive = []
  exclusive : s.event.exclusive = []
  publishes : s.publishes = []

end EventSystem

end Anemone.Sched
