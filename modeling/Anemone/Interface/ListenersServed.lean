import Anemone.Model.EventPublish

/-!
# Listeners that are served

What a call of `publish` does for the listeners that are there when it begins, as a run of an
event shows it.
-/

namespace Anemone.Sched

def Publish.Phase.holds : Publish.Phase → Option (ListenerQueueKind × Listener)
  | .detached kind _ listener | .blocked kind _ listener | .permitted kind _ listener =>
    some (kind, listener)
  | _ => none

/-- The call is still to detach listeners that are not exclusive. -/
def Publish.Phase.expects : Publish.Phase → Bool
  | .start => true
  | .scan .nonExclusive left | .detached .nonExclusive left _ | .blocked .nonExclusive left _
  | .permitted .nonExclusive left _ => left ≠ 0
  | _ => false

namespace EventSystem

open Run (last)

abbrev History : Type := List (Label × EventSystem)

def Armed (s : EventSystem) (listener : Listener) : Prop :=
  s.event.rounds.statuses listener.token = .armed

/-- The listener is armed and its wait can be interrupted. -/
def Interruptible (s : EventSystem) (listener : Listener) : Prop :=
  ∃ park, s.event.rounds.sched listener.task = .waiting listener.token true park

def Returned (s : EventSystem) (i : ℕ) : Prop :=
  ∃ p, s.publishes[i]? = some p ∧ p.phase = .returned

/-- If `publish(n, true)` begins when a listener that is not exclusive has registered, and its
round is armed, the round is not armed when the call has returned. -/
def NoneLost (s : EventSystem) (path : History) : Prop :=
  ∀ before after n t listener, path = before ++ (.publish n true, t) :: after →
    (∃ x ∈ before, x.1 = .register listener false) → Armed (last s before) listener →
    Returned (last t after) (last s before).publishes.length → ¬ Armed (last t after) listener

def Label.publisher : Label → Option ℕ
  | .step i _ => some i
  | _ => none

/-- The listener whose round the step of the call completes. -/
def Label.completed (i : ℕ) : Label → Option (ListenerQueueKind × Listener)
  | .step j (.wake kind listener (.woke _)) => if j = i then some (kind, listener) else none
  | _ => none

/-- The listeners whose rounds the call has completed. -/
def completed (i : ℕ) (path : History) : List (ListenerQueueKind × Listener) :=
  path.filterMap fun x => x.1.completed i

/-- Nobody but the call takes these listeners out of the queue or ends their rounds. -/
def Undisturbed (i : ℕ) (listeners : List Listener) : EventSystem → History → Prop
  | _, [] => True
  | s, (label, t) :: rest =>
    (label.publisher ≠ some i → ∀ listener ∈ listeners,
      (listener ∈ s.event.exclusive → listener ∈ t.event.exclusive) ∧
        (Interruptible s listener → Interruptible t listener)) ∧ Undisturbed i listeners t rest

/-- A call completes no more exclusive rounds than it may.  Of exclusive rounds and the rounds of
exclusive listeners that stay it completes as many as it may, or as there are such listeners. -/
def QuotaKept (s : EventSystem) (path : History) : Prop :=
  ∀ before after n uninterruptible t, path = before ++ (.publish n uninterruptible, t) :: after →
    ((completed (last s before).publishes.length after).filter fun x => x.1 = .exclusive).length
        ≤ n ∧
      ∀ listeners : List Listener, (listeners.map Listener.token).Nodup →
        (∀ listener ∈ listeners, listener ∈ t.event.exclusive ∧ Interruptible t listener) →
        Undisturbed (last s before).publishes.length listeners t after →
        Returned (last t after) (last s before).publishes.length →
        min n listeners.length ≤ ((completed (last s before).publishes.length after).filter
          fun x => x.1 = .exclusive ∨ x.2.token ∈ listeners.map Listener.token).length

/-- `publish(n, true)` begins only when no armed listener that is not exclusive is in the hands
of another call, and a call takes such a listener only when no other `publish(n, true)` is
still to detach some. -/
def Unhindered (s : EventSystem) : Label → Prop
  | .publish _ true =>
    ∀ p ∈ s.publishes, ∀ listener, p.phase.holds = some (.nonExclusive, listener) →
      ¬ s.Armed listener
  | .step i (.pop .nonExclusive listener) =>
    s.Armed listener → ∀ (j : ℕ) p, j ≠ i → s.publishes[j]? = some p → p.mode = .anyWait →
      p.phase.expects = false
  | _ => True

end EventSystem

end Anemone.Sched
