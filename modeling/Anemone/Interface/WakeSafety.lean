import Anemone.Model.WakePlacement

/-!
# No wake-up is lost

What has to be true of a task and its CPU at every moment.  A placement is in flight from the
commit of a wake-up on: as long as its caller has not submitted it, and then as a message.
-/

namespace Anemone.Sched.TaskPlacement

/-- A new task that nobody has published. -/
structure Start (s : TaskPlacement) : Prop where
  sched : s.sched = .runnable
  round : s.round = .idle
  cpu : ∃ irq, s.cpu = .elsewhere irq
  queued : s.queued = 0
  submits : s.submits = []
  ipis : s.ipis = []
  published : s.published = false

structure Sound (s : TaskPlacement) : Prop where
  /-- A task that may run does run, or is on its way. -/
  placed : s.published = true → s.sched = .runnable →
    s.isLocalCurrentTask = true ∨ 0 < s.queued ∨ s.ipis ≠ [] ∨ s.submits ≠ []
  once : s.queued ≤ 1
  /-- The task is not queued while it goes on. -/
  not_continuing : (∃ irq, s.cpu = .running irq) → s.queued = 0
  not_waiting : (∃ state interruptible park, s.sched = .waiting state interruptible park) →
    s.queued = 0
  runs : ∀ call, s.Enabled call → ∃ t, s.run call = .ok t

end Anemone.Sched.TaskPlacement
