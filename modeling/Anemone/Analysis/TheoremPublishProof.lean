import Anemone.Analysis.PublishQuota

/-!
# What a call of publish does for the listeners that are there

A call that may wake interruptible tasks only detaches a listener, finds that it may not wake its
task, and puts it back.  A `publish(n, true)` that looks at the queue in between finds nothing.
-/

namespace Anemone.Sched.EventSystem

open Run (last)

variable {s : EventSystem} {path : History}

/-- **Publications and listeners.**  In every run of an event with any number of calls of
`publish`: if all steps are unhindered, a `publish(n, true)` that has returned has left no
round armed that was armed when it began, of a listener that is not exclusive and had
registered; and every call keeps its quota of exclusive listeners.

SOURCE: sched/event.rs:57-107, 430-600 -/
theorem publish_serves_listeners (hstart : Start s) (hpath : Run.Path Step s path) :
    (Run.AllSteps Unhindered s path → NoneLost s path) ∧ QuotaKept s path := by
  have hinv := Invariant.of_start hstart
  have hdistinct : Distinct s := by
    intro kind
    cases kind with
    | nonExclusive =>
      rw [Event.queue, hstart.nonExclusive]
      exact List.nodup_nil
    | exclusive =>
      rw [Event.queue, hstart.exclusive]
      exact List.nodup_nil
  exact ⟨noneLost_of_unhindered hinv hpath, quotaKept hinv hdistinct hpath⟩

def silent : EventSystem := ⟨⟨⟨fun _ => .runnable, fun _ => .retired, 0, [], [], []⟩, [], []⟩, []⟩

theorem silent_start : Start silent := ⟨⟨fun _ => rfl, rfl, rfl, rfl, rfl⟩, rfl, rfl, rfl⟩

/-- A task begins to wait. -/
def begun (r : Rounds) (task : ℕ) (interruptible : Bool) : Rounds :=
  { r.setSched task (.waiting r.nextState interruptible .prePark)
      (Function.update r.statuses r.nextState .armed) with
    nextState := r.nextState + 1
    guards := (task, r.nextState) :: r.guards }

/-- Its round is completed. -/
def ended (r : Rounds) (l : Listener) : Rounds :=
  { r.setSched l.task .runnable (Function.update r.statuses l.token (.completed .event)) with
    submits := (l.task, l.token, .prePark) :: r.submits }

/-- A task that cannot be interrupted has begun to wait. -/
def waiting : Rounds := begun silent.event.rounds 0 false

def sleeper : Listener := ⟨0, 0⟩

def first : Listener := ⟨1, 1⟩

def second : Listener := ⟨2, 2⟩

/-- Two tasks more, which can be interrupted. -/
def three : Rounds := begun (begun waiting 1 true) 2 true

/-- In the middle of `publish(1, true)`. -/
def amid (rounds : Rounds) (nonExclusive exclusive : List Listener) (success : ℕ)
    (phase : Publish.Phase) : EventSystem :=
  ⟨⟨rounds, nonExclusive, exclusive⟩, [⟨1, .anyWait, success, phase⟩]⟩

/-- `publish(1, true)` wakes the listener that is not exclusive, and one of the two others. -/
def served : History :=
  [(.rounds (.beginWait 0 0), ⟨⟨waiting, [], []⟩, []⟩),
    (.rounds (.beginWait 1 1), ⟨⟨begun waiting 1 true, [], []⟩, []⟩),
    (.rounds (.beginWait 2 2), ⟨⟨three, [], []⟩, []⟩),
    (.register sleeper false, ⟨⟨three, [sleeper], []⟩, []⟩),
    (.register first true, ⟨⟨three, [sleeper], [first]⟩, []⟩),
    (.register second true, ⟨⟨three, [sleeper], [first, second]⟩, []⟩),
    (.publish 1 true, amid three [sleeper] [first, second] 0 .start),
    (.step 0 .look, amid three [sleeper] [first, second] 0 (.scan .nonExclusive 1)),
    (.step 0 (.pop .nonExclusive sleeper),
      amid three [] [first, second] 0 (.detached .nonExclusive 0 sleeper)),
    (.step 0 (.wake .nonExclusive sleeper (.woke .prePark)),
      amid (ended three sleeper) [] [first, second] 0 (.scan .nonExclusive 0)),
    (.step 0 .leave, amid (ended three sleeper) [] [first, second] 0 .between),
    (.step 0 .look, amid (ended three sleeper) [] [first, second] 0 (.scan .exclusive 2)),
    (.step 0 (.pop .exclusive first),
      amid (ended three sleeper) [] [second] 0 (.detached .exclusive 1 first)),
    (.step 0 (.wake .exclusive first (.woke .prePark)),
      amid (ended (ended three sleeper) first) [] [second] 1 (.scan .exclusive 1)),
    (.step 0 .leave, amid (ended (ended three sleeper) first) [] [second] 1 .returned)]

theorem served_path : Run.Path Step silent served := by
  refine ⟨.rounds (.beginWait rfl), .rounds (.beginWait rfl), .rounds (.beginWait rfl), ?_, ?_, ?_,
    .publish 1 true, ?_, ?_, ?_, ?_, ?_, ?_, ?_, ?_, trivial⟩
  · exact @Step.register ⟨⟨three, [], []⟩, []⟩ sleeper false (by decide)
  · exact @Step.register ⟨⟨three, [sleeper], []⟩, []⟩ first true (by decide)
  · exact @Step.register ⟨⟨three, [sleeper], [first]⟩, []⟩ second true (by decide)
  · exact .step rfl (.look rfl)
  · exact .step rfl (.pop rfl nofun rfl)
  · exact .step rfl (.wake rfl rfl)
  · exact .step rfl (.leaveNonExclusive rfl (.inl rfl))
  · exact .step rfl (.lookExclusive rfl)
  · exact .step rfl (.pop rfl (fun _ => Nat.zero_lt_one) rfl)
  · exact .step rfl (.wake rfl rfl)
  · exact .step rfl (.leaveExclusive rfl (.inr (.inr (Nat.le_refl 1))))

theorem served_unhindered : Run.AllSteps Unhindered silent served := by
  refine ⟨trivial, trivial, trivial, trivial, trivial, trivial, ?_, trivial, ?_, trivial, trivial,
    trivial, trivial, trivial, trivial, trivial⟩
  · intro p hp
    cases hp
  · intro _ j p hj hp
    cases j with
    | zero => exact absurd rfl hj
    | succ j => cases hp

/-- Nobody is in the way, and the call completes as many exclusive rounds as it may. -/
theorem publish_serves_listeners_sample :
    Run.Path Step silent served ∧ Run.AllSteps Unhindered silent served ∧
      completed 0 served = [(.nonExclusive, sleeper), (.exclusive, first)] ∧
      NoneLost silent served ∧ QuotaKept silent served := by
  obtain ⟨hnone, hquota⟩ := publish_serves_listeners silent_start served_path
  exact ⟨served_path, served_unhindered, rfl, hnone served_unhindered, hquota⟩

def anyWait (phase : Publish.Phase) : Publish := ⟨0, .anyWait, 0, phase⟩

def interruptibleOnly (phase : Publish.Phase) : Publish := ⟨0, .interruptibleOnly, 0, phase⟩

/-- The rounds after the wake-up that was blocked. -/
def blocked : Rounds := waiting.setSched 0 (.waiting 0 false .prePark) waiting.statuses

/-- `publish(0, false)` has detached the listener when `publish(0, true)` begins, and puts it
back when that has returned. -/
def missed : History :=
  [(.rounds (.beginWait 0 0), ⟨⟨waiting, [], []⟩, []⟩),
    (.register sleeper false, ⟨⟨waiting, [sleeper], []⟩, []⟩),
    (.publish 0 false, ⟨⟨waiting, [sleeper], []⟩, [interruptibleOnly .start]⟩),
    (.step 0 .look, ⟨⟨waiting, [sleeper], []⟩, [interruptibleOnly (.scan .nonExclusive 1)]⟩),
    (.step 0 (.pop .nonExclusive sleeper),
      ⟨⟨waiting, [], []⟩, [interruptibleOnly (.detached .nonExclusive 0 sleeper)]⟩),
    (.publish 0 true, ⟨⟨waiting, [], []⟩,
      [interruptibleOnly (.detached .nonExclusive 0 sleeper), anyWait .start]⟩),
    (.step 1 .look, ⟨⟨waiting, [], []⟩,
      [interruptibleOnly (.detached .nonExclusive 0 sleeper), anyWait (.scan .nonExclusive 0)]⟩),
    (.step 1 .leave, ⟨⟨waiting, [], []⟩,
      [interruptibleOnly (.detached .nonExclusive 0 sleeper), anyWait .between]⟩),
    (.step 1 .look, ⟨⟨waiting, [], []⟩,
      [interruptibleOnly (.detached .nonExclusive 0 sleeper), anyWait (.scan .exclusive 0)]⟩),
    (.step 1 .leave, ⟨⟨waiting, [], []⟩,
      [interruptibleOnly (.detached .nonExclusive 0 sleeper), anyWait .returned]⟩),
    (.step 0 (.wake .nonExclusive sleeper .modeBlocked), ⟨⟨blocked, [], []⟩,
      [interruptibleOnly (.blocked .nonExclusive 0 sleeper), anyWait .returned]⟩),
    (.step 0 (.permit sleeper true), ⟨⟨blocked, [], []⟩,
      [interruptibleOnly (.permitted .nonExclusive 0 sleeper), anyWait .returned]⟩),
    (.step 0 (.requeue sleeper), ⟨⟨blocked, [sleeper], []⟩,
      [interruptibleOnly (.scan .nonExclusive 0), anyWait .returned]⟩),
    (.step 0 .leave, ⟨⟨blocked, [sleeper], []⟩, [interruptibleOnly .between, anyWait .returned]⟩),
    (.step 0 .look, ⟨⟨blocked, [sleeper], []⟩,
      [interruptibleOnly (.scan .exclusive 0), anyWait .returned]⟩),
    (.step 0 .leave, ⟨⟨blocked, [sleeper], []⟩, [interruptibleOnly .returned, anyWait .returned]⟩)]

theorem missed_path : Run.Path Step silent missed := by
  refine ⟨.rounds (.beginWait rfl), ?_, .publish 0 false, ?_, ?_, .publish 0 true, ?_, ?_, ?_, ?_,
    ?_, ?_, ?_, ?_, ?_, ?_, trivial⟩
  · exact @Step.register ⟨⟨waiting, [], []⟩, []⟩ sleeper false List.mem_cons_self
  · exact .step rfl (.look rfl)
  · exact .step rfl (.pop rfl nofun rfl)
  · exact .step rfl (.look rfl)
  · exact .step rfl (.leaveNonExclusive rfl (.inl rfl))
  · exact .step rfl (.lookExclusive rfl)
  · exact .step rfl (.leaveExclusive rfl (.inl rfl))
  · exact .step rfl (.wake rfl rfl)
  · exact .step rfl (.permit rfl rfl)
  · exact .step rfl (@Publish.Step.requeue ⟨blocked, [], []⟩
      (interruptibleOnly (.permitted .nonExclusive 0 sleeper)) .nonExclusive 0 sleeper rfl)
  · exact .step rfl (.leaveNonExclusive rfl (.inl rfl))
  · exact .step rfl (.lookExclusive rfl)
  · exact .step rfl (.leaveExclusive rfl (.inl rfl))

/-- Both calls have returned, and the task that `publish(0, true)` was to wake sleeps on. -/
theorem publish_misses_listener : ∃ (s : EventSystem) (path : History),
    Start s ∧ Run.Path Step s path ∧ (∀ p ∈ (last s path).publishes, p.phase = .returned) ∧
      ¬ NoneLost s path := by
  refine ⟨silent, missed, silent_start, missed_path, by decide, ?_⟩
  intro hnone
  refine hnone (missed.take 5) (missed.drop 6) 0 _ sleeper rfl ?_ rfl ?_ rfl
  · exact ⟨_, List.mem_cons_of_mem _ List.mem_cons_self, rfl⟩
  · exact ⟨anyWait .returned, rfl, rfl⟩

end Anemone.Sched.EventSystem
