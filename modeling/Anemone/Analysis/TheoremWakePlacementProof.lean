import Anemone.Analysis.PlacementSteps

/-!
# No wake-up is lost and none is placed twice

A wake-up may come before the park, between the park and the second look, or after the task is
switched out.  In every order the task ends up on the run queue once.
-/

namespace Anemone.Sched.TaskPlacement

variable {s t : TaskPlacement}

theorem Invariant.sound (h : Invariant s) : Sound s := by
  refine ⟨fun hpub hsched => ?_, ?_, ?_, ?_, fun call henabled => ?_⟩
  · rcases cpu_cases s.cpu with ⟨irq, hcpu⟩ | ⟨state, interruptible, hcpu⟩ | hcpu
    · exact .inl (by simp only [isLocalCurrentTask, hcpu])
    · exact .inl (by simp only [isLocalCurrentTask, hcpu])
    · rcases h.away hcpu with ⟨-, -, hflight⟩ | ⟨-, hnot | ⟨_, _, hnot⟩⟩
      · rcases Nat.eq_zero_or_pos s.queued with hzero | hpos
        · exact .inr (.inr (hflight hzero hpub))
        · exact .inr (.inl hpos)
      all_goals cases hsched.symm.trans hnot
  · rcases cpu_cases s.cpu with ⟨irq, hcpu⟩ | ⟨state, interruptible, hcpu⟩ | hcpu
    · rw [(h.running hcpu).1]
      exact Nat.zero_le 1
    · rw [(h.parking hcpu).1]
      exact Nat.zero_le 1
    · rcases h.away hcpu with ⟨-, hle, -⟩ | ⟨hzero, -⟩
      · exact hle
      · omega
  · rintro ⟨irq, hcpu⟩
    exact (h.running hcpu).1
  · rintro ⟨state, interruptible, park, hsched⟩
    rcases cpu_cases s.cpu with ⟨irq, hcpu⟩ | ⟨state, interruptible, hcpu⟩ | hcpu
    · exact (h.running hcpu).1
    · exact (h.parking hcpu).1
    · rcases h.away hcpu with ⟨hrun, -⟩ | ⟨hzero, -⟩
      · cases hsched.symm.trans hrun
      · exact hzero
  · obtain ⟨t, hrun, -⟩ := h.keeps call henabled
    exact ⟨t, hrun⟩

/-- **No wake-up is lost and none is placed twice.**  In every state that a new task and its CPU
can get into: if the task is published and may run, it is the current task, or on the run
queue, or a placement is in flight; it is on the run queue at most once, not at all while it
goes on running or while it waits; and no call panics.

SOURCE: sched/mod.rs:219-524, sched/processor.rs:262-539, sched/wait.rs:383-777 -/
theorem wake_placed_once (hstart : Start s) (hrun : Run.Reaches Step s t) : Sound t := by
  refine Invariant.sound (Run.Reaches.invariant (P := Invariant) ?_ hrun (Invariant.of_start hstart))
  rintro s t h ⟨call, henabled, hcall⟩
  obtain ⟨t', hcall', ht'⟩ := h.keeps call henabled
  obtain rfl : t' = t := Except.ok.inj (hcall'.symm.trans hcall)
  exact ht'

/-- A new task, while another one runs with interrupts enabled. -/
def newTask : TaskPlacement :=
  ⟨.runnable, fun _ => .retired, 0, .idle, .elsewhere true, 0, [], [], false⟩

def parkingTask : TaskPlacement :=
  ⟨.waiting 0 true .parked, Function.update (fun _ => .retired) 0 .armed, 1, .active 0,
    .parking 0 true, 0, [], [], true⟩

/-- Somebody on another CPU completes the round before the second look.  The task is queued by
the second look, and it runs while the message is still in flight. -/
theorem wake_placed_once_sample : ∃ t : TaskPlacement,
    Run.Reaches Step newTask t ∧ t.cpu = .running false ∧
      t.ipis = [.wakeUpTaskStaleSafe .parked] ∧ Sound t := by
  have hpublish : Step newTask { newTask with published := true, queued := 1 } :=
    ⟨.publish .owner, ⟨rfl, fun _ => trivial⟩, rfl⟩
  have hpick : Step { newTask with published := true, queued := 1 }
      { newTask with published := true, cpu := .running false } :=
    ⟨.pick true, ⟨.inr ⟨true, rfl⟩, fun _ => Nat.one_pos⟩, rfl⟩
  have hbegin : Step { newTask with published := true, cpu := .running false }
      { parkingTask with sched := .waiting 0 true .prePark, cpu := .running false } :=
    ⟨.beginWait true, ⟨⟨false, rfl⟩, rfl⟩, rfl⟩
  have hpark : Step { parkingTask with sched := .waiting 0 true .prePark, cpu := .running false }
      parkingTask := ⟨.waitSleep, ⟨rfl, 0, rfl⟩, rfl⟩
  let woken : TaskPlacement := { parkingTask with
    sched := .runnable
    statuses := Function.update parkingTask.statuses 0 (.completed .event) }
  have hwake : Step parkingTask { woken with submits := [(.other, .parked)] } :=
    ⟨.wake .other none .event .anyWait, nofun, rfl⟩
  have hlook : Step { woken with submits := [(.other, .parked)] }
      { woken with submits := [(.other, .parked)], queued := 1, cpu := .scheduler } :=
    ⟨.afterPark, ⟨0, true, rfl⟩, rfl⟩
  have hsend : Step { woken with submits := [(.other, .parked)], queued := 1, cpu := .scheduler }
      { woken with ipis := [.wakeUpTaskStaleSafe .parked], queued := 1, cpu := .scheduler } :=
    ⟨.submit [] [] .other .parked, ⟨rfl, nofun⟩, rfl⟩
  have hresume : Step
      { woken with ipis := [.wakeUpTaskStaleSafe .parked], queued := 1, cpu := .scheduler }
      { woken with ipis := [.wakeUpTaskStaleSafe .parked], cpu := .running false } :=
    ⟨.pick true, ⟨.inl rfl, fun _ => Nat.one_pos⟩, rfl⟩
  have hreach := Relation.ReflTransGen.refl (r := Step)
    |>.tail hpublish |>.tail hpick |>.tail hbegin |>.tail hpark |>.tail hwake |>.tail hlook
    |>.tail hsend |>.tail hresume
  refine ⟨_, hreach, rfl, rfl, wake_placed_once ?_ hreach⟩
  exact ⟨rfl, rfl, ⟨true, rfl⟩, rfl, rfl, rfl, rfl⟩

end Anemone.Sched.TaskPlacement
