import Anemone.Model.WaitCore

/-!
# What a transaction does

Every transaction of the wait core ends the armed round that the task waits in, and makes the task
runnable, or changes nothing.
-/

namespace Anemone.Sched

open WaitState

variable {sched : TaskSchedState} {statuses : Statuses} {reason : WaitReason} {token : Option ℕ}
  {mode : WakeMode}

/-- The transaction ends the round with this status. -/
def Ends (sched : TaskSchedState) (statuses : Statuses) (state : ℕ) (status : WaitStateStatus)
    (sched' : TaskSchedState) (statuses' : Statuses) : Prop :=
  (∃ interruptible park, sched = .waiting state interruptible park) ∧ statuses state = .armed ∧
    sched' = .runnable ∧ statuses' = Function.update statuses state status

theorem commitWake_spec (sched : TaskSchedState) (statuses : Statuses) (token : Option ℕ)
    (reason : WaitReason) (mode : WakeMode) :
    ∃ commit sched' statuses',
      commitWake sched statuses token reason mode = .ok (commit, sched', statuses') ∧
        ((∃ state park, Ends sched statuses state (.completed reason) sched' statuses' ∧
            (token = none ∨ token = some state) ∧ commit = .woke park) ∨
          (sched' = sched ∧ statuses' = statuses ∧ ∀ park, commit ≠ .woke park)) := by
  cases sched with
  | runnable | zombie => exact ⟨.stale, _, _, rfl, .inr ⟨rfl, rfl, nofun⟩⟩
  | waiting state interruptible park =>
    simp only [commitWake]
    by_cases htoken : token = none ∨ token = some state
    swap
    · rw [if_neg htoken]
      exact ⟨.stale, _, _, rfl, .inr ⟨rfl, rfl, nofun⟩⟩
    rw [if_pos htoken]
    cases hstatus : statuses state with
    | completed | cancelled | retired => exact ⟨_, _, _, rfl, .inr ⟨rfl, rfl, nofun⟩⟩
    | armed =>
      simp only
      split
      · exact ⟨_, _, _, rfl, .inl ⟨state, park, ⟨⟨_, _, rfl⟩, hstatus, rfl, rfl⟩, htoken, rfl⟩⟩
      · exact ⟨_, _, _, rfl, .inr ⟨rfl, rfl, nofun⟩⟩

theorem commitWake_modeBlocked {sched' : TaskSchedState} {statuses' : Statuses}
    (h : commitWake sched statuses token reason mode = .ok (.modeBlocked, sched', statuses')) :
    ∃ state interruptible park, sched = .waiting state interruptible park ∧
      mode.allows interruptible = false := by
  cases sched with
  | runnable | zombie => cases h
  | waiting state interruptible park =>
    refine ⟨state, interruptible, park, rfl, ?_⟩
    simp only [commitWake] at h
    split at h
    · cases hstatus : statuses state with
      | armed =>
        cases hmode : mode.allows interruptible with
        | false => rfl
        | true =>
          simp only [hstatus, hmode, if_true, completeIfArmed] at h
          cases h
      | _ => simp only [hstatus] at h; cases h
    · cases h

theorem commitWake_armed {state : ℕ} {interruptible : Bool} {park : ParkState}
    (htoken : token = none ∨ token = some state) (harmed : statuses state = .armed) :
    commitWake (.waiting state interruptible park) statuses token reason mode =
      if mode.allows interruptible then
        .ok (.woke park, .runnable, Function.update statuses state (.completed reason))
      else .ok (.modeBlocked, .waiting state interruptible park, statuses) := by
  simp only [commitWake, if_pos htoken, harmed, completeIfArmed]
  rfl

theorem cancelWait_spec (guard : ℕ) (reason : WaitReason)
    (harmed : ∀ state interruptible park, sched = .waiting state interruptible park →
      statuses state = .armed) :
    ∃ result sched' statuses',
      cancelWait sched statuses guard reason = (result, sched', statuses') ∧
        (Ends sched statuses guard (.cancelled reason) sched' statuses' ∨
          (¬ (∃ interruptible park, sched = .waiting guard interruptible park) ∧
            sched' = sched ∧ statuses' = statuses)) := by
  cases sched with
  | runnable | zombie => exact ⟨_, _, _, rfl, .inr ⟨fun ⟨_, _, h⟩ => (nomatch h), rfl, rfl⟩⟩
  | waiting state interruptible park =>
    simp only [cancelWait]
    split
    · rename_i hstate
      subst hstate
      have hstatus := harmed state interruptible park rfl
      simp only [hstatus, cancelIfArmed]
      exact ⟨_, _, _, rfl, .inl ⟨⟨_, _, rfl⟩, hstatus, rfl, rfl⟩⟩
    · rename_i hstate
      refine ⟨_, _, _, rfl, .inr ⟨?_, rfl, rfl⟩⟩
      rintro ⟨_, _, h⟩
      exact hstate (TaskSchedState.waiting.inj h).1

theorem finishWait_spec (guard : ℕ)
    (harmed : ∀ state interruptible park, sched = .waiting state interruptible park →
      statuses state = .armed) :
    ∃ outcome sched' statuses', finishWait sched statuses guard = (outcome, sched', statuses') ∧
        ((outcome = some .armed ∧ Ends sched statuses guard .retired sched' statuses') ∨
          (outcome = none ∧ ¬ (∃ interruptible park, sched = .waiting guard interruptible park) ∧
            sched' = sched ∧ statuses' = statuses)) := by
  cases sched with
  | runnable | zombie => exact ⟨_, _, _, rfl, .inr ⟨rfl, fun ⟨_, _, h⟩ => (nomatch h), rfl, rfl⟩⟩
  | waiting state interruptible park =>
    simp only [finishWait]
    split
    · rename_i hstate
      subst hstate
      have hstatus := harmed state interruptible park rfl
      simp only [hstatus, retire]
      exact ⟨_, _, _, rfl, .inl ⟨rfl, ⟨_, _, rfl⟩, hstatus, rfl, rfl⟩⟩
    · rename_i hstate
      refine ⟨_, _, _, rfl, .inr ⟨rfl, ?_, rfl, rfl⟩⟩
      rintro ⟨_, _, h⟩
      exact hstate (TaskSchedState.waiting.inj h).1

end Anemone.Sched
