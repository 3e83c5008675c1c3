import Anemone.Interface.WakeSafety
import Anemone.Analysis.WaitTransactions

/-!
# What a call keeps

Where the task is, by what its CPU does: it runs, it has parked and is looked at again, or it is
away.  A task that is away and may run is queued or has a placement in flight.
-/

namespace Anemone.Sched.TaskPlacement

open Checked (ok_bind pure_eq assert_of)
open TaskSchedState List Function

variable {s : TaskPlacement}

def Away (s : TaskPlacement) : Prop :=
  (s.sched = .runnable ∧ s.queued ≤ 1 ∧
      (s.queued = 0 → s.published = true → s.ipis ≠ [] ∨ s.submits ≠ [])) ∨
    (s.queued = 0 ∧
      (s.sched = .zombie ∨ ∃ state interruptible, s.sched = .waiting state interruptible .parked))

def Located (s : TaskPlacement) : Prop :=
  match s.cpu with
  | .running _ => s.queued = 0 ∧
      (s.sched = .runnable ∨ ∃ state interruptible, s.sched = .waiting state interruptible .prePark)
  | .parking state interruptible => s.queued = 0 ∧ s.round = .active state ∧
      (s.sched = .runnable ∨ s.sched = .waiting state interruptible .parked)
  | .scheduler | .elsewhere _ => Away s

variable {irq : Bool} {state : ℕ} {interruptible : Bool}

/-- The task is not the current one, or only for the scheduler. -/
def Out (cpu : Cpu) : Prop := cpu = .scheduler ∨ ∃ irq, cpu = .elsewhere irq

theorem located_running (hcpu : s.cpu = .running irq) (hqueued : s.queued = 0)
    (hsched : s.sched = .runnable ∨
      ∃ state interruptible, s.sched = .waiting state interruptible .prePark) : Located s := by
  rw [Located, hcpu]
  exact ⟨hqueued, hsched⟩

theorem located_parking (hcpu : s.cpu = .parking state interruptible) (hqueued : s.queued = 0)
    (hround : s.round = .active state)
    (hsched : s.sched = .runnable ∨ s.sched = .waiting state interruptible .parked) :
    Located s := by
  rw [Located, hcpu]
  exact ⟨hqueued, hround, hsched⟩

theorem located_out (hcpu : Out s.cpu) (haway : Away s) : Located s := by
  rcases hcpu with hcpu | ⟨irq, hcpu⟩
  all_goals rwa [Located, hcpu]

theorem away_of_queued (hsched : s.sched = .runnable) (hqueued : s.queued = 1) : Away s :=
  .inl ⟨hsched, Nat.le_of_eq hqueued, fun hzero => by omega⟩

theorem cpu_cases (cpu : Cpu) :
    (∃ irq, cpu = .running irq) ∨ (∃ state interruptible, cpu = .parking state interruptible) ∨
      Out cpu := by
  cases cpu with
  | running irq => exact .inl ⟨irq, rfl⟩
  | parking state interruptible => exact .inr (.inl ⟨_, _, rfl⟩)
  | scheduler => exact .inr (.inr (.inl rfl))
  | elsewhere irq => exact .inr (.inr (.inr ⟨irq, rfl⟩))

structure Unseen (s : TaskPlacement) : Prop where
  sched : s.sched = .runnable
  round : s.round = .idle
  cpu : ∃ irq, s.cpu = .elsewhere irq
  queued : s.queued = 0
  submits : s.submits = []

structure Invariant (s : TaskPlacement) : Prop where
  located : Located s
  armed : ∀ state interruptible park, s.sched = .waiting state interruptible park →
    s.statuses state = .armed
  active : ∀ state interruptible park, s.sched = .waiting state interruptible park →
    s.round = .active state
  ended : ∀ state, s.sched = .runnable → s.round = .active state → s.statuses state ≠ .armed
  unpublished : s.published = false → Unseen s ∧ s.ipis = []
  sent : .enqueueNewTask ∈ s.ipis → Unseen s ∧ s.ipis = [.enqueueNewTask]

namespace Invariant

theorem of_start (h : Start s) : Invariant s := by
  have hunseen : Unseen s := ⟨h.sched, h.round, h.cpu, h.queued, h.submits⟩
  have hnot : ∀ state interruptible park, s.sched ≠ .waiting state interruptible park := by
    intro state interruptible park hsched
    cases h.sched.symm.trans hsched
  refine ⟨located_out (.inr h.cpu) (.inl ⟨h.sched, ?_, fun _ hpub => ?_⟩),
    fun _ _ _ hw => absurd hw (hnot _ _ _), fun _ _ _ hw => absurd hw (hnot _ _ _), ?_,
    fun _ => ⟨hunseen, h.ipis⟩, ?_⟩
  · rw [h.queued]
    exact Nat.zero_le 1
  · rw [h.published] at hpub
    cases hpub
  · intro state _ hround
    rw [h.round] at hround
    cases hround
  · intro hmem
    rw [h.ipis] at hmem
    cases hmem

section

variable (h : Invariant s)

include h

/-- **who has been seen** is published, and its first message is gone. -/
theorem seen (hseen : ¬ Unseen s) : s.published ≠ false ∧ .enqueueNewTask ∉ s.ipis :=
  ⟨fun hpub => hseen (h.unpublished hpub).1, fun hmem => hseen (h.sent hmem).1⟩

theorem seen_of_cpu (hcpu : ∀ irq, s.cpu ≠ .elsewhere irq) :
    s.published ≠ false ∧ .enqueueNewTask ∉ s.ipis := by
  refine h.seen fun hunseen => ?_
  obtain ⟨irq, hcpu'⟩ := hunseen.cpu
  exact hcpu irq hcpu'

theorem running (hcpu : s.cpu = .running irq) : s.queued = 0 ∧ (s.sched = .runnable ∨
        ∃ state interruptible, s.sched = .waiting state interruptible .prePark) ∧
      s.published ≠ false ∧ .enqueueNewTask ∉ s.ipis := by
  have hloc := h.located
  rw [Located, hcpu] at hloc
  exact ⟨hloc.1, hloc.2, h.seen_of_cpu (by simp [hcpu])⟩

theorem parking (hcpu : s.cpu = .parking state interruptible) :
    s.queued = 0 ∧ s.round = .active state ∧
      (s.sched = .runnable ∨ s.sched = .waiting state interruptible .parked) := by
  have hloc := h.located
  rwa [Located, hcpu] at hloc

theorem away (hcpu : Out s.cpu) : Away s := by
  have hloc := h.located
  rcases hcpu with hcpu | ⟨irq, hcpu⟩
  all_goals rwa [Located, hcpu] at hloc

variable {submits : List (Site × ParkState)} {park : ParkState} {site : Site}

/-- **the task ends its round**, or somebody ends it for the task. -/
theorem after_ends {status : WaitStateStatus} {sched : TaskSchedState} {statuses : Statuses}
    (hends : Ends s.sched s.statuses state status sched statuses) (hstatus : status ≠ .armed)
    {round : Round} (hround : round = s.round ∨ round = .idle ∧ ∃ irq, s.cpu = .running irq)
    (hsubmits : (∃ irq, s.cpu = .running irq) ∨ submits ≠ []) :
    Invariant { s with
      sched := sched, statuses := statuses, submits := submits, round := round } := by
  obtain ⟨⟨interruptible, park, hsched⟩, harmed, rfl, rfl⟩ := hends
  have hactive := h.active state interruptible park hsched
  obtain ⟨hpub, hnew⟩ := h.seen fun hunseen => by cases hsched.symm.trans hunseen.sched
  refine ⟨?_, nofun, nofun, ?_, (absurd · hpub), (absurd · hnew)⟩
  · rcases cpu_cases s.cpu with ⟨irq, hcpu⟩ | ⟨state', interruptible', hcpu⟩ | hcpu
    · exact located_running hcpu (h.running hcpu).1 (.inl rfl)
    · obtain ⟨hqueued, hround', -⟩ := h.parking hcpu
      refine located_parking hcpu hqueued ?_ (.inl rfl)
      rcases hround with hround | ⟨-, irq, hcpu'⟩
      · exact hround.trans hround'
      · cases hcpu.symm.trans hcpu'
    · refine located_out hcpu (.inl ⟨rfl, ?_, fun _ _ => .inr ?_⟩)
      · rcases h.away hcpu with ⟨hrun, -⟩ | ⟨hqueued, -⟩
        · cases hsched.symm.trans hrun
        · exact Nat.le_trans (Nat.le_of_eq hqueued) (Nat.zero_le 1)
      · rcases hsubmits with ⟨irq, hcpu'⟩ | hsubmits
        · exact absurd hcpu (by simp [Out, hcpu'])
        · exact hsubmits
  · intro state' _ hround'
    rcases hround with rfl | ⟨rfl, -⟩
    · obtain rfl : state = state' := Round.active.inj (hactive.symm.trans hround')
      show update s.statuses state status state ≠ .armed
      rw [update_self]
      exact hstatus
    · cases hround'

/-- **a placement is handled** on the CPU of the task. -/
theorem after_enqueue (hcode : InCode s.cpu) (hpub : s.published ≠ false) {ipis : List IpiPayload}
    (hnew : .enqueueNewTask ∉ ipis) (park : ParkState) :
    Invariant
      (({ s with submits := submits, ipis := ipis } : TaskPlacement).localWakeEnqueue park).2 := by
  have hkept : ∀ queued, Located { s with submits := submits, ipis := ipis, queued := queued } →
      Invariant { s with submits := submits, ipis := ipis, queued := queued } := fun queued hloc =>
    ⟨hloc, h.armed, h.active, h.ended, (absurd · hpub), (absurd · hnew)⟩
  unfold localWakeEnqueue
  rcases cpu_cases s.cpu with ⟨irq, hcpu⟩ | ⟨state, interruptible, hcpu⟩ | hcpu
  · -- the task is current, and nothing is done
    obtain ⟨hqueued, hsched, -⟩ := h.running hcpu
    have hsame := hkept s.queued (located_running hcpu hqueued hsched)
    have hcurrent : ({ s with submits := submits, ipis := ipis } : TaskPlacement).isLocalCurrentTask
        = true := by simp only [isLocalCurrentTask, hcpu]
    rw [if_pos hcurrent]
    split
    · exact hsame
    · cases park with
      | prePark | parked => exact hsame
  · rw [hcpu] at hcode
    exact hcode.elim
  · have hcurrent : ({ s with submits := submits, ipis := ipis } : TaskPlacement).isLocalCurrentTask
        = false := by
      rcases hcpu with hcpu | ⟨irq, hcpu⟩
      · rw [hcpu] at hcode
        exact hcode.elim
      · simp only [isLocalCurrentTask, hcpu]
    rcases h.away hcpu with ⟨hsched, hle, -⟩ | haway
    · rw [if_neg (not_not.mpr hsched), if_neg (by rw [hcurrent]; exact Bool.false_ne_true)]
      by_cases hqueued : s.queued = 0
      · rw [if_neg (not_not.mpr hqueued)]
        exact hkept _ (located_out hcpu (away_of_queued hsched (congrArg (· + 1) hqueued)))
      · rw [if_pos hqueued]
        exact hkept s.queued (located_out hcpu (.inl ⟨hsched, hle, (absurd · hqueued)⟩))
    · have hsched : s.sched ≠ .runnable := by
        rcases haway with ⟨-, hsched | ⟨_, _, hsched⟩⟩
        all_goals simp [hsched]
      rw [if_pos hsched]
      exact hkept s.queued (located_out hcpu (.inr haway))

theorem published_of_wake_mem (hmem : .wakeUpTaskStaleSafe park ∈ s.ipis) :
    s.published ≠ false ∧ .enqueueNewTask ∉ s.ipis := by
  constructor
  · intro hpub
    rw [(h.unpublished hpub).2] at hmem
    cases hmem
  · intro hnew
    rw [(h.sent hnew).2] at hmem
    cases mem_singleton.mp hmem

theorem after_send (park : ParkState) (hpub : s.published ≠ false)
    (hnew : .enqueueNewTask ∉ s.ipis) :
    Invariant { s with
      submits := submits, ipis := s.ipis ++ [.wakeUpTaskStaleSafe park] } := by
  refine ⟨?_, h.armed, h.active, h.ended, (absurd · hpub), fun hmem => ?_⟩
  · rcases cpu_cases s.cpu with ⟨irq, hcpu⟩ | ⟨state, interruptible, hcpu⟩ | hcpu
    · obtain ⟨hqueued, hsched, -⟩ := h.running hcpu
      exact located_running hcpu hqueued hsched
    · obtain ⟨hqueued, hround, hsched⟩ := h.parking hcpu
      exact located_parking hcpu hqueued hround hsched
    · refine located_out hcpu ?_
      rcases h.away hcpu with ⟨hrun, hle, -⟩ | haway
      · exact .inl ⟨hrun, hle, fun _ _ => .inl (append_ne_nil_of_right_ne_nil _ (by simp))⟩
      · exact .inr haway
  · rcases mem_append.mp hmem with hmem | hmem
    · exact absurd hmem hnew
    · cases mem_singleton.mp hmem

theorem after_requeue (hsched : s.sched = .runnable)
    (hcurrent : s.isLocalCurrentTask = true) (hqueued : s.queued = 0)
    (hcpu : ∀ irq, s.cpu ≠ .elsewhere irq) :
    ∃ t, s.requeueCurrentWith = .ok t ∧ Invariant { t with cpu := .scheduler } := by
  obtain ⟨hpub, hnew⟩ := h.seen_of_cpu hcpu
  refine ⟨{ s with queued := s.queued + 1 }, ?_, ?_⟩
  · rw [requeueCurrentWith, assert_of _ hsched, ok_bind,
      assert_of _ hcurrent, ok_bind, assert_of _ hqueued]
    rfl
  · exact ⟨located_out (.inl rfl) (away_of_queued hsched (congrArg (· + 1) hqueued)), h.armed,
      h.active, h.ended, (absurd · hpub), (absurd · hnew)⟩

omit h in
def Kept (s : TaskPlacement) (call : Call) : Prop := ∃ t, s.run call = .ok t ∧ Invariant t

theorem keeps_publish (hpub : s.published = false) (hsite : site = .owner → InCode s.cpu) :
    Kept s (.publish site) := by
  obtain ⟨hunseen, hipis⟩ := h.unpublished hpub
  obtain ⟨irq, hcpu⟩ := hunseen.cpu
  have hout : Out s.cpu := .inr ⟨irq, hcpu⟩
  cases site with
  | owner =>
    refine ⟨{ s with published := true, queued := s.queued + 1 }, ?_, ?_⟩
    · have hcurrent : ({ s with published := true } : TaskPlacement).isLocalCurrentTask = false := by
        simp only [isLocalCurrentTask, hcpu]
      simp only [run, enqueueNewTask, localEnqueueNewTask, assert_of _ hunseen.sched,
        ok_bind, hcurrent, Bool.false_eq_true, if_false, if_pos hunseen.queued,
        pure_eq]
    · refine ⟨located_out hout (away_of_queued hunseen.sched (congrArg (· + 1) hunseen.queued)),
        h.armed, h.active, h.ended, nofun, fun hmem => ?_⟩
      have hempty : .enqueueNewTask ∈ s.ipis := hmem
      rw [hipis] at hempty
      cases hempty
  | other =>
    have hsent : s.ipis ++ [IpiPayload.enqueueNewTask] = [.enqueueNewTask] := by rw [hipis]; rfl
    refine ⟨{ s with published := true, ipis := s.ipis ++ [.enqueueNewTask] }, ?_, ?_⟩
    · simp only [run, enqueueNewTask, assert_of _ hunseen.sched, ok_bind, pure_eq]
    · refine ⟨located_out hout (.inl ⟨hunseen.sched, ?_, fun _ _ => .inl ?_⟩), h.armed, h.active,
        h.ended, nofun, fun _ => ⟨?_, hsent⟩⟩
      · exact Nat.le_trans (Nat.le_of_eq hunseen.queued) (Nat.zero_le 1)
      · exact append_ne_nil_of_right_ne_nil _ (cons_ne_nil _ _)
      · exact ⟨hunseen.sched, hunseen.round, hunseen.cpu, hunseen.queued, hunseen.submits⟩

theorem runnable_of_idle (hcpu : s.cpu = .running irq)
    (hround : s.round = .idle) : s.sched = .runnable := by
  obtain ⟨-, hsched | ⟨state, interruptible, hsched⟩, -⟩ := h.running hcpu
  · exact hsched
  · cases hround.symm.trans (h.active _ _ _ hsched)

theorem keeps_beginWait (interruptible : Bool) (hcpu : s.cpu = .running irq)
    (hround : s.round = .idle) : Kept s (.beginWait interruptible) := by
  have hsched := h.runnable_of_idle hcpu hround
  obtain ⟨hqueued, -, hpub, hnew⟩ := h.running hcpu
  refine ⟨{ s with
      sched := .waiting s.nextState interruptible .prePark
      statuses := update s.statuses s.nextState .armed
      nextState := s.nextState + 1
      round := .active s.nextState },
    by simp only [run, hsched, Sched.beginWait, pure_eq, ok_bind], ?_⟩
  refine ⟨located_running hcpu hqueued (.inr ⟨_, _, rfl⟩), ?_, ?_, nofun, (absurd · hpub),
    (absurd · hnew)⟩
  · intro state _ _ hwait
    obtain ⟨rfl, -, -⟩ := waiting.inj hwait
    exact update_self ..
  · intro state _ _ hwait
    obtain ⟨rfl, -, -⟩ := waiting.inj hwait
    rfl

theorem keeps_cancelWait (reason : WaitReason) (hcpu : s.cpu = .running irq)
    (hround : s.round = .active state) : Kept s (.cancelWait reason) := by
  obtain ⟨result, sched, statuses, hcancel, hcases⟩ := cancelWait_spec state reason h.armed
  refine ⟨{ s with sched := sched, statuses := statuses }, ?_, ?_⟩
  · simp only [run, hround, hcancel, pure_eq]
  · rcases hcases with hends | ⟨-, rfl, rfl⟩
    · exact h.after_ends hends nofun (.inl rfl) (.inl ⟨irq, hcpu⟩)
    · exact h

theorem keeps_finishWait (hcpu : s.cpu = .running irq)
    (hround : s.round = .active state) : Kept s .finishWait := by
  obtain ⟨outcome, sched, statuses, hfinish, hcases⟩ := finishWait_spec state h.armed
  rcases hcases with ⟨rfl, hends⟩ | ⟨rfl, hnot, rfl, rfl⟩
  · refine ⟨{ s with sched := sched, statuses := statuses, round := .idle },
      by simp only [run, hround, hfinish, pure_eq], ?_⟩
    exact h.after_ends hends nofun (.inr ⟨rfl, irq, hcpu⟩) (.inl ⟨irq, hcpu⟩)
  · obtain ⟨hqueued, hsched, hpub, hnew⟩ := h.running hcpu
    refine ⟨{ s with round := .retiring state },
      by simp only [run, hround, hfinish, pure_eq], ?_⟩
    refine ⟨located_running hcpu hqueued hsched, h.armed, ?_, nofun, (absurd · hpub),
      (absurd · hnew)⟩
    intro state' interruptible park hwait
    obtain rfl : state = state' := Round.active.inj (hround.symm.trans (h.active _ _ _ hwait))
    exact absurd ⟨interruptible, park, hwait⟩ hnot

theorem keeps_retire (hcpu : s.cpu = .running irq)
    (hround : s.round = .retiring state) : Kept s .retire := by
  obtain ⟨hqueued, hsched, hpub, hnew⟩ := h.running hcpu
  have hnot : ∀ state interruptible park, s.sched ≠ .waiting state interruptible park := by
    intro state' _ _ hwait
    cases hround.symm.trans (h.active _ _ _ hwait)
  refine ⟨{ s with
      statuses := update s.statuses state (WaitState.retire (s.statuses state)).2
      round := .idle }, by simp only [run, hround, pure_eq], ?_⟩
  exact ⟨located_running hcpu hqueued hsched, fun _ _ _ hwait => absurd hwait (hnot _ _ _),
    fun _ _ _ hwait => absurd hwait (hnot _ _ _), nofun, (absurd · hpub), (absurd · hnew)⟩

/-- **the park.**  A round that is over is not parked in. -/
theorem keeps_waitSleep (hcpu : s.cpu = .running false)
    (hround : s.round = .active state) : Kept s .waitSleep := by
  obtain ⟨hqueued, hsched | ⟨state', interruptible, hsched⟩, hpub, hnew⟩ := h.running hcpu
  · have hended := h.ended state hsched hround
    refine ⟨s, ?_, h⟩
    simp only [run, hround, scheduleInner, hsched, decideSchedule, if_pos hended, pure_eq, ok_bind]
    rw [← hsched, ← hround]
  · obtain rfl : state = state' := Round.active.inj (hround.symm.trans (h.active _ _ _ hsched))
    refine ⟨{ s with
        sched := .waiting state interruptible .parked, cpu := .parking state interruptible }, ?_, ?_⟩
    · simp only [run, hround, scheduleInner, hsched, decideSchedule, if_true, pure_eq, ok_bind]
    refine ⟨located_parking rfl hqueued hround (.inr rfl), ?_, ?_, nofun, (absurd · hpub),
      (absurd · hnew)⟩
    · intro state' _ _ hwait
      obtain ⟨rfl, -, -⟩ := waiting.inj hwait
      exact h.armed _ _ _ hsched
    · intro state' _ _ hwait
      obtain ⟨rfl, -, -⟩ := waiting.inj hwait
      exact h.active _ _ _ hsched

omit h in
theorem current_of_cpu {cpu : Cpu} (hcpu : s.cpu = cpu)
    (hcurrent : ({ s with cpu := cpu } : TaskPlacement).isLocalCurrentTask = true) :
    s.isLocalCurrentTask = true ∧ ∀ irq, s.cpu ≠ .elsewhere irq := by
  subst hcpu
  refine ⟨hcurrent, fun irq hc => ?_⟩
  simp only [isLocalCurrentTask, hc] at hcurrent
  cases hcurrent

/-- **the second look**: a task that was woken while it parked goes on the queue. -/
theorem keeps_afterPark (hcpu : s.cpu = .parking state interruptible) : Kept s .afterPark := by
  obtain ⟨hqueued, -, hsched⟩ := h.parking hcpu
  obtain ⟨hcurrent, hcpu'⟩ := current_of_cpu hcpu rfl
  rcases hsched with hsched | hsched
  · obtain ⟨t, hrun, ht⟩ := h.after_requeue hsched hcurrent hqueued hcpu'
    refine ⟨_, ?_, ht⟩
    simp only [run, hcpu, afterPark, hsched, hrun, ok_bind, pure_eq]
  · obtain ⟨hpub, hnew⟩ := h.seen_of_cpu hcpu'
    refine ⟨{ s with cpu := .scheduler }, ?_, ?_⟩
    · simp only [run, hcpu, afterPark, hsched, if_true, putPrevCurrentWith,
        assert_of _ hcurrent, assert_of _ hqueued, assert_of _ trivial,
        ok_bind, pure_eq]
    · exact ⟨located_out (.inl rfl) (.inr ⟨hqueued, .inr ⟨_, _, hsched⟩⟩), h.armed, h.active,
        h.ended, (absurd · hpub), (absurd · hnew)⟩

/-- **a current task that may run is switched out**, on a yield or a preemption. -/
theorem after_switch (hcpu : s.cpu = .running irq) (hsched : s.sched = .runnable) :
    ∃ t, s.requeueCurrentWith = .ok t ∧ Invariant { t with cpu := .scheduler } ∧
      { s with sched := runnable } = s := by
  obtain ⟨hcurrent, hcpu'⟩ := current_of_cpu hcpu rfl
  obtain ⟨t, hrun, ht⟩ := h.after_requeue hsched hcurrent (h.running hcpu).1 hcpu'
  exact ⟨t, hrun, ht, by rw [← hsched]⟩

theorem keeps_preempt (hcpu : s.cpu = .running irq) : Kept s .preempt := by
  obtain ⟨-, hsched | ⟨state, interruptible, hsched⟩, -⟩ := h.running hcpu
  · obtain ⟨t, hrun, ht, hsame⟩ := h.after_switch hcpu hsched
    refine ⟨_, ?_, ht⟩
    simp only [run, scheduleInner, hsched, decideSchedule, pure_eq, ok_bind, hsame, hrun]
  · refine ⟨s, ?_, h⟩
    simp only [run, scheduleInner, hsched, decideSchedule, pure_eq, ok_bind]
    rw [← hsched]

theorem keeps_yield (hcpu : s.cpu = .running irq) (hround : s.round = .idle) :
    Kept s .yield := by
  have hsched := h.runnable_of_idle hcpu hround
  obtain ⟨t, hrun, ht, hsame⟩ := h.after_switch hcpu hsched
  refine ⟨_, ?_, ht⟩
  simp only [run, scheduleInner, hsched, decideSchedule, pure_eq, ok_bind, hsame, hrun]

theorem keeps_zombie (hcpu : s.cpu = .running irq) (hround : s.round = .idle) :
    Kept s .zombie := by
  obtain ⟨hqueued, -, hpub, hnew⟩ := h.running hcpu
  have hsched := h.runnable_of_idle hcpu hround
  have hcurrent : ({ s with sched := .zombie } : TaskPlacement).isLocalCurrentTask = true := by
    simp only [isLocalCurrentTask, hcpu]
  refine ⟨{ s with sched := .zombie, cpu := .scheduler }, ?_, ?_⟩
  · simp only [run, scheduleInner, hsched, decideSchedule, pure_eq, ok_bind,
      putPrevCurrentWith, assert_of _ hcurrent, assert_of _ hqueued]
  · exact ⟨located_out (.inl rfl) (.inr ⟨hqueued, .inl rfl⟩), nofun, nofun, nofun,
      (absurd · hpub), (absurd · hnew)⟩

/-- **another task is current** before and after the call. -/
theorem elsewhere (hout : Out s.cpu) (irq : Bool) :
    Invariant { s with cpu := .elsewhere irq } := by
  have hstill : Unseen s → Unseen { s with cpu := .elsewhere irq } :=
    fun hu => ⟨hu.sched, hu.round, ⟨irq, rfl⟩, hu.queued, hu.submits⟩
  exact ⟨located_out (.inr ⟨irq, rfl⟩) (h.away hout), h.armed, h.active, h.ended,
    fun hpub => ⟨hstill (h.unpublished hpub).1, (h.unpublished hpub).2⟩,
    fun hmem => ⟨hstill (h.sent hmem).1, (h.sent hmem).2⟩⟩

theorem keeps_setIrq (irq : Bool) (hcode : InCode s.cpu) : Kept s (.setIrq irq) := by
  cases hcpu : s.cpu with
  | running irq' =>
    obtain ⟨hqueued, hsched, hpub, hnew⟩ := h.running hcpu
    refine ⟨{ s with cpu := .running irq }, by simp only [run, hcpu, pure_eq], ?_⟩
    exact ⟨located_running rfl hqueued hsched, h.armed, h.active, h.ended, (absurd · hpub),
      (absurd · hnew)⟩
  | elsewhere irq' =>
    exact ⟨{ s with cpu := .elsewhere irq }, by simp only [run, hcpu, pure_eq],
      h.elsewhere (.inr ⟨irq', hcpu⟩) irq⟩
  | parking | scheduler =>
    rw [hcpu] at hcode
    exact hcode.elim

theorem keeps_pick {this : Bool} (hout : Out s.cpu) (hthis : this = true → 0 < s.queued) :
    Kept s (.pick this) := by
  cases this with
  | true =>
    have hpos := hthis rfl
    obtain ⟨hpub, hnew⟩ := h.seen fun hu => by have := hu.queued; omega
    rcases h.away hout with ⟨hsched, hle, -⟩ | ⟨hzero, -⟩
    swap
    · omega
    refine ⟨{ s with queued := s.queued - 1, cpu := .running false }, ?_, ?_⟩
    · simp only [run, if_true, localPickNext, assert_of _ hsched, ok_bind, pure_eq]
    · refine ⟨located_running rfl ?_ (.inl hsched), h.armed, h.active, h.ended,
        (absurd · hpub), (absurd · hnew)⟩
      show s.queued - 1 = 0
      omega
  | false => exact ⟨{ s with cpu := .elsewhere false }, rfl, h.elsewhere hout false⟩

/-- **a wake-up** that ends the round leaves a placement to be submitted. -/
theorem keeps_wake (site : Site) (token : Option ℕ) (reason : WaitReason)
    (mode : WakeMode) : Kept s (.wake site token reason mode) := by
  obtain ⟨commit, sched, statuses, hcommit, hcases⟩ :=
    commitWake_spec s.sched s.statuses token reason mode
  rcases hcases with ⟨state, park, hends, -, rfl⟩ | ⟨rfl, rfl, hnot⟩
  · refine ⟨{ s with sched := sched, statuses := statuses, submits := (site, park) :: s.submits },
      ?_, ?_⟩
    · simp only [run, hcommit, ok_bind, finishWakeAttempt, pure_eq]
    · exact h.after_ends hends nofun (.inl rfl) (.inr (cons_ne_nil _ _))
  · refine ⟨s, ?_, h⟩
    have hnone : (finishWakeAttempt commit).2 = none := by
      cases commit with
      | woke park => exact absurd rfl (hnot park)
      | modeBlocked | stale | alreadyCompleted | alreadyCancelled | retired => rfl
    simp only [run, hcommit, ok_bind, hnone, pure_eq]

theorem keeps_submit {before after : List (Site × ParkState)}
    (hsubmits : s.submits = before ++ (site, park) :: after) (hsite : site = .owner → InCode s.cpu) :
    Kept s (.submit before after site park) := by
  have hne : s.submits ≠ [] := by
    rw [hsubmits]
    exact append_ne_nil_of_right_ne_nil _ (cons_ne_nil _ _)
  obtain ⟨hpub, hnew⟩ := h.seen fun hu => hne hu.submits
  refine ⟨_, rfl, ?_⟩
  cases site with
  | owner => exact h.after_enqueue (hsite rfl) hpub hnew park
  | other => exact h.after_send park hpub hnew

theorem keeps_deliver {before after : List IpiPayload} {payload : IpiPayload}
    (hipis : s.ipis = before ++ payload :: after)
    (hcpu : s.cpu = .running true ∨ s.cpu = .elsewhere true) :
    Kept s (.deliver before after payload) := by
  have hcode : InCode s.cpu := by
    rcases hcpu with hcpu | hcpu
    all_goals
      rw [hcpu]
      trivial
  have hmem : payload ∈ s.ipis := by
    rw [hipis]
    exact mem_append_right _ mem_cons_self
  cases payload with
  | wakeUpTaskStaleSafe park =>
    obtain ⟨hpub, hnew⟩ := h.published_of_wake_mem hmem
    refine ⟨_, rfl, h.after_enqueue hcode hpub ?_ park⟩
    intro hin
    refine hnew ?_
    rw [hipis]
    exact ((sublist_cons_self _ _).append_left _).subset hin
  | enqueueNewTask =>
    obtain ⟨hunseen, hone⟩ := h.sent hmem
    obtain ⟨irq, hcpu'⟩ := hunseen.cpu
    have hrest : before ++ after = [] := by
      rw [hipis] at hone
      have hlen := congrArg length hone
      rw [length_append, length_cons, length_singleton] at hlen
      refine length_eq_zero_iff.mp ?_
      rw [length_append]
      omega
    refine ⟨{ s with ipis := before ++ after, queued := s.queued + 1 }, ?_, ?_⟩
    · have hcurrent : ({ s with ipis := before ++ after } : TaskPlacement).isLocalCurrentTask
          = false := by simp only [isLocalCurrentTask, hcpu']
      simp only [run, handleIpi, localEnqueueNewTask, assert_of _ hunseen.sched,
        ok_bind, hcurrent, Bool.false_eq_true, if_false, if_pos hunseen.queued,
        pure_eq]
    · refine ⟨located_out (.inr ⟨irq, hcpu'⟩)
        (away_of_queued hunseen.sched (congrArg (· + 1) hunseen.queued)),
        h.armed, h.active, h.ended, fun hpub => ?_, fun hin => ?_⟩
      · have hempty := (h.unpublished hpub).2
        rw [hone] at hempty
        cases hempty
      · have hin' : .enqueueNewTask ∈ before ++ after := hin
        rw [hrest] at hin'
        cases hin'

/-- **no call panics, and every call keeps the invariant.** -/
theorem keeps (call : Call) (henabled : s.Enabled call) : Kept s call := by
  cases call with
  | publish site => exact h.keeps_publish henabled.1 henabled.2
  | beginWait interruptible =>
    obtain ⟨⟨irq, hcpu⟩, hround⟩ := henabled
    exact h.keeps_beginWait interruptible hcpu hround
  | cancelWait reason =>
    obtain ⟨⟨irq, hcpu⟩, state, hround⟩ := henabled
    exact h.keeps_cancelWait reason hcpu hround
  | finishWait =>
    obtain ⟨⟨irq, hcpu⟩, state, hround⟩ := henabled
    exact h.keeps_finishWait hcpu hround
  | retire =>
    obtain ⟨⟨irq, hcpu⟩, state, hround⟩ := henabled
    exact h.keeps_retire hcpu hround
  | waitSleep =>
    obtain ⟨hcpu, state, hround⟩ := henabled
    exact h.keeps_waitSleep hcpu hround
  | afterPark =>
    obtain ⟨state, interruptible, hcpu⟩ := henabled
    exact h.keeps_afterPark hcpu
  | preempt =>
    obtain ⟨irq, hcpu⟩ := henabled
    exact h.keeps_preempt hcpu
  | yield => exact h.keeps_yield henabled.1 henabled.2
  | zombie => exact h.keeps_zombie henabled.1 henabled.2
  | setIrq irq => exact h.keeps_setIrq irq henabled
  | pick this => exact h.keeps_pick henabled.1 henabled.2
  | wake site token reason mode => exact h.keeps_wake site token reason mode
  | submit before after site park => exact h.keeps_submit henabled.1 henabled.2
  | deliver before after payload => exact h.keeps_deliver henabled.1 henabled.2

end

end Invariant

end Anemone.Sched.TaskPlacement
