import Anemone.Interface.MutexSafety
import Anemone.Analysis.ListenerTracking

/-!
# The stages of a locker and its round

A task in `lock` holds the guard of the round it waits in: the round is armed and the task waits
in it, or it was completed and the task is runnable.  A step leaves the other tasks alone.
-/

namespace Anemone.Sched

open Function (update_self update_of_ne update)
open LockStage Event Function List

/-- The round was completed by a publication or by force. -/
def Served (r : Rounds) (token : ℕ) : Prop :=
  r.statuses token = .completed .event ∨ r.statuses token = .completed .force

/-- The task waits in the round, or was woken from it. -/
def Live (r : Rounds) (task token : ℕ) : Prop :=
  (∃ park, r.sched task = .waiting token false park) ∨ r.sched task = .runnable ∧ Served r token

/-- What the rounds show of a task in the stage. -/
def StageOk (r : Rounds) (task : ℕ) : LockStage → Prop
  | .begun _ token | .registered _ token | .failed token | .won token =>
    (task, token) ∈ r.guards ∧ Live r task token
  | .resumed token | .cleaned token =>
    (task, token) ∈ r.guards ∧ r.sched task = .runnable ∧ Served r token
  | .retiring token => (task, token) ∈ r.retiring ∧ r.sched task = .runnable ∧ Served r token
  | .wonCancelled token | .wonCleaned token =>
    (task, token) ∈ r.guards ∧ r.sched task = .runnable
  | .wonRetiring token => (task, token) ∈ r.retiring ∧ r.sched task = .runnable
  | .panicked _ => False
  | .outside | .called | .slow _ | .acquired | .guard | .unlocking | .publishing _ =>
    r.sched task = .runnable

variable {r r' : Rounds} {task token : ℕ} {stage : LockStage}

theorem Live.congr (h : Live r task token) (hsched : r'.sched task = r.sched task)
    (hstatus : r'.statuses token = r.statuses token) : Live r' task token := by
  rw [Live, Served, hsched, hstatus]
  exact h

/-- **what a stage needs of the rounds**: the guard, the wait, and a runnable task. -/
theorem StageOk.map (h : StageOk r task stage)
    (hguards : ∀ token, (task, token) ∈ r.guards → (task, token) ∈ r'.guards)
    (hretiring : ∀ token, (task, token) ∈ r.retiring → (task, token) ∈ r'.retiring)
    (hlive : ∀ token, (task, token) ∈ r.held → Live r task token → Live r' task token)
    (hrun : r.sched task = .runnable → r'.sched task = .runnable) : StageOk r' task stage := by
  have hserved {token : ℕ} (hmem : (task, token) ∈ r.held)
      (hok : r.sched task = .runnable ∧ Served r token) :
      r'.sched task = .runnable ∧ Served r' token := by
    rcases hlive token hmem (.inr hok) with ⟨park, hsched⟩ | hok'
    · cases (hrun hok.1).symm.trans hsched
    · exact hok'
  cases stage with
  | begun again token | registered again token | failed token | won token =>
    exact ⟨hguards token h.1, hlive token (mem_append_left _ h.1) h.2⟩
  | resumed token | cleaned token =>
    exact ⟨hguards token h.1, hserved (mem_append_left _ h.1) h.2⟩
  | retiring token => exact ⟨hretiring token h.1, hserved (mem_append_right _ h.1) h.2⟩
  | wonCancelled token | wonCleaned token => exact ⟨hguards token h.1, hrun h.2⟩
  | wonRetiring token => exact ⟨hretiring token h.1, hrun h.2⟩
  | panicked => exact h
  | _ => exact hrun h

theorem StageOk.framed (h : StageOk r task stage) (hframed : Rounds.Framed task r r') :
    StageOk r' task stage := by
  obtain ⟨hsched, hguards, hretiring⟩ := hframed
  refine h.map (fun token hmem => (hguards token hmem).1) (fun token hmem => (hretiring token hmem).1)
    (fun token hmem hlive => hlive.congr hsched ?_) hsched.trans
  rcases mem_append.mp hmem with hmem | hmem
  · exact (hguards token hmem).2
  · exact (hretiring token hmem).2

/-- The wake-up is one that a wait in `lock` has to expect. -/
def Expected (reason : WaitReason) (mode : WakeMode) : Prop :=
  reason = .event ∨ reason = .force ∨ mode = .interruptibleOnly

variable {reason : WaitReason} {commit : WakeCommit} {mode : WakeMode}

theorem wakeRound_runnable {token : Option ℕ} (hsched : r.sched task = .runnable)
    (h : r.wakeRound task token reason mode = .ok (commit, r')) :
    r'.sched = r.sched ∧ r'.statuses = r.statuses := by
  obtain ⟨⟨commit', sched, statuses⟩, hcommit, hok⟩ := Checked.bind_eq_ok.mp h
  cases hok
  rw [hsched] at hcommit
  cases hcommit
  refine ⟨?_, rfl⟩
  show update r.sched task .runnable = r.sched
  rw [← hsched, update_eq_self]

variable {wakeToken : Option ℕ} {sched : TaskSchedState}

/-- **a wake-up of a wait in `lock`**: it does nothing, or it completes the round with
its reason. -/
theorem Live.wake (hinv : r.Invariant) (h : Live r task token) (hexpected : Expected reason mode)
    (hwake : r.wakeRound task wakeToken reason mode = .ok (commit, r')) : Live r' task token := by
  rcases h with ⟨park, hsched⟩ | ⟨hsched, hserved⟩
  · have harmed := hinv.armed' task _ _ _ hsched
    obtain ⟨⟨commit', sched, statuses⟩, hcommit, hok⟩ := Checked.bind_eq_ok.mp hwake
    cases hok
    rw [hsched] at hcommit
    by_cases htoken : wakeToken = none ∨ wakeToken = some token
    · rw [commitWake_armed htoken harmed] at hcommit
      split at hcommit
      · rename_i hmode
        cases hcommit
        refine .inr ⟨update_self _ _ _, ?_⟩
        show update r.statuses token _ token = _ ∨ update r.statuses token _ token = _
        rw [update_self]
        rcases hexpected with rfl | rfl | rfl
        · exact .inl rfl
        · exact .inr rfl
        · cases hmode
      · cases hcommit
        exact .inl ⟨park, update_self _ _ _⟩
    · rw [commitWake, if_neg htoken] at hcommit
      cases hcommit
      exact .inl ⟨park, update_self _ _ _⟩
  · obtain ⟨hsched', hstatuses⟩ := wakeRound_runnable hsched hwake
    exact Live.congr (.inr ⟨hsched, hserved⟩) (by rw [hsched']) (by rw [hstatuses])

theorem wakeRound_guards (h : r.wakeRound task wakeToken reason mode = .ok (commit, r')) :
    r'.guards = r.guards ∧ r'.retiring = r.retiring := by
  obtain ⟨_, _, hok⟩ := Checked.bind_eq_ok.mp h
  cases hok
  exact ⟨rfl, rfl⟩

theorem StageOk.wake (hinv : r.Invariant) (h : StageOk r task stage)
    (hexpected : Expected reason mode)
    (hwake : r.wakeRound task wakeToken reason mode = .ok (commit, r')) :
    StageOk r' task stage := by
  obtain ⟨hguards, hretiring⟩ := wakeRound_guards hwake
  refine h.map (fun _ hmem => hguards ▸ hmem) (fun _ hmem => hretiring ▸ hmem)
    (fun _ _ hlive => hlive.wake hinv hexpected hwake) fun hsched => ?_
  rw [(wakeRound_runnable hsched hwake).1, hsched]

/-- the scheduler parks a task or lets it run, but does not end its wait. -/
theorem StageOk.schedule (h : StageOk r task stage) {mode : ScheduleMode}
    {decision : ScheduleDecision} (hmode : mode ≠ .zombie)
    (hdecide : decideSchedule mode (r.sched task) r.statuses = .ok (sched, decision)) :
    StageOk (r.setSched task sched r.statuses) task stage := by
  have hself : (r.setSched task sched r.statuses).sched task = sched := update_self _ _ _
  have hrunnable (hsched : r.sched task = .runnable) : sched = .runnable := by
    rw [hsched] at hdecide
    cases mode with
    | zombie => exact absurd rfl hmode
    | waitSleep token =>
      simp only [decideSchedule] at hdecide
      split at hdecide
      · cases hdecide
        rfl
      · cases hdecide
    | _ =>
      cases hdecide
      rfl
  refine h.map (fun _ hmem => hmem) (fun _ hmem => hmem) (fun token _ hlive => ?_)
    fun hsched => hself.trans (hrunnable hsched)
  rcases hlive with ⟨park, hsched⟩ | ⟨hsched, hserved⟩
  · have hwaits := Rounds.waits_decideSchedule hdecide
    rw [hsched] at hwaits
    obtain ⟨park', hsched'⟩ := Rounds.waits_eq.mp hwaits
    exact .inl ⟨park', hself.trans hsched'⟩
  · exact .inr ⟨hself.trans (hrunnable hsched), hserved⟩

namespace MutexSystem

variable {s t : MutexSystem}

structure Words (s : MutexSystem) : Prop where
  exclusive : ∀ task task', (s.stage task).owns → (s.stage task').owns → task = task'
  locked : ∀ task, (s.stage task).owns → s.locked = true
  locker : ∀ task, s.locker = some task ↔ s.stage task = .guard

section Moves

variable {task : ℕ} {stage : LockStage}

theorem owns_update (hstage : t.stage = update s.stage task stage) {task' : ℕ}
    (hne : task' ≠ task) : t.stage task' = s.stage task' := by
  rw [hstage, update_of_ne hne]

theorem Words.move (h : Words s) (hstage : t.stage = update s.stage task stage)
    (howns : stage.owns = (s.stage task).owns) (hbefore : s.stage task ≠ .guard)
    (hguard : stage ≠ .guard) (hlocked : t.locked = s.locked) (hlocker : t.locker = s.locker) :
    Words t := by
  have hself : t.stage task = stage := by rw [hstage, update_self]
  have hsame (task' : ℕ) : (t.stage task').owns = (s.stage task').owns := by
    by_cases htask : task' = task
    · rw [htask, hself, howns]
    · rw [owns_update hstage htask]
  refine ⟨?_, ?_, ?_⟩
  · intro task' task'' h' h''
    rw [hsame] at h' h''
    exact h.exclusive _ _ h' h''
  · intro task' h'
    rw [hsame] at h'
    rw [hlocked]
    exact h.locked _ h'
  · intro task'
    rw [hlocker, h.locker]
    by_cases htask : task' = task
    · rw [htask, hself]
      exact iff_of_false hbefore hguard
    · rw [owns_update hstage htask]

/-- **the task that moves is the only one with the lock word**, if anybody has it. -/
theorem Words.sole (hsole : ∀ task', task' ≠ task → ¬ (s.stage task').owns)
    (hstage : t.stage = update s.stage task stage) (hlocked : stage.owns → t.locked = true)
    (hlocker : t.locker = if stage = .guard then some task else none) : Words t := by
  have hself : t.stage task = stage := by rw [hstage, update_self]
  have honly (task' : ℕ) (h' : (t.stage task').owns) : task' = task := by
    by_contra hne
    rw [owns_update hstage hne] at h'
    exact hsole task' hne h'
  refine ⟨?_, ?_, ?_⟩
  · intro task' task'' h' h''
    rw [honly task' h', honly task'' h'']
  · intro task' h'
    rw [honly task' h', hself] at h'
    exact hlocked h'
  · intro task'
    rw [hlocker]
    constructor
    · intro hsome
      split at hsome
      · rename_i hguard
        rw [← Option.some.inj hsome, hself, hguard]
      · cases hsome
    · intro hguard
      obtain rfl := honly task' (by rw [hguard]; rfl)
      rw [if_pos (hself.symm.trans hguard)]

theorem Words.others (h : Words s) (hbefore : (s.stage task).owns) (task' : ℕ)
    (hne : task' ≠ task) : ¬ (s.stage task').owns :=
  fun howns => hne (h.exclusive task' task howns hbefore)

theorem Words.locker_none (h : Words s) (hsole : ∀ task', task' ≠ task → ¬ (s.stage task').owns)
    (hguard : s.stage task ≠ .guard) : s.locker = none := by
  cases hlocker : s.locker with
  | none => rfl
  | some task' =>
    have hguard' := (h.locker task').mp hlocker
    by_cases htask : task' = task
    · exact absurd (htask ▸ hguard') hguard
    · exact absurd (by rw [hguard']; rfl) (hsole task' htask)

end Moves

theorem Words.tryLock (h : Words s) {task : ℕ} {taken notTaken : LockStage}
    (hbefore : (s.stage task).owns = false) (htaken : taken ≠ .guard)
    (hnot : notTaken.owns = false) : Words (s.tryLock task taken notTaken) := by
  have hguard {stage : LockStage} (howns : stage.owns = false) : stage ≠ .guard := by
    rintro rfl
    cases howns
  unfold MutexSystem.tryLock
  split
  · exact h.move rfl (hnot.trans hbefore.symm) (hguard hbefore) (hguard hnot) rfl rfl
  · rename_i hlocked
    have hsole (task' : ℕ) (_ : task' ≠ task) (howns : (s.stage task').owns) : False :=
      hlocked (h.locked task' howns)
    refine Words.sole hsole rfl (fun _ => rfl) ?_
    rw [if_neg htaken]
    exact h.locker_none hsole (hguard hbefore)

/-- **the assertions on the locker hold.** -/
theorem Words.locker_of_acquired (h : Words s) {task : ℕ} (hstage : s.stage task = .acquired) :
    s.locker = none :=
  h.locker_none (h.others (by rw [hstage]; rfl)) (by rw [hstage]; exact nofun)

theorem Words.of_guard (h : Words s) {task : ℕ} (hstage : s.stage task = .guard) :
    s.locked ≠ false ∧ s.locker = some task := by
  rw [h.locked task (by rw [hstage]; rfl)]
  exact ⟨nofun, (h.locker task).mpr hstage⟩

theorem afterWait_owns (outcome : WaitOutcome) :
    (afterWait outcome).owns = false ∧ afterWait outcome ≠ .guard := by
  unfold afterWait
  split <;> exact ⟨rfl, nofun⟩

theorem Words.step (h : Words s) (hstep : Step s t) : Words t := by
  have hmove {task : ℕ} {stage stage' : LockStage} {t : MutexSystem}
      (hstage : s.stage task = stage) (ht : t.stage = update s.stage task stage')
      (howns : stage'.owns = stage.owns) (hguard : stage ≠ .guard) (hguard' : stage' ≠ .guard)
      (hlocked : t.locked = s.locked) (hlocker : t.locker = s.locker) : Words t := by
    subst hstage
    exact h.move ht howns hguard hguard' hlocked hlocker
  cases hstep with
  | call stage =>
    refine hmove stage rfl ?_ nofun ?_ rfl rfl
    · split <;> rfl
    · split <;> exact nofun
  | fast stage | test stage => exact h.tryLock (by rw [stage]; rfl) nofun rfl
  | beginWait stage | beginPanics stage | register stage | resume stage | clean stage
  | retireWon stage | cancelWon stage | cleanWon stage | published stage =>
    exact hmove stage rfl rfl nofun nofun rfl rfl
  | finish stage held hfinish =>
    rename_i outcome sched statuses
    cases outcome with
    | none => exact hmove stage rfl rfl nofun nofun rfl rfl
    | some outcome =>
      obtain ⟨howns, hguard⟩ := afterWait_owns outcome
      exact hmove stage rfl howns nofun hguard rfl rfl
  | retire stage called =>
    obtain ⟨howns, hguard⟩ := afterWait_owns _
    exact hmove stage rfl howns nofun hguard rfl rfl
  | finishWon stage held hfinish =>
    refine hmove stage rfl ?_ nofun ?_ rfl rfl
    · split <;> rfl
    · split <;> exact nofun
  | claim stage =>
    rw [if_pos (h.locker_of_acquired stage)]
    have hbefore := h.locked _ (by rw [stage]; rfl)
    exact Words.sole (h.others (by rw [stage]; rfl)) rfl (fun _ => hbefore) rfl
  | drop stage =>
    obtain ⟨hlocked, hlocker⟩ := h.of_guard stage
    rw [if_neg hlocked, if_pos hlocker]
    exact Words.sole (h.others (by rw [stage]; rfl)) rfl (fun _ => Bool.ne_false_iff.mp hlocked) rfl
  | unlock stage =>
    have hsole := h.others (by rw [stage]; rfl)
    exact Words.sole hsole rfl nofun (h.locker_none hsole (by rw [stage]; exact nofun))
  | publish | notify | submit | schedule => exact ⟨h.exclusive, h.locked, h.locker⟩

structure Base (s : MutexSystem) : Prop where
  words : Words s
  system : s.system.Invariant
  stages : ∀ task, StageOk s.rounds task (s.stage task)

theorem Base.stageOk (h : Base s) {task : ℕ} {stage : LockStage} (hstage : s.stage task = stage) :
    StageOk s.rounds task stage := hstage ▸ h.stages task

/-- What a step does to the stages and to the event: one task changes its stage, or its round
is completed, and nobody else is touched. -/
structure Acts (s t : MutexSystem) (task : ℕ) (stage : LockStage) : Prop where
  stages : t.stage = update s.stage task stage
  framed : ∀ task', task' ≠ task → Rounds.Framed task' s.rounds t.rounds
  ok : StageOk t.rounds task stage
  system : t.system = s.system ∨ ∃ label, EventSystem.Step s.system label t.system ∧
    (label.publisher ≠ none → t.stage = s.stage)

theorem framed_refl (task : ℕ) (r : Rounds) : Rounds.Framed task r r :=
  ⟨rfl, fun _ hg => ⟨hg, rfl⟩, fun _ hg => ⟨hg, rfl⟩⟩

/-- **a step that leaves the rounds alone.** -/
theorem Acts.quiet {task : ℕ} {stage : LockStage}
    (hstage : t.stage = update s.stage task stage) (hok : StageOk s.rounds task stage)
    (hrounds : t.rounds = s.rounds)
    (hsystem : t.system = s.system ∨ ∃ label, EventSystem.Step s.system label t.system ∧
      (label.publisher ≠ none → t.stage = s.stage)) : Acts s t task stage := by
  refine ⟨hstage, ?_, hrounds ▸ hok, hsystem⟩
  intro task' _
  rw [hrounds]
  exact framed_refl _ _

theorem Base.acts_rounds (h : Base s) {stage : LockStage} {label : Rounds.Label}
    {rounds : Rounds} (hround : Rounds.Step s.rounds label rounds)
    (hstage : t.stage = update s.stage label.task stage)
    (hok : StageOk rounds label.task stage) (hsystem : t.system = s.system.setRounds rounds) :
    Acts s t label.task stage := by
  have hrounds : t.rounds = rounds := by rw [MutexSystem.rounds, hsystem]; rfl
  have hstep : EventSystem.Step s.system _ t.system := hsystem ▸ EventSystem.Step.rounds hround
  refine ⟨hstage, ?_, hrounds ▸ hok, .inr ⟨_, hstep, fun hc => absurd rfl hc⟩⟩
  intro task' hne
  rw [hrounds]
  exact (hround.done h.system.rounds).framed task' hne.symm

theorem afterWait_of_served {r : Rounds} {token : ℕ} (h : Served r token) :
    afterWait (WaitState.retire (r.statuses token)).1 = .slow true := by
  rcases h with h | h
  all_goals
    rw [h]
    rfl

theorem finishWait_runnable {statuses statuses' : Statuses} {token : ℕ}
    {outcome : Option WaitOutcome}
    (h : finishWait .runnable statuses token = (outcome, sched, statuses')) :
    outcome = none ∧ sched = .runnable ∧ statuses' = statuses := by
  cases h
  exact ⟨rfl, rfl, rfl⟩

theorem not_armed_of_runnable {r : Rounds} (hinv : r.Invariant) {task token : ℕ}
    (hguard : (task, token) ∈ r.guards) (hsched : r.sched task = .runnable) :
    r.statuses token ≠ .armed := by
  intro harmed
  have howned : Owned r ⟨task, token⟩ := Owned.of_guard hinv hguard
  obtain ⟨interruptible, hwaits⟩ := howned.waits hinv harmed
  rw [hsched] at hwaits
  cases hwaits

/-- the lock word is tried by a task whose two next stages are both right. -/
theorem Acts.of_tryLock {task : ℕ} {taken notTaken : LockStage}
    (htaken : StageOk s.rounds task taken) (hnot : StageOk s.rounds task notTaken) :
    ∃ task' stage, Acts s (s.tryLock task taken notTaken) task' stage := by
  unfold tryLock
  split
  · exact ⟨task, notTaken, .quiet rfl hnot rfl (.inl rfl)⟩
  · exact ⟨task, taken, .quiet rfl htaken rfl (.inl rfl)⟩

/-- **a call of `publish` completes a round or touches nobody.** -/
theorem Base.acts_publish (h : Base s) (task : ℕ) {i : ℕ} {p q : Publish} {label : Publish.Label}
    {e : Event} (hcall : s.system.publishes[i]? = some p)
    (hpublish : Publish.Step s.system.event p label e q) :
    ∃ task' stage, Acts s { s with system := ⟨e, s.system.publishes.set i q⟩ } task' stage := by
  have hsystem : EventSystem.Step s.system (.step i label) ⟨e, s.system.publishes.set i q⟩ :=
    .step hcall hpublish
  have hsame (hrounds : e.rounds = s.rounds) :
      Acts s { s with system := ⟨e, s.system.publishes.set i q⟩ } task (s.stage task) :=
    .quiet (update_eq_self _ _).symm (h.stages task) hrounds (.inr ⟨_, hsystem, fun _ => rfl⟩)
  cases hpublish with
  | wake phase hwake =>
    rename_i kind left listener commit rounds
    have howned := h.system.owned listener
      (.inr ⟨p, mem_of_getElem? hcall, kind, by rw [phase]; rfl⟩)
    have hround := Rounds.wakeRound_step (fun state hstate => by cases hstate; exact howned.1) hwake
    refine ⟨listener.task, s.stage listener.task, (update_eq_self _ _).symm, ?_, ?_,
      .inr ⟨_, hsystem, fun _ => rfl⟩⟩
    · intro task' hne
      exact (hround.done h.system.rounds).framed _ hne.symm
    · exact (h.stages listener.task).wake h.system.rounds (.inl rfl) hwake
  | pop => exact ⟨_, _, hsame setQueue_rounds⟩
  | requeue => exact ⟨_, _, hsame enqueue_rounds⟩
  | _ => exact ⟨_, _, hsame rfl⟩

/-- **every step is of one task.** -/
theorem Base.acts (h : Base s) (hstep : Step s t) : ∃ task stage, Acts s t task stage := by
  cases hstep with
  | call stage =>
    rename_i task
    have hlocker : s.locker ≠ some task := by
      intro hlocker
      have hguard := (h.words.locker task).mp hlocker
      rw [stage] at hguard
      cases hguard
    have hok := h.stageOk stage
    rw [if_neg hlocker]
    exact ⟨task, .called, .quiet rfl hok rfl (.inl rfl)⟩
  | fast stage =>
    have hok := h.stageOk stage
    exact Acts.of_tryLock hok hok
  | beginWait stage hbegin =>
    rename_i task again sched
    have hok : s.rounds.sched task = .runnable := h.stageOk stage
    have hsched : sched = .waiting s.rounds.nextState false .prePark := by
      rw [hok] at hbegin
      cases hbegin
      rfl
    refine ⟨task, _, h.acts_rounds (.beginWait hbegin) rfl ⟨mem_cons_self, .inl ?_⟩ rfl⟩
    exact ⟨.prePark, (update_self _ _ _).trans hsched⟩
  | beginPanics stage hbegin =>
    rename_i task again panic
    have hok : s.rounds.sched task = .runnable := h.stageOk stage
    rw [hok] at hbegin
    cases hbegin
  | register stage =>
    have hok := h.stageOk stage
    exact ⟨_, _, .quiet rfl hok enqueue_rounds (.inr ⟨_, .register hok.1, fun hc => absurd rfl hc⟩)⟩
  | test stage =>
    have hok := h.stageOk stage
    exact Acts.of_tryLock hok hok
  | resume stage slept =>
    have hok := h.stageOk stage
    refine ⟨_, _, .quiet rfl ⟨hok.1, hok.2.resolve_left ?_⟩ rfl (.inl rfl)⟩
    rintro ⟨park, hsched⟩
    exact slept (by rw [hsched]; rfl)
  | clean stage =>
    have hok := h.stageOk stage
    have hended := not_armed_of_runnable h.system.rounds hok.1 hok.2.1
    exact ⟨_, _, .quiet rfl hok setQueue_rounds (.inr ⟨_, .clean hended, fun hc => absurd rfl hc⟩)⟩
  | finish stage held hfinish =>
    have hok := h.stageOk stage
    have hround := Rounds.Step.finishWait held hfinish
    rw [hok.2.1] at hfinish
    obtain ⟨rfl, rfl, rfl⟩ := finishWait_runnable hfinish
    refine ⟨_, _, h.acts_rounds hround rfl ⟨mem_cons_self, ?_, hok.2.2⟩ rfl⟩
    exact update_self _ _ _
  | retire stage called =>
    have hok := h.stageOk stage
    rw [afterWait_of_served hok.2.2]
    exact ⟨_, _, h.acts_rounds (.retire called) rfl hok.2.1 rfl⟩
  | cancelWon stage hcancel =>
    rename_i task token result sched statuses
    have hok := h.stageOk stage
    refine ⟨_, _, h.acts_rounds (.cancelWait hok.1 hcancel) rfl ⟨hok.1, ?_⟩ rfl⟩
    show update s.rounds.sched task sched task = .runnable
    rw [update_self]
    obtain ⟨_, _, _, hspec, hcases⟩ :=
      cancelWait_spec token .predicateReady (h.system.rounds.armed' task)
    cases hcancel.symm.trans hspec
    rcases hcases with hends | ⟨hnot, hsame, _⟩
    · exact hends.2.2.1
    · rcases hok.2 with ⟨park, hsched⟩ | ⟨hsched, _⟩
      · exact absurd ⟨false, park, hsched⟩ hnot
      · exact hsame.trans hsched
  | cleanWon stage =>
    have hok := h.stageOk stage
    have hended := not_armed_of_runnable h.system.rounds hok.1 hok.2
    exact ⟨_, _, .quiet rfl hok setQueue_rounds (.inr ⟨_, .clean hended, fun hc => absurd rfl hc⟩)⟩
  | finishWon stage held hfinish =>
    have hok := h.stageOk stage
    have hround := Rounds.Step.finishWait held hfinish
    rw [hok.2] at hfinish
    obtain ⟨rfl, rfl, rfl⟩ := finishWait_runnable hfinish
    refine ⟨_, _, h.acts_rounds hround rfl ⟨mem_cons_self, ?_⟩ rfl⟩
    exact update_self _ _ _
  | retireWon stage called =>
    exact ⟨_, .acquired, h.acts_rounds (.retire called) rfl (h.stageOk stage).2 rfl⟩
  | claim stage =>
    have hok := h.stageOk stage
    rw [if_pos (h.words.locker_of_acquired stage)]
    exact ⟨_, .guard, .quiet rfl hok rfl (.inl rfl)⟩
  | drop stage =>
    have hok := h.stageOk stage
    obtain ⟨hlocked, hlocker⟩ := h.words.of_guard stage
    rw [if_neg hlocked, if_pos hlocker]
    exact ⟨_, .unlocking, .quiet rfl hok rfl (.inl rfl)⟩
  | unlock stage =>
    have hok := h.stageOk stage
    exact ⟨_, _, .quiet rfl hok rfl (.inr ⟨_, .publish 1 true, fun hc => absurd rfl hc⟩)⟩
  | publish stage hcall hpublish => exact h.acts_publish 0 hcall hpublish
  | published stage =>
    have hok := h.stageOk stage
    exact ⟨_, .outside, .quiet rfl hok rfl (.inl rfl)⟩
  | notify hwake =>
    rename_i task uninterruptible commit rounds
    have hround := Rounds.wakeRound_step (by intro _ hstate; cases hstate) hwake
    refine ⟨task, _, h.acts_rounds hround (update_eq_self _ _).symm ?_ rfl⟩
    apply (h.stages task).wake h.system.rounds _ hwake
    cases uninterruptible with
    | true => exact .inr (.inl rfl)
    | false => exact .inr (.inr rfl)
  | submit hround =>
    rename_i task state park rounds
    refine ⟨task, _, h.acts_rounds hround (update_eq_self _ _).symm ?_ rfl⟩
    cases hround with
    | submit called => exact (h.stages task).framed (framed_refl _ _)
  | schedule mode_ne hround =>
    rename_i task mode rounds
    refine ⟨task, _, h.acts_rounds hround (update_eq_self _ _).symm ?_ rfl⟩
    cases hround with
    | schedule hdecide => exact (h.stages task).schedule mode_ne hdecide

theorem Base.of_start (h : Start s) : Base s := by
  refine ⟨⟨?_, ?_, ?_⟩, EventSystem.Invariant.of_start h.system, ?_⟩
  · intro task task' howns
    rw [h.stage task] at howns
    cases howns
  · intro task howns
    rw [h.stage task] at howns
    cases howns
  · intro task
    rw [h.locker, h.stage task]
    exact ⟨nofun, nofun⟩
  · intro task
    rw [h.stage task]
    exact h.runnable task

theorem Base.step (h : Base s) (hstep : Step s t) : Base t := by
  obtain ⟨task, stage, hacts⟩ := h.acts hstep
  refine ⟨h.words.step hstep, ?_, ?_⟩
  · rcases hacts.system with heq | ⟨label, hsystem, _⟩
    · rw [heq]
      exact h.system
    · exact hsystem.invariant h.system
  · intro task'
    rw [hacts.stages]
    by_cases htask : task' = task
    · rw [htask, update_self]
      exact hacts.ok
    · rw [update_of_ne htask]
      exact (h.stages task').framed (hacts.framed task' htask)

end MutexSystem

end Anemone.Sched
