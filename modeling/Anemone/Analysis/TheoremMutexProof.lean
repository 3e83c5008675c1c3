import Anemone.Analysis.MutexStages

/-!
# The mutex is exclusive and strands nobody

Let the lock be free and a task be parked in `lock`.  It registered before it tried the lock word
in vain, so somebody has cleared the word since and called `publish(1, true)`.  That call finds the
listener, unless it has woken another task, which then takes the lock.
-/

namespace Anemone.Sched.MutexSystem

open Function

variable {s t : MutexSystem}

variable {token task : ℕ}

theorem Base.ended (h : Base s) (hstep : Step s t) (hbegun : token < s.rounds.nextState)
    (hended : s.rounds.statuses token ≠ .armed) :
    t.rounds.statuses token ≠ .armed := by
  obtain ⟨_, _, hacts⟩ := h.acts hstep
  rcases hacts.system with heq | ⟨label, hsystem, _⟩
  · rw [rounds, heq]
    exact hended
  · exact fun harmed => hended (hsystem.armed_before h.system hbegun harmed)

theorem begun_of_guard {r : Rounds} (hinv : r.Invariant) {token : ℕ}
    (hguard : (task, token) ∈ r.guards) : token < r.nextState :=
  hinv.begun _ (List.mem_append_left _ hguard)

theorem Woken.keep (h : Base s) (hstep : Step s t) (hwoken : Woken s task)
    (hstage : t.stage task = s.stage task) : Woken t task := by
  have hok := h.stages task
  rw [Woken] at hwoken ⊢
  rw [hstage]
  generalize s.stage task = stage at hok hwoken ⊢
  cases stage with
  | begun again token | registered again token =>
    exact hwoken.imp id (h.ended hstep (begun_of_guard h.system.rounds hok.1))
  | failed token => exact h.ended hstep (begun_of_guard h.system.rounds hok.1) hwoken
  | _ => exact hwoken

theorem tryLock_locked (s : MutexSystem) (task : ℕ) (taken notTaken : LockStage) :
    (s.tryLock task taken notTaken).locked = true := by
  unfold tryLock
  split
  · assumption
  · rfl

/-- **a task that was woken stays so until it tries the lock word**, and then the lock
is not free. -/
theorem Woken.step (h : Base s) (hstep : Step s t) (hfree : t.locked = false)
    (hwoken : Woken s task) : Woken t task := by
  have hkeep := fun hstage => Woken.keep h hstep hwoken hstage
  have hnot {stage : LockStage} (hstage : s.stage task = stage)
      (hno : stage.wokenIn s.rounds → False) : Woken t task := by
    rw [Woken, hstage] at hwoken
    exact (hno hwoken).elim
  have hupdate {task' : ℕ} {stage : LockStage}
      (hstages : t.stage = update s.stage task' stage)
      (hself : task = task' → Woken t task) : Woken t task := by
    by_cases htask : task = task'
    · exact hself htask
    · exact hkeep (by rw [hstages, update_of_ne htask])
  have hnext {stage : LockStage} (hstages : t.stage = update s.stage task stage)
      (hwoken' : stage.wokenIn t.rounds) : Woken t task := by
    rw [Woken, hstages, update_self]
    exact hwoken'
  cases hstep with
  | call stage | cancelWon stage | cleanWon stage | finishWon stage | retireWon stage
  | unlock stage | published stage =>
    refine hupdate rfl ?_
    rintro rfl
    exact hnot stage id
  | fast | test => exact absurd (tryLock_locked _ _ _ _) (by rw [hfree]; decide)
  | beginWait stage =>
    refine hupdate rfl ?_
    rintro rfl
    rw [Woken, stage] at hwoken
    exact hnext rfl (.inl hwoken)
  | beginPanics stage hbegin =>
    have hok : s.rounds.sched _ = .runnable := h.stageOk stage
    rw [hok] at hbegin
    cases hbegin
  | register stage =>
    refine hupdate rfl ?_
    rintro rfl
    rw [Woken, stage] at hwoken
    refine hnext rfl (hwoken.imp id ?_)
    intro hended
    show (Event.enqueue _ _ _).rounds.statuses _ ≠ .armed
    rw [Event.enqueue_rounds]
    exact hended
  | resume stage | clean stage =>
    refine hupdate rfl ?_
    rintro rfl
    exact hnext rfl trivial
  | finish stage held hfinish =>
    refine hupdate rfl ?_
    rintro rfl
    rw [(h.stageOk stage).2.1] at hfinish
    obtain ⟨rfl, _, _⟩ := finishWait_runnable hfinish
    exact hnext rfl trivial
  | retire stage called =>
    refine hupdate rfl ?_
    rintro rfl
    refine hnext rfl ?_
    rw [afterWait_of_served (h.stageOk stage).2.2]
    rfl
  | claim stage =>
    have hlocked := h.words.locked _ (show (s.stage _).owns = true by rw [stage]; rfl)
    rw [if_pos (h.words.locker_of_acquired stage)] at hfree
    cases hlocked.symm.trans hfree
  | drop stage =>
    obtain ⟨hlocked, hlocker⟩ := h.words.of_guard stage
    rw [if_neg hlocked, if_pos hlocker] at hfree
    exact absurd hfree hlocked
  | publish | notify | submit | schedule => exact hkeep rfl

/-- What a call of `publish(1, true)` can come to. -/
def CallOk (p : Publish) : Prop :=
  p.mode = .anyWait ∧ p.nExclusive = 1 ∧
    match p.phase with
    | .detached .exclusive _ _ => p.exclusiveSuccess = 0
    | .detached .nonExclusive _ _ | .blocked _ _ _ | .permitted _ _ _ => False
    | _ => True

structure Calls (s : MutexSystem) : Prop where
  nonExclusive : s.system.event.nonExclusive = []
  ok : ∀ p ∈ s.system.publishes, CallOk p
  runs : ∀ i p, s.system.publishes[i]? = some p → p.phase ≠ .returned →
    ∃ task, s.stage task = .publishing i

variable {label : Publish.Label} {p q : Publish} {e : Event} {stage : LockStage}

/-- **a step of a call**: it may wake every task, and never puts a listener back. -/
theorem CallOk.step {e' : Event} (h : CallOk p) (hempty : e.nonExclusive = [])
    (hstep : Publish.Step e p label e' q) :
    CallOk q ∧ e'.nonExclusive = [] := by
  obtain ⟨hmode, hn, hphase⟩ := h
  cases hstep with
  | pop phase quota front =>
    rename_i kind left listener rest
    cases kind with
    | nonExclusive =>
      rw [show e.nonExclusive = listener :: rest from front] at hempty
      cases hempty
    | exclusive =>
      have hlt := quota rfl
      exact ⟨⟨hmode, hn, by show p.exclusiveSuccess = 0; omega⟩, hempty⟩
  | wake phase hwake =>
    rename_i kind left listener commit rounds
    refine ⟨?_, hempty⟩
    cases commit with
    | modeBlocked =>
      obtain ⟨_, interruptible, _, hblocked⟩ := Rounds.wakeRound_modeBlocked hwake
      rw [hmode] at hblocked
      cases hblocked
    | woke park => cases kind <;> exact ⟨hmode, hn, trivial⟩
    | _ => exact ⟨hmode, hn, trivial⟩
  | permit phase | denied phase | requeue phase =>
    rw [phase] at hphase
    exact hphase.elim
  | _ => exact ⟨⟨hmode, hn, trivial⟩, hempty⟩

theorem Calls.keep (h : Calls s) (hstages : t.stage = update s.stage task stage)
    (hbefore : ∀ i, s.stage task ≠ .publishing i)
    (hempty : t.system.event.nonExclusive = s.system.event.nonExclusive)
    (hcalls : t.system.publishes = s.system.publishes) : Calls t := by
  refine ⟨hempty.trans h.nonExclusive, hcalls ▸ h.ok, ?_⟩
  intro i p hcall hphase
  rw [hcalls] at hcall
  obtain ⟨task', hstage⟩ := h.runs i p hcall hphase
  refine ⟨task', ?_⟩
  rw [hstages, update_of_ne]
  · exact hstage
  · rintro rfl
    exact hbefore i hstage

theorem Calls.same (h : Calls s) (hstages : t.stage = s.stage)
    (hempty : t.system.event.nonExclusive = s.system.event.nonExclusive)
    (hcalls : t.system.publishes = s.system.publishes) : Calls t := by
  refine ⟨hempty.trans h.nonExclusive, hcalls ▸ h.ok, ?_⟩
  rw [hcalls, hstages]
  exact h.runs

theorem Calls.step (h : Calls s) (hstep : Step s t) : Calls t := by
  have hnot {task : ℕ} {stage : LockStage} (hstage : s.stage task = stage)
      (hno : ∀ i, stage ≠ .publishing i) (i : ℕ) : s.stage task ≠ .publishing i := by
    rw [hstage]
    exact hno i
  cases hstep with
  | call stage | beginWait stage | beginPanics stage | resume stage | finish stage
  | retire stage | cancelWon stage | finishWon stage | retireWon stage =>
    exact h.keep rfl (hnot stage nofun) rfl rfl
  | fast stage | test stage =>
    unfold tryLock
    split
    all_goals exact h.keep rfl (hnot stage nofun) rfl rfl
  | register stage =>
    refine h.keep rfl (hnot stage nofun) ?_ rfl
    rcases Event.queue_enqueue s.system.event .exclusive .nonExclusive _ with heq | ⟨hkind, _⟩
    · exact heq
    · cases hkind
  | clean stage | cleanWon stage => exact h.keep rfl (hnot stage nofun) rfl rfl
  | claim stage =>
    split
    all_goals exact h.keep rfl (hnot stage nofun) rfl rfl
  | drop stage =>
    split
    · exact h.keep rfl (hnot stage nofun) rfl rfl
    split
    all_goals exact h.keep rfl (hnot stage nofun) rfl rfl
  | unlock stage =>
    rename_i task
    refine ⟨h.nonExclusive, ?_, ?_⟩
    · intro p hp
      rcases List.mem_append.mp hp with hp | hp
      · exact h.ok p hp
      · rw [List.mem_singleton.mp hp]
        exact ⟨rfl, rfl, trivial⟩
    · intro i p hcall hphase
      by_cases hi : i < s.system.publishes.length
      · rw [List.getElem?_append_left hi] at hcall
        obtain ⟨task', hstage⟩ := h.runs i p hcall hphase
        refine ⟨task', (update_of_ne ?_ _ _).trans hstage⟩
        rintro rfl
        rw [stage] at hstage
        cases hstage
      · -- the new call
        have hlength := (List.getElem?_eq_some_iff.mp hcall).1
        rw [List.length_append, List.length_singleton] at hlength
        obtain rfl : i = s.system.publishes.length := by omega
        exact ⟨task, update_self _ _ _⟩
  | publish stage hcall hpublish =>
    rename_i task i p q label e
    obtain ⟨hok, hempty⟩ := (h.ok p (List.mem_of_getElem? hcall)).step h.nonExclusive hpublish
    refine ⟨hempty, ?_, ?_⟩
    · intro p' hp'
      rcases List.mem_or_eq_of_mem_set hp' with hp' | rfl
      · exact h.ok p' hp'
      · exact hok
    · intro j p' hcall' hphase
      by_cases hij : i = j
      · subst hij
        exact ⟨task, stage⟩
      · rw [List.getElem?_set_ne hij] at hcall'
        exact h.runs j p' hcall' hphase
  | published stage hcall hreturned =>
    rename_i task i p
    refine ⟨h.nonExclusive, h.ok, ?_⟩
    intro j p' hcall' hphase
    obtain ⟨task', hstage⟩ := h.runs j p' hcall' hphase
    refine ⟨task', (update_of_ne ?_ _ _).trans hstage⟩
    rintro rfl
    rw [stage] at hstage
    cases hstage
    obtain rfl : p' = p := Option.some.inj (hcall'.symm.trans hcall)
    exact hphase hreturned
  | notify | submit | schedule => exact h.same rfl rfl rfl

/-- What has happened when a task gets into the stage. -/
def Entered (s t : MutexSystem) (task : ℕ) : LockStage → Prop
  | .registered _ token =>
    t.system = { s.system with event := s.system.event.registerListener ⟨task, token⟩ true }
  | .failed token =>
    (∃ again, s.stage task = .registered again token) ∧ t.system = s.system ∧ t.locked = true
  | _ => True

theorem Entered.update {task' : ℕ} (hstages : t.stage = update s.stage task' stage)
    (hentered : task = task' → Entered s t task stage) :
    t.stage task = s.stage task ∨ Entered s t task (t.stage task) := by
  by_cases htask : task = task'
  · refine .inr ?_
    rw [hstages, htask, update_self, ← htask]
    exact hentered htask
  · exact .inl (by rw [hstages, update_of_ne htask])

theorem entered_afterWait (s t : MutexSystem) (task : ℕ) (outcome : WaitOutcome) :
    Entered s t task (.afterWait outcome) := by
  unfold LockStage.afterWait
  split <;> trivial

theorem Step.entered (hstep : Step s t) (task : ℕ) :
    t.stage task = s.stage task ∨ Entered s t task (t.stage task) := by
  cases hstep with
  | call stage =>
    refine Entered.update rfl fun _ => ?_
    split <;> trivial
  | beginWait | beginPanics | resume | clean | cancelWon | cleanWon | retireWon | unlock
  | published => exact Entered.update rfl fun _ => trivial
  | fast stage =>
    unfold tryLock
    split
    all_goals exact Entered.update rfl fun _ => trivial
  | register stage => exact Entered.update rfl fun htask => by rw [htask]; rfl
  | test stage =>
    unfold tryLock
    split
    · rename_i hlocked
      exact Entered.update rfl fun htask => ⟨⟨_, htask ▸ stage⟩, rfl, hlocked⟩
    · exact Entered.update rfl fun _ => trivial
  | finish stage held hfinish =>
    refine Entered.update rfl fun _ => ?_
    split
    · exact entered_afterWait _ _ _ _
    · trivial
  | retire stage called => exact Entered.update rfl fun _ => entered_afterWait _ _ _ _
  | finishWon stage =>
    refine Entered.update rfl fun _ => ?_
    split <;> trivial
  | claim =>
    split
    all_goals exact Entered.update rfl fun _ => trivial
  | drop =>
    split
    · exact Entered.update rfl fun _ => trivial
    split
    all_goals exact Entered.update rfl fun _ => trivial
  | publish | notify | submit | schedule => exact .inl rfl

/-- The listener of a task that may sleep is somewhere. -/
def Listening (s : MutexSystem) : Prop :=
  ∀ task token, (s.stage task = .failed token ∨ ∃ again, s.stage task = .registered again token) →
    EventSystem.Tracked .exclusive token s.system

theorem Listening.step (h : Base s) (hlistening : Listening s) (hstep : Step s t) :
    Listening t := by
  have hkeep {task token : ℕ}
      (hstage : s.stage task = .failed token ∨ ∃ again, s.stage task = .registered again token) :
      EventSystem.Tracked .exclusive token t.system := by
    have hbegun : token < s.rounds.nextState := by
      rcases hstage with hstage | ⟨again, hstage⟩
      all_goals exact begun_of_guard h.system.rounds (h.stageOk hstage).1
    obtain ⟨_, _, hacts⟩ := h.acts hstep
    rcases hacts.system with heq | ⟨label, hsystem, _⟩
    · rw [heq]
      exact hlistening task token hstage
    · exact EventSystem.Tracked.step h.system hsystem hbegun (hlistening task token hstage)
  intro task token hstage
  rcases hstep.entered task with hsame | hentered
  · exact hkeep (hsame ▸ hstage)
  · rcases hstage with hstage | ⟨again, hstage⟩
    · rw [hstage] at hentered
      exact hkeep (.inr hentered.1)
    · rw [hstage] at hentered
      rw [hentered]
      exact fun _ => .inl (Event.has_enqueue_self _ .exclusive ⟨task, token⟩)

/-- The call is to detach a listener of the round, or has detached it. -/
def Serves (listeners : List Listener) (token : ℕ) (p : Publish) : Prop :=
  p.exclusiveSuccess = 0 ∧
    match p.phase with
    | .start | .scan .nonExclusive _ | .between => Has listeners token
    | .scan .exclusive left => Has (listeners.take left) token
    | .detached .exclusive left l => l.token = token ∨ Has (listeners.take left) token
    | _ => False

theorem Serves.mono {listeners listeners' : List Listener}
    (hahead : Ahead token listeners listeners') (h : Serves listeners token p) :
    Serves listeners' token p := by
  obtain ⟨hzero, hphase⟩ := h
  refine ⟨hzero, ?_⟩
  generalize p.phase = phase at hphase ⊢
  cases phase with
  | scan kind left =>
    cases kind with
    | nonExclusive => exact hahead.has hphase
    | exclusive => exact hahead left hphase
  | detached kind left l =>
    cases kind with
    | nonExclusive => exact hphase
    | exclusive => exact hphase.imp id (hahead left)
  | start | between => exact hahead.has hphase
  | _ => exact hphase

/-- **a listener whose round a call completes belongs to a task that is woken**, if the
lock is free. -/
theorem woken_of_woke (h : Base s) (hfree : s.locked = false) {listener : Listener}
    {park : ParkState} {rounds : Rounds}
    (hwake : s.rounds.wakeRound listener.task (some listener.token) .event .anyWait =
      .ok (.woke park, rounds)) : (s.stage listener.task).wokenIn rounds := by
  obtain ⟨⟨commit', sched, statuses⟩, hcommit, hok⟩ := Checked.bind_eq_ok.mp hwake
  cases hok
  obtain ⟨_, _, _, hspec, hcases⟩ := commitWake_spec (s.rounds.sched listener.task)
    s.rounds.statuses (some listener.token) .event .anyWait
  cases hcommit.symm.trans hspec
  rcases hcases with ⟨state, park', hends, htoken, _⟩ | ⟨_, _, hnot⟩
  swap
  · exact absurd rfl (hnot park)
  obtain rfl : listener.token = state := Option.some.inj (htoken.resolve_left (nomatch ·))
  obtain ⟨⟨interruptible, park'', hsched⟩, _, _, rfl⟩ := hends
  have hended (token : ℕ) (hlive : Live s.rounds listener.task token) :
      update s.rounds.statuses listener.token (.completed .event) token ≠ .armed := by
    rcases hlive with ⟨_, hsched'⟩ | ⟨hrunnable, _⟩
    · rw [hsched] at hsched'
      cases hsched'
      rw [update_self]
      exact nofun
    · rw [hsched] at hrunnable
      cases hrunnable
  have hwaits : s.rounds.sched listener.task ≠ .runnable := by
    rw [hsched]
    exact nofun
  have hstage := h.stages listener.task
  have howns : ¬ (s.stage listener.task).owns := by
    intro howns
    cases (h.words.locked listener.task howns).symm.trans hfree
  generalize s.stage listener.task = stage at hstage howns ⊢
  cases stage with
  | begun again token | registered again token => exact .inr (hended token hstage.2)
  | failed token => exact hended token hstage.2
  | won token => exact absurd rfl howns
  | resumed token | cleaned token | retiring token => trivial
  | wonCancelled token | wonCleaned token | wonRetiring token => exact absurd hstage.2 hwaits
  | panicked reason => exact hstage.elim
  | _ => exact absurd hstage hwaits

/-- **a call goes on to the listener it serves, or has woken another task.** -/
theorem Serves.own (h : Base s) (hcalls : Calls s) (hfree : s.locked = false) {i : ℕ}
    (hcall : s.system.publishes[i]? = some p) (hpublish : Publish.Step s.system.event p label e q)
    (hbefore : s.rounds.statuses token = .armed) (harmed : e.rounds.statuses token = .armed)
    (hserves : Serves s.system.event.exclusive token p) :
    Serves e.exclusive token q ∨ ∃ task, (s.stage task).wokenIn e.rounds := by
  have hp : p ∈ s.system.publishes := List.mem_of_getElem? hcall
  obtain ⟨hmode, hn, hphase⟩ := hcalls.ok p hp
  obtain ⟨hzero, hserves⟩ := hserves
  cases hpublish with
  | look phase | leaveNonExclusive phase =>
    rw [phase] at hserves
    exact .inl ⟨hzero, hserves⟩
  | pop phase quota front =>
    rename_i kind left listener rest
    cases kind with
    | nonExclusive =>
      have hempty := hcalls.nonExclusive
      rw [show s.system.event.nonExclusive = listener :: rest from front] at hempty
      cases hempty
    | exclusive =>
      rw [phase] at hserves
      refine .inl ⟨hzero, ?_⟩
      obtain ⟨l, hl, htoken⟩ := hserves
      rw [show s.system.event.exclusive = listener :: rest from front, List.take_succ_cons,
        List.mem_cons] at hl
      rcases hl with rfl | hl
      · exact .inl htoken
      · exact .inr ⟨l, hl, htoken⟩
  | dropped phase ended =>
    rename_i kind left listener
    rw [phase] at hserves
    cases kind with
    | nonExclusive => exact hserves.elim
    | exclusive =>
      exact .inl ⟨hzero, hserves.resolve_left fun htoken => ended (htoken ▸ hbefore)⟩
  | wake phase hwake =>
    rename_i kind left listener commit rounds
    rw [phase] at hserves
    rw [hmode] at hwake
    cases kind with
    | nonExclusive => exact hserves.elim
    | exclusive =>
      have howned := h.system.owned listener (.inr ⟨p, hp, .exclusive, by rw [phase]; rfl⟩)
      have hne : listener.token ≠ token := by
        rintro rfl
        obtain ⟨interruptible, hwait⟩ := howned.waits h.system.rounds hbefore
        have hwoke := Rounds.wakeRound_armed hwait hbefore hwake
        rw [if_pos (show WakeMode.anyWait.allows interruptible = true from rfl)] at hwoke
        rw [hwoke.2, update_self] at harmed
        cases harmed
      have hrest := hserves.resolve_left hne
      cases commit with
      | woke park => exact .inr ⟨listener.task, woken_of_woke h hfree hwake⟩
      | modeBlocked =>
        obtain ⟨_, _, _, hblocked⟩ := Rounds.wakeRound_modeBlocked hwake
        cases hblocked
      | _ => exact .inl ⟨hzero, hrest⟩
  | permit phase | denied phase | requeue phase =>
    rw [phase] at hphase
    exact hphase.elim
  | lookExclusive phase =>
    rw [phase] at hserves
    refine .inl ⟨hzero, ?_⟩
    show Has (s.system.event.exclusive.take s.system.event.exclusive.length) token
    rw [List.take_length]
    exact hserves
  | leaveExclusive phase done =>
    rw [phase] at hserves
    obtain ⟨l, hl, _⟩ := hserves
    rcases done with rfl | hempty | hquota
    · cases hl
    · rw [hempty, List.take_nil] at hl
      cases hl
    · omega

/-- the step of another call leaves the listener to the call, or takes it over. -/
theorem Serves.other (hcalls : Calls s) {p' : Publish} (hp' : p' ∈ s.system.publishes)
    (hpublish : Publish.Step s.system.event p' label e q)
    (hserves : Serves s.system.event.exclusive token p) :
    Serves e.exclusive token p ∨ Serves e.exclusive token q := by
  obtain ⟨hmode, hn, hphase⟩ := hcalls.ok p' hp'
  cases hpublish with
  | pop phase quota front =>
    rename_i kind left listener rest
    cases kind with
    | nonExclusive => exact .inl hserves
    | exclusive =>
      by_cases htoken : listener.token = token
      · have hlt := quota rfl
        exact .inr ⟨by show p'.exclusiveSuccess = 0; omega, .inl htoken⟩
      · rw [show s.system.event.exclusive = listener :: rest from front] at hserves
        exact .inl (hserves.mono (ahead_tail htoken))
  | requeue phase =>
    rw [phase] at hphase
    exact hphase.elim
  | _ => exact .inl hserves

/-- If the lock is free, somebody is on the way to every sleeper. -/
def Covered (s : MutexSystem) : Prop :=
  s.locked = false → ∀ task token, s.stage task = .failed token → s.rounds.statuses token = .armed →
    (∃ task', Woken s task') ∨ ∃ p ∈ s.system.publishes, Serves s.system.event.exclusive token p

/-- a lock that is free was free, or is cleared now. -/
theorem Step.free_before (h : Base s) (hstep : Step s t) (hfree : t.locked = false) :
    s.locked = false ∨
      t.system = { s.system with publishes := s.system.publishes ++ [Publish.new 1 true] } := by
  cases hstep with
  | fast | test => exact absurd (tryLock_locked _ _ _ _) (by rw [hfree]; decide)
  | claim stage =>
    rw [if_pos (h.words.locker_of_acquired stage)] at hfree
    exact .inl hfree
  | drop stage =>
    obtain ⟨hlocked, hlocker⟩ := h.words.of_guard stage
    rw [if_neg hlocked, if_pos hlocker] at hfree
    exact .inl hfree
  | unlock => exact .inr rfl
  | _ => exact .inl hfree

/-- **what a step of the event leaves to a sleeper.** -/
theorem Serves.step (h : Base s) (hcalls : Calls s) (hfree : s.locked = false)
    {label : EventSystem.Label} {system : EventSystem}
    (hsystem : EventSystem.Step s.system label system) (hbefore : s.rounds.statuses token = .armed)
    (harmed : system.event.rounds.statuses token = .armed) (hp : p ∈ s.system.publishes)
    (hserves : Serves s.system.event.exclusive token p) :
    (∃ p ∈ system.publishes, Serves system.event.exclusive token p) ∨
      label.publisher ≠ none ∧ ∃ task, (s.stage task).wokenIn system.event.rounds := by
  cases hsystem with
  | rounds => exact .inl ⟨p, hp, hserves⟩
  | register held =>
    exact .inl ⟨p, hp, hserves.mono (ahead_enqueue _ _ .exclusive _)⟩
  | clean ended =>
    exact .inl ⟨p, hp, hserves.mono (ahead_clean _ _ .exclusive fun heq => ended (heq ▸ hbefore))⟩
  | publish n uninterruptible => exact .inl ⟨p, List.mem_append_left _ hp, hserves⟩
  | step hcall hpublish =>
    rename_i j label p' q e
    have hq : q ∈ s.system.publishes.set j q :=
      List.mem_set (List.getElem?_eq_some_iff.mp hcall).1 q
    obtain ⟨i, hi⟩ := List.mem_iff_getElem?.mp hp
    by_cases hij : j = i
    · subst hij
      obtain rfl : p = p' := Option.some.inj (hi.symm.trans hcall)
      exact (Serves.own h hcalls hfree hcall hpublish hbefore harmed hserves).imp
        (fun hserves => ⟨q, hq, hserves⟩) fun hwoken => ⟨nofun, hwoken⟩
    · rcases Serves.other hcalls (List.mem_of_getElem? hcall) hpublish hserves with
        hserves | hserves
      · refine .inl ⟨p, List.mem_iff_getElem?.mpr ⟨i, ?_⟩, hserves⟩
        rw [List.getElem?_set_ne hij]
        exact hi
      · exact .inl ⟨q, hq, hserves⟩

/-- **every step leaves somebody on the way to every sleeper.** -/
theorem Covered.step (h : Base s) (hcalls : Calls s) (hlistening : Listening s)
    (hcovered : Covered s) (hstep : Step s t) : Covered t := by
  intro hfree task token hstage harmed
  have hstage : s.stage task = .failed token := by
    rcases hstep.entered task with hsame | hentered
    · exact hsame ▸ hstage
    · rw [hstage] at hentered
      rw [hentered.2.2] at hfree
      cases hfree
  have hbegun := begun_of_guard h.system.rounds (h.stageOk hstage).1
  obtain ⟨actor, stage, hacts⟩ := h.acts hstep
  have hbefore : s.rounds.statuses token = .armed := by
    by_contra hended
    exact h.ended hstep hbegun hended harmed
  rcases hstep.free_before h hfree with hfree' | hunlock
  · rcases hcovered hfree' task token hstage hbefore with ⟨task', hwoken⟩ | ⟨p, hp, hserves⟩
    · exact .inl ⟨task', hwoken.step h hstep hfree⟩
    · rcases hacts.system with heq | ⟨label, hsystem, hstages⟩
      · exact .inr ⟨p, heq ▸ hp, heq ▸ hserves⟩
      · rcases Serves.step h hcalls hfree' hsystem hbefore harmed hp hserves with
          hserves | ⟨hlabel, task', hwoken⟩
        · exact .inr hserves
        · refine .inl ⟨task', ?_⟩
          rw [Woken, hstages hlabel]
          exact hwoken
  · -- the listener is in the queue, where the new call finds it, or in the hands of a call
    rw [hunlock]
    rcases hlistening task token (.inl hstage) hbefore with hqueued | ⟨p, hp, l, hholds, htoken⟩
    · refine .inr ⟨Publish.new 1 true, List.mem_append_right _ (List.mem_singleton_self _), rfl, ?_⟩
      exact hqueued
    · refine .inr ⟨p, List.mem_append_left _ hp, ?_⟩
      obtain ⟨_, _, hphase⟩ := hcalls.ok p hp
      cases hp' : p.phase with
      | detached kind left l' =>
        rw [hp'] at hholds hphase
        cases hholds
        refine ⟨hphase, ?_⟩
        rw [hp']
        exact .inl htoken
      | blocked | permitted =>
        rw [hp'] at hphase
        exact hphase.elim
      | _ =>
        rw [hp'] at hholds
        cases hholds

structure Invariant (s : MutexSystem) : Prop where
  base : Base s
  calls : Calls s
  listening : Listening s
  covered : Covered s

theorem Invariant.of_start (h : Start s) : Invariant s := by
  refine ⟨Base.of_start h, ⟨h.system.nonExclusive, ?_, ?_⟩, ?_, ?_⟩
  · intro p hp
    rw [h.system.publishes] at hp
    cases hp
  · intro i p hcall
    rw [h.system.publishes] at hcall
    cases hcall
  · rintro task token (hstage | ⟨again, hstage⟩)
    all_goals
      rw [h.stage task] at hstage
      cases hstage
  · intro _ task token hstage
    rw [h.stage task] at hstage
    cases hstage

theorem Invariant.step (h : Invariant s) (hstep : Step s t) : Invariant t :=
  ⟨h.base.step hstep, h.calls.step hstep, h.listening.step h.base hstep,
    h.covered.step h.base h.calls h.listening hstep⟩

theorem Invariant.sound (h : Invariant s) : Sound s := by
  refine ⟨h.base.words.exclusive, ?_, ?_, ?_⟩
  · intro task hstage
    exact ⟨(h.base.words.locker task).mpr hstage, h.base.words.locked task (by rw [hstage]; rfl)⟩
  · intro task reason hstage
    exact h.base.stageOk hstage
  · rintro hfree ⟨task, token, hstage, harmed⟩
    rcases h.covered hfree task token hstage harmed with hwoken | ⟨p, hp, hzero, hserves⟩
    · exact .inr hwoken
    · have hphase : p.phase ≠ .returned := by
        intro hphase
        rw [hphase] at hserves
        exact hserves
      obtain ⟨i, hcall⟩ := List.mem_iff_getElem?.mp hp
      obtain ⟨task', hstage'⟩ := h.calls.runs i p hcall hphase
      exact .inl ⟨task', i, p, hstage', hcall, hzero, hphase⟩

/-- **The sleeping mutex.**  In every state that any number of tasks can bring a mutex into, by
locking and unlocking it, with forced and interrupting wake-ups at any time: one task has the
lock word, and the locker is the task of the guard; no assertion fails; and if the lock is free
and a task is parked in `lock`, an unlock has still to publish or a waiting task was woken and
has not tried the lock word since.

SOURCE: sync/mutex.rs:31-138, sched/event.rs:57-107, 173-223, 430-600 -/
theorem mutex_strands_nobody (hstart : Start s) (hrun : Run.Reaches Step s t) : Sound t :=
  (Run.Reaches.invariant (P := Invariant) (fun _ _ h hstep => h.step hstep) hrun
    (Invariant.of_start hstart)).sound

def unused : MutexSystem :=
  ⟨⟨⟨⟨fun _ => .runnable, fun _ => .retired, 0, [], [], []⟩, [], []⟩, []⟩, false, none,
    fun _ => .outside⟩

/-- A task locks the mutex, a second one tries it and parks, and the first clears the lock
word. -/
theorem mutex_strands_nobody_sample : ∃ t : MutexSystem,
    Run.Reaches Step unused t ∧ t.locked = false ∧ t.Parked 1 ∧ t.StillToPublish 0 ∧ Sound t := by
  have hlock := Relation.ReflTransGen.refl (r := Step) (a := unused)
    |>.tail (@Step.call _ 0 rfl) |>.tail (@Step.fast _ 0 rfl) |>.tail (@Step.claim _ 0 rfl)
  have hpark := hlock |>.tail (@Step.call _ 1 rfl) |>.tail (@Step.fast _ 1 rfl)
    |>.tail (@Step.beginWait _ 1 false _ rfl rfl) |>.tail (@Step.register _ 1 0 false rfl)
    |>.tail (@Step.test _ 1 0 false rfl)
  have hunlock := hpark |>.tail (@Step.drop _ 0 rfl) |>.tail (@Step.unlock _ 0 rfl)
  refine ⟨_, hunlock, rfl, ⟨0, rfl, rfl⟩, ⟨0, _, rfl, rfl, rfl, nofun⟩, ?_⟩
  refine mutex_strands_nobody ?_ hunlock
  exact ⟨⟨⟨fun _ => rfl, rfl, rfl, rfl, rfl⟩, rfl, rfl, rfl⟩, fun _ => rfl, rfl, rfl, fun _ => rfl⟩

end Anemone.Sched.MutexSystem
