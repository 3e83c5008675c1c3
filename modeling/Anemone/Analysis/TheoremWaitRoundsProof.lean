import Anemone.Analysis.RoundSteps

/-!
# Every round has one winner

The status of a round tells how it has left `Armed`, until it is retired; `finish_wait` reads the
status and retires it, and no second guard is there to read it again.
-/

namespace Anemone.Sched.Rounds

open Function (update)
open Label Function List
open Run (last)

variable {s t : Rounds} {label : Label} {path : History}

theorem invariant_last (h : Invariant s) (hpath : Run.Path Step s path) :
    Invariant (last s path) :=
  hpath.invariant (fun _ _ _ hs hstep => (hstep.done hs).invariant) h

theorem firstLeave_append_singleton (state : ℕ) (s : Rounds) (before : History)
    (x : Label × Rounds) :
    firstLeave state s (before ++ [x]) = (firstLeave state s before).or
        (if Leaves state (last s before) x.2 then some (ending (x.2.statuses state)) else none) := by
  induction before generalizing s with
  | nil => rfl
  | cons y rest ih =>
    simp only [cons_append, firstLeave, last]
    split
    · rfl
    · exact ih y.2

def view (state : ℕ) (s : Rounds) : Option WaitStateStatus :=
  if state < s.nextState then some (s.statuses state) else none

/-- What a step does to one round, whether it has woken somebody from it, and the outcome that
it returns for it. -/
inductive Change : Bool → Option WaitOutcome → Option WaitStateStatus →
    Option WaitStateStatus → Prop
  | stays (v : Option WaitStateStatus) : Change false none v v
  | begins : Change false none none (some .armed)
  | completes (reason : WaitReason) : Change true none (some .armed) (some (.completed reason))
  | cancels (reason : WaitReason) : Change false none (some .armed) (some (.cancelled reason))
  | retires (status : WaitStateStatus) (unretired : status ≠ .retired) :
      Change false (some (.fromStatus status)) (some status) (some .retired)

def departs : Option WaitStateStatus → Option WaitStateStatus → Option WaitOutcome
  | some .armed, some .armed => none
  | some .armed, some status => some (ending status)
  | _, _ => none

/-- The outcome that a step returns for the round. -/
def Label.outcome (label : Label) (state : ℕ) : Option WaitOutcome :=
  label.finished.bind fun x => if x.1 = state then some x.2 else none

section Views

variable {state state' : ℕ}

theorem view_update (hnext : t.nextState = s.nextState) (hbegun : state' < s.nextState)
    {status : WaitStateStatus}
    (hstatuses : t.statuses = update s.statuses state' status) :
    view state t = if state = state' then some status else view state s := by
  rw [view, view, hstatuses, hnext]
  by_cases hstate : state = state'
  · rw [hstate, if_pos hbegun, if_pos rfl, update_self]
  · rw [if_neg hstate, update_of_ne hstate]

theorem view_begins (hnext : t.nextState = s.nextState + 1)
    (hstatuses : t.statuses = update s.statuses s.nextState .armed) :
    view state t = if state = s.nextState then some .armed else view state s := by
  rw [view, view, hstatuses, hnext]
  by_cases hstate : state = s.nextState
  · rw [if_pos hstate, hstate, if_pos (Nat.lt_succ_self _), update_self]
  · rw [if_neg hstate, update_of_ne hstate]
    have hiff : state < s.nextState + 1 ↔ state < s.nextState := by omega
    simp only [hiff]

theorem view_of_lt (hbegun : state < s.nextState) : view state s = some (s.statuses state) :=
  if_pos hbegun

end Views

/-- **what a step does to one round.** -/
theorem Effect.change (h : Effect s label t) (state : ℕ) :
    Change (decide (label.woke = some state)) (label.outcome state) (view state s)
      (view state t) := by
  cases h with
  | begins hstatuses hnext hwoke hfinished =>
    rw [view_begins hnext hstatuses, outcome, hwoke, hfinished]
    split
    · rename_i hstate
      rw [hstate, view, if_neg (Nat.lt_irrefl _)]
      exact .begins
    · exact .stays _
  | completes state' reason harmed hbegun hstatuses hnext hwoke hfinished =>
    rw [view_update hnext hbegun hstatuses, outcome, hwoke, hfinished]
    split
    · rename_i hstate
      rw [hstate, view_of_lt hbegun, harmed, decide_eq_true rfl]
      exact .completes reason
    · rename_i hstate
      rw [decide_eq_false (fun heq => hstate (Option.some.inj heq).symm)]
      exact .stays _
  | cancels state' reason harmed hbegun hstatuses hnext hwoke hfinished =>
    rw [view_update hnext hbegun hstatuses, outcome, hwoke, hfinished]
    split
    · rename_i hstate
      rw [hstate, view_of_lt hbegun, harmed]
      exact .cancels reason
    · exact .stays _
  | retires state' hbegun hunretired hstatuses hnext hwoke hfinished =>
    rw [view_update hnext hbegun hstatuses, outcome, hwoke, hfinished, Option.bind_some]
    by_cases hstate : state = state'
    · rw [hstate, view_of_lt hbegun, if_pos rfl, if_pos rfl]
      exact .retires _ hunretired
    · rw [if_neg (Ne.symm hstate), if_neg hstate]
      exact .stays _
  | keeps hstatuses hnext hwoke hfinished =>
    have hview : view state t = view state s := by rw [view, view, hstatuses, hnext]
    rw [hview, outcome, hwoke, hfinished]
    exact .stays _

theorem Effect.leave_eq (h : Effect s label t) (state : ℕ) :
    (if Leaves state s t then some (ending (t.statuses state)) else none) =
      departs (view state s) (view state t) := by
  obtain ⟨hle, hnot⟩ := h.next_le
  by_cases hbegun : state < s.nextState
  · have hbegun' : state < t.nextState := Nat.lt_of_lt_of_le hbegun hle
    rw [view_of_lt hbegun, view_of_lt hbegun']
    have hiff : Leaves state s t ↔ s.statuses state = .armed ∧ t.statuses state ≠ .armed :=
      ⟨fun hleft => ⟨hleft.1, hleft.2.1⟩, fun hleft => ⟨hleft.1, hleft.2, hbegun'⟩⟩
    simp only [hiff]
    cases s.statuses state <;> cases t.statuses state <;> simp [departs]
  · have hview : view state s = none := if_neg hbegun
    rw [if_neg (hnot state hbegun), hview]
    rfl

def ended : Option WaitStateStatus → ℕ
  | none | some .armed => 0
  | some _ => 1

/-- What the status tells of how the round has left `Armed`. -/
def Told : Option WaitStateStatus → Option WaitOutcome → Prop
  | none, first => first = none
  | some .armed, first => first = none
  | some (.completed reason), first => first = some (.completed reason)
  | some (.cancelled reason), first => first = some (.cancelled reason)
  | some .retired, first => ∃ outcome, first = some outcome

def won (first : Option WaitOutcome) : ℕ := if first.any completes then 1 else 0

variable {first : Option WaitOutcome}

section Changes

variable {woke : Bool} {finished : Option WaitOutcome} {v v' : Option WaitStateStatus}

theorem departs_self (v : Option WaitStateStatus) : departs v v = none := by
  rcases v with _ | status
  · rfl
  · cases status <;> rfl

theorem Change.ended_eq (h : Change woke finished v v') :
    (departs v v').toList.length + ended v = ended v' := by
  cases h with
  | stays v => rw [departs_self]; exact Nat.zero_add _
  | begins | completes | cancels => rfl
  | retires status unretired => cases status <;> rfl

theorem Change.told (h : Change woke finished v v')
    (htold : Told v first) : Told v' (first.or (departs v v')) := by
  cases h with
  | stays v => rwa [departs_self, Option.or_none]
  | begins | completes reason | cancels reason =>
    cases htold
    rfl
  | retires status unretired =>
    cases status with
    | retired => exact absurd rfl unretired
    | _ =>
      cases htold
      exact ⟨_, rfl⟩

theorem Change.won_eq (h : Change woke finished v v') (htold : Told v first) :
    (if woke then 1 else 0) + won first = won (first.or (departs v v')) := by
  cases h with
  | stays v => rw [departs_self, Option.or_none]; exact Nat.zero_add _
  | begins | completes reason | cancels reason =>
    cases htold
    rfl
  | retires status unretired =>
    cases status with
    | retired => exact absurd rfl unretired
    | _ =>
      cases htold
      rfl

/-- **the outcome that is returned is how the round has left `Armed`.** -/
theorem Change.outcome_eq {outcome : WaitOutcome} (h : Change woke (some outcome) v v')
    (htold : Told v first) :
    first.or (departs v v') = some outcome := by
  cases h with
  | retires status unretired =>
    cases status with
    | retired => exact absurd rfl unretired
    | _ =>
      cases htold
      rfl

end Changes

/-- **how often a round leaves `Armed`.** -/
theorem leaves_add_ended (h : Invariant s) (hpath : Run.Path Step s path) (state : ℕ) :
    leaves state s path + ended (view state s) = ended (view state (last s path)) := by
  induction path generalizing s with
  | nil => exact Nat.zero_add _
  | cons x rest ih =>
    obtain ⟨heffect, hinv, -, -⟩ := hpath.1.done h
    have hstep := (heffect.change state).ended_eq
    have hrest := ih hinv hpath.2
    have hleave := heffect.leave_eq state
    have hcount : (if Leaves state s x.2 then 1 else 0) =
        (departs (view state s) (view state x.2)).toList.length := by
      rw [← hleave]
      split <;> rfl
    simp only [leaves, last]
    omega

theorem wokes_cons (x : Label × Rounds) (rest : History) (state : ℕ) :
    wokes state (x :: rest) = (if x.1.woke = some state then 1 else 0) + wokes state rest := by
  simp only [wokes, filter_cons, decide_eq_true_eq]
  split
  · rw [length_cons, Nat.add_comm]
  · exact (Nat.zero_add _).symm

/-- **the status at the end tells how the round has left `Armed`**, and a wake-up has
woken the task once if it was completed. -/
theorem told_and_won (h : Invariant s) (hpath : Run.Path Step s path) (state : ℕ)
    (htold : Told (view state s) first) :
    Told (view state (last s path)) (first.or (firstLeave state s path)) ∧
      wokes state path + won first = won (first.or (firstLeave state s path)) := by
  induction path generalizing s first with
  | nil =>
    rw [firstLeave, Option.or_none]
    exact ⟨htold, Nat.zero_add _⟩
  | cons x rest ih =>
    obtain ⟨heffect, hinv, -, -⟩ := hpath.1.done h
    have hchange := heffect.change state
    obtain ⟨htold', hwon⟩ := ih hinv hpath.2 (hchange.told htold)
    have hfirst : firstLeave state s (x :: rest) =
        (departs (view state s) (view state x.2)).or (firstLeave state x.2 rest) := by
      rw [← heffect.leave_eq state, firstLeave]
      split <;> rfl
    rw [Option.or_assoc, ← hfirst] at htold' hwon
    refine ⟨htold', ?_⟩
    have hstep := hchange.won_eq htold
    rw [wokes_cons]
    simp only [decide_eq_true_eq] at hstep
    omega

theorem length_pending (s : Rounds) (task : ℕ) (token waitId : Option ℕ) (commit : WakeCommit)
    (state : ℕ) :
    ((s.pending task waitId commit).filter fun x => x.2.1 = state).length =
      unplaced state s + if (wake task token waitId commit).woke = some state then 1 else 0 := by
  cases commit with
  | woke park =>
    cases waitId with
    | none => rfl
    | some waitId =>
      simp only [pending, finishWakeAttempt, filter_cons, woke, Option.some.injEq,
        decide_eq_true_eq, unplaced]
      split <;> rfl
  | _ => cases waitId <;> rfl

/-- **what a step owes and places.** -/
theorem Step.unplaced_add (hstep : Step s label t) (state : ℕ) :
    (if label.placed = some state then 1 else 0) + unplaced state t =
      unplaced state s + (if label.woke = some state then 1 else 0) := by
  cases hstep with
  | wake begun hwake =>
    rw [← length_pending s]
    exact Nat.zero_add _
  | submit called =>
    simp only [unplaced, called, placed, woke, filter_append, filter_cons,
      length_append, Option.some.injEq, decide_eq_true_eq]
    split
    · simp only [length_cons, reduceCtorEq, if_false]
      omega
    · simp
  | _ => simp [placed, woke, unplaced, setSched]

theorem placements_cons (x : Label × Rounds) (rest : History) (state : ℕ) :
    placements state (x :: rest) =
      (if x.1.placed = some state then 1 else 0) + placements state rest := by
  simp only [placements, filter_cons, decide_eq_true_eq]
  split
  · rw [length_cons, Nat.add_comm]
  · exact (Nat.zero_add _).symm

theorem placements_add_unplaced (hpath : Run.Path Step s path) (state : ℕ) :
    placements state path + unplaced state (last s path) =
      unplaced state s + wokes state path := by
  induction path generalizing s with
  | nil => exact Nat.zero_add _
  | cons x rest ih =>
    have hstep := hpath.1.unplaced_add state
    have hrest := ih hpath.2
    rw [placements_cons, wokes_cons, last]
    omega

/-- **a token changes its own round only.** -/
theorem Step.token (hstep : Step s label t) {task token : ℕ} {waitId : Option ℕ}
    {commit : WakeCommit} (hlabel : label = .wake task (some token) waitId commit)
    {state : ℕ} (hne : state ≠ token) :
    t.statuses state = s.statuses state ∧
      ∀ task', waitingOn (s.sched task') = some state → t.sched task' = s.sched task' := by
  cases hstep with
  | wake begun hwake =>
    rename_i task' token' reason mode commit' sched statuses
    cases hlabel
    obtain ⟨_, _, _, hspec, hcases⟩ :=
      commitWake_spec (s.sched task) s.statuses (some token) reason mode
    cases hwake.symm.trans hspec
    rcases hcases with ⟨state', park, hends, htoken, _⟩ | ⟨rfl, rfl, _⟩
    · obtain ⟨hwaiting, _, rfl, rfl⟩ := hends
      obtain rfl : token = state' := Option.some.inj (htoken.resolve_left (nomatch ·))
      refine ⟨update_of_ne hne _ _, ?_⟩
      intro task' hwait
      have htask : task' ≠ task := by
        rintro rfl
        exact hne (Option.some.inj (hwait.symm.trans (waitingOn_eq.mpr hwaiting)))
      exact update_of_ne htask _ _
    · rw [setSched_self]
      exact ⟨rfl, fun _ _ => rfl⟩
  | _ => cases hlabel

theorem told_start (hstart : Start s) (state : ℕ) : Told (view state s) none := by
  have hview : view state s = none := if_neg (by rw [hstart.nextState]; exact Nat.not_lt_zero _)
  rw [hview]
  rfl

/-- **Every round has one winner.**  In every run from a state without waits: a task waits on
an armed state; a round that has begun leaves `Armed` once or is still armed; a producer wakes
its task exactly if the round was completed, and then one producer and with one placement; the
outcome that `finish_wait` returns is how the round has left `Armed`; and a token never
changes another round.

SOURCE: sched/wait.rs:205-300, 383-704, sched/mod.rs:219-400 -/
theorem rounds_have_one_winner (hstart : Start s) (hpath : Run.Path Step s path) :
    OneWinner s path := by
  have hinv := Invariant.of_start hstart
  have hempty (state : ℕ) : view state s = none :=
    if_neg (by rw [hstart.nextState]; exact Nat.not_lt_zero _)
  refine ⟨(invariant_last hinv hpath).armed, ?_, ?_, ?_, ?_, ?_⟩
  · intro state hbegun
    have hcount := leaves_add_ended hinv hpath state
    rw [hempty state, view_of_lt hbegun] at hcount
    rw [show leaves state s path = ended (some ((last s path).statuses state)) from hcount]
    cases (last s path).statuses state <;> rfl
  · intro state
    exact (told_and_won hinv hpath state (told_start hstart state)).2
  · intro state
    rw [placements_add_unplaced hpath state, unplaced, hstart.submits]
    exact Nat.zero_add _
  · intro before after x state outcome hsplit hfinished
    obtain ⟨hbefore, hstep, _⟩ := Run.Path.split (hsplit ▸ hpath)
    have heffect := (hstep.done (invariant_last hinv hbefore)).effect
    have htold := (told_and_won hinv hbefore state (told_start hstart state)).1
    have hchange := heffect.change state
    rw [Label.outcome, hfinished, Option.bind_some, if_pos rfl] at hchange
    rw [firstLeave_append_singleton, heffect.leave_eq]
    exact hchange.outcome_eq htold
  · intro before after task token waitId commit t hsplit state hne
    obtain ⟨_, hstep, _⟩ := Run.Path.split (hsplit ▸ hpath)
    exact hstep.token rfl hne

def quiet : Rounds := ⟨fun _ => .runnable, fun _ => .retired, 0, [], [], []⟩

def begun : Rounds :=
  { quiet.setSched 0 (.waiting 0 true .prePark) (update quiet.statuses 0 .armed) with
    nextState := 1
    guards := [(0, 0)] }

def woken : Rounds :=
  begun.setSched 0 .runnable (update begun.statuses 0 (.completed .event))

def retired : Rounds :=
  { woken.setSched 0 .runnable woken.statuses with
    statuses := update woken.statuses 0 .retired
    guards := [] }

def begunAgain : Rounds :=
  { retired.setSched 0 (.waiting 1 true .prePark) (update retired.statuses 1 .armed) with
    nextState := 2
    guards := [(0, 1)] }

/-- The token of the first round comes back in the second. -/
def lateToken : History :=
  [(.beginWait 0 0, begun),
    (.wake 0 (some 0) (some 0) (.woke .prePark), { woken with submits := [(0, 0, .prePark)] }),
    (.submit 0 0 .prePark, woken),
    (.finishWait 0 0 none,
      { woken.setSched 0 .runnable woken.statuses with guards := [], retiring := [(0, 0)] }),
    (.retire 0 0 (.completed .event), retired),
    (.beginWait 0 1, begunAgain),
    (.wake 0 (some 0) (some 0) .stale,
      begunAgain.setSched 0 (.waiting 1 true .prePark) begunAgain.statuses)]

theorem lateToken_path : Run.Path Step quiet lateToken := by
  refine ⟨Step.beginWait rfl, ?_, ?_, ?_, ?_, Step.beginWait rfl, ?_, trivial⟩
  · refine @Step.wake begun 0 (some 0) .event .anyWait _ _ _ ?_ rfl
    intro state hstate
    cases hstate
    exact Nat.one_pos
  · exact @Step.submit _ [] [] _ _ _ rfl
  · exact @Step.finishWait _ [] [] _ _ _ _ _ rfl rfl
  · exact @Step.retire _ [] [] _ _ rfl
  · refine @Step.wake begunAgain 0 (some 0) .event .anyWait _ _ _ ?_ rfl
    intro state hstate
    cases hstate
    exact Nat.two_pos

/-- A producer wakes the task from its first round, and its token does nothing to the second. -/
theorem rounds_have_one_winner_sample : Run.Path Step quiet lateToken ∧
    wokes 0 lateToken = 1 ∧ (last quiet lateToken).statuses 1 = .armed ∧
      OneWinner quiet lateToken := by
  refine ⟨lateToken_path, rfl, rfl, rounds_have_one_winner ?_ lateToken_path⟩
  exact ⟨fun _ => rfl, rfl, rfl, rfl, rfl⟩

end Anemone.Sched.Rounds
