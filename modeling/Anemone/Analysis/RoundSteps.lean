import Anemone.Interface.OneWinner
import Anemone.Analysis.WaitTransactions

/-!
# What a step does to the rounds

A step begins a round, ends an armed one, retires one that is over, or does nothing to any of
them (`Effect`): a task waits on an armed state and holds its guard, no two guards are of the same
state, and no state is retired as long as its guard is there.
-/

namespace Anemone.Sched.Rounds

open Function (update_self update_of_ne update)
open List

variable {s t : Rounds} {label : Label} {sched : TaskSchedState} {state : ℕ}

theorem waitingOn_eq :
    waitingOn sched = some state ↔ ∃ interruptible park, sched = .waiting state interruptible park := by
  cases sched with
  | runnable | zombie => simp [waitingOn]
  | waiting state' interruptible park =>
    constructor
    · intro h
      obtain rfl : state' = state := Option.some.inj h
      exact ⟨_, _, rfl⟩
    · rintro ⟨_, _, h⟩
      rw [h]
      rfl

/-- The guards that are held or given to `finish_wait`. -/
def held (s : Rounds) : List (ℕ × ℕ) := s.guards ++ s.retiring

structure Invariant (s : Rounds) : Prop where
  armed : ∀ task state, waitingOn (s.sched task) = some state → s.statuses state = .armed
  guarded : ∀ task state, waitingOn (s.sched task) = some state → (task, state) ∈ s.guards
  waited : ∀ state, state < s.nextState → s.statuses state = .armed →
    ∃ task, waitingOn (s.sched task) = some state
  begun : ∀ g ∈ s.held, g.2 < s.nextState
  unretired : ∀ g ∈ s.held, s.statuses g.2 ≠ .retired
  nodup : (s.held.map Prod.snd).Nodup

variable {before after guards : List (ℕ × ℕ)} {task' : ℕ} {status : WaitStateStatus}
  {interruptible : Bool} {statuses : Statuses}

theorem waitingOn_update {task : ℕ} :
    waitingOn (update s.sched task sched task') = some state ↔
      (task' = task ∧ waitingOn sched = some state) ∨
        (task' ≠ task ∧ waitingOn (s.sched task') = some state) := by
  by_cases htask : task' = task
  · simp [htask]
  · simp [htask, update_of_ne]

theorem mem_of_ne_middle {x g : ℕ × ℕ} (hmem : g ∈ before ++ x :: after)
    (hne : g ≠ x) : g ∈ before ++ after := by
  rw [mem_append, mem_cons] at hmem
  rcases hmem with hmem | rfl | hmem
  · exact mem_append_left _ hmem
  · exact absurd rfl hne
  · exact mem_append_right _ hmem

namespace Invariant

variable {task state : ℕ}

section

variable (h : Invariant s)

include h

theorem armed' (task : ℕ) (state : ℕ) (interruptible : Bool) (park : ParkState)
    (hsched : s.sched task = .waiting state interruptible park) : s.statuses state = .armed :=
  h.armed task state (waitingOn_eq.mpr ⟨_, _, hsched⟩)

theorem eq_of_state {a b : ℕ × ℕ} (ha : a ∈ s.held) (hb : b ∈ s.held)
    (hstate : a.2 = b.2) : a = b :=
  inj_on_of_nodup_map h.nodup ha hb hstate

theorem ne_of_rest {rest : List (ℕ × ℕ)}
    (hperm : s.held.Perm ((task, state) :: rest)) : ∀ g ∈ rest, g.2 ≠ state := by
  have hnodup := (hperm.map Prod.snd).nodup_iff.mp h.nodup
  intro g hg hstate
  exact (nodup_cons.mp hnodup).1 (mem_map.mpr ⟨g, hg, hstate⟩)

theorem mem_held_of_waiting
    (hwait : waitingOn (s.sched task) = some state) : (task, state) ∈ s.held :=
  mem_append_left _ (h.guarded task state hwait)

theorem eq_of_waiting {task : ℕ} (hwait : waitingOn (s.sched task) = some state)
    (hwait' : waitingOn (s.sched task') = some state) : task = task' := by
  have heq := h.eq_of_state (h.mem_held_of_waiting hwait) (h.mem_held_of_waiting hwait') rfl
  exact congrArg Prod.fst heq

theorem lt_of_waiting (hwait : waitingOn (s.sched task) = some state) : state < s.nextState :=
  h.begun _ (h.mem_held_of_waiting hwait)

theorem not_waiting_of_retiring {g : ℕ × ℕ} (hg : g ∈ s.retiring) (task : ℕ) :
    waitingOn (s.sched task) ≠ some g.2 := by
  intro hwait
  have hnodup := h.nodup
  rw [held, map_append, nodup_append'] at hnodup
  exact hnodup.2.2 (mem_map.mpr ⟨_, h.guarded task g.2 hwait, rfl⟩) (mem_map.mpr ⟨g, hg, rfl⟩)

end

theorem of_start (h : Start s) : Invariant s := by
  have hnot : ∀ task state, waitingOn (s.sched task) ≠ some state := by
    intro task state hwait
    cases (h.sched task).symm.trans hwait
  have hheld : s.held = [] := by rw [held, h.guards, h.retiring]; rfl
  refine ⟨fun _ _ hwait => absurd hwait (hnot _ _), fun _ _ hwait => absurd hwait (hnot _ _), ?_,
    ?_, ?_, ?_⟩
  · intro state hlt
    rw [h.nextState] at hlt
    exact absurd hlt (Nat.not_lt_zero _)
  · rw [hheld]
    simp
  · rw [hheld]
    simp
  · rw [hheld]
    exact nodup_nil

theorem after_begin (h : Invariant s) (hsched : waitingOn (s.sched task) = none)
    (interruptible : Bool) :
    Invariant { s.setSched task (.waiting s.nextState interruptible .prePark)
        (update s.statuses s.nextState .armed) with
      nextState := s.nextState + 1
      guards := (task, s.nextState) :: s.guards } := by
  have hold : ∀ g ∈ s.held, g.2 ≠ s.nextState := fun g hg => Nat.ne_of_lt (h.begun g hg)
  refine ⟨?_, ?_, ?_, ?_, ?_, ?_⟩
  · intro task' state hwait
    show update s.statuses s.nextState .armed state = .armed
    rcases waitingOn_update.mp hwait with ⟨-, hwait⟩ | ⟨-, hwait⟩
    · rw [← Option.some.inj hwait, update_self]
    · rw [update_of_ne (Nat.ne_of_lt (h.lt_of_waiting hwait))]
      exact h.armed task' state hwait
  · intro task' state hwait
    rcases waitingOn_update.mp hwait with ⟨rfl, hstate⟩ | ⟨-, hwait⟩
    · rw [← Option.some.inj hstate]
      exact mem_cons_self
    · exact mem_cons_of_mem _ (h.guarded task' state hwait)
  · intro state hlt harmed
    by_cases hstate : state = s.nextState
    · exact ⟨task, waitingOn_update.mpr (.inl ⟨rfl, congrArg some hstate.symm⟩)⟩
    · have harmed : update s.statuses s.nextState .armed state = .armed := harmed
      rw [update_of_ne hstate] at harmed
      have hlt : state < s.nextState := Nat.lt_of_le_of_ne (Nat.le_of_lt_succ hlt) hstate
      obtain ⟨task', hwait⟩ := h.waited state hlt harmed
      refine ⟨task', waitingOn_update.mpr (.inr ⟨?_, hwait⟩)⟩
      rintro rfl
      cases hsched.symm.trans hwait
  · intro g hg
    rcases mem_cons.mp hg with rfl | hg
    · exact Nat.lt_succ_self _
    · exact Nat.lt_succ_of_lt (h.begun g hg)
  · intro g hg
    show update s.statuses s.nextState .armed g.2 ≠ .retired
    rcases mem_cons.mp hg with rfl | hg
    · rw [update_self]
      exact nofun
    · rw [update_of_ne (hold g hg)]
      exact h.unretired g hg
  · refine nodup_cons.mpr ⟨?_, h.nodup⟩
    intro hmem
    obtain ⟨g, hg, hstate⟩ := mem_map.mp hmem
    exact hold g hg hstate

/-- **an armed round ends.**  If it is retired its guard goes. -/
theorem after_ends (h : Invariant s)
    (hends : Ends (s.sched task) s.statuses state status sched statuses) (hstatus : status ≠ .armed)
    (hguards : guards.Sublist s.guards) (hkept : ∀ g ∈ s.guards, g ≠ (task, state) → g ∈ guards)
    (hretired : status = .retired → ∀ g ∈ guards, g.2 ≠ state) (submits : List (ℕ × ℕ × ParkState)) :
    Invariant { s.setSched task sched statuses with guards := guards, submits := submits } := by
  obtain ⟨hwaiting, harmed, rfl, rfl⟩ := hends
  have hwait : waitingOn (s.sched task) = some state := waitingOn_eq.mpr hwaiting
  have hother : ∀ task' state', waitingOn (update s.sched task .runnable task') =
      some state' → waitingOn (s.sched task') = some state' ∧ state' ≠ state := by
    intro task' state' hwait'
    rcases waitingOn_update.mp hwait' with ⟨-, hwait'⟩ | ⟨htask, hwait'⟩
    · cases hwait'
    · refine ⟨hwait', ?_⟩
      rintro rfl
      exact htask (h.eq_of_waiting hwait' hwait)
  have hsub : (guards ++ s.retiring).Sublist s.held := hguards.append_right _
  refine ⟨?_, ?_, ?_, fun g hg => h.begun g (hsub.subset hg), ?_, h.nodup.sublist (hsub.map _)⟩
  · intro task' state' hwait'
    obtain ⟨hwait', hne⟩ := hother task' state' hwait'
    show update s.statuses state status state' = .armed
    rw [update_of_ne hne]
    exact h.armed task' state' hwait'
  · intro task' state' hwait'
    obtain ⟨hwait', hne⟩ := hother task' state' hwait'
    exact hkept _ (h.guarded task' state' hwait') fun heq => hne (congrArg Prod.snd heq)
  · intro state' hlt harmed'
    have harmed' : update s.statuses state status state' = .armed := harmed'
    have hne : state' ≠ state := by
      rintro rfl
      rw [update_self] at harmed'
      exact hstatus harmed'
    rw [update_of_ne hne] at harmed'
    obtain ⟨task', hwait'⟩ := h.waited state' hlt harmed'
    refine ⟨task', waitingOn_update.mpr (.inr ⟨?_, hwait'⟩)⟩
    rintro rfl
    exact hne (Option.some.inj (hwait'.symm.trans hwait))
  · intro g hg
    show update s.statuses state status g.2 ≠ .retired
    by_cases hstate : g.2 = state
    · rw [hstate, update_self]
      intro hret
      rcases mem_append.mp hg with hg | hg
      · exact hretired hret g hg hstate
      · exact h.not_waiting_of_retiring hg task (hstate ▸ hwait)
    · rw [update_of_ne hstate]
      exact h.unretired g (hsub.subset hg)

/-- **a guard is given to `finish_wait`**, when its task does not wait any more. -/
theorem after_finish (h : Invariant s) (hguards : s.guards = before ++ (task, state) :: after)
    (hwait : waitingOn (s.sched task) ≠ some state) :
    Invariant { s with guards := before ++ after, retiring := (task, state) :: s.retiring } := by
  have hperm : (before ++ after ++ (task, state) :: s.retiring).Perm s.held := by
    rw [held, hguards, append_assoc, append_assoc, cons_append]
    exact List.Perm.append_left before perm_middle
  refine ⟨h.armed, ?_, h.waited, fun g hg => h.begun g (hperm.subset hg),
    fun g hg => h.unretired g (hperm.subset hg), (hperm.map _).nodup_iff.mpr h.nodup⟩
  intro task' state' hwait'
  refine mem_of_ne_middle (hguards ▸ h.guarded task' state' hwait') fun heq => ?_
  cases heq
  exact hwait hwait'

theorem after_retire (h : Invariant s) (hretiring : s.retiring = before ++ (task, state) :: after) :
    Invariant { s with
      statuses := update s.statuses state .retired
      retiring := before ++ after } := by
  have hmem : (task, state) ∈ s.retiring := by rw [hretiring]; simp
  have hperm : s.held.Perm ((task, state) :: (s.guards ++ (before ++ after))) := by
    rw [held, hretiring, ← append_assoc, ← append_assoc]
    exact perm_middle
  have hheld : ∀ g ∈ s.guards ++ (before ++ after), g ∈ s.held :=
    fun g hg => hperm.mem_iff.mpr (mem_cons_of_mem _ hg)
  refine ⟨?_, h.guarded, ?_, fun g hg => h.begun g (hheld g hg), ?_,
    ((hperm.map Prod.snd).nodup_iff.mp h.nodup).of_cons⟩
  · intro task' state' hwait
    have hne : state' ≠ state := by
      rintro rfl
      exact h.not_waiting_of_retiring hmem task' hwait
    show update s.statuses state .retired state' = .armed
    rw [update_of_ne hne]
    exact h.armed task' state' hwait
  · intro state' hlt harmed
    have harmed : update s.statuses state .retired state' = .armed := harmed
    by_cases hstate : state' = state
    · rw [hstate, update_self] at harmed
      cases harmed
    · rw [update_of_ne hstate] at harmed
      exact h.waited state' hlt harmed
  · intro g hg
    show update s.statuses state .retired g.2 ≠ .retired
    rw [update_of_ne (h.ne_of_rest hperm g hg)]
    exact h.unretired g (hheld g hg)

theorem after_keeps (h : Invariant s) {sched : ℕ → TaskSchedState}
    (hsched : ∀ task, waitingOn (sched task) = waitingOn (s.sched task))
    (submits : List (ℕ × ℕ × ParkState)) :
    Invariant { s with sched := sched, submits := submits } := by
  refine ⟨?_, ?_, ?_, h.begun, h.unretired, h.nodup⟩
  · intro task state hwait
    exact h.armed task state ((hsched task).symm.trans hwait)
  · intro task state hwait
    exact h.guarded task state ((hsched task).symm.trans hwait)
  · intro state hlt harmed
    obtain ⟨task, hwait⟩ := h.waited state hlt harmed
    exact ⟨task, (hsched task).trans hwait⟩

end Invariant

/-- What a step does to the statuses, and what it shows of it. -/
inductive Effect (s : Rounds) (label : Label) (t : Rounds) : Prop
  | begins (statuses : t.statuses = update s.statuses s.nextState .armed)
      (next : t.nextState = s.nextState + 1) (woke : label.woke = none)
      (finished : label.finished = none)
  | completes (state : ℕ) (reason : WaitReason) (armed : s.statuses state = .armed)
      (begun : state < s.nextState)
      (statuses : t.statuses = update s.statuses state (.completed reason))
      (next : t.nextState = s.nextState) (woke : label.woke = some state)
      (finished : label.finished = none)
  | cancels (state : ℕ) (reason : WaitReason) (armed : s.statuses state = .armed)
      (begun : state < s.nextState)
      (statuses : t.statuses = update s.statuses state (.cancelled reason))
      (next : t.nextState = s.nextState) (woke : label.woke = none)
      (finished : label.finished = none)
  | retires (state : ℕ) (begun : state < s.nextState) (unretired : s.statuses state ≠ .retired)
      (statuses : t.statuses = update s.statuses state .retired)
      (next : t.nextState = s.nextState) (woke : label.woke = none)
      (finished : label.finished = some (state, .fromStatus (s.statuses state)))
  | keeps (statuses : t.statuses = s.statuses) (next : t.nextState = s.nextState)
      (woke : label.woke = none) (finished : label.finished = none)

/-- The round that a task waits in, and whether it can be interrupted. -/
def waits : TaskSchedState → Option (ℕ × Bool)
  | .waiting state interruptible _ => some (state, interruptible)
  | .runnable | .zombie => none

theorem waits_eq :
    waits sched = some (state, interruptible) ↔ ∃ park, sched = .waiting state interruptible park := by
  cases sched <;> simp [waits]

theorem waitingOn_eq_map (sched : TaskSchedState) : waitingOn sched = (waits sched).map Prod.fst := by
  cases sched <;> rfl

theorem waits_decideSchedule {mode : ScheduleMode} {sched' : TaskSchedState}
    {decision : ScheduleDecision} (h : decideSchedule mode sched statuses = .ok (sched', decision)) :
    waits sched' = waits sched := by
  cases sched with
  | runnable =>
    cases mode with
    | waitSleep token =>
      simp only [decideSchedule] at h
      split at h
      · cases h
        rfl
      · cases h
    | _ =>
      cases h
      rfl
  | zombie => cases mode <;> cases h
  | waiting state interruptible park =>
    cases park <;> cases mode with
    | waitSleep token =>
      simp only [decideSchedule] at h
      split at h
      · cases h
        rfl
      · cases h
    | _ =>
      cases h
      try rfl

theorem setSched_self (s : Rounds) (task : ℕ) : s.setSched task (s.sched task) s.statuses = s := by
  rw [setSched, Function.update_eq_self]

/-- The tasks that wait in a round that has begun have waited in it before. -/
def Older (s t : Rounds) : Prop :=
  ∀ task x, x.1 < s.nextState → waits (t.sched task) = some x → waits (s.sched task) = some x

theorem older_update (task : ℕ) (sched : TaskSchedState)
    (h : ∀ x, x.1 < s.nextState → waits sched = some x → waits (s.sched task) = some x)
    (ht : t.sched = update s.sched task sched) : Older s t := by
  intro task' x hbegun hwait
  rw [ht] at hwait
  by_cases htask : task' = task
  · subst htask
    rw [update_self] at hwait
    exact h x hbegun hwait
  · rwa [update_of_ne htask] at hwait

/-- The task whose scheduling state or round a step may change. -/
def Label.task : Label → ℕ
  | .beginWait task _ | .cancelWait task _ _ | .finishWait task _ _ | .retire task _ _
  | .wake task _ _ _ | .submit task _ _ | .permit task _ _ | .schedule task _ => task

/-- The scheduling state of the task, and the guards it holds with the statuses of their rounds,
are the same. -/
def Framed (task : ℕ) (s t : Rounds) : Prop :=
  t.sched task = s.sched task ∧ (∀ token, (task, token) ∈ s.guards →
      (task, token) ∈ t.guards ∧ t.statuses token = s.statuses token) ∧
    ∀ token, (task, token) ∈ s.retiring →
      (task, token) ∈ t.retiring ∧ t.statuses token = s.statuses token

/-- What a step does to the rounds, and what it leaves to the other tasks: nobody goes back to a
round that has begun, and another task and its rounds are left alone. -/
structure Done (s : Rounds) (label : Label) (t : Rounds) : Prop where
  effect : Effect s label t
  invariant : Invariant t
  older : Older s t
  framed : ∀ task, label.task ≠ task → Framed task s t

section Effects

variable {task state : ℕ} {sched : TaskSchedState} {statuses : Statuses} (h : Invariant s)
  {reason : WaitReason}

include h

theorem Invariant.framed_update (hne : task' ≠ task) (hheld : (task', state) ∈ s.held)
    (hsched : t.sched task = s.sched task) (status : WaitStateStatus)
    (hstatuses : t.statuses = s.statuses ∨ t.statuses = update s.statuses state status)
    (hguards : ∀ g ∈ s.guards, g ≠ (task', state) → g ∈ t.guards)
    (hretiring : ∀ g ∈ s.retiring, g ≠ (task', state) → g ∈ t.retiring) : Framed task s t := by
  have hother (token : ℕ) : (task, token) ≠ (task', state) :=
    fun heq => hne (congrArg Prod.fst heq).symm
  have hstatus (token : ℕ) (hmem : (task, token) ∈ s.held) :
      t.statuses token = s.statuses token := by
    rcases hstatuses with hstatuses | hstatuses
    · rw [hstatuses]
    · rw [hstatuses, update_of_ne]
      intro heq
      exact hother token (h.eq_of_state hmem hheld heq)
  refine ⟨hsched, ?_, ?_⟩
  · intro token hmem
    exact ⟨hguards _ hmem (hother token), hstatus token (mem_append_left _ hmem)⟩
  · intro token hmem
    exact ⟨hretiring _ hmem (hother token), hstatus token (mem_append_right _ hmem)⟩

theorem Invariant.done_ends (hends : Ends (s.sched task) s.statuses state status sched statuses)
    (hstatus : status ≠ .armed) (hguards : guards.Sublist s.guards)
    (hkept : ∀ g ∈ s.guards, g ≠ (task, state) → g ∈ guards)
    (hretired : status = .retired → ∀ g ∈ guards, g.2 ≠ state) (submits : List (ℕ × ℕ × ParkState))
    (htask : label.task = task)
    (heffect : state < s.nextState → Effect s label
      { s.setSched task sched statuses with guards := guards, submits := submits }) :
    Done s label { s.setSched task sched statuses with guards := guards, submits := submits } := by
  have hmem := h.mem_held_of_waiting (waitingOn_eq.mpr hends.1)
  refine ⟨heffect (h.begun _ hmem), h.after_ends hends hstatus hguards hkept hretired submits,
    older_update task sched (fun x _ hwait => ?_) rfl, fun task' hne => ?_⟩
  · rw [hends.2.2.1] at hwait
    cases hwait
  · rw [htask] at hne
    exact h.framed_update hne hmem (update_of_ne hne.symm _ _) status (.inr hends.2.2.2)
      hkept fun _ hg _ => hg

theorem Invariant.done_keeps (hsched : waits sched = waits (s.sched task))
    (submits : List (ℕ × ℕ × ParkState)) (htask : label.task = task) (hwoke : label.woke = none)
    (hfinished : label.finished = none) :
    Done s label { s.setSched task sched s.statuses with submits := submits } := by
  refine ⟨.keeps rfl rfl hwoke hfinished, h.after_keeps (fun task' => ?_) submits,
    older_update task sched (fun _ _ hwait => hsched.symm.trans hwait) rfl, fun task' hne => ?_⟩
  · show waitingOn (update s.sched task sched task') = _
    by_cases htask' : task' = task
    · rw [htask', update_self, waitingOn_eq_map, waitingOn_eq_map, hsched]
    · rw [update_of_ne htask']
  · rw [htask] at hne
    exact ⟨update_of_ne hne.symm _ _, fun _ hg => ⟨hg, rfl⟩, fun _ hg => ⟨hg, rfl⟩⟩

theorem Invariant.done_submits (submits : List (ℕ × ℕ × ParkState)) (hwoke : label.woke = none)
    (hfinished : label.finished = none) : Done s label { s with submits := submits } := by
  have hsame : waits (s.sched label.task) = waits (s.sched label.task) := rfl
  have hdone := h.done_keeps hsame submits rfl hwoke hfinished
  rwa [setSched_self] at hdone

theorem done_beginWait
    (hbegin : Sched.beginWait (s.sched task) s.nextState interruptible = .ok sched) :
    Done s (.beginWait task s.nextState)
      { s.setSched task sched (update s.statuses s.nextState .armed) with
        nextState := s.nextState + 1
        guards := (task, s.nextState) :: s.guards } := by
  cases hsched : s.sched task with
  | waiting | zombie => rw [hsched] at hbegin; cases hbegin
  | runnable =>
    rw [hsched] at hbegin
    cases hbegin
    refine ⟨.begins rfl rfl rfl rfl, h.after_begin (by rw [hsched]; rfl) interruptible,
      older_update task _ (fun x hbegun hwait => ?_) rfl, fun task' hne => ?_⟩
    · cases hwait
      exact absurd hbegun (Nat.lt_irrefl _)
    · have hold (token : ℕ) (hmem : (task', token) ∈ s.held) :
          update s.statuses s.nextState .armed token = s.statuses token :=
        update_of_ne (Nat.ne_of_lt (h.begun _ hmem)) _ _
      refine ⟨update_of_ne (Ne.symm hne) _ _, ?_, ?_⟩
      · intro token hmem
        exact ⟨mem_cons_of_mem _ hmem, hold token (mem_append_left _ hmem)⟩
      · intro token hmem
        exact ⟨hmem, hold token (mem_append_right _ hmem)⟩

theorem done_cancelWait {result : WaitResult}
    (hcancel : Sched.cancelWait (s.sched task) s.statuses state reason =
      (result, sched, statuses)) :
    Done s (.cancelWait task state result) (s.setSched task sched statuses) := by
  obtain ⟨_, _, _, hspec, hcases⟩ := cancelWait_spec state reason (h.armed' task)
  cases hcancel.symm.trans hspec
  rcases hcases with hends | ⟨_, rfl, rfl⟩
  · exact h.done_ends hends nofun (List.Sublist.refl _) (fun _ hg _ => hg) nofun s.submits rfl
      fun hbegun => .cancels state reason hends.2.1 hbegun hends.2.2.2 rfl rfl rfl
  · exact h.done_keeps rfl s.submits rfl rfl rfl

theorem done_finishWait {outcome : Option WaitOutcome}
    (held : s.guards = before ++ (task, state) :: after)
    (hfinish : Sched.finishWait (s.sched task) s.statuses state = (outcome, sched, statuses)) :
    Done s (.finishWait task state outcome) { s.setSched task sched statuses with
      guards := before ++ after
      retiring := if outcome.isSome then s.retiring else (task, state) :: s.retiring } := by
  have hkept : ∀ g ∈ s.guards, g ≠ (task, state) → g ∈ before ++ after := by
    intro g hg hne
    rw [held] at hg
    exact mem_of_ne_middle hg hne
  have hmem : (task, state) ∈ s.held :=
    mem_append_left _ (by rw [held]; exact mem_append_right _ mem_cons_self)
  obtain ⟨_, _, _, hspec, hcases⟩ := finishWait_spec state (h.armed' task)
  cases hfinish.symm.trans hspec
  rcases hcases with ⟨rfl, hends⟩ | ⟨rfl, hnot, rfl, rfl⟩
  · have harmed := hends.2.1
    refine h.done_ends hends nofun ?_ hkept (fun _ g hg => ?_) s.submits rfl fun hbegun => ?_
    · rw [held]
      exact (sublist_cons_self _ _).append_left before
    · have hperm : s.held.Perm ((task, state) :: (before ++ after ++ s.retiring)) := by
        rw [Rounds.held, held, append_assoc, append_assoc, cons_append]
        exact perm_middle
      exact h.ne_of_rest hperm g (mem_append_left _ hg)
    · refine .retires state hbegun (by rw [harmed]; exact nofun) hends.2.2.2 rfl rfl ?_
      rw [harmed]
      rfl
  · have hafter := h.after_finish held (fun hwait => hnot (waitingOn_eq.mp hwait))
    rw [setSched_self]
    exact ⟨.keeps rfl rfl rfl rfl, hafter, fun _ _ _ hwait => hwait, fun task' hne =>
      h.framed_update hne hmem rfl .retired (.inl rfl) hkept fun _ hg _ => mem_cons_of_mem _ hg⟩

theorem done_retire (called : s.retiring = before ++ (task, state) :: after) :
    Done s (.retire task state (WaitState.retire (s.statuses state)).1) { s with
        statuses := update s.statuses state (WaitState.retire (s.statuses state)).2
        retiring := before ++ after } := by
  have hmem : (task, state) ∈ s.held := mem_append_right _ (by rw [called]; simp)
  refine ⟨.retires state (h.begun _ hmem) (h.unretired _ hmem) rfl rfl rfl rfl,
    h.after_retire called, fun _ _ _ hwait => hwait, fun task' hne =>
      h.framed_update hne hmem rfl .retired (.inr rfl) (fun _ hg _ => hg) fun g hg hne => ?_⟩
  rw [called] at hg
  exact mem_of_ne_middle hg hne

theorem done_wake {token : Option ℕ} {mode : WakeMode} {commit : WakeCommit}
    (hwake : commitWake (s.sched task) s.statuses token reason mode = .ok (commit, sched, statuses))
    (submits : List (ℕ × ℕ × ParkState)) :
    Done s (.wake task token (token.or (waitingOn (s.sched task))) commit)
      { s.setSched task sched statuses with submits := submits } := by
  obtain ⟨_, _, _, hspec, hcases⟩ := commitWake_spec (s.sched task) s.statuses token reason mode
  cases hwake.symm.trans hspec
  rcases hcases with ⟨state, park, hends, htoken, rfl⟩ | ⟨rfl, rfl, hnot⟩
  · refine h.done_ends hends nofun (List.Sublist.refl _) (fun _ hg _ => hg) nofun submits rfl
      fun hbegun => .completes state reason hends.2.1 hbegun hends.2.2.2 rfl ?_ rfl
    rcases htoken with rfl | rfl
    · exact waitingOn_eq.mpr hends.1
    · rfl
  · refine h.done_keeps rfl submits rfl ?_ rfl
    cases commit with
    | woke park => exact absurd rfl (hnot park)
    | _ => rfl

/-- **what a step does**, to the rounds and to the other tasks. -/
theorem Step.done (hstep : Step s label t) : Done s label t := by
  cases hstep with
  | beginWait hbegin => exact done_beginWait h hbegin
  | cancelWait held hcancel => exact done_cancelWait h hcancel
  | finishWait held hfinish => exact done_finishWait h held hfinish
  | retire called => exact done_retire h called
  | wake begun hwake => exact done_wake h hwake _
  | submit called => exact h.done_submits _ rfl rfl
  | permit begun => exact h.done_submits s.submits rfl rfl
  | schedule hdecide => exact h.done_keeps (waits_decideSchedule hdecide) s.submits rfl rfl rfl

end Effects

/-- no round is taken back, and a round that has not begun does not leave `Armed`. -/
theorem Effect.next_le (h : Effect s label t) : s.nextState ≤ t.nextState ∧
    ∀ state, ¬ state < s.nextState → ¬ Leaves state s t := by
  cases h with
  | begins hstatuses hnext =>
    refine ⟨hnext ▸ Nat.le_succ _, ?_⟩
    rintro state hnot ⟨_, hleft, hlt⟩
    have hstate : state = s.nextState := by omega
    rw [hstatuses, hstate, update_self] at hleft
    exact hleft rfl
  | completes _ _ _ _ _ hnext | cancels _ _ _ _ _ hnext | retires _ _ _ _ hnext
  | keeps _ hnext =>
    exact ⟨Nat.le_of_eq hnext.symm, fun _ hnot hleft => hnot (hnext ▸ hleft.2.2)⟩

theorem Effect.armed_before (h : Effect s label t) (hbegun : state < s.nextState)
    (harmed : t.statuses state = .armed) : s.statuses state = .armed := by
  cases h with
  | begins hstatuses =>
    rwa [hstatuses, update_of_ne (Nat.ne_of_lt hbegun)] at harmed
  | completes state' reason hstate _ hstatuses | cancels state' reason hstate _ hstatuses =>
    by_cases heq : state = state'
    · rwa [heq]
    · rwa [hstatuses, update_of_ne heq] at harmed
  | retires state' _ _ hstatuses =>
    by_cases heq : state = state'
    · rw [hstatuses, heq, update_self] at harmed
      cases harmed
    · rwa [hstatuses, update_of_ne heq] at harmed
  | keeps hstatuses => rwa [hstatuses] at harmed

end Anemone.Sched.Rounds
