import Anemone.Interface.ListenersServed
import Anemone.Analysis.RoundSteps

/-!
# Listeners and rounds

A registered listener belongs to the round of its task: nobody else waits on that round, and
while it is armed the task does.
-/

namespace Anemone.Sched

open Event List

namespace Rounds

variable {r r' : Rounds} {task token : ℕ} {reason : WaitReason} {mode : WakeMode}
  {commit : WakeCommit}

theorem wakeRound_step {token : Option ℕ}
    (hbegun : ∀ state, token = some state → state < r.nextState)
    (h : r.wakeRound task token reason mode = .ok (commit, r')) :
    Step r (.wake task token (token.or (waitingOn (r.sched task))) commit) r' := by
  obtain ⟨⟨commit', sched, statuses⟩, hcommit, hok⟩ := Checked.bind_eq_ok.mp h
  cases hok
  exact Step.wake hbegun hcommit

/-- **an armed round is ended, or the mode does not allow it.** -/
theorem wakeRound_armed {interruptible : Bool}
    (hsched : waits (r.sched task) = some (token, interruptible))
    (harmed : r.statuses token = .armed)
    (h : r.wakeRound task (some token) reason mode = .ok (commit, r')) :
    if mode.allows interruptible then
      (∃ park, commit = .woke park) ∧
        r'.statuses = Function.update r.statuses token (.completed reason)
    else commit = .modeBlocked ∧ r'.statuses = r.statuses ∧ r'.sched = r.sched := by
  obtain ⟨park, hsched⟩ := waits_eq.mp hsched
  obtain ⟨⟨commit', sched, statuses⟩, hcommit, hok⟩ := Checked.bind_eq_ok.mp h
  cases hok
  rw [hsched, commitWake_armed (.inr rfl) harmed] at hcommit
  split at hcommit
  · rename_i hmode
    rw [if_pos hmode]
    cases hcommit
    exact ⟨⟨park, rfl⟩, rfl⟩
  · rename_i hmode
    rw [if_neg hmode]
    cases hcommit
    refine ⟨rfl, rfl, ?_⟩
    rw [← hsched]
    exact Function.update_eq_self _ _

theorem wakeRound_modeBlocked {token : Option ℕ}
    (h : r.wakeRound task token reason mode = .ok (.modeBlocked, r')) :
    ∃ state interruptible, waits (r.sched task) = some (state, interruptible) ∧
      mode.allows interruptible = false := by
  obtain ⟨⟨commit', sched, statuses⟩, hcommit, hok⟩ := Checked.bind_eq_ok.mp h
  cases hok
  obtain ⟨state, interruptible, park, hsched, hmode⟩ := commitWake_modeBlocked hcommit
  exact ⟨state, interruptible, waits_eq.mpr ⟨park, hsched⟩, hmode⟩

end Rounds

section Queues

variable {e : Event} {kind kind' : ListenerQueueKind} {listener l : Listener}
  {listeners : List Listener}

@[simp] theorem Event.setQueue_rounds : (e.setQueue kind listeners).rounds = e.rounds := by
  cases kind <;> rfl

@[simp] theorem Event.queue_setQueue :
    (e.setQueue kind listeners).queue kind' = if kind' = kind then listeners else e.queue kind' := by
  cases kind <;> cases kind' <;> rfl

@[simp] theorem Event.enqueue_rounds : (e.enqueue kind listener).rounds = e.rounds := by
  unfold enqueue
  split
  · rfl
  · exact setQueue_rounds

/-- **what a queue holds when a listener was put back or registered.** -/
theorem Event.queue_enqueue (e : Event) (kind kind' : ListenerQueueKind) (listener : Listener) :
    (e.enqueue kind listener).queue kind' = e.queue kind' ∨
      kind' = kind ∧ (e.enqueue kind listener).queue kind' = e.queue kind' ++ [listener] := by
  unfold enqueue
  split
  · exact .inl rfl
  · rw [queue_setQueue]
    split
    · rename_i hkind
      subst hkind
      exact .inr ⟨rfl, rfl⟩
    · exact .inl rfl

theorem Event.queue_cleanListener (e : Event) (listener : Listener) (exclusive : Bool)
    (kind : ListenerQueueKind) :
    (e.cleanListener listener exclusive).queue kind = e.queue kind ∨
      (e.cleanListener listener exclusive).queue kind =
        (e.queue kind).filter fun l => l.token ≠ listener.token := by
  cases exclusive <;> cases kind
  · exact .inr rfl
  · exact .inl rfl
  · exact .inl rfl
  · exact .inr rfl

def Has (listeners : List Listener) (token : ℕ) : Prop := ∃ l ∈ listeners, l.token = token

theorem Event.has_enqueue_self (e : Event) (kind : ListenerQueueKind) (listener : Listener) :
    Has ((e.enqueue kind listener).queue kind) listener.token := by
  unfold enqueue
  split
  · rename_i hany
    obtain ⟨l, hl, htoken⟩ := any_eq_true.mp hany
    exact ⟨l, hl, of_decide_eq_true htoken⟩
  · rw [queue_setQueue, if_pos rfl]
    exact ⟨listener, mem_append_right _ (mem_singleton_self _), rfl⟩

end Queues

section Taking

variable {listeners : List Listener} {token left : ℕ} {l : Listener}

/-- Who is among the first listeners stays among them. -/
def Ahead (token : ℕ) (listeners listeners' : List Listener) : Prop :=
  ∀ left, Has (listeners.take left) token → Has (listeners'.take left) token

theorem Ahead.has {listeners' : List Listener} (h : Ahead token listeners listeners')
    (hhas : Has listeners token) : Has listeners' token := by
  obtain ⟨l, hl, htoken⟩ := h listeners.length (by rwa [take_length])
  exact ⟨l, mem_of_mem_take hl, htoken⟩

theorem ahead_enqueue (e : Event) (kind kind' : ListenerQueueKind) (listener : Listener) :
    Ahead token (e.queue kind') ((e.enqueue kind listener).queue kind') := by
  rcases queue_enqueue e kind kind' listener with heq | ⟨_, heq⟩
  · rw [heq]
    exact fun _ hhas => hhas
  · rintro left ⟨l, hl, htoken⟩
    rw [heq, take_append]
    exact ⟨l, mem_append_left _ hl, htoken⟩

/-- who stays in a queue moves forward when others leave it. -/
theorem mem_take_filter {keep : Listener → Bool} (h : l ∈ listeners.take left)
    (hl : keep l = true) : l ∈ (listeners.filter keep).take left := by
  induction listeners generalizing left with
  | nil =>
    rw [take_nil] at h
    cases h
  | cons x rest ih =>
    cases left with
    | zero => cases h
    | succ left =>
      rw [take_succ_cons, mem_cons] at h
      rw [filter_cons]
      split
      · rw [take_succ_cons]
        rcases h with rfl | h
        · exact mem_cons_self
        · exact mem_cons_of_mem _ (ih h)
      · rename_i hx
        rcases h with rfl | h
        · exact absurd hl hx
        · exact (take_subset_take_left _ (Nat.le_succ left)) (ih h)

theorem ahead_clean (e : Event) {listener : Listener} (exclusive : Bool)
    (kind : ListenerQueueKind) (hne : token ≠ listener.token) :
    Ahead token (e.queue kind) ((e.cleanListener listener exclusive).queue kind) := by
  rcases queue_cleanListener e listener exclusive kind with heq | heq
  · rw [heq]
    exact fun _ hhas => hhas
  · rintro left ⟨l, hl, rfl⟩
    rw [heq]
    exact ⟨l, mem_take_filter hl (decide_eq_true hne), rfl⟩

theorem mem_take_tail {x : Listener} (h : l ∈ (x :: listeners).take left) (hne : x ≠ l) :
    l ∈ listeners.take left := by
  cases left with
  | zero => cases h
  | succ left =>
    rw [take_succ_cons, mem_cons] at h
    rcases h with rfl | h
    · exact absurd rfl hne
    · exact (take_subset_take_left _ (Nat.le_succ left)) h

theorem ahead_tail (hne : l.token ≠ token) : Ahead token (l :: listeners) listeners := by
  rintro left ⟨l', hl', rfl⟩
  exact ⟨l', mem_take_tail hl' (fun heq => hne (heq ▸ rfl)), rfl⟩

end Taking

/-- The listener is in a queue, or in the hands of the call. -/
def Publish.Lists (e : Event) (p : Publish) (l : Listener) : Prop :=
  (∃ kind, l ∈ e.queue kind) ∨ ∃ kind, p.phase.holds = some (kind, l)

variable {l : Listener} {r : Rounds}

/-- a step of `publish` takes listeners from the queues and puts them back, no others. -/
theorem Publish.Step.lists {e e' : Event} {p q : Publish} {label : Publish.Label}
    (h : Publish.Step e p label e' q) (hl : Publish.Lists e' q l) :
    Publish.Lists e p l := by
  have hqueue {phase : Publish.Phase} (hphase : phase.holds = none)
      (hl : Publish.Lists e { p with phase := phase } l) : Publish.Lists e p l := by
    rcases hl with hl | ⟨kind, hl⟩
    · exact .inl hl
    · rw [hphase] at hl
      cases hl
  cases h with
  | look | leaveNonExclusive | lookExclusive | leaveExclusive | dropped | denied =>
    exact hqueue rfl hl
  | pop phase quota front =>
    rename_i kind left listener rest
    rcases hl with ⟨kind', hl⟩ | ⟨kind', hl⟩
    · rw [queue_setQueue] at hl
      split at hl
      · rename_i hkind
        exact .inl ⟨kind, by rw [front]; exact mem_cons_of_mem _ hl⟩
      · exact .inl ⟨kind', hl⟩
    · cases hl
      exact .inl ⟨kind, by rw [front]; exact mem_cons_self⟩
  | wake phase hwake =>
    rename_i kind left listener commit rounds
    rcases hl with hl | ⟨kind', hl⟩
    · exact .inl hl
    · refine .inr ⟨kind', ?_⟩
      rw [phase]
      cases commit with
      | modeBlocked => exact hl
      | woke park => cases kind <;> cases hl
      | _ => cases hl
  | permit phase => exact hl.imp id fun ⟨kind, hl⟩ => ⟨kind, by rw [phase]; exact hl⟩
  | requeue phase =>
    rename_i kind left listener
    rcases hl with ⟨kind', hl⟩ | ⟨kind', hl⟩
    · rcases queue_enqueue e kind kind' listener with heq | ⟨_, heq⟩
      · exact .inl ⟨kind', heq ▸ hl⟩
      · rw [heq] at hl
        rcases mem_append.mp hl with hl | hl
        · exact .inl ⟨kind', hl⟩
        · rw [mem_singleton.mp hl]
          exact .inr ⟨kind, by rw [phase]; rfl⟩
    · cases hl

/-- The listener is of a round that has begun, and nobody but its task waits in it. -/
def Owned (r : Rounds) (l : Listener) : Prop :=
  l.token < r.nextState ∧ ∀ task, waitingOn (r.sched task) = some l.token → task = l.task

theorem Owned.step {r' : Rounds} {label : Rounds.Label} (h : Owned r l) (hinv : r.Invariant)
    (hstep : Rounds.Step r label r') : Owned r' l := by
  have hdone := hstep.done hinv
  refine ⟨Nat.lt_of_lt_of_le h.1 hdone.effect.next_le.1, ?_⟩
  intro task hwait
  rw [Rounds.waitingOn_eq_map, Option.map_eq_some_iff] at hwait
  obtain ⟨x, hx, hfst⟩ := hwait
  have hold := hdone.older task x (hfst ▸ h.1) hx
  apply h.2 task
  rw [Rounds.waitingOn_eq_map, hold, Option.map_some, hfst]

/-- **while the round of a listener is armed its task waits in it.** -/
theorem Owned.waits (h : Owned r l) (hinv : r.Invariant) (harmed : r.statuses l.token = .armed) :
    ∃ interruptible, Rounds.waits (r.sched l.task) = some (l.token, interruptible) := by
  obtain ⟨task, hwait⟩ := hinv.waited l.token h.1 harmed
  obtain rfl := h.2 task hwait
  rw [Rounds.waitingOn_eq_map, Option.map_eq_some_iff] at hwait
  obtain ⟨⟨state, interruptible⟩, hx, rfl⟩ := hwait
  exact ⟨interruptible, hx⟩

theorem Owned.of_guard (hinv : r.Invariant) (hguard : (l.task, l.token) ∈ r.guards) :
    Owned r l := by
  have hheld : (l.task, l.token) ∈ r.held := mem_append_left _ hguard
  refine ⟨hinv.begun _ hheld, ?_⟩
  intro task hwait
  exact congrArg Prod.fst (hinv.eq_of_state (hinv.mem_held_of_waiting hwait) hheld rfl)

end Anemone.Sched
