import Anemone.Analysis.EventSteps

/-!
# No listener is lost, if nobody is in the way

A registered listener whose round is armed is in the queue or in the hands of some call.  If it is
in the queue when `publish(n, true)` begins, and no other call takes it, the call detaches it.
-/

namespace Anemone.Sched.EventSystem

open Run (last)
open Event Rounds

variable {s t : EventSystem} {label : Label}

/-- The listener is in a queue, or in the hands of a call. -/
def Lists (s : EventSystem) (l : Listener) : Prop :=
  (∃ kind, l ∈ s.event.queue kind) ∨ ∃ p ∈ s.publishes, ∃ kind, p.phase.holds = some (kind, l)

/-- The call has found that it may not wake the task of the listener. -/
def Blocked (r : Rounds) (p : Publish) : Prop :=
  ∀ kind left l, p.phase = .blocked kind left l →
    ∀ interruptible, Rounds.waits (r.sched l.task) = some (l.token, interruptible) →
      p.mode.allows interruptible = false

structure Invariant (s : EventSystem) : Prop where
  rounds : s.event.rounds.Invariant
  owned : ∀ l, s.Lists l → Owned s.event.rounds l
  blocked : ∀ p ∈ s.publishes, Blocked s.event.rounds p

theorem Invariant.of_start (h : Start s) : Invariant s := by
  refine ⟨Rounds.Invariant.of_start h.rounds, ?_, ?_⟩
  · rintro l (⟨kind, hl⟩ | ⟨p, hp, _⟩)
    · cases kind
      · rw [queue, h.nonExclusive] at hl
        cases hl
      · rw [queue, h.exclusive] at hl
        cases hl
    · rw [h.publishes] at hp
      cases hp
  · intro p hp
    rw [h.publishes] at hp
    cases hp

variable {p q : Publish}

theorem publish_rounds {e e' : Event} {label : Publish.Label} (h : Publish.Step e p label e' q)
    (howned : ∀ l, Publish.Lists e p l → Owned e.rounds l) :
    e'.rounds = e.rounds ∨ ∃ label', Rounds.Step e.rounds label' e'.rounds := by
  cases h with
  | wake phase hwake =>
    refine .inr ⟨_, wakeRound_step ?_ hwake⟩
    intro state hstate
    cases hstate
    exact (howned _ (.inr ⟨_, by rw [phase]; rfl⟩)).1
  | pop => exact .inl setQueue_rounds
  | requeue => exact .inl enqueue_rounds
  | _ => exact .inl rfl

theorem Blocked.older {r r' : Rounds} {p : Publish} (h : Blocked r p) (holder : r.Older r')
    (howned : ∀ kind l, p.phase.holds = some (kind, l) → l.token < r.nextState) :
    Blocked r' p := by
  intro kind left l hphase interruptible hwait
  have hbegun : l.token < r.nextState := howned kind l (by rw [hphase]; rfl)
  exact h kind left l hphase interruptible (holder l.task _ hbegun hwait)

theorem Invariant.after_rounds (h : Invariant s) {rounds : Rounds}
    (hrounds : rounds = s.event.rounds ∨ ∃ label, Rounds.Step s.event.rounds label rounds) :
    Invariant (s.setRounds rounds) := by
  rcases hrounds with rfl | ⟨label, hstep⟩
  · exact h
  · refine ⟨(hstep.done h.rounds).invariant, ?_, ?_⟩
    · intro l hl
      have hlists : s.Lists l := hl.imp (fun ⟨kind, hl⟩ => ⟨kind, by cases kind <;> exact hl⟩) id
      exact (h.owned l hlists).step h.rounds hstep
    · intro p hp
      apply (h.blocked p hp).older (hstep.done h.rounds).older
      intro kind l hholds
      exact (h.owned l (.inr ⟨p, hp, kind, hholds⟩)).1

variable {e : Event} {token i : ℕ} {path : History}

theorem Invariant.after_event (h : Invariant s) (hrounds : e.rounds = s.event.rounds)
    (howned : ∀ kind, ∀ l ∈ e.queue kind, Owned s.event.rounds l) :
    Invariant { s with event := e } := by
  refine ⟨hrounds ▸ h.rounds, ?_, ?_⟩
  · intro l hl
    rw [hrounds]
    rcases hl with ⟨kind, hl⟩ | hl
    · exact howned kind l hl
    · exact h.owned l (.inr hl)
  · intro p hp
    rw [hrounds]
    exact h.blocked p hp

theorem Invariant.after_publish (h : Invariant s) {label : Publish.Label}
    (hcall : s.publishes[i]? = some p) (hstep : Publish.Step s.event p label e q) :
    Invariant ⟨e, s.publishes.set i q⟩ := by
  have hp : p ∈ s.publishes := List.mem_of_getElem? hcall
  have hlists : ∀ l, Publish.Lists s.event p l → Owned s.event.rounds l := by
    intro l hl
    exact h.owned l (hl.imp id fun ⟨kind, hholds⟩ => ⟨p, hp, kind, hholds⟩)
  have hafter := h.after_rounds (publish_rounds hstep hlists)
  refine ⟨hafter.rounds, ?_, ?_⟩
  · intro l hl
    apply hafter.owned l
    have hback : Publish.Lists s.event p l → s.Lists l :=
      Or.imp id fun ⟨kind, hholds⟩ => ⟨p, hp, kind, hholds⟩
    have hmine : s.Lists l := by
      rcases hl with hl | ⟨p', hp', kind, hholds⟩
      · exact hback (hstep.lists (.inl hl))
      · rcases List.mem_or_eq_of_mem_set hp' with hp' | rfl
        · exact .inr ⟨p', hp', kind, hholds⟩
        · exact hback (hstep.lists (.inr ⟨kind, hholds⟩))
    exact hmine.imp (fun ⟨kind, hl⟩ => ⟨kind, by cases kind <;> exact hl⟩) id
  · intro p' hp'
    rcases List.mem_or_eq_of_mem_set hp' with hp' | rfl
    · exact hafter.blocked p' hp'
    · intro kind left l hphase interruptible hwait
      cases hstep with
      | wake phase hwake =>
        rename_i kind' left' l' commit rounds
        cases commit with
        | modeBlocked =>
          cases hphase
          obtain ⟨state, flag, hwait', hmode⟩ := wakeRound_modeBlocked hwake
          have howned := hlists l (.inr ⟨kind, by rw [phase]; rfl⟩)
          have hround := wakeRound_step (fun state hstate => by cases hstate; exact howned.1) hwake
          have hold := (hround.done h.rounds).older l.task _ howned.1 hwait
          obtain rfl : flag = interruptible :=
            congrArg Prod.snd (Option.some.inj (hwait'.symm.trans hold))
          exact hmode
        | woke park => cases kind' <;> cases hphase
        | _ => cases hphase
      | _ => cases hphase

theorem Step.invariant (h : Invariant s) (hstep : Step s label t) : Invariant t := by
  cases hstep with
  | rounds hround => exact h.after_rounds (.inr ⟨_, hround⟩)
  | register held =>
    rename_i listener exclusive
    refine h.after_event enqueue_rounds fun kind l hl => ?_
    rcases queue_enqueue s.event (if exclusive then .exclusive else .nonExclusive) kind
      listener with heq | ⟨_, heq⟩
    · exact h.owned l (.inl ⟨kind, heq ▸ hl⟩)
    · rcases List.mem_append.mp (heq ▸ hl) with hl | hl
      · exact h.owned l (.inl ⟨kind, hl⟩)
      · rw [List.mem_singleton.mp hl]
        exact Owned.of_guard h.rounds held
  | clean ended =>
    rename_i listener exclusive
    refine h.after_event setQueue_rounds fun kind l hl => h.owned l (.inl ⟨kind, ?_⟩)
    rcases queue_cleanListener s.event listener exclusive kind with heq | heq
    · exact heq ▸ hl
    · exact List.mem_of_mem_filter (heq ▸ hl)
  | publish n uninterruptible =>
    refine ⟨h.rounds, ?_, ?_⟩
    · intro l hl
      refine h.owned l (hl.imp id ?_)
      rintro ⟨p, hp, kind, hholds⟩
      rcases List.mem_append.mp hp with hp | hp
      · exact ⟨p, hp, kind, hholds⟩
      · rw [List.mem_singleton.mp hp] at hholds
        cases hholds
    · intro p hp
      rcases List.mem_append.mp hp with hp | hp
      · exact h.blocked p hp
      · rw [List.mem_singleton.mp hp]
        intro kind left l hphase
        cases hphase
  | step hcall hpublish => exact h.after_publish hcall hpublish

/-- A listener of the round is in the queue. -/
def Queued (kind : ListenerQueueKind) (s : EventSystem) (token : ℕ) : Prop :=
  Has (s.event.queue kind) token

def Holds (kind : ListenerQueueKind) (p : Publish) (token : ℕ) : Prop :=
  ∃ l, p.phase.holds = some (kind, l) ∧ l.token = token

/-- As long as the round is armed its listener is somewhere. -/
def Tracked (kind : ListenerQueueKind) (token : ℕ) (s : EventSystem) : Prop :=
  s.event.rounds.statuses token = .armed →
    Queued kind s token ∨ ∃ p ∈ s.publishes, Holds kind p token

theorem Step.rounds_eq_or_step (h : Invariant s) (hstep : Step s label t) :
    t.event.rounds = s.event.rounds ∨
      ∃ label, Rounds.Step s.event.rounds label t.event.rounds := by
  cases hstep with
  | rounds hround => exact .inr ⟨_, hround⟩
  | register => exact .inl enqueue_rounds
  | clean => exact .inl setQueue_rounds
  | publish => exact .inl rfl
  | step hcall hpublish =>
    apply publish_rounds hpublish
    rintro l (hl | ⟨kind, hholds⟩)
    · exact h.owned l (.inl hl)
    · exact h.owned l (.inr ⟨_, List.mem_of_getElem? hcall, kind, hholds⟩)

theorem Step.next_le (h : Invariant s) (hstep : Step s label t) :
    s.event.rounds.nextState ≤ t.event.rounds.nextState := by
  rcases hstep.rounds_eq_or_step h with heq | ⟨label', hround⟩
  · exact Nat.le_of_eq (by rw [heq])
  · exact (hround.done h.rounds).effect.next_le.1

theorem Step.armed_before (h : Invariant s) (hstep : Step s label t)
    (hbegun : token < s.event.rounds.nextState) (harmed : t.event.rounds.statuses token = .armed) :
    s.event.rounds.statuses token = .armed := by
  rcases hstep.rounds_eq_or_step h with heq | ⟨label', hround⟩
  · rwa [heq] at harmed
  · exact (hround.done h.rounds).effect.armed_before hbegun harmed

/-- **a call that has a listener of an armed round keeps it or puts it back.** -/
theorem publish_keeps (h : Invariant s) {label : Publish.Label} (hcall : s.publishes[i]? = some p)
    (hstep : Publish.Step s.event p label e q) (kind : ListenerQueueKind)
    (harmed : e.rounds.statuses token = .armed) (hbefore : s.event.rounds.statuses token = .armed)
    (hhas : Queued kind s token ∨ Holds kind p token) :
    Has (e.queue kind) token ∨ Holds kind q token := by
  have hp : p ∈ s.publishes := List.mem_of_getElem? hcall
  have hqueue (hholds : ¬ Holds kind p token) : Has (s.event.queue kind) token :=
    hhas.resolve_right hholds
  have hnone (hphase : p.phase.holds = none) : ¬ Holds kind p token := by
    rintro ⟨l, hholds, _⟩
    cases hphase.symm.trans hholds
  cases hstep with
  | look phase | leaveNonExclusive phase | lookExclusive phase | leaveExclusive phase =>
    exact .inl (hqueue (hnone (by rw [phase]; rfl)))
  | pop phase quota front =>
    rename_i kind' left listener rest
    obtain ⟨l, hl, htoken⟩ := hqueue (hnone (by rw [phase]; rfl))
    by_cases hkind : kind = kind'
    · subst hkind
      rw [front, List.mem_cons] at hl
      rcases hl with rfl | hl
      · exact .inr ⟨l, rfl, htoken⟩
      · refine .inl ⟨l, ?_, htoken⟩
        rw [queue_setQueue, if_pos rfl]
        exact hl
    · refine .inl ⟨l, ?_, htoken⟩
      rw [queue_setQueue, if_neg hkind]
      exact hl
  | dropped phase ended =>
    refine .inl (hqueue ?_)
    rintro ⟨l, hholds, rfl⟩
    rw [phase] at hholds
    cases hholds
    exact ended harmed
  | wake phase hwake =>
    rename_i kind' left listener commit rounds
    have hqueue' : Has (s.event.queue kind) token →
        Has (({ s.event with rounds := rounds } : Event).queue kind) token := by
      cases kind <;> exact id
    by_cases htoken : listener.token = token
    · subst htoken
      have howned := h.owned listener (.inr ⟨p, hp, kind', by rw [phase]; rfl⟩)
      obtain ⟨interruptible, hwait⟩ := howned.waits h.rounds hbefore
      have hwoke := wakeRound_armed hwait hbefore hwake
      split at hwoke
      · -- the round is not armed any more
        rw [hwoke.2, Function.update_self] at harmed
        cases harmed
      · obtain ⟨rfl, _⟩ := hwoke
        rcases hhas with hhas | ⟨l, hholds, htoken⟩
        · exact .inl (hqueue' hhas)
        · rw [phase] at hholds
          cases hholds
          exact .inr ⟨listener, rfl, rfl⟩
    · refine .inl (hqueue' (hqueue ?_))
      rintro ⟨l, hholds, hl⟩
      rw [phase] at hholds
      cases hholds
      exact htoken hl
  | permit phase =>
    refine hhas.imp id ?_
    rintro ⟨l, hholds, htoken⟩
    rw [phase] at hholds
    exact ⟨l, hholds, htoken⟩
  | denied phase hdenied =>
    rename_i kind' left listener
    refine .inl (hqueue ?_)
    rintro ⟨l, hholds, rfl⟩
    rw [phase] at hholds
    cases hholds
    have howned := h.owned listener (.inr ⟨p, hp, kind, by rw [phase]; rfl⟩)
    obtain ⟨interruptible, hwait⟩ := howned.waits h.rounds hbefore
    have hmode := h.blocked p hp _ left listener phase interruptible hwait
    obtain ⟨park, hsched⟩ := waits_eq.mp hwait
    rcases hdenied with hdenied | hended
    · simp [requeuePermitIfModeBlocked, hsched, hbefore, hmode] at hdenied
    · exact hended hbefore
  | requeue phase =>
    rename_i kind' left listener
    refine .inl ?_
    rcases hhas with hhas | ⟨l, hholds, rfl⟩
    · exact (ahead_enqueue _ _ kind _).has hhas
    · rw [phase] at hholds
      cases hholds
      exact has_enqueue_self _ kind _

theorem Tracked.step (h : Invariant s) (hstep : Step s label t) {kind : ListenerQueueKind}
    (hbegun : token < s.event.rounds.nextState) (htracked : Tracked kind token s) :
    Tracked kind token t := by
  intro harmed
  have hbefore := hstep.armed_before h hbegun harmed
  cases hstep with
  | rounds => cases kind <;> exact htracked hbefore
  | register => exact (htracked hbefore).imp (ahead_enqueue _ _ kind _).has id
  | clean ended =>
    exact (htracked hbefore).imp (ahead_clean _ _ kind fun heq => ended (heq ▸ hbefore)).has id
  | publish n uninterruptible =>
    exact (htracked hbefore).imp id fun ⟨p, hp, hholds⟩ => ⟨p, List.mem_append_left _ hp, hholds⟩
  | step hcall hpublish =>
    rename_i i label p q e
    have hmine (hhas : Queued kind s token ∨ Holds kind p token) :
        Has (e.queue kind) token ∨ ∃ p' ∈ s.publishes.set i q, Holds kind p' token := by
      refine (publish_keeps h hcall hpublish kind harmed hbefore hhas).imp id
        fun hholds => ⟨q, ?_, hholds⟩
      exact List.mem_set (List.getElem?_eq_some_iff.mp hcall).1 q
    rcases htracked hbefore with hqueued | ⟨p', hp', hholds⟩
    · exact hmine (.inl hqueued)
    · obtain ⟨j, hj⟩ := List.mem_iff_getElem?.mp hp'
      by_cases hij : i = j
      · subst hij
        obtain rfl : p = p' := Option.some.inj (hcall.symm.trans hj)
        exact hmine (.inr hholds)
      · refine .inr ⟨p', List.mem_iff_getElem?.mpr ⟨j, ?_⟩, hholds⟩
        rw [List.getElem?_set_ne hij]
        exact hj

/-- The call is to detach the listener of the round, or has detached it. -/
def Awaits (listeners : List Listener) (token : ℕ) : Publish.Phase → Prop
  | .start => Has listeners token
  | .scan .nonExclusive left => Has (listeners.take left) token
  | .detached .nonExclusive left l => l.token = token ∨ Has (listeners.take left) token
  | _ => False

/-- The round is over, or `publish(n, true)` is to end it. -/
def Covered (i token : ℕ) (s : EventSystem) : Prop :=
  s.event.rounds.statuses token = .armed → ∃ p, s.publishes[i]? = some p ∧ p.mode = .anyWait ∧
      Awaits (s.event.queue .nonExclusive) token p.phase

theorem Awaits.mono {listeners listeners' : List Listener} {phase : Publish.Phase}
    (hahead : Ahead token listeners listeners') (h : Awaits listeners token phase) :
    Awaits listeners' token phase := by
  cases phase with
  | start => exact hahead.has h
  | scan kind left =>
    cases kind with
    | nonExclusive => exact hahead left h
    | exclusive => exact h
  | detached kind left l =>
    cases kind with
    | nonExclusive => exact h.imp id (hahead left)
    | exclusive => exact h
  | _ => exact h

/-- **a call of `publish(n, true)` detaches what it awaits, and ends its round.** -/
theorem Awaits.own (h : Invariant s) {label : Publish.Label} (hcall : s.publishes[i]? = some p)
    (hstep : Publish.Step s.event p label e q) (harmed : e.rounds.statuses token = .armed)
    (hbefore : s.event.rounds.statuses token = .armed) (hmode : p.mode = .anyWait)
    (hawaits : Awaits (s.event.queue .nonExclusive) token p.phase) :
    q.mode = .anyWait ∧ Awaits (e.queue .nonExclusive) token q.phase := by
  cases hstep with
  | look phase =>
    rw [phase] at hawaits
    refine ⟨hmode, ?_⟩
    show Has (s.event.nonExclusive.take _) token
    rw [List.take_length]
    exact hawaits
  | pop phase quota front =>
    rename_i kind left listener rest
    rw [phase] at hawaits
    refine ⟨hmode, ?_⟩
    cases kind with
    | exclusive => exact hawaits.elim
    | nonExclusive =>
      obtain ⟨l, hl, htoken⟩ := hawaits
      rw [front, List.take_succ_cons, List.mem_cons] at hl
      rcases hl with rfl | hl
      · exact .inl htoken
      · exact .inr ⟨l, hl, htoken⟩
  | dropped phase ended =>
    rename_i kind left listener
    rw [phase] at hawaits
    refine ⟨hmode, ?_⟩
    cases kind with
    | exclusive => exact hawaits.elim
    | nonExclusive => exact hawaits.resolve_left fun htoken => ended (htoken ▸ hbefore)
  | wake phase hwake =>
    rename_i kind left listener commit rounds
    rw [phase] at hawaits
    cases kind with
    | exclusive => exact hawaits.elim
    | nonExclusive =>
      have howned := h.owned listener
        (.inr ⟨p, List.mem_of_getElem? hcall, .nonExclusive, by rw [phase]; rfl⟩)
      have hne : listener.token ≠ token := by
        rintro rfl
        obtain ⟨interruptible, hwait⟩ := howned.waits h.rounds hbefore
        have hwoke := wakeRound_armed hwait hbefore hwake
        rw [hmode, if_pos (show WakeMode.anyWait.allows interruptible = true from rfl)] at hwoke
        rw [hwoke.2, Function.update_self] at harmed
        cases harmed
      have hrest := hawaits.resolve_left hne
      cases commit with
      | modeBlocked =>
        obtain ⟨_, interruptible, _, hblocked⟩ := wakeRound_modeBlocked hwake
        rw [hmode] at hblocked
        cases hblocked
      | _ => exact ⟨hmode, hrest⟩
  | permit phase | denied phase | requeue phase | lookExclusive phase =>
    rw [phase] at hawaits
    exact hawaits.elim
  | leaveNonExclusive phase done =>
    rw [phase] at hawaits
    obtain ⟨l, hl, _⟩ := hawaits
    rcases done with rfl | hempty
    · cases hl
    · rw [show s.event.queue .nonExclusive = [] from hempty, List.take_nil] at hl
      cases hl
  | leaveExclusive phase =>
    rw [phase] at hawaits
    exact hawaits.elim

/-- **the step of another call leaves what a call awaits**, if it is not in the way. -/
theorem Awaits.other {j : ℕ} (hij : j ≠ i) {label : Publish.Label} {p p' q : Publish}
    (hcall : s.publishes[i]? = some p) (hstep : Publish.Step s.event p' label e q)
    (hfree : Unhindered s (.step j label)) (hbefore : s.event.rounds.statuses token = .armed)
    (hmode : p.mode = .anyWait) (hawaits : Awaits (s.event.queue .nonExclusive) token p.phase) :
    Awaits (e.queue .nonExclusive) token p.phase := by
  cases hstep with
  | pop phase quota front =>
    rename_i kind left listener rest
    cases kind with
    | exclusive => exact hawaits
    | nonExclusive =>
      rw [front] at hawaits
      by_cases htoken : listener.token = token
      · -- the call may not await it, unless it has detached a listener of the same round
        have harmed : s.Armed listener := by
          rw [Armed, htoken]
          exact hbefore
        have hexpects := hfree harmed i p hij.symm hcall hmode
        cases hphase : p.phase with
        | start =>
          rw [hphase] at hexpects
          cases hexpects
        | scan kind left' =>
          rw [hphase] at hexpects hawaits
          cases kind with
          | exclusive => exact hawaits
          | nonExclusive =>
            obtain rfl : left' = 0 := by simpa [Publish.Phase.expects] using hexpects
            obtain ⟨l, hl, _⟩ := hawaits
            cases hl
        | detached kind left' l =>
          rw [hphase] at hexpects hawaits
          cases kind with
          | exclusive => exact hawaits
          | nonExclusive =>
            obtain rfl : left' = 0 := by simpa [Publish.Phase.expects] using hexpects
            refine hawaits.imp id ?_
            rintro ⟨l, hl, _⟩
            cases hl
        | _ =>
          rw [hphase] at hawaits
          exact hawaits
      · exact hawaits.mono (ahead_tail htoken)
  | requeue phase => exact hawaits.mono (ahead_enqueue _ _ .nonExclusive _)
  | _ => exact hawaits

/-- **an unhindered step leaves the listener to the call.** -/
theorem Covered.step (h : Invariant s) (hstep : Step s label t) (hfree : Unhindered s label)
    (hbegun : token < s.event.rounds.nextState) (hcovered : Covered i token s) :
    Covered i token t := by
  intro harmed
  have hbefore := hstep.armed_before h hbegun harmed
  obtain ⟨p, hp, hmode, hawaits⟩ := hcovered hbefore
  cases hstep with
  | rounds => exact ⟨p, hp, hmode, hawaits⟩
  | register held =>
    exact ⟨p, hp, hmode, hawaits.mono (ahead_enqueue _ _ .nonExclusive _)⟩
  | clean ended =>
    exact ⟨p, hp, hmode,
      hawaits.mono (ahead_clean _ _ .nonExclusive fun heq => ended (heq ▸ hbefore))⟩
  | publish n uninterruptible =>
    refine ⟨p, ?_, hmode, hawaits⟩
    rw [List.getElem?_append_left (List.getElem?_eq_some_iff.mp hp).1]
    exact hp
  | step hcall hpublish =>
    rename_i j label p' q e
    by_cases hij : j = i
    · subst hij
      obtain rfl : p = p' := Option.some.inj (hp.symm.trans hcall)
      obtain ⟨hmode', hawaits'⟩ := Awaits.own h hcall hpublish harmed hbefore hmode hawaits
      refine ⟨q, ?_, hmode', hawaits'⟩
      exact List.getElem?_set_self (List.getElem?_eq_some_iff.mp hcall).1
    · refine ⟨p, ?_, hmode, Awaits.other hij hp hpublish hfree hbefore hmode hawaits⟩
      rw [List.getElem?_set_ne hij]
      exact hp

/-- a listener that has registered is tracked from then on. -/
theorem tracked_of_registered (h : Invariant s) (hpath : Run.Path Step s path) {listener : Listener}
    (hmem : ∃ x ∈ path, x.1 = .register listener false) :
    listener.token < (last s path).event.rounds.nextState ∧
      Tracked .nonExclusive listener.token (last s path) := by
  obtain ⟨⟨label, t⟩, hx, rfl⟩ := hmem
  obtain ⟨before, after, rfl⟩ := List.append_of_mem hx
  obtain ⟨hbefore, hstep, hafter⟩ := hpath.split
  have hinv : Invariant (last s before) :=
    hbefore.invariant (fun _ _ _ hs hstep => hstep.invariant hs) h
  have hnow : listener.token < t.event.rounds.nextState ∧ Tracked .nonExclusive listener.token t := by
    cases hstep with
    | register held =>
      refine ⟨?_, fun _ => .inl (has_enqueue_self _ .nonExclusive listener)⟩
      show listener.token < (enqueue _ _ listener).rounds.nextState
      rw [enqueue_rounds]
      exact (Owned.of_guard hinv.rounds held).1
  have hend := hafter.invariant
    (P := fun s => Invariant s ∧ listener.token < s.event.rounds.nextState ∧
      Tracked .nonExclusive listener.token s)
    (fun s _ t hs hstep => ⟨hstep.invariant hs.1, Nat.lt_of_lt_of_le hs.2.1 (hstep.next_le hs.1),
      Tracked.step hs.1 hstep hs.2.1 hs.2.2⟩) ⟨hstep.invariant hinv, hnow⟩
  rw [Run.last_append]
  exact hend.2

/-- **no listener is lost in an unhindered run.** -/
theorem noneLost_of_unhindered (h : Invariant s) (hpath : Run.Path Step s path)
    (hfree : Run.AllSteps Unhindered s path) : NoneLost s path := by
  rintro before after n t listener rfl hregistered harmed ⟨p, hp, hreturned⟩ harmed'
  obtain ⟨hbefore, hstep, hafter⟩ := hpath.split
  obtain ⟨hstart, hfree⟩ := hfree.split
  have hinv : Invariant (last s before) :=
    hbefore.invariant (fun _ _ _ hs hstep => hstep.invariant hs) h
  obtain ⟨hbegun, htracked⟩ := tracked_of_registered h hbefore hregistered
  have hqueued : Queued .nonExclusive (last s before) listener.token := by
    refine (htracked harmed).resolve_right ?_
    rintro ⟨p, hp, l, hholds, htoken⟩
    refine hstart p hp l hholds ?_
    rw [Armed, htoken]
    exact harmed
  have hcovered : Covered (last s before).publishes.length listener.token t := by
    cases hstep with
    | publish =>
      intro _
      exact ⟨Publish.new n true, List.getElem?_concat_length, rfl, hqueued⟩
  have hend := hafter.invariant_of_allSteps (P := Unhindered)
    (Q := fun s' => Invariant s' ∧ listener.token < s'.event.rounds.nextState ∧
      Covered (last s before).publishes.length listener.token s')
    (fun s _ t hs hallowed hstep => ⟨hstep.invariant hs.1,
      Nat.lt_of_lt_of_le hs.2.1 (hstep.next_le hs.1), hs.2.2.step hs.1 hstep hallowed hs.2.1⟩)
    hfree ⟨hstep.invariant hinv, Nat.lt_of_lt_of_le hbegun (hstep.next_le hinv), hcovered⟩
  obtain ⟨p', hp', _, hawaits⟩ := hend.2.2 harmed'
  obtain rfl : p = p' := Option.some.inj (hp.symm.trans hp')
  rw [hreturned] at hawaits
  exact hawaits

end Anemone.Sched.EventSystem
