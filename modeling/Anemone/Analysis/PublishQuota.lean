import Anemone.Analysis.ListenerTracking

/-!
# The quota of a call

A call counts the exclusive rounds it has completed and stops at `n`.  It stops before `n` only
when it has detached, and completed, all exclusive listeners that it counted.
-/

namespace Anemone.Sched.EventSystem

open Run (last)
open Event

variable {s t : EventSystem} {label : Label} {i n : ℕ}

/-- The call has completed these rounds, and no more exclusive ones than it may. -/
def Counted (i n : ℕ) (done : List (ListenerQueueKind × Listener)) (s : EventSystem) : Prop :=
  ∃ p, s.publishes[i]? = some p ∧ p.nExclusive = n ∧
    (done.filter fun x => x.1 = .exclusive).length = p.exclusiveSuccess ∧
    p.exclusiveSuccess ≤ n ∧
    ∀ left l, p.phase = .detached .exclusive left l → p.exclusiveSuccess < n

variable {p q : Publish} {e e' : Event}

theorem publish_counts {label : Publish.Label} (hstep : Publish.Step e p label e' q)
    (hle : p.exclusiveSuccess ≤ p.nExclusive)
    (hlt : ∀ left l, p.phase = .detached .exclusive left l → p.exclusiveSuccess < p.nExclusive) :
    q.nExclusive = p.nExclusive ∧
      p.exclusiveSuccess + (((Label.step i label).completed i).toList.filter
        fun x => x.1 = .exclusive).length = q.exclusiveSuccess ∧
      q.exclusiveSuccess ≤ p.nExclusive ∧
      ∀ left l, q.phase = .detached .exclusive left l → q.exclusiveSuccess < p.nExclusive := by
  cases hstep with
  | pop phase quota front =>
    refine ⟨rfl, rfl, hle, ?_⟩
    intro left l hphase
    cases hphase
    exact quota rfl
  | wake phase hwake =>
    rename_i kind left listener commit rounds
    cases commit with
    | woke park =>
      cases kind with
      | nonExclusive =>
        refine ⟨rfl, ?_, hle, nofun⟩
        simp [Label.completed, Publish.afterWake]
      | exclusive =>
        refine ⟨rfl, ?_, hlt left listener phase, nofun⟩
        simp [Label.completed, Publish.afterWake]
    | _ => exact ⟨rfl, rfl, hle, nofun⟩
  | _ => exact ⟨rfl, rfl, hle, nofun⟩

theorem completed_of_publisher_ne (h : label.publisher ≠ some i) : label.completed i = none := by
  cases label with
  | step j label =>
    have hij : j ≠ i := fun hij => h (congrArg some hij)
    cases label with
    | wake kind listener commit =>
      cases commit with
      | woke park => exact if_neg hij
      | _ => rfl
    | _ => rfl
  | _ => rfl

theorem Step.publish_keeps (hstep : Step s label t) (hother : label.publisher ≠ some i)
    {p : Publish} (hcall : s.publishes[i]? = some p) : t.publishes[i]? = some p := by
  cases hstep with
  | rounds | register | clean => exact hcall
  | publish =>
    rw [List.getElem?_append_left (List.getElem?_eq_some_iff.mp hcall).1]
    exact hcall
  | step hcall' hpublish =>
    rename_i j label p' q e
    have hij : j ≠ i := fun hij => hother (congrArg some hij)
    rw [List.getElem?_set_ne hij]
    exact hcall

theorem Step.own_or_other (hstep : Step s label t) {p : Publish}
    (hcall : s.publishes[i]? = some p) :
    (∃ label' e q, label = .step i label' ∧ Publish.Step s.event p label' e q ∧
      t = ⟨e, s.publishes.set i q⟩ ∧ t.publishes[i]? = some q) ∨
    (label.publisher ≠ some i ∧ t.publishes[i]? = some p) := by
  by_cases hother : label.publisher = some i
  · cases hstep with
    | step hcall' hpublish =>
      cases hother
      obtain rfl := Option.some.inj (hcall.symm.trans hcall')
      refine .inl ⟨_, _, _, rfl, hpublish, rfl, ?_⟩
      exact List.getElem?_set_self (List.getElem?_eq_some_iff.mp hcall).1
    | _ => cases hother
  · exact .inr ⟨hother, hstep.publish_keeps hother hcall⟩

variable {done : List (ListenerQueueKind × Listener)}

theorem Counted.step (h : Counted i n done s)
    (hstep : Step s label t) : Counted i n (done ++ (label.completed i).toList) t := by
  obtain ⟨p, hcall, rfl, hdone, hle, hlt⟩ := h
  rcases hstep.own_or_other hcall with ⟨label', e, q, rfl, hpublish, _, hq⟩ | ⟨hother, hp⟩
  · obtain ⟨hn, hcount, hle', hlt'⟩ := publish_counts (i := i) hpublish hle hlt
    refine ⟨q, hq, hn, ?_, hle', hlt'⟩
    rw [List.filter_append, List.length_append, hdone]
    exact hcount
  · rw [completed_of_publisher_ne hother]
    refine ⟨p, hp, rfl, ?_, hle, hlt⟩
    rw [Option.toList_none, List.append_nil]
    exact hdone

/-- No two listeners of a queue are of one round. -/
def Distinct (s : EventSystem) : Prop :=
  ∀ kind, ((s.event.queue kind).map Listener.token).Nodup

theorem nodup_enqueue (h : ∀ kind, ((e.queue kind).map Listener.token).Nodup)
    (kind : ListenerQueueKind) (listener : Listener) (kind' : ListenerQueueKind) :
    (((e.enqueue kind listener).queue kind').map Listener.token).Nodup := by
  unfold enqueue
  split
  · exact h kind'
  · rename_i hnot
    rw [queue_setQueue]
    split
    · rw [List.map_append, List.map_singleton, List.nodup_append']
      refine ⟨h kind, List.nodup_singleton _, ?_⟩
      intro token htoken hmem
      obtain ⟨l, hl, rfl⟩ := List.mem_map.mp htoken
      refine hnot (List.any_eq_true.mpr ⟨l, hl, decide_eq_true ?_⟩)
      exact List.mem_singleton.mp hmem
    · exact h kind'

theorem Distinct.step (h : Distinct s) (hstep : Step s label t) : Distinct t := by
  intro kind
  cases hstep with
  | rounds => exact h kind
  | register held => exact nodup_enqueue h _ _ kind
  | clean ended =>
    rename_i listener exclusive
    rcases queue_cleanListener s.event listener exclusive kind with heq | heq
    · rw [heq]
      exact h kind
    · rw [heq]
      exact (h kind).sublist (List.filter_sublist.map _)
  | publish => exact h kind
  | step hcall hpublish =>
    cases hpublish with
    | pop phase quota front =>
      rename_i kind' left listener rest
      rw [queue_setQueue]
      split
      · have hnodup := h kind'
        rw [front, List.map_cons, List.nodup_cons] at hnodup
        exact hnodup.2
      · exact h kind
    | requeue phase => exact nodup_enqueue h _ _ kind
    | _ => exact h kind

/-- The call is still to detach the exclusive listener. -/
def Kept (listeners : List Listener) (l : Listener) : Publish.Phase → Prop
  | .scan .exclusive left | .blocked .exclusive left _ | .permitted .exclusive left _ =>
    l ∈ listeners.take left
  | .detached .exclusive left l' => l' = l ∨ l ∈ listeners.take left
  | .returned => False
  | _ => l ∈ listeners

variable {l : Listener} {listeners : List Listener}

theorem Kept.mono {listeners' : List Listener} {phase : Publish.Phase}
    (hall : l ∈ listeners → l ∈ listeners')
    (htake : ∀ left, l ∈ listeners.take left → l ∈ listeners'.take left)
    (h : Kept listeners l phase) : Kept listeners' l phase := by
  cases phase with
  | scan kind left | blocked kind left l' | permitted kind left l' =>
    cases kind with
    | nonExclusive => exact hall h
    | exclusive => exact htake left h
  | detached kind left l' =>
    cases kind with
    | nonExclusive => exact hall h
    | exclusive => exact h.imp id (htake left)
  | returned => exact h
  | start | between => exact hall h

/-- **who stays in the queue stays among the first of it.** -/
theorem Step.mem_take (hdistinct : Distinct s) (hstep : Step s label t)
    (hstays : l ∈ s.event.exclusive → l ∈ t.event.exclusive) (left : ℕ)
    (hl : l ∈ s.event.exclusive.take left) : l ∈ t.event.exclusive.take left := by
  have hmem : l ∈ t.event.exclusive := hstays (List.mem_of_mem_take hl)
  have happend (kind : ListenerQueueKind) (listener : Listener) :
      l ∈ ((s.event.enqueue kind listener).queue .exclusive).take left := by
    rcases queue_enqueue s.event kind .exclusive listener with heq | ⟨_, heq⟩
    · rw [heq]
      exact hl
    · rw [heq, List.take_append]
      exact List.mem_append_left _ hl
  cases hstep with
  | rounds | publish => exact hl
  | register held => exact happend _ _
  | clean ended =>
    rename_i listener exclusive
    have hmem : l ∈ (s.event.cleanListener listener exclusive).queue .exclusive := hmem
    show l ∈ ((s.event.cleanListener listener exclusive).queue .exclusive).take left
    rcases queue_cleanListener s.event listener exclusive .exclusive with heq | heq
    · rw [heq]
      exact hl
    · rw [heq] at hmem ⊢
      exact mem_take_filter hl (List.mem_filter.mp hmem).2
  | step hcall hpublish =>
    cases hpublish with
    | pop phase quota front =>
      rename_i kind left' listener rest
      cases kind with
      | nonExclusive => exact hl
      | exclusive =>
        have hnodup := hdistinct .exclusive
        rw [front, List.map_cons, List.nodup_cons] at hnodup
        rw [show s.event.exclusive = listener :: rest from front] at hl
        refine mem_take_tail hl ?_
        rintro rfl
        exact hnodup.1 (List.mem_map_of_mem hmem)
    | requeue phase => exact happend _ _
    | _ => exact hl

theorem Interruptible.wake {l l' : Listener} {mode : WakeMode} {commit : WakeCommit}
    {rounds : Rounds} (h : Interruptible s l) (hne : l'.token ≠ l.token)
    (hwake : s.event.rounds.wakeRound l'.task (some l'.token) .event mode =
      .ok (commit, rounds)) : ∃ park, rounds.sched l.task = .waiting l.token true park := by
  obtain ⟨park, hsched⟩ := h
  refine ⟨park, ?_⟩
  obtain ⟨⟨commit', sched, statuses⟩, hcommit, hok⟩ := Checked.bind_eq_ok.mp hwake
  cases hok
  show Function.update s.event.rounds.sched l'.task sched l.task = _
  by_cases htask : l.task = l'.task
  · rw [htask, Function.update_self]
    rw [← htask, hsched, commitWake] at hcommit
    rw [if_neg (by simp [hne])] at hcommit
    cases hcommit
    rfl
  · rw [Function.update_of_ne htask]
    exact hsched

/-- **the call detaches an exclusive listener that stays, and completes its round**,
unless it has no quota left. -/
theorem Kept.own (h : Invariant s) {label : Publish.Label} (hcall : s.publishes[i]? = some p)
    (hstep : Publish.Step s.event p label e q) (hlistens : Interruptible s l)
    (hkept : Kept s.event.exclusive l p.phase) :
    p.nExclusive ≤ p.exclusiveSuccess ∨
      (∃ x, (Label.step i label).completed i = some x ∧ x.2.token = l.token) ∨
      (∃ park, e.rounds.sched l.task = .waiting l.token true park) ∧
        Kept e.exclusive l q.phase := by
  have hp : p ∈ s.publishes := List.mem_of_getElem? hcall
  obtain ⟨park, hsched⟩ := hlistens
  have harmed : s.event.rounds.statuses l.token = .armed := h.rounds.armed' l.task _ _ _ hsched
  cases hstep with
  | look phase =>
    rw [phase] at hkept
    exact .inr (.inr ⟨⟨park, hsched⟩, hkept⟩)
  | pop phase quota front =>
    rename_i kind left listener rest
    rw [phase] at hkept
    refine .inr (.inr ⟨⟨park, by rw [setQueue_rounds]; exact hsched⟩, ?_⟩)
    cases kind with
    | nonExclusive => exact hkept
    | exclusive =>
      have hkept : l ∈ s.event.exclusive.take (left + 1) := hkept
      rw [show s.event.exclusive = listener :: rest from front, List.take_succ_cons,
        List.mem_cons] at hkept
      exact hkept.imp Eq.symm id
  | dropped phase ended =>
    rename_i kind left listener
    rw [phase] at hkept
    refine .inr (.inr ⟨⟨park, hsched⟩, ?_⟩)
    cases kind with
    | nonExclusive => exact hkept
    | exclusive => exact hkept.resolve_left fun heq => ended (heq ▸ harmed)
  | wake phase hwake =>
    rename_i kind left listener commit rounds
    rw [phase] at hkept
    refine .inr ?_
    by_cases htoken : listener.token = l.token
    · have howned := h.owned listener (.inr ⟨p, hp, kind, by rw [phase]; rfl⟩)
      have htask : l.task = listener.task := howned.2 l.task (by rw [hsched, htoken]; rfl)
      have hwait : Rounds.waits (s.event.rounds.sched listener.task) =
          some (listener.token, true) := by
        rw [← htask, hsched, htoken]
        rfl
      have hwoke := Rounds.wakeRound_armed hwait (htoken ▸ harmed) hwake
      rw [if_pos (by cases p.mode <;> rfl)] at hwoke
      obtain ⟨park', rfl⟩ := hwoke.1
      exact .inl ⟨(kind, listener), if_pos rfl, htoken⟩
    · refine .inr ⟨Interruptible.wake ⟨park, hsched⟩ htoken hwake, ?_⟩
      have hne : listener ≠ l := fun heq => htoken (heq ▸ rfl)
      cases kind with
      | nonExclusive => cases commit <;> exact hkept
      | exclusive => cases commit <;> exact hkept.resolve_left hne
  | permit phase hpermit | denied phase hpermit =>
    rename_i kind left listener
    rw [phase] at hkept
    refine .inr (.inr ⟨⟨park, hsched⟩, ?_⟩)
    cases kind <;> exact hkept
  | requeue phase =>
    rename_i kind left listener
    rw [phase] at hkept
    refine .inr (.inr ⟨⟨park, by rw [enqueue_rounds]; exact hsched⟩, ?_⟩)
    rcases queue_enqueue s.event kind .exclusive listener with heq | ⟨_, heq⟩
    · rw [show (s.event.enqueue kind listener).exclusive = s.event.exclusive from heq]
      cases kind <;> exact hkept
    · rw [show (s.event.enqueue kind listener).exclusive = s.event.exclusive ++ [listener] from heq]
      cases kind with
      | nonExclusive => exact List.mem_append_left _ hkept
      | exclusive =>
        show l ∈ (s.event.exclusive ++ [listener]).take left
        rw [List.take_append]
        exact List.mem_append_left _ hkept
  | leaveNonExclusive phase =>
    rw [phase] at hkept
    exact .inr (.inr ⟨⟨park, hsched⟩, hkept⟩)
  | lookExclusive phase =>
    rw [phase] at hkept
    refine .inr (.inr ⟨⟨park, hsched⟩, ?_⟩)
    show l ∈ s.event.exclusive.take s.event.exclusive.length
    rw [List.take_length]
    exact hkept
  | leaveExclusive phase done =>
    rw [phase] at hkept
    have hkept : l ∈ s.event.exclusive.take _ := hkept
    rcases done with rfl | hempty | hquota
    · cases hkept
    · rw [hempty, List.take_nil] at hkept
      cases hkept
    · exact .inl hquota

/-- The call has used its quota, or has completed or will detach all of these listeners. -/
def Served (i : ℕ) (listeners : List Listener) (done : List (ListenerQueueKind × Listener))
    (s : EventSystem) : Prop :=
  ∃ p, s.publishes[i]? = some p ∧
    (p.nExclusive ≤ p.exclusiveSuccess ∨ ∀ l ∈ listeners, (∃ x ∈ done, x.2.token = l.token) ∨
      Interruptible s l ∧ Kept s.event.exclusive l p.phase)

theorem publish_success_le {label : Publish.Label} (hstep : Publish.Step e p label e' q) :
    q.nExclusive = p.nExclusive ∧ p.exclusiveSuccess ≤ q.exclusiveSuccess := by
  cases hstep with
  | wake phase hwake =>
    rename_i kind left listener commit rounds
    cases commit with
    | woke park =>
      cases kind with
      | nonExclusive => exact ⟨rfl, Nat.le_refl _⟩
      | exclusive => exact ⟨rfl, Nat.le_succ _⟩
    | _ => exact ⟨rfl, Nat.le_refl _⟩
  | _ => exact ⟨rfl, Nat.le_refl _⟩

theorem Served.step (h : Invariant s) (hdistinct : Distinct s) (hserved : Served i listeners done s)
    (hstep : Step s label t)
    (hstays : label.publisher ≠ some i → ∀ l ∈ listeners, (l ∈ s.event.exclusive →
      l ∈ t.event.exclusive) ∧ (Interruptible s l → Interruptible t l)) :
    Served i listeners (done ++ (label.completed i).toList) t := by
  obtain ⟨p, hcall, hcases⟩ := hserved
  rcases hstep.own_or_other hcall with ⟨label', e, q, rfl, hpublish, rfl, hq⟩ | ⟨hother, hp⟩
  · refine ⟨q, hq, ?_⟩
    obtain ⟨hn, hle⟩ := publish_success_le hpublish
    rw [hn]
    by_cases hquota : p.nExclusive ≤ p.exclusiveSuccess
    · exact .inl (Nat.le_trans hquota hle)
    refine .inr ?_
    intro l hl
    rcases hcases.resolve_left hquota l hl with ⟨x, hx, htoken⟩ | ⟨hlistens, hkept⟩
    · exact .inl ⟨x, List.mem_append_left _ hx, htoken⟩
    · rcases (Kept.own h hcall hpublish hlistens hkept).resolve_left hquota with
        ⟨x, hx, htoken⟩ | hnext
      · refine .inl ⟨x, List.mem_append_right _ ?_, htoken⟩
        rw [hx]
        exact List.mem_singleton_self x
      · exact .inr hnext
  · refine ⟨p, hp, hcases.imp id ?_⟩
    intro hall l hl
    obtain ⟨hqueue, hlistens'⟩ := hstays hother l hl
    rcases hall l hl with ⟨x, hx, htoken⟩ | ⟨hlistens, hkept⟩
    · exact .inl ⟨x, List.mem_append_left _ hx, htoken⟩
    · exact .inr ⟨hlistens' hlistens, hkept.mono hqueue (hstep.mem_take hdistinct hqueue)⟩

theorem completed_cons (i : ℕ) (x : Label × EventSystem) (rest : History) :
    completed i (x :: rest) = (x.1.completed i).toList ++ completed i rest := by
  rw [completed, List.filterMap_cons]
  cases x.1.completed i <;> rfl

variable {path : History}

theorem counted_last (hpath : Run.Path Step s path) (h : Counted i n done s) :
    Counted i n (done ++ completed i path) (last s path) := by
  induction path generalizing s done with
  | nil =>
    rw [completed, List.filterMap_nil, List.append_nil]
    exact h
  | cons x rest ih =>
    rw [completed_cons, ← List.append_assoc]
    exact ih hpath.2 (h.step hpath.1)

theorem served_last (h : Invariant s) (hdistinct : Distinct s) (hpath : Run.Path Step s path)
    (hstays : Undisturbed i listeners s path) (hserved : Served i listeners done s) :
    Served i listeners (done ++ completed i path) (last s path) := by
  induction path generalizing s done with
  | nil =>
    rw [completed, List.filterMap_nil, List.append_nil]
    exact hserved
  | cons x rest ih =>
    rw [completed_cons, ← List.append_assoc]
    exact ih (hpath.1.invariant h) (hdistinct.step hpath.1) hpath.2 hstays.2
      (hserved.step h hdistinct hpath.1 hstays.1)

theorem quotaKept (h : Invariant s) (hdistinct : Distinct s)
    (hpath : Run.Path Step s path) : QuotaKept s path := by
  rintro before after n uninterruptible t rfl
  obtain ⟨hbefore, hstep, hafter⟩ := hpath.split
  have hinv : Invariant (last s before) :=
    hbefore.invariant (fun _ _ _ hs hstep => hstep.invariant hs) h
  have hdistinct' : Distinct (last s before) :=
    hbefore.invariant (fun _ _ _ hs hstep => hs.step hstep) hdistinct
  have hnew : t.publishes[(last s before).publishes.length]? =
      some (Publish.new n uninterruptible) := by
    cases hstep with
    | publish => exact List.getElem?_concat_length
  have hcounted : Counted (last s before).publishes.length n [] t :=
    ⟨_, hnew, rfl, rfl, Nat.zero_le _, nofun⟩
  obtain ⟨p, hp, hn, hcount, hle, _⟩ := counted_last hafter hcounted
  rw [List.nil_append] at hcount
  refine ⟨hcount ▸ hle, ?_⟩
  intro listeners hnodup hthere hstays ⟨p', hp', hreturned⟩
  obtain rfl := Option.some.inj (hp.symm.trans hp')
  have hserved : Served (last s before).publishes.length listeners [] t := by
    refine ⟨_, hnew, .inr ?_⟩
    intro l hl
    exact .inr ⟨(hthere l hl).2, (hthere l hl).1⟩
  obtain ⟨p', hp', hcases⟩ := served_last (hstep.invariant hinv) (hdistinct'.step hstep) hafter
    hstays hserved
  obtain rfl := Option.some.inj (hp.symm.trans hp')
  rcases hcases with hquota | hall
  · -- the quota is used up
    have hfilter := ((completed (last s before).publishes.length after).monotone_filter_right
      (p := fun x => x.1 = .exclusive)
      (q := fun x => x.1 = .exclusive ∨ x.2.token ∈ listeners.map Listener.token)
      fun x hx => by simp at hx ⊢; exact .inl hx).length_le
    omega
  · -- all of them are completed: the call has returned, and is to detach none of them
    have hsub : listeners.map Listener.token ⊆
        ((completed (last s before).publishes.length after).filter fun x =>
          x.1 = .exclusive ∨ x.2.token ∈ listeners.map Listener.token).map fun x => x.2.token := by
      intro token htoken
      obtain ⟨l, hl, rfl⟩ := List.mem_map.mp htoken
      rcases hall l hl with ⟨x, hx, hx'⟩ | ⟨_, hkept⟩
      · refine List.mem_map.mpr ⟨x, List.mem_filter.mpr ⟨hx, ?_⟩, hx'⟩
        exact decide_eq_true (.inr (hx' ▸ htoken))
      · rw [hreturned] at hkept
        exact hkept.elim
    have hlength := (List.subperm_of_subset hnodup hsub).length_le
    rw [List.length_map, List.length_map] at hlength
    exact Nat.le_trans (Nat.min_le_right _ _) hlength

end Anemone.Sched.EventSystem
