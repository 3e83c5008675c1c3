import Anemone.Analysis.CalendarScans

/-!
# Completing a request that a calendar step cancels

If every request enters its queue armed with a step number that the queue has not scanned beyond,
nobody completes a request as expired who has read a later one.  A queue that has already scanned
for the current step does not look for cancelled requests again, so the condition is needed.
-/

namespace Anemone.Timer.TimerSystem

open Function (update_self update_of_ne update)
open TimerQueue Checked Step List

open Run (last)
open TimerQueue (Good armedBefore)

variable {Callback : Type} {s t : TimerSystem Callback} {label : Label Callback}

variable {taken : List (TimerEvent Callback × RealtimeReadyCause)} {read : RealtimeRead}

theorem Batch.stale {q q' : TimerQueue Callback} (h : Batch q read taken q')
    (hold : read.changeSeq < q.observedRealtimeChangeSeq) :
    taken = [] ∧ q'.realtimeEvents = q.realtimeEvents := by
  obtain ⟨q₁, room, hreal, _, hobs, _, hdrain⟩ := h.ran
  rw [drainRealtime_stale (by rw [hobs]; exact hold)] at hdrain
  cases hdrain
  exact ⟨rfl, hreal⟩

variable {cpu : ℕ}

theorem Step.batch (hinv : Invariant s) (h : Step s (.scan cpu read taken) t) :
    Batch (s.queues cpu) read taken (t.queues cpu) := by
  cases h with
  | interrupt _ batch =>
    simp only [update_self]
    exact Batch.of_interrupt (hinv.good cpu) batch
  | recheckAll _ batch =>
    simp only [update_self]
    exact Batch.of_recheck (hinv.good cpu) batch

/-- **A scanner that knows less than the queue removes nothing.** -/
theorem Invariant.staleScanIdle (h : Invariant s) (hstep : Step s label t) :
    StaleScanIdle s label t := by
  rintro cpu read taken rfl hold
  exact (hstep.batch h).stale hold

/-- No queue holds a request that a step it has scanned for cancels. -/
def CurrentQueues (s : TimerSystem Callback) : Prop :=
  ∀ cpu, ∀ event ∈ (s.queues cpu).realtimeEvents,
    armedBefore (s.queues cpu).observedRealtimeChangeSeq event = false

theorem CurrentQueues.of_start (h : Start s) : CurrentQueues s := by
  intro cpu event hmem
  rw [h.queues] at hmem
  cases hmem

/-- **A scanner of a queue without outdated requests gives the right causes.** -/
theorem Batch.rightCauses {q q' : TimerQueue Callback} (h : Batch q read taken q')
    (hcurrent : ∀ event ∈ q.realtimeEvents, armedBefore q.observedRealtimeChangeSeq event = false) :
    ∀ ready ∈ taken, RightCause read ready := by
  refine (h.keeps (R := RightCause read)
    (P := fun x => ∀ event ∈ x.realtimeEvents,
      armedBefore x.observedRealtimeChangeSeq event = false) ?_ ?_).2.2
  · intro x answer x' hgood hx hscan
    refine ⟨fun event hmem => ?_, fun ready hready hexpired => ?_⟩
    · by_contra harmed
      obtain ⟨hbefore, hwas, _⟩ := hscan.outdated hgood hmem (Bool.eq_true_of_not_eq_false harmed)
      rw [hx event hbefore] at hwas
      cases hwas
    · cases hscan with
      | stale => cases hready
      | cancelled => cases hready; cases hexpired
      | @expired event _ hle hclear hfirst _ _ _ =>
        cases hready
        have hmem := mem_of_getElem? hfirst
        rcases Nat.lt_or_eq_of_le hle with hlt | heq
        · exact hclear hlt event hmem
        · rw [← heq]
          exact hx event hmem
      | idle => cases hready
  · intro x hreal _ hobs event hmem
    rw [hreal] at hmem
    rw [hobs]
    exact hcurrent event hmem

/-- **The recheck of a registration gives the right cause**, whatever the queue
holds. -/
theorem Invariant.recheck_rightCause (h : Invariant s)
    {taken : Option (TimerEvent Callback × RealtimeReadyCause)}
    (hstep : Step s (.recheck cpu read taken) t) :
    ∀ ready, taken = some ready → RightCause read ready := by
  cases hstep with
  | @recheck registration _ eventId _ _ q held take =>
    obtain ⟨taken', q', hrun, hcheck⟩ :=
      (h.good cpu).takeReadyRealtime eventId read.now read.changeSeq
    rw [hrun] at take
    cases take
    intro ready hready hexpired
    cases hcheck with
    | stale | absent | kept => cases hready
    | taken _ _ _ hcause =>
      cases hready
      rw [hcause] at hexpired
      by_contra harmed
      rw [if_pos (Bool.eq_true_of_not_eq_false harmed)] at hexpired
      cases hexpired

variable {q : TimerQueue Callback}

/-- **A queue that shrinks stays without outdated requests.** -/
theorem CurrentQueues.shrink (hcurrent : CurrentQueues s) {changeSeq : ℕ}
    (hq : Shrinks (s.queues cpu) q changeSeq) :
    ∀ c, ∀ event ∈ (update s.queues cpu q c).realtimeEvents,
      armedBefore (update s.queues cpu q c).observedRealtimeChangeSeq event =
        false := by
  intro c event hmem
  by_cases hc : c = cpu
  · subst hc
    simp only [update_self] at hmem ⊢
    by_contra harmed
    obtain ⟨hbefore, hwas, _⟩ := hq.outdated event hmem (Bool.eq_true_of_not_eq_false harmed)
    rw [hcurrent c event hbefore] at hwas
    cases hwas
  · simp only [update_of_ne hc] at hmem ⊢
    exact hcurrent c event hmem

/-- **If requests enter current, queues stay current and causes are right.** -/
theorem CurrentQueues.step (hinv : Invariant s) (hcurrent : CurrentQueues s)
    (hallowed : InsertsCurrent s label) (hstep : Step s label t) :
    CurrentQueues t ∧ label.RightCauses := by
  cases hstep with
  | clockStep | scanRead => exact ⟨hcurrent, trivial⟩
  | @interrupt cpu read before after monotonicNow events taken q held batch =>
    have hbatch := Batch.of_interrupt (hinv.good cpu) batch
    have hread := hinv.scans (cpu, read) (by rw [held]; simp)
    exact ⟨hcurrent.shrink (hbatch.shrinks (hinv.observed cpu) hread),
      hbatch.rightCauses (hcurrent cpu)⟩
  | @recheckAll cpu read before after taken q held batch =>
    have hbatch := Batch.of_recheck (hinv.good cpu) batch
    have hread := hinv.scans (cpu, read) (by rw [held]; simp)
    exact ⟨hcurrent.shrink (hbatch.shrinks (hinv.observed cpu) hread),
      hbatch.rightCauses (hcurrent cpu)⟩
  | armCancelling | armPlain => exact ⟨hcurrent, trivial⟩
  | @insert registration cpu deadline cancelOnChangeSeq eventId lane q armed alloc push =>
    refine ⟨fun c event hmem => ?_, trivial⟩
    obtain rfl := eq_of_tryAllocateEventId alloc
    obtain ⟨q', hrun, _, _, hperm, hsame⟩ := (hinv.good cpu).pushRealtime
      (.newRealtime deadline cancelOnChangeSeq s.nextEventId lane) rfl
      (fun other hother => Nat.ne_of_lt (hinv.ids cpu other hother))
    rw [hrun] at push
    cases push
    by_cases hc : c = cpu
    · subst hc
      simp only [update_self] at hmem ⊢
      rw [hsame]
      rcases mem_cons.mp (hperm.mem_iff.mp hmem) with rfl | hmem
      · exact hallowed
      · exact hcurrent c event hmem
    · simp only [update_of_ne hc] at hmem ⊢
      exact hcurrent c event hmem
  | reread => exact ⟨hcurrent, trivial⟩
  | @recheck registration cpu eventId read taken q held take =>
    have hstep' := recheck held take
    refine ⟨?_, hinv.recheck_rightCause hstep'⟩
    obtain ⟨taken', q', hrun, hcheck⟩ :=
      (hinv.good cpu).takeReadyRealtime eventId read.now read.changeSeq
    rw [hrun] at take
    cases take
    have hsame : q.observedRealtimeChangeSeq = (s.queues cpu).observedRealtimeChangeSeq := by
      cases hcheck with
      | taken _ _ _ _ _ hobserved => exact hobserved
      | _ => rfl
    exact hcurrent.shrink (Shrinks.of_tookOut (hinv.good cpu) (hcheck.tookOut (hinv.good cpu))
      hsame (hinv.observed cpu))
  | @schedule cpu deadline eventId lane q alloc push =>
    refine ⟨fun c event hmem => ?_, trivial⟩
    have hsame := push_realtime push
    by_cases hc : c = cpu
    · subst hc
      simp only [update_self, hsame.1, hsame.2] at hmem ⊢
      exact hcurrent c event hmem
    · simp only [update_of_ne hc] at hmem ⊢
      exact hcurrent c event hmem
  | @cancel cpu eventId out q remove =>
    obtain ⟨out', q', hrun, htook, hsame, _⟩ := (hinv.good cpu).remove eventId
    rw [hrun] at remove
    cases remove
    exact ⟨hcurrent.shrink (Shrinks.of_tookOut (hinv.good cpu) htook hsame (hinv.observed cpu)),
      trivial⟩

/-- **If requests enter current, every cause of a run is right.** -/
theorem causesRight_of_current (hinv : Invariant s) (hcurrent : CurrentQueues s)
    {path : History Callback} (hpath : Run.Path Step s path)
    (hall : Run.AllSteps InsertsCurrent s path) : CausesRight path := by
  induction path generalizing s with
  | nil => intro x hx; cases hx
  | cons x rest ih =>
    obtain ⟨hstep, hrest⟩ := hpath
    obtain ⟨hnext, hright⟩ := hcurrent.step hinv hall.1 hstep
    exact forall_mem_cons.mpr ⟨hright, ih (hinv.step hstep) hnext hrest hall.2⟩

variable {event : TimerEvent Callback}

/-- **A scanner of a queue that has scanned for its step number expires the earliest
due request**, which is a given outdated one or leaves it behind. -/
theorem pop_due (hq : Good q) (hobs : q.observedRealtimeChangeSeq = read.changeSeq)
    (hmem : event ∈ q.realtimeEvents) (hdue : event.deadline.sortKey ≤ read.now) :
    ∃ first q', q.popReadyRealtime read.now read.changeSeq =
        .ok (some (first, .expired), q') ∧ Good q' ∧
      q'.observedRealtimeChangeSeq = read.changeSeq ∧
      (first ≠ event → event ∈ q'.realtimeEvents) ∧
      q'.realtimeEvents.length < q.realtimeEvents.length := by
  cases hfirst : q.realtimeEvents[0]? with
  | none =>
    rw [getElem?_eq_none_iff] at hfirst
    have := length_pos_of_mem hmem
    omega
  | some first =>
    have hle := TimerEvent.sortKey_le_of_key_le (hq.realtimeEvents.root_least hfirst event hmem)
    have hd := deadline_of_realtime (hq.realtimeEvents.domain first (mem_of_getElem? hfirst))
    obtain ⟨events', hrun, _, hperm⟩ := hq.realtimeEvents.removeFrom hfirst
    obtain ⟨events'', hrun', htook⟩ := hq.takeRealtime hfirst
    rw [hrun] at hrun'
    cases hrun'
    refine ⟨first, { q with realtimeEvents := events' }, ?_, htook.good, hobs, ?_, ?_⟩
    · rw [popReadyRealtime, if_neg (by omega), if_neg (by omega), expireFirst, hfirst]
      simp only
      rw [hd]
      simp only [if_neg (not_lt.mpr (hle.trans hdue)), hrun, ok_bind, pure_eq]
    · intro hne
      rcases mem_cons.mp (hperm.mem_iff.mpr hmem) with rfl | hmem'
      · exact absurd rfl hne
      · exact hmem'
    · have hlen := hperm.length_eq
      rw [length_cons] at hlen
      show events'.length < _
      omega

/-- **Its batch meets an outdated request, or leaves fewer requests behind.** -/
theorem drain_due (read : RealtimeRead) (hq : Good q)
    (hobs : q.observedRealtimeChangeSeq = read.changeSeq) (hmem : event ∈ q.realtimeEvents)
    (hdue : event.deadline.sortKey ≤ read.now) (harmed : armedBefore read.changeSeq event = true)
    (room : ℕ) :
    ∃ taken q', q.drainRealtime read room = .ok (taken, q') ∧
      ((∃ ready ∈ taken, ¬ RightCause read ready) ∨
        (event ∈ q'.realtimeEvents ∧ q'.observedRealtimeChangeSeq = read.changeSeq ∧
          q'.realtimeEvents.length + room ≤ q.realtimeEvents.length)) := by
  induction room generalizing q with
  | zero => exact ⟨[], q, rfl, .inr ⟨hmem, hobs, le_refl _⟩⟩
  | succ room ih =>
    obtain ⟨first, q₁, hrun, hgood, hobs₁, hleft, hlen⟩ := pop_due hq hobs hmem hdue
    by_cases hne : first = event
    · -- the outdated request is expired, and the batch goes on somehow
      subst hne
      obtain ⟨taken, q₂, hruns, _⟩ := hgood.drainRealtime read
        (P := fun _ => True) (R := fun _ => True)
        (fun _ _ _ _ _ _ => ⟨trivial, fun _ _ => trivial⟩) room trivial
      refine ⟨(first, .expired) :: taken, q₂, ?_, .inl ⟨_, mem_cons_self, fun hright => ?_⟩⟩
      · simp only [drainRealtime, hrun, ok_bind, hruns, pure_eq]
      · rw [hright rfl] at harmed
        cases harmed
    · obtain ⟨taken, q₂, hruns, hcase⟩ := ih hgood hobs₁ (hleft hne)
      refine ⟨(first, .expired) :: taken, q₂, ?_, ?_⟩
      · simp only [drainRealtime, hrun, ok_bind, hruns, pure_eq]
      · rcases hcase with ⟨ready, hready, hbad⟩ | ⟨hmem₂, hobs₂, hlen₂⟩
        · exact .inl ⟨ready, mem_cons_of_mem _ hready, hbad⟩
        · exact .inr ⟨hmem₂, hobs₂, by omega⟩

/-- **An outdated request in a queue that has scanned for the current step can be
completed with the wrong cause**: scanners that read its deadline get there. -/
theorem wrong_of_outdated (hinv : Invariant s) (hmem : event ∈ (s.queues cpu).realtimeEvents)
    (harmed : armedBefore (s.queues cpu).observedRealtimeChangeSeq event = true)
    (hseq : s.changeSeq = (s.queues cpu).observedRealtimeChangeSeq) :
    ∃ more, Run.Path Step s more ∧ ¬ CausesRight more := by
  induction hn : (s.queues cpu).realtimeEvents.length using Nat.strongRecOn generalizing s with
  | ind n ih =>
    have hdrain := drain_due ⟨event.deadline.sortKey, s.changeSeq⟩ (hinv.good cpu)
      hseq.symm hmem (le_refl _) (hseq ▸ harmed) 8
    obtain ⟨taken, q', hrun, hcase⟩ := hdrain
    have hread : Step s _ _ := scanRead cpu event.deadline.sortKey
    have hscan := @recheckAll Callback
      { s with scans := (cpu, ⟨event.deadline.sortKey, s.changeSeq⟩) :: s.scans }
      cpu ⟨event.deadline.sortKey, s.changeSeq⟩ [] s.scans taken q' rfl hrun
    rcases hcase with ⟨ready, hready, hbad⟩ | ⟨hmem', hobs', hlen'⟩
    · refine ⟨[(_, _), (_, _)], ⟨hread, hscan, trivial⟩, fun hall => hbad ?_⟩
      exact hall _ (mem_cons_of_mem _ mem_cons_self) ready hready
    · have hinv' := (hinv.step hread).step hscan
      obtain ⟨more, hmore, hwrong⟩ := ih q'.realtimeEvents.length (by omega) hinv'
        (by simpa only [update_self] using hmem')
        (by simpa only [update_self, hobs'] using hseq ▸ harmed)
        (by simp only [update_self, hobs'])
        (by simp only [update_self])
      refine ⟨(_, _) :: (_, _) :: more, ⟨hread, hscan, hmore⟩, fun hall => hwrong ?_⟩
      exact fun x hx => hall x (mem_cons_of_mem _ (mem_cons_of_mem _ hx))

/-- **Calendar steps and the requests they cancel.**  In every run of the timekeeper, the
queues, any number of scanners and any number of registrations:

* if every request enters its queue armed with a step number the queue has not scanned beyond,
  no request is completed as expired by somebody who has read a later step number than it was
  armed with;
* a scanner that has read less than the queue has observed removes no calendar request;
* a queue holds no request armed before what it has observed, except requests whose
  registration has not rechecked them yet;
* if it does hold one while the timekeeper is still at the step the queue has scanned for, the
  run can go on to complete a request with the wrong cause.

SOURCE: time/timer/mod.rs:187-264, 386-419, 446-514 -/
theorem clock_steps_cancel (hstart : Start s) {path : History Callback}
    (hpath : Run.Path Step s path) :
    (Run.AllSteps InsertsCurrent s path → CausesRight path) ∧
      (∀ before x after, path = before ++ x :: after → StaleScanIdle (last s before) x.1 x.2) ∧
      Settled (last s path) ∧
      (∀ cpu, ∀ event ∈ ((last s path).queues cpu).realtimeEvents,
        armedBefore ((last s path).queues cpu).observedRealtimeChangeSeq event = true →
        (last s path).changeSeq = ((last s path).queues cpu).observedRealtimeChangeSeq →
        ∃ more, Run.Path Step (last s path) more ∧ ¬ CausesRight more) := by
  have hinv := Invariant.of_start hstart
  have hkeep : ∀ (s : TimerSystem Callback) label t, Invariant s → Step s label t →
      Invariant t :=
    fun _ _ _ h hstep => h.step hstep
  refine ⟨causesRight_of_current hinv (CurrentQueues.of_start hstart) hpath, ?_,
    (hpath.invariant hkeep hinv).settled, ?_⟩
  · rintro before x after rfl
    obtain ⟨hbefore, hstep, _⟩ := hpath.split
    exact (hbefore.invariant hkeep hinv).staleScanIdle hstep
  · intro cpu event hmem harmed hseq
    exact wrong_of_outdated (hpath.invariant hkeep hinv) hmem harmed hseq

def quiet : TimerSystem Unit := ⟨0, 1, fun _ => TimerQueue.new, [], fun _ => .idle⟩

theorem quiet_start : Start quiet := ⟨rfl, fun _ => rfl, rfl, fun _ => rfl⟩

/-- A request that a step cancels, armed before the first step and due at time `0`. -/
def alarm : TimerEvent Unit := .newRealtime 0 (some 0) 1 (.realtimeThreaded () (some ()))

/-- A queue that holds the request and has scanned for a step. -/
def holding (observed : ℕ) : TimerQueue Unit := ⟨[], [alarm], observed⟩

theorem push_alarm (observed : ℕ) :
    (⟨[], [], observed⟩ : TimerQueue Unit).pushRealtime alarm = .ok (holding observed) := by
  simp [pushRealtime, pushInto, BinaryHeap.push, BinaryHeap.siftUp, alarm,
    TimerEvent.newRealtime, TimerDeadline.isRealtime, assert, holding]

/-- The registration of the request has armed it. -/
def armed : ℕ → Registration := update quiet.registrations 0 (.armed (some 0))

/-- The registration of the request has inserted it. -/
def inserted : ℕ → Registration := update armed 0 (.inserted 0 1)

/-- The queues when the first CPU holds the request. -/
def queuesWith (before : ℕ → TimerQueue Unit) (observed : ℕ) : ℕ → TimerQueue Unit :=
  update before 0 (holding observed)

/-- The request is inserted, the calendar is stepped, and a scanner cancels the request. -/
def cancelled : History Unit :=
  [(.arm 0, ⟨0, 1, quiet.queues, [], armed⟩),
    (.insert 0 alarm, ⟨0, 2, queuesWith quiet.queues 0, [], inserted⟩),
    (.clockStep, ⟨1, 2, queuesWith quiet.queues 0, [], inserted⟩),
    (.scanRead 0 ⟨0, 1⟩, ⟨1, 2, queuesWith quiet.queues 0, [(0, ⟨0, 1⟩)], inserted⟩),
    (.scan 0 ⟨0, 1⟩ [(alarm, .clockChanged)],
      ⟨1, 2, update (queuesWith quiet.queues 0) 0 ⟨[], [], 1⟩, [], inserted⟩)]

theorem cancelled_path : Run.Path Step quiet cancelled := by
  refine ⟨.armCancelling rfl, ?_, .clockStep, .scanRead 0 0, ?_, trivial⟩
  · exact @insert Unit ⟨0, 1, quiet.queues, [], armed⟩ 0 0 0 (some 0) 1 alarm.lane _
      rfl rfl (push_alarm 0)
  · exact @recheckAll Unit ⟨1, 2, queuesWith quiet.queues 0, [(0, ⟨0, 1⟩)], inserted⟩
      0 ⟨0, 1⟩ [] [] _ _ rfl rfl

/-- The request enters a queue that has scanned for nothing, and is cancelled. -/
theorem clock_steps_cancel_sample :
    Run.AllSteps InsertsCurrent quiet cancelled ∧ CausesRight cancelled ∧
      Settled (last quiet cancelled) := by
  have hall : Run.AllSteps InsertsCurrent quiet cancelled :=
    ⟨trivial, rfl, trivial, trivial, trivial, trivial⟩
  obtain ⟨hright, _, hsettled, _⟩ := clock_steps_cancel quiet_start cancelled_path
  exact ⟨hall, hright hall, hsettled⟩

/-- The queues when the first CPU has scanned for the first step. -/
def scanned : ℕ → TimerQueue Unit := update quiet.queues 0 ⟨[], [], 1⟩

/-- The request is armed, the calendar is stepped and the queue scanned for the step.  Then the
request is inserted, and a scanner gets there before the registration's recheck. -/
def overtaken : History Unit :=
  [(.arm 0, ⟨0, 1, quiet.queues, [], armed⟩), (.clockStep, ⟨1, 1, quiet.queues, [], armed⟩),
    (.scanRead 0 ⟨0, 1⟩, ⟨1, 1, quiet.queues, [(0, ⟨0, 1⟩)], armed⟩),
    (.scan 0 ⟨0, 1⟩ [], ⟨1, 1, scanned, [], armed⟩),
    (.insert 0 alarm, ⟨1, 2, queuesWith scanned 1, [], inserted⟩),
    (.scanRead 0 ⟨0, 1⟩, ⟨1, 2, queuesWith scanned 1, [(0, ⟨0, 1⟩)], inserted⟩),
    (.scan 0 ⟨0, 1⟩ [(alarm, .expired)],
      ⟨1, 2, update (queuesWith scanned 1) 0 ⟨[], [], 1⟩, [], inserted⟩)]

theorem overtaken_path : Run.Path Step quiet overtaken := by
  refine ⟨.armCancelling rfl, .clockStep, .scanRead 0 0, ?_, ?_, .scanRead 0 0, ?_, trivial⟩
  · exact @recheckAll Unit ⟨1, 1, quiet.queues, [(0, ⟨0, 1⟩)], armed⟩ 0 ⟨0, 1⟩ [] [] _ _ rfl rfl
  · exact @insert Unit ⟨1, 1, scanned, [], armed⟩ 0 0 0 (some 0) 1 alarm.lane _
      rfl rfl (push_alarm 1)
  · exact @recheckAll Unit ⟨1, 2, queuesWith scanned 1, [(0, ⟨0, 1⟩)], inserted⟩
      0 ⟨0, 1⟩ [] [] _ _ rfl rfl

/-- A request armed before the first step is completed as expired by a scanner that has read
the first step. -/
theorem clock_step_expires :
    Start quiet ∧ Run.Path Step quiet overtaken ∧ ¬ CausesRight overtaken := by
  refine ⟨quiet_start, overtaken_path, fun hright => ?_⟩
  have hlast := hright (overtaken.getLast (by decide)) (List.getLast_mem _)
  exact absurd (hlast (alarm, .expired) List.mem_cons_self rfl) (by decide)

end Anemone.Timer.TimerSystem
