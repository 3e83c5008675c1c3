import Anemone.Interface.ClockCancellation
import Anemone.Analysis.TimerCalls

/-!
# One step of the calendar timers

What every step keeps: the queues are good, nobody has read a step number that the timekeeper has
not reached, and a request that its queue has scanned beyond belongs to a registration that will
still recheck it with a step number at least as high.
-/

namespace Anemone.Timer

open Function (update_self update_of_ne)
open Multiset

open Checked (ok_bind pure_eq bind_eq_ok)

variable {Callback : Type}

variable {read : RealtimeRead} {event : TimerEvent Callback}
  {R : TimerEvent Callback × RealtimeReadyCause → Prop} {changeSeq : ℕ}
  {P : TimerQueue Callback → Prop}

namespace TimerQueue

variable {q q' : TimerQueue Callback} {answer : Option (TimerEvent Callback × RealtimeReadyCause)}

theorem armedBefore_mono {a b : ℕ} (hab : a ≤ b)
    (h : armedBefore a event = true) : armedBefore b event = true := by
  unfold armedBefore at h ⊢
  split at h
  · simp only [decide_eq_true_eq] at h ⊢
    omega
  · cases h

/-- **What is observed after a call of the scan.**  Either the queue has observed
nothing new, or nothing in it is armed before what it has observed. -/
theorem Scanned.observed {now : ℕ} (h : Scanned q now changeSeq answer q') :
    q'.observedRealtimeChangeSeq = q.observedRealtimeChangeSeq ∨
      (q'.observedRealtimeChangeSeq = changeSeq ∧
        ∀ event ∈ q.realtimeEvents, armedBefore changeSeq event = false) := by
  cases h with
  | stale => exact .inl rfl
  | cancelled _ _ _ _ hobserved => exact .inl hobserved
  | expired hle hclear _ _ _ hobserved =>
    rcases Nat.lt_or_eq_of_le hle with hlt | heq
    · exact .inr ⟨hobserved, hclear hlt⟩
    · exact .inl (hobserved.trans heq.symm)
  | idle hle hclear =>
    rcases Nat.lt_or_eq_of_le hle with hlt | heq
    · exact .inr ⟨rfl, hclear hlt⟩
    · exact .inl heq.symm

/-- **A scan leaves no new request armed before what the queue has observed.** -/
theorem Scanned.outdated (hq : Good q) {now : ℕ} (h : Scanned q now changeSeq answer q')
    (hmem : event ∈ q'.realtimeEvents)
    (harmed : armedBefore q'.observedRealtimeChangeSeq event = true) :
    event ∈ q.realtimeEvents ∧ armedBefore q.observedRealtimeChangeSeq event = true ∧
      q'.observedRealtimeChangeSeq = q.observedRealtimeChangeSeq := by
  have hbefore := (h.tookOut hq).mem_realtime hq hmem
  rcases h.observed with hsame | ⟨hnew, hclear⟩
  · exact ⟨hbefore, hsame ▸ harmed, hsame⟩
  · rw [hnew, hclear event hbefore] at harmed
    cases harmed

/-- **What one call of the scan keeps, a batch keeps.** -/
theorem Good.drainRealtime (read : RealtimeRead)
    (hstep : ∀ q answer q', Good q → P q → Scanned q read.now read.changeSeq answer q' →
      P q' ∧ ∀ ready, answer = some ready → R ready)
    (room : ℕ) (hq : Good q) (hP : P q) :
    ∃ taken q', TimerQueue.drainRealtime read room q = .ok (taken, q') ∧ Good q' ∧ P q' ∧
      ∀ ready ∈ taken, R ready := by
  induction room generalizing q with
  | zero => exact ⟨[], q, rfl, hq, hP, by simp⟩
  | succ room ih =>
    obtain ⟨answer, q₁, hrun, hscan⟩ := hq.popReadyRealtime read.now read.changeSeq
    have hgood := (hscan.tookOut hq).good
    obtain ⟨hP₁, hR₁⟩ := hstep q answer q₁ hq hP hscan
    cases answer with
    | none =>
      refine ⟨[], q₁, ?_, hgood, hP₁, by simp⟩
      simp only [TimerQueue.drainRealtime, hrun, ok_bind, pure_eq]
    | some ready =>
      obtain ⟨taken, q₂, hruns, hgood₂, hP₂, hR₂⟩ := ih hgood hP₁
      refine ⟨ready :: taken, q₂, ?_, hgood₂, hP₂, ?_⟩
      · simp only [TimerQueue.drainRealtime, hrun, ok_bind, hruns, pure_eq]
      · intro x hx
        rcases List.mem_cons.mp hx with rfl | hx
        · exact hR₁ x rfl
        · exact hR₂ x hx

theorem Good.drainExpired (now room : ℕ) (hq : Good q) :
    ∃ events q', TimerQueue.drainExpired now room q = .ok (events, q') ∧ Good q' ∧
      q'.queued ≤ q.queued ∧ q'.realtimeEvents = q.realtimeEvents ∧
      q'.observedRealtimeChangeSeq = q.observedRealtimeChangeSeq := by
  induction room generalizing q with
  | zero => exact ⟨[], q, rfl, hq, le_refl _, rfl, rfl⟩
  | succ room ih =>
    obtain ⟨answer, q₁, hrun, htook, hcase⟩ := hq.popExpired now
    have hle : q₁.queued ≤ q.queued := by
      rw [← htook.left]
      exact le_add_left _ _
    have hsame : q₁.realtimeEvents = q.realtimeEvents ∧
        q₁.observedRealtimeChangeSeq = q.observedRealtimeChangeSeq := by
      rcases hcase with ⟨event, rfl, hfirst, hdue⟩ | ⟨_, rfl, _⟩
      · simp only [TimerQueue.popExpired, hfirst, if_neg (not_lt.mpr hdue)] at hrun
        obtain ⟨x, _, hx⟩ := bind_eq_ok.mp hrun
        cases hx
        exact ⟨rfl, rfl⟩
      · exact ⟨rfl, rfl⟩
    cases answer with
    | none =>
      refine ⟨[], q₁, ?_, htook.good, hle, hsame⟩
      simp only [TimerQueue.drainExpired, hrun, ok_bind, pure_eq]
    | some event =>
      obtain ⟨events, q₂, hruns, hgood, hle₂, hreal, hobs⟩ := ih htook.good
      refine ⟨event :: events, q₂, ?_, hgood, hle₂.trans hle, hreal.trans hsame.1,
        hobs.trans hsame.2⟩
      simp only [TimerQueue.drainExpired, hrun, ok_bind, hruns, pure_eq]

theorem drainRealtime_stale {room : ℕ} (h : read.changeSeq < q.observedRealtimeChangeSeq) :
    TimerQueue.drainRealtime read room q = .ok ([], q) := by
  cases room with
  | zero => rfl
  | succ room =>
    simp only [TimerQueue.drainRealtime, popReadyRealtime, if_pos h, pure_eq, ok_bind]

end TimerQueue

namespace TimerSystem

open TimerQueue (Good armedBefore Scanned)

variable {s t : TimerSystem Callback} {label : Label Callback}

/-- A scanner's batch on a queue: some monotonic requests may go first. -/
structure Batch (q : TimerQueue Callback) (read : RealtimeRead)
    (taken : List (TimerEvent Callback × RealtimeReadyCause)) (q' : TimerQueue Callback) :
    Prop where
  ran : ∃ q₁ room, q₁.realtimeEvents = q.realtimeEvents ∧ q₁.queued ≤ q.queued ∧
    q₁.observedRealtimeChangeSeq = q.observedRealtimeChangeSeq ∧ Good q₁ ∧
    q₁.drainRealtime read room = .ok (taken, q')

variable {taken : List (TimerEvent Callback × RealtimeReadyCause)} {q q' : TimerQueue Callback}
  {eventId cpu registration observed deadline : ℕ} {lane : TimerLane Callback}

theorem Batch.of_interrupt (hq : Good q) {monotonicNow : ℕ} {events : List (TimerEvent Callback)}
    (h : q.interruptBatch monotonicNow read = .ok (events, taken, q')) :
    Batch q read taken q' := by
  obtain ⟨events₁, q₁, hrun, hgood, hle, hreal, hobs⟩ := hq.drainExpired monotonicNow 8
  simp only [TimerQueue.interruptBatch, hrun, ok_bind] at h
  obtain ⟨⟨taken₁, q₂⟩, hdrain, hout⟩ := bind_eq_ok.mp h
  cases hout
  exact ⟨q₁, _, hreal, hle, hobs, hgood, hdrain⟩

theorem Batch.of_recheck (hq : Good q)
    (h : q.recheckBatch read = .ok (taken, q')) : Batch q read taken q' :=
  ⟨q, 8, rfl, le_refl _, rfl, hq, h⟩

/-- **What one call of the scan keeps, a scanner's step keeps.**  `P` speaks about
the calendar heap and what is observed only. -/
theorem Batch.keeps (h : Batch q read taken q')
    (hstep : ∀ q answer q', Good q → P q → Scanned q read.now read.changeSeq answer q' → P q' ∧
      ∀ ready, answer = some ready → R ready)
    (hP : ∀ q₁ : TimerQueue Callback, q₁.realtimeEvents = q.realtimeEvents →
      q₁.queued ≤ q.queued → q₁.observedRealtimeChangeSeq = q.observedRealtimeChangeSeq → P q₁) :
    Good q' ∧ P q' ∧ ∀ ready ∈ taken, R ready := by
  obtain ⟨q₁, room, hreal, hle, hobs, hgood, hdrain⟩ := h.ran
  obtain ⟨taken', q₂, hrun, hgood₂, hP₂, hR⟩ :=
    hgood.drainRealtime read hstep room (hP q₁ hreal hle hobs)
  rw [hrun] at hdrain
  cases hdrain
  exact ⟨hgood₂, hP₂, hR⟩

/-- A registration that will still recheck a request, knowing at least `observed`. -/
def Rechecks (s : TimerSystem Callback) (cpu eventId observed : ℕ) : Prop :=
  ∃ registration, s.registrations registration = .inserted cpu eventId ∨
    ∃ read, s.registrations registration = .reread cpu eventId read ∧ observed ≤ read.changeSeq

theorem Rechecks.open (h : s.Rechecks cpu eventId observed) :
    s.Open cpu eventId := by
  obtain ⟨registration, hins | ⟨read, hread, _⟩⟩ := h
  · exact ⟨registration, .inl hins⟩
  · exact ⟨registration, .inr ⟨read, hread⟩⟩

/-- What every step keeps. -/
structure Invariant (s : TimerSystem Callback) : Prop where
  good : ∀ cpu, Good (s.queues cpu)
  ids : ∀ cpu, ∀ event ∈ (s.queues cpu).queued, event.eventId < s.nextEventId
  observed : ∀ cpu, (s.queues cpu).observedRealtimeChangeSeq ≤ s.changeSeq
  scans : ∀ scan ∈ s.scans, scan.2.changeSeq ≤ s.changeSeq
  window : ∀ cpu, ∀ event ∈ (s.queues cpu).realtimeEvents,
    armedBefore (s.queues cpu).observedRealtimeChangeSeq event = true →
    s.Rechecks cpu event.eventId (s.queues cpu).observedRealtimeChangeSeq

theorem Invariant.settled (h : Invariant s) : Settled s :=
  fun cpu event hmem harmed => (h.window cpu event hmem harmed).open

theorem Invariant.of_start (h : Start s) : Invariant s where
  good cpu := by rw [h.queues]; exact Good.new
  ids cpu event hmem := by
    rw [h.queues] at hmem
    simp [TimerQueue.queued, TimerQueue.new] at hmem
  observed cpu := by rw [h.queues, h.changeSeq]; exact le_refl _
  scans scan hmem := by rw [h.scans] at hmem; cases hmem
  window cpu event hmem := by
    rw [h.queues] at hmem
    cases hmem

/-- A change of one queue that neither adds a request nor leaves a new one outdated. -/
structure Shrinks (q q' : TimerQueue Callback) (changeSeq : ℕ) : Prop where
  good : Good q'
  queued : ∀ event ∈ q'.queued, event ∈ q.queued
  observed : q'.observedRealtimeChangeSeq ≤ changeSeq
  outdated : ∀ event ∈ q'.realtimeEvents, armedBefore q'.observedRealtimeChangeSeq event = true →
    event ∈ q.realtimeEvents ∧ armedBefore q.observedRealtimeChangeSeq event = true ∧
      q'.observedRealtimeChangeSeq = q.observedRealtimeChangeSeq

theorem Batch.shrinks (h : Batch q read taken q') (hobs : q.observedRealtimeChangeSeq ≤ changeSeq)
    (hread : read.changeSeq ≤ changeSeq) : Shrinks q q' changeSeq := by
  have hkeeps := h.keeps (R := fun _ => True)
    (P := fun x => (∀ event ∈ x.queued, event ∈ q.queued) ∧
      x.observedRealtimeChangeSeq ≤ changeSeq ∧
      ∀ event ∈ x.realtimeEvents, armedBefore x.observedRealtimeChangeSeq event = true →
        event ∈ q.realtimeEvents ∧ armedBefore q.observedRealtimeChangeSeq event = true ∧
          x.observedRealtimeChangeSeq = q.observedRealtimeChangeSeq)
    (by
      rintro x answer x' hgood ⟨hq, hle, hout⟩ hscan
      refine ⟨⟨?_, ?_, ?_⟩, fun _ _ => trivial⟩
      · intro event hmem
        refine hq event ?_
        rw [← (hscan.tookOut hgood).left]
        exact mem_add.mpr (.inr hmem)
      · rcases hscan.observed with hsame | ⟨hnew, _⟩
        · rw [hsame]; exact hle
        · rw [hnew]; exact hread
      · intro event hmem harmed
        obtain ⟨hbefore, harmed', hsame⟩ := hscan.outdated hgood hmem harmed
        obtain ⟨hin, hwas, heq⟩ := hout event hbefore harmed'
        exact ⟨hin, hwas, hsame.trans heq⟩)
    (by
      intro x hreal hle hsame
      refine ⟨fun event hmem => mem_of_le hle hmem, by rw [hsame]; exact hobs, ?_⟩
      intro event hmem harmed
      rw [hreal] at hmem
      rw [hsame] at harmed
      exact ⟨hmem, harmed, hsame⟩)
  exact ⟨hkeeps.1, hkeeps.2.1.1, hkeeps.2.1.2.1, hkeeps.2.1.2.2⟩

theorem Shrinks.of_tookOut (hq : Good q) {answer : Option (TimerEvent Callback)}
    (h : TimerQueue.TookOut q answer q')
    (hsame : q'.observedRealtimeChangeSeq = q.observedRealtimeChangeSeq)
    (hobs : q.observedRealtimeChangeSeq ≤ changeSeq) : Shrinks q q' changeSeq where
  good := h.good
  queued event hmem := by
    rw [← h.left]
    exact mem_add.mpr (.inr hmem)
  observed := by rw [hsame]; exact hobs
  outdated event hmem harmed := ⟨h.mem_realtime hq hmem, hsame ▸ harmed, hsame⟩

/-- **Shrinking one queue keeps the invariant**, if the registrations that still have
to recheck an outdated request stay. -/
theorem Invariant.shrink (h : Invariant s) {q : TimerQueue Callback}
    (hq : Shrinks (s.queues cpu) q s.changeSeq) {scans : List (ℕ × RealtimeRead)}
    (hscans : ∀ scan ∈ scans, scan ∈ s.scans) {registrations : ℕ → Registration}
    (hreg : ∀ c, ∀ event ∈ (Function.update s.queues cpu q c).realtimeEvents,
      armedBefore (Function.update s.queues cpu q c).observedRealtimeChangeSeq event = true →
      s.Rechecks c event.eventId (Function.update s.queues cpu q c).observedRealtimeChangeSeq →
      Rechecks { s with registrations } c event.eventId
        (Function.update s.queues cpu q c).observedRealtimeChangeSeq) :
    Invariant { s with queues := Function.update s.queues cpu q, scans, registrations } where
  good c := by
    by_cases hc : c = cpu
    · subst hc
      simp only [update_self]
      exact hq.good
    · simp only [update_of_ne hc]
      exact h.good c
  ids c event hmem := by
    by_cases hc : c = cpu
    · subst hc
      simp only [update_self] at hmem
      exact h.ids c event (hq.queued event hmem)
    · simp only [update_of_ne hc] at hmem
      exact h.ids c event hmem
  observed c := by
    by_cases hc : c = cpu
    · subst hc
      simp only [update_self]
      exact hq.observed
    · simp only [update_of_ne hc]
      exact h.observed c
  scans scan hmem := h.scans scan (hscans scan hmem)
  window c event hmem harmed := by
    refine hreg c event hmem harmed ?_
    by_cases hc : c = cpu
    · subst hc
      simp only [update_self] at hmem harmed ⊢
      obtain ⟨hbefore, hwas, hsame⟩ := hq.outdated event hmem harmed
      rw [hsame]
      exact h.window c event hbefore hwas
    · simp only [update_of_ne hc] at hmem harmed ⊢
      exact h.window c event hmem harmed

theorem Rechecks.update {stage : Registration} (h : s.Rechecks cpu eventId observed)
    (hnot : s.registrations registration ≠ .inserted cpu eventId)
    (hnot' : ∀ read, s.registrations registration ≠ .reread cpu eventId read) :
    Rechecks { s with registrations := Function.update s.registrations registration stage }
      cpu eventId observed := by
  obtain ⟨j, hj⟩ := h
  have hne : j ≠ registration := by
    rintro rfl
    rcases hj with hins | ⟨read, hread, _⟩
    · exact hnot hins
    · exact hnot' read hread
  refine ⟨j, ?_⟩
  simp only [update_of_ne hne]
  exact hj

/-- **The recheck of a registration leaves its request current.** -/
theorem Invariant.recheck (h : Invariant s)
    {taken : Option (TimerEvent Callback × RealtimeReadyCause)} {q : TimerQueue Callback}
    (held : s.registrations registration = .reread cpu eventId read)
    (take : (s.queues cpu).takeReadyRealtime eventId read.now read.changeSeq = .ok (taken, q)) :
    Invariant { s with
      queues := Function.update s.queues cpu q
      registrations := Function.update s.registrations registration .idle } := by
  obtain ⟨taken', q', hrun, hcheck⟩ :=
    (h.good cpu).takeReadyRealtime eventId read.now read.changeSeq
  rw [hrun] at take
  cases take
  have htook := hcheck.tookOut (h.good cpu)
  have hsame : q.observedRealtimeChangeSeq = (s.queues cpu).observedRealtimeChangeSeq := by
    cases hcheck with
    | taken _ _ _ _ _ hobserved => exact hobserved
    | _ => rfl
  refine h.shrink (Shrinks.of_tookOut (h.good cpu) htook hsame (h.observed cpu))
    (fun _ hmem => hmem) ?_
  intro c event hmem harmed hwas
  by_cases hown : c = cpu ∧ event.eventId = eventId
  · -- the request this registration inserted: nothing but this recheck can let it stay
    obtain ⟨rfl, hid⟩ := hown
    simp only [update_self] at hmem harmed hwas ⊢
    obtain ⟨j, hj⟩ := hwas
    by_cases hne : j = registration
    · subst hne
      rw [held] at hj
      rcases hj with hins | ⟨read', heq, hle⟩
      · cases hins
      · cases heq
        have hmem₀ := htook.mem_realtime (h.good c) hmem
        cases hcheck with
        | stale hold => omega
        | absent _ hgone => exact absurd hid (hgone event hmem₀)
        | @kept event' _ hmem' hid' hcurrent =>
          have heq := (h.good c).eq_of_eventId (TimerQueue.mem_queued.mpr (.inr hmem₀))
            (TimerQueue.mem_queued.mpr (.inr hmem')) (hid.trans hid'.symm)
          subst heq
          rw [TimerQueue.armedBefore_mono hle harmed] at hcurrent
          cases hcurrent
        | @taken event' _ _ _ _ hid' _ htook' _ =>
          have hnodup := (h.good c).distinct
          rw [← htook'.left] at hnodup
          simp only [Option.toList_some, coe_singleton, singleton_add,
            map_cons, nodup_cons] at hnodup
          exact absurd (mem_map.mpr
            ⟨event, TimerQueue.mem_queued.mpr (.inr hmem), hid.trans hid'.symm⟩) hnodup.1
    · exact ⟨j, by simpa only [update_of_ne hne] using hj⟩
  · refine hwas.update ?_ ?_
    · rw [held]
      exact nofun
    · intro read' heq
      rw [held] at heq
      cases heq
      exact hown ⟨rfl, rfl⟩

theorem eq_of_tryAllocateEventId {next : ℕ} (alloc : tryAllocateEventId next = some eventId) :
    eventId = next := by
  unfold tryAllocateEventId at alloc
  split at alloc
  · exact (Option.some.inj alloc).symm
  · cases alloc

theorem push_realtime (push : q.push event = .ok q') : q'.realtimeEvents = q.realtimeEvents ∧
      q'.observedRealtimeChangeSeq = q.observedRealtimeChangeSeq := by
  obtain ⟨_, _, hrest⟩ := bind_eq_ok.mp push
  obtain ⟨_, _, hout⟩ := bind_eq_ok.mp hrest
  cases hout
  exact ⟨rfl, rfl⟩

/-- **A request with a new number enters a queue.** -/
theorem Invariant.enter (h : Invariant s) {q : TimerQueue Callback}
    (hqueues : t.queues = Function.update s.queues cpu q)
    (hnext : t.nextEventId = s.nextEventId + 1) (hseq : t.changeSeq = s.changeSeq)
    (hscans : t.scans = s.scans) (hid : event.eventId = s.nextEventId) (hgood : Good q)
    (hqueued : q.queued = event ::ₘ (s.queues cpu).queued)
    (hsame : q.observedRealtimeChangeSeq = (s.queues cpu).observedRealtimeChangeSeq)
    (hwindow : ∀ cpu, ∀ event ∈ (t.queues cpu).realtimeEvents,
      armedBefore (t.queues cpu).observedRealtimeChangeSeq event = true →
      t.Rechecks cpu event.eventId (t.queues cpu).observedRealtimeChangeSeq) :
    Invariant t := by
  refine ⟨fun c => ?_, fun c other hmem => ?_, fun c => ?_, hscans ▸ hseq ▸ h.scans, hwindow⟩
  all_goals simp only [hqueues, hnext, hseq] at *
  all_goals by_cases hc : c = cpu
  · subst hc
    simp only [update_self]
    exact hgood
  · simp only [update_of_ne hc]
    exact h.good c
  · subst hc
    simp only [update_self, hqueued, mem_cons] at hmem
    rcases hmem with rfl | hmem
    · exact hid ▸ Nat.lt_succ_self _
    · exact Nat.lt_succ_of_lt (h.ids c other hmem)
  · simp only [update_of_ne hc] at hmem
    exact Nat.lt_succ_of_lt (h.ids c other hmem)
  · subst hc
    simp only [update_self, hsame]
    exact h.observed c
  · simp only [update_of_ne hc]
    exact h.observed c

/-- **A calendar request that enters a queue has an open registration.** -/
theorem Invariant.insert (h : Invariant s) {cancelOnChangeSeq : Option ℕ} {q : TimerQueue Callback}
    (armed : s.registrations registration = .armed cancelOnChangeSeq)
    (alloc : tryAllocateEventId s.nextEventId = some eventId)
    (push : (s.queues cpu).pushRealtime
      (.newRealtime deadline cancelOnChangeSeq eventId lane) = .ok q) :
    Invariant { s with
      nextEventId := s.nextEventId + 1
      queues := Function.update s.queues cpu q
      registrations := Function.update s.registrations registration
        (.inserted cpu eventId) } := by
  obtain rfl := eq_of_tryAllocateEventId alloc
  obtain ⟨q', hrun, hgood, hqueued, hperm, hsame⟩ := (h.good cpu).pushRealtime
    (.newRealtime deadline cancelOnChangeSeq s.nextEventId lane) rfl
    (fun other hother => Nat.ne_of_lt (h.ids cpu other hother))
  rw [hrun] at push
  cases push
  refine h.enter rfl rfl rfl rfl rfl hgood hqueued hsame fun c event hmem harmed => ?_
  have hkeep : s.Rechecks c event.eventId (s.queues c).observedRealtimeChangeSeq →
      Rechecks { s with registrations :=
          Function.update s.registrations registration (.inserted cpu s.nextEventId) }
        c event.eventId (s.queues c).observedRealtimeChangeSeq := by
    intro hwas
    refine hwas.update ?_ ?_
    · rw [armed]
      exact nofun
    · intro read heq
      rw [armed] at heq
      cases heq
  by_cases hc : c = cpu
  · subst hc
    simp only [update_self] at hmem harmed ⊢
    rw [hsame] at harmed ⊢
    rcases List.mem_cons.mp (hperm.mem_iff.mp hmem) with rfl | hmem
    · exact ⟨registration, .inl (by simp [TimerEvent.newRealtime])⟩
    · exact hkeep (h.window c event hmem harmed)
  · simp only [update_of_ne hc] at hmem harmed ⊢
    exact hkeep (h.window c event hmem harmed)

theorem Invariant.schedule (h : Invariant s) {q : TimerQueue Callback}
    (alloc : tryAllocateEventId s.nextEventId = some eventId)
    (push : (s.queues cpu).push (.new deadline eventId lane) = .ok q) :
    Invariant { s with
      nextEventId := s.nextEventId + 1
      queues := Function.update s.queues cpu q } := by
  obtain rfl := eq_of_tryAllocateEventId alloc
  obtain ⟨q', hrun, hgood, hqueued⟩ := (h.good cpu).push (.new deadline s.nextEventId lane) rfl
    (fun other hother => Nat.ne_of_lt (h.ids cpu other hother))
  rw [hrun] at push
  cases push
  have hsame := push_realtime hrun
  refine h.enter rfl rfl rfl rfl rfl hgood hqueued hsame.2 fun c event hmem harmed => ?_
  by_cases hc : c = cpu
  · subst hc
    simp only [update_self, hsame.1, hsame.2] at hmem harmed ⊢
    exact h.window c event hmem harmed
  · simp only [update_of_ne hc] at hmem harmed ⊢
    exact h.window c event hmem harmed

theorem Invariant.step (h : Invariant s) (hstep : Step s label t) : Invariant t := by
  cases hstep with
  | clockStep =>
    exact ⟨h.good, h.ids, fun cpu => Nat.le_succ_of_le (h.observed cpu),
      fun scan hmem => Nat.le_succ_of_le (h.scans scan hmem), h.window⟩
  | scanRead cpu now =>
    refine ⟨h.good, h.ids, h.observed, fun scan hmem => ?_, h.window⟩
    rcases List.mem_cons.mp hmem with rfl | hmem
    · exact le_refl _
    · exact h.scans scan hmem
  | @interrupt cpu read before after monotonicNow events taken q held batch =>
    have hread := h.scans (cpu, read) (by rw [held]; simp)
    have hshrinks := (Batch.of_interrupt (h.good cpu) batch).shrinks (h.observed cpu) hread
    refine h.shrink hshrinks (fun scan hmem => ?_) (fun _ _ _ _ hwas => hwas)
    rw [held]
    exact List.mem_append.mpr ((List.mem_append.mp hmem).imp id (List.mem_cons_of_mem _))
  | @recheckAll cpu read before after taken q held batch =>
    have hread := h.scans (cpu, read) (by rw [held]; simp)
    have hshrinks := (Batch.of_recheck (h.good cpu) batch).shrinks (h.observed cpu) hread
    refine h.shrink hshrinks (fun scan hmem => ?_) (fun _ _ _ _ hwas => hwas)
    rw [held]
    exact List.mem_append.mpr ((List.mem_append.mp hmem).imp id (List.mem_cons_of_mem _))
  | armCancelling idle | armPlain idle =>
    refine ⟨h.good, h.ids, h.observed, h.scans, fun c event hmem harmed => ?_⟩
    refine (h.window c event hmem harmed).update ?_ ?_
    · rw [idle]
      exact nofun
    · intro read heq
      rw [idle] at heq
      cases heq
  | insert armed alloc push => exact h.insert armed alloc push
  | @reread registration cpu eventId now inserted =>
    refine ⟨h.good, h.ids, h.observed, h.scans, fun c event hmem harmed => ?_⟩
    by_cases hown : c = cpu ∧ event.eventId = eventId
    · obtain ⟨rfl, rfl⟩ := hown
      exact ⟨registration, .inr ⟨⟨now, s.changeSeq⟩, by simp, h.observed c⟩⟩
    · refine (h.window c event hmem harmed).update ?_ ?_
      · intro heq
        rw [inserted] at heq
        cases heq
        exact hown ⟨rfl, rfl⟩
      · intro read heq
        rw [inserted] at heq
        cases heq
  | recheck held take => exact h.recheck held take
  | schedule alloc push => exact h.schedule alloc push
  | @cancel cpu eventId out q remove =>
    obtain ⟨out', q', hrun, htook, hsame, _⟩ := (h.good cpu).remove eventId
    rw [hrun] at remove
    cases remove
    exact h.shrink (Shrinks.of_tookOut (h.good cpu) htook hsame (h.observed cpu))
      (fun _ hmem => hmem) (fun _ _ _ _ hwas => hwas)

end TimerSystem

end Anemone.Timer
