import Anemone.Analysis.TimerCalls
import Anemone.Model.Timekeeper

/-!
# The timer queue is exactly what was inserted and not taken out

The balance of the calls adds up, provided that no identity is inserted twice.  Both conversions
of a timeout round down; the unit that `deadline_after` adds makes up for that.
-/

namespace Anemone.Timer.TimerQueue

open Multiset

variable {Callback : Type} {q q' : TimerQueue Callback}

theorem Good.popsLeast (hq : Good q) (now : ℕ) : q.PopsLeast now := by
  obtain ⟨answer, q', hrun, htook, hcase⟩ := hq.popExpired now
  refine ⟨answer, q', hrun, ?_⟩
  rcases hcase with ⟨event, rfl, hfirst, hdue⟩ | hnone
  · exact .inl ⟨event, rfl, List.mem_of_getElem? hfirst, hdue,
      hq.events.root_least hfirst, htook.left⟩
  · exact .inr hnone

theorem Good.removesNamed (hq : Good q) (eventId : ℕ) : q.RemovesNamed eventId := by
  obtain ⟨answer, q', hrun, htook, _, hcase⟩ := hq.remove eventId
  refine ⟨answer, q', hrun, fun event => ?_, htook.left⟩
  rcases hcase with ⟨named, rfl, hid⟩ | ⟨rfl, hgone⟩
  · have hmem : named ∈ q.queued := by
      rw [← htook.left]
      simp
    constructor
    · intro h
      cases h
      exact ⟨hmem, hid⟩
    · rintro ⟨hevent, heq⟩
      rw [hq.eq_of_eventId hevent hmem (heq.trans hid.symm)]
  · constructor
    · intro h
      cases h
    · rintro ⟨hevent, heq⟩
      exact absurd heq (hgone event hevent)

/-- **A good queue that balances is exact.** -/
theorem Good.exact (hq : Good q) {inserted removed : Multiset (TimerEvent Callback)}
    (h : q.queued + removed = inserted) : Exact q inserted removed where
  monotonic := ⟨hq.events.heapOrder, hq.events.domain⟩
  realtime := ⟨hq.realtimeEvents.heapOrder, hq.realtimeEvents.domain⟩
  accounted := h
  popsLeast := hq.popsLeast
  removesNamed := hq.removesNamed

def Balanced (q : TimerQueue Callback) (inserted removed : Multiset (TimerEvent Callback))
    (q' : TimerQueue Callback) : Prop :=
  q'.queued + removed = q.queued + inserted

theorem TookOut.balanced {answer : Option (TimerEvent Callback)} (h : TookOut q answer q') :
    Balanced q (0 : Multiset (TimerEvent Callback)) answer.toList q' := by
  rw [Balanced, add_zero, add_comm, h.left]

theorem Good.exec (hq : Good q) (op : Op Callback) (hfresh : ∀ event, op.inserted = some event →
      ∀ other ∈ q.queued, other.eventId ≠ event.eventId) :
    ∃ out q', q.exec op = .ok (out, q') ∧ Good q' ∧
      Balanced q op.inserted.toList out.toList q' := by
  cases op with
  | push deadline eventId lane =>
    obtain ⟨q', hrun, hgood, hqueued⟩ := hq.push (.new deadline eventId lane) rfl (hfresh _ rfl)
    refine ⟨none, q', by simp [TimerQueue.exec, hrun], hgood, ?_⟩
    rw [Balanced, hqueued, ← singleton_add, add_comm _ q.queued]
    exact add_zero _
  | pushRealtime deadline cancelOnChangeSeq eventId lane =>
    obtain ⟨q', hrun, hgood, hqueued, _⟩ :=
      hq.pushRealtime (.newRealtime deadline cancelOnChangeSeq eventId lane) rfl (hfresh _ rfl)
    refine ⟨none, q', by simp [TimerQueue.exec, hrun], hgood, ?_⟩
    rw [Balanced, hqueued, ← singleton_add, add_comm _ q.queued]
    exact add_zero _
  | popExpired now =>
    obtain ⟨answer, q', hrun, htook, _⟩ := hq.popExpired now
    exact ⟨answer, q', hrun, htook.good, htook.balanced⟩
  | popReadyRealtime now changeSeq =>
    obtain ⟨answer, q', hrun, hscan⟩ := hq.popReadyRealtime now changeSeq
    have htook := hscan.tookOut hq
    exact ⟨_, q', by simp [TimerQueue.exec, hrun], htook.good, htook.balanced⟩
  | takeReadyRealtime eventId now changeSeq =>
    obtain ⟨answer, q', hrun, hcheck⟩ := hq.takeReadyRealtime eventId now changeSeq
    have htook := hcheck.tookOut hq
    exact ⟨_, q', by simp [TimerQueue.exec, hrun], htook.good, htook.balanced⟩
  | remove eventId =>
    obtain ⟨answer, q', hrun, htook, _⟩ := hq.remove eventId
    exact ⟨answer, q', hrun, htook.good, htook.balanced⟩

/-- **A sequence of calls balances.**  The identities of the queued requests and of
those still to be inserted are distinct, which every call preserves. -/
theorem Good.execAll (hq : Good q) (ops : List (Op Callback))
    (hids : ((q.queued + insertedBy ops).map TimerEvent.eventId).Nodup) :
    ∃ outs q', q.execAll ops = .ok (outs, q') ∧ Good q' ∧
      Balanced q (insertedBy ops) outs q' := by
  induction ops generalizing q with
  | nil => exact ⟨[], q, rfl, hq, by simp [Balanced, insertedBy]⟩
  | cons op ops ih =>
    have hsplit : insertedBy (op :: ops) =
        (op.inserted.toList : Multiset (TimerEvent Callback)) + insertedBy ops := by
      simp only [insertedBy, List.filterMap_cons]
      cases op.inserted <;> rfl
    rw [hsplit, ← add_assoc] at hids
    have hfresh : ∀ event, op.inserted = some event →
        ∀ other ∈ q.queued, other.eventId ≠ event.eventId := by
      intro event hevent other hother heq
      rw [hevent, map_add, map_add] at hids
      have hnodup := (nodup_add.mp (nodup_add.mp hids).1).2.2
      exact disjoint_left.mp hnodup (mem_map_of_mem _ hother) (by simp [heq])
    obtain ⟨out, q₁, hrun, hgood, hbal⟩ := hq.exec op hfresh
    have hids₁ : ((q₁.queued + insertedBy ops).map TimerEvent.eventId).Nodup := by
      refine nodup_of_le (map_le_map ?_) hids
      rw [← hbal]
      exact add_le_add_left (le_add_right _ _) _
    obtain ⟨outs, q₂, hruns, hgood₂, hbal₂⟩ := ih hgood hids₁
    refine ⟨out.toList ++ outs, q₂, ?_, hgood₂, ?_⟩
    · simp only [TimerQueue.execAll, hrun, Checked.ok_bind, hruns, Checked.pure_eq]
    · rw [Balanced, hsplit, ← add_assoc, ← hbal, ← coe_add, add_comm (out.toList :
        Multiset (TimerEvent Callback)) _, ← add_assoc, hbal₂]
      rw [add_assoc, add_comm (insertedBy ops), ← add_assoc]

/-- **The timer queue is exact.**  Any sequence of calls that inserts no identity twice
returns.  Afterwards both vectors are heaps, the queue holds exactly what was inserted and
not taken out, `pop_expired` answers the least due monotonic request, and `remove` answers
exactly the request an identity names.

SOURCE: time/timer/mod.rs:123-334 -/
theorem timer_queue_exact (ops : List (Op Callback))
    (hids : ((insertedBy ops).map TimerEvent.eventId).Nodup) :
    ∃ outs q, (TimerQueue.new : TimerQueue Callback).execAll ops = .ok (outs, q) ∧
      Exact q (insertedBy ops) outs := by
  have hempty : (TimerQueue.new : TimerQueue Callback).queued = 0 := rfl
  obtain ⟨outs, q, hrun, hgood, hbal⟩ := Good.new.execAll ops (by rw [hempty, zero_add]; exact hids)
  rw [Balanced, hempty, zero_add] at hbal
  exact ⟨outs, q, hrun, hgood.exact hbal⟩

/-- The requests of the source's own test, with a removal from the middle. -/
theorem timer_queue_exact_sample : ∃ outs q, (TimerQueue.new : TimerQueue Unit).execAll
        [.push 8 8 (.irq ()), .push 2 2 (.irq ()), .push 6 6 (.irq ()), .push 1 1 (.irq ()),
          .push 4 4 (.irq ()), .push 3 3 (.irq ()), .remove 4, .popExpired 1] = .ok (outs, q) ∧
      Exact q (insertedBy [.push 8 8 (.irq ()), .push 2 2 (.irq ()), .push 6 6 (.irq ()),
        .push 1 1 (.irq ()), .push 4 4 (.irq ()), .push 3 3 (.irq ()), .remove 4,
        .popExpired 1]) outs :=
  timer_queue_exact _ (by decide)

open Checked (wordSize)
open Timekeeper

/-- Before the counter ends, `pop_expired` hands over no timeout before its time, and answers
`None` only if no timeout in the queue was over a counter unit before. -/
def OnTime (tk : Timekeeper) (q : TimerQueue Callback) : Prop :=
  ∀ now < wordSize - 1, ∃ answer q', q.popExpired now = .ok (answer, q') ∧
    ∀ event armed expire, event.deadline = .monotonic (tk.deadlineAfter armed expire) →
      (answer = some event → armed ≤ now ∧ expire ≤ tk.countsToNanos (now - armed)) ∧
      (answer = none → event ∈ q.events → now ≤ armed ∨ tk.countsToNanos (now - 1 - armed) < expire)

/-- **A deadline in exact terms**, as long as the counter has not ended. -/
theorem deadlineAfter_le_iff {tk : Timekeeper} {armed expire now : ℕ} (hnow : now < wordSize - 1) :
    tk.deadlineAfter armed expire ≤ now ↔
      armed + expire * tk.frequencyHz / nanosPerSec + (if expire = 0 then 0 else 1) ≤ now := by
  have hadd : (tk.checkedAdd armed expire).getD (wordSize - 1) =
      min (armed + expire * tk.frequencyHz / nanosPerSec) (wordSize - 1) := by
    simp only [checkedAdd, durationToMono]
    split
    · simp only [Option.bind_eq_bind, Option.bind_some]
      split <;> simp <;> omega
    · simp
      omega
  rw [deadlineAfter, hadd]
  split
  all_goals omega

/-- **Timeouts are on time.**  For every counter frequency and after every sequence of calls, a
timeout is handed over only when at least its time has passed, and the answer is `None` only if
no timeout is overdue by more than a unit.

SOURCE: time/timer/mod.rs:345-362, time/timekeeper.rs:163-167, 244-254 -/
theorem timeouts_on_time (tk : Timekeeper) (hfreq : 0 < tk.frequencyHz) (ops : List (Op Callback))
    (hids : ((insertedBy ops).map TimerEvent.eventId).Nodup) :
    ∃ outs q, (TimerQueue.new : TimerQueue Callback).execAll ops = .ok (outs, q) ∧
      q.OnTime tk := by
  obtain ⟨outs, q, hrun, hgood, -⟩ := Good.new.execAll ops ((zero_add (insertedBy ops)).symm ▸ hids)
  refine ⟨outs, q, hrun, fun now hnow => ?_⟩
  obtain ⟨answer, q', hpop, hcase⟩ := hgood.popsLeast now
  refine ⟨answer, q', hpop, fun event armed expire hdeadline => ?_⟩
  have hkey : event.deadline.sortKey = tk.deadlineAfter armed expire := by rw [hdeadline]; rfl
  have hexact : tk.deadlineAfter armed expire ≤ now ↔ _ := deadlineAfter_le_iff hnow
  rcases hcase with ⟨first, rfl, -, hdue, -⟩ | ⟨rfl, -, hlater⟩
  · refine ⟨fun heq => ?_, nofun⟩
    cases heq
    have hdue := hexact.mp (hkey ▸ hdue)
    refine ⟨le_trans (Nat.le_trans (Nat.le_add_right ..) (Nat.le_add_right ..)) hdue,
      (Nat.le_div_iff_mul_le hfreq).mpr ?_⟩
    by_cases hzero : expire = 0
    · simp [hzero]
    · -- one whole unit more than the rounded quotient
      rw [if_neg hzero] at hdue
      exact ((Nat.div_lt_iff_lt_mul (by decide)).mp (by omega)).le
  · refine ⟨nofun, fun _ hmem => or_iff_not_imp_left.mpr fun hafter => ?_⟩
    have hleft := mt hexact.mpr (not_le.mpr (hkey ▸ hlater event hmem))
    rw [countsToNanos, Nat.div_lt_iff_lt_mul hfreq]
    by_cases hzero : expire = 0
    · simp only [hzero, Nat.zero_mul, Nat.zero_div, if_true] at hleft
      omega
    · rw [if_neg hzero] at hleft
      exact Nat.lt_of_lt_of_le (Nat.mul_lt_mul_of_pos_right (by omega) (by decide))
        (Nat.div_mul_le_self ..)

/-- A timeout of one and a half units and one of four. -/
def twoTimeouts (tk : Timekeeper) : List (Op Unit) :=
  [.push (tk.deadlineAfter 7 1500000) 1 (.irq ()), .push (tk.deadlineAfter 7 4000000) 2 (.irq ()),
    .popExpired 8, .popExpired 9]

/-- The first is handed over when two units have passed. -/
theorem timeouts_on_time_sample :
    ∃ outs q, TimerQueue.new.execAll (twoTimeouts ⟨0, 1000, 10, ⟨0, 0⟩, 0⟩) = .ok (outs, q) ∧
      outs.map TimerEvent.eventId = [1] ∧ q.events.map TimerEvent.eventId = [2] ∧
      q.OnTime ⟨0, 1000, 10, ⟨0, 0⟩, 0⟩ := by
  obtain ⟨outs, q, hrun, htime⟩ := timeouts_on_time ⟨0, 1000, 10, ⟨0, 0⟩, 0⟩ (by decide)
    (twoTimeouts ⟨0, 1000, 10, ⟨0, 0⟩, 0⟩) (by decide)
  have hids : (do
      let r ← TimerQueue.new.execAll (twoTimeouts ⟨0, 1000, 10, ⟨0, 0⟩, 0⟩)
      pure (r.1.map TimerEvent.eventId, r.2.events.map TimerEvent.eventId)) =
        .ok ([1], [2]) := by decide +kernel
  rw [hrun] at hids
  simp only [Checked.ok_bind, Checked.pure_eq, Except.ok.injEq, Prod.mk.injEq] at hids
  exact ⟨outs, q, hrun, hids.1, hids.2, htime⟩

end Anemone.Timer.TimerQueue
