import Anemone.Interface.QueuedTimers

/-!
# One call on the timer queue

A call leaves the queue alone, or adds or removes one request of one heap.  Within one vector the
clock domains agree, so the assertion of `precedes` holds and the heap library applies.
-/

namespace Anemone.Timer

open Checked (ok_bind pure_eq assert_of expect_some)
open TimerEvent Multiset

variable {Callback : Type}

variable {a b : TimerEvent Callback}

namespace TimerEvent

theorem precedes_of_domain (h : a.deadline.isRealtime = b.deadline.isRealtime) :
    a.precedes b = .ok (decide (a.key < b.key)) := by
  simp only [precedes, assert_of _ h, ok_bind, pure_eq]

/-- **The key orders by deadline first.** -/
theorem sortKey_le_of_key_le (h : a.key ≤ b.key) :
    a.deadline.sortKey ≤ b.deadline.sortKey := by
  rcases Prod.Lex.toLex_le_toLex.mp h with hlt | ⟨heq, _⟩
  · exact le_of_lt hlt
  · exact le_of_eq heq

end TimerEvent

namespace TimerQueue

variable {q q' : TimerQueue Callback} {events : List (TimerEvent Callback)}

/-- A vector that is a heap of requests of one clock domain. -/
structure HeapOf (realtime : Bool) (events : List (TimerEvent Callback)) : Prop where
  ordered : BinaryHeap.Ordered TimerEvent.key events
  domain : ∀ event ∈ events, event.deadline.isRealtime = realtime

variable {realtime : Bool}

theorem HeapOf.compares (h : ∀ event ∈ events, event.deadline.isRealtime = realtime) :
    BinaryHeap.Compares key precedes events :=
  fun a ha b hb => precedes_of_domain ((h a ha).trans (h b hb).symm)

/-- **A heap by key is a heap by the source's comparison.** -/
theorem HeapOf.heapOrder (h : HeapOf realtime events) : HeapOrder events := by
  intro i child parent hi hc hp
  have hdomain := (h.domain child (List.mem_of_getElem? hc)).trans
    (h.domain parent (List.mem_of_getElem? hp)).symm
  have hle := h.ordered i child parent hi hc hp
  rw [precedes_of_domain hdomain, decide_eq_false (not_lt.mpr hle)]

@[simp] theorem HeapOf.nil (realtime : Bool) :
    HeapOf realtime ([] : List (TimerEvent Callback)) :=
  ⟨BinaryHeap.Ordered.nil, by simp⟩

theorem HeapOf.pushInto (h : HeapOf realtime events) {event : TimerEvent Callback}
    (hd : event.deadline.isRealtime = realtime) :
    ∃ events', TimerQueue.pushInto events event = .ok events' ∧ HeapOf realtime events' ∧
      events'.Perm (event :: events) := by
  have hall : ∀ e ∈ event :: events, e.deadline.isRealtime = realtime := by
    exact List.forall_mem_cons.mpr ⟨hd, h.domain⟩
  obtain ⟨events', hrun, hord, hperm⟩ := BinaryHeap.push_spec (HeapOf.compares hall) h.ordered
  exact ⟨events', hrun, ⟨hord, fun e he => hall e (hperm.mem_iff.mp he)⟩, hperm⟩

variable {index changeSeq : ℕ} {answer : Option (TimerEvent Callback × RealtimeReadyCause)}
  {p : TimerEvent Callback → Bool}

theorem HeapOf.removeFrom (h : HeapOf realtime events) {event : TimerEvent Callback}
    (hget : events[index]? = some event) :
    ∃ events', TimerQueue.removeFrom events index = .ok (event, events') ∧
      HeapOf realtime events' ∧ (event :: events').Perm events := by
  obtain ⟨events', hrun, hord, hperm⟩ :=
    BinaryHeap.remove_spec (HeapOf.compares h.domain) h.ordered hget
  exact ⟨events', hrun,
    ⟨hord, fun e he => h.domain e (hperm.mem_iff.mp (List.mem_cons_of_mem _ he))⟩, hperm⟩

theorem HeapOf.root_least (h : HeapOf realtime events) {first : TimerEvent Callback}
    (hfirst : events[0]? = some first) :
    ∀ other ∈ events, first.key ≤ other.key :=
  h.ordered.root_le hfirst

structure Good (q : TimerQueue Callback) : Prop where
  events : HeapOf false q.events
  realtimeEvents : HeapOf true q.realtimeEvents
  distinct : (q.queued.map TimerEvent.eventId).Nodup

theorem Good.new : Good (TimerQueue.new : TimerQueue Callback) :=
  ⟨HeapOf.nil _, HeapOf.nil _, by simp [queued, TimerQueue.new]⟩

theorem mem_queued {event : TimerEvent Callback} :
    event ∈ q.queued ↔ event ∈ q.events ∨ event ∈ q.realtimeEvents := by
  simp [queued]

theorem Good.of_le (hq : Good q) (he : HeapOf false q'.events)
    (hr : HeapOf true q'.realtimeEvents) (hle : q'.queued ≤ q.queued) : Good q' :=
  ⟨he, hr, nodup_of_le (map_le_map hle) hq.distinct⟩

/-- **One identity names one queued request.** -/
theorem Good.eq_of_eventId (hq : Good q) (ha : a ∈ q.queued) (hb : b ∈ q.queued)
    (h : a.eventId = b.eventId) : a = b :=
  inj_on_of_nodup_map hq.distinct a ha b hb h

theorem queued_with_events (events' : List (TimerEvent Callback)) {event : TimerEvent Callback}
    (hperm : (event :: events').Perm q.events) :
    event ::ₘ ({ q with events := events' } : TimerQueue Callback).queued = q.queued := by
  rw [queued, queued, ← coe_eq_coe.mpr hperm]
  rfl

theorem queued_with_realtime (events' : List (TimerEvent Callback))
    {event : TimerEvent Callback} (hperm : (event :: events').Perm q.realtimeEvents) :
    event ::ₘ ({ q with realtimeEvents := events' } : TimerQueue Callback).queued =
      q.queued := by
  rw [queued, queued, ← coe_eq_coe.mpr hperm, ← cons_coe, add_cons]

/-- What a call that may take one request out did: nothing but forget at most that
request. -/
structure TookOut (q : TimerQueue Callback) (answer : Option (TimerEvent Callback))
    (q' : TimerQueue Callback) : Prop where
  good : Good q'
  left : (answer.toList : Multiset (TimerEvent Callback)) + q'.queued = q.queued

theorem TookOut.nothing (hq : Good q) : TookOut q none q := ⟨hq, by simp⟩

theorem TookOut.of_cons (hq : Good q) {event : TimerEvent Callback} (he : HeapOf false q'.events)
    (hr : HeapOf true q'.realtimeEvents) (hsplit : event ::ₘ q'.queued = q.queued) :
    TookOut q (some event) q' :=
  ⟨hq.of_le he hr (hsplit ▸ le_cons_self _ _), hsplit⟩

theorem Good.takeMonotonic (hq : Good q) {event : TimerEvent Callback}
    (hget : q.events[index]? = some event) :
    ∃ events', TimerQueue.removeFrom q.events index = .ok (event, events') ∧
      TookOut q (some event) { q with events := events' } := by
  obtain ⟨events', hrun, hheap, hperm⟩ := hq.events.removeFrom hget
  exact ⟨events', hrun, .of_cons hq hheap hq.realtimeEvents (queued_with_events events' hperm)⟩

theorem Good.takeRealtime (hq : Good q) {event : TimerEvent Callback}
    (hget : q.realtimeEvents[index]? = some event) :
    ∃ events', TimerQueue.removeFrom q.realtimeEvents index = .ok (event, events') ∧
      TookOut q (some event) { q with realtimeEvents := events' } := by
  obtain ⟨events', hrun, hheap, hperm⟩ := hq.realtimeEvents.removeFrom hget
  exact ⟨events', hrun, .of_cons hq hq.events hheap (queued_with_realtime events' hperm)⟩

theorem Good.distinct_cons (hq : Good q) {event : TimerEvent Callback}
    (hfresh : ∀ other ∈ q.queued, other.eventId ≠ event.eventId) :
    ((event ::ₘ q.queued).map eventId).Nodup := by
  rw [map_cons, nodup_cons]
  refine ⟨fun hmem => ?_, hq.distinct⟩
  obtain ⟨other, hother, heq⟩ := mem_map.mp hmem
  exact hfresh other hother heq

theorem Good.push (hq : Good q) (event : TimerEvent Callback)
    (hd : event.deadline.isRealtime = false)
    (hfresh : ∀ other ∈ q.queued, other.eventId ≠ event.eventId) :
    ∃ q', q.push event = .ok q' ∧ Good q' ∧ q'.queued = event ::ₘ q.queued := by
  obtain ⟨events', hrun, hheap, hperm⟩ := hq.events.pushInto hd
  have hqueued : ({ q with events := events' } : TimerQueue Callback).queued =
      event ::ₘ q.queued := by
    rw [queued, queued, coe_eq_coe.mpr hperm]
    rfl
  refine ⟨{ q with events := events' }, ?_, ⟨hheap, hq.realtimeEvents, ?_⟩, hqueued⟩
  · simp only [TimerQueue.push, assert_of _ hd, ok_bind, hrun, pure_eq]
  · rw [hqueued]
    exact hq.distinct_cons hfresh

theorem Good.pushRealtime (hq : Good q) (event : TimerEvent Callback)
    (hd : event.deadline.isRealtime = true)
    (hfresh : ∀ other ∈ q.queued, other.eventId ≠ event.eventId) :
    ∃ q', q.pushRealtime event = .ok q' ∧ Good q' ∧ q'.queued = event ::ₘ q.queued ∧
      q'.realtimeEvents.Perm (event :: q.realtimeEvents) ∧
      q'.observedRealtimeChangeSeq = q.observedRealtimeChangeSeq := by
  obtain ⟨events', hrun, hheap, hperm⟩ := hq.realtimeEvents.pushInto hd
  have hqueued : ({ q with realtimeEvents := events' } : TimerQueue Callback).queued =
      event ::ₘ q.queued := by
    rw [queued, queued, coe_eq_coe.mpr hperm, ← cons_coe, add_cons]
  refine ⟨{ q with realtimeEvents := events' }, ?_, ⟨hq.events, hheap, ?_⟩, hqueued, hperm, rfl⟩
  · simp only [TimerQueue.pushRealtime, assert_of _ hd, ok_bind, hrun, pure_eq]
  · rw [hqueued]
    exact hq.distinct_cons hfresh

theorem Good.popExpired (hq : Good q) (now : ℕ) :
    ∃ answer q', q.popExpired now = .ok (answer, q') ∧ TookOut q answer q' ∧
      ((∃ event, answer = some event ∧ q.events[0]? = some event ∧ event.deadline.sortKey ≤ now) ∨
        (answer = none ∧ q' = q ∧ ∀ other ∈ q.events, now < other.deadline.sortKey)) := by
  cases hfirst : q.events[0]? with
  | none =>
    have hnil := List.head?_eq_none_iff.mp (List.head?_eq_getElem?.trans hfirst)
    refine ⟨none, q, by simp only [TimerQueue.popExpired, hfirst, pure_eq],
      TookOut.nothing hq, .inr ⟨rfl, rfl, ?_⟩⟩
    simp [hnil]
  | some first =>
    by_cases hdue : now < first.deadline.sortKey
    · refine ⟨none, q, ?_, TookOut.nothing hq, .inr ⟨rfl, rfl, ?_⟩⟩
      · simp only [TimerQueue.popExpired, hfirst, if_pos hdue, pure_eq]
      · intro other hother
        exact lt_of_lt_of_le hdue (sortKey_le_of_key_le (hq.events.root_least hfirst other hother))
    · obtain ⟨events', hrun, htook⟩ := hq.takeMonotonic hfirst
      refine ⟨some first, { q with events := events' }, ?_, htook,
        .inl ⟨first, rfl, rfl, not_lt.mp hdue⟩⟩
      simp only [TimerQueue.popExpired, hfirst, if_neg hdue, hrun, ok_bind, pure_eq]

theorem findIdx?_none (h : events.findIdx? p = none) :
    ∀ event ∈ events, p event = false := by
  intro event hmem
  have := List.findIdx?_eq_none_iff.mp h event hmem
  simpa using this

theorem findIdx?_some (h : events.findIdx? p = some index) :
    ∃ event, events[index]? = some event ∧ p event = true := by
  obtain ⟨hlt, hp, _⟩ := List.findIdx?_eq_some_iff_getElem.mp h
  exact ⟨events[index], List.getElem?_eq_getElem hlt, hp⟩

theorem Good.remove (hq : Good q) (eventId : ℕ) :
    ∃ answer q', q.remove eventId = .ok (answer, q') ∧ TookOut q answer q' ∧
      q'.observedRealtimeChangeSeq = q.observedRealtimeChangeSeq ∧
      ((∃ event, answer = some event ∧ event.eventId = eventId) ∨
        (answer = none ∧ ∀ event ∈ q.queued, event.eventId ≠ eventId)) := by
  cases hmono : q.events.findIdx? (fun event => event.eventId == eventId) with
  | some index =>
    obtain ⟨event, hget, hid⟩ := findIdx?_some hmono
    obtain ⟨events', hrun, htook⟩ := hq.takeMonotonic hget
    refine ⟨some event, _, ?_, htook, rfl, .inl ⟨event, rfl, by simpa using hid⟩⟩
    simp only [TimerQueue.remove, hmono, hrun, ok_bind, pure_eq]
  | none =>
    cases hreal : q.realtimeEvents.findIdx? (fun event => event.eventId == eventId) with
    | some index =>
      obtain ⟨event, hget, hid⟩ := findIdx?_some hreal
      obtain ⟨events', hrun, htook⟩ := hq.takeRealtime hget
      refine ⟨some event, _, ?_, htook, rfl, .inl ⟨event, rfl, by simpa using hid⟩⟩
      simp only [TimerQueue.remove, hmono, hreal, hrun, ok_bind, pure_eq]
    | none =>
      refine ⟨none, q, by simp only [TimerQueue.remove, hmono, hreal, pure_eq],
        TookOut.nothing hq, rfl, .inr ⟨rfl, ?_⟩⟩
      intro event hmem
      rcases mem_queued.mp hmem with hmem | hmem
      · simpa using findIdx?_none hmono event hmem
      · simpa using findIdx?_none hreal event hmem

theorem TookOut.mem_realtime (hq : Good q) {answer : Option (TimerEvent Callback)}
    (h : TookOut q answer q') {event : TimerEvent Callback} (he : event ∈ q'.realtimeEvents) :
    event ∈ q.realtimeEvents := by
  have hmem : event ∈ q.queued := by
    rw [← h.left, mem_add]
    exact .inr (mem_queued.mpr (.inr he))
  rcases mem_queued.mp hmem with hmono | hreal
  · have hd := h.good.realtimeEvents.domain event he
    rw [hq.events.domain event hmono] at hd
    cases hd
  · exact hreal

/-- What one call of `pop_ready_realtime` did. -/
inductive Scanned (q : TimerQueue Callback) (now changeSeq : ℕ) :
    Option (TimerEvent Callback × RealtimeReadyCause) → TimerQueue Callback → Prop where
  | stale (hold : changeSeq < q.observedRealtimeChangeSeq) : Scanned q now changeSeq none q
  | cancelled {event q'} (hnew : q.observedRealtimeChangeSeq < changeSeq)
      (hmem : event ∈ q.realtimeEvents) (harmed : armedBefore changeSeq event = true)
      (htook : TookOut q (some event) q')
      (hobserved : q'.observedRealtimeChangeSeq = q.observedRealtimeChangeSeq) :
      Scanned q now changeSeq (some (event, .clockChanged)) q'
  | expired {event q'} (hle : q.observedRealtimeChangeSeq ≤ changeSeq)
      (hclear : q.observedRealtimeChangeSeq < changeSeq →
        ∀ other ∈ q.realtimeEvents, armedBefore changeSeq other = false)
      (hfirst : q.realtimeEvents[0]? = some event) (hdue : event.deadline.sortKey ≤ now)
      (htook : TookOut q (some event) q')
      (hobserved : q'.observedRealtimeChangeSeq = changeSeq) :
      Scanned q now changeSeq (some (event, .expired)) q'
  | idle (hle : q.observedRealtimeChangeSeq ≤ changeSeq)
      (hclear : q.observedRealtimeChangeSeq < changeSeq →
        ∀ other ∈ q.realtimeEvents, armedBefore changeSeq other = false)
      (hdue : ∀ other ∈ q.realtimeEvents, now < other.deadline.sortKey) :
      Scanned q now changeSeq none { q with observedRealtimeChangeSeq := changeSeq }

theorem Good.observe (hq : Good q) (changeSeq : ℕ) :
    Good { q with observedRealtimeChangeSeq := changeSeq } :=
  ⟨hq.events, hq.realtimeEvents, hq.distinct⟩

theorem deadline_of_realtime {event : TimerEvent Callback}
    (h : event.deadline.isRealtime = true) :
    event.deadline = .realtime event.deadline.sortKey event.deadline.armedSeq := by
  cases hd : event.deadline with
  | monotonic deadline => rw [hd] at h; cases h
  | realtime deadline cancelOnChangeSeq => rfl

/-- **Expiring the earliest calendar request.** -/
theorem Good.expireFirst (hq : Good q) (now : ℕ) :
    (∃ event q', q.expireFirst now = .ok (some (event, .expired), q') ∧
        q.realtimeEvents[0]? = some event ∧ event.deadline.sortKey ≤ now ∧
        TookOut q (some event) q' ∧
        q'.observedRealtimeChangeSeq = q.observedRealtimeChangeSeq) ∨
      (q.expireFirst now = .ok (none, q) ∧
        ∀ other ∈ q.realtimeEvents, now < other.deadline.sortKey) := by
  cases hfirst : q.realtimeEvents[0]? with
  | none =>
    have hnil := List.head?_eq_none_iff.mp (List.head?_eq_getElem?.trans hfirst)
    exact .inr ⟨by simp only [TimerQueue.expireFirst, hfirst, pure_eq], by simp [hnil]⟩
  | some first =>
    have hd := deadline_of_realtime (hq.realtimeEvents.domain first (List.mem_of_getElem? hfirst))
    by_cases hdue : now < first.deadline.sortKey
    · refine .inr ⟨?_, fun other hother => ?_⟩
      · rw [TimerQueue.expireFirst, hfirst]
        simp only
        rw [hd]
        simp only [if_pos hdue, pure_eq]
      · exact lt_of_lt_of_le hdue (sortKey_le_of_key_le
          (hq.realtimeEvents.root_least hfirst other hother))
    · obtain ⟨events', hrun, htook⟩ := hq.takeRealtime hfirst
      refine .inl ⟨first, _, ?_, rfl, not_lt.mp hdue, htook, rfl⟩
      rw [TimerQueue.expireFirst, hfirst]
      simp only
      rw [hd]
      simp only [if_neg hdue, hrun, ok_bind, pure_eq]

theorem Good.popReadyRealtime (hq : Good q) (now changeSeq : ℕ) :
    ∃ answer q', q.popReadyRealtime now changeSeq = .ok (answer, q') ∧
      Scanned q now changeSeq answer q' := by
  by_cases hold : changeSeq < q.observedRealtimeChangeSeq
  · exact ⟨none, q, by simp only [TimerQueue.popReadyRealtime, if_pos hold, pure_eq], .stale hold⟩
  have hle := not_lt.mp hold
  by_cases hnew : q.observedRealtimeChangeSeq < changeSeq
  · cases hfind : q.realtimeEvents.findIdx? (armedBefore changeSeq) with
    | some index =>
      obtain ⟨event, hget, harmed⟩ := findIdx?_some hfind
      obtain ⟨events', hrun, htook⟩ := hq.takeRealtime hget
      refine ⟨some (event, .clockChanged), _, ?_,
        .cancelled hnew (List.mem_of_getElem? hget) harmed htook rfl⟩
      simp only [TimerQueue.popReadyRealtime, if_neg hold, if_pos hnew, hfind, hrun,
        ok_bind, pure_eq]
    | none =>
      have hclear := findIdx?_none hfind
      have hcall : q.popReadyRealtime now changeSeq =
          TimerQueue.expireFirst { q with observedRealtimeChangeSeq := changeSeq } now := by
        simp only [TimerQueue.popReadyRealtime, if_neg hold, if_pos hnew, hfind]
      rcases (hq.observe changeSeq).expireFirst now with
        ⟨event, q', hrun, hfirst, hdue, htook, hobs⟩ | ⟨hrun, hdue⟩
      · exact ⟨_, q', hcall.trans hrun,
          .expired hle (fun _ => hclear) hfirst hdue ⟨htook.good, htook.left⟩ hobs⟩
      · exact ⟨_, _, hcall.trans hrun, .idle hle (fun _ => hclear) hdue⟩
  · have heq : q.observedRealtimeChangeSeq = changeSeq := le_antisymm hle (not_lt.mp hnew)
    have hcall : q.popReadyRealtime now changeSeq = q.expireFirst now := by
      simp only [TimerQueue.popReadyRealtime, if_neg hold, if_neg hnew]
    rcases hq.expireFirst now with ⟨event, q', hrun, hfirst, hdue, htook, hobs⟩ | ⟨hrun, hdue⟩
    · exact ⟨_, q', hcall.trans hrun,
        .expired hle (fun h => absurd h hnew) hfirst hdue htook (hobs.trans heq)⟩
    · have hsame : { q with observedRealtimeChangeSeq := changeSeq } = q := by rw [← heq]
      have hidle : Scanned q now changeSeq none _ := .idle hle (fun h => absurd h hnew) hdue
      rw [hsame] at hidle
      exact ⟨none, q, hcall.trans hrun, hidle⟩

/-- **A scan takes out what it answers.** -/
theorem Scanned.tookOut (hq : Good q) {now : ℕ} (h : Scanned q now changeSeq answer q') :
    TookOut q (answer.map Prod.fst) q' := by
  cases h with
  | stale => exact TookOut.nothing hq
  | cancelled _ _ _ htook | expired _ _ _ _ htook => exact htook
  | idle => exact ⟨hq.observe changeSeq, by simp [queued]⟩

/-- What one call of `take_ready_realtime` did. -/
inductive Rechecked (q : TimerQueue Callback) (eventId now changeSeq : ℕ) :
    Option (TimerEvent Callback × RealtimeReadyCause) → TimerQueue Callback → Prop where
  | stale (hold : changeSeq < q.observedRealtimeChangeSeq) :
      Rechecked q eventId now changeSeq none q
  | absent (hle : q.observedRealtimeChangeSeq ≤ changeSeq)
      (hgone : ∀ event ∈ q.realtimeEvents, event.eventId ≠ eventId) :
      Rechecked q eventId now changeSeq none q
  | kept {event} (hle : q.observedRealtimeChangeSeq ≤ changeSeq)
      (hmem : event ∈ q.realtimeEvents) (hid : event.eventId = eventId)
      (hcurrent : armedBefore changeSeq event = false) :
      Rechecked q eventId now changeSeq none q
  | taken {event cause q'} (hle : q.observedRealtimeChangeSeq ≤ changeSeq)
      (hmem : event ∈ q.realtimeEvents) (hid : event.eventId = eventId)
      (hcause : cause = if armedBefore changeSeq event then .clockChanged else .expired)
      (htook : TookOut q (some event) q')
      (hobserved : q'.observedRealtimeChangeSeq = q.observedRealtimeChangeSeq) :
      Rechecked q eventId now changeSeq (some (event, cause)) q'

theorem Good.takeReadyRealtime (hq : Good q) (eventId now changeSeq : ℕ) :
    ∃ answer q', q.takeReadyRealtime eventId now changeSeq = .ok (answer, q') ∧
      Rechecked q eventId now changeSeq answer q' := by
  by_cases hold : changeSeq < q.observedRealtimeChangeSeq
  · exact ⟨none, q, by simp only [TimerQueue.takeReadyRealtime, if_pos hold, pure_eq], .stale hold⟩
  have hle := not_lt.mp hold
  cases hfind : q.realtimeEvents.findIdx? (fun event => event.eventId == eventId) with
  | none =>
    refine ⟨none, q, ?_, .absent hle fun event hmem => ?_⟩
    rotate_left
    · simpa using findIdx?_none hfind event hmem
    simp only [TimerQueue.takeReadyRealtime, if_neg hold, hfind, pure_eq]
  | some index =>
    obtain ⟨event, hget, hid⟩ := findIdx?_some hfind
    have hmem := List.mem_of_getElem? hget
    have hid : event.eventId = eventId := by simpa using hid
    have hd := deadline_of_realtime (hq.realtimeEvents.domain event hmem)
    have hcancels : (event.deadline.armedSeq.any fun armedSeq => decide (armedSeq < changeSeq)) =
        armedBefore changeSeq event := by
      unfold armedBefore
      rw [hd]
      cases event.deadline.armedSeq <;> rfl
    obtain ⟨events', hrun, htook⟩ := hq.takeRealtime hget
    have hcall : q.takeReadyRealtime eventId now changeSeq =
        if armedBefore changeSeq event then
          .ok (some (event, .clockChanged), { q with realtimeEvents := events' })
        else if event.deadline.sortKey ≤ now then
          .ok (some (event, .expired), { q with realtimeEvents := events' })
        else .ok (none, q) := by
      rw [TimerQueue.takeReadyRealtime, if_neg hold, hfind]
      simp only [BinaryHeap.read, hget, expect_some, ok_bind]
      rw [hd]
      simp only [hcancels, hrun, ok_bind, pure_eq]
      rfl
    rw [hcall]
    by_cases harmed : armedBefore changeSeq event = true
    · exact ⟨_, _, if_pos harmed, .taken hle hmem hid (by rw [if_pos harmed]) htook rfl⟩
    · rw [if_neg harmed]
      by_cases hdue : event.deadline.sortKey ≤ now
      · exact ⟨_, _, if_pos hdue, .taken hle hmem hid (by rw [if_neg harmed]) htook rfl⟩
      · exact ⟨_, _, if_neg hdue, .kept hle hmem hid (by simpa using harmed)⟩

theorem Rechecked.tookOut (hq : Good q) {eventId now : ℕ}
    (h : Rechecked q eventId now changeSeq answer q') :
    TookOut q (answer.map Prod.fst) q' := by
  cases h with
  | stale | absent | kept => exact TookOut.nothing hq
  | taken _ _ _ _ htook => exact htook

end TimerQueue

end Anemone.Timer
