import Anemone.Interface.FutexQueues

/-!
# The loops over futex queues, and the two wrappers around them

Waking takes a first part of the queue; requeuing takes the part after it, but at least one
waiter if there is one.  What is in the maps afterwards is said key by key: a queue that became
empty is gone.
-/

namespace Anemone.Futex

open Checked List

theorem markWoken_woken (waiters : ℕ → FutexWaiter) (waiter other : ℕ) :
    (markWoken waiters waiter other).woken = true ↔
      (waiters other).woken = true ∨ other = waiter := by
  unfold markWoken
  by_cases h : other = waiter
  · subst h
    simp
  · simp [h]

theorem markWoken_key (waiters : ℕ → FutexWaiter) (waiter other : ℕ) :
    (markWoken waiters waiter other).key = (waiters other).key := by
  unfold markWoken
  by_cases h : other = waiter
  · subst h
    simp
  · simp [h]

theorem setKey_woken (waiters : ℕ → FutexWaiter) (waiter other : ℕ) (key : FutexKey) :
    (setKey waiters waiter key other).woken = (waiters other).woken := by
  unfold setKey
  by_cases h : other = waiter
  · subst h
    simp
  · simp [h]

theorem setKey_key (waiters : ℕ → FutexWaiter) (waiter other : ℕ) (key : FutexKey) :
    (setKey waiters waiter key other).key =
      if other = waiter then key else (waiters other).key := by
  unfold setKey
  by_cases h : other = waiter
  · subst h
    simp
  · simp [h]

/-- All waiters of a list are marked woken, and nothing else is changed. -/
structure Woke (waiters : ℕ → FutexWaiter) (list : List ℕ) (after : ℕ → FutexWaiter) :
    Prop where
  woken : ∀ waiter, (after waiter).woken = true ↔ (waiters waiter).woken = true ∨ waiter ∈ list
  key : ∀ waiter, (after waiter).key = (waiters waiter).key

theorem Woke.nil (waiters : ℕ → FutexWaiter) : Woke waiters [] waiters := ⟨by simp, fun _ => rfl⟩

variable {waiters after : ℕ → FutexWaiter} {list : List ℕ} {key : FutexKey} {waiter : ℕ}

theorem Woke.cons (h : Woke (markWoken waiters waiter) list after) :
    Woke waiters (waiter :: list) after where
  woken := fun other => by
    rw [h.woken, markWoken_woken, mem_cons, or_assoc]
  key := fun other => by
    rw [h.key, markWoken_key]

/-- All waiters of a list are given a key, and nothing else is changed. -/
structure Rekeyed (waiters : ℕ → FutexWaiter) (list : List ℕ) (key : FutexKey)
    (after : ℕ → FutexWaiter) : Prop where
  woken : ∀ waiter, (after waiter).woken = (waiters waiter).woken
  key : ∀ waiter, (after waiter).key = if waiter ∈ list then key else (waiters waiter).key

theorem Rekeyed.nil (waiters : ℕ → FutexWaiter) (key : FutexKey) :
    Rekeyed waiters [] key waiters := ⟨fun _ => rfl, by simp⟩

theorem Rekeyed.cons (h : Rekeyed (setKey waiters waiter key) list key after) :
    Rekeyed waiters (waiter :: list) key after where
  woken := fun other => by
    rw [h.woken, setKey_woken]
  key := fun other => by
    rw [h.key, setKey_key]
    by_cases hmem : other ∈ list
    all_goals simp [hmem]

/-- **Waking from the front takes the first waiters.** -/
theorem wakeFront_spec (n : ℕ) (waiters : ℕ → FutexWaiter) (futex : List ℕ) :
    ∃ after, wakeFront n waiters futex = (min n futex.length, after, futex.drop n) ∧
      Woke waiters (futex.take n) after := by
  induction n generalizing waiters futex with
  | zero => exact ⟨waiters, by simp [wakeFront], Woke.nil waiters⟩
  | succ n ih =>
    cases futex with
    | nil => exact ⟨waiters, by simp [wakeFront], Woke.nil waiters⟩
    | cons waiter futex =>
      obtain ⟨after, heq, hwoke⟩ := ih (markWoken waiters waiter) futex
      refine ⟨after, ?_, hwoke.cons⟩
      simp [wakeFront, heq, Nat.succ_min_succ]

/-- **Requeuing takes the first waiters, and at least one.** -/
theorem requeueLoop_spec (key2 : FutexKey) (nRequeue nRequeued : ℕ)
    (waiters : ℕ → FutexWaiter) (futex1 futex2 : List ℕ) (count : ℕ)
    (hcount : count = max 1 (nRequeue - nRequeued)) :
    ∃ after, requeueLoop key2 nRequeue nRequeued waiters futex1 futex2 =
        (nRequeued + min count futex1.length, after, futex1.drop count,
          futex2 ++ futex1.take count) ∧
      Rekeyed waiters (futex1.take count) key2 after := by
  induction futex1 generalizing nRequeued waiters futex2 count with
  | nil => exact ⟨waiters, by simp [requeueLoop], by simpa using Rekeyed.nil waiters key2⟩
  | cons waiter futex1 ih =>
    unfold requeueLoop
    by_cases hlast : nRequeue ≤ nRequeued + 1
    · -- the count is reached with this waiter
      have hone : count = 1 := by omega
      subst hone
      exact ⟨setKey waiters waiter key2, by simp [hlast], (Rekeyed.nil _ key2).cons⟩
    · obtain ⟨rest, hrest⟩ : ∃ rest, count = rest + 1 := ⟨count - 1, by omega⟩
      obtain ⟨after, heq, hkeys⟩ := ih (nRequeued + 1) (setKey waiters waiter key2)
        (futex2 ++ [waiter]) rest (by omega)
      subst hrest
      refine ⟨after, ?_, hkeys.cons⟩
      rw [if_neg hlast, heq]
      simp only [length_cons, Nat.succ_min_succ, drop_succ_cons, take_succ_cons,
        append_assoc, singleton_append]
      congr 1
      omega

namespace FutexSet

variable (set : FutexSet)

@[simp] theorem putFutex_waiters (futex : Option (List ℕ)) (key : FutexKey) :
    (set.putFutex futex key).waiters = set.waiters := by
  cases key <;> rfl

theorem getFutex_putFutex (futex : Option (List ℕ)) (key other : FutexKey) :
    (set.putFutex futex key).getFutex other =
      if other = key then futex else set.getFutex other := by
  cases key <;> cases other <;> simp [putFutex, getFutex, Function.update_apply]

@[simp] theorem getFutex_withWaiters (waiters : ℕ → FutexWaiter) (key : FutexKey) :
    ({ set with waiters } : FutexSet).getFutex key = set.getFutex key := by
  cases key <;> rfl

/-- An empty queue is dropped. -/
def kept (futex : List ℕ) : Option (List ℕ) := if futex = [] then none else some futex

@[simp] theorem kept_getD (futex : List ℕ) : (kept futex).getD [] = futex := by
  unfold kept
  split <;> simp_all

theorem dropIfEmpty {set : FutexSet} {futex : List ℕ} (h : set.getFutex key = some futex) :
    ∃ after, set.removeIfEmpty key futex = .ok after ∧ after.waiters = set.waiters ∧
      ∀ other, after.getFutex other = if other = key then kept futex else set.getFutex other := by
  by_cases hempty : futex = []
  · refine ⟨set.putFutex none key, ?_, by simp, fun other => ?_⟩
    · simp [removeIfEmpty, hempty, removeFutex, h, assert]
    · rw [getFutex_putFutex]
      simp [kept, hempty]
  · refine ⟨set, by simp [removeIfEmpty, hempty], rfl, fun other => ?_⟩
    by_cases hother : other = key
    · simp [hother, kept, hempty, h]
    · simp [hother]

theorem makeIfMissing (key : FutexKey) :
    ∃ made, set.createIfMissing true key = .ok made ∧ made.waiters = set.waiters ∧
      ∀ other, made.getFutex other =
        if other = key then some (set.queueOf key) else set.getFutex other := by
  cases hget : set.getFutex key with
  | none =>
    refine ⟨set.putFutex (some []) key, ?_, by simp, fun other => ?_⟩
    · simp [createIfMissing, existFutex, hget, createFutex, assert]
    · rw [getFutex_putFutex]
      simp [queueOf, hget]
  | some futex =>
    refine ⟨set, by simp [createIfMissing, existFutex, hget], rfl, fun other => ?_⟩
    by_cases hother : other = key
    · simp [hother, queueOf, hget]
    · simp [hother]

variable {set} {R : Type}

/-- **Two borrows of one queue panic**, whether it was there or has just been made. -/
theorem with2Futex_same (key : FutexKey) (f : (ℕ → FutexWaiter) → List ℕ → List ℕ →
      Checked (R × (ℕ → FutexWaiter) × List ℕ × List ℕ)) :
    set.with2Futex key key true f = .error duplicateKeys := by
  obtain ⟨made, hmade, -, hget⟩ := set.makeIfMissing key
  unfold with2Futex
  rw [hmade]
  simp [get2Futex, existFutex, hget]

/-- **Without a first queue nothing is done**, but the second one is made. -/
theorem with2Futex_missing {key1 key2 : FutexKey} (hne : key1 ≠ key2)
    (hnone : set.getFutex key1 = none)
    (f : (ℕ → FutexWaiter) → List ℕ → List ℕ → Checked (R × (ℕ → FutexWaiter) × List ℕ × List ℕ)) :
    ∃ made, set.with2Futex key1 key2 true f = .ok (none, made) ∧
      made.waiters = set.waiters ∧ ∀ key, made.getFutex key =
        if key = key2 then some (set.queueOf key2) else set.getFutex key := by
  obtain ⟨made, hmade, hwaiters, hget⟩ := set.makeIfMissing key2
  refine ⟨made, ?_, hwaiters, hget⟩
  unfold with2Futex
  rw [hmade]
  simp [get2Futex, hne, hget, hnone]

/-- **With a first queue the function is run on both.** -/
theorem with2Futex_present {key1 key2 : FutexKey} (hne : key1 ≠ key2) {futex1 : List ℕ}
    (hsome : set.getFutex key1 = some futex1)
    {f : (ℕ → FutexWaiter) → List ℕ → List ℕ →
      Checked (R × (ℕ → FutexWaiter) × List ℕ × List ℕ)}
    {ret : R} {first second : List ℕ}
    (hf : f set.waiters futex1 (set.queueOf key2) = .ok (ret, waiters, first, second)) :
    ∃ after, set.with2Futex key1 key2 true f = .ok (some ret, after) ∧
      after.waiters = waiters ∧ ∀ key, after.getFutex key =
        if key = key2 then kept second else if key = key1 then kept first
        else set.getFutex key := by
  obtain ⟨made, hmade, hwaiters, hget⟩ := set.makeIfMissing key2
  have hfirst : made.getFutex key1 = some futex1 := by rw [hget, if_neg hne, hsome]
  have hsecond : made.getFutex key2 = some (set.queueOf key2) := by rw [hget, if_pos rfl]
  obtain ⟨written, hwritten⟩ : ∃ written : FutexSet, written =
      { (made.putFutex (some first) key1).putFutex (some second) key2 with waiters } := ⟨_, rfl⟩
  have hwget : ∀ key, written.getFutex key =
      if key = key2 then some second else if key = key1 then some first
      else made.getFutex key := by
    intro key
    rw [hwritten, getFutex_withWaiters, getFutex_putFutex, getFutex_putFutex]
  obtain ⟨one, hone, honeWaiters, honeGet⟩ :=
    dropIfEmpty (show written.getFutex key1 = some first by simp [hwget, hne])
  obtain ⟨two, htwo, htwoWaiters, htwoGet⟩ := dropIfEmpty (show one.getFutex key2 = some second by
      rw [honeGet, if_neg (Ne.symm hne), hwget, if_pos rfl])
  refine ⟨two, ?_, by rw [htwoWaiters, honeWaiters, hwritten], fun key => ?_⟩
  · unfold with2Futex
    rw [hmade]
    simp only [ok_bind, get2Futex, hne, false_and, if_false, pure_eq, hfirst,
      hsecond, hwaiters, hf, ← hwritten, hone, htwo]
  · rw [htwoGet, honeGet, hwget, hget]
    by_cases h2 : key = key2
    · simp [h2]
    · by_cases h1 : key = key1
      · simp [h1, hne]
      · simp [h1, h2]

end FutexSet

end Anemone.Futex
