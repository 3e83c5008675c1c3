import Anemone.Analysis.FutexLoops

/-!
# What a requeue does

The two mutable borrows of one queue panic for equal keys, and one waiter is moved before the
count is compared with zero.  In all other cases the loops take two consecutive parts of the
first queue.
-/

namespace Anemone.Futex.FutexSet

open Checked List

variable {set : FutexSet} {key1 key2 : FutexKey} {nWake nRequeue : ℕ} {cmpVal : Option (BitVec 32)}
  {word : Except SysError (BitVec 32)} {value : BitVec 32} {futex1 : List ℕ}

/-- How many waiters the second loop takes: one at least. -/
def taken (nRequeue : ℕ) : ℕ := max 1 nRequeue

theorem cmpVal_passes (hcmp : ∀ val, cmpVal = some val → val = value) :
    cmpVal.any (fun val => decide (value ≠ val)) = false := by
  cases cmpVal with
  | none => rfl
  | some val => simp [hcmp val rfl]

/-- **What the call does to two different queues.** -/
theorem futexCmpRequeue_present (hne : key1 ≠ key2) (hsome : set.getFutex key1 = some futex1)
    (hword : word = .ok value) (hcmp : ∀ val, cmpVal = some val → val = value) :
    (min nWake futex1.length + min (taken nRequeue) (futex1.drop nWake).length < 2 ^ 32 →
      ∃ after, set.futexCmpRequeue key1 key2 nWake nRequeue cmpVal word =
          .ok (.ok (min nWake futex1.length +
            min (taken nRequeue) (futex1.drop nWake).length), after) ∧
        (∀ key, after.getFutex key =
          if key = key2 then
            kept (set.queueOf key2 ++ (futex1.drop nWake).take (taken nRequeue))
          else if key = key1 then kept ((futex1.drop nWake).drop (taken nRequeue))
          else set.getFutex key) ∧
        ∃ middle, Woke set.waiters (futex1.take nWake) middle ∧
          Rekeyed middle ((futex1.drop nWake).take (taken nRequeue)) key2 after.waiters) ∧
    (¬ min nWake futex1.length + min (taken nRequeue) (futex1.drop nWake).length < 2 ^ 32 →
      set.futexCmpRequeue key1 key2 nWake nRequeue cmpVal word =
        .error ⟨"attempt to add with overflow"⟩) := by
  obtain ⟨middle, hwake, hwoke⟩ := wakeFront_spec nWake set.waiters futex1
  obtain ⟨last, hrequeue, hkeys⟩ := requeueLoop_spec key2 nRequeue 0 middle
    (futex1.drop nWake) (set.queueOf key2) (taken nRequeue) (by simp [taken])
  have hpass := cmpVal_passes hcmp
  subst hword
  have hqueues : requeueQueues key2 nWake nRequeue cmpVal (.ok value) set.waiters futex1
      (set.queueOf key2) = addCounts (min nWake futex1.length)
        (0 + min (taken nRequeue) (futex1.drop nWake).length) >>= fun handled =>
          .ok (.ok handled, last, (futex1.drop nWake).drop (taken nRequeue),
            set.queueOf key2 ++ (futex1.drop nWake).take (taken nRequeue)) := by
    simp only [requeueQueues, hpass, hwake, hrequeue, Bool.false_eq_true, if_false, pure_eq]
  rw [Nat.zero_add] at hqueues
  constructor
  · intro hsum
    rw [addCounts, if_pos hsum, pure_eq, ok_bind] at hqueues
    obtain ⟨after, hafter, hwaiters, hget⟩ := with2Futex_present hne hsome hqueues
    refine ⟨after, ?_, hget, middle, hwoke, hwaiters ▸ hkeys⟩
    unfold futexCmpRequeue
    rw [hafter]
    rfl
  · intro hsum
    rw [addCounts, if_neg hsum, error_bind] at hqueues
    obtain ⟨made, hmade, hwaiters, hget⟩ := set.makeIfMissing key2
    unfold futexCmpRequeue with2Futex
    rw [hmade]
    simp [get2Futex, hne, hget, hsome, hwaiters, hqueues]

/-- **Without a first queue the call returns zero** and changes no queue. -/
theorem futexCmpRequeue_missing (hne : key1 ≠ key2) (hnone : set.getFutex key1 = none) :
    ∃ made, set.futexCmpRequeue key1 key2 nWake nRequeue cmpVal word = .ok (.ok 0, made) ∧
      made.waiters = set.waiters ∧ ∀ key, made.getFutex key =
        if key = key2 then some (set.queueOf key2) else set.getFutex key := by
  obtain ⟨made, hmade, hwaiters, hget⟩ := with2Futex_missing hne hnone
    (requeueQueues key2 nWake nRequeue cmpVal word)
  refine ⟨made, ?_, hwaiters, hget⟩
  unfold futexCmpRequeue
  rw [hmade]
  rfl

theorem futexCmpRequeue_same (key : FutexKey) :
    set.futexCmpRequeue key key nWake nRequeue cmpVal word = .error duplicateKeys := by
  unfold futexCmpRequeue
  rw [with2Futex_same]
  rfl

theorem queueOf_of_some {key : FutexKey} {futex : List ℕ} (h : set.getFutex key = some futex) :
    set.queueOf key = futex := by
  rw [queueOf, h]
  rfl

/-- if the count is not zero, or nobody is left, the second loop takes what it is to
take. -/
theorem take_taken {rest : List ℕ} (h : 1 ≤ nRequeue ∨ rest = []) :
    rest.take (taken nRequeue) = rest.take nRequeue ∧
      rest.drop (taken nRequeue) = rest.drop nRequeue := by
  rcases h with h | h
  · have htaken : taken nRequeue = nRequeue := Nat.max_eq_right h
    rw [htaken]
    exact ⟨rfl, rfl⟩
  · subst h
    simp

/-- **A call on two different queues that takes what it is to take meets its
specification.** -/
theorem meetsRequeue_of_present (hne : key1 ≠ key2) (hsome : set.getFutex key1 = some futex1)
    (hword : word = .ok value) (hcmp : ∀ val, cmpVal = some val → val = value)
    (hcount : 1 ≤ nRequeue ∨ futex1.drop nWake = [])
    (hsum : min nWake futex1.length + (set.moved key1 nWake nRequeue).length < 2 ^ 32) :
    set.MeetsRequeue key1 key2 nWake nRequeue cmpVal word := by
  obtain ⟨htake, hdrop⟩ := take_taken hcount
  have hqueue := queueOf_of_some hsome
  have hmoved : set.moved key1 nWake nRequeue = (futex1.drop nWake).take (taken nRequeue) := by
    rw [moved, hqueue, htake]
  have hlength : (set.moved key1 nWake nRequeue).length =
      min (taken nRequeue) (futex1.drop nWake).length := by
    rw [hmoved, length_take]
  rw [hlength] at hsum
  obtain ⟨after, heq, hget, middle, hwoke, hkeys⟩ :=
    (futexCmpRequeue_present hne hsome hword hcmp).1 hsum
  refine ⟨after, by rw [heq, hqueue, hlength], ?_, ?_, ?_⟩
  · intro key
    rw [queueOf, hget, hmoved]
    by_cases h2 : key = key2
    · simp [h2, Ne.symm hne]
    · by_cases h1 : key = key1
      · simp [h1, hne, hqueue, hdrop, drop_drop]
      · simp [h1, h2, queueOf]
  · intro waiter
    rw [hkeys.woken, hwoke.woken, hqueue]
  · intro waiter
    rw [hkeys.key, hwoke.key, hmoved]

/-- **A zero count moves a waiter all the same.** -/
theorem not_meetsRequeue_of_zero (hne : key1 ≠ key2) (hsome : set.getFutex key1 = some futex1)
    (hword : word = .ok value) (hcmp : ∀ val, cmpVal = some val → val = value)
    (hleft : nWake < futex1.length) :
    ¬ set.MeetsRequeue key1 key2 nWake 0 cmpVal word := by
  rintro ⟨after, heq, hspec⟩
  have hqueue := queueOf_of_some hsome
  by_cases hsum : min nWake futex1.length + min (taken 0) (futex1.drop nWake).length < 2 ^ 32
  · obtain ⟨after', heq', hget, -⟩ := (futexCmpRequeue_present hne hsome hword hcmp).1 hsum
    rw [heq'] at heq
    obtain rfl : after' = after := (Prod.mk.inj (Except.ok.inj heq)).2
    have hfirst := hspec.queues key1
    rw [queueOf, hget, if_neg hne, if_pos rfl, kept_getD, if_pos rfl, if_neg hne, hqueue,
      append_nil, drop_drop] at hfirst
    have hlength := congrArg length hfirst
    simp only [length_drop, taken] at hlength
    omega
  · rw [(futexCmpRequeue_present hne hsome hword hcmp).2 hsum] at heq
    cases heq

/-- **When a requeue does what it is to do.**  For every set of queues, every pair of keys and
every two counts, with a value that matches or is absent: the call returns the number of woken and
moved waiters and has woken and moved exactly those exactly if the keys differ, the count of
waiters to move is not zero unless nobody is left to move, and the number fits in 32 bits.

SOURCE: task/api/futex/futex.rs:569-646, task/api/futex/mod.rs:143-172, 334-365 -/
theorem requeue_iff (set : FutexSet) (key1 key2 : FutexKey) (nWake nRequeue : ℕ)
    (cmpVal : Option (BitVec 32)) (value : BitVec 32)
    (hcmp : ∀ val, cmpVal = some val → val = value) :
    set.MeetsRequeue key1 key2 nWake nRequeue cmpVal (.ok value) ↔
      key1 ≠ key2 ∧ (1 ≤ nRequeue ∨ (set.queueOf key1).length ≤ nWake) ∧
        min nWake (set.queueOf key1).length + (set.moved key1 nWake nRequeue).length < 2 ^ 32 := by
  by_cases hsame : key1 = key2
  · subst hsame
    simp [MeetsRequeue, futexCmpRequeue_same]
  cases hget : set.getFutex key1 with
  | none =>
    have hempty : set.queueOf key1 = [] := by rw [queueOf, hget]; rfl
    have hmoved : set.moved key1 nWake nRequeue = [] := by simp [moved, hempty]
    refine iff_of_true ?_ ⟨hsame, .inr (by simp [hempty]), by simp [hempty, hmoved]⟩
    obtain ⟨made, heq, hwaiters, hqueues⟩ :=
      @futexCmpRequeue_missing set key1 key2 nWake nRequeue cmpVal (.ok value) hsame hget
    refine ⟨made, by simp [heq, hempty, hmoved], fun key => ?_, ?_, ?_⟩
    · rw [queueOf, hqueues, hmoved]
      by_cases h2 : key = key2
      · simp [h2, Ne.symm hsame]
      · by_cases h1 : key = key1
        · simp [h1, hsame, hget, hempty]
        · simp [h1, h2, queueOf]
    · simp [hwaiters, hempty]
    · simp [hwaiters, hmoved]
  | some futex1 =>
    have hqueue := queueOf_of_some hget
    have hleft : futex1.drop nWake = [] ↔ (set.queueOf key1).length ≤ nWake := by
      rw [hqueue, List.drop_eq_nil_iff]
    constructor
    · intro hmeets
      have hcount : 1 ≤ nRequeue ∨ (set.queueOf key1).length ≤ nWake := by
        by_contra hcount
        rw [not_or, Nat.not_le, Nat.not_le, Nat.lt_one_iff, hqueue] at hcount
        obtain ⟨rfl, hlt⟩ := hcount
        exact not_meetsRequeue_of_zero hsame hget rfl hcmp hlt hmeets
      refine ⟨hsame, hcount, ?_⟩
      by_contra hsum
      obtain ⟨after, heq, -⟩ := hmeets
      have hlength : (set.moved key1 nWake nRequeue).length =
          min (taken nRequeue) (futex1.drop nWake).length := by
        rw [moved, hqueue, ← (take_taken (hcount.imp_right hleft.mpr)).1, List.length_take]
      rw [hqueue, hlength] at hsum
      rw [(futexCmpRequeue_present hsame hget rfl hcmp).2 hsum] at heq
      cases heq
    · rintro ⟨-, hcount, hsum⟩
      rw [hqueue] at hsum
      exact meetsRequeue_of_present hsame hget rfl hcmp (hcount.imp_right hleft.mpr) hsum

/-- Two waiters on the first of two private words, none on the second. -/
def twoWaiters : FutexSet where
  privateFutexes := fun key => if key = ⟨1, 0⟩ then some [0, 1] else none
  sharedFutexes := fun _ => none
  waiters := fun _ => ⟨.left ⟨1, 0⟩, false, BitVec.allOnes 32⟩

/-- One waiter is woken and one is moved. -/
theorem requeue_iff_sample : (∀ val, some (7 : BitVec 32) = some val → val = 7) ∧
      twoWaiters.MeetsRequeue (.left ⟨1, 0⟩) (.left ⟨1, 1⟩) 1 1 (some 7) (.ok 7) := by
  have hcmp : ∀ val, some (7 : BitVec 32) = some val → val = 7 := fun _ h => by
    cases h
    rfl
  exact ⟨hcmp, (requeue_iff twoWaiters (.left ⟨1, 0⟩) (.left ⟨1, 1⟩) 1 1 (some 7) 7 hcmp).mpr
    ⟨by decide, .inl (Nat.le_refl 1), by decide⟩⟩

/-- A requeue of one word to itself panics, and a requeue of no waiters moves one. -/
theorem requeue_diverges :
    twoWaiters.futexCmpRequeue (.left ⟨1, 0⟩) (.left ⟨1, 0⟩) 1 1 none (.ok 0) =
        .error duplicateKeys ∧
      ∃ after, twoWaiters.futexCmpRequeue (.left ⟨1, 0⟩) (.left ⟨1, 1⟩) 0 0 none (.ok 0) =
          .ok (.ok 1, after) ∧
        after.queueOf (.left ⟨1, 0⟩) = [1] ∧ after.queueOf (.left ⟨1, 1⟩) = [0] :=
  ⟨rfl, _, rfl, rfl, rfl⟩

end Anemone.Futex.FutexSet
