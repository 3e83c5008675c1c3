import Anemone.Analysis.TheoremRequeueProof

/-!
# Where futex waiters are

A waiter that waits and is not woken is in the queue of its key and nowhere else (`Placed`).  Every
operation drops the queues it emptied, except a requeue that makes the second queue and then finds
no first one.
-/

namespace Anemone.Futex

open Function (update_self update_of_ne update)
open List

open Checked (ok_bind pure_eq expect_some)

open Run (last)

/-- The waiters are where their keys say, in terms of the queues. -/
structure Placed (queues : FutexKey → List ℕ) (waiters : ℕ → FutexWaiter) (stages : ℕ → Stage) :
    Prop where
  nodup : ∀ key, (queues key).Nodup
  queued : ∀ key, ∀ waiter ∈ queues key, stages waiter = .waiting ∧
    (waiters waiter).woken = false ∧ (waiters waiter).key = key
  member : ∀ waiter, stages waiter = .waiting → (waiters waiter).woken = false →
    waiter ∈ queues (waiters waiter).key
  fresh : ∀ waiter, stages waiter = .fresh → (waiters waiter).woken = false
  success : ∀ waiter result, stages waiter = .returned result →
    (waiters waiter).woken = true → result = .ok ()

theorem System.consistent_iff {s : System} :
    s.Consistent ↔ Placed s.set.queueOf s.set.waiters s.stages :=
  ⟨fun h => ⟨h.nodup, h.queued, h.member, h.fresh, h.success⟩,
    fun h => ⟨h.nodup, h.queued, h.member, h.fresh, h.success⟩⟩

variable {waiter : ℕ} {rest marked : List ℕ} {key key1 key2 : FutexKey}

namespace Placed

variable {queues : FutexKey → List ℕ} {waiters after : ℕ → FutexWaiter} {stages : ℕ → Stage}

theorem of_mem (hnodup : ∀ key, (queues key).Nodup)
    (hmem : ∀ key waiter, waiter ∈ queues key ↔ stages waiter = .waiting ∧
      (waiters waiter).woken = false ∧ (waiters waiter).key = key)
    (hfresh : ∀ waiter, stages waiter = .fresh → (waiters waiter).woken = false)
    (hsuccess : ∀ waiter result, stages waiter = .returned result →
      (waiters waiter).woken = true → result = .ok ()) : Placed queues waiters stages :=
  ⟨hnodup, fun key waiter => (hmem key waiter).mp,
    fun waiter hstage hawake => (hmem _ waiter).mpr ⟨hstage, hawake, rfl⟩, hfresh, hsuccess⟩

theorem nodup_update (hall : ∀ key, (queues key).Nodup) (key : FutexKey) {futex : List ℕ}
    (hnodup : futex.Nodup) : ∀ other, (update queues key futex other).Nodup :=
  (Function.forall_update_iff queues fun _ => List.Nodup).mpr ⟨hnodup, fun other _ => hall other⟩

section

variable (h : Placed queues waiters stages) {result : Except SysError Unit}

include h

theorem mem_iff (key : FutexKey) (waiter : ℕ) : waiter ∈ queues key ↔ stages waiter = .waiting ∧
    (waiters waiter).woken = false ∧ (waiters waiter).key = key :=
  ⟨h.queued key waiter, fun ⟨hstage, hawake, hkey⟩ => hkey ▸ h.member waiter hstage hawake⟩

theorem not_mem (hstage : stages waiter ≠ .waiting) (key : FutexKey) :
    waiter ∉ queues key :=
  fun hw => hstage (h.queued key waiter hw).1

theorem key_unique {key' : FutexKey} (hw : waiter ∈ queues key) (hw' : waiter ∈ queues key') :
    key = key' := by
  rw [← (h.queued key waiter hw).2.2, (h.queued key' waiter hw').2.2]

/-- **Waiters are marked and taken out.** -/
theorem wake (hperm : (marked ++ rest).Perm (queues key)) (hwoke : Woke waiters marked after) :
    Placed (update queues key rest) after stages := by
  obtain ⟨-, hrest, hdisjoint⟩ := nodup_append.mp (hperm.nodup_iff.mpr (h.nodup key))
  have hmarked : ∀ waiter ∈ marked, waiter ∈ queues key := fun waiter hw =>
    hperm.mem_iff.mp (mem_append_left _ hw)
  have hawake : ∀ waiter, (after waiter).woken = false ↔
      (waiters waiter).woken = false ∧ waiter ∉ marked := fun waiter => by
    rw [← Bool.not_eq_true, hwoke.woken, not_or, Bool.not_eq_true]
  refine .of_mem (nodup_update h.nodup key hrest) (fun key' waiter => ?_) (fun waiter hstage => ?_)
    fun waiter result hstage hwoken => ?_
  · -- a waiter that is still queued was not marked
    have hleft : waiter ∈ update queues key rest key' ↔
        waiter ∈ queues key' ∧ waiter ∉ marked := by
      by_cases hkey : key' = key
      · subst hkey
        rw [update_self, ← hperm.mem_iff, mem_append]
        refine ⟨fun hw => ⟨.inr hw, fun hm => hdisjoint waiter hm waiter hw rfl⟩, ?_⟩
        exact fun hw => hw.1.resolve_left hw.2
      · rw [update_of_ne hkey]
        exact ⟨fun hw => ⟨hw, fun hm => hkey (h.key_unique hw (hmarked waiter hm))⟩, And.left⟩
    rw [hleft, h.mem_iff, hawake, hwoke.key]
    tauto
  · refine (hawake waiter).mpr ⟨h.fresh waiter hstage, fun hm => ?_⟩
    exact h.not_mem (by rw [hstage]; nofun) key (hmarked waiter hm)
  · refine h.success waiter result hstage (((hwoke.woken waiter).mp hwoken).resolve_right fun hm => ?_)
    exact h.not_mem (by rw [hstage]; nofun) key (hmarked waiter hm)

/-- **Waiters are moved to the end of another queue.** -/
theorem move (hne : key1 ≠ key2) {some : List ℕ} (hqueue : queues key1 = some ++ rest)
    (hkeys : Rekeyed waiters some key2 after) :
    Placed (update (update queues key1 rest) key2 (queues key2 ++ some))
      after stages := by
  obtain ⟨hsome, hrest, hdisjoint⟩ := nodup_append.mp (hqueue ▸ h.nodup key1)
  have hfrom : ∀ waiter ∈ some, waiter ∈ queues key1 := fun waiter hw => by
    rw [hqueue]
    exact mem_append_left _ hw
  have hstays : ∀ key', key' ≠ key1 → ∀ waiter ∈ queues key', waiter ∉ some :=
    fun key' hkey waiter hw hm => hkey (h.key_unique hw (hfrom waiter hm))
  refine .of_mem ?_ (fun key' waiter => ?_) (fun waiter hstage => ?_)
    fun waiter result hstage hawake => ?_
  · refine nodup_update (nodup_update h.nodup key1 hrest) key2 ?_
    refine nodup_append.mpr ⟨h.nodup key2, hsome, fun waiter hw other hother heq => ?_⟩
    exact hstays key2 hne.symm waiter hw (heq ▸ hother)
  · rw [hkeys.woken, hkeys.key]
    by_cases hm : waiter ∈ some
    · obtain ⟨hstage, hawake, hkey⟩ := h.queued key1 waiter (hfrom waiter hm)
      rw [if_pos hm, hstage, hawake]
      by_cases h2 : key' = key2
      · simp [h2, hm]
      · rw [update_of_ne h2]
        refine iff_of_false (fun hw => ?_) fun hw => h2 hw.2.2.symm
        by_cases h1 : key' = key1
        · rw [h1, update_self] at hw
          exact hdisjoint waiter hm waiter hw rfl
        · rw [update_of_ne h1] at hw
          exact hstays key' h1 waiter hw hm
    · rw [if_neg hm, ← h.mem_iff]
      by_cases h2 : key' = key2
      · simp [h2, hm]
      · rw [update_of_ne h2]
        by_cases h1 : key' = key1
        · simp [h1, hqueue, hm]
        · rw [update_of_ne h1]
  · rw [hkeys.woken]
    exact h.fresh waiter hstage
  · rw [hkeys.woken] at hawake
    exact h.success waiter result hstage hawake

theorem enqueue (hfresh : stages waiter = .fresh) (bitset : BitVec 32) :
    Placed (update queues key (queues key ++ [waiter])) (update waiters waiter ⟨key, false, bitset⟩)
      (update stages waiter .waiting) := by
  have hnew : ∀ key, waiter ∉ queues key := h.not_mem (by rw [hfresh]; nofun)
  refine .of_mem (nodup_update h.nodup key ?_) (fun key' other => ?_) (fun other hstage => ?_)
    fun other result hstage hawake => ?_
  · exact nodup_append.mpr ⟨h.nodup key, by simp, fun other ho new hn heq =>
      hnew key (mem_singleton.mp hn ▸ heq ▸ ho)⟩
  · by_cases hnewest : other = waiter
    · subst hnewest
      by_cases hkey : key' = key
      · simp [hkey]
      · simp [hkey, Ne.symm hkey, hnew key']
    · rw [update_of_ne hnewest, update_of_ne hnewest, ← h.mem_iff]
      by_cases hkey : key' = key
      · simp [hkey, hnewest]
      · rw [update_of_ne hkey]
  · by_cases hnewest : other = waiter
    · simp [hnewest]
    · rw [update_of_ne hnewest] at hstage ⊢
      exact h.fresh other hstage
  · by_cases hnewest : other = waiter
    · simp [hnewest] at hawake
    · rw [update_of_ne hnewest] at hstage hawake
      exact h.success other result hstage hawake

/-- **A waiter leaves the queues and returns**, with success if it was woken. -/
theorem leave {queues' : FutexKey → List ℕ} (hnodup : ∀ key, (queues' key).Nodup)
    (hmem : ∀ key other, other ∈ queues' key ↔ other ∈ queues key ∧ other ≠ waiter)
    (hresult : (waiters waiter).woken = true → result = .ok ()) :
    Placed queues' waiters (update stages waiter (.returned result)) := by
  refine .of_mem hnodup (fun key other => ?_) (fun other hstage => ?_)
    fun other result' hstage hawake => ?_
  · rw [hmem, h.mem_iff]
    by_cases heq : other = waiter
    all_goals simp [heq]
  · by_cases heq : other = waiter
    · simp [heq] at hstage
    · rw [update_of_ne heq] at hstage
      exact h.fresh other hstage
  · by_cases heq : other = waiter
    · rw [heq, update_self] at hstage
      cases hstage
      exact hresult (heq ▸ hawake)
    · rw [update_of_ne heq] at hstage
      exact h.success other result' hstage hawake

/-- **A wait returns** when it is in no queue. -/
theorem settle (hout : ∀ key, waiter ∉ queues key)
    (hresult : (waiters waiter).woken = true → result = .ok ()) :
    Placed queues waiters (update stages waiter (.returned result)) :=
  h.leave h.nodup (fun key _ => ⟨fun ho => ⟨ho, fun heq => hout key (heq ▸ ho)⟩, And.left⟩) hresult

/-- **A waiter that gives up is taken out**, and returns. -/
theorem giveUp (hawake : (waiters waiter).woken = false)
    (hperm : (waiter :: rest).Perm (queues (waiters waiter).key)) :
    Placed (update queues (waiters waiter).key rest) waiters
      (update stages waiter (.returned result)) := by
  obtain ⟨hnot, hrest⟩ := nodup_cons.mp (hperm.nodup_iff.mpr (h.nodup _))
  refine h.leave (nodup_update h.nodup _ hrest) (fun key other => ?_) (by rw [hawake]; nofun)
  by_cases hkey : key = (waiters waiter).key
  · rw [hkey, update_self, ← hperm.mem_iff, mem_cons]
    exact ⟨fun ho => ⟨.inr ho, fun heq => hnot (heq ▸ ho)⟩, fun ho => ho.1.resolve_left ho.2⟩
  · rw [update_of_ne hkey]
    exact ⟨fun ho => ⟨ho, fun heq => hkey (heq ▸ (h.queued key other ho).2.2).symm⟩, And.left⟩

end

end Placed

/-- **Waking by bits takes some waiters out** and keeps the others, in some order. -/
theorem wakeMatching_spec (bitset : BitVec 32) (tests n : ℕ) (waiters : ℕ → FutexWaiter)
    (futex : List ℕ) :
    ∃ marked after rest, wakeMatching bitset tests n waiters futex = (marked.length, after, rest) ∧
      (marked ++ rest).Perm futex ∧ Woke waiters marked after := by
  induction tests generalizing n waiters futex with
  | zero => exact ⟨[], waiters, futex, by simp [wakeMatching], .refl _, .nil waiters⟩
  | succ tests ih =>
    cases n with
    | zero => exact ⟨[], waiters, futex, by simp [wakeMatching], .refl _, .nil waiters⟩
    | succ n =>
      cases futex with
      | nil => exact ⟨[], waiters, [], by simp [wakeMatching], .refl _, .nil waiters⟩
      | cons waiter futex =>
        unfold wakeMatching
        split
        · -- the waiter goes to the end
          obtain ⟨marked, after, rest, heq, hperm, hwoke⟩ := ih (n + 1) waiters (futex ++ [waiter])
          exact ⟨marked, after, rest, heq, hperm.trans (perm_append_singleton _ _), hwoke⟩
        · obtain ⟨marked, after, rest, heq, hperm, hwoke⟩ := ih n (markWoken waiters waiter) futex
          exact ⟨waiter :: marked, after, rest, by rw [heq]; rfl, hperm.cons _, hwoke.cons⟩

namespace FutexSet

variable {set : FutexSet} {R : Type} {key : FutexKey}
  {f : (ℕ → FutexWaiter) → List ℕ → R × (ℕ → FutexWaiter) × List ℕ}

/-- What a set is after the queue of a key has been worked on. -/
structure Worked (set : FutexSet) (key : FutexKey) (waiters : ℕ → FutexWaiter)
    (futex : List ℕ) (after : FutexSet) : Prop where
  waiters : after.waiters = waiters
  getFutex : ∀ other, after.getFutex other =
    if other = key then kept futex else set.getFutex other

theorem Worked.queueOf {waiters : ℕ → FutexWaiter} {futex : List ℕ} {after : FutexSet}
    (h : set.Worked key waiters futex after) :
    after.queueOf = update set.queueOf key futex := by
  funext other
  by_cases hother : other = key
  · subst hother
    simp [FutexSet.queueOf, h.getFutex]
  · simp [FutexSet.queueOf, h.getFutex, hother]

/-- **The queue of a key is worked on**, and made first if it is missing. -/
theorem withFutex_create {ret : R} {waiters : ℕ → FutexWaiter} {futex : List ℕ}
    (hf : f set.waiters (set.queueOf key) = (ret, waiters, futex)) :
    ∃ after, set.withFutex key true f = .ok (some ret, after) ∧
      set.Worked key waiters futex after := by
  obtain ⟨made, hmade, hwaiters, hget⟩ := set.makeIfMissing key
  obtain ⟨written, hwritten⟩ : ∃ written : FutexSet, written =
      { made.putFutex (some futex) key with waiters } := ⟨_, rfl⟩
  have hwget : ∀ other, written.getFutex other =
      if other = key then some futex else made.getFutex other := fun other => by
    rw [hwritten, getFutex_withWaiters, getFutex_putFutex]
  obtain ⟨after, hafter, hafterWaiters, hafterGet⟩ :=
    dropIfEmpty (show written.getFutex key = some futex by rw [hwget, if_pos rfl])
  refine ⟨after, ?_, by rw [hafterWaiters, hwritten], fun other => ?_⟩
  · unfold withFutex
    rw [hmade]
    simp only [ok_bind, hget, if_true, hwaiters, hf, ← hwritten, hafter, pure_eq]
  · rw [hafterGet, hwget, hget]
    by_cases hother : other = key
    all_goals simp [hother]

theorem withFutex_found {futex : List ℕ} (hsome : set.getFutex key = some futex) :
    set.withFutex key false f = set.withFutex key true f := by
  unfold withFutex createIfMissing
  simp [existFutex, hsome]

theorem withFutex_missing (hnone : set.getFutex key = none) :
    set.withFutex key false f = .ok (none, set) := by
  unfold withFutex createIfMissing
  simp [hnone]

end FutexSet

namespace System

variable {s t : System}

theorem Clean.worked (h : s.Clean) {waiters : ℕ → FutexWaiter} {futex : List ℕ} {after : FutexSet}
    (hw : s.set.Worked key waiters futex after) (stages : ℕ → Stage) : Clean ⟨after, stages⟩ := by
  intro other
  rw [hw.getFutex]
  by_cases hother : other = key
  · rw [if_pos hother]
    unfold FutexSet.kept
    split <;> simp_all
  · rw [if_neg hother]
    exact h other

/-- The two halves of the invariant of clean runs, after an operation. -/
def Good (s : System) (t : System) : Prop := t.Consistent ∧ (s.Clean → t.Clean)

/-- **A wake on one queue.**  `f` marks some waiters and keeps the others. -/
theorem Consistent.wake (h : s.Consistent) (key : FutexKey)
    {f : (ℕ → FutexWaiter) → List ℕ → ℕ × (ℕ → FutexWaiter) × List ℕ} {after : ℕ → FutexWaiter}
    (create : Bool) (hf : f s.set.waiters (s.set.queueOf key) = (marked.length, after, rest))
    (hperm : (marked ++ rest).Perm (s.set.queueOf key)) (hwoke : Woke s.set.waiters marked after) :
    ∃ count set, s.set.withFutex key create f = .ok (count, set) ∧
      Good s { s with set } ∧ s.CountsMarked (count.getD 0) set := by
  have hplaced := consistent_iff.mp h
  have hmarked : ∀ waiter ∈ marked, s.stages waiter = .waiting ∧
      (s.set.waiters waiter).woken = false := fun waiter hm => by
    obtain ⟨hstage, hawake, -⟩ := h.queued key waiter (hperm.mem_iff.mp (mem_append_left _ hm))
    exact ⟨hstage, hawake⟩
  have hnodup : marked.Nodup := (nodup_append.mp (hperm.nodup_iff.mpr (h.nodup key))).1
  have hwork : ∃ set, s.set.withFutex key true f = .ok (some marked.length, set) ∧
      Good s { s with set } ∧ s.CountsMarked marked.length set := by
    obtain ⟨set, heq, hworked⟩ := FutexSet.withFutex_create hf
    refine ⟨set, heq, ⟨consistent_iff.mpr ?_, fun hclean => hclean.worked hworked s.stages⟩,
      marked, hnodup, rfl, hmarked, by rw [hworked.waiters]; exact hwoke.woken⟩
    rw [hworked.queueOf, hworked.waiters]
    exact hplaced.wake hperm hwoke
  cases create with
  | true =>
    obtain ⟨set, heq, hgood, hcounts⟩ := hwork
    exact ⟨some marked.length, set, heq, hgood, hcounts⟩
  | false =>
    cases hget : s.set.getFutex key with
    | none =>
      exact ⟨none, s.set, FutexSet.withFutex_missing hget, ⟨h, id⟩, [], nodup_nil, rfl,
        by simp, by simp⟩
    | some futex =>
      obtain ⟨set, heq, hgood, hcounts⟩ := hwork
      exact ⟨some marked.length, set, by rw [FutexSet.withFutex_found hget, heq], hgood, hcounts⟩

theorem Consistent.futexWake (h : s.Consistent) (key : FutexKey) (nWaiters : ℕ)
    (bitset : Option (BitVec 32)) :
    ∃ count set, s.set.futexWake key nWaiters bitset = .ok (count, set) ∧
      Good s { s with set } ∧ s.CountsMarked count set := by
  obtain ⟨marked, after, rest, hf, hperm, hwoke⟩ :=
    wakeMatching_spec (bitset.getD (BitVec.allOnes 32)) ((s.set.queueOf key).length % 2 ^ 32)
      nWaiters s.set.waiters (s.set.queueOf key)
  obtain ⟨count, set, heq, hgood, hcounts⟩ := h.wake key
    (f := fun waiters futex => wakeMatching (bitset.getD (BitVec.allOnes 32))
      (futex.length % 2 ^ 32) nWaiters waiters futex) false hf hperm hwoke
  refine ⟨count.getD 0, set, ?_, hgood, hcounts⟩
  simp only [FutexSet.futexWake, heq, ok_bind, pure_eq]

theorem wakeFront_marks (n : ℕ) (waiters : ℕ → FutexWaiter) (futex : List ℕ) :
    ∃ marked after rest, wakeFront n waiters futex = (marked.length, after, rest) ∧
      (marked ++ rest).Perm futex ∧ Woke waiters marked after := by
  obtain ⟨after, heq, hwoke⟩ := wakeFront_spec n waiters futex
  refine ⟨futex.take n, after, futex.drop n, by rw [heq, length_take], ?_, hwoke⟩
  rw [take_append_drop]

theorem Consistent.wakeAt (h : s.Consistent) (key : FutexKey) (nWaiters : ℕ) :
    ∃ count set, s.set.wakeAt key nWaiters = .ok (count, set) ∧
      Good s { s with set } ∧ s.CountsMarked count set := by
  obtain ⟨marked, after, rest, hf, hperm, hwoke⟩ :=
    wakeFront_marks nWaiters s.set.waiters (s.set.queueOf key)
  obtain ⟨count, set, heq, hgood, hcounts⟩ := h.wake key false hf hperm hwoke
  refine ⟨count.getD 0, set, ?_, hgood, hcounts⟩
  unfold FutexSet.wakeAt
  rw [heq]
  rfl

/-- **The word of a dead task.**  One waiter is woken, or none. -/
theorem Consistent.futexDeath (h : s.Consistent) (key : FutexKey) (word : FutexSet.DeadWord) :
    ∃ set, s.set.handleFutexDeath key word = .ok set ∧ Good s { s with set } := by
  obtain ⟨marked, after, rest, hf, hperm, hwoke⟩ :=
    wakeFront_marks word.wakes s.set.waiters (s.set.queueOf key)
  obtain ⟨count, set, heq, hgood, -⟩ := h.wake key true hf hperm hwoke
  refine ⟨set, ?_, hgood⟩
  unfold FutexSet.handleFutexDeath
  rw [heq]
  rfl

/-- **A wait is refused or queued.** -/
theorem Consistent.wait (h : s.Consistent) (hfresh : s.stages waiter = .fresh) (key : FutexKey)
    (val : BitVec 32) (bitset : Option (BitVec 32)) (word : Except SysError (BitVec 32)) :
    ∃ t, s.run (.wait waiter key val bitset word) = .ok t ∧ Good s t := by
  have hplaced := consistent_iff.mp h
  have hout : ∀ key, waiter ∉ s.set.queueOf key := hplaced.not_mem (by rw [hfresh]; nofun)
  have hrefused : ∀ (error : SysError) (set : FutexSet),
      s.set.Worked key s.set.waiters (s.set.queueOf key) set →
      Good s ⟨set, update s.stages waiter (.returned (.error error))⟩ := by
    intro error set hworked
    refine ⟨consistent_iff.mpr ?_, fun hclean => hclean.worked hworked _⟩
    rw [hworked.queueOf, hworked.waiters, Function.update_eq_self]
    exact hplaced.settle hout fun hawake => by
      rw [h.fresh waiter hfresh] at hawake
      cases hawake
  cases word with
  | error error =>
    obtain ⟨set, heq, hworked⟩ := @FutexSet.withFutex_create s.set (Except SysError Unit) key
      (fun waiters futex => (.error error, waiters, futex)) _ _ _ rfl
    refine ⟨_, ?_, hrefused error set hworked⟩
    simp only [run, FutexSet.futexWait, heq, ok_bind, expect_some, pure_eq]
  | ok value =>
    by_cases hval : value = val
    · subst hval
      obtain ⟨set, heq, hworked⟩ := @FutexSet.withFutex_create s.set (Except SysError Unit) key
        (fun waiters futex => if value ≠ value then (.error .again, waiters, futex)
          else (.ok (), update waiters waiter
            { key, woken := false, bitset := bitset.getD (BitVec.allOnes 32) },
            futex ++ [waiter])) (.ok ()) _ _ (if_neg (not_not_intro rfl))
      refine ⟨⟨set, update s.stages waiter .waiting⟩, ?_, consistent_iff.mpr ?_,
        fun hclean => hclean.worked hworked _⟩
      · simp only [run, FutexSet.futexWait, heq, ok_bind, expect_some, pure_eq]
      · rw [hworked.queueOf, hworked.waiters]
        exact hplaced.enqueue hfresh _
    · obtain ⟨set, heq, hworked⟩ := @FutexSet.withFutex_create s.set (Except SysError Unit) key
        (fun waiters futex => if value ≠ val then (.error .again, waiters, futex)
          else (.ok (), update waiters waiter
            { key, woken := false, bitset := bitset.getD (BitVec.allOnes 32) },
            futex ++ [waiter])) (.error .again) _ _ (if_pos hval)
      refine ⟨_, ?_, hrefused .again set hworked⟩
      simp only [run, FutexSet.futexWait, heq, ok_bind, expect_some, pure_eq]

theorem Consistent.complete (h : s.Consistent) (hawake : (s.set.waiters waiter).woken = true) :
    Good s { s with stages := update s.stages waiter (.returned (.ok ())) } := by
  have hout : ∀ key, waiter ∉ s.set.queueOf key := fun key hw => by
    have := (h.queued key waiter hw).2.1
    rw [hawake] at this
    cases this
  exact ⟨consistent_iff.mpr ((consistent_iff.mp h).settle hout fun _ => rfl), id⟩

/-- **A wait that was interrupted or timed out.**  If it was woken it returns success;
if not, it is found in the queue of its key. -/
theorem Consistent.exception (h : s.Consistent) (hwait : s.stages waiter = .waiting)
    (error : SysError) :
    ∃ t, s.run (.exception waiter error) = .ok t ∧ Good s t := by
  have hplaced := consistent_iff.mp h
  cases hawake : (s.set.waiters waiter).woken with
  | true =>
    have heq : s.set.handleWaitException waiter = .ok (true, s.set) := by
      cases hget : s.set.getFutex (s.set.waiters waiter).key with
      | none => simp [FutexSet.handleWaitException, hget]
      | some futex => simp [FutexSet.handleWaitException, hget, hawake]
    refine ⟨_, ?_, h.complete hawake⟩
    simp only [run, heq, ok_bind, pure_eq, if_true]
  | false =>
    have hmem := h.member waiter hwait hawake
    obtain ⟨futex, hget⟩ : ∃ futex,
        s.set.getFutex (s.set.waiters waiter).key = some futex := by
      cases hget : s.set.getFutex (s.set.waiters waiter).key with
      | none =>
        rw [FutexSet.queueOf, hget] at hmem
        cases hmem
      | some futex => exact ⟨futex, rfl⟩
    have hqueue := FutexSet.queueOf_of_some hget
    rw [hqueue] at hmem
    obtain ⟨pos, hpos⟩ : ∃ pos, futex.findIdx? (fun other => other == waiter) = some pos := by
      cases hfind : futex.findIdx? (fun other => other == waiter) with
      | none =>
        rw [findIdx?_eq_none_iff] at hfind
        simpa using hfind waiter hmem
      | some pos => exact ⟨pos, rfl⟩
    obtain ⟨hlt, hat, -⟩ := findIdx?_eq_some_iff_getElem.mp hpos
    have hperm : (waiter :: futex.eraseIdx pos).Perm futex := by
      have hfound : futex[pos] = waiter := by simpa using hat
      have hcons := getElem_cons_eraseIdx_perm hlt
      rwa [hfound] at hcons
    obtain ⟨set, hset, hwaiters, hsetGet⟩ := FutexSet.dropIfEmpty
      (show (s.set.putFutex (some (futex.eraseIdx pos)) (s.set.waiters waiter).key).getFutex
        (s.set.waiters waiter).key = some (futex.eraseIdx pos) by
          rw [FutexSet.getFutex_putFutex, if_pos rfl])
    have hworked : s.set.Worked (s.set.waiters waiter).key s.set.waiters (futex.eraseIdx pos)
        set := by
      refine ⟨by rw [hwaiters, FutexSet.putFutex_waiters], fun other => ?_⟩
      rw [hsetGet, FutexSet.getFutex_putFutex]
      by_cases hother : other = (s.set.waiters waiter).key
      all_goals simp [hother]
    have heq : s.set.handleWaitException waiter = .ok (false, set) := by
      simp only [FutexSet.handleWaitException, hget, hawake, hpos, Bool.false_eq_true, if_false,
        hset, ok_bind, pure_eq]
    refine ⟨⟨set, update s.stages waiter (.returned (.error error))⟩, ?_,
      consistent_iff.mpr ?_, fun hclean => hclean.worked hworked _⟩
    · simp only [run, heq, ok_bind, pure_eq, Bool.false_eq_true, if_false]
    · rw [hworked.queueOf, hworked.waiters]
      exact hplaced.giveUp hawake (hqueue ▸ hperm)

end System

namespace FutexSet

variable {set : FutexSet} {key1 key2 : FutexKey} {nWake nRequeue : ℕ}
  {cmpVal : Option (BitVec 32)} {word : Except SysError (BitVec 32)}

/-- What a requeue that returns has done: it found no first queue, or it has taken the queue
apart into the woken, the moved and the rest. -/
inductive Split (set : FutexSet) (key1 key2 : FutexKey) (after : FutexSet) : Prop where
  | missing (hnone : set.getFutex key1 = none) (hwaiters : after.waiters = set.waiters)
      (hget : ∀ key, after.getFutex key =
        if key = key2 then some (set.queueOf key2) else set.getFutex key)
  | parts {marked some rest : List ℕ} {middle : ℕ → FutexWaiter}
      (hsome : set.getFutex key1 = Option.some (marked ++ (some ++ rest)))
      (hwoke : Woke set.waiters marked middle)
      (hkeys : Rekeyed middle some key2 after.waiters)
      (hget : ∀ key, after.getFutex key =
        if key = key2 then kept (set.queueOf key2 ++ some) else if key = key1 then kept rest
        else set.getFutex key)

theorem futexCmpRequeue_idle (hne : key1 ≠ key2) {futex1 : List ℕ}
    (hsome : set.getFutex key1 = some futex1) {error : SysError}
    (hidle : requeueQueues key2 nWake nRequeue cmpVal word set.waiters futex1
      (set.queueOf key2) = .ok (.error error, set.waiters, futex1, set.queueOf key2)) :
    ∃ after, set.futexCmpRequeue key1 key2 nWake nRequeue cmpVal word =
      .ok (.error error, after) ∧ set.Split key1 key2 after := by
  obtain ⟨after, heq, hwaiters, hget⟩ := with2Futex_present hne hsome hidle
  refine ⟨after, by rw [futexCmpRequeue, heq]; rfl, ?_⟩
  refine @Split.parts set key1 key2 after [] [] futex1 set.waiters ?_ (.nil _) ?_ ?_
  · exact hsome
  · rw [hwaiters]
    exact .nil _ key2
  · rwa [append_nil]

/-- **What a requeue can do**, for any keys, counts and word. -/
theorem futexCmpRequeue_cases :
    (key1 = key2 ∧ set.futexCmpRequeue key1 key2 nWake nRequeue cmpVal word =
        .error duplicateKeys) ∨
      set.futexCmpRequeue key1 key2 nWake nRequeue cmpVal word =
        .error ⟨"attempt to add with overflow"⟩ ∨
      ∃ ret after, set.futexCmpRequeue key1 key2 nWake nRequeue cmpVal word =
        .ok (ret, after) ∧ key1 ≠ key2 ∧ set.Split key1 key2 after := by
  by_cases hne : key1 = key2
  · subst hne
    exact .inl ⟨rfl, futexCmpRequeue_same key1⟩
  refine .inr ?_
  cases hget : set.getFutex key1 with
  | none =>
    obtain ⟨made, heq, hwaiters, hqueues⟩ :=
      @futexCmpRequeue_missing set key1 key2 nWake nRequeue cmpVal word hne hget
    exact .inr ⟨_, made, heq, hne, .missing hget hwaiters hqueues⟩
  | some futex1 =>
    cases hword : word with
    | error error =>
      obtain ⟨after, heq, hsplit⟩ := @futexCmpRequeue_idle set key1 key2 nWake nRequeue cmpVal
        (.error error) hne futex1 hget error rfl
      exact .inr ⟨_, after, heq, hne, hsplit⟩
    | ok value =>
      cases hcmp : cmpVal.any (fun val => decide (value ≠ val)) with
      | true =>
        obtain ⟨after, heq, hsplit⟩ := @futexCmpRequeue_idle set key1 key2 nWake nRequeue cmpVal
          (.ok value) hne futex1 hget .again (by simp only [requeueQueues, hcmp, if_true, pure_eq])
        exact .inr ⟨_, after, heq, hne, hsplit⟩
      | false =>
        have hmatches : ∀ val, cmpVal = some val → val = value := by
          rintro val rfl
          have hval : value = val := by simpa using hcmp
          exact hval.symm
        by_cases hsum : min nWake futex1.length +
            min (taken nRequeue) (futex1.drop nWake).length < 2 ^ 32
        · obtain ⟨after, heq, hqueues, middle, hwoke, hkeys⟩ :=
            (futexCmpRequeue_present hne hget rfl hmatches).1 hsum
          refine .inr ⟨_, after, heq, hne, .parts ?_ hwoke hkeys hqueues⟩
          rw [take_append_drop, take_append_drop]
          exact hget
        · exact .inl ((futexCmpRequeue_present hne hget rfl hmatches).2 hsum)

end FutexSet

namespace System

variable {s t : System}

/-- **A requeue keeps the waiters in place**, and leaves an empty queue exactly if it
found neither queue. -/
theorem Consistent.split (h : s.Consistent) (hne : key1 ≠ key2) {after : FutexSet}
    (hsplit : s.set.Split key1 key2 after) :
    Consistent { s with set := after } ∧ (s.Clean → (Clean { s with set := after } ↔
      s.set.existFutex key1 = true ∨ s.set.existFutex key2 = true)) := by
  have hplaced := consistent_iff.mp h
  cases hsplit with
  | missing hnone hwaiters hget =>
    have hqueues : after.queueOf = s.set.queueOf := by
      funext key
      by_cases hkey : key = key2
      all_goals simp [FutexSet.queueOf, hget, hkey]
    refine ⟨consistent_iff.mpr ?_, fun hclean => ⟨fun hafter => .inr ?_, fun hfound key => ?_⟩⟩
    · rw [hqueues, hwaiters]
      exact hplaced
    · -- the second queue was there: otherwise an empty one has been made
      cases hsecond : s.set.getFutex key2 with
      | none => exact absurd (by simp [hget, FutexSet.queueOf, hsecond]) (hafter key2)
      | some futex => simp [FutexSet.existFutex, hsecond]
    · have hsecond : s.set.existFutex key2 = true := hfound.resolve_left (by
        simp [FutexSet.existFutex, hnone])
      obtain ⟨futex, hfutex⟩ := Option.isSome_iff_exists.mp hsecond
      rw [hget]
      by_cases hkey : key = key2
      · rw [if_pos hkey, FutexSet.queueOf_of_some hfutex, ← hfutex]
        exact hclean key2
      · rw [if_neg hkey]
        exact hclean key
  | @parts marked moved rest middle hsome hwoke hkeys hget =>
    have hqueue := FutexSet.queueOf_of_some hsome
    have hqueues : after.queueOf = update
        (update s.set.queueOf key1 rest) key2 (s.set.queueOf key2 ++ moved) := by
      funext key
      by_cases h2 : key = key2
      · simp [FutexSet.queueOf, hget, h2]
      · by_cases h1 : key = key1
        · simp [FutexSet.queueOf, hget, h1, hne]
        · simp [FutexSet.queueOf, hget, h1, h2]
    refine ⟨consistent_iff.mpr ?_, fun hclean => iff_of_true (fun key => ?_)
      (.inl (by simp [FutexSet.existFutex, hsome]))⟩
    · -- first the woken waiters leave, then the moved ones change queues
      have hparts : (marked ++ (moved ++ rest)).Perm (s.set.queueOf key1) := by rw [hqueue]
      have hwoken := hplaced.wake hparts hwoke
      have hmoved := hwoken.move hne (update_self key1 _ _) hkeys
      rwa [Function.update_idem, update_of_ne (Ne.symm hne), ← hqueues] at hmoved
    · rw [hget]
      unfold FutexSet.kept
      by_cases h2 : key = key2
      · rw [if_pos h2]
        split <;> simp_all
      · rw [if_neg h2]
        by_cases h1 : key = key1
        · rw [if_pos h1]
          split <;> simp_all
        · rw [if_neg h1]
          exact hclean key

/-- **What an operation does.**  It panics only where `Remaining` says, keeps the waiters
in place, and keeps the maps clean exactly if it finds a queue. -/
theorem Consistent.operation (h : s.Consistent) {op : Op} (henabled : s.Enabled op) :
    (∃ panic, s.run op = .error panic ∧ Remaining op panic) ∨
      ∃ t, s.run op = .ok t ∧ t.Consistent ∧ (s.Clean → (t.Clean ↔ s.FindsQueue op)) := by
  have hgood : ∀ t, s.FindsQueue op → s.run op = .ok t → Good s t →
      ∃ t, s.run op = .ok t ∧ t.Consistent ∧ (s.Clean → (t.Clean ↔ s.FindsQueue op)) :=
    fun t hfinds hrun hgood => ⟨t, hrun, hgood.1, fun hclean =>
      iff_of_true (hgood.2 hclean) hfinds⟩
  cases op with
  | wait waiter key val bitset word =>
    obtain ⟨t, hrun, ht⟩ := h.wait henabled key val bitset word
    exact .inr (hgood t trivial hrun ht)
  | wake key nWaiters bitset =>
    obtain ⟨count, set, heq, ht, -⟩ := h.futexWake key nWaiters bitset
    exact .inr (hgood _ trivial (by rw [run, heq]; rfl) ht)
  | wakeAt key nWaiters =>
    obtain ⟨count, set, heq, ht, -⟩ := h.wakeAt key nWaiters
    exact .inr (hgood _ trivial (by rw [run, heq]; rfl) ht)
  | futexDeath key word =>
    obtain ⟨set, heq, ht⟩ := h.futexDeath key word
    exact .inr (hgood _ trivial (by rw [run, heq]; rfl) ht)
  | requeue key1 key2 nWake nRequeue cmpVal word =>
    rcases @FutexSet.futexCmpRequeue_cases s.set key1 key2 nWake nRequeue cmpVal word with
      ⟨hsame, heq⟩ | heq | ⟨ret, after, heq, hne, hsplit⟩
    · exact .inl ⟨_, by rw [run, heq]; rfl, .inl ⟨hsame, rfl⟩⟩
    · exact .inl ⟨_, by rw [run, heq]; rfl, .inr rfl⟩
    · obtain ⟨hconsistent, hclean⟩ := h.split hne hsplit
      exact .inr ⟨_, by rw [run, heq]; rfl, hconsistent, hclean⟩
  | exception waiter error =>
    obtain ⟨t, hrun, ht⟩ := h.exception henabled error
    exact .inr (hgood t trivial hrun ht)
  | complete waiter => exact .inr (hgood _ trivial rfl (h.complete henabled.2))

theorem Start.consistent (h : Start s) : s.Consistent := by
  have hempty : ∀ key, s.set.queueOf key = [] := fun key => by
    rw [FutexSet.queueOf, h.queues]
    rfl
  refine ⟨by simp [hempty], by simp [hempty], fun waiter hstage => ?_,
    fun waiter _ => h.woken waiter, fun waiter result hstage => ?_⟩
  all_goals
    rw [h.stages] at hstage
    cases hstage

theorem Start.clean (h : Start s) : s.Clean := fun key => by
  rw [h.queues]
  exact nofun

theorem Consistent.step (h : s.Consistent) {op : Op} (hstep : Step s op t) :
    t.Consistent ∧ (s.Clean → (t.Clean ↔ s.FindsQueue op)) := by
  obtain ⟨henabled, hrun⟩ := hstep
  rcases h.operation henabled with ⟨panic, hpanic, -⟩ | ⟨t', hrun', ht⟩
  · rw [hrun] at hpanic
    cases hpanic
  · rw [hrun] at hrun'
    cases hrun'
    exact ht

/-- **Where futex waiters are, in every run.**  From an empty set, after any sequence of operations:

* a waiter that waits and is not woken is in the queue of its key, once, and in no other; a woken
  one is in none; a wait that was woken returns success whatever ended its sleep;
* the count that a wake returns is the number of waiters it marked;
* the next operation does not panic, except for two borrows of one queue in a requeue of a word to
  itself, and a requeue count beyond 32 bits;
* no key has an empty queue in any state of the run exactly if every requeue of the run found the
  queue of one of its keys.

SOURCE: task/api/futex/futex.rs:286-454, 522-646, task/api/futex/mod.rs:311-402 -/
theorem futex_waiters_placed (hstart : Start s) {path : List (Op × System)}
    (hpath : Run.Path Step s path) :
    (last s path).Consistent ∧ (∀ key nWaiters bitset count set,
        (last s path).set.futexWake key nWaiters bitset = .ok (count, set) →
          (last s path).CountsMarked count set) ∧
      (∀ key nWaiters count set, (last s path).set.wakeAt key nWaiters = .ok (count, set) →
        (last s path).CountsMarked count set) ∧
      (∀ op panic, (last s path).Enabled op → (last s path).run op = .error panic →
        Remaining op panic) ∧
      ((∀ x ∈ path, x.2.Clean) ↔ Run.AllSteps FindsQueue s path) := by
  have hlast : (last s path).Consistent :=
    hpath.invariant (fun s op t (h : s.Consistent) hstep => (h.step hstep).1) hstart.consistent
  refine ⟨hlast, fun key nWaiters bitset count set heq => ?_, fun key nWaiters count set heq => ?_,
    fun op panic henabled hpanic => ?_, ?_⟩
  · obtain ⟨count', set', heq', -, hcounts⟩ := hlast.futexWake key nWaiters bitset
    rw [heq] at heq'
    cases heq'
    exact hcounts
  · obtain ⟨count', set', heq', -, hcounts⟩ := hlast.wakeAt key nWaiters
    rw [heq] at heq'
    cases heq'
    exact hcounts
  · rcases hlast.operation henabled with ⟨panic', hpanic', hremaining⟩ | ⟨t, hrun, -⟩
    · rw [hpanic] at hpanic'
      cases hpanic'
      exact hremaining
    · rw [hpanic] at hrun
      cases hrun
  · refine Run.Path.always_iff (I := fun s => s.Consistent ∧ s.Clean)
      (fun s op t hs hstep hfinds => ?_) (fun s op t hs hstep => ?_)
      ⟨hstart.consistent, hstart.clean⟩ hpath
    · obtain ⟨ht, hclean⟩ := hs.1.step hstep
      exact ⟨ht, (hclean hs.2).mpr hfinds⟩
    · exact (hs.1.step hstep).2 hs.2

def empty : System where
  set := ⟨fun _ => none, fun _ => none, fun _ => ⟨.left ⟨0, 0⟩, false, 0⟩⟩
  stages := fun _ => .fresh

theorem empty_start : Start empty := ⟨fun key => by cases key <;> rfl, fun _ => rfl, fun _ => rfl⟩

def firstWord : FutexKey := .left ⟨1, 0⟩

def secondWord : FutexKey := .left ⟨1, 1⟩

def waitFor (waiter : ℕ) : Op := .wait waiter firstWord 7 none (.ok 7)

/-- Three tasks wait; a requeue wakes one and moves one, which times out on the other word. -/
def requeueOne : List Op :=
  [waitFor 0, waitFor 1, waitFor 2, .requeue firstWord secondWord 1 1 none (.ok 7), .complete 0,
    .exception 1 .timeout]

theorem futex_waiters_placed_requeued : Run.Path Step empty (Run.follow run empty requeueOne) ∧
    (last empty (Run.follow run empty requeueOne)).Consistent ∧
    (∀ x ∈ Run.follow run empty requeueOne, x.2.Clean) ∧
    (Run.follow run empty requeueOne).map (fun x =>
        (x.2.set.getFutex firstWord, x.2.set.getFutex secondWord)) =
      [(some [0], none), (some [0, 1], none), (some [0, 1, 2], none), (some [2], some [1]),
        (some [2], some [1]), (some [2], none)] := by
  have hpath : Run.Path Step empty (Run.follow run empty requeueOne) :=
    ⟨⟨rfl, rfl⟩, ⟨rfl, rfl⟩, ⟨rfl, rfl⟩, ⟨trivial, rfl⟩, ⟨⟨rfl, rfl⟩, rfl⟩, ⟨rfl, rfl⟩, trivial⟩
  have hfinds : Run.AllSteps FindsQueue empty (Run.follow run empty requeueOne) :=
    ⟨trivial, trivial, trivial, .inl rfl, trivial, trivial, trivial⟩
  obtain ⟨hconsistent, -, -, -, hclean⟩ := futex_waiters_placed empty_start hpath
  exact ⟨hpath, hconsistent, hclean.mpr hfinds, rfl⟩

/-- A requeue between two words on which nobody waits. -/
def requeueNobody : Op := .requeue firstWord secondWord 1 1 none (.ok 0)

/-- The requeue leaves an empty queue on the second word. -/
theorem requeue_leaves_empty_queue : Start empty ∧ ∃ t, Step empty requeueNobody t ∧
    t.set.getFutex secondWord = some [] :=
  ⟨empty_start, _, ⟨trivial, rfl⟩, rfl⟩

end System

end Anemone.Futex
