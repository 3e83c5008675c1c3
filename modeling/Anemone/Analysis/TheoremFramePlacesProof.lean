import Anemone.Analysis.FrameMoves

/-!
# Every frame is in one place

The calls of all CPUs interleave between their locks.  Along every run,

* **the places hold the frames**, each once: a step moves frames between the backend, a
  magazine and the hands of one call, and `exec_moves` says that the sum stays;
* **the counter is right**: it goes down when an allocation becomes live and up when one is
  given back, by the same charge.  It cannot go below zero, as the frames that the call has in
  its hands and those of the live allocations are all different.
-/

namespace Anemone.Frame

open Checked Outcome List

variable {B : Type} {C : Config} {A : FrameAllocator B} {held : B → Finset ℕ} {all : Finset ℕ}

namespace System

def inHands (s : System B) : Multiset ℕ := (s.ops.map Op.frames).sum

def inUse (s : System B) : Multiset ℕ := (s.live.map fun a => (block a.1 a.2).val).sum

theorem places_sum (s : System B) :
    (s.places C held).sum = reach C held s.shared + s.inHands + s.inUse := by
  simp only [places, reach, inHands, inUse, Shared.inMagazines, cons_append, sum_cons,
    sum_append]
  abel

theorem card_inUse (s : System B) : Multiset.card s.inUse = s.charged := by
  simp only [inUse, charged]
  induction s.live with
  | nil => rfl
  | cons a live ih =>
    rw [map_cons, sum_cons, Multiset.card_add, ih, map_cons, sum_cons]
    exact congrArg (· + _) (card_block a.1 a.2)

structure Invariant (C : Config) (held : B → Finset ℕ) (all : Finset ℕ) (s : System B) :
    Prop where
  holds : Places.Holds (s.places C held) all
  bounded : ∀ cpu < C.cpuCount, (s.shared.magazines cpu).length ≤ C.capacity
  total : s.shared.totalPages = all.card
  word : all.card < Checked.wordSize
  counted : s.shared.freePages + s.charged = s.shared.totalPages
  ready : ∀ op ∈ s.ops, op.Ready C
  charges : ∀ a ∈ s.live, (allocationCharge a.2).isSome = true

variable {op : Op} {start npages : ℕ}

namespace Invariant

variable {s : System B}

theorem sum (h : Invariant C held all s) :
    reach C held s.shared + s.inHands + s.inUse = all.val :=
  (places_sum s).symm.trans h.holds

theorem of_start (h : Start held all s) : Invariant C held all s := by
  refine ⟨?_, ?_, h.total, h.counts, ?_, ?_, ?_⟩
  · rw [Places.Holds, places_sum, reach, h.backend]
    simp [Shared.inMagazines, h.magazines, inHands, inUse, h.ops, h.live]
  · intro cpu _
    rw [h.magazines]
    exact Nat.zero_le _
  · rw [charged, h.live, h.free, h.total]
    rfl
  · simp [h.ops]
  · simp [h.live]

variable {before after : List Op} {shared : Shared B}

/-- what a call under way has in its hands is next to all other places. -/
theorem sum_at (h : Invariant C held all s) (hop : s.ops = before ++ op :: after) :
    reach C held s.shared + op.frames +
      ((before.map Op.frames).sum + (after.map Op.frames).sum + s.inUse) = all.val := by
  rw [← h.sum, inHands, hop, map_append, sum_append, map_cons, sum_cons]
  abel

theorem run (hA : Honest A held) (h : Invariant C held all s) (hop : s.ops = before ++ op :: after)
    {cpu : ℕ} (hcpu : cpu < C.cpuCount) :
    ∃ outcome shared, exec C A cpu s.shared op = .ok (outcome, shared) ∧
      Moves C held s.shared op outcome shared := by
  have hsum := h.sum_at hop
  have hnodup : (reach C held s.shared + op.frames).Nodup := by
    refine Multiset.nodup_of_le ?_ all.nodup
    rw [← hsum]
    exact Multiset.le_add_right _ _
  have hmem : op ∈ s.ops := by
    rw [hop]
    exact mem_append_right _ mem_cons_self
  refine exec_moves hA h.bounded hcpu (h.ready op hmem) hnodup ?_
  rintro start npages rfl
  have hcard := congrArg Multiset.card hsum
  simp only [Multiset.card_add, Op.frames, Finset.card_val, card_block, card_inUse] at hcard
  have hcounted := h.counted
  have htotal := h.total
  omega

/-- **every live allocation can be given back.** -/
theorem dealloc_returns (h : Invariant C held all s) {before after : List (ℕ × ℕ)}
    (hlive : s.live = before ++ (start, npages) :: after) :
    dealloc s.shared start npages =
      .ok (if npages = 1 then .releaseLocal start else .deallocFolio start npages,
        { s.shared with
          freePages := s.shared.freePages + (allocationCharge npages).getD 0 }) := by
  have hmem : (start, npages) ∈ s.live := by
    rw [hlive]
    exact mem_append_right _ mem_cons_self
  obtain ⟨charge, hcharge⟩ := Option.isSome_iff_exists.mp (h.charges _ hmem)
  have hcounted := h.counted
  have htotal := h.total
  have hword := h.word
  rw [charged, hlive, map_append, map_cons, sum_append, sum_cons, hcharge,
    Option.getD_some] at hcounted
  have hle : s.shared.freePages + charge < wordSize ∧
      s.shared.freePages + charge ≤ s.shared.totalPages := by omega
  simp only [dealloc, hcharge, expect_some, ok_bind, FrameAccounting.release,
    if_pos hle, pure_eq, Option.getD_some]

theorem after_call (h : Invariant C held all s) (hop : begins op = true) :
    Invariant C held all { s with ops := op :: s.ops } := by
  have hbegins : op.frames = 0 ∧ op.Ready C := by
    cases op <;> simp_all [begins, Op.frames, Op.Ready, C.cpus_pos]
  refine ⟨?_, h.bounded, h.total, h.word, h.counted, ?_, h.charges⟩
  · rw [Places.Holds, places_sum, ← h.sum]
    simp [inHands, inUse, hbegins.1]
  · exact forall_mem_cons.mpr ⟨hbegins.2, h.ready⟩

theorem after_run (h : Invariant C held all s) (hop : s.ops = before ++ op :: after)
    {outcome : Outcome} (hmoves : Moves C held s.shared op outcome shared) :
    Invariant C held all (s.proceed before after shared outcome) := by
  have hsum := h.sum_at hop
  rw [← hmoves.sum] at hsum
  have hothers : ∀ op' ∈ before ++ after, op'.Ready C := by
    intro op' hmem
    refine h.ready op' ?_
    rw [hop]
    exact ((sublist_cons_self _ _).append_left _).subset hmem
  have htotal : shared.totalPages = all.card := hmoves.total.trans h.total
  have hcounted := h.counted
  rw [← hmoves.counted, ← hmoves.total] at hcounted
  cases outcome with
  | next op' =>
    refine ⟨?_, hmoves.bounded, htotal, h.word, hcounted, ?_, h.charges⟩
    · rw [Places.Holds, places_sum, ← hsum]
      simp only [proceed, inHands, inUse, map_append, sum_append, map_cons,
        sum_cons, frames]
      abel
    · intro x hx
      rcases mem_append.mp hx with hx | hx
      · exact hothers x (mem_append_left _ hx)
      · rcases mem_cons.mp hx with rfl | hx
        · exact hmoves.ready
        · exact hothers x (mem_append_right _ hx)
  | returns start npages =>
    refine ⟨?_, hmoves.bounded, htotal, h.word, ?_, hothers, ?_⟩
    · rw [Places.Holds, places_sum, ← hsum]
      simp only [proceed, inHands, inUse, map_append, sum_append, map_cons,
        sum_cons, frames]
      abel
    · simp only [charged, charge] at hcounted
      simp only [proceed, charged, map_cons, sum_cons]
      omega
    · exact forall_mem_cons.mpr ⟨hmoves.ready, h.charges⟩
  | done =>
    refine ⟨?_, hmoves.bounded, htotal, h.word, hcounted, hothers, h.charges⟩
    rw [Places.Holds, places_sum, ← hsum]
    simp only [proceed, inHands, inUse, map_append, sum_append, frames]
    abel

theorem after_dealloc (h : Invariant C held all s) {before after : List (ℕ × ℕ)}
    (hlive : s.live = before ++ (start, npages) :: after)
    (hrun : dealloc s.shared start npages = .ok (op, shared)) :
    Invariant C held all ⟨shared, op :: s.ops, before ++ after⟩ := by
  rw [h.dealloc_returns hlive] at hrun
  obtain ⟨rfl, rfl⟩ := Prod.mk.inj (Except.ok.inj hrun)
  have hframes : (if npages = 1 then Op.releaseLocal start else .deallocFolio start npages).frames
      = (block start npages).val := by
    split
    · subst npages
      rw [block_one]
      rfl
    · rfl
  refine ⟨?_, h.bounded, h.total, h.word, ?_, ?_, ?_⟩
  · rw [Places.Holds, places_sum, ← h.sum]
    simp only [inHands, inUse, hlive, map_append, sum_append, map_cons,
      sum_cons, hframes]
    have hreach : reach C held { s.shared with
        freePages := s.shared.freePages + (allocationCharge npages).getD 0 } =
      reach C held s.shared := rfl
    rw [hreach]
    abel
  · have hcounted := h.counted
    rw [charged, hlive] at hcounted
    simp only [charged, map_append, sum_append, map_cons, sum_cons] at hcounted ⊢
    omega
  · intro op' hmem
    rcases mem_cons.mp hmem with rfl | hmem
    · split
      all_goals trivial
    · exact h.ready op' hmem
  · intro a ha
    refine h.charges a ?_
    rw [hlive]
    exact ((sublist_cons_self _ _).append_left _).subset ha

theorem step (hA : Honest A held) {t : System B} (h : Invariant C held all s)
    (hstep : Step C A s t) : Invariant C held all t := by
  cases hstep with
  | call hop => exact h.after_call hop
  | run at_op hcpu hrun =>
    obtain ⟨outcome, shared, hrun', hmoves⟩ := h.run hA at_op hcpu
    obtain ⟨rfl, rfl⟩ := Prod.mk.inj (Except.ok.inj (hrun'.symm.trans hrun))
    exact h.after_run at_op hmoves
  | dealloc owned hrun => exact h.after_dealloc owned hrun

theorem sound (hA : Honest A held) (h : Invariant C held all s) : Sound C A held all s := by
  have hmagazine : ∀ cpu < C.cpuCount,
      (s.shared.magazines cpu : Multiset ℕ) ∈ s.places C held := by
    intro cpu hcpu
    simp only [places, cons_append, mem_cons, mem_append, mem_map,
      mem_range]
    exact .inr (.inl (.inl ⟨cpu, hcpu, rfl⟩))
  refine ⟨fun _ => h.holds.existsUnique, fun _ hp _ => h.holds.mem_stock hp, h.bounded, ?_,
    h.total, h.counted, ?_, ?_⟩
  · intro cpu hcpu
    exact Multiset.coe_nodup.mp (h.holds.nodup_of_mem (hmagazine cpu hcpu))
  · intro op hop cpu hcpu
    obtain ⟨before, after, hsplit⟩ := append_of_mem hop
    obtain ⟨outcome, shared, hrun, -⟩ := h.run hA hsplit hcpu
    exact ⟨_, hrun⟩
  · intro a ha
    obtain ⟨before, after, hsplit⟩ := append_of_mem ha
    exact ⟨_, h.dealloc_returns hsplit⟩

end Invariant

/-- **Every frame is in exactly one place.**  Over a backend that hands out no frame twice, and
whatever the calls of all CPUs do between their locks: every frame is in the backend, in one
magazine, in the hands of one call or in one live allocation; a magazine has at most
`FRAME_MAGAZINE_CAPACITY` frames and none twice; the free pages are the total minus the
charges of the live allocations; and no assertion of `alloc`, `alloc_one`, `dealloc`, `sweep`
and of the accounting fails.

SOURCE: mm/frame/allocator.rs:194-345, mm/frame/magazine.rs:7-126 -/
theorem frames_in_one_place (hA : Honest A held) {s t : System B} (hstart : Start held all s)
    (hrun : Run.Reaches (Step C A) s t) : Sound C A held all t :=
  (Run.Reaches.invariant (fun _ _ h hstep => h.step hA hstep) hrun
    (Invariant.of_start hstart)).sound hA

def lowestFirst : FrameAllocator (Finset ℕ) where
  alloc b npages :=
    if npages ≠ 1 then (.error .admission, b)
    else
      match b.min with
      | none => (.error .unavailable, b)
      | some frame => (.ok frame, b.erase frame)
  dealloc b start npages := b ∪ block start npages

theorem lowestFirst_honest : Honest lowestFirst id := by
  refine ⟨?_, ?_, ?_, fun _ _ _ _ => rfl⟩
  · intro b npages start b' halloc
    simp only [lowestFirst] at halloc
    split at halloc
    · cases halloc
    · rename_i hone
      obtain rfl : npages = 1 := not_not.mp hone
      split at halloc
      · cases halloc
      · rename_i frame hmin
        obtain ⟨hframe, rfl⟩ := Prod.mk.inj halloc
        obtain rfl : frame = start := Except.ok.inj hframe
        have hmem : frame ∈ b := Finset.mem_of_min hmin
        rw [block_one]
        exact ⟨by simp, Finset.singleton_subset_iff.mpr hmem, Finset.erase_eq b frame⟩
  · intro b npages e b' halloc
    simp only [lowestFirst] at halloc
    split at halloc
    · cases halloc
      rfl
    · split at halloc
      · cases halloc
        rfl
      · cases halloc
  · intro b b' halloc
    simp only [lowestFirst] at halloc
    split at halloc
    · contradiction
    · split at halloc <;> cases halloc

def smallConfig : Config := ⟨2, 2, 1, by decide, by decide, by decide⟩

def smallSystem : System (Finset ℕ) :=
  ⟨⟨{0, 1, 2}, fun _ => [], 3, 3⟩, [], []⟩

theorem step_next {shared shared' : Shared (Finset ℕ)} {op op' : Op}
    (h : exec smallConfig lowestFirst 0 shared op = .ok (.next op', shared')) :
    Step smallConfig lowestFirst ⟨shared, [op], []⟩ ⟨shared', [op'], []⟩ :=
  @Step.run _ smallConfig lowestFirst ⟨shared, [op], []⟩ [] [] op 0 (.next op') shared' rfl
    Nat.one_pos h

theorem step_returns {shared shared' : Shared (Finset ℕ)}
    (h : exec smallConfig lowestFirst 0 shared op = .ok (.returns start npages, shared')) :
    Step smallConfig lowestFirst ⟨shared, [op], []⟩ ⟨shared', [], [(start, npages)]⟩ :=
  @Step.run _ smallConfig lowestFirst ⟨shared, [op], []⟩ [] [] op 0 (.returns start npages)
    shared' rfl Nat.one_pos h

/-- A first allocation takes a batch of two frames and leaves one of them in the magazine. -/
theorem frames_in_one_place_sample : ∃ t : System (Finset ℕ),
    Run.Reaches (Step smallConfig lowestFirst) smallSystem t ∧ t.live = [(1, 1)] ∧
      t.shared.magazines 0 = [0] ∧ Sound smallConfig lowestFirst id {0, 1, 2} t := by
  let filled : Shared (Finset ℕ) := smallSystem.shared
  let taken : Shared (Finset ℕ) := { filled with backend := {2} }
  have hcall : Step smallConfig lowestFirst smallSystem ⟨filled, [.localPop], []⟩ := .call rfl
  have hpop : Step smallConfig lowestFirst ⟨filled, [.localPop], []⟩
      ⟨filled, [.takeBatch false], []⟩ := step_next rfl
  have htake : Step smallConfig lowestFirst ⟨filled, [.takeBatch false], []⟩
      ⟨taken, [.publishLocal 1 [0]], []⟩ := step_next rfl
  have hpublish : Step smallConfig lowestFirst ⟨taken, [.publishLocal 1 [0]], []⟩
      ⟨taken.setMagazine 0 [0], [.returnRest 1 []], []⟩ := step_next rfl
  have hrest : Step smallConfig lowestFirst ⟨taken.setMagazine 0 [0], [.returnRest 1 []], []⟩
      ⟨taken.setMagazine 0 [0], [.claim 1 1], []⟩ := step_next rfl
  have hclaim : Step smallConfig lowestFirst ⟨taken.setMagazine 0 [0], [.claim 1 1], []⟩
      ⟨{ taken.setMagazine 0 [0] with freePages := 2 }, [], [(1, 1)]⟩ := step_returns rfl
  have hreach := Relation.ReflTransGen.refl (r := Step smallConfig lowestFirst)
    |>.tail hcall |>.tail hpop |>.tail htake |>.tail hpublish |>.tail hrest |>.tail hclaim
  refine ⟨_, hreach, rfl, rfl, frames_in_one_place lowestFirst_honest ?_ hreach⟩
  exact ⟨rfl, fun _ => rfl, rfl, rfl, by decide, rfl, rfl⟩

end System

end Anemone.Frame
