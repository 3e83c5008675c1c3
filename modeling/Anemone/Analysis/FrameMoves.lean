import Anemone.Interface.FramePlaces

/-!
# One step of a call

What a call does under one lock moves frames between the backend, the magazines and its own
hands, and loses none (`exec_moves`).  Each loop of the source has a lemma with the frames
before and after as one sum; its assertions hold since no frame is in that sum twice.
-/

namespace Anemone.Frame

open Checked (ok_bind pure_eq assert_of bind_eq_ok)
open Magazine List

variable {B : Type} {C : Config} {A : FrameAllocator B} {held : B → Finset ℕ} {frame : ℕ}

@[simp] theorem allocationCharge_one : allocationCharge 1 = some 1 := by
  simp [allocationCharge]

@[simp] theorem block_one (frame : ℕ) : block frame 1 = {frame} := by
  simp [block]

theorem card_block (start npages : ℕ) :
    (block start npages).card = (allocationCharge npages).getD 0 := by
  simp [block]

theorem push_batch {N : ℕ} {frames : List ℕ} (hlen : frames.length < N) (hnew : frame ∉ frames) :
    FrameBatch.push N frames frame = .ok (frame :: frames) := by
  rw [FrameBatch.push, assert_of _ hlen, ok_bind, assert_of _ hnew]
  rfl

theorem push_magazine {frames : List ℕ} (hlen : frames.length < C.capacity) (hnew : frame ∉ frames) :
    push C frames frame = .ok (frame :: frames) := by
  rw [push, assert_of _ hlen, ok_bind, assert_of _ hnew]
  rfl

/-- frames move from the batch to the magazine until it is full. -/
theorem refillLoop_moves (frames batch : List ℕ) (hlen : frames.length ≤ C.capacity)
    (hnodup : (frames ++ batch).Nodup) :
    ∃ frames' batch', refillLoop C frames batch = .ok (frames', batch') ∧
      frames'.length ≤ C.capacity ∧
      (frames' : Multiset ℕ) + batch' = (frames : Multiset ℕ) + batch := by
  induction batch generalizing frames with
  | nil => exact ⟨frames, [], rfl, hlen, rfl⟩
  | cons frame batch ih =>
    rw [refillLoop]
    split
    · rename_i hroom
      have hmoved := perm_middle.nodup_iff.mp hnodup
      have hnew : frame ∉ frames :=
        fun hmem => (nodup_cons.mp hmoved).1 (mem_append_left _ hmem)
      obtain ⟨frames', batch', hrun, hlen', hsum⟩ := ih (frame :: frames) hroom hmoved
      refine ⟨frames', batch', ?_, hlen', ?_⟩
      · rw [push_magazine hroom hnew, ok_bind, hrun]
      · rw [hsum, ← Multiset.cons_coe, ← Multiset.cons_coe, Multiset.cons_add, Multiset.add_cons]
    · exact ⟨frames, frame :: batch, rfl, hlen, rfl⟩

theorem refill_moves {frames batch : List ℕ} (hlen : frames.length ≤ C.capacity)
    (hnodup : (frames ++ batch).Nodup) :
    ∃ frames' batch', refill C frames batch = .ok (frames', batch') ∧
      frames'.length ≤ C.capacity ∧
      (frames' : Multiset ℕ) + batch' = (frames : Multiset ℕ) + batch := by
  obtain ⟨frames', batch', hrun, hlen', hsum⟩ := refillLoop_moves frames batch hlen hnodup
  refine ⟨frames', batch', ?_, hlen', hsum⟩
  rw [refill, assert_of _ hlen, ok_bind, hrun, ok_bind]
  simp only
  rw [assert_of _ hlen']
  rfl

theorem drainLoop_moves (rounds : ℕ) (frames drain : List ℕ) (hrounds : rounds ≤ frames.length)
    (hroom : drain.length + rounds ≤ C.batch) (hnodup : (frames ++ drain).Nodup) :
    ∃ frames' drain', drainLoop C rounds frames drain = .ok (frames', drain') ∧
      frames'.length + rounds = frames.length ∧
      (frames' : Multiset ℕ) + drain' = (frames : Multiset ℕ) + drain := by
  induction rounds generalizing frames drain with
  | zero => exact ⟨frames, drain, rfl, rfl, rfl⟩
  | succ rounds ih =>
    cases frames with
    | nil => exact absurd hrounds (by simp)
    | cons frame frames =>
      rw [cons_append, nodup_cons] at hnodup
      have hnew : frame ∉ drain := fun hmem => hnodup.1 (mem_append_right _ hmem)
      have hmoved : (frames ++ frame :: drain).Nodup :=
        perm_middle.nodup_iff.mpr (nodup_cons.mpr hnodup)
      rw [length_cons] at hrounds
      obtain ⟨frames', drain', hrun, hlen, hsum⟩ := ih frames (frame :: drain)
        (by omega) (by rw [length_cons]; omega) hmoved
      refine ⟨frames', drain', ?_, by rw [length_cons]; omega, ?_⟩
      · rw [drainLoop, push_batch (by omega) hnew, ok_bind, hrun]
      · rw [hsum, ← Multiset.cons_coe, ← Multiset.cons_coe, Multiset.cons_add, Multiset.add_cons]

/-- **a frame enters a magazine**, which makes room first if it is full. -/
theorem release_moves {frames : List ℕ} (hlen : frames.length ≤ C.capacity)
    (hnodup : (frame :: frames).Nodup) :
    ∃ frames' drain, release C frames frame = .ok (frames', drain) ∧
      frames'.length ≤ C.capacity ∧
      (frames' : Multiset ℕ) + drain = (frames : Multiset ℕ) + {frame} := by
  obtain ⟨hnew, hframes⟩ := nodup_cons.mp hnodup
  have hbatch := C.batch_pos
  have hroom : ∃ frames₁ drain,
      (if frames.length = C.capacity then drainLoop C C.batch frames []
        else pure (frames, [])) = (.ok (frames₁, drain) : Checked (List ℕ × List ℕ)) ∧
      frames₁.length < C.capacity ∧ frame ∉ frames₁ ∧
      (frames₁ : Multiset ℕ) + drain = frames := by
    split
    · rename_i hfull
      obtain ⟨frames₁, drain, hrun, hlen₁, hsum⟩ := drainLoop_moves (C := C) C.batch frames []
        (hfull.symm ▸ C.batch_le) (by simp) (by simpa using hframes)
      rw [Multiset.coe_nil, Multiset.add_zero] at hsum
      refine ⟨frames₁, drain, hrun, by omega, fun hmem => hnew ?_, hsum⟩
      rw [← Multiset.mem_coe, ← hsum]
      exact Multiset.mem_add.mpr (.inl hmem)
    · exact ⟨frames, [], rfl, by omega, hnew, by simp⟩
  obtain ⟨frames₁, drain, hdrain, hlen₁, hnew₁, hsum⟩ := hroom
  refine ⟨frame :: frames₁, drain, ?_, hlen₁, ?_⟩
  · refine bind_eq_ok.mpr ⟨(), assert_of _ hlen, ?_⟩
    have hrest : ∀ x : List ℕ × List ℕ, x = (frames₁, drain) →
        (do
          let frames ← push C x.1 frame
          Checked.assert (frames.length ≤ C.capacity)
            "assertion failed: self.len <= FRAME_MAGAZINE_CAPACITY"
          pure (frames, x.2) : Checked (List ℕ × List ℕ)) = .ok (frame :: frames₁, drain) := by
      rintro _ rfl
      have hlen₂ : (frame :: frames₁).length ≤ C.capacity := hlen₁
      rw [push_magazine hlen₁ hnew₁, ok_bind, assert_of _ hlen₂]
      rfl
    split at hdrain
    · rename_i hfull
      rw [if_pos hfull]
      exact bind_eq_ok.mpr ⟨_, hdrain, hrest _ rfl⟩
    · rename_i hfull
      rw [if_neg hfull]
      exact bind_eq_ok.mpr ⟨_, hdrain, hrest _ rfl⟩
  · rw [← hsum, ← Multiset.cons_coe, ← Multiset.singleton_add]
    abel

theorem takeAll_moves (frames batch : List ℕ) (hlen : batch.length + frames.length ≤ C.capacity)
    (hnodup : (frames ++ batch).Nodup) :
    ∃ batch', takeAll C frames batch = .ok batch' ∧
      (batch' : Multiset ℕ) = (frames : Multiset ℕ) + batch := by
  induction frames generalizing batch with
  | nil => exact ⟨batch, rfl, by simp⟩
  | cons frame frames ih =>
    rw [length_cons] at hlen
    rw [cons_append, nodup_cons] at hnodup
    have hnew : frame ∉ batch := fun hmem => hnodup.1 (mem_append_right _ hmem)
    obtain ⟨batch', hrun, hsum⟩ := ih (frame :: batch)
      (by rw [length_cons]; omega)
      (perm_middle.nodup_iff.mpr (nodup_cons.mpr hnodup))
    refine ⟨batch', ?_, ?_⟩
    · rw [takeAll, push_batch (by omega) hnew, ok_bind, hrun]
    · rw [hsum, ← Multiset.cons_coe, ← Multiset.cons_coe, Multiset.cons_add, Multiset.add_cons]

theorem sdiff_val_add {s t : Finset ℕ} (h : t ⊆ s) : (s \ t).val + t.val = s.val := by
  rw [Finset.sdiff_val, tsub_add_cancel_of_le (Finset.val_le_iff.mpr h)]

theorem union_val {s t : Finset ℕ} (h : Disjoint s t) : (s ∪ t).val = s.val + t.val := by
  rw [← Finset.disjUnion_eq_union s t h]
  rfl

theorem takeOrder0Batch_moves (hA : Honest A held) (rounds : ℕ) (b : B) (batch : List ℕ)
    (hroom : batch.length + rounds ≤ C.batch)
    (hnodup : ((held b).val + (batch : Multiset ℕ)).Nodup) :
    ∃ batch' b', takeOrder0Batch C A rounds b batch = .ok (batch', b') ∧
      (held b').val + (batch' : Multiset ℕ) = (held b).val + batch := by
  induction rounds generalizing b batch with
  | zero => exact ⟨batch, b, rfl, rfl⟩
  | succ rounds ih =>
    rw [takeOrder0Batch]
    split
    · rename_i frame b₁ halloc
      obtain ⟨-, hsub, hheld⟩ := hA.alloc_ok _ _ _ _ halloc
      rw [block_one] at hsub hheld
      have hsplit : (held b₁).val + {frame} = (held b).val := by
        rw [hheld]
        exact sdiff_val_add hsub
      have hnew : frame ∉ batch := fun hmem =>
        Multiset.disjoint_left.mp (Multiset.nodup_add.mp hnodup).2.2
          (Finset.singleton_subset_iff.mp hsub) hmem
      have hsum : (held b₁).val + ((frame :: batch : List ℕ) : Multiset ℕ) =
          (held b).val + batch := by
        rw [← hsplit, ← Multiset.cons_coe, ← Multiset.singleton_add, Multiset.add_assoc]
      obtain ⟨batch', b', hrun, hsum'⟩ := ih b₁ (frame :: batch)
        (by rw [length_cons]; omega) (hsum ▸ hnodup)
      refine ⟨batch', b', ?_, hsum'.trans hsum⟩
      rw [push_batch (by omega) hnew, ok_bind, hrun]
    · rename_i b₁ halloc
      refine ⟨batch, b₁, rfl, ?_⟩
      rw [hA.alloc_error _ _ _ _ halloc]
    · rename_i b₁ halloc
      exact absurd halloc (hA.admits_one _ _)

theorem returnToBuddy_moves (hA : Honest A held) (b : B) {batch : List ℕ}
    (hnodup : ((held b).val + (batch : Multiset ℕ)).Nodup) :
    (held (returnToBuddy A b batch)).val = (held b).val + batch := by
  induction batch generalizing b with
  | nil => simp [returnToBuddy]
  | cons frame batch ih =>
    have hmem : frame ∉ held b := fun hmem =>
      Multiset.disjoint_left.mp (Multiset.nodup_add.mp hnodup).2.2 hmem mem_cons_self
    have hdisjoint : Disjoint (held b) (block frame 1) := by
      rw [block_one, Finset.disjoint_singleton_right]
      exact hmem
    have hheld : (held (A.dealloc b frame 1)).val = (held b).val + {frame} := by
      rw [hA.dealloc _ _ _ hdisjoint, union_val hdisjoint, block_one]
      rfl
    have hsum : (held (A.dealloc b frame 1)).val + (batch : Multiset ℕ) =
        (held b).val + ((frame :: batch : List ℕ) : Multiset ℕ) := by
      rw [hheld, ← Multiset.cons_coe, ← Multiset.singleton_add, Multiset.add_assoc]
    have hrest := ih (A.dealloc b frame 1) (hsum ▸ hnodup)
    rw [returnToBuddy, foldl_cons]
    exact hrest.trans hsum

def Op.Ready (C : Config) : Op → Prop
  | .claim _ npages => (allocationCharge npages).isSome = true
  | .sweep cpu _ => cpu < C.cpuCount
  | _ => True

def Outcome.frames : Outcome → Multiset ℕ
  | .next op => op.frames
  | .returns start npages => (block start npages).val
  | .done => 0

def Outcome.Ready (C : Config) : Outcome → Prop
  | .next op => op.Ready C
  | .returns _ npages => (allocationCharge npages).isSome = true
  | .done => True

def Outcome.charge : Outcome → ℕ
  | .returns _ npages => (allocationCharge npages).getD 0
  | _ => 0

def reach (C : Config) (held : B → Finset ℕ) (s : Shared B) : Multiset ℕ :=
  (held s.backend).val + s.inMagazines C

/-- A step loses no frame and leaves the magazines bounded and the counter right. -/
structure Moves (C : Config) (held : B → Finset ℕ) (s : Shared B) (op : Op) (outcome : Outcome)
    (s' : Shared B) : Prop where
  sum : reach C held s' + outcome.frames = reach C held s + op.frames
  bounded : ∀ cpu < C.cpuCount, (s'.magazines cpu).length ≤ C.capacity
  ready : outcome.Ready C
  total : s'.totalPages = s.totalPages
  counted : s'.freePages + outcome.charge = s.freePages

theorem resume_spec (cpu : ℕ) (next : Retry) :
    (resume C cpu next).frames = 0 ∧ (resume C cpu next).Ready C ∧
      (resume C cpu next).charge = 0 := by
  unfold resume
  split
  · exact ⟨rfl, by assumption, rfl⟩
  · cases next with
    | order0 | folio | finish => exact ⟨rfl, trivial, rfl⟩

theorem retry_spec (retried : Bool) (next : Retry) :
    (if retried then Outcome.done else resume C 0 next).frames = 0 ∧
      (if retried then Outcome.done else resume C 0 next).Ready C ∧
      (if retried then Outcome.done else resume C 0 next).charge = 0 := by
  cases retried with
  | true => exact ⟨rfl, trivial, rfl⟩
  | false => exact resume_spec 0 next

theorem bounded_set {s : Shared B} (hbounded : ∀ cpu < C.cpuCount,
    (s.magazines cpu).length ≤ C.capacity) (cpu : ℕ) {frames : List ℕ}
    (hlen : frames.length ≤ C.capacity) :
    ∀ c < C.cpuCount, ((s.setMagazine cpu frames).magazines c).length ≤ C.capacity := by
  intro c hc
  by_cases hcpu : c = cpu
  · subst hcpu
    simpa [Shared.setMagazine] using hlen
  · simpa [Shared.setMagazine, hcpu] using hbounded c hc

section Steps

variable {s : Shared B} {cpu : ℕ} (hA : Honest A held)
  (hbounded : ∀ cpu < C.cpuCount, (s.magazines cpu).length ≤ C.capacity) {op : Op}
  {outcome : Outcome}

include hbounded in
theorem moves_magazine {i : ℕ} (hi : i < C.cpuCount) {frames : List ℕ}
    (hlen : frames.length ≤ C.capacity)
    (hsum : (frames : Multiset ℕ) + outcome.frames = (s.magazines i : Multiset ℕ) + op.frames)
    (hready : outcome.Ready C) (hcharge : outcome.charge = 0) :
    Moves C held s op outcome (s.setMagazine i frames) := by
  refine ⟨?_, bounded_set hbounded i hlen, hready, rfl, by rw [hcharge]; rfl⟩
  have hupdate : ∀ c ∈ range C.cpuCount, ((s.setMagazine i frames).magazines c : Multiset ℕ) =
      Function.update (fun c => (s.magazines c : Multiset ℕ)) i frames c :=
    fun c _ => Function.apply_update (fun _ (xs : List ℕ) => (xs : Multiset ℕ)) _ _ _ _
  rw [reach, reach, Multiset.add_assoc, Multiset.add_assoc, Shared.inMagazines,
    map_congr_left hupdate]
  exact congrArg _ (Places.sum_map_move nodup_range (mem_range.mpr hi) hsum)

include hbounded in
theorem moves_backend {b : B}
    (hsum : (held b).val + outcome.frames = (held s.backend).val + op.frames)
    (hready : outcome.Ready C) (hcharge : outcome.charge = 0) :
    Moves C held s op outcome { s with backend := b } := by
  refine ⟨?_, hbounded, hready, rfl, by rw [hcharge]; rfl⟩
  have hsame : ({ s with backend := b } : Shared B).inMagazines C = s.inMagazines C := rfl
  calc reach C held { s with backend := b } + outcome.frames
      = ((held b).val + outcome.frames) + s.inMagazines C := by rw [reach, hsame]; abel
    _ = reach C held s + op.frames := by rw [hsum, reach]; abel

theorem nodup_backend (h : (reach C held s + op.frames).Nodup) :
    ((held s.backend).val + op.frames).Nodup := by
  refine Multiset.nodup_of_le ?_ h
  rw [reach, Multiset.add_assoc, Multiset.add_comm (s.inMagazines C), ← Multiset.add_assoc]
  exact Multiset.le_add_right _ _

theorem nodup_magazine (hcpu : cpu < C.cpuCount) (h : (reach C held s + op.frames).Nodup) :
    ((s.magazines cpu : Multiset ℕ) + op.frames).Nodup := by
  refine Multiset.nodup_of_le ?_ h
  have hle : (s.magazines cpu : Multiset ℕ) ≤ reach C held s :=
    (Places.le_sum_map (fun c => (s.magazines c : Multiset ℕ)) (mem_range.mpr hcpu)).trans
      (Multiset.le_add_left _ _)
  exact Multiset.add_le_add_right hle

include hA hbounded in
/-- **a step of a call returns and loses no frame.** -/
theorem exec_moves (hcpu : cpu < C.cpuCount) (hready : op.Ready C)
    (hnodup : (reach C held s + op.frames).Nodup)
    (hclaim : ∀ start npages, op = .claim start npages →
      (allocationCharge npages).getD 0 ≤ s.freePages) :
    ∃ outcome s', exec C A cpu s op = .ok (outcome, s') ∧ Moves C held s op outcome s' := by
  cases op with
  | localPop =>
    simp only [exec]
    cases hmag : s.magazines cpu with
    | nil =>
      refine ⟨_, _, rfl, ⟨rfl, hbounded, trivial, rfl, rfl⟩⟩
    | cons frame frames =>
      refine ⟨_, _, rfl, moves_magazine hbounded hcpu ?_ ?_ rfl rfl⟩
      · have := hbounded cpu hcpu
        rw [hmag, length_cons] at this
        omega
      · rw [hmag, ← Multiset.cons_coe, ← Multiset.singleton_add]
        simp only [Outcome.frames, Op.frames, block_one, Finset.singleton_val]
        abel
  | takeBatch retried =>
    obtain ⟨batch, b, hrun, hsum⟩ := takeOrder0Batch_moves (C := C) hA C.batch
      s.backend [] (by simp) (nodup_backend hnodup)
    simp only [exec, hrun, ok_bind]
    cases batch with
    | nil =>
      obtain ⟨hframes, hready, hcharge⟩ := retry_spec (C := C) retried .order0
      refine ⟨_, _, rfl, moves_backend hbounded ?_ hready hcharge⟩
      rw [hframes]
      exact hsum
    | cons allocated batch =>
      exact ⟨_, _, rfl, moves_backend hbounded hsum trivial rfl⟩
  | publishLocal allocated batch =>
    have hnd := nodup_magazine hcpu hnodup
    have hnd' : (s.magazines cpu ++ batch).Nodup := by
      rw [← Multiset.coe_nodup, ← Multiset.coe_add]
      refine Multiset.nodup_of_le ?_ hnd
      exact Multiset.add_le_add_left (Multiset.le_cons_self _ _)
    obtain ⟨frames, rest, hrun, hlen, hsum⟩ := refill_moves (hbounded cpu hcpu) hnd'
    simp only [exec, hrun, ok_bind]
    refine ⟨_, _, rfl, moves_magazine hbounded hcpu hlen ?_ trivial rfl⟩
    simp only [Outcome.frames, Op.frames, Multiset.add_cons, hsum]
  | returnRest allocated rest =>
    have hnd : ((held s.backend).val + (rest : Multiset ℕ)).Nodup := by
      refine Multiset.nodup_of_le ?_ (nodup_backend hnodup)
      exact Multiset.add_le_add_left (Multiset.le_cons_self _ _)
    refine ⟨_, _, rfl, moves_backend hbounded ?_ rfl rfl⟩
    rw [returnToBuddy_moves hA _ hnd]
    simp only [Outcome.frames, Op.frames, block_one, Finset.singleton_val,
      ← Multiset.singleton_add]
    abel
  | claim start npages =>
    obtain ⟨charge, hcharge⟩ := Option.isSome_iff_exists.mp hready
    have hle := hclaim start npages rfl
    rw [hcharge, Option.getD_some] at hle
    simp only [exec, hcharge, FrameAccounting.claim, if_pos hle, pure_eq, ok_bind]
    refine ⟨_, _, rfl, ⟨rfl, hbounded, hready, rfl, ?_⟩⟩
    simp only [Outcome.charge, hcharge, Option.getD_some]
    omega
  | allocate npages retried =>
    simp only [exec]
    split
    · rename_i start b halloc
      obtain ⟨hcharge, hsub, hheld⟩ := hA.alloc_ok _ _ _ _ halloc
      refine ⟨_, _, rfl, moves_backend hbounded ?_ hcharge rfl⟩
      rw [hheld]
      exact (sdiff_val_add hsub).trans (Multiset.add_zero _).symm
    · rename_i b halloc
      refine ⟨_, _, rfl, moves_backend hbounded ?_ trivial rfl⟩
      rw [hA.alloc_error _ _ _ _ halloc]
      rfl
    · rename_i b halloc
      obtain ⟨hframes, hready, hcharge⟩ := retry_spec (C := C) retried (.folio npages)
      refine ⟨_, _, rfl, moves_backend hbounded ?_ hready hcharge⟩
      rw [hframes, hA.alloc_error _ _ _ _ halloc]
      rfl
  | sweep i next =>
    have hi : i < C.cpuCount := hready
    have hnd : (s.magazines i ++ []).Nodup := by
      rw [append_nil, ← Multiset.coe_nodup]
      exact (Multiset.nodup_add.mp (nodup_magazine hi hnodup)).1
    obtain ⟨batch, hrun, hsum⟩ := takeAll_moves (C := C) (s.magazines i) []
      (by simpa using hbounded i hi) hnd
    simp only [exec, hrun, ok_bind]
    refine ⟨_, _, rfl, moves_magazine hbounded hi (Nat.zero_le _) ?_ trivial rfl⟩
    simp only [Outcome.frames, Op.frames, hsum, Multiset.coe_nil]
    abel
  | sweepReturn i batch next =>
    obtain ⟨hframes, hready, hcharge⟩ := resume_spec (C := C) (i + 1) next
    refine ⟨_, _, rfl, moves_backend hbounded ?_ hready hcharge⟩
    rw [hframes, returnToBuddy_moves hA _ (nodup_backend hnodup)]
    exact Multiset.add_zero _
  | releaseLocal frame =>
    have hnd : (frame :: s.magazines cpu).Nodup := by
      have := nodup_magazine hcpu hnodup
      rwa [Op.frames, Multiset.add_comm, Multiset.singleton_add, Multiset.cons_coe,
        Multiset.coe_nodup] at this
    obtain ⟨frames, drain, hrun, hlen, hsum⟩ := release_moves (hbounded cpu hcpu) hnd
    simp only [exec, hrun, ok_bind]
    exact ⟨_, _, rfl, moves_magazine hbounded hcpu hlen hsum trivial rfl⟩
  | returnDrain drain =>
    refine ⟨_, _, rfl, moves_backend hbounded ?_ trivial rfl⟩
    rw [returnToBuddy_moves hA _ (nodup_backend hnodup)]
    exact Multiset.add_zero _
  | deallocFolio start npages =>
    have hdisjoint : Disjoint (held s.backend) (block start npages) :=
      Finset.disjoint_left.mpr fun frame hframe hmem =>
        Multiset.disjoint_left.mp (Multiset.nodup_add.mp (nodup_backend hnodup)).2.2 hframe hmem
    refine ⟨_, _, rfl, moves_backend hbounded ?_ trivial rfl⟩
    rw [hA.dealloc _ _ _ hdisjoint, union_val hdisjoint]
    exact Multiset.add_zero _

end Steps

end Anemone.Frame
