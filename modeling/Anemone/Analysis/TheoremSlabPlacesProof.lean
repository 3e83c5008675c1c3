import Anemone.Analysis.SlabSpans

/-!
# Every slot is in one place

A step of a call moves slots between one list and its hands, a new span brings its slots, and a
user writes to slots in use, which no node of a list is inside of.
-/

namespace Anemone.Slab

open FreeList Places Shared List
open Multiset (le_add_right mem_of_le nodup_of_le)

variable {C : Config}

namespace System

def inHands (s : System) : Multiset ℕ :=
  (s.ops.map fun op => (op.hands s.shared.mem : Multiset ℕ)).sum

def inUse (s : System) : Multiset ℕ := (s.live.map fun o => ({o.2} : Multiset ℕ)).sum

theorem places_sum (s : System) :
    (s.places C).sum = s.shared.inLists C + s.inHands + s.inUse := by
  rw [places, sum_append, sum_append]
  rfl

structure Invariant (C : Config) (s : System) : Prop where
  holds : s.shared.inLists C + s.inHands + s.inUse = stock C s.spans
  spans : ∀ span ∈ s.spans, ValidSpan C span
  apart : s.spans.Pairwise (Apart C)
  keeps : Keeps C (s.SlotOf C) s.shared
  op_cls : ∀ op ∈ s.ops, op.cls.Valid C
  op_linked : ∀ op ∈ s.ops, op.batch.Linked s.shared.mem
  op_owned : ∀ op ∈ s.ops, ∀ slot ∈ op.hands s.shared.mem, s.SlotOf C op.cls.index slot
  live_cls : ∀ o ∈ s.live, o.1.Valid C
  live_owned : ∀ o ∈ s.live, s.SlotOf C o.1.index o.2

variable {s : System}

namespace Invariant

theorem of_start (h : Start s) : Invariant C s := by
  have hnodes : ∀ pos, s.shared.nodesAt pos = [] := by
    intro pos
    rw [nodesAt, listAt, h.lists]
    rfl
  refine ⟨?_, ?_, ?_, ⟨?_, ?_, ?_⟩, ?_, ?_, ?_, ?_, ?_⟩
  · have hlists : s.shared.inLists C = 0 := by
      simp [inLists, hnodes]
    rw [hlists, inHands, inUse, stock, h.ops, h.live, h.spans]
    rfl
  · simp [h.spans]
  · rw [h.spans]
    exact List.Pairwise.nil
  · intro pos _
    rw [listAt, h.lists]
    exact (Has.new _).linked
  · intro pos _ slot hslot
    rw [hnodes] at hslot
    cases hslot
  · intro pos _ cpu _
    rw [listAt, h.lists]
    exact Nat.zero_le _
  all_goals simp [h.ops, h.live]

/-- What is not touched by a step of the call between `before` and `after`. -/
def rest (s : System) (before after : List Op) : Multiset ℕ :=
  (before.map fun op => (op.hands s.shared.mem : Multiset ℕ)).sum +
    (after.map fun op => (op.hands s.shared.mem : Multiset ℕ)).sum + s.inUse

variable {before after : List Op} {op : Op} {outcome : Outcome} {shared : Shared}

theorem sum_at (h : Invariant C s) (hop : s.ops = before ++ op :: after) :
    s.shared.inLists C + (op.hands s.shared.mem : Multiset ℕ) + rest s before after =
      stock C s.spans := by
  rw [← h.holds, inHands, hop, map_append, sum_append, map_cons, sum_cons, rest]
  abel

theorem run (h : Invariant C s) (hop : s.ops = before ++ op :: after) {cpu : ℕ}
    (hcpu : cpu < C.cpuCount) :
    ∃ outcome shared, exec C cpu s.shared op = .ok (outcome, shared) ∧
      Moves C (s.SlotOf C) s.shared op outcome shared := by
  have hmem : op ∈ s.ops := by
    rw [hop]
    exact mem_append_right _ mem_cons_self
  have hle : s.shared.inLists C + (op.hands s.shared.mem : Multiset ℕ) ≤ stock C s.spans := by
    rw [← h.sum_at hop]
    exact le_add_right _ _
  exact exec_moves h.keeps (h.op_linked op hmem) (h.op_owned op hmem)
    (nodup_of_le hle (nodup_stock h.spans h.apart)) hcpu (h.op_cls op hmem).index_lt
    (fun a ha => aligned_stock h.spans (mem_of_le hle ha))
    (lt_of_le_of_lt (Multiset.card_le_card hle) (card_stock h.spans h.apart))

theorem others (h : Invariant C s) (hop : s.ops = before ++ op :: after)
    (hmoves : Moves C (s.SlotOf C) s.shared op outcome shared) :
    ∀ op' ∈ before ++ after, op'.batch.Linked shared.mem ∧
      op'.hands shared.mem = op'.hands s.shared.mem := by
  intro op' hop'
  have hmem : op' ∈ s.ops := by
    rw [hop]
    exact ((sublist_cons_self _ _).append_left _).subset hop'
  have hle : (op'.hands s.shared.mem : Multiset ℕ) ≤ rest s before after := by
    refine le_trans ?_ (le_add_right _ _)
    rw [← sum_append, ← map_append]
    exact le_sum_map (fun op => (op.hands s.shared.mem : Multiset ℕ)) hop'
  have hnodup := nodup_stock h.spans h.apart
  rw [← h.sum_at hop] at hnodup
  have hdisjoint := (Multiset.nodup_add.mp hnodup).2.2
  refine Op.hands_congr (h.op_linked op' hmem) fun a ha => hmoves.outside a fun htouched => ?_
  exact Multiset.disjoint_left.mp hdisjoint htouched (mem_of_le hle ha)

theorem mem_ops_of_mem (hop : s.ops = before ++ op :: after) :
    ∀ op' ∈ before ++ after, op' ∈ s.ops := by
  intro op' hop'
  rw [hop]
  exact ((sublist_cons_self _ _).append_left _).subset hop'

theorem forall_mem_insert {α : Type} {P : α → Prop} {before after : List α}
    (h : ∀ x ∈ before ++ after, P x) {a : α} (ha : P a) : ∀ x ∈ before ++ a :: after, P x := by
  obtain ⟨hbefore, hafter⟩ := forall_mem_append.mp h
  exact forall_mem_append.mpr ⟨hbefore, forall_mem_cons.mpr ⟨ha, hafter⟩⟩

section

variable (h : Invariant C s)

include h

theorem after_run (hop : s.ops = before ++ op :: after)
    (hmoves : Moves C (s.SlotOf C) s.shared op outcome shared) :
    Invariant C (s.proceed before after shared outcome) := by
  have hothers := h.others hop hmoves
  have hsub := mem_ops_of_mem hop
  have hcls : op.cls.Valid C := h.op_cls op (hop ▸ mem_append_right _ mem_cons_self)
  have hop_cls : ∀ op' ∈ before ++ after, op'.cls.Valid C := fun op' h' => h.op_cls op' (hsub op' h')
  have hop_linked : ∀ op' ∈ before ++ after, op'.batch.Linked shared.mem :=
    fun op' h' => (hothers op' h').1
  have hop_owned : ∀ op' ∈ before ++ after, ∀ slot ∈ op'.hands shared.mem,
      s.SlotOf C op'.cls.index slot := by
    intro op' h' slot hslot
    rw [(hothers op' h').2] at hslot
    exact h.op_owned op' (hsub op' h') slot hslot
  have hsum : shared.inLists C + (outcome.hands shared.mem : Multiset ℕ) +
      ((before.map fun op => (op.hands shared.mem : Multiset ℕ)).sum +
        (after.map fun op => (op.hands shared.mem : Multiset ℕ)).sum + s.inUse) =
      stock C s.spans := by
    have hbefore : (before.map fun op => (op.hands shared.mem : Multiset ℕ)) =
        before.map fun op => (op.hands s.shared.mem : Multiset ℕ) :=
      map_congr_left fun op' h' => congrArg _ (hothers op' (mem_append_left _ h')).2
    have hafter : (after.map fun op => (op.hands shared.mem : Multiset ℕ)) =
        after.map fun op => (op.hands s.shared.mem : Multiset ℕ) :=
      map_congr_left fun op' h' => congrArg _ (hothers op' (mem_append_right _ h')).2
    rw [hmoves.sum, hbefore, hafter]
    exact h.sum_at hop
  cases outcome with
  | next op' =>
    have hof : op'.cls = op.cls := hmoves.of
    refine ⟨?_, h.spans, h.apart, hmoves.keeps, forall_mem_insert hop_cls (hof ▸ hcls),
      forall_mem_insert hop_linked hmoves.linked, forall_mem_insert hop_owned ?_, h.live_cls,
      h.live_owned⟩
    · refine Eq.trans ?_ hsum
      simp only [proceed, inHands, inUse, map_append, sum_append, map_cons, sum_cons]
      show _ = _ + (op'.hands shared.mem : Multiset ℕ) + _
      abel
    · rw [hof]
      exact hmoves.owned
  | returns cls ptr =>
    have hof : cls = op.cls := hmoves.of
    refine ⟨?_, h.spans, h.apart, hmoves.keeps, hop_cls, hop_linked, hop_owned,
      forall_mem_cons.mpr ⟨hof ▸ hcls, h.live_cls⟩,
      forall_mem_cons.mpr ⟨?_, h.live_owned⟩⟩
    · refine Eq.trans ?_ hsum
      simp only [proceed, inHands, inUse, map_append, sum_append, map_cons, sum_cons]
      show _ = _ + ({ptr} : Multiset ℕ) + _
      abel
    · rw [hof]
      exact hmoves.owned ptr mem_cons_self
  | done =>
    refine ⟨?_, h.spans, h.apart, hmoves.keeps, hop_cls, hop_linked, hop_owned, h.live_cls,
      h.live_owned⟩
    refine Eq.trans ?_ hsum
    simp only [proceed, inHands, inUse, map_append, sum_append]
    abel

theorem after_write {mem : Mem} (ready : Bool)
    (hsame : ∀ a ∈ s.shared.inLists C + s.inHands, mem a = s.shared.mem a) :
    Invariant C { s with shared := ⟨mem, s.shared.lists, ready⟩ } ∧
      ∀ op ∈ s.ops, op.hands mem = op.hands s.shared.mem := by
  obtain ⟨hkeeps, hlists⟩ := h.keeps.congr mem (fun pos hpos a ha => hsame a
    (Multiset.mem_add.mpr (.inl (mem_of_le (le_sum_map
      (fun pos => (s.shared.nodesAt pos : Multiset ℕ)) hpos) ha)))) ready
  have hops : ∀ op ∈ s.ops, op.batch.Linked mem ∧ op.hands mem = op.hands s.shared.mem :=
    fun op hop => Op.hands_congr (h.op_linked op hop) fun a ha => hsame a
      (Multiset.mem_add.mpr (.inr (mem_of_le (le_sum_map
        (fun op => (op.hands s.shared.mem : Multiset ℕ)) hop) ha)))
  refine ⟨⟨?_, h.spans, h.apart, hkeeps, h.op_cls, fun op hop => (hops op hop).1, ?_, h.live_cls,
    h.live_owned⟩, fun op hop => (hops op hop).2⟩
  · have hhands : ({ s with shared := ⟨mem, s.shared.lists, ready⟩ } : System).inHands =
        s.inHands := by
      rw [inHands, inHands]
      exact congrArg _ (map_congr_left fun op hop => congrArg _ (hops op hop).2)
    rw [hhands]
    rw [hlists]
    exact h.holds
  · intro op hop slot hslot
    rw [(hops op hop).2] at hslot
    exact h.op_owned op hop slot hslot

/-- **no node of a list is where users may write.** -/
theorem not_writable {a : ℕ} (ha : a ∈ s.shared.inLists C + s.inHands) :
    ¬ s.Writable C a := by
  have hstock : a ∈ stock C s.spans := by
    rw [← h.holds]
    exact Multiset.mem_add.mpr (.inl ha)
  obtain ⟨span, hspan, hslot⟩ := mem_stock.mp hstock
  have hvalid := h.spans span hspan
  have hbounds := hvalid.bounds hslot
  have hpos := hvalid.cls.pos
  rintro (⟨o, ho, hlo, hhi⟩ | hout)
  · obtain ⟨span', hspan', hindex, hslot'⟩ := h.live_owned o ho
    have hvalid' := h.spans span' hspan'
    have hbytes : o.1.slotBytes = span'.1.slotBytes :=
      (h.live_cls o ho).eq_of_index hvalid'.cls hindex.symm
    have hbounds' := hvalid'.bounds hslot'
    have hsame : span = span' := by
      by_contra hne
      have hapart : Apart C span span' := h.apart.forall hspan hspan' hne
      rcases hapart with hapart | hapart <;> omega
    subst hsame
    have heq : o.2 = a := ValidSpan.eq_of_inside hslot' hslot hlo (hbytes ▸ hhi)
    have hnodup := nodup_stock h.spans h.apart
    rw [← h.holds] at hnodup
    refine Multiset.disjoint_left.mp (Multiset.nodup_add.mp hnodup).2.2 ha ?_
    refine mem_of_le (le_sum_map (fun o => ({o.2} : Multiset ℕ)) ho) ?_
    exact Multiset.mem_singleton.mpr heq.symm
  · exact hout span hspan ⟨hbounds.1, by omega⟩

variable {cls : SlabClass}

theorem after_allocate (hcls : cls.Valid C) :
    Invariant C { s with ops := .allocate cls :: s.ops } := by
  refine ⟨?_, h.spans, h.apart, h.keeps, forall_mem_cons.mpr ⟨hcls, h.op_cls⟩,
    forall_mem_cons.mpr ⟨(Has.new _).linked, h.op_linked⟩,
    forall_mem_cons.mpr ⟨nofun, h.op_owned⟩, h.live_cls,
    h.live_owned⟩
  refine Eq.trans ?_ h.holds
  simp only [inHands, inUse, map_cons, sum_cons]
  show _ + ((0 : Multiset ℕ) + _) + _ = _
  rw [Multiset.zero_add]

theorem after_deallocate {before after : List (SlabClass × ℕ)} {ptr : ℕ}
    (howned : s.live = before ++ (cls, ptr) :: after) :
    Invariant C { s with ops := .deallocate cls ptr :: s.ops, live := before ++ after } := by
  have hmem : (cls, ptr) ∈ s.live := by
    rw [howned]
    exact mem_append_right _ mem_cons_self
  have hsub : ∀ o ∈ before ++ after, o ∈ s.live := by
    intro o ho
    rw [howned]
    exact ((sublist_cons_self _ _).append_left _).subset ho
  refine ⟨?_, h.spans, h.apart, h.keeps, forall_mem_cons.mpr ⟨h.live_cls _ hmem, h.op_cls⟩,
    forall_mem_cons.mpr ⟨(Has.new _).linked, h.op_linked⟩,
    forall_mem_cons.mpr ⟨?_, h.op_owned⟩, fun o ho => h.live_cls o (hsub o ho),
    fun o ho => h.live_owned o (hsub o ho)⟩
  · refine Eq.trans ?_ h.holds
    simp only [inHands, inUse, howned, map_cons, sum_cons, map_append, sum_append]
    show _ + (({ptr} : Multiset ℕ) + _) + _ = _
    abel
  · intro slot hslot
    obtain rfl : slot = ptr := mem_singleton.mp hslot
    exact h.live_owned _ hmem

theorem after_prepare {base : ℕ} (hfresh : s.Fresh C base) (hvalid : ValidSpan C (cls, base))
    {free : FreeList} {mem : Mem} (hlinked : free.Linked mem)
    (hperm : (base :: free.nodes mem).Perm (slots C (cls, base)))
    (hmem : Outside (slots C (cls, base)) s.shared.mem mem) :
    Invariant C ⟨{ s.shared with mem := mem },
      .publishCentral cls free (some base) :: s.ops, s.live, (cls, base) :: s.spans⟩ := by
  have hapart : ∀ span ∈ s.spans, Apart C (cls, base) span := hfresh.2
  have hsame : ∀ a ∈ s.shared.inLists C + s.inHands, mem a = s.shared.mem a := by
    intro a ha
    refine hmem a fun hnew => ?_
    have hstock : a ∈ stock C s.spans := by
      rw [← h.holds]
      exact Multiset.mem_add.mpr (.inl ha)
    obtain ⟨span, hspan, hslot⟩ := mem_stock.mp hstock
    exact hvalid.disjoint (h.spans span hspan) (hapart span hspan) hnew hslot
  obtain ⟨hnext, hhands⟩ := h.after_write s.shared.storageReady hsame
  have hmono : ∀ index slot, s.SlotOf C index slot →
      SlotOf C ⟨s.shared, s.ops, s.live, (cls, base) :: s.spans⟩ index slot :=
    fun index slot ⟨span, hspan, hslot⟩ => ⟨span, mem_cons_of_mem _ hspan, hslot⟩
  refine ⟨?_, forall_mem_cons.mpr ⟨hvalid, h.spans⟩,
    pairwise_cons.mpr ⟨hapart, h.apart⟩, ⟨hnext.keeps.linked, ?_, hnext.keeps.bounded⟩,
    forall_mem_cons.mpr ⟨hvalid.cls, h.op_cls⟩,
    forall_mem_cons.mpr ⟨hlinked, hnext.op_linked⟩,
    forall_mem_cons.mpr ⟨?_, ?_⟩, h.live_cls, fun o ho => hmono _ _ (h.live_owned o ho)⟩
  · have hsum := hnext.holds
    rw [stock_cons, ← hsum, ← Multiset.coe_eq_coe.mpr hperm]
    show _ + (((base :: free.nodes mem : List ℕ) : Multiset ℕ) + _) + _ = _
    abel
  · exact fun pos hpos slot hslot => hmono _ _ (hnext.keeps.owned pos hpos slot hslot)
  · intro slot hslot
    exact ⟨(cls, base), mem_cons_self, rfl, hperm.mem_iff.mp hslot⟩
  · exact fun op hop slot hslot => hmono _ _ (hnext.op_owned op hop slot hslot)

theorem step {t : System} (hstep : Step C s t) : Invariant C t := by
  cases hstep with
  | ready => exact (h.after_write true fun _ _ => rfl).1
  | write hwrite =>
    refine (h.after_write s.shared.storageReady fun a ha => ?_).1
    by_contra hne
    exact h.not_writable ha (hwrite a hne)
  | @allocate size align cls hcls =>
    obtain ⟨r, hr, hvalid⟩ := SlabClass.forLayout_returns C size align
    obtain rfl := Except.ok.inj (hr.symm.trans hcls)
    exact h.after_allocate (hvalid cls rfl)
  | @prepare size align base cls prepared mem hcls hfresh hnew =>
    obtain ⟨r, hr, hvalid⟩ := SlabClass.forLayout_returns C size align
    obtain rfl := Except.ok.inj (hr.symm.trans hcls)
    rcases new_returns s.shared.mem (hvalid cls rfl) hfresh.1 with
      ⟨-, hnone⟩ | ⟨free, mem', hsome, hspan, hlinked, hperm, hmem⟩
    · cases hnone.symm.trans hnew
    · cases hsome.symm.trans hnew
      exact h.after_prepare hfresh hspan hlinked hperm hmem
  | deallocate howned => exact h.after_deallocate howned
  | run at_op hcpu hrun =>
    obtain ⟨outcome, shared, hrun', hmoves⟩ := h.run at_op hcpu
    obtain ⟨rfl, rfl⟩ := Prod.mk.inj (Except.ok.inj (hrun'.symm.trans hrun))
    exact h.after_run at_op hmoves

theorem sound : Sound C s := by
  have hsum : (s.places C).sum = stock C s.spans := (places_sum s).trans h.holds
  have hnodup : (s.places C).sum.Nodup := by
    rw [hsum]
    exact nodup_stock h.spans h.apart
  refine ⟨?_, ?_, h.keeps.owned, h.op_owned, h.live_owned, ?_, h.keeps.linked, h.op_linked, ?_, ?_⟩
  · intro span hspan slot hslot
    refine existsUnique_of_nodup hnodup ?_
    rw [hsum]
    exact mem_stock.mpr ⟨span, hspan, hslot⟩
  · exact fun place hplace => nodup_of_le (Places.le_sum_of_mem hplace) hnodup
  · intro cpu hcpu index hindex
    exact h.keeps.bounded (.cpu cpu, index)
      (mem_positions.mpr ⟨.inr ⟨cpu, hcpu, rfl⟩, hindex⟩) cpu rfl
  · intro op hop cpu hcpu
    obtain ⟨before, after, hsplit⟩ := append_of_mem hop
    obtain ⟨outcome, shared, hrun, -⟩ := h.run hsplit hcpu
    exact ⟨_, hrun⟩
  · intro size align
    obtain ⟨r, hr, hvalid⟩ := SlabClass.forLayout_returns C size align
    refine ⟨r, hr, fun cls hcls base hfresh => ?_⟩
    rcases new_returns s.shared.mem (hvalid cls hcls) hfresh.1 with
      ⟨-, hnone⟩ | ⟨free, mem', hsome, -⟩
    · exact ⟨_, hnone⟩
    · exact ⟨_, hsome⟩

end

end Invariant

/-- **Every slot is in exactly one place.**  Whatever the calls of all CPUs do between their
steps, and whatever users write to the slots they have: every slot of every span is in use, in
one list of its class, or in the hands of one call; a local list has at most
`SLAB_LOCAL_CAPACITY` slots; the length and the tail of every list are those of the chain from
its head; and no assertion fails.

SOURCE: mm/kmalloc/slab.rs:138-362 -/
theorem slots_in_one_place {s t : System} (hstart : Start s)
    (hrun : Run.Reaches (Step C) s t) : Sound C t :=
  (Run.Reaches.invariant (fun _ _ h hstep => h.step hstep) hrun (Invariant.of_start hstart)).sound

def smallConfig : Config where
  pageBytes := 16
  spanPages := 2
  maxObjectBytes := 8
  localCapacity := 2
  transferBatch := 2
  cpuCount := 1
  page_pow := ⟨4, rfl⟩
  span_pow := ⟨1, rfl⟩
  max_pow := (⟨3, rfl⟩ : ∃ k, 2 * 4 = 2 ^ k)
  min_le_max := by decide
  max_le_page := by decide
  span_fits := by decide
  two_slots := by decide
  batch_pos := Nat.two_pos
  batch_le := (by decide : 1 + 1 ≤ 2)

def emptySystem : System := ⟨⟨fun _ => none, fun _ _ => .new, true⟩, [], [], []⟩

/-- After a first span one slot is in use and three are in the central list. -/
theorem slots_in_one_place_sample : ∃ t : System,
    Run.Reaches (Step smallConfig) emptySystem t ∧ t.live = [(⟨0, 8⟩, 16)] ∧
      (t.shared.lists .central 0).nodes t.shared.mem = [40, 32, 24] ∧ Sound smallConfig t := by
  have hcls : SlabClass.forLayout smallConfig 8 8 = .ok (some ⟨0, 8⟩) := by decide +kernel
  have hfresh : emptySystem.Fresh smallConfig 16 := ⟨by decide, nofun⟩
  let free : FreeList := ⟨some 40, some 24, 3⟩
  let mem : Mem := Function.update (Function.update (Function.update (fun _ => none) 24 none) 32
    (some 24)) 40 (some 32)
  let prepared : System := ⟨⟨mem, fun _ _ => .new, true⟩,
    [.publishCentral ⟨0, 8⟩ free (some 16)], [], [(⟨0, 8⟩, 16)]⟩
  have hspan : Step smallConfig emptySystem prepared :=
    @Step.prepare smallConfig emptySystem 8 8 16 ⟨0, 8⟩ ⟨⟨0, 8⟩, 16, free⟩ mem hcls hfresh rfl
  have hpublish := @Step.run smallConfig prepared [] [] (.publishCentral ⟨0, 8⟩ free (some 16)) 0
    (.returns ⟨0, 8⟩ 16) (prepared.shared.setList .central ⟨0, 8⟩ mem free) rfl Nat.one_pos rfl
  have hreach := Relation.ReflTransGen.refl (r := Step smallConfig) |>.tail hspan |>.tail hpublish
  refine ⟨_, hreach, rfl, rfl, slots_in_one_place ?_ hreach⟩
  exact ⟨fun _ _ => rfl, rfl, rfl, rfl⟩

end System

end Anemone.Slab
