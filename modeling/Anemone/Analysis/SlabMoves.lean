import Anemone.Analysis.FreeLists

/-!
# One step of a call

A step touches the list of one owner and class and what the call has in its hands, and moves slots
between the two.  The other lists have no node in common with what is touched.
-/

namespace Anemone.Slab

open Checked (ok_bind pure_eq wordSize)
open Multiset (coe_add mem_of_le)

open FreeList Shared Places List Function

variable {C : Config} {own : ℕ → ℕ → Prop} {s : Shared} {op : Op} {outcome : Outcome}
  {owner : Owner} {pos : Owner × ℕ} {mem' : Mem}

theorem nodup_positions (C : Config) : (positions C).Nodup := by
  refine List.Nodup.product (nodup_cons.mpr ⟨by simp, ?_⟩) nodup_range
  exact nodup_range.map fun a b hab => Owner.cpu.inj hab

theorem mem_positions : pos ∈ positions C ↔
      (pos.1 = .central ∨ ∃ cpu < C.cpuCount, pos.1 = .cpu cpu) ∧ pos.2 < C.classCount := by
  obtain ⟨owner, index⟩ := pos
  simp only [positions, pair_mem_product, mem_cons, mem_map, mem_range]
  refine and_congr_left fun _ => or_congr_right ?_
  exact ⟨fun ⟨cpu, hcpu, h⟩ => ⟨cpu, hcpu, h.symm⟩, fun ⟨cpu, hcpu, h⟩ => ⟨cpu, hcpu, h.symm⟩⟩

def Shared.nodesAt (s : Shared) (pos : Owner × ℕ) : List ℕ := (s.listAt pos).nodes s.mem

def Shared.inLists (C : Config) (s : Shared) : Multiset ℕ :=
  ((positions C).map fun pos => (s.nodesAt pos : Multiset ℕ)).sum

/-- The lists are linked, have slots of their class and are bounded if they are local. -/
structure Keeps (C : Config) (own : ℕ → ℕ → Prop) (s : Shared) : Prop where
  linked : ∀ pos ∈ positions C, (s.listAt pos).Linked s.mem
  owned : ∀ pos ∈ positions C, ∀ slot ∈ s.nodesAt pos, own pos.2 slot
  bounded : ∀ pos ∈ positions C, ∀ cpu, pos.1 = .cpu cpu → (s.listAt pos).len ≤ C.localCapacity

namespace Outcome

def batch : Outcome → FreeList
  | .next op => op.batch
  | .returns _ _ | .done => .new

def slot : Outcome → Option ℕ
  | .next op => op.slot
  | .returns _ ptr => some ptr
  | .done => none

def hands (mem : Mem) (outcome : Outcome) : List ℕ :=
  outcome.slot.toList ++ outcome.batch.nodes mem

def Of (cls : SlabClass) : Outcome → Prop
  | .next op => op.cls = cls
  | .returns cls' _ => cls' = cls
  | .done => True

end Outcome

structure Moves (C : Config) (own : ℕ → ℕ → Prop) (s : Shared) (op : Op) (outcome : Outcome)
    (s' : Shared) : Prop where
  keeps : Keeps C own s'
  linked : outcome.batch.Linked s'.mem
  owned : ∀ slot ∈ outcome.hands s'.mem, own op.cls.index slot
  of : outcome.Of op.cls
  sum : s'.inLists C + (outcome.hands s'.mem : Multiset ℕ) =
    s.inLists C + (op.hands s.mem : Multiset ℕ)
  outside : ∀ a, a ∉ s.inLists C + (op.hands s.mem : Multiset ℕ) → s'.mem a = s.mem a

theorem listAt_setList (s : Shared) (owner : Owner) (cls : SlabClass) (mem : Mem)
    (l : FreeList) (pos : Owner × ℕ) :
    (s.setList owner cls mem l).listAt pos =
      if pos = (owner, cls.index) then l else s.listAt pos := by
  obtain ⟨owner', index⟩ := pos
  by_cases howner : owner' = owner
  · subst howner
    by_cases hindex : index = cls.index
    all_goals simp [listAt, setList, hindex]
  · simp [listAt, setList, howner]

theorem touched_le (hpos : pos ∈ positions C) :
    ((s.nodesAt pos ++ op.hands s.mem : List ℕ) : Multiset ℕ) ≤
      s.inLists C + (op.hands s.mem : Multiset ℕ) := by
  rw [← coe_add]
  exact Multiset.add_le_add_right (le_sum_map (fun pos => (s.nodesAt pos : Multiset ℕ)) hpos)

theorem Keeps.congr (h : Keeps C own s) (mem' : Mem)
    (hsame : ∀ pos ∈ positions C, ∀ a ∈ s.nodesAt pos, mem' a = s.mem a) (ready : Bool) :
    Keeps C own ⟨mem', s.lists, ready⟩ ∧
      (⟨mem', s.lists, ready⟩ : Shared).inLists C = s.inLists C := by
  have hlist : ∀ pos ∈ positions C,
      ((⟨mem', s.lists, ready⟩ : Shared).listAt pos).Has mem' (s.nodesAt pos) :=
    fun pos hpos => (h.linked pos hpos).has.congr (hsame pos hpos)
  have hnodes : ∀ pos ∈ positions C,
      (⟨mem', s.lists, ready⟩ : Shared).nodesAt pos = s.nodesAt pos :=
    fun pos hpos => (hlist pos hpos).nodes_eq
  refine ⟨⟨fun pos hpos => (hlist pos hpos).linked, ?_, h.bounded⟩, ?_⟩
  · intro pos hpos slot hslot
    rw [hnodes pos hpos] at hslot
    exact h.owned pos hpos slot hslot
  · rw [inLists, inLists]
    exact congrArg _ (map_congr_left fun pos hpos => congrArg _ (hnodes pos hpos))

theorem Op.hands_congr {mem : Mem} (h : op.batch.Linked mem)
    (hsame : ∀ a ∈ op.hands mem, mem' a = mem a) :
    op.batch.Linked mem' ∧ op.hands mem' = op.hands mem := by
  have hbatch : op.batch.Has mem' (op.batch.nodes mem) :=
    h.has.congr fun a ha => hsame a (mem_append_right _ ha)
  exact ⟨hbatch.linked, congrArg _ hbatch.nodes_eq⟩

section Steps

variable (hkeeps : Keeps C own s) (hbatch : op.batch.Linked s.mem)
  (howned : ∀ slot ∈ op.hands s.mem, own op.cls.index slot)
  (hnodup : (s.inLists C + (op.hands s.mem : Multiset ℕ)).Nodup)

include hnodup in
theorem disjoint_touched {pos' : Owner × ℕ} (hpos : pos ∈ positions C) (hpos' : pos' ∈ positions C)
    (hne : pos' ≠ pos) :
    (s.nodesAt pos').Disjoint (s.nodesAt pos ++ op.hands s.mem) := by
  obtain ⟨hlists, -, hhands⟩ := Multiset.nodup_add.mp hnodup
  have hother := disjoint_of_nodup hlists hpos' hpos hne
  have hmine := hhands.mono_left (le_sum_map (fun pos => (s.nodesAt pos : Multiset ℕ)) hpos')
  intro a ha hmem
  rcases mem_append.mp hmem with hmem | hmem
  · exact Multiset.disjoint_left.mp hother ha hmem
  · exact Multiset.disjoint_left.mp hmine ha hmem

include hkeeps hnodup howned in
/-- **slots move between a list and the hands of a call.** -/
theorem moves_list (hpos : (owner, op.cls.index) ∈ positions C) {l' : FreeList} {xs' ys' : List ℕ}
    (hl' : l'.Has mem' xs') (hbatch' : outcome.batch.Has mem' ys')
    (hperm : (xs' ++ (outcome.slot.toList ++ ys')).Perm
      (s.nodesAt (owner, op.cls.index) ++ op.hands s.mem))
    (hcap : ∀ cpu, owner = .cpu cpu → xs'.length ≤ C.localCapacity)
    (hmem : Outside (s.nodesAt (owner, op.cls.index) ++ op.hands s.mem) s.mem mem')
    (hof : outcome.Of op.cls) :
    Moves C own s op outcome (s.setList owner op.cls mem' l') := by
  set pos := (owner, op.cls.index) with hposdef
  set s' := s.setList owner op.cls mem' l' with hs'
  have hhands' : outcome.hands s'.mem = outcome.slot.toList ++ ys' := congrArg _ hbatch'.nodes_eq
  have hhas : ∀ pos' ∈ positions C,
      (s'.listAt pos').Has mem' (update s.nodesAt pos xs' pos') := by
    intro pos' hpos'
    rw [hs', listAt_setList, update_apply]
    split_ifs with hne
    · exact hl'
    · exact (hkeeps.linked pos' hpos').has.outside hmem (disjoint_touched hnodup hpos hpos' hne)
  have hnodes : ∀ pos' ∈ positions C, s'.nodesAt pos' = update s.nodesAt pos xs' pos' :=
    fun pos' hpos' => (hhas pos' hpos').nodes_eq
  have hmine : ∀ a ∈ xs' ++ (outcome.slot.toList ++ ys'), own op.cls.index a := by
    intro a ha
    rcases mem_append.mp (hperm.mem_iff.mp ha) with ha | ha
    · exact hkeeps.owned pos hpos a ha
    · exact howned a ha
  refine ⟨⟨fun pos' hpos' => (hhas pos' hpos').linked, ?_, ?_⟩, hbatch'.linked, ?_, hof, ?_, ?_⟩
  · intro pos' hpos' slot hslot
    rw [hnodes pos' hpos', update_apply] at hslot
    split_ifs at hslot with hne
    · rw [hne]
      exact hmine slot (mem_append_left _ hslot)
    · exact hkeeps.owned pos' hpos' slot hslot
  · intro pos' hpos' cpu hcpu
    rw [(hhas pos' hpos').len, update_apply]
    split_ifs with hne
    · rw [hne] at hcpu
      exact hcap cpu hcpu
    · exact (hkeeps.linked pos' hpos').has.len ▸ hkeeps.bounded pos' hpos' cpu hcpu
  · intro slot hslot
    rw [hhands'] at hslot
    exact hmine slot (mem_append_right _ hslot)
  · have hfun : ∀ pos' ∈ positions C, (s'.nodesAt pos' : Multiset ℕ) =
        update (fun pos => (s.nodesAt pos : Multiset ℕ)) pos xs' pos' := by
      intro pos' hpos'
      rw [hnodes pos' hpos']
      exact apply_update (fun _ (xs : List ℕ) => (xs : Multiset ℕ)) _ _ _ _
    rw [inLists, map_congr_left hfun]
    apply sum_map_move (nodup_positions C) hpos
    rw [hhands', coe_add, coe_add]
    exact Multiset.coe_eq_coe.mpr hperm
  · intro a ha
    refine hmem a fun hmem => ha ?_
    exact mem_of_le (touched_le hpos) hmem

include hkeeps hnodup howned in
theorem moves_hands {ys' : List ℕ} (hbatch' : outcome.batch.Has mem' ys')
    (hperm : (outcome.slot.toList ++ ys').Perm (op.hands s.mem))
    (hmem : Outside (op.hands s.mem) s.mem mem') (hof : outcome.Of op.cls) :
    Moves C own s op outcome { s with mem := mem' } := by
  have hhands' : outcome.hands mem' = outcome.slot.toList ++ ys' := by
    rw [Outcome.hands, hbatch'.nodes_eq]
  have hsame : ∀ pos ∈ positions C, ∀ a ∈ s.nodesAt pos, mem' a = s.mem a := by
    intro pos hpos a ha
    refine hmem a fun hmine => ?_
    exact Multiset.disjoint_left.mp (Multiset.nodup_add.mp hnodup).2.2 (mem_of_le (le_sum_map
        (fun pos => (s.nodesAt pos : Multiset ℕ)) hpos) ha) hmine
  obtain ⟨hkeeps', hlists⟩ := hkeeps.congr mem' hsame s.storageReady
  refine ⟨hkeeps', hbatch'.linked, ?_, hof, ?_, ?_⟩
  · intro slot hslot
    rw [hhands'] at hslot
    exact howned slot (hperm.mem_iff.mp hslot)
  · rw [hlists, hhands', Multiset.coe_eq_coe.mpr hperm]
  · intro a ha
    exact hmem a fun hmine => ha (Multiset.mem_add.mpr (.inr hmine))

include hkeeps hnodup howned hbatch in
theorem moves_still (hsame : outcome.batch = op.batch) (hslot : outcome.slot = op.slot)
    (hof : outcome.Of op.cls) : Moves C own s op outcome s := by
  apply moves_hands hkeeps howned hnodup (hsame ▸ hbatch.has) _ (fun _ _ => rfl) hof
  rw [hslot, hsame]
  exact List.Perm.refl _

include hkeeps hnodup howned hbatch in
/-- **a step of a call returns and loses no slot.** -/
theorem exec_moves {cpu : ℕ} (hcpu : cpu < C.cpuCount) (hindex : op.cls.index < C.classCount)
    (haligned : ∀ a ∈ s.inLists C + (op.hands s.mem : Multiset ℕ), a % minClassBytes = 0)
    (hcard : Multiset.card (s.inLists C + (op.hands s.mem : Multiset ℕ)) < wordSize) :
    ∃ outcome s', exec C cpu s op = .ok (outcome, s') ∧ Moves C own s op outcome s' := by
  have hcentral : (Owner.central, op.cls.index) ∈ positions C :=
    mem_positions.mpr ⟨.inl rfl, hindex⟩
  have hlocal : (Owner.cpu cpu, op.cls.index) ∈ positions C :=
    mem_positions.mpr ⟨.inr ⟨cpu, hcpu, rfl⟩, hindex⟩
  have hlist : ∀ pos ∈ positions C, (s.listAt pos).Has s.mem (s.nodesAt pos) :=
    fun pos hpos => (hkeeps.linked pos hpos).has
  have hnd : ∀ pos ∈ positions C, (s.nodesAt pos ++ op.hands s.mem).Nodup :=
    fun pos hpos => Multiset.coe_nodup.mp (Multiset.nodup_of_le (touched_le hpos) hnodup)
  have hal : ∀ pos ∈ positions C, Aligned (s.nodesAt pos ++ op.hands s.mem) :=
    fun pos hpos a ha => haligned a (mem_of_le (touched_le hpos) ha)
  have hlen : ∀ pos ∈ positions C,
      (s.nodesAt pos).length + (op.hands s.mem).length < wordSize := by
    intro pos hpos
    have hle : Multiset.card ((s.nodesAt pos ++ op.hands s.mem : List ℕ) : Multiset ℕ) ≤
        Multiset.card (s.inLists C + (op.hands s.mem : Multiset ℕ)) :=
      Multiset.card_le_card (touched_le hpos)
    rw [Multiset.coe_card, length_append] at hle
    omega
  have hcap : (s.nodesAt (.cpu cpu, op.cls.index)).length ≤ C.localCapacity := by
    have hlocal_len := (hlist _ hlocal).len
    have hbound := hkeeps.bounded _ hlocal cpu rfl
    omega
  cases op with
  | allocate cls =>
    simp only [exec]
    split
    all_goals exact ⟨_, _, rfl, moves_still hkeeps hbatch howned hnodup rfl rfl rfl⟩
  | localPop cls =>
    have hl : (s.lists (.cpu cpu) cls.index).Has s.mem (s.nodesAt (.cpu cpu, cls.index)) :=
      hlist _ hlocal
    cases hnodes : s.nodesAt (.cpu cpu, cls.index) with
    | nil =>
      rw [hnodes] at hl
      refine ⟨.next (.centralTake cls), _, ?_, moves_list hkeeps howned hnodup hlocal hl
        (Has.new _) ?_ (fun _ _ => Nat.zero_le _) (fun _ _ => rfl) rfl⟩
      · simp only [exec, pop_nil hl, ok_bind, pure_eq, Op.cls]
      · rw [Op.cls, hnodes]
        exact List.Perm.refl _
    | cons x xs =>
      rw [hnodes] at hl
      rw [Op.cls, hnodes] at hcap
      obtain ⟨l, hpop, hl'⟩ := pop_cons hl
      refine ⟨.returns cls x, _, ?_, moves_list hkeeps howned hnodup hlocal hl'
        (Has.new _) ?_ (fun _ _ => (Nat.le_succ _).trans hcap) (fun _ _ => rfl) rfl⟩
      · simp only [exec, hpop, ok_bind, pure_eq, Op.cls]
      · rw [Op.cls, hnodes]
        exact (perm_append_singleton x xs).trans (List.Perm.of_eq (append_nil _).symm)
  | centralTake cls =>
    have hl : (s.lists .central cls.index).Has s.mem (s.nodesAt (.central, cls.index)) :=
      hlist _ hcentral
    have hhands : (Op.centralTake cls).hands s.mem = [] := rfl
    have hnd' := hnd _ hcentral
    have hal' := hal _ hcentral
    rw [hhands, append_nil] at hnd' hal'
    obtain ⟨mem', l, batch, htake, hl', hbatch', hmem⟩ :=
      takeUpTo_has C.transferBatch hl hnd' hal' (lt_of_le_of_lt (Nat.le_add_right _ _)
        (hlen _ hcentral))
    refine ⟨.next (.batchPop cls batch), _, ?_, moves_list hkeeps howned hnodup hcentral hl'
      hbatch' ?_ (by rintro _ ⟨⟩) ?_ rfl⟩
    · simp only [exec, htake, ok_bind, pure_eq, Op.cls]
    · have hparts := take_append_drop C.transferBatch (s.nodesAt (.central, cls.index))
      rw [hhands, append_nil]
      exact (perm_append_comm.trans ((reverse_perm _).append_right _)).trans
        (List.Perm.of_eq hparts)
    · rw [hhands, append_nil]
      exact hmem
  | batchPop cls batch =>
    have hb : batch.Has s.mem (batch.nodes s.mem) := hbatch.has
    cases hnodes : batch.nodes s.mem with
    | nil =>
      rw [hnodes] at hb
      refine ⟨.done, _, ?_, moves_hands hkeeps howned hnodup (Has.new _) ?_ (fun _ _ => rfl)
        trivial⟩
      · simp only [exec, pop_nil hb, ok_bind, pure_eq]
      · rw [Op.hands, Op.batch, hnodes]
        exact List.Perm.refl _
    | cons x xs =>
      rw [hnodes] at hb
      obtain ⟨batch', hpop, hb'⟩ := pop_cons hb
      refine ⟨.next (.batchReady cls batch' x), _, ?_, moves_hands hkeeps howned hnodup hb' ?_
        (fun _ _ => rfl) rfl⟩
      · simp only [exec, hpop, ok_bind, pure_eq]
      · rw [Op.hands, Op.batch, hnodes]
        exact List.Perm.refl _
  | batchReady cls batch allocated =>
    simp only [exec]
    split
    all_goals exact ⟨_, _, rfl, moves_still hkeeps hbatch howned hnodup rfl rfl rfl⟩
  | publishLocal cls batch allocated =>
    have hl : (s.lists (.cpu cpu) cls.index).Has s.mem (s.nodesAt (.cpu cpu, cls.index)) :=
      hlist _ hlocal
    have hb : batch.Has s.mem (batch.nodes s.mem) := hbatch.has
    have hsub : (s.nodesAt (.cpu cpu, cls.index) ++ batch.nodes s.mem).Sublist
        (s.nodesAt (.cpu cpu, cls.index) ++ (allocated :: batch.nodes s.mem)) :=
      (sublist_cons_self _ _).append_left _
    have hlen' : (s.nodesAt (.cpu cpu, cls.index)).length + (allocated :: batch.nodes s.mem).length
      < wordSize := hlen _ hlocal
    rw [length_cons] at hlen'
    obtain ⟨mem', l, batch', xs', ys', hrun, hl', hb', hperm, hcap', hmem⟩ :=
      refillLocal_has hl hb ((hnd _ hlocal).sublist hsub)
        (fun a ha => hal _ hlocal a (mem_append_right _ (mem_cons_of_mem _ ha)))
        (by omega) hcap
    refine ⟨.next (.publishCentral cls batch' (some allocated)), _, ?_,
      moves_list hkeeps howned hnodup hlocal hl' hb' ?_ (fun _ _ => hcap') ?_ rfl⟩
    · simp only [exec, hrun, ok_bind, pure_eq, Op.cls]
    · exact (perm_middle.trans (hperm.cons _)).trans perm_middle.symm
    · intro a ha
      exact hmem a fun hx => ha (mem_append_right _ (mem_cons_of_mem _ hx))
  | publishCentral cls batch result =>
    have hl : (s.lists .central cls.index).Has s.mem (s.nodesAt (.central, cls.index)) :=
      hlist _ hcentral
    have hb : batch.Has s.mem (batch.nodes s.mem) := hbatch.has
    have hreturned : (returned cls result).slot = result ∧
        (returned cls result).batch = .new ∧ (returned cls result).Of cls := by
      cases result with
      | none => exact ⟨rfl, rfl, trivial⟩
      | some ptr => exact ⟨rfl, rfl, rfl⟩
    obtain ⟨hslot, hnone, hof⟩ := hreturned
    have hnew : ∀ mem, (returned cls result).batch.Has mem [] := fun mem => hnone ▸ Has.new mem
    by_cases hempty : batch.isEmpty = true
    · refine ⟨returned cls result, _, ?_, moves_hands hkeeps howned hnodup (hnew _) ?_
        (fun _ _ => rfl) hof⟩
      · simp only [exec, if_pos hempty, pure_eq]
      · rw [hslot, Op.hands, Op.batch, hb.isEmpty_iff.mp hempty]
        exact List.Perm.refl _
    · have hnd' : (batch.nodes s.mem ++ s.nodesAt (.central, cls.index)).Nodup := by
        refine nodup_append_comm.mp ((hnd _ hcentral).sublist ?_)
        exact (sublist_append_right _ _).append_left _
      have hlen' : (s.nodesAt (.central, cls.index)).length +
        (result.toList ++ batch.nodes s.mem).length < wordSize := hlen _ hcentral
      rw [length_append] at hlen'
      obtain ⟨mem', l, hrun, hl', hmem⟩ := append_has hl hb hnd' (by omega)
      refine ⟨returned cls result, _, ?_, moves_list hkeeps howned hnodup hcentral hl' (hnew _) ?_
        (by rintro _ ⟨⟩) ?_ hof⟩
      · simp only [exec, if_neg hempty, hrun, ok_bind, pure_eq, Op.cls]
      · rw [hslot, append_nil, append_assoc]
        exact perm_append_comm.trans (List.Perm.of_eq (append_assoc _ _ _))
      · intro a ha
        exact hmem a fun hx => ha (mem_append_right _ (mem_append_right _ hx))
  | deallocate cls ptr =>
    by_cases hready : s.storageReady = true
    · refine ⟨.next (.releaseLocal cls ptr), _, ?_, moves_still hkeeps hbatch howned hnodup
        rfl rfl rfl⟩
      simp only [exec, if_pos hready, pure_eq]
    · have halign : ptr % minClassBytes = 0 :=
        haligned ptr (Multiset.mem_add.mpr (.inr mem_cons_self))
      obtain ⟨mem', one, hrun, hone, hmem⟩ := push_has (Has.new s.mem) halign
        not_mem_nil (by decide)
      refine ⟨.next (.publishCentral cls one none), _, ?_, moves_hands hkeeps howned hnodup hone
        (List.Perm.refl _) hmem rfl⟩
      simp only [exec, if_neg hready, hrun, ok_bind, pure_eq]
  | releaseLocal cls ptr =>
    have hl : (s.lists (.cpu cpu) cls.index).Has s.mem (s.nodesAt (.cpu cpu, cls.index)) :=
      hlist _ hlocal
    have hswap : (ptr :: s.nodesAt (.cpu cpu, cls.index)).Perm
        (s.nodesAt (.cpu cpu, cls.index) ++ [ptr]) := (perm_append_singleton _ _).symm
    obtain ⟨mem', l, drain, xs', ys', hrun, hl', hdrain, hperm, hcap', hmem⟩ :=
      releaseLocal_has hl (hswap.nodup_iff.mpr (hnd _ hlocal))
        (fun a ha => hal _ hlocal a (hswap.mem_iff.mp ha)) (hlen _ hlocal) hcap
    refine ⟨.next (.publishCentral cls drain none), _, ?_,
      moves_list hkeeps howned hnodup hlocal hl' hdrain (hperm.trans hswap) (fun _ _ => hcap') ?_
        rfl⟩
    · simp only [exec, hrun, ok_bind, pure_eq, Op.cls]
    · intro a ha
      exact hmem a fun hx => ha (hswap.mem_iff.mp hx)

end Steps

end Anemone.Slab
