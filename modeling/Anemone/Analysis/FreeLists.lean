import Anemone.Interface.SlabPlaces

/-!
# The operations of a free list

`Has mem l xs`: the list is linked in the memory and its nodes are `xs`.  Every operation returns,
and writes to the nodes that it moves only.
-/

namespace Anemone.Slab

open Checked (ok_bind pure_eq assert_of expect_some wordSize)
open List Nat

variable {C : Config} {mem mem' : Mem} {l other taken : FreeList} {xs ys : List ℕ}

/-- A linked list and its nodes. -/
structure FreeList.Has (mem : Mem) (l : FreeList) (xs : List ℕ) : Prop where
  ends : Links.Linked mem l.head xs
  len : l.len = xs.length
  tail : l.tail = xs.getLast?

def Aligned (xs : List ℕ) : Prop := ∀ x ∈ xs, x % minClassBytes = 0

def Outside (xs : List ℕ) (mem mem' : Mem) : Prop := ∀ a, a ∉ xs → mem' a = mem a

namespace FreeList

namespace Has

theorem nodes_eq (h : l.Has mem xs) : l.nodes mem = xs := by
  rw [nodes, h.len, h.ends.follow_eq]

theorem linked (h : l.Has mem xs) : l.Linked mem := by
  refine ⟨?_, ?_, ?_, ?_, ?_⟩
  · rw [h.nodes_eq]
    exact h.ends
  · rw [h.nodes_eq]
    exact h.len
  · rw [h.nodes_eq]
    exact h.tail
  · rw [h.nodes_eq, h.ends.head_eq]
    exact head?_eq_none_iff
  · rw [h.nodes_eq, h.tail]
    exact getLast?_eq_none_iff

theorem congr (h : l.Has mem xs) (hsame : ∀ a ∈ xs, mem' a = mem a) : l.Has mem' xs :=
  ⟨h.ends.congr hsame, h.len, h.tail⟩

theorem outside (h : l.Has mem xs) (hmem : Outside ys mem mem') (hdisjoint : xs.Disjoint ys) :
    l.Has mem' xs :=
  h.congr fun a ha => hmem a fun hy => hdisjoint ha hy

theorem new (mem : Mem) : FreeList.new.Has mem [] := ⟨rfl, rfl, rfl⟩

theorem isEmpty_iff (h : l.Has mem xs) : l.isEmpty = true ↔ xs = [] := by
  rw [isEmpty, h.ends.head_eq, Option.isNone_iff_eq_none]
  exact head?_eq_none_iff

theorem tail_isSome (h : l.Has mem xs) (hne : xs ≠ []) : l.tail.isSome = true := by
  rw [h.tail]
  exact getLast?_isSome.mpr hne

end Has

theorem Linked.has (h : l.Linked mem) : l.Has mem (l.nodes mem) := ⟨h.ends, h.len, h.tail⟩

theorem push_has (h : l.Has mem xs) {ptr : ℕ} (haligned : ptr % minClassBytes = 0)
    (hnew : ptr ∉ xs) (hlen : xs.length + 1 < wordSize) :
    ∃ mem' l', l.push mem ptr = .ok (mem', l') ∧ l'.Has mem' (ptr :: xs) ∧
      Outside [ptr] mem mem' := by
  have htail : (if l.isEmpty then some ptr else l.tail) = (ptr :: xs).getLast? := by
    by_cases hempty : xs = []
    · rw [if_pos (h.isEmpty_iff.mpr hempty), hempty]
      rfl
    · rw [if_neg (fun hc => hempty (h.isEmpty_iff.mp hc)), h.tail]
      obtain ⟨x, xs, rfl⟩ := exists_cons_of_ne_nil hempty
      rw [getLast?_cons_cons]
  have hsome : (if l.isEmpty then some ptr else l.tail).isSome = true := by
    rw [htail]
    exact getLast?_isSome.mpr (cons_ne_nil _ _)
  have hadd : checkedAdd l.len 1 = some (l.len + 1) := if_pos (by rw [h.len]; exact hlen)
  refine ⟨_, ⟨some ptr, if l.isEmpty then some ptr else l.tail, l.len + 1⟩, ?_,
    ⟨h.ends.push hnew, ?_, htail⟩, ?_⟩
  · simp only [push, assert_of _ haligned, hadd, assert_of _ hsome, expect_some, ok_bind, pure_eq]
  · rw [length_cons, h.len]
  · intro a ha
    exact Function.update_of_ne (ne_of_not_mem_cons ha) _ _

theorem pop_nil (h : l.Has mem []) : l.pop mem = .ok (none, l) := by
  have hhead : l.head = none := h.ends
  rw [pop, hhead]
  rfl

theorem pop_cons {x : ℕ} (h : l.Has mem (x :: xs)) :
    ∃ l', l.pop mem = .ok (some x, l') ∧ l'.Has mem xs := by
  obtain ⟨hhead, hrest⟩ := h.ends
  have hsub : checkedSub l.len 1 = some xs.length := by
    rw [h.len, length_cons]
    exact if_pos (le_add_left 1 _)
  simp only [pop, hhead, hsub, expect_some, ok_bind]
  cases xs with
  | nil =>
    have hnext : mem x = none := hrest
    refine ⟨⟨none, none, 0⟩, ?_, ⟨rfl, rfl, rfl⟩⟩
    simp only [hnext, length_nil, assert_of _ trivial, ok_bind, pure_eq]
  | cons y xs =>
    obtain ⟨hnext, hrest'⟩ := hrest
    have htail := h.tail_isSome (cons_ne_nil _ _)
    refine ⟨⟨some y, l.tail, (y :: xs).length⟩, ?_, ⟨⟨rfl, hrest'⟩, rfl, ?_⟩⟩
    · simp only [hnext]
      rw [assert_of _ (by simp), ok_bind, assert_of _ htail]
      rfl
    · rw [h.tail, getLast?_cons_cons]

/-- the nodes are taken one by one, and so in reverse order. -/
theorem takeLoop_has (rounds : ℕ) (hl : l.Has mem xs) (htaken : taken.Has mem ys)
    (hnodup : (xs ++ ys).Nodup) (haligned : Aligned xs)
    (hlen : xs.length + ys.length < wordSize) :
    ∃ mem' l' taken', takeLoop rounds mem l taken = .ok (mem', l', taken') ∧
      l'.Has mem' (xs.drop rounds) ∧ taken'.Has mem' ((xs.take rounds).reverse ++ ys) ∧
      Outside xs mem mem' := by
  induction rounds generalizing mem l taken xs ys with
  | zero => exact ⟨mem, l, taken, rfl, hl, htaken, fun _ _ => rfl⟩
  | succ rounds ih =>
    cases xs with
    | nil =>
      refine ⟨mem, l, taken, ?_, hl, htaken, fun _ _ => rfl⟩
      rw [takeLoop, pop_nil hl]
      rfl
    | cons x xs =>
      rw [cons_append, nodup_cons] at hnodup
      rw [length_cons] at hlen
      obtain ⟨l₁, hpop, hl₁⟩ := pop_cons hl
      obtain ⟨mem₁, taken₁, hpush, htaken₁, hmem₁⟩ := push_has htaken
        (haligned x mem_cons_self) (fun hx => hnodup.1 (mem_append_right _ hx)) (by omega)
      have hl₂ : l₁.Has mem₁ xs := by
        refine hl₁.outside hmem₁ (disjoint_singleton.mpr fun hx => hnodup.1 ?_)
        exact mem_append_left _ hx
      obtain ⟨mem₂, l₂, taken₂, hrun, hl₃, htaken₂, hmem₂⟩ := ih hl₂ htaken₁
        (perm_middle.nodup_iff.mpr (nodup_cons.mpr hnodup))
        (fun y hy => haligned y (mem_cons_of_mem _ hy)) (by rw [length_cons]; omega)
      refine ⟨mem₂, l₂, taken₂, ?_, hl₃, ?_, fun a ha => ?_⟩
      · simp only [takeLoop, hpop, hpush, hrun, ok_bind]
      · rw [take_succ_cons, reverse_cons, append_assoc]
        exact htaken₂
      · rw [hmem₂ a (fun hx => ha (mem_cons_of_mem _ hx)),
          hmem₁ a (fun hx => ha (mem_singleton.mp hx ▸ mem_cons_self))]

theorem takeUpTo_has (limit : ℕ) (hl : l.Has mem xs) (hnodup : xs.Nodup) (haligned : Aligned xs)
    (hlen : xs.length < wordSize) :
    ∃ mem' l' taken, l.takeUpTo mem limit = .ok (mem', l', taken) ∧
      l'.Has mem' (xs.drop limit) ∧ taken.Has mem' (xs.take limit).reverse ∧
      Outside xs mem mem' := by
  have hrun := takeLoop_has limit hl (Has.new mem) (by rwa [append_nil]) haligned hlen
  simpa only [takeUpTo, append_nil] using hrun

theorem append_has (hl : l.Has mem xs) (hother : other.Has mem ys) (hnodup : (ys ++ xs).Nodup)
    (hlen : xs.length + ys.length < wordSize) :
    ∃ mem' l', l.append mem other = .ok (mem', l') ∧ l'.Has mem' (ys ++ xs) ∧
      Outside ys mem mem' := by
  unfold append
  by_cases hys : ys = []
  · subst hys
    have htail : other.tail = none := hother.tail
    have hzero : other.len = 0 := hother.len
    refine ⟨mem, l, ?_, hl, fun _ _ => rfl⟩
    rw [if_pos (hother.isEmpty_iff.mpr rfl), assert_of _ htail, ok_bind, assert_of _ hzero]
    rfl
  have hother_len : other.len ≠ 0 := by
    rw [hother.len]
    exact fun hc => hys (length_eq_zero_iff.mp hc)
  rw [if_neg (fun hc => hys (hother.isEmpty_iff.mp hc)),
    assert_of _ (hother.tail_isSome hys), ok_bind, assert_of _ hother_len,
    ok_bind]
  by_cases hxs : xs = []
  · subst hxs
    have htail : l.tail = none := hl.tail
    have hzero : l.len = 0 := hl.len
    refine ⟨mem, other, ?_, by rwa [append_nil], fun _ _ => rfl⟩
    rw [if_pos (hl.isEmpty_iff.mpr rfl), assert_of _ htail, ok_bind, assert_of _ hzero]
    rfl
  have hl_len : l.len ≠ 0 := by
    rw [hl.len]
    exact fun hc => hxs (length_eq_zero_iff.mp hc)
  have hadd : checkedAdd l.len other.len = some (l.len + other.len) :=
    if_pos (by rw [hl.len, hother.len]; exact hlen)
  obtain ⟨last, hlast⟩ := Option.isSome_iff_exists.mp (hother.tail_isSome hys)
  have hlast' : ys.getLast? = some last := hother.tail.symm.trans hlast
  refine ⟨_, ⟨other.head, l.tail, l.len + other.len⟩, ?_,
    ⟨hother.ends.append hlast' hl.ends hnodup, ?_, ?_⟩, ?_⟩
  · rw [if_neg (fun hc => hxs (hl.isEmpty_iff.mp hc)), assert_of _ (hl.tail_isSome hxs),
      ok_bind, assert_of _ hl_len, ok_bind, hadd, hlast]
    rfl
  · rw [length_append, hl.len, hother.len, add_comm]
  · rw [getLast?_append, hl.tail]
    obtain ⟨x, hx⟩ := Option.isSome_iff_exists.mp (getLast?_isSome.mpr hxs)
    rw [hx]
    rfl
  · intro a ha
    refine Function.update_of_ne ?_ _ _
    rintro rfl
    exact ha (mem_of_getLast? hlast')

end FreeList

open FreeList

/-- **a batch goes into a local list** as far as there is room. -/
theorem refillLocal_has (hl : l.Has mem xs) (hbatch : other.Has mem ys)
    (hnodup : (xs ++ ys).Nodup) (haligned : Aligned ys)
    (hlen : xs.length + ys.length < wordSize) (hcap : xs.length ≤ C.localCapacity) :
    ∃ mem' l' batch' xs' ys', refillLocal C mem l other = .ok (mem', l', batch') ∧
      l'.Has mem' xs' ∧ batch'.Has mem' ys' ∧ (xs' ++ ys').Perm (xs ++ ys) ∧
      xs'.length ≤ C.localCapacity ∧ Outside ys mem mem' := by
  obtain ⟨hxs, hys, hdisjoint⟩ := nodup_append'.mp hnodup
  obtain ⟨mem₁, batch', taken, htake, hbatch', htaken, hmem₁⟩ :=
    takeUpTo_has (C.localCapacity - l.len) hbatch hys haligned (by omega)
  have hl₁ : l.Has mem₁ xs := hl.outside hmem₁ hdisjoint
  have hsplit : ((ys.take (C.localCapacity - l.len)).reverse ++ xs).Nodup := by
    refine nodup_append'.mpr ⟨nodup_reverse.mpr (hys.sublist (take_sublist _ _)),
      hxs, fun a ha hx => hdisjoint hx (mem_of_mem_take (mem_reverse.mp ha))⟩
  have htaken_len : (ys.take (C.localCapacity - l.len)).reverse.length ≤
      C.localCapacity - xs.length := by
    rw [length_reverse, length_take, hl.len]
    exact min_le_left _ _
  have htaken_le : (ys.take (C.localCapacity - l.len)).reverse.length ≤ ys.length := by
    rw [length_reverse, length_take]
    exact min_le_right _ _
  obtain ⟨mem₂, l', happend, hl', hmem₂⟩ := append_has hl₁ htaken hsplit (by omega)
  have hrest : batch'.Has mem₂ (ys.drop (C.localCapacity - l.len)) := by
    refine hbatch'.outside hmem₂ fun a ha hx => ?_
    have hsplit_ys := take_append_drop (C.localCapacity - l.len) ys
    rw [← hsplit_ys] at hys
    exact (nodup_append'.mp hys).2.2 (mem_reverse.mp hx) ha
  have hbound : l'.len ≤ C.localCapacity := by
    rw [hl'.len, length_append]
    omega
  have hbefore : l.len ≤ C.localCapacity := by
    rw [hl.len]
    exact hcap
  refine ⟨mem₂, l', batch', _, _, ?_, hl', hrest, ?_, by rw [← hl'.len]; exact hbound, ?_⟩
  · simp only [refillLocal, assert_of _ hbefore, htake, happend,
      assert_of _ hbound, ok_bind, pure_eq]
  · have hswap : ((ys.take (C.localCapacity - l.len)).reverse ++ xs).Perm
        (xs ++ ys.take (C.localCapacity - l.len)) :=
      perm_append_comm.trans ((reverse_perm _).append_left _)
    have hparts := hswap.append_right (ys.drop (C.localCapacity - l.len))
    rwa [append_assoc xs, take_append_drop] at hparts
  · intro a ha
    rw [hmem₂ a (fun hx => ha (mem_of_mem_take (mem_reverse.mp hx))), hmem₁ a ha]

/-- **a slot goes into a local list**, which gives up a batch if it is too long. -/
theorem releaseLocal_has (hl : l.Has mem xs) {ptr : ℕ} (hnodup : (ptr :: xs).Nodup)
    (haligned : Aligned (ptr :: xs)) (hlen : xs.length + 1 < wordSize)
    (hcap : xs.length ≤ C.localCapacity) :
    ∃ mem' l' drain xs' ys', releaseLocal C mem l ptr = .ok (mem', l', drain) ∧
      l'.Has mem' xs' ∧ drain.Has mem' ys' ∧ (xs' ++ ys').Perm (ptr :: xs) ∧
      xs'.length ≤ C.localCapacity ∧ Outside (ptr :: xs) mem mem' := by
  have hbefore : l.len ≤ C.localCapacity := by
    rw [hl.len]
    exact hcap
  obtain ⟨mem₁, l₁, hpush, hl₁, hmem₁⟩ := push_has hl (haligned ptr mem_cons_self)
    (nodup_cons.mp hnodup).1 hlen
  have hmem₁' : Outside (ptr :: xs) mem mem₁ := fun a ha =>
    hmem₁ a fun hx => ha (mem_singleton.mp hx ▸ mem_cons_self)
  have hbatch := C.batch_pos
  by_cases hfull : l₁.len > C.localCapacity
  · obtain ⟨mem₂, l₂, drain, htake, hl₂, hdrain, hmem₂⟩ :=
      takeUpTo_has C.transferBatch hl₁ hnodup haligned hlen
    have hbound : l₂.len ≤ C.localCapacity := by
      rw [hl₂.len, length_drop, length_cons]
      omega
    refine ⟨mem₂, l₂, drain, _, _, ?_, hl₂, hdrain, ?_, by rw [← hl₂.len]; exact hbound, ?_⟩
    · simp only [releaseLocal, assert_of _ hbefore, hpush, if_pos hfull, htake,
        assert_of _ hbound, ok_bind, pure_eq]
    · have hparts := take_append_drop C.transferBatch (ptr :: xs)
      exact (perm_append_comm.trans ((reverse_perm _).append_right _)).trans
        (List.Perm.of_eq hparts)
    · intro a ha
      rw [hmem₂ a ha, hmem₁' a ha]
  · have hbound : l₁.len ≤ C.localCapacity := by omega
    refine ⟨mem₁, l₁, .new, _, _, ?_, hl₁, Has.new mem₁, ?_, by rw [← hl₁.len]; exact hbound,
      hmem₁'⟩
    · simp only [releaseLocal, assert_of _ hbefore, hpush, if_neg hfull,
        assert_of _ hbound, ok_bind, pure_eq]
    · rw [append_nil]

/-- The slots of a span with numbers from `index` on. -/
def slotsFrom (base slotBytes index n : ℕ) : List ℕ :=
  (List.range' index n).map fun k => base + k * slotBytes

theorem slotsFrom_succ (base slotBytes index n : ℕ) : slotsFrom base slotBytes index (n + 1) =
      (base + index * slotBytes) :: slotsFrom base slotBytes (index + 1) n := rfl

theorem nodup_slotsFrom (base : ℕ) {slotBytes : ℕ} (hpos : 0 < slotBytes) (index n : ℕ) :
    (slotsFrom base slotBytes index n).Nodup := by
  refine List.Nodup.map ?_ nodup_range'
  intro a b hab
  exact eq_of_mul_eq_mul_right hpos (add_left_cancel hab)

theorem carve_has (base slotBytes : ℕ) (rounds index : ℕ) (hl : l.Has mem xs)
    (hbase : base % minClassBytes = 0) (hslot : slotBytes % minClassBytes = 0)
    (hfits : (index + rounds) * slotBytes < wordSize)
    (hnodup : (slotsFrom base slotBytes index rounds ++ xs).Nodup)
    (hlen : rounds + xs.length < wordSize) :
    ∃ mem' l', carve base slotBytes rounds index mem l = .ok (some l', mem') ∧
      l'.Has mem' ((slotsFrom base slotBytes index rounds).reverse ++ xs) ∧
      Outside (slotsFrom base slotBytes index rounds) mem mem' := by
  induction rounds generalizing index mem l xs with
  | zero => exact ⟨mem, l, rfl, hl, fun _ _ => rfl⟩
  | succ rounds ih =>
    rw [slotsFrom_succ, cons_append, nodup_cons] at hnodup
    have hle : index * slotBytes ≤ (index + (rounds + 1)) * slotBytes :=
      mul_le_mul_right _ (le_add_right _ _)
    have hmul : checkedMul index slotBytes = some (index * slotBytes) :=
      if_pos (lt_of_le_of_lt hle hfits)
    have haligned : (base + index * slotBytes) % minClassBytes = 0 := by
      rw [add_mod, mul_mod, hbase, hslot, mul_zero]
      rfl
    obtain ⟨mem₁, l₁, hpush, hl₁, hmem₁⟩ := push_has hl haligned
      (fun hx => hnodup.1 (mem_append_right _ hx)) (by omega)
    obtain ⟨mem₂, l₂, hrun, hl₂, hmem₂⟩ := ih (index + 1) hl₁ (by rwa [add_assoc, add_comm 1])
      (perm_middle.nodup_iff.mpr (nodup_cons.mpr hnodup))
      (by rw [length_cons]; omega)
    refine ⟨mem₂, l₂, ?_, ?_, fun a ha => ?_⟩
    · simp only [carve, hmul, hpush, ok_bind, hrun]
    · rw [slotsFrom_succ, reverse_cons, append_assoc]
      exact hl₂
    · rw [slotsFrom_succ] at ha
      rw [hmem₂ a (fun hx => ha (mem_cons_of_mem _ hx)),
        hmem₁ a (fun hx => ha (mem_singleton.mp hx ▸ mem_cons_self))]

end Anemone.Slab
