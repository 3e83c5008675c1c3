import Anemone.Analysis.PrivateObjects

/-!
# Calls keep the invariant of a family

Most calls edit one address space and add no page; an anonymous mapping and a new address space
bring new objects; a fork puts new objects on top of copy-on-write pages.  The heap path and
`discard_range_inner` keep the invariant if they are careful.
-/

namespace Anemone.Uspace

open Ranges (VirtPageRange)
open Option List
open Extents (WellKeyed Over)

variable {L : Layout}

namespace World

variable {w : World} (h : w.Invariant L) {i : ℕ} {s s' : UserSpace} (hi : w.spaces i = some s)

variable {mem' : Memory} {a : VmArea} {v : PageView}

namespace Invariant

include h hi

/-- Calls that run a script and leave the memory alone. -/
theorem edit (hreg : Registered L s')
    (hkeeps : s.KeepsLeaves s' ∧ s.KeepsPages s' ∧ s'.heap = s.heap) :
    (w.set i s' w.mem).Invariant L := by
  obtain ⟨hleaves, hpages, hheap⟩ := hkeeps
  exact h.setOld hi h.sound rfl ((h.shaped i s hi).keepsPages hreg hheap hpages)
    ((h.backed i s hi).keepsLeaves hleaves) (fun j t _ hj => h.backed j t hj) hpages

variable {r : Except SysError Unit} {range : VirtPageRange}

theorem unmap (hcall : s.unmapInner L range = .ok (r, s')) : (w.set i s' w.mem).Invariant L :=
  have hshaped := h.shaped i s hi
  h.edit hi (hshaped.registered.unmapInner hcall)
    (UserSpace.unmapInner_keeps hshaped.wellKeyed hcall)

variable {prot : Protection}

theorem protectSlow (hheap : ¬ s.OnHeapPath L range)
    (hcall : s.protectRange L range prot = .ok (r, s')) :
    (w.set i s' w.mem).Invariant L :=
  have hshaped := h.shaped i s hi
  h.edit hi (hshaped.registered.protectRange hcall)
    (UserSpace.protectRange_keeps hshaped.wellKeyed hshaped.registered hheap hcall)

omit h hi in
theorem view_eq_of_vmas (hvmas : s'.vmas = s.vmas) : s'.view = s.view := by
  funext vpn
  unfold UserSpace.view
  rw [hvmas]

omit h hi in
theorem keepsPages_of_vmas (hvmas : s'.vmas = s.vmas) : s.KeepsPages s' := .of_le fun vpn v hv => by
    rw [← view_eq_of_vmas hvmas]
    exact hv

theorem fault {walk : ℕ → Bool} {addr : ℕ} {access : PageFaultType}
    {continuation : PageAccessContinuation} {r : Except SysError LeafPteCommit}
    (hcall : s.resolvePageAccess L w.mem walk addr access continuation = .ok (r, s', mem')) :
    (w.set i s' mem').Invariant L := by
  have hshaped := h.shaped i s hi
  have hm := hshaped.wellKeyed
  have hfault := UserSpace.resolvePageAccess_faulted hm
    (fun k a ha => hshaped.internal _ _ (UserSpace.view_start hm ha)) h.sound hcall
  have hpages := keepsPages_of_vmas hfault.vmas
  have hreg : Registered L s' := by
    obtain ⟨hregistry, hstack, hheap⟩ := hshaped.registered
    exact ⟨hfault.vmas ▸ hregistry, hfault.stack.trans hstack, hfault.heap ▸ hheap⟩
  apply h.setOld hi hfault.sound hfault.grows.nextObject
    (hshaped.keepsPages hreg hfault.heap hpages) _ _ hpages
  · intro vpn pte hleaf hw
    rw [view_eq_of_vmas hfault.vmas]
    rcases hfault.leaf vpn pte hleaf hw with hold | hnew
    · obtain ⟨v, hv, hprot, hheld⟩ := h.backed i s hi vpn pte hold hw
      exact ⟨v, hv, hprot, hfault.grows.holds hheld⟩
    · exact hnew
  · intro j t _ hj
    exact (h.backed j t hj).mono fun _ _ _ _ _ _ hheld => hfault.grows.holds hheld

/-- **Withdrawing the pages of a range** keeps the invariant if no other address
space has a writable leaf on one of them.  In the same address space such a leaf is in the
range itself, since no page of an object is there twice. -/
theorem withdraw (hgone : UserSpace.Withdraws range s w.mem s' mem') (hreg : Registered L s')
    (hbrk : s'.heap.brk ≤ toVirtAddr L.heapRange.stop)
    (hothers : ∀ j t, j ≠ i → w.spaces j = some t → ∀ vpn v pte, t.table[vpn]? = some pte →
      pte.flags.write = true → t.view vpn = some v → ∀ o, v.backing.top = some o →
      ¬ s.PagesIn range o v.pidx) :
    (w.set i s' mem').Invariant L := by
  have hshaped := h.shaped i s hi
  have hview := view_eq_of_vmas hgone.vmas
  have hpages := keepsPages_of_vmas hgone.vmas
  have hshaped' : s'.Shaped L w.mem.nextObject := by
    refine ⟨hreg, hbrk, ?_, ?_, ?_, ?_⟩
    · rw [hview]; exact hshaped.internal
    · rw [hview]; exact hshaped.known
    · rw [hview]; exact hshaped.slots
    · rw [hview]; exact hshaped.heap
  apply h.setOld hi (hgone.memory.sound h.sound) hgone.memory.nextObject hshaped' _ _ hpages
  · intro vpn pte hleaf hw
    rw [hgone.table] at hleaf
    split_ifs at hleaf with hin
    obtain ⟨v, hv, hprot, hheld⟩ := h.backed i s hi vpn pte hleaf hw
    refine ⟨v, by rw [hview]; exact hv, hprot, hgone.memory.holds hheld ?_⟩
    rintro o htop ⟨vpn', v', hin', hv', htop', hpidx⟩
    have hsame := hshaped.slots vpn' vpn v' v o hv' hv htop' htop hpidx
    exact hin (hsame ▸ hin')
  · intro j t hne hj
    apply (h.backed j t hj).mono
    intro vpn v pte hleaf hw hv hheld
    exact hgone.memory.holds hheld (hothers j t hne hj vpn v pte hleaf hw hv)

/-- **The program break keeps the invariant**: nobody else has the heap's pages. -/
theorem setBrk {brk : ℕ}
    (hcall : s.setBrkInner w.mem brk = .ok (r, s', mem')) : (w.set i s' mem').Invariant L := by
  have hshaped := h.shaped i s hi
  obtain ⟨⟨range, hgone, hheap⟩, hbrk⟩ := UserSpace.setBrkInner_withdraws hshaped.wellKeyed
    hshaped.registered hshaped.brk hcall
  apply h.withdraw hi hgone (hshaped.registered.setBrkInner hcall) hbrk
  rintro j t hne hj vpn v pte - - hv o htop ⟨vpn', v', hin', hv', htop', -⟩
  have hres := UserSpace.reservation_of_heap hshaped.registered (hheap vpn' hin') hv'
  exact h.owned j i t s vpn vpn' v v' hj hi hv hv' (hshaped.heap vpn' v' hv' hres).2 (.inr hne) o
    htop (VmObject.mem_ids_of_top htop')

theorem discard (hcareful : w.CarefulDiscard L i range)
    (hcall : s.discardRangeInner L w.mem range = .ok (r, s', mem')) :
    (w.set i s' mem').Invariant L := by
  have hshaped := h.shaped i s hi
  rcases UserSpace.discardRangeInner_cases hshaped.wellKeyed hcall with
    ⟨-, rfl, rfl⟩ | ⟨hvalid, hcovers, hgone, hstack, hheap⟩
  · exact h.edit hi hshaped.registered ⟨.refl _, keepsPages_of_vmas rfl, rfl⟩
  · have hreg : Registered L s' := by
      obtain ⟨hregistry, hstackAt, hheapAt⟩ := hshaped.registered
      exact ⟨hgone.vmas ▸ hregistry, hstack ▸ hstackAt, hheap ▸ hheapAt⟩
    apply h.withdraw hi hgone hreg (hheap ▸ hshaped.brk)
    rintro j t hne hj vpn v pte hleaf hw hv o htop ⟨vpn', v', hin', hv', htop', hpidx⟩
    have hno := hcareful s hi hvalid hcovers j t hne hj vpn' vpn v' v pte hin' hv' hv hleaf
      (by rw [htop']; simp) (htop'.trans htop.symm) hpidx
    rw [hw] at hno
    cases hno

omit h hi in
theorem write_heapFlags (prot : Protection) (flags : PteFlags) :
    ((UserSpace.heapFlags prot flags).getD flags).write = prot.write := by
  unfold UserSpace.heapFlags
  simp only [PteFlags.inter, PteFlags.ofProtection, PteFlags.mk.injEq, Bool.and_false,
    Bool.false_eq_true, and_false, if_false, getD_some, PteFlags.union, PteFlags.compl,
    Bool.not_true, Bool.false_or]

omit h in
theorem protectRange_heap (h : w.Invariant L) (hheap : s.OnHeapPath L range)
    (hcall : s.protectRange L range prot = .ok (r, s')) :
    s' = { s with table := changeFlags s.table range (UserSpace.heapFlags prot) } := by
  obtain ⟨heap, hheapVma, hrange⟩ := (h.shaped i s hi).registered.heapVma_eq
  unfold UserSpace.protectRange at hcall
  rw [hheapVma, Checked.ok_bind, if_pos (by rw [hrange]; exact hheap)] at hcall
  cases hcall
  rfl

/-- **The heap path keeps the invariant if it makes only those leaves writable
that a read fault would.** -/
theorem protectHeap (hheap : s.OnHeapPath L range) (hcareful : w.CarefulProtect L i range prot)
    (hcall : s.protectRange L range prot = .ok (r, s')) : (w.set i s' w.mem).Invariant L := by
  have hshaped := h.shaped i s hi
  cases protectRange_heap hi h hheap hcall
  have hpages : s.KeepsPages
      { s with table := changeFlags s.table range (UserSpace.heapFlags prot) } :=
    keepsPages_of_vmas rfl
  apply h.setOld hi h.sound rfl
    (hshaped.keepsPages (hshaped.registered.protectRange hcall) rfl hpages) _
    (fun j t _ hj => h.backed j t hj) hpages
  intro vpn pte hleaf hw
  simp only [get_changeFlags, map_eq_some_iff] at hleaf
  obtain ⟨old, hold, rfl⟩ := hleaf
  split_ifs at hw ⊢ with hin
  · rw [write_heapFlags] at hw
    obtain ⟨v, hv, hheld⟩ :=
      hshaped.resolvesWritable_iff.mp (hcareful s hi hheap hw vpn old hin hold)
    have hinHeap : L.heapRange.contains vpn := ⟨hheap.1.1.trans hin.1, hin.2.trans_le hheap.1.2⟩
    have hres := UserSpace.reservation_of_heap hshaped.registered hinHeap hv
    exact ⟨v, hv, (hshaped.heap vpn v hv hres).1, hheld⟩
  · exact h.backed i s hi vpn old hold hw

theorem protect (hcareful : w.CarefulProtect L i range prot)
    (hcall : s.protectRange L range prot = .ok (r, s')) : (w.set i s' w.mem).Invariant L := by
  by_cases hheap : s.OnHeapPath L range
  · exact h.protectHeap hi hheap hcareful hcall
  · exact h.protectSlow hi hheap hcall

/-- **An anonymous mapping shows an object nobody else has.** -/
theorem mapAnonymous {mapping : AnonymousMapping} {r : Except SysError ℕ}
    (hcall : s.mapAnonymous L w.mem.nextObject mapping = .ok (r, s')) :
    (w.set i s' { w.mem with nextObject := w.mem.nextObject + 1 }).Invariant L := by
  have hshaped := h.shaped i s hi
  obtain ⟨hleaves, hheap, start, hviews⟩ := UserSpace.mapAnonymous_keeps hshaped.wellKeyed hcall
  have hreg : Registered L s' := hshaped.registered.step (.mapAnonymous _ _ hcall)
  let New (v : PageView) : Prop := ∃ npages, v.backing = .anon w.mem.nextObject npages ∧
    v.onFork = forkPolicy mapping.shared
  have hshaped' : s'.Shaped L (w.mem.nextObject + 1) := by
    refine ⟨hreg, hheap ▸ hshaped.brk, ?_, ?_, ?_, ?_⟩
    · intro vpn v hv
      rcases hviews vpn v hv with hold | ⟨-, rfl⟩
      · exact hshaped.internal vpn v hold
      · trivial
    · intro vpn v hv o ho
      rcases hviews vpn v hv with hold | ⟨-, rfl⟩
      · exact Nat.lt_succ_of_lt (hshaped.known vpn v hold o ho)
      · cases mem_singleton.mp ho
        exact Nat.lt_succ_self _
    · intro vpn vpn' v v' o hv hv' htop htop' hpidx
      rcases hviews vpn v hv with hold | ⟨hle, rfl⟩
      · rcases hviews vpn' v' hv' with hold' | ⟨-, rfl⟩
        · exact hshaped.slots vpn vpn' v v' o hold hold' htop htop' hpidx
        · cases htop'
          have := hshaped.known vpn v hold _ (VmObject.mem_ids_of_top htop)
          omega
      · rcases hviews vpn' v' hv' with hold' | ⟨hle', rfl⟩
        · cases htop
          have := hshaped.known vpn' v' hold' _ (VmObject.mem_ids_of_top htop')
          omega
        · simp only at hpidx
          omega
    · intro vpn v hv hres
      rcases hviews vpn v hv with hold | ⟨-, rfl⟩
      · exact hshaped.heap vpn v hold hres
      · cases hres
  have hsound : ({ w.mem with nextObject := w.mem.nextObject + 1 } : Memory).Sound :=
    ⟨h.sound.zero, h.sound.unique, h.sound.free, h.sound.nodup⟩
  apply h.set hsound (Nat.le_succ _) hshaped' ((h.backed i s hi).keepsLeaves hleaves)
    (fun j t _ hj => h.backed j t hj) New
  · intro vpn v hv
    rcases hviews vpn v hv with hold | ⟨-, rfl⟩
    · exact .inr ⟨s, v, hi, hold, rfl, rfl⟩
    · exact .inl ⟨_, rfl, rfl⟩
  · rintro v ⟨npages, hback, -⟩ o ho
    rw [hback] at ho
    cases mem_singleton.mp ho
    exact Nat.le_refl _
  · rintro v v' ⟨-, -, hpolicy⟩ ⟨-, -, hpolicy'⟩ hshared hcow
    rw [hpolicy, ← hpolicy', hcow] at hshared
    cases hshared

variable {stackObject heapObject : ℕ}

omit h hi in
theorem new_spec (hcall : UserSpace.new L stackObject heapObject = .ok s') :
    s'.table = ∅ ∧ s'.heap.brk = toVirtAddr L.heapRange.start ∧
      ∀ vpn v, s'.view vpn = some v → ∃ a ∈ reservations L stackObject heapObject,
        Over a vpn ∧ a.view vpn = v := by
  have hm := (registered_of_new hcall).registry.wellKeyed
  rw [new_eq] at hcall
  cases hcall
  refine ⟨rfl, rfl, ?_⟩
  intro vpn v hv
  obtain ⟨k, a, ha, hover, rfl⟩ := UserSpace.exists_area hm hv
  rcases Extents.mem_insertAll ha with hin | hget
  · exact ⟨a, hin, hover, rfl⟩
  · simp at hget

omit h hi in
theorem eq_of_top_reservations (hne : stackObject ≠ heapObject) {b : VmArea}
    (ha : a ∈ reservations L stackObject heapObject)
    (hb : b ∈ reservations L stackObject heapObject) {o : ℕ} (htop : a.backing.top = some o)
    (htop' : b.backing.top = some o) : a = b := by
  simp only [reservations, mem_cons, not_mem_nil, or_false] at ha hb
  rcases ha with rfl | rfl | rfl | rfl <;> rcases hb with rfl | rfl | rfl | rfl <;>
    cases htop <;> cases htop'
  all_goals first
    | rfl
    | exact absurd rfl hne

omit h hi in
theorem reservations_show (ha : a ∈ reservations L stackObject heapObject) :
    a.backing.Internal ∧ (∀ o ∈ a.backing.ids, o = stackObject ∨ o = heapObject) ∧
      (a.onFork = .shared → a.backing.top = none) ∧
      (a.reservation = some .heap → a.prot.write = true ∧ a.onFork = .copyOnWrite) := by
  simp only [reservations, mem_cons, not_mem_nil, or_false] at ha
  rcases ha with rfl | rfl | rfl | rfl <;>
    simp [VmArea.newReserved, VmObject.Internal, VmObject.ids, VmObject.top, Protection.rw]

omit hi in
/-- **A new address space shows two objects nobody else has.** -/
theorem create (hcall : UserSpace.new L w.mem.nextObject (w.mem.nextObject + 1) = .ok s') :
    (w.set i s' { w.mem with nextObject := w.mem.nextObject + 2 }).Invariant L := by
  obtain ⟨htable, hbrk, hviews⟩ := new_spec hcall
  let New (v : PageView) : Prop := (∀ o ∈ v.backing.ids, w.mem.nextObject ≤ o) ∧
    (v.onFork = .shared → v.backing.top = none)
  have hshaped : s'.Shaped L (w.mem.nextObject + 2) := by
    refine ⟨registered_of_new hcall, ?_, ?_, ?_, ?_, ?_⟩
    · rw [hbrk]
      exact Nat.mul_le_mul_right _ (Nat.le_add_right _ _)
    · intro vpn v hv
      obtain ⟨a, ha, -, rfl⟩ := hviews vpn v hv
      exact (reservations_show ha).1
    · intro vpn v hv o ho
      obtain ⟨a, ha, -, rfl⟩ := hviews vpn v hv
      rcases (reservations_show ha).2.1 o ho with rfl | rfl
      all_goals omega
    · intro vpn vpn' v v' o hv hv' htop htop' hpidx
      obtain ⟨a, ha, hover, rfl⟩ := hviews vpn v hv
      obtain ⟨b, hb, hover', rfl⟩ := hviews vpn' v' hv'
      cases eq_of_top_reservations (Nat.ne_of_lt (Nat.lt_succ_self _)) ha hb htop htop'
      have hlo : a.range.start ≤ vpn := hover.1
      have hlo' : a.range.start ≤ vpn' := hover'.1
      simp only [VmArea.view, VmArea.vmoPidx] at hpidx
      omega
    · intro vpn v hv hres
      obtain ⟨a, ha, -, rfl⟩ := hviews vpn v hv
      exact (reservations_show ha).2.2.2 hres
  have hsound : ({ w.mem with nextObject := w.mem.nextObject + 2 } : Memory).Sound :=
    ⟨h.sound.zero, h.sound.unique, h.sound.free, h.sound.nodup⟩
  apply h.set hsound (Nat.le_add_right _ 2) hshaped _ (fun j t _ hj => h.backed j t hj) New
  · intro vpn v hv
    obtain ⟨a, ha, -, rfl⟩ := hviews vpn v hv
    obtain ⟨-, hids, hshared, -⟩ := reservations_show ha
    refine .inl ⟨?_, hshared⟩
    intro o ho
    rcases hids o ho with rfl | rfl
    · exact Nat.le_refl _
    · exact Nat.le_succ _
  · intro v hnew
    exact hnew.1
  · intro v v' hnew _ hshared _ o htop
    rw [hnew.2 hshared] at htop
    cases htop
  · intro vpn pte hleaf
    rw [htable] at hleaf
    simp at hleaf

omit hi in
theorem exit (i : ℕ) :
    Invariant L ⟨w.mem, fun j => if j = i then none else w.spaces j⟩ := by
  have hspaces : ∀ j t, (if j = i then none else w.spaces j) = some t →
      w.spaces j = some t := by
    intro j t hj
    split_ifs at hj
    exact hj
  refine ⟨h.sound, ?_, ?_, ?_⟩
  · intro j t hj
    exact h.shaped j t (hspaces j t hj)
  · intro j t hj
    exact h.backed j t (hspaces j t hj)
  · intro j j' t t' vpn vpn' v v' hj hj'
    exact h.owned j j' t t' vpn vpn' v v' (hspaces j t hj) (hspaces j' t' hj')

omit hi in
theorem refill {frames : List ℕ}
    (hfresh : ∀ f ∈ frames, f ≠ w.mem.zeroFrame ∧
      ∀ object pidx : ℕ, (w.mem.objects object).resident[pidx]? ≠ some f)
    (hnodup : frames.Nodup) :
    Invariant L ⟨{ w.mem with freeFrames := frames }, w.spaces⟩ := by
  refine ⟨⟨h.sound.zero, h.sound.unique, hfresh, hnodup⟩, h.shaped, ?_, h.owned⟩
  intro j t hj
  apply (h.backed j t hj).mono
  intro vpn v pte _ _ _ hheld
  exact hheld.of_objects rfl

omit hi in
theorem release {object : ℕ}
    (hunused : ∀ (i : ℕ) (s : UserSpace), w.spaces i = some s →
      ∀ (k : ℕ) (a : VmArea), s.vmas[k]? = some a → object ∉ a.backing.ids) :
    Invariant L ⟨w.mem.setPages object .empty, w.spaces⟩ := by
  have hret := w.mem.retires_release object
  refine ⟨hret.sound h.sound, h.shaped, ?_, h.owned⟩
  intro j t hj
  apply (h.backed j t hj).mono
  intro vpn v pte _ _ hv hheld
  apply hret.holds hheld
  rintro o htop rfl
  obtain ⟨k, a, ha, -, rfl⟩ := UserSpace.exists_area (h.shaped j t hj).wellKeyed hv
  exact hunused j t hj k a ha (VmObject.mem_ids_of_top htop)

end Invariant

/-- One side of a fork: every area of `s`, a copy-on-write one below a shadow of its own. -/
structure Shadows (s : UserSpace) (objects : ℕ → ℕ) (s' : UserSpace) : Prop where
  get : ∀ k : ℕ, s'.vmas[k]? = (s.vmas[k]?).map fun a => a.shadowed (objects k)
  heap : s'.heap = s.heap

namespace Shadows

variable {objects : ℕ → ℕ} (hside : Shadows s objects s')

include hside

/-- A page of one side of a fork shows what its page showed, or a shadow on top of that. -/
theorem origin (hm' : WellKeyed s'.vmas) (hm : WellKeyed s.vmas) {vpn : ℕ}
    (hv : s'.view vpn = some v) :
    ∃ (k : ℕ) (a : VmArea), s.vmas[k]? = some a ∧ s.view vpn = some (a.view vpn) ∧
      Over a vpn ∧ v = (a.shadowed (objects k)).view vpn := by
  obtain ⟨k, b, hb, hover, rfl⟩ := UserSpace.exists_area hm' hv
  rw [hside.get] at hb
  obtain ⟨a, ha, rfl⟩ := map_eq_some_iff.mp hb
  have hrange := (a.shadowed_spec (objects k)).1
  have hover' : Over a vpn := by
    change a.range.start ≤ vpn ∧ vpn < a.range.stop
    rw [← hrange]
    exact hover
  exact ⟨k, a, ha, UserSpace.view_of_over hm ha hover', hover', rfl⟩

end Shadows

theorem view_shadowed_shared (hfork : a.onFork = .shared) (object vpn : ℕ) :
    (a.shadowed object).view vpn = a.view vpn := by
  unfold VmArea.shadowed
  rw [hfork]

theorem view_shadowed_copyOnWrite (hfork : a.onFork = .copyOnWrite) (object vpn : ℕ) :
    (a.shadowed object).view vpn = { a.view vpn with backing := .shadow object a.backing } := by
  simp only [VmArea.shadowed, VmArea.view, VmArea.vmoPidx, hfork]

/-- **Either side of a fork is in order** if its shadows are new and one for each
area. -/
theorem Shadows.shaped {objects : ℕ → ℕ} (hside : Shadows s objects s') {next next' : ℕ}
    (hs : s.Shaped L next) (hreg : Registered L s') (hle : next ≤ next')
    (hfresh : ∀ (k : ℕ) (a : VmArea), s.vmas[k]? = some a → a.onFork = .copyOnWrite →
      next ≤ objects k ∧ objects k < next')
    (hinj : ∀ (k k' : ℕ) (a a' : VmArea), s.vmas[k]? = some a → s.vmas[k']? = some a' →
      a.onFork = .copyOnWrite → a'.onFork = .copyOnWrite → objects k = objects k' → k = k') :
    s'.Shaped L next' := by
  have hm := hs.wellKeyed
  have hm' := hreg.registry.wellKeyed
  refine ⟨hreg, hside.heap ▸ hs.brk, ?_, ?_, ?_, ?_⟩
  · intro vpn v hv
    obtain ⟨k, a, ha, hv₀, -, rfl⟩ := hside.origin hm' hm hv
    cases hfork : a.onFork with
    | shared =>
      rw [view_shadowed_shared hfork]
      exact hs.internal vpn _ hv₀
    | copyOnWrite =>
      rw [view_shadowed_copyOnWrite hfork]
      exact hs.internal vpn (a.view vpn) hv₀
  · intro vpn v hv o ho
    obtain ⟨k, a, ha, hv₀, -, rfl⟩ := hside.origin hm' hm hv
    cases hfork : a.onFork with
    | shared =>
      rw [view_shadowed_shared hfork] at ho
      exact (hs.known vpn _ hv₀ o ho).trans_le hle
    | copyOnWrite =>
      rw [view_shadowed_copyOnWrite hfork] at ho
      rcases mem_cons.mp ho with rfl | ho
      · exact (hfresh k a ha hfork).2
      · exact (hs.known vpn _ hv₀ o ho).trans_le hle
  · intro vpn vpn' v v' o hv hv' htop htop' hpidx
    obtain ⟨k, a, ha, hv₀, hover, rfl⟩ := hside.origin hm' hm hv
    obtain ⟨k', a', ha', hv₀', hover', rfl⟩ := hside.origin hm' hm hv'
    cases hfork : a.onFork with
    | shared =>
      rw [view_shadowed_shared hfork] at htop hpidx
      have hold := hs.known vpn _ hv₀ o (VmObject.mem_ids_of_top htop)
      cases hfork' : a'.onFork with
      | shared =>
        rw [view_shadowed_shared hfork'] at htop' hpidx
        exact hs.slots vpn vpn' _ _ o hv₀ hv₀' htop htop' hpidx
      | copyOnWrite =>
        rw [view_shadowed_copyOnWrite hfork'] at htop'
        cases htop'
        have := (hfresh k' a' ha' hfork').1
        omega
    | copyOnWrite =>
      rw [view_shadowed_copyOnWrite hfork] at htop hpidx
      have hnew := (hfresh k a ha hfork).1
      cases hfork' : a'.onFork with
      | shared =>
        rw [view_shadowed_shared hfork'] at htop'
        have hold := hs.known vpn' _ hv₀' o (VmObject.mem_ids_of_top htop')
        cases htop
        omega
      | copyOnWrite =>
        rw [view_shadowed_copyOnWrite hfork'] at htop' hpidx
        have hsame : objects k = objects k' := some.inj (htop.trans htop'.symm)
        have hkk := hinj k k' a a' ha ha' hfork hfork' hsame
        subst hkk
        rw [ha] at ha'
        cases ha'
        have hlo : a.range.start ≤ vpn := hover.1
        have hlo' : a.range.start ≤ vpn' := hover'.1
        simp only [VmArea.view, VmArea.vmoPidx] at hpidx
        omega
  · intro vpn v hv hres
    obtain ⟨k, a, ha, hv₀, -, rfl⟩ := hside.origin hm' hm hv
    cases hfork : a.onFork with
    | shared =>
      rw [view_shadowed_shared hfork] at hres ⊢
      exact hs.heap vpn _ hv₀ hres
    | copyOnWrite =>
      rw [view_shadowed_copyOnWrite hfork] at hres ⊢
      exact hs.heap vpn (a.view vpn) hv₀ hres

/-- Where the pages of the family come from after a fork of `i` into `child`. -/
structure ForkOrigin (w : World) (i child : ℕ) (mine : ℕ → ℕ → Prop) (j : ℕ) (v : PageView)
    (j₀ : ℕ) (v₀ : PageView) : Prop where
  onFork : v.onFork = v₀.onFork
  same_or_shadow : (v.backing = v₀.backing ∧ (v₀.onFork = .shared ∨ (j₀ = j ∧ j ≠ i ∧ j ≠ child))) ∨
      (j₀ = i ∧ v₀.onFork = .copyOnWrite ∧ ∃ n, v.backing = .shadow n v₀.backing ∧
        w.mem.nextObject ≤ n ∧ mine j n)

/-- **After a fork the object on top of a page is nowhere in the chains of other
copy-on-write pages.**  `mine j n` says that `n` is a shadow the fork made for `j`. -/
theorem Invariant.owned_fork {i child : ℕ} (h : w.Invariant L) (mine : ℕ → ℕ → Prop)
    (hmine : ∀ j j' n, mine j n → mine j' n → j = j') {j j' j₀ j₀' vpn vpn' : ℕ}
    {t₀ t₀' : UserSpace} {v' v₀ v₀' : PageView} (ht₀ : w.spaces j₀ = some t₀)
    (ht₀' : w.spaces j₀' = some t₀') (hv₀ : t₀.view vpn = some v₀) (hv₀' : t₀'.view vpn' = some v₀')
    (horigin : ForkOrigin w i child mine j v j₀ v₀)
    (horigin' : ForkOrigin w i child mine j' v' j₀' v₀') (hcow : v'.onFork = .copyOnWrite)
    (hor : v.onFork = .shared ∨ j ≠ j') (o : ℕ) (htop : v.backing.top = some o) :
    o ∉ v'.backing.ids := by
  have hcow₀' : v₀'.onFork = .copyOnWrite := horigin'.onFork ▸ hcow
  intro hmem
  rcases horigin.same_or_shadow with ⟨hback, hkind⟩ | ⟨-, hcow₀, n, hback, hnew, hn⟩
  · -- the object was there before; then it is in the chain as it was before
    rw [hback] at htop
    have hold := (h.shaped j₀ t₀ ht₀).known vpn v₀ hv₀ o (VmObject.mem_ids_of_top htop)
    have hmem₀ : o ∈ v₀'.backing.ids := by
      rcases horigin'.same_or_shadow with ⟨hback', -⟩ | ⟨-, -, n', hback', hnew', -⟩
      · exact hback' ▸ hmem
      · rw [hback'] at hmem
        rcases mem_cons.mp hmem with rfl | hmem
        · omega
        · exact hmem
    refine h.owned j₀ j₀' t₀ t₀' vpn vpn' v₀ v₀' ht₀ ht₀' hv₀ hv₀' hcow₀' ?_ o htop hmem₀
    rcases hkind with hshared | ⟨rfl, hji, hjc⟩
    · exact .inl hshared
    · rcases hor with hshared | hne
      · exact .inl (horigin.onFork ▸ hshared)
      · right
        rcases horigin'.same_or_shadow with ⟨-, hshared' | ⟨rfl, -, -⟩⟩ | ⟨rfl, -, -⟩
        · rw [hcow₀'] at hshared'
          cases hshared'
        · exact hne
        · exact hji
  · -- the object is a new shadow, so the other chain has it on top
    rw [hback] at htop
    cases htop
    have hne : j ≠ j' := by
      rcases hor with hshared | hne
      · rw [horigin.onFork, hcow₀] at hshared
        cases hshared
      · exact hne
    rcases horigin'.same_or_shadow with ⟨hback', -⟩ | ⟨-, -, n', hback', -, hn'⟩
    · rw [hback'] at hmem
      have := (h.shaped j₀' t₀' ht₀').known vpn' v₀' hv₀' _ hmem
      omega
    · rw [hback'] at hmem
      rcases mem_cons.mp hmem with rfl | hmem
      · exact hne (hmine j j' _ hn hn')
      · have := (h.shaped j₀' t₀' ht₀').known vpn' v₀' hv₀' _ hmem
        omega

/-- **A fork keeps the invariant.**  The parent's leaves on copy-on-write pages are
read-only from then on, and the child has none. -/
theorem Invariant.fork {i child : ℕ} (h : w.Invariant L) (hi : w.spaces i = some s)
    (hfree : w.spaces child = none) {tables : Bool} {t : UserSpace}
    (hcall : s.forkInner w.mem tables = .ok (.ok t, s', mem')) :
    ((w.set i s' mem').set child t mem').Invariant L := by
  have hshaped := h.shaped i s hi
  have hm := hshaped.wellKeyed
  obtain ⟨hregP, hregC⟩ := hshaped.registered.forkInner hcall
  obtain ⟨ids, spec, hs', ht, hmem⟩ := UserSpace.forkInner_ok hcall
  have hP : Shadows s ids s' := ⟨spec.parent_get, by rw [hs']⟩
  have hC : Shadows s (fun k => ids k + 1) t := ⟨spec.child_get, by rw [ht]⟩
  have hfresh : ∀ (k : ℕ) (a : VmArea), s.vmas[k]? = some a → a.onFork = .copyOnWrite →
      w.mem.nextObject ≤ ids k ∧ ids k + 1 < mem'.nextObject := fun k a ha =>
    spec.fresh (k, a) (OrderedMap.mem_toList.mpr ha)
  have hgap : ∀ (k k' : ℕ) (a a' : VmArea), s.vmas[k]? = some a → s.vmas[k']? = some a' →
      a.onFork = .copyOnWrite → a'.onFork = .copyOnWrite → k ≠ k' →
      ids k + 1 < ids k' ∨ ids k' + 1 < ids k := by
    intro k k' a a' ha ha' hcow hcow' hne
    rcases Nat.lt_or_gt_of_ne hne with hlt | hlt
    · exact .inl (spec.distinct (k, a) (OrderedMap.mem_toList.mpr ha) (k', a')
        (OrderedMap.mem_toList.mpr ha') hcow hcow' hlt)
    · exact .inr (spec.distinct (k', a') (OrderedMap.mem_toList.mpr ha') (k, a)
        (OrderedMap.mem_toList.mpr ha) hcow' hcow hlt)
  have hle : w.mem.nextObject ≤ mem'.nextObject := spec.next_le
  have hobjects : mem'.objects = w.mem.objects := by rw [hmem]
  have hsound : mem'.Sound := by
    rw [hmem]
    exact ⟨h.sound.zero, h.sound.unique, h.sound.free, h.sound.nodup⟩
  have hshape (c : ℕ) (hc : c ≤ 1) {u : UserSpace} (hu : Shadows s (fun k => ids k + c) u)
      (hreg : Registered L u) : u.Shaped L mem'.nextObject := by
    apply hu.shaped hshaped hreg hle
    · intro k a ha hcow
      have := hfresh k a ha hcow
      omega
    · intro k k' a a' ha ha' hcow hcow' heq
      by_contra hne
      have := hgap k k' a a' ha ha' hcow hcow' hne
      omega
  have hshapedP := hshape 0 (Nat.zero_le 1) hP hregP
  have hshapedC := hshape 1 (Nat.le_refl 1) hC hregC
  have hbackedP : s'.Backed mem' := by
    intro vpn pte hleaf hw
    rw [spec.table] at hleaf
    obtain ⟨old, hold, rfl⟩ := map_eq_some_iff.mp hleaf
    split_ifs at hw ⊢ with hprotects
    · cases hw
    · obtain ⟨v, hv, hprot, hheld⟩ := h.backed i s hi vpn old hold hw
      obtain ⟨k, a, ha, hover, rfl⟩ := UserSpace.exists_area hm hv
      have hshared : a.onFork = .shared := by
        cases hfork : a.onFork with
        | shared => rfl
        | copyOnWrite =>
          exact absurd ⟨(k, a), OrderedMap.mem_toList.mpr ha, hfork, hprot, hover⟩ hprotects
      have hget : s'.vmas[k]? = some (a.shadowed (ids k)) := by
        rw [hP.get, ha]
        rfl
      have hover' : Over (a.shadowed (ids k)) vpn := by
        change (a.shadowed (ids k)).range.start ≤ vpn ∧ vpn < (a.shadowed (ids k)).range.stop
        rw [(a.shadowed_spec (ids k)).1]
        exact hover
      refine ⟨a.view vpn, ?_, hprot, hheld.of_objects hobjects⟩
      rw [UserSpace.view_of_over hshapedP.wellKeyed hget hover', view_shadowed_shared hshared]
  have hspaces : ∀ j u, ((w.set i s' mem').set child t mem').spaces j = some u →
      (j = child ∧ u = t) ∨ (j = i ∧ u = s') ∨ (j ≠ i ∧ j ≠ child ∧ w.spaces j = some u) := by
    intro j u hj
    rw [set_spaces, set_spaces] at hj
    split_ifs at hj with hc hp
    · exact .inl ⟨hc, (some.inj hj).symm⟩
    · exact .inr (.inl ⟨hp, (some.inj hj).symm⟩)
    · exact .inr (.inr ⟨hp, hc, hj⟩)
  refine ⟨hsound, ?_, ?_, ?_⟩
  · intro j u hj
    rcases hspaces j u hj with ⟨-, rfl⟩ | ⟨-, rfl⟩ | ⟨-, -, hj⟩
    · exact hshapedC
    · exact hshapedP
    · exact (h.shaped j u hj).mono hle
  · intro j u hj
    rcases hspaces j u hj with ⟨-, rfl⟩ | ⟨-, rfl⟩ | ⟨-, -, hj⟩
    · intro vpn pte hleaf
      rw [ht] at hleaf
      simp at hleaf
    · exact hbackedP
    · exact (h.backed j u hj).mono fun _ _ _ _ _ _ hheld => hheld.of_objects hobjects
  · let mine (j n : ℕ) : Prop := ∃ (k : ℕ) (a : VmArea), s.vmas[k]? = some a ∧
      a.onFork = .copyOnWrite ∧ ((j = i ∧ n = ids k) ∨ (j = child ∧ n = ids k + 1))
    have hmine : ∀ j j' n, mine j n → mine j' n → j = j' := by
      rintro j j' n ⟨k, a, ha, hcow, hn⟩ ⟨k', a', ha', hcow', hn'⟩
      have hk : k = k' := by
        by_contra hne
        have := hgap k k' a a' ha ha' hcow hcow' hne
        omega
      subst hk
      omega
    have hside : ∀ {objects : ℕ → ℕ} {u : UserSpace} {j : ℕ}, Shadows s objects u →
        WellKeyed u.vmas → (∀ (k : ℕ) (a : VmArea), s.vmas[k]? = some a →
          a.onFork = .copyOnWrite → mine j (objects k) ∧ w.mem.nextObject ≤ objects k) →
        ∀ {vpn v}, u.view vpn = some v → ∃ v₀, s.view vpn = some v₀ ∧
          ForkOrigin w i child mine j v i v₀ := by
      intro objects u j hu hmu hobj vpn v hv
      obtain ⟨k, a, ha, hv₀, -, rfl⟩ := hu.origin hmu hm hv
      refine ⟨a.view vpn, hv₀, ?_⟩
      cases hfork : a.onFork with
      | shared =>
        rw [view_shadowed_shared hfork]
        exact ⟨rfl, .inl ⟨rfl, .inl hfork⟩⟩
      | copyOnWrite =>
        rw [view_shadowed_copyOnWrite hfork]
        obtain ⟨hin, hle⟩ := hobj k a ha hfork
        exact ⟨rfl, .inr ⟨rfl, hfork, _, rfl, hle, hin⟩⟩
    have horigin : ∀ {j u vpn v}, ((w.set i s' mem').set child t mem').spaces j = some u →
        u.view vpn = some v → ∃ j₀ t₀ v₀, w.spaces j₀ = some t₀ ∧ t₀.view vpn = some v₀ ∧
          ForkOrigin w i child mine j v j₀ v₀ := by
      intro j u vpn v hj hv
      rcases hspaces j u hj with ⟨rfl, rfl⟩ | ⟨rfl, rfl⟩ | ⟨hji, hjc, hj⟩
      · obtain ⟨v₀, hv₀, horig⟩ := hside hC hshapedC.wellKeyed (fun k a ha hcow =>
          ⟨⟨k, a, ha, hcow, .inr ⟨rfl, rfl⟩⟩, by have := hfresh k a ha hcow; omega⟩) hv
        exact ⟨i, s, v₀, hi, hv₀, horig⟩
      · obtain ⟨v₀, hv₀, horig⟩ := hside hP hshapedP.wellKeyed (fun k a ha hcow =>
          ⟨⟨k, a, ha, hcow, .inl ⟨rfl, rfl⟩⟩, (hfresh k a ha hcow).1⟩) hv
        exact ⟨j, s, v₀, hi, hv₀, horig⟩
      · exact ⟨j, u, v, hj, hv, rfl, .inl ⟨rfl, .inr ⟨rfl, hji, hjc⟩⟩⟩
    intro j j' u u' vpn vpn' v v' hj hj' hv hv' hcow hor
    obtain ⟨j₀, t₀, v₀, ht₀, hv₀, horig⟩ := horigin hj hv
    obtain ⟨j₀', t₀', v₀', ht₀', hv₀', horig'⟩ := horigin hj' hv'
    exact h.owned_fork mine hmine ht₀ ht₀' hv₀ hv₀' horig horig' hcow hor

end World

end Anemone.Uspace
