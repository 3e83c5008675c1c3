import Anemone.Analysis.FaultedPages

/-!
# Which objects a family of address spaces shares

The invariant behind isolation: the object on top of a page is nowhere in the chains that
copy-on-write pages of other address spaces see, nor, if the page is shared, in those of its own.
A fork puts new objects on top of both sides, so what was on top before is only read from then on.
-/

namespace Anemone.Uspace

open Extents (WellKeyed Over)

variable {L : Layout} {s s' : UserSpace} {mem' : Memory}

namespace UserSpace

/-- What one address space keeps, whatever the memory is; `next` is the next identity of an
object. -/
structure Shaped (L : Layout) (next : ℕ) (s : UserSpace) : Prop where
  registered : Registered L s
  brk : s.heap.brk ≤ toVirtAddr L.heapRange.stop
  internal : ∀ (vpn : ℕ) (v : PageView), s.view vpn = some v → v.backing.Internal
  known : ∀ (vpn : ℕ) (v : PageView), s.view vpn = some v → ∀ o ∈ v.backing.ids, o < next
  slots : ∀ (vpn vpn' : ℕ) (v v' : PageView) (o : ℕ), s.view vpn = some v →
    s.view vpn' = some v' → v.backing.top = some o → v'.backing.top = some o →
    v.pidx = v'.pidx → vpn = vpn'
  heap : ∀ (vpn : ℕ) (v : PageView), s.view vpn = some v → v.reservation = some .heap →
    v.prot.write = true ∧ v.onFork = .copyOnWrite

/-- Every writable leaf shows what the object on top of its page holds. -/
def Backed (mem : Memory) (s : UserSpace) : Prop :=
  ∀ (vpn : ℕ) (pte : Pte), s.table[vpn]? = some pte → pte.flags.write = true →
    ∃ v, s.view vpn = some v ∧ v.prot.write = true ∧ v.backing.Holds mem v.pidx pte.ppn

variable {vpn : ℕ} {mem : Memory} {v : PageView} {a : VmArea}

theorem view_of_over (hm : WellKeyed s.vmas) {k : ℕ} (ha : s.vmas[k]? = some a) (hover : Over a vpn) :
    s.view vpn = some (a.view vpn) := by
  rw [view, viewOf_eq_look]
  exact hm.look_eq_some.mpr ⟨k, a, ha, hover, rfl⟩

theorem exists_area (hm : WellKeyed s.vmas) (hv : s.view vpn = some v) :
    ∃ (k : ℕ) (a : VmArea), s.vmas[k]? = some a ∧ Over a vpn ∧ a.view vpn = v :=
  hm.look_eq_some.mp ((viewOf_eq_look _ _).symm.trans hv)

theorem view_start (hm : WellKeyed s.vmas) {k : ℕ} (ha : s.vmas[k]? = some a) :
    s.view a.range.start = some (a.view a.range.start) :=
  view_of_over hm ha ⟨Nat.le_refl _, hm.nonempty k a ha⟩

theorem reservation_of_heap (h : Registered L s) (hin : L.heapRange.contains vpn)
    (hv : s.view vpn = some v) :
    v.reservation = some .heap := by
  obtain ⟨a, ha, hrange, hres⟩ := h.registry.heap
  have hover : Over a vpn := by
    change a.range.start ≤ vpn ∧ vpn < a.range.stop
    rw [hrange]
    exact hin
  rw [view_of_over h.registry.wellKeyed ha hover] at hv
  cases hv
  exact hres

namespace Shaped

variable {next next' : ℕ} {s s' : UserSpace} (h : Shaped L next s)

include h

theorem wellKeyed : WellKeyed s.vmas := h.registered.registry.wellKeyed

theorem mono (hle : next ≤ next') : Shaped L next' s :=
  ⟨h.registered, h.brk, h.internal, fun vpn v hv o ho => (h.known vpn v hv o ho).trans_le hle,
    h.slots, h.heap⟩

theorem keepsPages (hreg : Registered L s') (hheap : s'.heap = s.heap)
    (hpages : s.KeepsPages s') : Shaped L next s' where
  registered := hreg
  brk := by
    rw [hheap]
    exact h.brk
  internal vpn v hv := by
    obtain ⟨v₀, hv₀, hback, -⟩ := hpages vpn v hv
    rw [hback]
    exact h.internal vpn v₀ hv₀
  known vpn v hv := by
    obtain ⟨v₀, hv₀, hback, -⟩ := hpages vpn v hv
    rw [hback]
    exact h.known vpn v₀ hv₀
  slots vpn vpn' v v' o hv hv' htop htop' hpidx := by
    obtain ⟨v₀, hv₀, hback, hpidx₀, -⟩ := hpages vpn v hv
    obtain ⟨v₁, hv₁, hback', hpidx₁, -⟩ := hpages vpn' v' hv'
    rw [hback] at htop
    rw [hback'] at htop'
    rw [hpidx₀, hpidx₁] at hpidx
    exact h.slots vpn vpn' v₀ v₁ o hv₀ hv₁ htop htop' hpidx
  heap vpn v hv hres := by
    obtain ⟨v₀, hv₀, -, -, -, hres₀, hsame⟩ := hpages vpn v hv
    rw [hres₀] at hres
    rw [hsame (by rw [hres]; simp)]
    exact h.heap vpn v₀ hv₀ hres

/-- A read fault says that a page may be written exactly if the object on top holds it. -/
theorem resolvesWritable_iff {frame : ℕ} :
    s.ResolvesWritable mem vpn frame ↔
      ∃ v, s.view vpn = some v ∧ v.backing.Holds mem v.pidx frame := by
  have hm := h.wellKeyed
  constructor
  · rintro ⟨a, hfind, hresolve⟩
    rw [findVma_eq_covering, hm.covering_eq_some] at hfind
    have hv := view_of_over hm hfind.1 hfind.2
    exact ⟨a.view vpn, hv, (VmObject.resolveFrame_read_iff (h.internal vpn _ hv)).mp hresolve⟩
  · rintro ⟨v, hv, hheld⟩
    obtain ⟨k, a, ha, hover, rfl⟩ := exists_area hm hv
    refine ⟨a, ?_, (VmObject.resolveFrame_read_iff (h.internal vpn _ hv)).mpr hheld⟩
    have hkey : a.range.start = k := hm.key k a ha
    rw [findVma_eq_covering, hm.covering_eq_some]
    refine ⟨?_, hover⟩
    change s.vmas[a.range.start]? = some a
    rw [hkey]
    exact ha

end Shaped

theorem Backed.keepsLeaves (h : s.Backed mem) (hleaves : s.KeepsLeaves s') :
    s'.Backed mem := by
  intro vpn pte hleaf hw
  obtain ⟨hold, hsame⟩ := hleaves vpn pte hleaf
  obtain ⟨v, hv, hrest⟩ := h vpn pte hold hw
  exact ⟨v, hsame v hv, hrest⟩

theorem Backed.mono (h : s.Backed mem)
    (hheld : ∀ vpn v pte, s.table[vpn]? = some pte → pte.flags.write = true →
      s.view vpn = some v → v.backing.Holds mem v.pidx pte.ppn →
      v.backing.Holds mem' v.pidx pte.ppn) : s.Backed mem' := by
  intro vpn pte hleaf hw
  obtain ⟨v, hv, hprot, hold⟩ := h vpn pte hleaf hw
  exact ⟨v, hv, hprot, hheld vpn v pte hleaf hw hv hold⟩

end UserSpace

namespace World

open UserSpace (Shaped Backed)

structure Invariant (L : Layout) (w : World) : Prop where
  sound : w.mem.Sound
  shaped : ∀ (i : ℕ) (s : UserSpace), w.spaces i = some s → s.Shaped L w.mem.nextObject
  backed : ∀ (i : ℕ) (s : UserSpace), w.spaces i = some s → s.Backed w.mem
  owned : ∀ (i j : ℕ) (s t : UserSpace) (vpn vpn' : ℕ) (v v' : PageView),
    w.spaces i = some s → w.spaces j = some t → s.view vpn = some v → t.view vpn' = some v' →
    v'.onFork = .copyOnWrite → v.onFork = .shared ∨ i ≠ j →
    ∀ o, v.backing.top = some o → o ∉ v'.backing.ids

variable {w : World}

theorem Start.invariant (h : w.Start) : w.Invariant L := by
  have hresident : ∀ object pidx : ℕ, (w.mem.objects object).resident[pidx]? = none := by
    intro object pidx
    rw [h.objects]
    simp [ObjectPages.empty]
  refine ⟨⟨?_, ?_, ?_, h.nodup⟩, ?_, ?_, ?_⟩
  · intro object pidx
    rw [hresident]
    simp
  · intro object pidx object' pidx' frame hget
    rw [hresident] at hget
    cases hget
  · intro f hf
    refine ⟨fun heq => h.zero_not_free (heq ▸ hf), ?_⟩
    intro object pidx
    rw [hresident]
    simp
  · intro i s hi
    rw [h.spaces i] at hi
    cases hi
  · intro i s hi
    rw [h.spaces i] at hi
    cases hi
  · intro i j s t vpn vpn' v v' hi
    rw [h.spaces i] at hi
    cases hi

theorem Invariant.isolated (h : w.Invariant L) : w.Isolated := by
  intro i s hi vpn pte hleaf hw
  obtain ⟨v, hv, -, hheld⟩ := h.backed i s hi vpn pte hleaf hw
  obtain ⟨o, htop, hres⟩ := hheld.top
  refine ⟨(h.shaped i s hi).resolvesWritable_iff.mpr ⟨v, hv, hheld⟩, ?_, ?_⟩
  · intro hzero
    rw [hzero] at hres
    exact h.sound.zero o v.pidx hres
  · intro j t hne hj k b hb hcow object hobject pidx hget
    obtain ⟨rfl, -⟩ := h.sound.unique _ _ _ _ _ hget hres
    exact h.owned i j s t vpn b.range.start v (b.view b.range.start) hi hj hv
      (UserSpace.view_start (h.shaped j t hj).wellKeyed hb) hcow (.inr hne.symm) object htop
      hobject

theorem set_spaces (w : World) (i : ℕ) (s : UserSpace) (mem : Memory) (j : ℕ) :
    (w.set i s mem).spaces j = if j = i then some s else w.spaces j := rfl

/-- **A call on one address space** keeps the invariant if what it leaves there is
in order, it takes no page from under a writable leaf of another one, and its pages are those
of before or show new objects only. -/
theorem Invariant.set (h : w.Invariant L) {i : ℕ} (hsound : mem'.Sound)
    (hnext : w.mem.nextObject ≤ mem'.nextObject) (hshaped : s'.Shaped L mem'.nextObject)
    (hbacked : s'.Backed mem') (hothers : ∀ j t, j ≠ i → w.spaces j = some t → t.Backed mem')
    (New : PageView → Prop)
    (hviews : ∀ vpn v', s'.view vpn = some v' → New v' ∨ ∃ s v, w.spaces i = some s ∧
      s.view vpn = some v ∧ v'.backing = v.backing ∧ v'.onFork = v.onFork)
    (hfresh : ∀ v, New v → ∀ o ∈ v.backing.ids, w.mem.nextObject ≤ o)
    (hagree : ∀ v v', New v → New v' → v.onFork = .shared → v'.onFork = .copyOnWrite → ∀ o,
      v.backing.top = some o → o ∉ v'.backing.ids) :
    (w.set i s' mem').Invariant L := by
  have horigin : ∀ j t vpn v, (w.set i s' mem').spaces j = some t → t.view vpn = some v →
      (j = i ∧ New v) ∨ ∃ t₀ v₀, w.spaces j = some t₀ ∧ t₀.view vpn = some v₀ ∧
        v.backing = v₀.backing ∧ v.onFork = v₀.onFork := by
    intro j t vpn v hj hv
    rw [set_spaces] at hj
    split_ifs at hj with heq
    · cases hj
      rcases hviews vpn v hv with hnew | ⟨s, v₀, hs, hv₀, hsame⟩
      · exact .inl ⟨heq, hnew⟩
      · exact .inr ⟨s, v₀, heq ▸ hs, hv₀, hsame⟩
    · exact .inr ⟨t, v, hj, hv, rfl, rfl⟩
  refine ⟨hsound, ?_, ?_, ?_⟩
  · intro j t hj
    rw [set_spaces] at hj
    split_ifs at hj with heq
    · cases hj
      exact hshaped
    · exact (h.shaped j t hj).mono hnext
  · intro j t hj
    rw [set_spaces] at hj
    split_ifs at hj with heq
    · cases hj
      exact hbacked
    · exact hothers j t heq hj
  · intro j j' t t' vpn vpn' v v' hj hj' hv hv' hcow hor o htop hmem
    rcases horigin j t vpn v hj hv with ⟨hji, hnew⟩ | ⟨t₀, v₀, ht₀, hv₀, hback, hfork⟩
    · rcases horigin j' t' vpn' v' hj' hv' with ⟨hji', hnew'⟩ | ⟨t₁, v₁, ht₁, hv₁, hback', hfork'⟩
      · rcases hor with hshared | hne
        · exact hagree v v' hnew hnew' hshared hcow o htop hmem
        · exact hne (hji.trans hji'.symm)
      · have hle := hfresh v hnew o (VmObject.mem_ids_of_top htop)
        rw [hback'] at hmem
        have hlt := (h.shaped j' t₁ ht₁).known vpn' v₁ hv₁ o hmem
        omega
    · rw [hback] at htop
      rcases horigin j' t' vpn' v' hj' hv' with ⟨-, hnew'⟩ | ⟨t₁, v₁, ht₁, hv₁, hback', hfork'⟩
      · have hle := hfresh v' hnew' o hmem
        have hlt := (h.shaped j t₀ ht₀).known vpn v₀ hv₀ o (VmObject.mem_ids_of_top htop)
        omega
      · rw [hback'] at hmem
        rw [hfork'] at hcow
        rw [hfork] at hor
        exact h.owned j j' t₀ t₁ vpn vpn' v₀ v₁ ht₀ ht₁ hv₀ hv₁ hcow hor o htop hmem

theorem Invariant.setOld (h : w.Invariant L) {i : ℕ} (hi : w.spaces i = some s)
    (hsound : mem'.Sound) (hnext : mem'.nextObject = w.mem.nextObject)
    (hshaped : s'.Shaped L w.mem.nextObject) (hbacked : s'.Backed mem')
    (hothers : ∀ j t, j ≠ i → w.spaces j = some t → t.Backed mem') (hpages : s.KeepsPages s') :
    (w.set i s' mem').Invariant L := by
  apply h.set hsound (Nat.le_of_eq hnext.symm) (hnext ▸ hshaped) hbacked hothers (fun _ => False)
  · intro vpn v' hv'
    obtain ⟨v, hv, hback, -, hfork, -⟩ := hpages vpn v' hv'
    exact .inr ⟨s, v, hi, hv, hback, hfork⟩
  · exact fun _ hno => hno.elim
  · exact fun _ _ hno => hno.elim

end World

end Anemone.Uspace
