import Anemone.Analysis.IsolationSteps

/-!
# No writable leaf to a shared frame

A run keeps the family isolated exactly as long as its calls are careful.  Two calls can be
careless: the heap path makes a leaf writable that does not resolve as writable, and a discard
takes a page from under a writable leaf of another address space.
-/

namespace Anemone.Uspace

open Ranges (VirtPageRange)

variable {L : Layout}

namespace World

variable {w w' : World} {r : Except SysError Unit} {range : VirtPageRange}

/-- **A careful call keeps the invariant.** -/
theorem Invariant.step (h : w.Invariant L) {c : Call} (hstep : w.Step L c w')
    (hcareful : w.Careful L c) : w'.Invariant L := by
  cases hstep with
  | create _ hcall => exact h.create hcall
  | exit i => exact h.exit i
  | mapAnonymous hi hcall => exact h.mapAnonymous hi hcall
  | resolvePageAccess hi hcall => exact h.fault hi hcall
  | fork hi hfree hcall => exact h.fork hi hfree hcall
  | forkRefused hi hcall =>
    obtain ⟨rfl, rfl⟩ := UserSpace.forkInner_error hcall
    exact h.edit hi (h.shaped _ _ hi).registered ⟨.refl _, .of_le fun _ _ hv => hv, rfl⟩
  | unmap hi hcall => exact h.unmap hi hcall
  | discard hi hcall => exact h.discard hi hcareful hcall
  | setBrk hi hcall => exact h.setBrk hi hcall
  | protect hi hcall => exact h.protect hi hcareful hcall
  | refill hfresh hnodup => exact h.refill hfresh hnodup
  | release hunused => exact h.release hunused

/-- **A heap path that leaves the family isolated was careful.** -/
theorem Invariant.careful_of_protect (h : w.Invariant L) {i : ℕ} {s s' : UserSpace}
    (hi : w.spaces i = some s) {prot : Protection}
    (hcall : s.protectRange L range prot = .ok (r, s')) (hisolated : (w.set i s' w.mem).Isolated) :
    w.CarefulProtect L i range prot := by
  intro s₀ hs₀ hheap hwrite vpn pte hin hleaf
  rw [hi] at hs₀
  cases hs₀
  cases Invariant.protectRange_heap hi h hheap hcall
  have hafter := hisolated i _ (if_pos rfl) vpn
    { pte with flags := (UserSpace.heapFlags prot pte.flags).getD pte.flags } (by
      simp only [get_changeFlags, hleaf, Option.map_some, hin, if_true])
    ((Invariant.write_heapFlags prot pte.flags).trans hwrite)
  exact hafter.resolves

/-- **A discard that leaves the family isolated was careful.** -/
theorem Invariant.careful_of_discard (h : w.Invariant L) {i : ℕ} {s s' : UserSpace}
    (hi : w.spaces i = some s) {mem' : Memory}
    (hcall : s.discardRangeInner L w.mem range = .ok (r, s', mem'))
    (hisolated : (w.set i s' mem').Isolated) : w.CarefulDiscard L i range := by
  intro s₀ hs₀ hvalid hcovers j t hne hj vpn vpn' v v' pte hin hv hv' hleaf htop hsame hpidx
  rw [hi] at hs₀
  cases hs₀
  have ht := h.shaped j t hj
  cases hw : pte.flags.write with
  | false => rfl
  | true =>
    exfalso
    rcases UserSpace.discardRangeInner_cases (h.shaped i s hi).wellKeyed hcall with
      ⟨hbad, -⟩ | ⟨-, -, hgone, -⟩
    · rcases hbad with hbad | hbad
      · exact hbad hvalid
      · exact hbad hcovers
    · -- the leaf of the other address space resolves after the call, to a page that is gone
      have hafter := hisolated j t ((if_neg hne).trans hj) vpn' pte hleaf hw
      obtain ⟨v₁, hv₁, hheld⟩ := ht.resolvesWritable_iff.mp hafter.resolves
      rw [hv'] at hv₁
      cases hv₁
      obtain ⟨o, htop', hres⟩ := hheld.top
      have hlost := hgone.memory.lost o v'.pidx ⟨vpn, v, hin, hv, hsame.trans htop', hpidx⟩
      have hres' : (mem'.objects o).resident[v'.pidx]? = some pte.ppn := hres
      rw [hlost] at hres'
      cases hres'

theorem Invariant.isolated_iff_careful (h : w.Invariant L) {c : Call} (hstep : w.Step L c w') :
    w'.Isolated ↔ w.Careful L c := by
  constructor
  · intro hisolated
    cases hstep with
    | discard hi hcall => exact h.careful_of_discard hi hcall hisolated
    | protect hi hcall => exact h.careful_of_protect hi hcall hisolated
    | _ => trivial
  · intro hcareful
    exact (h.step hstep hcareful).isolated

end World

/-- **No writable leaf to a shared frame.**  For every run of a family of address spaces, from
an empty machine on: in every state of the run every writable leaf shows a frame that a read
fault on its page would return as writable, which is not the zero frame and not a frame that
another address space sees through a copy-on-write page, if and only if every call of the run
is careful in the state it is made in.

SOURCE: mm/uspace/mmap.rs:335-386, vma.rs:237-365, vmo/shadow.rs:74-211, vmo/anon.rs:43-114 -/
theorem isolated_iff_careful_run {w : World} (hstart : w.Start) {path : List (Call × World)}
    (hpath : Run.Path (World.Step L) w path) :
    (∀ x ∈ path, x.2.Isolated) ↔ Run.AllSteps (World.Careful L) w path := by
  have hkeeps : ∀ w c w', World.Invariant L w → World.Step L w c w' → World.Careful L w c →
      World.Invariant L w' := by
    intro w c w' h hstep hcareful
    exact h.step hstep hcareful
  have hiff : ∀ w c w', World.Invariant L w → World.Step L w c w' →
      (World.Isolated w' ↔ World.Careful L w c) := by
    intro w c w' h hstep
    exact h.isolated_iff_careful hstep
  exact Run.Path.always_iff hkeeps hiff hstart.invariant hpath

/-- A machine with the zero frame 0 and eight free frames. -/
def World.sample : World :=
  ⟨⟨fun _ => .empty, 0, 0, [1, 2, 3, 4, 5, 6, 7, 8], fun _ => zeroPage,
    fun _ _ _ => .error .notSupported, fun _ _ _ => .ok none⟩, fun _ => none⟩

theorem World.sample_start : World.sample.Start :=
  ⟨fun _ => rfl, fun _ => rfl, by decide, by decide⟩

/-- The theorem at a run that grows the heap and writes to its first page. -/
theorem isolated_iff_careful_run_sample : ∃ (s : UserSpace) (mem : Memory)
    (path : List (Call × World)), World.sample.Start ∧
    Run.Path (World.Step .sv39) World.sample path ∧
    path.getLast?.map (fun x => x.2.spaces 0) = some (some s) ∧
    s.table[1]? = some ⟨1, ⟨true, true, false, true⟩⟩ ∧
    path.getLast?.map (fun x => x.2.mem) = some mem ∧ ∀ x ∈ path, x.2.Isolated := by
  have hrun : (do
      let s₀ ← UserSpace.new .sv39 0 1
      let (_, s₁, mem₁) ← s₀.setBrkInner { World.sample.mem with nextObject := 2 } 8192
      let (_, s₂, _) ← s₁.resolvePageAccess .sv39 mem₁ (fun _ => true) 4096 .write .immediate
      pure (s₂.table[1]?) : Checked (Option Pte)) =
        .ok (some ⟨1, ⟨true, true, false, true⟩⟩) := by decide +kernel
  simp only [Checked.bind_eq_ok] at hrun
  obtain ⟨s₀, hnew, ⟨_, s₁, mem₁⟩, hbrk, ⟨_, s₂, mem₂⟩, hfault, hleaf⟩ := hrun
  let w₁ := World.sample.set 0 s₀ { World.sample.mem with nextObject := 2 }
  let w₂ := w₁.set 0 s₁ mem₁
  let path : List (Call × World) := [(.create 0, w₁), (.setBrk 0 8192, w₂),
    (.resolvePageAccess 0 (fun _ => true) 4096 .write .immediate, w₂.set 0 s₂ mem₂)]
  have hpath : Run.Path (World.Step .sv39) World.sample path :=
    ⟨.create rfl hnew, .setBrk rfl hbrk, .resolvePageAccess rfl hfault, trivial⟩
  exact ⟨s₂, mem₂, path, World.sample_start, hpath, rfl, Except.ok.inj hleaf, rfl,
    (isolated_iff_careful_run World.sample_start hpath).mpr ⟨trivial, trivial, trivial, trivial⟩⟩

/-- A read fault maps the zero frame into the heap read-only; making the heap page writable
again then makes the leaf of the zero frame writable. -/
theorem zero_frame_writable_by_heap_path : ∃ path : List (Call × World),
    Run.Path (World.Step .sv39) World.sample path ∧
    ∃ x ∈ path, ¬ x.2.Isolated ∧ ∃ s : UserSpace, x.2.spaces 0 = some s ∧
      s.table[1]? = some ⟨x.2.mem.zeroFrame, ⟨true, true, false, true⟩⟩ := by
  have hrun : (do
      let s₀ ← UserSpace.new .sv39 0 1
      let b ← s₀.setBrkInner { World.sample.mem with nextObject := 2 } 8192
      let f ← b.2.1.resolvePageAccess .sv39 b.2.2 (fun _ => true) 4096 .read .immediate
      let p ← f.2.1.protectRange .sv39 ⟨1, 1⟩ .rw
      pure (p.2.table[1]?, f.2.2.zeroFrame) : Checked (Option Pte × ℕ)) =
        .ok (some ⟨0, ⟨true, true, false, true⟩⟩, 0) := by decide +kernel
  simp only [Checked.bind_eq_ok] at hrun
  obtain ⟨s₀, hnew, ⟨_, s₁, mem₁⟩, hbrk, ⟨_, s₂, mem₂⟩, hfault, ⟨_, s₃⟩, hprotect, hseen⟩ := hrun
  obtain ⟨hleaf, hzero⟩ := Prod.mk.inj (Except.ok.inj hseen)
  let w₁ := World.sample.set 0 s₀ { World.sample.mem with nextObject := 2 }
  let w₂ := w₁.set 0 s₁ mem₁
  let w₃ := w₂.set 0 s₂ mem₂
  let w₄ := w₃.set 0 s₃ mem₂
  have hleaf' : s₃.table[1]? = some ⟨mem₂.zeroFrame, ⟨true, true, false, true⟩⟩ := by
    rw [hleaf, hzero]
  refine ⟨[(.create 0, w₁), (.setBrk 0 8192, w₂),
    (.resolvePageAccess 0 (fun _ => true) 4096 .read .immediate, w₃),
    (.protect 0 ⟨1, 1⟩ .rw, w₄)], ?_, (.protect 0 ⟨1, 1⟩ .rw, w₄), by simp, ?_, s₃, rfl, hleaf'⟩
  · exact ⟨.create rfl hnew, .setBrk rfl hbrk, .resolvePageAccess rfl hfault,
      .protect rfl hprotect, trivial⟩
  · intro hisolated
    exact (hisolated 0 s₃ rfl 1 _ hleaf' rfl).not_zero rfl

end Anemone.Uspace
