import Anemone.Analysis.ByteChains
import Anemone.Analysis.ForkAreas

/-!
# Copy-on-write objects are private copies

Every run of a family can be followed by flat copies, one for each address space.  The object on
top of a chain is in no other chain; a fork keeps this because the old top becomes a parent of
both sides, and nothing writes to a parent.
-/

namespace Anemone.Uspace

open Function (update)
open Function Option List
open Memory (Touches)

namespace Family

structure Invariant (w : Family) : Prop where
  consistent : w.memory.Consistent
  unborn : ∀ object, w.memory.nextObject ≤ object → w.memory.objects object = .empty
  isPrivate : ∀ (i : ℕ) (a : VmArea), w.areas i = some a → a.onFork = .copyOnWrite
  anonymous : ∀ (i : ℕ) (a : VmArea), w.areas i = some a → a.backing.Anonymous
  nodup : ∀ (i : ℕ) (a : VmArea), w.areas i = some a → a.backing.ids.Nodup
  born : ∀ (i : ℕ) (a : VmArea), w.areas i = some a →
    ∀ object ∈ a.backing.ids, object < w.memory.nextObject
  apart : ∀ (i j : ℕ) (a b : VmArea), w.areas i = some a → w.areas j = some b → i ≠ j →
    ∀ object, a.backing.top = some object → object ∉ b.backing.ids

variable {w : Family}

theorem Start.invariant (h : w.Start) : w.Invariant := by
  have hempty : ∀ object pidx : ℕ, (w.memory.objects object).resident[pidx]? = none := by
    intro object pidx
    rw [h.objects]
    rfl
  have hno : ∀ (i : ℕ) (a : VmArea), w.areas i ≠ some a := by
    intro i a harea
    rw [h.areas] at harea
    cases harea
  refine ⟨⟨⟨?_, ?_, ?_, h.nodup⟩, ?_, h.zero⟩, fun object _ => h.objects object, ?_, ?_, ?_, ?_, ?_⟩
  · intro object pidx hget
    rw [hempty] at hget
    cases hget
  · intro object pidx _ _ _ hget
    rw [hempty] at hget
    cases hget
  · intro f hf
    refine ⟨fun heq => h.zero_not_free (heq ▸ hf), ?_⟩
    intro object pidx hget
    rw [hempty] at hget
    cases hget
  · intro object pidx _ hget
    rw [hempty] at hget
    cases hget
  all_goals
    intro i
    intros
    exact absurd ‹_› (hno i _)

variable {a : VmArea} {i : ℕ}

/-- A call on the area of one address space keeps the invariant and is seen there only. -/
theorem Invariant.touch (h : w.Invariant) (harea : w.areas i = some a) {m : Memory}
    (htouch : Touches a.backing w.memory m) :
    (w.setMemory m).Invariant ∧
      (w.setMemory m).flat = update w.flat i (some (a.backing.flat m)) := by
  constructor
  · refine ⟨htouch.consistent, ?_, h.isPrivate, h.anonymous, h.nodup, ?_, h.apart⟩
    · intro object hge
      change m.nextObject ≤ object at hge
      rw [htouch.nextObject] at hge
      refine (htouch.objects object ?_).trans (h.unborn object hge)
      intro htop
      have hlt := h.born i a harea object (VmObject.mem_ids_of_top htop)
      omega
    · intro j b hb object hmem
      change object < m.nextObject
      rw [htouch.nextObject]
      exact h.born j b hb object hmem
  · funext j
    by_cases hj : j = i
    · subst hj
      rw [update_self]
      unfold flat
      simp only [setMemory, harea, map_some]
    · rw [update_of_ne hj]
      unfold flat
      simp only [setMemory]
      cases hb : w.areas j with
      | none => rfl
      | some b =>
        have hview := htouch.view_eq (h.apart i j a b harea hb (Ne.symm hj))
        simp only [map_some, VmObject.flat, hview]

/-- A chain whose top is a new identity, and whose other objects are no other chain's top,
may become the area of an address space. -/
theorem Invariant.place (h : w.Invariant) (hprivate : a.onFork = .copyOnWrite)
    (hanonymous : a.backing.Anonymous) (htop : a.backing.top = some w.memory.nextObject)
    (hnodup : a.backing.ids.Nodup)
    (hborn : ∀ object ∈ a.backing.ids, object ≤ w.memory.nextObject)
    (hapart : ∀ (j : ℕ) (b : VmArea), j ≠ i → w.areas j = some b → ∀ object,
      b.backing.top = some object → object ∉ a.backing.ids) :
    ((w.setNext (w.memory.nextObject + 1)).set i a).Invariant := by
  have hcase : ∀ (j : ℕ) (b : VmArea),
      ((w.setNext (w.memory.nextObject + 1)).set i a).areas j = some b →
        j = i ∧ b = a ∨ j ≠ i ∧ w.areas j = some b := by
    intro j b hb
    unfold set at hb
    simp only at hb
    split_ifs at hb with hj
    · exact .inl ⟨hj, (some.inj hb).symm⟩
    · exact .inr ⟨hj, hb⟩
  refine ⟨?_, ?_, ?_, ?_, ?_, ?_, ?_⟩
  · have hm := h.consistent
    exact ⟨⟨hm.sound.zero, hm.sound.unique, hm.sound.free, hm.sound.nodup⟩, hm.committed, hm.zero⟩
  · intro object hge
    change w.memory.nextObject + 1 ≤ object at hge
    exact h.unborn object (by omega)
  · intro j b hb
    rcases hcase j b hb with ⟨-, rfl⟩ | ⟨-, hold⟩
    · exact hprivate
    · exact h.isPrivate j b hold
  · intro j b hb
    rcases hcase j b hb with ⟨-, rfl⟩ | ⟨-, hold⟩
    · exact hanonymous
    · exact h.anonymous j b hold
  · intro j b hb
    rcases hcase j b hb with ⟨-, rfl⟩ | ⟨-, hold⟩
    · exact hnodup
    · exact h.nodup j b hold
  · intro j b hb object hmem
    change object < w.memory.nextObject + 1
    rcases hcase j b hb with ⟨-, rfl⟩ | ⟨-, hold⟩
    · have hle := hborn object hmem
      omega
    · have hlt := h.born j b hold object hmem
      omega
  · intro j k b c hb hc hne object hobject hmem
    rcases hcase j b hb with ⟨rfl, rfl⟩ | ⟨hj, hold⟩
    · rcases hcase k c hc with ⟨rfl, rfl⟩ | ⟨-, hold⟩
      · exact hne rfl
      · rw [htop] at hobject
        cases hobject
        exact absurd (h.born k c hold _ hmem) (by omega)
    · rcases hcase k c hc with ⟨rfl, rfl⟩ | ⟨-, hold'⟩
      · exact hapart j b hj hold object hobject hmem
      · exact h.apart j k b c hold hold' hne object hobject hmem

theorem flat_place (w : Family) (i next : ℕ) (a : VmArea) : ((w.setNext next).set i a).flat =
      update w.flat i (some (a.backing.flat w.memory)) := by
  funext j
  by_cases hj : j = i
  · subst hj
    rw [update_self]
    unfold flat set
    simp only [if_true, map_some]
    rfl
  · rw [update_of_ne hj]
    unfold flat set
    simp only [if_neg hj]
    rfl

theorem Invariant.layer_unborn (h : w.Invariant) :
    w.memory.layer w.memory.nextObject = fun _ => none := by
  funext pidx
  unfold Memory.layer
  rw [h.unborn _ le_rfl]
  rfl

/-- **A new anonymous object holds zeros.** -/
theorem Invariant.create (h : w.Invariant) {i maxPages : ℕ} (hprivate : a.onFork = .copyOnWrite)
    (hbacking : a.backing = .anon w.memory.nextObject maxPages) :
    ((w.setNext (w.memory.nextObject + 1)).set i a).Invariant ∧
      ((w.setNext (w.memory.nextObject + 1)).set i a).flat =
        update w.flat i (some (Flat.zeros maxPages)) := by
  constructor
  · apply h.place hprivate
    · rw [hbacking]
      trivial
    · rw [hbacking]
      rfl
    · rw [hbacking]
      exact nodup_singleton _
    · intro object hmem
      rw [hbacking] at hmem
      exact (mem_singleton.mp hmem).le
    · intro j b _ hb object hobject hmem
      rw [hbacking, VmObject.ids, mem_singleton] at hmem
      have hlt := h.born j b hb object (VmObject.mem_ids_of_top hobject)
      omega
  · have hzeros : a.backing.flat w.memory = Flat.zeros maxPages := by
      funext offset
      rw [hbacking]
      simp only [VmObject.flat, Splice.unpage, VmObject.view, h.layer_unborn, Flat.zeros]
      split_ifs <;> rfl
    rw [flat_place, hzeros]

/-- A new shadow over a chain of the family may become the area of the address space that
has the chain, or of a new one once the chain is no area's any more. -/
theorem Invariant.shadow (h : w.Invariant) {parent : VmObject} (hprivate : a.onFork = .copyOnWrite)
    (hbacking : a.backing = .shadow w.memory.nextObject parent) (hanonymous : parent.Anonymous)
    (hnodup : parent.ids.Nodup) (hborn : ∀ object ∈ parent.ids, object < w.memory.nextObject)
    (hapart : ∀ (j : ℕ) (b : VmArea), j ≠ i → w.areas j = some b → ∀ object,
      b.backing.top = some object → object ∉ parent.ids) :
    ((w.setNext (w.memory.nextObject + 1)).set i a).Invariant ∧
      ((w.setNext (w.memory.nextObject + 1)).set i a).flat =
        update w.flat i (some (parent.flat w.memory)) := by
  constructor
  · apply h.place hprivate
    · rw [hbacking]
      exact hanonymous
    · rw [hbacking]
      rfl
    · rw [hbacking]
      apply nodup_cons.mpr
      refine ⟨fun hmem => ?_, hnodup⟩
      exact absurd (hborn _ hmem) (by omega)
    · intro object hmem
      rw [hbacking, VmObject.ids, mem_cons] at hmem
      rcases hmem with rfl | hmem
      · exact le_rfl
      · exact (hborn object hmem).le
    · intro j b hj hb object hobject hmem
      rw [hbacking, VmObject.ids, mem_cons] at hmem
      rcases hmem with rfl | hmem
      · exact absurd (h.born j b hb _ (VmObject.mem_ids_of_top hobject)) (by omega)
      · exact hapart j b hj hb object hobject hmem
  · have hsame : a.backing.flat w.memory = parent.flat w.memory := by
      rw [hbacking]
      simp only [VmObject.flat]
      congr 1
      funext pidx
      simp only [VmObject.view, h.layer_unborn, none_or]
    rw [flat_place, hsame]

/-- **Both sides of a fork show what the parent showed.**  The chain of the parent
is shadowed for the parent first; then its top is no area's top, and the child may shadow it
too. -/
theorem Invariant.fork (h : w.Invariant) {i child : ℕ} (harea : w.areas i = some a) :
    (((w.setNext (a.fork w.memory.nextObject).2.2).set i
          (a.fork w.memory.nextObject).1).set child
            (a.fork w.memory.nextObject).2.1).Invariant ∧
      (((w.setNext (a.fork w.memory.nextObject).2.2).set i
          (a.fork w.memory.nextObject).1).set child (a.fork w.memory.nextObject).2.1).flat =
        update w.flat child (some (a.backing.flat w.memory)) := by
  have hprivate := h.isPrivate i a harea
  have hfork : a.fork w.memory.nextObject =
      ({ a with backing := .shadow w.memory.nextObject a.backing },
        { a with backing := .shadow (w.memory.nextObject + 1) a.backing },
        w.memory.nextObject + 2) := by
    unfold VmArea.fork
    rw [hprivate]
  rw [hfork]
  obtain ⟨hparent, hflat⟩ := h.shadow (i := i)
    (a := { a with backing := .shadow w.memory.nextObject a.backing }) hprivate rfl
    (h.anonymous i a harea) (h.nodup i a harea) (h.born i a harea)
    (fun j b hj hb object hobject => h.apart j i b a hb harea hj object hobject)
  obtain ⟨hchild, hflat'⟩ := hparent.shadow (i := child)
    (a := { a with backing := .shadow (w.memory.nextObject + 1) a.backing }) hprivate rfl
    (h.anonymous i a harea) (h.nodup i a harea)
    (fun object hmem => (h.born i a harea object hmem).trans (Nat.lt_succ_self _))
    (by
      intro j b _ hb object hobject hmem
      unfold set at hb
      simp only at hb
      split_ifs at hb with hj
      · cases hb
        cases hobject
        exact absurd (h.born i a harea _ hmem) (lt_irrefl _)
      · exact h.apart j i b a hb harea hj object hobject hmem)
  refine ⟨hchild, hflat'.trans ?_⟩
  have hunchanged : update w.flat i (some (a.backing.flat w.memory)) = w.flat := by
    apply update_eq_self_iff.mpr
    unfold flat
    rw [harea]
    rfl
  rw [hflat, hunchanged]
  rfl

theorem Invariant.exit (h : w.Invariant) (i : ℕ) :
    Invariant { w with areas := fun j => if j = i then none else w.areas j } ∧
      flat { w with areas := fun j => if j = i then none else w.areas j } =
        update w.flat i none := by
  have hcase : ∀ (j : ℕ) (b : VmArea), (if j = i then none else w.areas j) = some b →
      w.areas j = some b := by
    intro j b hb
    split_ifs at hb
    exact hb
  constructor
  · exact ⟨h.consistent, h.unborn, fun j b hb => h.isPrivate j b (hcase j b hb),
      fun j b hb => h.anonymous j b (hcase j b hb), fun j b hb => h.nodup j b (hcase j b hb),
      fun j b hb => h.born j b (hcase j b hb),
      fun j k b c hb hc => h.apart j k b c (hcase j b hb) (hcase k c hc)⟩
  · funext j
    by_cases hj : j = i
    · subst hj
      rw [update_self]
      unfold flat
      simp only [if_true, map_none]
    · rw [update_of_ne hj]
      unfold flat
      simp only [if_neg hj]

theorem Invariant.unseen (h : w.Invariant) {m : Memory} (hm : m.Consistent)
    (hnext : m.nextObject = w.memory.nextObject)
    (hunborn : ∀ object, m.nextObject ≤ object → m.objects object = .empty)
    (hlayers : ∀ (i : ℕ) (a : VmArea), w.areas i = some a → ∀ object ∈ a.backing.ids,
      m.layer object = w.memory.layer object) :
    (w.setMemory m).Invariant ∧ (w.setMemory m).flat = w.flat := by
  constructor
  · refine ⟨hm, hunborn, h.isPrivate, h.anonymous, h.nodup, ?_, h.apart⟩
    intro i a harea object hmem
    change object < m.nextObject
    rw [hnext]
    exact h.born i a harea object hmem
  · funext i
    unfold flat
    simp only [setMemory]
    cases harea : w.areas i with
    | none => rfl
    | some a =>
      have hview := VmObject.view_congr (hlayers i a harea)
      simp only [map_some, VmObject.flat, hview]

theorem Invariant.refill (h : w.Invariant) {frames : List ℕ} {bytes : ℕ → Page}
    (hunused : ∀ f ∈ frames, ¬ w.InUse f) (hnodup : frames.Nodup)
    (hkept : ∀ f, w.InUse f → bytes f = w.memory.bytes f) :
    (w.setMemory { w.memory with freeFrames := frames, bytes := bytes }).Invariant ∧
      (w.setMemory { w.memory with freeFrames := frames, bytes := bytes }).flat = w.flat := by
  have hm := h.consistent
  refine h.unseen ?_ rfl h.unborn ?_
  · refine ⟨⟨hm.sound.zero, hm.sound.unique, ?_, hnodup⟩, hm.committed, ?_⟩
    · intro f hf
      refine ⟨fun heq => hunused f hf (.inl heq), ?_⟩
      intro object pidx hget
      exact hunused f hf (.inr ⟨object, pidx, hget⟩)
    · exact (hkept _ (.inl rfl)).trans hm.zero
  · intro i a _ object _
    funext pidx
    unfold Memory.layer
    cases hres : (w.memory.objects object).resident[pidx]? with
    | none => rfl
    | some frame => simp only [hkept frame (.inr ⟨object, pidx, hres⟩)]

theorem Invariant.release (h : w.Invariant) {object : ℕ}
    (hunused : ∀ (i : ℕ) (a : VmArea), w.areas i = some a → object ∉ a.backing.ids) :
    (w.setMemory (w.memory.setPages object .empty)).Invariant ∧
      (w.setMemory (w.memory.setPages object .empty)).flat =
        w.flat := by
  have hm := h.consistent
  have hobjects : ∀ o, (w.memory.setPages object .empty).objects o =
      if o = object then .empty else w.memory.objects o := fun o => rfl
  have hret := w.memory.retires_release object
  refine h.unseen ?_ rfl ?_ ?_
  · refine ⟨hret.sound hm.sound, ?_, hm.zero⟩
    intro o pidx frame hget
    rw [hobjects]
    split_ifs with ho
    · rfl
    · exact hm.committed o pidx frame (hret.of_get hget)
  · intro o hge
    rw [hobjects]
    split_ifs
    · rfl
    · exact h.unborn o hge
  · intro i a harea o hmem
    have ho : o ≠ object := by
      rintro rfl
      exact hunused i a harea hmem
    funext pidx
    unfold Memory.layer
    simp only [hobjects, if_neg ho, hret.bytes]

theorem flat_eq (harea : w.areas i = some a) :
    w.flat i = some (a.backing.flat w.memory) := by
  unfold flat
  rw [harea]
  rfl

/-- **One step of a family is one step of the flat copies.** -/
theorem Invariant.step {w w' : Family} (h : w.Invariant) {e : Event} (hstep : w.Step e w') :
    Flat.Step w.flat e w'.flat ∧ w'.Invariant := by
  cases hstep with
  | create hfree hprivate hbacking =>
    obtain ⟨hinv, hflat⟩ := h.create hprivate hbacking
    rw [hflat]
    refine ⟨.create ?_, hinv⟩
    unfold flat
    rw [hfree]
    rfl
  | write harea hcall =>
    obtain ⟨result, m, hcall', htouch, hwritten⟩ := VmObject.writeLoop_spec
      (h.anonymous _ _ harea) (h.nodup _ _ harea) _ h.consistent _ _ le_rfl
    cases hcall.symm.trans hcall'
    obtain ⟨hinv, hflat⟩ := h.touch harea htouch
    refine ⟨?_, hinv⟩
    rcases hwritten with ⟨rfl, hstored⟩ | ⟨e, stored, rfl, hstored, hcause, -⟩
    · rw [hflat, hstored]
      exact .write (flat_eq harea)
    · rw [hflat, hstored]
      exact .writeRefused (flat_eq harea) hcause
  | @read i offset len result a m harea hcall =>
    have hread := VmObject.readLoop_eq (h.anonymous i a harea) h.consistent len offset len le_rfl
    cases hcall.symm.trans hread
    exact ⟨.read (flat_eq harea), h⟩
  | @resolve i pidx access result a m harea hcall =>
    have hsame : ∀ {m : Memory}, Touches a.backing w.memory m →
        a.backing.view m.layer = a.backing.view w.memory.layer →
          Flat.Step w.flat (.resolve i pidx access) (w.setMemory m).flat ∧
            (w.setMemory m).Invariant := by
      intro m htouch hview
      obtain ⟨hinv, hflat⟩ := h.touch harea htouch
      have hunchanged : update w.flat i (some (a.backing.flat m)) = w.flat := by
        apply update_eq_self_iff.mpr
        rw [flat_eq harea]
        simp only [VmObject.flat, hview]
      rw [hflat, hunchanged]
      exact ⟨.resolve, hinv⟩
    by_cases haccess : access = .write
    · subst haccess
      rcases VmObject.writeFault (h.anonymous i a harea) (h.nodup i a harea) h.consistent pidx with
        ⟨frame, m', hcall', htouch, hview, -⟩ | ⟨e, hcall', -⟩
      · cases hcall.symm.trans hcall'
        exact hsame htouch hview
      · cases hcall.symm.trans hcall'
        exact hsame (.refl _ h.consistent) rfl
    · rcases VmObject.resolveFrame_read (h.anonymous i a harea) h.consistent pidx haccess with
        ⟨resolved, hcall', -⟩ | ⟨hcall', -⟩
      all_goals
        cases hcall.symm.trans hcall'
        exact hsame (.refl _ h.consistent) rfl
  | fork harea hfree =>
    obtain ⟨hinv, hflat⟩ := h.fork harea
    rw [hflat]
    refine ⟨.fork (flat_eq harea) ?_, hinv⟩
    unfold flat
    rw [hfree]
    rfl
  | @decommit i lo hi result a m harea hcall =>
    unfold VmObject.decommitBytes at hcall
    cases hrange : a.backing.decommitPrivateRange w.memory lo hi with
    | error e =>
      rw [hrange] at hcall
      cases hcall
      have hcause := VmObject.decommitPrivateRange_refused (h.anonymous i a harea) hrange
      exact ⟨.decommitRefused (flat_eq harea) hcause, h⟩
    | ok mem' =>
      rw [hrange] at hcall
      cases hcall
      obtain ⟨htouch, hzero⟩ :=
        VmObject.decommitPrivateRange_spec (h.nodup i a harea) h.consistent hrange
      obtain ⟨hinv, hflat⟩ := h.touch harea htouch
      refine ⟨?_, hinv⟩
      rw [hflat, hzero]
      exact .decommit (flat_eq harea)
  | exit i =>
    obtain ⟨hinv, hflat⟩ := h.exit i
    rw [hflat]
    exact ⟨.exit i, hinv⟩
  | refill hunused hnodup hkept =>
    obtain ⟨hinv, hflat⟩ := h.refill hunused hnodup hkept
    rw [hflat]
    exact ⟨.refill, hinv⟩
  | release hunused =>
    obtain ⟨hinv, hflat⟩ := h.release hunused
    rw [hflat]
    exact ⟨.release, hinv⟩

theorem Invariant.mirrors (h : w.Invariant) : w.Mirrors w.flat where
  areas i := by
    unfold flat
    rw [isSome_map]
  reads i a g harea hg offset len := by
    cases (flat_eq harea).symm.trans hg
    exact VmObject.readLoop_eq (h.anonymous i a harea) h.consistent len offset len le_rfl
  writes i a g harea hg offset data := by
    cases (flat_eq harea).symm.trans hg
    obtain ⟨result, m, hcall, -, hwritten⟩ := VmObject.writeLoop_spec (h.anonymous i a harea)
      (h.nodup i a harea) data.length h.consistent offset data le_rfl
    refine ⟨result, m, hcall, ?_⟩
    intro hpresent hframes
    rcases hwritten with ⟨hok, -⟩ | ⟨e, stored, -, -, -, hlack⟩
    · exact hok
    · exact absurd ⟨hpresent, hframes⟩ hlack
  lookups object pidx := by
    rcases h.consistent.lookup object pidx with ⟨frame, hfound, -⟩ | ⟨-, ⟨hfound, -⟩ | ⟨hfound, -⟩⟩
    all_goals exact ⟨_, hfound⟩

end Family

/-- **Copy-on-write objects refine private memory.**  Every run of a family of private
anonymous areas (areas created and dropped, forks nested to any depth and in any order,
`write_bytes`, `read_bytes` and `decommit_private_range` on any of them, write faults, and
frames and objects recycled in between) can be followed by flat copies that take the same
events with the same results.  In every state of the run, reading any range of any area
returns what its copy holds, writing returns, and no look at an object trips over a page
that is both present and decommitted.

SOURCE: vmo/shadow.rs:36-211, vmo/anon.rs:22-114, vma.rs:326-364, vmo/mod.rs:156-215 -/
theorem Family.run_mirrors_copies {w : Family} (hstart : w.Start)
    {path : List (Family.Event × Family)} (hpath : Run.Path Family.Step w path) :
    ∃ copies : List (Family.Event × (ℕ → Option Flat)), Run.Path Flat.Step (fun _ => none) copies ∧
        List.Forall₂ (fun x y => x.1 = y.1 ∧ x.2.Mirrors y.2) path copies := by
  have hempty : w.flat = fun _ => none := by
    funext i
    unfold flat
    rw [hstart.areas]
    rfl
  have hstep : ∀ (v : Family) (e : Family.Event) (v' : Family) (f : ℕ → Option Flat),
      (v.Invariant ∧ f = v.flat) → v.Step e v' →
        ∃ f', Flat.Step f e f' ∧ (v'.Invariant ∧ f' = v'.flat) := by
    rintro v e v' f ⟨hinv, rfl⟩ hst
    obtain ⟨hflat, hinv'⟩ := hinv.step hst
    exact ⟨v'.flat, hflat, hinv', rfl⟩
  obtain ⟨copies, hcopies, hall⟩ := Run.Path.simulate hstep ⟨hstart.invariant, hempty.symm⟩ hpath
  refine ⟨copies, hcopies, hall.imp ?_⟩
  rintro x y ⟨hlabel, hinv, hflat⟩
  rw [hflat]
  exact ⟨hlabel, hinv.mirrors⟩

def Family.sample : Family :=
  ⟨⟨fun _ => .empty, 0, 0, [1, 2, 3], fun _ => zeroPage, fun _ _ _ => .error .notSupported,
    fun _ _ _ => .ok none⟩, fun _ => none⟩

/-- A private area of two pages over the object 0. -/
def VmArea.sample : VmArea := .new ⟨16, 2⟩ 0 .rw .copyOnWrite .empty (.anon 0 2)

/-- The theorem at a run in which parent and child write the same byte after a fork, and the
child gives its page up again. -/
theorem Family.run_mirrors_copies_sample : Family.sample.Start ∧
    ∃ path : List (Family.Event × Family), Run.Path Family.Step Family.sample path ∧
      path.map Prod.fst = [.create 0 2, .write 0 5 [7] (.ok ()), .fork 0 1,
        .write 1 5 [9] (.ok ()), .read 0 5 1 (.ok [7]), .read 1 5 1 (.ok [9]),
        .decommit 1 0 1 (.ok ()), .read 1 5 1 (.ok [0])] ∧
      ∃ copies : List (Family.Event × (ℕ → Option Flat)),
        Run.Path Flat.Step (fun _ => none) copies ∧
          List.Forall₂ (fun x y => x.1 = y.1 ∧ x.2.Mirrors y.2) path copies := by
  have hstart : Family.sample.Start := ⟨fun _ => rfl, fun _ => rfl, by decide, by decide, rfl⟩
  let w₁ := (Family.sample.setNext 1).set 0 .sample
  have hrun : (do
      let r₁ ← VmArea.sample.backing.writeBytes w₁.memory 5 [7]
      let sides := VmArea.sample.fork r₁.2.nextObject
      let r₂ ← sides.2.1.backing.writeBytes { r₁.2 with nextObject := sides.2.2 } 5 [9]
      let r₃ ← sides.1.backing.readBytes r₂.2 5 1
      let r₄ ← sides.2.1.backing.readBytes r₃.2 5 1
      let r₅ ← pure (sides.2.1.backing.decommitBytes r₄.2 0 1)
      let r₆ ← sides.2.1.backing.readBytes r₅.2 5 1
      pure ([r₁.1, r₂.1, r₅.1], [r₃.1, r₄.1, r₆.1]) :
        Checked (List (Except SysError Unit) × List (Except SysError (List UInt8)))) =
      .ok ([.ok (), .ok (), .ok ()], [.ok [7], .ok [9], .ok [0]]) := by decide +kernel
  simp only [Checked.bind_eq_ok] at hrun
  obtain ⟨⟨r₁, m₁⟩, hcall₁, ⟨r₂, m₂⟩, hcall₂, ⟨r₃, m₃⟩, hcall₃, ⟨r₄, m₄⟩, hcall₄, ⟨r₅, m₅⟩,
    hcall₅, ⟨r₆, m₆⟩, hcall₆, hresults⟩ := hrun
  cases hresults
  let w₂ := w₁.setMemory m₁
  let sides := VmArea.sample.fork m₁.nextObject
  let w₃ := ((w₂.setNext sides.2.2).set 0 sides.1).set 1 sides.2.1
  let path : List (Family.Event × Family) := [(.create 0 2, w₁), (.write 0 5 [7] (.ok ()), w₂),
    (.fork 0 1, w₃), (.write 1 5 [9] (.ok ()), w₃.setMemory m₂),
    (.read 0 5 1 (.ok [7]), w₃.setMemory m₃), (.read 1 5 1 (.ok [9]), w₃.setMemory m₄),
    (.decommit 1 0 1 (.ok ()), w₃.setMemory m₅), (.read 1 5 1 (.ok [0]), w₃.setMemory m₆)]
  have hpath : Run.Path Family.Step Family.sample path :=
    ⟨.create rfl rfl rfl, .write rfl hcall₁, .fork rfl rfl, .write rfl hcall₂,
      .read rfl hcall₃, .read rfl hcall₄, .decommit rfl (Except.ok.inj hcall₅),
      .read rfl hcall₆, trivial⟩
  exact ⟨hstart, path, hpath, rfl, Family.run_mirrors_copies hstart hpath⟩

end Anemone.Uspace
