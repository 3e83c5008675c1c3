import Anemone.Model.PageMemory
import Anemone.Analysis.RangeLookups

/-!
# What a fork leaves

A shared area is the same on both sides.  A copy-on-write area shadows its backing on both sides
with two new objects, and the parent's leaves in its range lose the write permission.
-/

namespace Anemone.Uspace

open Checked (bind_eq_ok)
open OrderedMap List
open Ranges (VirtPageRange)

/-- An area after a fork, on the side whose shadow is `object`. -/
def VmArea.shadowed (a : VmArea) (object : ℕ) : VmArea :=
  match a.onFork with
  | .shared => a
  | .copyOnWrite => { a with backing := .shadow object a.backing }

/-- A fork takes the write permission off the leaf of a page. -/
def VmArea.ForkProtects (a : VmArea) (vpn : ℕ) : Prop :=
  a.onFork = .copyOnWrite ∧ a.prot.write = true ∧ a.range.contains vpn

instance (a : VmArea) (vpn : ℕ) : Decidable (a.ForkProtects vpn) :=
  inferInstanceAs (Decidable (_ ∧ _ ∧ _))

def Pte.readOnly (pte : Pte) : Pte := { pte with flags := { pte.flags with write := false } }

theorem get_changeFlags (table : OrderedMap Pte) (range : VirtPageRange)
    (op : PteFlags → Option PteFlags) (vpn : ℕ) :
    (changeFlags table range op)[vpn]? = (table[vpn]?).map fun pte =>
      if range.contains vpn then { pte with flags := (op pte.flags).getD pte.flags } else pte := by
  unfold changeFlags
  rw [Std.ExtTreeMap.getElem?_map]

theorem get_tryUnmap (table : OrderedMap Pte) (range : VirtPageRange) (vpn : ℕ) :
    (tryUnmap table range)[vpn]? = if range.contains vpn then none else table[vpn]? := by
  unfold tryUnmap
  rw [Std.ExtTreeMap.getElem?_filter']
  by_cases hin : range.contains vpn
  · simp [hin]
  · cases table[vpn]? <;> simp [hin]

/-- Both sides of a fork, and the identities it takes. -/
theorem VmArea.fork_spec (a : VmArea) (n : ℕ) :
    (a.fork n).1 = a.shadowed n ∧ (a.fork n).2.1 = a.shadowed (n + 1) ∧ n ≤ (a.fork n).2.2 ∧
      (a.onFork = .copyOnWrite → (a.fork n).2.2 = n + 2) := by
  unfold VmArea.fork VmArea.shadowed
  cases a.onFork <;> simp

theorem VmArea.get_forkTable (a : VmArea) (table : OrderedMap Pte) (vpn : ℕ) :
    (a.forkTable table)[vpn]? = (table[vpn]?).map fun pte =>
      if a.ForkProtects vpn then pte.readOnly else pte := by
  unfold VmArea.forkTable VmArea.ForkProtects
  by_cases hwrite : a.onFork = .copyOnWrite ∧ a.prot.write
  · rw [if_pos hwrite, get_changeFlags]
    congr 1
    funext pte
    simp only [hwrite, true_and, Pte.readOnly]
    obtain ⟨ppn, r, w, x, u⟩ := pte
    cases w <;> simp
  · rw [if_neg hwrite]
    simp [← and_assoc, hwrite]

theorem Forking.fork_eq_ok {f f' : Forking} {k : ℕ} {a : VmArea} (h : f.fork k a = .ok f') :
    f.child[k]? = none ∧ f'.child = f.child.insert k (a.shadowed (f.nextObject + 1)) ∧
      f'.parent = f.parent.insert k (a.shadowed f.nextObject) ∧
      f.nextObject ≤ f'.nextObject ∧
      (a.onFork = .copyOnWrite → f'.nextObject = f.nextObject + 2) ∧
      f'.table = a.forkTable f.table := by
  obtain ⟨child, hins, hf⟩ := bind_eq_ok.mp h
  cases hf
  obtain ⟨hfree, rfl⟩ := insertNew_eq_ok.mp hins
  obtain ⟨hparent, hchild, hle, hcow⟩ := a.fork_spec f.nextObject
  exact ⟨hfree, by rw [hchild], by rw [hparent], hle, hcow, rfl⟩

/-- What the loop of a fork leaves, for the areas `es` it walked: `ids` are the identities
of the parent's shadows, the child's are next to them. -/
structure ForkSpec (es : List (ℕ × VmArea)) (f f' : Forking) (ids : ℕ → ℕ) : Prop where
  parent : ∀ e ∈ es, f'.parent[e.1]? = some (e.2.shadowed (ids e.1))
  child : ∀ e ∈ es, f'.child[e.1]? = some (e.2.shadowed (ids e.1 + 1))
  other : ∀ k : ℕ, (∀ e ∈ es, e.1 ≠ k) → f'.parent[k]? = f.parent[k]? ∧ f'.child[k]? = f.child[k]?
  fresh : ∀ e ∈ es, e.2.onFork = .copyOnWrite → f.nextObject ≤ ids e.1 ∧ ids e.1 + 1 < f'.nextObject
  distinct : ∀ e ∈ es, ∀ e' ∈ es, e.2.onFork = .copyOnWrite → e'.2.onFork = .copyOnWrite →
    e.1 < e'.1 → ids e.1 + 1 < ids e'.1
  next_le : f.nextObject ≤ f'.nextObject
  table : ∀ vpn : ℕ, f'.table[vpn]? = (f.table[vpn]?).map fun pte =>
    if ∃ e ∈ es, e.2.ForkProtects vpn then pte.readOnly else pte

/-- **The loop of a fork**, by induction over the areas still to walk. -/
theorem forkAreas_spec {es : List (ℕ × VmArea)} {f f' : Forking}
    (h : forkAreas es f = .ok f') (hsorted : es.Pairwise fun x y => x.1 < y.1) :
    ∃ ids, ForkSpec es f f' ids := by
  induction es generalizing f with
  | nil =>
    cases h
    exact ⟨fun _ => 0, by simp, by simp, by simp, by simp, by simp, Nat.le_refl _, by simp⟩
  | cons e es ih =>
    obtain ⟨k, a⟩ := e
    obtain ⟨f₁, hstep, hrest⟩ := bind_eq_ok.mp h
    obtain ⟨hfirst, hsorted'⟩ := pairwise_cons.mp hsorted
    obtain ⟨hfree, hchild₁, hparent₁, hle₁, hcow₁, htable₁⟩ := Forking.fork_eq_ok hstep
    have hne : ∀ e ∈ es, e.1 ≠ k := fun e he => (hfirst e he).ne'
    obtain ⟨ids, spec⟩ := ih hrest hsorted'
    refine ⟨fun j => if j = k then f.nextObject else ids j, ?_, ?_, ?_, ?_, ?_, ?_, ?_⟩
    · intro e he
      rcases mem_cons.mp he with rfl | he
      · rw [(spec.other k hne).1, hparent₁, get_insert, if_pos rfl, if_pos rfl]
      · rw [spec.parent e he, if_neg (hne e he)]
    · intro e he
      rcases mem_cons.mp he with rfl | he
      · rw [(spec.other k hne).2, hchild₁, get_insert, if_pos rfl, if_pos rfl]
      · rw [spec.child e he, if_neg (hne e he)]
    · intro j hj
      have hjk : k ≠ j := hj (k, a) mem_cons_self
      obtain ⟨hp, hc⟩ := spec.other j fun e he => hj e (mem_cons_of_mem _ he)
      rw [hp, hc, hparent₁, hchild₁, get_insert, get_insert, if_neg hjk, if_neg hjk]
      exact ⟨rfl, rfl⟩
    · intro e he hcow
      rcases mem_cons.mp he with rfl | he
      · have := hcow₁ hcow
        have := spec.next_le
        simp only [if_true]
        omega
      · have := spec.fresh e he hcow
        rw [if_neg (hne e he)]
        omega
    · intro e he e' he' hcow hcow' hlt
      rcases mem_cons.mp he with rfl | he
      · rcases mem_cons.mp he' with rfl | he'
        · exact absurd hlt (Nat.lt_irrefl _)
        · have := hcow₁ hcow
          have := spec.fresh e' he' hcow'
          rw [if_pos rfl, if_neg (hne e' he')]
          omega
      · rcases mem_cons.mp he' with rfl | he'
        · exact absurd hlt (Nat.lt_asymm (hfirst e he))
        · rw [if_neg (hne e he), if_neg (hne e' he')]
          exact spec.distinct e he e' he' hcow hcow' hlt
    · exact hle₁.trans spec.next_le
    · intro vpn
      rw [spec.table, htable₁, VmArea.get_forkTable, Option.map_map]
      congr 1
      funext pte
      simp only [Function.comp, mem_cons, exists_eq_or_imp]
      by_cases hhead : a.ForkProtects vpn
      · simp only [hhead, if_true, true_or]
        split_ifs <;> rfl
      · simp only [hhead, if_false, false_or]

variable {tables : Bool}

/-- A fork that is carried out leaves the areas of the parent and the child as `ForkSpec`
says, the child with an empty page table. -/
theorem UserSpace.forkInner_ok {s s' child : UserSpace} {mem mem' : Memory}
    (h : s.forkInner mem tables = .ok (.ok child, s', mem')) :
    ∃ ids, ForkSpec s.vmas.toList ⟨s.vmas, ∅, s.table, mem.nextObject⟩
        ⟨s'.vmas, child.vmas, s'.table, mem'.nextObject⟩ ids ∧
      s' = { s with vmas := s'.vmas, table := s'.table } ∧
      child = ⟨∅, child.vmas, s.stack, s.heap⟩ ∧
      mem' = { mem with nextObject := mem'.nextObject } := by
  unfold forkInner at h
  split at h
  · obtain ⟨f, hf, hres⟩ := bind_eq_ok.mp h
    cases hres
    obtain ⟨ids, spec⟩ := forkAreas_spec hf s.vmas.toList_pairwise
    exact ⟨ids, spec, rfl, rfl, rfl⟩
  · cases h

namespace ForkSpec

variable {s s' child : UserSpace} {table : OrderedMap Pte} {next next' : ℕ} {ids : ℕ → ℕ}
  (spec : ForkSpec s.vmas.toList ⟨s.vmas, ∅, s.table, next⟩ ⟨s'.vmas, child.vmas, table, next'⟩ ids)

include spec

theorem parent_get (k : ℕ) :
    s'.vmas[k]? = (s.vmas[k]?).map fun a => a.shadowed (ids k) := by
  cases hk : s.vmas[k]? with
  | some a => exact spec.parent (k, a) (mem_toList.mpr hk)
  | none =>
    rw [(spec.other k ?_).1, hk]
    · rfl
    · rintro ⟨j, b⟩ he rfl
      rw [mem_toList.mp he] at hk
      cases hk

theorem child_get (k : ℕ) :
    child.vmas[k]? = (s.vmas[k]?).map fun a => a.shadowed (ids k + 1) := by
  cases hk : s.vmas[k]? with
  | some a => exact spec.child (k, a) (mem_toList.mpr hk)
  | none =>
    rw [(spec.other k ?_).2]
    · simp
    · rintro ⟨j, b⟩ he rfl
      rw [mem_toList.mp he] at hk
      cases hk

end ForkSpec

theorem UserSpace.forkInner_error {s s' : UserSpace} {mem mem' : Memory} {e : SysError}
    (h : s.forkInner mem tables = .ok (.error e, s', mem')) :
    s' = s ∧ mem' = mem := by
  unfold forkInner at h
  split at h
  · obtain ⟨f, -, hres⟩ := bind_eq_ok.mp h
    cases hres
  · cases h
    exact ⟨rfl, rfl⟩

end Anemone.Uspace
