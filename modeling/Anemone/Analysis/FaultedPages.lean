import Anemone.Analysis.LeafTables

/-!
# What a page fault leaves in the page table

A leaf that may be written belongs to a page whose area may be written, and shows the frame that
the object on top of the area's chain holds at the end of the fault; other leaves are as before.
-/

namespace Anemone.Uspace

open Checked (bind_eq_ok)
open Ranges (VirtPageRange)
open Extents (WellKeyed)

variable {L : Layout} {vpn : ℕ} {a : VmArea} {walk : ℕ → Bool} {res : ResolvedFrame}

theorem commitLeaf_eq_ok {table table' : OrderedMap Pte} {ppn : ℕ} {flags : PteFlags}
    {commit : LeafPteCommit} (h : commitLeaf table vpn ppn flags walk = .ok (commit, table')) :
    table' = table.insert vpn ⟨ppn, flags⟩ := by
  unfold commitLeaf at h
  split_ifs at h
  cases h
  rfl

theorem write_resolvedFlags (h : (a.resolvedFlags res).write = true) :
    a.prot.write = true ∧ res.writable = true := by
  unfold VmArea.resolvedFlags at h
  by_cases hw : res.writable
  · simp only [hw, if_true, PteFlags.ofProtection] at h
    exact ⟨h, hw⟩
  · simp [hw] at h

/-- Leaves were put in for some pages of an area. -/
structure Filled (a : VmArea) (pages : ℕ → Prop) (table : OrderedMap Pte) (mem : Memory)
    (table' : OrderedMap Pte) (mem' : Memory) : Prop where
  sound : mem'.Sound
  grows : mem.Extends mem'
  leaf : ∀ (vpn : ℕ) (pte : Pte), table'[vpn]? = some pte → pte.flags.write = true →
    table[vpn]? = some pte ∨
      (pages vpn ∧ a.prot.write = true ∧ a.backing.Holds mem' (a.vmoPidx vpn) pte.ppn)

namespace Filled

variable {a : VmArea} {pages pages' : ℕ → Prop} {table table' table'' : OrderedMap Pte}
  {mem mem' mem'' : Memory}

theorem refl (hsound : mem.Sound) : Filled a pages table mem table mem :=
  ⟨hsound, .refl mem, fun _ _ h _ => .inl h⟩

theorem mono (h : Filled a pages table mem table' mem') (hsub : ∀ vpn, pages vpn → pages' vpn) :
    Filled a pages' table mem table' mem' where
  sound := h.sound
  grows := h.grows
  leaf vpn pte hleaf hw := (h.leaf vpn pte hleaf hw).imp_right fun hnew =>
    ⟨hsub vpn hnew.1, hnew.2⟩

theorem trans (h : Filled a pages table mem table' mem')
    (h' : Filled a pages table' mem' table'' mem'') : Filled a pages table mem table'' mem'' where
  sound := h'.sound
  grows := h.grows.trans h'.grows
  leaf vpn pte hleaf hw := by
    rcases h'.leaf vpn pte hleaf hw with hmid | hnew
    · rcases h.leaf vpn pte hmid hw with hold | ⟨hin, hprot, hheld⟩
      · exact .inl hold
      · exact .inr ⟨hin, hprot, h'.grows.holds hheld⟩
    · exact .inr hnew

theorem insert (hsound : mem'.Sound) (hgrows : mem.Extends mem') (hin : pages vpn)
    (hheld : res.writable = true → a.backing.Holds mem' (a.vmoPidx vpn) res.frame) :
    Filled a pages table mem (table.insert vpn ⟨res.frame, a.resolvedFlags res⟩) mem' where
  sound := hsound
  grows := hgrows
  leaf vpn' pte hleaf hw := by
    rw [OrderedMap.get_insert] at hleaf
    split_ifs at hleaf with heq
    · cases hleaf
      subst heq
      obtain ⟨hprot, hwritable⟩ := write_resolvedFlags hw
      exact .inr ⟨hin, hprot, hheld hwritable⟩
    · exact .inl hleaf

theorem grown (hsound : mem'.Sound) (hgrows : mem.Extends mem') :
    Filled a pages table mem table mem' :=
  ⟨hsound, hgrows, fun _ _ h _ => .inl h⟩

end Filled

variable {r : Except SysError LeafPteCommit} {continuation : PageAccessContinuation}

section Area

variable {a : VmArea} (hint : a.backing.Internal) {table table' : OrderedMap Pte}
  {mem mem' : Memory} (hsound : mem.Sound) {walk : ℕ → Bool} {access : PageFaultType}

include hint hsound

theorem mapPage_filled (h : a.mapPage table mem walk vpn access = .ok (r, table', mem')) :
    Filled a (fun p => p = vpn) table mem table' mem' := by
  unfold VmArea.mapPage at h
  split at h
  · cases h
    exact .refl hsound
  obtain ⟨⟨resolved, mem₁⟩, hresolve, h⟩ := bind_eq_ok.mp h
  obtain ⟨hsound₁, hgrows, hheld⟩ := VmObject.resolveFrame_spec hint hsound hresolve
  cases resolved with
  | error e =>
    cases h
    exact .grown hsound₁ hgrows
  | ok res =>
    simp only at h
    split at h
    · cases h
      exact .grown hsound₁ hgrows
    · next commit table₁ hcommit =>
      cases h
      rw [commitLeaf_eq_ok hcommit]
      refine .insert hsound₁ hgrows ?_ (hheld res rfl)
      rfl

/-- **The pages after it**, by induction over the pages still to map. -/
theorem aheadLoop_filled {requestEnd n : ℕ}
    (h : a.aheadLoop walk requestEnd access n vpn table mem = .ok (table', mem')) :
    Filled a (fun p => vpn ≤ p ∧ p < vpn + n) table mem table' mem' := by
  induction n generalizing vpn table mem with
  | zero =>
    cases h
    exact .refl hsound
  | succ n ih =>
    unfold VmArea.aheadLoop at h
    split_ifs at h
    · cases h
      exact .refl hsound
    obtain ⟨⟨resolved, mem₁⟩, hresolve, h⟩ := bind_eq_ok.mp h
    obtain ⟨hsound₁, hgrows, hheld⟩ := VmObject.resolveFrameAhead_spec hint hsound hresolve
    split at h
    · next res mem₂ heq =>
      cases heq
      split at h
      · next commit table₁ hcommit =>
        obtain ⟨_, -, hrest⟩ := bind_eq_ok.mp h
        rw [commitLeaf_eq_ok hcommit] at hrest
        have hfirst : Filled a (fun p => vpn ≤ p ∧ p < vpn + (n + 1)) table mem
            (table.insert vpn ⟨res.frame, a.resolvedFlags res⟩) mem₁ :=
          .insert hsound₁ hgrows ⟨Nat.le_refl _, by omega⟩ (hheld res rfl)
        apply hfirst.trans
        apply (ih hsound₁ hrest).mono
        intro p hp
        omega
      · cases h
        exact .grown hsound₁ hgrows
      · cases h
    · next mem₂ _ heq =>
      cases heq
      cases h
      exact .grown hsound₁ hgrows

theorem resolveWindow_filled {demand limit : ℕ} (hin : a.range.contains demand)
    (h : UserSpace.resolveWindow L a table mem walk demand limit access continuation =
      .ok (r, table', mem')) :
    Filled a (fun p => a.range.contains p) table mem table' mem' := by
  obtain ⟨⟨r₁, table₁, mem₁⟩, hmap, h⟩ := bind_eq_ok.mp h
  have hdemand : Filled a (fun p => a.range.contains p) table mem table₁ mem₁ := by
    apply (mapPage_filled hint hsound hmap).mono
    rintro p rfl
    exact hin
  cases r₁ with
  | error e =>
    cases h
    exact hdemand
  | ok commit =>
    obtain ⟨ahead, -, h⟩ := bind_eq_ok.mp h
    cases ahead with
    | none =>
      cases h
      exact hdemand
    | some aheadEnd =>
      obtain ⟨⟨table₂, mem₂⟩, hahead, h⟩ := bind_eq_ok.mp h
      cases h
      apply hdemand.trans
      simp only [VmArea.resolvePageAccessAhead, bind_eq_ok, Checked.assert_eq_ok] at hahead
      obtain ⟨_, -, _, ⟨hlt, hstop⟩, hloop⟩ := hahead
      apply (aheadLoop_filled hint hdemand.sound hloop).mono
      intro p hp
      unfold VirtPageRange.contains at *
      omega

end Area

namespace UserSpace

variable {s s' : UserSpace}

/-- What a fault does to an address space and the memory. -/
structure Faulted (s : UserSpace) (mem : Memory) (s' : UserSpace) (mem' : Memory) : Prop where
  vmas : s'.vmas = s.vmas
  stack : s'.stack.svpn = s.stack.svpn
  heap : s'.heap = s.heap
  sound : mem'.Sound
  grows : mem.Extends mem'
  leaf : ∀ (vpn : ℕ) (pte : Pte), s'.table[vpn]? = some pte → pte.flags.write = true →
    s.table[vpn]? = some pte ∨ ∃ v, s.view vpn = some v ∧ v.prot.write = true ∧
      v.backing.Holds mem' v.pidx pte.ppn

theorem faulted_of_filled (hm : WellKeyed s.vmas) {k : ℕ} (ha : s.vmas[k]? = some a)
    {mem mem' : Memory} (hvmas : s'.vmas = s.vmas) (hstack : s'.stack.svpn = s.stack.svpn)
    (hheap : s'.heap = s.heap)
    (hfilled : Filled a (fun p => a.range.contains p) s.table mem s'.table mem') :
    Faulted s mem s' mem' where
  vmas := hvmas
  stack := hstack
  heap := hheap
  sound := hfilled.sound
  grows := hfilled.grows
  leaf vpn pte hleaf hw := by
    rcases hfilled.leaf vpn pte hleaf hw with hold | ⟨hin, hprot, hheld⟩
    · exact .inl hold
    · refine .inr ⟨a.view vpn, ?_, hprot, hheld⟩
      rw [view, viewOf_eq_look]
      exact hm.look_eq_some.mpr ⟨k, a, ha, hin, rfl⟩

theorem contains_of_accessible {x : Checked VmArea} {rest : Bool} (hx : x = .ok a)
    (h : (do pure (decide ((← x).range.contains vpn) && rest) : Checked Bool) = .ok true) :
    a.range.contains vpn := by
  rw [hx] at h
  have hboth := Except.ok.inj h
  rw [Bool.and_eq_true] at hboth
  exact of_decide_eq_true hboth.1

/-- **A page fault writes leaves of pages that may be written, and nothing else
that may be written.** -/
theorem resolvePageAccess_faulted (hm : WellKeyed s.vmas)
    (hint : ∀ (k : ℕ) (a : VmArea), s.vmas[k]? = some a → a.backing.Internal) {mem mem' : Memory}
    (hsound : mem.Sound) {addr : ℕ} {access : PageFaultType}
    (h : s.resolvePageAccess L mem walk addr access continuation = .ok (r, s', mem')) :
    Faulted s mem s' mem' := by
  have hnothing : Faulted s mem s mem := ⟨rfl, rfl, rfl, hsound, .refl mem, fun _ _ h _ => .inl h⟩
  unfold resolvePageAccess at h
  simp only at h
  split at h
  · cases h
    exact hnothing
  next area hfind =>
  split at h
  · -- the stack, which has no window
    obtain ⟨accessible, haccessible, h⟩ := bind_eq_ok.mp h
    split at h
    · next hyes =>
      obtain ⟨stack, hstack, h⟩ := bind_eq_ok.mp h
      have hget := Checked.expect_eq_ok.mp hstack
      have hin := contains_of_accessible hstack (hyes ▸ haccessible)
      obtain ⟨⟨r₁, table₁, mem₁⟩, hmap, h⟩ := bind_eq_ok.mp h
      have hfilled : Filled stack (fun p => stack.range.contains p) s.table mem table₁ mem₁ := by
        apply (mapPage_filled (hint _ stack hget) hsound hmap).mono
        rintro p rfl
        exact hin
      cases r₁ with
      | error | ok =>
        cases h
        exact faulted_of_filled hm hget rfl rfl rfl hfilled
    · cases h
      exact hnothing
  · -- the heap below the program break
    obtain ⟨accessible, haccessible, h⟩ := bind_eq_ok.mp h
    split at h
    · next hyes =>
      obtain ⟨heap, hheap, h⟩ := bind_eq_ok.mp h
      have hget := Checked.expect_eq_ok.mp hheap
      have hin := contains_of_accessible hheap (hyes ▸ haccessible)
      obtain ⟨⟨r₁, table₁, mem₁⟩, hwindow, h⟩ := bind_eq_ok.mp h
      cases h
      exact faulted_of_filled hm hget rfl rfl rfl
        (resolveWindow_filled (hint _ heap hget) hsound hin hwindow)
    · cases h
      exact hnothing
  · cases h
    exact hnothing
  · -- an area without a reservation
    rw [findVma_eq_covering, hm.covering_eq_some] at hfind
    obtain ⟨hget, hover⟩ := hfind
    obtain ⟨⟨r₁, table₁, mem₁⟩, hwindow, h⟩ := bind_eq_ok.mp h
    cases h
    exact faulted_of_filled hm hget rfl rfl rfl
      (resolveWindow_filled (hint _ area hget) hsound hover hwindow)

end UserSpace

end Anemone.Uspace
