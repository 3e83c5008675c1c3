import Anemone.Interface.PageView
import Anemone.Model.PageMemory

/-!
# What is searched for and what is handed over

A search answers with pages that can be mapped.  A discard and a sync hand every object the
pages that a range views of it, area by area.
-/

namespace Anemone.Uspace.UserSpace

open Ranges (VirtPageRange)

/-- The answer of a search for pages: the hint if it is available, and otherwise the highest
start at which as many pages are. -/
def Finds (L : Layout) (s : UserSpace) (npages : ℕ) (hint : Option ℕ) : Option ℕ → Prop
  | some v => (hint = some v ∧ s.Available L ⟨v, npages⟩) ∨
      (∀ u, hint = some u → ¬ s.Available L ⟨u, npages⟩) ∧
        IsGreatest { u | s.Available L ⟨u, npages⟩ } v
  | none => ∀ u, ¬ s.Available L ⟨u, npages⟩

/-- Areas that tile a range, and for each of them the pages of its object that the pages of
the range in it are views of. -/
structure Tiles (s : UserSpace) (range : VirtPageRange) (areas : List VmArea)
    (pieces : List ObjectRange) : Prop where
  registered : ∀ a ∈ areas, s.vmas[a.range.start]? = some a ∧ a.range.intersects range
  apart : areas.Pairwise fun a b => a.range.stop ≤ b.range.start
  covered : ∀ vpn, range.contains vpn → ∃ a ∈ areas, a.range.contains vpn
  pieces : List.Forall₂ (fun a p => p.backing = a.backing ∧ ∀ pidx, p.first ≤ pidx ∧ pidx < p.last ↔
      ∃ vpn, range.contains vpn ∧ a.range.contains vpn ∧ a.vmoPidx vpn = pidx) areas pieces

/-- Refused unless every page of a valid range is mapped, and otherwise handed over. -/
def HandsOver (L : Layout) (s : UserSpace) (range : VirtPageRange) :
    Except SysError (List ObjectRange) → Prop
  | .error _ => ¬ (validateRange L range = .ok () ∧ PageMap.Covers s.view range)
  | .ok pieces => (validateRange L range = .ok () ∧ PageMap.Covers s.view range) ∧
      ∃ areas, s.Tiles range areas pieces

/-- One area holds the range and the page after it. -/
def OneAreaBeyond (s : UserSpace) (range : VirtPageRange) : Prop :=
  ∃ (k : ℕ) (a : VmArea), s.vmas[k]? = some a ∧ a.range.contains range.start ∧
    a.range.contains range.stop

end Anemone.Uspace.UserSpace
