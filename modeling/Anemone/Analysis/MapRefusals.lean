import Anemone.Analysis.MapLoops

/-!
# Where a request stops

A leaf that is written changes the walks of other pages in one way, it shortens them (`Walked`), so
that after `k` base pages every walk is known from the table before the call (`Walks`).
-/

namespace Anemone.Paging.Mapper

open Checked (bind_eq_ok)
open Finset
open Uspace (SysError LeafPteCommit)

variable {A : PagingArch} {base : Pte → Prop} {root k k' : ℕ} {m : Mapping} {e : SysError}
  {t t' t₀ : Tables} {commit : LeafPteCommit}

theorem level_of_small {level vpn remaining : ℕ} (h : maxHpageLevel A m = 0)
    (hpick : pickLevel A (maxHpageLevel A m) vpn remaining = some level) : level = 0 :=
  Nat.le_zero.mp (h ▸ (pickLevel_eq_some hpick).1)

theorem firstLevel_of_small (h : maxHpageLevel A m = 0) : firstLevel A m = 0 := by
  unfold firstLevel
  cases hpick : pickLevel A (maxHpageLevel A m) m.vpn m.npages with
  | none => rfl
  | some level => exact level_of_small h hpick

theorem not_refused_of_outcome {levelAt : ℕ} {reach : ℕ × Pte}
    (h : Outcome levelAt reach t t' (.ok commit)) :
    ¬ (reach.2.isValid = true ∨ t.free.length < reach.1 - levelAt) := by
  obtain ⟨hvoid, hcount⟩ := h
  rw [hvoid]
  rintro (hvalid | hshort)
  · cases hvalid
  · omega

/-- nothing comes before the first leaf. -/
theorem refused_zero_iff (hsupported : m.flags.isSupportedRwxCombination = true) :
    Refused A root t m 0 ↔ (reachOf A root t m 0).2.isValid = true ∨
      t.free.length < (reachOf A root t m 0).1 - firstLevel A m := by
  simp [Refused, newTables, hsupported]

/-- The walks after the first `k` pages of a request for base pages, in terms of the table
before it. -/
structure Walks (A : PagingArch) (root : ℕ) (m : Mapping) (t₀ t : Tables) (k : ℕ) : Prop where
  level : ∀ v l, l < (t.reachAt A 0 (A.pageLevels - 1) root v).1 ↔
    l < (t₀.reachAt A 0 (A.pageLevels - 1) root v).1 ∧
      ∀ j < k, ¬ SameEntry A (l + 1) v (m.vpn + j)
  valid : ∀ v, (t.reachAt A 0 (A.pageLevels - 1) root v).2.isValid = true ↔
    (t₀.reachAt A 0 (A.pageLevels - 1) root v).2.isValid = true ∨
      ∃ j < k, SameEntry A 0 v (m.vpn + j)
  free : t.free.length + ∑ j ∈ range k, newTables A root t₀ m j = t₀.free.length

theorem walks_zero : Walks A root m t t 0 where
  level := by simp
  valid := by simp
  free := by simp

section

variable (hsmall : maxHpageLevel A m = 0) (h : Walks A root m t₀ t k)

include hsmall h

/-- the tables that the next page needs are those that its walk does not find. -/
theorem Walks.newTables_eq :
    newTables A root t₀ m k = (t.reachAt A 0 (A.pageLevels - 1) root (m.vpn + k)).1 := by
  rw [newTables, reachOf, firstLevel_of_small hsmall]
  have hset : (Ico 0 (t₀.reachAt A 0 (A.pageLevels - 1) root (m.vpn + k)).1).filter
      (fun l => ∀ j < k, ¬ SameEntry A (l + 1) (m.vpn + k) (m.vpn + j)) =
        range (t.reachAt A 0 (A.pageLevels - 1) root (m.vpn + k)).1 := by
    ext l
    rw [mem_filter, mem_Ico, mem_range, h.level]
    exact and_congr_left fun _ => and_iff_right (Nat.zero_le l)
  rw [hset, card_range]

theorem Walks.refused_iff (hsupported : m.flags.isSupportedRwxCombination = true) :
    Refused A root t₀ m k ↔
      (t.reachAt A 0 (A.pageLevels - 1) root (m.vpn + k)).2.isValid = true ∨
        t.free.length < (t.reachAt A 0 (A.pageLevels - 1) root (m.vpn + k)).1 := by
  have hfree := h.free
  rw [Refused, hsupported, reachOf, firstLevel_of_small hsmall, h.valid, sum_range_succ,
    h.newTables_eq hsmall, or_assoc]
  simp only [Bool.true_eq_false, false_or]
  refine or_congr_right (or_congr_right ?_)
  omega

/-- **one page more.** -/
theorem Walks.step (hwalked : ∀ v, Walked A 0 A.pageLevels (m.vpn + k) v
      (t.reachAt A 0 (A.pageLevels - 1) root v) (t'.reachAt A 0 (A.pageLevels - 1) root v))
    (hfree : t'.free.length + (t.reachAt A 0 (A.pageLevels - 1) root (m.vpn + k)).1 =
      t.free.length) : Walks A root m t₀ t' (k + 1) := by
  refine ⟨fun v l => ?_, fun v => ?_, ?_⟩
  · rw [(hwalked v).level l (Nat.zero_le l), h.level, and_assoc]
    refine and_congr_right fun _ => ?_
    rw [Nat.forall_lt_succ_right]
    exact Iff.rfl
  · rw [(hwalked v).valid, h.valid, or_assoc]
    refine or_congr_right ?_
    rw [Nat.exists_lt_succ_right]
    exact Iff.rfl
  · rw [sum_range_succ, h.newTables_eq hsmall]
    have := h.free
    omega

end

/-- **the loop stops at the first page that is refused.** -/
theorem Rounds.refused (hadmits : Admits base m.flags) (hsmall : maxHpageLevel A m = 0)
    {result : Except SysError Unit} (h : Rounds A root m false k t result k' t')
    (hintact : Intact A base root t) (hwalks : Walks A root m t₀ t k) (herror : result = .error e) :
    Refused A root t₀ m k' ∧ ∀ j, k ≤ j → j < k' → ¬ Refused A root t₀ m j := by
  induction h with
  | done => cases herror
  | stop hpick hone =>
    refine ⟨?_, fun j hj hj' => absurd hj hj'.not_ge⟩
    obtain rfl := level_of_small hsmall hpick
    rcases mapOneCommit_descent hintact hone with ⟨hnot, -⟩ | ⟨hsupported, hwalk⟩
    · exact .inl hnot
    · exact (hwalks.refused_iff hsmall hsupported).mpr hwalk.outcome
  | @next k level _ t t₁ _ commit _ hpick hone _ ih =>
    obtain ⟨hlevel, haligned, -⟩ := pickLevel_eq_some hpick
    obtain rfl := level_of_small hsmall hpick
    obtain ⟨-, ⟨⟩, -⟩ | ⟨hsupported, hwalk⟩ := mapOneCommit_descent hintact hone
    have hplaced := hwalk.placed hadmits (.inr rfl)
      (shapedIn_newPte hadmits hlevel (ppn_aligned hlevel haligned) (.inr rfl)) hintact
    have hstep := hwalks.step hsmall (hplaced.walks commit rfl rfl) hwalk.outcome.2
    rw [A.levelPages_zero] at ih
    obtain ⟨hstop, hbefore⟩ := ih hplaced.intact hstep herror
    refine ⟨hstop, fun j hj hj' => ?_⟩
    rcases Nat.eq_or_lt_of_le hj with rfl | hlt
    · rw [hwalks.refused_iff hsmall hsupported]
      exact not_refused_of_outcome hwalk.outcome
    · exact hbefore j hlt hj'

theorem Rounds.le {result : Except SysError Unit} {overwrite : Bool}
    (h : Rounds A root m overwrite k t result k' t') : k ≤ k' := by
  induction h with
  | done | stop => exact le_rfl
  | next _ _ _ ih => exact (Nat.le_add_right _ _).trans ih

/-- no page is mapped exactly if the first leaf is refused, whatever its level. -/
theorem doMap_none_iff (hintact : Intact A base root t)
    (h : doMap A root t m false = .ok (.error e, k, t')) : k = 0 ↔ Refused A root t m 0 := by
  obtain ⟨_, -, hloop⟩ := bind_eq_ok.mp h
  have hfirst : ∀ level, pickLevel A (maxHpageLevel A m) (m.vpn + 0) (m.npages - 0) = some level →
      firstLevel A m = level := by
    intro level hpick
    rw [firstLevel, ← Option.getD_some (a := level), ← hpick]
    rfl
  cases mapLoop_rounds hloop with
  | stop hpick hone =>
    refine iff_of_true rfl ?_
    rcases mapOneCommit_descent hintact hone with ⟨hnot, -⟩ | ⟨hsupported, hwalk⟩
    · exact .inl hnot
    · rw [refused_zero_iff hsupported, reachOf, hfirst _ hpick]
      exact hwalk.outcome
  | @next _ level _ _ _ _ _ _ hpick hone hrest =>
    obtain ⟨-, ⟨⟩, -⟩ | ⟨hsupported, hwalk⟩ := mapOneCommit_descent hintact hone
    have hle := hrest.le
    have hpos := A.levelPages_pos level
    refine iff_of_false (by omega) ?_
    rw [refused_zero_iff hsupported, reachOf, hfirst _ hpick]
    exact not_refused_of_outcome hwalk.outcome

end Anemone.Paging.Mapper
