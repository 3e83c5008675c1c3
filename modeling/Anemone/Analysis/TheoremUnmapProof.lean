import Anemone.Analysis.UnmapTables
import Anemone.Analysis.MapLoops

/-!
# Unmapping removes exactly the range

`try_unmap` in its three forms, on any well-formed page table.
-/

namespace Anemone.Paging

open Ranges (VirtPageRange)

namespace Tables

variable {A : PagingArch} {t : Tables}

theorem branch_mem_tablesAt {level root : ℕ} (hshaped : t.ShapedAt A ClearOrLeaf level root)
    {dir idx : ℕ} (hdir : dir ∈ t.tablesAt A level root) (hidx : idx < A.ptePerPgdir)
    (hbranch : (t.entries dir idx).isBranch = true) :
    (t.entries dir idx).ppn ∈ t.tablesAt A level root := by
  induction level generalizing root with
  | zero =>
    have hroot : dir = root := by simpa [tablesAt, tablesIn] using hdir
    rw [hroot, Pte.isBranch_of_clearOrLeaf (hshaped idx hidx)] at hbranch
    cases hbranch
  | succ level ih =>
    rcases List.mem_cons.mp hdir with rfl | hdir
    · refine mem_tablesAt_of_mem hidx ?_
      rw [tablesIn_succ, if_pos hbranch]
      exact self_mem_tablesAt _ _
    · obtain ⟨j, hj, hmem⟩ := List.mem_flatMap.mp hdir
      have hj := List.mem_range.mp hj
      refine mem_tablesAt_of_mem hj ?_
      rw [tablesIn_succ] at hmem ⊢
      split at hmem
      · rename_i hb
        rw [if_pos hb]
        exact ih ((hshaped j hj).below hb) hmem
      · cases hmem

end Tables

namespace Mapper

variable {A : PagingArch} {base : Pte → Prop} {root : ℕ} {t : Tables} {range : VirtPageRange}
  {retirement : PageTableRetirement} {retired : List ℕ} {st' : Tables × List ℕ}

theorem swept_tryUnmapWith (h : Intact A base root t)
    (hrun : tryUnmapWith A root t range retirement retired = .ok st') :
    Swept A (cut A range) retirement (A.pageLevels - 1) root 0 (List.range A.ptePerPgdir)
      (t, retired) st' :=
  swept_traverse (sweeps_unmapOps range retirement) h (fun _ _ _ _ => trivial) hrun

theorem leafOf_tryUnmapWith (h : Intact A base root t)
    (hrun : tryUnmapWith A root t range retirement retired = .ok st') (vpn : ℕ) :
    leafOf A root st'.1 vpn = cut A range vpn (leafOf A root t vpn) :=
  (swept_tryUnmapWith h hrun).leafOf vpn

/-- A well-formed page table is unmapped, and well formed again. -/
theorem WellFormed.tryUnmapWith (h : WellFormed A root t) (range : VirtPageRange)
    (mode : PageTableRetirement) (retired : List ℕ) :
    ∃ st, tryUnmapWith A root t range mode retired = .ok st ∧ WellFormed A root st.1 := by
  have hshaped : (t, retired).1.ShapedAt A ClearOrLeaf (A.pageLevels - 1) root := h.shaped
  obtain ⟨st, hrun, -⟩ := doTraverse_returns range mode 0 hshaped
  exact ⟨st, hrun, (swept_tryUnmapWith h hrun).intact (.inl rfl) (fun _ h => .inr h) h⟩

theorem cut_eq {vpn : ℕ} [Decidable (Removed A root t range vpn)] :
    cut A range vpn (leafOf A root t vpn) =
      if Removed A root t range vpn then none else leafOf A root t vpn := by
  cases hleaf : leafOf A root t vpn with
  | none =>
    rw [if_neg]
    · rfl
    · rintro ⟨leaf, hfound, -⟩
      rw [hleaf] at hfound
      cases hfound
  | some leaf =>
    have hiff : Removed A root t range vpn ↔
        range.covers (leafRange A leaf.level vpn) ∧ (!leaf.pte.isGlobal) = true := by
      rw [Removed, hleaf]
      simp
    simp only [cut, hiff]

open Classical in
/-- **Unmapping removes exactly the range.**  Every form of `try_unmap` returns.  All three
lead to the same translation: none for the pages whose leaf is not global and has all its
pages in the range, and the one before for every other page.  The tables given up are handed
out once, held nothing when they were, were not global, and nothing points to them.

SOURCE: mm/paging/mapper.rs:349-454, 602-708 -/
theorem tryUnmapWith_removes_exactly (A : PagingArch) (root : ℕ) (t : Tables)
    (range : VirtPageRange) (retired : List ℕ) (hwf : WellFormed A root t) :
    ∃ after : PageTableRetirement → Tables × List ℕ,
      (∀ mode, tryUnmapWith A root t range mode retired = .ok (after mode)) ∧
      (∀ mode, WellFormed A root (after mode).1) ∧
      (∀ mode vpn, translate A root (after mode).1 vpn =
        if Removed A root t range vpn then none else translate A root t vpn) ∧
      ∀ mode, ∃ out, HandsOut out (t, retired) (after mode) mode ∧ out.Nodup ∧
        (tablesOf A root t).Perm (tablesOf A root (after mode).1 ++ out) ∧
        Emptied A t (after mode).1 (tablesOf A root t) out ∧
        ∀ dir ∈ tablesOf A root (after mode).1, ∀ idx < A.ptePerPgdir,
          ((after mode).1.entries dir idx).isBranch = true →
            ((after mode).1.entries dir idx).ppn ∉ out := by
  choose after hrun hintact using fun mode => WellFormed.tryUnmapWith hwf range mode retired
  refine ⟨after, hrun, hintact, fun mode vpn => ?_, fun mode => ?_⟩
  · rw [translate_eq, translate_eq, leafOf_tryUnmapWith hwf (hrun mode), cut_eq]
    split
    · rfl
    · rfl
  · obtain ⟨out, hedits, hhands, hempty⟩ := (swept_tryUnmapWith hwf (hrun mode)).edits
    have hperm := hedits.perm
    rw [List.append_nil] at hperm
    have hnodup := hperm.nodup_iff.mp (List.nodup_append.mp hwf.nodup).1
    obtain ⟨-, hout, hdisjoint⟩ := List.nodup_append.mp hnodup
    refine ⟨out, hhands, hout, hperm, hempty, fun dir hdir idx hidx hbranch hmem => ?_⟩
    have hstays := Tables.branch_mem_tablesAt (hintact mode).shaped hdir hidx hbranch
    exact hdisjoint _ hstays _ hmem rfl

/-- One page of two is unmapped. -/
theorem tryUnmapWith_removes_exactly_sample :
    ∃ t, WellFormed sv39 1 t ∧ translate sv39 1 t 17 = some ⟨33, { PteFlags.empty with read := true }⟩ ∧
      ∃ after : PageTableRetirement → Tables × List ℕ,
        (∀ mode, tryUnmapWith sv39 1 t ⟨16, 1⟩ mode [] = .ok (after mode)) ∧
        ∀ mode, translate sv39 1 (after mode).1 16 = none := by
  have hblank : WellFormed sv39 1 (blank [2, 3, 4]) :=
    intact_blank (.inl rfl) (by decide) (by decide)
  have hrun : (do
      let r ← doMap sv39 1 (blank [2, 3, 4])
        ⟨16, 32, { PteFlags.empty with read := true }, 2, false⟩ false
      pure (r.1, r.2.1, leafOf sv39 1 r.2.2 16, translate sv39 1 r.2.2 17)) =
        .ok (.ok (), 2, some ⟨0, ⟨32, { PteFlags.empty with read := true, valid := true }⟩⟩,
          some ⟨33, { PteFlags.empty with read := true }⟩) := by decide +kernel
  obtain ⟨⟨result, k, t⟩, hmap, hread⟩ := Checked.bind_eq_ok.mp hrun
  simp only [Checked.pure_eq, Except.ok.injEq, Prod.mk.injEq] at hread
  obtain ⟨-, -, hleaf, htranslate⟩ := hread
  have hwf := (doMap_progress_false (admits_clearOrLeaf rfl) hblank hmap).2.1
  obtain ⟨after, hruns, -, hpages, -⟩ := tryUnmapWith_removes_exactly sv39 1 t ⟨16, 1⟩ [] hwf
  refine ⟨t, hwf, htranslate, after, hruns, fun mode => ?_⟩
  rw [hpages, if_pos ⟨_, hleaf, by decide, rfl⟩]

end Mapper

end Anemone.Paging
