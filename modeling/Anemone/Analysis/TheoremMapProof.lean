import Anemone.Analysis.MapRefusals
import Anemone.Analysis.TheoremUnmapProof

/-!
# Mapping a range

Both results read the page table after `map` off the progress of its loop.  A failed call unmaps
what it mapped; that restores the table exactly if the unmapping may clear the leaves and looks
for canonical pages (`cut_rollback`).
-/

namespace Anemone.Paging

open Checked (ok_bind pure_eq assert_of assert_eq_ok wordSize bind_eq_ok)
open Ranges.VirtPageRange

open Uspace (SysError)

namespace Mapper

variable {A : PagingArch} {root : ℕ} {m : Mapping} {overwrite : Bool}
  {t t' t₀ : Tables} {k : ℕ}

theorem Progress.installed (h : Progress A root m overwrite t₀ t m.npages)
    (hleaf : m.flags.isLeaf = true) (hvalid : m.flags.valid = false)
    (hencode : A.encode m.flags.asValid = m.flags.asValid)
    (hppn : m.ppn + m.npages ≤ 2 ^ A.ppnBits) (hspace : m.npages ≤ 2 ^ A.vpnBits) :
    Installed A root t m := by
  have hall : ∀ i < m.npages, ∃ leaf j, leafOf A root t (m.vpn + i) = some leaf ∧
      LeafFor A m leaf j ∧ j ≤ i ∧ i < j + A.levelPages leaf.level ∧
      (m.vpn + i) % A.levelPages leaf.level = i - j := by
    intro i hi
    obtain ⟨leaf, j, o, hfound, hpte, hmax, hj, haligned, ho, hmod⟩ :=
      h.leaves hleaf (m.vpn + i) (named_self hi)
    have hio : i = j + o := by
      rw [Nat.add_assoc] at hmod
      exact eq_of_modEq hmod (by omega) (by omega)
    have hlevel := (leafOf_level_lt hfound).le
    refine ⟨leaf, j, hfound, ⟨hj, haligned, ppn_aligned hmax haligned, ?_⟩, by omega, by omega, ?_⟩
    · rw [hpte, PagingArch.newPte, hencode, Nat.mod_eq_of_lt (by omega)]
    · have hoffset : (m.vpn + i) % A.levelPages leaf.level = o :=
        Radix.mod_block hlevel haligned ho hmod
      omega
  refine ⟨fun i hi => ?_, fun i hi => ?_⟩
  · obtain ⟨leaf, j, hfound, hfor, hji, -, hoffset⟩ := hall i hi
    have hflags : m.flags.asValid.sansValid = m.flags := by
      cases hm : m.flags
      rw [hm] at hvalid
      simp only at hvalid
      simp [PteFlags.asValid, PteFlags.sansValid, hvalid]
    rw [translate_eq, hfound, Option.map_some, hoffset, hfor.pte, hflags]
    congr 2
    simp only
    omega
  · obtain ⟨leaf, j, hfound, hfor, hji, hij, -⟩ := hall i hi
    exact ⟨leaf, j, hfound, hfor, hji, hij⟩

theorem Progress.le_space (h : Progress A root m overwrite t₀ t k)
    (hleaf : m.flags.isLeaf = true) : k ≤ 2 ^ A.vpnBits := by
  by_contra hlt
  have hmod : m.vpn + 0 ≡ m.vpn + 2 ^ A.vpnBits [MOD 2 ^ A.vpnBits] := by
    simp [Nat.ModEq]
  have hpos := Nat.two_pow_pos A.vpnBits
  have := h.distinct hleaf 0 (by omega) (2 ^ A.vpnBits) (by omega) hmod
  omega

theorem Progress.not_shares (h : Progress A root m false t₀ t k) (v : ℕ) :
    ¬ Shares A root t₀ m k v := by
  rintro ⟨leaf, hfound, i, hi, hsame⟩
  have hnone := h.vacant rfl (m.vpn + i) (named_self hi)
  rw [leafOf_of_sameEntry hfound hsame] at hnone
  cases hnone

theorem Progress.kept (h : Progress A root m false t₀ t k) {v : ℕ} (hv : ¬ Named A m k v) :
    leafOf A root t v = leafOf A root t₀ v := by
  rw [h.others v hv, if_neg (h.not_shares v)]

theorem doMap_returns (hhuge : m.hugePages = true → m.flags.global = true)
    (hvpn : m.vpn + m.npages ≤ wordSize) (hppn : m.ppn + m.npages ≤ wordSize)
    (root : ℕ) (overwrite : Bool) (t : Tables) : ∃ r, doMap A root t m overwrite = .ok r := by
  unfold doMap
  rw [assert_of _ hhuge, ok_bind]
  exact mapLoop_returns hvpn hppn (by omega) t

theorem map_cases {result : Except SysError Unit} (h : map A root t m = .ok (result, t')) :
    (result = .ok () ∧ ∃ k, doMap A root t m false = .ok (.ok (), k, t')) ∨
    ∃ e k t₁ retired, result = .error e ∧ doMap A root t m false = .ok (.error e, k, t₁) ∧
      tryUnmapWith A root t₁ ⟨m.vpn, k⟩ .immediate [] = .ok (t', retired) := by
  obtain ⟨⟨result', k, t₁⟩, hdo, h⟩ := bind_eq_ok.mp h
  cases result' with
  | ok u =>
    cases h
    exact .inl ⟨rfl, k, hdo⟩
  | error e =>
    obtain ⟨t₂, hunmap, h⟩ := bind_eq_ok.mp h
    obtain ⟨⟨t₃, retired⟩, hunmap, h'⟩ := bind_eq_ok.mp hunmap
    cases h'
    cases h
    exact .inr ⟨e, k, t₁, retired, rfl, hdo, hunmap⟩

theorem map_returns (hwf : WellFormed A root t) (hleaf : m.flags.isLeaf = true)
    (hhuge : m.hugePages = true → m.flags.global = true)
    (hvpn : m.vpn + m.npages ≤ wordSize) (hppn : m.ppn + m.npages ≤ wordSize) :
    ∃ r, map A root t m = .ok r := by
  obtain ⟨⟨result, k, t₁⟩, hdo⟩ := doMap_returns hhuge hvpn hppn root false t
  have hintact := (doMap_progress_false (admits_clearOrLeaf hleaf) hwf hdo).2.1
  unfold map
  rw [hdo, ok_bind]
  cases result with
  | ok u => exact ⟨_, rfl⟩
  | error e =>
    obtain ⟨st, hunmap, -⟩ := WellFormed.tryUnmapWith hintact ⟨m.vpn, k⟩ .immediate []
    refine ⟨(.error e, st.1), ?_⟩
    simp only [tryUnmap, hunmap, ok_bind, pure_eq]

open Classical in
/-- **A request that is taken is in the page table, with nothing else changed.**  For flags
that permit reading and that an entry can hold, and page numbers that an entry can hold,
`map` and `map_overwrite` return.  If they return without an error, every page of the request
translates as asked, by leaves whose pages and frames are aligned to their level.  After `map`
all other pages translate as before; after `map_overwrite` also, except those with a leaf that
covered a page of the request.

SOURCE: mm/paging/mapper.rs:184-347 -/
theorem map_installs (A : PagingArch) (root : ℕ) (t : Tables) (m : Mapping)
    (hwf : WellFormed A root t) (hread : m.flags.read = true) (hvalid : m.flags.valid = false)
    (hencode : A.encode m.flags.asValid = m.flags.asValid)
    (hhuge : m.hugePages = true → m.flags.global = true)
    (hvpn : m.vpn + m.npages ≤ 2 ^ 64) (hppn : m.ppn + m.npages ≤ 2 ^ A.ppnBits) :
    (∃ r, map A root t m = .ok r) ∧ (∃ r, mapOverwrite A root t m = .ok r) ∧
      (∀ t', map A root t m = .ok (.ok (), t') → WellFormed A root t' ∧ Installed A root t' m ∧
        ∀ v, ¬ Named A m m.npages v → translate A root t' v = translate A root t v) ∧
      (m.npages ≤ 2 ^ A.vpnBits → ∀ t', mapOverwrite A root t m = .ok (.ok (), t') →
        WellFormed A root t' ∧ Installed A root t' m ∧
        ∀ v, ¬ Named A m m.npages v → translate A root t' v =
          if Shares A root t m m.npages v then none else translate A root t v) := by
  have hleaf : m.flags.isLeaf = true := by
    rw [PteFlags.isLeaf, hread]
    rfl
  have hword : m.ppn + m.npages ≤ wordSize := hppn.trans (Nat.pow_le_pow_right two_pos A.ppn_fits)
  have hadmits := admits_clearOrLeaf hleaf
  refine ⟨map_returns hwf hleaf hhuge hvpn hword, ?_, fun t' hrun => ?_, fun hspace t' hrun => ?_⟩
  · obtain ⟨⟨result, k, t₁⟩, hdo⟩ := doMap_returns (A := A) hhuge hvpn hword root true t
    exact ⟨(result, t₁), by rw [mapOverwrite, hdo, ok_bind]; rfl⟩
  · rcases map_cases hrun with ⟨-, k, hdo⟩ | ⟨e, k, t₁, retired, herror, -⟩
    · obtain ⟨-, hintact, -, hok, hprogress⟩ := doMap_progress_false hadmits hwf hdo
      obtain rfl := hok rfl
      refine ⟨hintact, ?_, fun v hv => translate_congr (hprogress.kept hv)⟩
      exact hprogress.installed hleaf hvalid hencode hppn (hprogress.le_space hleaf)
    · cases herror
  · obtain ⟨⟨result, k, t₁⟩, hdo, hpure⟩ := bind_eq_ok.mp hrun
    cases hpure
    obtain ⟨-, hintact, -, hok, -⟩ := doMap_progress hadmits (fun _ => ⟨hleaf, hspace⟩) hwf hdo
    obtain ⟨rfl, hprogress⟩ := hok rfl
    refine ⟨hintact, hprogress.installed hleaf hvalid hencode hppn hspace, fun v hv => ?_⟩
    rw [translate_eq, translate_eq, hprogress.others v hv]
    split
    · rfl
    · rfl

/-- A large page and one of base size. -/
theorem map_installs_sample : WellFormed sv39 1 (blank [2, 3, 4]) ∧ ∃ t',
      map sv39 1 (blank [2, 3, 4])
        ⟨512, 1024, { PteFlags.empty with read := true, global := true }, 513, true⟩ =
          .ok (.ok (), t') ∧
      Installed sv39 1 t'
        ⟨512, 1024, { PteFlags.empty with read := true, global := true }, 513, true⟩ := by
  have hwf : WellFormed sv39 1 (blank [2, 3, 4]) := intact_blank (.inl rfl) (by decide) (by decide)
  have hrun : (do
      let (result, _) ← map sv39 1 (blank [2, 3, 4])
        ⟨512, 1024, { PteFlags.empty with read := true, global := true }, 513, true⟩
      pure result) = .ok (.ok ()) := by decide +kernel
  obtain ⟨⟨result, t'⟩, hmap, hok⟩ := bind_eq_ok.mp hrun
  cases hok
  refine ⟨hwf, t', hmap, ?_⟩
  exact ((map_installs sv39 1 (blank [2, 3, 4])
    ⟨512, 1024, { PteFlags.empty with read := true, global := true }, 513, true⟩ hwf rfl rfl rfl
    (fun _ => rfl) (by decide) (by decide)).2.2.1 t' hmap).2.1

/-- The request of `ioremap` on RISC-V: the page does not come back with the memory type. -/
theorem map_ioremap_drops_memory_type :
    WellFormed sv39 1 (blank [2, 3, 4]) ∧ ∃ t',
      map sv39 1 (blank [2, 3, 4]) ⟨16, 32, { PteFlags.empty with
        read := true, write := true, noncache := true, strong := true }, 1, false⟩ =
          .ok (.ok (), t') ∧
      translate sv39 1 t' 16 =
        some ⟨32, { PteFlags.empty with read := true, write := true }⟩ := by
  have hrun : (do
      let (result, t') ← map sv39 1 (blank [2, 3, 4]) ⟨16, 32, { PteFlags.empty with
        read := true, write := true, noncache := true, strong := true }, 1, false⟩
      pure (result, translate sv39 1 t' 16)) = .ok (.ok (),
        some ⟨32, { PteFlags.empty with read := true, write := true }⟩) := by decide +kernel
  obtain ⟨⟨result, t'⟩, hmap, hok⟩ := bind_eq_ok.mp hrun
  simp only [pure_eq, Except.ok.injEq, Prod.mk.injEq] at hok
  obtain ⟨rfl, hpage⟩ := hok
  exact ⟨intact_blank (.inl rfl) (by decide) (by decide), t', hmap, hpage⟩

theorem cut_rollback {v : ℕ} {leaf? : Option Leaf}
    (hlevel : ∀ leaf, leaf? = some leaf → leaf.level < A.pageLevels) (hv : ¬ Named A m k v) :
    cut A ⟨m.vpn, k⟩ v leaf? = leaf? := by
  cases leaf? with
  | none => rfl
  | some leaf =>
    refine if_neg ?_
    rintro ⟨hcovers, -⟩
    obtain ⟨hlo, hhi⟩ := contains_of_covers (hlevel leaf rfl) hcovers
    simp only [stop] at hlo hhi
    refine hv ⟨A.canonicalizeVpn v - m.vpn, by omega, ?_⟩
    rw [show m.vpn + (A.canonicalizeVpn v - m.vpn) = A.canonicalizeVpn v by omega]
    exact (A.canonicalizeVpn_modEq v).symm

theorem newPte_isGlobal (ppn : ℕ) (flags : PteFlags) :
    (A.newPte ppn flags.asValid).isGlobal = flags.global := by
  rw [Pte.isGlobal, PagingArch.newPte, A.encode_global]
  rfl

/-- **the way back, page by page.** -/
theorem Progress.cut_named (h : Progress A root m false t₀ t k) (hleaf : m.flags.isLeaf = true)
    (hhuge : m.hugePages = true → m.flags.global = true) {i : ℕ} (hi : i < k) :
    cut A ⟨m.vpn, k⟩ (m.vpn + i) (leafOf A root t (m.vpn + i)) = none ↔
      m.flags.global = false ∧ A.canonicalizeVpn (m.vpn + i) = m.vpn + i := by
  obtain ⟨leaf, j, o, hfound, hpte, hmax, -⟩ := h.leaves hleaf (m.vpn + i) (named_self hi)
  have hglobal : leaf.pte.isGlobal = m.flags.global := by rw [hpte, newPte_isGlobal]
  rw [hfound]
  simp only [cut, hglobal]
  constructor
  · intro hcut
    split at hcut
    · rename_i hcond
      refine ⟨by simpa using hcond.2, ?_⟩
      obtain ⟨hlo, hhi⟩ := contains_of_covers (leafOf_level_lt hfound) hcond.1
      simp only [stop] at hlo hhi
      have hmod : m.vpn + (A.canonicalizeVpn (m.vpn + i) - m.vpn) ≡ m.vpn + i
          [MOD 2 ^ A.vpnBits] := by
        rw [show m.vpn + (A.canonicalizeVpn (m.vpn + i) - m.vpn) =
          A.canonicalizeVpn (m.vpn + i) by omega]
        exact A.canonicalizeVpn_modEq _
      have := h.distinct hleaf _ (by omega) i hi hmod
      omega
    · cases hcut
  · rintro ⟨hlocal, hcanonical⟩
    rw [maxHpageLevel_of_local hhuge hlocal] at hmax
    have hzero : leaf.level = 0 := Nat.le_zero.mp hmax
    have hstart : (leafRange A 0 (m.vpn + i)).start = m.vpn + i := by
      rw [leafRange_zero_start, hcanonical]
    rw [if_pos]
    refine ⟨?_, by simp [hlocal]⟩
    simp only [covers, stop, hzero, leafRange_npages, PagingArch.levelPages_zero, hstart]
    omega

/-- **what the way back restores**, in terms of the pages that were mapped. -/
theorem rollback_restores_iff {t₁ : Tables} {e : SysError} {retired : List ℕ}
    (hwf : Consistent A root t) (hdo : doMap A root t m false = .ok (.error e, k, t₁))
    (hunmap : tryUnmapWith A root t₁ ⟨m.vpn, k⟩ .immediate [] = .ok (t', retired)) :
    (∀ v, translate A root t' v = translate A root t v) ↔
      k = 0 ∨ m.flags = .empty ∨
        (m.flags.global = false ∧ ∀ i < k, A.canonicalizeVpn (m.vpn + i) = m.vpn + i) := by
  obtain ⟨hhuge, hintact, -, -, hprogress⟩ :=
    doMap_progress_false (admits_clearOrValid m.flags) hwf hdo
  have hafter : ∀ v, leafOf A root t' v = cut A ⟨m.vpn, k⟩ v (leafOf A root t₁ v) :=
    fun v => leafOf_tryUnmapWith hintact hunmap v
  have hothers : ∀ v, ¬ Named A m k v → leafOf A root t' v = leafOf A root t v := by
    intro v hv
    rw [hafter, cut_rollback (fun leaf => leafOf_level_lt) hv]
    exact hprogress.kept hv
  constructor
  · intro hsame
    by_cases hk : k = 0
    · exact .inl hk
    refine .inr ?_
    have hsupported := hprogress.supported (Nat.pos_of_ne_zero hk)
    rw [PteFlags.isSupportedRwxCombination, Bool.or_eq_true, beq_iff_eq] at hsupported
    refine hsupported.imp_right fun hread => ?_
    have hleaf : m.flags.isLeaf = true := by
      rw [PteFlags.isLeaf, hread]
      rfl
    have hgone : ∀ i < k, cut A ⟨m.vpn, k⟩ (m.vpn + i) (leafOf A root t₁ (m.vpn + i)) = none := by
      intro i hi
      have hnone := hprogress.vacant rfl (m.vpn + i) (named_self hi)
      have := hsame (m.vpn + i)
      rw [translate_eq, translate_eq, hnone, Option.map_none, Option.map_eq_none_iff,
        hafter] at this
      exact this
    have hback : ∀ i < k, m.flags.global = false ∧
        A.canonicalizeVpn (m.vpn + i) = m.vpn + i :=
      fun i hi => (hprogress.cut_named hleaf hhuge hi).mp (hgone i hi)
    exact ⟨(hback 0 (Nat.pos_of_ne_zero hk)).1, fun i hi => (hback i hi).2⟩
  · intro hcond v
    refine translate_congr ?_
    by_cases hv : Named A m k v
    · obtain ⟨i, hi, hmod⟩ := hv
      have hnone := hprogress.vacant rfl (m.vpn + i) (named_self hi)
      rw [leafOf_congr t hmod, leafOf_congr t' hmod, hnone, hafter]
      rcases hcond with rfl | hempty | ⟨hlocal, hcanonical⟩
      · exact absurd hi (Nat.not_lt_zero i)
      · rw [hprogress.stubs (by rw [hempty]; rfl) (m.vpn + i) (named_self hi)]
        rfl
      · cases hleaf : m.flags.isLeaf with
        | true => exact (hprogress.cut_named hleaf hhuge hi).mpr ⟨hlocal, hcanonical i hi⟩
        | false =>
          rw [hprogress.stubs hleaf (m.vpn + i) (named_self hi)]
          rfl
    · exact hothers v hv

/-- **When a failed `map` leaves the translation as it was.**  A request that is refused has
no effect on the translation exactly if its first leaf is refused, or it has no permissions, or
it is not global and every page that comes before the first refused one is canonical.  Which
pages are refused is said of the request and the page table before the call.

SOURCE: mm/paging/mapper.rs:190-277, 394-454 -/
theorem map_error_keeps_translation_iff (A : PagingArch) (root : ℕ) (t t' : Tables) (m : Mapping)
    (e : SysError) (hwf : Consistent A root t) (hrun : map A root t m = .ok (.error e, t')) :
    (∀ v, translate A root t' v = translate A root t v) ↔
      Refused A root t m 0 ∨ m.flags = .empty ∨
        (m.flags.global = false ∧ ∀ i < m.npages,
          A.canonicalizeVpn (m.vpn + i) = m.vpn + i ∨ ∃ j ≤ i, Refused A root t m j) := by
  rcases map_cases hrun with ⟨hok, -⟩ | ⟨e, k, t₁, retired, -, hdo, hunmap⟩
  · cases hok
  rw [rollback_restores_iff hwf hdo hunmap, doMap_none_iff hwf hdo]
  refine or_congr_right (or_congr_right (and_congr_right fun hlocal => ?_))
  obtain ⟨_, hhuge, hloop⟩ := bind_eq_ok.mp hdo
  have hsmall : maxHpageLevel A m = 0 := maxHpageLevel_of_local (assert_eq_ok.mp hhuge) hlocal
  have hle := (doMap_progress_false (admits_clearOrValid m.flags) hwf hdo).2.2.1
  obtain ⟨hstop, hbefore⟩ := (mapLoop_rounds hloop).refused (admits_clearOrValid m.flags) hsmall
    hwf walks_zero rfl
  constructor
  · intro hcanonical i _
    by_cases hi : i < k
    · exact .inl (hcanonical i hi)
    · exact .inr ⟨k, Nat.le_of_not_lt hi, hstop⟩
  · intro hcond i hi
    refine (hcond i (hi.trans_le hle)).resolve_right ?_
    rintro ⟨j, hj, hrefused⟩
    exact hbefore j (Nat.zero_le j) (hj.trans_lt hi) hrefused

/-- The last page of the lower half and the one after it, which is not canonical: the second is
there already, and so only the first is mapped, and taken back. -/
theorem map_error_keeps_translation_sample :
    ∃ t t', Consistent sv39 1 t ∧
      map sv39 1 t ⟨2 ^ 26 - 1, 32, { PteFlags.empty with read := true }, 2, false⟩ =
        .ok (.error .alreadyMapped, t') ∧
      ∀ v, translate sv39 1 t' v = translate sv39 1 t v := by
  have hblank : Consistent sv39 1 (blank [2, 3, 4, 5, 6]) :=
    intact_blank (.inl rfl) (by decide) (by decide)
  have hrun : (do
      let first ← doMap sv39 1 (blank [2, 3, 4, 5, 6])
        ⟨2 ^ 26, 48, { PteFlags.empty with read := true }, 1, false⟩ false
      let r ← map sv39 1 first.2.2
        ⟨2 ^ 26 - 1, 32, { PteFlags.empty with read := true }, 2, false⟩
      pure (r.1, (reachOf sv39 1 first.2.2
        ⟨2 ^ 26 - 1, 32, { PteFlags.empty with read := true }, 2, false⟩ 1).2.isValid)) =
          .ok (.error .alreadyMapped, true) := by decide +kernel
  obtain ⟨⟨result, k, t⟩, hfirst, hrest⟩ := bind_eq_ok.mp hrun
  obtain ⟨⟨result', t'⟩, hmap, hok⟩ := bind_eq_ok.mp hrest
  simp only [pure_eq, Except.ok.injEq, Prod.mk.injEq] at hok
  obtain ⟨rfl, hvalid⟩ := hok
  have hwf := (doMap_progress_false (admits_clearOrValid _) hblank hfirst).2.1
  refine ⟨t, t', hwf, hmap, ?_⟩
  refine (map_error_keeps_translation_iff sv39 1 t t' _ _ hwf hmap).mpr (.inr (.inr ⟨rfl, ?_⟩))
  intro i hi
  cases i with
  | zero => exact .inl (by decide)
  | succ i => exact .inr ⟨1, Nat.succ_le_succ (Nat.zero_le i), .inr (.inl hvalid)⟩

/-- Two global pages, the second of which is there already: the first one stays. -/
theorem map_error_leaves_global_page : ∃ t t', Consistent sv39 1 t ∧
      map sv39 1 t ⟨16, 32, { PteFlags.empty with read := true, global := true }, 2, false⟩ =
        .ok (.error .alreadyMapped, t') ∧
      translate sv39 1 t 16 = none ∧
      translate sv39 1 t' 16 = some ⟨32, { PteFlags.empty with read := true, global := true }⟩ := by
  have hblank : Consistent sv39 1 (blank [2, 3, 4]) :=
    intact_blank (.inl rfl) (by decide) (by decide)
  have hrun : (do
      let first ← doMap sv39 1 (blank [2, 3, 4])
        ⟨17, 48, { PteFlags.empty with read := true, global := true }, 1, false⟩ false
      let r ← map sv39 1 first.2.2
        ⟨16, 32, { PteFlags.empty with read := true, global := true }, 2, false⟩
      pure (r.1, translate sv39 1 first.2.2 16, translate sv39 1 r.2 16)) =
        .ok (.error .alreadyMapped, none,
          some ⟨32, { PteFlags.empty with read := true, global := true }⟩) := by decide +kernel
  obtain ⟨⟨result, k, t⟩, hfirst, hrest⟩ := bind_eq_ok.mp hrun
  obtain ⟨⟨result', t'⟩, hmap, hok⟩ := bind_eq_ok.mp hrest
  simp only [pure_eq, Except.ok.injEq, Prod.mk.injEq] at hok
  obtain ⟨rfl, hbefore, hafter⟩ := hok
  have hwf := (doMap_progress_false (admits_clearOrValid _) hblank hfirst).2.1
  exact ⟨t, t', hwf, hmap, hbefore, hafter⟩

/-- **What was mapped can be unmapped without a trace.**  After a local request for canonical pages
was taken, every form of `try_unmap` on its range returns, and every page translates as it did
before the request, whatever else is mapped.

SOURCE: mm/paging/mapper.rs:184-277, 349-454 -/
theorem map_unmap_restores (A : PagingArch) (root : ℕ) (t t' : Tables) (m : Mapping)
    (mode : PageTableRetirement) (retired : List ℕ) (hwf : WellFormed A root t)
    (hleaf : m.flags.isLeaf = true) (hlocal : m.flags.global = false)
    (hcanonical : ∀ i < m.npages, A.canonicalizeVpn (m.vpn + i) = m.vpn + i)
    (hrun : map A root t m = .ok (.ok (), t')) :
    ∃ st, tryUnmapWith A root t' ⟨m.vpn, m.npages⟩ mode retired = .ok st ∧
      ∀ v, translate A root st.1 v = translate A root t v := by
  rcases map_cases hrun with ⟨-, k, hdo⟩ | ⟨e, k, t₁, _, herror, -⟩
  · obtain ⟨hhuge, hintact, -, hok, hprogress⟩ :=
      doMap_progress_false (admits_clearOrLeaf hleaf) hwf hdo
    obtain rfl := hok rfl
    obtain ⟨st, hunmap, -⟩ := WellFormed.tryUnmapWith hintact ⟨m.vpn, m.npages⟩ mode retired
    refine ⟨st, hunmap, fun v => translate_congr ?_⟩
    by_cases hv : Named A m m.npages v
    · obtain ⟨i, hi, hmod⟩ := hv
      rw [leafOf_congr t hmod, leafOf_congr st.1 hmod, leafOf_tryUnmapWith hintact hunmap,
        hprogress.vacant rfl (m.vpn + i) (named_self hi)]
      exact (hprogress.cut_named hleaf hhuge hi).mpr ⟨hlocal, hcanonical i hi⟩
    · rw [leafOf_tryUnmapWith hintact hunmap, cut_rollback (fun leaf => leafOf_level_lt) hv]
      exact hprogress.kept hv
  · cases herror

/-- Two pages. -/
theorem map_unmap_restores_pair : ∃ t' st,
    map sv39 1 (blank [2, 3]) ⟨16, 32, { PteFlags.empty with read := true }, 2, false⟩ =
      .ok (.ok (), t') ∧
    tryUnmapWith sv39 1 t' ⟨16, 2⟩ .immediate [] = .ok st ∧
    ∀ v, translate sv39 1 st.1 v = translate sv39 1 (blank [2, 3]) v := by
  have hrun : (do
      let (result, _) ← map sv39 1 (blank [2, 3])
        ⟨16, 32, { PteFlags.empty with read := true }, 2, false⟩
      pure result) = .ok (.ok ()) := by decide +kernel
  obtain ⟨⟨result, t'⟩, hmap, hok⟩ := bind_eq_ok.mp hrun
  cases hok
  obtain ⟨st, hunmap, hsame⟩ := map_unmap_restores sv39 1 _ t' _ .immediate []
    (intact_blank (.inl rfl) (by decide) (by decide)) rfl rfl (by decide) hmap
  exact ⟨t', st, hmap, hunmap, hsame⟩

end Mapper

end Anemone.Paging
