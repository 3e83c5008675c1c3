import Anemone.Analysis.MapOne

/-!
# The loop of `map`

After `k` pages of a request (`Progress`) the pages named so far have leaves of the request, and
all other pages the leaf they had, unless it also covered a page named so far.  Every round
extends it by one leaf.
-/

namespace Anemone.Paging

open Checked (bind_eq_ok ok_bind)
open Checked List
open Uspace (SysError LeafPteCommit)

namespace Mapper

variable {A : PagingArch} {base : Pte → Prop} {root v w : ℕ} {m : Mapping} {overwrite : Bool}
  {t t' t₀ : Tables} {k : ℕ} {flags : PteFlags}

theorem sameEntry_iff {level : ℕ} (hlevel : level ≤ A.pageLevels) (hw : A.levelPages level ∣ w) :
    SameEntry A level v w ↔ ∃ o < A.levelPages level, v ≡ w + o [MOD 2 ^ A.vpnBits] :=
  Radix.agree_iff_modEq hlevel hw

theorem SameEntry.symm {level : ℕ} (h : SameEntry A level v w) : SameEntry A level w v :=
  Radix.Agree.symm h

theorem SameEntry.trans {level u : ℕ} (h : SameEntry A level u v) (h' : SameEntry A level v w) :
    SameEntry A level u w :=
  Radix.Agree.trans h h'

theorem SameEntry.mono {level level' : ℕ} (h : SameEntry A level v w) (hle : level ≤ level') :
    SameEntry A level' v w :=
  Radix.Agree.mono h hle

theorem named_self {i : ℕ} (hi : i < k) : Named A m k (m.vpn + i) := ⟨i, hi, Nat.ModEq.refl _⟩

theorem named_add {level : ℕ} (hlevel : level ≤ A.pageLevels)
    (haligned : A.levelPages level ∣ m.vpn + k) :
    Named A m (k + A.levelPages level) v ↔
      Named A m k v ∨ SameEntry A level v (m.vpn + k) := by
  rw [sameEntry_iff hlevel haligned]
  constructor
  · rintro ⟨i, hi, hv⟩
    by_cases hik : i < k
    · exact .inl ⟨i, hik, hv⟩
    · refine .inr ⟨i - k, by omega, ?_⟩
      rwa [show m.vpn + k + (i - k) = m.vpn + i by omega]
  · rintro (⟨i, hi, hv⟩ | ⟨o, ho, hv⟩)
    · exact ⟨i, by omega, hv⟩
    · exact ⟨k + o, by omega, by rwa [← Nat.add_assoc]⟩

/-- The pages of the next leaf have its entry. -/
theorem sameEntry_next {level i : ℕ} (hlevel : level ≤ A.pageLevels)
    (haligned : A.levelPages level ∣ m.vpn + k) (hk : k ≤ i) (hi : i < k + A.levelPages level) :
    SameEntry A level (m.vpn + i) (m.vpn + k) := by
  refine (sameEntry_iff hlevel haligned).mpr ⟨i - k, by omega, ?_⟩
  rw [show m.vpn + k + (i - k) = m.vpn + i by omega]

theorem eq_of_modEq {a i j : ℕ} (h : a + i ≡ a + j [MOD 2 ^ A.vpnBits])
    (hi : i < 2 ^ A.vpnBits) (hj : j < 2 ^ A.vpnBits) : i = j := by
  have hmod : i ≡ j [MOD 2 ^ A.vpnBits] := Nat.ModEq.add_left_cancel' a h
  rwa [Nat.ModEq, Nat.mod_eq_of_lt hi, Nat.mod_eq_of_lt hj] at hmod

/-- What may stand in the lowest tables while a request with these flags is mapped. -/
structure Admits (base : Pte → Prop) (flags : PteFlags) : Prop where
  zeroed : base .zeroed
  leaf : ∀ pte : Pte, pte.isLeaf = true → base pte
  stub : flags.isLeaf = false → ∀ pte : Pte, pte.isValid = true → base pte

theorem admits_clearOrLeaf (h : flags.isLeaf = true) : Admits ClearOrLeaf flags where
  zeroed := .inl rfl
  leaf := fun _ hleaf => .inr hleaf
  stub := fun hnot => by
    rw [h] at hnot
    cases hnot

theorem admits_clearOrValid (flags : PteFlags) : Admits ClearOrValid flags where
  zeroed := .inl rfl
  leaf := fun pte hleaf => .inr (by
    rw [Pte.isLeaf, Bool.and_eq_true] at hleaf
    exact hleaf.1)
  stub := fun _ _ hvalid => .inr hvalid

theorem maxHpageLevel_le (m : Mapping) : maxHpageLevel A m ≤ A.maxHugePageLevel := by
  unfold maxHpageLevel
  split
  · exact Nat.zero_le _
  · exact min_le_right _ _

variable {level vpn remaining rounds : ℕ} {result : Except SysError LeafPteCommit}

/-- the two page numbers of a request have the same remainder at every level that
is tried. -/
theorem ppn_aligned (hlevel : level ≤ maxHpageLevel A m)
    (hvpn : A.levelPages level ∣ m.vpn + k) : A.levelPages level ∣ m.ppn + k := by
  have hmod : m.vpn % A.levelPages level = m.ppn % A.levelPages level := by
    unfold maxHpageLevel at hlevel
    split at hlevel
    · obtain rfl := Nat.le_zero.mp hlevel
      simp [Nat.mod_one]
    · have hle := (hlevel.trans (min_le_left _ _))
      rw [Nat.le_div_iff_mul_le A.bits_pos] at hle
      exact Radix.mod_eq_of_le_trailingZeros hle
  rw [Nat.dvd_iff_mod_eq_zero, Nat.add_mod] at hvpn ⊢
  rwa [← hmod]

theorem pickLevel_eq_some {maxLevel nextVpn level : ℕ}
    (h : pickLevel A maxLevel nextVpn remaining = some level) :
    level ≤ maxLevel ∧ A.levelPages level ∣ nextVpn ∧ A.levelPages level ≤ remaining := by
  have hmem := mem_of_find?_eq_some h
  have hcond := find?_some h
  simp only [Bool.and_eq_true, beq_iff_eq, decide_eq_true_eq] at hcond
  rw [mem_reverse, mem_range] at hmem
  exact ⟨Nat.lt_succ_iff.mp hmem, Nat.dvd_of_mod_eq_zero hcond.1, hcond.2⟩

theorem pickLevel_isSome (maxLevel nextVpn : ℕ) (h : 0 < remaining) :
    ∃ level, pickLevel A maxLevel nextVpn remaining = some level := by
  rw [← Option.isSome_iff_exists, pickLevel, find?_isSome]
  refine ⟨0, ?_, ?_⟩
  · simp
  · simp [Nat.mod_one, Nat.one_le_iff_ne_zero, h.ne']

theorem shapedIn_newPte (hadmits : Admits base m.flags) {level j : ℕ}
    (hlevel : level ≤ maxHpageLevel A m) (hppn : A.levelPages level ∣ m.ppn + j)
    (hnew : m.flags.isLeaf = true ∨ level = 0) (t : Tables) :
    Tables.ShapedIn A t base level (A.newPte (m.ppn + j) m.flags.asValid) := by
  have hleaf := A.newPte_isLeaf (m.ppn + j) m.flags
  cases level with
  | zero =>
    by_cases hflags : m.flags.isLeaf = true
    · exact hadmits.leaf _ (hleaf.trans hflags)
    · refine hadmits.stub (by simpa using hflags) _ ?_
      rw [Pte.isValid, PagingArch.newPte, A.encode_valid]
      rfl
  | succ level =>
    refine .inr (.inl ⟨hleaf.trans (hnew.resolve_right (Nat.succ_ne_zero level)), ?_⟩)
    refine (Nat.dvd_mod_iff (pow_dvd_pow 2 ?_)).mpr hppn
    exact (Nat.mul_le_mul_right _ (hlevel.trans (maxHpageLevel_le m))).trans A.huge_fits

/-- One call of `map_one`, for the page table as a whole. -/
structure Placed (A : PagingArch) (base : Pte → Prop) (root vpn level : ℕ) (new : Pte)
    (overwrite : Bool) (t t' : Tables) (result : Except SysError LeafPteCommit) : Prop where
  intact : Intact A base root t'
  leaf : ∀ commit, result = .ok commit → ∀ v, leafOf A root t' v =
    if SameEntry A level v vpn then written level new
    else beside (A := A) level A.pageLevels vpn v (leafOf A root t v)
  vacant : ∀ commit, result = .ok commit → overwrite = false → ∀ v, SameEntry A level v vpn →
    leafOf A root t v = none
  failed : ∀ e, result = .error e → overwrite = false → ∀ v, leafOf A root t' v = leafOf A root t v
  walks : ∀ commit, result = .ok commit → overwrite = false → ∀ v,
    Walked A level A.pageLevels vpn v (t.reachAt A level (A.pageLevels - 1) root v)
      (t'.reachAt A level (A.pageLevels - 1) root v)

theorem placed_of_oneSpec {level : ℕ} {new : Pte} (h : Intact A base root t)
    (hone : OneSpec A base vpn level new overwrite (A.pageLevels - 1) root t t' result) :
    Placed A base root vpn level new overwrite t t' result := by
  obtain ⟨used, out, hfree, hedits⟩ := hone.edits
  have hperm : (t.tablesAt A (A.pageLevels - 1) root ++ t.free).Perm
      ((t'.tablesAt A (A.pageLevels - 1) root ++ t'.free) ++ out) := by
    rw [hfree, ← append_assoc]
    refine (hedits.perm.append_right t'.free).trans ?_
    rw [append_assoc, append_assoc]
    exact perm_append_comm.append_left _
  have hpage := hone.page
  simp only [levels_succ] at hpage
  exact ⟨h.of_perm (hone.shaped h.shaped) hperm, fun c hc v => (hpage v).leaf c hc,
    fun c hc how v => (hpage v).vacant c hc how, fun e he how v => (hpage v).failed e he how,
    fun c hc how v => (hpage v).walks c hc how⟩

theorem mapOneCommit_descent {ppn level : ℕ} (h : Intact A base root t)
    (hrun : mapOneCommit A root t vpn ppn flags level overwrite = .ok (result, t')) :
    (flags.isSupportedRwxCombination = false ∧ result = .error .invalidArgument ∧ t' = t) ∨
      (flags.isSupportedRwxCombination = true ∧
        Descent A vpn ppn flags level overwrite (A.pageLevels - 1) root false t result t') := by
  unfold mapOneCommit at hrun
  split at hrun
  · rename_i hnot
    cases hrun
    exact .inl ⟨by simpa using hnot, rfl, rfl⟩
  · rename_i hsupported
    obtain ⟨_, hlevel, hrun⟩ := bind_eq_ok.mp hrun
    obtain ⟨_, -, hrun⟩ := bind_eq_ok.mp hrun
    refine .inr ⟨by simpa using hsupported, ?_⟩
    exact mapOneAt_descent (Nat.le_sub_one_of_lt (assert_eq_ok.mp hlevel)) h.nodup
      (fun f hf => h.fits f (mem_append_right _ hf)) hrun

theorem Descent.placed {ppn level : ℕ} (hadmits : Admits base flags)
    (hnew : flags.isLeaf = true ∨ level = 0)
    (hshaped : ∀ t : Tables, Tables.ShapedIn A t base level (A.newPte ppn flags.asValid))
    (h : Intact A base root t)
    (hwalk : Descent A vpn ppn flags level overwrite (A.pageLevels - 1) root false t result t') :
    Placed A base root vpn level (A.newPte ppn flags.asValid) overwrite t t' result :=
  placed_of_oneSpec h (hwalk.spec hadmits.zeroed hnew hshaped)

open Classical in
/-- The first `k` pages of a request are mapped. -/
structure Progress (A : PagingArch) (root : ℕ) (m : Mapping) (overwrite : Bool)
    (t₀ t : Tables) (k : ℕ) : Prop where
  supported : 0 < k → m.flags.isSupportedRwxCombination = true
  leaves : m.flags.isLeaf = true → ∀ v, Named A m k v → ∃ leaf j o,
    leafOf A root t v = some leaf ∧ leaf.pte = A.newPte (m.ppn + j) m.flags.asValid ∧
    leaf.level ≤ maxHpageLevel A m ∧ j + A.levelPages leaf.level ≤ k ∧
    A.levelPages leaf.level ∣ m.vpn + j ∧ o < A.levelPages leaf.level ∧
    v ≡ m.vpn + j + o [MOD 2 ^ A.vpnBits]
  distinct : m.flags.isLeaf = true → ∀ i < k, ∀ j < k,
    m.vpn + i ≡ m.vpn + j [MOD 2 ^ A.vpnBits] → i = j
  stubs : m.flags.isLeaf = false → ∀ v, Named A m k v → leafOf A root t v = none
  others : ∀ v, ¬ Named A m k v → leafOf A root t v =
    if Shares A root t₀ m k v then none else leafOf A root t₀ v
  vacant : overwrite = false → ∀ v, Named A m k v → leafOf A root t₀ v = none

theorem progress_zero : Progress A root m overwrite t t 0 where
  supported := fun h => absurd h (Nat.lt_irrefl 0)
  leaves := fun _ _ h => absurd h (by simp [Named])
  distinct := fun _ _ h => absurd h (Nat.not_lt_zero _)
  stubs := fun _ _ h => absurd h (by simp [Named])
  others := fun v _ => (if_neg (by simp [Shares])).symm
  vacant := fun _ _ h => absurd h (by simp [Named])

/-- a call of `map_one` that fails without overwriting loses nothing. -/
theorem Progress.congr (h : Progress A root m overwrite t₀ t k)
    (hsame : ∀ v, leafOf A root t' v = leafOf A root t v) :
    Progress A root m overwrite t₀ t' k where
  supported := h.supported
  leaves := fun hleaf v hv => by
    rw [hsame]
    exact h.leaves hleaf v hv
  distinct := h.distinct
  stubs := fun hleaf v hv => (hsame v).trans (h.stubs hleaf v hv)
  others := fun v hv => (hsame v).trans (h.others v hv)
  vacant := h.vacant

/-- The next leaf takes no place of a leaf that is already there for the request. -/
structure Apart (A : PagingArch) (root : ℕ) (m : Mapping) (t : Tables) (k level : ℕ) : Prop where
  pages : ∀ v, Named A m k v → ¬ SameEntry A level v (m.vpn + k)
  leaves : ∀ v leaf, Named A m k v → leafOf A root t v = some leaf →
    ¬ SameEntry A leaf.level v (m.vpn + k)

section

variable (h : Progress A root m overwrite t₀ t k)

include h

/-- without overwriting, the next leaf would have been refused. -/
theorem Progress.apart_of_vacant (hleaf : m.flags.isLeaf = true)
    (hvacant : ∀ v, SameEntry A level v (m.vpn + k) → leafOf A root t v = none) :
    Apart A root m t k level where
  pages := fun v hv hsame => by
    obtain ⟨leaf, -, -, hfound, -⟩ := h.leaves hleaf v hv
    rw [hvacant v hsame] at hfound
    cases hfound
  leaves := fun v leaf _ hfound hsame => by
    have hnone := hvacant (m.vpn + k) (Radix.Agree.refl _ _ _ _)
    rw [leafOf_of_sameEntry hfound hsame] at hnone
    cases hnone

/-- a request no longer than the space of pages comes to no page twice. -/
theorem Progress.apart_of_short (hleaf : m.flags.isLeaf = true) (hshort : m.npages ≤ 2 ^ A.vpnBits)
    (hlevel : level ≤ A.pageLevels) (haligned : A.levelPages level ∣ m.vpn + k)
    (hends : k + A.levelPages level ≤ m.npages) : Apart A root m t k level := by
  refine ⟨fun v ⟨i, hi, hv⟩ hsame => ?_, fun v leaf hnamed hfound hsame => ?_⟩
  · obtain ⟨o, ho, hv'⟩ := (sameEntry_iff hlevel haligned).mp hsame
    have hmod : m.vpn + i ≡ m.vpn + (k + o) [MOD 2 ^ A.vpnBits] := by
      rw [← Nat.add_assoc]
      exact hv.symm.trans hv'
    have := eq_of_modEq hmod (by omega) (by omega)
    omega
  · obtain ⟨leaf', j, o, hfound', -, -, hj, haligned', ho, hv⟩ := h.leaves hleaf v hnamed
    obtain rfl : leaf = leaf' := Option.some.inj (hfound.symm.trans hfound')
    have hlevel' := (leafOf_level_lt hfound).le
    have hown : SameEntry A leaf.level v (m.vpn + j) :=
      (sameEntry_iff hlevel' haligned').mpr ⟨o, ho, hv⟩
    obtain ⟨o', ho', hk⟩ := (sameEntry_iff hlevel' haligned').mp (hsame.symm.trans hown)
    have hmod : m.vpn + k ≡ m.vpn + (j + o') [MOD 2 ^ A.vpnBits] := by
      rwa [← Nat.add_assoc]
    have hpos := A.levelPages_pos level
    have := eq_of_modEq hmod (by omega) (by omega)
    omega

/-- the pages that are not named, after one more leaf. -/
theorem Progress.others_step {level : ℕ} (hlevel : level ≤ A.pageLevels)
    (haligned : A.levelPages level ∣ m.vpn + k) (hv : ¬ Named A m (k + A.levelPages level) v)
    [Decidable (Shares A root t₀ m (k + A.levelPages level) v)] :
    beside (A := A) level A.pageLevels (m.vpn + k) v (leafOf A root t v) =
      if Shares A root t₀ m (k + A.levelPages level) v then none else leafOf A root t₀ v := by
  have hnot : ¬ Named A m k v ∧ ¬ SameEntry A level v (m.vpn + k) := by
    rw [named_add hlevel haligned, not_or] at hv
    exact hv
  have hbefore := h.others v hnot.1
  by_cases hshares : Shares A root t₀ m k v
  · rw [hbefore, if_pos hshares, if_pos]
    · rfl
    · obtain ⟨leaf, hfound, i, hi, hsame⟩ := hshares
      exact ⟨leaf, hfound, i, by omega, hsame⟩
  · rw [hbefore, if_neg hshares]
    cases hfound : leafOf A root t₀ v with
    | none => split <;> rfl
    | some leaf =>
      have hiff : Shares A root t₀ m (k + A.levelPages level) v ↔
          level < leaf.level ∧ SameEntry A leaf.level v (m.vpn + k) := by
        constructor
        · rintro ⟨leaf', hfound', i, hi, hsame⟩
          obtain rfl : leaf = leaf' := Option.some.inj (hfound.symm.trans hfound')
          have hik : k ≤ i := by
            by_contra hlt
            exact hshares ⟨leaf, hfound, i, by omega, hsame⟩
          have hblock := sameEntry_next hlevel haligned hik hi
          by_cases hle : leaf.level ≤ level
          · exact absurd ((hsame.mono hle).trans hblock) hnot.2
          · exact ⟨by omega, hsame.trans (hblock.mono (by omega))⟩
        · rintro ⟨-, hsame⟩
          have hpos := A.levelPages_pos level
          exact ⟨leaf, hfound, k, by omega, hsame⟩
      simp only [hiff]
      rfl

/-- two pages of the next leaf differ, and none of them was named before. -/
theorem Progress.distinct_step (hlevel : level ≤ A.pageLevels)
    (haligned : A.levelPages level ∣ m.vpn + k) (hflags : m.flags.isLeaf = true)
    (hapart : Apart A root m t k level) {i j : ℕ} (hi : i < k + A.levelPages level)
    (hj : j < k + A.levelPages level) (hmod : m.vpn + i ≡ m.vpn + j [MOD 2 ^ A.vpnBits]) :
    i = j := by
  have hold : ∀ i j, i < k → k ≤ j → j < k + A.levelPages level →
      ¬ m.vpn + i ≡ m.vpn + j [MOD 2 ^ A.vpnBits] := fun i j hi hkj hj hmod =>
    hapart.pages (m.vpn + j) ⟨i, hi, hmod.symm⟩ (sameEntry_next hlevel haligned hkj hj)
  by_cases hik : i < k
  · by_cases hjk : j < k
    · exact h.distinct hflags i hik j hjk hmod
    · exact absurd hmod (hold i j hik (by omega) hj)
  · by_cases hjk : j < k
    · exact absurd hmod.symm (hold j i hjk (by omega) hi)
    · have hspace : A.levelPages level ≤ 2 ^ A.vpnBits :=
        Nat.le_of_dvd (Nat.two_pow_pos _) (A.levelPages_dvd_space hlevel)
      have hmod' : m.vpn + k + (i - k) ≡ m.vpn + k + (j - k) [MOD 2 ^ A.vpnBits] := by
        rwa [show m.vpn + k + (i - k) = m.vpn + i by omega,
          show m.vpn + k + (j - k) = m.vpn + j by omega]
      have := eq_of_modEq hmod' (by omega) (by omega)
      omega

theorem Progress.step {commit : LeafPteCommit}
    (hplaced : Placed A base root (m.vpn + k) level (A.newPte (m.ppn + k) m.flags.asValid)
      overwrite t t' (.ok commit))
    (hsupported : m.flags.isSupportedRwxCombination = true) (hlevel : level ≤ maxHpageLevel A m)
    (haligned : A.levelPages level ∣ m.vpn + k)
    (hapart : m.flags.isLeaf = true → Apart A root m t k level) :
    Progress A root m overwrite t₀ t' (k + A.levelPages level) := by
  have hlevel' : level ≤ A.pageLevels := (hlevel.trans (maxHpageLevel_le m)).trans A.huge_lt.le
  have hleaf := hplaced.leaf commit rfl
  have hsplit : ∀ v, Named A m (k + A.levelPages level) v ↔
      Named A m k v ∨ SameEntry A level v (m.vpn + k) := fun v => named_add hlevel' haligned
  refine ⟨fun _ => hsupported, fun hflags v hv => ?_, fun hflags => ?_, fun hflags v hv => ?_,
    fun v hv => ?_, fun how v hv => ?_⟩
  · by_cases hsame : SameEntry A level v (m.vpn + k)
    · obtain ⟨o, ho, hmod⟩ := (sameEntry_iff hlevel' haligned).mp hsame
      refine ⟨⟨level, A.newPte (m.ppn + k) m.flags.asValid⟩, k, o, ?_, rfl, hlevel, le_rfl,
        haligned, ho, hmod⟩
      rw [hleaf, if_pos hsame, written, if_pos ((A.newPte_isLeaf _ _).trans hflags)]
    · have hnamed := ((hsplit v).mp hv).resolve_right hsame
      obtain ⟨leaf, j, o, hfound, hpte, hmax, hj, hrest⟩ := h.leaves hflags v hnamed
      refine ⟨leaf, j, o, ?_, hpte, hmax, hj.trans (Nat.le_add_right _ _), hrest⟩
      rw [hleaf, if_neg hsame, hfound]
      exact if_neg fun hcond => (hapart hflags).leaves v leaf hnamed hfound hcond.2
  · exact fun i hi j hj => h.distinct_step hlevel' haligned hflags (hapart hflags) hi hj
  · by_cases hsame : SameEntry A level v (m.vpn + k)
    · rw [hleaf, if_pos hsame, written, if_neg]
      rw [A.newPte_isLeaf, hflags]
      exact Bool.false_ne_true
    · rw [hleaf, if_neg hsame, h.stubs hflags v (((hsplit v).mp hv).resolve_right hsame)]
      rfl
  · have hnot := hv
    rw [hsplit, not_or] at hnot
    rw [hleaf, if_neg hnot.2]
    classical
    exact h.others_step hlevel' haligned hv
  · by_cases hnamed : Named A m k v
    · exact h.vacant how v hnamed
    · have hnone := hplaced.vacant commit rfl how v (((hsplit v).mp hv).resolve_left hnamed)
      rw [h.others v hnamed] at hnone
      split at hnone
      · rename_i hshares
        obtain ⟨leaf, hfound, i, hi, hsame⟩ := hshares
        have hgone := h.vacant how (m.vpn + i) (named_self hi)
        rw [leafOf_of_sameEntry hfound hsame] at hgone
        cases hgone
      · exact hnone

end

/-- a request without large pages asks for leaves of base size. -/
theorem maxHpageLevel_of_local (hhuge : m.hugePages = true → m.flags.global = true)
    (hlocal : m.flags.global = false) : maxHpageLevel A m = 0 := by
  have hsmall : m.hugePages = false := by
    by_contra hh
    rw [hhuge (by simpa using hh)] at hlocal
    cases hlocal
  rw [maxHpageLevel, hsmall]
  rfl

theorem isLeaf_or_level_zero (hhuge : m.hugePages = true → m.flags.global = true)
    (hsupported : m.flags.isSupportedRwxCombination = true)
    (hlevel : level ≤ maxHpageLevel A m) : m.flags.isLeaf = true ∨ level = 0 := by
  rw [PteFlags.isSupportedRwxCombination, Bool.or_eq_true, beq_iff_eq] at hsupported
  rcases hsupported with hempty | hread
  · rw [maxHpageLevel_of_local hhuge (by rw [hempty]; rfl)] at hlevel
    exact .inr (Nat.le_zero.mp hlevel)
  · refine .inl ?_
    rw [PteFlags.isLeaf, hread]
    rfl

/-- A run of the loop, leaf by leaf. -/
inductive Rounds (A : PagingArch) (root : ℕ) (m : Mapping) (overwrite : Bool) :
    ℕ → Tables → Except SysError Unit → ℕ → Tables → Prop
  | done {k : ℕ} {t : Tables} (hk : m.npages ≤ k) : Rounds A root m overwrite k t (.ok ()) k t
  | stop {k level : ℕ} {t t' : Tables} {e : SysError}
      (hpick : pickLevel A (maxHpageLevel A m) (m.vpn + k) (m.npages - k) = some level)
      (hone : mapOneCommit A root t (m.vpn + k) (m.ppn + k) m.flags level overwrite =
        .ok (.error e, t')) : Rounds A root m overwrite k t (.error e) k t'
  | next {k level k' : ℕ} {t t₁ t' : Tables} {commit : LeafPteCommit} {result : Except SysError Unit}
      (hpick : pickLevel A (maxHpageLevel A m) (m.vpn + k) (m.npages - k) = some level)
      (hone : mapOneCommit A root t (m.vpn + k) (m.ppn + k) m.flags level overwrite =
        .ok (.ok commit, t₁))
      (rest : Rounds A root m overwrite (k + A.levelPages level) t₁ result k' t') :
      Rounds A root m overwrite k t result k' t'

/-- a round always finds a level, that of base pages at the latest. -/
theorem mapLoop_rounds {k' : ℕ} {result : Except SysError Unit}
    (h : mapLoop A root m overwrite rounds k t = .ok (result, k', t')) :
    Rounds A root m overwrite k t result k' t' := by
  induction rounds generalizing k t with
  | zero =>
    rw [mapLoop] at h
    split at h
    · rename_i hdone
      cases h
      exact .done hdone
    · cases h
  | succ rounds ih =>
    rw [mapLoop] at h
    split at h
    · rename_i hdone
      cases h
      exact .done hdone
    · obtain ⟨nextVpn, hvpn, h⟩ := bind_eq_ok.mp h
      obtain ⟨-, rfl⟩ := add_eq_ok.mp hvpn
      split at h
      · exact ih h
      · rename_i level hpick
        obtain ⟨nextPpn, hppn, h⟩ := bind_eq_ok.mp h
        obtain ⟨-, rfl⟩ := add_eq_ok.mp hppn
        obtain ⟨⟨one, t₁⟩, hone, hrest⟩ := bind_eq_ok.mp h
        cases one with
        | error e =>
          cases hrest
          exact .stop hpick hone
        | ok commit => exact .next hpick hone (ih hrest)

/-- **the loop.**  If it ends without an error, all pages are mapped.  If it ends
with an error and does not overwrite, the pages before are mapped and nothing else has
changed. -/
theorem Rounds.progress (hadmits : Admits base m.flags)
    (hhuge : m.hugePages = true → m.flags.global = true)
    (hapart : overwrite = true → m.flags.isLeaf = true ∧ m.npages ≤ 2 ^ A.vpnBits) {k' : ℕ}
    {result : Except SysError Unit} (h : Rounds A root m overwrite k t result k' t')
    (hk : k ≤ m.npages) (hintact : Intact A base root t)
    (hprogress : Progress A root m overwrite t₀ t k) :
    Intact A base root t' ∧ k' ≤ m.npages ∧
      (result = .ok () → k' = m.npages ∧ Progress A root m overwrite t₀ t' k') ∧
      (∀ e, result = .error e → overwrite = false → Progress A root m overwrite t₀ t' k') := by
  induction h with
  | done hdone => exact ⟨hintact, hk, fun _ => ⟨le_antisymm hk hdone, hprogress⟩, nofun⟩
  | stop hpick hone =>
    obtain ⟨hlevel, haligned, -⟩ := pickLevel_eq_some hpick
    rcases mapOneCommit_descent hintact hone with ⟨-, -, rfl⟩ | ⟨hsupported, hwalk⟩
    · exact ⟨hintact, hk, nofun, fun _ _ _ => hprogress⟩
    · have hnew := isLeaf_or_level_zero hhuge hsupported hlevel
      have hplaced := hwalk.placed hadmits hnew
        (shapedIn_newPte hadmits hlevel (ppn_aligned hlevel haligned) hnew) hintact
      exact ⟨hplaced.intact, hk, nofun,
        fun _ _ how => hprogress.congr (hplaced.failed _ rfl how)⟩
  | @next k level _ t t₁ _ commit _ hpick hone _ ih =>
    obtain ⟨hlevel, haligned, hfits⟩ := pickLevel_eq_some hpick
    have hpos := A.levelPages_pos level
    have hends : k + A.levelPages level ≤ m.npages := by omega
    have hlevel' : level ≤ A.pageLevels :=
      (hlevel.trans (maxHpageLevel_le m)).trans A.huge_lt.le
    obtain ⟨-, ⟨⟩, -⟩ | ⟨hsupported, hwalk⟩ := mapOneCommit_descent hintact hone
    have hnew := isLeaf_or_level_zero hhuge hsupported hlevel
    have hplaced := hwalk.placed hadmits hnew
      (shapedIn_newPte hadmits hlevel (ppn_aligned hlevel haligned) hnew) hintact
    refine ih hends hplaced.intact
      (hprogress.step hplaced hsupported hlevel haligned fun hflags => ?_)
    cases how : overwrite with
    | false => exact hprogress.apart_of_vacant hflags (hplaced.vacant commit rfl how)
    | true => exact hprogress.apart_of_short hflags (hapart how).2 hlevel' haligned hends

theorem mapOneCommit_returns {level : ℕ} (root ppn : ℕ) (flags : PteFlags) (overwrite : Bool)
    (hlevel : level < A.pageLevels) (haligned : A.levelPages level ∣ vpn) (t : Tables) :
    ∃ r, mapOneCommit A root t vpn ppn flags level overwrite = .ok r := by
  unfold mapOneCommit
  split
  · exact ⟨_, rfl⟩
  · rw [assert_of _ hlevel, ok_bind, assert_of _ (Nat.dvd_iff_mod_eq_zero.mp haligned), ok_bind]
    exact mapOneAt_returns (Nat.le_sub_one_of_lt hlevel) root false t

/-- **the loop ends.**  Every round maps a page at least. -/
theorem mapLoop_returns (hvpn : m.vpn + m.npages ≤ wordSize)
    (hppn : m.ppn + m.npages ≤ wordSize) (hrounds : m.npages ≤ k + rounds) (t : Tables) :
    ∃ r, mapLoop A root m overwrite rounds k t = .ok r := by
  induction rounds generalizing k t with
  | zero =>
    rw [mapLoop, if_pos (by omega)]
    exact ⟨_, rfl⟩
  | succ rounds ih =>
    rw [mapLoop]
    split
    · exact ⟨_, rfl⟩
    · have hleft : 0 < m.npages - k := by omega
      obtain ⟨level, hpick⟩ := pickLevel_isSome (maxHpageLevel A m) (m.vpn + k) hleft
      obtain ⟨hlevel, haligned, hfits⟩ := pickLevel_eq_some hpick
      have hlevel' : level < A.pageLevels := (hlevel.trans (maxHpageLevel_le m)).trans_lt A.huge_lt
      obtain ⟨⟨one, t₁⟩, hone⟩ :=
        mapOneCommit_returns root (m.ppn + k) m.flags overwrite hlevel' haligned t
      rw [add_of_lt (by omega), ok_bind, hpick]
      simp only
      rw [add_of_lt (by omega), ok_bind, hone, ok_bind]
      have hpos := A.levelPages_pos level
      cases one with
      | error e => exact ⟨_, rfl⟩
      | ok commit => exact ih (by omega) t₁

/-- what `doMap` says about its request, and what the loop then does. -/
theorem doMap_progress (hadmits : Admits base m.flags)
    (hapart : overwrite = true → m.flags.isLeaf = true ∧ m.npages ≤ 2 ^ A.vpnBits)
    {result : Except SysError Unit} (hintact : Intact A base root t)
    (h : doMap A root t m overwrite = .ok (result, k, t')) :
    (m.hugePages = true → m.flags.global = true) ∧ Intact A base root t' ∧ k ≤ m.npages ∧
      (result = .ok () → k = m.npages ∧ Progress A root m overwrite t t' k) ∧
      (∀ e, result = .error e → overwrite = false → Progress A root m overwrite t t' k) := by
  obtain ⟨u, hhuge, hloop⟩ := bind_eq_ok.mp h
  have hhuge := assert_eq_ok.mp hhuge
  exact ⟨hhuge, (mapLoop_rounds hloop).progress hadmits hhuge hapart (Nat.zero_le _) hintact
    progress_zero⟩

/-- the same for a request that overwrites nothing. -/
theorem doMap_progress_false (hadmits : Admits base m.flags) {result : Except SysError Unit}
    (hintact : Intact A base root t) (h : doMap A root t m false = .ok (result, k, t')) :
    (m.hugePages = true → m.flags.global = true) ∧ Intact A base root t' ∧ k ≤ m.npages ∧
      (result = .ok () → k = m.npages) ∧ Progress A root m false t t' k := by
  obtain ⟨hhuge, hintact', hle, hok, herror⟩ :=
    doMap_progress hadmits (fun h => absurd h Bool.false_ne_true) hintact h
  refine ⟨hhuge, hintact', hle, fun hresult => (hok hresult).1, ?_⟩
  cases result with
  | ok => exact (hok rfl).2
  | error e => exact herror e rfl rfl

/-- A page table without entries. -/
def blank (free : List ℕ) : Tables := ⟨fun _ _ => .zeroed, free⟩

theorem intact_blank (hbase : base .zeroed) {free : List ℕ} (hnodup : (root :: free).Nodup)
    (hfits : ∀ f ∈ root :: free, f < 2 ^ A.ppnBits) : Intact A base root (blank free) := by
  have htables : (blank free).tablesAt A (A.pageLevels - 1) root = [root] :=
    Tables.tablesAt_of_zeroed (fun _ _ => rfl) _
  refine ⟨fun idx _ => Tables.shapedIn_zeroed hbase _, ?_, ?_⟩
  · rw [htables]
    exact hnodup
  · rw [htables]
    exact hfits

end Mapper

end Anemone.Paging
