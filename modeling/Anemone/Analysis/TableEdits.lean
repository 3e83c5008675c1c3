import Anemone.Interface.TableShape

/-!
# Edits of a page table

The tree of an entry depends on the contents of its tables only; an edit of one such tree is an
edit of the table that leaves the others alone; and the pages of a leaf lie in those of every
entry above it.
-/

namespace Anemone.Paging

open Ranges (VirtPageRange)
open Radix Tables List

variable {level v w l : ℕ}

namespace PagingArch

variable (A : PagingArch)

theorem index_eq_digit (level vpn : ℕ) :
    A.index level vpn = digit A.pgdirIdxBits level vpn := by
  rw [index, ptePerPgdir, Nat.and_two_pow_sub_one_eq_mod, Nat.shiftRight_eq_div_pow, digit]

theorem index_lt (level vpn : ℕ) : A.index level vpn < A.ptePerPgdir := by
  rw [index_eq_digit]
  exact digit_lt _ _ _

theorem levelPages_pos (level : ℕ) : 0 < A.levelPages level := Nat.two_pow_pos _

@[simp] theorem levelPages_zero : A.levelPages 0 = 1 := by simp [levelPages]

theorem levelPages_dvd {level : ℕ} (h : l ≤ level) : A.levelPages l ∣ A.levelPages level :=
  pow_dvd_pow_mul _ h

theorem levelPages_dvd_space (h : level ≤ A.pageLevels) :
    A.levelPages level ∣ 2 ^ A.vpnBits := pow_dvd_pow_mul _ h

theorem vpnBits_le : A.vpnBits ≤ 64 - A.pageSizeBits := A.vpn_fits

/-- an entry has less than half of all pages. -/
theorem level_bits_lt (h : level < A.pageLevels) :
    level * A.pgdirIdxBits < A.vpnBits :=
  Nat.mul_lt_mul_of_pos_right h A.bits_pos

theorem canonicalizeVpn_modEq (vpn : ℕ) : A.canonicalizeVpn vpn ≡ vpn [MOD 2 ^ A.vpnBits] :=
  signExtend_modEq A.vpnBits_le vpn

theorem canonicalizeVpn_congr (h : v ≡ w [MOD 2 ^ A.vpnBits]) :
    A.canonicalizeVpn v = A.canonicalizeVpn w :=
  signExtend_congr h

end PagingArch

namespace Pte

variable {e : Pte}

theorem isBranch_of_isLeaf (h : e.isLeaf = true) : e.isBranch = false := by
  simp [isBranch, h]

theorem not_isValid_iff :
    e.isValid = false ↔ e.isBranch = false ∧ e.isLeaf = false := by
  simp only [isBranch, isLeaf]
  cases e.isValid <;> simp

theorem isBranch_of_clearOrLeaf (h : ClearOrLeaf e) : e.isBranch = false := by
  rcases h with rfl | hleaf
  · rfl
  · exact isBranch_of_isLeaf hleaf

end Pte

variable {leaf : Leaf} {vpn : ℕ}

namespace Tables

variable {A : PagingArch} {t t' : Tables}

theorem leafIn_succ (level : ℕ) (pte : Pte) (vpn : ℕ) : leafIn A t (level + 1) pte vpn =
      if pte.isBranch then t.leafAt A level pte.ppn vpn
      else if pte.isLeaf then some ⟨level + 1, pte⟩ else none := rfl

theorem tablesIn_succ (level : ℕ) (pte : Pte) : tablesIn A t (level + 1) pte =
      if pte.isBranch then t.tablesAt A level pte.ppn else [] := rfl

variable {base : Pte → Prop}

theorem shapedIn_succ (level : ℕ) (pte : Pte) : ShapedIn A t base (level + 1) pte ↔
      pte = .zeroed ∨ (pte.isLeaf ∧ A.levelPages (level + 1) ∣ pte.ppn) ∨
        (pte.isBranch ∧ t.ShapedAt A base level pte.ppn) := Iff.rfl

variable {pte : Pte} {dir i : ℕ}

theorem ShapedIn.below (h : ShapedIn A t base (level + 1) pte) (hb : pte.isBranch = true) :
    t.ShapedAt A base level pte.ppn := by
  rcases (shapedIn_succ level pte).mp h with hzero | hleaf | hbelow
  · rw [hzero] at hb
    cases hb
  · rw [Pte.isBranch_of_isLeaf hleaf.1] at hb
    cases hb
  · exact hbelow.2

theorem leafIn_of_isLeaf (h : pte.isLeaf = true) (level vpn : ℕ) :
    leafIn A t level pte vpn = some ⟨level, pte⟩ := by
  cases level with
  | zero => simp [leafIn, h]
  | succ level => simp [leafIn, h, Pte.isBranch_of_isLeaf h]

theorem leafIn_of_not_isValid (h : pte.isValid = false) (level vpn : ℕ) :
    leafIn A t level pte vpn = none := by
  obtain ⟨hb, hl⟩ := Pte.not_isValid_iff.mp h
  cases level <;> simp [leafIn, hb, hl]

@[simp] theorem leafIn_zeroed (level vpn : ℕ) : leafIn A t level .zeroed vpn = none :=
  leafIn_of_not_isValid rfl level vpn

theorem tablesIn_of_not_isBranch (h : pte.isBranch = false) (level : ℕ) :
    tablesIn A t level pte = [] := by
  cases level <;> simp [tablesIn, h]

@[simp] theorem tablesIn_zeroed (level : ℕ) : tablesIn A t level .zeroed = [] :=
  tablesIn_of_not_isBranch rfl level

theorem leafIn_level_le {level : ℕ} (h : leafIn A t level pte vpn = some leaf) :
    leaf.level ≤ level ∧ leaf.pte.isLeaf = true := by
  induction level generalizing pte with
  | zero =>
    simp only [leafIn] at h
    split at h
    · cases h
      exact ⟨le_rfl, by assumption⟩
    · cases h
  | succ level ih =>
    simp only [leafIn] at h
    split at h
    · obtain ⟨hle, hleaf⟩ := ih h
      exact ⟨hle.trans (Nat.le_succ level), hleaf⟩
    · split at h
      · cases h
        exact ⟨le_rfl, by assumption⟩
      · cases h

theorem leafIn_of_agree {level : ℕ} (h : leafIn A t level pte v = some leaf)
    (hag : Radix.Agree A.pgdirIdxBits leaf.level level v w) :
    leafIn A t level pte w = some leaf := by
  induction level generalizing pte with
  | zero => exact h
  | succ level ih =>
    rw [leafIn_succ] at h ⊢
    by_cases hb : pte.isBranch = true
    · rw [if_pos hb] at h ⊢
      have hle := (leafIn_level_le h).1
      obtain ⟨hdigit, hrest⟩ := (agree_succ hle).mp hag
      rw [leafAt, A.index_eq_digit, ← hdigit, ← A.index_eq_digit]
      exact ih h hrest
    · rw [if_neg hb] at h ⊢
      exact h

theorem leafAt_of_agree {level : ℕ} (h : t.leafAt A level dir v = some leaf)
    (hag : Radix.Agree A.pgdirIdxBits leaf.level (level + 1) v w) :
    t.leafAt A level dir w = some leaf := by
  have hle := (leafIn_level_le h).1
  obtain ⟨hdigit, hrest⟩ := (agree_succ hle).mp hag
  rw [leafAt, A.index_eq_digit, ← hdigit, ← A.index_eq_digit]
  exact leafIn_of_agree h hrest

def SameOn (t t' : Tables) (fs : List ℕ) : Prop := ∀ f ∈ fs, t'.entries f = t.entries f

theorem SameOn.mono {fs gs : List ℕ} (h : t.SameOn t' gs) (hsub : fs ⊆ gs) : t.SameOn t' fs :=
  fun f hf => h f (hsub hf)

theorem mem_tablesAt_of_mem {level idx f : ℕ} (hidx : idx < A.ptePerPgdir)
    (hf : f ∈ tablesIn A t level (t.entries dir idx)) : f ∈ t.tablesAt A level dir :=
  mem_cons_of_mem _ (mem_flatMap.mpr ⟨idx, mem_range.mpr hidx, hf⟩)

theorem self_mem_tablesAt (level dir : ℕ) : dir ∈ t.tablesAt A level dir := mem_cons_self

/-- **a tree depends on its tables only**, its frames for one. -/
theorem tablesIn_congr (h : t.SameOn t' (tablesIn A t level pte)) :
    tablesIn A t' level pte = tablesIn A t level pte := by
  induction level generalizing pte with
  | zero => rfl
  | succ level ih =>
    rw [tablesIn_succ, tablesIn_succ] at *
    split
    · rename_i hb
      rw [if_pos hb] at h
      rw [tablesAt, tablesAt, h pte.ppn (self_mem_tablesAt level pte.ppn)]
      congr 1
      refine flatMap_congr fun idx hidx => ih ?_
      exact h.mono fun f => mem_tablesAt_of_mem (mem_range.mp hidx)
    · rfl

theorem leafIn_congr {level : ℕ} (h : t.SameOn t' (tablesIn A t level pte)) :
    leafIn A t' level pte vpn = leafIn A t level pte vpn := by
  induction level generalizing pte with
  | zero => rfl
  | succ level ih =>
    rw [tablesIn_succ] at h
    rw [leafIn_succ, leafIn_succ]
    split
    · rename_i hb
      rw [if_pos hb] at h
      rw [leafAt, leafAt, h pte.ppn (self_mem_tablesAt level pte.ppn)]
      exact ih (h.mono fun f => mem_tablesAt_of_mem (A.index_lt level vpn))
    · rfl

theorem reachIn_le (floor level : ℕ) (pte : Pte) (vpn : ℕ) :
    (reachIn A t floor level pte vpn).1 ≤ level := by
  induction level generalizing pte with
  | zero => exact le_rfl
  | succ level ih =>
    rw [reachIn]
    split
    · exact le_rfl
    · exact (ih _).trans (Nat.le_succ level)

theorem reachIn_congr {floor level : ℕ} (h : t.SameOn t' (tablesIn A t level pte)) :
    reachIn A t' floor level pte vpn = reachIn A t floor level pte vpn := by
  induction level generalizing pte with
  | zero => rfl
  | succ level ih =>
    rw [reachIn, reachIn]
    split
    · rfl
    · rename_i hgo
      have hb : pte.isBranch = true := by
        by_contra hb
        exact hgo (.inr (by simpa using hb))
      rw [tablesIn_succ, if_pos hb] at h
      rw [h pte.ppn (self_mem_tablesAt level pte.ppn)]
      exact ih (h.mono fun f => mem_tablesAt_of_mem (A.index_lt level vpn))

theorem ShapedIn.congr (hshaped : ShapedIn A t base level pte)
    (h : t.SameOn t' (tablesIn A t level pte)) :
    ShapedIn A t' base level pte := by
  induction level generalizing pte with
  | zero => exact hshaped
  | succ level ih =>
    rw [shapedIn_succ] at hshaped ⊢
    refine hshaped.imp_right (Or.imp_right ?_)
    rintro ⟨hb, hbelow⟩
    rw [tablesIn_succ, if_pos hb] at h
    refine ⟨hb, fun idx hidx => ?_⟩
    rw [h pte.ppn (self_mem_tablesAt level pte.ppn)]
    exact ih (hbelow idx hidx) (h.mono fun f => mem_tablesAt_of_mem hidx)

/-- An edit of a tree with the tables `fs`, which ends with the tables `fs'`: it takes the
frames `used`, gives up the frames `out` and writes nowhere else. -/
structure Edits (t t' : Tables) (fs fs' used out : List ℕ) : Prop where
  frame : ∀ f ∉ fs, f ∉ used → t'.entries f = t.entries f
  perm : (fs ++ used).Perm (fs' ++ out)

theorem Edits.refl (t : Tables) (fs : List ℕ) : Edits t t fs fs [] [] := ⟨fun _ _ _ => rfl, .refl _⟩

theorem Edits.trans {t'' : Tables} {fs fs' fs'' out out' : List ℕ}
    (h : Edits t t' fs fs' [] out) (h' : Edits t' t'' fs' fs'' [] out') :
    Edits t t'' fs fs'' [] (out ++ out') := by
  have hperm := h.perm
  have hperm' := h'.perm
  rw [append_nil] at hperm hperm'
  refine ⟨fun f hf _ => ?_, ?_⟩
  · have hf' : f ∉ fs' := fun hmem => hf (hperm.mem_iff.mpr (mem_append_left _ hmem))
    rw [h'.frame f hf' not_mem_nil, h.frame f hf not_mem_nil]
  · rw [append_nil]
    refine (hperm.trans (hperm'.append_right out)).trans ?_
    rw [append_assoc]
    exact perm_append_comm.append_left fs''

def restAt (A : PagingArch) (t : Tables) (level dir i : ℕ) : List ℕ :=
  ((List.range A.ptePerPgdir).erase i).flatMap fun j => tablesIn A t level (t.entries dir j)

theorem tablesAt_perm (t : Tables) (level dir : ℕ) (hi : i < A.ptePerPgdir) :
    (t.tablesAt A level dir).Perm
      (dir :: (tablesIn A t level (t.entries dir i) ++ restAt A t level dir i)) := by
  refine List.Perm.cons dir ?_
  have hsplit := perm_cons_erase (mem_range.mpr hi)
  exact hsplit.flatMap_right _

theorem mem_restAt {level j f : ℕ} (hj : j < A.ptePerPgdir) (hij : j ≠ i)
    (hf : f ∈ tablesIn A t level (t.entries dir j)) : f ∈ restAt A t level dir i :=
  mem_flatMap.mpr ⟨j, (mem_erase_of_ne hij).mpr (mem_range.mpr hj), hf⟩

/-- A table is none of those below its entries, and those are distinct as well. -/
theorem nodup_entry {level : ℕ} (hi : i < A.ptePerPgdir) (h : (t.tablesAt A level dir).Nodup) :
    dir ∉ tablesIn A t level (t.entries dir i) ∧ (tablesIn A t level (t.entries dir i)).Nodup := by
  have hsplit := nodup_cons.mp ((tablesAt_perm t level dir hi).nodup_iff.mp h)
  exact ⟨fun hmem => hsplit.1 (mem_append_left _ hmem),
    hsplit.2.sublist (sublist_append_left _ _)⟩

/-- **an edit of the tree of one entry.**  It is an edit of the table, and the other
entries and their trees are as before. -/
theorem edits_of_slot {level : ℕ} {used out : List ℕ} (hi : i < A.ptePerPgdir)
    (hnodup : (t.tablesAt A level dir ++ used).Nodup)
    (hframe : ∀ f j, ¬ (f = dir ∧ j = i) → f ∉ tablesIn A t level (t.entries dir i) → f ∉ used →
      t'.entries f j = t.entries f j)
    (hperm : (tablesIn A t level (t.entries dir i) ++ used).Perm
      (tablesIn A t' level (t'.entries dir i) ++ out)) :
    Edits t t' (t.tablesAt A level dir) (t'.tablesAt A level dir) used out ∧
      ∀ j < A.ptePerPgdir, j ≠ i → t'.entries dir j = t.entries dir j ∧
        t.SameOn t' (tablesIn A t level (t.entries dir j)) := by
  have hsplit : (dir :: (tablesIn A t level (t.entries dir i) ++ restAt A t level dir i)
      ++ used).Nodup := ((tablesAt_perm t level dir hi).append_right used).nodup_iff.mp hnodup
  simp only [cons_append, append_assoc, nodup_cons, nodup_append, mem_append, not_or] at hsplit
  obtain ⟨⟨hdir, hdirRest, hdirUsed⟩, -, ⟨-, -, hrestUsed⟩, hslot⟩ := hsplit
  have hother : ∀ j < A.ptePerPgdir, j ≠ i → t'.entries dir j = t.entries dir j ∧
      t.SameOn t' (tablesIn A t level (t.entries dir j)) := by
    intro j hj hij
    refine ⟨hframe dir j (fun h => hij h.2) hdir hdirUsed, fun f hf => ?_⟩
    have hrest := mem_restAt hj hij hf
    funext k
    refine hframe f k ?_ ?_ ?_
    · rintro ⟨rfl, -⟩
      exact hdirRest hrest
    · intro hmem
      exact hslot f hmem f (.inl hrest) rfl
    · intro hmem
      exact hrestUsed f hrest f hmem rfl
  have hrest : restAt A t' level dir i = restAt A t level dir i := by
    refine flatMap_congr fun j hj => ?_
    have hmem := (List.Nodup.mem_erase_iff nodup_range).mp hj
    obtain ⟨hentry, hsame⟩ := hother j (mem_range.mp hmem.2) hmem.1
    rw [hentry]
    exact tablesIn_congr hsame
  refine ⟨⟨fun f hf hused => ?_, ?_⟩, hother⟩
  · funext j
    refine hframe f j ?_ (fun hmem => hf (mem_tablesAt_of_mem hi hmem)) hused
    rintro ⟨rfl, -⟩
    exact hf (self_mem_tablesAt level f)
  · have hbefore := (tablesAt_perm t level dir hi).append_right used
    have hafter := (tablesAt_perm t' level dir hi).append_right out
    refine hbefore.trans (List.Perm.trans ?_ hafter.symm)
    rw [hrest, cons_append, cons_append]
    refine List.Perm.cons dir ?_
    rw [append_assoc, append_assoc]
    refine (perm_append_comm.append_left _).trans ?_
    refine List.Perm.trans ?_ (perm_append_comm.append_left _)
    rw [← append_assoc, ← append_assoc]
    exact hperm.append_right _

/-- **an edit of a table is an edit of the table that points to it**, whose own entries
stay. -/
theorem edits_of_below {level : ℕ} {used out : List ℕ} (hi : i < A.ptePerPgdir)
    (hnodup : (t.tablesAt A (level + 1) dir ++ used).Nodup) (he : t.entries dir i = pte)
    (hb : pte.isBranch = true)
    (h : Edits t t' (t.tablesAt A level pte.ppn) (t'.tablesAt A level pte.ppn) used out) :
    t'.entries dir = t.entries dir ∧
      Edits t t' (t.tablesAt A (level + 1) dir) (t'.tablesAt A (level + 1) dir) used out ∧
      ∀ j < A.ptePerPgdir, j ≠ i → t'.entries dir j = t.entries dir j ∧
        t.SameOn t' (tablesIn A t (level + 1) (t.entries dir j)) := by
  subst he
  have htables : ∀ s : Tables, tablesIn A s (level + 1) (t.entries dir i) =
      s.tablesAt A level (t.entries dir i).ppn := fun s => by rw [tablesIn_succ, if_pos hb]
  rw [← htables, ← htables] at h
  have hdir : t'.entries dir = t.entries dir :=
    h.frame dir (nodup_entry hi (nodup_append.mp hnodup).1).1
      (disjoint_of_nodup_append hnodup (self_mem_tablesAt (level + 1) dir))
  obtain ⟨hedits, hother⟩ := edits_of_slot hi hnodup
    (fun f j _ hf hused => by rw [h.frame f hf hused]) (by rw [hdir]; exact h.perm)
  exact ⟨hdir, hedits, hother⟩

theorem leafAt_of_other {level : ℕ}
    (h : t'.entries dir (A.index level vpn) = t.entries dir (A.index level vpn) ∧
      t.SameOn t' (tablesIn A t level (t.entries dir (A.index level vpn)))) :
    t'.leafAt A level dir vpn = t.leafAt A level dir vpn := by
  rw [leafAt, leafAt, h.1]
  exact leafIn_congr h.2

end Tables

/-- a page table that keeps its frames, or gives some up, stays in order. -/
theorem Intact.of_perm {A : PagingArch} {base : Pte → Prop} {root : ℕ} {t t' : Tables}
    {more : List ℕ} (h : Intact A base root t)
    (hshaped : t'.ShapedAt A base (A.pageLevels - 1) root)
    (hperm : (t.tablesAt A (A.pageLevels - 1) root ++ t.free).Perm
      ((t'.tablesAt A (A.pageLevels - 1) root ++ t'.free) ++ more)) : Intact A base root t' where
  shaped := hshaped
  nodup := (hperm.nodup_iff.mp h.nodup).sublist (sublist_append_left _ _)
  fits f hf := h.fits f (hperm.mem_iff.mpr (mem_append_left _ hf))

namespace Mapper

variable {A : PagingArch} {root : ℕ} {t : Tables} {range : VirtPageRange}

theorem translateAt_eq (t : Tables) (level dir vpn : ℕ) :
    translateAt A t level dir vpn = (t.leafAt A level dir vpn).map fun leaf =>
      ⟨leaf.pte.ppn + vpn % A.levelPages leaf.level, leaf.pte.flags.sansValid⟩ := by
  induction level generalizing dir with
  | zero =>
    simp only [translateAt, leafAt, leafIn]
    by_cases hleaf : (t.entries dir (A.index 0 vpn)).isLeaf = true
    · simp [hleaf, Pte.isBranch_of_isLeaf hleaf, Nat.mod_one]
    · simp [hleaf]
  | succ level ih =>
    rw [leafAt, leafIn_succ]
    simp only [translateAt]
    split
    · exact ih _
    · split <;> rfl

theorem translate_eq (root : ℕ) (t : Tables) (vpn : ℕ) :
    translate A root t vpn = (leafOf A root t vpn).map fun leaf =>
      ⟨leaf.pte.ppn + vpn % A.levelPages leaf.level, leaf.pte.flags.sansValid⟩ :=
  translateAt_eq t _ root vpn

theorem translate_congr {t' : Tables} (h : leafOf A root t' vpn = leafOf A root t vpn) :
    translate A root t' vpn = translate A root t vpn := by
  rw [translate_eq, translate_eq, h]

theorem levels_succ (A : PagingArch) : A.pageLevels - 1 + 1 = A.pageLevels :=
  Nat.sub_add_cancel A.levels_pos

theorem leafOf_level_lt (h : leafOf A root t vpn = some leaf) :
    leaf.level < A.pageLevels := by
  have hle := (leafIn_level_le h).1
  have := A.levels_pos
  omega

theorem leafOf_of_sameEntry (h : leafOf A root t v = some leaf) (hsame : SameEntry A leaf.level v w) :
    leafOf A root t w = some leaf := by
  refine leafAt_of_agree h ?_
  rw [levels_succ]
  exact hsame

theorem leafOf_congr (t : Tables) (h : v ≡ w [MOD 2 ^ A.vpnBits]) :
    leafOf A root t v = leafOf A root t w := by
  have hsame : ∀ l, SameEntry A l v w := fun l k _ hk => digit_congr h hk
  cases hleaf : leafOf A root t v with
  | some leaf => exact (leafOf_of_sameEntry hleaf (hsame leaf.level)).symm
  | none =>
    cases hleaf' : leafOf A root t w with
    | none => rfl
    | some leaf =>
      rw [leafOf_of_sameEntry hleaf' (hsame leaf.level).symm] at hleaf
      cases hleaf

/-- **the pages of a leaf lie in those of an entry above it.** -/
theorem leafRange_within {level : ℕ} (hl : l ≤ level) (hlevel : level < A.pageLevels) (vpn : ℕ) :
    ∃ r, r + A.levelPages l ≤ A.levelPages level ∧
      (leafRange A l vpn).start = (leafRange A level vpn).start + r := by
  have hpos := A.levelPages_pos level
  have hposl := A.levelPages_pos l
  obtain ⟨q, hq⟩ := A.levelPages_dvd hl
  refine ⟨vpn % A.levelPages level / A.levelPages l * A.levelPages l, ?_, ?_⟩
  · have hlt : vpn % A.levelPages level / A.levelPages l < q := by
      rw [Nat.div_lt_iff_lt_mul hposl, Nat.mul_comm q, ← hq]
      exact Nat.mod_lt _ hpos
    calc vpn % A.levelPages level / A.levelPages l * A.levelPages l + A.levelPages l
        = (vpn % A.levelPages level / A.levelPages l + 1) * A.levelPages l := by ring
      _ ≤ q * A.levelPages l := Nat.mul_le_mul_right _ hlt
      _ = A.levelPages level := by rw [hq, Nat.mul_comm]
  · have hlt : vpn % A.levelPages level / A.levelPages l * A.levelPages l < A.levelPages level :=
      (Nat.div_mul_le_self _ _).trans_lt (Nat.mod_lt _ hpos)
    have hsplit : vpn / A.levelPages l * A.levelPages l
        = vpn / A.levelPages level * A.levelPages level
          + vpn % A.levelPages level / A.levelPages l * A.levelPages l := by
      have hdvd : A.levelPages l ∣ vpn / A.levelPages level * A.levelPages level :=
        (A.levelPages_dvd hl).mul_left _
      conv_lhs => rw [← Nat.div_add_mod' vpn (A.levelPages level)]
      rw [Nat.add_div_of_dvd_right hdvd, Nat.add_mul, Nat.div_mul_cancel hdvd]
    simp only [leafRange]
    rw [hsplit]
    exact signExtend_add (A.level_bits_lt hlevel) (Dvd.intro_left _ rfl) hlt

@[simp] theorem leafRange_npages (level vpn : ℕ) :
    (leafRange A level vpn).npages = A.levelPages level := rfl

theorem leafRange_zero_start (vpn : ℕ) :
    (leafRange A 0 vpn).start = A.canonicalizeVpn vpn := by
  simp [leafRange]

theorem intersects_of_covers {level : ℕ} (hl : l ≤ level) (hlevel : level < A.pageLevels)
    (h : range.covers (leafRange A l vpn)) :
    range.intersects (leafRange A level vpn) := by
  obtain ⟨r, hr, hstart⟩ := leafRange_within hl hlevel vpn
  have hpos := A.levelPages_pos l
  simp only [VirtPageRange.covers, VirtPageRange.intersects, VirtPageRange.stop,
    leafRange_npages] at *
  omega

theorem contains_of_covers {level : ℕ} (hlevel : level < A.pageLevels)
    (h : range.covers (leafRange A level vpn)) : range.contains (A.canonicalizeVpn vpn) := by
  obtain ⟨r, hr, hstart⟩ := leafRange_within (Nat.zero_le level) hlevel vpn
  rw [leafRange_zero_start] at hstart
  simp only [VirtPageRange.covers, VirtPageRange.contains, VirtPageRange.stop, leafRange_npages,
    PagingArch.levelPages_zero] at *
  omega

end Mapper

end Anemone.Paging
