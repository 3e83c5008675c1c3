import Anemone.Analysis.TableEdits

/-!
# One mapping

`map_one_commit` writes one leaf, and tables on the way to it.  The contract of the walk is an
induction over the levels that are left: the level is reached, a table is there, or a new one
replaces the entry.
-/

namespace Anemone.Paging

open Uspace (SysError LeafPteCommit)
open Radix (Agree agree_succ agree_self)
open Tables Pte List

variable {ppn dir : ℕ} {t t' : Tables}

namespace Tables

theorem allocFrameZeroed_eq_some (h : t.allocFrameZeroed = some (ppn, t')) :
    t.free = ppn :: t'.free ∧
      ∀ f i, t'.entries f i = if f = ppn then .zeroed else t.entries f i := by
  unfold allocFrameZeroed at h
  split at h
  · cases h
  · cases h
    exact ⟨by assumption, fun _ _ => rfl⟩

theorem allocFrameZeroed_eq_none (h : t.allocFrameZeroed = none) : t.free = [] := by
  unfold allocFrameZeroed at h
  split at h
  · assumption
  · cases h

@[simp] theorem set_free (t : Tables) (dir idx : ℕ) (pte : Pte) :
    (t.set dir idx pte).free = t.free := rfl

theorem set_entries (t : Tables) (dir idx f i : ℕ) (pte : Pte) :
    (t.set dir idx pte).entries f i = if f = dir ∧ i = idx then pte else t.entries f i := rfl

@[simp] theorem set_entries_self (t : Tables) (dir idx : ℕ) (pte : Pte) :
    (t.set dir idx pte).entries dir idx = pte := if_pos ⟨rfl, rfl⟩

variable {A : PagingArch}

/-- Below a table without entries there is no table, -/
theorem tablesAt_of_zeroed (h : ∀ idx < A.ptePerPgdir, t.entries dir idx = .zeroed) (level : ℕ) :
    t.tablesAt A level dir = [dir] := by
  refine congrArg _ (flatMap_eq_nil_iff.mpr fun idx hidx => ?_)
  rw [h idx (mem_range.mp hidx), tablesIn_zeroed]

/-- and no leaf, -/
theorem leafAt_of_zeroed (h : ∀ idx < A.ptePerPgdir, t.entries dir idx = .zeroed)
    (level vpn : ℕ) : t.leafAt A level dir vpn = none := by
  rw [leafAt, h _ (A.index_lt level vpn), leafIn_zeroed]

/-- and every walk ends there. -/
theorem reachAt_of_zeroed (h : ∀ idx < A.ptePerPgdir, t.entries dir idx = .zeroed)
    (floor level vpn : ℕ) : t.reachAt A floor level dir vpn = (level, .zeroed) := by
  rw [reachAt, h _ (A.index_lt level vpn)]
  cases level with
  | zero => rfl
  | succ level => exact if_pos (.inr rfl)

/-- the walk ends at the level with the entry it finds there. -/
theorem reachAt_self (t : Tables) (level dir vpn : ℕ) :
    t.reachAt A level level dir vpn = (level, t.entries dir (A.index level vpn)) := by
  rw [reachAt]
  cases level with
  | zero => rfl
  | succ level => exact if_pos (.inl rfl)

/-- the walk goes on in a table, and only there. -/
theorem reachAt_succ {level levelAt : ℕ} (h : levelAt ≤ level) (t : Tables) (dir vpn : ℕ) :
    t.reachAt A levelAt (level + 1) dir vpn =
      if (t.entries dir (A.index (level + 1) vpn)).isBranch then
        t.reachAt A levelAt level (t.entries dir (A.index (level + 1) vpn)).ppn vpn
      else (level + 1, t.entries dir (A.index (level + 1) vpn)) := by
  have hne : level + 1 ≠ levelAt := by omega
  rw [reachAt, reachIn]
  simp only [hne, false_or, Bool.not_eq_true']
  split
  · rename_i hb
    rw [if_neg (by simp [hb])]
  · rename_i hb
    rw [if_pos (by simpa using hb)]
    rfl

theorem shapedIn_zeroed {base : Pte → Prop} (hbase : base .zeroed) (level : ℕ) :
    ShapedIn A t base level .zeroed := by
  cases level with
  | zero => exact hbase
  | succ level => exact .inl rfl

end Tables

namespace PagingArch

variable (A : PagingArch)

theorem newPte_branch_ppn (h : ppn < 2 ^ A.ppnBits) (global : Bool) :
    (A.newPte ppn (.branch global)).ppn = ppn := Nat.mod_eq_of_lt h

theorem newPte_branch_isBranch (ppn : ℕ) (global : Bool) :
    (A.newPte ppn (.branch global)).isBranch = true := by
  simp only [newPte, isBranch, isLeaf, isValid, A.encode_valid, A.encode_isLeaf]
  rfl

theorem newPte_isLeaf (ppn : ℕ) (flags : PteFlags) :
    (A.newPte ppn flags.asValid).isLeaf = flags.isLeaf := by
  simp only [newPte, isLeaf, isValid, A.encode_valid, A.encode_isLeaf]
  rfl

theorem newPte_isValid (ppn : ℕ) (flags : PteFlags) :
    (A.newPte ppn flags.asValid).isValid = true := by
  rw [isValid, newPte, A.encode_valid]
  rfl

end PagingArch

namespace Mapper

variable {A : PagingArch} {base : Pte → Prop} {vpn levelAt v : ℕ} {new : Pte} {overwrite : Bool}
  {level dir : ℕ} {t t' t₁ : Tables} {result : Except SysError LeafPteCommit} {flags : PteFlags}

/-- What is left of the leaf over a page when one of its pages gets a leaf of a lower level. -/
def beside (levelAt levels vpn v : ℕ) : Option Leaf → Option Leaf
  | none => none
  | some leaf =>
    if levelAt < leaf.level ∧ Agree A.pgdirIdxBits leaf.level levels v vpn then none
    else some leaf

def written (levelAt : ℕ) (new : Pte) : Option Leaf :=
  if new.isLeaf then some ⟨levelAt, new⟩ else none

/-- What a new leaf does to a walk: the tables above it are there, and its entry is valid. -/
structure Walked (A : PagingArch) (levelAt levels vpn v : ℕ) (old new : ℕ × Pte) : Prop where
  level : ∀ l, levelAt ≤ l → (l < new.1 ↔ l < old.1 ∧ ¬ Agree A.pgdirIdxBits (l + 1) levels v vpn)
  valid : new.2.isValid = true ↔
    old.2.isValid = true ∨ Agree A.pgdirIdxBits levelAt levels v vpn

/-- What a call does for one page: to the leaf over it and to the end of its walk. -/
structure PageSpec (A : PagingArch) (vpn levelAt : ℕ) (new : Pte) (overwrite : Bool)
    (result : Except SysError LeafPteCommit) (levels v : ℕ) (old old' : Option Leaf)
    (reach reach' : ℕ × Pte) : Prop where
  leaf : ∀ commit, result = .ok commit → old' =
    if Agree A.pgdirIdxBits levelAt levels v vpn then written levelAt new
    else beside (A := A) levelAt levels vpn v old
  vacant : ∀ commit, result = .ok commit → overwrite = false →
    Agree A.pgdirIdxBits levelAt levels v vpn → old = none
  failed : ∀ e, result = .error e → overwrite = false → old' = old
  walks : ∀ commit, result = .ok commit → overwrite = false →
    Walked A levelAt levels vpn v reach reach'

/-- The contract of the walk in a table of some level. -/
structure OneSpec (A : PagingArch) (base : Pte → Prop) (vpn levelAt : ℕ) (new : Pte)
    (overwrite : Bool) (level dir : ℕ) (t t' : Tables)
    (result : Except SysError LeafPteCommit) : Prop where
  edits : ∃ used out, t.free = used ++ t'.free ∧
    Tables.Edits t t' (t.tablesAt A level dir) (t'.tablesAt A level dir) used out
  shaped : t.ShapedAt A base level dir → t'.ShapedAt A base level dir
  page : ∀ v, PageSpec A vpn levelAt new overwrite result (level + 1) v (t.leafAt A level dir v)
    (t'.leafAt A level dir v) (t.reachAt A levelAt level dir v) (t'.reachAt A levelAt level dir v)

/-- A refused walk has changed nothing. -/
theorem OneSpec.refused (e : SysError) :
    OneSpec A base vpn levelAt new overwrite level dir t t (.error e) where
  edits := ⟨[], [], rfl, .refl _ _⟩
  shaped := id
  page _ := ⟨nofun, nofun, fun _ _ _ => rfl, nofun⟩

/-- Two pages have the same entry in a table if they agree in its digit. -/
theorem agree_top :
    Agree A.pgdirIdxBits level (level + 1) v vpn ↔ A.index level v = A.index level vpn := by
  rw [agree_succ le_rfl, A.index_eq_digit, A.index_eq_digit]
  exact and_iff_left (agree_self _ _ _ _)

/-- Below an entry they agree as well if they have the same one. -/
theorem agree_below {l level : ℕ} (h : l ≤ level) : Agree A.pgdirIdxBits l (level + 1) v vpn ↔
      A.index level v = A.index level vpn ∧ Agree A.pgdirIdxBits l level v vpn := by
  rw [agree_succ h, A.index_eq_digit, A.index_eq_digit]

theorem agree_above {l : ℕ} (hl : l ≤ level) (hv : A.index level v = A.index level vpn) :
    Agree A.pgdirIdxBits l (level + 1) v vpn ↔ Agree A.pgdirIdxBits l level v vpn :=
  (agree_below hl).trans (and_iff_right hv)

/-- nothing changes for the pages of another entry. -/
theorem pageSpec_of_ne (hat : levelAt ≤ level) (hv : A.index level v ≠ A.index level vpn)
    (hother : t'.entries dir (A.index level v) = t.entries dir (A.index level v) ∧
      t.SameOn t' (tablesIn A t level (t.entries dir (A.index level v)))) :
    PageSpec A vpn levelAt new overwrite result (level + 1) v (t.leafAt A level dir v)
      (t'.leafAt A level dir v) (t.reachAt A levelAt level dir v)
      (t'.reachAt A levelAt level dir v) := by
  have hno : ∀ l ≤ level, ¬ Agree A.pgdirIdxBits l (level + 1) v vpn :=
    fun l hl hag => hv ((agree_below hl).mp hag).1
  have hsame := leafAt_of_other hother
  refine ⟨fun _ _ => ?_, fun _ _ _ hag => absurd hag (hno levelAt hat), fun _ _ _ => hsame,
    fun _ _ _ => ?_⟩
  · rw [if_neg (hno levelAt hat), hsame]
    cases hleaf : t.leafAt A level dir v with
    | none => rfl
    | some leaf => exact (if_neg fun h => hno leaf.level (leafIn_level_le hleaf).1 h.2).symm
  · rw [reachAt, reachAt, hother.1, reachIn_congr hother.2]
    refine ⟨fun l _ => (and_iff_left_of_imp fun hl => hno (l + 1) ?_).symm,
      (or_iff_left (hno levelAt hat)).symm⟩
    exact Nat.lt_of_lt_of_le hl (reachIn_le levelAt level _ v)

/-- what lies below an entry is not changed by one more digit in common. -/
theorem PageSpec.up {old old' : Option Leaf} {reach reach' : ℕ × Pte}
    (hv : A.index level v = A.index level vpn) (hat : levelAt ≤ level)
    (hold : ∀ leaf, old = some leaf → leaf.level ≤ level) (hreach : reach.1 < level)
    (h : PageSpec A vpn levelAt new overwrite result level v old old' reach reach') :
    PageSpec A vpn levelAt new overwrite result (level + 1) v old old' reach reach' := by
  refine ⟨fun c hc => ?_, fun c hc how hag => h.vacant c hc how ((agree_above hat hv).mp hag),
    h.failed, fun c hc how => ?_⟩
  · rw [h.leaf c hc]
    simp only [agree_above hat hv]
    congr 1
    cases old with
    | none => rfl
    | some leaf => simp only [beside, agree_above (hold leaf rfl) hv]
  · obtain ⟨hlevel, hvalid⟩ := h.walks c hc how
    refine ⟨fun l hl => (hlevel l hl).trans (and_congr_right fun hl' => ?_), ?_⟩
    · rw [agree_above (by omega) hv]
    · rw [hvalid, agree_above hat hv]

/-- the frames of a table and the free ones, split at one entry. -/
theorem nodup_slot {i : ℕ} (hi : i < A.ptePerPgdir)
    (hnodup : (t.tablesAt A level dir ++ t.free).Nodup) :
    dir ∉ t.free ∧ dir ∉ tablesIn A t level (t.entries dir i) ∧
      (tablesIn A t level (t.entries dir i) ++ t.free).Nodup := by
  have hperm := (tablesAt_perm t level dir hi).append_right t.free
  have hsplit := hperm.nodup_iff.mp hnodup
  rw [cons_append, nodup_cons, append_assoc] at hsplit
  simp only [mem_append, not_or] at hsplit
  refine ⟨hsplit.1.2.2, hsplit.1.1, hsplit.2.sublist ?_⟩
  exact (List.Sublist.refl _).append (sublist_append_right _ _)

/-- The frames of a table and those that are taken from the free ones. -/
theorem nodup_used {used : List ℕ} (hnodup : (t.tablesAt A level dir ++ t.free).Nodup)
    (hfree : t.free = used ++ t'.free) : (t.tablesAt A level dir ++ used).Nodup := by
  rw [hfree, ← append_assoc] at hnodup
  exact hnodup.sublist (sublist_append_left _ _)

section Slot

variable {e e' : Pte} (hnodup : (t.tablesAt A level dir ++ t.free).Nodup)
  (he : t.entries dir (A.index level vpn) = e)

include he

/-- the contract in a table follows from what happens in the tree of the entry on the
way, if everything else is left alone. -/
theorem OneSpec.ofSlot {used : List ℕ} (out : List ℕ) (hat : levelAt ≤ level)
    (he' : t'.entries dir (A.index level vpn) = e') (hfree : t.free = used ++ t'.free)
    (hedits : Tables.Edits t t' (t.tablesAt A level dir) (t'.tablesAt A level dir) used out ∧
      ∀ j < A.ptePerPgdir, j ≠ A.index level vpn → t'.entries dir j = t.entries dir j ∧
        t.SameOn t' (tablesIn A t level (t.entries dir j)))
    (hshaped : ShapedIn A t base level e → ShapedIn A t' base level e')
    (hpage : ∀ v, A.index level v = A.index level vpn →
      PageSpec A vpn levelAt new overwrite result (level + 1) v (t.leafAt A level dir v)
        (t'.leafAt A level dir v) (t.reachAt A levelAt level dir v)
        (t'.reachAt A levelAt level dir v)) :
    OneSpec A base vpn levelAt new overwrite level dir t t' result := by
  subst he he'
  obtain ⟨hedits, hother⟩ := hedits
  refine ⟨⟨used, out, hfree, hedits⟩, fun hsh idx hidx => ?_, fun v => ?_⟩
  · by_cases hidx' : idx = A.index level vpn
    · subst hidx'
      exact hshaped (hsh _ hidx)
    · obtain ⟨hentry, hsame⟩ := hother idx hidx hidx'
      rw [hentry]
      exact (hsh idx hidx).congr hsame
  · by_cases hv : A.index level v = A.index level vpn
    · exact hpage v hv
    · exact pageSpec_of_ne hat hv (hother _ (A.index_lt level v) hv)

include hnodup in
/-- **the level is reached** and the leaf written over the entry.  The tables below the
entry, if there were any, are given up. -/
theorem OneSpec.writesLeaf (hnew : new.isLeaf = true ∨ level = 0)
    (hshaped : ∀ t : Tables, Tables.ShapedIn A t base level new)
    (hfree : overwrite = false → e.isValid = false) (hvalid : new.isValid = true)
    (commit : LeafPteCommit) :
    OneSpec A base vpn level new overwrite level dir t
      (t.set dir (A.index level vpn) new) (.ok commit) := by
  have hbare : ∀ t : Tables, tablesIn A t level new = [] := by
    intro t
    rcases hnew with hleaf | rfl
    · exact tablesIn_of_not_isBranch (isBranch_of_isLeaf hleaf) level
    · rfl
  have hwritten : ∀ (t : Tables) (v : ℕ), leafIn A t level new v = written level new := by
    intro t v
    by_cases hleaf : new.isLeaf = true
    · rw [leafIn_of_isLeaf hleaf, written, if_pos hleaf]
    · obtain rfl := hnew.resolve_left hleaf
      simp [leafIn, written, hleaf]
  have hperm : (tablesIn A t level (t.entries dir (A.index level vpn)) ++ []).Perm
      (tablesIn A (t.set dir (A.index level vpn) new) level
        ((t.set dir (A.index level vpn) new).entries dir (A.index level vpn)) ++
          tablesIn A t level e) := by
    rw [set_entries_self, hbare, he, append_nil, nil_append]
  refine OneSpec.ofSlot he (tablesIn A t level e) le_rfl (set_entries_self _ _ _ _) (nil_append _).symm
    (edits_of_slot (A.index_lt level vpn) ?_ (fun f j hslot _ _ => if_neg hslot) hperm)
    (fun _ => hshaped _) fun v hv => ?_
  · rw [append_nil]
    exact (nodup_append.mp hnodup).1
  · refine ⟨fun _ _ => ?_, fun _ _ how _ => ?_, by rintro _ ⟨⟩, fun _ _ _ => ?_⟩
    · rw [if_pos (agree_top.mpr hv), leafAt, hv, set_entries_self, hwritten]
    · rw [leafAt, hv, he]
      exact leafIn_of_not_isValid (hfree how) level v
    · rw [reachAt_self, reachAt_self, hv, set_entries_self]
      refine ⟨fun l hl => ?_, iff_of_true hvalid (.inr (agree_top.mpr hv))⟩
      exact iff_of_false hl.not_gt fun h => hl.not_gt h.1

end Slot

section Below

variable {e : Pte} (hat : levelAt ≤ level)
  (hnodup : (t.tablesAt A (level + 1) dir ++ t.free).Nodup)
  (he : t.entries dir (A.index (level + 1) vpn) = e)

include hat hnodup he

/-- **a table is there** and the walk goes on in it. -/
theorem OneSpec.through (hbranch : e.isBranch = true)
    (ih : OneSpec A base vpn levelAt new overwrite level e.ppn t t' result) :
    OneSpec A base vpn levelAt new overwrite (level + 1) dir t t' result := by
  obtain ⟨used, out, hfree, hedits⟩ := ih.edits
  obtain ⟨hdir, hedits⟩ := edits_of_below (A.index_lt (level + 1) vpn)
    (nodup_used hnodup hfree) he hbranch hedits
  refine OneSpec.ofSlot he out (hat.trans (Nat.le_succ level)) (hdir ▸ he) hfree hedits
    (fun hsh => ?_) fun v hv => ?_
  · exact .inr (.inr ⟨hbranch, ih.shaped (hsh.below hbranch)⟩)
  · have hleafAt : ∀ s : Tables, s.entries dir = t.entries dir →
        s.leafAt A (level + 1) dir v = s.leafAt A level e.ppn v := by
      intro s hs
      rw [leafAt, hv, hs, he, leafIn_succ, if_pos hbranch]
    have hreach : ∀ s : Tables, s.entries dir = t.entries dir →
        s.reachAt A levelAt (level + 1) dir v = s.reachAt A levelAt level e.ppn v := by
      intro s hs
      rw [reachAt_succ hat, hv, hs, he, if_pos hbranch]
    rw [hleafAt t rfl, hleafAt t' hdir, hreach t rfl, hreach t' hdir]
    refine (ih.page v).up hv (hat.trans (Nat.le_succ level)) (fun leaf hleaf => ?_) ?_
    · exact (leafIn_level_le hleaf).1.trans (Nat.le_succ level)
    · exact Nat.lt_succ_of_le (reachIn_le levelAt level _ v)

omit hat he in
/-- a new table is empty, and a table of its own. -/
theorem new_table (idx : ℕ) (branch : Pte) {newPpn : ℕ}
    (halloc : t.allocFrameZeroed = some (newPpn, t₁)) :
    newPpn ≠ dir ∧ (∀ i < A.ptePerPgdir, (t₁.set dir idx branch).entries newPpn i = .zeroed) ∧
      ((t₁.set dir idx branch).tablesAt A level newPpn ++ t₁.free).Nodup := by
  obtain ⟨hfree, hentries⟩ := allocFrameZeroed_eq_some halloc
  have hne : newPpn ≠ dir := by
    rintro rfl
    rw [hfree] at hnodup
    have := disjoint_of_nodup_append hnodup (self_mem_tablesAt (level + 1) newPpn)
    exact this mem_cons_self
  have hzero : ∀ i < A.ptePerPgdir, (t₁.set dir idx branch).entries newPpn i = .zeroed := by
    intro i _
    rw [set_entries, if_neg fun h => hne h.1, hentries, if_pos rfl]
  refine ⟨hne, hzero, ?_⟩
  rw [tablesAt_of_zeroed hzero, singleton_append, ← hfree]
  exact hnodup.sublist (sublist_append_right _ _)

/-- **no table is there** and a free frame becomes one.  It replaces the entry, and with
it a leaf over more pages than the request if the caller overwrites. -/
theorem OneSpec.throughNew {branch : Pte} (hbase : base .zeroed) (hentry : e.isBranch = false)
    (hfits : overwrite = false → e.isLeaf = false)
    (halloc : t.allocFrameZeroed = some (ppn, t₁)) (hbranch : branch.isBranch = true)
    (hppn : branch.ppn = ppn)
    (ih : OneSpec A base vpn levelAt new overwrite level ppn
      (t₁.set dir (A.index (level + 1) vpn) branch) t' result) :
    OneSpec A base vpn levelAt new overwrite (level + 1) dir t t' result := by
  subst hppn
  obtain ⟨hfree, hentries⟩ := allocFrameZeroed_eq_some halloc
  obtain ⟨hdirFree, -, -⟩ := nodup_slot (A.index_lt (level + 1) vpn) hnodup
  obtain ⟨hne, hzero, -⟩ := new_table hnodup (A.index (level + 1) vpn) branch halloc
  set t₂ := t₁.set dir (A.index (level + 1) vpn) branch with ht₂
  obtain ⟨used, out, hfree', hedits⟩ := ih.edits
  have hfree'' : t.free = (branch.ppn :: used) ++ t'.free := by
    rw [hfree, cons_append, ← hfree', ht₂, set_free]
  rw [tablesAt_of_zeroed hzero] at hedits
  have hslot : t'.entries dir (A.index (level + 1) vpn) = branch := by
    rw [hedits.frame dir (by simpa using hne.symm) fun hmem => hdirFree (by
      rw [hfree'']
      exact mem_append_left _ (mem_cons_of_mem _ hmem)), ht₂, set_entries_self]
  refine OneSpec.ofSlot he out (hat.trans (Nat.le_succ level)) hslot hfree''
    (edits_of_slot (A.index_lt (level + 1) vpn) (nodup_used hnodup hfree'')
      (fun f j hslot' _ hf => ?_) ?_) (fun _ => ?_) fun v hv => ?_
  · have hf' : f ≠ branch.ppn ∧ f ∉ used := by simpa using hf
    rw [hedits.frame f (by simpa using hf'.1) hf'.2, ht₂, set_entries, if_neg hslot',
      hentries, if_neg hf'.1]
  · rw [he, hslot, tablesIn_of_not_isBranch hentry, tablesIn_succ, if_pos hbranch]
    exact hedits.perm
  · refine .inr (.inr ⟨hbranch, ih.shaped fun idx hidx => ?_⟩)
    rw [hzero idx hidx]
    exact shapedIn_zeroed hbase level
  · have hpage := ih.page v
    rw [leafAt_of_zeroed hzero, reachAt_of_zeroed hzero] at hpage
    have hold : t.leafAt A (level + 1) dir v =
        if e.isLeaf then some ⟨level + 1, e⟩ else none := by
      rw [leafAt, hv, he, leafIn_succ, hentry, if_neg Bool.false_ne_true]
    rw [hold, leafAt, hv, hslot, leafIn_succ, if_pos hbranch, reachAt_succ hat, reachAt_succ hat,
      hv, he, hslot, if_pos hbranch, hentry, if_neg Bool.false_ne_true]
    have hag := fun {l : ℕ} (hl : l ≤ level + 1) => agree_above (A := A) hl hv
    refine ⟨fun c hc => ?_, fun _ _ how _ => if_neg (by simp [hfits how]), fun e he how => ?_,
      fun c hc how => ?_⟩
    · rw [hpage.leaf c hc]
      simp only [hag (hat.trans (Nat.le_succ level))]
      congr 1
      split
      · -- the leaf that was in the place of the table covered all of the entry
        exact (if_pos ⟨Nat.lt_succ_of_le hat, agree_top.mpr hv⟩).symm
      · rfl
    · rw [hpage.failed e he how, if_neg (by simp [hfits how])]
    · obtain ⟨hlevel, hvalid⟩ := hpage.walks c hc how
      refine ⟨fun l hl => (hlevel l hl).trans ?_, hvalid.trans (or_congr ?_ ?_)⟩
      · rcases Nat.lt_trichotomy l level with hlt | rfl | hgt
        · rw [hag (by omega)]
          exact and_congr_left fun _ => iff_of_true hlt (by omega)
        · exact iff_of_false (fun h => lt_irrefl _ h.1) fun h => h.2 (agree_top.mpr hv)
        · exact iff_of_false (fun h => hgt.not_gt h.1) fun h => by omega
      · have hold := not_isValid_iff.mpr ⟨hentry, hfits how⟩
        exact iff_of_false (by simp [isValid, zeroed, PteFlags.empty]) (by simp [hold])
      · rw [hag (hat.trans (Nat.le_succ level))]

end Below

/-- One walk of `map_one_commit`, from a table of some level on. -/
inductive Descent (A : PagingArch) (vpn ppn : ℕ) (flags : PteFlags) (levelAt : ℕ)
    (overwrite : Bool) :
    ℕ → ℕ → Bool → Tables → Except SysError LeafPteCommit → Tables → Prop
  | present {dir replaced t} (how : overwrite = false)
      (hvalid : (t.entries dir (A.index levelAt vpn)).isValid = true) :
      Descent A vpn ppn flags levelAt overwrite levelAt dir replaced t (.error .alreadyMapped) t
  | write {dir replaced t} (hnodup : (t.tablesAt A levelAt dir ++ t.free).Nodup)
      (hfree : overwrite = false → (t.entries dir (A.index levelAt vpn)).isValid = false) :
      Descent A vpn ppn flags levelAt overwrite levelAt dir replaced t
        (.ok (commitOf replaced (t.entries dir (A.index levelAt vpn)) ppn flags))
        (t.set dir (A.index levelAt vpn) (A.newPte ppn flags.asValid))
  | through {level dir replaced t result t'} (hat : levelAt ≤ level)
      (hnodup : (t.tablesAt A (level + 1) dir ++ t.free).Nodup)
      (hbranch : (t.entries dir (A.index (level + 1) vpn)).isBranch = true)
      (below : Descent A vpn ppn flags levelAt overwrite level
        (t.entries dir (A.index (level + 1) vpn)).ppn replaced t result t') :
      Descent A vpn ppn flags levelAt overwrite (level + 1) dir replaced t result t'
  | covered {level dir replaced t} (hat : levelAt ≤ level) (how : overwrite = false)
      (hleaf : (t.entries dir (A.index (level + 1) vpn)).isLeaf = true) :
      Descent A vpn ppn flags levelAt overwrite (level + 1) dir replaced t
        (.error .alreadyMapped) t
  | full {level dir replaced t} (hat : levelAt ≤ level)
      (hentry : (t.entries dir (A.index (level + 1) vpn)).isBranch = false) (hfree : t.free = []) :
      Descent A vpn ppn flags levelAt overwrite (level + 1) dir replaced t (.error .outOfMemory) t
  | table {level dir replaced t result t' ppn' t₁} (hat : levelAt ≤ level)
      (hnodup : (t.tablesAt A (level + 1) dir ++ t.free).Nodup)
      (hentry : (t.entries dir (A.index (level + 1) vpn)).isBranch = false)
      (hfits : overwrite = false → (t.entries dir (A.index (level + 1) vpn)).isLeaf = false)
      (halloc : t.allocFrameZeroed = some (ppn', t₁))
      (hppn : (A.newPte ppn' (.branch flags.global)).ppn = ppn')
      (below : Descent A vpn ppn flags levelAt overwrite level ppn'
        (replaced || (t.entries dir (A.index (level + 1) vpn)).isValid)
        (t₁.set dir (A.index (level + 1) vpn) (A.newPte ppn' (.branch flags.global))) result t') :
      Descent A vpn ppn flags levelAt overwrite (level + 1) dir replaced t result t'

theorem mapOneAt_self (vpn ppn : ℕ) (flags : PteFlags) (overwrite : Bool) (level dir : ℕ)
    (replaced : Bool) (t : Tables) :
    mapOneAt A vpn ppn flags level overwrite level dir replaced t =
      if (t.entries dir (A.index level vpn)).isValid && !overwrite then
        .ok (.error .alreadyMapped, t)
      else
        .ok (.ok (commitOf replaced (t.entries dir (A.index level vpn)) ppn flags),
          t.set dir (A.index level vpn) (A.newPte ppn flags.asValid)) := by
  unfold mapOneAt
  exact if_pos rfl

theorem descent_self {replaced : Bool} (hnodup : (t.tablesAt A level dir ++ t.free).Nodup)
    (h : mapOneAt A vpn ppn flags level overwrite level dir replaced t = .ok (result, t')) :
    Descent A vpn ppn flags level overwrite level dir replaced t result t' := by
  rw [mapOneAt_self] at h
  split at h
  · rename_i hvalid
    rw [Bool.and_eq_true, Bool.not_eq_true'] at hvalid
    cases h
    exact .present hvalid.2 hvalid.1
  · rename_i hvalid
    cases h
    exact .write hnodup fun how => by simpa [how] using hvalid

/-- the frames that the walk takes are no tables yet, so that it goes down a tree. -/
theorem mapOneAt_descent {level : ℕ} {replaced : Bool} (hat : levelAt ≤ level)
    (hnodup : (t.tablesAt A level dir ++ t.free).Nodup) (hfits : ∀ f ∈ t.free, f < 2 ^ A.ppnBits)
    (h : mapOneAt A vpn ppn flags levelAt overwrite level dir replaced t = .ok (result, t')) :
    Descent A vpn ppn flags levelAt overwrite level dir replaced t result t' := by
  induction level generalizing dir replaced t with
  | zero =>
    obtain rfl : levelAt = 0 := Nat.le_zero.mp hat
    exact descent_self hnodup h
  | succ level ih =>
    by_cases hlevel : level + 1 = levelAt
    · subst hlevel
      exact descent_self hnodup h
    have hat' : levelAt ≤ level := by omega
    have hslot := (nodup_slot (A.index_lt (level + 1) vpn) hnodup).2.2
    rw [mapOneAt] at h
    simp only [if_neg hlevel] at h
    split at h
    · rename_i hbranch
      rw [tablesIn_succ, if_pos hbranch] at hslot
      exact .through hat' hnodup hbranch (ih hat' hslot hfits h)
    · rename_i hbranch
      split at h
      · rename_i hleaf
        cases h
        rw [Bool.and_eq_true, Bool.not_eq_true'] at hleaf
        exact .covered hat' hleaf.2 hleaf.1
      · rename_i hleaf
        split at h
        · rename_i hnone
          cases h
          exact .full hat' (by simpa using hbranch) (allocFrameZeroed_eq_none hnone)
        · rename_i newPpn t₁ halloc
          have hfree := (allocFrameZeroed_eq_some halloc).1
          have hppn := A.newPte_branch_ppn (hfits newPpn (hfree ▸ mem_cons_self)) flags.global
          rw [hppn] at h
          refine .table hat' hnodup (by simpa using hbranch)
            (fun how => by simpa [how] using hleaf) halloc hppn (ih hat' ?_ (fun f hf => ?_) h)
          · exact (new_table hnodup _ _ halloc).2.2
          · exact hfits f (hfree ▸ mem_cons_of_mem _ hf)

/-- **the walk meets its contract.** -/
theorem Descent.spec {level : ℕ} {replaced : Bool} (hbase : base .zeroed)
    (hnew : flags.isLeaf = true ∨ levelAt = 0)
    (hshaped : ∀ t : Tables, Tables.ShapedIn A t base levelAt (A.newPte ppn flags.asValid))
    (h : Descent A vpn ppn flags levelAt overwrite level dir replaced t result t') :
    OneSpec A base vpn levelAt (A.newPte ppn flags.asValid) overwrite level dir t t' result := by
  induction h with
  | present | covered | full => exact OneSpec.refused _
  | write hnodup hfree =>
    exact OneSpec.writesLeaf hnodup rfl (hnew.imp_left (A.newPte_isLeaf _ _).trans) hshaped hfree
      (A.newPte_isValid _ _) _
  | through hat hnodup hbranch _ ih => exact OneSpec.through hat hnodup rfl hbranch ih
  | table hat hnodup hentry hfits halloc hppn _ ih =>
    exact OneSpec.throughNew hat hnodup rfl hbase hentry hfits halloc
      (A.newPte_branch_isBranch _ _) hppn ih

/-- What the end of the walk says about a request that overwrites nothing. -/
def Outcome (levelAt : ℕ) (reach : ℕ × Pte) (t t' : Tables) :
    Except SysError LeafPteCommit → Prop
  | .ok _ => reach.2.isValid = false ∧ t'.free.length + (reach.1 - levelAt) = t.free.length
  | .error _ => reach.2.isValid = true ∨ t.free.length < reach.1 - levelAt

/-- **what the walk finds decides.** -/
theorem Descent.outcome {level : ℕ} {replaced : Bool}
    (h : Descent A vpn ppn flags levelAt false level dir replaced t result t') :
    Outcome levelAt (t.reachAt A levelAt level dir vpn) t t' result := by
  induction h with
  | present _ hvalid =>
    rw [reachAt_self]
    exact .inl hvalid
  | write _ hfree =>
    rw [reachAt_self]
    exact ⟨hfree rfl, by simp⟩
  | through hat _ hbranch _ ih =>
    rw [reachAt_succ hat, if_pos hbranch]
    exact ih
  | covered hat _ hleaf =>
    rw [reachAt_succ hat, isBranch_of_isLeaf hleaf]
    exact .inl (Bool.and_eq_true_iff.mp hleaf).1
  | full hat hentry hfree =>
    rw [reachAt_succ hat, hentry]
    refine .inr ?_
    rw [hfree, length_nil]
    exact Nat.sub_pos_of_lt (Nat.lt_succ_of_le hat)
  | @table level dir _ t result _ _ t₁ hat hnodup hentry hfits halloc _ _ ih =>
    rw [reachAt_of_zeroed (new_table hnodup _ _ halloc).2.1] at ih
    rw [reachAt_succ hat, hentry]
    have hlen : t.free.length = t₁.free.length + 1 := by
      rw [(allocFrameZeroed_eq_some halloc).1, length_cons]
    cases result with
    | ok commit =>
      have hcount := ih.2
      rw [set_free] at hcount
      refine ⟨not_isValid_iff.mpr ⟨hentry, hfits rfl⟩, ?_⟩
      simp only [Bool.false_eq_true, if_false] at hcount ⊢
      omega
    | error e =>
      have hshort := ih.resolve_left Bool.false_ne_true
      rw [set_free] at hshort
      refine .inr ?_
      simp only [Bool.false_eq_true, if_false] at hshort ⊢
      omega

theorem mapOneAt_returns {level : ℕ} (hat : levelAt ≤ level) (dir : ℕ) (replaced : Bool)
    (t : Tables) :
    ∃ r, mapOneAt A vpn ppn flags levelAt overwrite level dir replaced t = .ok r := by
  induction level generalizing dir replaced t with
  | zero =>
    obtain rfl : levelAt = 0 := Nat.le_zero.mp hat
    simp only [mapOneAt, if_true]
    split
    all_goals exact ⟨_, rfl⟩
  | succ level ih =>
    rw [mapOneAt]
    by_cases hlevel : level + 1 = levelAt
    · simp only [if_pos hlevel]
      split
      all_goals exact ⟨_, rfl⟩
    · have hat' : levelAt ≤ level := by omega
      simp only [if_neg hlevel]
      split
      · exact ih hat' _ _ _
      · split
        · exact ⟨_, rfl⟩
        · split
          · exact ⟨_, rfl⟩
          · exact ih hat' _ _ _

end Mapper

end Anemone.Paging
