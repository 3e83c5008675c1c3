import Anemone.Analysis.MapOne

/-!
# Traversals

What a traversal does to a table is `Swept`.  The entries of a table are distinct trees, so that
the sweeps of the entries compose, for any operations that sweep one entry (`Sweeps`); unmapping
and changing flags are the two cases.
-/

namespace Anemone.Paging

open Ranges (VirtPageRange)
open Tables Checked List

/-- An entry stays, is cleared, or is a leaf and stays one of the same frame. -/
def Pte.Rewritten (e e' : Pte) : Prop :=
  e' = e ∨ e' = .zeroed ∨ e.isLeaf = true ∧ e'.isLeaf = true ∧ e'.ppn = e.ppn

theorem Pte.Rewritten.trans {e e' e'' : Pte} (h : e.Rewritten e') (h' : e'.Rewritten e'') :
    e.Rewritten e'' := by
  rcases h' with rfl | rfl | ⟨hleaf, hleaf', hppn⟩
  · exact h
  · exact .inr (.inl rfl)
  · rcases h with rfl | rfl | ⟨hold, -, hppn'⟩
    · exact .inr (.inr ⟨hleaf, hleaf', hppn⟩)
    · cases hleaf
    · exact .inr (.inr ⟨hold, hleaf', hppn.trans hppn'⟩)

/-- An entry that points to a table was there before. -/
theorem Pte.Rewritten.eq_of_isBranch {e e' : Pte} (h : e.Rewritten e')
    (hbranch : e'.isBranch = true) : e' = e := by
  rcases h with h | rfl | ⟨-, hleaf, -⟩
  · exact h
  · cases hbranch
  · rw [isBranch_of_isLeaf hleaf] at hbranch
    cases hbranch

namespace Tables

variable {A : PagingArch} {t t' : Tables} {base : Pte → Prop} {level dir : ℕ}

def Rewrites (t t' : Tables) : Prop := ∀ f i, (t.entries f i).Rewritten (t'.entries f i)

theorem Rewrites.refl (t : Tables) : Rewrites t t := fun _ _ => .inl rfl

theorem Rewrites.trans {t'' : Tables} (h : Rewrites t t') (h' : Rewrites t' t'') :
    Rewrites t t'' := fun f i => (h f i).trans (h' f i)

theorem rewrites_of_set {idx : ℕ} {new : Pte} (hnew : (t.entries dir idx).Rewritten new)
    (h : ∀ f i, t'.entries f i = if f = dir ∧ i = idx then new else t.entries f i) :
    Rewrites t t' := by
  intro f i
  rw [h]
  split
  · next hat => rwa [hat.1, hat.2]
  · exact .inl rfl

/-- Rewriting keeps the shape of the tree of an entry, by induction over the levels. -/
theorem ShapedIn.rewrites (hbase : base .zeroed) (hleaf : ∀ e : Pte, e.isLeaf = true → base e)
    {e e' : Pte} (hshaped : ShapedIn A t base level e) (he : e.Rewritten e')
    (h : Rewrites t t') : ShapedIn A t' base level e' := by
  induction level generalizing e e' with
  | zero =>
    rcases he with rfl | rfl | ⟨-, hnew, -⟩
    · exact hshaped
    · exact hbase
    · exact hleaf e' hnew
  | succ level ih =>
    rcases he with rfl | rfl | ⟨hold, hnew, hppn⟩
    · rw [shapedIn_succ] at hshaped ⊢
      refine hshaped.imp_right (Or.imp_right ?_)
      rintro ⟨hb, hbelow⟩
      exact ⟨hb, fun idx hidx => ih (hbelow idx hidx) (h _ _)⟩
    · exact shapedIn_zeroed hbase _
    · rw [shapedIn_succ] at hshaped ⊢
      rcases hshaped with rfl | ⟨-, haligned⟩ | ⟨hbranch, -⟩
      · cases hold
      · exact .inr (.inl ⟨hnew, hppn ▸ haligned⟩)
      · rw [Pte.isBranch_of_isLeaf hold] at hbranch
        cases hbranch

theorem ShapedAt.rewrites (hbase : base .zeroed) (hleaf : ∀ e : Pte, e.isLeaf = true → base e)
    (hshaped : t.ShapedAt A base level dir) (h : Rewrites t t') : t'.ShapedAt A base level dir :=
  fun idx hidx => (hshaped idx hidx).rewrites hbase hleaf (h dir idx) h

end Tables

namespace Mapper

variable {A : PagingArch} {range : VirtPageRange} {retirement : PageTableRetirement}
  {edit : ℕ → Option Leaf → Option Leaf} {level dir pre : ℕ} {st st' st'' : Tables × List ℕ}

/-- The pages that a walk takes to a table: `pre` are the digits it has read. -/
def Under (A : PagingArch) (level pre v : ℕ) : Prop :=
  v % 2 ^ A.vpnBits / A.levelPages (level + 1) = pre

theorem under_root (v : ℕ) : Under A (A.pageLevels - 1) 0 v := by
  rw [Under, levels_succ]
  exact Nat.div_eq_of_lt (Nat.mod_lt _ (Nat.two_pow_pos _))

theorem mod_div_levelPages (hlevel : level < A.pageLevels) {v : ℕ} (h : Under A level pre v) :
    v % 2 ^ A.vpnBits / A.levelPages level = pre * A.ptePerPgdir + A.index level v := by
  rw [A.index_eq_digit, ← h]
  exact Radix.mod_div_pow hlevel

/-- The pages of an entry of such a table, as the traversal computes them. -/
def node (A : PagingArch) (level pre i : ℕ) : VirtPageRange :=
  ⟨A.canonicalizeVpn ((pre * A.ptePerPgdir + i) * A.levelPages level), A.levelPages level⟩

theorem leafRange_eq_node (hlevel : level < A.pageLevels) {v : ℕ} (h : Under A level pre v) :
    leafRange A level v = node A level pre (A.index level v) := by
  rw [leafRange, node, ← mod_div_levelPages hlevel h]
  congr 1
  exact A.canonicalizeVpn_congr (Radix.div_mul_modEq hlevel.le v)

theorem levelPages_succ (level : ℕ) :
    A.levelPages (level + 1) = A.ptePerPgdir * A.levelPages level := by
  rw [PagingArch.levelPages, PagingArch.levelPages, PagingArch.ptePerPgdir, ← pow_add,
    Nat.succ_mul, Nat.add_comm]

/-- The digits of the pages of an entry. -/
theorem under_of_node (hlevel : level < A.pageLevels)
    (hpre : (pre + 1) * A.levelPages (level + 1) ≤ 2 ^ A.vpnBits) {i v : ℕ}
    (hi : i < A.ptePerPgdir) (hv : (node A level pre i).contains v) :
    Under A level pre v ∧ A.index level v = i := by
  obtain ⟨base, hbase⟩ : ∃ base, base = (pre * A.ptePerPgdir + i) * A.levelPages level := ⟨_, rfl⟩
  simp only [VirtPageRange.contains, VirtPageRange.stop, node, ← hbase] at hv
  obtain ⟨r, hr, rfl⟩ : ∃ r < A.levelPages level, v = A.canonicalizeVpn base + r :=
    ⟨v - A.canonicalizeVpn base, by omega, by omega⟩
  have hcanonical : A.canonicalizeVpn base + r = A.canonicalizeVpn (base + r) :=
    (Radix.signExtend_add (A.level_bits_lt hlevel) (Dvd.intro_left _ hbase.symm) hr).symm
  have hmod := A.canonicalizeVpn_modEq (base + r)
  have hdiv : (base + r) / A.levelPages level = pre * A.ptePerPgdir + i := by
    rw [hbase, Nat.add_comm, Nat.add_mul_div_right _ _ (A.levelPages_pos level),
      Nat.div_eq_of_lt hr, Nat.zero_add]
  have hpos : 0 < A.ptePerPgdir := Nat.two_pow_pos _
  have hlt : base + r < 2 ^ A.vpnBits := by
    refine lt_of_lt_of_le ?_ hpre
    rw [levelPages_succ, ← Nat.mul_assoc, ← Nat.div_lt_iff_lt_mul (A.levelPages_pos level), hdiv,
      Nat.add_mul]
    omega
  rw [hcanonical]
  constructor
  · rw [Under, hmod, Nat.mod_eq_of_lt hlt, levelPages_succ, Nat.mul_comm, ← Nat.div_div_eq_div_mul,
      hdiv, Nat.add_comm, Nat.add_mul_div_right _ _ hpos, Nat.div_eq_of_lt hi, Nat.zero_add]
  · rw [A.index_eq_digit, Radix.digit_congr hmod hlevel, Radix.digit]
    change (base + r) / A.levelPages level % A.ptePerPgdir = i
    rw [hdiv, Nat.add_comm, Nat.add_mul_mod_self_right, Nat.mod_eq_of_lt hi]

/-- A page below a table is below the entry that points to it. -/
theorem under_succ (hlevel : level + 1 < A.pageLevels) {i v : ℕ} (hi : i < A.ptePerPgdir)
    (h : Under A level (pre * A.ptePerPgdir + i) v) :
    Under A (level + 1) pre v ∧ A.index (level + 1) v = i := by
  have hpos : 0 < A.ptePerPgdir := Nat.two_pow_pos _
  have hunder : Under A (level + 1) pre v := by
    rw [Under, levelPages_succ, Nat.mul_comm, ← Nat.div_div_eq_div_mul, h, Nat.add_comm,
      Nat.add_mul_div_right _ _ hpos, Nat.div_eq_of_lt hi, Nat.zero_add]
  have heq := (mod_div_levelPages hlevel hunder).symm.trans h
  exact ⟨hunder, Nat.add_left_cancel heq⟩

theorem isEmptyPgdir_iff {t : Tables} {ppn : ℕ} :
    t.isEmptyPgdir A ppn = true ↔ ∀ idx < A.ptePerPgdir, t.entries ppn idx = .zeroed := by
  simp [isEmptyPgdir]

theorem handsOut_nil (st : Tables × List ℕ) (retirement : PageTableRetirement) :
    HandsOut [] st st retirement := by
  cases retirement <;> simp [HandsOut]

theorem HandsOut.trans {out out' : List ℕ} (h : HandsOut out st st' retirement)
    (h' : HandsOut out' st' st'' retirement) : HandsOut (out ++ out') st st'' retirement := by
  cases retirement with
  | immediate =>
    refine ⟨?_, h'.2.trans h.2⟩
    rw [h'.1, h.1, reverse_append, append_assoc]
  | retire =>
    refine ⟨h'.1.trans h.1, ?_⟩
    rw [h'.2, h.2, append_assoc]
  | keep =>
    refine ⟨h'.1.trans h.1, h'.2.1.trans h.2.1, ?_⟩
    rw [h.2.2, h'.2.2, append_nil]

/-- The traversal of the entries `idxs` of a table, where `edit` says what is left of the leaf
over a page. -/
structure Swept (A : PagingArch) (edit : ℕ → Option Leaf → Option Leaf)
    (retirement : PageTableRetirement) (level dir pre : ℕ) (idxs : List ℕ)
    (st st' : Tables × List ℕ) : Prop where
  edits : ∃ out, Tables.Edits st.1 st'.1 (st.1.tablesAt A level dir) (st'.1.tablesAt A level dir)
    [] out ∧ HandsOut out st st' retirement ∧ Emptied A st.1 st'.1 (st.1.tablesAt A level dir) out
  rewrites : Tables.Rewrites st.1 st'.1
  leaf : ∀ v, Under A level pre v → st'.1.leafAt A level dir v =
    if A.index level v ∈ idxs then edit v (st.1.leafAt A level dir v)
    else st.1.leafAt A level dir v

variable {idxs : List ℕ}

theorem Swept.nodup (h : Swept A edit retirement level dir pre idxs st st')
    (hnodup : (st.1.tablesAt A level dir).Nodup) : (st'.1.tablesAt A level dir).Nodup := by
  obtain ⟨out, hedits, -, -⟩ := h.edits
  have hperm := hedits.perm
  rw [append_nil] at hperm
  exact (hperm.nodup_iff.mp hnodup).sublist (sublist_append_left _ _)

theorem Swept.skip (h : ∀ v, Under A level pre v → A.index level v ∈ idxs →
      edit v (st.1.leafAt A level dir v) = st.1.leafAt A level dir v) :
    Swept A edit retirement level dir pre idxs st st where
  edits := ⟨[], .refl _ _, handsOut_nil st retirement, nofun⟩
  rewrites := .refl _
  leaf := fun v hv => by
    split
    · rw [h v hv (by assumption)]
    · rfl

/-- **sweeps of different entries compose.** -/
theorem Swept.trans {idxs idxs' : List ℕ} (hnodup : (st.1.tablesAt A level dir).Nodup)
    (hdisjoint : idxs.Disjoint idxs') (h : Swept A edit retirement level dir pre idxs st st')
    (h' : Swept A edit retirement level dir pre idxs' st' st'') :
    Swept A edit retirement level dir pre (idxs ++ idxs') st st'' := by
  obtain ⟨out, hedits, hhands, hempty⟩ := h.edits
  obtain ⟨out', hedits', hhands', hempty'⟩ := h'.edits
  have hperm := hedits.perm
  rw [append_nil] at hperm
  have hgone := nodup_append.mp (hperm.nodup_iff.mp hnodup)
  refine ⟨⟨out ++ out', hedits.trans hedits', hhands.trans hhands', fun f hf => ?_⟩,
    h.rewrites.trans h'.rewrites, fun v hv => ?_⟩
  · rcases mem_append.mp hf with hf | hf
    · -- what was given up before is not a table any more and stays as it was
      obtain ⟨hzero, hfrom⟩ := hempty f hf
      have hframe := hedits'.frame f (fun hmem => hgone.2.2 f hmem f hf rfl) not_mem_nil
      exact ⟨fun idx hidx => by rw [hframe, hzero idx hidx], hfrom⟩
    · obtain ⟨hzero, dir', hdir', idx, hidx, hbranch, hglobal, hppn⟩ := hempty' f hf
      have hentry := (h.rewrites dir' idx).eq_of_isBranch hbranch
      rw [hentry] at hbranch hglobal hppn
      refine ⟨hzero, dir', ?_, idx, hidx, hbranch, hglobal, hppn⟩
      exact hperm.mem_iff.mpr (mem_append_left _ hdir')
  · rw [h'.leaf v hv, h.leaf v hv]
    simp only [mem_append]
    by_cases hmem : A.index level v ∈ idxs
    · rw [if_neg (hdisjoint hmem), if_pos hmem, if_pos (.inl hmem)]
    · simp [hmem]

variable {i : ℕ} {below : ℕ → ℕ → Tables × List ℕ → Checked (Tables × List ℕ)}

/-- an entry is replaced by one that points to no table, and with it a table that
holds nothing is given up. -/
theorem Swept.replaced {new : Pte} (out : List ℕ) (hi : i < A.ptePerPgdir)
    (hnodup : (st.1.tablesAt A level dir).Nodup)
    (hentries : ∀ f j, st'.1.entries f j = if f = dir ∧ j = i then new else st.1.entries f j)
    (hnew : (st.1.entries dir i).Rewritten new) (hbranch : new.isBranch = false)
    (htables : tablesIn A st.1 level (st.1.entries dir i) = out)
    (hhands : HandsOut out st st' retirement)
    (hempty : Emptied A st.1 st'.1 (st.1.tablesAt A level dir) out)
    (hleaf : ∀ v, Under A level pre v → A.index level v = i →
      (if i ∈ idxs then edit v (st.1.leafAt A level dir v) else st.1.leafAt A level dir v)
      = leafIn A st'.1 level new v)
    (hidxs : ∀ j ∈ idxs, j = i) :
    Swept A edit retirement level dir pre idxs st st' := by
  have hslot : st'.1.entries dir i = new := by rw [hentries, if_pos ⟨rfl, rfl⟩]
  have hperm : (tablesIn A st.1 level (st.1.entries dir i) ++ []).Perm
      (tablesIn A st'.1 level (st'.1.entries dir i) ++ out) := by
    rw [hslot, tablesIn_of_not_isBranch hbranch, htables, append_nil, nil_append]
  obtain ⟨hedits, hother⟩ := edits_of_slot hi (by rwa [append_nil])
    (fun f j hfj _ _ => by rw [hentries, if_neg hfj]) hperm
  refine ⟨⟨out, hedits, hhands, hempty⟩, rewrites_of_set hnew hentries, fun v hv => ?_⟩
  by_cases hidx : A.index level v = i
  · rw [hidx, hleaf v hv hidx, leafAt, hidx, hslot]
  · rw [if_neg fun hmem => hidx (hidxs _ hmem)]
    exact leafAt_of_other (hother _ (A.index_lt level v) hidx)

/-- A leaf that is found over a page, as the traversal names its first page. -/
theorem leafAt_node (hlevel : level < A.pageLevels) {t : Tables}
    (hleaf : (t.entries dir i).isLeaf = true) {v : ℕ} (hv : Under A level pre v)
    (hidx : A.index level v = i) :
    t.leafAt A level dir v = some ⟨level, t.entries dir i⟩ ∧
      leafRange A level v = node A level pre i := by
  have hnode := leafRange_eq_node hlevel hv
  rw [hidx] at hnode
  exact ⟨by rw [leafAt, hidx, leafIn_of_isLeaf hleaf], hnode⟩

/-- the sweep of a table is a sweep of the entry that points to it. -/
theorem swept_below (hlevel : level + 1 < A.pageLevels) (hi : i < A.ptePerPgdir)
    (hnodup : (st.1.tablesAt A (level + 1) dir).Nodup)
    (hbranch : (st.1.entries dir i).isBranch = true)
    (h : Swept A edit retirement level (st.1.entries dir i).ppn (pre * A.ptePerPgdir + i)
      (List.range A.ptePerPgdir) st st') :
    Swept A edit retirement (level + 1) dir pre [i] st st' ∧
      st'.1.entries dir i = st.1.entries dir i := by
  obtain ⟨out, hedits, hhands, hempty⟩ := h.edits
  obtain ⟨hslot, hedits', hother⟩ := edits_of_below hi (by rwa [append_nil]) rfl hbranch hedits
  refine ⟨⟨⟨out, hedits', hhands, fun f hf => ?_⟩, h.rewrites, fun v hv => ?_⟩, congrFun hslot i⟩
  · obtain ⟨hzero, dir', hdir', hrest⟩ := hempty f hf
    refine ⟨hzero, dir', mem_tablesAt_of_mem hi ?_, hrest⟩
    rwa [tablesIn_succ, if_pos hbranch]
  · by_cases hidx : A.index (level + 1) v = i
    · have hunder : Under A level (pre * A.ptePerPgdir + i) v := by
        rw [Under, mod_div_levelPages hlevel hv, hidx]
      have hbelow := h.leaf v hunder
      rw [if_pos (mem_range.mpr (A.index_lt level v))] at hbelow
      rw [if_pos (mem_singleton.mpr hidx), leafAt, leafAt, hidx, hslot,
        leafIn_succ, leafIn_succ, if_pos hbranch, if_pos hbranch]
      exact hbelow
    · rw [if_neg (fun hmem => hidx (mem_singleton.mp hmem))]
      exact leafAt_of_other (hother _ (A.index_lt (level + 1) v) hidx)

section Visit

variable {α : Type} {ops : TraverseOps α} {below : ℕ → ℕ → Tables × α → Checked (Tables × α)}

/-- **what the traversal does at an entry.** -/
theorem visit_cases {s s' : Tables × α}
    (h : visit A range ops .postOrder level below dir pre s i = .ok s') :
    (((s.1.entries dir i).isBranch = false ∧ (s.1.entries dir i).isLeaf = false) ∨
      ¬ range.intersects (node A level pre i)) ∧ s' = s ∨
    ((s.1.entries dir i).isBranch = true ∧ level ≠ 0 ∧
      ∃ s₁, below (s.1.entries dir i).ppn (pre * A.ptePerPgdir + i) s = .ok s₁ ∧
        s' = ops.branchOp dir i level s₁) ∨
    ((s.1.entries dir i).isLeaf = true ∧ range.intersects (node A level pre i) ∧
      s' = ops.leafOp dir i (node A level pre i).start level s) := by
  simp only [visit] at h
  split at h
  · rename_i hnone
    cases h
    exact .inl ⟨.inl (by simpa using hnone), rfl⟩
  · rename_i hsome
    split at h
    · rename_i hout
      cases h
      exact .inl ⟨.inr hout, rfl⟩
    · rename_i hin
      split at h
      · rename_i hbranch
        obtain ⟨u, hlevel, h⟩ := bind_eq_ok.mp h
        obtain ⟨s₁, hbelow, h⟩ := bind_eq_ok.mp h
        cases h
        exact .inr (.inl ⟨hbranch, assert_eq_ok.mp hlevel, s₁, hbelow, rfl⟩)
      · rename_i hbranch
        cases h
        have hleaf : (s.1.entries dir i).isLeaf = true := by
          simpa [hbranch] using hsome
        exact .inr (.inr ⟨hleaf, not_not.mp hin, rfl⟩)

end Visit

/-- Operations that sweep one entry: a leaf in the range that is `ok` becomes what `edit` says,
an entry that points to a table stays or gives up an empty one, and leaves outside the range
stay. -/
structure Sweeps (A : PagingArch) (edit : ℕ → Option Leaf → Option Leaf) (ok : Leaf → Prop)
    (range : VirtPageRange) (retirement : PageTableRetirement) (ops : TraverseOps (List ℕ)) :
    Prop where
  leaf : ∀ {level dir pre i : ℕ} {st : Tables × List ℕ}, level < A.pageLevels →
    i < A.ptePerPgdir → (st.1.tablesAt A level dir).Nodup →
    (st.1.entries dir i).isLeaf = true → ok ⟨level, st.1.entries dir i⟩ →
    range.intersects (node A level pre i) →
    Swept A edit retirement level dir pre [i] st
      (ops.leafOp dir i (node A level pre i).start level st)
  branch : ∀ {level dir pre i : ℕ} {st : Tables × List ℕ}, i < A.ptePerPgdir →
    (st.1.tablesAt A (level + 1) dir).Nodup → (st.1.entries dir i).isBranch = true →
    Swept A edit retirement (level + 1) dir pre [] st (ops.branchOp dir i (level + 1) st)
  none : ∀ v, edit v none = none
  outside : ∀ {level v : ℕ} {leaf : Leaf}, leaf.level ≤ level → level < A.pageLevels →
    ¬ range.intersects (leafRange A level v) → edit v (some leaf) = some leaf

variable {ok : Leaf → Prop} {ops : TraverseOps (List ℕ)}

/-- The leaves of the range below the entries `idxs` of a table are `ok`. -/
def Fair (A : PagingArch) (ok : Leaf → Prop) (range : VirtPageRange) (level dir pre : ℕ)
    (idxs : List ℕ) (t : Tables) : Prop :=
  ∀ v, Under A level pre v → A.index level v ∈ idxs → ∀ leaf,
    t.leafAt A level dir v = some leaf → range.intersects (leafRange A leaf.level v) → ok leaf

/-- What the traversal of the tables below one of this level leaves. -/
def SweepsBelow (A : PagingArch) (edit : ℕ → Option Leaf → Option Leaf) (ok : Leaf → Prop)
    (range : VirtPageRange) (retirement : PageTableRetirement) (level : ℕ)
    (below : ℕ → ℕ → Tables × List ℕ → Checked (Tables × List ℕ)) : Prop :=
  ∀ lower, level = lower + 1 → ∀ dir pre st st', (pre + 1) * A.levelPages level ≤ 2 ^ A.vpnBits →
    (st.1.tablesAt A lower dir).Nodup → Fair A ok range lower dir pre (List.range A.ptePerPgdir) st.1 →
    below dir pre st = .ok st' →
    Swept A edit retirement lower dir pre (List.range A.ptePerPgdir) st st'

section Traverse

variable (hs : Sweeps A edit ok range retirement ops) (hlevel : level < A.pageLevels)
  (hpre : (pre + 1) * A.levelPages (level + 1) ≤ 2 ^ A.vpnBits)
  (hnodup : (st.1.tablesAt A level dir).Nodup)

include hs hlevel hpre hnodup

/-- **the visit of an entry sweeps it.** -/
theorem swept_visit (hi : i < A.ptePerPgdir) (hfair : Fair A ok range level dir pre [i] st.1)
    (hbelow : SweepsBelow A edit ok range retirement level below)
    (h : visit A range ops .postOrder level below dir pre st i = .ok st') :
    Swept A edit retirement level dir pre [i] st st' := by
  rcases visit_cases h with ⟨hskip, rfl⟩ | ⟨hbranch, hne, st₁, hrun, rfl⟩ | ⟨hleaf, hin, rfl⟩
  · refine Swept.skip fun v hv hidx => ?_
    rw [mem_singleton] at hidx
    cases hfound : st'.1.leafAt A level dir v with
    | none => exact hs.none v
    | some leaf =>
      rcases hskip with ⟨hb, hl⟩ | hout
      · rw [leafAt, hidx, leafIn_of_not_isValid (Pte.not_isValid_iff.mpr ⟨hb, hl⟩)] at hfound
        cases hfound
      · apply hs.outside (leafIn_level_le hfound).1 hlevel
        rwa [leafRange_eq_node hlevel hv, hidx]
  · obtain ⟨lower, rfl⟩ := Nat.exists_eq_succ_of_ne_zero hne
    have hsub := (nodup_entry hi hnodup).2
    rw [tablesIn_succ, if_pos hbranch] at hsub
    have hpre' : (pre * A.ptePerPgdir + i + 1) * A.levelPages (lower + 1) ≤ 2 ^ A.vpnBits := by
      refine le_trans ?_ hpre
      rw [levelPages_succ (lower + 1), ← Nat.mul_assoc]
      apply Nat.mul_le_mul_right
      rw [Nat.add_mul]
      omega
    have hfair' : Fair A ok range lower (st.1.entries dir i).ppn (pre * A.ptePerPgdir + i)
        (List.range A.ptePerPgdir) st.1 := by
      intro v hunder _ leaf hleaf hin
      obtain ⟨habove, hidx⟩ := under_succ hlevel hi hunder
      refine hfair v habove (by rw [hidx]; exact mem_cons_self) leaf ?_ hin
      rwa [leafAt, hidx, leafIn_succ, if_pos hbranch]
    obtain ⟨hswept, hslot⟩ := swept_below hlevel hi hnodup hbranch
      (hbelow lower rfl _ _ _ _ hpre' hsub hfair' hrun)
    exact hswept.trans hnodup (disjoint_nil_right _)
      (hs.branch hi (hswept.nodup hnodup) (hslot ▸ hbranch))
  · refine hs.leaf hlevel hi hnodup hleaf ?_ hin
    have hfirst : (node A level pre i).contains (node A level pre i).start :=
      ⟨le_rfl, Nat.lt_add_of_pos_right (A.levelPages_pos level)⟩
    obtain ⟨hunder, hidx⟩ := under_of_node hlevel hpre hi hfirst
    obtain ⟨hfound, hnode⟩ := leafAt_node hlevel hleaf hunder hidx
    refine hfair _ hunder (by rw [hidx]; exact mem_cons_self) _ hfound ?_
    rwa [hnode]

/-- **the loop over the entries of a table sweeps them all.** -/
theorem swept_foldlM (hidxs : ∀ i ∈ idxs, i < A.ptePerPgdir) (hdistinct : idxs.Nodup)
    (hfair : Fair A ok range level dir pre idxs st.1)
    (hbelow : SweepsBelow A edit ok range retirement level below)
    (h : idxs.foldlM (visit A range ops .postOrder level below dir pre) st = .ok st') :
    Swept A edit retirement level dir pre idxs st st' := by
  induction idxs generalizing st with
  | nil =>
    cases h
    exact Swept.skip fun _ _ h => absurd h not_mem_nil
  | cons i idxs ih =>
    obtain ⟨st₁, hvisit, hrest⟩ := foldlM_cons_eq_ok.mp h
    obtain ⟨hnotin, hdistinct⟩ := nodup_cons.mp hdistinct
    have hone := swept_visit hs hlevel hpre hnodup (hidxs i mem_cons_self)
      (fun v hu hi => hfair v hu (mem_cons.mpr (.inl (mem_singleton.mp hi)))) hbelow hvisit
    have hfair' : Fair A ok range level dir pre idxs st₁.1 := by
      intro v hu hi leaf hleaf
      have hsame := hone.leaf v hu
      rw [if_neg (by rintro heq; rw [mem_singleton.mp heq] at hi; exact hnotin hi)] at hsame
      exact hfair v hu (mem_cons_of_mem _ hi) leaf (hsame ▸ hleaf)
    have hmore := ih (hone.nodup hnodup) (fun j hj => hidxs j (mem_cons_of_mem _ hj))
      hdistinct hfair' hrest
    exact hone.trans hnodup (singleton_disjoint.mpr hnotin) hmore

/-- **the traversal sweeps a table and all tables below it**, by induction over the
levels. -/
theorem swept_doTraverse (hfair : Fair A ok range level dir pre (List.range A.ptePerPgdir) st.1)
    (h : doTraverse A range ops .postOrder level dir pre st = .ok st') :
    Swept A edit retirement level dir pre (List.range A.ptePerPgdir) st st' := by
  induction level generalizing dir pre st st' with
  | zero =>
    refine swept_foldlM hs hlevel hpre hnodup (fun i hi => mem_range.mp hi) nodup_range
      hfair ?_ h
    intro lower hlower
    omega
  | succ level ih =>
    refine swept_foldlM hs hlevel hpre hnodup (fun i hi => mem_range.mp hi) nodup_range
      hfair ?_ h
    intro lower hlower dir pre st st' hpre hnodup hfair hrun
    obtain rfl : level = lower := Nat.succ.inj hlower
    exact ih (by omega) hpre hnodup hfair hrun

end Traverse

/-- a leaf is cleared, or stays. -/
theorem swept_unmap_leaf (hlevel : level < A.pageLevels) (hi : i < A.ptePerPgdir)
    (hnodup : (st.1.tablesAt A level dir).Nodup) (hleaf : (st.1.entries dir i).isLeaf = true) :
    Swept A (cut A range) retirement level dir pre [i] st
      ((unmapOps A range retirement).leafOp dir i (node A level pre i).start level st) := by
  have hcut : ∀ v, Under A level pre v → A.index level v = i →
      cut A range v (st.1.leafAt A level dir v) =
        if range.covers (node A level pre i) ∧ !(st.1.entries dir i).isGlobal then none
        else st.1.leafAt A level dir v := by
    intro v hv hidx
    obtain ⟨hfound, hnode⟩ := leafAt_node hlevel hleaf hv hidx
    rw [hfound, cut, hnode]
  simp only [unmapOps]
  split
  · rename_i hcond
    refine Swept.replaced [] hi hnodup (fun f j => set_entries _ _ _ _ _ _) (.inr (.inl rfl)) rfl
      (tablesIn_of_not_isBranch (Pte.isBranch_of_isLeaf hleaf) level) ?_
      (forall_mem_nil _) (fun v hv hidx => ?_) (fun j hj => mem_singleton.mp hj)
    · cases retirement <;> simp [HandsOut]
    · rw [if_pos mem_cons_self, hcut v hv hidx, leafIn_zeroed]
      exact if_pos hcond
  · rename_i hcond
    refine Swept.skip fun v hv hidx => ?_
    rw [hcut v hv (mem_singleton.mp hidx)]
    exact if_neg hcond

/-- a table in which nothing is left is detached. -/
theorem swept_detach (hi : i < A.ptePerPgdir) (hnodup : (st.1.tablesAt A (level + 1) dir).Nodup)
    (hbranch : (st.1.entries dir i).isBranch = true) :
    Swept A (cut A range) retirement (level + 1) dir pre [] st
      ((unmapOps A range retirement).branchOp dir i (level + 1) st) := by
  have hskip : Swept A (cut A range) retirement (level + 1) dir pre [] st st :=
    Swept.skip fun _ _ h => absurd h not_mem_nil
  simp only [unmapOps]
  split
  · rename_i hcond
    simp only [Bool.and_eq_true, Bool.not_eq_true'] at hcond
    obtain ⟨hempty, hglobal⟩ := hcond
    have hzero := isEmptyPgdir_iff.mp hempty
    have htables : tablesIn A st.1 (level + 1) (st.1.entries dir i) =
        [(st.1.entries dir i).ppn] := by
      rw [tablesIn_succ, if_pos hbranch, tablesAt_of_zeroed hzero]
    have hne : (st.1.entries dir i).ppn ≠ dir := fun heq =>
      (nodup_entry hi hnodup).1 (by rw [htables, heq]; exact mem_cons_self)
    have hclear : ∀ st' : Tables × List ℕ,
        (∀ f j, st'.1.entries f j = if f = dir ∧ j = i then .zeroed else st.1.entries f j) →
        HandsOut [(st.1.entries dir i).ppn] st st' retirement →
        Swept A (cut A range) retirement (level + 1) dir pre [] st st' := by
      intro st' hentries hhands
      refine Swept.replaced _ hi hnodup hentries (.inr (.inl rfl)) rfl htables hhands
        (fun f hf => ?_) (fun v hv hidx => ?_) (forall_mem_nil _)
      · obtain rfl := mem_singleton.mp hf
        refine ⟨fun idx hidx => ?_, dir, self_mem_tablesAt _ _, i, hi, hbranch, hglobal, rfl⟩
        rw [hentries, if_neg fun h => hne h.1, hzero idx hidx]
      · rw [if_neg not_mem_nil, leafAt, hidx, leafIn_succ, if_pos hbranch,
          leafAt_of_zeroed hzero, leafIn_zeroed]
    unfold detach
    split
    · exact hclear _ (fun f j => rfl) (by simp [HandsOut, dealloc])
    · exact hclear _ (fun f j => rfl) (by simp [HandsOut])
    · exact hskip
  · exact hskip

/-- **unmapping cuts the leaves of the range**, whatever they are. -/
theorem sweeps_unmapOps (range : VirtPageRange) (retirement : PageTableRetirement) :
    Sweeps A (cut A range) (fun _ => True) range retirement (unmapOps A range retirement) where
  leaf hlevel hi hnodup hleaf _ _ := swept_unmap_leaf hlevel hi hnodup hleaf
  branch hi hnodup hbranch := swept_detach hi hnodup hbranch
  none _ := rfl
  outside hle hlevel hout := if_neg fun h => hout (intersects_of_covers hle hlevel h.1)

section Root

variable {base : Pte → Prop} {root : ℕ} {t : Tables} {retired : List ℕ}

/-- **a traversal sweeps the page table**, if it returns. -/
theorem swept_traverse (hs : Sweeps A edit ok range retirement ops) (h : Intact A base root t)
    (hfair : ∀ v leaf, leafOf A root t v = some leaf →
      range.intersects (leafRange A leaf.level v) → ok leaf)
    (hrun : traverse A root range ops .postOrder (t, retired) = .ok st') :
    Swept A edit retirement (A.pageLevels - 1) root 0 (List.range A.ptePerPgdir) (t, retired)
      st' := by
  refine swept_doTraverse hs (Nat.sub_lt A.levels_pos one_pos) ?_ (nodup_append.mp h.nodup).1
    (fun v _ _ leaf hleaf hin => hfair v leaf hleaf hin) hrun
  rw [levels_succ, Nat.zero_add, Nat.one_mul]
  exact le_rfl

theorem Swept.leafOf (hswept : Swept A edit retirement (A.pageLevels - 1) root 0
    (List.range A.ptePerPgdir) (t, retired) st') (vpn : ℕ) :
    leafOf A root st'.1 vpn = edit vpn (leafOf A root t vpn) := by
  have hleaf := hswept.leaf vpn (under_root vpn)
  rwa [if_pos (mem_range.mpr (A.index_lt _ vpn))] at hleaf

/-- **a page table that is swept is in order again.** -/
theorem Swept.intact (hbase : base .zeroed) (hleaf : ∀ e : Pte, e.isLeaf = true → base e)
    (h : Intact A base root t) (hswept : Swept A edit retirement (A.pageLevels - 1) root 0
      (List.range A.ptePerPgdir) (t, retired) st') : Intact A base root st'.1 := by
  obtain ⟨out, hedits, hhands, -⟩ := hswept.edits
  have hperm := hedits.perm
  rw [append_nil] at hperm
  have hfrom : ∃ more, (t.tablesAt A (A.pageLevels - 1) root ++ t.free).Perm
      ((st'.1.tablesAt A (A.pageLevels - 1) root ++ st'.1.free) ++ more) := by
    cases retirement with
    | immediate =>
      refine ⟨[], (hperm.append_right t.free).trans ?_⟩
      rw [append_nil, hhands.1, append_assoc]
      exact ((reverse_perm out).symm.append_right _).append_left _
    | retire =>
      refine ⟨out, (hperm.append_right t.free).trans ?_⟩
      rw [hhands.1, append_assoc, append_assoc]
      exact perm_append_comm.append_left _
    | keep =>
      refine ⟨[], (hperm.append_right t.free).trans ?_⟩
      rw [hhands.1, hhands.2.2, append_nil, append_nil]
  obtain ⟨more, hmore⟩ := hfrom
  exact h.of_perm (h.shaped.rewrites hbase hleaf hswept.rewrites) hmore

end Root

theorem branchOp_rewrites (range : VirtPageRange) (retirement : PageTableRetirement)
    (dir i level : ℕ) (st : Tables × List ℕ) :
    Tables.Rewrites st.1 ((unmapOps A range retirement).branchOp dir i level st).1 := by
  simp only [unmapOps]
  split
  · unfold detach
    split
    · exact rewrites_of_set (.inr (.inl rfl)) fun f j => rfl
    · exact rewrites_of_set (.inr (.inl rfl)) fun f j => rfl
    · exact .refl _
  · exact .refl _

theorem leafOp_rewrites (range : VirtPageRange) (retirement : PageTableRetirement)
    (dir i vpn level : ℕ) (st : Tables × List ℕ) :
    Tables.Rewrites st.1 ((unmapOps A range retirement).leafOp dir i vpn level st).1 := by
  simp only [unmapOps]
  split
  · exact rewrites_of_set (.inr (.inl rfl)) fun f j => rfl
  · exact .refl _

theorem visit_returns (hi : i < A.ptePerPgdir) (hshaped : st.1.ShapedAt A ClearOrLeaf level dir)
    (hbelow : ∀ lower, level = lower + 1 → ∀ ppn pre st, st.1.ShapedAt A ClearOrLeaf lower ppn →
      ∃ st', below ppn pre st = .ok st' ∧ Tables.Rewrites st.1 st'.1) :
    ∃ st', visit A range (unmapOps A range retirement) .postOrder level below dir pre st i =
      .ok st' ∧ Tables.Rewrites st.1 st'.1 := by
  simp only [visit]
  split
  · exact ⟨st, rfl, .refl _⟩
  · split
    · exact ⟨st, rfl, .refl _⟩
    · split
      · rename_i hbranch
        have hentry := hshaped i hi
        cases level with
        | zero =>
          rw [Pte.isBranch_of_clearOrLeaf hentry] at hbranch
          cases hbranch
        | succ lower =>
          obtain ⟨st₁, hrun, hrewrites⟩ :=
            hbelow lower rfl _ (pre * A.ptePerPgdir + i) st (hentry.below hbranch)
          refine ⟨(unmapOps A range retirement).branchOp dir i (lower + 1) st₁, ?_,
            hrewrites.trans (branchOp_rewrites range retirement dir i (lower + 1) st₁)⟩
          rw [assert_of _ (Nat.succ_ne_zero lower), ok_bind, hrun, ok_bind, pure_eq]
      · exact ⟨_, rfl, leafOp_rewrites range retirement dir i _ level st⟩

/-- **the traversal of a page table of the right shape returns.** -/
theorem doTraverse_returns (range : VirtPageRange) (retirement : PageTableRetirement)
    (pre : ℕ) (hshaped : st.1.ShapedAt A ClearOrLeaf level dir) :
    ∃ st', doTraverse A range (unmapOps A range retirement) .postOrder level dir pre st =
      .ok st' ∧ Tables.Rewrites st.1 st'.1 := by
  have hloop : ∀ (level dir pre : ℕ) (st : Tables × List ℕ)
      (below : ℕ → ℕ → Tables × List ℕ → Checked (Tables × List ℕ)),
      st.1.ShapedAt A ClearOrLeaf level dir →
      (∀ lower, level = lower + 1 → ∀ ppn pre st, st.1.ShapedAt A ClearOrLeaf lower ppn →
        ∃ st', below ppn pre st = .ok st' ∧ Tables.Rewrites st.1 st'.1) →
      ∃ st', (List.range A.ptePerPgdir).foldlM
        (visit A range (unmapOps A range retirement) .postOrder level below dir pre) st =
          .ok st' ∧ Tables.Rewrites st.1 st'.1 := by
    intro level dir pre st below hshaped hbelow
    obtain ⟨st', hrun, -, hrewrites⟩ := foldlM_returns
      (f := visit A range (unmapOps A range retirement) .postOrder level below dir pre)
      (fun s : Tables × List ℕ => s.1.ShapedAt A ClearOrLeaf level dir ∧ Tables.Rewrites st.1 s.1)
      (fun s i hi hs => by
        obtain ⟨s', hvisit, hrewrites⟩ := visit_returns (mem_range.mp hi) hs.1 hbelow
        exact ⟨s', hvisit, hs.1.rewrites (.inl rfl) (fun _ h => .inr h) hrewrites, hs.2.trans hrewrites⟩)
      ⟨hshaped, .refl _⟩
    exact ⟨st', hrun, hrewrites⟩
  induction level generalizing dir pre st with
  | zero => exact hloop 0 dir pre st _ hshaped nofun
  | succ level ih =>
    refine hloop (level + 1) dir pre st _ hshaped fun lower hlower ppn pre st hsub => ?_
    obtain rfl : level = lower := Nat.succ.inj hlower
    exact ih pre hsub

end Mapper

end Anemone.Paging
