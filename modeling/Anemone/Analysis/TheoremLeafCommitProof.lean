import Anemone.Analysis.TheoremMapProof

/-!
# What the write of a leaf reports

Unless a leaf is replaced on the way, the page had no leaf or one of base size.  Then no other
page loses its leaf, and the comparison is one of two leaves for the same page.
-/

namespace Anemone.Paging.Mapper

open Tables PteFlags
open Checked (bind_eq_ok pure_eq)
open Uspace (SysError LeafPteCommit)

variable {A : PagingArch} {root vpn ppn : ℕ} {flags : PteFlags} {t t' : Tables}
  {commit : LeafPteCommit}

/-- **what the walk compares.**  Unless a leaf is replaced on the way, the page had no
leaf or one of base size, and that is what the new one is compared with. -/
theorem Descent.compares {level dir : ℕ} {replaced : Bool} {result : Except SysError LeafPteCommit}
    (h : Descent A vpn ppn flags 0 true level dir replaced t result t') (hok : result = .ok commit)
    (hcommit : commit ≠ .replacedOrRestricted) :
    replaced = false ∧ ((commit = .added ∧ t.leafAt A level dir vpn = none) ∨
      ∃ dir' idx, t.leafAt A level dir vpn = some ⟨0, t.entries dir' idx⟩ ∧
        commit = commitOf false (t.entries dir' idx) ppn flags) := by
  induction h with
  | present | covered | full => cases hok
  | @write dir replaced t =>
    cases hok
    cases replaced with
    | true => exact absurd rfl hcommit
    | false =>
      refine ⟨rfl, ?_⟩
      by_cases hleaf : (t.entries dir (A.index 0 vpn)).isLeaf = true
      · exact .inr ⟨dir, _, by rw [leafAt, leafIn_of_isLeaf hleaf], rfl⟩
      · by_cases hvalid : (t.entries dir (A.index 0 vpn)).isValid = true
        · simp [commitOf, hvalid, hleaf] at hcommit
        · refine .inl ⟨by simp [commitOf, hvalid], ?_⟩
          exact leafIn_of_not_isValid (by simpa using hvalid) 0 vpn
  | through _ _ hbranch _ ih =>
    rw [leafAt, leafIn_succ, if_pos hbranch]
    exact ih hok
  | table _ hnodup _ _ halloc _ _ ih =>
    obtain ⟨hreplaced, hleaf⟩ := ih hok
    obtain ⟨hreplaced, hvalid⟩ := Bool.or_eq_false_iff.mp hreplaced
    rw [leafAt_of_zeroed (new_table hnodup _ _ halloc).2.1] at hleaf
    refine ⟨hreplaced, .inl ⟨(hleaf.resolve_right (by rintro ⟨_, _, ⟨⟩, -⟩)).1, ?_⟩⟩
    exact leafIn_of_not_isValid hvalid _ vpn

theorem encoded_set {new : Pte} (h : t.Encoded A) (hnew : new.ppn < 2 ^ A.ppnBits) (dir idx : ℕ) :
    (t.set dir idx new).Encoded A := by
  intro f i
  rw [set_entries]
  split
  · exact hnew
  · exact h f i

/-- every entry that the walk writes has been cut to what an entry has room for. -/
theorem Descent.encoded {levelAt level dir : ℕ} {overwrite replaced : Bool}
    {result : Except SysError LeafPteCommit}
    (h : Descent A vpn ppn flags levelAt overwrite level dir replaced t result t')
    (hencoded : t.Encoded A) : t'.Encoded A := by
  induction h with
  | present | covered | full => exact hencoded
  | write => exact encoded_set hencoded (Nat.mod_lt _ (Nat.two_pow_pos _)) _ _
  | through _ _ _ _ ih => exact ih hencoded
  | table _ _ _ _ halloc _ _ ih =>
    refine ih (encoded_set (fun f i => ?_) (Nat.mod_lt _ (Nat.two_pow_pos _)) _ _)
    rw [(allocFrameZeroed_eq_some halloc).2]
    split
    · exact Nat.two_pow_pos _
    · exact hencoded f i

/-- What a leaf that is not replaced or restricted is compared with. -/
theorem commitOf_leaf {pte : Pte} (hleaf : pte.isLeaf = true)
    (hcommit : commitOf false pte ppn flags ≠ .replacedOrRestricted) :
    pte.ppn = ppn ∧ flags.contains pte.flags.sansValid = true ∧
      ((commitOf false pte ppn flags = .unchanged ∧ pte.flags.sansValid = flags) ∨
        (commitOf false pte ppn flags = .relaxed ∧ pte.flags.sansValid ≠ flags)) := by
  have hvalid : pte.isValid = true := (Bool.and_eq_true_iff.mp hleaf).1
  have hself : ∀ f : PteFlags, f.contains f = true := by simp [contains]
  unfold commitOf at hcommit ⊢
  simp only [hvalid, hleaf, Bool.not_true, Bool.false_eq_true, if_false, Bool.true_and,
    Bool.and_eq_true, beq_iff_eq] at hcommit ⊢
  split_ifs at hcommit ⊢ with hsame hmore
  · obtain ⟨hppn, hflags⟩ := hsame
    exact ⟨hppn, hflags ▸ hself flags, .inl ⟨rfl, hflags⟩⟩
  · exact ⟨hmore.1, hmore.2, .inr ⟨rfl, fun hflags => hsame ⟨hmore.1, hflags⟩⟩⟩
  · exact absurd rfl hcommit

/-- both architectures have a place for every permission of a leaf. -/
theorem encode_permissions (hA : A = sv39 ∨ A = la64) (hleaf : flags.isLeaf = true) :
    (A.encode flags).read = flags.read ∧ (A.encode flags).write = flags.write ∧
      (A.encode flags).execute = flags.execute ∧ (A.encode flags).user = flags.user := by
  rcases hA with rfl | rfl
  · exact ⟨rfl, rfl, rfl, rfl⟩
  · simp [la64, hleaf]

theorem newPte_keeps {old : PteFlags} (hA : A = sv39 ∨ A = la64) (hfits : ppn < 2 ^ A.ppnBits)
    (hleaf : flags.isLeaf = true) (hcontains : flags.contains old = true) :
    Translated.Keeps ⟨ppn, old⟩ ⟨(A.newPte ppn flags.asValid).ppn,
      (A.newPte ppn flags.asValid).flags.sansValid⟩ := by
  have hkept := encode_permissions hA (show flags.asValid.isLeaf = true from hleaf)
  refine ⟨Nat.mod_eq_of_lt hfits, ?_⟩
  simp only [PagingArch.newPte, sansValid]
  generalize A.encode flags.asValid = new at hkept
  simp only [asValid, contains] at hkept hcontains
  grind

theorem translate_of_base {v : ℕ} {pte : Pte} (h : leafOf A root t v = some ⟨0, pte⟩) :
    translate A root t v = some ⟨pte.ppn, pte.flags.sansValid⟩ := by
  rw [translate_eq, h, Option.map_some, A.levelPages_zero, Nat.mod_one, Nat.add_zero]

/-- **What the write of a leaf reports.**  For every page table in memory: a leaf is added only
if every page keeps its translation; unchanged only if the page had that translation; relaxed
only if it had one to the same frame with fewer flags; and whenever a translation of any page
changes its frame, loses a permission or disappears, it is replaced or restricted.

SOURCE: mm/paging/mapper.rs:759-873 -/
theorem commitLeaf_classifies (hA : A = sv39 ∨ A = la64) (h : Consistent A root t)
    (hencoded : t.Encoded A)
    (hrun : commitLeaf A root t vpn ppn flags = .ok (.ok commit, t')) :
    (commit = .added → ∀ v x, translate A root t v = some x → translate A root t' v = some x) ∧
    (commit = .unchanged → translate A root t vpn = some ⟨ppn, flags⟩) ∧
    (commit = .relaxed → ∃ f, translate A root t vpn = some ⟨ppn, f⟩ ∧
      flags.contains f = true ∧ f ≠ flags) ∧
    ((∃ v x, translate A root t v = some x ∧
      ∀ y, translate A root t' v = some y → ¬ x.Keeps y) → commit = .replacedOrRestricted) := by
  by_cases hcommit : commit = .replacedOrRestricted
  · subst hcommit
    refine ⟨?_, ?_, ?_, fun _ => rfl⟩ <;> rintro ⟨⟩
  obtain ⟨-, ⟨⟩, -⟩ | ⟨-, hwalk⟩ := mapOneCommit_descent h hrun
  have hplaced := hwalk.placed (admits_clearOrValid flags) (.inr rfl)
    (fun _ => .inr (A.newPte_isValid _ _)) h
  have hothers : (∀ leaf, leafOf A root t vpn = some leaf → leaf.level = 0) →
      ∀ v, ¬ SameEntry A 0 v vpn → translate A root t' v = translate A root t v := by
    intro hlow v hv
    apply translate_congr
    rw [hplaced.leaf _ rfl v, if_neg hv]
    cases hleaf : leafOf A root t v with
    | none => rfl
    | some leaf =>
      refine if_neg ?_
      rintro ⟨hpos, hag⟩
      exact hpos.ne' (hlow leaf (leafOf_of_sameEntry hleaf hag))
  obtain ⟨-, ⟨rfl, hnone⟩ | ⟨dir, idx, hleaf, rfl⟩⟩ := hwalk.compares rfl hcommit
  · have hadded : ∀ v x, translate A root t v = some x → translate A root t' v = some x := by
      intro v x hx
      rw [← hx]
      refine hothers (fun leaf hleaf => ?_) v fun hsame => ?_
      · cases hleaf.symm.trans hnone
      · rw [translate_eq] at hx
        obtain ⟨leaf, hleaf, -⟩ := Option.map_eq_some_iff.mp hx
        cases (leafOf_of_sameEntry hleaf (hsame.mono (Nat.zero_le _))).symm.trans hnone
    refine ⟨fun _ => hadded, by rintro ⟨⟩, by rintro ⟨⟩, ?_⟩
    rintro ⟨v, x, hx, hlost⟩
    exact absurd ⟨rfl, id, id, id, id⟩ (hlost x (hadded v x hx))
  · set pte := t.entries dir idx with hpte
    have hisLeaf : pte.isLeaf = true := (Tables.leafIn_level_le hleaf).2
    obtain ⟨hppn, hcontains, hkind⟩ := commitOf_leaf hisLeaf hcommit
    have hbefore := translate_of_base hleaf
    rw [hppn] at hbefore
    refine ⟨fun hadded => ?_, fun hunchanged => ?_, fun hrelaxed => ?_, ?_⟩
    · simp [hadded] at hkind
    · have hflags : pte.flags.sansValid = flags := by simpa [hunchanged] using hkind
      rw [hbefore, hflags]
    · exact ⟨_, hbefore, hcontains, by simpa [hrelaxed] using hkind⟩
    · rintro ⟨v, x, hx, hlost⟩
      by_cases hv : SameEntry A 0 v vpn
      · have hsame : x = ⟨ppn, pte.flags.sansValid⟩ := by
          have := translate_of_base (leafOf_of_sameEntry hleaf hv.symm)
          rw [hppn, hx] at this
          exact Option.some.inj this
        have hflags : flags.isLeaf = true := by
          have : pte.flags.sansValid.isLeaf = true := (Bool.and_eq_true_iff.mp hisLeaf).2
          simp only [PteFlags.contains, PteFlags.isLeaf] at *
          grind
        have hafter : leafOf A root t' v = some ⟨0, A.newPte ppn flags.asValid⟩ := by
          rw [hplaced.leaf _ rfl v, if_pos hv, written, if_pos (by rw [A.newPte_isLeaf, hflags])]
        subst hsame
        exact absurd (newPte_keeps hA (hppn ▸ hencoded dir idx) hflags hcontains)
          (hlost _ (translate_of_base hafter))
      · rw [← hothers (fun leaf hleaf' => by cases hleaf.symm.trans hleaf'; rfl) v hv] at hx
        exact absurd ⟨rfl, id, id, id, id⟩ (hlost x hx)

/-- A page gets one more permission, and the large page beside it is cut up for another page: the
first loses nothing, and of the large page nothing is left. -/
theorem commitLeaf_classifies_mapped : ∃ t t₁ t₂ commit,
    commitLeaf sv39 1 t 64 9 { PteFlags.empty with read := true, write := true } =
      .ok (.ok .relaxed, t₁) ∧
    (∃ f, translate sv39 1 t 64 = some ⟨9, f⟩ ∧
      f ≠ { PteFlags.empty with read := true, write := true }) ∧
    commitLeaf sv39 1 t 600 5 { PteFlags.empty with read := true } = .ok (.ok commit, t₂) ∧
    translate sv39 1 t 601 =
      some ⟨1113, { PteFlags.empty with read := true, global := true }⟩ ∧
    translate sv39 1 t₂ 601 = none ∧ commit = .replacedOrRestricted := by
  have hrun : (do
      let leaf ← commitLeaf sv39 1 (blank [2, 3, 4]) 64 9 { PteFlags.empty with read := true }
      let large ← mapOneCommit sv39 1 leaf.2 512 1024
        { PteFlags.empty with read := true, global := true } 1 false
      let more ← commitLeaf sv39 1 large.2 64 9 { PteFlags.empty with read := true, write := true }
      let below ← commitLeaf sv39 1 large.2 600 5 { PteFlags.empty with read := true }
      pure (more.1, below.1, translate sv39 1 large.2 601, translate sv39 1 below.2 601)) =
        .ok (.ok .relaxed, .ok .replacedOrRestricted,
          some ⟨1113, { PteFlags.empty with read := true, global := true }⟩, none) := by
    decide +kernel
  obtain ⟨⟨first, t₀⟩, hleaf, hrun⟩ := bind_eq_ok.mp hrun
  obtain ⟨⟨second, t⟩, hlarge, hrun⟩ := bind_eq_ok.mp hrun
  obtain ⟨⟨third, t₁⟩, hmore, hrun⟩ := bind_eq_ok.mp hrun
  obtain ⟨⟨fourth, t₂⟩, hbelow, hrun⟩ := bind_eq_ok.mp hrun
  simp only [pure_eq, Except.ok.injEq, Prod.mk.injEq] at hrun
  obtain ⟨rfl, rfl, hbefore, hafter⟩ := hrun
  have hblank : Consistent sv39 1 (blank [2, 3, 4]) :=
    intact_blank (.inl rfl) (by decide) (by decide)
  obtain ⟨⟨⟩, -⟩ | ⟨-, hwalk⟩ := mapOneCommit_descent hblank hleaf
  have hbase := (hwalk.placed (admits_clearOrValid _) (.inr rfl)
    (fun _ => Or.inr (sv39.newPte_isValid _ _)) hblank).intact
  obtain ⟨⟨⟩, -⟩ | ⟨-, hwalk'⟩ := mapOneCommit_descent hbase hlarge
  have htable := (hwalk'.placed (admits_clearOrValid _) (.inl rfl)
    (fun _ => by exact Or.inr (Or.inl ⟨rfl, by decide⟩)) hbase).intact
  have hencoded := hwalk'.encoded (hwalk.encoded fun _ _ => Nat.two_pow_pos _)
  obtain ⟨f, hf, -, hne⟩ :=
    (commitLeaf_classifies (.inl rfl) htable hencoded hmore).2.2.1 rfl
  refine ⟨t, t₁, t₂, _, hmore, ⟨f, hf, hne⟩, hbelow, hbefore, hafter, ?_⟩
  refine (commitLeaf_classifies (.inl rfl) htable hencoded hbelow).2.2.2 ⟨601, _, hbefore, ?_⟩
  rw [hafter]
  rintro _ ⟨⟩

/-- A call on a page table that returns, whether it succeeds or not. -/
inductive Call (A : PagingArch) (root : ℕ) (t : Tables) : Tables → Prop where
  | map {m result t'} (run : map A root t m = .ok (result, t')) : Call A root t t'
  | mapOverwrite {m result t'} (leaf : m.flags.isLeaf = true) (fits : m.npages ≤ 2 ^ A.vpnBits)
      (run : mapOverwrite A root t m = .ok (result, t')) : Call A root t t'
  | commitLeaf {vpn ppn flags result t'}
      (run : commitLeaf A root t vpn ppn flags = .ok (result, t')) : Call A root t t'
  | tryUnmap {range mode retired st} (run : tryUnmapWith A root t range mode retired = .ok st) :
      Call A root t st.1

/-- What is unmapped is consistent again. -/
theorem consistent_tryUnmapWith {range : Ranges.VirtPageRange} {mode : PageTableRetirement}
    {retired : List ℕ} {st : Tables × List ℕ} (h : Consistent A root t)
    (hrun : tryUnmapWith A root t range mode retired = .ok st) : Consistent A root st.1 :=
  (swept_tryUnmapWith h hrun).intact (.inl rfl)
    (fun _ hleaf => .inr (Bool.and_eq_true_iff.mp hleaf).1) h

/-- a call that fails half way also leaves a consistent page table. -/
theorem Call.consistent (h : Consistent A root t) (hcall : Call A root t t') :
    Consistent A root t' := by
  cases hcall with
  | @map m _ _ run =>
    have hdoMap {result k t₁} (hdo : doMap A root t m false = .ok (result, k, t₁)) :=
      (doMap_progress_false (admits_clearOrValid m.flags) h hdo).2.1
    rcases map_cases run with ⟨-, k, hdo⟩ | ⟨e, k, t₁, retired, -, hdo, hunmap⟩
    · exact hdoMap hdo
    · exact consistent_tryUnmapWith (hdoMap hdo) hunmap
  | mapOverwrite leaf fits run =>
    obtain ⟨⟨result, k, t₁⟩, hdo, hpure⟩ := bind_eq_ok.mp run
    cases hpure
    exact (doMap_progress (admits_clearOrValid _) (fun _ => ⟨leaf, fits⟩) h hdo).2.1
  | commitLeaf run =>
    rcases mapOneCommit_descent h run with ⟨-, -, rfl⟩ | ⟨-, hwalk⟩
    · exact h
    · exact (hwalk.placed (admits_clearOrValid _) (.inr rfl)
        (fun _ => .inr (A.newPte_isValid _ _)) h).intact
  | tryUnmap run => exact consistent_tryUnmapWith h run

/-- **A page table stays a tree of its own frames.**  After any sequence of calls on an empty page
table, with any outcome, no frame is two tables or a table and free, every table is one level below
the entry that points to it, and every leaf above the lowest level is aligned to its level.

SOURCE: mm/paging/mapper.rs:184-454, 602-708, 759-873 -/
theorem calls_keep_tables (A : PagingArch) (root : ℕ) (free : List ℕ) (t : Tables)
    (hnodup : (root :: free).Nodup) (hfits : ∀ f ∈ root :: free, f < 2 ^ A.ppnBits)
    (hrun : Run.Reaches (Call A root) (blank free) t) : Consistent A root t :=
  hrun.invariant (fun _ _ h hcall => hcall.consistent h) (intact_blank (.inl rfl) hnodup hfits)

/-- A leaf, a range that is refused half way, and an unmapping that gives its tables back. -/
theorem calls_keep_tables_unmapped : ∃ t₁ t₂ st,
    commitLeaf sv39 1 (blank [2, 3, 4]) 64 9 { PteFlags.empty with read := true } =
      .ok (.ok .added, t₁) ∧
    map sv39 1 t₁ ⟨63, 32, { PteFlags.empty with read := true }, 2, false⟩ =
      .ok (.error .alreadyMapped, t₂) ∧
    tryUnmapWith sv39 1 t₂ ⟨0, 512⟩ .immediate [] = .ok st ∧ st.1.free = [2, 3, 4] ∧
    Consistent sv39 1 st.1 := by
  have hrun : (do
      let leaf ← commitLeaf sv39 1 (blank [2, 3, 4]) 64 9 { PteFlags.empty with read := true }
      let pair ← map sv39 1 leaf.2 ⟨63, 32, { PteFlags.empty with read := true }, 2, false⟩
      let st ← tryUnmapWith sv39 1 pair.2 ⟨0, 512⟩ .immediate []
      pure (leaf.1, pair.1, st.1.free)) =
        .ok (.ok .added, .error .alreadyMapped, [2, 3, 4]) := by decide +kernel
  obtain ⟨⟨first, t₁⟩, hleaf, hrun⟩ := bind_eq_ok.mp hrun
  obtain ⟨⟨second, t₂⟩, hpair, hrun⟩ := bind_eq_ok.mp hrun
  obtain ⟨st, hunmap, hrun⟩ := bind_eq_ok.mp hrun
  simp only [pure_eq, Except.ok.injEq, Prod.mk.injEq] at hrun
  obtain ⟨rfl, rfl, hfree⟩ := hrun
  refine ⟨t₁, t₂, st, hleaf, hpair, hunmap, hfree, ?_⟩
  exact calls_keep_tables sv39 1 [2, 3, 4] st.1 (by decide) (by decide)
    (.head (.commitLeaf hleaf) (.head (.map hpair) (.single (.tryUnmap hunmap))))

end Anemone.Paging.Mapper
