import Anemone.Analysis.LockRebuild

/-!
# POSIX record locks are a byte map

The calls act on the byte map, and the vector is sorted and merged.  The map determines the
segments but not their order: the sort compares ranges only.
-/

namespace Anemone.PosixLock.PosixLockDomain

open Relation.ReflTransGen (single)
open List
open PosixLockRange (overlaps_iff)

variable {H : Type} [DecidableEq H] {d : PosixLockDomain H}

/-- Another holder's mode on some offset of the range conflicts with the requested one. -/
def Conflicts (f : H → ℕ → Option PosixLockMode) (o : H) (r : PosixLockRange)
    (m : PosixLockMode) : Prop :=
  ∃ h x m', h ≠ o ∧ r.Has x ∧ f h x = some m' ∧ (m = .write ∨ m' = .write)

def Blocks (a : PosixLockSegment H) (o : H) (r : PosixLockRange) (m : PosixLockMode) : Prop :=
  a.owner ≠ o ∧ (∃ x, a.range.Has x ∧ r.Has x) ∧ (m = .write ∨ a.mode = .write)

variable {r : PosixLockRange} {m : PosixLockMode} {d' : PosixLockDomain H} {o : H}

theorem findConflict_eq_some {c : PosixLockConflict} (h : findConflict d o r m = some c) :
    ∃ a ∈ d, Blocks a o r m ∧ conflict a = c := by
  obtain ⟨a, hfind, rfl⟩ := Option.map_eq_some_iff.mp h
  have hp := find?_some hfind
  simp only [ne_eq, Bool.and_eq_true, decide_eq_true_eq, overlaps_iff,
    PosixLockMode.conflictsWith, Bool.or_eq_true] at hp
  exact ⟨a, mem_of_find?_eq_some hfind, ⟨hp.1.1, hp.1.2, hp.2.symm⟩, rfl⟩

theorem findConflict_eq_none (h : findConflict d o r m = none) : ∀ a ∈ d, ¬ Blocks a o r m := by
  rintro a ha ⟨hne, hx, hm⟩
  have hp := find?_eq_none.mp (Option.map_eq_none_iff.mp h) a ha
  simp only [ne_eq, Bool.and_eq_true, decide_eq_true_eq, overlaps_iff,
    PosixLockMode.conflictsWith, Bool.or_eq_true] at hp
  exact hp ⟨⟨hne, hx⟩, hm.symm⟩

theorem Canonical.conflicts_iff (hd : Canonical d) :
    Conflicts (byteMap d) o r m ↔ ∃ a ∈ d, Blocks a o r m := by
  constructor
  · rintro ⟨h, x, m', hne, hx, hmap, hm⟩
    obtain ⟨a, ha, rfl, hax, rfl⟩ := hd.byteMap_eq_some.mp hmap
    exact ⟨a, ha, hne, ⟨x, hax, hx⟩, hm⟩
  · rintro ⟨a, ha, hne, ⟨x, hax, hx⟩, hm⟩
    exact ⟨a.owner, x, a.mode, hne, hx, hd.byteMap_eq_some.mpr ⟨a, ha, rfl, hax, rfl⟩, hm⟩

/-- **`set`** reports a blocking segment and changes nothing, or assigns the range. -/
theorem set_spec (hd : Canonical d) (o : H) (r : PosixLockRange) (m : PosixLockMode) (t : ℕ) :
    (∃ a ∈ d, Blocks a o r m ∧ findConflict d o r m = some (conflict a) ∧
      set d o r m t = .ok (.error (conflict a), d)) ∨
    (findConflict d o r m = none ∧ (∀ a ∈ d, ¬ Blocks a o r m) ∧
      ∃ d', set d o r m t = .ok (.ok (), d') ∧ Canonical d' ∧
        ∀ h x, byteMap d' h x = if h = o ∧ r.Has x then some m else byteMap d h x) := by
  unfold set
  cases hfind : findConflict d o r m with
  | some c =>
    obtain ⟨a, ha, hblock, rfl⟩ := findConflict_eq_some hfind
    exact .inl ⟨a, ha, hblock, rfl, rfl⟩
  | none =>
    have hno := findConflict_eq_none hfind
    obtain ⟨d', hok, hcanon, hmap⟩ := rebuildAssignment_spec hd o r (some (m, t)) (by
      intro m' t' heq a ha hne hx
      cases heq
      have hread := hno a ha
      unfold Blocks at hread
      cases m <;> cases hmode : a.mode <;> simp_all)
    refine .inr ⟨rfl, hno, d', ?_, hcanon, hmap⟩
    simp only [hok, Checked.ok_bind]
    rfl

/-- **`unlock`** clears the range for its holder. -/
theorem unlock_spec (hd : Canonical d) (o : H) (r : PosixLockRange) :
    ∃ d', unlock d o r = .ok d' ∧ Canonical d' ∧
      ∀ h x, byteMap d' h x = if h = o ∧ r.Has x then none else byteMap d h x := by
  unfold unlock
  split_ifs with hany
  · obtain ⟨d', hok, hcanon, hmap⟩ := rebuildAssignment_spec hd o r none (by rintro _ _ ⟨⟩)
    exact ⟨d', hok, hcanon, hmap⟩
  · refine ⟨d, rfl, hd, fun h x => ?_⟩
    split_ifs with hc
    · obtain ⟨rfl, hx⟩ := hc
      cases hmap : byteMap d h x with
      | none => rfl
      | some m =>
        obtain ⟨a, ha, hao, hax, -⟩ := hd.byteMap_eq_some.mp hmap
        refine absurd (any_eq_true.mpr ⟨a, ha, ?_⟩) hany
        simp only [Bool.and_eq_true, decide_eq_true_eq, overlaps_iff]
        exact ⟨hao, x, hax, hx⟩
    · rfl

/-- **`retire_binding`** clears the holder. -/
theorem retireBinding_spec (hd : Canonical d) (o : H) : Canonical (retireBinding d o) ∧
      ∀ h x, byteMap (retireBinding d o) h x = if h = o then none else byteMap d h x := by
  have hcanon : Canonical (retireBinding d o) := by
    refine ⟨hd.sorted.filter _, hd.clear.filter _, fun a ha b hb => ?_⟩
    exact hd.exclusive a (mem_of_mem_filter ha) b (mem_of_mem_filter hb)
  refine ⟨hcanon, fun h x => Option.ext fun m => ?_⟩
  rw [hcanon.byteMap_eq_some]
  simp only [retireBinding, mem_filter, decide_eq_true_eq]
  split_ifs with hho
  · subst hho
    simp only [iff_false]
    rintro ⟨a, ⟨-, hne⟩, hao, -⟩
    exact hne hao
  · rw [hd.byteMap_eq_some]
    constructor
    · rintro ⟨a, ⟨ha, -⟩, hrest⟩
      exact ⟨a, ha, hrest⟩
    · rintro ⟨a, ha, hao, hrest⟩
      exact ⟨a, ⟨ha, fun heq => hho (hao.symm.trans heq)⟩, hao, hrest⟩

omit [DecidableEq H] in
theorem Canonical.nil : Canonical ([] : PosixLockDomain H) :=
  ⟨List.Pairwise.nil, List.Pairwise.nil, fun _ ha => (not_mem_nil ha).elim⟩

theorem Canonical.step (hd : Canonical d) (hst : Step d d') :
    Canonical d' := by
  cases hst with
  | set o r m t h =>
    rcases set_spec hd o r m t with ⟨a, -, -, -, heq⟩ | ⟨-, -, d₁, heq, hcanon, -⟩
    · cases h.symm.trans heq
      exact hd
    · cases h.symm.trans heq
      exact hcanon
  | unlock o r h =>
    obtain ⟨d₁, heq, hcanon, -⟩ := unlock_spec hd o r
    cases h.symm.trans heq
    exact hcanon
  | retireBinding o => exact (retireBinding_spec hd o).1

theorem canonical_of_reaches (hrun : Run.Reaches Step [] d) : Canonical d :=
  Run.Reaches.invariant (fun _ _ h hst => h.step hst) hrun Canonical.nil

/-- The calls from the vector `d` act on its byte map. -/
structure RefinesByteMap (d : PosixLockDomain H) : Prop where
  /-- `set` fails exactly on a conflict, and then changes nothing. -/
  set_fails_iff : ∀ o r m t, (∃ c, set d o r m t = .ok (.error c, d)) ↔ Conflicts (byteMap d) o r m
  /-- The reported conflict is a segment that conflicts. -/
  set_reports : ∀ o r m t c d', set d o r m t = .ok (.error c, d') →
    d' = d ∧ ∃ a ∈ d, Blocks a o r m ∧ conflict a = c
  /-- Otherwise `set` changes the offsets of the range for its holder. -/
  set_assigns : ∀ o r m t, ¬ Conflicts (byteMap d) o r m → ∃ d', set d o r m t = .ok (.ok (), d') ∧
    ∀ h x, byteMap d' h x = if h = o ∧ r.Has x then some m else byteMap d h x
  unlock_clears : ∀ o r, ∃ d', unlock d o r = .ok d' ∧
    ∀ h x, byteMap d' h x = if h = o ∧ r.Has x then none else byteMap d h x
  retireBinding_clears : ∀ o h x,
    byteMap (retireBinding d o) h x = if h = o then none else byteMap d h x
  query_agrees : ∀ o r m t, (query d o r m = none ↔ ∃ d', set d o r m t = .ok (.ok (), d')) ∧
    ∀ c, query d o r m = some c ↔ ∃ d', set d o r m t = .ok (.error c, d')

/-- **Record locks refine a byte map.**  From every vector that `set`, `unlock` and
`retire_binding` build, by any holders on any ranges, these calls read and write the map from
holders and offsets to modes, and none of them panics.

SOURCE: posix.rs:178-314, posix.rs:411-428 -/
theorem reaches_refinesByteMap (hrun : Run.Reaches Step [] d) : RefinesByteMap d := by
  have hd := canonical_of_reaches hrun
  refine ⟨fun o r m t => ?_, fun o r m t c d' h => ?_, fun o r m t hno => ?_, fun o r => ?_,
    fun o => (retireBinding_spec hd o).2, fun o r m t => ?_⟩
  · rw [hd.conflicts_iff]
    rcases set_spec hd o r m t with ⟨a, ha, hblock, -, heq⟩ | ⟨-, hno, d', heq, -⟩
    · exact iff_of_true ⟨_, heq⟩ ⟨a, ha, hblock⟩
    · refine iff_of_false ?_ fun ⟨a, ha, hblock⟩ => hno a ha hblock
      rintro ⟨c, hc⟩
      cases heq.symm.trans hc
  · rcases set_spec hd o r m t with ⟨a, ha, hblock, -, heq⟩ | ⟨-, -, d₁, heq, -⟩
    · cases heq.symm.trans h
      exact ⟨rfl, a, ha, hblock, rfl⟩
    · cases heq.symm.trans h
  · rcases set_spec hd o r m t with ⟨a, ha, hblock, -, -⟩ | ⟨-, -, d', heq, -, hmap⟩
    · exact absurd (hd.conflicts_iff.mpr ⟨a, ha, hblock⟩) hno
    · exact ⟨d', heq, hmap⟩
  · obtain ⟨d', heq, -, hmap⟩ := unlock_spec hd o r
    exact ⟨d', heq, hmap⟩
  · unfold query
    rcases set_spec hd o r m t with ⟨a, -, -, hfind, heq⟩ | ⟨hfind, -, d', heq, -⟩
    all_goals
      rw [hfind, heq]
      simp

/-- The offsets from the first to the last. -/
def bytes (first last : ℕ) (h : first ≤ last) : PosixLockRange :=
  ⟨first, some (last + 1), by simpa [Nat.lt_succ_iff] using h⟩

/-- Holder 1 writes two pieces and reads a third, which holder 2 reads in part. -/
def shared (tgid : ℕ) : PosixLockDomain ℕ :=
  [⟨1, bytes 0 0 (by decide), .write, tgid⟩, ⟨1, bytes 2 3 (by decide), .write, tgid⟩,
    ⟨1, bytes 5 6 (by decide), .read, tgid⟩, ⟨2, bytes 6 8 (by decide), .read, 8⟩]

/-- Three calls of `set` and an `unlock` that cuts the first segment. -/
theorem reaches_shared (tgid : ℕ) : Run.Reaches Step [] (shared tgid) := by
  let write : PosixLockSegment ℕ := ⟨1, bytes 0 3 (by decide), .write, tgid⟩
  let read : PosixLockSegment ℕ := ⟨2, bytes 6 8 (by decide), .read, 8⟩
  let other : PosixLockSegment ℕ := ⟨1, bytes 5 6 (by decide), .read, tgid⟩
  have hwrite : Step [] [write] := .set [] 1 write.range .write tgid (r := .ok ()) rfl
  have hread : Step [write] [write, read] := .set _ 2 read.range .read 8 (r := .ok ()) rfl
  have hother : Step [write, read] [write, other, read] :=
    .set _ 1 other.range .read tgid (r := .ok ()) rfl
  have hcut : Step [write, other, read] (shared tgid) := .unlock _ 1 (bytes 1 1 (by decide)) rfl
  exact (((single hwrite).tail hread).tail hother).tail hcut

theorem reaches_refinesByteMap_shared : Run.Reaches Step [] (shared 7) ∧
    RefinesByteMap (shared 7) ∧ Conflicts (byteMap (shared 7)) 2 (bytes 3 4 (by decide)) .read := by
  have hrefines := reaches_refinesByteMap (reaches_shared 7)
  exact ⟨reaches_shared 7, hrefines, (hrefines.set_fails_iff 2 _ .read 8).mp ⟨_, rfl⟩⟩

/-- What a segment says, apart from the thread group to report. -/
def key (a : PosixLockSegment H) : H × PosixLockRange × PosixLockMode := (a.owner, a.range, a.mode)

/-- The map does not read the thread groups. -/
theorem byteMap_eq_key (h : H) (x : ℕ) : byteMap d h x =
    ((d.map key).find? fun k => k.1 = h ∧ k.2.1.Has x).map fun k => k.2.2 := by
  rw [find?_map, Option.map_map]
  rfl

/-- The shape of the vector, and that no call from it panics. -/
structure WellFormed (d : PosixLockDomain H) : Prop where
  sorted : d.Pairwise fun a b => a.range.cmp b.range ≠ .gt
  nonempty : ∀ a ∈ d, ∃ x, a.range.Has x
  /-- Segments of one holder have no common offset. -/
  disjoint : d.Pairwise fun a b => a.owner = b.owner → a.range.overlaps b.range = false
  /-- Segments of one holder with the same mode do not touch. -/
  apart : d.Pairwise fun a b => a.owner = b.owner → a.mode = b.mode →
    a.range.endExclusive ≠ some b.range.start ∧ b.range.endExclusive ≠ some a.range.start
  /-- A write segment overlaps no segment of another holder. -/
  exclusive : ∀ a ∈ d, a.mode = .write → ∀ b ∈ d, b.owner ≠ a.owner →
    a.range.overlaps b.range = false
  set_returns : ∀ o r m t, ∃ res, set d o r m t = .ok res
  unlock_returns : ∀ o r, ∃ d', unlock d o r = .ok d'

theorem Canonical.wellFormed (hd : Canonical d) : WellFormed d where
  sorted := hd.sorted
  nonempty a _ := ⟨_, a.range.has_start⟩
  disjoint := by
    refine hd.clear.imp fun h heq => ?_
    rw [← Bool.not_eq_true, overlaps_iff]
    rintro ⟨x, hx⟩
    exact not_has_of_before (h heq) x hx
  apart := by
    refine hd.clear.imp fun {a b} h heq hmode => ?_
    rcases h heq with hab | hba
    · have hlt := PosixLockRange.start_lt_of_endsBy hab.1
      refine ⟨fun he => (hab.2 hmode _ he).false, fun he => ?_⟩
      have := b.range.nonempty _ he
      omega
    · have hlt := PosixLockRange.start_lt_of_endsBy hba.1
      refine ⟨fun he => ?_, fun he => (hba.2 hmode.symm _ he).false⟩
      have := a.range.nonempty _ he
      omega
  exclusive a ha hw b hb hne := by
    rw [← Bool.not_eq_true, overlaps_iff]
    intro hx
    have hread := (hd.exclusive a ha b hb hne.symm hx).1
    rw [hw] at hread
    cases hread
  set_returns o r m t := by
    rcases set_spec hd o r m t with ⟨a, -, -, -, heq⟩ | ⟨-, -, d', heq, -⟩
    all_goals exact ⟨_, heq⟩
  unlock_returns o r := by
    obtain ⟨d', heq, -⟩ := unlock_spec hd o r
    exact ⟨d', heq⟩

theorem cmp_antisymm {r s : PosixLockRange} (hrs : r.cmp s ≠ .gt) (hsr : s.cmp r ≠ .gt) :
    r = s := by
  have hstart : r.start = s.start :=
    le_antisymm (PosixLockRange.start_le_of_cmp hrs) (PosixLockRange.start_le_of_cmp hsr)
  obtain ⟨a, e, he⟩ := r
  obtain ⟨b, f, hf⟩ := s
  subst hstart
  cases e <;> cases f <;>
    simp_all [PosixLockRange.cmp, PosixLockRange.cmpEnd, Nat.compare_ne_gt, le_antisymm_iff]

omit [DecidableEq H] in
theorem Canonical.nodup_keys (hd : Canonical d) : (d.map key).Nodup := by
  rw [List.Nodup, pairwise_map]
  refine hd.clear.imp fun {a b} h heq => ?_
  obtain ⟨howner, hrange, -⟩ : a.owner = b.owner ∧ a.range = b.range ∧ a.mode = b.mode := by
    simpa [key] using heq
  exact not_has_of_before (h howner) _ ⟨a.range.has_start, hrange ▸ a.range.has_start⟩

/-- **the map determines the segments**, since these are its maximal runs. -/
theorem Canonical.perm_of_byteMap_eq (hd : Canonical d) (hd' : Canonical d')
    (hmap : ∀ h x, byteMap d h x = byteMap d' h x) :
    (d.map key).Perm (d'.map key) := by
  have hkey : ∀ (e : PosixLockDomain H) o r m,
      (o, r, m) ∈ e.map key ↔ ∃ a ∈ e, a.owner = o ∧ a.range = r ∧ a.mode = m := by
    simp [key]
  rw [perm_ext_iff_of_nodup hd.nodup_keys hd'.nodup_keys]
  rintro ⟨o, r, m⟩
  rw [hkey, hkey, hd.mem_iff_maximal_run, hd'.mem_iff_maximal_run]
  simp only [hmap]

/-- **The representation of record locks.**  Every vector that `set`, `unlock` and
`retire_binding` build is sorted, and merged holder by holder; a writer is alone; the next
call fails no assertion; and any two such vectors with the same byte map have the same
segments, up to the thread group to report and the order among equal ranges.

SOURCE: posix.rs:14-91, posix.rs:194-266 -/
theorem reaches_wellFormed (hrun : Run.Reaches Step [] d) :
    WellFormed d ∧ ∀ d' : PosixLockDomain H, Run.Reaches Step [] d' →
      (∀ h x, byteMap d h x = byteMap d' h x) →
      (d.map key).Perm (d'.map key) ∧ d.map (·.range) = d'.map (·.range) := by
  have hd := canonical_of_reaches hrun
  refine ⟨hd.wellFormed, fun d' hrun' hmap => ?_⟩
  have hd' := canonical_of_reaches hrun'
  have hperm := hd.perm_of_byteMap_eq hd' hmap
  refine ⟨hperm, ?_⟩
  have hrange : (d.map (·.range)).Perm (d'.map (·.range)) := by
    simpa [key, Function.comp_def] using hperm.map fun k => k.2.1
  refine hrange.eq_of_pairwise (fun r s _ _ hrs hsr => cmp_antisymm hrs hsr) ?_ ?_
  · exact List.pairwise_map.mpr hd.sorted
  · exact List.pairwise_map.mpr hd'.sorted

/-- The same calls, reported under two thread groups. -/
theorem reaches_wellFormed_shared : Run.Reaches Step [] (shared 7) ∧ WellFormed (shared 7) ∧
    Run.Reaches Step [] (shared 9) ∧ ((shared 7).map key).Perm ((shared 9).map key) := by
  obtain ⟨hformed, hsame⟩ := reaches_wellFormed (reaches_shared 7)
  have hmap : ∀ h x, byteMap (shared 7) h x = byteMap (shared 9) h x := by
    intro h x
    rw [byteMap_eq_key, byteMap_eq_key]
    rfl
  exact ⟨reaches_shared 7, hformed, reaches_shared 9, (hsame _ (reaches_shared 9) hmap).1⟩

/-- **The order of equal ranges is history.**  Two holders that read one byte stand in the
vector in the order in which they locked it, so that two vectors with the same byte map
differ in more than the thread groups to report.

SOURCE: posix.rs:263-265 -/
theorem segments_order_depends_on_history : ∃ d d' : PosixLockDomain ℕ,
    Run.Reaches Step [] d ∧ Run.Reaches Step [] d' ∧ (∀ h x, byteMap d h x = byteMap d' h x) ∧
      d.map key ≠ d'.map key := by
  let first := bytes 0 0 (by decide)
  let a : PosixLockSegment ℕ := ⟨1, first, .read, 7⟩
  let b : PosixLockSegment ℕ := ⟨2, first, .read, 8⟩
  have ha : Step [] [a] := .set [] 1 first .read 7 (r := .ok ()) rfl
  have hab : Step [a] [a, b] := .set _ 2 first .read 8 (r := .ok ()) rfl
  have hb : Step [] [b] := .set [] 2 first .read 8 (r := .ok ()) rfl
  have hba : Step [b] [b, a] := .set _ 1 first .read 7 (r := .ok ()) rfl
  refine ⟨[a, b], [b, a], (single ha).tail hab, (single hb).tail hba, fun h x => ?_, by decide⟩
  by_cases hx : first.Has x <;> by_cases h1 : 1 = h <;> by_cases h2 : 2 = h <;>
    simp [byteMap, a, b, hx, h1, h2]

end Anemone.PosixLock.PosixLockDomain
