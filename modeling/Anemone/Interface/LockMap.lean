import Anemone.Model.PosixLock

/-!
# A lock vector as a map from bytes to modes

`byteMap d h x` is the mode that holder `h` has on offset `x`.  `Canonical d` says how the vector
writes that map down: sorted by range, a holder's segments disjoint and not touching in the same
mode, and writers alone.
-/

namespace Anemone.PosixLock

open PosixLockRange

/-! ## Ranges as sets of offsets -/

variable {x : ℕ} {r : PosixLockRange}

namespace PosixLockRange

/-- The offset `x` lies in the range. -/
def Has (r : PosixLockRange) (x : ℕ) : Prop := r.start ≤ x ∧ ∀ e ∈ r.endExclusive, x < e

instance (r : PosixLockRange) (x : ℕ) : Decidable (r.Has x) :=
  decidable_of_iff (r.start ≤ x ∧ startsBeforeEnd x r.endExclusive = true) (by
    unfold Has startsBeforeEnd
    cases r.endExclusive <;> simp)

theorem startsBeforeEnd_iff {e : Option ℕ} :
    startsBeforeEnd x e = true ↔ ∀ b ∈ e, x < b := by
  cases e <;> simp [startsBeforeEnd]

theorem has_start (r : PosixLockRange) : r.Has r.start := ⟨le_rfl, r.nonempty⟩

variable {r s : PosixLockRange}

/-- Two ranges overlap exactly when they share an offset. -/
theorem overlaps_iff : r.overlaps s = true ↔ ∃ x, r.Has x ∧ s.Has x := by
  unfold overlaps
  rw [Bool.and_eq_true, startsBeforeEnd_iff, startsBeforeEnd_iff]
  constructor
  · rintro ⟨hrs, hsr⟩
    rcases Nat.le_total r.start s.start with hle | hle
    · exact ⟨s.start, ⟨hle, hsr⟩, s.has_start⟩
    · exact ⟨r.start, r.has_start, ⟨hle, hrs⟩⟩
  · rintro ⟨x, ⟨hr, hr'⟩, ⟨hs, hs'⟩⟩
    exact ⟨fun b hb => hr.trans_lt (hs' b hb), fun b hb => hs.trans_lt (hr' b hb)⟩

/-- The range ends at or before the offset. -/
def EndsBy (r : PosixLockRange) (x : ℕ) : Prop := ∃ e ∈ r.endExclusive, e ≤ x

theorem not_has_of_endsBy {x y : ℕ} (h : r.EndsBy x) (hxy : x ≤ y) :
    ¬ r.Has y := by
  rintro ⟨-, hlt⟩
  obtain ⟨e, he, hle⟩ := h
  have := hlt e he
  omega

theorem start_lt_of_endsBy (h : r.EndsBy x) : r.start < x := by
  obtain ⟨e, he, hle⟩ := h
  have := r.nonempty e he
  omega

theorem endsBy_of_disjoint (hle : r.start ≤ s.start)
    (h : ∀ x, ¬ (r.Has x ∧ s.Has x)) : r.EndsBy s.start := by
  by_contra hno
  refine h s.start ⟨⟨hle, fun e he => ?_⟩, s.has_start⟩
  by_contra hge
  exact hno ⟨e, he, Nat.not_lt.mp hge⟩

theorem endExclusive_eq (hstart : r.start = s.start) (hr : ∀ e ∈ r.endExclusive, ¬ s.Has e)
    (hs : ∀ e ∈ s.endExclusive, ¬ r.Has e) : r.endExclusive = s.endExclusive := by
  have hr' := r.nonempty
  have hs' := s.nonempty
  unfold Has at hr hs
  cases hre : r.endExclusive with
  | none =>
    cases hse : s.endExclusive with
    | none => rfl
    | some b =>
      simp [hre, hse] at *
      omega
  | some a =>
    cases hse : s.endExclusive with
    | none =>
      simp [hre, hse] at *
      omega
    | some b =>
      simp [hre, hse] at *
      omega

theorem start_le_of_cmp (h : r.cmp s ≠ .gt) : r.start ≤ s.start := by
  by_contra hlt
  apply h
  simp [cmp, Nat.compare_eq_gt.mpr (Nat.not_le.mp hlt)]

end PosixLockRange

/-! ## The byte map -/

namespace PosixLockDomain

variable {H : Type} [DecidableEq H]

/-- The mode the holder has on the offset. -/
def byteMap (d : PosixLockDomain H) (h : H) (x : ℕ) : Option PosixLockMode :=
  (d.find? fun segment => segment.owner = h ∧ segment.range.Has x).map (·.mode)

/-- One segment ends before the other starts, and leaves a gap if the modes are equal. -/
def Before (a b : PosixLockSegment H) : Prop :=
  a.range.EndsBy b.range.start ∧ (a.mode = b.mode → ∀ e ∈ a.range.endExclusive, e < b.range.start)

/-- Two segments that one holder may have side by side. -/
def Clear (a b : PosixLockSegment H) : Prop := a.owner = b.owner → Before a b ∨ Before b a

instance : Std.Symm (Clear (H := H)) := ⟨fun _ _ h heq => (h heq.symm).symm⟩

/-- A vector that is sorted, merged, and grants no write lock beside another lock. -/
structure Canonical (d : PosixLockDomain H) : Prop where
  sorted : d.Pairwise NotAfter
  clear : d.Pairwise Clear
  exclusive : ∀ a ∈ d, ∀ b ∈ d, a.owner ≠ b.owner → (∃ x, a.range.Has x ∧ b.range.Has x) →
    a.mode = .read ∧ b.mode = .read

variable {a b : PosixLockSegment H}

omit [DecidableEq H] in
theorem not_has_of_before (h : Before a b ∨ Before b a) (x : ℕ) :
    ¬ (a.range.Has x ∧ b.range.Has x) := by
  rintro ⟨ha, hb⟩
  rcases h with h | h
  · exact not_has_of_endsBy h.1 hb.1 ha
  · exact not_has_of_endsBy h.1 ha.1 hb

namespace Canonical

variable {d : PosixLockDomain H} {m : PosixLockMode}

omit [DecidableEq H] in
theorem before_or_before (h : Canonical d) (ha : a ∈ d) (hb : b ∈ d) (hne : a ≠ b)
    (howner : a.owner = b.owner) : Before a b ∨ Before b a :=
  h.clear.forall ha hb hne howner

omit [DecidableEq H] in
theorem eq_of_has (h : Canonical d) (ha : a ∈ d) (hb : b ∈ d) (howner : a.owner = b.owner)
    (hxa : a.range.Has x) (hxb : b.range.Has x) : a = b := by
  by_contra hne
  exact not_has_of_before (h.before_or_before ha hb hne howner) x ⟨hxa, hxb⟩

/-- The map is the union of the segments. -/
theorem byteMap_eq_some (h : Canonical d) {o : H} :
    byteMap d o x = some m ↔ ∃ a ∈ d, a.owner = o ∧ a.range.Has x ∧ a.mode = m := by
  unfold byteMap
  rw [Option.map_eq_some_iff]
  constructor
  · rintro ⟨a, hfind, rfl⟩
    have hp := List.find?_some hfind
    simp only [decide_eq_true_eq] at hp
    exact ⟨a, List.mem_of_find?_eq_some hfind, hp.1, hp.2, rfl⟩
  · rintro ⟨a, ha, howner, hx, rfl⟩
    cases hfind : d.find? fun segment => segment.owner = o ∧ segment.range.Has x with
    | none =>
      have hnone := List.find?_eq_none.mp hfind a ha
      simp [howner, hx] at hnone
    | some b =>
      have hp := List.find?_some hfind
      simp only [decide_eq_true_eq] at hp
      refine ⟨b, rfl, ?_⟩
      rw [h.eq_of_has (List.mem_of_find?_eq_some hfind) ha (hp.1.trans howner.symm) hp.2 hx]

/-- **The segments are the maximal runs of the map.** -/
theorem mem_iff_maximal_run (h : Canonical d) {o : H} :
    (∃ a ∈ d, a.owner = o ∧ a.range = r ∧ a.mode = m) ↔ (∀ x, r.Has x → byteMap d o x = some m) ∧
      (∀ y, y + 1 = r.start → byteMap d o y ≠ some m) ∧
      ∀ e ∈ r.endExclusive, byteMap d o e ≠ some m := by
  -- next to a segment there is no segment of the same mode
  have hedge : ∀ a ∈ d, (∀ y, y + 1 = a.range.start → byteMap d a.owner y ≠ some a.mode) ∧
      ∀ e ∈ a.range.endExclusive, byteMap d a.owner e ≠ some a.mode := by
    intro a ha
    have hother : ∀ z, ¬ a.range.Has z → byteMap d a.owner z = some a.mode →
        ∃ b, b.range.Has z ∧ a.mode = b.mode ∧ (Before a b ∨ Before b a) := by
      intro z hz hmap
      obtain ⟨b, hb, howner, hbz, hmode⟩ := h.byteMap_eq_some.mp hmap
      have hne : a ≠ b := fun heq => hz (heq ▸ hbz)
      exact ⟨b, hbz, hmode.symm, h.before_or_before ha hb hne howner.symm⟩
    constructor
    · intro y hy hmap
      obtain ⟨b, hby, hmode, hab | hba⟩ := hother y (fun hz => by have := hz.1; omega) hmap
      · have hlt := start_lt_of_endsBy hab.1
        have := hby.1
        omega
      · obtain ⟨e, he, -⟩ := hba.1
        have hgap := hba.2 hmode.symm e he
        have := hby.2 e he
        omega
    · intro e he hmap
      have hse := a.range.nonempty e he
      obtain ⟨b, hbe, hmode, hab | hba⟩ := hother e (fun hz => by have := hz.2 e he; omega) hmap
      · have hgap := hab.2 hmode e he
        have := hbe.1
        omega
      · exact not_has_of_endsBy hba.1 hse.le hbe
  constructor
  · rintro ⟨a, ha, rfl, rfl, rfl⟩
    exact ⟨fun x hx => h.byteMap_eq_some.mpr ⟨a, ha, rfl, hx, rfl⟩, hedge a ha⟩
  · rintro ⟨hrun, hleft, hright⟩
    -- the segment over the first offset has both ends where the run has them
    obtain ⟨b, hb, rfl, hbs, rfl⟩ := h.byteMap_eq_some.mp (hrun r.start r.has_start)
    have hmap : ∀ x, b.range.Has x → byteMap d b.owner x = some b.mode :=
      fun x hx => h.byteMap_eq_some.mpr ⟨b, hb, rfl, hx, rfl⟩
    refine ⟨b, hb, rfl, ?_, rfl⟩
    have hstart : b.range.start = r.start := by
      have hle := hbs.1
      by_contra hne
      refine hleft (r.start - 1) (by omega) (hmap _ ⟨by omega, fun e he => ?_⟩)
      have := hbs.2 e he
      omega
    have hend : b.range.endExclusive = r.endExclusive := endExclusive_eq hstart
        (fun e he hr => (hedge b hb).2 e he (hrun e hr)) fun e he hb => hright e he (hmap e hb)
    cases hbr : b.range
    cases r
    simp_all

end Canonical

end PosixLockDomain

end Anemone.PosixLock
