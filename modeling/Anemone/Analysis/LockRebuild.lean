import Anemone.Interface.LockMap
import Mathlib.Data.Prod.Lex

/-!
# Rebuilding the vector for one assignment

`rebuild_assignment` cuts the owner's segments, merges them and sorts the holders together again.
Merging compares with the last emitted segment only; in sorted order every earlier one ends before
that one starts.
-/

namespace Anemone.PosixLock

open Checked (ok_bind assert_of)
open Option (mem_def mem_unique)
open List

open PosixLockRange (not_has_of_endsBy endsBy_of_disjoint startsBeforeEnd_iff overlaps_iff)

variable {s : PosixLockRange} {x : ℕ}

namespace PosixLockRange

theorem finite_of_lt {a b : ℕ} (h : a < b) :
    ∃ r, finite a b = .ok r ∧ r.start = a ∧ r.endExclusive = some b :=
  ⟨_, dif_pos h, rfl, rfl⟩

variable {r s : PosixLockRange}

theorem partBefore_spec (hov : r.overlaps s = true) :
    ∃ l, r.partBefore s = .ok l ∧ ∀ x, (∃ p ∈ l, p.Has x) ↔ r.Has x ∧ x < s.start := by
  have hreach := startsBeforeEnd_iff.mp (Bool.and_eq_true_iff.mp hov).2
  unfold partBefore
  by_cases hlt : r.start < s.start
  · obtain ⟨p, hp, hps, hpe⟩ := finite_of_lt hlt
    refine ⟨some p, by rw [if_pos hlt, hp]; rfl, fun x => ?_⟩
    simp only [mem_def, Option.some.injEq, exists_eq_left', Has, hps, hpe]
    constructor
    · rintro ⟨hlo, hhi⟩
      have hx := hhi s.start rfl
      exact ⟨⟨hlo, fun e he => hx.trans (hreach e he)⟩, hx⟩
    · rintro ⟨⟨hlo, -⟩, hx⟩
      refine ⟨hlo, fun e he => ?_⟩
      cases he
      exact hx
  · refine ⟨none, if_neg hlt, fun x => ?_⟩
    simp only [mem_def, reduceCtorEq, false_and, exists_false, false_iff]
    rintro ⟨hx, hlt'⟩
    have := hx.1
    omega

theorem partBehind_spec (hov : r.overlaps s = true) : ∃ l, r.partBehind s = .ok l ∧
      ∀ x, (∃ p ∈ l, p.Has x) ↔ r.Has x ∧ ∃ e ∈ s.endExclusive, e ≤ x := by
  have hreach := startsBeforeEnd_iff.mp (Bool.and_eq_true_iff.mp hov).1
  unfold partBehind
  cases hs : s.endExclusive with
  | none => exact ⟨none, rfl, fun x => by simp⟩
  | some b =>
    have hrb : r.start < b := hreach b hs
    cases hr : r.endExclusive with
    | none =>
      refine ⟨_, rfl, fun x => ?_⟩
      simp only [mem_def, Option.some.injEq, exists_eq_left', Has, openEnded, hr]
      constructor
      · rintro ⟨hlo, -⟩
        exact ⟨⟨by omega, by rintro _ ⟨⟩⟩, hlo⟩
      · rintro ⟨-, hbx⟩
        exact ⟨hbx, by rintro _ ⟨⟩⟩
    | some e =>
      by_cases hbe : b < e
      · obtain ⟨p, hp, hps, hpe⟩ := finite_of_lt hbe
        refine ⟨some p, by simp only [if_pos hbe, hp]; rfl, fun x => ?_⟩
        simp only [mem_def, Option.some.injEq, exists_eq_left', Has, hps, hpe, hr]
        constructor
        · rintro ⟨hlo, hhi⟩
          exact ⟨⟨by omega, hhi⟩, hlo⟩
        · rintro ⟨⟨-, hhi⟩, hbx⟩
          exact ⟨hbx, hhi⟩
      · refine ⟨none, if_neg hbe, fun x => ?_⟩
        simp only [mem_def, reduceCtorEq, false_and, exists_false, false_iff,
          Option.some.injEq, exists_eq_left', not_and]
        intro hx hbx
        have := hx.2 e hr
        omega

theorem outsideParts_spec (hov : r.overlaps s = true) : ∃ l m, r.outsideParts s = .ok (l, m) ∧
      (∀ x, (∃ p ∈ l, p.Has x) ↔ r.Has x ∧ x < s.start) ∧
      ∀ x, (∃ p ∈ m, p.Has x) ↔ r.Has x ∧ ∃ e ∈ s.endExclusive, e ≤ x := by
  obtain ⟨l, hl, hlx⟩ := partBefore_spec hov
  obtain ⟨m, hm, hmx⟩ := partBehind_spec hov
  refine ⟨l, m, ?_, hlx, hmx⟩
  unfold outsideParts
  rw [assert_of _ hov, ok_bind, hl, ok_bind, hm]
  rfl

theorem not_has_iff :
    ¬ s.Has x ↔ x < s.start ∨ ∃ e ∈ s.endExclusive, e ≤ x := by
  unfold Has
  rw [not_and_or, Nat.not_le]
  push Not
  rfl

theorem merge_spec (hend : r.endExclusive = some s.start) :
    ∃ t, r.merge s = .ok t ∧ t.start = r.start ∧ t.endExclusive = s.endExclusive := by
  have hle : r.start ≤ s.start := (r.nonempty s.start hend).le
  have htouch : r.touchesOrOverlaps s = .ok true := by
    unfold touchesOrOverlaps reaches
    rw [assert_of _ hle, ok_bind, hend]
    simp
  refine ⟨⟨r.start, laterEnd r.endExclusive s.endExclusive, r.lt_laterEnd s⟩, ?_, rfl, ?_⟩
  · unfold merge
    rw [htouch, ok_bind, assert_of _ rfl]
    rfl
  · change laterEnd r.endExclusive s.endExclusive = s.endExclusive
    have hs := s.nonempty
    cases hse : s.endExclusive with
    | none => simp [hend, laterEnd]
    | some e =>
      have hlt := hs e hse
      simp [hend, laterEnd, hlt.le]

end PosixLockRange

namespace PosixLockDomain

variable {H : Type} [DecidableEq H] {o : H} {l : PosixLockDomain H} {m : PosixLockMode}

/-- some segment of the list has the offset in the mode. -/
def Locks (l : PosixLockDomain H) (x : ℕ) (m : PosixLockMode) : Prop :=
  ∃ a ∈ l, a.range.Has x ∧ a.mode = m

omit [DecidableEq H] in
theorem locks_append {l' : PosixLockDomain H} :
    Locks (l ++ l') x m ↔ Locks l x m ∨ Locks l' x m := by
  simp only [Locks, mem_append, or_and_right, exists_or]

/-- the segments have no offset in common. -/
def Disjoint (a b : PosixLockSegment H) : Prop := ∀ x, ¬ (a.range.Has x ∧ b.range.Has x)

instance : Std.Symm (Disjoint (H := H)) := ⟨fun _ _ h x hx => h x hx.symm⟩

/-- the two parts of a cut segment, as segments. -/
def parts (o : H) (a : PosixLockSegment H) (l m : Option PosixLockRange) : PosixLockDomain H :=
  l.toList.map (fun r => ⟨o, r, a.mode, a.reportTgid⟩) ++
    m.toList.map (fun r => ⟨o, r, a.mode, a.reportTgid⟩)

omit [DecidableEq H] in
theorem mem_parts {a b : PosixLockSegment H} {l m : Option PosixLockRange} :
    b ∈ parts o a l m ↔
      ∃ r, (r ∈ l ∨ r ∈ m) ∧ b = ⟨o, r, a.mode, a.reportTgid⟩ := by
  simp only [parts, mem_append, mem_map, Option.mem_toList, mem_def, or_and_right,
    exists_or, eq_comm]

variable {a : PosixLockSegment H} {d : PosixLockDomain H}

omit [DecidableEq H] in
/-- the parts of a cut segment are disjoint, and have what the assigned range leaves
of it. -/
theorem parts_spec {l m : Option PosixLockRange}
    (hl : ∀ x, (∃ p ∈ l, p.Has x) ↔ a.range.Has x ∧ x < s.start)
    (hm : ∀ x, (∃ p ∈ m, p.Has x) ↔ a.range.Has x ∧ ∃ e ∈ s.endExclusive, e ≤ x) :
    (parts o a l m).Pairwise Disjoint ∧
      ∀ x n, Locks (parts o a l m) x n ↔ ¬ s.Has x ∧ a.range.Has x ∧ a.mode = n := by
  refine ⟨?_, fun x n => ?_⟩
  · unfold parts
    cases l with
    | none => cases m <;> simp
    | some p =>
      cases m with
      | none => simp
      | some q =>
        simp only [Option.toList_some, map_cons, map_nil, cons_append,
          nil_append, pairwise_cons, mem_singleton, forall_eq, not_mem_nil,
          IsEmpty.forall_iff, implies_true, List.Pairwise.nil, and_true]
        rintro x ⟨hp, hq⟩
        obtain ⟨-, hlt⟩ := (hl x).mp ⟨p, rfl, hp⟩
        obtain ⟨-, e, he, hle⟩ := (hm x).mp ⟨q, rfl, hq⟩
        have := s.nonempty e he
        omega
  · rw [PosixLockRange.not_has_iff]
    constructor
    · rintro ⟨b, hb, hbx, hmode⟩
      obtain ⟨r, hr | hr, rfl⟩ := mem_parts.mp hb
      · obtain ⟨ha, hlt⟩ := (hl x).mp ⟨r, hr, hbx⟩
        exact ⟨.inl hlt, ha, hmode⟩
      · obtain ⟨ha, hge⟩ := (hm x).mp ⟨r, hr, hbx⟩
        exact ⟨.inr hge, ha, hmode⟩
    · rintro ⟨hlt | hge, ha, hmode⟩
      · obtain ⟨r, hr, hx⟩ := (hl x).mpr ⟨ha, hlt⟩
        exact ⟨_, mem_parts.mpr ⟨r, .inl hr, rfl⟩, hx, hmode⟩
      · obtain ⟨r, hr, hx⟩ := (hm x).mpr ⟨ha, hge⟩
        exact ⟨_, mem_parts.mpr ⟨r, .inr hr, rfl⟩, hx, hmode⟩

/-- **cutting**: the owner's segments lose the assigned offsets, and nothing else
changes. -/
theorem splitOwner_spec (hclear : d.Pairwise Clear) :
    ∃ owned, splitOwner o s d = .ok (d.filter fun a => a.owner ≠ o, owned) ∧
      (∀ b ∈ owned, b.owner = o) ∧ owned.Pairwise Disjoint ∧
      ∀ x m, Locks owned x m ↔ ¬ s.Has x ∧ ∃ a ∈ d, a.owner = o ∧ a.range.Has x ∧ a.mode = m := by
  induction d with
  | nil => exact ⟨[], rfl, by simp, List.Pairwise.nil, by simp [Locks]⟩
  | cons a d ih =>
    obtain ⟨hhead, htail⟩ := pairwise_cons.mp hclear
    obtain ⟨owned, hok, howner, hdisj, hlocks⟩ := ih htail
    by_cases ha : a.owner = o
    · -- what is put before `owned` lies inside `a`, and no other segment of the owner does
      have hinside : ∀ (b : PosixLockSegment H) x, b ∈ owned → a.range.Has x → ¬ b.range.Has x := by
        intro b x hb hax hbx
        obtain ⟨-, c, hc, hco, hcx, -⟩ := (hlocks x b.mode).mp ⟨b, hb, hbx, rfl⟩
        exact not_has_of_before (hhead c hc (ha.trans hco.symm)) x ⟨hax, hcx⟩
      have hfilter : (a :: d).filter (fun a => a.owner ≠ o) = d.filter fun a => a.owner ≠ o := by
        simp [ha]
      rw [hfilter]
      suffices hcut : ∃ pieces, splitOwner o s (a :: d) =
            .ok (d.filter fun a => a.owner ≠ o, pieces ++ owned) ∧
          (∀ b ∈ pieces, b.owner = o) ∧ pieces.Pairwise Disjoint ∧
          ∀ x n, Locks pieces x n ↔ ¬ s.Has x ∧ a.range.Has x ∧ a.mode = n by
        obtain ⟨pieces, hrun, hpo, hpd, hpl⟩ := hcut
        refine ⟨pieces ++ owned, hrun, ?_, ?_, fun x n => ?_⟩
        · exact forall_mem_append.mpr ⟨hpo, howner⟩
        · refine pairwise_append.mpr ⟨hpd, hdisj, fun b hb c hc x hx => ?_⟩
          obtain ⟨-, hax, -⟩ := (hpl x b.mode).mp ⟨b, hb, hx.1, rfl⟩
          exact hinside c x hc hax hx.2
        · rw [locks_append, hpl, hlocks, exists_mem_cons_iff, ← and_or_left]
          simp only [ha, true_and]
      by_cases hov : a.range.overlaps s = true
      · obtain ⟨l, m, hparts, hl, hm⟩ := PosixLockRange.outsideParts_spec hov
        obtain ⟨hpd, hpl⟩ := parts_spec (o := o) hl hm
        refine ⟨parts o a l m, ?_, ?_, hpd, hpl⟩
        · unfold splitOwner
          simp only [ha, ne_eq, not_true_eq_false, if_false, hov, Bool.true_eq_false, hparts,
            ok_bind, hok]
          rfl
        · intro b hb
          obtain ⟨r, -, rfl⟩ := mem_parts.mp hb
          rfl
      · refine ⟨[a], ?_, forall_mem_singleton.mpr ha, pairwise_singleton _ _, fun x n => ?_⟩
        · unfold splitOwner
          simp only [ha, ne_eq, not_true_eq_false, if_false, hov, if_true, ok_bind, hok]
          rfl
        · have hno : a.range.Has x → ¬ s.Has x := fun hax hsx => hov (overlaps_iff.mpr ⟨x, hax, hsx⟩)
          simp only [Locks, mem_singleton, exists_eq_left]
          exact (and_iff_right_of_imp fun hax => hno hax.1).symm
    · refine ⟨owned, ?_, howner, hdisj, ?_⟩
      · unfold splitOwner
        simp only [ne_eq, ha, not_false_eq_true, if_true, hok, ok_bind]
        simp [ha]
      · intro x n
        rw [hlocks, exists_mem_cons_iff]
        simp [ha]

/-- what the segments are sorted by. -/
def sortKey (a : PosixLockSegment H) : ℕ ×ₗ WithTop ℕ :=
  toLex (a.range.start, a.range.endExclusive.elim ⊤ (↑))

omit [DecidableEq H] in
theorem notAfter_iff {a b : PosixLockSegment H} : NotAfter a b ↔ sortKey a ≤ sortKey b := by
  unfold NotAfter PosixLockRange.cmp sortKey
  rw [Prod.Lex.toLex_le_toLex]
  rcases Nat.lt_trichotomy a.range.start b.range.start with hlt | heq | hgt
  · simp [Nat.compare_eq_lt.mpr hlt, hlt]
  · rw [heq, Nat.compare_eq_eq.mpr rfl]
    cases a.range.endExclusive <;> cases b.range.endExclusive <;>
      simp [Ordering.then, PosixLockRange.cmpEnd, Nat.compare_ne_gt]
  · simp [Nat.compare_eq_gt.mpr hgt]
    omega

instance : IsTrans (PosixLockSegment H) NotAfter where
  trans a b c hab hbc := by
    rw [notAfter_iff] at hab hbc ⊢
    exact hab.trans hbc

instance : Std.Total (NotAfter (H := H)) where
  total a b := by
    rw [notAfter_iff, notAfter_iff]
    exact le_total _ _

omit [DecidableEq H] in
theorem before_of_before {a b c : PosixLockSegment H} (hab : Before a b)
    (hbc : b.range.EndsBy c.range.start) : Before a c := by
  have hb := PosixLockRange.start_lt_of_endsBy hbc
  obtain ⟨e, he, hle⟩ := hab.1
  refine ⟨⟨e, he, by omega⟩, fun _ e' he' => ?_⟩
  cases mem_unique he he'
  omega

/-- **one turn of the merge loop**, on a segment that starts behind the last emitted
one. -/
theorem canonicalizeStep_spec {acc : PosixLockDomain H} (hao : a.owner = o)
    (howner : ∀ b ∈ acc, b.owner = o)
    (hacc : acc.Pairwise fun later earlier => Before earlier later)
    (hend : ∀ p ∈ acc.head?, p.range.EndsBy a.range.start) :
    ∃ p acc', canonicalizeStep acc a = .ok (p :: acc') ∧ (∀ b ∈ p :: acc', b.owner = o) ∧
      (p :: acc').Pairwise (fun later earlier => Before earlier later) ∧
      p.range.endExclusive = a.range.endExclusive ∧
      ∀ x m, Locks (p :: acc') x m ↔ Locks acc x m ∨ (a.range.Has x ∧ a.mode = m) := by
  cases acc with
  | nil =>
    refine ⟨a, [], rfl, by simpa using hao, by simp, rfl, fun x m => ?_⟩
    simp [Locks]
  | cons p rest =>
    obtain ⟨hpre, hrest⟩ := pairwise_cons.mp hacc
    have hpa : p.range.EndsBy a.range.start := hend p rfl
    have hpo : p.owner = a.owner := (howner p mem_cons_self).trans hao.symm
    have hnov : p.range.overlaps a.range = false := by
      rw [← Bool.not_eq_true, overlaps_iff]
      rintro ⟨x, hpx, hax⟩
      exact not_has_of_endsBy hpa hax.1 hpx
    obtain ⟨e, he, hle⟩ := hpa
    have hstart : p.range.start ≤ a.range.start := (p.range.nonempty e he).le.trans hle
    have hpush : Before p a → (a :: p :: rest).Pairwise fun later earlier => Before earlier later := by
      intro hbefore
      refine pairwise_cons.mpr ⟨fun b hb => ?_, hacc⟩
      rcases mem_cons.mp hb with rfl | hb
      · exact hbefore
      · exact before_of_before (hpre b hb) ⟨e, he, hle⟩
    have howner' : ∀ b ∈ a :: p :: rest, b.owner = o := by
      exact forall_mem_cons.mpr ⟨hao, howner⟩
    have hlocks : ∀ x m, Locks (a :: p :: rest) x m ↔
        Locks (p :: rest) x m ∨ (a.range.Has x ∧ a.mode = m) := by
      intro x m
      simp only [Locks, exists_mem_cons_iff]
      exact or_comm
    have hmerge : mergeable p a = .ok (decide (p.mode = a.mode ∧ a.range.start ≤ e)) := by
      unfold mergeable PosixLockRange.touchesOrOverlaps PosixLockRange.reaches
      by_cases hmode : p.mode = a.mode
      · rw [if_pos hmode, assert_of _ hstart, ok_bind, mem_def.mp he]
        simp [hmode]
      · simp [hmode]
    have hguard : p.range.overlaps a.range = true → p.mode = a.mode := by simp [hnov]
    simp only [canonicalizeStep]
    rw [assert_of _ hpo, ok_bind, assert_of _ hguard, ok_bind, hmerge, ok_bind]
    by_cases hcase : p.mode = a.mode ∧ a.range.start ≤ e
    · -- the last emitted segment ends exactly where this one starts
      obtain ⟨hmode, hge⟩ := hcase
      have heq : p.range.endExclusive = some a.range.start := by
        rw [← le_antisymm hle hge]
        exact he
      obtain ⟨r, hr, hrs, hre⟩ := PosixLockRange.merge_spec heq
      have hhas : ∀ x, r.Has x ↔ p.range.Has x ∨ a.range.Has x := by
        intro x
        unfold PosixLockRange.Has
        rw [hrs, hre, heq]
        constructor
        · rintro ⟨hlo, hhi⟩
          rcases Nat.lt_or_ge x a.range.start with hx | hx
          · exact .inl ⟨hlo, fun b hb => by cases hb; exact hx⟩
          · exact .inr ⟨hx, hhi⟩
        · rintro (⟨hlo, hhi⟩ | ⟨hlo, hhi⟩)
          · have hx := hhi _ rfl
            exact ⟨hlo, fun b hb => hx.trans (a.range.nonempty b hb)⟩
          · exact ⟨hstart.trans hlo, hhi⟩
      refine ⟨{ p with range := r }, rest, ?_, ?_, ?_, hre, fun x m => ?_⟩
      · rw [if_pos (by simp [hmode, hge]), hr]
        rfl
      · intro b hb
        rcases mem_cons.mp hb with rfl | hb
        · exact hpo.trans hao
        · exact howner b (mem_cons_of_mem _ hb)
      · refine pairwise_cons.mpr ⟨fun b hb => ?_, hrest⟩
        have hbp := hpre b hb
        exact ⟨by simpa only [hrs] using hbp.1, by simpa only [hrs] using hbp.2⟩
      · simp only [Locks, exists_mem_cons_iff, hhas, ← hmode, or_and_right]
        exact or_right_comm
    · have hbefore : Before p a := by
        refine ⟨⟨e, he, hle⟩, fun hmode e' he' => ?_⟩
        cases mem_unique he he'
        by_contra hge
        exact hcase ⟨hmode, Nat.not_lt.mp hge⟩
      refine ⟨a, p :: rest, ?_, howner', hpush hbefore, rfl, hlocks⟩
      rw [if_neg (by simpa using hcase)]
      rfl

/-- **the merge loop** over sorted, disjoint segments of one holder. -/
theorem foldlM_canonicalizeStep (l : PosixLockDomain H) :
    ∀ acc : PosixLockDomain H, (∀ a ∈ l, a.owner = o) → l.Pairwise NotAfter → l.Pairwise Disjoint →
      (∀ b ∈ acc, b.owner = o) → acc.Pairwise (fun later earlier => Before earlier later) →
      (∀ p ∈ acc.head?, ∀ a ∈ l, p.range.EndsBy a.range.start) →
      ∃ acc', l.foldlM canonicalizeStep acc = .ok acc' ∧ (∀ b ∈ acc', b.owner = o) ∧
        acc'.Pairwise (fun later earlier => Before earlier later) ∧
        ∀ x m, Locks acc' x m ↔ Locks acc x m ∨ Locks l x m := by
  induction l with
  | nil =>
    intro acc _ _ _ howner hacc _
    exact ⟨acc, rfl, howner, hacc, fun x m => by simp [Locks]⟩
  | cons a l ih =>
    intro acc hl hsort hdisj howner hacc hend
    obtain ⟨hsort₁, hsort₂⟩ := pairwise_cons.mp hsort
    obtain ⟨hdisj₁, hdisj₂⟩ := pairwise_cons.mp hdisj
    obtain ⟨p, acc₁, hstep, howner₁, hacc₁, hpe, hlocks₁⟩ :=
      canonicalizeStep_spec (hl a mem_cons_self) howner hacc fun p hp => hend p hp a mem_cons_self
    have hend₁ : ∀ q ∈ (p :: acc₁).head?, ∀ b ∈ l, q.range.EndsBy b.range.start := by
      intro q hq b hb
      cases hq
      have hab : a.range.EndsBy b.range.start :=
        endsBy_of_disjoint (PosixLockRange.start_le_of_cmp (hsort₁ b hb)) (hdisj₁ b hb)
      unfold PosixLockRange.EndsBy at hab ⊢
      rwa [hpe]
    obtain ⟨acc₂, hfold, howner₂, hacc₂, hlocks₂⟩ :=
      ih (p :: acc₁) (fun b hb => hl b (mem_cons_of_mem _ hb)) hsort₂ hdisj₂ howner₁ hacc₁ hend₁
    refine ⟨acc₂, ?_, howner₂, hacc₂, fun x m => ?_⟩
    · rw [foldlM_cons, hstep, ok_bind, hfold]
    · rw [hlocks₂, hlocks₁, or_assoc]
      simp only [Locks, exists_mem_cons_iff]

/-- **merging**: disjoint segments of one holder become canonical, with the same
offsets and modes. -/
theorem canonicalizeOwner_spec (hl : ∀ a ∈ l, a.owner = o) (hdisj : l.Pairwise Disjoint) :
    ∃ c, canonicalizeOwner l = .ok c ∧ (∀ b ∈ c, b.owner = o) ∧ c.Pairwise Clear ∧
      ∀ x m, Locks c x m ↔ Locks l x m := by
  have hperm : (sortByRange l).Perm l := perm_insertionSort _ l
  have hmem : ∀ a, a ∈ sortByRange l ↔ a ∈ l := fun a => hperm.mem_iff
  obtain ⟨acc, hfold, howner, hacc, hlocks⟩ := foldlM_canonicalizeStep (o := o) (sortByRange l) []
    (fun a ha => hl a ((hmem a).mp ha)) (pairwise_insertionSort _ l)
    ((hperm.pairwise_iff fun h x hx => h x hx.symm).mpr hdisj) (by simp) List.Pairwise.nil (by simp)
  refine ⟨acc.reverse, ?_, ?_, ?_, fun x m => ?_⟩
  · unfold canonicalizeOwner
    rw [hfold]
    rfl
  · intro b hb
    exact howner b (mem_reverse.mp hb)
  · exact (pairwise_reverse.mpr hacc).imp fun h _ => .inl h
  · have hrev : Locks acc.reverse x m ↔ Locks acc x m := by simp [Locks]
    rw [hrev, hlocks]
    simp [Locks, hmem]

section Together

variable {d c : PosixLockDomain H} {o : H}

theorem mem_together :
    a ∈ sortByRange (d.filter (fun a => a.owner ≠ o) ++ c) ↔ (a ∈ d ∧ a.owner ≠ o) ∨ a ∈ c := by
  have hperm : (sortByRange (d.filter (fun a => a.owner ≠ o) ++ c)).Perm _ :=
    perm_insertionSort NotAfter _
  rw [hperm.mem_iff, mem_append, mem_filter, decide_eq_true_eq]

/-- a holder's canonical segments can replace the ones it had, if they respect the
other holders' locks. -/
theorem canonical_together (hd : Canonical d) (hco : ∀ b ∈ c, b.owner = o)
    (hclear : c.Pairwise Clear)
    (hmixed : ∀ a ∈ d, a.owner ≠ o → ∀ b ∈ c, (∃ x, a.range.Has x ∧ b.range.Has x) →
      a.mode = .read ∧ b.mode = .read) :
    Canonical (sortByRange (d.filter (fun a => a.owner ≠ o) ++ c)) := by
  refine ⟨pairwise_insertionSort _ _, ?_, ?_⟩
  · have hperm : (sortByRange (d.filter (fun a => a.owner ≠ o) ++ c)).Perm _ :=
      perm_insertionSort NotAfter _
    rw [hperm.pairwise_iff fun h heq => (h heq.symm).symm, pairwise_append]
    refine ⟨hd.clear.filter _, hclear, fun a ha b hb heq => ?_⟩
    have hao := (mem_filter.mp ha).2
    simp only [decide_eq_true_eq] at hao
    exact absurd (heq.trans (hco b hb)) hao
  · intro a ha b hb hne hx
    rcases mem_together.mp ha with ⟨ha, hao⟩ | ha <;> rcases mem_together.mp hb with ⟨hb, hbo⟩ | hb
    · exact hd.exclusive a ha b hb hne hx
    · exact hmixed a ha hao b hb hx
    · exact (hmixed b hb hbo a ha (hx.imp fun _ => And.symm)).symm
    · exact absurd ((hco a ha).trans (hco b hb).symm) hne

/-- in the joined vector the owner has what the new segments lock, and the others
what they had. -/
theorem byteMap_together (hd : Canonical d) (hco : ∀ b ∈ c, b.owner = o)
    (hcanon : Canonical (sortByRange (d.filter (fun a => a.owner ≠ o) ++ c))) (h : H) (x : ℕ)
    (m : PosixLockMode) :
    byteMap (sortByRange (d.filter (fun a => a.owner ≠ o) ++ c)) h x = some m ↔
      if h = o then Locks c x m else byteMap d h x = some m := by
  rw [hcanon.byteMap_eq_some]
  simp only [mem_together]
  split_ifs with hho
  · subst hho
    constructor
    · rintro ⟨a, ⟨-, hne⟩ | ha, hao, hx, hm⟩
      · exact absurd hao hne
      · exact ⟨a, ha, hx, hm⟩
    · rintro ⟨a, ha, hx, hm⟩
      exact ⟨a, .inr ha, hco a ha, hx, hm⟩
  · rw [hd.byteMap_eq_some]
    constructor
    · rintro ⟨a, ⟨ha, -⟩ | ha, hao, hx, hm⟩
      · exact ⟨a, ha, hao, hx, hm⟩
      · exact absurd (hao.symm.trans (hco a ha)) hho
    · rintro ⟨a, ha, hao, hx, hm⟩
      exact ⟨a, .inl ⟨ha, fun heq => hho (hao.symm.trans heq)⟩, hao, hx, hm⟩

end Together

def added (o : H) (s : PosixLockRange) (replacement : Option (PosixLockMode × ℕ)) :
    PosixLockDomain H := replacement.toList.map fun r => ⟨o, s, r.1, r.2⟩

omit [DecidableEq H] in
theorem locks_added {replacement : Option (PosixLockMode × ℕ)} :
    Locks (added o s replacement) x m ↔ s.Has x ∧ replacement.map Prod.fst = some m := by
  cases replacement <;> simp [added, Locks]

/-- what the owner has after an assignment, before the holders are put together. -/
theorem canonicalizeAssigned_spec (hd : Canonical d) (o : H) (s : PosixLockRange)
    (replacement : Option (PosixLockMode × ℕ)) :
    ∃ owned c, splitOwner o s d = .ok (d.filter fun a => a.owner ≠ o, owned) ∧
      canonicalizeOwner (owned ++ added o s replacement) = .ok c ∧ (∀ b ∈ c, b.owner = o) ∧
      c.Pairwise Clear ∧
      ∀ x m, Locks c x m ↔ (s.Has x ∧ replacement.map Prod.fst = some m) ∨
        (¬ s.Has x ∧ byteMap d o x = some m) := by
  obtain ⟨owned, hsplit, howner, hdisj, hlocks⟩ := splitOwner_spec (o := o) (s := s) hd.clear
  have hall : ∀ a ∈ owned ++ added o s replacement, a.owner = o := by
    intro a ha
    rcases mem_append.mp ha with ha | ha
    · exact howner a ha
    · obtain ⟨r, -, rfl⟩ := mem_map.mp ha
      rfl
  have hdisj' : (owned ++ added o s replacement).Pairwise Disjoint := by
    refine pairwise_append.mpr ⟨hdisj, ?_, fun a ha b hb x hx => ?_⟩
    · cases replacement <;> simp [added]
    · obtain ⟨hs, -⟩ := locks_added.mp ⟨b, hb, hx.2, rfl⟩
      exact ((hlocks x a.mode).mp ⟨a, ha, hx.1, rfl⟩).1 hs
  obtain ⟨c, hcanon, hco, hclear, hclocks⟩ := canonicalizeOwner_spec hall hdisj'
  refine ⟨owned, c, hsplit, hcanon, hco, hclear, fun x m => ?_⟩
  rw [hclocks, hd.byteMap_eq_some, ← hlocks, ← locks_added (o := o), or_comm, locks_append]

/-- **the rebuilt vector** is canonical, and its map differs from the old one on the
assigned offsets of the owner only. -/
theorem rebuildAssignment_spec (hd : Canonical d) (o : H) (s : PosixLockRange)
    (replacement : Option (PosixLockMode × ℕ))
    (hfree : ∀ m t, replacement = some (m, t) → ∀ a ∈ d, a.owner ≠ o →
      (∃ x, a.range.Has x ∧ s.Has x) → a.mode = .read ∧ m = .read) :
    ∃ d', rebuildAssignment d o s replacement = .ok d' ∧ Canonical d' ∧ ∀ h x, byteMap d' h x =
        if h = o ∧ s.Has x then replacement.map Prod.fst else byteMap d h x := by
  obtain ⟨owned, c, hsplit, hcanon, hco, hclear, hown⟩ := canonicalizeAssigned_spec hd o s replacement
  have hmixed : ∀ a ∈ d, a.owner ≠ o → ∀ b ∈ c, (∃ x, a.range.Has x ∧ b.range.Has x) →
      a.mode = .read ∧ b.mode = .read := by
    rintro a ha hao b hb ⟨x, hax, hbx⟩
    rcases (hown x b.mode).mp ⟨b, hb, hbx, rfl⟩ with ⟨hs, hrep⟩ | ⟨-, hold⟩
    · obtain ⟨⟨m, t⟩, hr, hm⟩ := Option.map_eq_some_iff.mp hrep
      exact hm ▸ hfree m t hr a ha hao ⟨x, hax, hs⟩
    · obtain ⟨e, he, heo, hex, hmode⟩ := hd.byteMap_eq_some.mp hold
      rw [← hmode]
      exact hd.exclusive a ha e he (fun heq => hao (heq.trans heo)) ⟨x, hax, hex⟩
  have hcanonical := canonical_together hd hco hclear hmixed
  refine ⟨_, ?_, hcanonical, fun h x => Option.ext fun m => ?_⟩
  · unfold rebuildAssignment
    rw [hsplit, ok_bind]
    exact Checked.bind_eq_ok.mpr ⟨c, hcanon, rfl⟩
  · rw [byteMap_together hd hco hcanonical]
    by_cases hho : h = o
    · subst hho
      rw [if_pos rfl, hown]
      by_cases hs : s.Has x <;> simp [hs]
    · simp [hho]

end PosixLockDomain

end Anemone.PosixLock
