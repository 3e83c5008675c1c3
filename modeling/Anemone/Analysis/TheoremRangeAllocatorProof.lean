import Anemone.Interface.FreeRanges

/-!
# The range allocator refines a set of free integers

`free` is union, and a successful `allocate_aligned` difference with an aligned run.  The search
tries the first aligned position of every range that is long enough, and a run of free integers
lies inside one range because the ranges are separated.
-/

namespace Anemone.Ranges.RangeAllocator

open Checked (ok_bind bind_eq_ok pure_eq assert_of add_of_lt wordSize)
open OrderedMap Option

open Rangable (start len fromParts)
open LawfulRangable (start_fromParts len_fromParts)
open Intervals (union mem_union_or mem_union_sdiff)

variable {R : Type} [Rangable R] {align a length b : ℕ} {r : R}

theorem lt_wordSize (h : a ≤ usizeMax) : a < wordSize := by
  unfold usizeMax wordSize at *
  omega

theorem checkedAdd_eq_some {c : ℕ} :
    checkedAdd a b = some c ↔ a + b ≤ usizeMax ∧ c = a + b := by
  unfold checkedAdd
  split_ifs with h <;> simp [h, eq_comm]

theorem alignUp_eq_some {v : ℕ} (h : alignUp v align = some a) :
    align ∣ a ∧ v ≤ a ∧ ∀ b, align ∣ b → v ≤ b → a ≤ b := by
  unfold alignUp at h
  split_ifs at h with h0 hrem
  · cases h
    exact ⟨Nat.dvd_of_mod_eq_zero hrem, le_rfl, fun b _ hvb => hvb⟩
  · obtain ⟨-, rfl⟩ := checkedAdd_eq_some.mp h
    have hmod := Nat.mod_lt v (Nat.pos_of_ne_zero h0)
    have hdm := Nat.div_add_mod v align
    have hval : v + (align - v % align) = align * (v / align + 1) := by
      rw [Nat.mul_add, Nat.mul_one]
      omega
    refine ⟨hval ▸ Nat.dvd_mul_right _ _, by omega, ?_⟩
    rintro b ⟨c, rfl⟩ hvb
    rw [hval]
    apply Nat.mul_le_mul_left
    by_contra hlt
    have hle : align * c ≤ align * (v / align) := Nat.mul_le_mul_left _ (by omega)
    omega

theorem alignUp_eq_none {v : ℕ} (halign : 1 ≤ align) (h : alignUp v align = none) :
    ∀ b, align ∣ b → v ≤ b → usizeMax < b := by
  unfold alignUp at h
  split_ifs at h with h0 hrem
  · omega
  · rintro b ⟨c, rfl⟩ hvb
    have hgt : usizeMax < v + (align - v % align) := by
      unfold checkedAdd at h
      split_ifs at h with hle
      omega
    have hdm := Nat.div_add_mod v align
    by_contra hle
    have hc : c ≤ v / align ∨ v / align + 1 ≤ c := by omega
    rcases hc with hc | hc
    · have hmul : align * c ≤ align * (v / align) := Nat.mul_le_mul_left _ hc
      omega
    · have hmul : align * (v / align + 1) ≤ align * c := Nat.mul_le_mul_left _ hc
      rw [Nat.mul_add, Nat.mul_one] at hmul
      omega

theorem tryAllocInRange_some {e z : ℕ} (h : tryAllocInRange r length align = some (a, e, z)) :
    align ∣ a ∧ start r ≤ a ∧ e = a + length ∧ e ≤ z ∧ z = stop r := by
  simp only [tryAllocInRange, bind_eq_bind, bind_eq_some_iff, checkedAdd_eq_some] at h
  obtain ⟨z', ⟨-, rfl⟩, a', ha, e', ⟨-, rfl⟩, h⟩ := h
  split_ifs at h with hgt
  cases h
  obtain ⟨hdvd, hle, -⟩ := alignUp_eq_some ha
  exact ⟨hdvd, hle, rfl, Nat.not_lt.mp hgt, rfl⟩

theorem tryAllocInRange_none (halign : 1 ≤ align) (hr : stop r ≤ usizeMax)
    (h : tryAllocInRange r length align = none) :
    ∀ b, align ∣ b → start r ≤ b → stop r < b + length := by
  intro b hb hle
  by_contra hfit
  have hend : checkedAdd (start r) (len r) = some (stop r) := checkedAdd_eq_some.mpr ⟨hr, rfl⟩
  simp only [tryAllocInRange, bind_eq_bind, hend, bind_some] at h
  cases ha : alignUp (start r) align with
  | none =>
    have hgt := alignUp_eq_none halign ha b hb hle
    omega
  | some a =>
    obtain ⟨-, -, hmin⟩ := alignUp_eq_some ha
    have hab := hmin b hb hle
    have hadd : checkedAdd a length = some (a + length) := checkedAdd_eq_some.mpr ⟨by omega, rfl⟩
    simp only [ha, bind_some, hadd] at h
    split_ifs at h with hgt
    omega

variable {s : RangeAllocator R} {P : Set R} {order : HashOrder R}

theorem select_some (h : Holds s P) {found : ℕ × ℕ × ℕ}
    (hsel : s.select order length align = some (r, found)) :
    r ∈ P ∧ tryAllocInRange r length align = some found := by
  obtain ⟨_, ⟨n, set⟩, _, hlist, hbucket, -⟩ := List.findSome?_eq_some_iff.mp hsel
  have hget := (mem_rangeFrom.mp (hlist ▸ by simp : (n, set) ∈ s.freeByLength.rangeFrom length)).1
  obtain ⟨_, q, _, hiter, hq, -⟩ := List.findSome?_eq_some_iff.mp hbucket
  have hmem : q ∈ set := (order.mem_iter set q).mp (hiter ▸ by simp)
  obtain ⟨found', htry, heq⟩ := map_eq_some_iff.mp hq
  cases heq
  exact ⟨((h.byLength n r).mp ⟨set, hget, hmem⟩).1, htry⟩

theorem select_none (h : Holds s P) (halign : 1 ≤ align) (hsel : s.select order length align = none) :
    ∀ r ∈ P, ∀ b, align ∣ b → start r ≤ b → stop r < b + length := by
  intro r hr b hb hle
  rcases Nat.lt_or_ge (len r) length with hshort | hlong
  · unfold stop
    omega
  · obtain ⟨set, hset, hmem⟩ := (h.byLength (len r) r).mpr ⟨hr, rfl⟩
    have hbucket := List.findSome?_eq_none_iff.mp hsel (len r, set)
      (mem_rangeFrom.mpr ⟨hset, hlong⟩)
    have htry := List.findSome?_eq_none_iff.mp hbucket r ((order.mem_iter set r).mpr hmem)
    exact tryAllocInRange_none halign (h.stop_le r hr) (map_eq_none_iff.mp htry) b hb hle

variable [LawfulRangable R]

theorem start_stop_fromParts (hab : a ≤ b) (hb : b ≤ usizeMax) :
    start (fromParts a (b - a) : R) = a ∧ stop (fromParts a (b - a) : R) = b := by
  have hsum : a + (b - a) ≤ usizeMax := by omega
  unfold stop
  rw [start_fromParts a (b - a) hsum, len_fromParts a (b - a) hsum]
  omega

variable [DecidableEq R] {t : RangeAllocator R}

/-- the two remainders of a range `[first, z)` around the run `[a, e)`, put back. -/
def putBack (s : RangeAllocator R) (first a e z : ℕ) : RangeAllocator R :=
  let s := if a > first then s.insertFreeRange (fromParts first (a - first)) else s
  if e < z then s.insertFreeRange (fromParts e (z - e)) else s

/-- **what is left of the chosen range goes back**: the family after an allocation
covers the free integers outside the allocated run. -/
theorem carve (h : Holds s P) (hr : r ∈ P) {e : ℕ} (hra : start r ≤ a) (hae : a < e)
    (her : e ≤ stop r) :
    ∃ s' Q, s.removeFreeRange r = .ok s' ∧ Holds (putBack s' (start r) a e (stop r)) Q ∧
      ∀ x, x ∈ union start stop Q ↔ x ∈ union start stop P ∧ ¬ (a ≤ x ∧ x < e) := by
  obtain ⟨s', hs', hholds⟩ := h.remove hr
  have hstop := h.stop_le r hr
  obtain ⟨hs₁, he₁⟩ := start_stop_fromParts (R := R) hra (by omega)
  obtain ⟨hs₂, he₂⟩ := start_stop_fromParts (R := R) her hstop
  have hgap : ∀ q ∈ P \ {r}, stop q < start r ∨ stop r < start q :=
    fun q hq => h.separated q hq.1 r hr hq.2
  have hlen : ∀ q : R, len q = stop q - start q := fun q => by unfold stop; omega
  have hholds₁ := hholds.insert_if (c := a > start r) (r := fromParts (start r) (a - start r))
    fun hc => ⟨by rw [hlen, hs₁, he₁]; omega, by omega, fun q hq => by
      rw [hs₁, he₁]
      rcases hgap q hq with hlt | hlt <;> omega⟩
  have hholds₂ := hholds₁.insert_if (c := e < stop r) (r := fromParts e (stop r - e))
    fun hc => ⟨by rw [hlen, hs₂, he₂]; omega, by omega, fun q hq => by
      rw [hs₂, he₂]
      rcases hq with hq | ⟨-, rfl⟩
      · rcases hgap q hq with hlt | hlt <;> omega
      · rw [he₁]
        omega⟩
  refine ⟨s', _, hs', hholds₂, fun x => ?_⟩
  rw [mem_union_or, mem_union_or, hs₁, he₁, hs₂, he₂, mem_union_sdiff hr]
  by_cases hx : x ∈ union start stop (P \ {r})
  · have hapart : ¬ (start r ≤ x ∧ x < stop r) := by
      obtain ⟨q, hq, hxq⟩ := hx
      intro hxr
      exact hq.2 (h.separated.eq_of_mem hq.1 hr hxq hxr)
    simp only [hx, true_or, true_and, true_iff]
    omega
  · simp only [hx, false_or]
    omega

/-- **`allocate_aligned`** either removes an aligned run of free integers of the
wanted length, or leaves everything as it is because there is none. -/
theorem allocateAligned_spec (h : Holds s P) (order : HashOrder R) (length : ℕ) (halign : 1 ≤ align) :
    (s.allocateAligned order length align = .ok (none, s) ∧
      (0 < length → ¬ ∃ a, align ∣ a ∧ ∀ x, a ≤ x → x < a + length → x ∈ s.freeSet)) ∨
    (0 < length ∧ ∃ g t Q, s.allocateAligned order length align = .ok (some g, t) ∧ Holds t Q ∧
      len g = length ∧ align ∣ start g ∧ (∀ x, Covers g x → x ∈ s.freeSet) ∧
      ∀ x, x ∈ t.freeSet ↔ x ∈ s.freeSet ∧ ¬ Covers g x) := by
  have hassert : align ≠ 0 := by omega
  unfold allocateAligned
  rw [assert_of _ hassert, ok_bind]
  rcases Nat.eq_zero_or_pos length with hzero | hpos
  · rw [if_pos hzero]
    exact .inl ⟨rfl, fun hp => by omega⟩
  rw [if_neg (by omega)]
  cases hsel : s.select order length align with
  | none =>
    refine .inl ⟨rfl, fun _ => ?_⟩
    rintro ⟨a, hdvd, hrun⟩
    rw [h.freeSet_eq] at hrun
    obtain ⟨r, hr, hra, her⟩ := h.separated.exists_of_run (by omega) hrun
    have hno := select_none h halign hsel r hr a hdvd hra
    omega
  | some sel =>
    obtain ⟨r, a, e, z⟩ := sel
    obtain ⟨hr, htry⟩ := select_some h hsel
    obtain ⟨hdvd, hra, rfl, hez, rfl⟩ := tryAllocInRange_some htry
    obtain ⟨s', Q, hs', hholds, hunion⟩ := carve h hr hra (show a < a + length by omega) hez
    have hmax := h.stop_le r hr
    have hg₁ : start (fromParts a length : R) = a := start_fromParts a length (by omega)
    have hg₂ : len (fromParts a length : R) = length := len_fromParts a length (by omega)
    have hcov : ∀ x, Covers (fromParts a length : R) x ↔ a ≤ x ∧ x < a + length := by
      intro x
      unfold Covers
      rw [hg₁, hg₂]
    refine .inr ⟨hpos, fromParts a length, _, Q, ?_, hholds, hg₂, hg₁.symm ▸ hdvd, ?_, ?_⟩
    · simp only [hs', ok_bind]
      rfl
    · intro x hx
      rw [hcov] at hx
      rw [h.freeSet_eq]
      exact ⟨r, hr, by omega, by omega⟩
    · intro x
      rw [hholds.freeSet_eq, h.freeSet_eq, hcov]
      exact hunion x

omit [LawfulRangable R] in
/-- **the left side of a freed range**: it is refused, grown over a range that ends
at it, or left alone. -/
theorem absorbPrev_cases (h : Holds s P) (hab : a ≤ b) (hb : b ≤ usizeMax) :
    (∃ q ∈ P, start q < a ∧ a < stop q ∧
      s.absorbPrev ((s.freeByStart.rangeBelow a).getLast?.map Prod.snd) a (b - a) =
        .ok (.error .freeingExistingRange, s)) ∨
    (∃ q ∈ P, stop q = a ∧ ∃ t, Holds t (P \ {q}) ∧
      s.absorbPrev ((s.freeByStart.rangeBelow a).getLast?.map Prod.snd) a (b - a) =
        .ok (.ok (start q, b - start q), t)) ∨
    ((∀ q ∈ P, start q < a → stop q < a) ∧
      s.absorbPrev ((s.freeByStart.rangeBelow a).getLast?.map Prod.snd) a (b - a) =
        .ok (.ok (a, b - a), s)) := by
  cases hlast : (s.freeByStart.rangeBelow a).getLast? with
  | none =>
    have hall := getLast_rangeBelow_eq_none hlast
    refine .inr (.inr ⟨fun q hq hlt => ?_, rfl⟩)
    exact absurd hlt (Nat.not_lt.mpr (hall _ q (h.get_start hq)))
  | some entry =>
    obtain ⟨k, r⟩ := entry
    obtain ⟨⟨hk, hka⟩, hmax⟩ := getLast_rangeBelow hlast
    obtain ⟨hr, rfl⟩ := (h.byStart k r).mp hk
    have hadd : Checked.add (start r) (len r) = .ok (stop r) :=
      add_of_lt (lt_wordSize (h.stop_le r hr))
    simp only [map_some, absorbPrev, hadd, ok_bind]
    rcases Nat.lt_trichotomy a (stop r) with hlt | heq | hgt
    · exact .inl ⟨r, hr, hka, hlt, if_pos hlt⟩
    · obtain ⟨t, ht, hholds⟩ := h.remove hr
      have hlen : Checked.add (b - a) (len r) = .ok (b - start r) := by
        have hsum : b - a + len r = b - start r := by
          unfold stop at heq
          omega
        rw [add_of_lt (lt_wordSize (by omega)), hsum]
      refine .inr (.inl ⟨r, hr, heq.symm, t, hholds, ?_⟩)
      rw [if_neg heq.symm.not_gt, if_pos heq.symm, hlen, ok_bind, ht]
      rfl
    · refine .inr (.inr ⟨fun q hq hqa => ?_, ?_⟩)
      · have hle := hmax _ q (h.get_start hq) hqa
        by_cases hqr : q = r
        · exact hqr ▸ hgt
        · rcases h.separated q hq r hr hqr with hlt | hlt <;> unfold stop at * <;> omega
      · rw [if_neg hgt.not_gt, if_neg hgt.ne]
        rfl

omit [LawfulRangable R] in
/-- if nothing in the freed range is free, it leaves a gap to every range on its
left after that. -/
theorem absorbPrev_spec (h : Holds s P) (hab : a < b) (hb : b ≤ usizeMax)
    (hdisj : ∀ x, a ≤ x → x < b → x ∉ union start stop P) :
    ∃ f s' Q, s.absorbPrev ((s.freeByStart.rangeBelow a).getLast?.map Prod.snd) a (b - a) =
        .ok (.ok (f, b - f), s') ∧ Holds s' Q ∧ Q ⊆ P ∧ f ≤ a ∧
      (∀ q ∈ P, a ≤ start q → q ∈ Q) ∧ (∀ q ∈ Q, start q < a → stop q < f) ∧
      ∀ x, x ∈ union start stop P ↔ x ∈ union start stop Q ∨ (f ≤ x ∧ x < a) := by
  rcases absorbPrev_cases h hab.le hb with
    ⟨r, hr, hra, har, -⟩ | ⟨r, hr, rfl, t, hholds, hprev⟩ | ⟨hleft, hprev⟩
  · exact absurd ⟨r, hr, hra.le, har⟩ (hdisj a le_rfl hab)
  · have hpos := h.len_pos r hr
    have hlt : start r < stop r := by
      unfold stop
      omega
    refine ⟨start r, t, P \ {r}, hprev, hholds, fun q hq => hq.1, hlt.le, ?_, ?_, fun x => ?_⟩
    · intro q hq hqa
      refine ⟨hq, ?_⟩
      rintro rfl
      omega
    · intro q hq hqa
      have := h.separated q hq.1 r hr hq.2
      omega
    · exact mem_union_sdiff hr
  · refine ⟨a, s, P, hprev, h, fun _ hq => hq, le_rfl, fun _ hq _ => hq, hleft, fun x => ?_⟩
    exact ⟨.inl, fun hx => hx.elim id fun hx => by omega⟩

omit [LawfulRangable R] in
/-- **the right side**, after the left one: the grown range takes in a range that
starts at its end, and then leaves a gap to every range on its right. -/
theorem absorbNext_spec (h : Holds s P) {Q : Set R} (ht : Holds t Q) {f : ℕ} (hfa : f ≤ a)
    (hab : a < b) (hb : b ≤ usizeMax) (hQP : Q ⊆ P) (hright : ∀ q ∈ P, a ≤ start q → q ∈ Q)
    (hdisj : ∀ x, a ≤ x → x < b → x ∉ union start stop P) :
    ∃ e t' Q', t.absorbNext ((s.freeByStart.rangeFrom a).head?.map Prod.snd) b (b - f) =
        .ok (.ok (e - f), t') ∧ Holds t' Q' ∧ Q' ⊆ Q ∧ b ≤ e ∧ e ≤ usizeMax ∧
      (∀ q ∈ Q', a ≤ start q → e < start q) ∧
      ∀ x, x ∈ union start stop Q ↔ x ∈ union start stop Q' ∨ (b ≤ x ∧ x < e) := by
  cases hhead : (s.freeByStart.rangeFrom a).head? with
  | none =>
    have hall := head_rangeFrom_eq_none hhead
    refine ⟨b, t, Q, rfl, ht, fun _ hq => hq, le_rfl, hb, ?_, fun x => ?_⟩
    · intro q hq hge
      have hlt := hall _ q (h.get_start (hQP hq))
      omega
    · exact ⟨.inl, fun hx => hx.elim id fun hx => by omega⟩
  | some entry =>
    obtain ⟨k, r⟩ := entry
    obtain ⟨⟨hk, hka⟩, hmin⟩ := head_rangeFrom hhead
    obtain ⟨hr, rfl⟩ := (h.byStart k r).mp hk
    have hrQ := hright r hr hka
    have hpos := h.len_pos r hr
    have hstart : b ≤ start r := by
      by_contra hlt
      exact hdisj (start r) hka (Nat.not_le.mp hlt) ⟨r, hr, le_rfl, by unfold stop; omega⟩
    have hbehind : ∀ q ∈ Q, a ≤ start q → q ≠ r → stop r < start q := by
      intro q hq hqa hne
      have hle := hmin _ q (h.get_start (hQP hq)) hqa
      rcases h.separated q (hQP hq) r hr hne with hlt | hlt
      · unfold stop at hlt
        omega
      · exact hlt
    simp only [map_some, absorbNext, if_neg (Nat.not_lt.mpr hstart)]
    by_cases htouch : start r = b
    · obtain ⟨t', ht', hholds⟩ := ht.remove hrQ
      have hmax := h.stop_le r hr
      have hlen : Checked.add (b - f) (len r) = .ok (stop r - f) := by
        have hsum : b - f + len r = stop r - f := by
          unfold stop
          omega
        rw [add_of_lt (lt_wordSize (by omega)), hsum]
      refine ⟨stop r, t', Q \ {r}, ?_, hholds, fun q hq => hq.1, by unfold stop; omega, hmax, ?_,
        fun x => htouch ▸ mem_union_sdiff hrQ⟩
      · rw [if_pos htouch, hlen, ok_bind, ht']
        rfl
      · intro q hq hqa
        exact hbehind q hq.1 hqa hq.2
    · refine ⟨b, t, Q, ?_, ht, fun _ hq => hq, le_rfl, hb, ?_, fun x => ?_⟩
      · rw [if_neg htouch]
        rfl
      · intro q hq hqa
        by_cases hqr : q = r
        · subst hqr
          omega
        · have := hbehind q hq hqa hqr
          unfold stop at this
          omega
      · exact ⟨.inl, fun hx => hx.elim id fun hx => by omega⟩

/-- **`free`** of integers that are not free succeeds and adds exactly these. -/
theorem free_spec (h : Holds s P) {range : R} (hend : start range + len range ≤ usizeMax)
    (hdisj : ∀ x, Covers range x → x ∉ s.freeSet) :
    ∃ t Q, s.free range = .ok (.ok (), t) ∧ Holds t Q ∧
      ∀ x, x ∈ t.freeSet ↔ x ∈ s.freeSet ∨ Covers range x := by
  by_cases hlen : len range = 0
  · refine ⟨s, P, if_pos hlen, h, fun x => ?_⟩
    unfold Covers
    exact ⟨.inl, fun hx => hx.elim id fun hx => by omega⟩
  rw [h.freeSet_eq] at hdisj ⊢
  have hab : start range < stop range := by
    unfold stop
    omega
  have hdisj' : ∀ x, start range ≤ x → x < stop range → x ∉ union start stop P :=
    fun x hlo hhi => hdisj x ⟨hlo, hhi⟩
  obtain ⟨f, s₁, Q, hprev, hQ, hQP, hfa, hright, hleft, hunion⟩ := absorbPrev_spec h hab hend hdisj'
  obtain ⟨e, s₂, Q', hnext, hQ', hsub, hbe, hemax, hgap, hunion'⟩ :=
    absorbNext_spec h hQ hfa hab hend hQP hright hdisj'
  obtain ⟨hs, he⟩ := start_stop_fromParts (R := R) (show f ≤ e by omega) hemax
  have hins := hQ'.insert_if (c := f < e) (r := fromParts f (e - f)) fun _ => ⟨by
    unfold stop at he
    omega, by omega, fun q hq => by
    rw [hs, he]
    rcases Nat.lt_or_ge (start q) (start range) with hlt | hge
    · exact .inl (hleft q (hsub hq) hlt)
    · exact .inr (hgap q hq hge)⟩
  rw [if_pos (by omega)] at hins
  refine ⟨_, _, ?_, hins, fun x => ?_⟩
  · unfold free
    rw [if_neg hlen, add_of_lt (lt_wordSize hend)]
    simp only [ok_bind]
    rw [show len range = stop range - start range by unfold stop; omega, hprev]
    simp only [ok_bind]
    rw [show start range + (stop range - start range) = stop range by omega, hnext]
    rfl
  · rw [hins.freeSet_eq, mem_union_or, hs, he, hunion, hunion']
    have hstop : stop range = start range + len range := rfl
    unfold Covers
    by_cases hx : x ∈ union start stop Q'
    · simp only [hx, true_or]
    · simp only [hx, false_or]
      omega

/-- An allocator whose indexes agree, and whose next call acts on its free integers as on a
set. -/
structure Refines (s : RangeAllocator R) : Prop where
  same_ranges : ∀ r : R, (∃ k : ℕ, s.freeByStart[k]? = some r) ↔
    ∃ (n : ℕ) (set : Finset R), s.freeByLength[n]? = some set ∧ r ∈ set
  nonempty : ∀ (k : ℕ) (r : R), s.freeByStart[k]? = some r → 0 < len r
  /-- Different ranges neither overlap nor touch. -/
  gap : ∀ (k k' : ℕ) (r r' : R), s.freeByStart[k]? = some r → s.freeByStart[k']? = some r' →
    k ≠ k' → start r + len r < start r' ∨ start r' + len r' < start r
  /-- `free` of integers that are not free returns, and adds exactly these. -/
  free_adds : ∀ range : R, start range + len range ≤ usizeMax →
    (∀ x, Covers range x → x ∉ s.freeSet) →
    ∃ t, s.free range = .ok (.ok (), t) ∧ ∀ x, x ∈ t.freeSet ↔ x ∈ s.freeSet ∨ Covers range x
  /-- `allocate_aligned` returns, with a free aligned run that it removes, or with nothing
  when there is none. -/
  allocate_removes : ∀ (order : HashOrder R) (length align : ℕ), 1 ≤ align →
    ∃ g t, s.allocateAligned order length align = .ok (g, t) ∧ (g = none → t = s) ∧
      (0 < length → (g = none ↔ ¬ ∃ a, align ∣ a ∧ ∀ x, a ≤ x → x < a + length → x ∈ s.freeSet)) ∧
      ∀ range, g = some range → len range = length ∧ align ∣ start range ∧
        (∀ x, Covers range x → x ∈ s.freeSet) ∧
        ∀ x, x ∈ t.freeSet ↔ x ∈ s.freeSet ∧ ¬ Covers range x

theorem Holds.refines (h : Holds s P) : Refines s where
  same_ranges r := by
    simp only [h.byStart, h.byLength]
    exact ⟨fun ⟨_, hr, _⟩ => ⟨len r, hr, rfl⟩, fun ⟨_, hr, _⟩ => ⟨start r, hr, rfl⟩⟩
  nonempty k r hk := h.len_pos r ((h.byStart k r).mp hk).1
  gap k k' r r' hk hk' hne := by
    obtain ⟨hr, rfl⟩ := (h.byStart k r).mp hk
    obtain ⟨hr', rfl⟩ := (h.byStart k' r').mp hk'
    exact h.separated r hr r' hr' fun heq => hne (heq ▸ rfl)
  free_adds range hend hdisj := by
    obtain ⟨t, -, heq, -, hset⟩ := free_spec h hend hdisj
    exact ⟨t, heq, hset⟩
  allocate_removes order length align halign := by
    rcases allocateAligned_spec h order length halign with
      ⟨heq, hno⟩ | ⟨hpos, g, t, -, heq, -, hlen, hdvd, hfree, hset⟩
    · exact ⟨none, s, heq, fun _ => rfl, fun hpos => ⟨fun _ => hno hpos, fun _ => rfl⟩, nofun⟩
    · refine ⟨some g, t, heq, nofun, fun _ => ⟨nofun, fun hno => ?_⟩, fun range hr => ?_⟩
      · refine absurd ⟨start g, hdvd, fun x hlo hhi => hfree x ⟨hlo, ?_⟩⟩ hno
        rwa [hlen]
      · cases hr
        exact ⟨hlen, hdvd, hfree, hset⟩

theorem Holds.step (h : Holds s P) (hst : Step s t) : ∃ Q, Holds t Q := by
  cases hst with
  | free range hend hdisj heq =>
    obtain ⟨t', Q, heq', hQ, -⟩ := free_spec h hend hdisj
    cases heq.symm.trans heq'
    exact ⟨Q, hQ⟩
  | allocateAligned order length align halign heq =>
    rcases allocateAligned_spec h order length halign with
      ⟨heq', -⟩ | ⟨-, _, t', Q, heq', hQ, -⟩
    · cases heq.symm.trans heq'
      exact ⟨P, h⟩
    · cases heq.symm.trans heq'
      exact ⟨Q, hQ⟩

/-- **The range allocator is a set of free integers.**  In every state it reaches from empty,
whatever order its hash sets are walked in, its two indexes hold the same ranges, which are
not empty and neither overlap nor touch; `free` adds exactly the integers it is given;
`allocate_aligned` removes an aligned free run of the length, and fails only if there is
none; and neither panics.

SOURCE: range-allocator/src/lib.rs:56-184 -/
theorem reaches_refines (hrun : Run.Reaches Step (new : RangeAllocator R) s) : Refines s := by
  obtain ⟨P, hP⟩ := Run.Reaches.invariant (P := fun s : RangeAllocator R => ∃ P, Holds s P)
    (fun s t ⟨P, hP⟩ hst => hP.step hst) hrun ⟨∅, holds_new⟩
  exact hP.refines

/-- Two ranges are freed into an empty allocator, and three pages aligned to eight are cut out
of the middle of the longer one. -/
theorem reaches_refines_sample : ∃ (order : HashOrder VirtPageRange)
    (s t u : RangeAllocator VirtPageRange), new.free ⟨100, 10⟩ = .ok (.ok (), s) ∧
    s.free ⟨201, 4⟩ = .ok (.ok (), t) ∧ t.allocateAligned order 3 8 = .ok (some ⟨104, 3⟩, u) ∧
    (∀ x, x ∈ u.freeSet ↔
      100 ≤ x ∧ x < 104 ∨ 107 ≤ x ∧ x < 110 ∨ 201 ≤ x ∧ x < 205) ∧
    Run.Reaches Step new u ∧ Refines u := by
  have hnew : ∀ x, x ∉ (new : RangeAllocator VirtPageRange).freeSet := by
    rintro x ⟨k, q, hk, -⟩
    simp [new] at hk
  obtain ⟨s, hs, hsfree⟩ := (reaches_refines .refl).free_adds (⟨100, 10⟩ : VirtPageRange)
    (by decide) fun x _ => hnew x
  simp only [hnew, false_or, Covers, start, len] at hsfree
  have hdisj : ∀ x, Covers (⟨201, 4⟩ : VirtPageRange) x → x ∉ s.freeSet := by
    simp only [hsfree, Covers, start, len]
    omega
  have hreach : Run.Reaches Step new s := .single (.free _ _ (by decide) (fun x _ => hnew x) hs)
  obtain ⟨t, ht, htfree⟩ := (reaches_refines hreach).free_adds ⟨201, 4⟩ (by decide) hdisj
  simp only [hsfree, Covers, start, len] at htfree
  replace hreach := hreach.tail (.free _ _ (by decide) hdisj ht)
  let order : HashOrder VirtPageRange :=
    ⟨Finset.toList, fun _ _ => Finset.mem_toList, Finset.nodup_toList⟩
  obtain ⟨g, u, hu, -, hnone, hsome⟩ :=
    (reaches_refines hreach).allocate_removes order 3 8 (by decide)
  replace hreach := hreach.tail (.allocateAligned _ order 3 8 (by decide) hu)
  cases g with
  | none =>
    refine absurd ⟨104, by decide, fun x hlo hhi => ?_⟩ ((hnone (by decide)).mp rfl)
    rw [htfree]
    omega
  | some g =>
    obtain ⟨hlen, hdvd, hin, hufree⟩ := hsome g rfl
    obtain ⟨first, npages⟩ := g
    simp only [htfree, Covers, start, len] at hlen hdvd hin hufree
    have hfirst := hin first (by omega)
    have hlast := hin (first + 2) (by omega)
    obtain rfl : npages = 3 := hlen
    obtain rfl : first = 104 := by omega
    refine ⟨order, s, t, u, hs, ht, hu, fun x => ?_, hreach, reaches_refines hreach⟩
    rw [hufree]
    omega

end Anemone.Ranges.RangeAllocator
