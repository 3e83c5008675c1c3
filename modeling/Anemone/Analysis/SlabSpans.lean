import Anemone.Analysis.SlabMoves

/-!
# Spans and their slots

All sizes of classes divide a page, so that a span is cut into whole slots, which do not overlap
and are aligned for a node.
-/

namespace Anemone.Slab

open Checked (wordSize)
open FreeList Checked List

variable {C : Config} {cls : SlabClass} {span : SlabClass × ℕ} {a : ℕ}

structure SlabClass.Valid (C : Config) (cls : SlabClass) : Prop where
  index_lt : cls.index < C.classCount
  bytes : cls.slotBytes = minClassBytes * 2 ^ cls.index
  dvd_page : cls.slotBytes ∣ C.pageBytes

namespace SlabClass

theorem forLayout_returns (C : Config) (size align : ℕ) :
    ∃ r, forLayout C size align = .ok r ∧ ∀ cls, r = some cls → cls.Valid C := by
  have hnone : ∀ cls : SlabClass, (none : Option SlabClass) = some cls → cls.Valid C := nofun
  unfold forLayout
  split
  · exact ⟨none, rfl, hnone⟩
  rename_i slotBytes hpow
  split
  · exact ⟨none, rfl, hnone⟩
  rename_i hmax
  obtain ⟨m, hm⟩ := C.max_pow
  obtain ⟨p, hp⟩ := C.page_pow
  set a := max (max size align) minClassBytes with ha
  have hbytes : slotBytes = 2 ^ Nat.clog 2 a := by
    simp only [checkedNextPowerOfTwo] at hpow
    split at hpow
    · exact (Option.some.inj hpow).symm
    · cases hpow
  have hthree : 3 ≤ Nat.clog 2 a := by
    have hle : 2 ^ 3 ≤ 2 ^ Nat.clog 2 a :=
      (le_max_right _ _ : minClassBytes ≤ a).trans (Nat.le_pow_clog Nat.one_lt_two _)
    exact (Nat.pow_le_pow_iff_right Nat.one_lt_two).mp hle
  have hkm : Nat.clog 2 a ≤ m := by
    rw [hbytes, hm, not_lt, Nat.pow_le_pow_iff_right Nat.one_lt_two] at hmax
    exact hmax
  have hmp : m ≤ p := by
    have hle := C.max_le_page
    rwa [hm, hp, Nat.pow_le_pow_iff_right Nat.one_lt_two] at hle
  have hlog : Nat.log 2 minClassBytes = 3 := by decide
  have hsub : sub (Nat.log 2 slotBytes) (Nat.log 2 minClassBytes) =
      .ok (Nat.clog 2 a - 3) := by
    rw [hbytes, Nat.log_pow Nat.one_lt_two, hlog]
    exact sub_of_le hthree
  have hindex : Nat.clog 2 a - 3 < C.classCount := by
    rw [Config.classCount, hm, Nat.log_pow Nat.one_lt_two, hlog]
    omega
  refine ⟨some ⟨Nat.clog 2 a - 3, slotBytes⟩, ?_, ?_⟩
  · rw [hsub, ok_bind, assert_of _ hindex]
    rfl
  · intro cls hcls
    obtain rfl := Option.some.inj hcls
    refine ⟨hindex, ?_, ?_⟩
    · show slotBytes = 2 ^ 3 * 2 ^ (Nat.clog 2 a - 3)
      rw [hbytes, ← pow_add, Nat.add_sub_cancel' hthree]
    · rw [hbytes, hp]
      exact pow_dvd_pow 2 (hkm.trans hmp)

namespace Valid

theorem pos (h : cls.Valid C) : 0 < cls.slotBytes := by
  rw [h.bytes]
  exact Nat.mul_pos (by decide) (Nat.two_pow_pos _)

theorem aligned (h : cls.Valid C) : cls.slotBytes % minClassBytes = 0 := by
  rw [h.bytes]
  exact Nat.mul_mod_right _ _

theorem dvd_span (h : cls.Valid C) : cls.slotBytes ∣ C.spanBytes :=
  h.dvd_page.trans (Dvd.intro_left _ rfl)

theorem count_mul (h : cls.Valid C) : C.spanBytes / cls.slotBytes * cls.slotBytes = C.spanBytes :=
  Nat.div_mul_cancel h.dvd_span

theorem eq_of_index {cls' : SlabClass} (h : cls.Valid C) (h' : cls'.Valid C)
    (hindex : cls.index = cls'.index) : cls.slotBytes = cls'.slotBytes := by
  rw [h.bytes, h'.bytes, hindex]

end Valid

end SlabClass

theorem spanBytes_pos (C : Config) : 0 < C.spanBytes := by
  have htwo := C.two_slots
  rw [Nat.pos_iff_ne_zero]
  intro hzero
  rw [Config.spanBytes] at hzero
  rw [hzero, Nat.zero_div] at htwo
  omega

theorem min_dvd_page (C : Config) : minClassBytes ∣ C.pageBytes := by
  obtain ⟨p, hp⟩ := C.page_pow
  have hle := C.min_le_max.trans C.max_le_page
  rw [hp] at hle ⊢
  have hpow : 2 ^ 3 ≤ 2 ^ p := hle
  exact pow_dvd_pow 2 ((Nat.pow_le_pow_iff_right Nat.one_lt_two).mp hpow)

structure ValidSpan (C : Config) (span : SlabClass × ℕ) : Prop where
  cls : span.1.Valid C
  base : span.2 % C.pageBytes = 0
  fits : span.2 + C.spanBytes ≤ wordSize

theorem mem_slots : a ∈ slots C span ↔
    ∃ k < C.spanBytes / span.1.slotBytes, span.2 + k * span.1.slotBytes = a := by
  simp only [slots, mem_map, mem_range]

theorem slots_eq (C : Config) (span : SlabClass × ℕ) :
    slots C span = slotsFrom span.2 span.1.slotBytes 0 (C.spanBytes / span.1.slotBytes) := by
  rw [slots, slotsFrom, range_eq_range']

def Apart (C : Config) (a b : SlabClass × ℕ) : Prop :=
  a.2 + C.spanBytes ≤ b.2 ∨ b.2 + C.spanBytes ≤ a.2

instance : Std.Symm (Apart C) := ⟨fun _ _ h => Or.symm h⟩

namespace ValidSpan

section

variable (h : ValidSpan C span)

include h

theorem base_aligned : span.2 % minClassBytes = 0 :=
  Nat.mod_eq_zero_of_dvd ((min_dvd_page C).trans (Nat.dvd_of_mod_eq_zero h.base))

theorem bounds (ha : a ∈ slots C span) :
    span.2 ≤ a ∧ a + span.1.slotBytes ≤ span.2 + C.spanBytes := by
  obtain ⟨k, hk, rfl⟩ := mem_slots.mp ha
  have hle : (k + 1) * span.1.slotBytes ≤ C.spanBytes := by
    rw [← h.cls.count_mul]
    exact Nat.mul_le_mul_right _ hk
  rw [Nat.succ_mul] at hle
  omega

theorem aligned (ha : a ∈ slots C span) :
    a % minClassBytes = 0 := by
  obtain ⟨k, -, rfl⟩ := mem_slots.mp ha
  rw [Nat.add_mod, Nat.mul_mod, h.base_aligned, h.cls.aligned, Nat.mul_zero]
  rfl

omit h in
theorem eq_of_inside {b : ℕ} (ha : a ∈ slots C span) (hb : b ∈ slots C span) (hle : a ≤ b)
    (hlt : b < a + span.1.slotBytes) : a = b := by
  obtain ⟨j, -, rfl⟩ := mem_slots.mp ha
  obtain ⟨k, -, rfl⟩ := mem_slots.mp hb
  have hjk : j ≤ k := by
    by_contra hlt'
    have hmul : (k + 1) * span.1.slotBytes ≤ j * span.1.slotBytes :=
      Nat.mul_le_mul_right _ (by omega)
    rw [Nat.succ_mul] at hmul
    omega
  have hkj : k ≤ j := by
    by_contra hlt'
    have hmul : (j + 1) * span.1.slotBytes ≤ k * span.1.slotBytes :=
      Nat.mul_le_mul_right _ (by omega)
    rw [Nat.succ_mul] at hmul
    omega
  rw [le_antisymm hjk hkj]

theorem nodup : (slots C span).Nodup := by
  rw [slots_eq]
  exact nodup_slotsFrom _ h.cls.pos _ _

theorem disjoint {span' : SlabClass × ℕ} (h' : ValidSpan C span')
    (hapart : Apart C span span') : (slots C span).Disjoint (slots C span') := by
  intro a ha ha'
  have hbounds := h.bounds ha
  have hbounds' := h'.bounds ha'
  have hpos := h.cls.pos
  have hpos' := h'.cls.pos
  rcases hapart with hapart | hapart <;> omega

end

end ValidSpan

def stock (C : Config) (spans : List (SlabClass × ℕ)) : Multiset ℕ :=
  (spans.map fun span => (slots C span : Multiset ℕ)).sum

theorem stock_cons (C : Config) (span : SlabClass × ℕ) (spans : List (SlabClass × ℕ)) :
    stock C (span :: spans) = (slots C span : Multiset ℕ) + stock C spans := by
  rw [stock, map_cons, sum_cons]
  rfl

theorem mem_stock {spans : List (SlabClass × ℕ)} :
    a ∈ stock C spans ↔ ∃ span ∈ spans, a ∈ slots C span := by
  induction spans with
  | nil => simp [stock]
  | cons span spans ih =>
    rw [stock_cons, Multiset.mem_add, ih, Multiset.mem_coe]
    simp only [mem_cons, exists_eq_or_imp]

section Stock

variable {spans : List (SlabClass × ℕ)} (hvalid : ∀ span ∈ spans, ValidSpan C span)
  (hapart : spans.Pairwise (Apart C))

include hvalid hapart in
theorem nodup_stock : (stock C spans).Nodup := by
  induction spans with
  | nil => exact Multiset.nodup_zero
  | cons span spans ih =>
    obtain ⟨hfirst, hapart⟩ := pairwise_cons.mp hapart
    have hrest : ∀ span ∈ spans, ValidSpan C span :=
      fun span hspan => hvalid span (mem_cons_of_mem _ hspan)
    rw [stock_cons]
    refine Multiset.nodup_add.mpr ⟨(hvalid span mem_cons_self).nodup, ih hrest hapart, ?_⟩
    rw [Multiset.disjoint_left]
    intro a ha hstock
    obtain ⟨span', hspan', ha'⟩ := mem_stock.mp hstock
    exact (hvalid span mem_cons_self).disjoint (hrest span' hspan') (hfirst span' hspan') ha ha'

include hvalid in
theorem aligned_stock (ha : a ∈ stock C spans) : a % minClassBytes = 0 := by
  obtain ⟨span, hspan, ha⟩ := mem_stock.mp ha
  exact (hvalid span hspan).aligned ha

include hvalid hapart in
/-- there are fewer slots than words, as the address 1 is not aligned. -/
theorem card_stock : Multiset.card (stock C spans) < wordSize := by
  have hsub : (⟨stock C spans, nodup_stock hvalid hapart⟩ : Finset ℕ) ⊆
      (Finset.range wordSize).erase 1 := by
    intro a ha
    obtain ⟨span, hspan, hmem⟩ := mem_stock.mp ha
    have hbounds := (hvalid span hspan).bounds hmem
    have hfits := (hvalid span hspan).fits
    have hpos := (hvalid span hspan).cls.pos
    refine Finset.mem_erase.mpr ⟨?_, Finset.mem_range.mpr (by omega)⟩
    rintro rfl
    exact absurd ((hvalid span hspan).aligned hmem) (by decide)
  have hcard := Finset.card_le_card hsub
  rw [Finset.card_erase_of_mem (Finset.mem_range.mpr (by decide)), Finset.card_range] at hcard
  have hpos : 0 < wordSize := by decide
  exact lt_of_le_of_lt hcard (Nat.sub_lt hpos one_pos)

end Stock

/-- **a span is cut into slots**: the first is for the caller, the others are linked. -/
theorem new_returns (mem : Mem) {base : ℕ} (hcls : cls.Valid C)
    (hfits : base + C.spanBytes ≤ wordSize) :
    (base % C.pageBytes ≠ 0 ∧ PreparedSpan.new C mem base cls = .ok (none, mem)) ∨
      ∃ free mem', PreparedSpan.new C mem base cls = .ok (some ⟨cls, base, free⟩, mem') ∧
        ValidSpan C (cls, base) ∧
        free.Linked mem' ∧ (base :: free.nodes mem').Perm (slots C (cls, base)) ∧
        Outside (slots C (cls, base)) mem mem' := by
  by_cases hbase : base % C.pageBytes = 0
  swap
  · refine .inl ⟨hbase, ?_⟩
    rw [PreparedSpan.new, if_pos (.inl hbase)]
    rfl
  refine .inr ?_
  have hvalid : ValidSpan C (cls, base) := ⟨hcls, hbase, hfits⟩
  have hmul := hcls.count_mul
  have hspan := spanBytes_pos C
  have hword : C.spanBytes < wordSize := C.span_fits
  obtain ⟨n, hn⟩ : ∃ n, C.spanBytes / cls.slotBytes = n + 1 := by
    refine Nat.exists_eq_succ_of_ne_zero fun hzero => ?_
    rw [hzero, Nat.zero_mul] at hmul
    omega
  rw [hn, Nat.succ_mul] at hmul
  have hslots : slots C (cls, base) = base :: slotsFrom base cls.slotBytes 1 n := by
    rw [slots_eq]
    rw [hn, slotsFrom_succ, Nat.zero_mul, Nat.add_zero]
  have hnodup := hvalid.nodup
  rw [hslots, nodup_cons] at hnodup
  have hn_le : n ≤ n * cls.slotBytes := Nat.le_mul_of_pos_right _ hcls.pos
  obtain ⟨mem', free, hcarve, hfree, hmem⟩ := carve_has base cls.slotBytes n 1 (Has.new mem)
    hvalid.base_aligned hcls.aligned (by rw [Nat.add_mul, Nat.one_mul]; omega)
    (by rw [append_nil]; exact hnodup.2) (by rw [length_nil]; omega)
  have hmulOk : checkedMul n cls.slotBytes = some (n * cls.slotBytes) := if_pos (by omega)
  have haddOk : checkedAdd (n * cls.slotBytes) cls.slotBytes = some C.spanBytes := by
    rw [checkedAdd, if_pos (by omega), hmul]
  rw [append_nil] at hfree
  refine ⟨free, mem', ?_, hvalid, hfree.linked, ?_, ?_⟩
  · have hmod : C.spanBytes % cls.slotBytes = 0 := Nat.mod_eq_zero_of_dvd hcls.dvd_span
    rw [PreparedSpan.new, if_neg (by simp [hbase, hmod, hcls.pos.ne'])]
    simp only [hn, Nat.add_sub_cancel, Nat.succ_ne_zero, if_false, hmulOk, haddOk, ne_eq,
      not_true_eq_false, hcarve, ok_bind, pure_eq, Option.map_some]
  · rw [hslots, hfree.nodes_eq]
    exact (reverse_perm _).cons _
  · intro a ha
    rw [hslots] at ha
    exact hmem a fun hx => ha (mem_cons_of_mem _ hx)

end Anemone.Slab
