import Mathlib.Tactic.Ring

/-!
# Ordered maps with range queries

A map from natural numbers that can be walked in key order, from any key on or up to any
key.  The carrier is `Std.ExtTreeMap`; this file adds the two one-sided range queries and
what their first or last entry says about the whole map.
-/

abbrev OrderedMap (V : Type) : Type := Std.ExtTreeMap ℕ V

namespace OrderedMap

open List

variable {V : Type}

/-- The entries with keys from `lo` on, in key order. -/
def rangeFrom (m : OrderedMap V) (lo : ℕ) : List (ℕ × V) := m.toList.filter fun e => lo ≤ e.1

/-- The entries with keys below `hi`, in key order. -/
def rangeBelow (m : OrderedMap V) (hi : ℕ) : List (ℕ × V) := m.toList.filter fun e => e.1 < hi

theorem get_insert (m : OrderedMap V) (k a : ℕ) (v : V) :
    (m.insert k v)[a]? = if k = a then some v else m[a]? := by
  simp [Std.ExtTreeMap.getElem?_insert]

theorem get_erase (m : OrderedMap V) (k a : ℕ) :
    (m.erase k)[a]? = if k = a then none else m[a]? := by
  simp [Std.ExtTreeMap.getElem?_erase]

theorem insert_erase (m : OrderedMap V) (k : ℕ) (v : V) : (m.erase k).insert k v = m.insert k v := by
  apply Std.ExtTreeMap.ext_getElem?
  intro a
  rw [get_insert, get_insert, get_erase]
  split <;> rfl

variable {m : OrderedMap V} {v : V} {k lo hi : ℕ}

theorem mem_toList : (k, v) ∈ m.toList ↔ m[k]? = some v :=
  Std.ExtTreeMap.mem_toList_iff_getElem?_eq_some

theorem toList_pairwise (m : OrderedMap V) : m.toList.Pairwise fun a b => a.1 < b.1 := by
  simpa [Nat.compare_eq_lt] using Std.ExtTreeMap.ordered_keys_toList (t := m)

theorem mem_rangeFrom :
    (k, v) ∈ m.rangeFrom lo ↔ m[k]? = some v ∧ lo ≤ k := by
  simp [rangeFrom, mem_filter]

theorem mem_rangeBelow :
    (k, v) ∈ m.rangeBelow hi ↔ m[k]? = some v ∧ k < hi := by
  simp [rangeBelow, mem_filter]

theorem head_rangeFrom (h : (m.rangeFrom lo).head? = some (k, v)) :
    (m[k]? = some v ∧ lo ≤ k) ∧ ∀ a w, m[a]? = some w → lo ≤ a → k ≤ a := by
  obtain ⟨rest, hrest⟩ := head?_eq_some_iff.mp h
  refine ⟨mem_rangeFrom.mp (by rw [hrest]; exact mem_cons_self), ?_⟩
  intro a w ha hlo
  have hsorted : (m.rangeFrom lo).Pairwise fun a b => a.1 < b.1 := m.toList_pairwise.filter _
  have hmem : (a, w) ∈ m.rangeFrom lo := mem_rangeFrom.mpr ⟨ha, hlo⟩
  rw [hrest] at hsorted hmem
  rcases mem_cons.mp hmem with heq | htail
  · exact (congrArg Prod.fst heq).ge
  · exact ((pairwise_cons.mp hsorted).1 _ htail).le

theorem head_rangeFrom_eq_none (h : (m.rangeFrom lo).head? = none) :
    ∀ a w, m[a]? = some w → a < lo := by
  intro a w ha
  by_contra hge
  have hmem : (a, w) ∈ m.rangeFrom lo := mem_rangeFrom.mpr ⟨ha, Nat.not_lt.mp hge⟩
  rw [head?_eq_none_iff.mp h] at hmem
  cases hmem

theorem getLast_rangeBelow (h : (m.rangeBelow hi).getLast? = some (k, v)) :
    (m[k]? = some v ∧ k < hi) ∧ ∀ a w, m[a]? = some w → a < hi → a ≤ k := by
  obtain ⟨front, hfront⟩ := getLast?_eq_some_iff.mp h
  refine ⟨mem_rangeBelow.mp (by rw [hfront]; simp), ?_⟩
  intro a w ha hlt
  have hsorted : (m.rangeBelow hi).Pairwise fun a b => a.1 < b.1 := m.toList_pairwise.filter _
  have hmem : (a, w) ∈ m.rangeBelow hi := mem_rangeBelow.mpr ⟨ha, hlt⟩
  rw [hfront] at hsorted hmem
  rcases mem_append.mp hmem with hin | hlast
  · exact ((pairwise_append.mp hsorted).2.2 _ hin _ (mem_singleton_self _)).le
  · exact (congrArg Prod.fst (mem_singleton.mp hlast)).le

theorem getLast_rangeBelow_eq_none (h : (m.rangeBelow hi).getLast? = none) :
    ∀ a w, m[a]? = some w → hi ≤ a := by
  intro a w ha
  by_contra hlt
  have hmem : (a, w) ∈ m.rangeBelow hi := mem_rangeBelow.mpr ⟨ha, Nat.not_le.mp hlt⟩
  rw [getLast?_eq_none_iff.mp h] at hmem
  cases hmem

end OrderedMap
