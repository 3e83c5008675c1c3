import Anemone.Library.OrderedMap

/-!
# Maps of extents

An ordered map whose values are intervals of points, each found under its own first point and no
two sharing a point, describes a partial function on points.  Erasing an entry and inserting an
interval where there is room are the two moves.
-/

/-- Values that are intervals of points. -/
class Extent (V : Type) where
  lo : V → ℕ
  hi : V → ℕ

namespace Extents

open Extent (lo hi)
open OrderedMap List

variable {V W : Type} [Extent V]

/-- The point lies in the interval. -/
def Over (v : V) (p : ℕ) : Prop := lo v ≤ p ∧ p < hi v

instance (v : V) (p : ℕ) : Decidable (Over v p) := inferInstanceAs (Decidable (_ ∧ _))

/-- Every value is a nonempty interval under its own first point, and the intervals follow
each other in key order. -/
structure WellKeyed (m : OrderedMap V) : Prop where
  key : ∀ (k : ℕ) (v : V), m[k]? = some v → lo v = k
  nonempty : ∀ (k : ℕ) (v : V), m[k]? = some v → lo v < hi v
  apart : ∀ (k k' : ℕ) (v v' : V), m[k]? = some v → m[k']? = some v' → k < k' → hi v ≤ k'

/-- The interval has room in the map. -/
def Fits (m : OrderedMap V) (v : V) : Prop :=
  ∀ (k : ℕ) (w : V), m[k]? = some w → hi w ≤ lo v ∨ hi v ≤ lo w

/-- The interval over a point. -/
def covering (m : OrderedMap V) (p : ℕ) : Option V :=
  match (m.rangeBelow (p + 1)).getLast? with
  | some (_, v) => if Over v p then some v else none
  | none => none

/-- What the map says about a point, when an interval `v` over it says `say v p`. -/
def look (say : V → ℕ → W) (m : OrderedMap V) (p : ℕ) : Option W :=
  (covering m p).map fun v => say v p

theorem wellKeyed_empty : WellKeyed (∅ : OrderedMap V) where
  key _ _ h := by simp at h
  nonempty _ _ h := by simp at h
  apart _ _ _ _ h := by simp at h

variable {v : V} {p : ℕ} {m : OrderedMap V}

theorem covering_some_mem (h : covering m p = some v) :
    ∃ k : ℕ, m[k]? = some v ∧ Over v p := by
  unfold covering at h
  split at h
  next k w hlast =>
    by_cases hover : Over w p
    · rw [if_pos hover] at h
      cases h
      exact ⟨k, (getLast_rangeBelow hlast).1.1, hover⟩
    · simp [hover] at h
  next => cases h

variable {k : ℕ} {w : V} {vs : List V}

namespace WellKeyed

variable {m : OrderedMap V} (h : WellKeyed m) {say : V → ℕ → W}

include h

theorem unique {k k' p : ℕ} {v v' : V} (hv : m[k]? = some v) (hv' : m[k']? = some v')
    (hp : Over v p) (hp' : Over v' p) : k = k' := by
  have hkey := h.key k v hv
  have hkey' := h.key k' v' hv'
  unfold Over at hp hp'
  rcases Nat.lt_trichotomy k k' with hlt | heq | hgt
  · have := h.apart k k' v v' hv hv' hlt
    omega
  · exact heq
  · have := h.apart k' k v' v hv' hv hgt
    omega

theorem covering_of_mem {k p : ℕ} (hv : m[k]? = some v) (hp : Over v p) :
    covering m p = some v := by
  have hkey := h.key k v hv
  unfold covering
  split
  next k' w hlast =>
    obtain ⟨⟨hw, hlt⟩, hmax⟩ := getLast_rangeBelow hlast
    have hle : k ≤ k' := hmax k v hv (by unfold Over at hp; omega)
    have heq : k = k' := by
      by_contra hne
      have := h.apart k k' v w hv hw (by omega)
      unfold Over at hp
      omega
    subst heq
    rw [hv] at hw
    cases hw
    rw [if_pos hp]
  next hnone =>
    have := getLast_rangeBelow_eq_none hnone k v hv
    unfold Over at hp
    omega

theorem covering_eq_some :
    covering m p = some v ↔ m[lo v]? = some v ∧ Over v p := by
  constructor
  · intro hcov
    obtain ⟨k, hk, hp⟩ := covering_some_mem hcov
    rw [h.key k v hk]
    exact ⟨hk, hp⟩
  · intro hmem
    exact h.covering_of_mem hmem.1 hmem.2

theorem covering_eq_none :
    covering m p = none ↔ ∀ (k : ℕ) (v : V), m[k]? = some v → ¬ Over v p := by
  constructor
  · intro hnone k v hk hp
    rw [h.covering_of_mem hk hp] at hnone
    cases hnone
  · intro hall
    cases hcov : covering m p with
    | none => rfl
    | some v =>
      obtain ⟨k, hk, hp⟩ := covering_some_mem hcov
      exact absurd hp (hall k v hk)

/-! ### Erasing -/

theorem erase (k : ℕ) : WellKeyed (m.erase k) where
  key a v ha := by
    rw [get_erase] at ha
    split at ha
    · cases ha
    · exact h.key a v ha
  nonempty a v ha := by
    rw [get_erase] at ha
    split at ha
    · cases ha
    · exact h.nonempty a v ha
  apart a b v w ha hb hlt := by
    rw [get_erase] at ha hb
    split at ha
    · cases ha
    · split at hb
      · cases hb
      · exact h.apart a b v w ha hb hlt

theorem covering_erase (hv : m[k]? = some v) (p : ℕ) :
    covering (m.erase k) p = if Over v p then none else covering m p := by
  by_cases hp : Over v p
  · rw [if_pos hp, (h.erase k).covering_eq_none]
    intro a w ha hw
    rw [get_erase] at ha
    split at ha
    · cases ha
    · next hne => exact hne (h.unique hv ha hp hw)
  · rw [if_neg hp]
    cases hcov : covering m p with
    | none =>
      rw [(h.erase k).covering_eq_none]
      intro a w ha
      rw [get_erase] at ha
      split at ha
      · cases ha
      · exact (h.covering_eq_none.mp hcov) a w ha
    | some w =>
      obtain ⟨hw, hover⟩ := h.covering_eq_some.mp hcov
      apply (h.erase k).covering_eq_some.mpr
      refine ⟨?_, hover⟩
      rw [get_erase, if_neg]
      · exact hw
      · intro heq
        rw [← heq, hv] at hw
        cases hw
        exact hp hover

theorem look_erase (say : V → ℕ → W) (hv : m[k]? = some v) (p : ℕ) :
    look say (m.erase k) p = if Over v p then none else look say m p := by
  unfold look
  rw [h.covering_erase hv]
  split <;> rfl

/-- What is inside an erased interval has room afterwards. -/
theorem fits_erase (hv : m[k]? = some v) (hlo : lo v ≤ lo w) (hhi : hi w ≤ hi v) :
    Fits (m.erase k) w := by
  intro a u ha
  rw [get_erase] at ha
  split at ha
  · cases ha
  next hne =>
    have hkey := h.key k v hv
    have hkeya := h.key a u ha
    rcases Nat.lt_or_gt_of_ne hne with hlt | hgt
    · have := h.apart k a v u hv ha hlt
      right
      omega
    · have := h.apart a k u v ha hv hgt
      left
      omega

/-! ### Inserting -/

theorem get_of_fits (hne : lo v < hi v) (hfit : Fits m v) : m[lo v]? = none := by
  cases hget : m[lo v]? with
  | none => rfl
  | some w =>
    have hkey := h.key _ w hget
    have hw := h.nonempty _ w hget
    have := hfit _ w hget
    omega

theorem insert (hne : lo v < hi v) (hfit : Fits m v) : WellKeyed (m.insert (lo v) v) where
  key a w ha := by
    rw [get_insert] at ha
    split at ha
    · next heq => cases ha; exact heq
    · exact h.key a w ha
  nonempty a w ha := by
    rw [get_insert] at ha
    split at ha
    · cases ha; exact hne
    · exact h.nonempty a w ha
  apart a b w w' ha hb hlt := by
    rw [get_insert] at ha hb
    split at ha
    · cases ha
      split at hb
      · omega
      · have hkey := h.key b w' hb
        have := hfit b w' hb
        have := h.nonempty b w' hb
        omega
    · split at hb
      · cases hb
        have hkey := h.key a w ha
        have := hfit a w ha
        omega
      · exact h.apart a b w w' ha hb hlt

theorem covering_insert (hne : lo v < hi v) (hfit : Fits m v) (p : ℕ) :
    covering (m.insert (lo v) v) p = if Over v p then some v else covering m p := by
  by_cases hp : Over v p
  · rw [if_pos hp]
    apply (h.insert hne hfit).covering_of_mem (k := lo v)
    · rw [get_insert, if_pos rfl]
    · exact hp
  · rw [if_neg hp]
    cases hcov : covering m p with
    | none =>
      rw [(h.insert hne hfit).covering_eq_none]
      intro a w ha
      rw [get_insert] at ha
      split at ha
      · cases ha; exact hp
      · exact (h.covering_eq_none.mp hcov) a w ha
    | some w =>
      obtain ⟨hw, hover⟩ := h.covering_eq_some.mp hcov
      apply (h.insert hne hfit).covering_eq_some.mpr
      refine ⟨?_, hover⟩
      rw [get_insert, if_neg]
      · exact hw
      · intro heq
        rw [← heq, h.get_of_fits hne hfit] at hw
        cases hw

theorem look_insert (say : V → ℕ → W) (hne : lo v < hi v) (hfit : Fits m v) (p : ℕ) :
    look say (m.insert (lo v) v) p = if Over v p then some (say v p) else look say m p := by
  unfold look
  rw [h.covering_insert hne hfit]
  split <;> rfl

theorem look_eq_none :
    look say m p = none ↔ ∀ (k : ℕ) (v : V), m[k]? = some v → ¬ Over v p := by
  rw [← h.covering_eq_none]
  simp [look]

theorem look_eq_some {w : W} :
    look say m p = some w ↔ ∃ (k : ℕ) (v : V), m[k]? = some v ∧ Over v p ∧ say v p = w := by
  unfold look
  constructor
  · intro hlook
    obtain ⟨v, hcov, rfl⟩ := Option.map_eq_some_iff.mp hlook
    obtain ⟨k, hk, hp⟩ := covering_some_mem hcov
    exact ⟨k, v, hk, hp, rfl⟩
  · rintro ⟨k, v, hk, hp, rfl⟩
    rw [h.covering_of_mem hk hp]
    rfl

end WellKeyed

/-! ## Putting in several intervals -/

/-- The intervals put in one after the other. -/
def insertAll (m : OrderedMap V) (vs : List V) : OrderedMap V :=
  vs.foldl (fun m v => m.insert (lo v) v) m

/-- Neither interval reaches into the other. -/
def Apart (v w : V) : Prop := hi v ≤ lo w ∨ hi w ≤ lo v

theorem WellKeyed.apart_of_ne (h : WellKeyed m) {k k' : ℕ} {v v' : V} (hv : m[k]? = some v)
    (hv' : m[k']? = some v') (hne : k ≠ k') : Apart v v' := by
  unfold Apart
  rw [h.key k v hv, h.key k' v' hv']
  rcases Nat.lt_or_gt_of_ne hne with hlt | hgt
  · exact .inl (h.apart k k' v v' hv hv' hlt)
  · exact .inr (h.apart k' k v' v hv' hv hgt)

theorem fits_insert {v : V} (hw : Fits m w) (hvw : Apart v w) :
    Fits (m.insert (lo v) v) w := by
  intro k u hu
  rw [get_insert] at hu
  split at hu
  · cases hu
    exact hvw
  · exact hw k u hu

theorem mem_insertAll (hw : (insertAll m vs)[k]? = some w) :
    w ∈ vs ∨ m[k]? = some w := by
  induction vs generalizing m with
  | nil => exact .inr hw
  | cons v vs ih =>
    rcases ih hw with hin | hget
    · exact .inl (mem_cons_of_mem _ hin)
    · rw [get_insert] at hget
      split at hget
      · cases hget
        exact .inl mem_cons_self
      · exact .inr hget

/-- Intervals that have room in the map and beside each other are all found afterwards,
what was there stays, and a point no new interval is over says what it said. -/
theorem WellKeyed.insertAll (say : V → ℕ → W) (h : WellKeyed m) (hne : ∀ v ∈ vs, lo v < hi v)
    (hfit : ∀ v ∈ vs, Fits m v) (hapart : vs.Pairwise Apart) :
    WellKeyed (insertAll m vs) ∧
      (∀ p, (∀ v ∈ vs, ¬ Over v p) → look say (Extents.insertAll m vs) p = look say m p) ∧
      (∀ (k : ℕ) (w : V), m[k]? = some w → (Extents.insertAll m vs)[k]? = some w) ∧
      ∀ v ∈ vs, (Extents.insertAll m vs)[lo v]? = some v := by
  induction vs generalizing m with
  | nil =>
    refine ⟨h, ?_, ?_, ?_⟩
    · intro p _
      rfl
    · intro k w hw
      exact hw
    · intro v hv
      cases hv
  | cons v vs ih =>
    have hnev : lo v < hi v := hne v mem_cons_self
    have hfitv : Fits m v := hfit v mem_cons_self
    obtain ⟨hhead, htail⟩ := pairwise_cons.mp hapart
    have hfits : ∀ w ∈ vs, Fits (m.insert (lo v) v) w := by
      intro w hw
      exact fits_insert (hfit w (mem_cons_of_mem _ hw)) (hhead w hw)
    obtain ⟨hwk, hlook, hkeep, hfound⟩ := ih (h.insert hnev hfitv)
      (fun w hw => hne w (mem_cons_of_mem _ hw)) hfits htail
    refine ⟨hwk, ?_, ?_, ?_⟩
    · intro p hp
      have hrest := hlook p fun w hw => hp w (mem_cons_of_mem _ hw)
      rw [h.look_insert say hnev hfitv, if_neg (hp v mem_cons_self)] at hrest
      exact hrest
    · intro k w hw
      apply hkeep
      rw [get_insert, if_neg]
      · exact hw
      · intro heq
        rw [← heq, h.get_of_fits hnev hfitv] at hw
        cases hw
    · intro w hw
      rcases mem_cons.mp hw with rfl | hin
      · apply hkeep
        rw [get_insert, if_pos rfl]
      · exact hfound w hin

end Extents
