import Anemone.Library.Checked

/-!
# Binary heaps kept in a vector

A vector read as a tree, with the two repair loops every array heap uses.  The comparison is a
checked computation; the results are about a `key` that it agrees with on the entries of the
vector, so they also say that no comparison panics.  `UpOrdered` and `DownOrdered` say that the
order holds except between one position and its parent, or its children; each round of a loop
moves the exception one level.
-/

namespace BinaryHeap

open Checked (ok_bind pure_eq)
open Checked

variable {α : Type}

/-! ## The operations -/

/-- Exchange the entries of two positions. -/
def swap (xs : List α) (i j : ℕ) : List α :=
  match xs[i]?, xs[j]? with
  | some a, some b => (xs.set i b).set j a
  | _, _ => xs

/-- Read a position, panicking outside of the vector. -/
def read (xs : List α) (i : ℕ) : Checked α :=
  Checked.expect xs[i]? "index out of bounds"

/-- Take the entry of a position out and move the last entry there. -/
def swapRemove (xs : List α) (index : ℕ) : Checked (α × List α) := do
  let removed ← Checked.expect xs[index]? "swap_remove index should be < len"
  let last ← Checked.expect xs[xs.length - 1]? "swap_remove index should be < len"
  pure (removed, (xs.set index last).dropLast)

theorem swap_length (xs : List α) (i j : ℕ) : (swap xs i j).length = xs.length := by
  unfold swap
  split <;> simp

/-- Move an entry towards the root as long as it precedes its parent. -/
def siftUp (precedes : α → α → Checked Bool) (xs : List α) (index : ℕ) : Checked (List α) :=
  if h : index = 0 then .ok xs
  else do
    let entry ← read xs index
    let above ← read xs ((index - 1) / 2)
    if ← precedes entry above then
      siftUp precedes (swap xs index ((index - 1) / 2)) ((index - 1) / 2)
    else pure xs
termination_by index
decreasing_by omega

/-- The child of a position that a downward repair compares with. -/
def smallerChild (precedes : α → α → Checked Bool) (xs : List α) (index : ℕ) : Checked ℕ := do
  let left := index * 2 + 1
  let right := left + 1
  if right < xs.length then
    let second ← read xs right
    let first ← read xs left
    if ← precedes second first then pure right else pure left
  else pure left

/-- Move an entry towards the leaves as long as its smaller child precedes it. -/
def siftDown (precedes : α → α → Checked Bool) (xs : List α) (index : ℕ) : Checked (List α) :=
  if xs.length ≤ index * 2 + 1 then .ok xs
  else do
    let child ← smallerChild precedes xs index
    let below ← read xs child
    let entry ← read xs index
    if ← precedes below entry then
      if _ : index < child ∧ child < xs.length then
        siftDown precedes (swap xs index child) child
      else .error ⟨"index out of bounds"⟩
    else pure xs
termination_by xs.length - index
decreasing_by
  rw [swap_length]
  omega

def push (precedes : α → α → Checked Bool) (xs : List α) (entry : α) : Checked (List α) :=
  siftUp precedes (xs ++ [entry]) xs.length

/-- Take the entry of a position out.  The last entry takes its place and is repaired in the
one direction in which it can be out of order. -/
def remove (precedes : α → α → Checked Bool) (xs : List α) (index : ℕ) :
    Checked (α × List α) := do
  let (removed, rest) ← swapRemove xs index
  if index = rest.length then pure (removed, rest)
  else
    let up ← if 0 < index then do
        let entry ← read rest index
        let above ← read rest ((index - 1) / 2)
        precedes entry above
      else pure false
    let repaired ← if up then siftUp precedes rest index else siftDown precedes rest index
    pure (removed, repaired)

/-! ## What the repairs are for -/

variable {κ : Type} [LinearOrder κ] (key : α → κ)

/-- No entry is before its parent. -/
def Ordered (xs : List α) : Prop :=
  ∀ i a b, 0 < i → xs[i]? = some a → xs[(i - 1) / 2]? = some b → key b ≤ key a

/-- The children of a position are not before its parent. -/
def Spans (xs : List α) (hole : ℕ) : Prop :=
  ∀ i a b, 0 < i → (i - 1) / 2 = hole → 0 < hole → xs[i]? = some a →
    xs[(hole - 1) / 2]? = some b → key b ≤ key a

/-- The order holds except possibly between a position and its parent. -/
structure UpOrdered (xs : List α) (hole : ℕ) : Prop where
  off : ∀ i a b, 0 < i → i ≠ hole → xs[i]? = some a → xs[(i - 1) / 2]? = some b → key b ≤ key a
  spans : Spans key xs hole

/-- The order holds except possibly between a position and its children. -/
structure DownOrdered (xs : List α) (hole : ℕ) : Prop where
  off : ∀ i a b, 0 < i → (i - 1) / 2 ≠ hole → xs[i]? = some a →
    xs[(i - 1) / 2]? = some b → key b ≤ key a
  spans : Spans key xs hole

/-- On the entries of the vector the comparison returns, and says which key is smaller. -/
def Compares (precedes : α → α → Checked Bool) (xs : List α) : Prop :=
  ∀ a ∈ xs, ∀ b ∈ xs, precedes a b = .ok (decide (key a < key b))

variable {key} {precedes : α → α → Checked Bool} {xs ys : List α}

theorem Compares.perm (h : Compares key precedes xs) (hp : ys.Perm xs) :
    Compares key precedes ys :=
  fun a ha b hb => h a (hp.mem_iff.mp ha) b (hp.mem_iff.mp hb)

/-! ## Exchanging two entries -/

variable {a b x : α} {i j hole : ℕ}

theorem swap_of (hi : xs[i]? = some a) (hj : xs[j]? = some b) :
    swap xs i j = (xs.set i b).set j a := by
  simp only [swap, hi, hj]

theorem swap_perm (hi : xs[i]? = some a) (hj : xs[j]? = some b) :
    (swap xs i j).Perm xs := by
  obtain ⟨hil, rfl⟩ := List.getElem?_eq_some_iff.mp hi
  obtain ⟨hjl, rfl⟩ := List.getElem?_eq_some_iff.mp hj
  rw [swap_of hi hj]
  exact List.set_set_perm hil hjl

theorem swap_get (hi : xs[i]? = some a) (hj : xs[j]? = some b) (k : ℕ) :
    (swap xs i j)[k]? = if k = j then some a else if k = i then some b else xs[k]? := by
  have hil := (List.getElem?_eq_some_iff.mp hi).1
  have hjl := (List.getElem?_eq_some_iff.mp hj).1
  rw [swap_of hi hj, List.getElem?_set, List.getElem?_set]
  by_cases hkj : k = j
  · subst hkj; simp [hjl]
  · by_cases hki : k = i
    · subst hki; simp [Ne.symm hkj, hkj, hil]
    · simp [Ne.symm hkj, Ne.symm hki, hkj, hki]

theorem swap_get_left (hi : xs[i]? = some a) (hj : xs[j]? = some b)
    (hij : i ≠ j) : (swap xs i j)[i]? = some b := by
  rw [swap_get hi hj, if_neg hij, if_pos rfl]

theorem swap_get_right (hi : xs[i]? = some a) (hj : xs[j]? = some b) :
    (swap xs i j)[j]? = some a := by
  rw [swap_get hi hj, if_pos rfl]

theorem swap_get_other {i j k : ℕ} (hi : xs[i]? = some a) (hj : xs[j]? = some b) (hki : k ≠ i)
    (hkj : k ≠ j) : (swap xs i j)[k]? = xs[k]? := by
  rw [swap_get hi hj, if_neg hkj, if_neg hki]

/-! ## Towards the root -/

/-- Exchanging an entry with the parent it precedes moves the exception to the parent. -/
theorem UpOrdered.move {b : α} (o : UpOrdered key xs hole) (hpos : 0 < hole)
    (hx : xs[hole]? = some x) (hb : xs[(hole - 1) / 2]? = some b) (hlt : key x < key b) :
    UpOrdered key (swap xs hole ((hole - 1) / 2)) ((hole - 1) / 2) := by
  have hne : hole ≠ (hole - 1) / 2 := by omega
  constructor
  · intro i a c hi hip ha hc
    by_cases hih : i = hole
    · subst hih
      rw [swap_get_left hx hb hne] at ha
      rw [swap_get_right hx hb] at hc
      cases ha; cases hc
      exact le_of_lt hlt
    · rw [swap_get_other hx hb hih hip] at ha
      by_cases hph : (i - 1) / 2 = hole
      · rw [hph, swap_get_left hx hb hne] at hc
        cases hc
        exact o.spans i a b hi hph hpos ha hb
      · by_cases hpp : (i - 1) / 2 = (hole - 1) / 2
        · rw [hpp, swap_get_right hx hb] at hc
          cases hc
          exact le_trans (le_of_lt hlt) (o.off i a b hi hih ha (hpp ▸ hb))
        · rw [swap_get_other hx hb hph hpp] at hc
          exact o.off i a c hi hih ha hc
  · intro i a c hi hip hpp ha hc
    rw [swap_get_other hx hb (by omega) (by omega)] at hc
    have habove : key c ≤ key b := o.off _ b c hpp (by omega) hb hc
    by_cases hih : i = hole
    · subst hih
      rw [swap_get_left hx hb hne] at ha
      cases ha
      exact habove
    · rw [swap_get_other hx hb hih (by omega)] at ha
      exact le_trans habove (o.off i a b hi hih ha (hip ▸ hb))

theorem UpOrdered.ordered (o : UpOrdered key xs hole)
    (h : ∀ a b, 0 < hole → xs[hole]? = some a → xs[(hole - 1) / 2]? = some b → key b ≤ key a) :
    Ordered key xs := by
  intro i a b hi ha hb
  by_cases hih : i = hole
  · subst hih
    exact h a b hi ha hb
  · exact o.off i a b hi hih ha hb

variable {index : ℕ}

/-- The upward loop returns the same entries in heap order. -/
theorem siftUp_spec (hc : Compares key precedes xs) (hlen : index < xs.length)
    (o : UpOrdered key xs index) :
    ∃ ys, siftUp precedes xs index = .ok ys ∧ Ordered key ys ∧ ys.Perm xs := by
  induction index using Nat.strongRecOn generalizing xs with
  | ind index ih =>
    by_cases h0 : index = 0
    · refine ⟨xs, by rw [siftUp, dif_pos h0], o.ordered ?_, List.Perm.refl _⟩
      intro a b hpos
      omega
    · have hpl : (index - 1) / 2 < xs.length := by omega
      have hx : xs[index]? = some xs[index] := List.getElem?_eq_getElem hlen
      have hb : xs[(index - 1) / 2]? = some xs[(index - 1) / 2] := List.getElem?_eq_getElem hpl
      have hcmp := hc _ (List.getElem_mem hlen) _ (List.getElem_mem hpl)
      rw [siftUp, dif_neg h0]
      simp only [read, hx, hb, hcmp, expect_some, ok_bind, pure_eq]
      by_cases hlt : key xs[index] < key xs[(index - 1) / 2]
      · have hperm := swap_perm hx hb
        obtain ⟨ys, hrun, hord, hys⟩ := ih _ (by omega) (hc.perm hperm)
          (by rw [swap_length]; exact hpl) (o.move (by omega) hx hb hlt)
        exact ⟨ys, by simpa [hlt] using hrun, hord, hys.trans hperm⟩
      · refine ⟨xs, by simp [hlt], o.ordered ?_, List.Perm.refl _⟩
        intro a b _ ha hb'
        rw [hx] at ha; rw [hb] at hb'
        cases ha; cases hb'
        exact not_lt.mp hlt

/-! ## Towards the leaves -/

/-- Exchanging an entry with the smaller of its children moves the exception to the child. -/
theorem DownOrdered.move {child : ℕ} {y : α} (o : DownOrdered key xs hole)
    (hchild : (child - 1) / 2 = hole) (hpos : 0 < child) (hx : xs[hole]? = some x)
    (hy : xs[child]? = some y) (hlt : key y < key x)
    (hmin : ∀ i a, 0 < i → (i - 1) / 2 = hole → xs[i]? = some a → key y ≤ key a) :
    DownOrdered key (swap xs hole child) child := by
  have hne : hole ≠ child := by omega
  constructor
  · intro i a c hi hic ha hc
    by_cases hih : i = hole
    · subst hih
      rw [swap_get_left hx hy hne] at ha
      rw [swap_get_other hx hy (by omega) (by omega)] at hc
      cases ha
      exact o.spans child y c hpos hchild hi hy hc
    · by_cases hci : i = child
      · subst hci
        rw [swap_get_right hx hy] at ha
        rw [hchild, swap_get_left hx hy hne] at hc
        cases ha; cases hc
        exact le_of_lt hlt
      · rw [swap_get_other hx hy hih hci] at ha
        by_cases hph : (i - 1) / 2 = hole
        · rw [hph, swap_get_left hx hy hne] at hc
          cases hc
          exact hmin i a hi hph ha
        · rw [swap_get_other hx hy hph hic] at hc
          exact o.off i a c hi hph ha hc
  · intro i a c hi hic _ ha hc
    rw [hchild, swap_get_left hx hy hne] at hc
    rw [swap_get_other hx hy (by omega) (by omega)] at ha
    cases hc
    exact o.off i a y hi (by omega) ha (hic ▸ hy)

theorem DownOrdered.ordered (o : DownOrdered key xs hole)
    (h : ∀ i a b, 0 < i → (i - 1) / 2 = hole → xs[i]? = some a → xs[hole]? = some b →
      key b ≤ key a) : Ordered key xs := by
  intro i a b hi ha hb
  by_cases hph : (i - 1) / 2 = hole
  · exact h i a b hi hph ha (hph ▸ hb)
  · exact o.off i a b hi hph ha hb

/-- The child that is compared with is a child, and no child is before it. -/
theorem smallerChild_spec (hc : Compares key precedes xs) (hlen : index * 2 + 1 < xs.length) :
    ∃ child y, smallerChild precedes xs index = .ok child ∧ (child - 1) / 2 = index ∧
      0 < child ∧ xs[child]? = some y ∧
      ∀ i a, 0 < i → (i - 1) / 2 = index → xs[i]? = some a → key y ≤ key a := by
  have hl : xs[index * 2 + 1]? = some xs[index * 2 + 1] := List.getElem?_eq_getElem hlen
  by_cases hr : index * 2 + 1 + 1 < xs.length
  · have hr' : xs[index * 2 + 1 + 1]? = some xs[index * 2 + 1 + 1] := List.getElem?_eq_getElem hr
    have hcmp := hc _ (List.getElem_mem hr) _ (List.getElem_mem hlen)
    have hsplit : ∀ {i : ℕ} {a : α}, 0 < i → (i - 1) / 2 = index → xs[i]? = some a →
        a = xs[index * 2 + 1] ∨ a = xs[index * 2 + 1 + 1] := by
      intro i a hi hip ha
      obtain rfl | rfl : i = index * 2 + 1 ∨ i = index * 2 + 1 + 1 := by omega
      · exact .inl (Option.some.inj (ha.symm.trans hl))
      · exact .inr (Option.some.inj (ha.symm.trans hr'))
    by_cases hlt : key xs[index * 2 + 1 + 1] < key xs[index * 2 + 1]
    · refine ⟨index * 2 + 1 + 1, _, ?_, by omega, by omega, hr', ?_⟩
      · simp only [smallerChild, hr, ↓reduceIte, read, hl, hr', expect_some,
          ok_bind, hcmp, pure_eq, hlt, decide_true]
      · intro i a hi hip ha
        rcases hsplit hi hip ha with rfl | rfl
        · exact le_of_lt hlt
        · exact le_refl _
    · refine ⟨index * 2 + 1, _, ?_, by omega, by omega, hl, ?_⟩
      · simp only [smallerChild, hr, ↓reduceIte, read, hl, hr', expect_some,
          ok_bind, hcmp, pure_eq, hlt, decide_false, Bool.false_eq_true]
      · intro i a hi hip ha
        rcases hsplit hi hip ha with rfl | rfl
        · exact le_refl _
        · exact not_lt.mp hlt
  · refine ⟨index * 2 + 1, _, by simp [smallerChild, hr], by omega, by omega, hl, ?_⟩
    intro i a hi hip ha
    have hil := (List.getElem?_eq_some_iff.mp ha).1
    obtain rfl : i = index * 2 + 1 := by omega
    rw [hl] at ha
    cases ha
    exact le_refl _

/-- The downward loop returns the same entries in heap order. -/
theorem siftDown_spec (hc : Compares key precedes xs) (hlen : index < xs.length)
    (o : DownOrdered key xs index) :
    ∃ ys, siftDown precedes xs index = .ok ys ∧ Ordered key ys ∧ ys.Perm xs := by
  induction hn : xs.length - index using Nat.strongRecOn generalizing xs index with
  | ind n ih =>
    by_cases hleaf : xs.length ≤ index * 2 + 1
    · refine ⟨xs, by rw [siftDown, if_pos hleaf], o.ordered ?_, List.Perm.refl _⟩
      intro i a b hi hip ha
      have hil := (List.getElem?_eq_some_iff.mp ha).1
      omega
    · obtain ⟨child, y, hchild, hpar, hpos, hy, hmin⟩ :=
        smallerChild_spec hc (Nat.lt_of_not_le hleaf)
      have hcl := (List.getElem?_eq_some_iff.mp hy).1
      have hx : xs[index]? = some xs[index] := List.getElem?_eq_getElem hlen
      have hcmp := hc y (List.mem_of_getElem? hy) _ (List.getElem_mem hlen)
      have hin : index < child ∧ child < xs.length := ⟨by omega, hcl⟩
      rw [siftDown, if_neg hleaf]
      simp only [hchild, read, hy, hx, expect_some, ok_bind, hcmp, pure_eq]
      by_cases hlt : key y < key xs[index]
      · have hperm := swap_perm hx hy
        obtain ⟨ys, hrun, hord, hys⟩ := ih _ (by rw [swap_length]; omega) (hc.perm hperm)
          (by rw [swap_length]; exact hcl) (o.move hpar hpos hx hy hlt hmin) rfl
        exact ⟨ys, by simpa [hlt, hin] using hrun, hord, hys.trans hperm⟩
      · refine ⟨xs, by simp [hlt], o.ordered ?_, List.Perm.refl _⟩
        intro i a b hi hip ha hb
        rw [hx] at hb
        cases hb
        exact le_trans (not_lt.mp hlt) (hmin i a hi hip ha)

/-! ## Adding and removing -/

/-- Adding an entry keeps the heap order and adds exactly that entry. -/
theorem push_spec {entry : α} (hc : Compares key precedes (entry :: xs))
    (o : Ordered key xs) :
    ∃ ys, push precedes xs entry = .ok ys ∧ Ordered key ys ∧ ys.Perm (entry :: xs) := by
  have hperm : (xs ++ [entry]).Perm (entry :: xs) := List.perm_append_comm
  have hup : UpOrdered key (xs ++ [entry]) xs.length := by
    constructor
    · intro i a b hi hne ha hb
      have hil := (List.getElem?_eq_some_iff.mp ha).1
      rw [List.length_append, List.length_singleton] at hil
      rw [List.getElem?_append_left (by omega)] at ha hb
      exact o i a b hi ha hb
    · intro i a b hi hip _ ha
      have hil := (List.getElem?_eq_some_iff.mp ha).1
      rw [List.length_append, List.length_singleton] at hil
      omega
  obtain ⟨ys, hrun, hord, hys⟩ := siftUp_spec (hc.perm hperm) (by simp) hup
  exact ⟨ys, hrun, hord, hys.trans hperm⟩

/-- What is left when the last entry has taken the place of a removed one. -/
theorem swapRemove_spec (hx : xs[index]? = some x) :
    ∃ rest last, swapRemove xs index = .ok (x, rest) ∧ (x :: rest).Perm xs ∧
      rest.length + 1 = xs.length ∧ xs[rest.length]? = some last ∧
      ∀ i, i < rest.length → rest[i]? = if i = index then some last else xs[i]? := by
  have hlen := (List.getElem?_eq_some_iff.mp hx).1
  have hlast : xs[xs.length - 1]? = some xs[xs.length - 1] := List.getElem?_eq_getElem (by omega)
  have hlen' : ((xs.set index xs[xs.length - 1]).dropLast).length = xs.length - 1 := by simp
  refine ⟨(xs.set index xs[xs.length - 1]).dropLast, xs[xs.length - 1], ?_, ?_, by omega, ?_, ?_⟩
  · simp only [swapRemove, hx, hlast, expect_some, ok_bind, pure_eq]
  · -- the removed entry and the last one are exchanged, and the last position is cut off
    have hswap := swap_perm hx hlast
    rw [swap_of hx hlast] at hswap
    have hcut : (xs.set index xs[xs.length - 1]).set (xs.length - 1) x =
        (xs.set index xs[xs.length - 1]).dropLast ++ [x] := by
      rw [List.dropLast_eq_take, List.length_set]
      apply List.ext_getElem?
      intro i
      rw [List.getElem?_append, List.length_take, List.length_set, List.getElem?_set,
        List.length_set]
      by_cases hi : i = xs.length - 1
      · rw [if_pos hi.symm, if_pos (by omega), if_neg (by omega), hi,
          Nat.min_eq_left (by omega), Nat.sub_self]
        rfl
      · by_cases hil : i < xs.length - 1
        · simp [Ne.symm hi, hil]
        · rw [if_neg (Ne.symm hi), if_neg (by omega), List.getElem?_eq_none (by simp; omega),
            List.getElem?_eq_none (by simp; omega)]
    rw [hcut] at hswap
    exact List.perm_append_comm.symm.trans hswap
  · rw [hlen', hlast]
  · intro i hi
    rw [hlen'] at hi
    rw [List.dropLast_eq_take, List.length_set, List.getElem?_take, if_pos hi, List.getElem?_set]
    by_cases hii : i = index
    · subst hii; simp [hlen]
    · simp [Ne.symm hii, hii]

/-- Removing the entry of a position keeps the heap order and removes exactly that entry. -/
theorem remove_spec (hc : Compares key precedes xs) (o : Ordered key xs) (hx : xs[index]? = some x) :
    ∃ ys, remove precedes xs index = .ok (x, ys) ∧ Ordered key ys ∧ (x :: ys).Perm xs := by
  obtain ⟨rest, last, hrun, hperm, hlen, hlast, hget⟩ := swapRemove_spec hx
  have hxl := (List.getElem?_eq_some_iff.mp hx).1
  have hsame : ∀ {i : ℕ} {a : α}, i ≠ index → rest[i]? = some a → xs[i]? = some a := by
    intro i a hne ha
    have hil := (List.getElem?_eq_some_iff.mp ha).1
    rwa [hget i hil, if_neg hne] at ha
  by_cases hend : index = rest.length
  · refine ⟨rest, ?_, ?_, hperm⟩
    · simp only [remove, hrun, ok_bind, if_pos hend, pure_eq]
    · intro i a b hi ha hb
      have hil := (List.getElem?_eq_some_iff.mp ha).1
      exact o i a b hi (hsame (by omega) ha) (hsame (by omega) hb)
  · have hil : index < rest.length := by omega
    have hcr : Compares key precedes rest := fun a ha b hb =>
      hc a (hperm.mem_iff.mp (List.mem_cons_of_mem _ ha)) b
        (hperm.mem_iff.mp (List.mem_cons_of_mem _ hb))
    have hspans : Spans key rest index := by
      intro i a b hi hip hpos ha hb
      have hb' := hsame (by omega) hb
      exact le_trans (o index x b hpos hx hb') (o i a x hi (hsame (by omega) ha) (hip ▸ hx))
    have hentry : rest[index]? = some last := by rw [hget index hil, if_pos rfl]
    -- either the moved entry precedes its parent, or only its children can be out of order
    by_cases hup : 0 < index ∧ ∃ b, rest[(index - 1) / 2]? = some b ∧ key last < key b
    · obtain ⟨hpos, b, hb, hlt⟩ := hup
      have hcmp := hcr last (List.mem_of_getElem? hentry) b (List.mem_of_getElem? hb)
      have ho : UpOrdered key rest index := by
        refine ⟨?_, hspans⟩
        intro i a c hi hne ha hc'
        by_cases hip : (i - 1) / 2 = index
        · rw [hip, hentry] at hc'
          cases hc'
          exact le_trans (le_of_lt hlt) (hspans i a b hi hip hpos ha hb)
        · exact o i a c hi (hsame hne ha) (hsame hip hc')
      obtain ⟨ys, hsift, hord, hys⟩ := siftUp_spec hcr hil ho
      refine ⟨ys, ?_, hord, (hys.cons x).trans hperm⟩
      simp [remove, hrun, hend, hpos, read, hentry, hb, hcmp, hlt, hsift]
    · have ho : DownOrdered key rest index := by
        refine ⟨?_, hspans⟩
        intro i a c hi hip ha hc'
        by_cases hne : i = index
        · subst hne
          rw [hentry] at ha
          cases ha
          exact not_lt.mp fun hlt => hup ⟨hi, c, hc', hlt⟩
        · exact o i a c hi (hsame hne ha) (hsame hip hc')
      obtain ⟨ys, hsift, hord, hys⟩ := siftDown_spec hcr hil ho
      refine ⟨ys, ?_, hord, (hys.cons x).trans hperm⟩
      by_cases hpos : 0 < index
      · have hpl : (index - 1) / 2 < rest.length := by omega
        have hb : rest[(index - 1) / 2]? = some rest[(index - 1) / 2] :=
          List.getElem?_eq_getElem hpl
        have hcmp := hcr last (List.mem_of_getElem? hentry) _ (List.getElem_mem hpl)
        have hnlt : ¬ key last < key rest[(index - 1) / 2] := fun hlt => hup ⟨hpos, _, hb, hlt⟩
        simp [remove, hrun, hend, hpos, read, hentry, hb, hcmp, hnlt, hsift]
      · simp [remove, hrun, hend, hpos, hsift]

/-- The root of a heap is not after any entry. -/
theorem Ordered.root_le (o : Ordered key xs) {r : α} (hr : xs[0]? = some r) :
    ∀ a ∈ xs, key r ≤ key a := by
  have hall : ∀ (i : ℕ) (a : α), xs[i]? = some a → key r ≤ key a := by
    intro i
    induction i using Nat.strongRecOn with
    | ind i ih =>
      intro a ha
      by_cases hi : i = 0
      · subst hi
        rw [hr] at ha
        cases ha
        exact le_refl _
      · have hil := (List.getElem?_eq_some_iff.mp ha).1
        have hb : xs[(i - 1) / 2]? = some xs[(i - 1) / 2] := List.getElem?_eq_getElem (by omega)
        exact le_trans (ih _ (by omega) _ hb) (o i a _ (by omega) ha hb)
  intro a ha
  obtain ⟨i, hi⟩ := List.mem_iff_getElem?.mp ha
  exact hall i a hi

@[simp] theorem Ordered.nil : Ordered key ([] : List α) := by
  intro i a b _ ha
  simp at ha

end BinaryHeap
