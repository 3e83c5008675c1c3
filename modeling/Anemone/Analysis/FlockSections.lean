import Anemone.Interface.FlockGrants

/-!
# The sections of `flock`

What the scan for an owner finds, and what an attempt, an unlock and a retirement do to
compatible grants.
-/

namespace Anemone.Flock

open Checked (ok_bind pure_eq assert_of)
open List

variable {grants rest : List FlockGrant} {owner : ℕ} {mode : FlockMode} {grant : FlockGrant}
  {attempt : LockAttempt} {live : Bool}

/-- **Removing a grant** leaves compatible grants, and its owner without one. -/
theorem Compatible.of_perm (h : Compatible grants) (hperm : (grant :: rest).Perm grants) :
    Compatible rest ∧ Without rest grant.owner := by
  have hnodup : ((grant :: rest).map FlockGrant.owner).Nodup := (hperm.map _).nodup_iff.mpr h.nodup
  rw [map_cons, nodup_cons] at hnodup
  refine ⟨⟨hnodup.2, ?_⟩, ?_⟩
  · intro other hother hmode
    have halone := h.alone other (hperm.subset (mem_cons_of_mem _ hother)) hmode
    have hlen := hperm.length_eq
    rw [halone, length_cons, length_singleton] at hlen
    have hempty : rest = [] := eq_nil_of_length_eq_zero (by omega)
    rw [hempty] at hother
    cases hother
  · intro other hother heq
    exact hnodup.1 (mem_map.mpr ⟨other, hother, heq⟩)

theorem conflicts_eq_false (h : Without grants owner) : conflicts grants owner mode = false ↔
      ∀ grant ∈ grants, grant.mode ≠ .exclusive ∧ mode ≠ .exclusive := by
  rw [conflicts, any_eq_false]
  refine forall_congr' fun grant => forall_congr' fun hgrant => ?_
  have hne : (grant.owner != owner) = true := bne_iff_ne.mpr (h grant hgrant)
  simp [hne, FlockMode.conflictsWith]

/-- **A new grant** that conflicts with nobody's is compatible with all. -/
theorem Compatible.append (h : Compatible grants) (howner : Without grants owner)
    (hfree : conflicts grants owner mode = false) :
    Compatible (grants ++ [⟨owner, mode⟩]) := by
  have hfree := (conflicts_eq_false howner).mp hfree
  constructor
  · rw [map_append, map_singleton]
    refine nodup_append.mpr ⟨h.nodup, pairwise_singleton _ _, ?_⟩
    intro other hother new hnew heq
    obtain ⟨grant, hgrant, rfl⟩ := mem_map.mp hother
    exact howner grant hgrant (heq.trans (mem_singleton.mp hnew))
  · intro grant hgrant hmode
    rcases mem_append.mp hgrant with hold | hnew
    · exact absurd hmode (hfree grant hold).1
    · rw [mem_singleton] at hnew
      subst hnew
      cases grants with
      | nil => rfl
      | cons first rest => exact absurd hmode (hfree first mem_cons_self).2

theorem conflicts_mono {more : List FlockGrant} (hsub : grants ⊆ more)
    (h : conflicts grants owner mode = true) : conflicts more owner mode = true := by
  obtain ⟨grant, hgrant, hconflict⟩ := any_eq_true.mp h
  exact any_eq_true.mpr ⟨grant, hsub hgrant, hconflict⟩

variable (duplicate : String)

theorem findOwner_without (h : Without grants owner) (index : ℕ) (found : Option ℕ) :
    findOwner duplicate owner grants index found = .ok found := by
  induction grants generalizing index with
  | nil => rfl
  | cons grant rest ih =>
    rw [findOwner, if_neg (h grant mem_cons_self)]
    exact ih (fun other hother => h other (mem_cons_of_mem _ hother)) (index + 1)

/-- **The scan** of grants with distinct owners finds the one grant of the owner, or goes
through and finds none. -/
theorem findOwner_spec (h : (grants.map FlockGrant.owner).Nodup) (index : ℕ) :
    (findOwner duplicate owner grants index none = .ok none ∧ Without grants owner) ∨
      ∃ place grant, findOwner duplicate owner grants index none = .ok (some (index + place)) ∧
        grants[place]? = some grant ∧ grant.owner = owner := by
  induction grants generalizing index with
  | nil => exact .inl ⟨rfl, nofun⟩
  | cons grant rest ih =>
    rw [map_cons, nodup_cons] at h
    by_cases howner : grant.owner = owner
    · -- the rest has no grant of this owner, so the assertion is not reached again
      have hrest : Without rest owner := fun other hother heq =>
        h.1 (mem_map.mpr ⟨other, hother, heq.trans howner.symm⟩)
      refine .inr ⟨0, grant, ?_, rfl, howner⟩
      rw [findOwner, if_pos howner, assert_of _ rfl, ok_bind]
      exact findOwner_without duplicate hrest (index + 1) (some index)
    · rw [findOwner, if_neg howner]
      rcases ih h.2 (index + 1) with ⟨heq, hwithout⟩ | ⟨place, found, heq, hplace, hfound⟩
      · refine .inl ⟨heq, fun other hother => ?_⟩
        rcases mem_cons.mp hother with rfl | hother
        · exact howner
        · exact hwithout other hother
      · refine .inr ⟨place + 1, found, ?_, hplace, hfound⟩
        rw [heq, Nat.add_assoc, Nat.add_comm 1 place]

/-- **The scan and the removal** together take the grant of the owner out. -/
theorem removeAt_spec (h : Compatible grants) :
    ∃ found removed rest, findOwner duplicate owner grants 0 none = .ok found ∧
      removeAt grants found = .ok (removed, rest) ∧ Compatible rest ∧ Without rest owner ∧
      rest ⊆ grants ∧ (removed = false → rest = grants) := by
  rcases @findOwner_spec grants owner duplicate h.nodup 0 with
    ⟨heq, hwithout⟩ | ⟨place, grant, heq, hplace, rfl⟩
  · exact ⟨none, false, grants, heq, rfl, h, hwithout, fun _ hgrant => hgrant, fun _ => rfl⟩
  · obtain ⟨rest, _, hswap, hperm, -⟩ := BinaryHeap.swapRemove_spec hplace
    obtain ⟨hcompatible, hwithout⟩ := h.of_perm hperm
    rw [Nat.zero_add] at heq
    refine ⟨some place, true, rest, heq, ?_, hcompatible, hwithout, ?_, nofun⟩
    · rw [removeAt, hswap]
      rfl
    · exact fun other hother => hperm.subset (mem_cons_of_mem _ hother)

/-- What an attempt to lock comes to. -/
inductive Attempted (grants : List FlockGrant) (owner : ℕ) (mode : FlockMode) :
    Bool → LockAttempt → List FlockGrant → Prop where
  | retired : Attempted grants owner mode false .retired grants
  | held (hmem : ⟨owner, mode⟩ ∈ grants) : Attempted grants owner mode true .complete grants
  | granted (hwithout : Without grants owner) (hfree : conflicts grants owner mode = false) :
    Attempted grants owner mode true .complete (grants ++ [⟨owner, mode⟩])
  | converted (grant : FlockGrant) (rest : List FlockGrant) (hperm : (grant :: rest).Perm grants) :
    Attempted grants owner mode true .converted rest
  | waits : Attempted grants owner mode true .wait grants
  | refused : Attempted grants owner mode true .wouldBlock grants

theorem attemptNew_spec (nonblocking : Bool) (hwithout : Without grants owner) :
    Attempted grants owner mode true (attemptNew grants owner mode nonblocking).1
      (attemptNew grants owner mode nonblocking).2 := by
  rw [attemptNew]
  by_cases hconflict : conflicts grants owner mode = true
  · rw [if_pos hconflict]
    cases nonblocking
    · exact .waits
    · exact .refused
  · rw [if_neg hconflict]
    exact .granted hwithout (Bool.eq_false_iff.mpr hconflict)

theorem attemptHeld_spec {index : ℕ} (hgrant : grants[index]? = some grant)
    (howner : grant.owner = owner) :
    ∃ attempt rest, attemptHeld grants index mode = .ok (attempt, rest) ∧
      Attempted grants owner mode true attempt rest := by
  by_cases hmode : grant.mode = mode
  · refine ⟨.complete, grants, ?_, .held ?_⟩
    · rw [attemptHeld, hgrant, Checked.expect_some, ok_bind, if_pos hmode, pure_eq]
    · obtain ⟨grantOwner, grantMode⟩ := grant
      subst howner hmode
      exact mem_of_getElem? hgrant
  · obtain ⟨rest, _, hswap, hperm, -⟩ := BinaryHeap.swapRemove_spec hgrant
    refine ⟨.converted, rest, ?_, .converted grant rest hperm⟩
    rw [attemptHeld, hgrant, Checked.expect_some, ok_bind, if_neg hmode, hswap, ok_bind]
    rfl

theorem attemptLock_spec (h : Compatible grants) (live : Bool) (owner : ℕ) (mode : FlockMode)
    (nonblocking : Bool) :
    ∃ attempt rest, attemptLock grants live owner mode nonblocking = .ok (attempt, rest) ∧
      Attempted grants owner mode live attempt rest := by
  cases live with
  | false => exact ⟨.retired, grants, rfl, .retired⟩
  | true =>
    rw [attemptLock, if_neg (by decide), ownerIndex]
    rcases @findOwner_spec grants owner "flock owner has duplicate inode grants" h.nodup 0 with
      ⟨heq, hwithout⟩ | ⟨place, grant, heq, hplace, howner⟩
    · rw [heq, ok_bind]
      exact ⟨_, _, rfl, attemptNew_spec nonblocking hwithout⟩
    · rw [heq, ok_bind]
      rw [Nat.zero_add]
      exact attemptHeld_spec hplace howner

theorem Attempted.compatible (h : Attempted grants owner mode live attempt rest)
    (hgrants : Compatible grants) :
    Compatible rest := by
  cases h with
  | retired | held _ | waits | refused => exact hgrants
  | granted hwithout hfree => exact hgrants.append hwithout hfree
  | converted grant _ hperm => exact (hgrants.of_perm hperm).1

/-- Only the owner of a live description can have a grant that was not there before. -/
theorem Attempted.granted_by (h : Attempted grants owner mode live attempt rest)
    (hgrant : grant ∈ rest) :
    grant ∈ grants ∨ (grant.owner = owner ∧ live = true) := by
  cases h with
  | retired | held _ | waits | refused => exact .inl hgrant
  | granted _ _ =>
    rcases mem_append.mp hgrant with hold | hnew
    · exact .inl hold
    · rw [mem_singleton] at hnew
      exact .inr ⟨by rw [hnew], rfl⟩
  | converted first _ hperm => exact .inl (hperm.subset (mem_cons_of_mem _ hgrant))

/-- **An unlock** returns, and a live owner then has no grant. -/
theorem unlockLocked_spec (h : Compatible grants) (live : Bool) (owner : ℕ) :
    ∃ removed rest, unlockLocked grants live owner = .ok (removed, rest) ∧ Compatible rest ∧
      rest ⊆ grants ∧ (removed ≠ some true → rest = grants) ∧
      (removed ≠ none → Without rest owner) := by
  cases live with
  | false =>
    exact ⟨none, grants, rfl, h, fun _ hgrant => hgrant, fun _ => rfl, fun hne => absurd rfl hne⟩
  | true =>
    obtain ⟨found, removed, rest, hfound, hremove, hcompatible, hwithout, hsub, hsame⟩ :=
      @removeAt_spec grants owner "flock owner has duplicate inode grants" h
    refine ⟨some removed, rest, ?_, hcompatible, hsub, fun hne => hsame ?_, fun _ => hwithout⟩
    · rw [unlockLocked, if_neg (by decide), ownerIndex, hfound, ok_bind, hremove, ok_bind]
      rfl
    · cases removed
      · rfl
      · exact absurd rfl hne

/-- **A retirement** returns, and its owner then has no grant. -/
theorem retireLocked_spec (h : Compatible grants) (owner : ℕ) :
    ∃ rest, retireLocked grants owner = .ok rest ∧ Compatible rest ∧ rest ⊆ grants ∧
      Without rest owner := by
  obtain ⟨found, removed, rest, hfound, hremove, hcompatible, hwithout, hsub, -⟩ :=
    @removeAt_spec grants owner "retiring flock owner has duplicate grants" h
  refine ⟨rest, ?_, hcompatible, hsub, hwithout⟩
  rw [retireLocked, hfound, ok_bind, hremove, ok_bind]
  rfl

end Anemone.Flock
