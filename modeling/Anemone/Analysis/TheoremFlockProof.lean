import Anemone.Analysis.FlockSections

/-!
# The grants of `flock` along every run

A section that has read that its description is live may go on after the last reference has gone.
Then the thread that released it still has its retirement to come, and removes what the section
grants (`Present`).  A request that sleeps has a live owner and a conflict, or some thread owes a
publication.
-/

namespace Anemone.Flock

open Function (update_self update_of_ne update)

open Checked (ok_bind assert_of bind_eq_ok)
open OpenedDescription

namespace Stage

def InSection : Stage → Prop
  | .inside _ _ _ | .testing _ _ _ => True
  | _ => False

def loaded : Stage → Option ℕ
  | .inside owner _ true | .testing owner _ true => some owner
  | _ => none

/-- The owner that is retired from this place on. -/
def ends : Stage → Option ℕ
  | .retiring owner | .withdrawn owner | .released owner => some owner
  | _ => none

theorem inSection_of_loaded {stage : Stage} {owner : ℕ} (h : stage.loaded = some owner) :
    stage.InSection := by
  match stage, h with
  | .inside _ _ true, _ | .testing _ _ true, _ => trivial

end Stage

namespace System

variable {s t : System} {thread owner : ℕ} {stage : Stage} {mode : FlockMode} {live : Bool}
  {grants : List FlockGrant} {op : Op}

/-- The owner is live or about to be retired. -/
def Present (s : System) (owner : ℕ) : Prop :=
  s.live owner = true ∨ ∃ retiring, s.threads retiring = .retiring owner

def Indebted (s : System) : Prop := ∃ publisher, (s.threads publisher).Owes

def Asleep (s : System) : Prop :=
  ∀ thread owner mode, s.threads thread = .listening owner mode false →
    (s.live owner = true ∧ conflicts s.grants owner mode = true) ∨ s.Indebted

structure Consistent (s : System) : Prop where
  compatible : Compatible s.grants
  words : ∀ owner, s.refs owner ≤ retiredDescriptionRefs
  guarded : ∀ thread, s.guard = some thread ↔ (s.threads thread).InSection
  loaded : ∀ thread owner, (s.threads thread).loaded = some owner → s.Present owner
  granted : ∀ grant ∈ s.grants, s.Present grant.owner
  ended : ∀ thread owner, (s.threads thread).ends = some owner →
    s.refs owner = retiredDescriptionRefs
  unique : ∀ one other owner, (s.threads one).ends = some owner →
    (s.threads other).ends = some owner → one = other
  asleep : s.Asleep

theorem live_iff : s.live owner = true ↔ s.refs owner ≠ 0 ∧ s.refs owner < retiredDescriptionRefs := by
  rw [live, descriptionIsLive, decide_eq_true_iff, Nat.one_le_iff_ne_zero]

theorem not_live_of_retired (h : s.refs owner = retiredDescriptionRefs) :
    s.live owner = false := by
  rw [Bool.eq_false_iff, Ne, live_iff, h]
  exact fun hlt => Nat.lt_irrefl _ hlt.2

/-- **Presence is kept** by a thread that is not about to retire. -/
theorem Present.move (h : s.Present owner) (hthreads : t.threads = update s.threads thread stage)
    (hlive : ∀ owner, s.live owner = true → t.live owner = true)
    (hold : ∀ owner, s.threads thread ≠ .retiring owner) : t.Present owner := by
  rcases h with h | ⟨retiring, h⟩
  · exact .inl (hlive owner h)
  · refine .inr ⟨retiring, ?_⟩
    have hne : retiring ≠ thread := fun heq => hold owner (heq ▸ h)
    rw [hthreads, update_of_ne hne, h]

theorem indebted_of_owes (hthreads : t.threads = update s.threads thread stage)
    (h : stage.Owes) : t.Indebted :=
  ⟨thread, by rw [hthreads, update_self]; exact h⟩

/-- **Sleep is kept** where live owners stay live, grants stay and debts stay. -/
theorem Asleep.move (h : s.Asleep) (hthreads : t.threads = update s.threads thread stage)
    (hlive : ∀ owner, s.live owner = true → t.live owner = true)
    (hgrants : s.grants ⊆ t.grants) (hold : ¬(s.threads thread).Owes)
    (hnew : ∀ owner mode, stage = .listening owner mode false →
      (t.live owner = true ∧ conflicts t.grants owner mode = true) ∨ t.Indebted) : t.Asleep := by
  intro other owner mode hother
  by_cases heq : other = thread
  · subst heq
    rw [hthreads, update_self] at hother
    exact hnew owner mode hother
  · rw [hthreads, update_of_ne heq] at hother
    rcases h other owner mode hother with ⟨hl, hc⟩ | ⟨publisher, howes⟩
    · exact .inl ⟨hlive owner hl, conflicts_mono hgrants hc⟩
    · have hne : publisher ≠ thread := fun heq => hold (heq ▸ howes)
      exact .inr ⟨publisher, by rwa [hthreads, update_of_ne hne]⟩

/-- **One thread moves.**  The invariant is kept if the grants stay compatible, the guard
follows the place, what was read live is present, and only an owner without a grant stops being
present, when nobody has the lock. -/
theorem Consistent.move (h : s.Consistent) (hthreads : t.threads = update s.threads thread stage)
    (hcompatible : Compatible t.grants) (hwords : ∀ owner, t.refs owner ≤ retiredDescriptionRefs)
    (hguard : t.guard = some thread ↔ stage.InSection)
    (hothers : ∀ other, other ≠ thread → (t.guard = some other ↔ s.guard = some other))
    (hloaded : ∀ owner, stage.loaded = some owner → t.Present owner)
    (hpresent : ∀ owner, s.Present owner →
      t.Present owner ∨ (s.guard = none ∧ Without t.grants owner))
    (hgranted : ∀ grant ∈ t.grants, grant ∈ s.grants ∨ t.Present grant.owner)
    (hretired : ∀ owner, s.refs owner = retiredDescriptionRefs →
      t.refs owner = retiredDescriptionRefs)
    (hends : ∀ owner, stage.ends = some owner → t.refs owner = retiredDescriptionRefs ∧
      ((s.threads thread).ends = some owner ∨ s.refs owner ≠ retiredDescriptionRefs))
    (hasleep : t.Asleep) : t.Consistent := by
  have hself : t.threads thread = stage := by rw [hthreads, update_self]
  have hother : ∀ other, other ≠ thread → t.threads other = s.threads other := fun other hne => by
    rw [hthreads, update_of_ne hne]
  have hapart : ∀ other owner, other ≠ thread → (s.threads other).ends = some owner →
      stage.ends = some owner → False := by
    intro other owner hne hold hnew
    rcases (hends owner hnew).2 with hsame | hlive
    · exact hne (h.unique other thread owner hold hsame)
    · exact hlive (h.ended other owner hold)
  refine ⟨hcompatible, hwords, fun other => ?_, fun other owner hload => ?_, fun grant hgrant => ?_,
    fun other owner hend => ?_, fun one other owner hone hend => ?_, hasleep⟩
  · by_cases heq : other = thread
    · rw [heq, hself]
      exact hguard
    · rw [hother other heq, hothers other heq]
      exact h.guarded other
  · by_cases heq : other = thread
    · rw [heq, hself] at hload
      exact hloaded owner hload
    · rw [hother other heq] at hload
      rcases hpresent owner (h.loaded other owner hload) with hkept | ⟨hfree, -⟩
      · exact hkept
      · have hheld := (h.guarded other).mpr (Stage.inSection_of_loaded hload)
        rw [hfree] at hheld
        cases hheld
  · rcases hgranted grant hgrant with hold | hnew
    · rcases hpresent grant.owner (h.granted grant hold) with hkept | ⟨-, hwithout⟩
      · exact hkept
      · exact absurd rfl (hwithout grant hgrant)
    · exact hnew
  · by_cases heq : other = thread
    · rw [heq, hself] at hend
      exact (hends owner hend).1
    · rw [hother other heq] at hend
      exact hretired owner (h.ended other owner hend)
  · by_cases hone' : one = thread <;> by_cases hother' : other = thread
    · rw [hone', hother']
    · rw [hone', hself] at hone
      rw [hother other hother'] at hend
      exact (hapart other owner hother' hend hone).elim
    · rw [hother', hself] at hend
      rw [hother one hone'] at hone
      exact (hapart one owner hone' hone hend).elim
    · rw [hother one hone'] at hone
      rw [hother other hother'] at hend
      exact h.unique one other owner hone hend

/-- **A thread that owes nothing moves**, and at most the lock changes hands. -/
theorem Consistent.regard (h : s.Consistent) {guard : Option ℕ}
    (howes : ¬(s.threads thread).Owes) (hguard : guard = some thread ↔ stage.InSection)
    (hothers : ∀ other, other ≠ thread → (guard = some other ↔ s.guard = some other))
    (hloaded : ∀ owner, stage.loaded = some owner →
      ({ s with guard := guard }.goTo thread stage).Present owner) (hends : stage.ends = none)
    (hawake : ∀ owner mode, stage ≠ .listening owner mode false) :
    ({ s with guard := guard }.goTo thread stage).Consistent := by
  have hretiring : ∀ owner, s.threads thread ≠ .retiring owner := fun owner heq =>
    howes (heq ▸ trivial)
  exact h.move rfl h.compatible h.words hguard hothers hloaded
    (fun owner hpresent => .inl (hpresent.move rfl (fun _ hlive => hlive) hretiring))
    (fun grant hgrant => .inl hgrant) (fun _ hretired => hretired)
    (fun owner hend => by rw [hends] at hend; cases hend)
    (h.asleep.move rfl (fun _ hlive => hlive) (fun _ hgrant => hgrant) howes
      (fun owner mode heq => absurd heq (hawake owner mode)))

/-- **A thread without duties moves**: neither its old nor its new place has the lock,
retires an owner or owes a publication, and nothing else changes. -/
theorem Consistent.goTo (h : s.Consistent) (hold : ¬(s.threads thread).InSection)
    (howes : ¬(s.threads thread).Owes) (hplace : ¬stage.InSection) (hends : stage.ends = none)
    (hawake : ∀ owner mode, stage ≠ .listening owner mode false) :
    (s.goTo thread stage).Consistent := by
  have hfree : s.guard ≠ some thread := fun hguard => hold ((h.guarded thread).mp hguard)
  exact h.regard howes ⟨fun hguard => absurd hguard hfree, fun hin => absurd hin hplace⟩
    (fun _ _ => Iff.rfl) (fun owner hload => absurd (Stage.inSection_of_loaded hload) hplace)
    hends hawake

theorem notified_inSection : (Stage.notified stage).InSection ↔ stage.InSection := by
  cases stage <;> rfl

theorem notified_loaded : (Stage.notified stage).loaded = stage.loaded := by
  cases stage <;> rfl

theorem notified_ends : (Stage.notified stage).ends = stage.ends := by
  cases stage <;> rfl

theorem notified_eq_retiring : Stage.notified stage = .retiring owner ↔ stage = .retiring owner := by
  cases stage <;> simp [Stage.notified]

theorem publish_present : s.publish.Present owner ↔ s.Present owner := by
  simp only [Present, publish, notified_eq_retiring]
  rfl

/-- **After a publication** nobody sleeps. -/
theorem publish_awake (thread owner : ℕ) (mode : FlockMode) :
    s.publish.threads thread ≠ .listening owner mode false := by
  show Stage.notified (s.threads thread) ≠ _
  cases s.threads thread <;> simp [Stage.notified]

theorem Consistent.publish (h : s.Consistent) : s.publish.Consistent where
  compatible := h.compatible
  words := h.words
  guarded := fun thread => (h.guarded thread).trans notified_inSection.symm
  loaded := fun thread owner hload =>
    publish_present.mpr (h.loaded thread owner (notified_loaded.symm.trans hload))
  granted := fun grant hgrant => publish_present.mpr (h.granted grant hgrant)
  ended := fun thread owner hend => h.ended thread owner (notified_ends.symm.trans hend)
  unique := fun one other owner hone hother => h.unique one other owner
    (notified_ends.symm.trans hone) (notified_ends.symm.trans hother)
  asleep := fun thread owner mode heq => absurd heq (publish_awake thread owner mode)

/-- **A publication is paid**: the thread goes on to a place where it does not sleep,
and if it was retiring an owner it is done. -/
theorem Consistent.publishAndGo (h : s.Consistent) (hold : ¬(s.threads thread).InSection)
    (hretiring : ∀ owner, s.threads thread ≠ .retiring owner) (hplace : ¬stage.InSection)
    (hends : ∀ owner, stage.ends = some owner → (s.threads thread).ends = some owner)
    (hawake : ∀ owner mode, stage ≠ .listening owner mode false) :
    (s.publish.goTo thread stage).Consistent := by
  have hfree : s.guard ≠ some thread := fun hguard => hold ((h.guarded thread).mp hguard)
  refine h.publish.move rfl h.compatible h.words
    ⟨fun hguard => absurd hguard hfree, fun hin => absurd hin hplace⟩
    (fun _ _ => Iff.rfl) (fun owner hload => absurd (Stage.inSection_of_loaded hload) hplace)
    (fun owner hpresent => .inl (hpresent.move rfl (fun _ hlive => hlive)
      (fun owner heq => hretiring owner (notified_eq_retiring.mp heq))))
    (fun grant hgrant => .inl hgrant) (fun _ hretired => hretired)
    (fun owner hend => ⟨h.ended thread owner (hends owner hend),
      .inl (notified_ends.trans (hends owner hend))⟩) ?_
  intro other owner mode hother
  by_cases heq : other = thread
  · subst heq
    exact absurd ((update_self ..).symm.trans hother) (hawake owner mode)
  · exact absurd ((update_of_ne heq ..).symm.trans hother) (publish_awake other owner mode)

/-- **A section begins**: its thread has the lock, and what it reads live is live. -/
theorem Consistent.lock (h : s.Consistent) (hguard : s.guard = none)
    (howes : ¬(s.threads thread).Owes) (hplace : stage.InSection) (hends : stage.ends = none)
    (hloaded : ∀ owner, stage.loaded = some owner → s.live owner = true)
    (hawake : ∀ owner mode, stage ≠ .listening owner mode false) :
    ({ s with guard := some thread }.goTo thread stage).Consistent := by
  refine h.regard howes ⟨fun _ => hplace, fun _ => rfl⟩ (fun other hne => ?_)
    (fun owner hload => .inl (hloaded owner hload)) hends hawake
  rw [hguard]
  exact ⟨fun heq => absurd (Option.some.inj heq).symm hne, nofun⟩

/-- **A section ends**: its thread gives the lock back.  New grants have a present owner,
and if a grant was removed the thread owes a publication. -/
theorem Consistent.unlock (h : s.Consistent) (hold : (s.threads thread).InSection)
    (hcompatible : Compatible grants) (hplace : ¬stage.InSection) (hends : stage.ends = none)
    (hgranted : ∀ grant ∈ grants, grant ∈ s.grants ∨ s.Present grant.owner)
    (hasleep : stage.Owes ∨ s.grants ⊆ grants)
    (hsleeps : ∀ owner mode, stage = .listening owner mode false →
      s.Present owner ∧ conflicts s.grants owner mode = true) :
    ({ s with grants, guard := none }.goTo thread stage).Consistent := by
  have hretiring : ∀ owner, s.threads thread ≠ .retiring owner := fun owner heq => by
    rw [heq] at hold
    exact hold
  have howes : ¬(s.threads thread).Owes := by
    cases hstage : s.threads thread <;> rw [hstage] at hold <;> first | exact hold.elim | exact id
  have hguard := (h.guarded thread).mpr hold
  have hkept : ∀ owner, s.Present owner →
      ({ s with grants, guard := none }.goTo thread stage).Present owner :=
    fun owner hpresent => hpresent.move rfl (fun _ hlive => hlive) hretiring
  refine h.move rfl hcompatible h.words ⟨nofun, fun hin => absurd hin hplace⟩ (fun other hne => ?_)
    (fun owner hload => absurd (Stage.inSection_of_loaded hload) hplace)
    (fun owner hpresent => .inl (hkept owner hpresent))
    (fun grant hgrant => (hgranted grant hgrant).imp id (hkept grant.owner))
    (fun _ hretired => hretired) (fun owner hend => by rw [hends] at hend; cases hend) ?_
  · rw [hguard]
    exact ⟨nofun, fun heq => absurd (Option.some.inj heq).symm hne⟩
  · rcases hasleep with hpays | hsub
    · exact fun _ _ _ _ => .inr (indebted_of_owes rfl hpays)
    · refine h.asleep.move rfl (fun _ hlive => hlive) hsub howes (fun owner mode heq => ?_)
      obtain ⟨hpresent, hconflict⟩ := hsleeps owner mode heq
      rcases hkept owner hpresent with hlive | ⟨retiring, hretires⟩
      · exact .inl ⟨hlive, conflicts_mono hsub hconflict⟩
      · exact .inr ⟨retiring, by rw [hretires]; trivial⟩

theorem Consistent.finishLock (h : s.Consistent) {nonblocking : Bool}
    (hstage : s.threads thread = .inside owner (.lock mode nonblocking) live) :
    ∃ t, s.finishSection thread owner (.lock mode nonblocking) live = .ok t ∧ t.Consistent ∧
      (t.threads thread = .returned .complete → ⟨owner, mode⟩ ∈ t.grants) := by
  obtain ⟨attempt, rest, hrun, hattempt⟩ :=
    attemptLock_spec h.compatible live owner mode nonblocking
  have hin : (s.threads thread).InSection := by rw [hstage]; trivial
  have hpresent : live = true → s.Present owner := fun hlive =>
    h.loaded thread owner (by rw [hstage, hlive]; rfl)
  refine ⟨{ s with grants := rest, guard := none }.goTo thread
    (attemptStage owner mode nonblocking attempt), ?_, ?_, ?_⟩
  · rw [finishSection, hrun, ok_bind]
    rfl
  · refine h.unlock hin (hattempt.compatible h.compatible) ?_ ?_ ?_ ?_ ?_
    · cases attempt <;> exact id
    · cases attempt <;> rfl
    · intro grant hgrant
      rcases hattempt.granted_by hgrant with hold | ⟨rfl, hlive⟩
      · exact .inl hold
      · exact .inr (hpresent hlive)
    · cases hattempt with
      | retired | held _ | waits | refused => exact .inr fun _ hgrant => hgrant
      | granted _ _ => exact .inr (List.subset_append_left _ _)
      | converted _ _ _ => exact .inl trivial
    · intro _ _ heq
      cases attempt <;> cases heq
  · intro hcomplete
    have heq : attemptStage owner mode nonblocking attempt = .returned .complete :=
      (update_self ..).symm.trans hcomplete
    cases hattempt with
    | held hmem => exact hmem
    | granted _ _ => exact List.mem_append_right _ (List.mem_singleton_self _)
    | retired | waits | refused | converted _ _ _ => cases heq

theorem Consistent.finishUnlock (h : s.Consistent)
    (hstage : s.threads thread = .inside owner .unlock live) :
    ∃ t, s.finishSection thread owner .unlock live = .ok t ∧ t.Consistent ∧
      (t.threads thread ≠ .returned .retired → Without t.grants owner) := by
  obtain ⟨removed, rest, hrun, hcompatible, hsub, hsame, hwithout⟩ :=
    unlockLocked_spec h.compatible live owner
  have hin : (s.threads thread).InSection := by rw [hstage]; trivial
  refine ⟨{ s with grants := rest, guard := none }.goTo thread (unlockStage removed), ?_, ?_, ?_⟩
  · rw [finishSection, hrun, ok_bind]
    rfl
  · refine h.unlock hin hcompatible ?_ ?_ (fun grant hgrant => .inl (hsub hgrant)) ?_ ?_
    · rcases removed with _ | _ | _ <;> exact id
    · rcases removed with _ | _ | _ <;> rfl
    · rcases removed with _ | _ | _
      · exact .inr (hsame nofun ▸ fun _ hgrant => hgrant)
      · exact .inr (hsame nofun ▸ fun _ hgrant => hgrant)
      · exact .inl trivial
    · intro _ _ heq
      rcases removed with _ | _ | _ <;> cases heq
  · intro hreturned
    refine hwithout fun hnone => hreturned ?_
    rw [hnone]
    exact update_self ..

theorem Consistent.finishTest (h : s.Consistent)
    (hstage : s.threads thread = .testing owner mode live) :
    ({ s with guard := none }.goTo thread
      (if live = false ∨ conflicts s.grants owner mode = false then .ready owner (.lock mode false)
        else .listening owner mode false)).Consistent := by
  have hin : (s.threads thread).InSection := by rw [hstage]; trivial
  by_cases hready : live = false ∨ conflicts s.grants owner mode = false
  · rw [if_pos hready]
    exact h.unlock hin h.compatible id rfl (fun _ hgrant => .inl hgrant)
      (.inr fun _ hgrant => hgrant) nofun
  · rw [if_neg hready]
    rw [not_or, Bool.not_eq_false, Bool.not_eq_false] at hready
    refine h.unlock hin h.compatible id rfl (fun _ hgrant => .inl hgrant)
      (.inr fun _ hgrant => hgrant) ?_
    intro owner' mode' heq
    cases heq
    exact ⟨h.loaded thread owner (by rw [hstage, hready.1]; rfl), hready.2⟩

theorem live_update {refs : ℕ} (hne : refs ≠ 0) (hlt : refs < retiredDescriptionRefs)
    (h : s.live thread = true) :
    ({ s with refs := update s.refs owner refs } : System).live thread = true := by
  by_cases heq : thread = owner
  · rw [live_iff, heq]
    have hself : update s.refs owner refs owner = refs := update_self ..
    exact ⟨fun hzero => hne (hself.symm.trans hzero), Nat.lt_of_le_of_lt (Nat.le_of_eq hself) hlt⟩
  · have hsame : update s.refs owner refs thread = s.refs thread := update_of_ne heq ..
    exact (congrArg descriptionIsLive hsame).trans h

theorem words_update {refs : ℕ} (h : ∀ owner, s.refs owner ≤ retiredDescriptionRefs)
    (hle : refs ≤ retiredDescriptionRefs) (other : ℕ) :
    update s.refs owner refs other ≤ retiredDescriptionRefs := by
  by_cases heq : other = owner
  · rw [heq, update_self]
    exact hle
  · rw [update_of_ne heq]
    exact h other

/-- **References that leave a live owner live** change nothing else. -/
theorem Consistent.count (h : s.Consistent) {refs : ℕ} (hne : refs ≠ 0)
    (hlt : refs < retiredDescriptionRefs) (hold : s.refs owner ≠ retiredDescriptionRefs) :
    ({ s with refs := update s.refs owner refs } : System).Consistent := by
  have hpresent : ∀ other, s.Present other →
      ({ s with refs := update s.refs owner refs } : System).Present other :=
    fun other hother => hother.imp (live_update hne hlt) id
  refine ⟨h.compatible, words_update h.words (Nat.le_of_lt hlt), h.guarded,
    fun thread other hload => ?_, fun grant hgrant => ?_, fun thread other hend => ?_, h.unique,
      fun thread other mode hsleeps => ?_⟩
  · exact hpresent other (h.loaded thread other hload)
  · exact hpresent grant.owner (h.granted grant hgrant)
  · have hended := h.ended thread other hend
    have hother : other ≠ owner := fun heq => hold (heq ▸ hended)
    exact (update_of_ne hother ..).trans hended
  · exact (h.asleep thread other mode hsleeps).imp
      (fun hwaits => ⟨live_update hne hlt hwaits.1, hwaits.2⟩) id

/-- **The last reference goes**, and the thread that released it is about to retire the
owner. -/
theorem Consistent.lastReference (h : s.Consistent) (hstage : s.threads thread = .idle)
    (hrefs : s.refs owner = 1) :
    ({ s with refs := update s.refs owner retiredDescriptionRefs }.goTo thread
      (.retiring owner)).Consistent := by
  have hne : s.refs owner ≠ retiredDescriptionRefs := by rw [hrefs]; decide
  have hfree : s.guard ≠ some thread := fun hguard => by
    have hin := (h.guarded thread).mp hguard
    rw [hstage] at hin
    exact hin
  refine h.move rfl h.compatible (words_update h.words (Nat.le_refl _))
    ⟨fun hguard => absurd hguard hfree, False.elim⟩
    (fun _ _ => Iff.rfl) nofun (fun other hpresent => .inl ?_) (fun grant hgrant => .inl hgrant)
    (fun other hretired => ?_) (fun other hend => ?_)
    (fun _ _ _ _ => .inr (indebted_of_owes rfl trivial))
  · by_cases heq : other = owner
    · exact .inr ⟨thread, heq ▸ update_self ..⟩
    · refine hpresent.imp (fun hlive => ?_) (fun ⟨retiring, hretires⟩ => ⟨retiring, ?_⟩)
      · have hsame : update s.refs owner retiredDescriptionRefs other = s.refs other :=
          update_of_ne heq ..
        exact (congrArg descriptionIsLive hsame).trans hlive
      · have hother : retiring ≠ thread := fun heq => by
          rw [heq, hstage] at hretires
          cases hretires
        exact (update_of_ne hother ..).trans hretires
  · have hother : other ≠ owner := fun heq => hne (heq ▸ hretired)
    exact (update_of_ne hother ..).trans hretired
  · cases hend
    exact ⟨update_self .., .inr hne⟩

/-- **A retirement** removes the grant of its owner while nobody has the lock. -/
theorem Consistent.retire (h : s.Consistent) (hstage : s.threads thread = .retiring owner)
    (hguard : s.guard = none) (hcompatible : Compatible grants) (hsub : grants ⊆ s.grants)
    (hwithout : Without grants owner) :
    ({ s with grants }.goTo thread (.withdrawn owner)).Consistent := by
  have hends : (s.threads thread).ends = some owner := by rw [hstage]; rfl
  refine h.move rfl hcompatible h.words ⟨fun heq => ?_, False.elim⟩ (fun _ _ => Iff.rfl) nofun
    (fun other hpresent => ?_) (fun grant hgrant => .inl (hsub hgrant)) (fun _ hretired => hretired)
    (fun other hend => ?_) (fun _ _ _ _ => .inr (indebted_of_owes rfl trivial))
  · exact absurd (hguard.symm.trans heq) nofun
  · by_cases heq : other = owner
    · exact .inr ⟨hguard, heq ▸ hwithout⟩
    · refine .inl (hpresent.imp id fun ⟨retiring, hretires⟩ => ⟨retiring, ?_⟩)
      have hother : retiring ≠ thread := fun hsame => by
        rw [hsame, hstage] at hretires
        cases hretires
        exact heq rfl
      exact (update_of_ne hother ..).trans hretires
  · cases hend
    exact ⟨h.ended thread owner hends, .inl hends⟩

theorem Consistent.step (h : s.Consistent) (hop : s.Enabled op) :
    ∃ t, s.run op = .ok t ∧ t.Consistent := by
  match op, hop with
  | .request thread owner operation upgraded, hstage =>
    refine ⟨_, rfl, h.goTo ?_ ?_ ?_ ?_ ?_⟩
    · rw [hstage]; exact id
    · rw [hstage]; exact id
    · split <;> exact id
    · split <;> rfl
    · intro _ _
      split <;> nofun
  | .enter thread owner operation, ⟨hstage, hguard⟩ =>
    refine ⟨_, rfl, h.lock hguard (by rw [hstage]; exact id) trivial rfl ?_ nofun⟩
    intro other hload
    cases hlive : s.live owner <;> rw [hlive] at hload <;> cases hload
    exact hlive
  | .finish thread owner (.lock mode nonblocking) live, hstage =>
    obtain ⟨t, hrun, ht, -⟩ := h.finishLock hstage
    exact ⟨t, hrun, ht⟩
  | .finish thread owner .unlock live, hstage =>
    obtain ⟨t, hrun, ht, -⟩ := h.finishUnlock hstage
    exact ⟨t, hrun, ht⟩
  | .publishConverted thread owner mode nonblocking, hstage =>
    have hstage : s.threads thread = .converted owner mode nonblocking := hstage
    exact ⟨_, rfl, h.publishAndGo (by rw [hstage]; exact id) (by rw [hstage]; nofun) id nofun nofun⟩
  | .publishUnlocked thread, hstage =>
    have hstage : s.threads thread = .unlocked := hstage
    exact ⟨_, rfl, h.publishAndGo (by rw [hstage]; exact id) (by rw [hstage]; nofun) id nofun nofun⟩
  | .enterTest thread owner mode, ⟨hstage, hguard⟩ =>
    refine ⟨_, rfl, h.lock hguard (by rw [hstage]; exact id) trivial rfl ?_ nofun⟩
    intro other hload
    cases hlive : s.live owner <;> rw [hlive] at hload <;> cases hload
    exact hlive
  | .finishTest thread owner mode live, hstage => exact ⟨_, rfl, h.finishTest hstage⟩
  | .interrupt thread owner mode pending, hstage =>
    have hstage : s.threads thread = .listening owner mode pending := hstage
    exact ⟨_, rfl, h.goTo (by rw [hstage]; exact id) (by rw [hstage]; exact id) id rfl nofun⟩
  | .acquireRef owner, hlt =>
    have hlt : s.refs owner < retiredDescriptionRefs - 1 := hlt
    have hne : s.refs owner ≠ retiredDescriptionRefs := by omega
    refine ⟨{ s with refs := update s.refs owner (s.refs owner + 1) }, ?_,
      h.count (Nat.succ_ne_zero _) (by omega) hne⟩
    rw [run, acquireDescriptionRef, assert_of _ hne, ok_bind, assert_of _ hlt]
    rfl
  | .releaseRef thread owner, ⟨hstage, hne0, hne⟩ =>
    have hrelease : releaseDescriptionRef (s.refs owner) = .ok
        (if s.refs owner = 1 then retiredDescriptionRefs else s.refs owner - 1,
          s.refs owner == 1) := by
      rw [releaseDescriptionRef, assert_of _ ⟨hne0, hne⟩]
      rfl
    rw [run, hrelease, ok_bind]
    by_cases hone : s.refs owner = 1
    · rw [if_pos hone, hone]
      exact ⟨_, rfl, h.lastReference hstage hone⟩
    · rw [if_neg hone, beq_eq_false_iff_ne.mpr hone]
      have hle := h.words owner
      have hcount := @Consistent.count s owner h (s.refs owner - 1) (by omega) (by omega) hne
      refine ⟨_, rfl, hcount.goTo ?_ ?_ id rfl nofun⟩
      all_goals
        rw [hstage]
        exact id
  | .retire thread owner, ⟨hstage, hguard⟩ =>
    obtain ⟨rest, hrun, hcompatible, hsub, hwithout⟩ := retireLocked_spec h.compatible owner
    refine ⟨_, ?_, h.retire hstage hguard hcompatible hsub hwithout⟩
    rw [run, hrun]
    rfl
  | .publishRetired thread owner, hstage =>
    have hstage : s.threads thread = .withdrawn owner := hstage
    refine ⟨_, rfl, h.publishAndGo (by rw [hstage]; exact id) (by rw [hstage]; nofun) id ?_ nofun⟩
    intro other hend
    rw [hstage]
    exact hend

/-- **A debt can be paid**: a thread that owes a publication can go on, unless it has a
retirement before it and another thread has the lock, which then can. -/
theorem Consistent.canGoOn (h : s.Consistent) (howes : (s.threads thread).Owes) :
    s.CanGoOn thread := by
  match hstage : s.threads thread, howes with
  | .converted owner mode nonblocking, _ =>
    exact ⟨.publishConverted thread owner mode nonblocking, hstage, .inl rfl⟩
  | .unlocked, _ => exact ⟨.publishUnlocked thread, hstage, .inl rfl⟩
  | .withdrawn owner, _ => exact ⟨.publishRetired thread owner, hstage, .inl rfl⟩
  | .retiring owner, _ =>
    match hguard : s.guard with
    | none => exact ⟨.retire thread owner, ⟨hstage, hguard⟩, .inl rfl⟩
    | some holder =>
      have hin := (h.guarded holder).mp hguard
      match hholder : s.threads holder, hin with
      | .inside other operation live, _ =>
        exact ⟨.finish holder other operation live, hholder, .inr ⟨hguard.symm, by simp [hguard]⟩⟩
      | .testing other mode live, _ =>
        exact ⟨.finishTest holder other mode live, hholder, .inr ⟨hguard.symm, by simp [hguard]⟩⟩

/-- **A retired owner has no grant** once its retirement has returned: nobody else is
about to retire it, so it is not present. -/
theorem Consistent.without_of_released (h : s.Consistent)
    (hstage : s.threads thread = .released owner) : Without s.grants owner := by
  have hends : (s.threads thread).ends = some owner := by rw [hstage]; rfl
  intro grant hgrant heq
  rcases h.granted grant hgrant with hlive | ⟨retiring, hretires⟩
  · rw [heq, not_live_of_retired (h.ended thread owner hends)] at hlive
    cases hlive
  · have hsame : retiring = thread :=
      h.unique retiring thread owner (by rw [hretires, heq]; rfl) hends
    rw [hsame, hstage] at hretires
    cases hretires

theorem Consistent.sound (h : s.Consistent) : s.Sound where
  compatible := h.compatible
  returns := fun op hop => by
    obtain ⟨t, hrun, -⟩ := h.step hop
    exact ⟨t, hrun⟩
  locked := fun thread owner mode nonblocking live t hstep => by
    obtain ⟨t', hrun, -, hlocked⟩ := h.finishLock hstep.1
    have heq : t = t' := Except.ok.inj (hstep.2.symm.trans hrun)
    rw [heq]
    exact hlocked
  unlocked := fun thread owner live t hstep => by
    obtain ⟨t', hrun, -, hunlocked⟩ := h.finishUnlock hstep.1
    have heq : t = t' := Except.ok.inj (hstep.2.symm.trans hrun)
    rw [heq]
    exact hunlocked
  retired := fun _ _ hstage => h.without_of_released hstage
  blocked := fun thread owner mode hstage hready => by
    rcases h.asleep thread owner mode hstage with ⟨hlive, hconflict⟩ | ⟨publisher, howes⟩
    · rw [hlive, hconflict] at hready
      exact hready.elim nofun nofun
    · exact ⟨publisher, howes, h.canGoOn howes⟩

theorem Start.consistent (h : s.Start) : s.Consistent := by
  obtain ⟨hgrants, hguard, hidle, hrefs⟩ := h
  constructor
  · rw [hgrants]
    exact ⟨List.nodup_nil, nofun⟩
  · intro owner
    rw [hrefs]
    exact Nat.zero_le _
  · intro thread
    rw [hguard, hidle]
    exact ⟨nofun, False.elim⟩
  · intro thread owner hload
    rw [hidle] at hload
    cases hload
  · intro grant hgrant
    rw [hgrants] at hgrant
    cases hgrant
  · intro thread owner hend
    rw [hidle] at hend
    cases hend
  · intro one other owner hend
    rw [hidle] at hend
    cases hend
  · intro thread owner mode hsleeps
    rw [hidle] at hsleeps
    cases hsleeps

/-- **Only the thread of a step moves**, apart from being notified. -/
theorem Step.threads_of_ne (h : Step s op t) (hne : op.thread ≠ some thread) :
    t.threads thread = s.threads thread ∨
      t.threads thread = Stage.notified (s.threads thread) := by
  obtain ⟨-, hrun⟩ := h
  have hother : ∀ mover, op.thread = some mover → thread ≠ mover :=
    fun mover hmover heq => hne (heq ▸ hmover)
  cases op with
  | request mover | enter mover | enterTest mover | finishTest mover | interrupt mover =>
    cases hrun
    exact .inl (update_of_ne (hother mover rfl) ..)
  | publishConverted mover | publishUnlocked mover | publishRetired mover =>
    cases hrun
    exact .inr (update_of_ne (hother mover rfl) ..)
  | finish mover _ operation _ =>
    rcases operation with ⟨mode, nonblocking⟩ | _ <;>
    · obtain ⟨_, -, hrun⟩ := bind_eq_ok.mp hrun
      cases hrun
      exact .inl (update_of_ne (hother mover rfl) ..)
  | acquireRef _ =>
    obtain ⟨_, -, hrun⟩ := bind_eq_ok.mp hrun
    cases hrun
    exact .inl rfl
  | releaseRef mover _ | retire mover _ =>
    obtain ⟨_, -, hrun⟩ := bind_eq_ok.mp hrun
    cases hrun
    exact .inl (update_of_ne (hother mover rfl) ..)

/-- **A retirement that has returned** is not undone. -/
theorem Step.released (h : Step s op t) (hstage : s.threads thread = .released owner) :
    t.threads thread = .released owner := by
  have hne : op.thread ≠ some thread := by
    intro heq
    have hop := h.1
    cases op <;> cases heq <;> simp [Enabled, hstage] at hop
  rcases h.threads_of_ne hne with hsame | hnotified
  · rw [hsame, hstage]
  · rw [hnotified, hstage]
    rfl

/-- **Grants of `flock`.**  In every state of every run of requests, conversions, releases and
retirements by any threads: an owner has one grant at most and an exclusive grant is alone, no
assertion fails, a request that reports that it is complete has its mode, an owner whose retirement
has returned has no grant in this or any later state, and a request that sleeps although its owner
is retired or nobody is in its way is about to be woken.

SOURCE: fs/lock/flock/mod.rs:55-214, task/files/opened_description.rs:180-208, 338-412 -/
theorem flock_grants (hstart : s.Start) {path : List (Op × System)}
    (hpath : Run.Path Step s path) :
    (Run.last s path).Sound ∧ ∀ thread owner, (Run.last s path).threads thread = .released owner →
        ∀ later, Run.Path Step (Run.last s path) later →
          Without (Run.last (Run.last s path) later).grants owner := by
  have hkept : ∀ s op t, s.Consistent → Step s op t → t.Consistent := by
    intro s op t h hstep
    obtain ⟨t', hrun, ht⟩ := h.step hstep.1
    have heq : t = t' := Except.ok.inj (hstep.2.symm.trans hrun)
    rw [heq]
    exact ht
  have hlast := hpath.invariant hkept hstart.consistent
  refine ⟨hlast.sound, fun thread owner hreleased later hlater => ?_⟩
  have hconsistent := hlater.invariant hkept hlast
  refine @Consistent.without_of_released _ thread owner hconsistent ?_
  exact hlater.invariant (P := fun s => s.threads thread = .released owner)
    (fun _ _ _ h hstep => hstep.released h) hreleased

def quiet : System := ⟨[], fun _ => 0, none, fun _ => .idle⟩

/-- A description is opened, locked exclusively and closed while another one waits for it. -/
def closing : List Op :=
  [.acquireRef 1, .acquireRef 2, .request 10 1 (.lock .exclusive true) true,
    .enter 10 1 (.lock .exclusive true), .finish 10 1 (.lock .exclusive true) true,
    .request 20 2 (.lock .shared false) true, .enter 20 2 (.lock .shared false),
    .finish 20 2 (.lock .shared false) true, .enterTest 20 2 .shared,
    .finishTest 20 2 .shared true, .releaseRef 30 1, .retire 30 1, .publishRetired 30 1]

/-- The owner that is retired has no grant, and the other one has been woken. -/
theorem flock_grants_closing :
    let path := Run.follow run quiet closing
    (Run.last quiet path).threads 20 = .listening 2 .shared true ∧
      (Run.last quiet path).Sound ∧ Without (Run.last quiet path).grants 1 := by
  have hfits : 0 < retiredDescriptionRefs - 1 := by decide
  have hpath : Run.Path Step quiet (Run.follow run quiet closing) :=
    ⟨⟨hfits, rfl⟩, ⟨hfits, rfl⟩, ⟨rfl, rfl⟩, ⟨⟨rfl, rfl⟩, rfl⟩, ⟨rfl, rfl⟩, ⟨rfl, rfl⟩,
      ⟨⟨rfl, rfl⟩, rfl⟩, ⟨rfl, rfl⟩, ⟨⟨rfl, rfl⟩, rfl⟩, ⟨rfl, rfl⟩, ⟨⟨rfl, by decide, by decide⟩, rfl⟩,
      ⟨⟨rfl, rfl⟩, rfl⟩, ⟨rfl, rfl⟩, trivial⟩
  obtain ⟨hsound, hlater⟩ := flock_grants ⟨rfl, rfl, fun _ => rfl, fun _ => rfl⟩ hpath
  exact ⟨rfl, hsound, hlater 30 1 rfl [] trivial⟩

end System

end Anemone.Flock
