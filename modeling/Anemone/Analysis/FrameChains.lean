import Anemone.Interface.Isolation

/-!
# What a chain of objects does to the memory

Resolving adds pages where there was none; discarding and decommitting take away pages of the top
object.  Frames are held by at most one page of one object, and the zero frame by none.
-/

namespace Anemone.Uspace

open Checked (bind_eq_ok)
open Memory

variable {b : VmObject} {pidx frame object : ℕ} {mem mem' : Memory}

namespace VmObject

/-- No link of the chain is an object from outside. -/
def Internal : VmObject → Prop
  | .anon _ _ => True
  | .shadow _ parent => parent.Internal
  | .empty => True
  | .external _ => False

/-- The object on top holds the frame as this page. -/
def Holds (mem : Memory) (pidx frame : ℕ) : VmObject → Prop
  | .anon object maxPages => pidx < maxPages ∧ (mem.objects object).resident[pidx]? = some frame
  | .shadow object _ => (mem.objects object).resident[pidx]? = some frame ∧
      (mem.objects object).decommitted pidx = false
  | .empty => False
  | .external _ => False

theorem Holds.top (h : b.Holds mem pidx frame) :
    ∃ object, b.top = some object ∧ (mem.objects object).resident[pidx]? = some frame := by
  cases b with
  | anon object maxPages => exact ⟨object, rfl, h.2⟩
  | shadow object parent => exact ⟨object, rfl, h.1⟩
  | empty | external => exact h.elim

theorem Holds.of_objects (hsame : mem'.objects = mem.objects) (h : b.Holds mem pidx frame) :
    b.Holds mem' pidx frame := by
  cases b with
  | anon object maxPages => exact ⟨h.1, hsame ▸ h.2⟩
  | shadow object parent => exact ⟨hsame ▸ h.1, hsame ▸ h.2⟩
  | empty | external => exact h

theorem mem_ids_of_top (h : b.top = some object) :
    object ∈ b.ids := by
  cases b with
  | anon | shadow =>
    cases h
    exact List.mem_cons_self
  | empty | external => cases h

end VmObject

variable {r : Except SysError ResolvedFrame} {mem'' : Memory}

namespace Memory

theorem lookup_eq_ok {pidx : ℕ} {found : ShadowLookup} (h : mem.lookup object pidx = .ok found) :
    (∃ frame, found = .resident frame ∧ (mem.objects object).resident[pidx]? = some frame ∧
        (mem.objects object).decommitted pidx = false) ∨
      ((∀ frame, found ≠ .resident frame) ∧ (mem.objects object).resident[pidx]? = none) := by
  unfold lookup at h
  simp only at h
  cases hres : (mem.objects object).resident[pidx]? with
  | some frame =>
    rw [hres] at h
    obtain ⟨u, hassert, hfound⟩ := bind_eq_ok.mp h
    cases hfound
    exact .inl ⟨frame, rfl, rfl, Checked.assert_eq_ok.mp hassert⟩
  | none =>
    rw [hres] at h
    cases h
    refine .inr ⟨?_, rfl⟩
    intro frame
    split_ifs <;> simp

/-- Frames have one place, the zero frame none, and free frames are not in use. -/
structure Sound (mem : Memory) : Prop where
  zero : ∀ object pidx : ℕ, (mem.objects object).resident[pidx]? ≠ some mem.zeroFrame
  unique : ∀ object pidx object' pidx' frame : ℕ,
    (mem.objects object).resident[pidx]? = some frame →
    (mem.objects object').resident[pidx']? = some frame → object = object' ∧ pidx = pidx'
  free : ∀ f ∈ mem.freeFrames, f ≠ mem.zeroFrame ∧
    ∀ object pidx : ℕ, (mem.objects object).resident[pidx]? ≠ some f
  nodup : mem.freeFrames.Nodup

/-- Pages were added and none was taken away. -/
structure Extends (mem mem' : Memory) : Prop where
  resident : ∀ object pidx frame : ℕ, (mem.objects object).resident[pidx]? = some frame →
    (mem'.objects object).resident[pidx]? = some frame
  committed : ∀ object pidx : ℕ, (mem.objects object).decommitted pidx = false →
    (mem'.objects object).decommitted pidx = false
  nextObject : mem'.nextObject = mem.nextObject

theorem Extends.refl (mem : Memory) : mem.Extends mem := ⟨fun _ _ _ h => h, fun _ _ h => h, rfl⟩

theorem Extends.trans (h : mem.Extends mem') (h' : mem'.Extends mem'') : mem.Extends mem'' where
  resident object pidx frame hget := h'.resident object pidx frame (h.resident _ _ _ hget)
  committed object pidx hget := h'.committed object pidx (h.committed _ _ hget)
  nextObject := h'.nextObject.trans h.nextObject

theorem Extends.holds (h : mem.Extends mem') (hb : b.Holds mem pidx frame) :
    b.Holds mem' pidx frame := by
  cases b with
  | anon object maxPages => exact ⟨hb.1, h.resident _ _ _ hb.2⟩
  | shadow object parent => exact ⟨h.resident _ _ _ hb.1, h.committed _ _ hb.2⟩
  | empty | external => exact hb

theorem get_install (mem : Memory) (object pidx frame : ℕ) (page : Page) (o p : ℕ) :
    ((mem.install object pidx frame page).objects o).resident[p]? =
      if o = object ∧ p = pidx then some frame else (mem.objects o).resident[p]? := by
  unfold install setPages fill
  by_cases ho : o = object
  · subst ho
    simp only [if_true, OrderedMap.get_insert, true_and]
    by_cases hp : p = pidx
    · simp [hp]
    · rw [if_neg hp, if_neg (Ne.symm hp)]
  · simp [ho]

theorem decommitted_install (mem : Memory) (object pidx frame : ℕ) (page : Page) (o p : ℕ) :
    ((mem.install object pidx frame page).objects o).decommitted p =
      (decide (¬ (o = object ∧ p = pidx)) && (mem.objects o).decommitted p) := by
  unfold install setPages fill
  by_cases ho : o = object
  · subst ho
    simp
  · simp [ho]

/-- **A page that was not there gets a frame of its own.** -/
theorem allocInto_spec {pidx : ℕ} {page : Page} (hsound : mem.Sound)
    (habsent : (mem.objects object).resident[pidx]? = none)
    (h : mem.allocInto object pidx page = (r, mem')) :
    mem'.Sound ∧ mem.Extends mem' ∧ ∀ res, r = .ok res →
      (mem'.objects object).resident[pidx]? = some res.frame ∧
        (mem'.objects object).decommitted pidx = false := by
  unfold allocInto at h
  cases hfree : mem.freeFrames with
  | nil =>
    rw [hfree] at h
    cases h
    exact ⟨hsound, .refl _, nofun⟩
  | cons frame rest =>
    rw [hfree] at h
    cases h
    obtain ⟨hzero, hunused⟩ := hsound.free frame (by rw [hfree]; exact List.mem_cons_self)
    have hnodup := hsound.nodup
    rw [hfree, List.nodup_cons] at hnodup
    refine ⟨⟨?_, ?_, ?_, hnodup.2⟩, ⟨?_, ?_, rfl⟩, ?_⟩
    · intro o p
      rw [get_install]
      split_ifs
      · intro heq
        exact hzero (Option.some.inj heq)
      · exact hsound.zero o p
    · intro o p o' p' f hget hget'
      rw [get_install] at hget hget'
      split_ifs at hget hget' with hnew hnew' hnew'
      · exact ⟨hnew.1.trans hnew'.1.symm, hnew.2.trans hnew'.2.symm⟩
      · cases hget
        exact absurd hget' (hunused o' p')
      · cases hget'
        exact absurd hget (hunused o p)
      · exact hsound.unique o p o' p' f hget hget'
    · intro f hf
      obtain ⟨hfzero, hfunused⟩ := hsound.free f (by rw [hfree]; exact List.mem_cons_of_mem _ hf)
      refine ⟨hfzero, ?_⟩
      intro o p
      rw [get_install]
      split_ifs
      · rintro ⟨⟩
        exact hnodup.1 hf
      · exact hfunused o p
    · intro o p f hget
      rw [get_install, if_neg]
      · exact hget
      · rintro ⟨rfl, rfl⟩
        rw [habsent] at hget
        cases hget
    · intro o p hget
      rw [decommitted_install]
      simp only [Bool.and_eq_false_iff]
      exact .inr hget
    · rintro res ⟨⟩
      rw [get_install, decommitted_install]
      simp

end Memory

namespace VmObject

variable {access : PageFaultType}

theorem resolveFrame_keeps {pidx : ℕ} (haccess : access ≠ .write)
    (h : b.resolveFrame mem pidx access = .ok (r, mem')) : mem' = mem := by
  induction b generalizing r with
  | anon object maxPages =>
    unfold resolveFrame at h
    split_ifs at h
    · cases h
      rfl
    · split at h
      · cases h
        rfl
      · split at h
        · exact absurd rfl haccess
        all_goals
          cases h
          rfl
  | shadow object parent ih =>
    obtain ⟨found, -, h⟩ := bind_eq_ok.mp h
    split at h
    · cases h
      rfl
    · exact absurd rfl haccess
    · exact absurd rfl haccess
    · cases h
      rfl
    · obtain ⟨⟨r', mem₁⟩, hparent, h⟩ := bind_eq_ok.mp h
      cases h
      exact ih hparent
  | empty | external =>
    cases h
    rfl

/-- **A resolved page is writable exactly if the object on top holds it.** -/
theorem resolveFrame_read_iff (hint : b.Internal) :
    b.resolveFrame mem pidx .read = .ok (.ok ⟨frame, true⟩, mem) ↔ b.Holds mem pidx frame := by
  cases b with
  | anon object maxPages =>
    simp only [resolveFrame, Holds]
    by_cases hge : pidx ≥ maxPages
    · rw [if_pos hge]
      refine ⟨nofun, fun h => ?_⟩
      omega
    · rw [if_neg hge]
      cases hres : (mem.objects object).resident[pidx]? with
      | none =>
        refine ⟨nofun, fun h => nomatch h.2⟩
      | some f =>
        simp only [Checked.pure_eq, Except.ok.injEq, Prod.mk.injEq, ResolvedFrame.mk.injEq,
          and_true, Option.some.injEq]
        exact ⟨fun h => ⟨by omega, h⟩, fun h => h.2⟩
  | shadow object parent =>
    constructor
    · intro h
      obtain ⟨found, hfound, h⟩ := bind_eq_ok.mp h
      rcases lookup_eq_ok hfound with ⟨f, rfl, hres, hdec⟩ | ⟨hno, -⟩
      · cases h
        exact ⟨hres, hdec⟩
      · split at h
        · next heq => exact absurd rfl (hno _)
        · next hw => cases hw
        · next hw => cases hw
        · cases h
        · -- what comes from the parent is never writable
          obtain ⟨⟨r, mem₁⟩, -, h⟩ := bind_eq_ok.mp h
          cases r with
          | error | ok => cases h
    · rintro ⟨hres, hdec⟩
      have hfound : mem.lookup object pidx = .ok (.resident frame) := by
        unfold lookup
        simp only
        rw [hres]
        exact bind_eq_ok.mpr ⟨(), Checked.assert_of _ hdec, rfl⟩
      unfold resolveFrame
      rw [hfound]
      rfl
  | empty =>
    refine ⟨nofun, fun h => h.elim⟩
  | external object => exact hint.elim

/-- **Resolving a page keeps the memory sound and every page it held**, and what it
returns as writable is held by the object on top. -/
theorem resolveFrame_spec (hint : b.Internal) (hsound : mem.Sound) {pidx : ℕ}
    (h : b.resolveFrame mem pidx access = .ok (r, mem')) :
    mem'.Sound ∧ mem.Extends mem' ∧
      ∀ res, r = .ok res → res.writable = true → b.Holds mem' pidx res.frame := by
  cases b with
  | anon object maxPages =>
    unfold resolveFrame at h
    split_ifs at h with hge
    · cases h
      exact ⟨hsound, .refl _, nofun⟩
    · split at h
      · next frame hres =>
        cases h
        refine ⟨hsound, .refl _, ?_⟩
        rintro res ⟨⟩ -
        exact ⟨by omega, hres⟩
      · next hres =>
        split at h
        · obtain ⟨hsound', hext, hheld⟩ := allocInto_spec hsound hres (Except.ok.inj h)
          exact ⟨hsound', hext, fun res hr _ => ⟨by omega, (hheld res hr).1⟩⟩
        all_goals
          cases h
          refine ⟨hsound, .refl _, ?_⟩
          rintro res ⟨⟩ hw
          cases hw
  | shadow object parent =>
    obtain ⟨found, hfound, h⟩ := bind_eq_ok.mp h
    rcases lookup_eq_ok hfound with ⟨frame, rfl, hres, hdec⟩ | ⟨hno, hres⟩
    · cases h
      refine ⟨hsound, .refl _, ?_⟩
      rintro res ⟨⟩ -
      exact ⟨hres, hdec⟩
    · have halloc : ∀ {page r' mem₂}, mem.allocInto object pidx page = (r', mem₂) → mem₂.Sound ∧
          mem.Extends mem₂ ∧ ∀ res, r' = .ok res → res.writable = true →
            (VmObject.shadow object parent).Holds mem₂ pidx res.frame := by
        intro page r' mem₂ hcall
        obtain ⟨hsound', hext, hheld⟩ := allocInto_spec hsound hres hcall
        exact ⟨hsound', hext, fun res hr _ => hheld res hr⟩
      split at h
      · exact absurd rfl (hno _)
      · exact halloc (Except.ok.inj h)
      · obtain ⟨⟨r₁, mem₁⟩, hparent, h⟩ := bind_eq_ok.mp h
        cases resolveFrame_keeps (by simp) hparent
        cases r₁ with
        | error e =>
          cases h
          exact ⟨hsound, .refl _, nofun⟩
        | ok res => exact halloc (Except.ok.inj h)
      · cases h
        refine ⟨hsound, .refl _, ?_⟩
        rintro res ⟨⟩ hw
        cases hw
      · next hread =>
        obtain ⟨⟨r₁, mem₁⟩, hparent, h⟩ := bind_eq_ok.mp h
        cases resolveFrame_keeps hread hparent
        cases h
        refine ⟨hsound, .refl _, ?_⟩
        intro res hr hw
        cases r₁ with
        | error e => cases hr
        | ok res₁ =>
          cases hr
          cases hw
  | empty =>
    cases h
    exact ⟨hsound, .refl _, nofun⟩
  | external object => exact hint.elim

/-- Looking ahead for reading changes no memory; a write ahead allocates in the top object
at most. -/
theorem resolveFrameAhead_keeps {pidx requestEnd : ℕ} {r : Except SysError (Option ResolvedFrame)}
    (haccess : access ≠ .write) (h : b.resolveFrameAhead mem pidx requestEnd access = .ok (r, mem')) :
    mem' = mem := by
  induction b generalizing r with
  | anon object maxPages =>
    obtain ⟨⟨r₁, mem₁⟩, hcall, h⟩ := bind_eq_ok.mp h
    cases h
    exact resolveFrame_keeps haccess hcall
  | shadow object parent ih =>
    obtain ⟨_, -, h⟩ := bind_eq_ok.mp h
    obtain ⟨found, -, h⟩ := bind_eq_ok.mp h
    split at h
    · cases h
      rfl
    · exact absurd rfl haccess
    · cases h
      rfl
    · obtain ⟨⟨r', mem₁⟩, hparent, h⟩ := bind_eq_ok.mp h
      cases h
      exact ih hparent
  | empty | external =>
    cases h
    rfl

theorem resolveFrameAhead_spec (hint : b.Internal) (hsound : mem.Sound) {pidx requestEnd : ℕ}
    {r : Except SysError (Option ResolvedFrame)}
    (h : b.resolveFrameAhead mem pidx requestEnd access = .ok (r, mem')) :
    mem'.Sound ∧ mem.Extends mem' ∧
      ∀ res, r = .ok (some res) → res.writable = true → b.Holds mem' pidx res.frame := by
  cases b with
  | anon object maxPages =>
    obtain ⟨⟨r₁, mem₁⟩, hcall, h⟩ := bind_eq_ok.mp h
    cases h
    obtain ⟨hsound', hext, hheld⟩ := resolveFrame_spec hint hsound hcall
    refine ⟨hsound', hext, ?_⟩
    intro res hr hw
    cases r₁ with
    | error e => cases hr
    | ok res₁ =>
      cases hr
      exact hheld res rfl hw
  | shadow object parent =>
    obtain ⟨_, -, h⟩ := bind_eq_ok.mp h
    obtain ⟨found, hfound, h⟩ := bind_eq_ok.mp h
    rcases lookup_eq_ok hfound with ⟨frame, rfl, hres, hdec⟩ | ⟨hno, -⟩
    · cases h
      refine ⟨hsound, .refl _, ?_⟩
      rintro res ⟨⟩ -
      exact ⟨hres, hdec⟩
    · split at h
      · exact absurd rfl (hno _)
      · cases h
        exact ⟨hsound, .refl _, nofun⟩
      · cases h
        refine ⟨hsound, .refl _, ?_⟩
        rintro res ⟨⟩ hw
        cases hw
      · next hread =>
        obtain ⟨⟨r₁, mem₁⟩, hparent, h⟩ := bind_eq_ok.mp h
        cases resolveFrameAhead_keeps hread hparent
        cases h
        refine ⟨hsound, .refl _, ?_⟩
        intro res hr hw
        cases r₁ with
        | error e => cases hr
        | ok res₁ =>
          cases res₁ with
          | none => cases hr
          | some res₁ =>
            cases hr
            cases hw
  | empty =>
    cases h
    exact ⟨hsound, .refl _, nofun⟩
  | external object => exact hint.elim

end VmObject

namespace Memory

/-- The pages of `gone` lost their frames, and nothing else changed. -/
structure Retires (gone : ℕ → ℕ → Prop) (mem mem' : Memory) : Prop where
  lost : ∀ object pidx : ℕ, gone object pidx → (mem'.objects object).resident[pidx]? = none
  kept : ∀ object pidx : ℕ, ¬ gone object pidx →
    (mem'.objects object).resident[pidx]? = (mem.objects object).resident[pidx]? ∧
      (mem'.objects object).decommitted pidx = (mem.objects object).decommitted pidx
  nextObject : mem'.nextObject = mem.nextObject
  zeroFrame : mem'.zeroFrame = mem.zeroFrame
  freeFrames : mem'.freeFrames = mem.freeFrames
  bytes : mem'.bytes = mem.bytes

namespace Retires

variable {gone : ℕ → ℕ → Prop} {mem mem' : Memory} (h : Retires gone mem mem')

include h

theorem of_get {pidx frame : ℕ} (hget : (mem'.objects object).resident[pidx]? = some frame) :
    (mem.objects object).resident[pidx]? = some frame := by
  by_cases hgone : gone object pidx
  · rw [h.lost object pidx hgone] at hget
    cases hget
  · rw [← (h.kept object pidx hgone).1]
    exact hget

theorem sound (hsound : mem.Sound) : mem'.Sound where
  zero object pidx hget := by
    rw [h.zeroFrame] at hget
    exact hsound.zero object pidx (h.of_get hget)
  unique object pidx object' pidx' frame hget hget' :=
    hsound.unique _ _ _ _ _ (h.of_get hget) (h.of_get hget')
  free f hf := by
    rw [h.freeFrames] at hf
    rw [h.zeroFrame]
    obtain ⟨hzero, hunused⟩ := hsound.free f hf
    exact ⟨hzero, fun object pidx hget => hunused object pidx (h.of_get hget)⟩
  nodup := by
    rw [h.freeFrames]
    exact hsound.nodup

theorem holds (hb : b.Holds mem pidx frame)
    (hkept : ∀ object, b.top = some object → ¬ gone object pidx) : b.Holds mem' pidx frame := by
  cases b with
  | anon object maxPages =>
    refine ⟨hb.1, ?_⟩
    rw [(h.kept object pidx (hkept object rfl)).1]
    exact hb.2
  | shadow object parent =>
    obtain ⟨hres, hdec⟩ := h.kept object pidx (hkept object rfl)
    refine ⟨?_, ?_⟩
    · rw [hres]
      exact hb.1
    · rw [hdec]
      exact hb.2
  | empty | external => exact hb

end Retires

theorem Retires.refl (mem : Memory) : Retires (fun _ _ => False) mem mem :=
  ⟨fun _ _ h => h.elim, fun _ _ _ => ⟨rfl, rfl⟩, rfl, rfl, rfl, rfl⟩

theorem Retires.trans {gone gone' : ℕ → ℕ → Prop} (h : Retires gone mem mem')
    (h' : Retires gone' mem' mem'') :
    Retires (fun object pidx => gone object pidx ∨ gone' object pidx) mem mem'' where
  lost object pidx hgone := by
    cases hget : (mem''.objects object).resident[pidx]? with
    | none => rfl
    | some frame =>
      rcases hgone with hgone | hgone
      · have hmid := h'.of_get hget
        rw [h.lost object pidx hgone] at hmid
        cases hmid
      · rw [h'.lost object pidx hgone] at hget
        cases hget
  kept object pidx hkept := by
    obtain ⟨hno, hno'⟩ := not_or.mp hkept
    obtain ⟨hres, hdec⟩ := h.kept object pidx hno
    obtain ⟨hres', hdec'⟩ := h'.kept object pidx hno'
    exact ⟨hres'.trans hres, hdec'.trans hdec⟩
  nextObject := h'.nextObject.trans h.nextObject
  zeroFrame := h'.zeroFrame.trans h.zeroFrame
  freeFrames := h'.freeFrames.trans h.freeFrames
  bytes := h'.bytes.trans h.bytes

theorem Retires.congr {gone gone' : ℕ → ℕ → Prop} (h : Retires gone mem mem')
    (hiff : ∀ object pidx, gone object pidx ↔ gone' object pidx) :
    Retires gone' mem mem' where
  lost object pidx hgone := h.lost object pidx ((hiff object pidx).mpr hgone)
  kept object pidx hkept := h.kept object pidx fun hgone => hkept ((hiff object pidx).mp hgone)
  nextObject := h.nextObject
  zeroFrame := h.zeroFrame
  freeFrames := h.freeFrames
  bytes := h.bytes

theorem retires_retireFrameRange (mem : Memory) (object lo hi : ℕ) :
    Retires (fun o p => some object = some o ∧ lo ≤ p ∧ p < hi) mem
      (mem.retireFrameRange object lo hi) := by
  have hget : ∀ o p : ℕ, ((mem.retireFrameRange object lo hi).objects o).resident[p]? =
      if object = o ∧ lo ≤ p ∧ p < hi then none else (mem.objects o).resident[p]? := by
    intro o p
    unfold retireFrameRange setPages
    simp only
    by_cases ho : o = object
    · subst ho
      simp only [if_true, true_and]
      rw [Std.ExtTreeMap.getElem?_filter']
      by_cases hin : lo ≤ p ∧ p < hi
      · simp [hin]
      · rw [if_neg hin]
        cases (mem.objects o).resident[p]? <;> simp [hin]
    · rw [if_neg ho, if_neg fun h => ho h.1.symm]
  refine ⟨?_, ?_, rfl, rfl, rfl, rfl⟩
  · rintro o p ⟨heq, hin⟩
    rw [hget, if_pos ⟨Option.some.inj heq, hin⟩]
  · intro o p hout
    refine ⟨?_, ?_⟩
    · rw [hget, if_neg fun h => hout ⟨congrArg some h.1, h.2⟩]
    · unfold retireFrameRange setPages
      by_cases ho : o = object
      · subst ho
        simp
      · simp [ho]

/-- An object that goes takes its pages with it. -/
theorem retires_release (mem : Memory) (object : ℕ) :
    Retires (fun o _ => o = object) mem (mem.setPages object .empty) := by
  refine ⟨?_, ?_, rfl, rfl, rfl, rfl⟩
  · rintro o p rfl
    simp [setPages, ObjectPages.empty]
  · intro o p hne
    simp [setPages, hne]

/-- The pages of the object on top of a chain in a range of page indices. -/
def TopPages (b : VmObject) (lo hi object pidx : ℕ) : Prop :=
  b.top = some object ∧ lo ≤ pidx ∧ pidx < hi

/-- **Discarding takes the pages of the object on top.** -/
theorem retires_discardRange {lo hi : ℕ} (h : b.discardRange mem lo hi = .ok mem') :
    Retires (TopPages b lo hi) mem mem' := by
  cases b with
  | anon object | shadow object =>
    obtain ⟨_, -, h⟩ := bind_eq_ok.mp h
    cases h
    exact retires_retireFrameRange mem object lo hi
  | empty | external =>
    cases h
    exact (Retires.refl mem).congr fun _ _ => ⟨False.elim, fun h => nomatch h.1⟩

/-- **Decommitting takes the same pages** and marks them. -/
theorem retires_decommitPrivateRange {lo hi : ℕ} (h : b.decommitPrivateRange mem lo hi = .ok mem') :
    Retires (TopPages b lo hi) mem mem' := by
  cases b with
  | anon object maxPages =>
    simp only [VmObject.decommitPrivateRange] at h
    split at h
    · cases h
    · cases h
      exact retires_retireFrameRange mem object lo hi
  | shadow object parent =>
    simp only [VmObject.decommitPrivateRange] at h
    split_ifs at h with hgt heq
    · cases h
      refine (Retires.refl mem).congr fun o p => ⟨False.elim, ?_⟩
      rintro ⟨-, hlo, hhi⟩
      omega
    · cases h
      have hret := retires_retireFrameRange mem object lo hi
      refine ⟨?_, ?_, rfl, rfl, rfl, rfl⟩
      · intro o p hgone
        have hlost := hret.lost o p hgone
        unfold setPages
        simp only
        split_ifs with ho
        · subst ho
          exact hlost
        · exact hlost
      · intro o p hkept
        obtain ⟨hres, hdec⟩ := hret.kept o p hkept
        unfold setPages
        simp only
        split_ifs with ho
        · subst ho
          refine ⟨hres, ?_⟩
          have hout : ¬ (lo ≤ p ∧ p < hi) := fun hin => hkept ⟨rfl, hin⟩
          simp only [hout, decide_false, Bool.false_or]
          exact hdec
        · exact ⟨hres, hdec⟩
  | empty | external => cases h

end Memory

end Anemone.Uspace
