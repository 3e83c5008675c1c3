import Anemone.Interface.Privileges

/-!
# Privileges do not come back

`Restricts` says once what a call can do to credentials: it narrows the privileges, keeps the
locks, and gives nothing to a caller without privileges.
-/

namespace Anemone.Credentials

open InPlace Privileges Capability CredCapabilities SecureBits

namespace Capability

variable {a b : Capability} {i : ℕ}

@[simp] theorem mem_toSet : i ∈ a.toSet ↔ a.getLsbD i = true := Iff.rfl

@[simp] theorem toSet_and : toSet (a &&& b) = a.toSet ∩ b.toSet := by
  ext i
  simp

@[simp] theorem toSet_or : toSet (a ||| b) = a.toSet ∪ b.toSet := by
  ext i
  simp

@[simp] theorem toSet_zero : toSet 0#64 = ∅ := by
  ext i
  simp

theorem toSet_empty : toSet 0 = ∅ := toSet_zero

@[simp] theorem toSet_difference : toSet (a.difference b) = a.toSet \ b.toSet := by
  ext i
  by_cases hi : i < 64
  · simp [difference, hi]
  · simp [difference, BitVec.getLsbD_of_ge a i (by omega)]

theorem contains_iff : a.contains b = true ↔ b.toSet ⊆ a.toSet := by
  rw [contains, beq_iff_eq]
  constructor
  · intro h i hi
    rw [← h, toSet_and] at hi
    exact hi.1
  · intro h
    ext i hi
    have := @h i
    simp only [mem_toSet] at this
    simp only [← BitVec.getLsbD_eq_getElem hi, BitVec.getLsbD_and]
    cases hb : b.getLsbD i
    · simp
    · simp [this hb]

theorem eq_zero_iff : a = 0 ↔ a.toSet = ∅ := by
  constructor
  · rintro rfl
    exact toSet_zero
  · intro h
    ext i hi
    have : i ∉ a.toSet := by simp [h]
    simpa [← BitVec.getLsbD_eq_getElem hi] using this

end Capability

variable {cap : Capability}

/-- **A caller without privileges** has no capability. -/
theorem not_capable {cred : CredentialSet} (hwf : cred.caps.view.WellFormed)
    (hpermitted : cred.caps.permitted = 0) (hcap : cap ≠ 0) :
    cred.hasCapEffective cap = false := by
  rw [CredentialSet.hasCapEffective, Bool.eq_false_iff, Ne, contains_iff]
  intro hsub
  have hempty : cap.toSet ⊆ cred.caps.permitted.toSet := hsub.trans hwf.effective
  rw [hpermitted, toSet_empty, Set.subset_empty_iff] at hempty
  exact hcap (eq_zero_iff.mpr hempty)

/-- **What a call can do** to credentials. -/
structure Restricts (isExec noNewPrivs : Bool) (old new : CredentialSet) : Prop where
  narrows : old.caps.view.Narrows new.caps.view
  locks : LocksKept isExec old.caps.securebits new.caps.securebits
  confined : (isExec = true → noNewPrivs = true) → old.caps.view.WellFormed →
    old.uid.NonRoot → old.caps.permitted = 0 → new.uid.NonRoot ∧ new.caps.permitted = 0

variable {isExec nnp : Bool} {old new cred : CredentialSet}

theorem LocksKept.refl (isExec : Bool) (bits : SecureBits) : LocksKept isExec bits bits :=
  fun _ _ h => ⟨h, .inl rfl⟩

/-- **Other ids and fewer privileges**, with the same securebits. -/
theorem Restricts.of_sets (hnarrows : old.caps.view.Narrows new.caps.view)
    (hbits : new.caps.securebits = old.caps.securebits)
    (huid : old.caps.view.WellFormed → old.uid.NonRoot → old.caps.permitted = 0 → new.uid.NonRoot)
    (hpermitted : old.caps.permitted = 0 → new.caps.permitted = 0) :
    Restricts isExec nnp old new where
  narrows := hnarrows
  locks := hbits ▸ .refl _ _
  confined := fun _ hwf hroot hold => ⟨huid hwf hroot hold, hpermitted hold⟩

theorem Restricts.of_caps (hcaps : new.caps = old.caps)
    (huid : old.caps.view.WellFormed → old.uid.NonRoot → old.caps.permitted = 0 → new.uid.NonRoot) :
    Restricts isExec nnp old new :=
  .of_sets (fun h => by rw [hcaps]; exact ⟨h, subset_rfl⟩) (by rw [hcaps]) huid
    (fun h => by rw [hcaps, h])

/-! ### Ids -/

namespace Ids

variable {ids new : Ids}

variable {id : Id}

theorem NonRoot.of_matches (hroot : ids.NonRoot) (h : ids.matchesAnyRes id = true) :
    id ≠ .root := by
  simp only [matchesAnyRes, Bool.or_eq_true, beq_iff_eq, or_assoc] at h
  rcases h with rfl | rfl | rfl
  · exact hroot.1
  · exact hroot.2.1
  · exact hroot.2.2.1

theorem getD_ne_root {target : Option Id} (hid : id ≠ .root)
    (htarget : ∀ id ∈ target, id ≠ .root) : target.getD id ≠ .root := by
  cases target with
  | none => exact hid
  | some new => exact htarget new rfl

/-- a change of ids fails before it writes, and without the capability it finds no way
to root. -/
abbrev Confines (capable : Bool) (ids : Ids) (change : Update Ids Bool) : Prop :=
  AllOrNothing ids change fun _ new => capable = false → ids.NonRoot → new.NonRoot

theorem set_confines (capable : Bool) (ids : Ids) (id : Id) :
    Confines capable ids (set capable id) := by
  simp only [Confines, set, allOrNothing_get_bind]
  split
  case isTrue hcap => exact fun h => absurd h (by simp [hcap])
  split
  case isTrue hid =>
    intro _ hroot
    have hnew : id ≠ .root := by
      rcases hid with rfl | rfl
      · exact hroot.1
      · exact hroot.2.2.1
    exact ⟨hroot.1, hnew, hroot.2.2.1, hnew⟩
  case isFalse => exact rfl

theorem setRe_confines (capable : Bool) (ids : Ids) (real effective : Option Id) :
    Confines capable ids (setRe capable real effective) := by
  simp only [Confines, setRe, allOrNothing_get_bind]
  split
  · exact rfl
  case isFalse hreal =>
  split
  · exact rfl
  case isFalse heffective =>
  intro hcap hroot
  have hr : real.getD ids.real ≠ .root := getD_ne_root hroot.1 fun id hid => by
    by_cases heq : id = ids.real
    · exact heq ▸ hroot.1
    · have : id = ids.effective := by_contra fun hne => hreal ⟨⟨id, hid, heq, hne⟩, hcap⟩
      exact this ▸ hroot.2.1
  have he : effective.getD ids.effective ≠ .root := getD_ne_root hroot.2.1 fun id hid =>
    hroot.of_matches (Bool.of_not_eq_false fun hne => heffective ⟨⟨id, hid, hne⟩, hcap⟩)
  refine ⟨hr, he, ?_, he⟩
  dsimp only
  split
  · exact he
  · exact hroot.2.2.1

theorem setRes_confines (capable : Bool) (ids : Ids) (real effective saved : Option Id) :
    Confines capable ids (setRes capable real effective saved) := by
  simp only [Confines, setRes, allOrNothing_get_bind]
  split
  · exact rfl
  case isFalse hold =>
  split
  · exact fun _ hroot => hroot
  intro hcap hroot
  simp only [hcap, and_true, Bool.or_eq_true, not_or, Bool.not_eq_true, Option.any_eq_false] at hold
  obtain ⟨⟨hr, he⟩, hs⟩ := hold
  have hmatches : ∀ {target : Option Id} {id : Id}, id ≠ .root →
      (∀ id, target = some id → (!ids.matchesAnyRes id) = false) → target.getD id ≠ .root :=
    fun hid htarget => getD_ne_root hid fun id hmem =>
      hroot.of_matches (by simpa using htarget id hmem)
  have heff := hmatches hroot.2.1 (by simpa using he)
  exact ⟨hmatches hroot.1 (by simpa using hr), heff, hmatches hroot.2.2.1 (by simpa using hs), heff⟩

theorem setFs_nonRoot (hroot : ids.NonRoot) : (ids.setFs false id).NonRoot := by
  unfold setFs
  split
  case isTrue h =>
    refine ⟨hroot.1, hroot.2.1, hroot.2.2.1, ?_⟩
    rcases h with h | rfl | h
    · exact hroot.of_matches h
    · exact hroot.2.2.2
    · cases h
  case isFalse => exact hroot

end Ids

namespace CredentialSet

/-- **Only effective and ambient privileges change, or all that is permitted goes.** -/
structure Fixed (old new : CredCapabilities) : Prop where
  narrows : old.view.Narrows new.view
  securebits : new.securebits = old.securebits
  permitted : old.permitted = 0 → new.permitted = 0

theorem Fixed.refl (caps : CredCapabilities) : Fixed caps caps :=
  ⟨fun h => ⟨h, subset_rfl⟩, rfl, id⟩

theorem Fixed.trans {a b c : CredCapabilities} (hab : Fixed a b) (hbc : Fixed b c) : Fixed a c where
  narrows := fun h =>
    have hb := hab.narrows h
    have hc := hbc.narrows hb.1
    ⟨hc.1, hc.2.trans hb.2⟩
  securebits := hbc.securebits.trans hab.securebits
  permitted := hbc.permitted ∘ hab.permitted

/-- **The effective set changes** within what is permitted. -/
theorem Fixed.effective (caps : CredCapabilities) {effective : Capability}
    (h : caps.view.WellFormed → effective.toSet ⊆ caps.permitted.toSet) :
    Fixed caps { caps with effective := effective } :=
  ⟨fun hwf => ⟨⟨h hwf, hwf.ambient, hwf.inherited⟩, subset_rfl⟩, rfl, id⟩

theorem leaveRoot_fixed (cred : CredentialSet) (oldUid : Ids) :
    Fixed cred.caps (cred.leaveRoot oldUid) := by
  unfold leaveRoot
  dsimp only
  split
  · split
    · refine ⟨fun h => ⟨⟨h.effective, ?_, ?_⟩, subset_rfl⟩, rfl, id⟩ <;> simp [view]
    · refine ⟨fun h => ⟨⟨?_, ?_, ?_⟩, ?_⟩, rfl, fun _ => rfl⟩
      · exact subset_rfl
      · exact subset_rfl
      · simp [view]
      · simp only [reach, view, toSet_empty, Set.empty_union]
        exact Set.union_subset_union_left _ Set.subset_union_right
  · exact .refl _

theorem updateCapsByUid_fixed (cred : CredentialSet) (oldUid : Ids) :
    Fixed cred.caps (cred.updateCapsByUid oldUid) := by
  have hleave := cred.leaveRoot_fixed oldUid
  unfold updateCapsByUid
  split
  · exact .refl _
  · split
    · exact hleave.trans (.effective _ (by simp))
    · split
      · exact hleave.trans (.effective _ (fun _ => subset_rfl))
      · exact hleave

theorem updateCapsByFsuid_fixed (cred : CredentialSet) (oldFsuid : Id) :
    Fixed cred.caps (cred.updateCapsByFsuid oldFsuid) := by
  unfold updateCapsByFsuid
  dsimp only
  split
  · exact .refl _
  · split
    · refine .effective _ (fun hwf => ?_)
      rw [toSet_difference]
      exact Set.sdiff_subset.trans hwf.effective
    · split
      · refine .effective _ (fun hwf => ?_)
        rw [toSet_or, toSet_and]
        exact Set.union_subset hwf.effective Set.inter_subset_left
      · exact .refl _

theorem fixFsuid_spec (cred : CredentialSet) (oldFsuid : Id) :
    (cred.fixFsuid oldFsuid).uid = cred.uid ∧ Fixed cred.caps (cred.fixFsuid oldFsuid).caps := by
  unfold fixFsuid
  split
  · exact ⟨rfl, cred.updateCapsByFsuid_fixed oldFsuid⟩
  · exact ⟨rfl, .refl _⟩

theorem fixCaps_spec (cred : CredentialSet) (oldUid : Ids) :
    (cred.fixCaps oldUid).uid = cred.uid ∧ Fixed cred.caps (cred.fixCaps oldUid).caps := by
  have hfs := fixFsuid_spec { cred with caps := cred.updateCapsByUid oldUid } oldUid.fs
  exact ⟨hfs.1, (cred.updateCapsByUid_fixed oldUid).trans hfs.2⟩

theorem setuid_ne_zero : setuid ≠ 0 := by decide

/-- **What every change of credentials is held to**: it restricts them, or it fails and
has written nothing. -/
abbrev Restricting {α : Type} (isExec nnp : Bool) (cred : CredentialSet)
    (change : Update CredentialSet α) : Prop :=
  AllOrNothing cred change fun _ new => Restricts isExec nnp cred new

/-- **A call that replaces user ids.** -/
theorem changeUid_restricting {change : Update Ids Bool}
    (h : Ids.Confines (cred.hasCapEffective .setuid) cred.uid change) :
    Restricting isExec nnp cred (changeUid change) := by
  rw [changeUid, Restricting, allOrNothing_get_bind]
  refine AllOrNothing.bind (P := fun _ new => { cred with uid := new.uid } = new ∧
    (cred.hasCapEffective .setuid = false → cred.uid.NonRoot → new.uid.NonRoot))
    (AllOrNothing.within rfl (h.mono fun _ uid huid => ⟨rfl, huid⟩)) ?_
  rintro written new ⟨hnew, huid⟩
  have hroot : cred.caps.view.WellFormed → cred.uid.NonRoot → cred.caps.permitted = 0 →
      new.uid.NonRoot := fun hwf hroot hpermitted =>
    huid (not_capable hwf hpermitted setuid_ne_zero) hroot
  have hcaps : new.caps = cred.caps := by rw [← hnew]
  cases written with
  | false => exact ⟨(), new, rfl, .of_caps hcaps hroot⟩
  | true =>
    obtain ⟨hids, hfixed⟩ := new.fixCaps_spec cred.uid
    rw [hcaps] at hfixed
    exact ⟨(), _, rfl, .of_sets hfixed.narrows hfixed.securebits (by rwa [hids])
      hfixed.permitted⟩

theorem changeGid_restricting {change : Update Ids Bool} {capable : Bool}
    (h : Ids.Confines capable cred.gid change) :
    Restricting isExec nnp cred (changeGid change) :=
  (AllOrNothing.within rfl (h.mono fun _ _ _ => .of_caps rfl fun _ hroot _ => hroot)).bind
    fun _ new hnew => ⟨(), new, rfl, hnew⟩

theorem sysSetfsuid_restricts (cred : CredentialSet) (uid : Option Id) :
    Restricts isExec nnp cred (cred.sysSetfsuid uid) := by
  cases uid with
  | none => exact .of_caps rfl fun _ hroot _ => hroot
  | some uid =>
    obtain ⟨hids, hfixed⟩ := fixFsuid_spec
      { cred with uid := cred.uid.setFs (cred.hasCapEffective .setuid) uid } cred.uid.fs
    refine .of_sets hfixed.narrows hfixed.securebits (fun hwf hroot hpermitted => ?_)
      hfixed.permitted
    rw [sysSetfsuid, hids, not_capable hwf hpermitted setuid_ne_zero]
    exact Ids.setFs_nonRoot hroot

/-! ### Capability sets -/

theorem replaceCaps_restricting (cred : CredentialSet)
    (effective permitted inheritable : Capability) :
    Restricting isExec nnp cred (replaceCaps effective permitted inheritable) := by
  simp only [Restricting, replaceCaps, allOrNothing_get_bind]
  split
  · exact rfl
  split
  · exact rfl
  case isFalse hinheritable =>
  split
  · exact rfl
  case isFalse hpermitted =>
  split
  · exact rfl
  case isFalse heffective =>
  rw [Bool.not_eq_false, contains_iff] at hinheritable hpermitted heffective
  rw [toSet_or] at hinheritable
  rw [allOrNothing_modify]
  refine .of_sets (fun hwf => ⟨⟨heffective, ?_, ?_⟩, ?_⟩) rfl (fun _ hroot _ => hroot)
    fun hold => ?_
  · simp only [view, toSet_and]
    exact Set.inter_subset_left.trans Set.inter_subset_right
  · simp only [view, toSet_and]
    exact Set.inter_subset_right
  · intro i hi
    rcases hi with (hi | hi) | hi
    · exact .inl (.inl (hpermitted hi))
    · rcases hinheritable hi with hb | hold
      · exact .inr hb
      · exact .inl (.inr hold)
    · exact .inr hi
  · rw [hold, toSet_empty, Set.subset_empty_iff] at hpermitted
    exact eq_zero_iff.mpr hpermitted

theorem sysCapset_restricting (cred : CredentialSet)
    (request : Except SysError (UserCapData × Option UserCapData)) :
    Restricting isExec nnp cred (sysCapset request) :=
  .ofExcept_bind fun _ _ => .ofExcept_bind fun _ _ => .ofExcept_bind fun _ _ =>
    .ofExcept_bind fun _ _ => replaceCaps_restricting cred _ _ _

theorem prctlCapbsetDrop_restricting (cred : CredentialSet) (cap : Capability) :
    Restricting isExec nnp cred (prctlCapbsetDrop cap) := by
  simp only [Restricting, prctlCapbsetDrop, allOrNothing_get_bind]
  split
  · exact rfl
  rw [allOrNothing_modify]
  refine .of_sets (fun hwf => ⟨⟨hwf.effective, ?_, ?_⟩, ?_⟩) rfl (fun _ hroot _ => hroot) id
  all_goals simp only [withCaps, reach, view, toSet_and, toSet_difference]
  · exact Set.inter_subset_left.trans hwf.ambient
  · exact Set.inter_subset_left.trans hwf.inherited
  · exact Set.union_subset_union_right _ Set.sdiff_subset

/-- the ambient set changes within the permitted and the inheritable one. -/
theorem setAmbient_restricting {change : CredCapabilities → Capability}
    (h : cred.caps.view.WellFormed → (change cred.caps).toSet ⊆ cred.caps.permitted.toSet ∧
      (change cred.caps).toSet ⊆ cred.caps.inheritable.toSet) :
    Restricting isExec nnp cred (setAmbient change) := by
  rw [Restricting, setAmbient, allOrNothing_modifyGet]
  exact .of_sets (fun hwf => ⟨⟨hwf.effective, (h hwf).1, (h hwf).2⟩, subset_rfl⟩) rfl
    (fun _ hroot _ => hroot) id

theorem prctlCapAmbient_restricting (cred : CredentialSet) (command : AmbientCommand) :
    Restricting isExec nnp cred (prctlCapAmbient command) := by
  cases command with
  | clearAll =>
    rw [prctlCapAmbient]
    exact setAmbient_restricting fun _ => by simp
  | isSet cap =>
    rw [Restricting, prctlCapAmbient, allOrNothing_get_bind, allOrNothing_pure]
    exact .of_caps rfl fun _ hroot _ => hroot
  | raise cap =>
    simp only [Restricting, prctlCapAmbient, allOrNothing_get_bind]
    split
    · exact rfl
    case isFalse hcap =>
    simp only [not_or, Bool.not_eq_false, contains_iff] at hcap
    refine setAmbient_restricting fun hwf => ?_
    rw [toSet_or]
    exact ⟨Set.union_subset hwf.ambient hcap.1, Set.union_subset hwf.inherited hcap.2.1⟩
  | lower cap =>
    rw [prctlCapAmbient]
    refine setAmbient_restricting fun hwf => ?_
    rw [toSet_difference]
    exact ⟨Set.sdiff_subset.trans hwf.ambient, Set.sdiff_subset.trans hwf.inherited⟩

/-! ### Securebits -/

variable {bits : SecureBits}

theorem restricts_securebits (h : LocksKept isExec cred.caps.securebits bits) :
    Restricts isExec nnp cred (cred.withCaps { cred.caps with securebits := bits }) where
  narrows := fun hwf => ⟨hwf, subset_rfl⟩
  locks := h
  confined := fun _ _ hroot hold => ⟨hroot, hold⟩

theorem base_bits : ∀ base ∈ [0, 2, 4, 6], base < 32 ∧ base + 1 < 32 ∧
    locks.getLsbD (base + 1) = true ∧ keepCaps.getLsbD (base + 1) = false ∧
    keepCaps.getLsbD base = decide (base = 4) := by decide

theorem keepCapsLocked_of_bit (h : bits.getLsbD (4 + 1) = true) :
    bits &&& .keepCapsLocked = .keepCapsLocked := by
  have htwo : keepCapsLocked = BitVec.twoPow 32 5 := by decide
  rw [htwo, BitVec.and_twoPow]
  exact if_pos h

theorem and_eq_zero_bit {a b : SecureBits} (h : a &&& b = 0) (i : ℕ) (ha : a.getLsbD i = true) :
    b.getLsbD i = false := by
  have hbit := congrArg (BitVec.getLsbD · i) h
  simpa [ha] using hbit

theorem prctlSetSecurebits_restricting (cred : CredentialSet) (bits : SecureBits) :
    Restricting isExec nnp cred (prctlSetSecurebits bits) := by
  simp only [Restricting, prctlSetSecurebits, allOrNothing_get_bind]
  split
  · exact rfl
  case isFalse hallowed =>
  simp only [not_or, not_not] at hallowed
  refine restricts_securebits fun base hbase hlock => ?_
  obtain ⟨-, hlt, hlocks, -, -⟩ := base_bits base hbase
  have hchange := and_eq_zero_bit hallowed.1 base (by
    rw [BitVec.getLsbD_ushiftRight, BitVec.getLsbD_and, Nat.add_comm 1, hlock, hlocks]
    rfl)
  have hclear := and_eq_zero_bit hallowed.2.1 (base + 1) (by
    rw [BitVec.getLsbD_and, hlock, hlocks]
    rfl)
  have hsame : cred.caps.securebits.getLsbD base = bits.getLsbD base := by
    simpa only [BitVec.getLsbD_xor, bne_eq_false_iff_eq] using hchange
  rw [BitVec.getLsbD_not, decide_eq_true hlt, Bool.true_and, Bool.not_eq_false'] at hclear
  exact ⟨hclear, .inl hsame.symm⟩

theorem prctlSetKeepcaps_restricting (cred : CredentialSet) (enabled : Bool) :
    Restricting isExec nnp cred (prctlSetKeepcaps enabled) := by
  simp only [Restricting, prctlSetKeepcaps, allOrNothing_get_bind]
  split
  · exact rfl
  case isFalse hunlocked =>
  refine restricts_securebits fun base hbase hlock => ?_
  have hne : base ≠ 4 := by
    rintro rfl
    refine hunlocked (beq_iff_eq.mpr ?_)
    exact keepCapsLocked_of_bit hlock
  obtain ⟨hlt, hlt', -, hkeep', hkeep⟩ := base_bits base hbase
  rw [decide_eq_false hne] at hkeep
  split
  · simp only [BitVec.getLsbD_or, hlock, hkeep, Bool.true_or, Bool.or_false, true_or, and_self]
  · simp only [BitVec.getLsbD_and, BitVec.getLsbD_not, hlock, hkeep, hkeep', hlt, hlt',
      decide_true, Bool.not_false, Bool.and_self, Bool.and_true, true_or, and_self]

/-! ### Programs -/

/-- **What a new program is given.**

SOURCE: task/api/execve/mod.rs:16-99 -/
structure ExecOutcome (old new : CredentialSet) (file : ExecFile) (noNewPrivs : Bool) : Prop where
  uid : new.uid = { (old.setIds file noNewPrivs).uid with
    saved := (old.setIds file noNewPrivs).uid.effective
    fs := (old.setIds file noNewPrivs).uid.effective }
  gid : new.gid = { (old.setIds file noNewPrivs).gid with
    saved := (old.setIds file noNewPrivs).gid.effective
    fs := (old.setIds file noNewPrivs).gid.effective }
  ambient : new.caps.ambient.toSet ⊆ old.caps.ambient.toSet
  permitted : ∃ granted : Capability, new.caps.permitted = granted ||| new.caps.ambient ∧
    granted.toSet ⊆ old.caps.bounding.toSet ∪ old.caps.inheritable.toSet ∧
    (noNewPrivs = true → granted.toSet ⊆ old.caps.permitted.toSet)
  effective : new.caps.effective = new.caps.permitted ∨ new.caps.effective = new.caps.ambient
  inheritable : new.caps.inheritable = old.caps.inheritable
  bounding : new.caps.bounding = old.caps.bounding
  securebits : new.caps.securebits = old.caps.securebits &&& ~~~.keepCaps

theorem ite_subset {c : Prop} [Decidable c] {a b : Capability} {s : Set ℕ} (ha : a.toSet ⊆ s)
    (hb : b.toSet ⊆ s) : (if c then a else b).toSet ⊆ s := by
  split
  · exact ha
  · exact hb

variable {file : ExecFile}

theorem computeExecCredentials_spec {noNewPrivs secure : Bool}
    (h : cred.computeExecCredentials file noNewPrivs = .ok (new, secure)) :
    ExecOutcome cred new file noNewPrivs := by
  simp only [computeExecCredentials] at h
  generalize (if noNewPrivs = true then FileCapabilities.empty else file.caps) = fileCaps at h
  split at h
  · cases h
  rw [Except.ok.injEq, Prod.mk.injEq] at h
  obtain ⟨rfl, -⟩ := h
  refine ⟨rfl, rfl, ite_subset (by simp) subset_rfl, ⟨_, rfl, ?_, ?_⟩, ?_, rfl, rfl, rfl⟩
  · have hgranted : ∀ granted : Capability,
        granted.toSet ⊆ cred.caps.bounding.toSet ∪ cred.caps.inheritable.toSet →
        (if noNewPrivs = true then granted &&& cred.caps.permitted else granted).toSet ⊆
          cred.caps.bounding.toSet ∪ cred.caps.inheritable.toSet := fun granted hsub =>
      ite_subset (by rw [toSet_and]; exact Set.inter_subset_left.trans hsub) hsub
    refine hgranted _ (ite_subset (by rw [toSet_or]) ?_)
    rw [toSet_or, toSet_and, toSet_and]
    exact Set.union_subset_union Set.inter_subset_left Set.inter_subset_left
  · intro hnnp
    rw [if_pos hnnp, toSet_and]
    exact Set.inter_subset_right
  · dsimp only
    split
    · exact .inl rfl
    · exact .inr rfl

theorem ExecOutcome.wellFormed (h : ExecOutcome cred new file nnp)
    (hwf : cred.caps.view.WellFormed) : new.caps.view.WellFormed := by
  obtain ⟨granted, hpermitted, -, -⟩ := h.permitted
  have hambient : new.caps.ambient.toSet ⊆ new.caps.permitted.toSet := by
    rw [hpermitted, toSet_or]
    exact Set.subset_union_right
  refine ⟨?_, hambient, ?_⟩
  · rcases h.effective with heq | heq
    · exact (congrArg toSet heq).subset
    · exact (congrArg toSet heq).subset.trans hambient
  · simp only [view, h.inheritable]
    exact h.ambient.trans hwf.inherited

theorem ExecOutcome.reach (h : ExecOutcome cred new file nnp)
    (hwf : cred.caps.view.WellFormed) : new.caps.view.reach ⊆ cred.caps.view.reach := by
  obtain ⟨granted, hpermitted, hgranted, -⟩ := h.permitted
  simp only [Privileges.reach, view, h.inheritable, h.bounding, hpermitted, toSet_or]
  intro i hi
  rcases hi with ((hi | hi) | hi) | hi
  · rcases hgranted hi with hb | hinh
    · exact .inr hb
    · exact .inl (.inr hinh)
  · exact .inl (.inl (hwf.ambient (h.ambient hi)))
  · exact .inl (.inr hi)
  · exact .inr hi

theorem ExecOutcome.gainsNothing (h : ExecOutcome cred new file true)
    (hwf : cred.caps.view.WellFormed) : cred.GainsNothing new := by
  obtain ⟨granted, hpermitted, -, hgranted⟩ := h.permitted
  refine ⟨by rw [h.uid]; exact ⟨rfl, rfl, rfl⟩, by rw [h.gid]; exact ⟨rfl, rfl, rfl⟩, ?_⟩
  simp only [view, hpermitted, toSet_or]
  exact Set.union_subset (hgranted rfl) (h.ambient.trans hwf.ambient)

theorem ExecOutcome.restricts (h : ExecOutcome cred new file nnp) :
    Restricts true nnp cred new where
  narrows := fun hwf => ⟨h.wellFormed hwf, h.reach hwf⟩
  locks := by
    intro base hbase hlock
    rw [h.securebits]
    obtain ⟨hlt, hlt', -, hkeep', hkeep⟩ := base_bits base hbase
    simp only [BitVec.getLsbD_and, BitVec.getLsbD_not, hlock, hkeep, hkeep', hlt, hlt',
      decide_true, Bool.not_false, Bool.true_and, true_and]
    by_cases hfour : base = 4
    · exact .inr ⟨hfour, by rw [decide_eq_true hfour, Bool.not_true, Bool.and_false]⟩
    · exact .inl (by rw [decide_eq_false hfour, Bool.not_false, Bool.and_true])
  confined := by
    intro hnnp hwf hroot hold
    obtain rfl := hnnp rfl
    have hgains := h.gainsNothing hwf
    refine ⟨?_, ?_⟩
    · rw [h.uid]
      exact ⟨hroot.1, hroot.2.1, hroot.2.1, hroot.2.1⟩
    · have hsub := hgains.permitted
      simp only [view, hold, toSet_empty, Set.subset_empty_iff] at hsub
      exact eq_zero_iff.mpr hsub

end CredentialSet

namespace Task

variable {s t : Task}

/-- **What a call does to a task.** -/
structure Stays (isExec : Bool) (s t : Task) : Prop where
  cred : Restricts isExec s.noNewPrivs s.cred t.cred
  noNewPrivs : s.noNewPrivs = true → t.noNewPrivs = true

theorem Stays.refl (isExec : Bool) (s : Task) : Stays isExec s s :=
  ⟨.of_caps rfl fun _ hroot _ => hroot, id⟩

variable {label : Op × Except SysError (BitVec 64)} {isExec : Bool}

/-- **What every call is held to.** -/
abbrev Staying (isExec : Bool) (s : Task) (call : Update Task (BitVec 64)) : Prop :=
  AllOrNothing s call fun _ t => Stays isExec s t

theorem updateCredWith_staying {change : Update CredentialSet (BitVec 64)}
    (h : CredentialSet.Restricting isExec s.noNewPrivs s.cred change) :
    Staying isExec s (updateCredWith change) :=
  .within rfl (h.mono fun _ _ hcred => ⟨hcred, id⟩)

theorem changeCred_staying {change : Update CredentialSet Unit}
    (h : CredentialSet.Restricting isExec s.noNewPrivs s.cred change) :
    Staying isExec s (changeCred change) :=
  (AllOrNothing.within rfl (h.mono fun _ _ hcred => ⟨hcred, id⟩)).bind
    fun _ t ht => ⟨0, t, rfl, ht⟩

theorem dispatchPrctl_staying (s : Task) (args : PrctlArgs) (option : PrctlOption) :
    Staying false s (dispatchPrctl args option) := by
  cases option with
  | getKeepcaps | getSecurebits => exact .refl _ _
  | other => exact rfl
  | capbsetRead => exact .ofExcept_bind fun _ _ => .refl _ _
  | getNoNewPrivs =>
    simp only [Staying, dispatchPrctl, allOrNothing_get_bind]
    split
    · exact rfl
    · exact .refl _ _
  | setNoNewPrivs =>
    simp only [Staying, dispatchPrctl]
    split
    · exact rfl
    · exact ⟨.of_caps rfl fun _ hroot _ => hroot, fun _ => rfl⟩
  | capbsetDrop =>
    exact .ofExcept_bind fun _ _ =>
      changeCred_staying (s.cred.prctlCapbsetDrop_restricting _)
  | setSecurebits =>
    exact .ofExcept_bind fun _ _ =>
      changeCred_staying (s.cred.prctlSetSecurebits_restricting _)
  | setKeepcaps =>
    exact .ofExcept_bind fun _ _ =>
      changeCred_staying (s.cred.prctlSetKeepcaps_restricting _)
  | capAmbient =>
    exact .ofExcept_bind fun _ _ =>
      updateCredWith_staying (s.cred.prctlCapAmbient_restricting _)

theorem kernelExecve_outcome (s : Task) (file : CredentialSet.ExecFile) (loads : Bool) :
    AllOrNothing s (kernelExecve file loads) fun _ t =>
      CredentialSet.ExecOutcome s.cred t.cred file s.noNewPrivs ∧
        t.noNewPrivs = s.noNewPrivs := by
  rw [kernelExecve, allOrNothing_get_bind]
  refine .ofExcept_bind fun new hnew => ?_
  split
  · exact ⟨CredentialSet.computeExecCredentials_spec hnew, rfl⟩
  · exact rfl

/-- **Every call** restricts, or fails before it writes. -/
theorem apply_staying (s : Task) (op : Op) : Staying op.isExec s (apply op) := by
  cases op with
  | setuid uid => exact changeCred_staying (CredentialSet.changeUid_restricting (Ids.set_confines ..))
  | setreuid ruid euid =>
    exact changeCred_staying (CredentialSet.changeUid_restricting (Ids.setRe_confines ..))
  | setresuid ruid euid suid =>
    exact changeCred_staying (CredentialSet.changeUid_restricting (Ids.setRes_confines ..))
  | setfsuid uid => exact ⟨s.cred.sysSetfsuid_restricts uid, id⟩
  | setgid gid => exact changeCred_staying (CredentialSet.changeGid_restricting (Ids.set_confines ..))
  | setregid rgid egid =>
    exact changeCred_staying (CredentialSet.changeGid_restricting (Ids.setRe_confines ..))
  | setresgid rgid egid sgid =>
    exact changeCred_staying (CredentialSet.changeGid_restricting (Ids.setRes_confines ..))
  | setfsgid gid => cases gid <;> exact ⟨.of_caps rfl fun _ hroot _ => hroot, id⟩
  | capset request => exact changeCred_staying (s.cred.sysCapset_restricting request)
  | prctl option args => exact dispatchPrctl_staying s args option
  | execve file loads =>
    exact (kernelExecve_outcome s file loads).mono fun _ t ht =>
      ⟨ht.1.restricts, fun hset => ht.2.trans hset⟩

theorem step_cases {Q : BitVec 64 → Task → Prop} (hall : AllOrNothing s (apply label.1) Q)
    (h : Step s label t) :
    (∃ e, label.2 = .error e ∧ t = s) ∨ ∃ value, label.2 = .ok value ∧ Q value t := by
  rw [Step, run] at h
  unfold AllOrNothing at hall
  cases hrun : apply label.1 s with
  | error e u =>
    rw [hrun] at h hall
    obtain ⟨hresult, rfl⟩ := Prod.mk.inj h
    exact .inl ⟨e, hresult.symm, hall⟩
  | ok value u =>
    rw [hrun] at h hall
    obtain ⟨hresult, rfl⟩ := Prod.mk.inj h
    exact .inr ⟨value, hresult.symm, hall⟩

/-- **One step**: a call that fails changes nothing, and any other restricts. -/
theorem step_spec (h : Step s label t) :
    Stays label.1.isExec s t ∧ ∀ e, label.2 = .error e → t = s := by
  rcases step_cases (apply_staying s label.1) h with ⟨e, -, rfl⟩ | ⟨value, hvalue, hstays⟩
  · exact ⟨.refl _ _, fun _ _ => rfl⟩
  · exact ⟨hstays, fun e he => nomatch hvalue.symm.trans he⟩

theorem start_wellFormed : start.cred.caps.view.WellFormed where
  effective := subset_rfl
  ambient := by simp [start, CredentialSet.newRoot, newRoot, view]
  inherited := by
    simp [start, CredentialSet.newRoot, newRoot, view]

/-- **What every call keeps**, calls keep. -/
theorem Leads.keeps {P : Task → Prop} (hstep : ∀ a b isExec, P a → Stays isExec a b → P b)
    (h : s.Leads t) (hs : P s) : P t := by
  obtain ⟨path, hpath, rfl⟩ := h
  exact hpath.invariant (fun a label b ha hab => hstep a b label.1.isExec ha (step_spec hab).1) hs

/-- **What is out of reach stays out of reach.** -/
theorem Leads.narrows (h : s.Leads t) : s.cred.caps.view.Narrows t.cred.caps.view := by
  refine h.keeps (P := fun task => s.cred.caps.view.Narrows task.cred.caps.view) ?_
    fun hwf => ⟨hwf, subset_rfl⟩
  intro a b isExec ha hab hwf
  obtain ⟨hwfa, hreach⟩ := ha hwf
  obtain ⟨hwfb, hreach'⟩ := hab.cred.narrows hwfa
  exact ⟨hwfb, hreach'.trans hreach⟩

theorem Leads.wellFormed (h : start.Leads t) : t.cred.caps.view.WellFormed :=
  (h.narrows start_wellFormed).1

/-- **A task without privileges** stays one. -/
theorem Leads.unprivileged (h : s.Leads t) (hwf : s.cred.caps.view.WellFormed)
    (hun : s.Unprivileged) : t.Unprivileged := by
  refine (h.keeps (P := fun task => task.cred.caps.view.WellFormed ∧ task.Unprivileged) ?_
    ⟨hwf, hun⟩).2
  rintro a b isExec ⟨ha, hun⟩ hab
  obtain ⟨huid, hpermitted⟩ := hab.cred.confined (fun _ => hun.noNewPrivs) ha hun.uid hun.permitted
  exact ⟨(hab.cred.narrows ha).1, hab.noNewPrivs hun.noNewPrivs, huid, hpermitted⟩

/-- **Capability sets stay well formed.**  Whatever calls lead to a task from the root credentials,
its effective set is within the permitted one, and its ambient set within the permitted and the
inheritable one.  The next call, whichever it is, keeps locks and what they lock, apart from what a
new program clears, and if it fails it leaves the credentials as they were.

SOURCE: task/api/execve/mod.rs:16-99, task/credentials/api/uid/mod.rs:27-73,
task/credentials/api/cap/capset.rs:76-118, task/credentials/api/prctl/cap.rs:111-240 -/
theorem capability_sets_well_formed (hs : start.Leads s) :
    s.cred.caps.view.WellFormed ∧ ∀ label t, Step s label t →
      LocksKept label.1.isExec s.cred.caps.securebits t.cred.caps.securebits ∧
        ∀ e, label.2 = .error e → t.cred = s.cred := by
  refine ⟨hs.wellFormed, fun label t hstep => ?_⟩
  obtain ⟨hstays, herror⟩ := step_spec hstep
  exact ⟨hstays.cred.locks, fun e he => congrArg Task.cred (herror e he)⟩

/-- The root task locks `KEEP_CAPS` and becomes user 1000. -/
def locked : Task := (start.run (.prctl .setSecurebits ⟨0x30, 0, 0, 0⟩)).2

theorem capability_sets_well_formed_locked :
    (locked.run (.setuid 1000)).2.cred.caps.view.WellFormed :=
  (capability_sets_well_formed ⟨[((.prctl .setSecurebits ⟨0x30, 0, 0, 0⟩, .ok 0), locked),
    ((.setuid 1000, .ok 0), (locked.run (.setuid 1000)).2)], ⟨rfl, rfl, trivial⟩, rfl⟩).1

theorem exec_gainsNothing {file : CredentialSet.ExecFile} {loads : Bool} (hwf : s.cred.caps.view.WellFormed) (hnnp : s.noNewPrivs = true)
    {value : BitVec 64} (h : Step s (.execve file loads, .ok value) t) :
    s.cred.GainsNothing t.cred := by
  rcases step_cases (kernelExecve_outcome s file loads) h with ⟨e, he, -⟩ | ⟨_, -, houtcome, -⟩
  · cases he
  · rw [hnnp] at houtcome
    exact houtcome.gainsNothing hwf

theorem Unprivileged.holds_nothing (h : s.Unprivileged) (hwf : s.cred.caps.view.WellFormed) :
    s.cred.caps.effective = 0 ∧ s.cred.caps.ambient = 0 := by
  have hempty : s.cred.caps.permitted.toSet = ∅ := eq_zero_iff.mp h.permitted
  have hsub : ∀ caps : Capability, caps.toSet ⊆ s.cred.caps.permitted.toSet → caps = 0 :=
    fun caps hcaps => eq_zero_iff.mpr (Set.subset_empty_iff.mp (hempty ▸ hcaps))
  exact ⟨hsub _ hwf.effective, hsub _ hwf.ambient⟩

/-- **Dropped privilege never comes back.**  Let calls lead from the root credentials to a task `s`,
and on to `t`.  A capability out of the reach of `s` is in none of the five sets of `t`.  If `s` has
`no_new_privs`, so does `t`, and a program that `t` starts gains nothing; and if moreover `s` has no
root user id and nothing permitted, `t` holds no capability and no root user id.

SOURCE: task/api/execve/mod.rs:16-99, task/credentials/api/uid/setresuid.rs:15-70,
task/credentials/api/cap/capset.rs:76-118, task/credentials/api/prctl/cap.rs:111-240 -/
theorem dropped_privilege_stays_dropped (hs : start.Leads s) (ht : s.Leads t) :
    (∀ i, i ∉ s.cred.caps.view.reach → i ∉ t.cred.caps.view.mentioned) ∧
      (s.noNewPrivs = true → t.noNewPrivs = true ∧ ∀ file loads value u,
        Step t (.execve file loads, .ok value) u → t.cred.GainsNothing u.cred) ∧
      (s.Unprivileged → t.cred.uid.NonRoot ∧ t.cred.caps.permitted = 0 ∧
        t.cred.caps.effective = 0 ∧ t.cred.caps.ambient = 0) := by
  obtain ⟨hwf, hreach⟩ := ht.narrows hs.wellFormed
  refine ⟨fun i hi => ?_, fun hnnp => ?_, fun hun => ?_⟩
  · rw [hwf.mentioned_eq]
    exact fun hmem => hi (hreach hmem)
  · have hset : t.noNewPrivs = true :=
      ht.keeps (P := fun task => task.noNewPrivs = true) (fun _ _ _ ha hab => hab.noNewPrivs ha) hnnp
    exact ⟨hset, fun file loads value u => exec_gainsNothing hwf hset⟩
  · have hun' := ht.unprivileged hs.wellFormed hun
    exact ⟨hun'.uid, hun'.permitted, hun'.holds_nothing hwf⟩

/-- The root task sets `no_new_privs` and becomes user 1000. -/
def confined : Task := (start.run (.prctl .setNoNewPrivs ⟨1, 0, 0, 0⟩)).2

def dropped : Task := (confined.run (.setuid 1000)).2

/-- It then asks to be root again, and is refused. -/
theorem dropped_privilege_stays_dropped_user :
    dropped.Unprivileged ∧ (dropped.run (.setuid 0)).2.cred.caps.effective = 0 :=
  have hun : dropped.Unprivileged := ⟨by decide, by unfold Ids.NonRoot; decide, by decide⟩
  ⟨hun, ((dropped_privilege_stays_dropped
    ⟨[((.prctl .setNoNewPrivs ⟨1, 0, 0, 0⟩, .ok 0), confined), ((.setuid 1000, .ok 0), dropped)],
      ⟨rfl, rfl, trivial⟩, rfl⟩
    ⟨[((.setuid 0, .error .permissionDenied), (dropped.run (.setuid 0)).2)],
      ⟨rfl, trivial⟩, rfl⟩).2.2 hun).2.2.1⟩

end Task

end Anemone.Credentials
