import Mathlib.Data.Set.Lattice
import Anemone.Model.Credentials

/-!
# Privileges

Credentials are five sets of privileges, of which a task holds some and can reach others.
`Narrows` is what every change of credentials is held to: well-formed sets stay well formed, and
nothing comes into reach.
-/

namespace Anemone.Credentials

structure Privileges where
  permitted : Set ℕ
  effective : Set ℕ
  inheritable : Set ℕ
  bounding : Set ℕ
  ambient : Set ℕ

namespace Privileges

structure WellFormed (p : Privileges) : Prop where
  effective : p.effective ⊆ p.permitted
  ambient : p.ambient ⊆ p.permitted
  inherited : p.ambient ⊆ p.inheritable

def reach (p : Privileges) : Set ℕ := p.permitted ∪ p.inheritable ∪ p.bounding

def mentioned (p : Privileges) : Set ℕ := p.reach ∪ p.effective ∪ p.ambient

def Narrows (p q : Privileges) : Prop := p.WellFormed → q.WellFormed ∧ q.reach ⊆ p.reach

theorem WellFormed.mentioned_eq {p : Privileges} (h : p.WellFormed) : p.mentioned = p.reach := by
  have hpermitted : p.permitted ⊆ p.reach := fun _ hi => .inl (.inl hi)
  rw [mentioned, Set.union_eq_left.mpr (h.effective.trans hpermitted),
    Set.union_eq_left.mpr (h.ambient.trans hpermitted)]

end Privileges

def Capability.toSet (caps : Capability) : Set ℕ := { i | caps.getLsbD i = true }

def CredCapabilities.view (caps : CredCapabilities) : Privileges where
  permitted := caps.permitted.toSet
  effective := caps.effective.toSet
  inheritable := caps.inheritable.toSet
  bounding := caps.bounding.toSet
  ambient := caps.ambient.toSet

/-- Lock bits stay, and so do the bits that they lock.  The bit of `KEEP_CAPS` is the exception:
a new program clears it. -/
def LocksKept (isExec : Bool) (old new : SecureBits) : Prop :=
  ∀ base ∈ [0, 2, 4, 6], old.getLsbD (base + 1) = true → new.getLsbD (base + 1) = true ∧
      (new.getLsbD base = old.getLsbD base ∨ isExec = true ∧ base = 4 ∧ new.getLsbD base = false)

def Ids.NonRoot (ids : Ids) : Prop :=
  ids.real ≠ .root ∧ ids.effective ≠ .root ∧ ids.saved ≠ .root ∧ ids.fs ≠ .root

def Task.Op.isExec : Task.Op → Bool
  | .execve _ _ => true
  | _ => false

/-- Some calls of one task lead from `s` to `t`. -/
def Task.Leads (s t : Task) : Prop := ∃ path, Run.Path Task.Step s path ∧ Run.last s path = t

/-- No privilege, and no way to one. -/
structure Task.Unprivileged (task : Task) : Prop where
  noNewPrivs : task.noNewPrivs = true
  uid : task.cred.uid.NonRoot
  permitted : task.cred.caps.permitted = 0

/-- A program that is started without new privileges. -/
structure CredentialSet.GainsNothing (old new : CredentialSet) : Prop where
  uid : new.uid.effective = old.uid.effective ∧ new.uid.saved = old.uid.effective ∧
    new.uid.fs = old.uid.effective
  gid : new.gid.effective = old.gid.effective ∧ new.gid.saved = old.gid.effective ∧
    new.gid.fs = old.gid.effective
  permitted : new.caps.view.permitted ⊆ old.caps.view.permitted

end Anemone.Credentials
