import Anemone.Interface.LockMap
import Anemone.Model.FcntlLock

/-!
# What a flock record stands for

`Selects start len` is the set of offsets that a start and a signed length stand for, `Accepts`
says which records are requests at all, and `Meant` that a normalised lock has exactly the offsets
of its record.
-/

namespace Anemone.PosixLock

/-- A positive length counts up from the start, a negative one down, and zero has no end. -/
def Selects (start len x : ℤ) : Prop :=
  (0 < len ∧ start ≤ x ∧ x < start + len) ∨ (len < 0 ∧ start + len ≤ x ∧ x < start) ∨
    (len = 0 ∧ start ≤ x)

variable {H : Type}

/-- The record names an operation and a start that is an offset, and a length whose offsets all
are, if it has an end. -/
def Accepts (binding : PosixLockBinding H) (raw : Flock) (allowUnlock : Bool) : Prop :=
  ∃ operation base, lockOperation raw.lType allowUnlock = some operation ∧
    whenceBase binding raw.lWhence = some base ∧
    0 ≤ base + raw.lStart.toInt ∧ base + raw.lStart.toInt ≤ offsetMax ∧
    (raw.lLen.toInt ≠ 0 → ∀ x, Selects (base + raw.lStart.toInt) raw.lLen.toInt x →
      0 ≤ x ∧ x ≤ offsetMax)

/-- The lock has the operation and the offsets of the record, and is open-ended exactly when the
record selects the last offset. -/
def Meant (binding : PosixLockBinding H) (raw : Flock) (allowUnlock : Bool)
    (lock : NormalizedLock) : Prop :=
  ∃ base, lockOperation raw.lType allowUnlock = some lock.operation ∧
    whenceBase binding raw.lWhence = some base ∧
    (∀ x ≤ offsetMax, lock.range.Has x ↔ Selects (base + raw.lStart.toInt) raw.lLen.toInt x) ∧
    (lock.range.endExclusive = none ↔ Selects (base + raw.lStart.toInt) raw.lLen.toInt offsetMax)

/-- What `normalize` may return for a record. -/
def Decides (binding : PosixLockBinding H) (raw : Flock) (allowUnlock : Bool) :
    Except FcntlError NormalizedLock → Prop
  | .error _ => ¬ Accepts binding raw allowUnlock
  | .ok lock => Accepts binding raw allowUnlock ∧ Meant binding raw allowUnlock lock

def Normalized (range : PosixLockRange) : Prop :=
  ∃ (B : Type) (binding : PosixLockBinding B) (raw : Flock) (allowUnlock : Bool)
    (operation : LockOperation),
    normalize binding raw allowUnlock = .ok (.ok ⟨range, operation⟩)

variable [DecidableEq H]

inductive RecordStep : PosixLockDomain H → PosixLockDomain H → Prop
  | set {d d' : PosixLockDomain H} {range : PosixLockRange} (hrange : Normalized range) (owner : H)
      (mode : PosixLockMode) (reportTgid : ℕ) {r : Except PosixLockConflict Unit}
      (h : d.set owner range mode reportTgid = .ok (r, d')) : RecordStep d d'
  | unlock {d d' : PosixLockDomain H} {range : PosixLockRange} (hrange : Normalized range)
      (owner : H) (h : d.unlock owner range = .ok d') : RecordStep d d'
  | retireBinding (d : PosixLockDomain H) (owner : H) : RecordStep d (d.retireBinding owner)

end Anemone.PosixLock
