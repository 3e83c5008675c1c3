import Anemone.Model.PosixLock

/-!
# Record locks through `fcntl`

The adapter of src/fs/api/fcntl/posix_lock.rs.  The record's fields have the widths of the ABI;
the source reads and writes them at their offsets in a buffer of 32 bytes, and computes in 128
bits, which no sum of three 64-bit numbers leaves.
-/

namespace Anemone.PosixLock

inductive FcntlError where
  | invalidArgument
  | overflow
  | badFileDescriptor
deriving DecidableEq, Repr

structure Flock where
  lType : Int16
  lWhence : Int16
  lStart : Int64
  lLen : Int64
  lPid : Int32
deriving DecidableEq

/-- What the adapter asks its binding for. -/
structure PosixLockBinding (H : Type) where
  holder : H
  position : UInt64
  inodeSize : UInt64
  isPathOnly : Bool
  isRegular : Bool
  isLive : Bool

inductive LockOperation where
  | read
  | write
  | unlock
deriving DecidableEq, Repr

def LockOperation.mode : LockOperation → Option PosixLockMode
  | read => some .read
  | write => some .write
  | unlock => none

structure NormalizedLock where
  range : PosixLockRange
  operation : LockOperation
deriving DecidableEq

def F_RDLCK : Int16 := 0
def F_WRLCK : Int16 := 1
def F_UNLCK : Int16 := 2

def SEEK_SET : Int16 := 0
def SEEK_CUR : Int16 := 1
def SEEK_END : Int16 := 2

/-- `i64::MAX`. -/
def offsetMax : ℕ := 2 ^ 63 - 1

variable {H : Type}

/-- The first match of `normalize`. -/
def lockOperation (lType : Int16) (allowUnlock : Bool) : Option LockOperation :=
  if lType = F_RDLCK then some .read
  else if lType = F_WRLCK then some .write
  else if lType = F_UNLCK ∧ allowUnlock = true then some .unlock
  else none

/-- The second match of `normalize`. -/
def whenceBase (binding : PosixLockBinding H) (lWhence : Int16) : Option ℤ :=
  if lWhence = SEEK_SET then some 0
  else if lWhence = SEEK_CUR then some binding.position.toNat
  else if lWhence = SEEK_END then some binding.inodeSize.toNat
  else none

/-- The third match of `normalize`. -/
def lockRange (start len : ℤ) : Checked (Except FcntlError PosixLockRange) :=
  if 0 < len then
    if offsetMax + 1 < start + len then pure (.error .overflow)
    else if start + len = offsetMax + 1 then pure (.ok (.openEnded start.toNat))
    else .ok <$> PosixLockRange.finite start.toNat (start + len).toNat
  else if len < 0 then
    if start + len < 0 then pure (.error .invalidArgument)
    else .ok <$> PosixLockRange.finite (start + len).toNat start.toNat
  else pure (.ok (.openEnded start.toNat))

def normalize (binding : PosixLockBinding H) (raw : Flock) (allowUnlock : Bool) :
    Checked (Except FcntlError NormalizedLock) :=
  match lockOperation raw.lType allowUnlock with
  | none => pure (.error .invalidArgument)
  | some operation =>
    match whenceBase binding raw.lWhence with
    | none => pure (.error .invalidArgument)
    | some base =>
      let start := base + raw.lStart.toInt
      if start < 0 then pure (.error .invalidArgument)
      else if offsetMax < start then pure (.error .overflow)
      else do
        let range ← lockRange start raw.lLen.toInt
        pure (range.map fun range => ⟨range, operation⟩)

end Anemone.PosixLock
