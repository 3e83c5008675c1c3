import Anemone.Library.Checked
import Anemone.Library.InPlace

/-!
# The credentials of a task

Ids, capability sets and securebits (task/credentials), the calls that change them, and the
credentials of a new program (task/api/execve/mod.rs).  A call changes the credentials in place,
and what it has written when it fails stays written.
-/

namespace Anemone.Credentials

open InPlace

inductive SysError where
  | permissionDenied
  | invalidArgument
  | notYetImplemented
  /-- An error of a part that is not modelled, such as reading the file of a program. -/
  | elsewhere
deriving DecidableEq, Repr

/-- A change in place. -/
abbrev Update (σ : Type) := EStateM SysError σ

/-! ## Flags (task/credentials/cap.rs) -/

abbrev Capability := BitVec 64

namespace Capability

/-- `1u64 << number` -/
def bit (number : ℕ) : Capability := BitVec.twoPow 64 number

def setgid : Capability := bit 6
def setuid : Capability := bit 7
def setpcap : Capability := bit 8

def fsCaps : Capability := bit 0 ||| bit 1 ||| bit 2 ||| bit 3 ||| bit 4

def implemented : Capability :=
  [0, 1, 2, 3, 4, 5, 6, 7, 8, 13, 14, 15, 16, 18, 21, 22, 23, 24, 25, 27].foldl
    (fun caps number => caps ||| bit number) 0

/-- `self & other == other` -/
def contains (caps other : Capability) : Bool := caps &&& other == other

/-- `self - other` -/
def difference (caps other : Capability) : Capability := caps &&& ~~~other

def lastCap : ℕ := 40

def validMask : Capability := bit (lastCap + 1) - 1

def fromNumber (raw : ℕ) : Except SysError Capability :=
  if lastCap < raw then .error .invalidArgument
  else if implemented.contains (bit raw) = true then .ok (bit raw)
  else .error .notYetImplemented

end Capability

abbrev SecureBits := BitVec 32

namespace SecureBits

def noroot : SecureBits := 0x01
def noSetuidFixup : SecureBits := 0x04
def keepCaps : SecureBits := 0x10
def keepCapsLocked : SecureBits := 0x20
def noCapAmbientRaise : SecureBits := 0x40
def locks : SecureBits := 0xaa
def all : SecureBits := 0xff

/-- `self & other == other` -/
def contains (bits other : SecureBits) : Bool := bits &&& other == other

def fromNumber (raw : SecureBits) : Except SysError SecureBits :=
  if raw &&& ~~~all = 0 then .ok raw else .error .invalidArgument

end SecureBits

/-! ## Credentials (task/credentials/mod.rs, cap.rs, id.rs) -/

structure FileCapabilities where
  permitted : Capability
  effective : Bool
  inheritable : Capability
deriving DecidableEq

def FileCapabilities.empty : FileCapabilities := ⟨0, false, 0⟩

def FileCapabilities.isEmpty (caps : FileCapabilities) : Bool :=
  caps.permitted == 0 && !caps.effective && caps.inheritable == 0

structure CredCapabilities where
  permitted : Capability
  effective : Capability
  inheritable : Capability
  bounding : Capability
  ambient : Capability
  securebits : SecureBits
deriving DecidableEq

def CredCapabilities.newRoot : CredCapabilities where
  permitted := .implemented
  effective := .implemented
  bounding := .implemented
  inheritable := 0
  ambient := 0
  securebits := 0

/-- A user or a group. -/
abbrev Id := BitVec 32

def Id.root : Id := 0

structure Ids where
  real : Id
  effective : Id
  saved : Id
  fs : Id
deriving DecidableEq

namespace Ids

variable (ids : Ids)

def matchesAnyRes (id : Id) : Bool := ids.real == id || ids.effective == id || ids.saved == id

/-! Changes of ids, by a caller with or without the capability for it, with whether ids were
written.  A target without an id is not changed. -/

def replace (ids : Ids) : Update Ids Bool := modifyGet fun _ => (true, ids)

def set (capable : Bool) (id : Id) : Update Ids Bool := do
  let ids ← get
  if capable = true then replace ⟨id, id, id, id⟩
  else if id = ids.real ∨ id = ids.saved then replace { ids with effective := id, fs := id }
  else throw .permissionDenied

def setRe (capable : Bool) (real effective : Option Id) : Update Ids Bool := do
  let ids ← get
  if (∃ id ∈ real, id ≠ ids.real ∧ id ≠ ids.effective) ∧ capable = false then
    throw .permissionDenied
  else if (∃ id ∈ effective, ids.matchesAnyRes id = false) ∧ capable = false then
    throw .permissionDenied
  else
    let updatesSaved := real.isSome || effective.any (· != ids.real)
    let new := { ids with
      real := real.getD ids.real
      effective := effective.getD ids.effective }
    replace { new with
      saved := if updatesSaved = true then new.effective else new.saved
      fs := new.effective }

def setRes (capable : Bool) (real effective saved : Option Id) : Update Ids Bool := do
  let ids ← get
  let isNew := fun id => !ids.matchesAnyRes id
  if (real.any isNew || effective.any isNew || saved.any isNew) = true ∧ capable = false then
    throw .permissionDenied
  else if real.all (· == ids.real) && effective.all (· == ids.effective) &&
      saved.all (· == ids.saved) && ids.fs == effective.getD ids.effective then pure false
  else
    replace ⟨real.getD ids.real, effective.getD ids.effective, saved.getD ids.saved,
      effective.getD ids.effective⟩

def setFs (capable : Bool) (id : Id) : Ids :=
  if ids.matchesAnyRes id = true ∨ id = ids.fs ∨ capable = true then { ids with fs := id } else ids

end Ids

structure CredentialSet where
  uid : Ids
  gid : Ids
  caps : CredCapabilities
deriving DecidableEq

def CredentialSet.newRoot : CredentialSet :=
  ⟨⟨.root, .root, .root, .root⟩, ⟨.root, .root, .root, .root⟩, .newRoot⟩

namespace CredentialSet

variable (cred : CredentialSet)

def hasCapEffective (cap : Capability) : Bool := cred.caps.effective.contains cap

/-! ## Ids (task/credentials/api/uid, api/gid) -/

def leaveRoot (oldUid : Ids) : CredCapabilities :=
  let caps := cred.caps
  if oldUid.matchesAnyRes .root = true ∧ cred.uid.matchesAnyRes .root = false then
    if caps.securebits.contains .keepCaps = true then { caps with ambient := 0 }
    else { caps with permitted := 0, effective := 0, ambient := 0 }
  else caps

def updateCapsByUid (oldUid : Ids) : CredCapabilities :=
  if cred.caps.securebits.contains .noSetuidFixup = true then cred.caps
  else
    let caps := cred.leaveRoot oldUid
    if oldUid.effective = .root ∧ cred.uid.effective ≠ .root then { caps with effective := 0 }
    else if oldUid.effective ≠ .root ∧ cred.uid.effective = .root then
      { caps with effective := caps.permitted }
    else caps

def updateCapsByFsuid (oldFsuid : Id) : CredCapabilities :=
  let caps := cred.caps
  if caps.securebits.contains .noSetuidFixup = true then caps
  else if oldFsuid = .root ∧ cred.uid.fs ≠ .root then
    { caps with effective := caps.effective.difference .fsCaps }
  else if oldFsuid ≠ .root ∧ cred.uid.fs = .root then
    { caps with effective := caps.effective ||| (caps.permitted &&& .fsCaps) }
  else caps

def fixFsuid (oldFsuid : Id) : CredentialSet :=
  if cred.uid.fs ≠ oldFsuid then { cred with caps := cred.updateCapsByFsuid oldFsuid } else cred

/-- The capabilities that new user ids leave. -/
def fixCaps (oldUid : Ids) : CredentialSet :=
  { cred with caps := cred.updateCapsByUid oldUid }.fixFsuid oldUid.fs

def changeUid (change : Update Ids Bool) : Update CredentialSet Unit := do
  let old ← get
  if ← within CredentialSet.uid (fun cred uid => { cred with uid := uid }) change then
    modify fun cred => cred.fixCaps old.uid

def sysSetuid (uid : Id) : Update CredentialSet Unit := do
  let cred ← get
  changeUid (Ids.set (cred.hasCapEffective .setuid) uid)

def sysSetreuid (ruid euid : Option Id) : Update CredentialSet Unit := do
  let cred ← get
  changeUid (Ids.setRe (cred.hasCapEffective .setuid) ruid euid)

def sysSetresuid (ruid euid suid : Option Id) : Update CredentialSet Unit := do
  let cred ← get
  changeUid (Ids.setRes (cred.hasCapEffective .setuid) ruid euid suid)

def sysSetfsuid : Option Id → CredentialSet
  | none => cred
  | some uid =>
    { cred with uid := cred.uid.setFs (cred.hasCapEffective .setuid) uid }.fixFsuid cred.uid.fs

def changeGid (change : Update Ids Bool) : Update CredentialSet Unit := do
  let _ ← within CredentialSet.gid (fun cred gid => { cred with gid := gid }) change

def sysSetgid (gid : Id) : Update CredentialSet Unit := do
  let cred ← get
  changeGid (Ids.set (cred.hasCapEffective .setgid) gid)

def sysSetregid (rgid egid : Option Id) : Update CredentialSet Unit := do
  let cred ← get
  changeGid (Ids.setRe (cred.hasCapEffective .setgid) rgid egid)

def sysSetresgid (rgid egid sgid : Option Id) : Update CredentialSet Unit := do
  let cred ← get
  changeGid (Ids.setRes (cred.hasCapEffective .setgid) rgid egid sgid)

def sysSetfsgid : Option Id → CredentialSet
  | none => cred
  | some gid => { cred with gid := cred.gid.setFs (cred.hasCapEffective .setgid) gid }

/-! ## Capability sets (task/credentials/api/cap, api/prctl/cap.rs) -/

/-- The three sets of a request, as words of 32 bits, low word first. -/
structure UserCapData where
  effective : BitVec 32
  permitted : BitVec 32
  inheritable : BitVec 32
deriving DecidableEq

def capabilityFromUserWords (low high : BitVec 32) : Except SysError Capability :=
  let raw : Capability := (high ++ low) &&& Capability.validMask
  (List.range (Capability.lastCap + 1)).foldlM (fun caps cap =>
    if raw.getLsbD cap = true then (caps ||| ·) <$> Capability.fromNumber cap else .ok caps) 0

def replaceCaps (effective permitted inheritable : Capability) : Update CredentialSet Unit := do
  let cred ← get
  let old := cred.caps
  if old.effective.contains .setpcap = false ∧
      (old.permitted ||| old.inheritable).contains inheritable = false then
    throw .permissionDenied
  else if (old.bounding ||| old.inheritable).contains inheritable = false then
    throw .permissionDenied
  else if old.permitted.contains permitted = false then throw .permissionDenied
  else if permitted.contains effective = false then throw .permissionDenied
  else
    modify fun cred => { cred with caps := { cred.caps with
      effective := effective
      permitted := permitted
      inheritable := inheritable
      ambient := old.ambient &&& permitted &&& inheritable } }

/-- The request is read from user memory: its one or two blocks of words, or why that fails. -/
def sysCapset (request : Except SysError (UserCapData × Option UserCapData)) :
    Update CredentialSet Unit := do
  let words ← ofExcept request
  let low := words.1
  let high := words.2.getD ⟨0, 0, 0⟩
  let effective ← ofExcept (capabilityFromUserWords low.effective high.effective)
  let permitted ← ofExcept (capabilityFromUserWords low.permitted high.permitted)
  let inheritable ← ofExcept (capabilityFromUserWords low.inheritable high.inheritable)
  replaceCaps effective permitted inheritable

def withCaps (caps : CredCapabilities) : CredentialSet := { cred with caps := caps }

def prctlCapbsetDrop (cap : Capability) : Update CredentialSet Unit := do
  let cred ← get
  if cred.hasCapEffective .setpcap = false then throw .permissionDenied
  else
    modify fun cred =>
      let bounding := cred.caps.bounding.difference cap
      cred.withCaps
        { cred.caps with bounding := bounding, ambient := cred.caps.ambient &&& bounding }

def prctlSetSecurebits (securebits : SecureBits) : Update CredentialSet Unit := do
  let cred ← get
  let old := cred.caps.securebits
  let lockedBaseBits := (old &&& .locks) >>> 1
  if lockedBaseBits &&& (old ^^^ securebits) ≠ 0 ∨ old &&& .locks &&& ~~~securebits ≠ 0 ∨
      cred.caps.effective.contains .setpcap = false then throw .permissionDenied
  else modify fun cred => cred.withCaps { cred.caps with securebits := securebits }

def prctlSetKeepcaps (enabled : Bool) : Update CredentialSet Unit := do
  let cred ← get
  let old := cred.caps.securebits
  if old.contains .keepCapsLocked = true then throw .permissionDenied
  else modify fun cred => cred.withCaps { cred.caps with
    securebits := if enabled = true then old ||| .keepCaps else old &&& ~~~.keepCaps }

inductive AmbientCommand where
  | clearAll
  | isSet (cap : Capability)
  | raise (cap : Capability)
  | lower (cap : Capability)

/-- A change of the ambient set in place, which answers 0. -/
def setAmbient (change : CredCapabilities → Capability) : Update CredentialSet (BitVec 64) :=
  modifyGet fun cred => (0, cred.withCaps { cred.caps with ambient := change cred.caps })

def prctlCapAmbient : AmbientCommand → Update CredentialSet (BitVec 64)
  | .clearAll => setAmbient fun _ => 0
  | .isSet cap => do
    let cred ← get
    pure ((BitVec.ofBool (cred.caps.ambient.contains cap)).setWidth 64)
  | .raise cap => do
    let cred ← get
    if cred.caps.permitted.contains cap = false ∨ cred.caps.inheritable.contains cap = false ∨
        cred.caps.securebits.contains .noCapAmbientRaise = true then throw .permissionDenied
    else setAmbient fun caps => caps.ambient ||| cap
  | .lower cap => setAmbient fun caps => caps.ambient.difference cap

/-! ## Programs (task/api/execve/mod.rs) -/

/-- What a program file decides about credentials. -/
structure ExecFile where
  isuid : Bool
  isgid : Bool
  ixgrp : Bool
  uid : Id
  gid : Id
  caps : FileCapabilities

def setIds (file : ExecFile) (noNewPrivs : Bool) : CredentialSet :=
  if noNewPrivs = true then cred
  else
    { cred with
      uid := if file.isuid = true then { cred.uid with effective := file.uid } else cred.uid
      gid := if file.isgid = true ∧ file.ixgrp = true then
        { cred.gid with effective := file.gid } else cred.gid }

def computeExecCredentials (file : ExecFile) (noNewPrivs : Bool) :
    Except SysError (CredentialSet × Bool) :=
  let old := cred.caps
  let fileCaps := if noNewPrivs = true then .empty else file.caps
  let hasFileCaps := !fileCaps.isEmpty
  let new := cred.setIds file noNewPrivs
  let isSetid := new.uid.effective != cred.uid.real || new.gid.effective != cred.gid.real
  let rootExec := new.uid.real == .root || new.uid.effective == .root
  let setuidRoot := new.uid.real != .root && new.uid.effective == .root
  let permitted := (old.bounding &&& fileCaps.permitted) |||
    (old.inheritable &&& fileCaps.inheritable)
  if fileCaps.effective = true ∧ fileCaps.permitted.difference permitted ≠ 0 then
    .error .permissionDenied
  else
    let asRoot := !old.securebits.contains .noroot && rootExec && !(hasFileCaps && setuidRoot)
    let permitted := if asRoot = true then old.bounding ||| old.inheritable else permitted
    let fileEffective := fileCaps.effective || (asRoot && new.uid.effective == .root)
    let permitted := if noNewPrivs = true then permitted &&& old.permitted else permitted
    let ambient := if (hasFileCaps || isSetid) = true then 0 else old.ambient
    let permitted := permitted ||| ambient
    .ok ({
      uid := { new.uid with saved := new.uid.effective, fs := new.uid.effective }
      gid := { new.gid with saved := new.gid.effective, fs := new.gid.effective }
      caps := { old with
        ambient := ambient
        permitted := permitted
        effective := if fileEffective = true then permitted else ambient
        securebits := old.securebits &&& ~~~.keepCaps } },
      isSetid || (new.uid.real != .root && (fileEffective || !ambient.contains permitted)))

end CredentialSet

/-! ## The calls of a task (task/credentials/api/prctl/mod.rs, task/api/execve/kernel.rs) -/

structure Task where
  cred : CredentialSet
  noNewPrivs : Bool
deriving DecidableEq

inductive PrctlOption where
  | getKeepcaps
  | setKeepcaps
  | capbsetRead
  | capbsetDrop
  | getSecurebits
  | setSecurebits
  | setNoNewPrivs
  | getNoNewPrivs
  | capAmbient
  | other
deriving DecidableEq

structure PrctlArgs where
  arg2 : BitVec 64
  arg3 : BitVec 64
  arg4 : BitVec 64
  arg5 : BitVec 64

def capFromPrctlArg (raw : BitVec 64) : Except SysError Capability :=
  Capability.fromNumber (raw.setWidth 32).toNat

def parseBoolArg (args : PrctlArgs) : Except SysError Bool :=
  if args.arg2 = 0 then .ok false
  else if args.arg2 = 1 then .ok true
  else .error .invalidArgument

def parseSecurebits (args : PrctlArgs) : Except SysError SecureBits :=
  SecureBits.fromNumber (args.arg2.setWidth 32)

def parseAmbientCommand (args : PrctlArgs) : Except SysError CredentialSet.AmbientCommand :=
  let op := (args.arg2.setWidth 32).toNat
  if op = 4 then
    if args.arg3 ||| args.arg4 ||| args.arg5 ≠ 0 then .error .invalidArgument else .ok .clearAll
  else if op = 1 ∨ op = 2 ∨ op = 3 then
    if args.arg4 ||| args.arg5 ≠ 0 then .error .invalidArgument
    else
      (if op = 1 then .isSet else if op = 2 then .raise else .lower) <$> capFromPrctlArg args.arg3
  else .error .invalidArgument

namespace Task

def updateCredWith {α : Type} (change : Update CredentialSet α) : Update Task α :=
  within Task.cred (fun task cred => { task with cred := cred }) change

/-- `update_cred_with(change)?; Ok(0)` -/
def changeCred (change : Update CredentialSet Unit) : Update Task (BitVec 64) := do
  updateCredWith change
  pure 0

def dispatchPrctl (args : PrctlArgs) : PrctlOption → Update Task (BitVec 64)
  | .capbsetRead => do
    let cap ← ofExcept (capFromPrctlArg args.arg2)
    let task ← get
    pure ((BitVec.ofBool (task.cred.caps.bounding.contains cap)).setWidth 64)
  | .capbsetDrop => do
    let cap ← ofExcept (capFromPrctlArg args.arg2)
    changeCred (CredentialSet.prctlCapbsetDrop cap)
  | .getNoNewPrivs => do
    let task ← get
    if args.arg2 ||| args.arg3 ||| args.arg4 ||| args.arg5 ≠ 0 then throw .invalidArgument
    else pure ((BitVec.ofBool task.noNewPrivs).setWidth 64)
  | .setNoNewPrivs =>
    if args.arg2 ≠ 1 ∨ args.arg3 ||| args.arg4 ||| args.arg5 ≠ 0 then throw .invalidArgument
    else modifyGet fun task => (0, { task with noNewPrivs := true })
  | .getSecurebits => do
    let task ← get
    pure (task.cred.caps.securebits.setWidth 64)
  | .setSecurebits => do
    let securebits ← ofExcept (parseSecurebits args)
    changeCred (CredentialSet.prctlSetSecurebits securebits)
  | .getKeepcaps => do
    let task ← get
    pure ((BitVec.ofBool (task.cred.caps.securebits.contains .keepCaps)).setWidth 64)
  | .setKeepcaps => do
    let enabled ← ofExcept (parseBoolArg args)
    changeCred (CredentialSet.prctlSetKeepcaps enabled)
  | .capAmbient => do
    let command ← ofExcept (parseAmbientCommand args)
    updateCredWith (CredentialSet.prctlCapAmbient command)
  | .other => throw .notYetImplemented

/-- A program is loaded, unless that fails in a part that is not modelled; its credentials replace
those of the task last. -/
def kernelExecve (file : CredentialSet.ExecFile) (loads : Bool) : Update Task (BitVec 64) := do
  let task ← get
  let new ← ofExcept (task.cred.computeExecCredentials file task.noNewPrivs)
  if loads = true then modifyGet fun task => (0, { task with cred := new.1 })
  else throw .elsewhere

inductive Op where
  | setuid (uid : Id)
  | setreuid (ruid euid : Option Id)
  | setresuid (ruid euid suid : Option Id)
  | setfsuid (uid : Option Id)
  | setgid (gid : Id)
  | setregid (rgid egid : Option Id)
  | setresgid (rgid egid sgid : Option Id)
  | setfsgid (gid : Option Id)
  | capset (request : Except SysError
      (CredentialSet.UserCapData × Option CredentialSet.UserCapData))
  | prctl (option : PrctlOption) (args : PrctlArgs)
  | execve (file : CredentialSet.ExecFile) (loads : Bool)

def apply : Op → Update Task (BitVec 64)
  | .setuid uid => changeCred (CredentialSet.sysSetuid uid)
  | .setreuid ruid euid => changeCred (CredentialSet.sysSetreuid ruid euid)
  | .setresuid ruid euid suid => changeCred (CredentialSet.sysSetresuid ruid euid suid)
  | .setfsuid uid => modifyGet fun task =>
    (task.cred.uid.fs.setWidth 64, { task with cred := task.cred.sysSetfsuid uid })
  | .setgid gid => changeCred (CredentialSet.sysSetgid gid)
  | .setregid rgid egid => changeCred (CredentialSet.sysSetregid rgid egid)
  | .setresgid rgid egid sgid => changeCred (CredentialSet.sysSetresgid rgid egid sgid)
  | .setfsgid gid => modifyGet fun task =>
    (task.cred.gid.fs.setWidth 64, { task with cred := task.cred.sysSetfsgid gid })
  | .capset request => changeCred (CredentialSet.sysCapset request)
  | .prctl option args => dispatchPrctl args option
  | .execve file loads => kernelExecve file loads

/-- One call: what it returns, and the task as the call leaves it. -/
def run (task : Task) (op : Op) : Except SysError (BitVec 64) × Task :=
  match apply op task with
  | .error e task => (.error e, task)
  | .ok value task => (.ok value, task)

def Step (s : Task) (label : Op × Except SysError (BitVec 64)) (t : Task) : Prop :=
  s.run label.1 = (label.2, t)

def start : Task := ⟨.newRoot, false⟩

end Task

end Anemone.Credentials
