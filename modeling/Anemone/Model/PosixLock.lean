import Anemone.Library.Checked

/-!
# POSIX record locks of one inode

`PosixLockDomain` (src/fs/lock/posix.rs) keeps every granted lock of an inode in one vector of
segments.  A request cuts its holder's segments, adds the new one, and sorts and merges the
holder's part of the vector again.  Offsets are compared and never computed with, so they are
natural numbers; that a range has an offset is part of its type.
-/

namespace Anemone.PosixLock

open Checked (assert)

structure PosixLockRange where
  start : ℕ
  endExclusive : Option ℕ
  nonempty : ∀ e ∈ endExclusive, start < e
deriving DecidableEq

namespace PosixLockRange

def finite (start endExclusive : ℕ) : Checked PosixLockRange :=
  if h : start < endExclusive then .ok ⟨start, some endExclusive, fun _ he => by cases he; exact h⟩
  else .error ⟨"POSIX lock range must be nonempty"⟩

def openEnded (start : ℕ) : PosixLockRange := ⟨start, none, nofun⟩

/-- `end_exclusive.is_none_or(|end| start < end)`. -/
def startsBeforeEnd (start : ℕ) : Option ℕ → Bool
  | none => true
  | some e => start < e

def overlaps (self other : PosixLockRange) : Bool :=
  startsBeforeEnd self.start other.endExclusive && startsBeforeEnd other.start self.endExclusive

/-- The body of `touches_or_overlaps`, without its assertion. -/
def reaches (self next : PosixLockRange) : Bool :=
  match self.endExclusive with
  | none => true
  | some e => next.start ≤ e

def touchesOrOverlaps (self next : PosixLockRange) : Checked Bool := do
  assert (self.start ≤ next.start) "assertion failed: self.start <= next.start"
  pure (self.reaches next)

def laterEnd : Option ℕ → Option ℕ → Option ℕ
  | none, _ => none
  | _, none => none
  | some left, some right => some (max left right)

theorem lt_laterEnd (self next : PosixLockRange) :
    ∀ e ∈ laterEnd self.endExclusive next.endExclusive, self.start < e := by
  intro e he
  have hself := self.nonempty
  cases hs : self.endExclusive with
  | none => simp [hs, laterEnd] at he
  | some a =>
    cases hn : next.endExclusive with
    | none => simp [hs, hn, laterEnd] at he
    | some b =>
      simp only [hs, hn, laterEnd, Option.mem_def, Option.some.injEq] at he
      have := hself a hs
      omega

def merge (self next : PosixLockRange) : Checked PosixLockRange := do
  let touch ← self.touchesOrOverlaps next
  assert (touch = true) "assertion failed: self.touches_or_overlaps(next)"
  pure ⟨self.start, laterEnd self.endExclusive next.endExclusive, self.lt_laterEnd next⟩

/-- The prefix of `outside_parts`. -/
def partBefore (self assigned : PosixLockRange) : Checked (Option PosixLockRange) :=
  if self.start < assigned.start then some <$> finite self.start assigned.start else pure none

/-- The suffix of `outside_parts`. -/
def partBehind (self assigned : PosixLockRange) : Checked (Option PosixLockRange) :=
  match assigned.endExclusive, self.endExclusive with
  | none, _ => pure none
  | some assignedEnd, none => pure (some (openEnded assignedEnd))
  | some assignedEnd, some e =>
    if assignedEnd < e then some <$> finite assignedEnd e else pure none

def outsideParts (self assigned : PosixLockRange) :
    Checked (Option PosixLockRange × Option PosixLockRange) := do
  assert (self.overlaps assigned = true) "assertion failed: self.overlaps(assigned)"
  let before ← self.partBefore assigned
  let behind ← self.partBehind assigned
  pure (before, behind)

/-- The order of the ends: an open end is last. -/
def cmpEnd : Option ℕ → Option ℕ → Ordering
  | some left, some right => compare left right
  | some _, none => .lt
  | none, some _ => .gt
  | none, none => .eq

def cmp (self other : PosixLockRange) : Ordering :=
  (compare self.start other.start).then (cmpEnd self.endExclusive other.endExclusive)

end PosixLockRange

inductive PosixLockMode where
  | read
  | write
deriving DecidableEq, Repr

def PosixLockMode.conflictsWith (self requested : PosixLockMode) : Bool :=
  self = .write || requested = .write

structure PosixLockSegment (H : Type) where
  owner : H
  range : PosixLockRange
  mode : PosixLockMode
  reportTgid : ℕ
deriving DecidableEq

structure PosixLockConflict where
  range : PosixLockRange
  mode : PosixLockMode
  reportTgid : ℕ
deriving DecidableEq

/-- The segments of an inode. -/
abbrev PosixLockDomain (H : Type) : Type := List (PosixLockSegment H)

namespace PosixLockDomain

variable {H : Type} [DecidableEq H]

def conflict (segment : PosixLockSegment H) : PosixLockConflict :=
  ⟨segment.range, segment.mode, segment.reportTgid⟩

def findConflict (segments : PosixLockDomain H) (owner : H) (range : PosixLockRange)
    (mode : PosixLockMode) : Option PosixLockConflict :=
  (segments.find? fun segment => segment.owner ≠ owner && segment.range.overlaps range &&
    segment.mode.conflictsWith mode).map conflict

/-- The order of `sort_by(|left, right| left.range.cmp(right.range))`. -/
def NotAfter (left right : PosixLockSegment H) : Prop := left.range.cmp right.range ≠ .gt

instance : DecidableRel (NotAfter (H := H)) := fun _ _ => inferInstanceAs (Decidable (_ ≠ _))

def sortByRange (segments : PosixLockDomain H) : PosixLockDomain H :=
  segments.insertionSort NotAfter

/-- `previous.mode == segment.mode && previous.range.touches_or_overlaps(segment.range)`. -/
def mergeable (previous segment : PosixLockSegment H) : Checked Bool :=
  if previous.mode = segment.mode then previous.range.touchesOrOverlaps segment.range
  else pure false

/-- One turn of the loop of `canonicalize_owner`.  The canonical segments are kept in reverse,
so that `last_mut` is the head. -/
def canonicalizeStep (canonical : PosixLockDomain H) (segment : PosixLockSegment H) :
    Checked (PosixLockDomain H) :=
  match canonical with
  | [] => pure [segment]
  | previous :: rest => do
    assert (previous.owner = segment.owner)
      "assertion failed: previous.owner.same_identity(&segment.owner)"
    assert (previous.range.overlaps segment.range = true → previous.mode = segment.mode)
      "same POSIX lock owner has overlapping modes"
    let merge ← mergeable previous segment
    if merge = true then do
      let range ← previous.range.merge segment.range
      pure ({ previous with range := range } :: rest)
    else pure (segment :: previous :: rest)

def canonicalizeOwner (segments : PosixLockDomain H) : Checked (PosixLockDomain H) := do
  let canonical ← (sortByRange segments).foldlM canonicalizeStep []
  pure canonical.reverse

/-- The loop of `rebuild_assignment`: the segments of the other holders, and what is left of
the owner's. -/
def splitOwner (owner : H) (assigned : PosixLockRange) :
    PosixLockDomain H → Checked (PosixLockDomain H × PosixLockDomain H)
  | [] => pure ([], [])
  | segment :: segments => do
    if segment.owner ≠ owner then
      let (others, owned) ← splitOwner owner assigned segments
      pure (segment :: others, owned)
    else if segment.range.overlaps assigned = false then
      let (others, owned) ← splitOwner owner assigned segments
      pure (others, segment :: owned)
    else
      let (left, right) ← segment.range.outsideParts assigned
      let (others, owned) ← splitOwner owner assigned segments
      let part range : PosixLockSegment H := ⟨owner, range, segment.mode, segment.reportTgid⟩
      pure (others, left.toList.map part ++ right.toList.map part ++ owned)

def rebuildAssignment (segments : PosixLockDomain H) (owner : H) (assigned : PosixLockRange)
    (replacement : Option (PosixLockMode × ℕ)) : Checked (PosixLockDomain H) := do
  let (others, owned) ← splitOwner owner assigned segments
  let owned := owned ++ replacement.toList.map fun r => ⟨owner, assigned, r.1, r.2⟩
  let canonical ← canonicalizeOwner owned
  pure (sortByRange (others ++ canonical))

def query (segments : PosixLockDomain H) (owner : H) (range : PosixLockRange)
    (mode : PosixLockMode) : Option PosixLockConflict :=
  findConflict segments owner range mode

def set (segments : PosixLockDomain H) (owner : H) (range : PosixLockRange)
    (mode : PosixLockMode) (reportTgid : ℕ) :
    Checked (Except PosixLockConflict Unit × PosixLockDomain H) :=
  match findConflict segments owner range mode with
  | some conflict => pure (.error conflict, segments)
  | none => do
    let replacement ← rebuildAssignment segments owner range (some (mode, reportTgid))
    pure (.ok (), replacement)

def unlock (segments : PosixLockDomain H) (owner : H) (range : PosixLockRange) :
    Checked (PosixLockDomain H) :=
  if segments.any fun segment => segment.owner = owner && segment.range.overlaps range then
    rebuildAssignment segments owner range none
  else pure segments

def retireBinding (segments : PosixLockDomain H) (owner : H) : PosixLockDomain H :=
  segments.filter fun segment => segment.owner ≠ owner

inductive Step : PosixLockDomain H → PosixLockDomain H → Prop
  | set (d : PosixLockDomain H) (owner : H) (range : PosixLockRange) (mode : PosixLockMode)
      (reportTgid : ℕ) {r : Except PosixLockConflict Unit} {d' : PosixLockDomain H}
      (h : set d owner range mode reportTgid = .ok (r, d')) : Step d d'
  | unlock (d : PosixLockDomain H) (owner : H) (range : PosixLockRange) {d' : PosixLockDomain H}
      (h : unlock d owner range = .ok d') : Step d d'
  | retireBinding (d : PosixLockDomain H) (owner : H) : Step d (retireBinding d owner)

end PosixLockDomain

end Anemone.PosixLock
