import Anemone.Analysis.PipeSections

/-!
# The byte stream of a pipe

In every state the bytes delivered, followed by the bytes in the ring, are the bytes accepted.
What a reader has staged is in front of the ring for as long as it has the operation mutex.
-/

namespace Anemone.Pipe

open Checked (ok_bind assert_of)
open PipeInner Stage Function List

/-- A reader at this place has the operation mutex. -/
def Place.HasGate : Place → Prop
  | .gated | .staging _ | .copying _ | .committing _ _ | .releasing _ => True
  | _ => False

/-- What a reader at this place has staged is in front, and not more than was asked for. -/
def Place.FitsRead (contents : List UInt8) (requested : ℕ) : Place → Prop
  | .staging stagedLen => stagedLen ≤ contents.length ∧ stagedLen ≤ requested
  | .copying staged => staged <+: contents ∧ staged.length ≤ requested
  | .committing staged copied => staged <+: contents ∧ staged.length ≤ requested ∧
      0 < copied ∧ copied ≤ staged.length
  | _ => True

def Place.Plain : Place → Prop
  | .checking | .waiting | .examined _ => True
  | _ => False

variable {work : Work} {place : Place}

namespace Stage

def HasGate : Stage → Prop
  | .running _ place => place.HasGate
  | _ => False

def Fits (contents : List UInt8) : Stage → Prop
  | .running (.read _ requested _) place => place.FitsRead contents requested
  | .running _ place => place.Plain
  | _ => True

variable {contents : List UInt8} {stage : Stage}

/-- **What is in front stays in front** when bytes are appended. -/
theorem Fits.append (h : stage.Fits contents) (more : List UInt8) :
    stage.Fits (contents ++ more) := by
  match stage, h with
  | .running (.read _ _ _) (.staging _), h =>
    exact ⟨Nat.le_trans h.1 (by rw [length_append]; omega), h.2⟩
  | .running (.read _ _ _) (.copying _), h => exact ⟨h.1.trans (prefix_append ..), h.2⟩
  | .running (.read _ _ _) (.committing _ _), h =>
    exact ⟨h.1.trans (prefix_append ..), h.2⟩
  | .running (.read _ _ _) .checking, _ => trivial
  | .running (.read _ _ _) .waiting, _ => trivial
  | .running (.read _ _ _) .wantsGate, _ => trivial
  | .running (.read _ _ _) .gated, _ => trivial
  | .running (.read _ _ _) (.releasing _), _ => trivial
  | .running (.read _ _ _) (.examined _), _ => trivial
  | .running (.write _ _) _, h => exact h
  | .running (.resize _) _, h => exact h
  | .idle, _ => trivial
  | .returned _ _, _ => trivial

theorem Fits.of_not_hasGate (h : stage.Fits contents) (hgate : ¬ stage.HasGate)
    (contents' : List UInt8) : stage.Fits contents' := by
  match stage, h, hgate with
  | .running (.read _ _ _) .checking, _, _ => trivial
  | .running (.read _ _ _) .waiting, _, _ => trivial
  | .running (.read _ _ _) .wantsGate, _, _ => trivial
  | .running (.read _ _ _) (.examined _), _, _ => trivial
  | .running (.read _ _ _) .gated, _, hgate => exact absurd trivial hgate
  | .running (.read _ _ _) (.staging _), _, hgate => exact absurd trivial hgate
  | .running (.read _ _ _) (.copying _), _, hgate => exact absurd trivial hgate
  | .running (.read _ _ _) (.committing _ _), _, hgate => exact absurd trivial hgate
  | .running (.read _ _ _) (.releasing _), _, hgate => exact absurd trivial hgate
  | .running (.write _ _) _, h, _ => exact h
  | .running (.resize _) _, h, _ => exact h
  | .idle, _, _ => trivial
  | .returned _ _, _, _ => trivial

theorem Fits.read (h : (running work place).Fits contents) (hplace : ¬ place.Plain) :
    ∃ user requested nonblock, work = .read user requested nonblock ∧
      place.FitsRead contents requested := by
  match work, h with
  | .read user requested nonblock, h => exact ⟨user, requested, nonblock, rfl, h⟩
  | .write _ _, h => exact absurd h hplace
  | .resize _, h => exact absurd h hplace

variable {config : PipeConfig} {accepted delivered : List (List UInt8)}

theorem Accounts.of_undecided (h : stage.Accounts config accepted delivered)
    (hresult : stage.result = none) : accepted = [] ∧ delivered = [] := by
  unfold Accounts at h
  rw [hresult] at h
  cases hwork : stage.work with
  | none | some => rwa [hwork] at h

theorem accounts_undecided (hresult : stage.result = none) : stage.Accounts config [] [] := by
  unfold Accounts
  rw [hresult]
  cases stage.work <;> exact ⟨rfl, rfl⟩

theorem accounts_error {err : SysError} (hresult : stage.result = some (.error err)) :
    stage.Accounts config [] [] := by
  unfold Accounts
  rw [hresult]
  match stage.work with
  | none => exact ⟨rfl, rfl⟩
  | some (.read _ _ _) => exact ⟨rfl, rfl⟩
  | some (.write _ _) => exact ⟨rfl, rfl⟩
  | some (.resize _) => exact ⟨rfl, rfl⟩

end Stage

namespace System

variable {config : PipeConfig} {log : List (Op × Event)} {s : System}
  {contents contents' : List UInt8} {event : Event}

/-- The invariant: the streams, who has the mutex, and what is staged. -/
structure Recorded (config : PipeConfig) (log : List (Op × Event)) (s : System)
    (contents : List UInt8) : Prop extends Streams config log s contents where
  gate : ∀ call, (s.calls call).HasGate → s.gate = some call
  fits : ∀ call, (s.calls call).Fits contents

/-- What holds after a section: the invariant, and a read was told that there is nothing only at
the end. -/
structure Continues (config : PipeConfig) (log : List (Op × Event)) (s : System)
    (contents : List UInt8) (op : Op) (event : Event) (t : System) : Prop where
  recorded : ∃ contents', Recorded config (log ++ [(op, event)]) t contents'
  endOfFile : ∀ call user requested nonblock, 0 < requested → (s.calls call).result = none →
    (t.calls call).work = some (.read user requested nonblock) →
    (t.calls call).result = some (.ok 0) → contents = [] ∧ s.inner.txCnt = 0

theorem acceptances_append (op : Op) (event : Event) (call : ℕ) :
    acceptances (log ++ [(op, event)]) call = acceptances log call ++ event.acceptedFor call := by
  simp [acceptances]

theorem deliveries_append (op : Op) (event : Event) (call : ℕ) :
    deliveries (log ++ [(op, event)]) call = deliveries log call ++ event.deliveredTo call := by
  simp [deliveries]

/-- **The streams go on together**: what is taken out comes from the front of the ring
and what is put in goes to its end. -/
theorem Streams.stream_append (h : Streams config log s contents) (op : Op)
    (hevent : event.deliveredBytes ++ contents' = contents ++ event.acceptedBytes) :
    deliveredBytes (log ++ [(op, event)]) ++ contents' = acceptedBytes (log ++ [(op, event)]) := by
  calc deliveredBytes (log ++ [(op, event)]) ++ contents'
      = deliveredBytes log ++ (event.deliveredBytes ++ contents') := by simp [deliveredBytes]
    _ = deliveredBytes log ++ contents ++ event.acceptedBytes := by
      rw [hevent, append_assoc]
    _ = acceptedBytes log ++ event.acceptedBytes := by rw [h.stream]
    _ = acceptedBytes (log ++ [(op, event)]) := by simp [acceptedBytes]

section

variable (h : Recorded config log s contents)

include h

variable {call requested : ℕ} {inner : PipeInner} {stage before : Stage}

variable (op : Op)

/-- **A section of one call**, in terms of where it leaves the call, the ring and the
mutex. -/
theorem Recorded.move {gate : Option ℕ} (hholds : inner.buf.Holds contents')
    (hstream : event.deliveredBytes ++ contents' = contents ++ event.acceptedBytes)
    (hothers : ∀ other, other ≠ call → (s.calls other).Fits contents' ∧ ((s.calls other).HasGate →
      gate = some other) ∧ event.acceptedFor other = [] ∧ event.deliveredTo other = [])
    (hfits : stage.Fits contents') (hgate : stage.HasGate → gate = some call)
    (haccounts : stage.Accounts config (acceptances log call ++ event.acceptedFor call)
      (deliveries log call ++ event.deliveredTo call))
    (hend : ∀ user requested nonblock, 0 < requested → (s.calls call).result = none →
      stage.work = some (.read user requested nonblock) → stage.result = some (.ok 0) →
      contents = [] ∧ s.inner.txCnt = 0) :
    Continues config log s contents op event
      { inner, gate, calls := update s.calls call stage } := by
  constructor
  · refine ⟨contents', ⟨hholds, h.stream_append op hstream, fun other => ?_⟩, fun other => ?_,
      fun other => ?_⟩
    all_goals
      dsimp only
      by_cases hcall : other = call
    · subst hcall
      rw [update_self, acceptances_append, deliveries_append]
      exact haccounts
    · obtain ⟨-, -, haccepted, hdelivered⟩ := hothers other hcall
      rw [update_of_ne hcall, acceptances_append, deliveries_append, haccepted,
        hdelivered, append_nil, append_nil]
      exact h.calls other
    · subst hcall
      rw [update_self]
      exact hgate
    · rw [update_of_ne hcall]
      exact (hothers other hcall).2.1
    · subst hcall
      rw [update_self]
      exact hfits
    · rw [update_of_ne hcall]
      exact (hothers other hcall).1
  · intro other user requested nonblock hpos hundecided hwork hresult
    dsimp only at hwork hresult
    by_cases hcall : other = call
    · subst hcall
      rw [update_self] at hwork hresult
      exact hend user requested nonblock hpos hundecided hwork hresult
    · rw [update_of_ne hcall, hundecided] at hresult
      cases hresult

/-- **A section that moves no bytes and leaves the mutex alone.** -/
theorem Recorded.quiet (hholds : inner.buf.Holds contents) (hfits : stage.Fits contents)
    (hgate : stage.HasGate → s.gate = some call)
    (haccounts : stage.Accounts config (acceptances log call) (deliveries log call))
    (hend : ∀ user requested nonblock, 0 < requested → (s.calls call).result = none →
      stage.work = some (.read user requested nonblock) → stage.result = some (.ok 0) →
      contents = [] ∧ s.inner.txCnt = 0) :
    Continues config log s contents op .quiet ({ s with inner }.goTo call stage) :=
  h.move op hholds (by simp) (fun other _ => ⟨h.fits other, h.gate other, rfl, rfl⟩) hfits hgate
    (by simpa using haccounts) hend

/-- **A call that was undecided** has put in and taken out nothing. -/
theorem Recorded.undecided (hcall : s.calls call = stage) (hresult : stage.result = none) :
    acceptances log call = [] ∧ deliveries log call = [] := by
  have haccounts := h.calls call
  rw [hcall] at haccounts
  exact haccounts.of_undecided hresult

/-- **An undecided call goes on or fails**, without the mutex or with the mutex that it
has. -/
theorem Recorded.goOn {stage : Stage} (hcall : s.calls call = before)
    (hbefore : before.result = none) (hfits : stage.Fits contents)
    (hgate : stage.HasGate → before.HasGate)
    (hresult : stage.result = none ∨ ∃ err, stage.result = some (.error err)) :
    Continues config log s contents op .quiet (s.goTo call stage) := by
  obtain ⟨haccepted, hdelivered⟩ := h.undecided hcall hbefore
  refine h.quiet op h.holds hfits (fun hstage => h.gate call (hcall ▸ hgate hstage)) ?_ ?_
  · rw [haccepted, hdelivered]
    rcases hresult with hnone | ⟨err, herr⟩
    · exact accounts_undecided hnone
    · exact accounts_error herr
  · intro _ _ _ _ _ _ hzero
    rcases hresult with hnone | ⟨err, herr⟩
    · rw [hnone] at hzero
      cases hzero
    · rw [herr] at hzero
      cases hzero

/-- **A reader finds the end** and is told so. -/
theorem Recorded.atEnd {stage : Stage} (hcall : s.calls call = before)
    (hbefore : before.result = none) {user : Bool} {nonblock : Bool}
    (hwork : stage.work = some (.read user requested nonblock))
    (hresult : stage.result = some (.ok 0)) (hfits : stage.Fits contents)
    (hgate : stage.HasGate → before.HasGate)
    (hend : 0 < requested → contents = [] ∧ s.inner.txCnt = 0) :
    Continues config log s contents op .quiet (s.goTo call stage) := by
  obtain ⟨haccepted, hdelivered⟩ := h.undecided hcall hbefore
  refine h.quiet op h.holds hfits (fun hstage => h.gate call (hcall ▸ hgate hstage)) ?_ ?_
  · unfold Stage.Accounts
    rw [haccepted, hdelivered, hwork, hresult]
    exact ⟨rfl, rfl, Nat.zero_le _⟩
  · intro user' requested' nonblock' hpos _ hwork' _
    rw [hwork] at hwork'
    cases hwork'
    exact hend hpos

/-- The section returns, and leaves the invariant. -/
def Safe (config : PipeConfig) (log : List (Op × Event)) (s : System) (contents : List UInt8)
    (op : Op) : Prop :=
  ∃ event t, s.run config op = .ok (event, t) ∧ Continues config log s contents op event t

omit h in
theorem fits_checking (work : Work) (contents : List UInt8) :
    (running work .checking).Fits contents := by
  cases work <;> trivial

theorem Recorded.start
    (henabled : s.Enabled (.start call work)) : Safe config log s contents (.start call work) := by
  refine ⟨_, _, rfl, ?_⟩
  unfold startStage
  split
  · rename_i nonblock
    exact h.atEnd _ henabled rfl rfl rfl trivial nofun nofun
  · exact h.goOn _ henabled rfl (fits_checking work contents) nofun (.inl rfl)

variable {user nonblock : Bool} {result : Except SysError ℕ} {staged : List UInt8}

theorem Recorded.check {call : ℕ} (henabled : s.Enabled (.check call user requested nonblock)) :
    Safe config log s contents (.check call user requested nonblock) := by
  refine ⟨_, _, rfl, ?_⟩
  cases hcheck : s.inner.readCheck nonblock with
  | returns result =>
    cases result with
    | error err => exact h.goOn _ henabled rfl trivial nofun (.inr ⟨err, rfl⟩)
    | ok read =>
      obtain ⟨rfl, hnil, hwriters⟩ := readCheck_ok h.holds hcheck
      exact h.atEnd _ henabled rfl rfl rfl trivial nofun (fun _ => ⟨hnil, hwriters⟩)
  | waits | proceeds => exact h.goOn _ henabled rfl trivial nofun (.inl rfl)

theorem Recorded.wake {interrupted : Bool} (henabled : s.Enabled (.wake call work interrupted)) :
    Safe config log s contents (.wake call work interrupted) := by
  refine ⟨_, _, rfl, ?_⟩
  split
  · exact h.goOn _ henabled rfl trivial nofun (.inr ⟨_, rfl⟩)
  · exact h.goOn _ henabled rfl (fits_checking work contents) nofun (.inl rfl)

/-- **The mutex is free where a reader gets it**, so no other call is at a place that
needs it. -/
theorem Recorded.lockGate (henabled : s.Enabled (.lockGate call work)) :
    Safe config log s contents (.lockGate call work) := by
  obtain ⟨hcall, hfree⟩ := henabled
  obtain ⟨haccepted, hdelivered⟩ := h.undecided hcall rfl
  have hfits := h.fits call
  rw [hcall] at hfits
  obtain ⟨user, requested, nonblock, rfl, -⟩ := hfits.read id
  refine ⟨_, _, rfl, h.move _ h.holds ?_ (fun other _ => ⟨h.fits other, fun hother => ?_, rfl, rfl⟩)
    trivial (fun _ => rfl) ?_ nofun⟩
  · simp
  · have hheld := h.gate other hother
    rw [hfree] at hheld
    cases hheld
  · rw [haccepted, hdelivered]
    exact accounts_undecided rfl

/-- **Where a call has the mutex no other call is at a place that needs it.** -/
theorem Recorded.alone (hgate : (s.calls call).HasGate) {other : ℕ} (hne : other ≠ call) :
    ¬ (s.calls other).HasGate := fun hother =>
  hne (Option.some.inj ((h.gate other hother).symm.trans (h.gate call hgate)))

/-- **A reader with the mutex takes out bytes from the front.** -/
theorem Recorded.take (hcall : s.calls call = before) (hbefore : before.result = none)
    (hgate : before.HasGate) {count : ℕ} (hholds : inner.buf.Holds (contents.drop count))
    (hcount : count ≤ contents.length) (hrequested : count ≤ requested)
    (hpos : 0 < requested → 0 < count) :
    Continues config log s contents op (.delivered call (contents.take count))
      ({ s with inner }.goTo call
        (.running (.read user requested nonblock) (.releasing (.ok count)))) := by
  obtain ⟨haccepted, hdelivered⟩ := h.undecided hcall hbefore
  have hown : (s.calls call).HasGate := hcall ▸ hgate
  refine h.move op hholds ?_ (fun other hne => ⟨?_, h.gate other, rfl, if_neg hne.symm⟩) trivial
    (fun _ => h.gate call hown) ?_ ?_
  · simp [Event.deliveredBytes, Event.acceptedBytes]
  · exact (h.fits other).of_not_hasGate (h.alone hown hne) _
  · have hown : (Event.delivered call (contents.take count)).deliveredTo call =
        [contents.take count] := if_pos rfl
    rw [haccepted, hdelivered, hown]
    refine ⟨rfl, ?_, hrequested⟩
    simp [hcount]
  · intro _ _ _ hpos' _ hwork hzero
    cases hwork
    cases hzero
    exact absurd (hpos hpos') (Nat.lt_irrefl 0)

/-- **The second look of a reader**, and a kernel read. -/
theorem Recorded.recheck {call : ℕ} (henabled : s.Enabled (.recheck call user requested nonblock)) :
    Safe config log s contents (.recheck call user requested nonblock) := by
  have hcall : s.calls call = .running (.read user requested nonblock) .gated := henabled
  unfold Safe
  rw [run, recheckGated]
  rcases readRecheck_cases h.holds with ⟨hend, hnil, hwriters⟩ | hwaits | ⟨hgo, hne⟩
  · rw [hend]
    exact ⟨_, _, rfl, h.atEnd _ hcall rfl rfl rfl trivial (fun _ => trivial)
      (fun _ => ⟨hnil, hwriters⟩)⟩
  · -- another reader was faster: back to the loop, without the mutex
    rw [hwaits]
    obtain ⟨haccepted, hdelivered⟩ := h.undecided hcall rfl
    have hown : (s.calls call).HasGate := hcall ▸ trivial
    refine ⟨_, _, rfl, h.move _ h.holds ?_ (fun other hne => ⟨h.fits other, fun hother =>
      absurd hother (h.alone hown hne), rfl, rfl⟩) trivial nofun ?_
      nofun⟩
    · simp
    · rw [haccepted, hdelivered]
      exact accounts_undecided rfl
  · rw [hgo]
    dsimp only
    have hlength : 0 < contents.length := length_pos_iff.mpr hne
    unfold takeOrStage
    split
    · rename_i huser
      have hlen := h.holds.length_eq
      exact ⟨_, _, rfl, h.goOn _ hcall rfl ⟨by omega, Nat.min_le_left ..⟩ (fun _ => trivial)
        (.inl rfl)⟩
    · obtain ⟨buf, hread, hholds⟩ := pipeReadLocked_eq h.holds requested
      have hmin : contents.take requested = contents.take (min requested contents.length) := by
        rw [← take_take, take_length]
      have hdrop : contents.drop requested = contents.drop (min requested contents.length) := by
        rcases Nat.le_total requested contents.length with hle | hle
        · rw [Nat.min_eq_left hle]
        · rw [Nat.min_eq_right hle, drop_length, drop_of_length_le hle]
      rw [hmin] at hread
      rw [hdrop] at hholds
      have htaken : (contents.take (min requested contents.length)).length =
          min requested contents.length := by
        rw [length_take]
        omega
      refine ⟨_, _, by rw [hread, ok_bind]; rfl, ?_⟩
      rw [htaken]
      exact h.take _ hcall rfl trivial hholds (Nat.min_le_right ..) (Nat.min_le_left ..)
        (fun hpos => by omega)

/-- **The snapshot** is of bytes that are still in front. -/
theorem Recorded.snapshot {call stagedLen : ℕ} {reserved : Bool}
    (henabled : s.Enabled (.snapshot call work stagedLen reserved)) :
    Safe config log s contents (.snapshot call work stagedLen reserved) := by
  have hcall : s.calls call = .running work (.staging stagedLen) := henabled
  have hfits := h.fits call
  rw [hcall] at hfits
  obtain ⟨user, requested, nonblock, rfl, hlen, hrequested⟩ := hfits.read id
  unfold Safe
  rw [run, snapshotOrFail]
  split
  · exact ⟨_, _, rfl, h.goOn _ hcall rfl trivial (fun _ => trivial) (.inr ⟨_, rfl⟩)⟩
  · have hstaged : (contents.take stagedLen).length ≤ requested := by
      rw [length_take]
      omega
    rw [snapshotStaged_eq h.holds hlen, ok_bind]
    exact ⟨_, _, rfl, h.goOn _ hcall rfl ⟨ take_prefix .., hstaged⟩ (fun _ => trivial) (.inl rfl)⟩

/-- **The copy to user memory** leaves the ring alone, whether it fails or not. -/
theorem Recorded.copyOut {answer : Except SysError ℕ}
    (henabled : s.Enabled (.copyOut call work staged answer)) :
    Safe config log s contents (.copyOut call work staged answer) := by
  obtain ⟨hcall, hprogress⟩ := henabled
  have hfits := h.fits call
  rw [hcall] at hfits
  obtain ⟨user, requested, nonblock, rfl, hfront, hrequested⟩ := hfits.read id
  unfold Safe
  rw [run]
  cases answer with
  | error err =>
    exact ⟨_, _, rfl, h.goOn _ hcall rfl trivial (fun _ => trivial) (.inr ⟨_, rfl⟩)⟩
  | ok copied =>
    have hcopied := hprogress copied rfl
    rw [copiedOut, assert_of _ hcopied, ok_bind]
    exact ⟨_, _, rfl, h.goOn _ hcall rfl ⟨hfront, hrequested, hcopied⟩ (fun _ => trivial)
      (.inl rfl)⟩

/-- **The commit** takes out what was copied. -/
theorem Recorded.commit {call copied : ℕ} (henabled : s.Enabled (.commit call work staged copied)) :
    Safe config log s contents (.commit call work staged copied) := by
  have hcall : s.calls call = .running work (.committing staged copied) := henabled
  have hfits := h.fits call
  rw [hcall] at hfits
  obtain ⟨user, requested, nonblock, rfl, hfront, hrequested, hpos, hcopied⟩ := hfits.read id
  obtain ⟨buf, hcommit, hholds⟩ := commitStaged_eq h.holds hfront hcopied
  have hlength := hfront.length_le
  have htake : staged.take copied = contents.take copied := by
    obtain ⟨rest, rfl⟩ := hfront
    rw [take_append_of_le_length hcopied]
  refine ⟨_, _, by rw [run, hcommit, ok_bind]; rfl, ?_⟩
  rw [htake]
  exact h.take _ hcall rfl trivial hholds (by omega) (by omega) (fun _ => hpos)

theorem Recorded.unlockGate (henabled : s.Enabled (.unlockGate call work result)) :
    Safe config log s contents (.unlockGate call work result) := by
  have hcall : s.calls call = .running work (.releasing result) := henabled
  have hown : (s.calls call).HasGate := hcall ▸ trivial
  have haccounts := h.calls call
  rw [hcall] at haccounts
  refine ⟨_, _, rfl, h.move _ h.holds ?_ (fun other hne => ⟨h.fits other, fun hother =>
    absurd hother (h.alone hown hne), rfl, rfl⟩) trivial nofun ?_ ?_⟩
  · simp
  · rw [Event.acceptedFor_quiet, Event.deliveredTo_quiet, append_nil, append_nil]
    exact haccounts
  · intro _ _ _ _ hundecided _ _
    rw [hcall] at hundecided
    cases hundecided

/-- **A section of a write** appends a block to the ring, or nothing. -/
theorem Recorded.attempt {data : List UInt8} {nonblock : Bool}
    (henabled : s.Enabled (.attempt call data nonblock)) :
    Safe config log s contents (.attempt call data nonblock) := by
  have hcall : s.calls call = .running (.write data nonblock) .checking := henabled
  obtain ⟨haccepted, hdelivered⟩ := h.undecided hcall rfl
  obtain ⟨verdict, inner, hwrite, hwrote⟩ :=
    @writeSection_wrote s.inner contents config h.holds data nonblock
  refine ⟨_, _, by rw [run, hwrite, ok_bind]; rfl, ?_⟩
  cases hwrote with
  | refused err => exact h.goOn _ hcall rfl trivial nofun (.inr ⟨err, rfl⟩)
  | waiting => exact h.goOn _ hcall rfl trivial nofun (.inl rfl)
  | appended written buf hle hsmall hholds =>
    refine h.move _ hholds (by simp [acceptedEvent, Event.deliveredBytes, Event.acceptedBytes])
      (fun other hne => ⟨(h.fits other).append _, h.gate other, if_neg hne.symm, rfl⟩) trivial
      nofun ?_ (fun _ _ _ _ _ hwork _ => nomatch hwork)
    rw [haccepted, hdelivered, acceptedEvent, Event.acceptedFor, if_pos rfl]
    exact ⟨rfl, hle, hsmall, rfl⟩

/-- **A change of the capacity** neither puts in nor takes out. -/
theorem Recorded.resized {call : ℕ} (hcall : s.calls call = .running (.resize requested) place)
    (hplace : place.Plain) (hholds : inner.buf.Holds contents) :
    Continues config log s contents op .quiet
      ({ s with inner }.goTo call (.returned (.resize requested) result)) := by
  have hundecided : (running (.resize requested) place).result = none := by
    cases place <;> first | rfl | exact hplace.elim
  obtain ⟨haccepted, hdelivered⟩ := h.undecided hcall hundecided
  refine h.quiet op hholds trivial nofun ?_ (fun _ _ _ _ _ hwork _ => nomatch hwork)
  rw [haccepted, hdelivered]
  exact ⟨rfl, rfl⟩

theorem Recorded.examine {call : ℕ} (henabled : s.Enabled (.examine call requested)) :
    Safe config log s contents (.examine call requested) := by
  have hcall : s.calls call = .running (.resize requested) .checking := henabled
  unfold Safe
  rw [run]
  split
  · exact ⟨_, _, rfl, h.resized _ hcall trivial h.holds⟩
  · rename_i capacity verdict hfirst
    cases verdict with
    | returns result => exact ⟨_, _, rfl, h.resized _ hcall trivial h.holds⟩
    | waits | proceeds => exact ⟨_, _, rfl, h.goOn _ hcall rfl trivial nofun (.inl rfl)⟩

theorem Recorded.replace {call capacity : ℕ} {allocated : Bool}
    (henabled : s.Enabled (.replace call requested capacity allocated)) :
    Safe config log s contents (.replace call requested capacity allocated) := by
  have hcall : s.calls call = .running (.resize requested) (.examined capacity) := henabled
  obtain ⟨result, buf, hresize, hholds⟩ := resizeSecond_eq h.holds capacity allocated
  exact ⟨_, _, by rw [run, hresize, ok_bind]; rfl, h.resized _ hcall trivial hholds⟩

/-- **Endpoints come and go** without touching bytes or calls. -/
theorem Recorded.participants (rx tx : ℕ) :
    Safe config log s contents (.participants rx tx) := by
  refine ⟨_, _, rfl, ⟨contents, ⟨h.holds, ?_, fun call => ?_⟩, h.gate, h.fits⟩, ?_⟩
  · exact h.stream_append _ (by simp)
  · rw [acceptances_append, deliveries_append]
    simpa using h.calls call
  · intro call _ _ _ _ hundecided _ hresult
    rw [show ((s.calls call).result = _) from hresult] at hundecided
    cases hundecided

/-- **Every section that can run returns and keeps the invariant.** -/
theorem Recorded.safe {op : Op} (henabled : s.Enabled op) :
    Safe config log s contents op := by
  cases op with
  | start call work => exact h.start henabled
  | check call user requested nonblock => exact h.check henabled
  | wake call work interrupted => exact h.wake henabled
  | lockGate call work => exact h.lockGate henabled
  | recheck call user requested nonblock => exact h.recheck henabled
  | snapshot call work stagedLen reserved => exact h.snapshot henabled
  | copyOut call work staged answer => exact h.copyOut henabled
  | commit call work staged copied => exact h.commit henabled
  | unlockGate call work result => exact h.unlockGate henabled
  | attempt call data nonblock => exact h.attempt henabled
  | examine call requested => exact h.examine henabled
  | replace call requested capacity allocated => exact h.replace henabled
  | participants rx tx => exact h.participants rx tx

theorem Recorded.continues {label : Op × Event} {t : System}
    (hstep : Step config s label t) :
    Continues config log s contents label.1 label.2 t := by
  obtain ⟨henabled, hrun⟩ := hstep
  obtain ⟨event, t', hrun', hcontinues⟩ := h.safe henabled
  rw [hrun] at hrun'
  cases hrun'
  exact hcontinues

omit h in
theorem Start.recorded (h : Start config s) : Recorded config [] s [] := by
  obtain ⟨⟨allocated, hnew⟩, -, hidle⟩ := h
  refine ⟨⟨(RingBuffer.tryNew_holds Nat.one_pos hnew).2, rfl, fun call => ?_⟩, fun call hgate => ?_,
    fun call => ?_⟩
  · rw [hidle call]
    exact ⟨rfl, rfl⟩
  · rw [hidle call] at hgate
    exact hgate.elim
  · rw [hidle call]
    trivial

/-- **The next section**, in terms of the properties asked for. -/
theorem Recorded.stepSafe : StepSafe config s contents where
  returns op henabled := by
    obtain ⟨event, t, hrun, -⟩ := h.safe henabled
    exact ⟨event, t, hrun⟩
  failedCopy call work staged err event t hstep := by
    obtain ⟨-, hrun⟩ := hstep
    cases hrun
    rfl
  capacity call requested capacity allocated event t hstep := by
    obtain ⟨-, hrun⟩ := hstep
    obtain ⟨result, buf, hresize, hholds⟩ := resizeSecond_eq h.holds capacity allocated
    rw [run, hresize, ok_bind] at hrun
    cases hrun
    exact hholds
  endOfFile label t call user requested nonblock hstep hpos hundecided hwork hresult :=
    (h.continues hstep).endOfFile call user requested nonblock hpos hundecided hwork hresult

end

/-- **A pipe is a stream of bytes.**  After every run of any number of reads, writes and changes of
the capacity, the bytes delivered followed by the bytes in the ring are the bytes accepted; a call
has put in and taken out what it reports; and the next section, whichever it is, returns.

SOURCE: fs/pipe/io.rs:19-274, fs/pipe/capacity.rs:33-83, utils/ring_buffer.rs:213-362 -/
theorem pipe_streams (config : PipeConfig) {s : System} (hstart : Start config s)
    {path : List ((Op × Event) × System)} (hpath : Run.Path (Step config) s path) :
    ∃ contents, Streams config (path.map Prod.fst) (Run.last s path) contents ∧
      StepSafe config (Run.last s path) contents := by
  have hrecorded : ∃ contents, Recorded config ([] ++ path.map Prod.fst) (Run.last s path)
      contents :=
    hpath.invariant_log (P := fun log s => ∃ contents, Recorded config log s contents)
      (fun _ _ _ _ ⟨_, h⟩ hstep => (h.continues hstep).recorded) ⟨[], hstart.recorded⟩
  obtain ⟨contents, h⟩ := hrecorded
  exact ⟨contents, h.toStreams, h.stepSafe⟩

/-- Sixteen pages of four kilobytes, and at most 256 of them. -/
def sampleConfig : PipeConfig where
  atomicWriteBytes := 4096
  capacityPages := 16
  maxCapacityPages := 256
  atomicWriteBytes_pos := by decide
  capacityPages_ge := by decide
  capacityPages_isPowerOfTwo := ⟨4, rfl⟩
  maxCapacityPages_isPowerOfTwo := ⟨8, rfl⟩
  maxCapacityPages_ge := by decide
  maxCapacityBytes_lt := by decide

def samplePipe : System where
  inner := ⟨RingBuffer.new sampleConfig.defaultCapacityBytes, 1, 1⟩
  gate := none
  calls := fun _ => .idle

/-- Three bytes are written, a user read of three bytes stages them, a fourth byte is written, and
the copy to user memory stops after two bytes. -/
def sampleOps : List Op :=
  [.start 0 (.write [1, 2, 3] false), .attempt 0 [1, 2, 3] false,
    .start 1 (.read true 3 false), .check 1 true 3 false, .lockGate 1 (.read true 3 false),
    .recheck 1 true 3 false, .snapshot 1 (.read true 3 false) 3 true,
    .start 2 (.write [4] true), .attempt 2 [4] true,
    .copyOut 1 (.read true 3 false) [1, 2, 3] (.ok 2), .commit 1 (.read true 3 false) [1, 2, 3] 2]

/-- The two bytes that were copied are delivered, and two are left. -/
theorem pipe_streams_short_copy : ∃ contents : List UInt8,
      deliveredBytes ((Run.trace (run · sampleConfig) samplePipe sampleOps).map Prod.fst) =
        [1, 2] ∧ [1, 2] ++ contents = [1, 2, 3, 4] := by
  have hstart : Start sampleConfig samplePipe := ⟨⟨true, rfl⟩, rfl, fun _ => rfl⟩
  obtain ⟨contents, hstreams, -⟩ := @pipe_streams sampleConfig samplePipe hstart
    (Run.trace (run · sampleConfig) samplePipe sampleOps)
    ⟨⟨rfl, rfl⟩, ⟨rfl, rfl⟩, ⟨rfl, rfl⟩, ⟨rfl, rfl⟩, ⟨⟨rfl, rfl⟩, rfl⟩, ⟨rfl, rfl⟩, ⟨rfl, rfl⟩,
      ⟨rfl, rfl⟩, ⟨rfl, rfl⟩, ⟨⟨rfl, fun _ h => by cases h; decide⟩, rfl⟩, ⟨rfl, rfl⟩, trivial⟩
  have hstream := hstreams.stream
  refine ⟨contents, rfl, ?_⟩
  exact hstream

end System

end Anemone.Pipe
