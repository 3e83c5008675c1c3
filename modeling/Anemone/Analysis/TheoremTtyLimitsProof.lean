import Anemone.Analysis.DisciplineSteps

/-!
# The terminal within its buffers

With room every operation returns and changes the unread input as `Unread.Does` says.  Switching
to raw mode and back turns the edited line into committed input without making it smaller; the
echo of a signal character may hold a tab, which is expanded.  Both can find no room.
-/

namespace Anemone.Tty.TerminalInner

open Checked (Ensures ok_bind pure_eq wordSize)
open TtyDiscipline TtyTermios
open TtyDiscipline (Left)

variable {caps : TtyCapacities} {inner : TerminalInner} {u : Unread}

/-- The capacities that the build checks, and a sum that fits a word. -/
structure Valid (caps : TtyCapacities) : Prop where
  input : 1 ≤ caps.input
  canonicalLine : 1 ≤ caps.canonicalLine
  output : 8 ≤ caps.output
  word : caps.input + caps.canonicalLine < wordSize

def receiveToken (inner : TerminalInner) (caps : TtyCapacities) :
    Token → Checked (ReceiveResult × TerminalInner)
  | .ignored => pure (.consumed, inner)
  | .interrupt => inner.breakInterrupt
  | .literal bytes => inner.literal caps bytes
  | .byte byte => do
    let (result, discipline, output) ←
      inner.discipline.receive caps byte inner.termios inner.output
    pure (result, { inner with discipline, output })

theorem receiveNormalByte_eq (byte : UInt8) :
    inner.receiveNormalByte caps byte = inner.receiveToken caps (normalToken inner.termios byte) := by
  unfold receiveNormalByte normalToken
  cases mapInput inner.termios byte with
  | none => rfl
  | some mapped =>
    dsimp only
    split <;> rfl

/-- **A unit is received as its token.** -/
theorem receiveUnit_eq (unit : TtyRxUnit) :
    inner.receiveUnit caps unit = inner.receiveToken caps (unit.token inner.termios) := by
  cases unit with
  | byte byte => exact receiveNormalByte_eq byte
  | «break» =>
    simp only [receiveUnit, TtyRxUnit.token]
    repeat' split
    all_goals rfl
  | faultedByte byte =>
    simp only [receiveUnit, TtyRxUnit.token]
    repeat' split
    all_goals first | rfl | exact receiveNormalByte_eq byte

/-- What an operation leaves: a terminal in order with what the operation made of the input. -/
def Leaves (caps : TtyCapacities) (expected : Unread → Prop) (after : TerminalInner) : Prop :=
  ∃ u, after.Sound caps u ∧ expected u

theorem Sound.of_left {r : TtyDiscipline.Received} {accepted : Unread}
    (hmode : accepted.isCanonical = u.isCanonical) (hs : inner.Sound caps u)
    (hleft : Left caps u accepted r) :
    Leaves caps (fun after => (r.1 = .backpressured ∧ after = u) ∨
        (r.1 = .consumed ∧ after = accepted))
      { inner with discipline := r.2.1, output := r.2.2 } := by
  rcases hleft.holds with ⟨hresult, hholds⟩ | ⟨hresult, hholds⟩
  · exact ⟨u, ⟨hleft.within, hholds, hs.mode, hleft.output⟩, .inl ⟨hresult, rfl⟩⟩
  · exact ⟨accepted, ⟨hleft.within, hholds, hmode.trans hs.mode, hleft.output⟩, .inr ⟨hresult, rfl⟩⟩

theorem type_isCanonical (termios : TtyTermios) (byte : UInt8) (u : Unread) :
    (u.type termios byte).isCanonical = u.isCanonical := by
  cases u with
  | raw stream => rfl
  | canonical lines edit =>
    simp only [Unread.type]
    repeat' split
    all_goals rfl

variable {termios : TtyTermios} {byte : UInt8} {allocated : Bool × Bool × Bool}
  {output : TerminalOutput} {d : TtyDiscipline}

theorem isText_iff : termios.isText byte = true ↔ ¬matchesControl termios.erase byte = true ∧
      ¬matchesControl termios.kill byte = true ∧
      ¬matchesControl termios.eof byte = true ∧ byte ≠ 0x0a := by
  simp [isText, and_assoc]

theorem receive_signal {signal : TtySignalControl} (h : termios.signalControl byte = some signal) :
    d.receive caps byte termios output = d.receiveSignal caps byte termios output signal := by
  rw [receive, h]

theorem receive_plain (h : termios.signalControl byte = none) : d.receive caps byte termios output =
      if termios.icanon = false then d.receiveRaw caps byte termios output
      else d.receiveCanonical caps byte termios output := by
  rw [receive, h]

theorem receiveCanonical_ensures {lines : List (List UInt8)} {edit : List UInt8}
    (hcaps : Valid caps) (hs : inner.Sound caps (.canonical lines edit)) (byte : UInt8)
    (hroom : inner.termios.isText byte = true →
      inner.discipline.canonicalPendingLen < caps.canonicalLine - 1 →
        inner.output.canEnqueue (inner.termios.echoForByte byte) inner.termios = .ok true →
          inner.discipline.input.length < caps.input + caps.canonicalLine) :
    Ensures (fun _ => inner.NearOverflow caps)
      (inner.discipline.receiveCanonical caps byte inner.termios inner.output)
      (Left caps (.canonical lines edit)
        ((Unread.canonical lines edit).type inner.termios byte)) := by
  have hgeneration : wordSize ≤ inner.output.generation + 1 →
      inner.NearOverflow caps := fun h => .inl (by omega)
  unfold receiveCanonical Unread.type
  split
  · exact receiveErase_ensures hs.within hs.output hgeneration hs.holds fun h => .inr (.inr h)
  · rename_i herase
    split
    · exact receiveKill_ensures hs.within hs.output hgeneration hs.holds
    · rename_i hkill
      split
      · exact receiveEof_ensures hs.within hs.output hs.holds hcaps.canonicalLine hcaps.word
      · rename_i heof
        split
        · exact receiveNewline_ensures hs.within hs.output hgeneration hs.holds
            hcaps.canonicalLine hcaps.word
        · rename_i hnewline
          exact receiveText_ensures hs.within hs.output hgeneration hs.holds
            hcaps.word (hroom (isText_iff.mpr ⟨herase, hkill, heof, hnewline⟩))

/-- **Receiving a token with room for it.** -/
theorem receiveToken_ensures (hcaps : Valid caps) (hs : inner.Sound caps u) (token : Token)
    (hfits : inner.FitsToken caps token) :
    Ensures (fun _ => inner.NearOverflow caps) (inner.receiveToken caps token) fun r =>
      Leaves caps (u.Takes inner.termios token r.1) r.2 := by
  cases token with
  | ignored => exact ⟨u, hs, rfl, rfl⟩
  | interrupt =>
    refine Ensures.bind_of (TerminalOutput.clear_ensures hs.output fun h => .inl (by omega))
      fun after hafter => ?_
    exact ⟨u.flush, ⟨hs.within.flushInput, hs.holds.flushInput, by
      rw [← hs.mode]
      cases u <;> rfl, hafter.1, [], hafter.2.1⟩, rfl, rfl⟩
  | literal bytes =>
    obtain ⟨result, after, hreceive, hwithin, hholds⟩ :=
      receiveLiteral_returns hcaps.input hcaps.canonicalLine hcaps.word hs.holds
        hs.within hs.mode hfits
    rw [receiveToken, literal, hreceive, ok_bind]
    rcases hholds with ⟨hresult, hholds⟩ | ⟨hresult, hholds⟩
    · exact ⟨u, ⟨hwithin, hholds, hs.mode, hs.output⟩, .inl ⟨hresult, rfl⟩⟩
    · exact ⟨_, ⟨hwithin, hholds, by
        rw [← hs.mode]
        cases u <;> rfl, hs.output⟩, .inr ⟨hresult, rfl⟩⟩
  | byte byte =>
    rw [receiveToken]
    cases hsignal : inner.termios.signalControl byte with
    | some signal =>
      simp only [FitsToken, hsignal] at hfits
      rw [receive_signal hsignal, receiveSignal, Ensures.bind]
      refine Ensures.assert_bind (decide_eq_true hfits) ?_
      have hecho := TerminalOutput.clear_enqueueEcho_ensures hs.output hfits
        (fun h => .inl h : _ → inner.NearOverflow caps)
      rw [Ensures.bind] at hecho ⊢
      refine hecho.mono fun cleared hcleared => ?_
      refine Ensures.bind_of hcleared fun after hafter => ?_
      refine ⟨u.flush, ⟨hs.within.flushInput, hs.holds.flushInput, ?_, hafter⟩, ?_⟩
      · rw [← hs.mode]
        cases u <;> rfl
      · rw [Unread.Takes, hsignal]
        exact ⟨rfl, rfl⟩
    | none =>
      simp only [FitsToken, hsignal] at hfits
      rw [receive_plain hsignal]
      have htakes : ∀ result after, u.Takes inner.termios (.byte byte) result after ↔
          (result = .backpressured ∧ after = u) ∨
            (result = .consumed ∧ after = u.type inner.termios byte) := by
        intro result after
        rw [Unread.Takes, hsignal]
      have hreceive : Ensures (fun _ => inner.NearOverflow caps)
          (if inner.termios.icanon = false then
            inner.discipline.receiveRaw caps byte inner.termios inner.output
          else inner.discipline.receiveCanonical caps byte inner.termios inner.output)
          (Left caps u (u.type inner.termios byte)) := by
        cases u with
        | raw stream =>
          have hicanon : inner.termios.icanon = false := hs.mode.symm
          rw [if_pos hicanon]
          exact receiveRaw_ensures hs.within hs.output (fun h => .inl (by omega)) hs.holds
        | canonical lines edit =>
          have hicanon : inner.termios.icanon = true := hs.mode.symm
          rw [if_neg (by simp [hicanon])]
          exact receiveCanonical_ensures hcaps hs byte (hfits hicanon)
      refine Ensures.bind_of hreceive fun r hleft => ?_
      obtain ⟨after, hafter, hresult⟩ := Sound.of_left (type_isCanonical ..) hs hleft
      exact ⟨after, hafter, (htakes ..).mpr hresult⟩

/-- **Receiving a token without room for it panics.** -/
theorem receiveToken_panics (hcaps : Valid caps) (hs : inner.Sound caps u) (token : Token)
    (hfull : ¬inner.FitsToken caps token) :
    ∃ panic, inner.receiveToken caps token = .error panic := by
  cases token with
  | ignored | interrupt => exact absurd trivial hfull
  | literal bytes =>
    simp only [FitsToken, Classical.not_imp] at hfull
    obtain ⟨hicanon, hpending, hfull⟩ := hfull
    obtain ⟨panic, hpanic⟩ := receiveLiteral_panics hcaps.input
      hcaps.canonicalLine hcaps.word hs.holds hs.within hicanon hpending hfull
    exact ⟨panic, by rw [receiveToken, literal, hpanic]; rfl⟩
  | byte byte =>
    rw [receiveToken]
    cases hsignal : inner.termios.signalControl byte with
    | some signal =>
      simp only [FitsToken, hsignal] at hfull
      rw [receive_signal hsignal, receiveSignal, Checked.assert,
        if_neg (by simpa [TerminalOutput.canEnqueueAfterClear] using hfull)]
      exact ⟨_, rfl⟩
    | none =>
      simp only [FitsToken, hsignal, Classical.not_imp] at hfull
      obtain ⟨hicanon, htext, hpending, hfits, hfull⟩ := hfull
      obtain ⟨herase, hkill, heof, hnewline⟩ := isText_iff.mp htext
      obtain ⟨panic, hpanic⟩ := receiveText_panics hs.within hpending hfits hfull
      refine ⟨panic, ?_⟩
      rw [receive_plain hsignal, if_neg (by simp [hicanon]), receiveCanonical,
        if_neg herase, if_neg hkill,
        if_neg heof, if_neg hnewline, hpanic]
      rfl

theorem flushOutput_ensures (hs : inner.Sound caps u) (flush : Bool) :
    Ensures (fun _ => inner.NearOverflow caps) (inner.flushOutput flush) fun after =>
      after.Ready caps.output := by
  unfold flushOutput
  split
  · exact (TerminalOutput.clear_ensures hs.output fun h => .inl (by omega)).mono
      fun after hafter => ⟨hafter.1, [], hafter.2.1⟩
  · exact hs.output

theorem read_isCanonical (room : ℕ) (u : Unread) :
    (u.read room).2.isCanonical = u.isCanonical := by
  match u with
  | .raw stream =>
    simp only [Unread.read]
    split <;> rfl
  | .canonical [] edit => rfl
  | .canonical ([] :: rest) edit => rfl
  | .canonical ((_ :: _) :: rest) edit => rfl

theorem flush_isCanonical (u : Unread) : u.flush.isCanonical = u.isCanonical := by
  cases u <;> rfl

theorem setCanonical_isCanonical (mode : Bool) (u : Unread) :
    (u.setCanonical mode).isCanonical = mode := by
  cases u <;> cases mode <;> rfl

theorem commit_ensures (hcaps : Valid caps) (hs : inner.Sound caps u) (generation : ℕ)
    (drained : Option ℕ) (termios : TtyTermios) (flushInput : Bool) :
    Ensures (fun _ => inner.NearOverflow caps)
      (inner.commitTermiosIfGenerationQuiet generation drained termios flushInput) fun r =>
        Leaves caps (u.Does inner.termios (.commit generation drained termios flushInput)
          (.committed r.1)) r.2 := by
  unfold commitTermiosIfGenerationQuiet
  split
  · exact ⟨u, hs, .inl ⟨rfl, rfl⟩⟩
  · have hswitch : ∃ after, inner.switchCanonical termios = .ok after ∧ after.Within caps ∧
        after.Holds (u.setCanonical termios.icanon) := by
      unfold switchCanonical
      split
      · rename_i hne
        obtain ⟨after, hset, hwithin, hholds, -⟩ :=
          setCanonical_returns hcaps.input hs.within hs.holds (hs.mode ▸ hne)
        exact ⟨after, hset, hwithin, hholds⟩
      · rename_i heq
        have hsame : u.setCanonical termios.icanon = u := by
          rw [← Classical.not_not.mp heq, ← hs.mode]
          cases u <;> rfl
        exact ⟨_, rfl, hs.within, by rw [hsame]; exact hs.holds⟩
    obtain ⟨after, hafter, hwithin, hholds⟩ := hswitch
    rw [hafter, ok_bind]
    refine Ensures.bind_of (TerminalOutput.checkedSucc_ensures _ fun h => .inr (.inl h))
      fun next _ => ?_
    cases flushInput with
    | true =>
      exact ⟨_, ⟨hwithin.flushInput, hholds.flushInput,
        (flush_isCanonical _).trans (setCanonical_isCanonical ..), hs.output⟩,
        .inr ⟨rfl, rfl⟩⟩
    | false =>
      exact ⟨_, ⟨hwithin, hholds, setCanonical_isCanonical .., hs.output⟩, .inr ⟨rfl, rfl⟩⟩

theorem run_ensures (hcaps : Valid caps) (hs : inner.Sound caps u) (op : Op)
    (hfits : inner.Fits caps op) :
    Ensures (fun _ => inner.NearOverflow caps) (inner.run caps op) fun r =>
      Leaves caps (u.Does inner.termios op r.1) r.2 := by
  cases op with
  | receive unit =>
    rw [run, receiveRxUnitEffectQuiet, receiveUnit_eq, Ensures.bind, Ensures.bind]
    refine (receiveToken_ensures hcaps hs _ hfits).mono fun r hr => ?_
    obtain ⟨after, hafter, htakes⟩ := hr
    exact ⟨after, hafter, r.1, rfl, htakes⟩
  | literal bytes =>
    refine Ensures.bind_of (receiveToken_ensures hcaps hs (.literal bytes) hfits) fun r hr => ?_
    obtain ⟨after, hafter, htakes⟩ := hr
    exact ⟨after, hafter, r.1, rfl, htakes⟩
  | read room =>
    obtain ⟨after, hread, hwithin, hholds⟩ := read_returns hs.within hs.holds hs.mode room
    rw [run, readInputQuiet, hread, ok_bind]
    refine ⟨_, ⟨hwithin, hholds, ?_, hs.output⟩, rfl, rfl⟩
    exact (read_isCanonical room u).trans hs.mode
  | flush input output =>
    rw [run, flushQueues, Ensures.bind]
    refine Ensures.bind_of (flushOutput_ensures hs output) fun after hafter => ?_
    cases input with
    | true =>
      exact ⟨_, ⟨hs.within.flushInput, hs.holds.flushInput,
        (flush_isCanonical u).trans hs.mode, hafter⟩, rfl⟩
    | false => exact ⟨u, ⟨hs.within, hs.holds, hs.mode, hafter⟩, rfl⟩
  | commit generation drained termios flushInput =>
    rw [run, Ensures.bind]
    exact (commit_ensures hcaps hs generation drained termios flushInput).mono fun r hr => hr
  | write source =>
    obtain ⟨hcapacity, contents, hholds⟩ := hs.output
    rw [run, enqueueOutputQuiet, Ensures.bind]
    refine Ensures.bind_of (TerminalOutput.enqueueSlice_ensures inner.termios source hcapacity
      hholds fun h => .inl (by omega)) fun r hr => ?_
    exact ⟨u, ⟨hs.within, hs.holds, hs.mode, hr.2.1⟩, rfl⟩
  | drain room =>
    rw [run, readOutput, Ensures.bind]
    refine Ensures.bind_of (TerminalOutput.readOutput_ensures hs.output room
      fun h => .inl (by omega)) fun r hr => ?_
    exact ⟨u, ⟨hs.within, hs.holds, hs.mode, hr⟩, rfl⟩

theorem run_panics (hcaps : Valid caps) (hs : inner.Sound caps u) (op : Op)
    (hfull : ¬inner.Fits caps op) : ∃ panic, inner.run caps op = .error panic := by
  cases op with
  | receive unit =>
    obtain ⟨panic, hpanic⟩ := receiveToken_panics hcaps hs _ hfull
    exact ⟨panic, by rw [run, receiveRxUnitEffectQuiet, receiveUnit_eq, hpanic]; rfl⟩
  | literal bytes =>
    obtain ⟨panic, hpanic⟩ := receiveToken_panics hcaps hs (.literal bytes) hfull
    exact ⟨panic, by rw [run, show inner.literal caps bytes = _ from hpanic]; rfl⟩
  | read | flush | commit | write | drain => exact absurd trivial hfull

theorem Sound.step (hcaps : Valid caps) (hs : inner.Sound caps u) {label : Op × Answer}
    {after : TerminalInner} (hstep : Step caps inner label after) :
    Leaves caps (u.Does inner.termios label.1 label.2) after := by
  have hfits : inner.Fits caps label.1 := by
    by_contra hfull
    obtain ⟨panic, hpanic⟩ := run_panics hcaps hs label.1 hfull
    rw [Step, hpanic] at hstep
    cases hstep
  exact (run_ensures hcaps hs label.1 hfits).of_eq_ok hstep

theorem word_of_made {made : Except SysError TerminalInner}
    (h : tryNewWithControl caps allocated = .ok made) :
    caps.input + caps.canonicalLine < wordSize := by
  by_contra hword
  rw [tryNewWithControl, tryNew, if_pos (Nat.le_of_not_lt hword)] at h
  cases h

theorem tryNewWithControl_sound (hcaps : Valid caps)
    (h : tryNewWithControl caps allocated = .ok (.ok inner)) :
    inner.Sound caps (.canonical [] []) := by
  rw [tryNewWithControl, tryNew, if_neg (Nat.not_le.mpr hcaps.word)] at h
  split at h
  · rw [pure_eq, ok_bind] at h
    cases houtput : TerminalOutput.tryNew caps.output allocated.2.2 with
    | none =>
      rw [houtput] at h
      cases h
    | some output =>
      rw [houtput] at h
      cases h
      exact ⟨⟨rfl, rfl, Nat.zero_le _, Nat.zero_le _, Nat.zero_le _⟩, ⟨rfl, rfl, rfl⟩, rfl,
        TerminalOutput.tryNew_ready (Nat.lt_of_lt_of_le (by decide) hcaps.output) houtput⟩
  · cases h

theorem sound_last (hcaps : Valid caps) {start : TerminalInner}
    (hstart : start.Sound caps (.canonical [] []))
    {path : List ((Op × Answer) × TerminalInner)} (hpath : Run.Path (Step caps) start path) :
    ∃ u, (Run.last start path).Sound caps u :=
  hpath.invariant (P := fun s => ∃ u, s.Sound caps u) (fun _ _ _ hs hstep => by
      obtain ⟨u, hs⟩ := hs
      obtain ⟨after, hafter, -⟩ := hs.step hcaps hstep
      exact ⟨after, hafter⟩) ⟨_, hstart⟩

/-- **A terminal within its buffers, in every run.**  Making a terminal panics exactly if the sum
of the input capacities does not fit a word.  After any sequence of received units, literals,
reads, flushes, mode changes, writes and drains:

* the input queue is at most as long as the two input capacities together, and the edited line is
  a part of it;
* in canonical mode the record lengths sum up to the committed length;
* the next operation panics exactly if there is no room for it, unless a 64-bit counter is at its
  end.

SOURCE: device/tty/discipline.rs:35-155, 207-414, device/tty/terminal.rs:624-665, 867-893 -/
theorem terminal_within_buffers (hinput : 1 ≤ caps.input) (hline : 1 ≤ caps.canonicalLine)
    (houtput : 8 ≤ caps.output) (allocated : Bool × Bool × Bool) :
    ((∃ made, tryNewWithControl caps allocated = .ok made) ↔
      caps.input + caps.canonicalLine < wordSize) ∧
    ∀ start, tryNewWithControl caps allocated = .ok (.ok start) →
      ∀ path : List ((Op × Answer) × TerminalInner), Run.Path (Step caps) start path →
        (Run.last start path).discipline.input.length ≤ caps.input + caps.canonicalLine ∧
        (Run.last start path).discipline.canonicalPendingLen ≤
          (Run.last start path).discipline.input.length ∧
        ((Run.last start path).termios.icanon = true →
          (Run.last start path).discipline.committedLen =
            .ok (Run.last start path).discipline.canonicalRecords.sum) ∧
        ∀ op, ¬(Run.last start path).NearOverflow caps →
          ((∃ r, (Run.last start path).run caps op = .ok r) ↔
            (Run.last start path).Fits caps op) := by
  refine ⟨?_, fun start hstart path hpath => ?_⟩
  · constructor
    · rintro ⟨made, hmade⟩
      exact word_of_made hmade
    · intro hword
      rw [tryNewWithControl, TtyDiscipline.tryNew]
      rw [if_neg (Nat.not_le.mpr hword)]
      split <;> rw [pure_eq, ok_bind] <;> split <;> exact ⟨_, rfl⟩
  · have hcaps : Valid caps := ⟨hinput, hline, houtput, word_of_made hstart⟩
    obtain ⟨u, hs⟩ := sound_last hcaps (tryNewWithControl_sound hcaps hstart) hpath
    generalize Run.last start path = s at hs
    refine ⟨hs.within.input_le, ?_, fun hicanon => ?_, fun op hnear => ?_⟩
    · cases u with
      | canonical lines edit =>
        rw [hs.holds.1, hs.holds.2.2, List.length_append]
        exact Nat.le_add_left ..
      | raw stream =>
        rw [hs.holds.2.2]
        exact Nat.zero_le _
    · cases u with
      | canonical lines edit =>
        rw [hs.holds.committedLen, hs.holds.2.1, Unread.committed, List.length_flatten]
      | raw stream =>
        rw [← hs.mode] at hicanon
        cases hicanon
    · constructor
      · rintro ⟨r, hr⟩
        by_contra hfull
        obtain ⟨panic, hpanic⟩ := run_panics hcaps hs op hfull
        rw [hr] at hpanic
        cases hpanic
      · intro hfits
        rcases (run_ensures hcaps hs op hfits).returns_or with ⟨r, hr, -⟩ | ⟨panic, -, hcounter⟩
        · exact ⟨r, hr⟩
        · exact absurd hcounter hnear

/-- An empty terminal with the modes it is made with. -/
def fresh (caps : TtyCapacities) : TerminalInner where
  termios := .withControl
  discipline := ⟨[], caps.input + caps.canonicalLine, 0, [], caps.input, 0⟩
  output := ⟨RingBuffer.new caps.output, 0, 0⟩
  termiosGeneration := 0

/-- The smallest output queue, and lines of at most three bytes. -/
def smallBuffers : TtyCapacities := ⟨1, 3, 8⟩

theorem fresh_made :
    tryNewWithControl smallBuffers (true, true, true) = .ok (.ok (fresh smallBuffers)) := rfl

/-- A line is ended, two characters are typed, canonical mode is left and entered again, and two
more characters are typed. -/
def typeAcrossSwitches : List Op :=
  [.receive (.byte 0x0a), .receive (.byte 0x61), .receive (.byte 0x62),
    .commit 0 none { TtyTermios.withControl with icanon := false } false,
    .commit 1 none .withControl false,
    .receive (.byte 0x63), .receive (.byte 0x64)]

/-- Canonical mode is left and entered again with one place left in the input queue.  The next
character still finds room, and the one after it does not. -/
theorem terminal_within_buffers_switched :
    let path := fun n =>
      Run.trace (run · smallBuffers) (fresh smallBuffers) (typeAcrossSwitches.take n)
    (∃ r, (Run.last (fresh smallBuffers) (path 5)).run smallBuffers (.receive (.byte 0x63)) =
      .ok r) ∧
    ¬∃ r, (Run.last (fresh smallBuffers) (path 6)).run smallBuffers (.receive (.byte 0x64)) =
      .ok r := by
  obtain ⟨-, hruns⟩ := @terminal_within_buffers smallBuffers (by decide) (by decide)
    (by decide) (true, true, true)
  have hnext := fun n => (hruns _ fresh_made _
    (Run.path_trace (run · smallBuffers) _ (typeAcrossSwitches.take n))).2.2.2
  exact ⟨(hnext 5 _ (by decide +kernel)).mpr (by decide +kernel),
    mt (hnext 6 _ (by decide +kernel)).mp (by decide +kernel)⟩

/-- The interrupt character is made the letter I, whose echo is a tab. -/
def interruptByTab : List Op :=
  [.commit 0 none { TtyTermios.withControl with intr := 0x49, tabMode := .expand } false,
    .receive (.byte 0x49)]

/-- The two ways to find no room: typing after two changes of the mode, and the echo of a signal
character. -/
theorem full_buffers_panic :
    tryNewWithControl smallBuffers (true, true, true) = .ok (.ok (fresh smallBuffers)) ∧
      typeAcrossSwitches.foldlM (fun inner op => Prod.snd <$> inner.run smallBuffers op)
          (fresh smallBuffers) =
        .error ⟨"TTY input queue would grow while the Terminal guard is held"⟩ ∧
      interruptByTab.foldlM (fun inner op => Prod.snd <$> inner.run smallBuffers op)
          (fresh smallBuffers) =
        .error ⟨"configured TTY output queue cannot hold a signal echo after flush"⟩ :=
  ⟨fresh_made, rfl, rfl⟩

end Anemone.Tty.TerminalInner
