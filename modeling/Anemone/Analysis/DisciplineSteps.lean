import Anemone.Analysis.TerminalOutputSteps

/-!
# One operation of the line discipline

A branch of `receive` that refuses leaves everything as it was; one that accepts changes the
unread input as `Unread.type` says.  A character of the edited line is compared with the length
of the line only, so that branch has the room as a hypothesis.  The panic that is left is the
overflow of a counter, for which `near` stands.
-/

namespace Anemone.Tty

open Checked (sub_of_le add_of_lt wordSize Ensures ok_bind assert_of pure_eq)
open Nat (sub_le zero_le)
open TtyDiscipline List

variable {ys : List UInt8} {iutf8 : Bool}

theorem eraseUnit_append {y : UInt8} (h : (iutf8 && isUtf8Continuation y) = false) :
    eraseUnit iutf8 (ys ++ [y]) = ys := by
  unfold eraseUnit
  split
  · rename_i hiutf8
    rw [hiutf8, Bool.true_and] at h
    simp [h]
  · simp

theorem eraseUnit_append_continuation {y : UInt8} (h : (iutf8 && isUtf8Continuation y) = true) :
    eraseUnit iutf8 (ys ++ [y]) =
      if eraseUnit iutf8 ys = ys then ys ++ [y] else eraseUnit iutf8 ys := by
  obtain ⟨rfl, hy⟩ := Bool.and_eq_true_iff.mp h
  simp only [eraseUnit, if_true, reverse_append, reverse_singleton,
    singleton_append, dropWhile_cons, hy]
  split
  · rw [if_pos rfl]
  · rename_i first rest hscan
    have hlen : rest.reverse.length < ys.length := by
      have := (dropWhile_suffix (l := ys.reverse) isUtf8Continuation).length_le
      rw [hscan] at this
      simp at this ⊢
      omega
    rw [if_neg fun heq => by rw [heq] at hlen; omega]

namespace TtyDiscipline

variable {near : Prop} {caps : TtyCapacities} {d : TtyDiscipline} {u : Unread}
  {edit literal : List UInt8} {count room : ℕ}

theorem Holds.input_eq (h : d.Holds u) : d.input = u.bytes := by
  cases u with
  | canonical | raw => exact h.1

theorem Holds.committedLen (h : d.Holds u) : d.committedLen = .ok u.committed.length := by
  cases u with
  | canonical | raw =>
    obtain ⟨hinput, -, hpending⟩ := h
    simp [committedLen, hinput, hpending, Unread.committed]

theorem Holds.flushInput (h : d.Holds u) : d.flushInput.Holds u.flush := by
  cases u with
  | canonical | raw => exact ⟨rfl, rfl, rfl⟩

theorem Within.flushInput (h : d.Within caps) : d.flushInput.Within caps :=
  ⟨h.inputCapacity, h.recordsCapacity, zero_le _, zero_le _, zero_le _⟩

theorem pushInput_eq (h : d.input.length < d.inputCapacity) (byte : UInt8) :
    d.pushInput byte = .ok { d with input := d.input ++ [byte] } := by
  rw [pushInput, assert_of _ h, ok_bind]
  rfl

theorem pushInput_panics (h : ¬d.input.length < d.inputCapacity) (byte : UInt8) :
    ∃ panic, d.pushInput byte = .error panic := by
  rw [pushInput, Checked.assert, if_neg h]
  exact ⟨_, rfl⟩

theorem pushRecord_eq (h : d.canonicalRecords.length < d.recordsCapacity) (recordLen : ℕ) :
    d.pushRecord recordLen =
      .ok { d with canonicalRecords := d.canonicalRecords ++ [recordLen] } := by
  rw [pushRecord, assert_of _ h, ok_bind]
  rfl

theorem saturatingAdd_le {a b bound : ℕ} (hbound : bound + 1 < wordSize) :
    saturatingAdd a b ≤ bound ↔ a + b ≤ bound := by
  unfold saturatingAdd
  omega

theorem canCommitRecord_eq (hline : 0 < caps.canonicalLine)
    (hword : caps.input + caps.canonicalLine < wordSize) (hholds : d.Holds u) (recordLen : ℕ) :
    ∃ fits, d.canCommitRecord caps recordLen = .ok fits ∧
      (fits = true → u.committed.length + recordLen ≤ caps.input ∧
        d.canonicalRecords.length < d.recordsCapacity) := by
  rw [canCommitRecord, hholds.committedLen, ok_bind]
  refine ⟨_, rfl, fun h => ?_⟩
  simp only [Bool.and_eq_true, decide_eq_true_eq] at h
  rw [saturatingAdd_le (by omega)] at h
  exact ⟨h.1.1, h.2⟩

/-- A refused byte leaves `u`, an accepted one leaves `accepted`. -/
structure Left (caps : TtyCapacities) (u accepted : Unread) (r : Received) : Prop where
  within : r.2.1.Within caps
  output : r.2.2.Ready caps.output
  holds : (r.1 = .backpressured ∧ r.2.1.Holds u) ∨ (r.1 = .consumed ∧ r.2.1.Holds accepted)

section Branches

variable {termios : TtyTermios} {output : TerminalOutput} {byte : UInt8} {u' : Unread}
  {lines : List (List UInt8)} {edit stream : List UInt8} {echo : EchoBytes}
  (hwithin : d.Within caps) (houtput : output.Ready caps.output)
  (hgeneration : wordSize ≤ output.generation + 1 → near)

include hwithin houtput

theorem Left.refused (hholds : d.Holds u) : Left caps u u' (.backpressured, d, output) :=
  ⟨hwithin, houtput, .inl ⟨rfl, hholds⟩⟩

theorem Left.accepted (hholds : d.Holds u') : Left caps u u' (.consumed, d, output) :=
  ⟨hwithin, houtput, .inr ⟨rfl, hholds⟩⟩

/-- **A byte whose echo does not fit is refused.** -/
theorem Left.fits (hholds : d.Holds u) {x : Checked Received}
    (h : output.canEnqueue echo termios = .ok true → Ensures (fun _ => near) x (Left caps u u')) :
    Ensures (fun _ => near) (do
      let fits ← output.canEnqueue echo termios
      if fits = false then pure (.backpressured, d, output) else x) (Left caps u u') := by
  obtain ⟨fits, hfits⟩ := houtput.canEnqueue echo termios
  rw [hfits, ok_bind]
  cases fits with
  | false => exact Left.refused hwithin houtput hholds
  | true => exact h hfits

include hgeneration

theorem Left.echoed (hfits : output.canEnqueue echo termios = .ok true) (hholds : d.Holds u') :
    Ensures (fun _ => near) (do
      let output ← enqueueEcho output echo termios
      pure (.consumed, d, output)) (Left caps u u') :=
  Ensures.bind_of (TerminalOutput.enqueueEcho_ensures houtput hfits hgeneration)
    fun _ hafter => Left.accepted hwithin hafter hholds

theorem receiveRaw_ensures (hholds : d.Holds (.raw stream)) :
    Ensures (fun _ => near) (d.receiveRaw caps byte termios output)
      (Left caps (.raw stream) (.raw (stream ++ [byte]))) := by
  rw [receiveRaw, hholds.committedLen, ok_bind]
  split
  · exact Left.refused hwithin houtput hholds
  · rename_i hroom
    refine Left.fits hwithin houtput hholds fun hfits => ?_
    obtain ⟨hinput, hrecords, hpending⟩ := hholds
    have hlen : d.input.length < caps.input := by
      rw [hinput]
      exact Nat.lt_of_not_le hroom
    rw [pushInput_eq (by rw [hwithin.inputCapacity]; omega), ok_bind]
    refine Left.echoed ⟨hwithin.inputCapacity, hwithin.recordsCapacity, ?_,
      hwithin.records_le, hwithin.pending_le⟩ houtput hgeneration hfits ⟨?_, hrecords, hpending⟩
    · simp only [length_append, length_singleton]
      omega
    · rw [hinput]

omit hwithin houtput hgeneration in
/-- **A scan over continuation bytes** ends at the first byte of the last unit, or at
the first byte of a line of continuation bytes. -/
theorem eraseScan_eq (iutf8 : Bool) (committed : List UInt8) (hne : edit ≠ []) (tail : List UInt8)
    (hinput : d.input = committed ++ edit ++ tail) :
    ∃ k b, d.eraseScan iutf8 committed.length (committed.length + edit.length - 1) =
        .ok (committed.length + k, b) ∧ k < edit.length ∧
      ((iutf8 && isUtf8Continuation b) = false → eraseUnit iutf8 edit = edit.take k) ∧
      ((iutf8 && isUtf8Continuation b) = true → eraseUnit iutf8 edit = edit) := by
  induction edit using reverseRecOn generalizing tail with
  | nil => exact absurd rfl hne
  | append_singleton ys y ih =>
    have hhead : committed.length + (ys ++ [y]).length - 1 = committed.length + ys.length := by
      simp only [length_append, length_singleton]
      omega
    have hbyte : d.byteAt (committed.length + ys.length) = .ok y := by
      rw [byteAt, hinput, append_assoc, append_assoc,
        getElem?_append_right (by omega), Nat.add_sub_cancel_left,
        getElem?_append_right (Nat.le_refl _), Nat.sub_self]
      rfl
    have hround : d.eraseScan iutf8 committed.length (committed.length + ys.length) =
        if (iutf8 && isUtf8Continuation y) = true ∧ ys ≠ [] then
          d.eraseScan iutf8 committed.length (committed.length + ys.length - 1)
        else .ok (committed.length + ys.length, y) := by
      have hcond : ((iutf8 && isUtf8Continuation y) &&
          (committed.length + ys.length != committed.length)) = true ↔
          (iutf8 && isUtf8Continuation y) = true ∧ ys ≠ [] := by
        simp [length_eq_zero_iff]
      rcases hn : committed.length + ys.length with _ | n
      · have hys : ys = [] := eq_nil_of_length_eq_zero (by omega)
        rw [hn] at hbyte hcond
        rw [eraseScan, hbyte, ok_bind, if_neg (by rw [hcond]; simp [hys]), if_neg (by simp [hys])]
        rfl
      · rw [hn] at hbyte hcond
        rw [eraseScan, hbyte, ok_bind]
        simp only [hcond]
        rfl
    rw [hhead, hround]
    cases hcont : (iutf8 && isUtf8Continuation y) with
    | false =>
      rw [if_neg (by simp)]
      refine ⟨ys.length, y, rfl, by simp, fun _ => ?_, fun h => ?_⟩
      · rw [eraseUnit_append hcont, take_left]
      · rw [hcont] at h
        cases h
    | true =>
      by_cases hys : ys = []
      · subst hys
        rw [if_neg (by simp)]
        refine ⟨0, y, by simp, by simp, fun h => ?_, fun _ => ?_⟩
        · rw [hcont] at h
          cases h
        · rw [eraseUnit_append_continuation hcont]
          simp [eraseUnit]
      · rw [if_pos ⟨rfl, hys⟩]
        obtain ⟨k, b, hscan, hk, hunit, hnone⟩ := ih hys ([y] ++ tail) (by simp [hinput])
        refine ⟨k, b, hscan, by simp; omega, fun hb => ?_, fun hb => ?_⟩
        · have hshort : eraseUnit iutf8 ys ≠ ys := by
            rw [hunit hb]
            intro heq
            have := congrArg length heq
            rw [length_take] at this
            omega
          rw [eraseUnit_append_continuation hcont, if_neg hshort, hunit hb,
            take_append_of_le_length (Nat.le_of_lt hk)]
        · rw [eraseUnit_append_continuation hcont, if_pos (hnone hb)]

omit hwithin houtput hgeneration in
theorem canonicalEraseSpan_eq (termios : TtyTermios) (hholds : d.Holds (.canonical lines edit)) :
    ∃ span, d.canonicalEraseSpan termios = .ok span ∧
      (span = none → eraseUnit termios.iutf8 edit = edit) ∧
      ∀ n b, span = some (n, b) → edit ≠ [] ∧ n ≤ edit.length ∧
        eraseUnit termios.iutf8 edit = edit.take (edit.length - n) := by
  obtain ⟨hinput, -, hpending⟩ := hholds
  unfold canonicalEraseSpan
  split
  · rename_i hzero
    have hedit : edit = [] := eq_nil_of_length_eq_zero (hpending ▸ hzero)
    subst hedit
    exact ⟨none, rfl, fun _ => by simp [eraseUnit], nofun⟩
  · rename_i hzero
    have hne : edit ≠ [] := fun h => hzero (by rw [hpending, h]; rfl)
    have hlen : d.input.length = lines.flatten.length + edit.length := by
      rw [hinput, length_append]
    obtain ⟨k, b, hscan, hk, hunit, hnone⟩ :=
      eraseScan_eq termios.iutf8 lines.flatten hne [] (d := d) (by rw [hinput, append_nil])
    rw [sub_of_le (by omega), ok_bind, sub_of_le (by omega), ok_bind,
      show d.input.length - d.canonicalPendingLen = lines.flatten.length by omega, hlen, hscan,
      ok_bind]
    dsimp only
    cases hcont : (termios.iutf8 && isUtf8Continuation b) with
    | true => exact ⟨none, rfl, fun _ => hnone hcont, nofun⟩
    | false =>
      refine ⟨_, rfl, nofun, fun n b' h => ?_⟩
      cases h
      refine ⟨hne, by omega, ?_⟩
      rw [hunit hcont]
      congr 1
      omega

omit hwithin houtput hgeneration in
theorem tabScan_le (iutf8 : Bool) (bytes : List UInt8) (characters : ℕ) :
    (tabScan iutf8 bytes characters).1 ≤ characters + bytes.length := by
  induction bytes generalizing characters with
  | nil => exact Nat.le_refl _
  | cons byte rest ih =>
    unfold tabScan
    split
    · exact Nat.le_add_right ..
    · refine Nat.le_trans (ih _) ?_
      rw [length_cons]
      split <;> omega

omit houtput hgeneration in
theorem tabEraseColumns_ensures (hne : edit ≠ []) (hholds : d.Holds (.canonical lines edit))
    (hnear : wordSize ≤ d.canonicalColumn + (caps.input + caps.canonicalLine) → near) :
    Ensures (fun _ => near) (d.tabEraseColumns termios) fun columns => columns ≤ 8 := by
  obtain ⟨hinput, -, hpending⟩ := hholds
  have hpos : 0 < edit.length := length_pos_iff.mpr hne
  have hlen : d.input.length = lines.flatten.length + edit.length := by
    rw [hinput, length_append]
  have hle := hwithin.input_le
  rw [tabEraseColumns, sub_of_le (by omega), ok_bind, sub_of_le (by omega),
    ok_bind, assert_of _ (by omega), ok_bind]
  dsimp only
  set scan := tabScan termios.iutf8 ((d.input.take (d.input.length - 1)).drop
    (d.input.length - d.canonicalPendingLen)).reverse 0 with hscan
  have hcharacters : scan.1 ≤ d.input.length := by
    refine Nat.le_trans (tabScan_le ..) ?_
    rw [length_reverse, length_drop, length_take]
    omega
  have hbase : (if scan.2 = true then 0 else d.canonicalColumn) ≤ d.canonicalColumn := by
    split <;> omega
  generalize (if scan.2 = true then 0 else d.canonicalColumn) = base at hbase ⊢
  rw [Ensures.bind, Checked.add]
  split
  · exact sub_le ..
  · exact hnear (by omega)

omit houtput hgeneration in
theorem eraseEchoFor_ensures (hne : edit ≠ [])
    (hholds : d.Holds (.canonical lines edit)) (erasedByte : UInt8)
    (hnear : wordSize ≤ d.canonicalColumn + (caps.input + caps.canonicalLine) → near) :
    Ensures (fun _ => near) (d.eraseEchoFor termios erasedByte) fun _ => True := by
  unfold eraseEchoFor
  split
  · refine Ensures.bind_of (tabEraseColumns_ensures hwithin hne hholds hnear)
      fun columns hcolumns => ?_
    unfold TtyTermios.tabEraseEcho
    split
    · exact Ensures.assert_bind hcolumns trivial
    · trivial
  · trivial

variable (hholds : d.Holds (.canonical lines edit))

include hholds

theorem receiveErase_ensures
    (hcolumn : wordSize ≤ d.canonicalColumn + (caps.input + caps.canonicalLine) → near) :
    Ensures (fun _ => near) (d.receiveErase termios output)
      (Left caps (.canonical lines edit) (.canonical lines (eraseUnit termios.iutf8 edit))) := by
  obtain ⟨span, hspan, hnone, hsome⟩ := canonicalEraseSpan_eq termios hholds
  rw [receiveErase, hspan, ok_bind]
  cases span with
  | none =>
    rw [hnone rfl]
    exact Left.accepted hwithin houtput hholds
  | some span =>
    obtain ⟨n, b⟩ := span
    obtain ⟨hne, hn, hunit⟩ := hsome n b rfl
    refine Ensures.bind_of (eraseEchoFor_ensures hwithin hne hholds b hcolumn) fun echo _ => ?_
    rw [eraseBytes]
    refine Left.fits hwithin houtput hholds fun hfits => ?_
    obtain ⟨hinput, hrecords, hpending⟩ := hholds
    have hlen : d.input.length = lines.flatten.length + edit.length := by
      rw [hinput, length_append]
    have hle := hwithin.input_le
    rw [sub_of_le (by omega), ok_bind, sub_of_le (by omega), ok_bind]
    refine Left.echoed ⟨hwithin.inputCapacity, hwithin.recordsCapacity, ?_,
      hwithin.records_le, Nat.le_trans (sub_le ..) hwithin.pending_le⟩ houtput hgeneration
      hfits ⟨?_, hrecords, ?_⟩
    · exact Nat.le_trans (length_take_le ..) (by omega)
    · show d.input.take (d.input.length - n) = _
      rw [hunit, hinput, take_append, length_append, take_of_length_le (by omega)]
      congr 2
      omega
    · show d.canonicalPendingLen - n = _
      rw [hunit, length_take, hpending]
      omega

theorem receiveKill_ensures : Ensures (fun _ => near) (d.receiveKill termios output)
      (Left caps (.canonical lines edit) (.canonical lines [])) := by
  rw [receiveKill]
  refine Left.fits hwithin houtput hholds fun hfits => ?_
  rw [truncatePending, hholds.committedLen, ok_bind, pure_eq, ok_bind]
  obtain ⟨hinput, hrecords, hpending⟩ := hholds
  refine Left.echoed ⟨hwithin.inputCapacity, hwithin.recordsCapacity, ?_,
    hwithin.records_le, zero_le _⟩ houtput hgeneration hfits ⟨?_, hrecords, rfl⟩
  · exact Nat.le_trans (length_take_le' ..) hwithin.input_le
  · show d.input.take lines.flatten.length = _
    rw [hinput, take_left, append_nil]

/-- **A character of the edited line**, where there is room for it. -/
theorem receiveText_ensures (hword : caps.input + caps.canonicalLine < wordSize)
    (hroom : d.canonicalPendingLen < caps.canonicalLine - 1 →
      output.canEnqueue (termios.echoForByte byte) termios = .ok true →
        d.input.length < caps.input + caps.canonicalLine) :
    Ensures (fun _ => near) (d.receiveText caps byte termios output)
      (Left caps (.canonical lines edit) (.canonical lines (edit ++ [byte]))) := by
  unfold receiveText
  split
  · exact Left.refused hwithin houtput hholds
  · rename_i hpendingLt
    refine Left.fits hwithin houtput hholds fun hfits => ?_
    have hlt := hroom (by omega) hfits
    obtain ⟨hinput, hrecords, hpending⟩ := hholds
    obtain ⟨hmark, hcapacity, hrecords', hrecordsCapacity, hpending'⟩ :
        (d.markColumn output).input = d.input ∧
          (d.markColumn output).inputCapacity = d.inputCapacity ∧
          (d.markColumn output).canonicalRecords = d.canonicalRecords ∧
          (d.markColumn output).recordsCapacity = d.recordsCapacity ∧
          (d.markColumn output).canonicalPendingLen = d.canonicalPendingLen := by
      unfold markColumn
      split <;> exact ⟨rfl, rfl, rfl, rfl, rfl⟩
    rw [pushInput_eq (by rw [hmark, hcapacity, hwithin.inputCapacity]; exact hlt), ok_bind]
    rw [hpending', add_of_lt (by omega), ok_bind]
    refine Left.echoed ⟨hcapacity.trans hwithin.inputCapacity,
      hrecordsCapacity.trans hwithin.recordsCapacity, ?_, ?_, ?_⟩ houtput hgeneration hfits
      ⟨?_, ?_, ?_⟩
    · rw [hmark, length_append]
      exact hlt
    · rw [hrecords']
      exact hwithin.records_le
    · show d.canonicalPendingLen + 1 ≤ _
      omega
    · rw [hmark, hinput, append_assoc]
    · exact hrecords'.trans hrecords
    · rw [hpending, length_append]
      rfl

variable (hline : 0 < caps.canonicalLine) (hword : caps.input + caps.canonicalLine < wordSize)

include hline hword

omit hgeneration in
theorem receiveEof_ensures : Ensures (fun _ => near) (d.receiveEof caps output)
      (Left caps (.canonical lines edit) (.canonical (lines ++ [edit]) [])) := by
  obtain ⟨fits, hfits, hroom⟩ := canCommitRecord_eq hline hword hholds d.canonicalPendingLen
  rw [receiveEof, hfits, ok_bind]
  cases fits with
  | false => exact Left.refused hwithin houtput hholds
  | true =>
    obtain ⟨-, hrecordsRoom⟩ := hroom rfl
    obtain ⟨hinput, hrecords, hpending⟩ := hholds
    rw [if_neg (by simp), commitPendingRecord, pushRecord_eq (by exact hrecordsRoom), ok_bind]
    refine Left.accepted
      ⟨hwithin.inputCapacity, hwithin.recordsCapacity, hwithin.input_le, ?_, zero_le _⟩
      houtput ⟨?_, ?_, rfl⟩
    · rw [length_append, ← hwithin.recordsCapacity]
      exact hrecordsRoom
    · simp [hinput]
    · simp [hrecords, hpending]

theorem receiveNewline_ensures : Ensures (fun _ => near) (d.receiveNewline caps byte termios output)
      (Left caps (.canonical lines edit) (.canonical (lines ++ [edit ++ [byte]]) [])) := by
  have hpendingLe := hwithin.pending_le
  obtain ⟨commits, hcommits, hroom⟩ :=
    canCommitRecord_eq hline hword hholds (d.canonicalPendingLen + 1)
  rw [receiveNewline, TerminalOutput.checkedSucc, if_pos (by omega), pure_eq, ok_bind,
    newlineFits, hcommits, ok_bind]
  cases commits with
  | false => exact Left.refused hwithin houtput hholds
  | true =>
    refine Left.fits hwithin houtput hholds fun hfits => ?_
    obtain ⟨hbytes, hrecordsRoom⟩ := hroom rfl
    obtain ⟨hinput, hrecords, hpending⟩ := hholds
    have hlen : d.input.length + 1 ≤ caps.input := by
      rw [hinput, length_append]
      rw [hpending] at hbytes
      simp only [Unread.committed] at hbytes
      omega
    rw [pushInput_eq (by rw [hwithin.inputCapacity]; omega), ok_bind]
    dsimp only
    rw [add_of_lt (by omega), ok_bind, commitPendingRecord,
      pushRecord_eq (by exact hrecordsRoom), ok_bind]
    refine Left.echoed
      ⟨hwithin.inputCapacity, hwithin.recordsCapacity, ?_, ?_, zero_le _⟩ houtput hgeneration
      hfits ⟨?_, ?_, rfl⟩
    · rw [length_append, length_singleton]
      omega
    · rw [length_append, ← hwithin.recordsCapacity]
      exact hrecordsRoom
    · simp [hinput]
    · simp [hrecords, hpending]

omit houtput hgeneration hholds hline hword in
/-- **A character without room is a panic**, since only the length of the line was
looked at. -/
theorem receiveText_panics (hpending : d.canonicalPendingLen < caps.canonicalLine - 1)
    (hfits : output.canEnqueue (termios.echoForByte byte) termios = .ok true)
    (hfull : ¬d.input.length < caps.input + caps.canonicalLine) :
    ∃ panic, d.receiveText caps byte termios output = .error panic := by
  have hmark : ¬(d.markColumn output).input.length < (d.markColumn output).inputCapacity := by
    unfold markColumn
    split <;> (rw [hwithin.inputCapacity]; exact hfull)
  obtain ⟨panic, hpanic⟩ := pushInput_panics hmark byte
  refine ⟨panic, ?_⟩
  rw [receiveText, if_neg (by omega), hfits, ok_bind, if_neg (by simp), hpanic]
  rfl

end Branches

theorem pushLiteral_eq (h : d.input.length + literal.length ≤ d.inputCapacity) :
    pushLiteral literal d = .ok { d with input := d.input ++ literal } := by
  induction literal generalizing d with
  | nil => simp [pushLiteral]
  | cons byte rest ih =>
    rw [length_cons] at h
    rw [pushLiteral, pushInput_eq (by omega), ok_bind,
      ih (by simp only [length_append, length_singleton]; omega)]
    simp

theorem pushLiteral_panics (hle : d.input.length ≤ d.inputCapacity)
    (h : d.inputCapacity < d.input.length + literal.length) :
    ∃ panic, pushLiteral literal d = .error panic := by
  induction literal generalizing d with
  | nil => exact absurd h (by simp; omega)
  | cons byte rest ih =>
    rw [length_cons] at h
    by_cases hroom : d.input.length < d.inputCapacity
    · rw [pushLiteral, pushInput_eq hroom, ok_bind]
      exact ih (by simp; omega) (by simp; omega)
    · obtain ⟨panic, hpanic⟩ := pushInput_panics hroom byte
      exact ⟨panic, by rw [pushLiteral, hpanic]; rfl⟩

section Literals

variable {termios : TtyTermios} {literal : List UInt8} (hinput : 0 < caps.input)
  (hline : 0 < caps.canonicalLine) (hword : caps.input + caps.canonicalLine < wordSize)
  (hholds : d.Holds u) (hwithin : d.Within caps)

include hinput hline hword hholds

theorem canReceiveLiteral_eq (len : ℕ) : d.canReceiveLiteral caps termios len = .ok (decide (
      if termios.icanon = true then d.canonicalPendingLen + len ≤ caps.canonicalLine - 1
      else u.committed.length + len ≤ caps.input)) := by
  unfold canReceiveLiteral
  split
  · rw [pure_eq]
    congr 2
    exact propext (saturatingAdd_le (by omega))
  · rw [hholds.committedLen, ok_bind, pure_eq]
    congr 2
    exact propext (saturatingAdd_le (by omega))

include hwithin

/-- **A literal is taken whole or not at all**, where there is room for it. -/
theorem receiveLiteral_returns (hmode : u.isCanonical = termios.icanon)
    (hroom : termios.icanon = true →
      d.canonicalPendingLen + literal.length ≤ caps.canonicalLine - 1 →
        d.input.length + literal.length ≤ caps.input + caps.canonicalLine) :
    ∃ result after, d.receiveLiteral caps termios literal = .ok (result, after) ∧
      after.Within caps ∧
      ((result = .backpressured ∧ after.Holds u) ∨
        (result = .consumed ∧ after.Holds (u.append literal))) := by
  rw [receiveLiteral, canReceiveLiteral_eq hinput hline hword hholds, ok_bind]
  by_cases hadmit : if termios.icanon = true then
      d.canonicalPendingLen + literal.length ≤ caps.canonicalLine - 1
    else u.committed.length + literal.length ≤ caps.input
  · rw [decide_eq_true hadmit, if_neg (by simp)]
    cases u with
    | canonical lines edit =>
      have hicanon : termios.icanon = true := hmode.symm
      rw [if_pos hicanon] at hadmit
      have hfits := hroom hicanon hadmit
      obtain ⟨hin, hrecords, hpending⟩ := hholds
      rw [assert_of _ (by unfold saturatingAdd; rw [hwithin.inputCapacity]; omega), ok_bind,
        pushLiteral_eq (by rw [hwithin.inputCapacity]; exact hfits), ok_bind, extendPending,
        if_pos hicanon]
      dsimp only
      rw [add_of_lt (by omega), ok_bind, pure_eq, ok_bind]
      refine ⟨_, _, rfl, ⟨hwithin.inputCapacity, hwithin.recordsCapacity, ?_, hwithin.records_le,
        hadmit⟩, .inr ⟨rfl, ?_, hrecords, ?_⟩⟩
      · rw [length_append]
        exact hfits
      · rw [hin, append_assoc]
      · rw [hpending, length_append]
    | raw stream =>
      have hicanon : ¬termios.icanon = true := by
        rw [← hmode]
        nofun
      rw [if_neg hicanon] at hadmit
      obtain ⟨hin, hrecords, hpending⟩ := hholds
      have hfits : d.input.length + literal.length ≤ caps.input := by
        rw [hin]
        exact hadmit
      rw [assert_of _ (by unfold saturatingAdd; rw [hwithin.inputCapacity]; omega), ok_bind,
        pushLiteral_eq (by rw [hwithin.inputCapacity]; omega), ok_bind, extendPending,
        if_neg hicanon, pure_eq, ok_bind]
      refine ⟨_, _, rfl, ⟨hwithin.inputCapacity, hwithin.recordsCapacity, ?_, hwithin.records_le,
        hwithin.pending_le⟩, .inr ⟨rfl, ?_, hrecords, hpending⟩⟩
      · rw [length_append]
        omega
      · rw [hin]
  · rw [decide_eq_false hadmit]
    exact ⟨_, _, rfl, hwithin, .inl ⟨rfl, hholds⟩⟩

theorem receiveLiteral_panics (hicanon : termios.icanon = true)
    (hpending : d.canonicalPendingLen + literal.length ≤ caps.canonicalLine - 1)
    (hfull : ¬d.input.length + literal.length ≤ caps.input + caps.canonicalLine) :
    ∃ panic, d.receiveLiteral caps termios literal = .error panic := by
  have hle := hwithin.input_le
  obtain ⟨panic, hpanic⟩ : ∃ panic, pushLiteral literal d = .error panic :=
    pushLiteral_panics (by rw [hwithin.inputCapacity]; exact hle)
      (by rw [hwithin.inputCapacity]; omega)
  rw [receiveLiteral, canReceiveLiteral_eq hinput hline hword hholds, ok_bind,
    decide_eq_true (by rwa [if_pos hicanon]), if_neg (by simp), hpanic, Checked.assert]
  split
  · exact ⟨panic, rfl⟩
  · exact ⟨_, rfl⟩

end Literals

theorem popLoop_eq {input : List UInt8} (h : count ≤ input.length) :
    popLoop count input = .ok (input.take count, input.drop count) := by
  induction count generalizing input with
  | zero => rfl
  | succ count ih =>
    obtain _ | ⟨byte, rest⟩ := input
    · simp at h
    · rw [popLoop]
      simp [ih (Nat.le_of_succ_le_succ h)]

theorem popInput_eq (hholds : d.Holds u) (hroom : count ≤ room)
    (hcount : count ≤ u.committed.length) :
    d.popInput count room =
      .ok (d.input.take count, { d with input := d.input.drop count }) := by
  have hlen : count ≤ d.input.length := by
    rw [hholds.input_eq]
    cases u with
    | canonical lines edit =>
      rw [Unread.bytes, length_append]
      exact Nat.le_trans hcount (Nat.le_add_right ..)
    | raw stream => exact hcount
  rw [popInput, assert_of _ hroom, ok_bind, hholds.committedLen, ok_bind, assert_of _ hcount,
    ok_bind, popLoop_eq hlen, ok_bind]
  rfl

theorem Within.drop (h : d.Within caps) (count : ℕ) :
    { d with input := d.input.drop count }.Within caps where
  inputCapacity := h.inputCapacity
  recordsCapacity := h.recordsCapacity
  input_le := by
    rw [length_drop]
    exact Nat.le_trans (sub_le ..) h.input_le
  records_le := h.records_le
  pending_le := h.pending_le

theorem readRaw_returns {stream : List UInt8} (hwithin : d.Within caps)
    (hholds : d.Holds (.raw stream)) (room : ℕ) :
    ∃ after, d.readRaw room = .ok ((Unread.read room (.raw stream)).1, after) ∧
      after.Within caps ∧ after.Holds (Unread.read room (.raw stream)).2 := by
  rw [readRaw, hholds.committedLen, ok_bind,
    popInput_eq hholds (Nat.min_le_left ..) (Nat.min_le_right ..), ok_bind]
  obtain ⟨hinput, hrecords, hpending⟩ := hholds
  have htake : d.input.take (min room stream.length) = stream.take room := by
    rw [hinput, ← take_take, take_length]
  have hdrop : d.input.drop (min room stream.length) = stream.drop room := by
    rw [hinput]
    rcases Nat.le_total room stream.length with h | h
    · rw [Nat.min_eq_left h]
    · rw [Nat.min_eq_right h, drop_length, drop_eq_nil_of_le h]
  have hafter := hwithin.drop (min room stream.length)
  dsimp only [Unread.committed]
  rw [hdrop] at hafter
  rw [htake, hdrop]
  by_cases hnil : stream.take room = []
  · have hsame : stream.drop room = stream := by
      rcases take_eq_nil_iff.mp hnil with hroom | hstream
      · simp [hroom]
      · simp [hstream]
    rw [if_pos (by simp [hnil]), Unread.read, if_pos hnil]
    exact ⟨_, rfl, hafter, hsame, hrecords, hpending⟩
  · rw [if_neg (by simpa using hnil), Unread.read, if_neg hnil]
    exact ⟨_, rfl, hafter, rfl, hrecords, hpending⟩

/-- **A read of a record** takes from the front of the first line; what is left of the
line stays the first record. -/
theorem readRecord_returns {line : List UInt8} {rest : List (List UInt8)} (hwithin : d.Within caps)
    (hholds : d.Holds (.canonical (line :: rest) edit)) (hline : line ≠ []) (hroom : room ≠ 0) :
    ∃ after, d.readRecord line.length room = .ok (.bytes (line.take room), after) ∧
      after.Within caps ∧ after.Holds (.canonical
        (if line.length ≤ room then rest else line.drop room :: rest) edit) := by
  have hpos : 0 < line.length := length_pos_iff.mpr hline
  have hcommitted : min room line.length ≤ (Unread.canonical (line :: rest) edit).committed.length := by
    rw [Unread.committed, flatten_cons, length_append]
    exact Nat.le_trans (Nat.min_le_right ..) (Nat.le_add_right ..)
  rw [readRecord, popInput_eq hholds (Nat.le_refl _) hcommitted, ok_bind]
  obtain ⟨hinput, hrecords, hpending⟩ := hholds
  rw [flatten_cons, append_assoc] at hinput
  have htake : d.input.take (min room line.length) = line.take room := by
    rw [hinput, take_append_of_le_length (Nat.min_le_right ..), ← take_take, take_length]
  dsimp only
  have hlength : (line.take room).length = min room line.length := length_take
  rw [htake, assert_of _ (by rw [hlength]; omega), ok_bind, shortenRecord, hlength]
  have hafter := hwithin.drop (min room line.length)
  have hle := hwithin.records_le
  rw [hrecords, map_cons, length_cons] at hle
  by_cases hwhole : line.length ≤ room
  · rw [if_pos hwhole, if_pos (Nat.min_eq_right hwhole), pure_eq, ok_bind]
    refine ⟨_, rfl, ⟨hafter.inputCapacity, hafter.recordsCapacity, hafter.input_le, ?_,
      hafter.pending_le⟩, ?_, ?_, hpending⟩
    · rw [hrecords]
      exact Nat.le_of_succ_le hle
    · rw [Nat.min_eq_right hwhole, hinput, drop_left]
    · rw [hrecords]
      rfl
  · have hmin : min room line.length = room := Nat.min_eq_left (by omega)
    rw [if_neg hwhole, if_neg (by omega), assert_of _ (by simp [hrecords]), ok_bind, pure_eq,
      ok_bind]
    refine ⟨_, rfl, ⟨hafter.inputCapacity, hafter.recordsCapacity, hafter.input_le, ?_,
      hafter.pending_le⟩, ?_, ?_, hpending⟩
    · rw [hrecords]
      exact hle
    · rw [hmin, hinput, drop_append_of_le_length (by omega), flatten_cons, append_assoc]
    · rw [hmin, hrecords, map_cons, map_cons, length_drop]
      rfl

theorem readCanonical_returns {lines : List (List UInt8)} (hwithin : d.Within caps)
    (hholds : d.Holds (.canonical lines edit)) (room : ℕ) :
    ∃ after, d.readCanonical room = .ok ((Unread.read room (.canonical lines edit)).1, after) ∧
      after.Within caps ∧ after.Holds (Unread.read room (.canonical lines edit)).2 := by
  have hrecords := hholds.2.1
  unfold readCanonical
  match lines with
  | [] =>
    rw [hrecords]
    exact ⟨_, rfl, hwithin, hholds⟩
  | [] :: rest =>
    rw [hrecords]
    refine ⟨_, rfl, ⟨hwithin.inputCapacity, hwithin.recordsCapacity, hwithin.input_le, ?_,
      hwithin.pending_le⟩, hholds.1, rfl, hholds.2.2⟩
    have hle := hwithin.records_le
    rw [hrecords] at hle
    exact Nat.le_trans (Nat.le_succ _) hle
  | (first :: line) :: rest =>
    rw [hrecords]
    show ∃ after, (if (first :: line).length = 0 then _ else _) = _ ∧ _
    rw [if_neg (by simp)]
    by_cases hroom : room = 0
    · rw [if_pos hroom]
      subst hroom
      exact ⟨d, rfl, hwithin, hholds⟩
    · rw [if_neg hroom]
      exact readRecord_returns hwithin hholds (cons_ne_nil _ _) hroom

theorem read_returns {termios : TtyTermios} (hwithin : d.Within caps) (hholds : d.Holds u)
    (hmode : u.isCanonical = termios.icanon) (room : ℕ) :
    ∃ after, d.read termios room = .ok ((u.read room).1, after) ∧ after.Within caps ∧
      after.Holds (u.read room).2 := by
  unfold read
  cases u with
  | raw stream =>
    have hicanon : termios.icanon = false := hmode.symm
    rw [if_pos hicanon]
    exact readRaw_returns hwithin hholds room
  | canonical lines edit =>
    have hicanon : termios.icanon = true := hmode.symm
    rw [if_neg (by simp [hicanon])]
    exact readCanonical_returns hwithin hholds room

/-- **A change of the mode keeps the queue** and only moves its boundaries. -/
theorem setCanonical_returns (hinput : 0 < caps.input) (hwithin : d.Within caps)
    (hholds : d.Holds u) {mode : Bool} (hmode : u.isCanonical ≠ mode) :
    ∃ after, d.setCanonical mode = .ok after ∧ after.Within caps ∧
      after.Holds (u.setCanonical mode) ∧ after.input = d.input := by
  unfold setCanonical
  cases u with
  | canonical lines edit =>
    have hfalse : mode = false := by
      cases mode with
      | true => exact absurd rfl hmode
      | false => rfl
    subst hfalse
    exact ⟨_, rfl, ⟨hwithin.inputCapacity, hwithin.recordsCapacity, hwithin.input_le,
      zero_le _, zero_le _⟩, ⟨hholds.1, rfl, rfl⟩, rfl⟩
  | raw stream =>
    have htrue : mode = true := by
      cases mode with
      | true => rfl
      | false => exact absurd rfl hmode
    subst htrue
    obtain ⟨hin, hrecords, hpending⟩ := hholds
    rw [if_pos rfl, assert_of _ hrecords, ok_bind, assert_of _ hpending, ok_bind, commitUnread]
    dsimp only [Unread.setCanonical]
    by_cases hnil : stream = []
    · rw [if_neg (by simp [hin, hnil]), if_pos rfl, if_pos hnil]
      exact ⟨_, rfl, ⟨hwithin.inputCapacity, hwithin.recordsCapacity, hwithin.input_le,
        hwithin.records_le, hwithin.pending_le⟩, ⟨by rw [hin, hnil]; rfl, hrecords, hpending⟩, rfl⟩
    · rw [if_pos (by simpa [hin] using hnil), if_pos rfl, if_neg hnil,
        pushRecord_eq (by show d.canonicalRecords.length < d.recordsCapacity
                          rw [hrecords, hwithin.recordsCapacity]; exact hinput)]
      refine ⟨_, rfl, ⟨hwithin.inputCapacity, hwithin.recordsCapacity, hwithin.input_le, ?_,
        hwithin.pending_le⟩, ⟨?_, ?_, hpending⟩, rfl⟩
      · rw [hrecords]
        exact hinput
      · simp [hin]
      · rw [hrecords, hin]
        rfl

end TtyDiscipline

end Anemone.Tty
