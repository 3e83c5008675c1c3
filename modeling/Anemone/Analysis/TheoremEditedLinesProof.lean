import Anemone.Analysis.TheoremTtyLimitsProof
import Anemone.Interface.EditedLines

/-!
# Reads deliver the edited lines

What was read, followed by what is unread, is what was typed, also across changes of the mode.
While canonical mode stays on, the unread lines are the last of the typed ones, the first of them
perhaps without its beginning.
-/

namespace Anemone.Tty

open TerminalInner (Op Answer Step Valid)
open TerminalInner List

variable {caps : TtyCapacities} {unread : Unread} {delivered : List Item} {label : Op × Answer}
  {number : ℕ}

def Unread.edit : Unread → List UInt8
  | .canonical _ edit => edit
  | .raw _ => []

/-- The typed input and the unread one differ in what was read. -/
structure Behind (read : List UInt8) (typed unread : Unread) : Prop where
  mode : typed.isCanonical = unread.isCanonical
  edit : typed.edit = unread.edit
  committed : typed.committed = read ++ unread.committed

theorem Unread.bytes_eq (u : Unread) : u.bytes = u.committed ++ u.edit := by
  cases u with
  | canonical lines edit => rfl
  | raw stream => exact (append_nil stream).symm

theorem Behind.bytes {read : List UInt8} {typed : Unread} (h : Behind read typed unread) :
    read ++ unread.bytes = typed.bytes := by
  rw [Unread.bytes_eq, Unread.bytes_eq, h.committed, h.edit, append_assoc]

theorem Behind.append {read : List UInt8} {typed : Unread} (h : Behind read typed unread)
    (bytes : List UInt8) : Behind read (typed.append bytes) (unread.append bytes) := by
  obtain ⟨hmode, hedit, hcommitted⟩ := h
  cases typed with
  | canonical lines edit =>
    cases unread with
    | canonical lines' edit' => exact ⟨rfl, congrArg (· ++ bytes) hedit, hcommitted⟩
    | raw stream => cases hmode
  | raw typedStream =>
    cases unread with
    | canonical lines edit => cases hmode
    | raw stream =>
      refine ⟨rfl, rfl, ?_⟩
      show typedStream ++ bytes = read ++ (stream ++ bytes)
      rw [← append_assoc, show typedStream = read ++ stream from hcommitted]

theorem Behind.type {read : List UInt8} {typed : Unread} (h : Behind read typed unread)
    (termios : TtyTermios) (byte : UInt8) :
    Behind read (typed.type termios byte) (unread.type termios byte) := by
  cases typed with
  | raw typedStream =>
    cases unread with
    | canonical lines edit => cases h.mode
    | raw stream => exact h.append [byte]
  | canonical lines edit =>
    cases unread with
    | raw stream => cases h.mode
    | canonical lines' edit' =>
      have hedit : edit = edit' := h.edit
      have hcommitted : lines.flatten = read ++ lines'.flatten := h.committed
      subst hedit
      simp only [Unread.type]
      have hended : ∀ line : List UInt8,
          Behind read (.canonical (lines ++ [line]) []) (.canonical (lines' ++ [line]) []) :=
        fun line => ⟨rfl, rfl, by
          show (lines ++ [line]).flatten = read ++ (lines' ++ [line]).flatten
          simp [hcommitted]⟩
      repeat' split
      · exact ⟨rfl, rfl, hcommitted⟩
      · exact ⟨rfl, rfl, hcommitted⟩
      · exact hended _
      · exact hended _
      · exact ⟨rfl, rfl, hcommitted⟩

theorem Behind.setCanonical {read : List UInt8} {typed : Unread} (h : Behind read typed unread)
    (mode : Bool) :
    Behind read (typed.setCanonical mode) (unread.setCanonical mode) := by
  have hbytes := h.bytes
  cases typed with
  | canonical lines edit =>
    cases unread with
    | raw stream => cases h.mode
    | canonical lines' edit' =>
      cases mode with
      | true => exact h
      | false => exact ⟨rfl, rfl, hbytes.symm⟩
  | raw typedStream =>
    cases unread with
    | canonical lines edit => cases h.mode
    | raw stream =>
      cases mode with
      | false => exact h
      | true =>
        refine ⟨rfl, rfl, ?_⟩
        have hone : ∀ stream : List UInt8,
            (if stream = [] then [] else [stream]).flatten = stream := by
          intro stream
          split
          · rename_i hnil
            simp [hnil]
          · simp
        show (if typedStream = [] then [] else [typedStream]).flatten =
          read ++ (if stream = [] then [] else [stream]).flatten
        rw [hone, hone]
        exact hbytes.symm

theorem Behind.accept {read : List UInt8} {typed : Unread} (h : Behind read typed unread)
    (termios : TtyTermios) (token : Token) :
    Behind read (typed.accept termios token) (unread.accept termios token) := by
  cases token with
  | ignored | interrupt => exact h
  | literal bytes => exact h.append bytes
  | byte byte => exact h.type termios byte

theorem Behind.after {read : List UInt8} {typed : Unread} (h : Behind read typed unread)
    (termios : TtyTermios) (label : Op × Answer) :
    Behind read (typed.after termios label) (unread.after termios label) := by
  unfold Unread.after
  split
  · exact h.accept ..
  · exact h.append _
  · exact h.setCanonical _
  · exact h

theorem Behind.read {read : List UInt8} {typed : Unread} (h : Behind read typed unread) (room : ℕ) :
    Behind (read ++ (unread.read room).1.data) typed (unread.read room).2 := by
  obtain ⟨hmode, hedit, hcommitted⟩ := h
  match unread with
  | .raw stream =>
    simp only [Unread.read]
    split
    · exact ⟨hmode, hedit, by simpa [InputRead.data] using hcommitted⟩
    · refine ⟨hmode, hedit, ?_⟩
      show typed.committed = read ++ stream.take room ++ stream.drop room
      rw [append_assoc, take_append_drop]
      exact hcommitted
  | .canonical [] edit => exact ⟨hmode, hedit, by simpa [InputRead.data, Unread.read] using hcommitted⟩
  | .canonical ([] :: rest) edit =>
    exact ⟨hmode, hedit, by simpa [InputRead.data, Unread.read, Unread.committed] using hcommitted⟩
  | .canonical ((first :: line) :: rest) edit =>
    refine ⟨hmode, hedit, ?_⟩
    have hcommitted : typed.committed = read ++ ((first :: line) ++ rest.flatten) := hcommitted
    show typed.committed = read ++ (first :: line).take room ++
      (if (first :: line).length ≤ room then rest else (first :: line).drop room :: rest).flatten
    rw [hcommitted, append_assoc]
    congr 1
    split
    · rename_i hwhole
      rw [take_of_length_le hwhole]
    · rw [flatten_cons, ← append_assoc, take_append_drop]

theorem itemsFrom_append (number : ℕ) (before after : List (List UInt8)) :
    itemsFrom number (before ++ after) =
      itemsFrom number before ++ itemsFrom (number + before.length) after := by
  induction before generalizing number with
  | nil => rfl
  | cons line rest ih =>
    rw [cons_append, itemsFrom, ih, itemsFrom, append_assoc, length_cons,
      show number + 1 + rest.length = number + (rest.length + 1) by omega]

/-- The unread lines are the last of the typed lines, and their items follow what was
delivered. -/
def Numbered (delivered : List Item) (typed unread : Unread) : Prop :=
  ∃ lines rest edit number, typed = .canonical lines edit ∧ unread = .canonical rest edit ∧
    number + rest.length = lines.length ∧
    delivered ++ itemsFrom number rest = itemsFrom 0 lines

theorem Numbered.ended {lines rest : List (List UInt8)}
    (hnumber : number + rest.length = lines.length)
    (hitems : delivered ++ itemsFrom number rest = itemsFrom 0 lines) (line : List UInt8) :
    Numbered delivered (.canonical (lines ++ [line]) []) (.canonical (rest ++ [line]) []) := by
  refine ⟨lines ++ [line], rest ++ [line], [], number, rfl, rfl, ?_, ?_⟩
  · simp only [length_append, length_singleton]
    omega
  · rw [itemsFrom_append, itemsFrom_append, ← append_assoc, hitems, hnumber, Nat.zero_add]

theorem Numbered.accept {typed : Unread} (h : Numbered delivered typed unread)
    (termios : TtyTermios) (token : Token) :
    Numbered delivered (typed.accept termios token) (unread.accept termios token) := by
  obtain ⟨lines, rest, edit, number, rfl, rfl, hnumber, hitems⟩ := h
  have hedited : ∀ edit', Numbered delivered (.canonical lines edit') (.canonical rest edit') :=
    fun edit' => ⟨lines, rest, edit', number, rfl, rfl, hnumber, hitems⟩
  cases token with
  | ignored | interrupt => exact hedited edit
  | literal bytes => exact hedited _
  | byte byte =>
    simp only [Unread.accept, Unread.type]
    repeat' split
    · exact hedited _
    · exact hedited _
    · exact Numbered.ended hnumber hitems _
    · exact Numbered.ended hnumber hitems _
    · exact hedited _

theorem Numbered.after {typed : Unread} (h : Numbered delivered typed unread) (termios : TtyTermios)
    (hstays : StaysCanonical label) :
    Numbered delivered (typed.after termios label) (unread.after termios label) := by
  unfold Unread.after
  split
  · exact h.accept ..
  · rename_i bytes
    exact h.accept termios (.literal bytes)
  · rename_i termios' flushInput
    have hmode : termios'.icanon = true := hstays
    obtain ⟨lines, rest, edit, number, rfl, rfl, hrest⟩ := h
    rw [hmode]
    exact ⟨lines, rest, edit, number, rfl, rfl, hrest⟩
  · exact h

/-- **A read delivers items of the first unread line.** -/
theorem Numbered.read {typed : Unread} (h : Numbered delivered typed unread) (room : ℕ) :
    ∃ items, Delivers (unread.read room).1 items ∧
      Numbered (delivered ++ items) typed (unread.read room).2 := by
  obtain ⟨lines, rest, edit, number, rfl, rfl, hnumber, hitems⟩ := h
  match rest with
  | [] => exact ⟨[], rfl, lines, [], edit, number, rfl, rfl, hnumber, by simpa using hitems⟩
  | [] :: rest =>
    refine ⟨[(number, none)], ⟨number, rfl⟩, lines, rest, edit, number + 1, rfl, rfl, ?_, ?_⟩
    · rw [length_cons] at hnumber
      omega
    · rw [append_assoc]
      exact hitems
  | (first :: line) :: rest =>
    refine ⟨_, ⟨number, rfl⟩, ?_⟩
    rw [itemsFrom, lineItems, if_neg (by simp)] at hitems
    rw [length_cons] at hnumber
    simp only [Unread.read]
    split
    · rename_i hwhole
      refine ⟨lines, rest, edit, number + 1, rfl, rfl, by omega, ?_⟩
      rw [take_of_length_le hwhole, append_assoc]
      exact hitems
    · rename_i hpart
      refine ⟨lines, _ :: rest, edit, number, rfl, rfl, by simpa using hnumber, ?_⟩
      have hleft : (first :: line).drop room ≠ [] := by
        intro hnil
        exact hpart (drop_eq_nil_iff.mp hnil)
      rw [itemsFrom, lineItems, if_neg hleft, append_assoc, ← append_assoc (map ..),
        ← map_append, take_append_drop]
      exact hitems

/-- A step is a read, or does to the unread input what it does to the typed one. -/
theorem Does.cases {u after : Unread} {termios : TtyTermios} (hkeeps : KeepsInput label)
    (hdoes : u.Does termios label.1 label.2 after) :
    (∃ room, label = (.read room, .input (u.read room).1) ∧ after = (u.read room).2) ∨
      ((∀ x rest, readResults ((label, x) :: rest) = readResults rest) ∧
        after = u.after termios label) := by
  obtain ⟨op, answer⟩ := label
  cases op with
  | read room =>
    obtain ⟨rfl, rfl⟩ := hdoes
    exact .inl ⟨room, rfl, rfl⟩
  | receive unit =>
    refine .inr ⟨fun _ _ => rfl, ?_⟩
    obtain ⟨result, rfl, htakes⟩ := hdoes
    cases htoken : unit.token termios with
    | ignored =>
      rw [htoken] at htakes
      obtain ⟨rfl, rfl⟩ := htakes
      simp [Unread.after, rxEffect, htoken, Unread.accept]
    | interrupt =>
      rw [htoken] at htakes
      obtain ⟨rfl, -⟩ := htakes
      exact absurd hkeeps not_false
    | literal bytes =>
      rw [htoken] at htakes
      rcases htakes with ⟨rfl, rfl⟩ | ⟨rfl, rfl⟩
      · rfl
      · simp [Unread.after, rxEffect, htoken, Unread.accept]
    | byte byte =>
      rw [htoken, Unread.Takes] at htakes
      cases hsignal : termios.signalControl byte with
      | some signal =>
        rw [hsignal] at htakes
        obtain ⟨rfl, -⟩ := htakes
        exact absurd hkeeps not_false
      | none =>
        rw [hsignal] at htakes
        rcases htakes with ⟨rfl, rfl⟩ | ⟨rfl, rfl⟩
        · rfl
        · simp [Unread.after, rxEffect, htoken, Unread.accept]
  | literal bytes =>
    refine .inr ⟨fun _ _ => rfl, ?_⟩
    obtain ⟨result, rfl, htakes⟩ := hdoes
    rcases htakes with ⟨rfl, rfl⟩ | ⟨rfl, rfl⟩
    · rfl
    · rfl
  | flush input output =>
    refine .inr ⟨fun _ _ => rfl, ?_⟩
    have hinput : input = false := hkeeps
    rw [Unread.Does, hinput] at hdoes
    exact hdoes
  | commit generation drained termios' flushInput =>
    refine .inr ⟨fun _ _ => rfl, ?_⟩
    rcases hdoes with ⟨rfl, rfl⟩ | ⟨rfl, rfl⟩
    · rfl
    · have hflush : flushInput = false := hkeeps
      rw [hflush]
      rfl
  | write | drain => exact .inr ⟨fun _ _ => rfl, hdoes⟩

/-- **What reads and other steps keep, runs keep.**  `R` relates the answers of the reads
so far, the typed and the unread input. -/
theorem run_follows (hcaps : Valid caps) {R : List InputRead → Unread → Unread → Prop}
    {allowed : Op × Answer → Prop} (hallowed : ∀ label, allowed label → KeepsInput label)
    (hafter : ∀ results t u termios label, allowed label → R results t u →
      R results (t.after termios label) (u.after termios label))
    (hread : ∀ results t u room, R results t u → R (results ++ [(u.read room).1]) t (u.read room).2)
    {path : List ((Op × Answer) × TerminalInner)} {s : TerminalInner}
    (hpath : Run.Path (Step caps) s path) (hall : Run.AllSteps (fun _ => allowed) s path)
    (results : List InputRead) {t u : Unread} (hs : s.Sound caps u) (hR : R results t u) :
    ∃ u', (Run.last s path).Sound caps u' ∧ R (results ++ readResults path) (typed s path t) u' := by
  induction path generalizing s results t u with
  | nil => exact ⟨u, hs, by rwa [readResults, append_nil]⟩
  | cons x rest ih =>
    obtain ⟨label, s'⟩ := x
    obtain ⟨hstep, hrest⟩ := hpath
    obtain ⟨hlabel, hall⟩ := hall
    obtain ⟨u', hs', hdoes⟩ := hs.step hcaps hstep
    rcases Does.cases (hallowed label hlabel) hdoes with ⟨room, rfl, rfl⟩ | ⟨hresults, rfl⟩
    · obtain ⟨u'', hlast, hR'⟩ := ih hrest hall _ hs' (hread results t u room hR)
      exact ⟨u'', hlast, by rwa [append_assoc] at hR'⟩
    · obtain ⟨u'', hlast, hR'⟩ := ih hrest hall _ hs' (hafter results t u s.termios label hlabel hR)
      exact ⟨u'', hlast, by rwa [hresults]⟩

theorem itemsFrom_eq_nil {lines : List (List UInt8)} :
    itemsFrom number lines = [] ↔ lines = [] := by
  cases lines with
  | nil => simp [itemsFrom]
  | cons line rest =>
    have hne : lineItems number line ≠ [] := by
      unfold lineItems
      split <;> simp_all
    simp [itemsFrom, hne]

theorem setCanonical_bytes (mode : Bool) (u : Unread) : (u.setCanonical mode).bytes = u.bytes := by
  cases u with
  | canonical lines edit => cases mode <;> rfl
  | raw stream =>
    cases mode with
    | false => rfl
    | true =>
      by_cases hnil : stream = []
      all_goals simp [Unread.setCanonical, Unread.bytes, hnil]

/-- **Reads deliver the edited lines.**  Consider a run of a new terminal that throws no input
away: no signal, no flush.

* What was read, followed by the input queue, is what was typed and not erased, also across any
  changes of the mode; a change of the mode leaves the queue as it is.
* If canonical mode stayed on, what was typed are the ended lines and the edited line.  Every read
  delivered bytes of one line, or the one end of file of an empty line, and together, in order,
  they delivered a first part of the lines.  The next read finds nothing exactly if all ended
  lines were delivered.

SOURCE: device/tty/discipline.rs:55-155, 252-387, device/tty/terminal.rs:187-214 -/
theorem edited_lines_delivered (hinput : 1 ≤ caps.input) (hline : 1 ≤ caps.canonicalLine)
    (houtput : 8 ≤ caps.output) {allocated : Bool × Bool × Bool} {start : TerminalInner}
    (hstart : TerminalInner.tryNewWithControl caps allocated = .ok (.ok start))
    {path : List ((Op × Answer) × TerminalInner)} (hpath : Run.Path (Step caps) start path)
    (hkeeps : Run.AllSteps (fun _ => KeepsInput) start path) :
    (readResults path).flatMap InputRead.data ++ (Run.last start path).discipline.input =
        (typed start path (.canonical [] [])).bytes ∧
      (∀ generation drained termios after,
        Step caps (Run.last start path) (.commit generation drained termios false, .committed true)
            after →
          after.discipline.input = (Run.last start path).discipline.input) ∧
      (Run.AllSteps (fun _ => StaysCanonical) start path →
        ∃ lines edit deliveries, typed start path (.canonical [] []) = .canonical lines edit ∧
          List.Forall₂ Delivers (readResults path) deliveries ∧
          deliveries.flatten <+: itemsFrom 0 lines ∧
          (readResults path).flatMap InputRead.data <+: lines.flatten ∧
          ∀ room, ∃ answer after,
            Step caps (Run.last start path) (.read room, .input answer) after ∧
              (answer = .empty ↔ deliveries.flatten = itemsFrom 0 lines)) := by
  have hcaps : Valid caps := ⟨hinput, hline, houtput, TerminalInner.word_of_made hstart⟩
  have hsound := TerminalInner.tryNewWithControl_sound hcaps hstart
  obtain ⟨u, hs, hbehind⟩ := run_follows hcaps
    (R := fun results t u => Behind (results.flatMap InputRead.data) t u)
    (fun _ h => h) (fun _ _ _ termios label _ h => h.after termios label)
    (fun results _ _ room h => by
      rw [List.flatMap_append, List.flatMap_singleton]
      exact h.read room)
    hpath hkeeps [] hsound ⟨rfl, rfl, rfl⟩
  rw [List.nil_append] at hbehind
  refine ⟨?_, fun generation drained termios after hstep => ?_, fun hstays => ?_⟩
  · rw [hs.holds.input_eq]
    exact hbehind.bytes
  · obtain ⟨u', hs', hdoes⟩ := hs.step hcaps hstep
    rcases hdoes with ⟨hanswer, -⟩ | ⟨-, rfl⟩
    · cases hanswer
    · rw [hs'.holds.input_eq, hs.holds.input_eq]
      exact setCanonical_bytes termios.icanon u
  · obtain ⟨u', hs', deliveries, hdelivers, lines, rest, edit, number, htyped, rfl, -, hitems⟩ :=
      run_follows hcaps
        (R := fun results t u => ∃ deliveries, List.Forall₂ Delivers results deliveries ∧
          Numbered deliveries.flatten t u)
        (fun _ (h : _ ∧ StaysCanonical _) => h.1)
        (by
          rintro _ _ _ termios label hlabel ⟨deliveries, hdelivers, h⟩
          exact ⟨deliveries, hdelivers, h.after termios hlabel.2⟩)
        (by
          rintro results _ _ room ⟨deliveries, hdelivers, h⟩
          obtain ⟨items, hitems, hnext⟩ := h.read room
          refine ⟨deliveries ++ [items], ?_, ?_⟩
          · exact List.rel_append hdelivers (.cons hitems .nil)
          · rwa [List.flatten_append, List.flatten_singleton])
        hpath (hkeeps.and hstays) [] hsound
        ⟨[], .nil, [], [], [], 0, rfl, rfl, rfl, rfl⟩
    refine ⟨lines, edit, deliveries, htyped, hdelivers, ⟨_, hitems⟩, ?_, fun room => ?_⟩
    · rw [htyped] at hbehind
      exact ⟨_, hbehind.committed.symm⟩
    · obtain ⟨d, hread, -, -⟩ := TtyDiscipline.read_returns hs'.within hs'.holds hs'.mode room
      refine ⟨(Unread.read room (.canonical rest edit)).1,
        { Run.last start path with discipline := d }, ?_, ?_⟩
      · show TerminalInner.run _ _ (.read room) = _
        rw [TerminalInner.run, TerminalInner.readInputQuiet, hread]
        rfl
      · -- the items that are left are those of the unread lines
        have hleft : deliveries.flatten = itemsFrom 0 lines ↔ rest = [] := by
          rw [← hitems, List.self_eq_append_right, itemsFrom_eq_nil]
        rw [hleft]
        rcases rest with - | ⟨- | ⟨_, _⟩, rest⟩
        all_goals simp [Unread.read]

def eightBytes : TtyCapacities := ⟨8, 8, 64⟩

/-- A character is erased, a line is killed, an empty line is ended by the end of file, and the
lines are read. -/
def editAndRead : List Op :=
  [.receive (.byte 0x61), .receive (.byte 0x62), .receive (.byte 0x7f), .receive (.byte 0x0a),
    .receive (.byte 0x63), .receive (.byte 0x15), .receive (.byte 0x04), .receive (.byte 0x64),
    .receive (.byte 0x0a), .read 9, .read 9, .read 1]

/-- The run of these operations on a new terminal. -/
def edited : List ((Op × Answer) × TerminalInner) :=
  Run.trace (TerminalInner.run · eightBytes) (.fresh eightBytes) editAndRead

theorem edited_lines_delivered_edited :
    readResults edited = [.bytes [0x61, 0x0a], .eof, .bytes [0x64]] ∧
      typed (.fresh eightBytes) edited (.canonical [] []) =
        .canonical [[0x61, 0x0a], [], [0x64, 0x0a]] [] ∧
      ∃ deliveries, List.Forall₂ Delivers (readResults edited) deliveries ∧
        deliveries.flatten <+: itemsFrom 0 [[0x61, 0x0a], [], [0x64, 0x0a]] := by
  have hreads : readResults edited = [.bytes [0x61, 0x0a], .eof, .bytes [0x64]] := by decide
  have htyped : typed (.fresh eightBytes) edited (.canonical [] []) =
      .canonical [[0x61, 0x0a], [], [0x64, 0x0a]] [] := by decide
  obtain ⟨-, -, hlines⟩ := @edited_lines_delivered eightBytes (by decide) (by decide) (by decide)
    (true, true, true) (.fresh eightBytes) rfl edited (Run.path_trace _ _ _)
    ⟨trivial, trivial, trivial, trivial, trivial, trivial, trivial, trivial, trivial, trivial, trivial,
      trivial, trivial⟩
  obtain ⟨lines, edit, deliveries, heq, hdelivers, hitems, -⟩ := hlines
    ⟨trivial, trivial, trivial, trivial, trivial, trivial, trivial, trivial, trivial, trivial, trivial,
      trivial, trivial⟩
  cases htyped.symm.trans heq
  exact ⟨hreads, htyped, deliveries, hdelivers, hitems⟩

end Anemone.Tty
