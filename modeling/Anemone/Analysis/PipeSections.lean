import Anemone.Interface.PipeStream
import Anemone.Analysis.RingTransfers

/-!
# The sections of a pipe on the queue it stands for

One lemma for each section under the lock of a pipe, in terms of the bytes in the ring.  None of
them panics where the ring stands for a queue.
-/

namespace Anemone.Pipe.PipeInner

open Checked (ok_bind assert_of)
open Checked List

variable {pipe : PipeInner} {contents staged : List UInt8} {config : PipeConfig}

/-- **The first look reports the end** only if there is nothing and nobody writes. -/
theorem readCheck_ok (h : pipe.buf.Holds contents) {nonblock : Bool} {read : ℕ}
    (hcheck : pipe.readCheck nonblock = .returns (.ok read)) :
    read = 0 ∧ contents = [] ∧ pipe.txCnt = 0 := by
  unfold readCheck at hcheck
  split at hcheck
  · split at hcheck <;> cases hcheck
  · rename_i hnot
    split at hcheck
    · rename_i hempty
      cases hcheck
      simp only [hempty, Bool.true_and, decide_eq_true_eq] at hnot
      exact ⟨rfl, h.isEmpty_iff.mp hempty, by omega⟩
    · cases hcheck

/-- **The second look** finds the end, or a byte, or another reader was faster. -/
theorem readRecheck_cases (h : pipe.buf.Holds contents) :
    (pipe.readRecheck = .returns (.ok 0) ∧ contents = [] ∧ pipe.txCnt = 0) ∨
      pipe.readRecheck = .waits ∨ (pipe.readRecheck = .proceeds ∧ contents ≠ []) := by
  unfold readRecheck
  split
  · rename_i hempty
    split
    · rename_i hwriters
      exact .inl ⟨rfl, h.isEmpty_iff.mp hempty, hwriters⟩
    · exact .inr (.inl rfl)
  · rename_i hfull
    exact .inr (.inr ⟨rfl, fun hnil => hfull (h.isEmpty_iff.mpr hnil)⟩)

theorem pipeReadLocked_eq (h : pipe.buf.Holds contents) (room : ℕ) :
    ∃ buf, pipe.pipeReadLocked room = .ok (contents.take room, { pipe with buf }) ∧
      buf.Holds (contents.drop room) := by
  obtain ⟨buf, hpop, -, hholds⟩ := h.tryPopSlice room
  refine ⟨buf, ?_, hholds⟩
  rw [pipeReadLocked, hpop]
  rfl

/-- **The staged bytes are the first ones.** -/
theorem snapshotStaged_eq (h : pipe.buf.Holds contents) {stagedLen : ℕ}
    (hlen : stagedLen ≤ contents.length) :
    pipe.snapshotStaged stagedLen = .ok (contents.take stagedLen) := by
  have hring : stagedLen ≤ pipe.buf.len := h.length_eq ▸ hlen
  have htake : (contents.take stagedLen).length = stagedLen := by
    rw [length_take, Nat.min_eq_left hlen]
  rw [snapshotStaged, assert_of _ hring, ok_bind, h.iter, ok_bind, assert_of _ htake]
  rfl

/-- **Staged bytes that are in front are popped as they were staged**, by induction along
them. -/
theorem popStaged_eq {rest : List UInt8} {buf : RingBuffer UInt8} (h : buf.Holds (staged ++ rest)) :
    ∃ buf', popStaged staged buf = .ok buf' ∧ buf'.Holds rest := by
  induction staged generalizing buf with
  | nil => exact ⟨buf, rfl, h⟩
  | cons expected staged ih =>
    obtain ⟨popped, hpop, -, hholds⟩ := h.tryPop_cons
    obtain ⟨buf', hstaged, hrest⟩ := ih hholds
    refine ⟨buf', ?_, hrest⟩
    rw [popStaged, hpop, ok_bind]
    dsimp only
    rw [expect_some, ok_bind, assert_of _ rfl, ok_bind]
    exact hstaged

theorem commitStaged_eq (h : pipe.buf.Holds contents) {copied : ℕ} (hfront : staged <+: contents)
    (hcopied : copied ≤ staged.length) :
    ∃ buf, pipe.commitStaged staged copied = .ok { pipe with buf } ∧
      buf.Holds (contents.drop copied) := by
  obtain ⟨rest, rfl⟩ := hfront
  have hsplit : staged ++ rest = staged.take copied ++ (staged.drop copied ++ rest) := by
    rw [← append_assoc, take_append_drop]
  obtain ⟨buf, hpop, hholds⟩ := popStaged_eq (hsplit ▸ h)
  refine ⟨buf, ?_, ?_⟩
  · rw [commitStaged, hpop]
    rfl
  · rwa [drop_append_of_le_length hcopied]

/-- How a section of a write ends: refused or waiting with the pipe as it was, or with a first
part of the data appended, which is all of it if it fits a page. -/
inductive Wrote (config : PipeConfig) (pipe : PipeInner) (contents data : List UInt8) :
    Verdict → PipeInner → Prop
  | refused (err : SysError) : Wrote config pipe contents data (.returns (.error err)) pipe
  | waiting : Wrote config pipe contents data .waits pipe
  | appended (written : ℕ) (buf : RingBuffer UInt8) (hle : written ≤ data.length)
      (hsmall : data.length ≤ config.atomicWriteBytes → written = data.length)
      (hholds : buf.Holds (contents ++ data.take written)) :
      Wrote config pipe contents data (.returns (.ok written)) { pipe with buf }

section

variable (h : pipe.buf.Holds contents) {data : List UInt8}

include h

/-- **The bytes that fit are appended.** -/
theorem pipeWriteLocked_eq (data : List UInt8) : ∃ buf, pipe.pipeWriteLocked data =
        .ok (min (pipe.buf.capacity - contents.length) data.length, { pipe with buf }) ∧
      buf.Holds (contents ++
        data.take (min (pipe.buf.capacity - contents.length) data.length)) := by
  set room := min (pipe.buf.capacity - contents.length) data.length with hroom
  have hlength : (data.take room).length = room := by
    rw [length_take]
    omega
  have hle := h.length_le
  obtain ⟨buf, hpush, -, hholds⟩ := h.tryPushSlice_all (data.take room) (by omega)
  refine ⟨buf, ?_, hholds⟩
  rw [pipeWriteLocked, h.available_eq, ok_bind, ← hroom, hpush, ok_bind, hlength]
  rfl

/-- **A write that does not wait** appends everything that it was admitted with. -/
theorem writeNonblock_wrote (data : List UInt8) :
    ∃ verdict pipe', pipe.writeNonblock config data = .ok (verdict, pipe') ∧
      Wrote config pipe contents data verdict pipe' := by
  rw [writeNonblock, h.available_eq, ok_bind]
  set available := pipe.buf.capacity - contents.length with havailable
  split
  · exact ⟨_, _, rfl, .refused .again⟩
  · rename_i hadmitted
    set toWrite := if config.atomicWriteBytes < data.length then min available data.length
      else data.length with htoWrite
    have hle : toWrite ≤ data.length := by
      rw [htoWrite]
      split <;> omega
    have hroom : toWrite ≤ available := by
      rw [htoWrite]
      split <;> omega
    have hlength : (data.take toWrite).length = toWrite := by
      rw [length_take, Nat.min_eq_left hle]
    obtain ⟨buf, hwrite, hholds⟩ := pipeWriteLocked_eq h (data.take toWrite)
    rw [← havailable, hlength, Nat.min_eq_right hroom] at hwrite hholds
    rw [take_take, Nat.min_self] at hholds
    refine ⟨_, _, by rw [hwrite]; rfl, .appended toWrite buf hle (fun hsmall => ?_) hholds⟩
    rw [htoWrite, if_neg (by omega)]

/-- **A small write for which there is room** is appended whole; its assertion holds. -/
theorem writeAtomic_wrote (hroom : data.length ≤ pipe.buf.capacity - contents.length) :
    ∃ verdict pipe', pipe.writeAtomic data = .ok (verdict, pipe') ∧
      Wrote config pipe contents data verdict pipe' := by
  obtain ⟨buf, hwrite, hholds⟩ := pipeWriteLocked_eq h data
  rw [Nat.min_eq_right hroom] at hwrite hholds
  refine ⟨_, _, ?_, .appended data.length buf (Nat.le_refl _) (fun _ => rfl) hholds⟩
  rw [writeAtomic, hwrite, ok_bind]
  dsimp only
  rw [assert_of _ rfl]
  rfl

theorem writePartial_wrote (hlarge : config.atomicWriteBytes < data.length) :
    ∃ verdict pipe', pipe.writePartial data = .ok (verdict, pipe') ∧
      Wrote config pipe contents data verdict pipe' := by
  set room := min (pipe.buf.capacity - contents.length) data.length with hroom
  have hlength : (data.take room).length = room := by
    rw [length_take]
    omega
  obtain ⟨buf, hwrite, hholds⟩ := pipeWriteLocked_eq h (data.take room)
  rw [hlength, Nat.min_eq_right (Nat.min_le_left ..)] at hwrite hholds
  rw [take_take, Nat.min_self] at hholds
  refine ⟨_, _, ?_, .appended room buf (Nat.min_le_right ..) (fun hsmall => ?_) hholds⟩
  · rw [writePartial, h.available_eq, ok_bind, ← hroom, hwrite]
    rfl
  · omega

theorem writeBlocking_wrote (data : List UInt8) :
    ∃ verdict pipe', pipe.writeBlocking config data = .ok (verdict, pipe') ∧
      Wrote config pipe contents data verdict pipe' := by
  rw [writeBlocking, h.available_eq, ok_bind]
  by_cases hsmall : data.length ≤ config.atomicWriteBytes
  · rw [if_pos hsmall]
    by_cases hroom : pipe.buf.capacity - contents.length < data.length
    · rw [if_pos hroom]
      exact ⟨_, _, rfl, .waiting⟩
    · rw [if_neg hroom]
      exact writeAtomic_wrote h (by omega)
  · rw [if_neg hsmall]
    by_cases hroom : pipe.buf.capacity - contents.length = 0
    · rw [if_pos hroom]
      exact ⟨_, _, rfl, .waiting⟩
    · rw [if_neg hroom]
      exact writePartial_wrote h (by omega)

/-- **A section of a write returns**, and appends a block or leaves the pipe alone. -/
theorem writeSection_wrote (data : List UInt8) (nonblock : Bool) :
    ∃ verdict pipe', pipe.writeSection config data nonblock = .ok (verdict, pipe') ∧
      Wrote config pipe contents data verdict pipe' := by
  unfold writeSection
  split
  · exact ⟨_, _, rfl, .refused .brokenPipe⟩
  · split
    · exact writeNonblock_wrote h data
    · exact writeBlocking_wrote h data

/-- **Unread bytes that the new ring has room for are moved to it**, in two pieces. -/
theorem moveTo_eq {candidate : RingBuffer UInt8}
    (hnew : candidate.Holds []) (hroom : contents.length ≤ candidate.capacity) :
    ∃ buf, pipe.moveTo candidate = .ok { pipe with buf } ∧ buf.Holds contents := by
  obtain ⟨first, second, hslices, hcontents⟩ := h.readableSlices
  have hlengths : first.length + second.length = contents.length := by
    rw [← hcontents, length_append]
  obtain ⟨half, hfirst, hcapacity, hhalf⟩ := hnew.tryPushSlice_all first
    (by rw [length_nil]; omega)
  rw [nil_append] at hhalf
  obtain ⟨buf, hsecond, -, hbuf⟩ := hhalf.tryPushSlice_all second (by omega)
  have hword : first.length + second.length < wordSize := by
    have hle := h.length_le
    have hlayout := h.layout
    simp only [RingBuffer.maxLayout, wordSize] at hlayout ⊢
    omega
  refine ⟨buf, ?_, hcontents ▸ hbuf⟩
  rw [moveTo, hslices, ok_bind]
  dsimp only
  rw [hfirst, ok_bind]
  rw [hsecond, ok_bind]
  rw [add_of_lt hword, ok_bind, assert_of _ (hlengths.trans h.length_eq)]
  rfl

/-- **A change of the capacity returns and keeps the bytes.** -/
theorem resizeSecond_eq (capacity : ℕ) (allocated : Bool) :
    ∃ result buf, pipe.resizeSecond capacity allocated = .ok (result, { pipe with buf }) ∧
      buf.Holds contents := by
  unfold resizeSecond
  split
  · exact ⟨_, pipe.buf, rfl, h⟩
  · rename_i candidate hnew
    obtain ⟨hcapacity, hcandidate⟩ := RingBuffer.tryNew_holds Nat.one_pos hnew
    split
    · exact ⟨_, pipe.buf, rfl, h⟩
    · rename_i hproceeds
      have hroom : contents.length ≤ candidate.capacity := by
        by_contra hsmall
        have hlen := h.length_eq
        by_cases hsame : capacity = pipe.buf.capacity
        · exact hproceeds (.ok capacity) (by rw [resizeCheck, if_pos hsame])
        · exact hproceeds (.error .busy) (by rw [resizeCheck, if_neg hsame, if_pos (by omega)])
      obtain ⟨buf, hmove, hholds⟩ := moveTo_eq h hcandidate hroom
      refine ⟨.ok capacity, buf, ?_, hholds⟩
      rw [hmove]
      rfl

end

end Anemone.Pipe.PipeInner
