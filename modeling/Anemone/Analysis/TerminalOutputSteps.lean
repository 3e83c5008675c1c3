import Anemone.Library.Ensures
import Anemone.Analysis.RingTransfers
import Anemone.Interface.TtyUnread

/-!
# The output processor does not panic

What `transformed_len` sums up is what the loop pushes, so an echo that was found to fit is
enqueued to its last byte.  The panic left is the overflow of the generation (`near`).
-/

namespace Anemone.Tty.TerminalOutput

open Checked (expect_some wordSize Ensures ok_bind assert_of)

variable {near : Prop} {output : TerminalOutput} {capacity : ℕ} {contents : List UInt8}

theorem tryNew_ready {allocated : Bool} (hpos : 0 < capacity)
    (h : tryNew capacity allocated = some output) : output.Ready capacity := by
  unfold tryNew at h
  split at h
  · rename_i hvalid
    cases h
    exact ⟨rfl, [], RingBuffer.new_holds hpos hvalid.1⟩
  · cases h

theorem checkedSucc_ensures {generation : ℕ} (reason : String)
    (hnear : wordSize ≤ generation + 1 → near) :
    Ensures (fun _ => near) (checkedSucc generation reason) fun next =>
      next = generation + 1 := by
  unfold checkedSucc
  split
  · rfl
  · exact hnear (by omega)

/-- The queue and the column stay, and the generation moves by at most one. -/
structure Bumped (before after : TerminalOutput) : Prop where
  queue : after.queue = before.queue
  column : after.column = before.column
  generation : after.generation ≤ before.generation + 1

theorem Bumped.ready {before after : TerminalOutput} (h : Bumped before after)
    (hready : before.Ready capacity) : after.Ready capacity := by
  unfold Ready
  rw [h.queue]
  exact hready

theorem bumpGeneration_ensures (output : TerminalOutput)
    (hnear : wordSize ≤ output.generation + 1 → near) :
    Ensures (fun _ => near) output.bumpGeneration (Bumped output) := by
  refine Ensures.bind_of (checkedSucc_ensures _ hnear) fun next hnext => ?_
  exact ⟨rfl, rfl, Nat.le_of_eq hnext⟩

theorem bumpIf_ensures (output : TerminalOutput) (changed : Bool)
    (hnear : wordSize ≤ output.generation + 1 → near) :
    Ensures (fun _ => near) (output.bumpIf changed) (Bumped output) := by
  unfold bumpIf
  split
  · exact bumpGeneration_ensures output hnear
  · exact ⟨rfl, rfl, Nat.le_succ _⟩

theorem canEnqueue_eq (hcapacity : output.queue.capacity = capacity)
    (hholds : output.queue.Holds contents) (source : EchoBytes) (termios : TtyTermios) :
    output.canEnqueue source termios =
      .ok (decide (output.echoOutputLen source termios ≤ capacity - contents.length)) := by
  rw [canEnqueue, hholds.available_eq, hcapacity, ok_bind]
  rfl

theorem Ready.canEnqueue (h : output.Ready capacity) (source : EchoBytes) (termios : TtyTermios) :
    ∃ fits, output.canEnqueue source termios = .ok fits := by
  obtain ⟨hcapacity, contents, hholds⟩ := h
  exact ⟨_, canEnqueue_eq hcapacity hholds source termios⟩

/-- **The loop pushes whole tokens**, and all of them if there is room for their sum.

By induction on the source; the column and the contents move with the tokens. -/
theorem enqueueLoop_returns (termios : TtyTermios) (source : List UInt8) (output : TerminalOutput)
    (hcapacity : output.queue.capacity = capacity) (hholds : output.queue.Holds contents)
    (consumed : ℕ) :
    ∃ consumed' output', enqueueLoop termios source output consumed = .ok (consumed', output') ∧
      output'.Ready capacity ∧ output'.generation = output.generation ∧
      (contents.length + transformedLen termios source output.column ≤ capacity →
        consumed' = consumed + source.length) := by
  induction source generalizing output contents consumed with
  | nil => exact ⟨consumed, output, rfl, ⟨hcapacity, contents, hholds⟩, rfl, fun _ => rfl⟩
  | cons byte rest ih =>
    unfold enqueueLoop
    rw [hholds.available_eq, ok_bind, hcapacity]
    set token := transformToken byte termios output.column with htoken
    have hle : contents.length ≤ capacity := hcapacity ▸ hholds.length_le
    split
    · rename_i hfull
      refine ⟨consumed, output, rfl, ⟨hcapacity, contents, hholds⟩, rfl, fun hsum => ?_⟩
      rw [transformedLen, ← htoken] at hsum
      omega
    · obtain ⟨queue, hpush, hqueue, hnext⟩ := hholds.tryPushSlice_all token.bytes (by omega)
      obtain ⟨consumed', output', hrest, hready, hgeneration, hall⟩ :=
        ih ⟨queue, token.nextColumn, output.generation⟩ (hqueue.trans hcapacity) hnext
          (consumed + 1)
      refine ⟨consumed', output', ?_, hready, hgeneration, fun hsum => ?_⟩
      · rw [hpush, ok_bind]
        dsimp only
        rw [assert_of _ rfl, ok_bind]
        exact hrest
      · rw [transformedLen, ← htoken] at hsum
        have hrestSum := hall (by
          rw [List.length_append]
          show _ + transformedLen termios rest token.nextColumn ≤ capacity
          omega)
        rw [hrestSum, List.length_cons]
        omega

theorem enqueueSlice_ensures (termios : TtyTermios) (source : List UInt8)
    (hcapacity : output.queue.capacity = capacity) (hholds : output.queue.Holds contents)
    (hnear : wordSize ≤ output.generation + 1 → near) :
    Ensures (fun _ => near) (output.enqueueSlice source termios) fun r =>
      (contents.length + transformedLen termios source output.column ≤ capacity →
        r.1 = source.length) ∧
      r.2.Ready capacity ∧ r.2.generation ≤ output.generation + 1 := by
  obtain ⟨consumed, output', hloop, hready, hgeneration, hall⟩ :=
    enqueueLoop_returns termios source output hcapacity hholds 0
  rw [enqueueSlice, hloop, ok_bind]
  refine Ensures.bind_of (bumpIf_ensures output' _ (by rwa [hgeneration])) fun after hafter => ?_
  exact ⟨fun hsum => (hall hsum).trans (Nat.zero_add _), hafter.ready hready,
    hgeneration ▸ hafter.generation⟩

theorem enqueueEraseTab_ensures {bytes : List UInt8}
    (hcapacity : output.queue.capacity = capacity) (hholds : output.queue.Holds contents)
    (hfit : bytes.length ≤ capacity - contents.length)
    (hnear : wordSize ≤ output.generation + 1 → near) :
    Ensures (fun _ => near) (output.enqueueEraseTab bytes) fun r =>
      r.1 = true ∧ r.2.Ready capacity ∧ r.2.generation ≤ output.generation + 1 := by
  have hle : contents.length ≤ capacity := hcapacity ▸ hholds.length_le
  obtain ⟨queue, hpush, hqueue, hnext⟩ := hholds.tryPushSlice_all bytes (by omega)
  rw [enqueueEraseTab, hholds.available_eq, hcapacity, ok_bind, if_neg (by omega), hpush, ok_bind]
  refine Ensures.assert_bind rfl ?_
  refine Ensures.bind_of (bumpIf_ensures _ _ hnear) fun after hafter => ?_
  exact ⟨rfl, hafter.ready ⟨hqueue.trans hcapacity, _, hnext⟩, hafter.generation⟩

variable {termios : TtyTermios} {source : EchoBytes}

/-- **An echo that fits is enqueued whole.** -/
theorem enqueue_ensures (hcapacity : output.queue.capacity = capacity)
    (hholds : output.queue.Holds contents)
    (hfit : output.echoOutputLen source termios ≤ capacity - contents.length)
    (hnear : wordSize ≤ output.generation + 1 → near) :
    Ensures (fun _ => near) (output.enqueue source termios) fun r =>
      r.1 = true ∧ r.2.Ready capacity ∧ r.2.generation ≤ output.generation + 1 := by
  have hle : contents.length ≤ capacity := hcapacity ▸ hholds.length_le
  unfold enqueue
  unfold echoOutputLen at hfit
  split
  · rename_i hop
    rw [hop] at hfit
    dsimp only at hfit
    refine Ensures.bind_of (enqueueSlice_ensures termios source.bytes hcapacity hholds hnear)
      fun r hr => ?_
    obtain ⟨hall, hready, hgeneration⟩ := hr
    exact ⟨beq_iff_eq.mpr (hall (by omega)), hready, hgeneration⟩
  · rename_i hop
    rw [hop] at hfit
    exact enqueueEraseTab_ensures hcapacity hholds hfit hnear

theorem enqueueEcho_ensures (hready : output.Ready capacity)
    (hfits : output.canEnqueue source termios = .ok true)
    (hnear : wordSize ≤ output.generation + 1 → near) :
    Ensures (fun _ => near) (TtyDiscipline.enqueueEcho output source termios) fun after =>
      after.Ready capacity := by
  obtain ⟨hcapacity, contents, hholds⟩ := hready
  rw [canEnqueue_eq hcapacity hholds] at hfits
  have hfit := of_decide_eq_true (Except.ok.inj hfits)
  refine Ensures.bind_of (enqueue_ensures hcapacity hholds hfit hnear) fun r hr => ?_
  exact Ensures.assert_bind hr.1 hr.2.1

theorem clear_ensures (hready : output.Ready capacity)
    (hnear : wordSize ≤ output.generation + 1 → near) :
    Ensures (fun _ => near) output.clear fun after =>
      after.queue.capacity = capacity ∧ after.queue.Holds [] ∧ after.column = output.column ∧
        after.generation ≤ output.generation + 1 := by
  obtain ⟨hcapacity, contents, hholds⟩ := hready
  unfold clear
  split
  · rename_i hempty
    have hnil := hholds.isEmpty_iff.mp hempty
    subst hnil
    exact ⟨hcapacity, hholds, rfl, Nat.le_succ _⟩
  · refine (bumpGeneration_ensures { output with queue := output.queue.clear } hnear).mono
      fun after hafter => ?_
    refine ⟨?_, ?_, hafter.column, hafter.generation⟩
    · rw [hafter.queue]
      exact hcapacity
    · rw [hafter.queue]
      exact hholds.clear

/-- **The echo of a signal character after the flush.**  The flush leaves the column, so
the echo is as long as it was before. -/
theorem clear_enqueueEcho_ensures (hready : output.Ready capacity)
    (hfit : output.echoOutputLen source termios ≤ capacity)
    (hnear : wordSize ≤ output.generation + 2 → near) :
    Ensures (fun _ => near)
      (output.clear >>= fun cleared => TtyDiscipline.enqueueEcho cleared source termios)
      fun after => after.Ready capacity := by
  refine Ensures.bind_of (clear_ensures hready fun h => hnear (by omega)) fun cleared hcleared => ?_
  obtain ⟨hcapacity, hholds, hcolumn, hgeneration⟩ := hcleared
  have hlen : cleared.echoOutputLen source termios = output.echoOutputLen source termios := by
    unfold echoOutputLen
    rw [hcolumn]
  have hfits : cleared.canEnqueue source termios = .ok true := by
    rw [canEnqueue_eq hcapacity hholds, hlen]
    exact congrArg Except.ok (decide_eq_true hfit)
  exact enqueueEcho_ensures ⟨hcapacity, [], hholds⟩ hfits fun h => hnear (by omega)

theorem popLoop_returns (count : ℕ) {queue : RingBuffer UInt8}
    (hholds : queue.Holds contents) (hcount : count ≤ contents.length) :
    ∃ queue' : RingBuffer UInt8, popLoop count queue = .ok (contents.take count, queue') ∧
      queue'.capacity = queue.capacity ∧ queue'.Holds (contents.drop count) := by
  induction count generalizing queue contents with
  | zero => exact ⟨queue, rfl, rfl, hholds⟩
  | succ count ih =>
    obtain _ | ⟨first, rest⟩ := contents
    · simp at hcount
    · obtain ⟨queue₁, hpop, hcapacity₁, hholds₁⟩ := hholds.tryPop_cons
      obtain ⟨queue₂, hloop, hcapacity₂, hholds₂⟩ := ih hholds₁ (Nat.le_of_succ_le_succ hcount)
      refine ⟨queue₂, ?_, hcapacity₂.trans hcapacity₁, hholds₂⟩
      rw [popLoop, hpop, ok_bind]
      dsimp only
      rw [expect_some, ok_bind, hloop, ok_bind]
      rfl

theorem readOutput_ensures (hready : output.Ready capacity) (room : ℕ)
    (hnear : wordSize ≤ output.generation + 1 → near) :
    Ensures (fun _ => near) (output.readOutput room) fun r => r.2.Ready capacity := by
  obtain ⟨hcapacity, contents, hholds⟩ := hready
  obtain ⟨queue, hloop, hqueue, hrest⟩ := popLoop_returns (min room output.queue.len)
    hholds (by rw [hholds.length_eq]; exact Nat.min_le_right ..)
  rw [readOutput, hloop, ok_bind]
  refine Ensures.bind_of (bumpIf_ensures { output with queue } _ hnear) fun after hafter => ?_
  exact hafter.ready ⟨hqueue.trans hcapacity, _, hrest⟩

end Anemone.Tty.TerminalOutput
