import Anemone.Interface.CalendarClock

/-!
# The calendar stands still between its changes, and may outgrow its word

A change is accepted if the calendar fits a word at the moment of the change, and every later
reading adds the monotonic time of its own moment.  A state is safe exactly if the offset leaves
room for the last monotonic time.
-/

namespace Anemone.Timer

open Checked (wordSize bind_eq_ok pure_eq)

namespace Timekeeper

variable {tk : Timekeeper} {counter counts : ℕ}

theorem countsToNanos_mono : Monotone tk.countsToNanos :=
  fun _ _ h => Nat.div_le_div_right (Nat.mul_le_mul_right _ h)

theorem nanosAt_mono : Monotone tk.nanosAt :=
  fun _ _ h => countsToNanos_mono (Nat.sub_le_sub_right h _)

theorem fitNs_eq_ok {ns r : ℕ} {reason : String} :
    fitNs ns reason = .ok r ↔ ns < wordSize ∧ ns = r := by
  by_cases h : ns < wordSize <;> simp [fitNs, h]

theorem elapsedCounts_eq_ok : tk.elapsedCounts counter = .ok counts ↔
      tk.bootCounter ≤ counter ∧ counter - tk.bootCounter = counts := by
  by_cases h : tk.bootCounter ≤ counter <;> simp [elapsedCounts, h]

theorem monotonicNs_eq_ok {ns : ℕ} :
    tk.monotonicNs counter = .ok ns ↔
      tk.bootCounter ≤ counter ∧ tk.nanosAt counter < wordSize ∧ tk.nanosAt counter = ns := by
  simp [monotonicNs, bind_eq_ok, elapsedCounts_eq_ok, fitNs_eq_ok, nanosAt, and_assoc]

theorem realtimeRead_eq_ok {read : RealtimeRead} :
    tk.realtimeRead counter = .ok read ↔
      tk.bootCounter ≤ counter ∧ tk.nanosAt counter + tk.realtime.offsetNs < wordSize ∧
        ⟨tk.nanosAt counter + tk.realtime.offsetNs, tk.realtime.changeSeq⟩ = read := by
  simp only [realtimeRead, bind_eq_ok, monotonicNs_eq_ok, fitNs_eq_ok, pure_eq, Except.ok.injEq]
  constructor
  · rintro ⟨_, ⟨hboot, -, rfl⟩, _, ⟨hlt, rfl⟩, heq⟩
    exact ⟨hboot, hlt, heq⟩
  · rintro ⟨hboot, hlt, heq⟩
    exact ⟨_, ⟨hboot, by omega, rfl⟩, _, ⟨hlt, rfl⟩, heq⟩

variable (hfreq : 0 < tk.frequencyHz)

include hfreq

theorem countsToNanos_lt_iff {bound : ℕ} (hbound : 0 < bound) :
    tk.countsToNanos counts < bound ↔
      counts ≤ (bound * tk.frequencyHz - 1) / nanosPerSec := by
  have hpos : 0 < bound * tk.frequencyHz := Nat.mul_pos hbound hfreq
  rw [countsToNanos, Nat.div_lt_iff_lt_mul hfreq, Nat.le_div_iff_mul_le (by decide)]
  omega

theorem lastNanos_lt : tk.lastNanos < 2 ^ 63 :=
  (countsToNanos_lt_iff hfreq (by decide)).mpr (Nat.min_le_right _ _)

/-- A counter value of the run shows at most the last monotonic time. -/
theorem counts_le_last (hlt : counter < wordSize) (hns : tk.nanosAt counter < 2 ^ 63) :
    counter - tk.bootCounter ≤ min (wordSize - 1 - tk.bootCounter)
      ((2 ^ 63 * tk.frequencyHz - 1) / nanosPerSec) :=
  Nat.le_min.mpr ⟨by omega, (countsToNanos_lt_iff hfreq (by decide)).mp hns⟩

end Timekeeper

open Timekeeper RealtimeSnapshot

/-- What a set or an adjustment with the check `p` may answer and leave behind. -/
theorem RealtimeSnapshot.change_cases {p : Prop} [Decidable p] {s s' : RealtimeSnapshot}
    {monotonicNs newOffset : ℕ} {result : Except SysError Bool}
    (h : (if p then s.setOffset monotonicNs newOffset else pure (.error .invalidArgument, s)) =
      .ok (result, s')) :
    (∃ e, result = .error e ∧ ¬ (p ∧ monotonicNs + newOffset < wordSize) ∧ s' = s) ∨
      ∃ moved, result = .ok moved ∧ (p ∧ monotonicNs + newOffset < wordSize) ∧
        s'.offsetNs = newOffset ∧ (moved = false ∧ s' = s ∨
          moved = true ∧ s'.offsetNs ≠ s.offsetNs ∧ s'.changeSeq = s.changeSeq + 1) := by
  unfold setOffset at h
  split_ifs at h with hp hfits hsame hseq
  · cases h
    exact .inr ⟨_, rfl, ⟨hp, hfits⟩, hsame, .inl ⟨rfl, rfl⟩⟩
  · cases h
    exact .inr ⟨_, rfl, ⟨hp, hfits⟩, rfl, .inr ⟨rfl, Ne.symm hsame, rfl⟩⟩
  · cases h
    exact .inl ⟨_, rfl, fun hok => hfits hok.2, rfl⟩
  · cases h
    exact .inl ⟨_, rfl, fun hok => hp hok.1, rfl⟩

namespace Clock

variable {s : Clock} {call : Call} {counter offset : ℕ}

/-- An offset that is asked for and fits is in force afterwards. -/
theorem offsetAfter_of_fits (hasked : s.offsetAsked counter call = offset)
    (hfits : s.timekeeper.nanosAt counter + offset < wordSize) :
    s.offsetAfter counter call = offset := by
  rw [offsetAfter, hasked, if_pos ⟨Int.natCast_nonneg _, by exact_mod_cast hfits⟩, Int.toNat_natCast]

/-- A call that asks for no change leaves the offset. -/
theorem offsetAfter_of_same (hasked : s.offsetAsked counter call = s.timekeeper.realtime.offsetNs) :
    s.offsetAfter counter call = s.timekeeper.realtime.offsetNs := by
  rw [offsetAfter, hasked, Int.toNat_natCast, ite_self]

end Clock

open Clock

/-- **What a call leaves behind**: the snapshot it counts and the offset it installs, and
a coarse time that is the old one or the present. -/
theorem Call.run_spec {s : Clock} {call : Call} {counter : ℕ} {answer : Answer} {tk : Timekeeper}
    (h : call.run s.timekeeper counter = .ok (answer, tk)) :
    (∃ realtime coarse, tk = { s.timekeeper with realtime, coarseMonoNs := coarse } ∧
      (coarse = s.timekeeper.coarseMonoNs ∨ coarse = s.timekeeper.nanosAt counter)) ∧
      Clock.Counted ⟨call, counter, answer⟩ s.timekeeper.realtime tk.realtime ∧
      tk.realtime.offsetNs = s.offsetAfter counter call := by
  cases call with
  | monotonic | realtime | coarseRealtime =>
    simp only [Call.run, bind_eq_ok, pure_eq, Except.ok.injEq] at h
    obtain ⟨_, -, heq⟩ := h
    cases heq
    exact ⟨⟨_, _, rfl, .inl rfl⟩, rfl, (offsetAfter_of_same rfl).symm⟩
  | coarseMonotonic =>
    cases h
    exact ⟨⟨_, _, rfl, .inl rfl⟩, rfl, (offsetAfter_of_same rfl).symm⟩
  | interrupt isBsp =>
    cases isBsp with
    | false =>
      cases h
      exact ⟨⟨_, _, rfl, .inl rfl⟩, rfl, (offsetAfter_of_same rfl).symm⟩
    | true =>
      simp only [Call.run, onTimerInterrupt, if_true, bind_eq_ok, pure_eq, Except.ok.injEq,
        elapsedCounts_eq_ok, fitNs_eq_ok] at h
      obtain ⟨_, ⟨_, ⟨-, rfl⟩, _, ⟨-, rfl⟩, rfl⟩, heq⟩ := h
      cases heq
      exact ⟨⟨_, _, rfl, .inr rfl⟩, rfl, (offsetAfter_of_same rfl).symm⟩
  | seed rtc sample =>
    simp only [Call.run, seedBootRealtime, seedBoot, bind_eq_ok, pure_eq, Except.ok.injEq,
      Prod.exists, monotonicNs_eq_ok] at h
    obtain ⟨_, _, ⟨_, ⟨-, -, rfl⟩, _, ⟨-, -, rfl⟩, result, _, ⟨_, -, _, -, hseed⟩, heq'⟩, heq⟩ := h
    cases heq'
    cases heq
    refine ⟨⟨_, _, rfl, .inl rfl⟩, ?_⟩
    split_ifs at hseed with hle hfits <;> cases hseed
    · exact ⟨rfl, (offsetAfter_of_fits (by simp [offsetAsked, hle]) hfits).symm⟩
    · exact ⟨rfl, (if_neg (by simp only [offsetAsked]; omega)).symm⟩
    · exact ⟨rfl, (if_neg (by simp only [offsetAsked]; omega)).symm⟩
  | set target =>
    simp only [Call.run, setRealtimeNs, bind_eq_ok, pure_eq, Except.ok.injEq, Prod.exists,
      monotonicNs_eq_ok] at h
    obtain ⟨_, _, ⟨_, ⟨-, -, rfl⟩, result, _, hset, heq'⟩, heq⟩ := h
    cases heq'
    cases heq
    refine ⟨⟨_, _, rfl, .inl rfl⟩, ?_⟩
    obtain ⟨_, rfl, hno, rfl⟩ | ⟨_, rfl, ⟨hle, hfits⟩, hnew, hmoved⟩ := change_cases hset
    · exact ⟨rfl, (if_neg (by simp only [offsetAsked]; omega)).symm⟩
    refine ⟨?_, hnew.trans (offsetAfter_of_fits (by simp [offsetAsked, hle]) hfits).symm⟩
    obtain ⟨rfl, rfl⟩ | ⟨rfl, hmoved⟩ := hmoved
    · rfl
    · exact hmoved
  | adjust delta =>
    simp only [Call.run, adjustRealtimeNs, bind_eq_ok, pure_eq, Except.ok.injEq, Prod.exists,
      monotonicNs_eq_ok] at h
    obtain ⟨_, _, ⟨_, ⟨-, -, rfl⟩, result, _, hadjust, heq'⟩, heq⟩ := h
    cases heq'
    cases heq
    refine ⟨⟨_, _, rfl, .inl rfl⟩, ?_⟩
    obtain ⟨_, rfl, hno, rfl⟩ | ⟨_, rfl, ⟨hle, hfits⟩, hnew, hmoved⟩ := change_cases hadjust
    · exact ⟨rfl, (if_neg (by simp only [offsetAsked]; omega)).symm⟩
    have hasked : s.offsetAsked counter (.adjust delta) =
        (s.timekeeper.realtime.offsetNs + delta).toNat := (Int.toNat_of_nonneg hle.1).symm
    refine ⟨?_, hnew.trans (offsetAfter_of_fits hasked hfits).symm⟩
    obtain ⟨rfl, rfl⟩ | ⟨rfl, hmoved⟩ := hmoved
    · rfl
    · exact hmoved

namespace Clock

variable {tk : Timekeeper} {s t u : Clock} {e : Event} {counter : ℕ}

/-- What holds in every state of a run of the timekeeper `tk`. -/
structure Sound (tk : Timekeeper) (s : Clock) : Prop where
  boot : s.timekeeper.bootCounter = tk.bootCounter
  frequency : s.timekeeper.frequencyHz = tk.frequencyHz
  started : tk.bootCounter ≤ s.counter
  reads : s.Reads s.counter
  coarse : s.timekeeper.coarseMonoNs ≤ tk.nanosAt s.counter

theorem Sound.nanosAt (hs : s.Sound tk) : s.timekeeper.nanosAt = tk.nanosAt := by
  funext counter
  simp only [Timekeeper.nanosAt, countsToNanos, hs.boot, hs.frequency]

theorem Sound.lastNanos (hs : s.Sound tk) : s.timekeeper.lastNanos = tk.lastNanos := by
  simp only [Timekeeper.lastNanos, countsToNanos, hs.boot, hs.frequency]

theorem Sound.step (hs : s.Sound tk) (h : Step s e t) : t.Sound tk := by
  obtain ⟨hreads, -, hrun⟩ := h
  obtain ⟨⟨realtime, coarse, rfl, hcoarse⟩, -⟩ := Call.run_spec hrun
  refine ⟨hs.boot, hs.frequency, hs.started.trans hreads.1, ⟨le_rfl, hreads.2⟩, ?_⟩
  rw [hs.nanosAt] at hcoarse
  obtain rfl | rfl := hcoarse
  · exact hs.coarse.trans (nanosAt_mono hreads.1)
  · exact le_rfl

theorem sound_boot (hfreq : 0 < tk.frequencyHz) (hboot : tk.bootCounter < wordSize)
    (hcoarse : tk.coarseMonoNs = 0) : (boot tk).Sound tk where
  boot := rfl
  frequency := rfl
  started := le_rfl
  reads := ⟨le_rfl, hboot, (countsToNanos_lt_iff hfreq (by decide)).mpr (by simp [boot])⟩
  coarse := hcoarse.trans_le (Nat.zero_le _)

/-- **The readings of a state return exactly if its offset leaves room for the last
monotonic time.** -/
theorem Sound.readsReturn_iff (hs : s.Sound tk) (hfreq : 0 < tk.frequencyHz) :
    s.ReadsReturn ↔ s.timekeeper.realtime.offsetNs + tk.lastNanos < wordSize := by
  have hle : ∀ counter, s.Reads counter → tk.nanosAt counter ≤ tk.lastNanos := by
    intro counter hreads
    rw [← hs.nanosAt, ← hs.lastNanos]
    exact countsToNanos_mono (counts_le_last (hs.frequency ▸ hfreq) hreads.2.1 hreads.2.2)
  constructor
  · intro hreturn
    have hreads := hs.reads
    rw [Reads, hs.nanosAt] at hreads
    have hlast := counts_le_last hfreq hreads.2.1 hreads.2.2
    obtain ⟨m, hm⟩ : ∃ m, min (wordSize - 1 - tk.bootCounter)
      ((2 ^ 63 * tk.frequencyHz - 1) / nanosPerSec) = m := ⟨_, rfl⟩
    have hns : tk.nanosAt (tk.bootCounter + m) = tk.lastNanos := by
      rw [Timekeeper.nanosAt, Nat.add_sub_cancel_left, ← hm, Timekeeper.lastNanos]
    have hmle : m ≤ wordSize - 1 - tk.bootCounter := hm ▸ Nat.min_le_left _ _
    have hstarted := hs.started
    obtain ⟨⟨_, hread⟩, -⟩ := hreturn (tk.bootCounter + m)
      ⟨by omega, by omega, by rw [hs.nanosAt, hns]; exact lastNanos_lt hfreq⟩
    have hfits := (realtimeRead_eq_ok.mp hread).2.1
    rw [hs.nanosAt, hns] at hfits
    omega
  · intro hroom counter hreads
    have hnow := hle counter hreads
    have hcoarse := hs.coarse.trans (hle _ hs.reads)
    have hstarted := hs.started.trans hreads.1
    refine ⟨⟨_, realtimeRead_eq_ok.mpr ⟨hs.boot ▸ hstarted, ?_, rfl⟩⟩, _, fitNs_eq_ok.mpr ⟨?_, rfl⟩⟩
    · rw [hs.nanosAt]
      omega
    · rw [coarseMonotonicNs]
      omega

/-- What a state knows of a later one: after a change was asked for, the calendar has
the same offset until its number rises. -/
def Follows (s u : Clock) : Prop :=
  s.counter ≤ u.counter ∧ (s.seedable = false → u.seedable = false ∧
    s.timekeeper.realtime.changeSeq ≤ u.timekeeper.realtime.changeSeq ∧
    (u.timekeeper.realtime.changeSeq = s.timekeeper.realtime.changeSeq →
      u.timekeeper.realtime.offsetNs = s.timekeeper.realtime.offsetNs))

theorem Follows.step (hsu : Follows s u) (h : Step u e t) : Follows s t := by
  cases h with
  | @mk call counter answer tk seedable hreads hadmits hrun =>
    refine ⟨hsu.1.trans hreads.1, fun hs => ?_⟩
    obtain ⟨hseed, hle, hsame⟩ := hsu.2 hs
    rw [hseed] at hadmits
    have hafter : seedable = false := by
      cases call <;> simp_all [Call.Admits]
    obtain ⟨-, hcounted, -⟩ := Call.run_spec hrun
    unfold Counted at hcounted
    dsimp only at hcounted ⊢
    split at hcounted
    · exact absurd hadmits.1 Bool.false_ne_true
    · exact ⟨hafter, by omega, fun heq => by omega⟩
    · rw [hcounted]
      exact ⟨hafter, hle, hsame⟩

/-- **A later reading agrees with an event.** -/
theorem agrees_of_follows (hs : s.Sound tk) (h : Step s e t) (ht : t.Sound tk) (hu : u.Sound tk)
    (hfollows : Follows t u) (hreads : u.Reads counter) : Agrees e t u counter := by
  have hlater : t.counter ≤ counter := hfollows.1.trans hreads.1
  have hmono : tk.nanosAt t.counter ≤ tk.nanosAt counter := nanosAt_mono hlater
  have hread : u.timekeeper.monotonicNs counter = .ok (tk.nanosAt counter) :=
    monotonicNs_eq_ok.mpr ⟨hu.boot.trans_le (ht.started.trans hlater),
      hreads.2.2.trans (Nat.pow_lt_pow_right (by decide) (by decide)), by rw [hu.nanosAt]⟩
  cases h with
  | @mk call c answer tk' seedable hreads' hadmits hrun =>
    cases call with
    | monotonic =>
      simp only [Call.run, bind_eq_ok, pure_eq, Except.ok.injEq, monotonicNs_eq_ok] at hrun
      obtain ⟨_, ⟨-, -, rfl⟩, heq⟩ := hrun
      cases heq
      refine ⟨_, hread, ?_⟩
      rw [hs.nanosAt]
      exact hmono
    | coarseMonotonic =>
      cases hrun
      exact ⟨_, hread, ht.coarse.trans hmono⟩
    | coarseRealtime =>
      simp only [Call.run, bind_eq_ok, pure_eq, Except.ok.injEq, coarseRealtimeNs,
        fitNs_eq_ok] at hrun
      obtain ⟨_, ⟨-, rfl⟩, heq⟩ := hrun
      cases heq
      intro hoffset read hok
      obtain ⟨-, -, rfl⟩ := realtimeRead_eq_ok.mp hok
      rw [hu.nanosAt, hoffset]
      exact Nat.add_le_add_right (ht.coarse.trans hmono) _
    | set target =>
      simp only [Call.run, setRealtimeNs, setTarget, bind_eq_ok,
        pure_eq, Except.ok.injEq, Prod.exists, monotonicNs_eq_ok] at hrun
      obtain ⟨_, _, ⟨_, ⟨-, -, rfl⟩, result, realtime, hset, heq'⟩, heq⟩ := hrun
      cases heq'
      cases heq
      obtain ⟨_, rfl, -⟩ | ⟨_, rfl, ⟨hle, -⟩, hnew, -⟩ := change_cases hset
      · trivial
      intro hseq read hread
      obtain ⟨-, -, rfl⟩ := realtimeRead_eq_ok.mp hread
      have hoffset := (hfollows.2 hadmits).2.2 hseq
      rw [hs.nanosAt] at hle hnew
      rw [hu.nanosAt, ht.nanosAt, hoffset]
      dsimp only at hnew hmono ⊢
      omega
    | _ => trivial

end Clock

/-- **The calendar clock is consistent, and its readings return exactly while its changes last.**
From boot with any accepted frequency, in every run of calls: a rejected change alters nothing and
the change number counts the changes that move the clock; a reading at any later moment is no
earlier than a monotonic or coarse reading before it, and between changes equals the time
last set plus the time elapsed since; and no calendar reading can panic in any state of
the run exactly if every call leaves an offset with room for the last monotonic time.

SOURCE: time/timekeeper.rs:20-86, time/timekeeper.rs:304-420 -/
theorem calendar_clock_iff {systemHz bootCounter frequencyHz : ℕ} {tk : Timekeeper}
    (hhz : 0 < systemHz) (hboot : bootCounter < wordSize)
    (hnew : Timekeeper.new systemHz bootCounter frequencyHz = some tk)
    {path : List (Event × Clock)} (hpath : Run.Path Step (boot tk) path) :
    (∀ before e t after, path = before ++ (e, t) :: after →
      Counted e (Run.last (boot tk) before).timekeeper.realtime t.timekeeper.realtime ∧
      ∀ counter, (Run.last t after).Reads counter → Agrees e t (Run.last t after) counter) ∧
    (boot tk).ReadsReturn ∧
    ((∀ x ∈ path, x.2.ReadsReturn) ↔ Run.AllSteps Lasting (boot tk) path) := by
  have htk : tk.bootCounter < wordSize ∧ 0 < tk.frequencyHz ∧ tk.coarseMonoNs = 0 ∧
      tk.realtime.offsetNs = 0 := by
    unfold Timekeeper.new at hnew
    split_ifs at hnew with hslow
    cases hnew
    exact ⟨hboot, hhz.trans_le (Nat.le_of_not_lt hslow), rfl, rfl⟩
  obtain ⟨hword, hfreq, hcoarse, hzero⟩ := htk
  have hstart := sound_boot hfreq hword hcoarse
  have hlast : tk.lastNanos < wordSize := (lastNanos_lt hfreq).trans (by decide)
  refine ⟨?_, (hstart.readsReturn_iff hfreq).mpr (by simpa [boot, hzero] using hlast), ?_⟩
  · rintro before e t after rfl
    obtain ⟨hbefore, hstep, hafter⟩ := hpath.split
    have hs := hbefore.invariant (fun _ _ _ hs h => hs.step h) hstart
    have ht := hs.step hstep
    refine ⟨?_, fun counter hreads => ?_⟩
    · cases hstep with
      | mk _ _ hrun => exact (Call.run_spec hrun).2.1
    · have hu := hafter.invariant (fun _ _ _ hu h => hu.step h) ht
      have hfollows : Follows t (Run.last t after) := hafter.invariant (fun _ _ _ hu h => hu.step h)
          ⟨le_rfl, fun hf => ⟨hf, le_rfl, fun _ => rfl⟩⟩
      exact agrees_of_follows hs hstep ht hu hfollows hreads
  · apply Run.Path.always_iff (I := fun s => s.Sound tk) (fun s e t hs h _ => hs.step h) _ hstart
      hpath
    intro s e t hs h
    rw [(hs.step h).readsReturn_iff hfreq, Lasting, hs.lastNanos]
    cases h with
    | mk _ _ hrun => rw [(Call.run_spec hrun).2.2]

/-- A counter that ticks once a nanosecond. -/
def nanosecondCounter : Timekeeper := ⟨0, nanosPerSec, 10000000, ⟨0, 0⟩, 0⟩

/-- The calendar is set at boot. -/
def setAtBoot (targetNs : ℕ) : List (Event × Clock) :=
  [(⟨.set targetNs, 0, .changed (.ok true)⟩,
    ⟨{ nanosecondCounter with realtime := ⟨targetNs, 1⟩ }, 0, false⟩)]

/-- **A set is accepted and the next reading panics.**  The calendar is set to the last value of
its word, which is accepted, and one nanosecond later it cannot be read. -/
theorem accepted_set_panics_later : Timekeeper.new 100 0 nanosPerSec = some nanosecondCounter ∧
    Run.Path Step (boot nanosecondCounter) (setAtBoot (wordSize - 1)) ∧
    (Run.last (boot nanosecondCounter) (setAtBoot (wordSize - 1))).Reads 1 ∧
    (Run.last (boot nanosecondCounter) (setAtBoot (wordSize - 1))).timekeeper.realtimeRead 1 =
      .error ⟨"realtime clock value exceeded its internal nanosecond range"⟩ :=
  ⟨by decide, ⟨⟨by decide, rfl, by decide⟩, trivial⟩, by decide, by decide⟩

/-- The calendar is set at boot, moved on by an adjustment, and refuses one that would take it
before the monotonic time. -/
def adjusted : List (Event × Clock) :=
  setAtBoot 7 ++
    [(⟨.adjust 5, 3, .changed (.ok true)⟩,
      ⟨{ nanosecondCounter with realtime := ⟨12, 2⟩ }, 3, false⟩),
    (⟨.adjust (-20), 4, .changed (.error .invalidArgument)⟩,
      ⟨{ nanosecondCounter with realtime := ⟨12, 2⟩ }, 4, false⟩)]

theorem calendar_clock_iff_adjusted : Run.Path Step (boot nanosecondCounter) adjusted ∧
    Run.AllSteps Lasting (boot nanosecondCounter) adjusted ∧ ∀ x ∈ adjusted, x.2.ReadsReturn := by
  have hpath : Run.Path Step (boot nanosecondCounter) adjusted :=
    ⟨⟨by decide, rfl, by decide⟩, ⟨by decide, rfl, by decide⟩, ⟨by decide, rfl, by decide⟩, trivial⟩
  have hall : Run.AllSteps Lasting (boot nanosecondCounter) adjusted :=
    ⟨by decide, by decide, by decide, trivial⟩
  have hnew : Timekeeper.new 100 0 nanosPerSec = some nanosecondCounter := by decide
  exact ⟨hpath, hall, (calendar_clock_iff (by decide) (by decide) hnew hpath).2.2.mpr hall⟩

end Anemone.Timer
