import Anemone.Analysis.TheoremPosixLockProof
import Anemone.Interface.FlockRecord

/-!
# Flock records normalise exactly and survive the way back

A normalised range ends at `i64::MAX` or has no end, so a vector that only such ranges changed
gives every holder one mode from there on (`Settled`), and its segments fit the record again.
-/

namespace Anemone.PosixLock

open PosixLockDomain PosixLockRange

/-- the ends of the range are offsets. -/
def Bounded (r : PosixLockRange) : Prop :=
  r.start ≤ offsetMax ∧ ∀ e ∈ r.endExclusive, e ≤ offsetMax

variable {r : PosixLockRange}

theorem Bounded.has_iff (h : Bounded r) {x : ℕ} (hx : offsetMax ≤ x) :
    r.Has x ↔ r.Has offsetMax := by
  refine and_congr ⟨fun _ => h.1, fun _ => h.1.trans hx⟩ ?_
  refine forall₂_congr fun e he => ?_
  have hle := h.2 e he
  omega

theorem openEnded_spec {a : ℤ} (hmax : a ≤ offsetMax) :
    Bounded (.openEnded a.toNat) ∧ ∀ x : ℕ, (openEnded a.toNat).Has x ↔ a ≤ x := by
  simp [Bounded, openEnded, PosixLockRange.Has, hmax]

theorem finite_spec {a b : ℤ} (ha : 0 ≤ a) (hab : a < b) (hb : b ≤ offsetMax) :
    ∃ r : PosixLockRange, finite a.toNat b.toNat = .ok r ∧ Bounded r ∧
      r.endExclusive ≠ none ∧ ∀ x : ℕ, r.Has x ↔ a ≤ x ∧ x < b := by
  have hlt : a.toNat < b.toNat := by omega
  refine ⟨_, dif_pos hlt, ⟨by simp only; omega, ?_⟩, nofun, fun x => ?_⟩
  · simp only [Option.mem_some_iff, forall_eq']
    omega
  · simp only [PosixLockRange.Has, Option.mem_some_iff, forall_eq']
    omega

/-- **the range** of a start and a length has the offsets they select, and is refused
exactly when one of these is no offset. -/
theorem lockRange_spec {start : ℤ} (len : ℤ) (hstart : 0 ≤ start) (hmax : start ≤ offsetMax) :
    (∃ e, lockRange start len = .ok (.error e) ∧ len ≠ 0 ∧
      ∃ x, Selects start len x ∧ ¬ (0 ≤ x ∧ x ≤ offsetMax)) ∨
    ∃ r, lockRange start len = .ok (.ok r) ∧ Bounded r ∧
      (len ≠ 0 → ∀ x, Selects start len x → 0 ≤ x ∧ x ≤ offsetMax) ∧
      (∀ x ≤ offsetMax, r.Has x ↔ Selects start len x) ∧
      (r.endExclusive = none ↔ Selects start len offsetMax) := by
  unfold lockRange Selects
  have hopen := openEnded_spec hmax
  split_ifs with hpos hover hlast hneg hbefore
  · exact .inl ⟨_, rfl, by omega, start + len - 1, by omega, by omega⟩
  · -- the last offset is selected: no end
    refine .inr ⟨_, rfl, hopen.1, fun _ x hx => by omega, fun x hx => ?_, ?_⟩
    · rw [hopen.2]
      omega
    · simp only [openEnded, true_iff]
      omega
  · obtain ⟨r, hr, hbound, hend, hhas⟩ :=
      finite_spec hstart (b := start + len) (by omega) (by omega)
    refine .inr ⟨r, by rw [hr]; rfl, hbound, fun _ x hx => by omega, fun x hx => ?_, ?_⟩
    · rw [hhas]
      omega
    · simp only [hend, false_iff]
      omega
  · exact .inl ⟨_, rfl, by omega, start + len, by omega, by omega⟩
  · obtain ⟨r, hr, hbound, hend, hhas⟩ :=
      finite_spec (a := start + len) (by omega) (b := start) (by omega) hmax
    refine .inr ⟨r, by rw [hr]; rfl, hbound, fun _ x hx => by omega, fun x hx => ?_, ?_⟩
    · rw [hhas]
      omega
    · simp only [hend, false_iff]
      omega
  · refine .inr ⟨_, rfl, hopen.1, fun _ x hx => by omega, fun x hx => ?_, ?_⟩
    · rw [hopen.2]
      omega
    · simp only [openEnded, true_iff]
      omega

variable {H : Type}

/-- **`normalize`** never panics; it refuses exactly the records that are no request,
and gives the others their offsets. -/
theorem normalize_spec (binding : PosixLockBinding H) (raw : Flock) (allowUnlock : Bool) :
    ∃ result, normalize binding raw allowUnlock = .ok result ∧
      Decides binding raw allowUnlock result ∧ ∀ lock, result = .ok lock → Bounded lock.range := by
  unfold normalize
  cases hop : lockOperation raw.lType allowUnlock with
  | none => exact ⟨_, rfl, fun ⟨_, _, h, _⟩ => by simp [hop] at h, nofun⟩
  | some operation =>
    cases hbase : whenceBase binding raw.lWhence with
    | none => exact ⟨_, rfl, fun ⟨_, _, _, h, _⟩ => by simp [hbase] at h, nofun⟩
    | some base =>
      have haccepts : Accepts binding raw allowUnlock → 0 ≤ base + raw.lStart.toInt ∧
          base + raw.lStart.toInt ≤ offsetMax ∧ (raw.lLen.toInt ≠ 0 →
            ∀ x, Selects (base + raw.lStart.toInt) raw.lLen.toInt x → 0 ≤ x ∧ x ≤ offsetMax) := by
        rintro ⟨_, base', _, hbase', h⟩
        cases hbase.symm.trans hbase'
        exact h
      simp only
      split_ifs with hneg hover
      · exact ⟨_, rfl, fun h => by have := (haccepts h).1; omega, nofun⟩
      · exact ⟨_, rfl, fun h => by have := (haccepts h).2.1; omega, nofun⟩
      · obtain ⟨e, he, hlen, x, hx, hno⟩ | ⟨r, hr, hbound, hin, hhas, hend⟩ :=
          lockRange_spec raw.lLen.toInt (not_lt.mp hneg) (not_lt.mp hover)
        · rw [he]
          exact ⟨_, rfl, fun h => hno ((haccepts h).2.2 hlen x hx), nofun⟩
        · rw [hr]
          refine ⟨_, rfl, ⟨⟨operation, base, hop, hbase, ?_, ?_, hin⟩, ?_⟩, fun lock heq => ?_⟩
          · exact not_lt.mp hneg
          · exact not_lt.mp hover
          · exact ⟨base, hop, hbase, hhas, hend⟩
          · cases heq
            exact hbound

theorem Normalized.bounded (h : Normalized r) : Bounded r := by
  obtain ⟨B, binding, raw, allowUnlock, operation, hok⟩ := h
  obtain ⟨result, hres, -, hbound⟩ := normalize_spec binding raw allowUnlock
  cases hok.symm.trans hres
  exact hbound _ rfl

variable [DecidableEq H] {d d' : PosixLockDomain H}

/-- from the last offset on a holder has one mode. -/
def Settled (d : PosixLockDomain H) : Prop :=
  ∀ h x, offsetMax ≤ x → byteMap d h x = byteMap d h offsetMax

/-- **one change** by a bounded range keeps the vector settled. -/
theorem Settled.assign (hd : Settled d) (hr : Bounded r) {o : H} {m : Option PosixLockMode}
    (hmap : ∀ h x, byteMap d' h x = if h = o ∧ r.Has x then m else byteMap d h x) :
    Settled d' := by
  intro h x hx
  rw [hmap, hmap, hd h x hx]
  simp only [hr.has_iff hx]

/-- **every step** keeps the vector canonical and settled. -/
theorem RecordStep.settled (hst : RecordStep d d') (hd : Canonical d ∧ Settled d) :
    Canonical d' ∧ Settled d' := by
  obtain ⟨hc, hs⟩ := hd
  cases hst with
  | set hrange o m t h =>
    rcases set_spec hc o _ m t with ⟨a, -, -, -, heq⟩ | ⟨-, -, d₁, heq, hcanon, hmap⟩
    · cases h.symm.trans heq
      exact ⟨hc, hs⟩
    · cases h.symm.trans heq
      exact ⟨hcanon, hs.assign hrange.bounded hmap⟩
  | unlock hrange o h =>
    obtain ⟨d₁, heq, hcanon, hmap⟩ := unlock_spec hc o _
    cases h.symm.trans heq
    exact ⟨hcanon, hs.assign hrange.bounded hmap⟩
  | retireBinding o =>
    obtain ⟨hcanon, hmap⟩ := retireBinding_spec hc o
    refine ⟨hcanon, fun h x hx => ?_⟩
    rw [hmap, hmap, hs h x hx]

end Anemone.PosixLock
