import Mathlib.Data.Nat.ModEq
import Mathlib.Tactic.Ring

/-!
# Numbers in base `2 ^ b`

A tree whose nodes have `2 ^ b` children each is walked by the digits of a number, the highest
first.  Two numbers that agree in the digits from `lo` up to `n` reach the same node of level `lo`
of a tree of `n` levels.  The last section is about sign extension.
-/

namespace Radix

open Nat (div_eq_of_lt mod_eq_of_lt mod_lt mod_modEq two_pow_pos)

/-- The digit of `v` with weight `2 ^ (l * b)`. -/
def digit (b l v : ℕ) : ℕ := v / 2 ^ (l * b) % 2 ^ b

/-- The digits from `lo` to below `n` are the same. -/
def Agree (b lo n v w : ℕ) : Prop := ∀ l, lo ≤ l → l < n → digit b l v = digit b l w

instance (b lo n v w : ℕ) : Decidable (Agree b lo n v w) :=
  decidable_of_iff (∀ l < n, lo ≤ l → digit b l v = digit b l w)
    ⟨fun h l hlo hn => h l hn hlo, fun h l hn hlo => h l hlo hn⟩

variable {b lo n v w : ℕ}

theorem digit_lt (b l v : ℕ) : digit b l v < 2 ^ b := mod_lt _ (two_pow_pos b)

theorem Agree.refl (b lo n v : ℕ) : Agree b lo n v v := fun _ _ _ => rfl

theorem Agree.symm (h : Agree b lo n v w) : Agree b lo n w v := fun l hlo hn => (h l hlo hn).symm

theorem Agree.trans {u : ℕ} (h : Agree b lo n u v) (h' : Agree b lo n v w) : Agree b lo n u w :=
  fun l hlo hn => (h l hlo hn).trans (h' l hlo hn)

theorem Agree.mono {lo' : ℕ} (h : Agree b lo n v w) (hle : lo ≤ lo') : Agree b lo' n v w :=
  fun l hlo hn => h l (hle.trans hlo) hn

theorem agree_self (b n v w : ℕ) : Agree b n n v w := fun _ hlo hn => absurd hn (not_lt.mpr hlo)

theorem agree_succ (h : lo ≤ n) :
    Agree b lo (n + 1) v w ↔ digit b n v = digit b n w ∧ Agree b lo n v w := by
  constructor
  · intro hag
    exact ⟨hag n h (Nat.lt_succ_self n), fun l hlo hn => hag l hlo (Nat.lt_succ_of_lt hn)⟩
  · rintro ⟨htop, hag⟩ l hlo hn
    rcases Nat.lt_succ_iff_lt_or_eq.mp hn with hn | rfl
    · exact hag l hlo hn
    · exact htop

theorem pow_dvd_pow_mul (b : ℕ) (h : lo ≤ n) : 2 ^ (lo * b) ∣ 2 ^ (n * b) :=
  pow_dvd_pow 2 (Nat.mul_le_mul_right b h)

theorem mod_pow_succ (b n v : ℕ) :
    v % 2 ^ ((n + 1) * b) = v % 2 ^ (n * b) + 2 ^ (n * b) * digit b n v := by
  rw [show (n + 1) * b = n * b + b by ring, pow_add, Nat.mod_mul, digit]

theorem mod_div_pow (h : lo < n) : v % 2 ^ (n * b) / 2 ^ (lo * b) =
      v % 2 ^ (n * b) / 2 ^ ((lo + 1) * b) * 2 ^ b + digit b lo v := by
  have hdigit : v % 2 ^ (n * b) / 2 ^ (lo * b) % 2 ^ b = digit b lo v := by
    have hdvd : 2 ^ (lo * b) * 2 ^ b ∣ 2 ^ (n * b) := by
      rw [← pow_add, show lo * b + b = (lo + 1) * b by ring]
      exact pow_dvd_pow_mul b h
    rw [digit, ← Nat.mod_mul_right_div_self, ← Nat.mod_mul_right_div_self,
      Nat.mod_mod_of_dvd _ hdvd]
  rw [show (lo + 1) * b = lo * b + b by ring, pow_add, ← Nat.div_div_eq_div_mul, ← hdigit,
    Nat.div_add_mod']

theorem agree_iff (h : lo ≤ n) :
    Agree b lo n v w ↔ v % 2 ^ (n * b) / 2 ^ (lo * b) = w % 2 ^ (n * b) / 2 ^ (lo * b) := by
  induction n, h using Nat.le_induction with
  | base =>
    refine iff_of_true (agree_self b lo v w) ?_
    rw [div_eq_of_lt (mod_lt _ (two_pow_pos _)), div_eq_of_lt (mod_lt _ (two_pow_pos _))]
  | succ n h ih =>
    obtain ⟨q, hq⟩ := pow_dvd_pow_mul b h
    have hpos : 0 < 2 ^ (lo * b) := two_pow_pos _
    have hquot : ∀ u, u % 2 ^ ((n + 1) * b) / 2 ^ (lo * b)
        = u % 2 ^ (n * b) / 2 ^ (lo * b) + q * digit b n u := by
      intro u
      rw [mod_pow_succ]
      conv_lhs => rw [hq, Nat.mul_assoc, Nat.add_mul_div_left _ _ hpos, ← hq]
    have hlow : ∀ u, u % 2 ^ (n * b) / 2 ^ (lo * b) < q := by
      intro u
      rw [Nat.div_lt_iff_lt_mul hpos, Nat.mul_comm q, ← hq]
      exact mod_lt _ (two_pow_pos _)
    have hqpos : 0 < q := (Nat.zero_le _).trans_lt (hlow v)
    rw [agree_succ h, ih, hquot, hquot]
    constructor
    · rintro ⟨htop, hlow⟩
      rw [htop, hlow]
    · intro heq
      -- the low parts are below `q`, so that the sum determines both
      have hmod := congrArg (· % q) heq
      have hdiv := congrArg (· / q) heq
      simp only [Nat.add_mul_mod_self_left, Nat.add_mul_div_left _ _ hqpos,
        mod_eq_of_lt (hlow _), div_eq_of_lt (hlow _), Nat.zero_add] at hmod hdiv
      exact ⟨hdiv, hmod⟩

theorem digit_congr {l : ℕ} (h : v ≡ w [MOD 2 ^ (n * b)]) (hl : l < n) :
    digit b l v = digit b l w := by
  have hag : Agree b l n v w := (agree_iff hl.le).mpr (by rw [h])
  exact hag l le_rfl hl

/-- The numbers that agree with an aligned one are those of the block it begins. -/
theorem agree_iff_modEq (h : lo ≤ n) (hw : 2 ^ (lo * b) ∣ w) :
    Agree b lo n v w ↔ ∃ j < 2 ^ (lo * b), v ≡ w + j [MOD 2 ^ (n * b)] := by
  have hpos : 0 < 2 ^ (lo * b) := two_pow_pos _
  have hdvd := pow_dvd_pow_mul b h
  have hwmod : 2 ^ (lo * b) ∣ w % 2 ^ (n * b) := (Nat.dvd_mod_iff hdvd).mpr hw
  obtain ⟨q, hq⟩ := hwmod
  constructor
  · intro hag
    have hquot := (agree_iff h).mp hag
    refine ⟨v % 2 ^ (lo * b), mod_lt _ hpos, ?_⟩
    have hv : v % 2 ^ (n * b) = w % 2 ^ (n * b) + v % 2 ^ (lo * b) := by
      rw [← Nat.div_add_mod (v % 2 ^ (n * b)) (2 ^ (lo * b)), hquot, hq,
        Nat.mul_div_cancel_left _ hpos, Nat.mod_mod_of_dvd _ hdvd]
    calc v ≡ v % 2 ^ (n * b) [MOD 2 ^ (n * b)] := (mod_modEq _ _).symm
      _ = w % 2 ^ (n * b) + v % 2 ^ (lo * b) := hv
      _ ≡ w + v % 2 ^ (lo * b) [MOD 2 ^ (n * b)] := (mod_modEq _ _).add_right _
  · rintro ⟨j, hj, hmod⟩
    rw [agree_iff h, hmod]
    obtain ⟨k, hk⟩ := hdvd
    have hqk : q < k := by
      by_contra hle
      have := Nat.mul_le_mul_left (2 ^ (lo * b)) (Nat.le_of_not_lt hle)
      omega
    have hsum : 2 ^ (lo * b) * q + j < 2 ^ (n * b) := by
      have := Nat.mul_le_mul_left (2 ^ (lo * b)) hqk
      rw [Nat.mul_succ] at this
      omega
    have hwj : (w + j) % 2 ^ (n * b) = 2 ^ (lo * b) * q + j := by
      rw [← Nat.mod_add_mod, hq, mod_eq_of_lt hsum]
    rw [hwj, hq, Nat.mul_add_div hpos, div_eq_of_lt hj, Nat.mul_div_cancel_left _ hpos,
      Nat.add_zero]

/-- The remainder in a block is what is left of the block's first number. -/
theorem mod_block {j : ℕ} (h : lo ≤ n) (hw : 2 ^ (lo * b) ∣ w) (hj : j < 2 ^ (lo * b))
    (hv : v ≡ w + j [MOD 2 ^ (n * b)]) : v % 2 ^ (lo * b) = j := by
  have hmod : v ≡ w + j [MOD 2 ^ (lo * b)] := hv.of_dvd (pow_dvd_pow_mul b h)
  obtain ⟨q, rfl⟩ := hw
  rw [hmod, Nat.mul_add_mod, mod_eq_of_lt hj]

/-- The first number of a block and the one in the remainder. -/
theorem div_mul_modEq (h : lo ≤ n) (v : ℕ) : v / 2 ^ (lo * b) * 2 ^ (lo * b) ≡
      v % 2 ^ (n * b) / 2 ^ (lo * b) * 2 ^ (lo * b) [MOD 2 ^ (n * b)] := by
  have hdvd : 2 ^ (lo * b) ∣ 2 ^ (n * b) * (v / 2 ^ (n * b)) := (pow_dvd_pow_mul b h).mul_right _
  have hsplit : v / 2 ^ (lo * b) * 2 ^ (lo * b) = 2 ^ (n * b) * (v / 2 ^ (n * b))
      + v % 2 ^ (n * b) / 2 ^ (lo * b) * 2 ^ (lo * b) := by
    conv_lhs => rw [← Nat.div_add_mod v (2 ^ (n * b))]
    rw [Nat.add_div_of_dvd_right hdvd, Nat.add_mul, Nat.div_mul_cancel hdvd]
  rw [hsplit]
  exact Nat.mul_add_mod _ _ _

/-! ## Trailing zeros -/

/-- `u64::trailing_zeros`: the place of the lowest bit that is set. -/
def trailingZeros (v : ℕ) : ℕ := ((List.range 64).find? v.testBit).getD 64

theorem testBit_of_lt_trailingZeros {i : ℕ} (h : i < trailingZeros v) : v.testBit i = false := by
  unfold trailingZeros at h
  cases hfind : (List.range 64).find? v.testBit with
  | none =>
    rw [hfind] at h
    exact Bool.eq_false_iff.mpr (List.find?_eq_none.mp hfind i (List.mem_range.mpr h))
  | some k =>
    rw [hfind] at h
    have hfirst := (List.find?_range_eq_some.mp hfind).2.2 i h
    simpa using hfirst

/-- Numbers that differ from some bit on only have the same remainder below it. -/
theorem mod_eq_of_le_trailingZeros {k : ℕ} (h : k ≤ trailingZeros (v ^^^ w)) :
    v % 2 ^ k = w % 2 ^ k := by
  refine Nat.eq_of_testBit_eq fun i => ?_
  rw [Nat.testBit_mod_two_pow, Nat.testBit_mod_two_pow]
  by_cases hi : i < k
  · have hbit := testBit_of_lt_trailingZeros (hi.trans_le h)
    rw [Nat.testBit_xor] at hbit
    simpa [hi] using hbit
  · simp [hi]

/-! ## Sign extension -/

/-- The low `n` bits of `v`, with the bits from `n` to below `m` set if the highest of them
is. -/
def signExtend (n m v : ℕ) : ℕ :=
  let value := v % 2 ^ n
  if value.testBit (n - 1) then value + (2 ^ m - 2 ^ n) else value

section SignExtension

variable {m : ℕ}

theorem testBit_mod_iff (hn : 0 < n) (v : ℕ) :
    (v % 2 ^ n).testBit (n - 1) = true ↔ 2 ^ (n - 1) ≤ v % 2 ^ n := by
  have hpow : 2 ^ n = 2 * 2 ^ (n - 1) := by rw [← pow_succ', Nat.sub_add_cancel hn]
  have hlt : v % 2 ^ n < 2 ^ n := mod_lt _ (two_pow_pos n)
  have hquot : v % 2 ^ n / 2 ^ (n - 1) < 2 := by
    rw [Nat.div_lt_iff_lt_mul (two_pow_pos _), ← hpow]
    exact hlt
  have hpos : 1 ≤ v % 2 ^ n / 2 ^ (n - 1) ↔ 2 ^ (n - 1) ≤ v % 2 ^ n := by
    rw [Nat.le_div_iff_mul_le (two_pow_pos _), Nat.one_mul]
  rw [Nat.testBit_eq_decide_div_mod_eq, decide_eq_true_eq, mod_eq_of_lt hquot, ← hpos]
  omega

theorem signExtend_modEq (h : n ≤ m) (v : ℕ) : signExtend n m v ≡ v [MOD 2 ^ n] := by
  have hdvd : 2 ^ n ∣ 2 ^ m - 2 ^ n := Nat.dvd_sub (pow_dvd_pow 2 h) dvd_rfl
  unfold signExtend
  simp only
  split
  · calc v % 2 ^ n + (2 ^ m - 2 ^ n) ≡ v % 2 ^ n + 0 [MOD 2 ^ n] :=
          Nat.ModEq.add_left _ (Nat.modEq_zero_iff_dvd.mpr hdvd)
      _ ≡ v [MOD 2 ^ n] := mod_modEq v _
  · exact mod_modEq v _

theorem signExtend_congr (h : v ≡ w [MOD 2 ^ n]) : signExtend n m v = signExtend n m w := by
  rw [signExtend, signExtend, h]

/-- A block that is not longer than half the range is moved as a whole. -/
theorem signExtend_add {s a r : ℕ} (hs : s < n) (ha : 2 ^ s ∣ a) (hr : r < 2 ^ s) :
    signExtend n m (a + r) = signExtend n m a + r := by
  have hn : 0 < n := (Nat.zero_le s).trans_lt hs
  obtain ⟨q, hq⟩ : 2 ^ s ∣ a % 2 ^ n := (Nat.dvd_mod_iff (pow_dvd_pow 2 hs.le)).mpr ha
  obtain ⟨h, hh⟩ : 2 ^ s ∣ 2 ^ (n - 1) := pow_dvd_pow 2 (by omega)
  have hpow : 2 ^ n = 2 * 2 ^ (n - 1) := by rw [← pow_succ', Nat.sub_add_cancel hn]
  have hlt : a % 2 ^ n < 2 ^ n := mod_lt _ (two_pow_pos n)
  -- both the block and half the range are multiples of the block's length
  have hwhole : ∀ k, 2 ^ s * q < 2 ^ s * k → 2 ^ s * q + r < 2 ^ s * k := by
    intro k hk
    have := Nat.mul_le_mul_left (2 ^ s) (Nat.lt_of_mul_lt_mul_left hk)
    rw [Nat.mul_succ] at this
    omega
  have hsum : (a + r) % 2 ^ n = a % 2 ^ n + r := by
    rw [← Nat.mod_add_mod, mod_eq_of_lt]
    have := hwhole (2 * h) (by rw [← hq, Nat.mul_left_comm, ← hh, ← hpow]; exact hlt)
    rw [Nat.mul_left_comm, ← hh, ← hpow, ← hq] at this
    exact this
  have hbit : ((a + r) % 2 ^ n).testBit (n - 1) = (a % 2 ^ n).testBit (n - 1) := by
    rw [Bool.eq_iff_iff, testBit_mod_iff hn, testBit_mod_iff hn, hsum]
    constructor
    · intro hle
      by_contra hnot
      have := hwhole h (by rw [← hq, ← hh]; omega)
      rw [← hq, ← hh] at this
      omega
    · omega
  unfold signExtend
  simp only
  rw [hbit, hsum]
  split
  · exact Nat.add_right_comm _ _ _
  · rfl

end SignExtension

end Radix
