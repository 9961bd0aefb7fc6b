import Mathlib.Tactic
import Mathlib.Data.Int.Log

/-!
# Rounded arithmetic

A sum or a quotient of doubles is the rational one, rounded. `Rounding` is what is used of
the rounding: it is monotone, and keeps the numbers that a double holds. `binary64` is the
rounding to the nearest double, with ties to the even one; exponents have no upper bound.

* `binary64_mono`, `binary64_exact`: it is a `Rounding`.
-/

/-- A number that a double holds: 53 bits and an exponent. -/
def Rounding.IsDouble (q : ℚ) : Prop := ∃ z e : ℤ, |z| ≤ 2 ^ 53 ∧ -1074 ≤ e ∧ q = z * 2 ^ e

/-- A rounding to doubles. -/
structure Rounding where
  round : ℚ → ℚ
  mono : Monotone round
  exact : ∀ q, Rounding.IsDouble q → round q = q

namespace Rounding

/-! ## Numbers that are kept -/

theorem isDouble_intCast {z : ℤ} (h : |z| ≤ 2 ^ 53) : IsDouble z := ⟨z, 0, h, by norm_num, by norm_num⟩

theorem isDouble_natCast {n : ℕ} (h : n ≤ 2 ^ 53) : IsDouble n := by
  have := isDouble_intCast (z := (n : ℤ)) (by rw [abs_of_nonneg (by positivity)]; exact_mod_cast h)
  exact_mod_cast this

/-- Multiples of a 1024th are doubles, if they are small. -/
theorem isDouble_1024th {z : ℤ} (h : |z| ≤ 2 ^ 53) : IsDouble (z / 1024) :=
  ⟨z, -10, h, by norm_num, by rw [zpow_neg, div_eq_mul_inv]; norm_num⟩

section Bounds

variable (fl : Rounding) {q r : ℚ}

theorem le_of_le (hr : IsDouble r) (h : q ≤ r) : fl.round q ≤ r := (fl.mono h).trans (fl.exact r hr).le

theorem ge_of_ge (hr : IsDouble r) (h : r ≤ q) : r ≤ fl.round q := (fl.exact r hr).ge.trans (fl.mono h)

theorem round_zero : fl.round 0 = 0 := fl.exact 0 (isDouble_intCast (z := 0) (by norm_num))

theorem round_nonneg (h : 0 ≤ q) : 0 ≤ fl.round q := by
  rw [← fl.round_zero]
  exact fl.mono h

end Bounds

/-! ## To the nearest double -/

/-- The nearest integer, with ties to the even one. -/
def roundEven (q : ℚ) : ℤ :=
  let f := ⌊q⌋
  if q - f < 1 / 2 then f else if 1 / 2 < q - f then f + 1 else if Even f then f else f + 1

/-- The exponent of the last place of a double. -/
def lastPlace (q : ℚ) : ℤ := max (Int.log 2 q - 52) (-1074)

/-- The nearest double of a magnitude. -/
def roundMagnitude (q : ℚ) : ℚ := roundEven (q / 2 ^ lastPlace q) * 2 ^ lastPlace q

/-- The nearest double, with ties to the even one. -/
def binary64Round (q : ℚ) : ℚ := if 0 ≤ q then roundMagnitude q else -roundMagnitude (-q)

theorem roundEven_intCast (z : ℤ) : roundEven z = z := by
  unfold roundEven
  dsimp only
  rw [Int.floor_intCast, sub_self]
  exact if_pos (by norm_num)

theorem roundEven_mono : Monotone roundEven := by
  intro q r hqr
  have hr0 := Int.floor_le r
  have hr1 := Int.lt_floor_add_one r
  have hq1 := Int.lt_floor_add_one q
  rcases Int.lt_or_eq_of_le (Int.floor_mono hqr) with hlt | heq
  · -- the two lie in different intervals between integers
    have hup : roundEven q ≤ ⌊q⌋ + 1 := by
      unfold roundEven
      dsimp only
      split_ifs <;> omega
    have hdown : ⌊r⌋ ≤ roundEven r := by
      unfold roundEven
      dsimp only
      split_ifs <;> omega
    omega
  · unfold roundEven
    dsimp only
    rw [← heq] at hr0 hr1 ⊢
    split_ifs <;> first | omega | (exfalso; linarith)

/-- Integer multiples of a place are kept when rounding to it. -/
theorem roundEven_place {z : ℤ} {d : ℤ} (hd : 0 ≤ d) (e : ℤ) : (roundEven (z * 2 ^ (e + d) / 2 ^ e) : ℚ) * 2 ^ e = z * 2 ^ (e + d) := by
  obtain ⟨k, rfl⟩ := Int.eq_ofNat_of_zero_le hd
  have hcast : (z : ℚ) * 2 ^ (e + k) / 2 ^ e = ((z * 2 ^ k : ℤ) : ℚ) := by
    rw [zpow_add₀ two_ne_zero, zpow_natCast]
    push_cast
    field_simp
  rw [hcast, roundEven_intCast]
  push_cast
  rw [zpow_add₀ two_ne_zero, zpow_natCast]
  ring

theorem lastPlace_mono {q r : ℚ} (h : 0 < q) (hqr : q ≤ r) : lastPlace q ≤ lastPlace r :=
  max_le_max (by have := Int.log_mono_right (b := 2) h hqr; omega) le_rfl

/-- Below a power of two that its place divides, a magnitude is rounded to at most that power. -/
theorem roundMagnitude_le {q : ℚ} {k : ℤ} (hk : lastPlace q ≤ k) (h : q ≤ 2 ^ k) : roundMagnitude q ≤ 2 ^ k := by
  have hpow : (0 : ℚ) < 2 ^ lastPlace q := zpow_pos two_pos _
  have hplace := roundEven_place (z := 1) (d := k - lastPlace q) (by omega) (lastPlace q)
  rw [add_sub_cancel, Int.cast_one, one_mul] at hplace
  rw [roundMagnitude, ← hplace]
  apply mul_le_mul_of_nonneg_right _ hpow.le
  exact_mod_cast roundEven_mono (div_le_div_of_nonneg_right h hpow.le)

theorem le_roundMagnitude {q : ℚ} {k : ℤ} (hk : lastPlace q ≤ k) (h : 2 ^ k ≤ q) : 2 ^ k ≤ roundMagnitude q := by
  have hpow : (0 : ℚ) < 2 ^ lastPlace q := zpow_pos two_pos _
  have hplace := roundEven_place (z := 1) (d := k - lastPlace q) (by omega) (lastPlace q)
  rw [add_sub_cancel, Int.cast_one, one_mul] at hplace
  rw [roundMagnitude, ← hplace]
  apply mul_le_mul_of_nonneg_right _ hpow.le
  exact_mod_cast roundEven_mono (div_le_div_of_nonneg_right h hpow.le)

theorem roundMagnitude_nonneg {q : ℚ} (h : 0 ≤ q) : 0 ≤ roundMagnitude q := by
  have hpow : (0 : ℚ) < 2 ^ lastPlace q := zpow_pos two_pos _
  refine mul_nonneg ?_ hpow.le
  have := roundEven_mono (div_nonneg h hpow.le)
  rw [show (0 : ℚ) = ((0 : ℤ) : ℚ) from rfl, roundEven_intCast] at this
  exact_mod_cast this

theorem roundMagnitude_mono {q r : ℚ} (hq : 0 ≤ q) (hqr : q ≤ r) : roundMagnitude q ≤ roundMagnitude r := by
  rcases hq.eq_or_lt with rfl | hpos
  · rw [roundMagnitude, zero_div, show (0 : ℚ) = ((0 : ℤ) : ℚ) from rfl, roundEven_intCast, Int.cast_zero, zero_mul]
    exact roundMagnitude_nonneg hqr
  have hle := lastPlace_mono hpos hqr
  rcases Int.lt_or_eq_of_le hle with hlt | heq
  · -- the power of two that starts the places of r lies between
    have hr : lastPlace r = Int.log 2 r - 52 := by
      unfold lastPlace at hlt ⊢
      omega
    have hbetween : q < 2 ^ Int.log 2 r := by
      have := Int.lt_zpow_succ_log_self (b := 2) (by norm_num) q
      refine this.trans_le (zpow_le_zpow_right₀ one_le_two ?_)
      unfold lastPlace at hlt
      omega
    have hlow := Int.zpow_log_le_self (b := 2) (by norm_num) (hpos.trans_le hqr)
    have hdown := roundMagnitude_le (k := Int.log 2 r) (by omega) hbetween.le
    exact hdown.trans (le_roundMagnitude (by omega) (by exact_mod_cast hlow))
  · rw [roundMagnitude, roundMagnitude, heq]
    have hpow : (0 : ℚ) < 2 ^ lastPlace r := zpow_pos two_pos _
    apply mul_le_mul_of_nonneg_right _ hpow.le
    exact_mod_cast roundEven_mono (div_le_div_of_nonneg_right hqr hpow.le)

/-- **The rounding to the nearest double is monotone.** -/
theorem binary64_mono : Monotone binary64Round := by
  intro q r hqr
  unfold binary64Round
  split_ifs with hq hr hr
  · exact roundMagnitude_mono hq hqr
  · exact absurd (hq.trans hqr) hr
  · exact (neg_nonpos.2 (roundMagnitude_nonneg (by linarith))).trans (roundMagnitude_nonneg hr)
  · exact neg_le_neg (roundMagnitude_mono (by linarith) (by linarith))

theorem roundMagnitude_exact {z e : ℤ} (hz : 0 < z) (hle : z ≤ 2 ^ 53) (he : -1074 ≤ e) :
    roundMagnitude (z * 2 ^ e) = z * 2 ^ e := by
  have hq : (0 : ℚ) < z * 2 ^ e := mul_pos (by exact_mod_cast hz) (zpow_pos two_pos _)
  rcases hle.lt_or_eq with hlt | rfl
  · -- the last place is at most e
    have hlog : Int.log 2 ((z : ℚ) * 2 ^ e) < e + 53 := by
      apply (Int.lt_zpow_iff_log_lt (by norm_num) hq).1
      have hz53 : (z : ℚ) < 2 ^ (53 : ℤ) := by exact_mod_cast hlt
      rw [Nat.cast_ofNat, zpow_add₀ two_ne_zero, mul_comm ((2 : ℚ) ^ e)]
      exact mul_lt_mul_of_pos_right hz53 (zpow_pos two_pos _)
    have hplace : lastPlace ((z : ℚ) * 2 ^ e) ≤ e := by
      unfold lastPlace
      omega
    have := roundEven_place (z := z) (d := e - lastPlace ((z : ℚ) * 2 ^ e)) (by omega) (lastPlace ((z : ℚ) * 2 ^ e))
    rwa [add_sub_cancel] at this
  · have hpow : (((2 ^ 53 : ℤ) : ℚ)) * 2 ^ e = 2 ^ (53 + e) := by
      rw [zpow_add₀ two_ne_zero]
      norm_num
    rw [hpow]
    have hlog : Int.log 2 ((2 : ℚ) ^ (53 + e)) = 53 + e := by exact_mod_cast Int.log_zpow (b := 2) (R := ℚ) (by norm_num) (53 + e)
    have hplace : lastPlace ((2 : ℚ) ^ (53 + e)) ≤ 53 + e := by
      unfold lastPlace
      omega
    exact le_antisymm (roundMagnitude_le hplace le_rfl) (le_roundMagnitude hplace le_rfl)

/-- **It keeps the doubles.** -/
theorem binary64_exact (q : ℚ) (h : IsDouble q) : binary64Round q = q := by
  obtain ⟨z, e, hz, he, rfl⟩ := h
  have hpow : (0 : ℚ) < 2 ^ e := zpow_pos two_pos _
  obtain ⟨hlo, hhi⟩ := abs_le.1 hz
  unfold binary64Round
  rcases lt_trichotomy z 0 with hneg | rfl | hpos
  · have hzq : (z : ℚ) < 0 := by exact_mod_cast hneg
    rw [if_neg (not_le.2 (mul_neg_of_neg_of_pos hzq hpow))]
    have := roundMagnitude_exact (z := -z) (e := e) (by omega) (by omega) he
    push_cast at this
    rw [← neg_mul, this]
    ring
  · rw [Int.cast_zero, zero_mul, if_pos le_rfl, roundMagnitude, zero_div, show (0 : ℚ) = ((0 : ℤ) : ℚ) from rfl,
      roundEven_intCast, Int.cast_zero, zero_mul]
  · have hzq : (0 : ℚ) < z := by exact_mod_cast hpos
    rw [if_pos (mul_pos hzq hpow).le]
    exact roundMagnitude_exact hpos hhi he

/-- The rounding of a processor in its default mode. -/
def binary64 : Rounding := ⟨binary64Round, binary64_mono, binary64_exact⟩

end Rounding
