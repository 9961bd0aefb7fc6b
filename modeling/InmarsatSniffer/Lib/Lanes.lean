import Mathlib
import InmarsatSniffer.Lib.Kernel

/-!
# Vector instructions

A register is the function of its lanes, lane 0 the lowest. The arithmetic is that of a
field; lanes of integers are their values, so that a sign extension leaves them as they are.
The names are those of the intrinsics.
-/

namespace Lanes

variable {R : Type} [Field R] {w : ℕ}

/-! ## Any width -/

/-- `_mm256_set1_ps`, `_mm_set1_ps`, `vdupq_n_f32`. -/
def set1 (x : R) : Fin w → R := fun _ => x

/-- `_mm256_mul_ps`, `_mm_mul_ps`, `vmulq_f32`. -/
def mul (a b : Fin w → R) : Fin w → R := fun l => a l * b l

/-- `_mm_add_ps`, `vaddq_f32`. -/
def add (a b : Fin w → R) : Fin w → R := fun l => a l + b l

/-- `_mm256_fmadd_ps`, `_mm_fmadd_ps`. -/
def fmadd (a b c : Fin w → R) : Fin w → R := fun l => a l * b l + c l

/-- `vfmaq_f32`. -/
def vfmaq (acc a b : Fin w → R) : Fin w → R := fun l => acc l + a l * b l

/-- `_mm256_cvtepi32_ps`, `_mm_cvtepi32_ps`, `vcvtq_f32_s32`. -/
def cvtepi32 (v : Fin w → ℤ) : Fin w → R := fun l => (v l : R)

/-- `_mm_srli_si128` by `k` lanes. -/
def srli (k : ℕ) (v : Fin w → ℤ) : Fin w → ℤ := fun l => if h : l + k < w then v ⟨l + k, h⟩ else 0

/-- The lowest lanes: what `_mm256_cvtepi8_epi32`, `_mm_cvtepi8_epi16`, `_mm_cvtepi16_epi32`, `vget_low_s8`
and `vget_low_s16` take. -/
def low {w' : ℕ} (h : w' ≤ w) (v : Fin w → ℤ) : Fin w' → ℤ := fun l => v (l.castLE h)

/-- The highest lanes: `vget_high_s8`, `vget_high_s16`. -/
def high {w' : ℕ} (h : w' ≤ w) (v : Fin w → ℤ) : Fin w' → ℤ := fun l => v ⟨w - w' + l, by omega⟩

/-- The elements from `j` on. -/
def slice {α : Type} (f : ℤ → α) (j : ℤ) : Fin w → α := fun l => f (j + (l : ℕ))

section Slices

variable {w' : ℕ} {f : ℤ → ℤ} {j : ℤ}

theorem low_slice (h : w' ≤ w) : low h (slice f j) = slice f j := rfl

theorem high_slice (h : w' ≤ w) : high h (slice f j) = slice f (j + (w - w' : ℕ)) := by
  funext l
  rw [high, slice, slice, Nat.cast_add, add_assoc]

/-- The shift fills up with zeros, which the lowest lanes leave out. -/
theorem low_srli_slice {k : ℕ} (h : w' ≤ w) (hk : w' + k ≤ w) : low h (srli k (slice f j)) = slice f (j + k) := by
  funext l
  have hlane : (l : ℕ) + k < w := by omega
  rw [low, srli, Fin.val_castLE, dif_pos hlane, slice, slice, Nat.cast_add, add_assoc, add_comm (k : ℤ)]

end Slices

/-! ## Four and eight lanes -/

/-- `_mm_set_ps`, the highest lane first. -/
def mmSetPs (e3 e2 e1 e0 : R) : Fin 4 → R := ![e0, e1, e2, e3]

/-- `_mm_unpacklo_ps`, `vzip1q_f32`. -/
def unpacklo (a b : Fin 4 → R) : Fin 4 → R := ![a 0, b 0, a 1, b 1]

/-- `_mm_unpackhi_ps`, `vzip2q_f32`. -/
def unpackhi (a b : Fin 4 → R) : Fin 4 → R := ![a 2, b 2, a 3, b 3]

/-- `vuzp1q_f32`. -/
def uzp1 (a b : Fin 4 → R) : Fin 4 → R := ![a 0, a 2, b 0, b 2]

/-- `vuzp2q_f32`. -/
def uzp2 (a b : Fin 4 → R) : Fin 4 → R := ![a 1, a 3, b 1, b 3]

/-- `_mm256_set_m128`. -/
def setM128 (hi lo : Fin 4 → R) : Fin 8 → R := ![lo 0, lo 1, lo 2, lo 3, hi 0, hi 1, hi 2, hi 3]

/-- `_mm256_castps256_ps128`. -/
def castps128 (v : Fin 8 → R) : Fin 4 → R := ![v 0, v 1, v 2, v 3]

/-- `_mm256_extractf128_ps(v, 1)`. -/
def extractf128 (v : Fin 8 → R) : Fin 4 → R := ![v 4, v 5, v 6, v 7]

/-- `_mm256_setr_epi32`, the lowest lane first. -/
def setrEpi32 (e0 e1 e2 e3 e4 e5 e6 e7 : ℕ) : Fin 8 → ℕ := ![e0, e1, e2, e3, e4, e5, e6, e7]

/-- `_mm256_permutevar8x32_ps`. -/
def permutevar8x32 (v : Fin 8 → R) (idx : Fin 8 → ℕ) : Fin 8 → R := fun l => v (Fin.ofNat 8 (idx l))

/-- `_MM_SHUFFLE`. -/
def mmShuffle (z y x w : ℕ) : ℕ := z * 64 + y * 16 + x * 4 + w

/-- `_mm_shuffle_ps`: two bits of `imm` for each lane. -/
def shuffle (a b : Fin 4 → R) (imm : ℕ) : Fin 4 → R :=
  ![a (Fin.ofNat 4 imm), a (Fin.ofNat 4 (imm / 4)), b (Fin.ofNat 4 (imm / 16)), b (Fin.ofNat 4 (imm / 64))]

/-- `_mm_cvtss_f32`. -/
def cvtss (v : Fin 4 → R) : R := v 0

/-- `vaddvq_f32`. -/
def vaddvq (v : Fin 4 → R) : R := v 0 + v 1 + v 2 + v 3

/-- The lowest two lanes, which `_mm_store_sd` stores. -/
def lowPair (v : Fin 4 → R) : Fin 2 → R := ![v 0, v 1]

/-- `vld2q_f32`: the even elements and the odd ones. -/
def vld2q {A : Type} (a : A) (mem : ℤ → R) (i : ℤ) : Logged (Kernel.Event A R) ((Fin 4 → R) × (Fin 4 → R)) :=
  ⟨(fun l => mem (i + (2 * l : ℕ)), fun l => mem (i + (2 * l + 1 : ℕ))), (List.range 8).map fun l : ℕ => .read a (i + l)⟩

end Lanes
