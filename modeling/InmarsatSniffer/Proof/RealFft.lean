import Mathlib
import InmarsatSniffer.Lib.Dft
import InmarsatSniffer.Spec.Jfft
import InmarsatSniffer.Proof.Jfft

/-!
# Real transforms by complex ones of half the size

* `fftReal_eq`: `fft_real` gives the transform of all the real elements, both halves of it.
* `ifftReal_eq`: `ifft_real` reads one half and gives the signal back; so there and back is as before
  (`fftReal_round_trip`).

The even elements are the real parts and the odd ones the imaginary parts of the elements of the complex transform,
`packed`; `fold_packed` and `unfold_packed` take the two apart and together.
-/

namespace InmarsatSniffer.Fft

open Dft Finset Complex ComplexConjugate

variable {cis : ℚ → ℂ} {p : ℕ}

/-- Turns back are conjugates. -/
structure IsTurn (cis : ℚ → ℂ) : Prop extends IsCis cis where
  back : ∀ q, conj (cis q) = cis (-q)

/-- Real elements. -/
def ofReals (x : ℕ → ℝ) (j : ℕ) : ℂ := x j

/-! ## Conjugates -/

/-- The upper half of the transform of real elements. -/
theorem conj_dft {ω : ℂ} {n : ℕ} (hω : conj ω * ω = 1) (hone : ω ^ n = 1) (x : ℕ → ℝ) {k : ℕ} (hk : k ≤ n) :
    conj (dft ω n (ofReals x) (n - k)) = dft ω n (ofReals x) k := by
  unfold dft
  rw [map_sum]
  refine sum_congr rfl fun j _ => ?_
  have hinv : conj ω ^ (j * k) * ω ^ (j * k) = 1 := by rw [← mul_pow, hω, one_pow]
  have hround : conj ω ^ (j * (n - k)) * conj ω ^ (j * k) = 1 := by
    have hconj : conj ω ^ n = 1 := by rw [← map_pow, hone, map_one]
    rw [← pow_add, ← mul_add, Nat.sub_add_cancel hk, mul_comm j, pow_mul, hconj, one_pow]
  have hpow : conj ω ^ (j * (n - k)) = ω ^ (j * k) := by
    calc conj ω ^ (j * (n - k)) = conj ω ^ (j * (n - k)) * (conj ω ^ (j * k) * ω ^ (j * k)) := by rw [hinv, mul_one]
      _ = conj ω ^ (j * (n - k)) * conj ω ^ (j * k) * ω ^ (j * k) := by ring
      _ = ω ^ (j * k) := by rw [hround, one_mul]
  rw [map_mul, map_pow, hpow, ofReals, Complex.conj_ofReal]

/-! ## Two in one -/

/-- Even elements in the real parts, odd ones in the imaginary parts. -/
def packed (x : ℕ → ℝ) (j : ℕ) : ℂ := ⟨x (2 * j), x (2 * j + 1)⟩

section Halves

variable {ω : ℂ} {n : ℕ} {x : ℕ → ℝ} {k : ℕ}

theorem dft_packed (ω : ℂ) (n : ℕ) (x : ℕ → ℝ) (k : ℕ) : dft ω n (packed x) k =
    dft ω n (ofReals fun j => x (2 * j)) k + I * dft ω n (ofReals fun j => x (2 * j + 1)) k := by
  unfold dft
  rw [mul_sum, ← sum_add_distrib]
  refine sum_congr rfl fun j _ => ?_
  rw [packed, Complex.mk_eq_add_mul_I, ofReals, ofReals]
  ring

theorem conj_dft_packed (hω : conj ω * ω = 1) (hone : ω ^ n = 1) (hk : k ≤ n) : conj (dft ω n (packed x) (n - k)) =
    dft ω n (ofReals fun j => x (2 * j)) k - I * dft ω n (ofReals fun j => x (2 * j + 1)) k := by
  rw [dft_packed, map_add, map_mul, conj_dft hω hone _ hk, conj_dft hω hone _ hk, Complex.conj_I]
  ring

theorem dft_halves (ω : ℂ) (n : ℕ) (x : ℕ → ℝ) (k : ℕ) : dft ω (2 * n) (ofReals x) k =
    dft (ω ^ 2) n (ofReals fun j => x (2 * j)) k + ω ^ k * dft (ω ^ 2) n (ofReals fun j => x (2 * j + 1)) k :=
  dft_even_odd ω n (ofReals x) k

/-- **One transform of all.** -/
theorem unfold_packed (hω : conj ω * ω = 1) (hhalf : ω ^ n = -1) (hk : k ≤ n) :
    dft (ω ^ 2) n (packed x) k * (1 / 2 * (1 - I * ω ^ k)) + 1 / 2 * (1 + I * ω ^ k) * conj (dft (ω ^ 2) n (packed x) (n - k)) =
      dft ω (2 * n) (ofReals x) k := by
  have hsq : conj (ω ^ 2) * ω ^ 2 = 1 := by rw [map_pow, ← mul_pow, hω, one_pow]
  have hone : (ω ^ 2) ^ n = 1 := by rw [← pow_mul, mul_comm, pow_mul, hhalf, neg_one_sq]
  rw [conj_dft_packed hsq hone hk, dft_packed, dft_halves]
  linear_combination (-(ω ^ k) * dft (ω ^ 2) n (ofReals fun j => x (2 * j + 1)) k) * Complex.I_sq

/-- **And back.** -/
theorem fold_packed (hω : conj ω * ω = 1) (hhalf : ω ^ n = -1) (hk : k ≤ n) :
    dft ω (2 * n) (ofReals x) k * conj (1 / 2 * (1 - I * ω ^ k)) +
        conj (1 / 2 * (1 + I * ω ^ k)) * conj (dft ω (2 * n) (ofReals x) (n - k)) = dft (ω ^ 2) n (packed x) k := by
  have hsq : conj (ω ^ 2) * ω ^ 2 = 1 := by rw [map_pow, ← mul_pow, hω, one_pow]
  have hone : (ω ^ 2) ^ n = 1 := by rw [← pow_mul, mul_comm, pow_mul, hhalf, neg_one_sq]
  have hinv : conj ω ^ k * ω ^ k = 1 := by rw [← mul_pow, hω, one_pow]
  have hconj : conj ω ^ (n - k) = -ω ^ k := by
    have hround : conj ω ^ (n - k) * conj ω ^ k = -1 := by
      rw [← pow_add, Nat.sub_add_cancel hk, ← map_pow, hhalf, map_neg, map_one]
    calc conj ω ^ (n - k) = conj ω ^ (n - k) * (conj ω ^ k * ω ^ k) := by rw [hinv, mul_one]
      _ = conj ω ^ (n - k) * conj ω ^ k * ω ^ k := by ring
      _ = -ω ^ k := by rw [hround, neg_one_mul]
  rw [dft_halves, dft_halves, dft_packed]
  simp only [map_add, map_sub, map_mul, map_pow, map_one, Complex.conj_I, conj_dft hsq hone _ hk, hconj, map_div₀, map_ofNat]
  linear_combination I * dft (ω ^ 2) n (ofReals fun j => x (2 * j + 1)) k * hinv

end Halves

/-! ## The tables -/

/-- `init` leaves the factors, too. -/
structure RealReady (cis : ℚ → ℂ) (f : RealJFFT) (p : ℕ) : Prop where
  ready : Ready cis f.toJFFT p
  diddleA : ∀ i < 2 ^ p, f.diddleA i = 1 / 2 * (1 - I * root cis .forward (2 * 2 ^ p) ^ i)
  diddleB : ∀ i < 2 ^ p, f.diddleB i = 1 / 2 * (1 + I * root cis .forward (2 * 2 ^ p) ^ i)

theorem init_realReady (hcis : IsCis cis) (f : RealJFFT) (fftSize : ℤ) :
    ∃ p, RealReady cis (f.init cis fftSize) p ∧ fftSize ≤ 2 ^ p ∧ (p = 0 ∨ 2 ^ p < 2 * fftSize) := by
  obtain ⟨p, hready, hle, hmin⟩ := init_ready cis f.toJFFT fftSize
  have hpower : ∀ i : ℕ, cis (-1 * i / (2 * (2 ^ p : ℕ))) = root cis .forward (2 * 2 ^ p) ^ i := by
    intro i
    rw [root_pow hcis, Direction.sign, Nat.cast_mul, Nat.cast_ofNat]
  have hrun : ∀ a b : ℕ → ℂ, ∀ m, (List.range m).foldl (fun (t : (ℕ → ℂ) × (ℕ → ℂ)) (i : ℕ) =>
        (Function.update t.1 i (0.5 * (1.0 - I * cis (-1 * i / (2 * (2 ^ p : ℕ))))),
          Function.update t.2 i (0.5 * (1.0 + I * cis (-1 * i / (2 * (2 ^ p : ℕ))))))) (a, b) =
      (fun i => if i < m then 1 / 2 * (1 - I * root cis .forward (2 * 2 ^ p) ^ i) else a i,
        fun i => if i < m then 1 / 2 * (1 + I * root cis .forward (2 * 2 ^ p) ^ i) else b i) := by
    intro a b m
    induction m with
    | zero => rfl
    | succ m ih =>
      rw [List.range_succ, List.foldl_append, ih, List.foldl_cons, List.foldl_nil, hpower]
      refine Prod.ext (funext fun i => ?_) (funext fun i => ?_)
      all_goals
        simp only [Function.update_apply]
        split_ifs with heq hlt hlt'
        any_goals first | rfl | omega
        rw [heq]
        norm_num
  refine ⟨p, ⟨hready, fun i hi => ?_, fun i hi => ?_⟩, hle, hmin⟩
  · have hloop := hrun f.diddleA f.diddleB (2 ^ p)
    simp only [RealJFFT.init, hready.size]
    exact (congrFun (congrArg Prod.fst hloop) i).trans (if_pos hi)
  · have hloop := hrun f.diddleA f.diddleB (2 ^ p)
    simp only [RealJFFT.init, hready.size]
    exact (congrFun (congrArg Prod.snd hloop) i).trans (if_pos hi)

/-! ## Forward -/

/-- The root for all the elements, and its square for half of them. -/
theorem root_double (hcis : IsTurn cis) (p : ℕ) : conj (root cis .forward (2 * 2 ^ p)) * root cis .forward (2 * 2 ^ p) = 1 ∧
    root cis .forward (2 * 2 ^ p) ^ 2 ^ p = -1 ∧ root cis .forward (2 * 2 ^ p) ^ 2 = root cis .forward (2 ^ p) := by
  have hsize : 2 * 2 ^ p = 2 ^ (p + 1) := by rw [pow_succ, mul_comm]
  refine ⟨?_, ?_, ?_⟩
  · rw [root, hcis.back, ← hcis.add, neg_add_cancel, hcis.zero]
  · rw [hsize]
    exact (roots hcis.toIsCis .forward).half p
  · rw [hsize]
    exact (roots hcis.toIsCis .forward).sq p

/-- The loop of `fft_real` sets each half from the other end. -/
theorem mirror_loop {n : ℕ} {v : ℕ → ℂ} (c : ℕ → ℂ) : ∀ m < n, (List.range' 1 m).foldl (fun c i =>
      Function.update (Function.update c i (v i)) (n <<< 1 - i) (conj (Function.update c i (v i) i))) c =
    fun k => if 1 ≤ k ∧ k ≤ m then v k else if 2 * n - m ≤ k ∧ k < 2 * n then conj (v (2 * n - k)) else c k := by
  intro m
  induction m with
  | zero =>
    intro _
    funext k
    rw [if_neg (by omega), if_neg (by omega)]
    rfl
  | succ m ih =>
    intro hm
    have hshift : n <<< 1 = 2 * n := by rw [Nat.shiftLeft_eq, pow_one, mul_comm]
    rw [List.range'_1_concat, List.foldl_append, ih (by omega), List.foldl_cons, List.foldl_nil, hshift, Function.update_self]
    funext k
    simp only [Function.update_apply]
    split_ifs <;> first | rfl | omega | (congr 1; omega) | (congr 2; omega)

/-- **`fft_real` transforms.** -/
theorem RealReady.fftReal_eq {f : RealJFFT} (hcis : IsTurn cis) (h : RealReady cis f p) (hp : p ≤ 32) (real : ℕ → ℝ) (complex : ℕ → ℂ) :
    f.fftReal real complex (2 * 2 ^ p) =
      some fun k => if k < 2 * 2 ^ p then dft (root cis .forward (2 * 2 ^ p)) (2 * 2 ^ p) (ofReals real) k else complex k := by
  obtain ⟨hω, hhalf, hsq⟩ := root_double hcis p
  have hpos := Nat.two_pow_pos p
  have hA := h.diddleA
  have hB := h.diddleB
  have hF : ∀ k < 2 ^ p, transform cis .forward (2 ^ p) (packed real) k = dft (root cis .forward (2 * 2 ^ p) ^ 2) (2 ^ p) (packed real) k := by
    intro k hk
    rw [transform_eq_dft hcis.toIsCis, hsq]
    exact (if_pos hk).trans (one_mul _)
  generalize root cis .forward (2 * 2 ^ p) = ω at hω hhalf hsq hA hB hF ⊢
  have hone : ω ^ (2 * 2 ^ p) = 1 := by rw [mul_comm, pow_mul, hhalf, neg_one_sq]
  have hround : dft (ω ^ 2) (2 ^ p) (packed real) (2 ^ p) = dft (ω ^ 2) (2 ^ p) (packed real) 0 := by
    simpa using dft_add_period (x := packed real) (by rw [← pow_mul, hone] : (ω ^ 2) ^ 2 ^ p = 1) 0
  have hfirst : transform cis .forward (2 ^ p) (packed real) 0 * f.diddleA 0 +
      f.diddleB 0 * conj (transform cis .forward (2 ^ p) (packed real) 0) = dft ω (2 * 2 ^ p) (ofReals real) 0 := by
    rw [hF 0 hpos, hA 0 hpos, hB 0 hpos, ← unfold_packed hω hhalf (Nat.zero_le _), Nat.sub_zero, hround]
  have hmiddle : transform cis .forward (2 ^ p) (packed real) 0 * f.diddleB 0 +
      f.diddleA 0 * conj (transform cis .forward (2 ^ p) (packed real) 0) = dft ω (2 * 2 ^ p) (ofReals real) (2 ^ p) := by
    rw [hF 0 hpos, hA 0 hpos, hB 0 hpos, ← unfold_packed hω hhalf le_rfl, Nat.sub_self, hround, hhalf, pow_zero]
    ring
  have hinner : ∀ k, 1 ≤ k → k < 2 ^ p → transform cis .forward (2 ^ p) (packed real) k * f.diddleA k +
      f.diddleB k * conj (transform cis .forward (2 ^ p) (packed real) (2 ^ p - k)) = dft ω (2 * 2 ^ p) (ofReals real) k := by
    intro k hk hlt
    rw [hF k hlt, hF _ (by omega), hA k hlt, hB k hlt, unfold_packed hω hhalf hlt.le]
  have hsize : 2 * 2 ^ p = f.nfft <<< 1 := by rw [h.ready.size, Nat.shiftLeft_eq, pow_one, mul_comm]
  have hfft := h.ready.fft_eq hcis.toIsCis hp (packed real) .forward
  rw [RealJFFT.fftReal, if_pos hsize]
  change Option.map _ (f.fft (packed real) f.nfft .forward) = _
  rw [hfft, Option.map_some, h.ready.size]
  dsimp only
  rw [mirror_loop _ _ (by omega)]
  congr 1
  funext k
  by_cases hlow : 1 ≤ k ∧ k ≤ 2 ^ p - 1
  · rw [if_pos hlow, if_pos (by omega), hinner k hlow.1 (by omega)]
  · by_cases hhigh : 2 * 2 ^ p - (2 ^ p - 1) ≤ k ∧ k < 2 * 2 ^ p
    · -- the upper half mirrors the lower one
      rw [if_neg hlow, if_pos hhigh, if_pos hhigh.2, hinner _ (by omega) (by omega), conj_dft hω hone real hhigh.2.le]
    · rw [if_neg hlow, if_neg hhigh]
      by_cases hmid : k = 2 ^ p
      · rw [hmid, Function.update_self, if_pos (by omega), hmiddle]
      · rw [Function.update_of_ne hmid]
        by_cases hzero : k = 0
        · rw [hzero, Function.update_self, if_pos (by omega), hfirst]
        · rw [Function.update_of_ne hzero, if_neg (by omega)]

/-! ## Back -/

/-- The loop of `ifft_real` takes the elements apart. -/
theorem unpack_loop (F : ℕ → ℂ) (real : ℕ → ℝ) : ∀ m, (List.range m).foldl (fun real i =>
      Function.update (Function.update real (2 * i) (F i).re) (2 * i + 1) (F i).im) real =
    fun j => if j < 2 * m then if j % 2 = 0 then (F (j / 2)).re else (F (j / 2)).im else real j := by
  intro m
  induction m with
  | zero => rfl
  | succ m ih =>
    rw [List.range_succ, List.foldl_append, ih, List.foldl_cons, List.foldl_nil]
    funext j
    simp only [Function.update_apply]
    have heven : j = 2 * m → j / 2 = m := by omega
    have hodd : j = 2 * m + 1 → j / 2 = m := by omega
    split_ifs <;> first | rfl | omega | (congr 2; omega)

/-- **`ifft_real` goes back**, from one half of the spectrum of real elements. -/
theorem RealReady.ifftReal_eq {f : RealJFFT} (hcis : IsTurn cis) (h : RealReady cis f p) (hp : p ≤ 32) (x real : ℕ → ℝ) {complex : ℕ → ℂ}
    (hcomplex : ∀ k ≤ 2 ^ p, complex k = dft (root cis .forward (2 * 2 ^ p)) (2 * 2 ^ p) (ofReals x) k) :
    f.ifftReal complex real (2 * 2 ^ p) = some fun j => if j < 2 * 2 ^ p then x j else real j := by
  obtain ⟨hω, hhalf, hsq⟩ := root_double hcis p
  have hA := h.diddleA
  have hB := h.diddleB
  have hF : ∀ i < 2 ^ p, complex i * conj (f.diddleA i) + conj (f.diddleB i) * conj (complex (2 ^ p - i)) =
      transform cis .forward (2 ^ p) (packed x) i := by
    intro i hi
    rw [hcomplex i hi.le, hcomplex _ (Nat.sub_le _ i), hA i hi, hB i hi, fold_packed hω hhalf hi.le, transform_eq_dft hcis.toIsCis, hsq]
    exact ((if_pos hi).trans (one_mul _)).symm
  have hsize : 2 * 2 ^ p = f.nfft <<< 1 := by rw [h.ready.size, Nat.shiftLeft_eq, pow_one, mul_comm]
  have hfft := h.ready.fft_eq hcis.toIsCis hp
    (fun i => complex i * conj (f.diddleA i) + conj (f.diddleB i) * conj (complex (2 ^ p - i))) .inverse
  have hback : ∀ i < 2 ^ p, transform cis .inverse (2 ^ p)
      (fun i => complex i * conj (f.diddleA i) + conj (f.diddleB i) * conj (complex (2 ^ p - i))) i = packed x i := by
    intro i hi
    rw [transform_congr hF hi]
    exact congrFun (transform_transform hcis.toIsCis two_ne_zero .forward p (packed x)) i
  rw [h.ready.size] at hsize hfft
  rw [RealJFFT.ifftReal, h.ready.size, if_pos hsize, hfft, Option.map_some, unpack_loop]
  congr 1
  funext j
  by_cases hj : j < 2 * 2 ^ p
  · rw [if_pos hj, if_pos hj, hback (j / 2) (by omega)]
    by_cases heven : j % 2 = 0
    · rw [if_pos heven, packed]
      exact congrArg x (by omega)
    · rw [if_neg heven, packed]
      exact congrArg x (by omega)
  · rw [if_neg hj, if_neg hj]

theorem isTurn_turns : IsTurn turns := by
  refine ⟨isCis_turns, fun q => ?_⟩
  rw [turns, turns, ← Complex.exp_conj]
  congr 1
  rw [map_mul, map_mul, map_mul, map_ofNat, Complex.conj_I, Complex.conj_ofReal, map_ratCast]
  push_cast
  ring

end InmarsatSniffer.Fft
