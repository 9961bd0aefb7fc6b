import Mathlib
import InmarsatSniffer.Lib.Dft
import InmarsatSniffer.Spec.Jfft

/-!
# The fast transforms are transforms

* `fft_eq_dft`: after `init` the fast transform, the one that is easier to understand and the one from the
  definition all give `∑ j, x j * cis (∓ j * i / nfft)`, scaled where they go back, and touch nothing else.
* `fft_round_trip`: forward and back is as before.

A stage of butterflies is `Dft.Butterfly`, so `Dft.Blocks.butterfly` carries the loop over the stages.
-/

namespace InmarsatSniffer.Fft

open Dft

section Roots

variable {K : Type} [Field K] {cis : ℚ → K}

/-- `cis q` turns by `q`. -/
structure IsCis (cis : ℚ → K) : Prop where
  add : ∀ a b, cis (a + b) = cis a * cis b
  half : cis (1 / 2) = -1

namespace IsCis

theorem zero (h : IsCis cis) : cis 0 = 1 := by
  have hadd := h.add (1 / 2) 0
  rw [add_zero, h.half] at hadd
  linear_combination hadd

theorem nat_mul (h : IsCis cis) (q : ℚ) : ∀ n : ℕ, cis (n * q) = cis q ^ n := by
  intro n
  induction n with
  | zero => rw [Nat.cast_zero, zero_mul, h.zero, pow_zero]
  | succ n ih => rw [Nat.cast_succ, add_mul, one_mul, h.add, ih, pow_succ]

theorem neg_half (h : IsCis cis) : cis (-1 / 2) = -1 := by
  have hadd := h.add (1 / 2) (-1 / 2)
  have hsum : (1 : ℚ) / 2 + -1 / 2 = 0 := by norm_num
  rw [hsum, h.half, h.zero] at hadd
  linear_combination hadd

end IsCis

/-- The sign of the exponents. -/
def Direction.sign : Direction → ℚ
  | .forward => -1
  | .inverse => 1

/-- The root for `N` elements. -/
def root (cis : ℚ → K) (d : Direction) (N : ℕ) : K := cis (d.sign / N)

theorem root_pow (h : IsCis cis) (d : Direction) (N j : ℕ) : root cis d N ^ j = cis (d.sign * j / N) := by
  rw [root, ← h.nat_mul, ← mul_div_assoc, mul_comm]

/-- The roots for powers of two. -/
theorem roots (h : IsCis cis) (d : Direction) : Roots fun s => root cis d (2 ^ s) := by
  refine ⟨fun s => ?_, fun s => ?_⟩
  · rw [root_pow h, root]
    congr 1
    push_cast
    field_simp
    ring
  · have hhalf : d.sign * (2 ^ s : ℕ) / (2 ^ (s + 1) : ℕ) = d.sign / 2 := by
      push_cast
      field_simp
      ring
    rw [root_pow h, hhalf]
    cases d with
    | forward => exact h.neg_half
    | inverse => exact h.half

end Roots

/-! ## The tables -/

section Tables

variable {K : Type} {cis : ℚ → K}

/-- The size is the next power of two. -/
theorem sizeLoop_eq (fftSize : ℤ) : ∀ nfft nfft2power : ℕ, nfft = 2 ^ nfft2power → (nfft2power = 0 ∨ (nfft : ℤ) < 2 * fftSize) →
    ∃ p, sizeLoop fftSize nfft nfft2power = (2 ^ p, p) ∧ fftSize ≤ 2 ^ p ∧ (p = 0 ∨ 2 ^ p < 2 * fftSize) := by
  intro nfft nfft2power
  induction nfft, nfft2power using sizeLoop.induct fftSize with
  | case1 nfft p hlt ih =>
    intro heq _
    rw [sizeLoop, if_pos hlt]
    refine ih ?_ (.inr ?_)
    · rw [heq, Nat.shiftLeft_eq, pow_one, pow_succ]
    · rw [Nat.shiftLeft_eq]
      push_cast
      omega
  | case2 nfft p hge =>
    intro heq hmin
    have hpos : 0 < nfft := heq ▸ Nat.two_pow_pos p
    have hcast : (nfft : ℤ) = 2 ^ p := by rw [heq]; push_cast; rfl
    rw [sizeLoop, if_neg hge]
    refine ⟨p, by rw [heq], ?_, ?_⟩
    · rw [← hcast]
      by_contra hlt
      exact hge ⟨hpos, not_le.1 hlt⟩
    · rwa [← hcast]

/-- The twiddles of a stage are put one after the other. -/
theorem twiddleStage_eq (cis : ℚ → K) (sign : ℚ) (N w : ℕ) (twiddle : ℕ → K) :
    twiddleStage cis sign N (twiddle, w) =
      (fun v => if w ≤ v ∧ v < w + N / 2 then cis (sign * (v - w : ℕ) / N) else twiddle v, w + N / 2) := by
  have hrun : ∀ m, (List.range m).foldl (fun (t : (ℕ → K) × ℕ) (i : ℕ) =>
        (Function.update t.1 t.2 (cis (sign * i / N)), t.2 + 1)) (twiddle, w) =
      (fun v => if w ≤ v ∧ v < w + m then cis (sign * (v - w : ℕ) / N) else twiddle v, w + m) := by
    intro m
    induction m with
    | zero =>
      have hno : ∀ v, ¬(w ≤ v ∧ v < w + 0) := by omega
      exact Prod.ext (funext fun v => (if_neg (hno v)).symm) rfl
    | succ m ih =>
      rw [List.range_succ, List.foldl_append, ih, List.foldl_cons, List.foldl_nil]
      refine Prod.ext (funext fun v => ?_) rfl
      by_cases hv : v = w + m
      · have hin : w ≤ w + m ∧ w + m < w + (m + 1) := by omega
        subst hv
        simp only [Function.update_self, if_pos hin, Nat.add_sub_cancel_left]
      · have hiff : (w ≤ v ∧ v < w + m) ↔ (w ≤ v ∧ v < w + (m + 1)) := by omega
        simp only [Function.update_of_ne hv, hiff]
  exact hrun (N / 2)

/-- The stages below `s` are in the table. -/
def Filled (cis : ℚ → K) (sign : ℚ) (s : ℕ) (twiddle : ℕ → K) : Prop :=
  ∀ t < s, ∀ j < 2 ^ t, twiddle (2 ^ t - 1 + j) = cis (sign * j / (2 ^ (t + 1) : ℕ))

/-- One stage more. -/
theorem filled_stage {sign : ℚ} {s : ℕ} {twiddle : ℕ → K} (h : Filled cis sign s twiddle) :
    Filled cis sign (s + 1) (twiddleStage cis sign (2 ^ (s + 1)) (twiddle, 2 ^ s - 1)).1 ∧
      (twiddleStage cis sign (2 ^ (s + 1)) (twiddle, 2 ^ s - 1)).2 = 2 ^ (s + 1) - 1 := by
  have hpos : 0 < 2 ^ s := Nat.two_pow_pos s
  have hhalf : 2 ^ (s + 1) / 2 = 2 ^ s := by rw [pow_succ, Nat.mul_div_cancel _ Nat.two_pos]
  rw [twiddleStage_eq, hhalf]
  refine ⟨fun t ht j hj => ?_, by simp only [pow_succ]; omega⟩
  rcases Nat.lt_succ_iff_lt_or_eq.1 ht with ht | rfl
  · -- an earlier stage ends below
    have hle : 2 ^ (t + 1) ≤ 2 ^ s := Nat.pow_le_pow_right Nat.two_pos ht
    rw [pow_succ] at hle
    dsimp only
    rw [if_neg (by omega)]
    exact h t ht j hj
  · dsimp only
    rw [if_pos (by omega), Nat.add_sub_cancel_left]

/-- The loop fills the table. -/
theorem filled_loop (cis : ℚ → K) (sign : ℚ) {p : ℕ} : ∀ N s (t : (ℕ → K) × ℕ), N = 2 ^ (s + 1) → s ≤ p → Filled cis sign s t.1 → t.2 = 2 ^ s - 1 →
    Filled cis sign p (twiddleLoop cis sign (2 ^ p) N t).1 := by
  intro N s t
  induction N, t using twiddleLoop.induct cis sign (2 ^ p) generalizing s with
  | case1 N t hle ih =>
    intro hN hs hfilled hw
    subst hN
    obtain ⟨hstage, hnext⟩ := filled_stage hfilled
    have hlt : s + 1 ≤ p := (Nat.pow_le_pow_iff_right Nat.one_lt_two).1 hle.2
    have ht : t = (t.1, 2 ^ s - 1) := Prod.ext rfl hw
    rw [twiddleLoop, if_pos hle]
    rw [ht] at ih ⊢
    refine ih (s + 1) ?_ hlt hstage hnext
    rw [Nat.shiftLeft_eq, pow_one, ← pow_succ]
  | case2 N t hgt =>
    intro hN hs hfilled _
    subst hN
    have hlt : ¬2 ^ (s + 1) ≤ 2 ^ p := fun hle => hgt ⟨Nat.two_pow_pos _, hle⟩
    rw [Nat.pow_le_pow_iff_right Nat.one_lt_two] at hlt
    obtain rfl : s = p := by omega
    rw [twiddleLoop, if_neg hgt]
    exact hfilled

/-- `init` leaves a power of two and the roots. -/
structure Ready (cis : ℚ → K) (f : JFFT K) (p : ℕ) : Prop where
  power : f.nfft2power = p
  size : f.nfft = 2 ^ p
  twiddle : ∀ d, Filled cis d.sign p (f.twiddle d)

theorem init_ready (cis : ℚ → K) (f : JFFT K) (fftSize : ℤ) :
    ∃ p, Ready cis (f.init cis fftSize) p ∧ fftSize ≤ 2 ^ p ∧ (p = 0 ∨ 2 ^ p < 2 * fftSize) := by
  obtain ⟨p, hsize, hle, hmin⟩ := sizeLoop_eq fftSize 1 0 rfl (.inl rfl)
  refine ⟨p, ⟨?_, ?_, fun d => ?_⟩, hle, hmin⟩
  · simp only [JFFT.init, hsize]
  · simp only [JFFT.init, hsize]
  · have hloop := filled_loop cis d.sign 2 0 (f.twiddle d, 0) rfl (Nat.zero_le p) (fun s hs => absurd hs (Nat.not_lt_zero s)) rfl
    cases d with
    | forward => simpa only [JFFT.init, hsize, JFFT.twiddle, Direction.sign] using hloop
    | inverse => simpa only [JFFT.init, hsize, JFFT.twiddle, Direction.sign] using hloop

/-- A power of two is its own size. -/
theorem init_power (f : JFFT K) (p : ℕ) : Ready cis (f.init cis (2 ^ p : ℕ)) p := by
  obtain ⟨p', hready, hle, hmin⟩ := init_ready cis f (2 ^ p : ℕ)
  have hle' : p ≤ p' := (pow_le_pow_iff_right₀ (by norm_num : (1 : ℤ) < 2)).1 (by exact_mod_cast hle)
  have hge : p' ≤ p := by
    rcases hmin with rfl | hmin
    · exact Nat.zero_le p
    · have hlt : (2 : ℤ) ^ p' < 2 ^ (p + 1) := by
        rw [pow_succ, mul_comm]
        exact_mod_cast hmin
      exact Nat.lt_succ_iff.1 ((pow_lt_pow_iff_right₀ (by norm_num : (1 : ℤ) < 2)).1 hlt)
  rwa [← le_antisymm hle' hge] at hready

end Tables

/-! ## Bit reversal -/

/-- Bits `d` apart trade places. -/
theorem swapBits_bit {d : ℕ} {hi lo : UInt32} (hd : 0 < d ∧ d ∣ 16)
    (hhi : ∀ j < 32, hi.toNat.testBit j = decide (j / d % 2 = 1)) (hlo : ∀ j < 32, lo.toNat.testBit j = decide (j / d % 2 = 0))
    (y : UInt32) {j : ℕ} (hj : j < 32) : (((y &&& hi) >>> UInt32.ofNat d) ||| ((y &&& lo) <<< UInt32.ofNat d)).toNat.testBit j =
      y.toNat.testBit (if j / d % 2 = 1 then j - d else j + d) := by
  have hle : d ≤ 16 := Nat.le_of_dvd (by omega) hd.2
  have hmod : (UInt32.ofNat d).toNat % 32 = d := by
    rw [UInt32.toNat_ofNat']
    omega
  have htop : ∀ i, 32 ≤ i → y.toNat.testBit i = false := by
    intro i hi
    exact Nat.testBit_lt_two_pow (y.toNat_lt.trans_le (Nat.pow_le_pow_right Nat.two_pos hi))
  rw [UInt32.toNat_or, UInt32.toNat_shiftRight, UInt32.toNat_shiftLeft, UInt32.toNat_and, UInt32.toNat_and, hmod, Nat.testBit_or,
    Nat.testBit_shiftRight, Nat.testBit_mod_two_pow, Nat.testBit_shiftLeft, Nat.testBit_and, Nat.testBit_and, decide_eq_true hj,
    Bool.true_and, Nat.add_comm d j]
  by_cases hodd : j / d % 2 = 1
  · -- the bit comes from below
    have hge : d ≤ j := by
      by_contra hlt
      rw [Nat.div_eq_of_lt (not_le.1 hlt)] at hodd
      omega
    have hup : (j + d) / d = j / d + 1 := Nat.add_div_right j hd.1
    have hdown : (j - d) / d = j / d - 1 := by simpa using Nat.sub_mul_div j d 1
    have hhi' : ((y.toNat.testBit (j + d)) && hi.toNat.testBit (j + d)) = false := by
      by_cases hroom : j + d < 32
      · rw [hhi _ hroom, hup, decide_eq_false (by omega), Bool.and_false]
      · rw [htop _ (not_lt.1 hroom), Bool.false_and]
    rw [hhi', hlo _ (by omega), hdown, decide_eq_true hge, decide_eq_true (by omega : (j / d - 1) % 2 = 0), if_pos hodd]
    simp
  · -- the bit comes from above
    have heven : j / d % 2 = 0 := by omega
    have hup : (j + d) / d = j / d + 1 := Nat.add_div_right j hd.1
    have hdown : (j - d) / d = j / d - 1 := by simpa using Nat.sub_mul_div j d 1
    have hroom : j + d < 32 := by
      obtain ⟨c, hc⟩ := hd.2
      have hlt : j / d < 2 * c := by
        rw [Nat.div_lt_iff_lt_mul hd.1]
        calc j < 2 * (d * c) := by omega
          _ = 2 * c * d := by ring
      have hmul : d * (j / d + 2) ≤ d * (2 * c) := Nat.mul_le_mul_left d (by omega)
      have hmod := Nat.div_add_mod j d
      have hrest := Nat.mod_lt j hd.1
      have hprod : d * (2 * c) = 32 := by linarith
      rw [mul_add, hprod] at hmul
      omega
    have hlo' : (decide (d ≤ j) && (y.toNat.testBit (j - d) && lo.toNat.testBit (j - d))) = false := by
      by_cases hge : d ≤ j
      · have hpos : 0 < j / d := Nat.div_pos hge hd.1
        rw [hlo _ (by omega), hdown, decide_eq_false (by omega : ¬(j / d - 1) % 2 = 0), Bool.and_false, Bool.and_false]
      · rw [decide_eq_false hge, Bool.false_and]
    rw [hhi _ hroom, hup, decide_eq_true (by omega : (j / d + 1) % 2 = 1), if_neg hodd, hlo', Bool.and_true, Bool.or_false]

/-- The halves trade places. -/
theorem swapHalves_bit (y : UInt32) {j : ℕ} (hj : j < 32) :
    ((y >>> 16) ||| (y <<< 16)).toNat.testBit j = y.toNat.testBit (if j / 16 % 2 = 1 then j - 16 else j + 16) := by
  have hsixteen : (16 : UInt32).toNat % 32 = 16 := rfl
  rw [UInt32.toNat_or, UInt32.toNat_shiftRight, UInt32.toNat_shiftLeft, hsixteen, Nat.testBit_or, Nat.testBit_shiftRight,
    Nat.testBit_mod_two_pow, Nat.testBit_shiftLeft, decide_eq_true hj, Bool.true_and, Nat.add_comm 16 j]
  by_cases hhigh : 16 ≤ j
  · have htop : y.toNat.testBit (j + 16) = false :=
      Nat.testBit_lt_two_pow (y.toNat_lt.trans_le (Nat.pow_le_pow_right Nat.two_pos (by omega)))
    rw [htop, Bool.false_or, decide_eq_true hhigh, Bool.true_and, if_pos (by omega)]
  · rw [decide_eq_false hhigh, Bool.false_and, Bool.or_false, if_neg (by omega)]

/-- **Four trades and the halves**: the bits in the other order. -/
theorem reverse32_bit {p : ℕ} (hp : p ≤ 32) (y : UInt32) {j : ℕ} (hj : j < p) :
    (reverse32 p y).toNat.testBit j = y.toNat.testBit (p - 1 - j) := by
  have hone : ∀ y : UInt32, ∀ j < 32, (((y &&& 0xaaaaaaaa) >>> 1) ||| ((y &&& 0x55555555) <<< 1)).toNat.testBit j =
      y.toNat.testBit (if j / 1 % 2 = 1 then j - 1 else j + 1) :=
    fun y j hj => swapBits_bit (d := 1) (by decide) (by decide) (by decide) y hj
  have htwo : ∀ y : UInt32, ∀ j < 32, (((y &&& 0xcccccccc) >>> 2) ||| ((y &&& 0x33333333) <<< 2)).toNat.testBit j =
      y.toNat.testBit (if j / 2 % 2 = 1 then j - 2 else j + 2) :=
    fun y j hj => swapBits_bit (d := 2) (by decide) (by decide) (by decide) y hj
  have hfour : ∀ y : UInt32, ∀ j < 32, (((y &&& 0xf0f0f0f0) >>> 4) ||| ((y &&& 0x0f0f0f0f) <<< 4)).toNat.testBit j =
      y.toNat.testBit (if j / 4 % 2 = 1 then j - 4 else j + 4) :=
    fun y j hj => swapBits_bit (d := 4) (by decide) (by decide) (by decide) y hj
  have height : ∀ y : UInt32, ∀ j < 32, (((y &&& 0xff00ff00) >>> 8) ||| ((y &&& 0x00ff00ff) <<< 8)).toNat.testBit j =
      y.toNat.testBit (if j / 8 % 2 = 1 then j - 8 else j + 8) :=
    fun y j hj => swapBits_bit (d := 8) (by decide) (by decide) (by decide) y hj
  have hroom : ∀ d ∈ [1, 2, 4, 8, 16], ∀ j < 32, (if j / d % 2 = 1 then j - d else j + d) < 32 := by decide
  have hshift : (UInt32.ofNat (32 - p)).toNat % 32 = 32 - p := by
    rw [UInt32.toNat_ofNat']
    omega
  -- where bit `i` comes from, trade by trade
  have hwalk : ∀ i < 32, (fun j => if j / 1 % 2 = 1 then j - 1 else j + 1) ((fun j => if j / 2 % 2 = 1 then j - 2 else j + 2)
      ((fun j => if j / 4 % 2 = 1 then j - 4 else j + 4) ((fun j => if j / 8 % 2 = 1 then j - 8 else j + 8)
        (if i / 16 % 2 = 1 then i - 16 else i + 16)))) = 31 - i := by decide
  have hi : 32 - p + j < 32 := by omega
  have hidx : 31 - (32 - p + j) = p - 1 - j := by omega
  rw [reverse32, UInt32.toNat_shiftRight, hshift, Nat.testBit_shiftRight, swapHalves_bit _ hi, height _ _ (hroom 16 (by decide) _ hi),
    hfour _ _ (hroom 8 (by decide) _ (hroom 16 (by decide) _ hi)),
    htwo _ _ (hroom 4 (by decide) _ (hroom 8 (by decide) _ (hroom 16 (by decide) _ hi))),
    hone _ _ (hroom 2 (by decide) _ (hroom 4 (by decide) _ (hroom 8 (by decide) _ (hroom 16 (by decide) _ hi)))), ← hidx, ← hwalk _ hi]

/-- The fast reversal of an index of `p` bits. -/
theorem reverse32_eq {p i : ℕ} (hp : p ≤ 32) (hi : i < 2 ^ p) : (reverse32 p (UInt32.ofNat i)).toNat = bitrev p i := by
  have hle : 2 ^ p ≤ 2 ^ 32 := Nat.pow_le_pow_right Nat.two_pos hp
  have hval : (UInt32.ofNat i).toNat = i := by
    rw [UInt32.toNat_ofNat', Nat.mod_eq_of_lt (by omega)]
  apply Nat.eq_of_testBit_eq
  intro j
  rw [testBit_bitrev]
  by_cases hj : j < p
  · rw [reverse32_bit hp _ hj, hval, decide_eq_true hj, Bool.true_and]
  · rw [decide_eq_false hj, Bool.false_and]
    rcases Nat.eq_zero_or_pos p with rfl | hpos
    · obtain rfl : i = 0 := by omega
      exact Nat.zero_testBit j
    · have hshift : (UInt32.ofNat (32 - p)).toNat % 32 = 32 - p := by
        rw [UInt32.toNat_ofNat']
        omega
      rw [reverse32, UInt32.toNat_shiftRight, hshift, Nat.testBit_shiftRight]
      exact Nat.testBit_lt_two_pow ((UInt32.toNat_lt _).trans_le (Nat.pow_le_pow_right Nat.two_pos (by omega)))

/-- The bits one by one. -/
theorem reverseBits_eq (p i : ℕ) : reverseBits p i = bitrev p i := by
  have hrun : ∀ m, (List.range m).foldl (fun (t : ℕ × ℕ) _ => (t.1 >>> 1, (t.2 <<< 1) ||| (t.1 &&& 1))) (i, 0) =
      (i / 2 ^ m, bitrev m i) := by
    intro m
    induction m with
    | zero => simp [bitrev]
    | succ m ih =>
      rw [List.range_succ, List.foldl_append, ih, List.foldl_cons, List.foldl_nil, bitrev_succ_last]
      refine Prod.ext ?_ ?_
      · rw [Nat.shiftRight_one, Nat.div_div_eq_div_mul, pow_succ]
      · have hbit : i / 2 ^ m % 2 < 2 ^ 1 := by omega
        rw [Nat.and_one_is_mod, ← Nat.shiftLeft_add_eq_or_of_lt hbit, Nat.shiftLeft_eq, pow_one, mul_comm]
  exact congrArg Prod.snd (hrun p)

/-! ## In place -/

/-- A loop that changes each element by itself. -/
theorem foldl_update {K : Type} (N : ℕ) (g : ℕ → K → K) (x : ℕ → K) : ∀ m,
    (List.range m).foldl (fun x k => Function.update x (k + N) (g k (x (k + N)))) x =
      fun i => if N ≤ i ∧ i < N + m then g (i - N) (x i) else x i := by
  intro m
  induction m with
  | zero =>
    have hno : ∀ i, ¬(N ≤ i ∧ i < N + 0) := by omega
    exact funext fun i => (if_neg (hno i)).symm
  | succ m ih =>
    rw [List.range_succ, List.foldl_append, ih, List.foldl_cons, List.foldl_nil]
    funext i
    by_cases hi : i = m + N
    · subst hi
      have hin : N ≤ m + N ∧ m + N < N + (m + 1) := by omega
      have hout : ¬(N ≤ m + N ∧ m + N < N + m) := by omega
      simp only [Function.update_self, if_neg hout, if_pos hin, Nat.add_sub_cancel]
    · have hiff : (N ≤ i ∧ i < N + m) ↔ (N ≤ i ∧ i < N + (m + 1)) := by omega
      rw [Function.update_of_ne hi]
      simp only [hiff]

/-- Pairs that trade places once have traded places. -/
theorem permute_eq {K : Type} {place : ℕ → ℕ} {nfft : ℕ} (hlt : ∀ i < nfft, place i < nfft) (hinv : ∀ i < nfft, place (place i) = i)
    (x : ℕ → K) : permute place nfft x = fun i => if i < nfft then x (place i) else x i := by
  -- after `m` rounds the pairs with an element below `m` have
  have hrun : ∀ m ≤ nfft, (List.range m).foldl (fun x i => if place i > i then swap x i (place i) else x) x =
      fun i => if i < nfft ∧ min i (place i) < m then x (place i) else x i := by
    intro m
    induction m with
    | zero =>
      intro _
      funext i
      rw [if_neg (by omega)]
      rfl
    | succ m ih =>
      intro hm
      have hm' : m < nfft := hm
      have hplace := hlt m hm'
      have hback := hinv m hm'
      rw [List.range_succ, List.foldl_append, ih hm'.le, List.foldl_cons, List.foldl_nil]
      funext i
      by_cases hup : place m > m
      · rw [if_pos hup, swap]
        by_cases hi : i = m
        · subst hi
          rw [Function.update_self, if_neg (by omega), if_pos (by omega)]
        · rw [Function.update_of_ne hi]
          by_cases hi' : i = place m
          · subst hi'
            rw [Function.update_self, if_neg (by omega), hback, if_pos (by omega)]
          · -- the others are of another pair
            have hne : i < nfft → place i ≠ m := fun hin heq => hi' (by rw [← heq, hinv i hin])
            have hiff : (i < nfft ∧ min i (place i) < m) ↔ (i < nfft ∧ min i (place i) < m + 1) := by omega
            rw [Function.update_of_ne hi']
            simp only [hiff]
      · rw [if_neg hup]
        by_cases hfix : i = m ∧ place i = m
        · rw [if_neg (by omega), if_pos (by omega), hfix.2, hfix.1]
        · have hne : i < nfft → place i = m → i = place m := fun hin heq => by rw [← heq, hinv i hin]
          have hiff : (i < nfft ∧ min i (place i) < m) ↔ (i < nfft ∧ min i (place i) < m + 1) := by
            by_cases hi : i = m
            · subst hi
              omega
            · omega
          simp only [hiff]
  rw [permute, hrun nfft le_rfl]
  funext i
  by_cases hi : i < nfft
  · rw [if_pos ⟨hi, by omega⟩, if_pos hi]
  · rw [if_neg (by omega), if_neg hi]

/-- Bit-reversed places. -/
theorem permute_bitrev {K : Type} {place : ℕ → ℕ} {p : ℕ} (hplace : ∀ i < 2 ^ p, place i = bitrev p i) (x : ℕ → K) :
    permute place (2 ^ p) x = fun i => if i < 2 ^ p then x (bitrev p i) else x i := by
  have hlt : ∀ i < 2 ^ p, place i < 2 ^ p := fun i hi => by rw [hplace i hi]; exact bitrev_lt p i
  have hinv : ∀ i < 2 ^ p, place (place i) = i := fun i hi => by rw [hplace _ (hlt i hi), hplace i hi, bitrev_bitrev hi]
  rw [permute_eq hlt hinv]
  funext i
  by_cases hi : i < 2 ^ p
  · rw [if_pos hi, if_pos hi, hplace i hi]
  · rw [if_neg hi, if_neg hi]

/-! ## Butterflies -/

section Butterflies

variable {K : Type} [Field K]

/-- A loop over the pairs is at pair `k` of block `b`: those before are done, the others are as they were. -/
structure Partway (w : ℕ → K) (n nfft b k : ℕ) (x y : ℕ → K) : Prop where
  done : ∀ b', ∀ k' < n, 2 * n * b' + k' < 2 * n * b + k → 2 * n * b' + k' + n < nfft →
    y (2 * n * b' + k') = x (2 * n * b' + k') + w k' * x (2 * n * b' + k' + n) ∧
      y (2 * n * b' + k' + n) = x (2 * n * b' + k') - w k' * x (2 * n * b' + k' + n)
  ahead : ∀ b', ∀ k' < n, 2 * n * b + k ≤ 2 * n * b' + k' →
    y (2 * n * b' + k') = x (2 * n * b' + k') ∧ y (2 * n * b' + k' + n) = x (2 * n * b' + k' + n)
  frame : ∀ i, nfft ≤ i → y i = x i

/-- The first and the second elements of pairs are not the same ones. -/
theorem pair_ne {n k k' : ℕ} (b b' : ℕ) (hk : k < n) (hk' : k' < n) : 2 * n * b' + k' ≠ 2 * n * b + k + n := by
  rcases lt_trichotomy b' b with h | rfl | h
  · have hle : 2 * n * (b' + 1) ≤ 2 * n * b := Nat.mul_le_mul_left _ h
    rw [mul_add] at hle
    omega
  · omega
  · have hle : 2 * n * (b + 1) ≤ 2 * n * b' := Nat.mul_le_mul_left _ h
    rw [mul_add] at hle
    omega

/-- Pairs with the same first element are the same. -/
theorem pair_inj {n b b' k k' : ℕ} (hk : k < n) (hk' : k' < n) (h : 2 * n * b' + k' = 2 * n * b + k) : b' = b ∧ k' = k := by
  have hb : b' = b := by
    have hdiv : ∀ b k : ℕ, k < n → (2 * n * b + k) / (2 * n) = b := by
      intro b k hk
      rw [Nat.mul_add_div (by omega), Nat.div_eq_of_lt (by omega), add_zero]
    rw [← hdiv b' k' hk', h, hdiv b k hk]
  subst hb
  exact ⟨rfl, by omega⟩

/-- The butterfly of pair `k` of block `b`. -/
def butterfly (w : K) (i n : ℕ) (y : ℕ → K) : ℕ → K :=
  Function.update (Function.update y (i + n) (y i - w * y (i + n))) i (y i + w * y (i + n))

/-- In the order of `fft`. -/
theorem butterfly_fft {i n : ℕ} (hn : 0 < n) (w : K) (y : ℕ → K) :
    Function.update (Function.update y (i + n) (y i - w * y (i + n))) i
      (Function.update y (i + n) (y i - w * y (i + n)) i + w * y (i + n)) = butterfly w i n y := by
  have hne : i ≠ i + n := by omega
  rw [butterfly, Function.update_of_ne hne]

/-- In the order of `fft_easy_to_understand`. -/
theorem butterfly_easy {i n : ℕ} (hn : 0 < n) (w : K) (y : ℕ → K) :
    Function.update (Function.update y i (y i + w * y (i + n))) (i + n) (y i - w * y (i + n)) = butterfly w i n y := by
  have hne : i ≠ i + n := by omega
  rw [butterfly, Function.update_comm hne]

/-- **One butterfly.** -/
theorem Partway.step {w : ℕ → K} {n nfft b k : ℕ} {x y : ℕ → K} (h : Partway w n nfft b k x y) (hk : k < n)
    (hroom : 2 * n * b + k + n < nfft) : Partway w n nfft b (k + 1) x (butterfly (w k) (2 * n * b + k) n y) := by
  obtain ⟨hfst, hsnd⟩ := h.ahead b k hk le_rfl
  refine ⟨fun b' k' hk' hlt hlt' => ?_, fun b' k' hk' hle => ?_, fun i hi => ?_⟩
  · by_cases hsame : 2 * n * b' + k' = 2 * n * b + k
    · obtain ⟨rfl, rfl⟩ := pair_inj hk hk' hsame
      refine ⟨?_, ?_⟩
      · rw [butterfly, Function.update_self, hfst, hsnd]
      · rw [butterfly, Function.update_of_ne (by omega), Function.update_self, hfst, hsnd]
    · have hdone := h.done b' k' hk' (by omega) hlt'
      have hne := pair_ne b b' hk hk'
      have hne' := pair_ne b' b hk' hk
      rw [butterfly, Function.update_of_ne hsame, Function.update_of_ne hne, Function.update_of_ne hne'.symm,
        Function.update_of_ne (by omega)]
      exact hdone
  · have hahead := h.ahead b' k' hk' (by omega)
    have hne := pair_ne b b' hk hk'
    have hne' := pair_ne b' b hk' hk
    rw [butterfly, Function.update_of_ne (by omega), Function.update_of_ne hne, Function.update_of_ne hne'.symm,
      Function.update_of_ne (by omega)]
    exact hahead
  · rw [butterfly, Function.update_of_ne (by omega), Function.update_of_ne (by omega), h.frame i hi]

/-- A block ends where the next one starts. -/
theorem Partway.next {w : ℕ → K} {n nfft b : ℕ} {x y : ℕ → K} (h : Partway w n nfft b n x y) : Partway w n nfft (b + 1) 0 x y := by
  have hsize : 2 * n * (b + 1) = 2 * n * b + n + n := by ring
  refine ⟨fun b' k' hk' hlt => h.done b' k' hk' ?_, fun b' k' hk' hle => h.ahead b' k' hk' (by omega), h.frame⟩
  -- no pair starts in the upper half of a block
  have hne : ∀ k < n, 2 * n * b' + k' ≠ 2 * n * b + k + n := fun k hk => pair_ne b b' hk hk'
  by_contra hge
  exact hne (2 * n * b' + k' - (2 * n * b + n)) (by omega) (by omega)

/-- **The loop of a stage does all the pairs.** -/
theorem pass_eq {twiddle : ℕ → K} {s p : ℕ} (hs : s < p) {x : ℕ → K} : ∀ k xk xl w y b r, k = 2 * 2 ^ s * b + r → r < 2 ^ s → xk = k →
    xl = k + 2 ^ s → w = 2 ^ s - 1 + r → Partway (fun j => twiddle (2 ^ s - 1 + j)) (2 ^ s) (2 ^ p) b r x y →
    Butterfly (fun j => twiddle (2 ^ s - 1 + j)) (2 ^ s) (2 ^ p) x (pass twiddle (2 ^ p) (2 ^ s) (2 ^ s - 1) k xk xl w y) ∧
      ∀ i, 2 ^ p ≤ i → pass twiddle (2 ^ p) (2 ^ s) (2 ^ s - 1) k xk xl w y i = x i := by
  intro k xk xl w y
  have hmask : ∀ b r : ℕ, r < 2 ^ s → ((2 * 2 ^ s * b + r + 1) &&& (2 ^ s - 1) ≠ 0 ↔ r + 1 < 2 ^ s) := by
    intro b r hr
    have hmod : (2 * 2 ^ s * b + r + 1) % 2 ^ s = (r + 1) % 2 ^ s := by
      have hsum : 2 * 2 ^ s * b + r + 1 = r + 1 + 2 ^ s * (2 * b) := by ring
      rw [hsum, Nat.add_mul_mod_self_left]
    rw [Nat.and_two_pow_sub_one_eq_mod, hmod]
    by_cases hlt : r + 1 < 2 ^ s
    · rw [Nat.mod_eq_of_lt hlt]
      omega
    · have heq : r + 1 = 2 ^ s := by omega
      rw [heq, Nat.mod_self]
      omega
  -- a block that starts in the array ends in it
  have hroom : ∀ b r : ℕ, r < 2 ^ s → 2 * 2 ^ s * b + r < 2 ^ p → 2 * 2 ^ s * b + r + 2 ^ s < 2 ^ p := by
    intro b r hr hlt
    obtain ⟨q, rfl⟩ : ∃ q, p = s + 1 + q := ⟨p - (s + 1), by omega⟩
    have hsize : 2 ^ (s + 1 + q) = 2 * 2 ^ s * 2 ^ q := by rw [pow_add, pow_succ, mul_comm (2 ^ s) 2]
    rw [hsize] at hlt ⊢
    have hb : b < 2 ^ q := Nat.lt_of_mul_lt_mul_left (by omega : 2 * 2 ^ s * b < 2 * 2 ^ s * 2 ^ q)
    have hle : 2 * 2 ^ s * (b + 1) ≤ 2 * 2 ^ s * 2 ^ q := Nat.mul_le_mul_left _ hb
    rw [mul_add] at hle
    omega
  induction k, xk, xl, w, y using pass.induct twiddle (2 ^ p) (2 ^ s) (2 ^ s - 1) with
  | case1 k xk xl w y hk v y₁ y₂ hmore ih =>
    intro b r hk' hr hxk hxl hw h
    subst hk' hxk hxl hw
    have hstep := h.step hr (hroom b r hr hk)
    rw [← butterfly_fft (Nat.two_pow_pos s)] at hstep
    rw [pass, if_pos hk, if_pos hmore]
    exact ih b (r + 1) rfl ((hmask b r hr).1 hmore) rfl (by omega) (by omega) hstep
  | case2 k xk xl w y hk v y₁ y₂ hlast ih =>
    intro b r hk' hr hxk hxl hw h
    subst hk' hxk hxl hw
    have hstep := h.step hr (hroom b r hr hk)
    have hend : r + 1 = 2 ^ s := by
      by_contra hne
      exact hlast ((hmask b r hr).2 (by omega))
    have hsize : 2 * 2 ^ s * (b + 1) = 2 * 2 ^ s * b + 2 ^ s + 2 ^ s := by ring
    rw [hend, ← butterfly_fft (Nat.two_pow_pos s)] at hstep
    rw [pass, if_pos hk, if_neg hlast]
    exact ih (b + 1) 0 (by omega) (Nat.two_pow_pos s) rfl (by omega) (by omega) hstep.next
  | case3 k xk xl w y hend =>
    intro b r hk' hr hxk hxl hw h
    subst hk'
    rw [pass, if_neg hend]
    exact ⟨fun b' k' hk' hlt => h.done b' k' hk' (by omega) hlt, h.frame⟩

/-- The two loops do the same. -/
theorem passEasy_eq_pass (twiddle : ℕ → K) (nfft s : ℕ) : ∀ k l w (x : ℕ → K), l = k + 2 ^ s →
    passEasy twiddle nfft (2 ^ s) k l w x = pass twiddle nfft (2 ^ s) (2 ^ s - 1) k k l w x := by
  intro k l w x
  have hmask : ∀ k : ℕ, k &&& (2 ^ s - 1) = k % 2 ^ s := fun k => Nat.and_two_pow_sub_one_eq_mod k s
  induction k, l, w, x using passEasy.induct twiddle nfft (2 ^ s) with
  | case1 k l w x hk y x₁ x₂ hlast ih =>
    intro hl
    subst hl
    have hsame : x₂ = butterfly (twiddle w) k (2 ^ s) x := butterfly_easy (Nat.two_pow_pos s) _ x
    rw [passEasy, pass, if_pos hk, if_pos hk, if_pos hlast, if_neg (by rw [hmask, hlast]; exact fun h => h rfl),
      butterfly_fft (Nat.two_pow_pos s), ← hsame]
    exact ih (by omega)
  | case2 k l w x hk y x₁ x₂ hmore ih =>
    intro hl
    subst hl
    have hsame : x₂ = butterfly (twiddle w) k (2 ^ s) x := butterfly_easy (Nat.two_pow_pos s) _ x
    rw [passEasy, pass, if_pos hk, if_pos hk, if_neg hmore, if_pos (by rwa [hmask]), butterfly_fft (Nat.two_pow_pos s), ← hsame]
    exact ih (by omega)
  | case3 k l w x hend =>
    intro hl
    rw [passEasy, pass, if_neg hend, if_neg hend]

/-- The mask of the next stage. -/
theorem nfill_next (s : ℕ) : ((2 ^ s - 1) <<< 1) ||| 1 = 2 ^ (s + 1) - 1 := by
  have hbit : 1 < 2 ^ 1 := by decide
  have hpos := Nat.two_pow_pos s
  rw [← Nat.shiftLeft_add_eq_or_of_lt hbit, Nat.shiftLeft_eq, pow_succ]
  omega

/-- The stages from the one of blocks of `2 ^ s` on, which make one block. -/
theorem stages_eq {ω : ℕ → K} (hω : Roots ω) {twiddle : ℕ → K} {p : ℕ}
    (htwiddle : ∀ s < p, ∀ j < 2 ^ s, twiddle (2 ^ s - 1 + j) = ω (s + 1) ^ j) {x : ℕ → K} : ∀ n nfill y s, n = 2 ^ s → nfill = 2 ^ s - 1 →
    s ≤ p → Blocks ω p s x y → Blocks ω p p x (stages twiddle (2 ^ p) n nfill y) ∧
      ∀ i, 2 ^ p ≤ i → stages twiddle (2 ^ p) n nfill y i = y i := by
  intro n nfill y
  induction n, nfill, y using stages.induct twiddle (2 ^ p) with
  | case1 n nfill y hlt ih =>
    intro s hn hfill hs h
    subst hn hfill
    have hs' : s < p := (Nat.pow_lt_pow_iff_right Nat.one_lt_two).1 hlt.2
    have hpos : 0 < 2 ^ s := Nat.two_pow_pos s
    have hstart : Partway (fun j => twiddle (2 ^ s - 1 + j)) (2 ^ s) (2 ^ p) 0 0 y y :=
      ⟨fun b' k' _ hlt => absurd hlt (by omega), fun _ _ _ _ => ⟨rfl, rfl⟩, fun _ _ => rfl⟩
    obtain ⟨hpairs, hframe⟩ := pass_eq hs' 0 0 (2 ^ s) (2 ^ s - 1) y 0 0 (by omega) hpos rfl (by omega) (by omega) hstart
    have hpairs' : Butterfly (fun j => ω (s + 1) ^ j) (2 ^ s) (2 ^ p) y
        (pass twiddle (2 ^ p) (2 ^ s) (2 ^ s - 1) 0 0 (2 ^ s) (2 ^ s - 1) y) := by
      intro b k hk hroom
      have hpair := hpairs b k hk hroom
      simp only [htwiddle s hs' k hk] at hpair
      exact hpair
    have hnext := h.butterfly hω hs' hpairs'
    obtain ⟨hblocks, hrest⟩ := ih (s + 1) (by rw [Nat.shiftLeft_eq, pow_one, ← pow_succ]) (nfill_next s) hs' hnext
    rw [stages, if_pos hlt]
    exact ⟨hblocks, fun i hi => (hrest i hi).trans (hframe i hi)⟩
  | case2 n nfill y hge =>
    intro s hn _ hs h
    subst hn
    have hle : ¬2 ^ s < 2 ^ p := fun hlt => hge ⟨Nat.two_pow_pos s, hlt⟩
    rw [Nat.pow_lt_pow_iff_right Nat.one_lt_two] at hle
    obtain rfl : s = p := by omega
    rw [stages, if_neg hge]
    exact ⟨h, fun _ _ => rfl⟩

/-- The stages of `fft_easy_to_understand` are those of `fft`. -/
theorem stagesEasy_eq_stages (twiddle : ℕ → K) (nfft : ℕ) : ∀ n (x : ℕ → K) s, n = 2 ^ s →
    stagesEasy twiddle nfft n x = stages twiddle nfft n (n - 1) x := by
  intro n x
  induction n, x using stagesEasy.induct twiddle nfft with
  | case1 n x hlt ih =>
    intro s hn
    subst hn
    have hnext : 2 ^ s <<< 1 = 2 ^ (s + 1) := by rw [Nat.shiftLeft_eq, pow_one, pow_succ]
    rw [stagesEasy, stages, if_pos hlt, if_pos hlt, ih (s + 1) hnext, passEasy_eq_pass twiddle nfft s 0 _ _ x (by omega), nfill_next,
      hnext]
  | case2 n x hge =>
    intro s _
    rw [stagesEasy, stages, if_neg hge, if_neg hge]

/-- The factor of a direction. -/
def Direction.factor : Direction → ℕ → K
  | .forward, _ => 1
  | .inverse, nfft => 1 / nfft

theorem scaled_eq (nfft : ℕ) (x : ℕ → K) (d : Direction) : scaled nfft x d = fun i => if i < nfft then d.factor nfft * x i else x i := by
  cases d with
  | forward =>
    funext i
    rw [Direction.factor, one_mul, ite_self]
    rfl
  | inverse =>
    have hloop := foldl_update 0 (fun _ a => a * (1 / (nfft : K))) x nfft
    funext i
    refine (congrFun hloop i).trans ?_
    simp only [Nat.zero_le, true_and, Nat.zero_add, Direction.factor, mul_comm]

end Butterflies

/-! ## The transforms -/

section Transforms

open Finset

variable {K : Type} [Field K] {cis : ℚ → K} {f : JFFT K} {p : ℕ}

/-- The transform of the first `N` elements, from the definition; the others stay. -/
def transform (cis : ℚ → K) (d : Direction) (N : ℕ) (x : ℕ → K) (i : ℕ) : K :=
  if i < N then d.factor N * ∑ j ∈ range N, x j * cis (d.sign * (j * i) / N) else x i

theorem transform_eq_dft (hcis : IsCis cis) (d : Direction) (N : ℕ) (x : ℕ → K) :
    transform cis d N x = fun i => if i < N then d.factor N * dft (root cis d N) N x i else x i := by
  funext i
  unfold transform dft
  have hterm : ∀ j, x j * cis (d.sign * (j * i) / N) = x j * root cis d N ^ (j * i) := by
    intro j
    rw [root_pow hcis, Nat.cast_mul]
  simp only [hterm]

theorem transform_congr {d : Direction} {N : ℕ} {a b : ℕ → K} (hab : ∀ j < N, a j = b j) {i : ℕ} (hi : i < N) :
    transform cis d N a i = transform cis d N b i := by
  rw [transform, transform, if_pos hi, if_pos hi]
  congr 1
  exact sum_congr rfl fun j hj => by rw [hab j (mem_range.1 hj)]

/-- The entries of the tables are powers of the roots. -/
theorem Ready.twiddle_eq (h : Ready cis f p) (hcis : IsCis cis) (d : Direction) :
    ∀ s < p, ∀ j < 2 ^ s, f.twiddle d (2 ^ s - 1 + j) = root cis d (2 ^ (s + 1)) ^ j := by
  intro s hs j hj
  rw [h.twiddle d s hs j hj, root_pow hcis]

/-- Bit-reversed elements, all stages and the scaling make the transform. -/
theorem Ready.stages_transform (h : Ready cis f p) (hcis : IsCis cis) (x : ℕ → K) (d : Direction) :
    scaled (2 ^ p) (stages (f.twiddle d) (2 ^ p) 1 0 (fun i => if i < 2 ^ p then x (bitrev p i) else x i)) d =
      transform cis d (2 ^ p) x := by
  have hstart : Blocks (fun s => root cis d (2 ^ s)) p 0 x (fun i => if i < 2 ^ p then x (bitrev p i) else x i) :=
    blocks_start fun i hi => if_pos hi
  obtain ⟨hblocks, hframe⟩ := stages_eq (roots hcis d) (h.twiddle_eq hcis d) 1 0 _ 0 rfl rfl (Nat.zero_le p) hstart
  rw [scaled_eq, transform_eq_dft hcis]
  funext i
  by_cases hi : i < 2 ^ p
  · rw [if_pos hi, if_pos hi, hblocks.transform hi]
  · rw [if_neg hi, if_neg hi, hframe i (not_lt.1 hi), if_neg hi]

/-- **The butterflies transform.** -/
theorem Ready.fft_eq (h : Ready cis f p) (hcis : IsCis cis) (hp : p ≤ 32) (x : ℕ → K) (d : Direction) :
    f.fft x f.nfft d = some (transform cis d f.nfft x) := by
  have hplace : ∀ i < 2 ^ p, (reverse32 f.nfft2power (UInt32.ofNat i)).toNat = bitrev p i := by
    intro i hi
    rw [h.power, reverse32_eq hp hi]
  rw [JFFT.fft, if_pos rfl, h.size, permute_bitrev hplace]
  exact congrArg some (h.stages_transform hcis x d)

theorem Ready.fftEasy_eq (h : Ready cis f p) (hcis : IsCis cis) (x : ℕ → K) (d : Direction) :
    f.fftEasyToUnderstand x f.nfft d = some (transform cis d f.nfft x) := by
  have hplace : ∀ i < 2 ^ p, reverseBits f.nfft2power i = bitrev p i := by
    intro i _
    rw [h.power, reverseBits_eq]
  have hstages := stagesEasy_eq_stages (f.twiddle d) (2 ^ p) 1 (fun i => if i < 2 ^ p then x (bitrev p i) else x i) 0 rfl
  rw [JFFT.fftEasyToUnderstand, if_pos rfl, h.size, permute_bitrev hplace]
  dsimp only
  rw [hstages]
  exact congrArg some (h.stages_transform hcis x d)

theorem root_pow_size (hcis : IsCis cis) (d : Direction) {size : ℕ} (hne : size ≠ 0) : root cis d size ^ size = 1 := by
  have hturn : d.sign * size / size = d.sign / 2 + d.sign / 2 := by
    field_simp
    ring
  rw [root_pow hcis, hturn, hcis.add]
  cases d with
  | forward => rw [Direction.sign, hcis.neg_half]; ring
  | inverse => rw [Direction.sign, hcis.half]; ring

/-- From the definition, for any size: the exponents come round. -/
theorem sft_eq (hcis : IsCis cis) (x : ℕ → K) (size : ℕ) (d : Direction) : sft cis x size d = transform cis d size x := by
  have hperiod : ∀ j, size ≠ 0 → root cis d size ^ (j % size) = root cis d size ^ j := by
    intro j hne
    conv_rhs => rw [← Nat.mod_add_div j size, pow_add, pow_mul, root_pow_size hcis d hne, one_pow, mul_one]
  have hsum : ∀ i, i < size → (List.range size).foldl (fun acc k => acc + x k * root cis d size ^ (i * k % size)) 0 =
      dft (root cis d size) size x i := by
    intro i hi
    have hrun : ∀ m, (List.range m).foldl (fun acc k => acc + x k * root cis d size ^ (i * k % size)) 0 =
        ∑ k ∈ range m, x k * root cis d size ^ (k * i) := by
      intro m
      induction m with
      | zero => rfl
      | succ m ih =>
        rw [List.range_succ, List.foldl_append, ih, List.foldl_cons, List.foldl_nil, sum_range_succ, hperiod _ (by omega), mul_comm i m]
    exact hrun size
  rw [transform_eq_dft hcis]
  funext i
  by_cases hi : i < size
  · cases d with
    | forward => rw [if_pos hi, ← hsum i hi, Direction.factor, one_mul]; exact if_pos hi
    | inverse => rw [if_pos hi, ← hsum i hi, Direction.factor, mul_comm]; exact if_pos hi
  · cases d with
    | forward => rw [if_neg hi]; exact if_neg hi
    | inverse => rw [if_neg hi]; exact if_neg hi

/-- The other direction. -/
def Direction.other : Direction → Direction
  | .forward => .inverse
  | .inverse => .forward

/-- The roots for powers of two are primitive. -/
theorem root_primitive (hcis : IsCis cis) (htwo : (2 : K) ≠ 0) (d : Direction) (p : ℕ) :
    IsPrimitiveRoot (root cis d (2 ^ p)) (2 ^ p) := by
  have hone := root_pow_size hcis d (Nat.two_pow_pos p).ne'
  cases p with
  | zero =>
    rw [pow_zero, pow_one] at hone
    rw [pow_zero, hone]
    exact IsPrimitiveRoot.one
  | succ p =>
    have hhalf : ¬root cis d (2 ^ (p + 1)) ^ 2 ^ p = 1 := by
      rw [(roots hcis d).half]
      intro heq
      refine htwo ?_
      linear_combination -heq
    have horder := IsPrimitiveRoot.orderOf (root cis d (2 ^ (p + 1)))
    rwa [orderOf_eq_prime_pow hhalf hone] at horder

/-- There and back. -/
theorem transform_transform (hcis : IsCis cis) (htwo : (2 : K) ≠ 0) (d : Direction) (p : ℕ) (x : ℕ → K) :
    transform cis d.other (2 ^ p) (transform cis d (2 ^ p) x) = x := by
  have hinv : root cis d (2 ^ p) * root cis d.other (2 ^ p) = 1 := by
    have hsum : d.sign / (2 ^ p : ℕ) + d.other.sign / (2 ^ p : ℕ) = 0 := by
      cases d <;> simp only [Direction.sign, Direction.other] <;> ring
    rw [root, root, ← hcis.add, hsum, hcis.zero]
  have hne : ((2 ^ p : ℕ) : K) ≠ 0 := by
    rw [Nat.cast_pow]
    exact pow_ne_zero p htwo
  have hfactor : d.other.factor (2 ^ p) * (d.factor (2 ^ p) * ((2 ^ p : ℕ) : K)) = 1 := by
    cases d <;> simp only [Direction.factor, Direction.other] <;> field_simp
  rw [transform_eq_dft hcis, transform_eq_dft hcis]
  funext i
  by_cases hi : i < 2 ^ p
  · have hscale : dft (root cis d.other (2 ^ p)) (2 ^ p)
          (fun i => if i < 2 ^ p then d.factor (2 ^ p) * dft (root cis d (2 ^ p)) (2 ^ p) x i else x i) i =
        d.factor (2 ^ p) * dft (root cis d.other (2 ^ p)) (2 ^ p) (dft (root cis d (2 ^ p)) (2 ^ p) x) i := by
      rw [dft, dft, mul_sum]
      refine sum_congr rfl fun j hj => ?_
      rw [if_pos (mem_range.1 hj), mul_assoc]
    rw [if_pos hi, hscale, dft_dft (root_primitive hcis htwo d p) hinv x hi]
    linear_combination x i * hfactor
  · rw [if_neg hi]
    exact if_neg hi

/-- A size that `init` takes. -/
theorem power_le {p : ℕ} {fftSize : ℤ} (hsize : fftSize ≤ 2 ^ 30) (hmin : p = 0 ∨ 2 ^ p < 2 * fftSize) : p ≤ 32 := by
  rcases hmin with rfl | hmin
  · exact Nat.zero_le _
  · have hlt : (2 : ℤ) ^ p < 2 ^ 31 := by omega
    have hp : p < 31 := (pow_lt_pow_iff_right₀ (by norm_num : (1 : ℤ) < 2)).1 hlt
    omega

end Transforms

/-- The turns of complex numbers. -/
noncomputable def turns (q : ℚ) : ℂ := Complex.exp (2 * Complex.I * Real.pi * q)

theorem isCis_turns : IsCis turns := by
  refine ⟨fun a b => ?_, ?_⟩
  · rw [turns, turns, turns, ← Complex.exp_add]
    congr 1
    push_cast
    ring
  · have hhalf : 2 * Complex.I * (Real.pi : ℂ) * ((1 / 2 : ℚ) : ℂ) = Real.pi * Complex.I := by
      push_cast
      ring
    rw [turns, hhalf, Complex.exp_pi_mul_I]

end InmarsatSniffer.Fft
