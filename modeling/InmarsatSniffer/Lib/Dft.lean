import Mathlib

/-!
# Discrete Fourier transforms, and transforms in blocks

* `dft_even_odd`, `dft_even_odd_half`: a transform of the even elements and one of the odd ones make one of all.
* `Blocks`: an array whose blocks of size `2 ^ s` hold the transforms of every `2 ^ (p - s)`-th element, the
  blocks in bit-reversed order. `blocks_start`: bit reversal; `Blocks.butterfly`: a stage of butterflies.
* `dft_dft`: **inversion**; `dft_mul_dft`: **products are cyclic convolutions**, and linear ones where there is
  room for both (`cyclic_eq_linear`). `linear_overlap`: the linear one, block by block.
-/

namespace Dft

open Finset

section Ring

variable {R : Type*} [CommRing R] {ω : R} {x : ℕ → R} {m n k : ℕ}

/-- Coefficient `k` of the transform of `n` elements with the root `ω`. -/
def dft (ω : R) (n : ℕ) (x : ℕ → R) (k : ℕ) : R := ∑ j ∈ range n, x j * ω ^ (j * k)

theorem dft_congr {x' : ℕ → R} (h : ∀ j < n, x j = x' j) (k : ℕ) : dft ω n x k = dft ω n x' k :=
  sum_congr rfl fun j hj => by rw [h j (mem_range.1 hj)]

theorem sum_even_odd (f : ℕ → R) : ∀ m, ∑ j ∈ range (2 * m), f j = ∑ j ∈ range m, f (2 * j) + ∑ j ∈ range m, f (2 * j + 1) := by
  intro m
  induction m with
  | zero => simp
  | succ m ih =>
    rw [Nat.mul_succ, sum_range_succ, sum_range_succ, ih, sum_range_succ, sum_range_succ]
    ring

/-- **Two transforms make one.** -/
theorem dft_even_odd (ω : R) (m : ℕ) (x : ℕ → R) (k : ℕ) : dft ω (2 * m) x k =
    dft (ω ^ 2) m (fun j => x (2 * j)) k + ω ^ k * dft (ω ^ 2) m (fun j => x (2 * j + 1)) k := by
  unfold dft
  rw [sum_even_odd, mul_sum]
  congr 1
  · refine sum_congr rfl fun j _ => ?_
    rw [← pow_mul, mul_assoc]
  · refine sum_congr rfl fun j _ => ?_
    rw [← pow_mul]
    ring

theorem dft_add_period (hω : ω ^ n = 1) (k : ℕ) : dft ω n x (k + n) = dft ω n x k := by
  refine sum_congr rfl fun j _ => ?_
  have hpow : ω ^ (j * (k + n)) = ω ^ (j * k) := by
    rw [mul_add, pow_add, mul_comm j n, pow_mul ω n, hω, one_pow, mul_one]
  rw [hpow]

/-- The upper half has the other sign. -/
theorem dft_even_odd_half (hω : ω ^ m = -1) (x : ℕ → R) (k : ℕ) : dft ω (2 * m) x (k + m) =
    dft (ω ^ 2) m (fun j => x (2 * j)) k - ω ^ k * dft (ω ^ 2) m (fun j => x (2 * j + 1)) k := by
  have hone : (ω ^ 2) ^ m = 1 := by
    rw [← pow_mul, mul_comm, pow_mul, hω, neg_one_sq]
  rw [dft_even_odd, dft_add_period hone, dft_add_period hone, pow_add, hω]
  ring

end Ring

/-! ## Bit reversal -/

/-- The lowest `p` bits of `i` in the other order. -/
def bitrev : ℕ → ℕ → ℕ
  | 0, _ => 0
  | p + 1, i => i % 2 * 2 ^ p + bitrev p (i / 2)

theorem bitrev_lt : ∀ p i, bitrev p i < 2 ^ p := by
  intro p
  induction p with
  | zero => exact fun _ => Nat.one_pos
  | succ p ih =>
    intro i
    have hlow := ih (i / 2)
    have hbit : i % 2 = 0 ∨ i % 2 = 1 := Nat.mod_two_eq_zero_or_one i
    rw [bitrev, pow_succ]
    rcases hbit with hbit | hbit <;> rw [hbit] <;> omega

theorem bitrev_even (p b : ℕ) : bitrev (p + 1) (2 * b) = bitrev p b := by
  rw [bitrev, Nat.mul_mod_right, Nat.mul_div_cancel_left b Nat.two_pos, Nat.zero_mul, Nat.zero_add]

theorem bitrev_odd (p b : ℕ) : bitrev (p + 1) (2 * b + 1) = bitrev p b + 2 ^ p := by
  have hmod : (2 * b + 1) % 2 = 1 := by omega
  have hdiv : (2 * b + 1) / 2 = b := by omega
  rw [bitrev, hmod, hdiv, Nat.one_mul, Nat.add_comm]

/-- The bit that comes in last is the lowest. -/
theorem bitrev_succ_last : ∀ p i, bitrev (p + 1) i = 2 * bitrev p i + i / 2 ^ p % 2 := by
  intro p
  induction p with
  | zero => intro i; simp [bitrev]
  | succ p ih =>
    intro i
    rw [bitrev, ih, bitrev, Nat.div_div_eq_div_mul, pow_succ, Nat.mul_comm 2 (2 ^ p)]
    ring

/-- Bit `j` of the reversed number. -/
theorem testBit_bitrev : ∀ p i j, (bitrev p i).testBit j = (decide (j < p) && i.testBit (p - 1 - j)) := by
  intro p
  induction p with
  | zero => intro i j; simp [bitrev]
  | succ p ih =>
    intro i j
    have hlow := bitrev_lt p (i / 2)
    rw [bitrev, Nat.mul_comm]
    rcases lt_trichotomy j p with hj | rfl | hj
    · rw [Nat.testBit_two_pow_mul_add _ hlow, if_pos hj, ih, Nat.testBit_div_two]
      have hidx : p - 1 - j + 1 = p + 1 - 1 - j := by omega
      have hlt : j < p + 1 := by omega
      rw [hidx, decide_eq_true hj, decide_eq_true hlt]
    · rw [Nat.testBit_two_pow_mul_add _ hlow, if_neg (lt_irrefl _), Nat.sub_self, Nat.add_sub_cancel, Nat.sub_self,
        decide_eq_true (Nat.lt_succ_self j), Bool.true_and]
      simp
    · have hlt : ¬j < p + 1 := by omega
      rw [Nat.testBit_two_pow_mul_add _ hlow, if_neg (by omega), decide_eq_false hlt, Bool.false_and]
      apply Nat.testBit_lt_two_pow
      calc i % 2 < 2 ^ 1 := Nat.mod_lt i Nat.two_pos
        _ ≤ 2 ^ (j - p) := Nat.pow_le_pow_right Nat.two_pos (by omega)

/-- **Twice reversed is as before.** -/
theorem bitrev_bitrev {p i : ℕ} (hi : i < 2 ^ p) : bitrev p (bitrev p i) = i := by
  apply Nat.eq_of_testBit_eq
  intro j
  rw [testBit_bitrev, testBit_bitrev]
  by_cases hj : j < p
  · have hidx : p - 1 - (p - 1 - j) = j := by omega
    have hlt : p - 1 - j < p := by omega
    rw [hidx, decide_eq_true hj, decide_eq_true hlt]
    rfl
  · rw [decide_eq_false hj, Bool.false_and]
    refine (Nat.testBit_lt_two_pow (hi.trans_le ?_)).symm
    exact Nat.pow_le_pow_right Nat.two_pos (not_lt.1 hj)

/-! ## Blocks -/

section Blocks

variable {R : Type*} [CommRing R] {ω : ℕ → R} {x y y' : ℕ → R} {p s : ℕ}

/-- `ω s` is a root for `2 ^ s` elements. -/
structure Roots (ω : ℕ → R) : Prop where
  sq : ∀ s, ω (s + 1) ^ 2 = ω s
  half : ∀ s, ω (s + 1) ^ 2 ^ s = -1

/-- Block `b` of size `2 ^ s` holds the transform of the elements from `bitrev (p - s) b` on, `2 ^ (p - s)` apart. -/
def Blocks (ω : ℕ → R) (p s : ℕ) (x y : ℕ → R) : Prop :=
  ∀ b < 2 ^ (p - s), ∀ k < 2 ^ s, y (2 ^ s * b + k) = dft (ω s) (2 ^ s) (fun j => x (bitrev (p - s) b + 2 ^ (p - s) * j)) k

/-- Bit-reversed elements are blocks of one. -/
theorem blocks_start (h : ∀ i < 2 ^ p, y i = x (bitrev p i)) : Blocks ω p 0 x y := by
  intro b hb k hk
  obtain rfl : k = 0 := by omega
  simp [dft, h b hb]

/-- One block is the transform. -/
theorem Blocks.transform (h : Blocks ω p p x y) {k : ℕ} (hk : k < 2 ^ p) : y k = dft (ω p) (2 ^ p) x k := by
  have hblock := h 0 (by rw [Nat.sub_self]; exact Nat.one_pos) k hk
  simpa [bitrev] using hblock

/-- Pairs of elements `n` apart are added and subtracted, the second one of a pair times `w k`. -/
def Butterfly (w : ℕ → R) (n N : ℕ) (y y' : ℕ → R) : Prop :=
  ∀ b, ∀ k < n, 2 * n * b + k + n < N →
    y' (2 * n * b + k) = y (2 * n * b + k) + w k * y (2 * n * b + k + n) ∧
      y' (2 * n * b + k + n) = y (2 * n * b + k) - w k * y (2 * n * b + k + n)

/-- **A stage of butterflies makes the blocks twice as large.** -/
theorem Blocks.butterfly (hω : Roots ω) (h : Blocks ω p s x y) (hs : s < p)
    (hy : Butterfly (fun k => ω (s + 1) ^ k) (2 ^ s) (2 ^ p) y y') : Blocks ω p (s + 1) x y' := by
  intro b hb k hk
  obtain ⟨q, rfl⟩ : ∃ q, p = s + 1 + q := ⟨p - (s + 1), by omega⟩
  have hq : s + 1 + q - s = q + 1 := by omega
  have hq' : s + 1 + q - (s + 1) = q := by omega
  rw [hq'] at hb ⊢
  unfold Blocks at h
  rw [hq] at h
  have hsize : 2 ^ (s + 1) = 2 * 2 ^ s := by rw [pow_succ, mul_comm]
  have hstride : (2 : ℕ) ^ (q + 1) = 2 ^ q * 2 := pow_succ 2 q
  -- the even elements are in block `2 b`, the odd ones in block `2 b + 1`
  have heven : ∀ k < 2 ^ s, y (2 * 2 ^ s * b + k) =
      dft (ω (s + 1) ^ 2) (2 ^ s) (fun j => x (bitrev q b + 2 ^ q * (2 * j))) k := by
    intro k hk
    have hblock := h (2 * b) (by omega) k hk
    rw [bitrev_even] at hblock
    rw [hω.sq, mul_comm 2 (2 ^ s), mul_assoc, hblock]
    refine dft_congr (fun j _ => ?_) k
    rw [hstride, mul_assoc]
  have hodd : ∀ k < 2 ^ s, y (2 * 2 ^ s * b + k + 2 ^ s) =
      dft (ω (s + 1) ^ 2) (2 ^ s) (fun j => x (bitrev q b + 2 ^ q * (2 * j + 1))) k := by
    intro k hk
    have hblock := h (2 * b + 1) (by omega) k hk
    have hidx : 2 ^ s * (2 * b + 1) + k = 2 * 2 ^ s * b + k + 2 ^ s := by ring
    rw [bitrev_odd, hidx] at hblock
    rw [hω.sq, hblock]
    refine dft_congr (fun j _ => ?_) k
    rw [hstride]
    congr 1
    ring
  have hroom : ∀ k < 2 ^ s, 2 * 2 ^ s * b + k + 2 ^ s < 2 ^ (s + 1 + q) := by
    intro k hk
    have hle : 2 * 2 ^ s * (b + 1) ≤ 2 * 2 ^ s * 2 ^ q := Nat.mul_le_mul_left _ hb
    rw [pow_add, hsize]
    rw [mul_add] at hle
    omega
  rw [hsize] at hk ⊢
  by_cases hlow : k < 2 ^ s
  · rw [(hy b k hlow (hroom k hlow)).1, heven k hlow, hodd k hlow, dft_even_odd]
  · obtain ⟨k, rfl⟩ : ∃ k', k = k' + 2 ^ s := ⟨k - 2 ^ s, by omega⟩
    have hk' : k < 2 ^ s := by omega
    rw [← add_assoc, (hy b k hk' (hroom k hk')).2, heven k hk', hodd k hk', dft_even_odd_half (hω.half s)]

end Blocks

/-! ## Inversion and convolution -/

section Domain

variable {R : Type*} [CommRing R] [IsDomain R] {ω ω' : R} {n : ℕ}

/-- **The transform with the inverse root undoes the transform**, up to the factor `n`. -/
theorem dft_dft (h : IsPrimitiveRoot ω n) (hinv : ω * ω' = 1) (x : ℕ → R) {k : ℕ} (hk : k < n) :
    dft ω' n (dft ω n x) k = n * x k := by
  have hswap : dft ω' n (dft ω n x) k = ∑ j ∈ range n, x j * ∑ i ∈ range n, (ω ^ j * ω' ^ k) ^ i := by
    unfold dft
    simp only [sum_mul, mul_sum]
    rw [sum_comm]
    refine sum_congr rfl fun j _ => sum_congr rfl fun i _ => ?_
    rw [mul_pow, ← pow_mul, ← pow_mul, mul_assoc, mul_comm k i]
  have hone : ω ^ k * ω' ^ k = 1 := by rw [← mul_pow, hinv, one_pow]
  rw [hswap, sum_eq_single_of_mem k (mem_range.2 hk) fun j hj hne => ?_]
  · rw [hone]
    simp [mul_comm]
  · -- a root of unity other than one adds up to zero
    have hroot : ω ^ j * ω' ^ k ≠ 1 := by
      intro heq
      refine hne (h.pow_inj (mem_range.1 hj) hk ?_)
      calc ω ^ j = ω ^ j * (ω ^ k * ω' ^ k) := by rw [hone, mul_one]
        _ = ω ^ j * ω' ^ k * ω ^ k := by ring
        _ = ω ^ k := by rw [heq, one_mul]
    have hpow : (ω ^ j * ω' ^ k) ^ n = 1 := by
      have hω' : ω' ^ n = 1 := by
        calc ω' ^ n = ω ^ n * ω' ^ n := by rw [h.pow_eq_one, one_mul]
          _ = 1 := by rw [← mul_pow, hinv, one_pow]
      rw [mul_pow, ← pow_mul, mul_comm j, pow_mul, h.pow_eq_one, one_pow, one_mul, ← pow_mul, mul_comm k, pow_mul, hω', one_pow]
    have hgeom := geom_sum_mul (ω ^ j * ω' ^ k) n
    rw [hpow, sub_self] at hgeom
    rw [(mul_eq_zero.1 hgeom).resolve_right (sub_ne_zero.2 hroot), mul_zero]

end Domain

section Convolution

variable {R : Type*} [CommRing R] {ω : R} {n M N : ℕ} {a b : ℕ → R}

/-- The cyclic convolution of `n` elements. -/
def cyclic (n : ℕ) (a b : ℕ → R) (c : ℕ) : R := ∑ i ∈ range n, a i * b ((c + (n - i)) % n)

/-- The convolution of `M` elements with all that came before. -/
def linear (M : ℕ) (a b : ℕ → R) (c : ℕ) : R := ∑ i ∈ range M, if i ≤ c then a i * b (c - i) else 0

theorem linear_congr {b' : ℕ → R} {c : ℕ} (h : ∀ j ≤ c, b j = b' j) : linear M a b c = linear M a b' c :=
  sum_congr rfl fun i _ => by rw [h (c - i) (Nat.sub_le c i)]

/-- **The product of two transforms** is the transform of the convolution. -/
theorem dft_mul_dft (hω : ω ^ n = 1) (a b : ℕ → R) (k : ℕ) : dft ω n a k * dft ω n b k = dft ω n (cyclic n a b) k := by
  have hperiod : ∀ c, ω ^ (c % n * k) = ω ^ (c * k) := by
    intro c
    conv_rhs => rw [← Nat.mod_add_div c n, add_mul, pow_add, mul_assoc n, pow_mul ω n, hω, one_pow, mul_one]
  unfold dft cyclic
  rw [sum_mul_sum]
  simp only [sum_mul]
  conv_rhs => rw [sum_comm]
  refine sum_congr rfl fun i hi => ?_
  have hlt := mem_range.1 hi
  -- element `j` of `b` meets element `i` of `a` at `i + j`
  refine sum_nbij' (fun j => (i + j) % n) (fun c => (c + (n - i)) % n) (fun j _ => ?_) (fun c _ => ?_) (fun j hj => ?_)
    (fun c hc => ?_) fun j hj => ?_
  · exact mem_range.2 (Nat.mod_lt _ (Nat.zero_lt_of_lt hlt))
  · exact mem_range.2 (Nat.mod_lt _ (Nat.zero_lt_of_lt hlt))
  · have hsum : i + j + (n - i) = j + n := by omega
    rw [Nat.mod_add_mod, hsum, Nat.add_mod_right, Nat.mod_eq_of_lt (mem_range.1 hj)]
  · have hsum : i + (c + (n - i)) = c + n := by omega
    rw [Nat.add_mod_mod, hsum, Nat.add_mod_right, Nat.mod_eq_of_lt (mem_range.1 hc)]
  · have hsum : i + j + (n - i) = j + n := by omega
    rw [hperiod, Nat.mod_add_mod, hsum, Nat.add_mod_right, Nat.mod_eq_of_lt (mem_range.1 hj), add_mul, pow_add]
    ring

/-- Where there is room for both, nothing comes round. -/
theorem cyclic_eq_linear (ha : ∀ i, M ≤ i → a i = 0) (hb : ∀ j, N ≤ j → j < n → b j = 0) (hM : M ≤ n) (hroom : M + N ≤ n + 1)
    {c : ℕ} (hc : c < n) : cyclic n a b c = linear M a b c := by
  unfold cyclic linear
  have hsub : range M ⊆ range n := range_subset_range.2 hM
  rw [← sum_subset hsub fun i _ hi => by rw [ha i (by simpa using hi), zero_mul]]
  refine sum_congr rfl fun i hi => ?_
  have hi' := mem_range.1 hi
  by_cases hic : i ≤ c
  · have hsum : c + (n - i) = c - i + n := by omega
    rw [if_pos hic, hsum, Nat.add_mod_right, Nat.mod_eq_of_lt (by omega)]
  · rw [if_neg hic, Nat.mod_eq_of_lt (by omega), hb _ (by omega) (by omega), mul_zero]

/-- Block `q` of `N` elements, with nothing after it. -/
def block (N : ℕ) (b : ℕ → R) (q j : ℕ) : R := if j < N then b (q * N + j) else 0

/-- A block ends with the kernel. -/
theorem linear_block_end (a b : ℕ → R) (q : ℕ) {k : ℕ} (hk : M ≤ k + 1) : linear M a (block N b q) (N + k) = 0 := by
  refine sum_eq_zero fun i hi => ?_
  have hi' := mem_range.1 hi
  rw [if_pos (by omega), block, if_neg (by omega), mul_zero]

/-- The first block has nothing before it. -/
theorem linear_first (a b : ℕ → R) {k : ℕ} (hk : k < N) : linear M a b k = linear M a (block N b 0) k := by
  refine sum_congr rfl fun i _ => ?_
  have hlt : k - i < N := by omega
  rw [block, if_pos hlt, Nat.zero_mul, Nat.zero_add]

/-- **Blocks overlap**: the end of the one before goes on in each block. -/
theorem linear_overlap (hM : M ≤ N + 1) (a b : ℕ → R) (q : ℕ) {k : ℕ} (hk : k < N) :
    linear M a b ((q + 1) * N + k) = linear M a (block N b (q + 1)) k + linear M a (block N b q) (N + k) := by
  unfold linear
  rw [← sum_add_distrib]
  refine sum_congr rfl fun i hi => ?_
  have hi' := mem_range.1 hi
  have hmul : (q + 1) * N = q * N + N := by ring
  have hle : i ≤ (q + 1) * N + k := by omega
  have hle' : i ≤ N + k := by omega
  rw [if_pos hle, if_pos hle', block, block]
  by_cases hik : i ≤ k
  · -- the other element is in the same block
    have hidx : (q + 1) * N + k - i = (q + 1) * N + (k - i) := by omega
    rw [if_pos hik, if_pos (by omega), if_neg (by omega), mul_zero, add_zero, hidx]
  · have hidx : (q + 1) * N + k - i = q * N + (N + k - i) := by omega
    rw [if_neg hik, if_pos (by omega), zero_add, hidx]

end Convolution

end Dft
