import Mathlib
import InmarsatSniffer.Spec.Hilbert

/-!
# The folded filter is the plain one

Taps that are antisymmetric and vanish at even indices come in pairs, so that a convolution with
them can be folded (`fold_pairs`). Both programs read their rings at every phase as the last inputs in
order (`LastInputs.RingBuf.Holds`).

* `kernel_antisymm`, `kernel_even`: the formula gives such taps.
* `usb_sample`, `zmq_sample`: what comes out for a sample, in terms of the inputs.
* `hilbert_agree`: **both give the same outputs**, with the delay at the centre tap.
-/

namespace InmarsatSniffer.Usb

open LastInputs Finset

theorem sizes : taps = 125 ∧ delay = 62 ∧ pairs = 31 := ⟨rfl, rfl, rfl⟩

/-! ## The taps -/

theorem kernel_reflect (n : ℕ) (hn : n ≤ 124) : kernel (124 - n) = -kernel n := by
  have hmiddle : taps / 2 = 62 := rfl
  unfold kernel
  by_cases hmid : n = 62
  · rw [hmid]
    norm_num
  · have hcast : ((124 - n : ℕ) : ℝ) - 62 = -((n : ℝ) - 62) := by
      rw [Nat.cast_sub hn]
      norm_num
      ring
    rw [if_neg (by omega), if_neg (by omega), hcast, mul_neg, Real.cos_neg, div_neg]

theorem kernel_even (n : ℕ) (hn : 2 ∣ n) : kernel n = 0 := by
  unfold kernel
  obtain ⟨k, rfl⟩ := hn
  split
  · rfl
  · have hangle : Real.pi * (((2 * k : ℕ) : ℝ) - 62) = ((k : ℤ) - 31 : ℤ) * (2 * Real.pi) := by
      push_cast
      ring
    rw [hangle, Real.cos_int_mul_two_pi, sub_self, zero_div]

variable {K : Type*} [Field K] {tmp : ℕ → K} {norm : K} {h y : ℕ → K} {re im : ℕ → K} {t : ℕ}

/-! ## Folding -/

/-- Taps that vanish at even indices. -/
theorem sum_odd (heven : ∀ i, 2 ∣ i → h i = 0) (k : ℕ) :
    ∑ i ∈ range (2 * k + 1), h i * y i = ∑ q ∈ range k, h (2 * q + 1) * y (2 * q + 1) := by
  induction k with
  | zero => simp [heven 0 (dvd_zero 2)]
  | succ k ih =>
    rw [show 2 * (k + 1) + 1 = 2 * k + 1 + 1 + 1 by ring, sum_range_succ, sum_range_succ, ih, sum_range_succ,
      heven (2 * k + 1 + 1) ⟨k + 1, by ring⟩, zero_mul, add_zero]

/-- **Antisymmetric taps come in pairs.** -/
theorem fold_pairs (heven : ∀ i, 2 ∣ i → h i = 0) (m : ℕ) (hanti : ∀ i ≤ 4 * m, h (4 * m - i) = -h i) :
    ∑ i ∈ range (4 * m + 1), h i * y i =
      ∑ p ∈ range m, h (2 * p + 1) * (y (2 * p + 1) - y (4 * m - (2 * p + 1))) := by
  have hright : ∑ q ∈ range m, h (2 * (m + q) + 1) * y (2 * (m + q) + 1) =
      ∑ p ∈ range m, -(h (2 * p + 1) * y (4 * m - (2 * p + 1))) := by
    rw [← sum_range_reflect]
    apply sum_congr rfl
    intro p hp
    rw [mem_range] at hp
    have hplace : 2 * (m + (m - 1 - p)) + 1 = 4 * m - (2 * p + 1) := by omega
    rw [hplace, hanti (2 * p + 1) (by omega), neg_mul]
  rw [show 4 * m + 1 = 2 * (m + m) + 1 by ring, sum_odd heven, sum_range_add, hright, ← sum_add_distrib]
  apply sum_congr rfl
  intro p _
  ring

/-! ## What comes out -/

theorem foldl_sum (f : ℕ → K) (n : ℕ) : (List.range n).foldl (fun sum i => sum + f i) 0 = ∑ i ∈ range n, f i := by
  induction n with
  | zero => rfl
  | succ n ih => rw [List.range_succ, List.foldl_append, ih, sum_range_succ, List.foldl_cons, List.foldl_nil]

/-- `hilbert_step` of `HilbertUSB` on a ring that holds the inputs. -/
theorem HilbertUSB.hilbertStep_eq {s : HilbertUSB K} (c : ℕ → K) (hs : s.hist.Holds taps im t) :
    (s.hilbertStep c (im t)).2 = ∑ p ∈ range pairs, c p * (past im (t + 1) (124 - (2 * p + 1)) - past im (t + 1) (2 * p + 1)) := by
  obtain ⟨htaps, -, hpairs⟩ := sizes
  have hpush := hs.push (by norm_num)
  have hidx : (s.hist.push taps (im t)).idx < taps := by
    rw [hpush.idx]
    exact Nat.mod_lt _ (by norm_num)
  have hwrap : ∀ j < taps, (if (s.hist.push taps (im t)).idx + j ≥ taps then (s.hist.push taps (im t)).idx + j - taps
      else (s.hist.push taps (im t)).idx + j) = ((s.hist.push taps (im t)).idx + j) % taps := fun j hj => by
    split
    · rw [Nat.mod_eq_sub_mod (by omega), Nat.mod_eq_of_lt (by omega)]
    · rw [Nat.mod_eq_of_lt (by omega)]
  unfold HilbertUSB.hilbertStep
  dsimp only
  rw [foldl_sum (fun p => c p * (_ - _))]
  apply sum_congr rfl
  intro p hp
  rw [mem_range] at hp
  rw [hwrap _ (by omega), hwrap _ (by omega), hpush.cells _ (by omega), hpush.cells _ (by omega)]
  congr 3
  omega

/-- `hilbert_step` of `zmq_audio.c` on a ring that holds the inputs. -/
theorem ZmqChan.hilbertStep_eq {ch : ZmqChan K} (hilbertTaps : ℕ → K) (hs : ch.hilb.Holds taps im t) :
    (ch.hilbertStep hilbertTaps (im t)).2 = ∑ i ∈ range taps, hilbertTaps i * past im (t + 1) (124 - i) := by
  have hpush := hs.push (by norm_num)
  have hidx : (ch.hilb.push taps (im t)).idx < taps := by
    rw [hpush.idx]
    exact Nat.mod_lt _ (by norm_num)
  -- the index goes round with the taps
  have hloop : ∀ n ≤ taps, (List.range n).foldl
      (fun (acc : K × ℕ) i => (acc.1 + hilbertTaps i * (ch.hilb.push taps (im t)).buf.getD acc.2 0, (acc.2 + 1) % taps))
      (0, (ch.hilb.push taps (im t)).idx) =
        (∑ i ∈ range n, hilbertTaps i * past im (t + 1) (124 - i), ((ch.hilb.push taps (im t)).idx + n) % taps) := by
    intro n
    induction n with
    | zero => exact fun _ => by rw [List.range_zero, List.foldl_nil, sum_range_zero, Nat.add_zero, Nat.mod_eq_of_lt hidx]
    | succ n ih =>
      intro hn
      rw [List.range_succ, List.foldl_append, ih (by omega), List.foldl_cons, List.foldl_nil, sum_range_succ,
        hpush.cells n (by omega), Nat.mod_add_mod, Nat.add_assoc]
      rfl
  unfold ZmqChan.hilbertStep
  dsimp only
  rw [hloop taps le_rfl]

/-- A delay line of 63 cells gives the input 62 before. -/
theorem delay_read {r : RingBuf K} (hs : r.Holds (delay + 1) re t) :
    (r.push (delay + 1) (re t)).buf.getD (r.push (delay + 1) (re t)).idx 0 = past re (t + 1) delay := by
  have hpush := hs.push (by norm_num)
  have hidx : (r.push (delay + 1) (re t)).idx < delay + 1 := by
    rw [hpush.idx]
    exact Nat.mod_lt _ (by norm_num)
  rw [← Nat.mod_eq_of_lt hidx]
  exact hpush.cells 0 (by norm_num)

/-! ## Runs -/

theorem HilbertUSB.after_holds (c : ℕ → K) (re im : ℕ → K) (t : ℕ) :
    (HilbertUSB.after c re im t).hist.Holds taps im t ∧ (HilbertUSB.after c re im t).dbuf.Holds (delay + 1) re t := by
  induction t with
  | zero => exact ⟨holds_zeros _ _, holds_zeros _ _⟩
  | succ t ih => exact ⟨ih.1.push (by norm_num), ih.2.push (by norm_num)⟩

theorem ZmqChan.after_holds (hilbertTaps : ℕ → K) (re im : ℕ → K) (t : ℕ) :
    (ZmqChan.after hilbertTaps re im t).hilb.Holds taps im t ∧
      (ZmqChan.after hilbertTaps re im t).delayLine.Holds (delay + 1) re t := by
  induction t with
  | zero => exact ⟨holds_zeros _ _, holds_zeros _ _⟩
  | succ t ih => exact ⟨ih.1.push (by norm_num), ih.2.push (by norm_num)⟩

/-- What `HilbertUSB` gives for sample `t`. -/
theorem HilbertUSB.sample_eq (c : ℕ → K) (re im : ℕ → K) (t : ℕ) :
    ((HilbertUSB.after c re im t).sample c (re t) (im t)).2 = (past re (t + 1) delay,
      ∑ p ∈ range pairs, c p * (past im (t + 1) (124 - (2 * p + 1)) - past im (t + 1) (2 * p + 1))) := by
  obtain ⟨hhist, hdbuf⟩ := HilbertUSB.after_holds c re im t
  rw [← HilbertUSB.hilbertStep_eq c hhist, ← delay_read hdbuf]
  rfl

/-- What `zmq_audio.c` gives for sample `t`. -/
theorem ZmqChan.sample_eq (hilbertTaps : ℕ → K) (re im : ℕ → K) (t : ℕ) :
    ((ZmqChan.after hilbertTaps re im t).sample hilbertTaps (re t) (im t)).2 =
      (past re (t + 1) delay, ∑ i ∈ range taps, hilbertTaps i * past im (t + 1) (124 - i)) := by
  obtain ⟨hhilb, hdelay⟩ := ZmqChan.after_holds hilbertTaps re im t
  rw [← ZmqChan.hilbertStep_eq hilbertTaps hhilb, ← delay_read hdelay]
  rfl

/-- The folded filter with the design of `HilbertUSB` is the plain one with that of `zmq_audio.c`. -/
theorem design_fold (heven : ∀ n, 2 ∣ n → tmp n = 0) (hanti : ∀ n ≤ 124, tmp (124 - n) = -tmp n) (y : ℕ → K) :
    ∑ i ∈ range taps, designHilbert tmp norm i * y (124 - i) =
      ∑ p ∈ range pairs, design tmp norm p * (y (124 - (2 * p + 1)) - y (2 * p + 1)) := by
  obtain ⟨htaps, -, hpairs⟩ := sizes
  have hzero : ∀ i, 2 ∣ i → designHilbert tmp norm i = 0 := fun i hi => by
    unfold designHilbert
    rw [heven _ (by omega), zero_div]
  have hreflect : ∀ i ≤ 4 * pairs, designHilbert tmp norm (4 * pairs - i) = -designHilbert tmp norm i := fun i hi => by
    unfold designHilbert
    rw [show taps - (4 * pairs - i) - 1 = 124 - (taps - i - 1) by omega, hanti _ (by omega), neg_div]
  have hfold := fold_pairs (y := fun i => y (124 - i)) hzero pairs hreflect
  rw [show taps = 4 * pairs + 1 from rfl, hfold]
  apply sum_congr rfl
  intro p hp
  rw [mem_range] at hp
  have hcoeff : design tmp norm p = designHilbert tmp norm (2 * p + 1) := by
    unfold design designHilbert
    dsimp only
    rw [Nat.sub_right_comm]
  rw [hcoeff, show 124 - (4 * pairs - (2 * p + 1)) = 2 * p + 1 by omega]

/-- The input `k` samples before sample `t`, zero before the first one. -/
def ago (x : ℕ → ℝ) (t k : ℕ) : ℝ := if k ≤ t then x (t - k) else 0

theorem past_succ (x : ℕ → ℝ) (t k : ℕ) : past x (t + 1) k = ago x t k := by
  unfold past ago
  by_cases hk : k ≤ t
  · rw [if_pos hk, if_pos (by omega), Nat.add_sub_cancel]
  · rw [if_neg hk, if_neg (by omega)]

/-- **The folded filter agrees with the plain one**, sample by sample. The plain one is the convolution with the 125
taps, whose centre tap 62 meets the input 62 samples ago, and the real part comes out 62 samples late. -/
theorem hilbert_agree (re im : ℕ → ℝ) (t : ℕ) :
    ((HilbertUSB.after (design kernel gain) re im t).sample (design kernel gain) (re t) (im t)).2 =
        ((ZmqChan.after (designHilbert kernel gain) re im t).sample (designHilbert kernel gain) (re t) (im t)).2 ∧
      ((ZmqChan.after (designHilbert kernel gain) re im t).sample (designHilbert kernel gain) (re t) (im t)).2 =
        (ago re t 62, ∑ i ∈ range 125, designHilbert kernel gain i * ago im t (124 - i)) := by
  have hzmq := ZmqChan.sample_eq (designHilbert kernel gain) re im t
  constructor
  · rw [hzmq, HilbertUSB.sample_eq, design_fold kernel_even kernel_reflect]
  · rw [hzmq, past_succ, sum_congr rfl fun i _ => by rw [past_succ]]
    rfl

end InmarsatSniffer.Usb
