import InmarsatSniffer.Spec.PChannel

/-!
# The codec and the delay line shift the bits by whole blocks

`Decode_Continuous` drops the first 25 bits of a call, so its first call gives 13 bits less than a
block carries, and every later one starts 6 bits before its block. Together with a delay line of six bits less than
`q` blocks the bits come out `q` blocks later, on the boundaries of blocks.

* `update_getD`: a delay line gives what it got a fixed number of bits before.
* `rawBits_getD`: where the bits of `Decode_Continuous` are in the stream.
* `codecOut_eq`: **the bits of block `c` are those that were sent in block `c - q`**.
-/

namespace InmarsatSniffer.Aero

variable {decodeSoft : List UInt8 → ℕ → Bool} {rate : Rate} {info : ℕ → Bool} {soft : ℕ → UInt8} {c n L : ℕ}
  {d : DelayLine} {xs ys : List Bool}

/-! ## The delay line -/

/-- **A delay line that got `xs`**: each of its cells holds the last bit that was written there. -/
structure DelayLine.Got (d : DelayLine) (L : ℕ) (xs : List Bool) : Prop where
  length : d.buffer.length = L + 1
  ptr : d.ptr = xs.length % (L + 1)
  recent : ∀ t, t < xs.length → xs.length ≤ t + (L + 1) → d.buffer.getD (t % (L + 1)) false = xs.getD t false
  fresh : ∀ i, xs.length ≤ i → i < L + 1 → d.buffer.getD i false = false

theorem got_create (L : ℕ) : (DelayLine.create L).Got L [] where
  length := List.length_replicate
  ptr := (Nat.zero_mod _).symm
  recent := fun t ht => absurd ht (Nat.not_lt_zero t)
  fresh := fun i _ hi => by
    unfold DelayLine.create
    rw [List.getD_eq_getElem _ _ (by rwa [List.length_replicate]), List.getElem_replicate]

theorem getD_set {α : Type*} (l : List α) {i : ℕ} (hi : i < l.length) (j : ℕ) (a b : α) :
    (l.set i a).getD j b = if i = j then a else l.getD j b := by
  rw [List.getD_eq_getElem?_getD, List.getD_eq_getElem?_getD, List.getElem?_set]
  split
  · rfl
  · rfl

/-- **One bit**: the line gives the bit that it got `L` bits before. -/
theorem DelayLine.Got.push (h : d.Got L xs) (bit : Bool) : (d.push bit).1.Got L (xs ++ [bit]) ∧
    (d.push bit).2 = (List.replicate L false ++ xs ++ [bit]).getD xs.length false := by
  have hlen := h.length
  have hptr := h.ptr
  have hlt : xs.length % (L + 1) < L + 1 := Nat.mod_lt _ (by omega)
  have hnext : (xs.length % (L + 1) + 1) % (L + 1) = (xs.length + 1) % (L + 1) := by rw [Nat.mod_add_mod]
  have hgot : (d.push bit).1.Got L (xs ++ [bit]) := by
    refine ⟨?_, ?_, fun t ht hrecent => ?_, fun i hi hfresh => ?_⟩
    · unfold DelayLine.push
      dsimp only
      rw [List.length_set, hlen]
    · unfold DelayLine.push
      dsimp only
      rw [hlen, hptr, hnext, List.length_append, List.length_singleton]
    · unfold DelayLine.push
      dsimp only
      rw [List.length_append, List.length_singleton] at ht hrecent
      rw [hptr, getD_set _ (by omega)]
      by_cases hnew : t = xs.length
      · rw [hnew, if_pos rfl, List.getD_append_right _ _ _ _ le_rfl, Nat.sub_self]
        rfl
      · -- an older bit is in another cell
        have hcell : xs.length % (L + 1) ≠ t % (L + 1) := by
          intro heq
          have hdvd : L + 1 ∣ xs.length - t := (Nat.modEq_iff_dvd' (by omega)).1 heq.symm
          have := Nat.le_of_dvd (by omega) hdvd
          omega
        rw [if_neg hcell, h.recent t (by omega) (by omega), List.getD_append _ _ _ _ (by omega)]
    · unfold DelayLine.push
      dsimp only
      rw [List.length_append, List.length_singleton] at hi
      have hcell : xs.length % (L + 1) ≠ i := by
        rw [Nat.mod_eq_of_lt (by omega)]
        omega
      rw [hptr, getD_set _ (by omega), if_neg hcell, h.fresh i (by omega) hfresh]
  refine ⟨hgot, ?_⟩
  have hout : (d.push bit).2 = (d.push bit).1.buffer.getD ((xs.length + 1) % (L + 1)) false := by
    unfold DelayLine.push
    dsimp only
    rw [hlen, hptr, hnext]
  rw [hout]
  by_cases hfull : L ≤ xs.length
  · have hread := hgot.recent (xs.length - L) (by rw [List.length_append, List.length_singleton]; omega)
      (by rw [List.length_append, List.length_singleton]; omega)
    have hmod : (xs.length - L) % (L + 1) = (xs.length + 1) % (L + 1) := by
      rw [show xs.length + 1 = xs.length - L + (L + 1) by omega, Nat.add_mod_right]
    rw [← hmod, hread, List.append_assoc, List.getD_append_right (List.replicate L false) _ _ _
      (by rw [List.length_replicate]; exact hfull), List.length_replicate]
  · have hidle := hgot.fresh (xs.length + 1) (by rw [List.length_append, List.length_singleton]) (by omega)
    rw [Nat.mod_eq_of_lt (by omega), hidle, List.append_assoc, List.getD_append _ _ _ _
      (by rw [List.length_replicate]; omega), List.getD_eq_getElem _ _ (by rw [List.length_replicate]; omega),
      List.getElem_replicate]

/-- **A list of bits** through the line. -/
theorem DelayLine.Got.update (h : d.Got L xs) (ys : List Bool) : (d.update ys).1.Got L (xs ++ ys) ∧
    (d.update ys).2.length = ys.length ∧
    ∀ j < ys.length, (d.update ys).2.getD j false = (List.replicate L false ++ xs ++ ys).getD (xs.length + j) false := by
  induction ys generalizing d xs with
  | nil =>
    rw [List.append_nil]
    exact ⟨h, rfl, fun j hj => absurd hj (Nat.not_lt_zero j)⟩
  | cons y ys ih =>
    obtain ⟨hgot, hout⟩ := h.push y
    obtain ⟨hrest, hlen, hget⟩ := ih hgot
    rw [DelayLine.update]
    refine ⟨?_, ?_, fun j hj => ?_⟩
    · rwa [List.append_assoc, List.singleton_append] at hrest
    · rw [List.length_cons, List.length_cons, hlen]
    · cases j with
      | zero =>
        rw [List.getD_cons_zero, hout, Nat.add_zero, List.append_cons _ y ys, List.getD_append _ ys _ _ (by simp; omega)]
      | succ j =>
        rw [List.getD_cons_succ, hget j (by simpa using hj), List.length_append, List.length_singleton,
          ← List.append_assoc, List.append_assoc _ [y], List.singleton_append,
          show xs.length + 1 + j = xs.length + (j + 1) by omega]

/-! ## The Viterbi decoder's bits in the stream -/

theorem Rate.infoBits_le (rate : Rate) : 192 ≤ rate.infoBits := by
  cases rate <;> decide

theorem Rate.blockSize_eq (rate : Rate) : rate.blockSize = 2 * rate.infoBits := by
  unfold Rate.blockSize Rate.infoBits
  omega

theorem softBlock_length (rate : Rate) (soft : ℕ → UInt8) (c : ℕ) : (softBlock rate soft c).length = rate.blockSize := by
  unfold softBlock
  rw [List.length_map, List.length_range]

theorem softBlock_getElem {i : ℕ} (hi : i < (softBlock rate soft c).length) :
    (softBlock rate soft c)[i] = soft (rate.blockSize * c + i) := by
  simp [softBlock]

/-- What is kept of a block: its last 62 symbols. -/
theorem decodeContinuous_overlap (overlap : List UInt8) (c : ℕ) :
    (decodeContinuous decodeSoft overlap (softBlock rate soft c)).1 =
      (List.range overlapLength).map fun i => soft (rate.blockSize * (c + 1) - overlapLength + i) := by
  have hmin := rate.infoBits_le
  have hsize := rate.blockSize_eq
  have hlong : (softBlock rate soft c).length ≥ overlapLength := by
    rw [softBlock_length]
    show 62 ≤ rate.blockSize
    omega
  have hover : overlapLength ≤ rate.blockSize := by rwa [softBlock_length] at hlong
  unfold decodeContinuous
  dsimp only
  rw [if_pos hlong, List.length_drop, softBlock_length, Nat.sub_sub_self hover, Nat.sub_self, List.replicate_zero,
    List.append_nil]
  apply List.ext_getElem
  · rw [List.length_drop, softBlock_length, Nat.sub_sub_self hover, List.length_map, List.length_range]
  · intro i h1 h2
    rw [List.getElem_drop, softBlock_getElem, List.getElem_map, List.getElem_range]
    congr 1
    rw [Nat.mul_succ]
    omega

/-- The bits that `Decode_Continuous` gives for block `c`, before the delay line. -/
def rawBits (decodeSoft : List UInt8 → ℕ → Bool) (rate : Rate) (soft : ℕ → UInt8) (c : ℕ) : List Bool :=
  (decodeContinuous decodeSoft
    (if c = 0 then [] else (List.range overlapLength).map fun i => soft (rate.blockSize * c - overlapLength + i))
    (softBlock rate soft c)).2

/-- The first call gives 13 bits less than a block. -/
theorem rawBits_zero_length : (rawBits decodeSoft rate soft 0).length = rate.infoBits - 13 := by
  have hmin := rate.infoBits_le
  have hsize := rate.blockSize_eq
  have hpad : paddingLength = 24 := rfl
  unfold rawBits decodeContinuous
  rw [if_pos rfl]
  simp only [List.length_take, List.length_drop, List.length_map, List.length_range, List.length_append,
    List.length_nil, List.length_replicate, softBlock_length]
  omega

/-- **A later call** gives the bits from six before its block on. -/
theorem rawBits_eq (h : Corrects decodeSoft rate info soft n) (h1 : 1 ≤ c) (hc : c < n) :
    rawBits decodeSoft rate soft c = (List.range rate.infoBits).map fun j => info (rate.infoBits * c + j - 6) := by
  have hsize := rate.blockSize_eq
  have hpad : paddingLength = 24 := rfl
  have hover : overlapLength = 62 := rfl
  have hsymbols : (viterbiSymbols rate soft c).length = 62 + rate.blockSize + 24 := by
    unfold viterbiSymbols
    rw [List.length_append, List.length_append, List.length_map, List.length_range, softBlock_length,
      List.length_replicate]
  unfold rawBits decodeContinuous
  rw [if_neg (by omega)]
  show ((List.map (decodeSoft (viterbiSymbols rate soft c)) (List.range ((viterbiSymbols rate soft c).length / 2))).drop
    (paddingLength + 1)).take ((softBlock rate soft c).length / 2) = _
  rw [softBlock_length, hsymbols]
  apply List.ext_getElem
  · simp only [List.length_take, List.length_drop, List.length_map, List.length_range]
    omega
  · intro j h2 h3
    rw [List.length_map, List.length_range] at h3
    rw [List.getElem_take, List.getElem_drop, List.getElem_map, List.getElem_map, List.getElem_range,
      List.getElem_range, h c h1 hc _ (by omega) (by omega)]
    congr 1
    omega

/-- The bits before block `c`. -/
def rawStream (decodeSoft : List UInt8 → ℕ → Bool) (rate : Rate) (soft : ℕ → UInt8) : ℕ → List Bool
  | 0 => []
  | c + 1 => rawStream decodeSoft rate soft c ++ rawBits decodeSoft rate soft c

theorem rawStream_length (h : Corrects decodeSoft rate info soft n) (hc : c + 1 ≤ n) :
    (rawStream decodeSoft rate soft (c + 1)).length = rate.infoBits * (c + 1) - 13 := by
  have hmin := rate.infoBits_le
  induction c with
  | zero =>
    rw [rawStream, rawStream, List.nil_append, rawBits_zero_length, Nat.zero_add, Nat.mul_one]
  | succ c ih =>
    rw [rawStream, List.length_append, ih (by omega), rawBits_eq h (by omega) (by omega), List.length_map,
      List.length_range, Nat.mul_succ _ (c + 1), Nat.mul_succ]
    omega

/-- **Where the bits are**: behind the first call, bit `q` is the one that was sent as bit `q + 7`. -/
theorem rawStream_getD (h : Corrects decodeSoft rate info soft n) (hc : c + 1 ≤ n) {q : ℕ} (hq : rate.infoBits - 13 ≤ q)
    (hlt : q < rate.infoBits * (c + 1) - 13) : (rawStream decodeSoft rate soft (c + 1)).getD q false = info (q + 7) := by
  have hmin := rate.infoBits_le
  induction c with
  | zero => omega
  | succ c ih =>
    have hlen := rawStream_length h (show c + 1 ≤ n by omega)
    rw [rawStream]
    by_cases hbefore : q < rate.infoBits * (c + 1) - 13
    · rw [List.getD_append _ _ _ _ (by omega), ih (by omega) hbefore]
    · rw [Nat.mul_succ _ (c + 1)] at hlt
      have hcell : rate.infoBits ≤ rate.infoBits * (c + 1) := Nat.le_mul_of_pos_right _ (Nat.succ_pos c)
      rw [List.getD_append_right _ _ _ _ (by omega), hlen, rawBits_eq h (by omega) (by omega),
        List.getD_eq_getElem _ _ (by rw [List.length_map, List.length_range]; omega), List.getElem_map,
        List.getElem_range]
      congr 1
      omega

/-! ## The delayed bits -/

/-- The overlap and the delay line before block `c`. -/
theorem codecState_spec (decodeSoft : List UInt8 → ℕ → Bool) (rate : Rate) (soft : ℕ → UInt8) (delay c : ℕ) :
    (codecState decodeSoft delay (softBlock rate soft) c).1 =
        (if c = 0 then [] else (List.range overlapLength).map fun i => soft (rate.blockSize * c - overlapLength + i)) ∧
      (codecState decodeSoft delay (softBlock rate soft) c).2.Got delay (rawStream decodeSoft rate soft c) := by
  induction c with
  | zero => exact ⟨rfl, got_create delay⟩
  | succ c ih =>
    rw [codecState, codecStep]
    refine ⟨?_, ?_⟩
    · dsimp only
      rw [decodeContinuous_overlap, if_neg (Nat.succ_ne_zero c)]
    · dsimp only
      rw [ih.1]
      exact (ih.2.update _).1

/-- The blocks by which the bits come out late. -/
def Rate.shift : Rate → ℕ
  | .r600 => 3
  | .r1200 => 2
  | .r10500 => 2

theorem Rate.delay_eq (rate : Rate) : rate.delay + 6 = rate.infoBits * rate.shift := by
  cases rate <;> rfl

theorem codecOut_length (h : Corrects decodeSoft rate info soft n) (hc : c < n) :
    (codecOut decodeSoft rate.delay (softBlock rate soft) c).length = if c = 0 then rate.infoBits - 13 else rate.infoBits := by
  obtain ⟨hover, hgot⟩ := codecState_spec decodeSoft rate soft rate.delay c
  unfold codecOut codecStep
  dsimp only
  rw [hover, (hgot.update _).2.1]
  show (rawBits decodeSoft rate soft c).length = _
  split
  · next h0 => rw [h0, rawBits_zero_length]
  · rw [rawBits_eq h (by omega) hc, List.length_map, List.length_range]

/-- **The bits of a block come out `shift` blocks later**, on its boundaries, from the second block
on. -/
theorem codecOut_eq (h : Corrects decodeSoft rate info soft n) (h1 : 1 ≤ c) (hc : c + rate.shift < n) :
    codecOut decodeSoft rate.delay (softBlock rate soft) (c + rate.shift) =
      (List.range rate.infoBits).map fun j => info (rate.infoBits * c + j) := by
  have hmin := rate.infoBits_le
  have hdelay := rate.delay_eq
  have hshift : 1 ≤ rate.shift := by cases rate <;> decide
  obtain ⟨e, he⟩ : ∃ e, c + rate.shift = e + 1 := ⟨c + rate.shift - 1, by omega⟩
  obtain ⟨hover, hgot⟩ := codecState_spec decodeSoft rate soft rate.delay (c + rate.shift)
  have hlen := codecOut_length h hc
  rw [if_neg (by omega)] at hlen
  have hxs := rawStream_length h (show e + 1 ≤ n by omega)
  rw [← he] at hxs
  have hprod : rate.infoBits * (c + rate.shift) = rate.infoBits * c + rate.infoBits * rate.shift := Nat.mul_add _ _ _
  have hone : rate.infoBits ≤ rate.infoBits * c := Nat.le_mul_of_pos_right _ h1
  apply List.ext_getElem
  · rw [hlen, List.length_map, List.length_range]
  · intro j h2 h3
    rw [List.length_map, List.length_range] at h3
    have hraw : (rawBits decodeSoft rate soft (c + rate.shift)).length = rate.infoBits := by
      rw [rawBits_eq h (by omega) hc, List.length_map, List.length_range]
    have hget := (hgot.update (rawBits decodeSoft rate soft (c + rate.shift))).2.2 j (by omega)
    have hcodec : codecOut decodeSoft rate.delay (softBlock rate soft) (c + rate.shift) =
        ((codecState decodeSoft rate.delay (softBlock rate soft) (c + rate.shift)).2.update
          (rawBits decodeSoft rate soft (c + rate.shift))).2 := by
      unfold codecOut codecStep rawBits
      dsimp only
      rw [hover]
    rw [← List.getD_eq_getElem _ false h2, hcodec, hget, List.append_assoc,
      List.getD_append_right _ _ _ _ (by rw [List.length_replicate]; omega), List.length_replicate, hxs]
    -- the bit came in `delay` bits before
    show (rawStream decodeSoft rate soft (c + rate.shift + 1)).getD _ false = _
    rw [rawStream_getD h (by omega) (by omega) (by rw [Nat.mul_succ]; omega), List.getElem_map, List.getElem_range]
    congr 1
    omega

end InmarsatSniffer.Aero
