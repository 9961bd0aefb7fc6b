import InmarsatSniffer.Proof.Codec

/-!
# Frames of the P channel are recovered

At 600 and 1200 baud a fresh decoder finds every preamble of a stream of frames and nothing else, so
that its counter follows the stream from the first preamble on (`InPreamble`, `InFrame`): the blocks that it fills
are the blocks that were sent, each goes through the codec and the delay line in turn, and
a frame comes out in the one after it.

* `deinterleave_interleave`: the deinterleaver undoes the interleaver.
* `InFrame.step`: **one soft bit** of a frame.
* `frame_recovered`: **at the end of frame `i + 1`, from `i = 1` on, `infofield` is frame `i`**, the
  scrambler stays within its sequence, and at 10500 baud the bits come out two blocks later.
-/

namespace InmarsatSniffer.Aero

variable {decodeSoft : List UInt8 → ℕ → Bool} {rate : Rate} {frames : ℕ → List UInt8} {n : ℕ} {soft : ℕ → UInt8}
  {recv : ℕ → Int16} {s t : AeroL} {b : Int16}

/-! ## A soft bit, without the signal units -/

/-- The same but for what signal units change. -/
structure SameIntake (s t : AeroL) : Prop where
  rate : s.rate = t.rate
  cntr : s.cntr = t.cntr
  detector : s.preambledetector = t.preambledetector
  block : s.block = t.block
  overlap : s.overlap = t.overlap
  dl2 : s.dl2 = t.dl2
  position : s.position = t.position
  infofield : s.infofield = t.infofield

theorem SameIntake.refl (s : AeroL) : SameIntake s s := ⟨rfl, rfl, rfl, rfl, rfl, rfl, rfl, rfl⟩

theorem dispatch_same (s : AeroL) (su : List UInt8) : SameIntake (s.dispatch su).1 s := by
  unfold AeroL.dispatch
  dsimp only
  split
  · exact ⟨rfl, rfl, rfl, rfl, rfl, rfl, rfl, rfl⟩
  split
  · exact .refl s
  split
  · split <;> exact ⟨rfl, rfl, rfl, rfl, rfl, rfl, rfl, rfl⟩
  · exact .refl s

theorem checkSu_same (s : AeroL) (su : List UInt8) : SameIntake (s.checkSu su).1 s := by
  unfold AeroL.checkSu
  dsimp only
  split
  · obtain ⟨h1, h2, h3, h4, h5, h6, h7, h8⟩ := dispatch_same { s with dcd := s.dcd.su (suOk su) } su
    exact ⟨h1, h2, h3, h4, h5, h6, h7, h8⟩
  · exact ⟨rfl, rfl, rfl, rfl, rfl, rfl, rfl, rfl⟩

theorem checkSus_same (s : AeroL) (sus : List (List UInt8)) : SameIntake (s.checkSus sus).1 s := by
  induction sus generalizing s with
  | nil => exact .refl s
  | cons su sus ih =>
    have hrest := ih (s.checkSu su).1
    have hfirst := checkSu_same s su
    exact ⟨hrest.rate.trans hfirst.rate, hrest.cntr.trans hfirst.cntr, hrest.detector.trans hfirst.detector,
      hrest.block.trans hfirst.block, hrest.overlap.trans hfirst.overlap, hrest.dl2.trans hfirst.dl2,
      hrest.position.trans hfirst.position, hrest.infofield.trans hfirst.infofield⟩

/-- Whether the preamble is found with a soft bit. -/
def AeroL.finds (s : AeroL) (b : Int16) : Bool := (detectPreamble s.preambledetector (hardBit b)).2

/-- The counter behind a soft bit. -/
def nextCntr (cntr : ℤ) : ℤ := if cntr < 1000000000 then cntr + 1 else cntr

/-- The decoder with the soft bit detected and counted. -/
def AeroL.counted (s : AeroL) (b : Int16) : AeroL :=
  { s with
    preambledetector := (detectPreamble s.preambledetector (hardBit b)).1
    cntr := nextCntr s.cntr
    infofield := if nextCntr s.cntr = 0 then [] else s.infofield }

/-- A decoder for 600 or 1200 baud. -/
theorem intake_eq (hrate : s.rate ≠ .r10500) : s.intake decodeSoft b =
    (if (s.counted b).cntr ≥ 16 then (s.counted b).fill decodeSoft b.toUInt16 else s.counted b, s.finds b) := by
  have hpsk : s.rate.useingOQPSK = false := by
    cases hr : s.rate with
    | r600 | r1200 => rfl
    | r10500 => exact absurd hr hrate
  have hdetect : s.detect (decide (b.toInt % 256 ≥ 128)) b.toUInt16 =
      ({ s with preambledetector := (detectPreamble s.preambledetector (hardBit b)).1 }, s.finds b, b.toUInt16) := by
    unfold AeroL.detect
    rw [hpsk, if_neg Bool.false_ne_true]
    rfl
  have hcount : ({ s with preambledetector := (detectPreamble s.preambledetector (hardBit b)).1 } : AeroL).count =
      s.counted b := by
    unfold AeroL.count AeroL.counted nextCntr
    dsimp only
    split
    · split <;> rfl
    · split <;> rfl
  unfold AeroL.intake
  rw [hdetect]
  dsimp only
  rw [hcount]

/-- **A soft bit**, up to what the signal units change: it is taken in, and then the sync and the end of the
frame set the counter. -/
theorem decodeBit_same (decodeSoft : List UInt8 → ℕ → Bool) (s : AeroL) (hb : 0 ≤ b.toInt) : ∃ t, SameIntake t (s.intake decodeSoft b).1 ∧
    (s.decodeBit decodeSoft b).1 = (if (s.intake decodeSoft b).2 then t.synced else t).wrap := by
  unfold AeroL.decodeBit
  rw [if_neg (by omega)]
  dsimp only
  refine ⟨_, ?_, rfl⟩
  split
  · exact checkSus_same _ _
  · exact .refl _

/-- The decoder with the soft bit in its block. -/
def AeroL.taken (decodeSoft : List UInt8 → ℕ → Bool) (s : AeroL) (b : Int16) : AeroL :=
  if (s.counted b).cntr ≥ 16 then (s.counted b).fill decodeSoft b.toUInt16 else s.counted b

theorem taken_cntr (s : AeroL) (b : Int16) :
    (s.taken decodeSoft b).cntr = nextCntr s.cntr ∧ (s.taken decodeSoft b).rate = s.rate := by
  unfold AeroL.taken AeroL.fill
  dsimp only
  split
  · split <;> exact ⟨rfl, rfl⟩
  · exact ⟨rfl, rfl⟩

theorem taken_detector (s : AeroL) (b : Int16) :
    (s.taken decodeSoft b).preambledetector = (s.counted b).preambledetector := by
  unfold AeroL.taken AeroL.fill
  dsimp only
  split
  · split <;> rfl
  · rfl

/-- **A soft bit without a preamble.** -/
theorem decodeBit_quiet (decodeSoft : List UInt8 → ℕ → Bool) (hrate : s.rate ≠ .r10500) (hb : 0 ≤ b.toInt) (hno : s.finds b = false)
    (hend : nextCntr s.cntr + 1 ≠ 1200) : SameIntake (s.decodeBit decodeSoft b).1 (s.taken decodeSoft b) := by
  obtain ⟨t, hsame, hdec⟩ := decodeBit_same decodeSoft s hb
  rw [intake_eq hrate] at hsame hdec
  dsimp only at hsame hdec
  have hwrap : t.wrap = t := by
    have htotal : t.rate.totalNumberOfBits = 1200 := by
      rw [hsame.rate]
      show (s.taken decodeSoft b).rate.totalNumberOfBits = 1200
      rw [(taken_cntr s b).2]
      cases hr : s.rate with
      | r600 | r1200 => rfl
      | r10500 => exact absurd hr hrate
    unfold AeroL.wrap
    rw [htotal, hsame.cntr]
    show (if (s.taken decodeSoft b).cntr + 1 = 1200 then _ else _) = t
    rw [(taken_cntr s b).1, if_neg hend]
  rw [hdec, hno, if_neg Bool.false_ne_true, hwrap]
  exact hsame

/-- **The last soft bit of a preamble.** -/
theorem decodeBit_found (decodeSoft : List UInt8 → ℕ → Bool) (hrate : s.rate ≠ .r10500) (hb : 0 ≤ b.toInt) (hyes : s.finds b = true) :
    SameIntake (s.decodeBit decodeSoft b).1 { s.taken decodeSoft b with cntr := -1, position := 0 } := by
  obtain ⟨t, hsame, hdec⟩ := decodeBit_same decodeSoft s hb
  rw [intake_eq hrate] at hsame hdec
  dsimp only at hsame hdec
  have hwrap : t.synced.wrap = t.synced := by
    have htotal : t.synced.rate.totalNumberOfBits ≠ 0 := by
      cases t.synced.rate <;> decide
    unfold AeroL.wrap
    exact if_neg fun h0 => htotal h0.symm
  rw [hdec, hyes, if_pos rfl, hwrap]
  exact ⟨hsame.rate, rfl, hsame.detector, hsame.block, hsame.overlap, hsame.dl2, rfl, hsame.infofield⟩

/-! ## The deinterleaver -/

theorem flatMap_range_map {α : Type*} (f : ℕ → α) (m cols : ℕ) :
    ((List.range cols).flatMap fun j => (List.range m).map fun i => f (m * j + i)) = (List.range (m * cols)).map f := by
  induction cols with
  | zero => rfl
  | succ cols ih =>
    rw [List.range_succ, List.flatMap_append, ih, List.flatMap_singleton, Nat.mul_succ, List.range_add, List.map_append,
      List.map_map]
    rfl

/-- The two row tables are inverse. -/
theorem interleaveRowPermute_depermute : ∀ i < 64, interleaveRowPermute.getD (interleaveRowDepermute i) 0 = i := by
  decide +kernel

theorem interleaveRowDepermute_lt (i : ℕ) : interleaveRowDepermute i < 64 := Nat.mod_lt _ (by norm_num)

/-- **The deinterleaver undoes the interleaver.** -/
theorem deinterleave_interleave {block : List UInt16} {cols : ℕ} (base : ℕ) (hcols : 0 < cols)
    (hblock : ∀ k < 64 * cols, (block.getD k 0).toUInt8 = soft (base + interleave cols k)) :
    deinterleaveBa cols block = (List.range (64 * cols)).map fun i => soft (base + i) := by
  rw [← flatMap_range_map (fun i => soft (base + i))]
  unfold deinterleaveBa
  apply List.flatMap_congr
  intro j hj
  apply List.map_congr_left
  intro i hi
  rw [List.mem_range] at hj hi
  have hrow := interleaveRowDepermute_lt i
  have hplace : interleaveRowDepermute i * cols + j < 64 * cols := by
    calc interleaveRowDepermute i * cols + j < interleaveRowDepermute i * cols + cols := by omega
      _ = (interleaveRowDepermute i + 1) * cols := (Nat.succ_mul _ _).symm
      _ ≤ 64 * cols := Nat.mul_le_mul_right _ hrow
  rw [hblock _ hplace]
  unfold interleave
  have hdiv : (interleaveRowDepermute i * cols + j) / cols = interleaveRowDepermute i := by
    rw [Nat.mul_comm, Nat.mul_add_div hcols, Nat.div_eq_of_lt hj, Nat.add_zero]
  have hmod : (interleaveRowDepermute i * cols + j) % cols = j := by
    rw [Nat.mul_comm, Nat.mul_add_mod, Nat.mod_eq_of_lt hj]
  rw [hdiv, hmod, interleaveRowPermute_depermute i hi, Nat.add_comm i]

/-! ## The preamble detector -/

/-- The buffer of the detector behind `p` soft bits, since `start`: the last 32 of them, and zeros where
there are none. -/
structure Window (recv : ℕ → Int16) (buffer : List Bool) (start p : ℕ) : Prop where
  length : buffer.length = 32
  bits : ∀ m < 32, buffer.getD m false = if start + 32 ≤ p + m then hardBit (recv (p + m - 32)) else false

theorem window_zeros (p : ℕ) : Window recv (List.replicate 32 false) p p where
  length := rfl
  bits := fun m hm => by
    rw [if_neg (by omega), List.getD_eq_getElem _ _ (by rwa [List.length_replicate]), List.getElem_replicate]

/-- One soft bit more. -/
theorem Window.push {buffer : List Bool} {start p : ℕ} (h : Window recv buffer start p) (hp : start ≤ p) :
    Window recv (buffer.tail ++ [hardBit (recv p)]) start (p + 1) where
  length := by
    rw [List.length_append, List.length_tail, h.length, List.length_singleton]
  bits := fun m hm => by
    have htail : buffer.tail.length = 31 := by rw [List.length_tail, h.length]
    by_cases hlast : m = 31
    · rw [hlast, List.getD_append_right _ _ _ _ htail.le, htail, Nat.sub_self, if_pos (by omega)]
      rfl
    · have hbits := h.bits (m + 1) (by omega)
      have hget : buffer.tail.getD m false = buffer.getD (m + 1) false := by
        rw [List.getD_eq_getElem?_getD, List.getD_eq_getElem?_getD, List.getElem?_tail]
      rw [List.getD_append _ _ _ _ (by omega), hget, hbits, show p + 1 + m = p + (m + 1) by omega]

theorem preamble_facts : preamble.length = 32 ∧ preamble.getD 0 false = true := by decide

/-- The buffer is the preamble when the last 32 soft bits are. -/
theorem Window.preamble_iff {buffer : List Bool} {start p : ℕ} (h : Window recv buffer start p) :
    buffer = preamble ↔ start + 32 ≤ p ∧ ∀ m < 32, hardBit (recv (p - 32 + m)) = preamble.getD m false := by
  have hlen := preamble_facts.1
  constructor
  · intro heq
    have hstart : start + 32 ≤ p := by
      by_contra hno
      have hfirst := h.bits 0 (by omega)
      rw [if_neg (by omega), heq, preamble_facts.2] at hfirst
      cases hfirst
    refine ⟨hstart, fun m hm => ?_⟩
    have hbit := h.bits m hm
    rw [if_pos (by omega), heq, show p + m - 32 = p - 32 + m by omega] at hbit
    exact hbit.symm
  · rintro ⟨hstart, hbits⟩
    apply List.ext_getElem (by rw [h.length, hlen])
    intro m h1 h2
    have hm : m < 32 := by rwa [h.length] at h1
    rw [← List.getD_eq_getElem _ false h1, ← List.getD_eq_getElem _ false h2, h.bits m hm, if_pos (by omega),
      show p + m - 32 = p - 32 + m by omega, hbits m hm]

/-- **The preamble is found** exactly behind 32 soft bits of a preamble. -/
theorem Window.found {start p : ℕ} (h : Window recv s.preambledetector start p) (hp : start ≤ p) :
    s.finds (recv p) = true ↔
      start + 32 ≤ p + 1 ∧ ∀ m < 32, hardBit (recv (p - 31 + m)) = preamble.getD m false := by
  have hpush := (h.push hp).preamble_iff
  rw [show p + 1 - 32 = p - 31 by omega] at hpush
  rw [← hpush]
  unfold AeroL.finds detectPreamble
  dsimp only
  split
  · next heq => exact iff_of_true rfl heq
  · next hne => exact iff_of_false Bool.false_ne_true hne

/-- The buffer behind a soft bit without a preamble. -/
theorem Window.next {start p : ℕ} (h : Window recv s.preambledetector start p) (hp : start ≤ p)
    (hno : s.finds (recv p) = false) : Window recv (s.counted (recv p)).preambledetector start (p + 1) := by
  have hpush := h.push hp
  unfold AeroL.counted
  unfold AeroL.finds detectPreamble at hno
  unfold detectPreamble
  dsimp only at hno ⊢
  split at hno
  · cases hno
  · next hne =>
    rw [if_neg hne]
    exact hpush

/-! ## Blocks -/

/-- The blocks of a frame. -/
def Rate.blocks : Rate → ℕ
  | .r600 => 3
  | .r1200 => 2
  | .r10500 => 1

/-- The sizes at 600 and 1200 baud. -/
theorem Rate.sizes (hrate : rate ≠ .r10500) : rate.blockSize * rate.blocks = 1152 ∧ 384 ≤ rate.blockSize ∧
    rate.blockSize ≤ 576 ∧ rate.blockSize = 64 * rate.cols ∧ rate.shift = rate.blocks ∧
    (1000000000 - 16) % rate.blockSize + 1 ≠ rate.blockSize := by
  cases rate with
  | r600 | r1200 => decide
  | r10500 => exact absurd rfl hrate

/-- A soft bit that does not fill its block. -/
theorem taken_within (decodeSoft : List UInt8 → ℕ → Bool) {idx : ℕ} (hidx : (s.counted b).blockIdx = idx) (hno : idx + 1 ≠ s.block.length) :
    s.taken decodeSoft b = { s.counted b with
      block := if (s.counted b).cntr ≥ 16 then s.block.set idx b.toUInt16 else s.block } := by
  unfold AeroL.taken AeroL.fill
  dsimp only
  rw [hidx]
  have hlast : ¬idx + 1 = ((s.counted b).block.set idx b.toUInt16).length := by
    rw [List.length_set]
    exact hno
  rw [if_neg hlast]
  split
  · rfl
  · rfl

/-- A soft bit that fills its block. -/
theorem taken_full (decodeSoft : List UInt8 → ℕ → Bool) {idx : ℕ} (hidx : (s.counted b).blockIdx = idx)
    (hcntr : (s.counted b).cntr ≥ 16) (hlast : idx + 1 = s.block.length) :
    s.taken decodeSoft b = { s.counted b with block := s.block.set idx b.toUInt16 }.decodeBlock decodeSoft := by
  unfold AeroL.taken AeroL.fill
  dsimp only
  rw [if_pos hcntr, hidx]
  refine if_pos ?_
  rw [List.length_set]
  exact hlast

/-- The index into the block. -/
theorem blockIdx_eq (hrate : s.rate ≠ .r10500) {f : ℕ} (hcntr : (s.counted b).cntr = f + 16) (hf : f < 2 ^ 64) :
    (s.counted b).blockIdx = f % s.block.length := by
  have hheader : (s.counted b).rate.bitsInHeader = 16 := by
    show s.rate.bitsInHeader = 16
    cases hr : s.rate with
    | r600 | r1200 => rfl
    | r10500 => exact absurd hr hrate
  unfold AeroL.blockIdx
  rw [hcntr, hheader, Int.add_sub_cancel]
  congr 1
  omega

theorem toUInt8_of_toInt {x : UInt8} (h : b.toInt = x.toNat) : b.toUInt16.toUInt8 = x := by
  have hx := x.toNat_lt
  have hb : b.toUInt16.toNat = x.toNat := by
    have hcond := BitVec.toInt_eq_toNat_cond (x := b.toBitVec)
    have hlt := b.toBitVec.isLt
    have hval : b.toBitVec.toInt = x.toNat := h
    have hnat : b.toUInt16.toNat = b.toBitVec.toNat := rfl
    rw [hnat]
    split at hcond <;> omega
  rw [← UInt8.toNat_inj, UInt16.toNat_toUInt8, hb]
  omega

/-! ## The decoder along the stream -/

/-- The delayed bits of block `b` of frame `k`. -/
def frameOut (decodeSoft : List UInt8 → ℕ → Bool) (rate : Rate) (soft : ℕ → UInt8) (k b : ℕ) : List Bool :=
  codecOut decodeSoft rate.delay (softBlock rate soft) (rate.blocks * k + b)

/-- The scrambler's position behind `b` blocks of frame `k`. -/
def positionOf (decodeSoft : List UInt8 → ℕ → Bool) (rate : Rate) (soft : ℕ → UInt8) (k : ℕ) : ℕ → ℕ
  | 0 => 0
  | b + 1 => positionOf decodeSoft rate soft k b + (frameOut decodeSoft rate soft k b).length

/-- `infofield` behind `b` blocks of frame `k`. -/
def fieldOf (decodeSoft : List UInt8 → ℕ → Bool) (rate : Rate) (soft : ℕ → UInt8) (k : ℕ) : ℕ → List UInt8
  | 0 => []
  | b + 1 => fieldOf decodeSoft rate soft k b ++
      packBytes (scramble (positionOf decodeSoft rate soft k b) (frameOut decodeSoft rate soft k b))

/-- **The decoder behind `p` soft bits**, with its last sync at `start` and `c` blocks done. -/
structure Follows (decodeSoft : List UInt8 → ℕ → Bool) (rate : Rate) (soft : ℕ → UInt8) (recv : ℕ → Int16)
    (s : AeroL) (p start : ℕ) (cntr : ℤ) (c : ℕ) : Prop where
  baud : s.rate = rate
  cntr : s.cntr = cntr
  window : Window recv s.preambledetector start p
  block : s.block.length = rate.blockSize
  codec : (s.overlap, s.dl2) = codecState decodeSoft rate.delay (softBlock rate soft) c

/-- Where the last sync before frame `k` was. -/
def lastSync (k : ℕ) : ℕ := if k = 0 then 0 else 1200 * (k - 1) + 32

/-- **In the preamble** of frame `k`, behind `m` of its bits. -/
structure InPreamble (decodeSoft : List UInt8 → ℕ → Bool) (rate : Rate) (soft : ℕ → UInt8) (recv : ℕ → Int16)
    (k m : ℕ) (s : AeroL) : Prop where
  follows : Follows decodeSoft rate soft recv s (1200 * k + m) (lastSync k)
    (if k = 0 then 1000000000 else 1167 + m) (rate.blocks * k)
  position : s.position ≤ 576

/-- **Behind `m` bits of frame `k`**, its preamble among them: the blocks before are done, and the present one is
filled so far. -/
structure InFrame (decodeSoft : List UInt8 → ℕ → Bool) (rate : Rate) (soft : ℕ → UInt8) (recv : ℕ → Int16)
    (k m : ℕ) (s : AeroL) : Prop where
  follows : Follows decodeSoft rate soft recv s (1200 * k + m) (1200 * k + 32) (m - 33)
    (rate.blocks * k + (m - 48) / rate.blockSize)
  position : s.position = positionOf decodeSoft rate soft k ((m - 48) / rate.blockSize)
  infofield : 33 ≤ m → s.infofield = fieldOf decodeSoft rate soft k ((m - 48) / rate.blockSize)
  filled : ∀ j < (m - 48) % rate.blockSize, (s.block.getD j 0).toUInt8 =
    soft (1152 * k + (m - 48) / rate.blockSize * rate.blockSize + interleave rate.cols j)

/-- No preamble is found at a soft bit that does not end one. -/
theorem Window.quiet {start p : ℕ} (hrecv : Received rate frames n soft recv)
    (h : Window recv s.preambledetector start p) (hp : start ≤ p) (hlt : p < 1200 * n)
    (hno : start + 32 ≤ p + 1 → (p - 31) % 1200 ≠ 0) : s.finds (recv p) = false := by
  rw [← Bool.not_eq_true, h.found hp]
  rintro ⟨hstart, hbits⟩
  exact hno hstart (hrecv.alone (p - 31) (by omega) hbits)

theorem fresh_inPreamble (realimag : Bool) (anisuitem lastvalidisuitem : IsuEntry) :
    InPreamble decodeSoft rate soft recv 0 0 (.create rate realimag anisuitem lastvalidisuitem) where
  follows := ⟨rfl, rfl, window_zeros 0, List.length_replicate, rfl⟩
  position := Nat.zero_le _

variable {k m : ℕ}

/-- The index in the block is not the last one in a preamble. -/
theorem InPreamble.taken (hrate : rate ≠ .r10500) (h : InPreamble decodeSoft rate soft recv k m s) (hm : m < 32) :
    ∃ block : List UInt16, block.length = rate.blockSize ∧
      s.taken decodeSoft (recv (1200 * k + m)) = { s.counted (recv (1200 * k + m)) with block := block } := by
  obtain ⟨hprod, hlow, hhigh, -, -, hidle⟩ := Rate.sizes hrate
  have hblock := h.follows.block
  have hcntr := h.follows.cntr
  have hbaud : s.rate ≠ .r10500 := by rw [h.follows.baud]; exact hrate
  -- the counter stands still before the first sync
  obtain ⟨f, hf, hlt, hidx⟩ : ∃ f : ℕ, (s.counted (recv (1200 * k + m))).cntr = f + 16 ∧ f < 2 ^ 64 ∧
      f % rate.blockSize + 1 ≠ rate.blockSize := by
    show ∃ f : ℕ, nextCntr s.cntr = f + 16 ∧ _
    rw [hcntr]
    unfold nextCntr
    by_cases h0 : k = 0
    · refine ⟨1000000000 - 16, ?_, by norm_num, hidle⟩
      rw [if_pos h0, if_neg (by norm_num)]
      norm_num
    · refine ⟨1152 + m, ?_, by omega, ?_⟩
      · rw [if_neg h0, if_pos (by omega)]
        push_cast
        ring
      · rw [← hprod, Nat.mul_add_mod, Nat.mod_eq_of_lt (by omega)]
        omega
  refine ⟨_, ?_, taken_within decodeSoft (blockIdx_eq hbaud hf hlt) (by rw [hblock]; exact hidx)⟩
  split
  · rw [List.length_set, hblock]
  · exact hblock

section

variable (hrate : rate ≠ .r10500) (hrecv : Received rate frames n soft recv) (hk : k < n)

include hrate hrecv hk

/-- **A soft bit of the preamble**, but for its last one. -/
theorem InPreamble.step (h : InPreamble decodeSoft rate soft recv k m s) (hm : m < 31) :
    InPreamble decodeSoft rate soft recv k (m + 1) (s.decodeBit decodeSoft (recv (1200 * k + m))).1 := by
  obtain ⟨block, hblock, htaken⟩ := h.taken hrate (by omega)
  have hbaud : s.rate ≠ .r10500 := by rw [h.follows.baud]; exact hrate
  have hcntr := h.follows.cntr
  have hrange := hrecv.range (1200 * k + m) (by omega)
  have hstart : lastSync k ≤ 1200 * k + m := by
    unfold lastSync
    split <;> omega
  have hno : s.finds (recv (1200 * k + m)) = false := h.follows.window.quiet hrecv hstart (by omega) fun hl => by
    unfold lastSync at hl
    split at hl <;> omega
  have hnext : nextCntr s.cntr = if k = 0 then 1000000000 else 1167 + ((m + 1 : ℕ) : ℤ) := by
    rw [hcntr]
    unfold nextCntr
    by_cases h0 : k = 0
    · rw [if_pos h0, if_pos h0, if_neg (by norm_num)]
    · rw [if_neg h0, if_neg h0, if_pos (by omega)]
      push_cast
      ring
  have hsame := decodeBit_quiet decodeSoft hbaud hrange.1 hno (by rw [hnext]; split <;> omega)
  rw [htaken] at hsame
  refine ⟨⟨hsame.rate.trans h.follows.baud, hsame.cntr.trans hnext, ?_, by rw [hsame.block]; exact hblock, ?_⟩, ?_⟩
  · rw [hsame.detector]
    exact h.follows.window.next hstart hno
  · rw [hsame.overlap, hsame.dl2]
    exact h.follows.codec
  · rw [hsame.position]
    exact h.position

/-- **The last soft bit of the preamble**: the counter starts. -/
theorem InPreamble.sync (h : InPreamble decodeSoft rate soft recv k 31 s) :
    InFrame decodeSoft rate soft recv k 32 (s.decodeBit decodeSoft (recv (1200 * k + 31))).1 := by
  obtain ⟨block, hblock, htaken⟩ := h.taken hrate (by omega)
  have hbaud : s.rate ≠ .r10500 := by rw [h.follows.baud]; exact hrate
  have hrange := hrecv.range (1200 * k + 31) (by omega)
  have hstart : lastSync k ≤ 1200 * k + 31 := by
    unfold lastSync
    split <;> omega
  have hyes : s.finds (recv (1200 * k + 31)) = true := by
    refine (h.follows.window.found hstart).2 ⟨?_, fun j hj => ?_⟩
    · unfold lastSync
      split <;> omega
    · rw [Nat.add_sub_cancel]
      exact hrecv.sync k hk j hj
  have hsame := decodeBit_found decodeSoft hbaud hrange.1 hyes
  rw [htaken] at hsame
  have hzero : (32 - 48) / rate.blockSize = 0 := Nat.zero_div _
  refine ⟨⟨hsame.rate.trans h.follows.baud, hsame.cntr, ?_, by rw [hsame.block]; exact hblock, ?_⟩, ?_,
    fun h33 => by omega, fun j hj => ?_⟩
  · -- the detector starts again
    have hdetector : (s.counted (recv (1200 * k + 31))).preambledetector = List.replicate 32 false := by
      have hlen := h.follows.window.length
      unfold AeroL.finds detectPreamble at hyes
      unfold AeroL.counted detectPreamble
      dsimp only at hyes ⊢
      split at hyes
      · next heq =>
        rw [if_pos heq, List.length_append, List.length_tail, hlen, List.length_singleton]
      · cases hyes
    rw [hsame.detector]
    show Window recv (s.counted (recv (1200 * k + 31))).preambledetector _ _
    rw [hdetector]
    exact window_zeros _
  · rw [hsame.overlap, hsame.dl2, hzero, Nat.add_zero]
    exact h.follows.codec
  · rw [hsame.position, hzero]
    rfl
  · rw [show 32 - 48 = 0 from rfl, Nat.zero_mod] at hj
    exact absurd hj (Nat.not_lt_zero j)

/-- No preamble is found within a frame. -/
theorem InFrame.quiet (h : InFrame decodeSoft rate soft recv k m s) (h32 : 32 ≤ m) (hm : m < 1200) :
    s.finds (recv (1200 * k + m)) = false ∧ nextCntr s.cntr = m - 32 ∧ s.rate ≠ .r10500 := by
  refine ⟨h.follows.window.quiet hrecv (by omega) (by omega) fun hl => by omega, ?_, by rw [h.follows.baud]; exact hrate⟩
  rw [h.follows.cntr]
  unfold nextCntr
  rw [if_pos (by omega)]
  ring

/-- **A header bit.** -/
theorem InFrame.header (h : InFrame decodeSoft rate soft recv k m s) (h32 : 32 ≤ m) (hm : m < 48) :
    InFrame decodeSoft rate soft recv k (m + 1) (s.decodeBit decodeSoft (recv (1200 * k + m))).1 := by
  obtain ⟨hno, hnext, hbaud⟩ := h.quiet hrate hrecv hk h32 (by omega)
  have hrange := hrecv.range (1200 * k + m) (by omega)
  have hsame := decodeBit_quiet decodeSoft hbaud hrange.1 hno (by rw [hnext]; omega)
  have htaken : s.taken decodeSoft (recv (1200 * k + m)) = s.counted (recv (1200 * k + m)) := by
    unfold AeroL.taken
    refine if_neg ?_
    show ¬nextCntr s.cntr ≥ 16
    rw [hnext]
    omega
  rw [htaken] at hsame
  have hzero : m - 48 = 0 ∧ m + 1 - 48 = 0 := by omega
  have hposition := h.position
  have hcodec := h.follows.codec
  rw [hzero.1, Nat.zero_div] at hposition hcodec
  refine ⟨⟨hsame.rate.trans h.follows.baud, ?_, ?_, by rw [hsame.block]; exact h.follows.block, ?_⟩, ?_, fun _ => ?_,
    fun j hj => ?_⟩
  · rw [hsame.cntr]
    show nextCntr s.cntr = _
    rw [hnext]
    push_cast
    ring
  · rw [hsame.detector]
    exact h.follows.window.next (by omega) hno
  · rw [hsame.overlap, hsame.dl2, hzero.2, Nat.zero_div]
    exact hcodec
  · rw [hsame.position, hzero.2, Nat.zero_div]
    exact hposition
  · rw [hsame.infofield, hzero.2, Nat.zero_div]
    show (if nextCntr s.cntr = 0 then [] else s.infofield) = _
    by_cases h0 : m = 32
    · -- the first one clears `infofield`
      rw [if_pos (by rw [hnext, h0]; norm_num)]
      rfl
    · rw [if_neg (by rw [hnext]; omega), h.infofield (by omega), hzero.1, Nat.zero_div]
  · rw [hzero.2, Nat.zero_mod] at hj
    exact absurd hj (Nat.not_lt_zero j)

/-- **A coded bit.** -/
theorem InFrame.coded {f : ℕ} (h : InFrame decodeSoft rate soft recv k (f + 48) s) (hf : f < 1152) :
    InFrame decodeSoft rate soft recv k (f + 48 + 1) (s.decodeBit decodeSoft (recv (1200 * k + (f + 48)))).1 := by
  obtain ⟨hprod, hlow, hhigh, hcols, -, -⟩ := Rate.sizes hrate
  obtain ⟨hno, hnext, hbaud⟩ := h.quiet hrate hrecv hk (by omega) (by omega)
  have hrange := hrecv.range (1200 * k + (f + 48)) (by omega)
  have hsame := decodeBit_quiet decodeSoft hbaud hrange.1 hno (by rw [hnext]; push_cast; omega)
  have hblock := h.follows.block
  have hposition := h.position
  have hcodec := h.follows.codec
  have hinfofield := h.infofield (by omega)
  have hfilled := h.filled
  rw [Nat.add_sub_cancel] at hposition hcodec hinfofield hfilled
  have hcntr : (s.counted (recv (1200 * k + (f + 48)))).cntr = f + 16 := by
    show nextCntr s.cntr = _
    rw [hnext]
    push_cast
    ring
  have hidx : (s.counted (recv (1200 * k + (f + 48)))).blockIdx = f % rate.blockSize := by
    rw [blockIdx_eq hbaud hcntr (by omega), hblock]
  have hclear : (s.counted (recv (1200 * k + (f + 48)))).infofield = s.infofield := by
    show (if nextCntr s.cntr = 0 then [] else s.infofield) = _
    rw [hnext, if_neg (by omega)]
  have hdiv := Nat.div_add_mod f rate.blockSize
  have hmod : f % rate.blockSize < rate.blockSize := Nat.mod_lt _ (by omega)
  -- the bit goes where the interleaver has put its symbol
  have hplaced : ∀ j < f % rate.blockSize + 1,
      ((s.block.set (f % rate.blockSize) (recv (1200 * k + (f + 48))).toUInt16).getD j 0).toUInt8 =
        soft (1152 * k + f / rate.blockSize * rate.blockSize + interleave rate.cols j) := by
    intro j hj
    rw [getD_set _ (by omega)]
    by_cases hlast : f % rate.blockSize = j
    · rw [if_pos hlast, ← hlast]
      apply toUInt8_of_toInt
      rw [show 1200 * k + (f + 48) = 1200 * k + 48 + f by omega]
      exact hrecv.coded k hk f hf
    · rw [if_neg hlast]
      exact hfilled j (by omega)
  have hwindow : Window recv (s.decodeBit decodeSoft (recv (1200 * k + (f + 48)))).1.preambledetector (1200 * k + 32)
      (1200 * k + (f + 48 + 1)) := by
    rw [hsame.detector, taken_detector]
    exact h.follows.window.next (by omega) hno
  have hcntr' : (s.decodeBit decodeSoft (recv (1200 * k + (f + 48)))).1.cntr = ((f + 48 + 1 : ℕ) : ℤ) - 33 := by
    rw [hsame.cntr, (taken_cntr s _).1, hnext]
    push_cast
    ring
  have hbaud' : (s.decodeBit decodeSoft (recv (1200 * k + (f + 48)))).1.rate = rate := by
    rw [hsame.rate, (taken_cntr s _).2, h.follows.baud]
  by_cases hlast : f % rate.blockSize + 1 = rate.blockSize
  · -- the block is full
    have hnextDiv : (f + 48 + 1 - 48) / rate.blockSize = f / rate.blockSize + 1 ∧ (f + 48 + 1 - 48) % rate.blockSize = 0 := by
      have hsum : f + 48 + 1 - 48 = rate.blockSize * (f / rate.blockSize + 1) := by rw [Nat.mul_succ]; omega
      rw [hsum]
      exact ⟨Nat.mul_div_cancel_left _ (by omega), Nat.mul_mod_right _ _⟩
    have htaken := taken_full decodeSoft hidx (by rw [hcntr]; omega) (by rw [hblock]; exact hlast)
    have hbits : deinterleaveBa s.rate.cols (s.block.set (f % rate.blockSize) (recv (1200 * k + (f + 48))).toUInt16) =
        softBlock rate soft (rate.blocks * k + f / rate.blockSize) := by
      rw [h.follows.baud, deinterleave_interleave (1152 * k + f / rate.blockSize * rate.blockSize) (by omega)
        fun j hj => hplaced j (by omega)]
      unfold softBlock
      rw [← hcols, Nat.mul_add, ← Nat.mul_assoc, hprod, Nat.mul_comm rate.blockSize (f / rate.blockSize)]
    rw [htaken] at hsame
    have hout : frameOut decodeSoft rate soft k (f / rate.blockSize) = (s.dl2.update (decodeContinuous decodeSoft s.overlap
        (deinterleaveBa s.rate.cols (s.block.set (f % rate.blockSize) (recv (1200 * k + (f + 48))).toUInt16))).2).2 := by
      unfold frameOut codecOut
      rw [← hcodec, ← hbits]
      rfl
    refine ⟨⟨hbaud', hcntr', hwindow, ?_, ?_⟩, ?_, fun _ => ?_, fun j hj => ?_⟩
    · rw [hsame.block]
      exact List.length_set.trans hblock
    · rw [hsame.overlap, hsame.dl2, hnextDiv.1]
      show _ = (codecStep decodeSoft (codecState decodeSoft rate.delay (softBlock rate soft)
        (rate.blocks * k + f / rate.blockSize)) (softBlock rate soft (rate.blocks * k + f / rate.blockSize))).1
      rw [← hcodec, ← hbits]
      rfl
    · rw [hsame.position, hnextDiv.1, positionOf, ← hposition, hout]
      rfl
    · rw [hsame.infofield, hnextDiv.1, fieldOf, ← hposition, ← hinfofield, ← hclear, hout]
      rfl
    · rw [hnextDiv.2] at hj
      exact absurd hj (Nat.not_lt_zero j)
  · have hnextDiv : (f + 48 + 1 - 48) / rate.blockSize = f / rate.blockSize ∧
        (f + 48 + 1 - 48) % rate.blockSize = f % rate.blockSize + 1 := by
      have hsum : f + 48 + 1 - 48 = rate.blockSize * (f / rate.blockSize) + (f % rate.blockSize + 1) := by omega
      have hless : f % rate.blockSize + 1 < rate.blockSize := by omega
      rw [hsum, Nat.mul_add_div (by omega), Nat.mul_add_mod, Nat.div_eq_of_lt hless, Nat.mod_eq_of_lt hless]
      exact ⟨rfl, rfl⟩
    have htaken := taken_within decodeSoft hidx (by rw [hblock]; exact hlast)
    rw [htaken, if_pos (by rw [hcntr]; omega)] at hsame
    refine ⟨⟨hbaud', hcntr', hwindow, ?_, ?_⟩, ?_, fun _ => ?_, fun j hj => ?_⟩
    · rw [hsame.block]
      exact List.length_set.trans hblock
    · rw [hsame.overlap, hsame.dl2, hnextDiv.1]
      exact hcodec
    · rw [hsame.position, hnextDiv.1]
      exact hposition
    · rw [hsame.infofield, hnextDiv.1, ← hinfofield]
      exact hclear
    · rw [hnextDiv.2] at hj
      rw [hsame.block, hnextDiv.1]
      exact hplaced j hj

end

/-! ## Whole frames -/

/-- Information bits of a frame. -/
theorem Rate.infoBits_blocks (hrate : rate ≠ .r10500) : rate.infoBits * rate.blocks = 576 ∧ 8 ∣ rate.infoBits ∧
    1 ≤ rate.blocks := by
  cases rate with
  | r600 | r1200 => decide
  | r10500 => exact absurd rfl hrate

/-- The blocks of a frame are blocks of the stream. -/
theorem block_lt {b : ℕ} (hk : k < n) (hb : b < rate.blocks) : rate.blocks * k + b < rate.blocks * n :=
  calc rate.blocks * k + b < rate.blocks * k + rate.blocks := by omega
    _ = rate.blocks * (k + 1) := (Nat.mul_succ _ _).symm
    _ ≤ rate.blocks * n := Nat.mul_le_mul_left _ hk

section

variable (hdec : Corrects decodeSoft rate (infoBit frames) soft (rate.blocks * n)) (hk : k < n)

include hdec hk

theorem positionOf_le {b : ℕ} (hb : b ≤ rate.blocks) : positionOf decodeSoft rate soft k b ≤ rate.infoBits * b := by
  induction b with
  | zero => exact Nat.zero_le _
  | succ b ih =>
    have hlen : (frameOut decodeSoft rate soft k b).length ≤ rate.infoBits := by
      have hout := codecOut_length hdec (block_lt hk (show b < rate.blocks by omega))
      unfold frameOut
      rw [hout]
      split <;> omega
    have hbefore := ih (by omega)
    rw [positionOf, Nat.mul_succ]
    omega

variable (hrate : rate ≠ .r10500)

include hrate

/-- **The scrambler stays within a frame.** -/
theorem positionOf_le_frame {b : ℕ} (hb : b ≤ rate.blocks) : positionOf decodeSoft rate soft k b ≤ 576 :=
  calc positionOf decodeSoft rate soft k b ≤ rate.infoBits * b := positionOf_le hdec hk hb
    _ ≤ rate.infoBits * rate.blocks := Nat.mul_le_mul_left _ hb
    _ = 576 := (Rate.infoBits_blocks hrate).1

theorem InFrame.position_le {m : ℕ} (h : InFrame decodeSoft rate soft recv k m s) (hm : m ≤ 1200) : s.position ≤ 576 := by
  obtain ⟨hprod, hlow, -⟩ := Rate.sizes hrate
  rw [h.position]
  apply positionOf_le_frame hdec hk hrate
  rw [← Nat.mul_div_cancel_left rate.blocks (show 0 < rate.blockSize by omega), hprod]
  exact Nat.div_le_div_right (by omega)

/-- **At the end of a frame** the next preamble begins. -/
theorem InFrame.done (h : InFrame decodeSoft rate soft recv k 1200 s) : InPreamble decodeSoft rate soft recv (k + 1) 0 s := by
  obtain ⟨hprod, hlow, -⟩ := Rate.sizes hrate
  have hdiv : (1200 - 48) / rate.blockSize = rate.blocks := by
    rw [show 1200 - 48 = rate.blockSize * rate.blocks by omega]
    exact Nat.mul_div_cancel_left _ (by omega)
  have hcodec := h.follows.codec
  rw [hdiv] at hcodec
  refine ⟨⟨h.follows.baud, ?_, ?_, h.follows.block, ?_⟩, h.position_le hdec hk hrate le_rfl⟩
  · rw [h.follows.cntr, if_neg (Nat.succ_ne_zero k)]
    norm_num
  · have hwindow := h.follows.window
    unfold lastSync
    rwa [if_neg (Nat.succ_ne_zero k), Nat.add_sub_cancel, Nat.add_zero, Nat.mul_succ]
  · rw [hcodec, Nat.mul_succ]

end

/-! ## The bytes of a frame -/

/-- Eight bits make their byte. -/
theorem packByte_testBit (x : UInt8) : packByte ((List.range 8).map fun j => x.toNat.testBit j) = x := by
  have hall : ∀ v < 256, packByte ((List.range 8).map fun j => v.testBit j) = UInt8.ofNat v := by decide +kernel
  rw [hall x.toNat x.toNat_lt, UInt8.ofNat_toNat]

/-- Bytes are packed from their bits. -/
theorem packBytes_frameBit (frame : List UInt8) (start count : ℕ) :
    packBytes ((List.range (8 * count)).map fun j => frameBit frame (8 * start + j)) =
      (List.range count).map fun q => frame.getD (start + q) 0 := by
  unfold packBytes
  rw [List.length_map, List.length_range, Nat.mul_div_cancel_left _ (by norm_num)]
  apply List.map_congr_left
  intro q hq
  rw [List.mem_range] at hq
  have hbits : (((List.range (8 * count)).map fun j => frameBit frame (8 * start + j)).drop (8 * q)).take 8 =
      (List.range 8).map fun j => (frame.getD (start + q) 0).toNat.testBit j := by
    apply List.ext_getElem
    · simp only [List.length_take, List.length_drop, List.length_map, List.length_range]
      omega
    · intro j h1 h2
      rw [List.length_map, List.length_range] at h2
      rw [List.getElem_take, List.getElem_drop, List.getElem_map, List.getElem_map, List.getElem_range, List.getElem_range]
      unfold frameBit
      rw [show 8 * start + (8 * q + j) = 8 * (start + q) + j by omega, Nat.mul_add_div (by norm_num), Nat.mul_add_mod,
        Nat.div_eq_of_lt h2, Nat.mod_eq_of_lt h2, Nat.add_zero]
  rw [hbits, packByte_testBit]

/-- The scrambler takes off what it has put on. -/
theorem scramble_infoBit {i start len : ℕ} (hlen : start + len ≤ 576) :
    scramble start ((List.range len).map fun j => infoBit frames (576 * i + (start + j))) =
      (List.range len).map fun j => frameBit (frames i) (start + j) := by
  unfold scramble
  apply List.ext_getElem
  · rw [List.length_mapIdx, List.length_map, List.length_map]
  · intro j h1 h2
    rw [List.length_map, List.length_range] at h2
    rw [List.getElem_mapIdx, List.getElem_map, List.getElem_map, List.getElem_range]
    unfold infoBit
    rw [Nat.mul_add_div (by norm_num), Nat.mul_add_mod, Nat.div_eq_of_lt (by omega), Nat.mod_eq_of_lt (by omega), Nat.add_zero,
      Bool.xor_assoc, Bool.xor_self, Bool.xor_false]

section

variable {i : ℕ} (hrate : rate ≠ .r10500) (hdec : Corrects decodeSoft rate (infoBit frames) soft (rate.blocks * n)) (hi : 1 ≤ i)
  (hn : i + 1 < n)

include hrate hdec hi hn

/-- What comes out in frame `i + 1` was sent in frame `i`. -/
theorem frameOut_eq {b : ℕ} (hb : b < rate.blocks) : frameOut decodeSoft rate soft (i + 1) b =
    (List.range rate.infoBits).map fun j => infoBit frames (576 * i + (rate.infoBits * b + j)) := by
  obtain ⟨hprod, -, hone⟩ := Rate.infoBits_blocks hrate
  obtain ⟨-, -, -, -, hshift, -⟩ := Rate.sizes hrate
  have hblock : rate.blocks * (i + 1) + b = rate.blocks * i + b + rate.shift := by
    rw [hshift, Nat.mul_succ]
    omega
  have hfirst : 1 ≤ rate.blocks * i + b :=
    calc 1 = 1 * 1 := rfl
      _ ≤ rate.blocks * i := Nat.mul_le_mul hone hi
      _ ≤ rate.blocks * i + b := Nat.le_add_right _ _
  have hlast := block_lt hn hb
  unfold frameOut
  rw [hblock] at hlast ⊢
  rw [codecOut_eq hdec hfirst hlast]
  apply List.map_congr_left
  intro j _
  rw [Nat.mul_add, ← Nat.mul_assoc, hprod, Nat.add_assoc]

theorem positionOf_eq {b : ℕ} (hb : b ≤ rate.blocks) : positionOf decodeSoft rate soft (i + 1) b = rate.infoBits * b := by
  induction b with
  | zero => rfl
  | succ b ih =>
    rw [positionOf, ih (by omega), frameOut_eq hrate hdec hi hn (by omega), List.length_map, List.length_range, Nat.mul_succ]

/-- `infofield` behind `b` blocks of frame `i + 1`: the bytes of frame `i` up to there. -/
theorem fieldOf_eq {b : ℕ} (hb : b ≤ rate.blocks) : fieldOf decodeSoft rate soft (i + 1) b =
    (List.range (rate.infoBits / 8 * b)).map fun q => (frames i).getD q 0 := by
  obtain ⟨hprod, hbytes, -⟩ := Rate.infoBits_blocks hrate
  have height : 8 * (rate.infoBits / 8) = rate.infoBits := Nat.mul_div_cancel' hbytes
  induction b with
  | zero => rfl
  | succ b ih =>
    have hend : rate.infoBits * b + rate.infoBits ≤ 576 := by
      rw [← hprod, ← Nat.mul_succ]
      exact Nat.mul_le_mul_left _ hb
    have hstart : rate.infoBits * b = 8 * (rate.infoBits / 8 * b) := by rw [← Nat.mul_assoc, height]
    have hpack := packBytes_frameBit (frames i) (rate.infoBits / 8 * b) (rate.infoBits / 8)
    rw [height, ← hstart] at hpack
    rw [fieldOf, ih (by omega), positionOf_eq hrate hdec hi hn (by omega), frameOut_eq hrate hdec hi hn (by omega),
      scramble_infoBit hend, hpack, Nat.mul_succ, List.range_add, List.map_append, List.map_map]
    rfl

/-- **`infofield` at the end of frame `i + 1` is frame `i`.** -/
theorem fieldOf_frame (hsize : (frames i).length = 72) : fieldOf decodeSoft rate soft (i + 1) rate.blocks = frames i := by
  obtain ⟨hprod, hbytes, -⟩ := Rate.infoBits_blocks hrate
  have hcount : rate.infoBits / 8 * rate.blocks = (frames i).length := by
    have height : 8 * (rate.infoBits / 8 * rate.blocks) = 576 := by rw [← Nat.mul_assoc, Nat.mul_div_cancel' hbytes, hprod]
    omega
  rw [fieldOf_eq hrate hdec hi hn le_rfl, hcount]
  apply List.ext_getElem
  · rw [List.length_map, List.length_range]
  · intro q h1 h2
    rw [List.getElem_map, List.getElem_range, List.getD_eq_getElem _ _ h2]

end

/-! ## The run -/

/-- The decoder behind `p` soft bits of the stream. -/
def behind (decodeSoft : List UInt8 → ℕ → Bool) (recv : ℕ → Int16) (s : AeroL) (p : ℕ) : AeroL :=
  s.run decodeSoft ((List.range p).map fun q => .softBit (recv q))

theorem behind_succ (decodeSoft : List UInt8 → ℕ → Bool) (recv : ℕ → Int16) (s : AeroL) (p : ℕ) :
    behind decodeSoft recv s (p + 1) = ((behind decodeSoft recv s p).decodeBit decodeSoft (recv p)).1 := by
  unfold behind AeroL.run
  rw [List.range_succ, List.map_append, List.foldl_append]
  rfl

section

variable (hrate : rate ≠ .r10500) (hrecv : Received rate frames n soft recv)
  (hdec : Corrects decodeSoft rate (infoBit frames) soft (rate.blocks * n))

include hrate hrecv

/-- The preamble of a frame, bit by bit. -/
theorem behind_inPreamble (hk : k < n) (h : InPreamble decodeSoft rate soft recv k 0 (behind decodeSoft recv s (1200 * k)))
    {m : ℕ} (hm : m ≤ 31) : InPreamble decodeSoft rate soft recv k m (behind decodeSoft recv s (1200 * k + m)) := by
  induction m with
  | zero => exact h
  | succ m ih =>
    rw [← Nat.add_assoc, behind_succ]
    exact (ih (by omega)).step hrate hrecv hk (by omega)

/-- The rest of the frame. -/
theorem behind_inFrame (hk : k < n) (h : InPreamble decodeSoft rate soft recv k 0 (behind decodeSoft recv s (1200 * k)))
    {m : ℕ} (h32 : 32 ≤ m) (hm : m ≤ 1200) :
    InFrame decodeSoft rate soft recv k m (behind decodeSoft recv s (1200 * k + m)) := by
  induction m, h32 using Nat.le_induction with
  | base =>
    rw [show 1200 * k + 32 = 1200 * k + 31 + 1 from rfl, behind_succ]
    exact (behind_inPreamble hrate hrecv hk h le_rfl).sync hrate hrecv hk
  | succ m h32 ih =>
    have hbefore := ih (by omega)
    rw [← Nat.add_assoc, behind_succ]
    by_cases hheader : m < 48
    · exact hbefore.header hrate hrecv hk h32 hheader
    · obtain ⟨f, rfl⟩ : ∃ f, m = f + 48 := ⟨m - 48, by omega⟩
      exact hbefore.coded hrate hrecv hk (by omega)

include hdec

/-- **Every frame starts in its preamble.** -/
theorem behind_start (realimag : Bool) (anisuitem lastvalidisuitem : IsuEntry) (hk : k ≤ n) :
    InPreamble decodeSoft rate soft recv k 0
      (behind decodeSoft recv (.create rate realimag anisuitem lastvalidisuitem) (1200 * k)) := by
  induction k with
  | zero => exact fresh_inPreamble realimag anisuitem lastvalidisuitem
  | succ k ih =>
    have hframe := behind_inFrame hrate hrecv hk (ih (by omega)) (show 32 ≤ 1200 by norm_num) le_rfl
    exact hframe.done hdec hk hrate

/-- The scrambler's position anywhere in the stream. -/
theorem behind_position (realimag : Bool) (anisuitem lastvalidisuitem : IsuEntry) {p : ℕ} (hp : p ≤ 1200 * n) :
    (behind decodeSoft recv (.create rate realimag anisuitem lastvalidisuitem) p).position ≤ 576 := by
  have hsplit := Nat.div_add_mod p 1200
  have hmod : p % 1200 < 1200 := Nat.mod_lt _ (by norm_num)
  have hstart := behind_start hrate hrecv hdec realimag anisuitem lastvalidisuitem (show p / 1200 ≤ n by omega)
  rw [← hsplit]
  by_cases hzero : p % 1200 = 0
  · rw [hzero]
    exact hstart.position
  have hk : p / 1200 < n := by omega
  by_cases hpreamble : p % 1200 ≤ 31
  · exact (behind_inPreamble hrate hrecv hk hstart hpreamble).position
  · exact (behind_inFrame hrate hrecv hk hstart (by omega) hmod.le).position_le hdec hk hrate hmod.le

end

/-- The six signal units of a frame. -/
def sixUnits (frame : List UInt8) : List (List UInt8) := (List.range 6).map fun j => (frame.drop (j * 12)).take 12

/-- The units of a filled `infofield`. -/
theorem signalUnits_frame {frame : List UInt8} (hfield : s.infofield = frame) (hsize : frame.length = 72) :
    s.signalUnits = sixUnits frame := by
  unfold AeroL.signalUnits sixUnits AeroL.signalUnit
  rw [hfield, hsize]

/-- **The last soft bit of frame `i + 1`**: the units of frame `i` are checked, and the frame is given out. -/
theorem lastBit_units {i : ℕ} (hrate : rate ≠ .r10500) (hrecv : Received rate frames n soft recv)
    (hdec : Corrects decodeSoft rate (infoBit frames) soft (rate.blocks * n)) (hi : 1 ≤ i) (hn : i + 1 < n)
    (h : InFrame decodeSoft rate soft recv (i + 1) 1199 s) :
    (s.decodeBit decodeSoft (recv (1200 * (i + 1) + 1199))).1.infofield = frames i ∧
      (s.decodeBit decodeSoft (recv (1200 * (i + 1) + 1199))).2 =
        ((s.intake decodeSoft (recv (1200 * (i + 1) + 1199))).1.checkSus (sixUnits (frames i))).2 ++
          [.decoded (frames i)] := by
  obtain ⟨hprod, hlow, -⟩ := Rate.sizes hrate
  obtain ⟨hno, hnext, hbaud⟩ := h.quiet hrate hrecv hn (by norm_num) (by norm_num)
  have hrange := hrecv.range (1200 * (i + 1) + 1199) (by omega)
  have hsize := hrecv.size i (by omega)
  have hfull : 1152 / rate.blockSize = rate.blocks := by
    rw [← hprod]
    exact Nat.mul_div_cancel_left _ (by omega)
  -- the field is the one that the frame is left with
  have hframe := h.coded (f := 1151) hrate hrecv hn (by norm_num)
  have hafter : (s.decodeBit decodeSoft (recv (1200 * (i + 1) + 1199))).1.infofield = frames i := by
    rw [hframe.infofield (by norm_num)]
    show fieldOf decodeSoft rate soft (i + 1) (1152 / rate.blockSize) = _
    rw [hfull, fieldOf_frame hrate hdec hi hn hsize]
  have hsame := decodeBit_quiet decodeSoft hbaud hrange.1 hno (by rw [hnext]; norm_num)
  have hintake : s.intake decodeSoft (recv (1200 * (i + 1) + 1199)) =
      (s.taken decodeSoft (recv (1200 * (i + 1) + 1199)), false) := by
    rw [intake_eq hbaud, hno]
    rfl
  have hcntr := (@taken_cntr decodeSoft s (recv (1200 * (i + 1) + 1199))).1
  have hrate' := (@taken_cntr decodeSoft s (recv (1200 * (i + 1) + 1199))).2
  rw [hnext] at hcntr
  have hlen : (s.taken decodeSoft (recv (1200 * (i + 1) + 1199))).block.length = rate.blockSize := by
    rw [← hsame.block]
    exact hframe.follows.block
  have hdone : (s.taken decodeSoft (recv (1200 * (i + 1) + 1199))).frameDone = true := by
    have hheader : (s.taken decodeSoft (recv (1200 * (i + 1) + 1199))).rate.bitsInHeader = 16 ∧
        (s.taken decodeSoft (recv (1200 * (i + 1) + 1199))).rate.numberOfBits = 1152 := by
      rw [hrate', h.follows.baud]
      cases rate with
      | r600 | r1200 => exact ⟨rfl, rfl⟩
      | r10500 => exact absurd rfl hrate
    have hlast : 1151 % rate.blockSize + 1 = rate.blockSize := by
      have hpred : 1151 = rate.blockSize * (rate.blocks - 1) + (rate.blockSize - 1) := by
        have hone := (Rate.infoBits_blocks hrate).2.2
        obtain ⟨q, hq⟩ : ∃ q, rate.blocks = q + 1 := ⟨rate.blocks - 1, by omega⟩
        rw [hq, Nat.mul_succ] at hprod
        rw [hq, Nat.add_sub_cancel]
        omega
      rw [hpred, Nat.mul_add_mod, Nat.mod_eq_of_lt (by omega)]
      omega
    unfold AeroL.frameDone AeroL.blockIdx
    rw [hcntr, hheader.1, hheader.2, hlen]
    norm_num
    exact hlast
  have hfield : (s.taken decodeSoft (recv (1200 * (i + 1) + 1199))).infofield = frames i := by rw [← hsame.infofield, hafter]
  refine ⟨hafter, ?_⟩
  unfold AeroL.decodeBit
  rw [if_neg (by omega), hintake]
  dsimp only
  rw [hdone, hcntr, if_pos (by decide), if_neg Bool.false_ne_true, List.append_nil]
  unfold AeroL.endFrame
  dsimp only
  rw [signalUnits_frame hfield hsize, hfield, if_neg]
  rw [List.isEmpty_iff, ← List.length_eq_zero_iff, hsize]
  norm_num

/-- **Frames are recovered.** At 600 and 1200 baud, `infofield` is frame `i` at the end of frame `i + 1`, whose last
soft bit checks the six signal units of frame `i`; the scrambler never gets past bit 576 of its 5000. At 10500
baud the bits of a block, which is a frame, come out two blocks later. -/
theorem frame_recovered (hrate : rate ≠ .r10500) (hrecv : Received rate frames n soft recv)
    (hdec : Corrects decodeSoft rate (infoBit frames) soft (rate.blocks * n)) (realimag : Bool)
    (anisuitem lastvalidisuitem : IsuEntry) :
    (∀ i, 1 ≤ i → i + 1 < n →
      (behind decodeSoft recv (.create rate realimag anisuitem lastvalidisuitem) (1200 * (i + 2))).infofield = frames i ∧
        ∃ s, s = behind decodeSoft recv (.create rate realimag anisuitem lastvalidisuitem) (1200 * (i + 1) + 1199) ∧
          (s.decodeBit decodeSoft (recv (1200 * (i + 1) + 1199))).2 =
            ((s.intake decodeSoft (recv (1200 * (i + 1) + 1199))).1.checkSus (sixUnits (frames i))).2 ++
              [.decoded (frames i)]) ∧
      (∀ p ≤ 1200 * n,
        (behind decodeSoft recv (.create rate realimag anisuitem lastvalidisuitem) p).position ≤ 576 ∧
          576 < preState.length) ∧
      ∀ decodeSoft' info soft' blocks, Corrects decodeSoft' .r10500 info soft' blocks →
        ∀ c, 1 ≤ c → c + 2 < blocks → codecOut decodeSoft' Rate.r10500.delay (softBlock .r10500 soft') (c + 2) =
          (List.range 2496).map fun j => info (2496 * c + j) := by
  refine ⟨fun i hi hn => ?_, fun p hp => ⟨behind_position hrate hrecv hdec _ _ _ hp, ?_⟩,
    fun decodeSoft' info soft' blocks h c h1 hc => codecOut_eq h h1 hc⟩
  · have hstart := behind_start hrate hrecv hdec realimag anisuitem lastvalidisuitem (show i + 1 ≤ n by omega)
    have hframe := behind_inFrame hrate hrecv hn hstart (show 32 ≤ 1199 by norm_num) (by norm_num)
    obtain ⟨hfield, hunits⟩ := lastBit_units hrate hrecv hdec hi hn hframe
    refine ⟨?_, _, rfl, hunits⟩
    rw [show 1200 * (i + 2) = 1200 * (i + 1) + 1199 + 1 by omega, behind_succ]
    exact hfield
  · have hlen : ∀ k state, (scramblerBits k state).length = k := by
      intro k
      induction k with
      | zero => exact fun _ => rfl
      | succ k ih => exact fun state => by rw [scramblerBits, List.length_cons, ih]
    unfold preState
    rw [hlen]
    norm_num

/-- A frame that the scrambler turns into zeros. -/
def scramblerFrame : List UInt8 := packBytes (preState.take 576)

/-- What is received of it: the preamble, and zeros. -/
def quietSoft (p : ℕ) : Int16 := if p % 1200 < 32 ∧ preamble.getD (p % 1200) false then 255 else 0

theorem testBit_packByte {bits : List Bool} (hlen : bits.length = 8) {j : ℕ} (hj : j < 8) :
    (packByte bits).toNat.testBit j = bits.getD j false := by
  obtain ⟨b0, b1, b2, b3, b4, b5, b6, b7, rfl⟩ : ∃ b0 b1 b2 b3 b4 b5 b6 b7, bits = [b0, b1, b2, b3, b4, b5, b6, b7] := by
    match bits, hlen with
    | [b0, b1, b2, b3, b4, b5, b6, b7], _ => exact ⟨b0, b1, b2, b3, b4, b5, b6, b7, rfl⟩
  have hall : ∀ b0 b1 b2 b3 b4 b5 b6 b7 : Bool, ∀ j < 8, (packByte [b0, b1, b2, b3, b4, b5, b6, b7]).toNat.testBit j =
      [b0, b1, b2, b3, b4, b5, b6, b7].getD j false := by decide +kernel
  exact hall b0 b1 b2 b3 b4 b5 b6 b7 j hj

/-- The bits of packed bytes. -/
theorem frameBit_packBytes {bits : List Bool} {m : ℕ} (hm : m < 8 * (bits.length / 8)) :
    frameBit (packBytes bits) m = bits.getD m false := by
  have hbyte : m / 8 < bits.length / 8 := by omega
  have hlen : ((bits.drop (8 * (m / 8))).take 8).length = 8 := by
    rw [List.length_take, List.length_drop]
    omega
  have hsum : 8 * (m / 8) + m % 8 = m := Nat.div_add_mod m 8
  unfold frameBit packBytes
  rw [List.getD_eq_getElem _ _ (by simpa using hbyte), List.getElem_map, List.getElem_range,
    testBit_packByte hlen (Nat.mod_lt m (by norm_num)), List.getD_eq_getElem?_getD, List.getElem?_take_of_lt (Nat.mod_lt m (by norm_num)),
    List.getElem?_drop, hsum, List.getD_eq_getElem?_getD]

theorem preState_size : preState.length = 5000 := by
  have hlen : ∀ k state, (scramblerBits k state).length = k := by
    intro k
    induction k with
    | zero => exact fun _ => rfl
    | succ k ih => exact fun state => by rw [scramblerBits, List.length_cons, ih]
  exact hlen _ _

theorem scramblerFrame_info (t : ℕ) : infoBit (fun _ => scramblerFrame) t = false := by
  have hlt : t % 576 < 576 := Nat.mod_lt _ (by norm_num)
  have hlen : (preState.take 576).length = 576 := by rw [List.length_take, preState_size]; norm_num
  have hbit : frameBit scramblerFrame (t % 576) = preState.getD (t % 576) false := by
    rw [scramblerFrame, frameBit_packBytes (by rw [hlen]; exact hlt), List.getD_eq_getElem?_getD, List.getElem?_take_of_lt hlt,
      List.getD_eq_getElem?_getD]
  rw [infoBit, hbit, Bool.xor_self]

theorem codedBit_zero (k : ℕ) : codedBit (fun _ => false) k = false := by
  have htapped : ∀ poly t, tapped poly (fun _ => false) t = false := fun poly t => by
    unfold tapped
    simp
  unfold codedBit
  split <;> exact htapped _ _

theorem hardBit_quietSoft (p : ℕ) :
    hardBit (quietSoft p) = (decide (p % 1200 < 32) && preamble.getD (p % 1200) false) := by
  unfold hardBit quietSoft
  split
  · next h =>
    rw [decide_eq_true h.1, h.2]
    decide
  · next h =>
    rw [eq_comm, show decide ((0 : Int16).toInt % 256 ≥ 128) = false by decide, Bool.and_eq_false_iff]
    by_cases hp : p % 1200 < 32
    · exact .inr (by simpa [hp] using h)
    · exact .inl (decide_eq_false hp)

/-- Three such frames are a stream. -/
theorem quietSoft_received : Received .r600 (fun _ => scramblerFrame) 3 (fun _ => 0) quietSoft where
  size := fun _ _ => by decide +kernel
  range := fun p _ => by
    unfold quietSoft
    split <;> decide
  signs := fun t _ => by
    rw [funext scramblerFrame_info, codedBit_zero]
    rfl
  sync := fun k _ m hm => by
    rw [hardBit_quietSoft, Nat.mul_add_mod, Nat.mod_eq_of_lt (by omega), decide_eq_true hm, Bool.true_and]
  coded := fun k _ m hm => by
    unfold quietSoft
    rw [if_neg]
    · rfl
    · rw [Nat.add_assoc, Nat.mul_add_mod, Nat.mod_eq_of_lt (by omega)]
      omega
  alone := fun p _ hbits => by
    by_contra hne
    have hlt : p % 1200 < 1200 := Nat.mod_lt _ (by norm_num)
    have hfirst := hbits 0 (by norm_num)
    rw [hardBit_quietSoft, preamble_facts.2, Nat.add_zero, Bool.and_eq_true, decide_eq_true_eq] at hfirst
    -- the preamble does not start within itself
    have hshift : ∀ r < 32, r ≠ 0 → ∃ m < 32, (decide (r + m < 32) && preamble.getD (r + m) false) ≠ preamble.getD m false := by
      decide +kernel
    obtain ⟨m, hm, hdiff⟩ := hshift (p % 1200) hfirst.1 hne
    have hbit := hbits m hm
    have hsum : (p + m) % 1200 = p % 1200 + m := by omega
    rw [hardBit_quietSoft, hsum] at hbit
    exact hdiff hbit

/-- The second frame is recovered. -/
theorem quietSoft_recovers :
    (behind (fun _ _ => false) quietSoft (.create .r600 false (SU.entry fun _ => 0) (SU.entry fun _ => 0)) 3600).infofield =
      scramblerFrame := by
  have hdec : Corrects (fun _ _ => false) .r600 (infoBit fun _ => scramblerFrame) (fun _ => 0) (Rate.r600.blocks * 3) :=
    fun c _ _ k _ _ => (scramblerFrame_info _).symm
  exact ((frame_recovered (by decide) quietSoft_received hdec false _ _).1 1 le_rfl (by norm_num)).1

end InmarsatSniffer.Aero
