import Mathlib
import InmarsatSniffer.Spec.AeroL

/-!
# What is sent on the P channel

Frames of 72 bytes are scrambled, each from the start of the sequence; their bits go through the
convolutional encoder as one stream, are interleaved block by block, and are sent behind a
preamble and a header. The decoder gets a soft bit for each bit sent.
-/

namespace InmarsatSniffer.Aero

/-- The bits that a block carries. -/
def Rate.infoBits (rate : Rate) : ℕ := rate.cols * 32

/-- The symbols of a block. -/
def Rate.blockSize (rate : Rate) : ℕ := rate.cols * 64

/-! ## The codec and the delay line -/

/-- `Decode_Continuous` and `dl2` on a block behind the deinterleaver: the overlap and the line after it, and
the delayed bits. -/
def codecStep (decodeSoft : List UInt8 → ℕ → Bool) (st : List UInt8 × DelayLine) (block : List UInt8) :
    (List UInt8 × DelayLine) × List Bool :=
  let r := decodeContinuous decodeSoft st.1 block
  let d := st.2.update r.2
  ((r.1, d.1), d.2)

/-- The overlap and the line before block `c`. -/
def codecState (decodeSoft : List UInt8 → ℕ → Bool) (delay : ℕ) (blocks : ℕ → List UInt8) : ℕ → List UInt8 × DelayLine
  | 0 => ([], .create delay)
  | c + 1 => (codecStep decodeSoft (codecState decodeSoft delay blocks c) (blocks c)).1

/-- The delayed bits of block `c`. -/
def codecOut (decodeSoft : List UInt8 → ℕ → Bool) (delay : ℕ) (blocks : ℕ → List UInt8) (c : ℕ) : List Bool :=
  (codecStep decodeSoft (codecState decodeSoft delay blocks c) (blocks c)).2

/-- Block `c` of the soft symbols of the encoded stream. -/
def softBlock (rate : Rate) (soft : ℕ → UInt8) (c : ℕ) : List UInt8 :=
  (List.range rate.blockSize).map fun i => soft (rate.blockSize * c + i)

/-- The symbols that `Decode_Continuous` passes to the Viterbi decoder for block `c`, behind the first
one: what was kept of the block before, the block, and the padding. -/
def viterbiSymbols (rate : Rate) (soft : ℕ → UInt8) (c : ℕ) : List UInt8 :=
  ((List.range overlapLength).map fun i => soft (rate.blockSize * c - overlapLength + i)) ++ softBlock rate soft c ++
    List.replicate paddingLength 128

/-- **What is relied on of the Viterbi decoder**: for these symbols of the first `n` blocks, it returns the
bits that were sent at the indices that `Decode_Continuous` keeps. The first symbol of the overlap belongs
to the bit 31 before the block. -/
def Corrects (decodeSoft : List UInt8 → ℕ → Bool) (rate : Rate) (info : ℕ → Bool) (soft : ℕ → UInt8) (n : ℕ) : Prop :=
  ∀ c, 1 ≤ c → c < n → ∀ k, paddingLength + 1 ≤ k → k < paddingLength + 1 + rate.infoBits →
    decodeSoft (viterbiSymbols rate soft c) k = info (rate.infoBits * c + k - 31)

/-! ## The sender -/

/-- Bit `m` of a frame, the lowest bit of a byte first. -/
def frameBit (frame : List UInt8) (m : ℕ) : Bool := (frame.getD (m / 8) 0).toNat.testBit (m % 8)

/-- The bits of the scrambled frames. -/
def infoBit (frames : ℕ → List UInt8) (t : ℕ) : Bool :=
  xor (frameBit (frames (t / 576)) (t % 576)) (preState.getD (t % 576) false)

/-- An output of the encoder for bit `t`: the sum of the bits that `poly` taps. -/
def tapped (poly : ℕ) (info : ℕ → Bool) (t : ℕ) : Bool :=
  (List.range 7).foldl (fun acc i => if poly.testBit i ∧ i ≤ t then xor acc (info (t - i)) else acc) false

/-- The encoded stream, `poly[0] = 109` before `poly[1] = 79`. -/
def codedBit (info : ℕ → Bool) (k : ℕ) : Bool := if k % 2 = 0 then tapped 109 info (k / 2) else tapped 79 info (k / 2)

/-- `interleaverowpermute`. -/
def interleaveRowPermute : List ℕ := (List.range 64).foldl (fun table i => table.set (i * 27 % 64) i) (List.replicate 64 0)

/-- `AeroLInterleaver::interleave`: the index of the symbol that is sent at place `k` of a block. -/
def interleave (cols k : ℕ) : ℕ := interleaveRowPermute.getD (k / cols) 0 + 64 * (k % cols)

/-- The hard decision of a soft bit. -/
def hardBit (softBit : Int16) : Bool := softBit.toInt % 256 ≥ 128

/-- **The stream of `n` frames** as it is received: `soft` are the soft symbols of the encoded stream
before the interleaver, `recv` the soft bits in the order in which they come. -/
structure Received (rate : Rate) (frames : ℕ → List UInt8) (n : ℕ) (soft : ℕ → UInt8) (recv : ℕ → Int16) : Prop where
  size : ∀ k < n, (frames k).length = 72
  range : ∀ p < 1200 * n, 0 ≤ (recv p).toInt ∧ (recv p).toInt ≤ 255
  /-- The soft symbols have the signs of the encoded bits. -/
  signs : ∀ t < 1152 * n, codedBit (infoBit frames) t = decide (128 ≤ (soft t).toNat)
  sync : ∀ k < n, ∀ m < 32, hardBit (recv (1200 * k + m)) = preamble.getD m false
  /-- Behind 16 header bits, the interleaved blocks. -/
  coded : ∀ k < n, ∀ m < 1152, (recv (1200 * k + 48 + m)).toInt =
    (soft (1152 * k + m / rate.blockSize * rate.blockSize + interleave rate.cols (m % rate.blockSize))).toNat
  /-- The preamble occurs nowhere else. -/
  alone : ∀ p, p + 32 ≤ 1200 * n → (∀ m < 32, hardBit (recv (p + m)) = preamble.getD m false) → p % 1200 = 0

end InmarsatSniffer.Aero
