import Mathlib
import InmarsatSniffer.Lib.LastInputs

/-!
# USB demodulation by a Hilbert filter

`HilbertUSB` of the demodulators, with a folded filter, and the filter of `zmq_audio.c`, with one
multiplication for each tap. The arithmetic is exact: samples and taps are of a field `K`. Both design
their taps by one formula, which is of real numbers.
-/

namespace InmarsatSniffer.Usb

open LastInputs

/-- `TAPS`, `HILBERT_TAPS`. -/
abbrev taps : ℕ := 125

/-- `DELAY`, `DELAY_SAMPLES`. -/
abbrev delay : ℕ := (taps - 1) / 2

/-- `PAIRS`. -/
abbrev pairs : ℕ := 31

/-! ## The design -/

/-- `tmp` of `design` and `design_hilbert`. -/
noncomputable def kernel (n : ℕ) : ℝ :=
  if n = taps / 2 then 0 else (1 - Real.cos (Real.pi * ((n : ℝ) - 62))) / (Real.pi * ((n : ℝ) - 62))

/-- `norm`, `gain`: the root of `sumsq`. -/
noncomputable def gain : ℝ := √((List.range taps).foldl (fun sumsq n => sumsq + kernel n * kernel n) 0)

variable {K : Type*} [Field K]

/-- `HilbertUSB::design`: the coefficients of the pairs. -/
def design (tmp : ℕ → K) (norm : K) (p : ℕ) : K :=
  let left := 2 * p + 1
  tmp (taps - 1 - left) / norm

/-- `design_hilbert`: the taps. -/
def designHilbert (tmp : ℕ → K) (gain : K) (i : ℕ) : K := tmp (taps - i - 1) / gain

/-! ## `HilbertUSB` -/

/-- The history and the delay buffer of `HilbertUSB`. -/
structure HilbertUSB (K : Type*) where
  hist : RingBuf K
  dbuf : RingBuf K

/-- `HilbertUSB::reset`. -/
def HilbertUSB.reset (K : Type*) [Field K] : HilbertUSB K := ⟨.zeros K taps, .zeros K (delay + 1)⟩

/-- `HilbertUSB::hilbert_step`. -/
def HilbertUSB.hilbertStep (c : ℕ → K) (s : HilbertUSB K) (im : K) : HilbertUSB K × K :=
  let hist := s.hist.push taps im
  ({ s with hist := hist }, (List.range pairs).foldl (fun sum p =>
    let leftIdx := hist.idx + (2 * p + 1)
    let rightIdx := hist.idx + (taps - 2 - 2 * p)
    let leftIdx := if leftIdx ≥ taps then leftIdx - taps else leftIdx
    let rightIdx := if rightIdx ≥ taps then rightIdx - taps else rightIdx
    sum + c p * (hist.buf.getD leftIdx 0 - hist.buf.getD rightIdx 0)) 0)

/-- `HilbertUSB::delay_step`. -/
def HilbertUSB.delayStep (s : HilbertUSB K) (re : K) : HilbertUSB K × K :=
  let dbuf := s.dbuf.push (delay + 1) re
  ({ s with dbuf := dbuf }, dbuf.buf.getD dbuf.idx 0)

/-- A sample as `process` takes it: the delayed real part and the filtered imaginary part. -/
def HilbertUSB.sample (c : ℕ → K) (s : HilbertUSB K) (re im : K) : HilbertUSB K × K × K :=
  let delayed := s.delayStep re
  let hilb := delayed.1.hilbertStep c im
  (hilb.1, delayed.2, hilb.2)

/-! ## `zmq_audio.c` -/

/-- The filter state and the delay line of `zmq_chan_t`. -/
structure ZmqChan (K : Type*) where
  hilb : RingBuf K
  delayLine : RingBuf K

/-- The state that `get_channel` clears. -/
def ZmqChan.create (K : Type*) [Field K] : ZmqChan K := ⟨.zeros K taps, .zeros K (delay + 1)⟩

/-- `hilbert_step`: the loop keeps the sum and the index. -/
def ZmqChan.hilbertStep (hilbertTaps : ℕ → K) (ch : ZmqChan K) (im : K) : ZmqChan K × K :=
  let hilb := ch.hilb.push taps im
  let r := (List.range taps).foldl
    (fun (acc : K × ℕ) i => (acc.1 + hilbertTaps i * hilb.buf.getD acc.2 0, (acc.2 + 1) % taps)) (0, hilb.idx)
  ({ ch with hilb := hilb }, r.1)

/-- `delay_step`. -/
def ZmqChan.delayStep (ch : ZmqChan K) (re : K) : ZmqChan K × K :=
  let delayLine := ch.delayLine.push (delay + 1) re
  ({ ch with delayLine := delayLine }, delayLine.buf.getD delayLine.idx 0)

/-- A sample as `zmq_audio_send` takes it. -/
def ZmqChan.sample (hilbertTaps : ℕ → K) (ch : ZmqChan K) (re im : K) : ZmqChan K × K × K :=
  let delayed := ch.delayStep re
  let hilb := delayed.1.hilbertStep hilbertTaps im
  (hilb.1, delayed.2, hilb.2)

/-! ## Runs -/

/-- `HilbertUSB` behind `t` samples, from `reset` on. -/
def HilbertUSB.after (c : ℕ → K) (re im : ℕ → K) : ℕ → HilbertUSB K
  | 0 => .reset K
  | t + 1 => ((HilbertUSB.after c re im t).sample c (re t) (im t)).1

/-- A channel of `zmq_audio.c` behind `t` samples. -/
def ZmqChan.after (hilbertTaps : ℕ → K) (re im : ℕ → K) : ℕ → ZmqChan K
  | 0 => .create K
  | t + 1 => ((ZmqChan.after hilbertTaps re im t).sample hilbertTaps (re t) (im t)).1

end InmarsatSniffer.Usb
