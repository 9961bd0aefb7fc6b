import Mathlib
import InmarsatSniffer.Spec.Vita49

/-!
# Samples from a file

`spewer_thread` reads a file block by block and converts the samples; its sibling is the receive loop of
`vita49.c`. Memory is taken to be there, the queue to take every buffer, and `running` to stay set.
-/

namespace InmarsatSniffer.Vita49

open ByteMem

/-! ## `spewer_thread` -/

/-- The bytes of an I/Q sample. -/
def IqFormat.sampleBytes : IqFormat → ℕ
  | .ci8 | .cu8 => 2
  | .ci16 => 4
  | .cf32 => 8

/-- `block`: the samples that are read at a time. -/
abbrev block : ℕ := 32768

/-- `int16_t` in host order, with `>> 8`. -/
def highBytes : List UInt8 → List UInt8
  | lo :: hi :: bytes =>
    let tmp := UInt16.ofNat (lo.toNat + 256 * hi.toNat)
    UInt8.ofInt (tmp.toInt16.toInt / 2 ^ 8) :: highBytes bytes
  | _ => []

/-- Words in host order. -/
def hostWords : List UInt8 → List UInt32
  | b0 :: b1 :: b2 :: b3 :: bytes => be32 b3 b2 b1 b0 :: hostWords bytes
  | _ => []

/-- The buffer of `r` samples that `fread` has put into `tmp`. -/
def convert (fmt : IqFormat) (r : ℕ) (tmp : List UInt8) : SampleBuf :=
  match fmt with
  | .ci8 => .int8s r tmp
  | .cu8 => .int8s r (tmp.map fun b => b - 128)
  | .ci16 => .int8s r (highBytes tmp)
  | .cf32 => .floats r (hostWords tmp)

/-- The turns of the loop of `spewer_thread`: the buffers that go into the queue. A short `fread` is at the end of
the file. -/
def spewer (fmt : IqFormat) : ℕ → List UInt8 → List SampleBuf
  | 0, _ => []
  | turns + 1, file =>
    let r := min block (file.length / fmt.sampleBytes)
    if r = 0 then []
    else convert fmt r (file.take (r * fmt.sampleBytes)) :: spewer fmt turns (file.drop (r * fmt.sampleBytes))

/-- `spewer_thread`: each turn but the last one takes at least a byte. -/
def spewerThread (fmt : IqFormat) (file : List UInt8) : List SampleBuf := spewer fmt (file.length + 1) file

/-! ## The receive loop -/

/-- The buffers that the receive loop pushes for a sequence of datagrams: `pkt_buf` and the length of each. -/
def received (fmt : IqFormat) : Receiver → List (Mem × ℕ) → List SampleBuf
  | _, [] => []
  | st, (pkt, len) :: datagrams =>
    let r := (receive fmt pkt len st).val
    r.2.2.toList ++ received fmt r.1 datagrams

/-! ## Samples -/

/-- One of the two numbers of a sample, by its bits. -/
abbrev Component : IqFormat → Type
  | .ci8 | .cu8 => UInt8
  | .ci16 => UInt16
  | .cf32 => UInt32

/-- `int16_t` in little-endian order. -/
def host16 (w : UInt16) : List UInt8 := [w.toUInt8, (w >>> 8).toUInt8]

/-- `float` in little-endian order. -/
def host32 (w : UInt32) : List UInt8 := [w.toUInt8, (w >>> 8).toUInt8, (w >>> 16).toUInt8, (w >>> 24).toUInt8]

/-- A number in the order of the host. -/
def Component.host : (fmt : IqFormat) → Component fmt → List UInt8
  | .ci8, b | .cu8, b => [b]
  | .ci16, w => host16 w
  | .cf32, w => host32 w

/-- A sequence of I/Q samples. -/
abbrev Samples (fmt : IqFormat) := List (Component fmt × Component fmt)

/-- Samples in a file, in the order of the host. -/
def Samples.host {fmt : IqFormat} (samples : Samples fmt) : List UInt8 :=
  samples.flatMap fun s => s.1.host fmt ++ s.2.host fmt

/-- Samples in a payload, in network order. -/
def Samples.network {fmt : IqFormat} (samples : Samples fmt) : List UInt8 :=
  samples.flatMap fun s => (s.1.host fmt).reverse ++ (s.2.host fmt).reverse

/-- A datagram whose payload are the samples. -/
structure Carries (fmt : IqFormat) (datagram : Mem × ℕ) (samples : Samples fmt) : Prop where
  size : datagram.2 < 2 ^ 64
  payload : ∃ off n, IsPayload (slice datagram.1 0 datagram.2) off n ∧ slice datagram.1 off n = samples.network

/-- What the channelizer gets, number by number: with its format tag, a byte or the bits of a float. -/
inductive Value where
  | int8 (b : UInt8)
  | float (w : UInt32)
  deriving DecidableEq

/-- The numbers of a buffer. -/
def SampleBuf.values : SampleBuf → List Value
  | .int8s _ samples => samples.map .int8
  | .floats _ samples => samples.map .float

end InmarsatSniffer.Vita49
