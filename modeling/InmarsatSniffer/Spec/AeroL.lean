import InmarsatSniffer.Spec.Isu

/-!
# The P channel decoder

`AeroL::Decode` in continuous mode takes soft bits one by one: it looks for the preamble,
fills blocks, and puts each block through the deinterleaver, the Viterbi decoder, a delay
line and the scrambler. At the end of a frame the CRCs of its signal units are checked.
What the vendored Viterbi decoder makes of its symbols (`decodeSoft`) is a parameter. Left
out is what only the burst modes read, and the header fields, which nothing reads.
-/

namespace InmarsatSniffer.Aero

/-- The bit rates of continuous mode. -/
inductive Rate where
  | r600
  | r1200
  | r10500
  deriving DecidableEq

/-- The columns of the interleaver. -/
def Rate.cols : Rate → ℕ
  | .r600 => 6
  | .r1200 => 9
  | .r10500 => 78

/-- The length of `dl2`. -/
def Rate.delay : Rate → ℕ
  | .r600 => 576 - 6
  | .r1200 => 576 - 6
  | .r10500 => 4992 - 6

/-- `AERO_SPEC_NumberOfBits`. -/
def Rate.numberOfBits : Rate → ℤ
  | .r600 => 1152
  | .r1200 => 1152
  | .r10500 => 4992

/-- `AERO_SPEC_BitsInHeader`. -/
def Rate.bitsInHeader : Rate → ℤ
  | .r600 => 16
  | .r1200 => 16
  | .r10500 => 16 + 178

/-- `useingOQPSK`. -/
def Rate.useingOQPSK : Rate → Bool
  | .r600 => false
  | .r1200 => false
  | .r10500 => true

/-- `AERO_SPEC_TotalNumberOfBits`. -/
def Rate.totalNumberOfBits (rate : Rate) : ℤ :=
  rate.bitsInHeader + rate.numberOfBits + if rate.useingOQPSK then 64 else 32

/-! ## Preambles -/

/-- The bits of a preamble, the highest one first. -/
def preambleBits (bitpreamble len : ℕ) : List Bool := (List.range len).reverse.map fun i => bitpreamble.testBit i

/-- The preamble of the P channel. -/
def preamble : List Bool := preambleBits 3780831379 32

/-- `PreambleDetector::Update` on the buffer. -/
def detectPreamble (buffer : List Bool) (bit : Bool) : List Bool × Bool :=
  let buffer := buffer.tail ++ [bit]
  if buffer = preamble then (List.replicate buffer.length false, true) else (buffer, false)

/-- `PreambleDetectorPhaseInvariant`, without tolerance. -/
structure PhaseInvariant where
  buffer : List Bool
  inverted : Bool

/-- `PreambleDetectorPhaseInvariant::Update`. -/
def PhaseInvariant.update (d : PhaseInvariant) (bit : Bool) : PhaseInvariant × Bool :=
  let buffer := d.buffer.tail ++ [bit]
  let xorsum := (buffer.zip preamble).countP fun p => p.1 != p.2
  if xorsum ≥ buffer.length then (⟨buffer, true⟩, true)
  else if xorsum = 0 then (⟨buffer, false⟩, true)
  else (⟨buffer, d.inverted⟩, false)

/-! ## From a block to bytes -/

/-- `interleaverowdepermute`. -/
def interleaveRowDepermute (i : ℕ) : ℕ := i * 27 % 64

/-- `AeroLInterleaver::deinterleave_ba`. -/
def deinterleaveBa (cols : ℕ) (block : List UInt16) : List UInt8 :=
  (List.range cols).flatMap fun j =>
    (List.range 64).map fun i => (block.getD (interleaveRowDepermute i * cols + j) 0).toUInt8

/-- `paddinglength`. -/
abbrev paddingLength : ℕ := 24

/-- The symbols that are kept for the next call of `Decode_Continuous`. -/
abbrev overlapLength : ℕ := 62

/-- `JConvolutionalCodec::Decode_Continuous`: the overlap after it, and the bits. -/
def decodeContinuous (decodeSoft : List UInt8 → ℕ → Bool) (overlap soft : List UInt8) : List UInt8 × List Bool :=
  let buffer := overlap ++ soft ++ List.replicate paddingLength 128
  let decoded := (List.range (buffer.length / 2)).map (decodeSoft buffer)
  let kept := if soft.length ≥ overlapLength then soft.drop (soft.length - overlapLength) else soft
  (kept ++ List.replicate (overlapLength - kept.length) 0, (decoded.drop (paddingLength + 1)).take (soft.length / 2))

/-- `DelayLine`. -/
structure DelayLine where
  buffer : List Bool
  ptr : ℕ

/-- `DelayLine::setLength`, for a new one. -/
def DelayLine.create (length : ℕ) : DelayLine := ⟨List.replicate (length + 1) false, 0⟩

/-- The body of the loop of `DelayLine::update`. -/
def DelayLine.push (d : DelayLine) (bit : Bool) : DelayLine × Bool :=
  let buffer := d.buffer.set d.ptr bit
  let ptr := (d.ptr + 1) % d.buffer.length
  (⟨buffer, ptr⟩, buffer.getD ptr false)

/-- `DelayLine::update`. -/
def DelayLine.update (d : DelayLine) : List Bool → DelayLine × List Bool
  | [] => (d, [])
  | bit :: bits =>
    let r := d.push bit
    ((r.1.update bits).1, r.2 :: (r.1.update bits).2)

/-- The shift register of the scrambler, and its output. -/
def scramblerStep (state : List Bool) : List Bool × Bool :=
  let val := xor (state.getD 0 false) (state.getD 14 false)
  (val :: state.dropLast, val)

/-- The scrambler bits from a state of the register on. -/
def scramblerBits : ℕ → List Bool → List Bool
  | 0, _ => []
  | n + 1, state => (scramblerStep state).2 :: scramblerBits n (scramblerStep state).1

/-- `pre_state`. -/
def preState : List Bool := scramblerBits 5000
  [true, true, false, true, false, false, true, false, true, false, true, true, false, false, true]

/-- `AeroLScrambler::update` from a position on. -/
def scramble (position : ℕ) (bits : List Bool) : List Bool :=
  bits.mapIdx fun i bit => xor bit (preState.getD (position + i) false)

/-- Eight bits as a byte, the lowest one first. -/
def packByte (bits : List Bool) : UInt8 :=
  bits.foldr (fun bit ch => (if bit then 1 else 0) + 2 * ch) 0

/-- The bits packed into bytes; bits that fill no byte are dropped. -/
def packBytes (bits : List Bool) : List UInt8 :=
  (List.range (bits.length / 8)).map fun k => packByte ((bits.drop (8 * k)).take 8)

/-! ## Signal units -/

/-- A bit through the register of `AeroLcrc16`. -/
def crcBit (crc : UInt16) (bit : Bool) : UInt16 :=
  if xor (crc &&& 1 == 1) bit then (crc >>> 1) ^^^ 0x8408 else crc >>> 1

/-- A byte, as the signed `char` that it is. -/
def crcByte (crc : UInt16) (byte : UInt8) : UInt16 :=
  (List.range 8).foldl (fun crc k => crcBit crc (byte.toInt8.toInt / 2 ^ k % 2 == 1)) crc

/-- `AeroLcrc16::calcusingbytes`. -/
def calcUsingBytes (bytes : List UInt8) : UInt16 := ~~~(bytes.foldl crcByte 0xFFFF)

/-- The CRC test of a signal unit of twelve bytes. -/
def suOk (su : List UInt8) : Bool :=
  let crcRec : UInt16 := (su.getD 11 0).toUInt16 <<< 8 ||| (su.getD 10 0).toUInt16
  let crcCalc := calcUsingBytes (su.take 10)
  -- some SUs are just zeros
  let crcCalc := if crcRec = 0 ∧ crcCalc ≠ crcRec ∧ (su.take 10).all (· == 0) then 0 else crcCalc
  crcCalc == crcRec

/-- The data carrier detect flag, and its countdown. -/
structure Dcd where
  datacd : Bool
  datacdcountdown : ℤ
  deriving DecidableEq

/-- The flag behind a signal unit with a good or a bad CRC. -/
def Dcd.su (dcd : Dcd) (ok : Bool) : Dcd :=
  let countdown :=
    if ok then (if dcd.datacdcountdown < 12 then dcd.datacdcountdown + 2 else dcd.datacdcountdown)
    else if dcd.datacdcountdown > 0 then dcd.datacdcountdown - 3 else dcd.datacdcountdown
  ⟨dcd.datacd || decide (countdown > 2), countdown⟩

/-- What the callbacks are called with. -/
inductive Output where
  | dcd (datacd : Bool)
  | cassign (su : List UInt8)
  | acars (item : ACARSItem)
  | decoded (infofield : List UInt8)

/-- `AeroL` in continuous mode. -/
structure AeroL where
  rate : Rate
  cntr : ℤ
  realimag : Bool
  gotsyncLast : Bool
  preambledetector : List Bool
  imag : PhaseInvariant
  real : PhaseInvariant
  block : List UInt16
  overlap : List UInt8
  dl2 : DelayLine
  position : ℕ
  infofield : List UInt8
  isudata : ISUData
  parserisu : ParserISU
  dcd : Dcd

/-- `AeroL::AeroL` and `setSettings`. Memory that no constructor sets is an argument. -/
def AeroL.create (rate : Rate) (realimag : Bool) (anisuitem lastvalidisuitem : IsuEntry) : AeroL where
  rate := rate
  cntr := 1000000000
  realimag := realimag
  gotsyncLast := false
  preambledetector := List.replicate 32 false
  imag := ⟨List.replicate 32 false, false⟩
  real := ⟨List.replicate 32 false, false⟩
  block := List.replicate (rate.cols * 64) 0
  overlap := []
  dl2 := .create rate.delay
  position := 0
  infofield := []
  isudata := .create anisuitem lastvalidisuitem
  parserisu := {}
  dcd := ⟨false, 0⟩

/-- The preamble detector of OQPSK is open. -/
def AeroL.searching (s : AeroL) : Bool := s.cntr > s.rate.numberOfBits - 68 || s.cntr ≤ 0 || !s.dcd.datacd

/-- `gotsync`, if the half that was searched found the preamble: both halves have to, in turn. -/
def AeroL.pairSync (s : AeroL) (found : Bool) : AeroL × Bool :=
  if s.gotsyncLast then ({ s with gotsyncLast := false }, found)
  else ({ s with gotsyncLast := found }, false)

/-- The search for the preamble in OQPSK. -/
def AeroL.detectOqpsk (s : AeroL) (bit : Bool) : AeroL × Bool :=
  let s := { s with realimag := !s.realimag }
  if s.searching then
    if s.realimag then
      let r := s.imag.update bit
      { s with imag := r.1 }.pairSync r.2
    else
      let r := s.real.update bit
      { s with real := r.1 }.pairSync r.2
  else ({ s with gotsyncLast := false }, false)

/-- A soft bit turned round. -/
def invertSoft (soft : UInt16) : UInt16 := if soft = 128 then soft else 255 - soft

/-- The search for the preamble: the state, `gotsync`, and the soft bit. -/
def AeroL.detect (s : AeroL) (bit : Bool) (soft : UInt16) : AeroL × Bool × UInt16 :=
  if s.rate.useingOQPSK then
    let r := s.detectOqpsk bit
    let inverted := if r.1.realimag then r.1.imag.inverted else r.1.real.inverted
    (r.1, r.2, if inverted then invertSoft soft else soft)
  else
    let r := detectPreamble s.preambledetector bit
    ({ s with preambledetector := r.1 }, r.2, soft)

/-- The counter of the bits of a frame. -/
def AeroL.count (s : AeroL) : AeroL :=
  let s := { s with cntr := if s.cntr < 1000000000 then s.cntr + 1 else s.cntr }
  if s.cntr = 0 then { s with infofield := [] } else s

variable (decodeSoft : List UInt8 → ℕ → Bool)

/-- A filled block, put through to `infofield`. -/
def AeroL.decodeBlock (s : AeroL) : AeroL :=
  let r := decodeContinuous decodeSoft s.overlap (deinterleaveBa s.rate.cols s.block)
  let d := s.dl2.update r.2
  { s with
    overlap := r.1
    dl2 := d.1
    position := s.position + d.2.length
    infofield := s.infofield ++ packBytes (scramble s.position d.2) }

/-- Signal unit `k` of the frame. -/
def AeroL.signalUnit (s : AeroL) (k : ℕ) : List UInt8 := (s.infofield.drop (k * 12)).take 12

/-- What a signal unit with a good CRC is for. -/
def AeroL.dispatch (s : AeroL) (su : List UInt8) : AeroL × List Output :=
  let message := su.getD 0 0
  let data : SU := fun i => (su.take 10).getD i 0
  if message = 0x71 then ({ s with isudata := (s.isudata.update data).1 }, [])
  else if message = 0x31 ∨ message = 0x32 ∨ message = 0x33 ∨ message = 0x34 then (s, [.cassign su])
  else if message &&& 0xC0 = 0xC0 then
    let r := s.isudata.update data
    if r.2 then
      let p := { s.parserisu with downlink := false }.parse r.1.lastvalidisuitem.toISUItem
      ({ s with isudata := r.1, parserisu := p.1 }, (p.2.map Output.acars).toList)
    else ({ s with isudata := r.1 }, [])
  else (s, [])

/-- The body of the loop over the signal units. -/
def AeroL.checkSu (s : AeroL) (su : List UInt8) : AeroL × List Output :=
  let ok := suOk su
  let dcd := s.dcd.su ok
  let out := if !s.dcd.datacd && dcd.datacd then [.dcd true] else []
  let s := { s with dcd := dcd }
  if ok then
    let r := s.dispatch su
    (r.1, out ++ r.2)
  else (s, out)

/-- The loop over the signal units. -/
def AeroL.checkSus (s : AeroL) : List (List UInt8) → AeroL × List Output
  | [] => (s, [])
  | su :: sus =>
    let r := s.checkSu su
    ((r.1.checkSus sus).1, r.2 ++ (r.1.checkSus sus).2)

/-- The signal units of a frame. -/
def AeroL.signalUnits (s : AeroL) : List (List UInt8) := (List.range (s.infofield.length / 12)).map s.signalUnit

/-- The end of a frame. -/
def AeroL.endFrame (s : AeroL) : AeroL × List Output :=
  let r := s.checkSus s.signalUnits
  (r.1, r.2 ++ if s.infofield.isEmpty then [] else [.decoded s.infofield])

/-- `idx`: the index into the block, with the unsigned remainder of the code. -/
def AeroL.blockIdx (s : AeroL) : ℕ := ((s.cntr - s.rate.bitsInHeader) % 2 ^ 64).toNat % s.block.length

/-- A soft bit into the block, which is decoded once it is filled. -/
def AeroL.fill (s : AeroL) (soft : UInt16) : AeroL :=
  let idx := s.blockIdx
  let s := { s with block := s.block.set idx soft }
  if idx + 1 = s.block.length then s.decodeBlock decodeSoft else s

/-- The frame is done with the present bit: `cntr` is at its last one, and fills a block. -/
def AeroL.frameDone (s : AeroL) : Bool :=
  s.blockIdx + 1 == s.block.length && s.cntr - s.rate.bitsInHeader == s.rate.numberOfBits - 1

/-- The sync behind a preamble. -/
def AeroL.synced (s : AeroL) : AeroL :=
  { s with
    isudata := if s.cntr + 1 ≠ s.rate.totalNumberOfBits then { s.isudata with isuitems := [] } else s.isudata
    cntr := -1
    dcd := ⟨true, 12⟩
    position := 0 }

/-- The wrap of the counter at the end of a frame. -/
def AeroL.wrap (s : AeroL) : AeroL :=
  if s.cntr + 1 = s.rate.totalNumberOfBits then { s with position := 0, cntr := -1 } else s

/-- A soft bit up to the signal units of the frame that it completes. -/
def AeroL.intake (s : AeroL) (softBit : Int16) : AeroL × Bool :=
  let d := s.detect (softBit.toInt % 256 ≥ 128) softBit.toUInt16
  let s := d.1.count
  (if s.cntr ≥ 16 then s.fill decodeSoft d.2.2 else s, d.2.1)

/-- The turn of the loop of `AeroL::Decode` for a soft bit. -/
def AeroL.decodeBit (s : AeroL) (softBit : Int16) : AeroL × List Output :=
  if softBit.toInt < 0 then (s, [])
  else
    let d := s.intake decodeSoft softBit
    let r := if d.1.cntr ≥ 16 && d.1.frameDone then d.1.endFrame else (d.1, [])
    let s := if d.2 then r.1.synced else r.1
    (s.wrap, r.2 ++ if d.2 then [.dcd true] else [])

/-- `AeroL::LostSignal`. -/
def AeroL.lostSignal (s : AeroL) : AeroL × List Output :=
  ({ s with cntr := 1000000000, dcd := ⟨false, 0⟩ }, [.dcd false])

/-- What happens to the decoder. -/
inductive Event where
  | softBit (b : Int16)
  | lostSignal

/-- An event. -/
def AeroL.step (s : AeroL) : Event → AeroL × List Output
  | .softBit b => s.decodeBit decodeSoft b
  | .lostSignal => s.lostSignal

/-- Events in order. -/
def AeroL.run (s : AeroL) (events : List Event) : AeroL := events.foldl (fun s e => (s.step decodeSoft e).1) s

end InmarsatSniffer.Aero
