import InmarsatSniffer.Spec.Viterbi
import InmarsatSniffer.Spec.Parse

/-!
# Frame synchronisation

`stdc_decoder_feed` shifts each soft bit into a register of one frame and looks for the
sync columns in it; `process_frame` turns the register into the 640 bytes that
`parse_packets` gets. Soft bits are taken after their conversion to `int8_t`. The parser
never touches the fields here, so a feed is modelled with every call of `parse_packets`
returning; what the calls do is in `Run`.
-/

namespace InmarsatSniffer.Stdc

open ByteMem

/-- `STDC_FRAME_ROWS`. -/
abbrev stdcFrameRows : ℕ := 64

/-- `STDC_FRAME_COLS`. -/
abbrev stdcFrameCols : ℕ := 162

/-- `STDC_ENCODED_SIZE`. -/
abbrev stdcEncodedSize : ℕ := 10368

/-- `STDC_DATA_SIZE`. -/
abbrev stdcDataSize : ℕ := 10240

/-- `STDC_FRAME_BYTES`. -/
abbrev stdcFrameBytes : ℕ := 640

/-- `sync_word`. -/
def syncWord : List ℕ := [
  0, 0, 0, 0, 0, 1, 1, 1, 1, 1, 1, 0, 1, 0, 1, 0,
  1, 1, 0, 0, 1, 1, 0, 1, 1, 1, 0, 1, 1, 0, 1, 0,
  0, 1, 0, 0, 1, 1, 1, 0, 0, 0, 1, 0, 1, 1, 1, 1,
  0, 0, 1, 0, 1, 0, 0, 0, 1, 1, 0, 0, 0, 0, 1, 0]

/-- `scramble_seq`. -/
def scrambleSeq : List ℕ := [
  0,0,0,0,0,0,0,1,0,0,0,1,1,1,0,0,0,1,0,0,1,0,1,1,1,0,0,0,0,0,0,1,
  1,0,0,1,0,0,1,0,0,1,1,0,1,1,1,0,0,1,0,0,0,0,0,1,0,1,0,1,1,0,1,1,
  0,1,0,1,1,0,0,1,0,1,1,0,0,0,0,1,1,1,1,1,0,1,1,0,1,1,1,1,0,1,0,1,
  1,1,0,1,0,0,0,1,0,0,0,0,1,1,0,1,1,0,0,0,1,1,1,1,0,0,1,1,1,0,0,1,
  1,0,0,0,1,0,1,1,0,1,0,0,1,0,0,0,1,0,1,0,0,1,0,1,0,1,0,0,1,1,1,0]

/-- `reverse_bits`. -/
def reverseBits (b : UInt8) : UInt8 :=
  let swap (b mask n : UInt8) : UInt8 := ((b >>> n) &&& mask) ||| ((b &&& mask) <<< n)
  let b := swap b 0x55 1
  let b := swap b 0x33 2
  swap b 0x0F 4

/-- The sync positions of a register that agree with the sync word, of 128. -/
def syncMatches (buf : ℕ → Int8) : ℕ :=
  ((List.range stdcFrameRows).map fun i =>
    (if hardBit (buf (i * stdcFrameCols)) = syncWord.getD i 0 then 1 else 0) +
      (if hardBit (buf (i * stdcFrameCols + 1)) = syncWord.getD i 0 then 1 else 0)).sum

/-- `check_sync`: the score, and whether the register is inverted. -/
def checkSync (buf : ℕ → Int8) : ℕ × Bool :=
  let matchNrm := syncMatches buf
  let matchInv := 2 * stdcFrameRows - matchNrm
  if matchInv > matchNrm then (matchInv, true) else (matchNrm, false)

/-- `depermute`: row `i` is row `(i * 23) % 64` of `buf`. -/
def depermute (buf : ℕ → Int8) (k : ℕ) : Int8 :=
  buf (k / stdcFrameCols * 23 % 64 * stdcFrameCols + k % stdcFrameCols)

/-- `deinterleave`: `out[col * 64 + row]` is column `col + 2` of the row. -/
def deinterleave (buf : ℕ → Int8) (k : ℕ) : Int8 :=
  buf (k % stdcFrameRows * stdcFrameCols + k / stdcFrameRows + 2)

/-- `descramble`: byte `k`, scrambled with bit `k / 4` of the sequence. -/
def descramble (pkt : List UInt8) : List UInt8 :=
  (List.range stdcFrameBytes).map fun k =>
    let b := reverseBits (pkt.getD k 0)
    if scrambleSeq.getD (k / 4) 0 ≠ 0 then b ^^^ 0xFF else b

/-- What a feed does to the outside: `process_frame` on a register, and the calls of
`parse_packets`. -/
inductive FeedEvent where
  | processFrame (reg : List Int8) (inverted : Bool)
  | parsePackets (frame : List UInt8)
  deriving DecidableEq

/-- `process_frame` on the register: the register after it, and the frame for
`parse_packets` if no more than 15 % of its symbols are in error. -/
def processFrame (reg : List Int8) (inverted : Bool) : List Int8 × Option (List UInt8) :=
  let buf := if inverted then reg.map fun v => -v else reg
  let deinterleaved := deinterleave (depermute fun k => buf.getD k 0)
  let decodedBits := stdcDataSize / 2
  let decoded := (viterbiDecode deinterleaved decodedBits).1
  -- `ber > 0.15f`, where `ber` is the errors over the symbols
  (buf, if viterbiErrors decoded decodedBits deinterleaved * 100 > 15 * (decodedBits * 2) then none
    else some (descramble decoded))

theorem processFrame_length (reg : List Int8) (inverted : Bool) :
    (processFrame reg inverted).1.length = reg.length := by
  show (if inverted then reg.map fun v => -v else reg).length = reg.length
  split <;> simp

/-- The fields of `struct stdc_decoder` that the feed uses. `shift_pos` is an `int`. -/
structure FrontEnd where
  shiftReg : List Int8
  shiftPos : Int32
  synced : Bool
  reg_length : shiftReg.length = stdcEncodedSize

/-- The front end of a new decoder. -/
def FrontEnd.create : FrontEnd := ⟨List.replicate stdcEncodedSize 0, 0, false, List.length_replicate⟩

/-- `process_frame`, and `shift_pos` set to zero after it. -/
def FrontEnd.process (d : FrontEnd) (inverted : Bool) : FrontEnd × List FeedEvent :=
  let r := processFrame d.shiftReg inverted
  ({ shiftReg := r.1, shiftPos := 0, synced := true,
     reg_length := (processFrame_length _ _).trans d.reg_length },
    .processFrame d.shiftReg inverted :: (r.2.map FeedEvent.parsePackets).toList)

/-- The soft bit `sb` shifted into the register. -/
def FrontEnd.shift (d : FrontEnd) (sb : Int8) : FrontEnd :=
  { shiftReg := d.shiftReg.tail ++ [sb], shiftPos := d.shiftPos + 1, synced := d.synced,
    reg_length := by simp [d.reg_length] }

/-- The loop body of `stdc_decoder_feed`. -/
def FrontEnd.feedBit (d : FrontEnd) (sb : Int8) : FrontEnd × List FeedEvent :=
  let d := d.shift sb
  if d.synced then
    if d.shiftPos ≥ 10368 then
      let sync := checkSync fun k => d.shiftReg.getD k 0
      if sync.1 ≥ 100 then d.process sync.2 else ({ d with synced := false }, [])
    else (d, [])
  else
    if d.shiftPos ≥ 10368 then
      let sync := checkSync fun k => d.shiftReg.getD k 0
      if sync.1 ≥ 110 then d.process sync.2 else (d, [])
    else (d, [])

/-- `stdc_decoder_feed`. -/
def FrontEnd.feed (d : FrontEnd) : List Int8 → FrontEnd × List FeedEvent
  | [] => (d, [])
  | sb :: soft =>
    let r := d.feedBit sb
    let r' := r.1.feed soft
    (r'.1, r.2 ++ r'.2)

/-- The calls of `parse_packets` that a feed at time `now` makes. -/
def FeedEvent.calls (now : ℤ) (out : List FeedEvent) : List Call :=
  out.filterMap fun
    | .parsePackets frame => some ⟨now, ofList frame, stdcFrameBytes⟩
    | .processFrame _ _ => none

/-! ## The encoder of the loopback test -/

/-- The scrambling of `frame_to_symbols`. -/
def scramble (frame : List UInt8) : List UInt8 :=
  (List.range stdcFrameBytes).map fun k =>
    let b := frame.getD k 0
    reverseBits (if scrambleSeq.getD (k / 4) 0 ≠ 0 then b ^^^ 0xFF else b)

/-- `frame_to_symbols`: symbol `k` is in row `(i * 23) % 64`, where `i` is its row before
the permutation. -/
def frameToSymbols (frame : List UInt8) : List ℕ :=
  let enc := viterbiEncode (scramble frame) (stdcDataSize / 2)
  let rows := (List.range stdcFrameRows).map fun i => (i * 23 % 64, i)
  (List.range stdcEncodedSize).map fun k =>
    let row := k / stdcFrameCols
    let col := k % stdcFrameCols
    if col < 2 then syncWord.getD row 0
    else enc.getD ((col - 2) * stdcFrameRows + (rows.lookup row).getD 0) 0

end InmarsatSniffer.Stdc
