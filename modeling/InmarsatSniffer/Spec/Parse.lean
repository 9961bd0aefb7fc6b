import InmarsatSniffer.Spec.Egc

/-!
# `parse_packets` and multiframe reassembly

A 0xBD packet starts a reassembly in `mfp`, 0xBE packets append to it, and when the
buffer holds all but two bytes of the encapsulated packet `parse_packets` calls
itself on the buffer. The inner call reads the live buffer (`Src.mfp`), which
packets inside it may write.

`parseFrom` gets fuel, since nothing in the code bounds that recursion; every loop
turn and every call uses one unit. What it has done when the fuel runs out is in
its output all the same.
-/

namespace InmarsatSniffer.Stdc

open ByteMem

/-- `multiframe_state_t`. -/
structure MultiframeState where
  active : Bool
  data : Mem
  totalLen : ℤ
  filled : ℤ

/-- The part of `struct stdc_decoder` that packets are parsed into. -/
structure StdcDecoder where
  mfp : MultiframeState
  egcSlots : EgcSlots

/-- `stdc_decoder_create`. -/
def StdcDecoder.create : StdcDecoder :=
  { mfp := { active := false, data := ByteMem.zero, totalLen := 0, filled := 0 }, egcSlots := EgcSlots.init }

/-- What parsing does that can be seen from outside: memory accesses, packets handed to
their decoder (at which call depth, when, where, and their bytes), messages emitted. -/
inductive Event where
  | access (a : Access)
  | dispatch (nested : Bool) (now pos pktLen : ℤ) (bytes : List UInt8)
  | message (m : StdcMessage)

/-! ## Multiframe packets -/

/-- The total length of the encapsulated packet, from its descriptor at `frame[pos + 2]`. -/
def innerLength (fr : Frame) (pos : ℤ) : Acc ℤ := do
  let innerDesc ← fr.read (pos + 2)
  if innerDesc >>> 7 = 0 then return (innerDesc &&& 0x0F).toNat + 1
  else if innerDesc >>> 6 = 2 then do
    let n ← fr.read (pos + 3)
    return n.toNat + 2
  else return 256

/-- `decode_multiframe_start`. With `nested`, the frame is the buffer that is cleared. -/
def decodeMultiframeStart (nested : Bool) (mfp : MultiframeState) (fr : Frame) (pos pktLen : ℤ) :
    Acc MultiframeState :=
  if pktLen < 5 then return mfp
  else do
    let innerLen ← innerLength fr pos
    Logged.touch ((List.range mfpSize.toNat).map fun k : ℕ => .mfpData k)
    let firstChunk := min (max (pktLen - 2 - 2) 0) mfpSize
    -- the copy comes after the `memset`, so inside the buffer it copies zeros
    let source : Frame := if nested then ⟨ByteMem.zero, fr.len⟩ else fr
    let chunk ← source.readN (pos + 2) firstChunk.toNat
    Logged.touch ((List.range firstChunk.toNat).map fun k : ℕ => .mfpData k)
    return { active := true, data := ofList chunk, totalLen := innerLen, filled := firstChunk }

/-- The part of `decode_multiframe_cont` before the recursive call. -/
def appendChunk (mfp : MultiframeState) (fr : Frame) (pos pktLen : ℤ) : Acc MultiframeState := do
  let payloadLen := max (pktLen - 2 - 2) 0
  let space := mfpSize - mfp.filled
  let payloadLen := if payloadLen > space then space else payloadLen
  let payload ← fr.readN (pos + 2) payloadLen.toNat
  Logged.touch ((List.range payloadLen.toNat).map fun k : ℕ => .mfpData (mfp.filled + k))
  return { mfp with data := blit mfp.data mfp.filled payload, filled := mfp.filled + payloadLen }

/-- The completion test of `decode_multiframe_cont`. -/
def MultiframeState.complete (mfp : MultiframeState) : Bool := decide (mfp.filled ≥ mfp.totalLen - 2)

/-! ## The parser -/

/-- Where a call of `parse_packets` reads its frame: memory of its own, or the
reassembly buffer of the decoder. -/
inductive Src where
  | frame (m : Mem)
  | mfp

/-- The bytes a call reads. -/
def Src.mem (d : StdcDecoder) : Src → Mem
  | .frame m => m
  | .mfp => d.mfp.data

/-- Whether a call is the recursive one. -/
def Src.nested : Src → Bool
  | .frame _ => false
  | .mfp => true

/-- How the loop goes on after one turn. -/
inductive Next where
  | stop
  | goto (pos : ℤ)
  /-- parse the reassembly buffer, then end the reassembly and go on -/
  | nest (totalLen pos : ℤ)

/-- One turn of the loop: the decoder after it, what was done, and how to go on. -/
structure Turn where
  dec : StdcDecoder
  out : List Event
  next : Next

/-- The accesses of a computation as events. -/
def accesses {α : Type} (c : Acc α) : List Event := c.log.map .access

/-- The decoder call for a packet that passed the checksum. -/
def dispatchPacket (now : ℤ) (nested : Bool) (d : StdcDecoder) (fr : Frame) (pos pktLen : ℤ) : Turn :=
  let desc := fr.mem pos
  if desc = Pkt.egcDouble1 ∨ desc = Pkt.egcDouble2 then
    let c := decodeEgc now d.egcSlots fr pos pktLen (desc = Pkt.egcDouble2)
    let messages := c.val.single.toList ++ c.val.reassembled.toList
    ⟨{ d with egcSlots := c.val.slots }, accesses c ++ messages.map .message, .goto (pos + pktLen)⟩
  else if desc = Pkt.multiframeStart then
    let c := decodeMultiframeStart nested d.mfp fr pos pktLen
    ⟨{ d with mfp := c.val }, accesses c, .goto (pos + pktLen)⟩
  else if desc = Pkt.multiframeCont then
    if d.mfp.active then
      let c := appendChunk d.mfp fr pos pktLen
      ⟨{ d with mfp := c.val }, accesses c,
        if c.val.complete then .nest c.val.totalLen (pos + pktLen) else .goto (pos + pktLen)⟩
    else ⟨d, [], .goto (pos + pktLen)⟩
  else
    let c := decodeSimple desc fr pos pktLen
    ⟨d, accesses c ++ c.val.toList.map .message, .goto (pos + pktLen)⟩

/-- One turn of the loop of `parse_packets`. -/
def parseTurn (now : ℤ) (d : StdcDecoder) (src : Src) (frameLen pos : ℤ) : Turn :=
  let fr : Frame := ⟨src.mem d, frameLen⟩
  let l := look fr pos
  match l.val with
  | .stop => ⟨d, accesses l, .stop⟩
  | .pad => ⟨d, accesses l, .goto (pos + 1)⟩
  | .bad pktLen => ⟨d, accesses l, .goto (pos + pktLen)⟩
  | .packet pktLen =>
    let t := dispatchPacket now src.nested d fr pos pktLen
    ⟨t.dec, accesses l ++ .dispatch src.nested now pos pktLen (slice fr.mem pos pktLen.toNat) :: t.out, t.next⟩

/-- A call of `parse_packets`, as far as the fuel went. -/
structure Result where
  done : Bool
  dec : StdcDecoder
  out : List Event

/-- `active = 0` after the recursive call. -/
def StdcDecoder.endMultiframe (d : StdcDecoder) : StdcDecoder := { d with mfp := { d.mfp with active := false } }

/-- The loop of `parse_packets` from `pos` on. -/
def parseFrom (now : ℤ) : ℕ → StdcDecoder → Src → ℤ → ℤ → Result
  | 0, d, _, _, _ => ⟨false, d, []⟩
  | f + 1, d, src, frameLen, pos =>
    let t := parseTurn now d src frameLen pos
    match t.next with
    | .stop => ⟨true, t.dec, t.out⟩
    | .goto pos' =>
      let r := parseFrom now f t.dec src frameLen pos'
      ⟨r.done, r.dec, t.out ++ r.out⟩
    | .nest totalLen pos' =>
      let r := parseFrom now f t.dec .mfp totalLen 0
      if r.done then
        let r' := parseFrom now f r.dec.endMultiframe src frameLen pos'
        ⟨r'.done, r'.dec, t.out ++ r.out ++ r'.out⟩
      else ⟨false, r.dec, t.out ++ r.out⟩

/-- `parse_packets(d, frame, frame_len)` at time `now`. -/
def parsePackets (fuel : ℕ) (now : ℤ) (d : StdcDecoder) (frame : Mem) (frameLen : ℤ) : Result :=
  parseFrom now fuel d (.frame frame) frameLen 0

/-- The call returns, with the decoder `d'` and the events `out`. -/
def Parses (now : ℤ) (d : StdcDecoder) (frame : Mem) (frameLen : ℤ) (d' : StdcDecoder) (out : List Event) :
    Prop :=
  ∃ fuel, parsePackets fuel now d frame frameLen = ⟨true, d', out⟩

/-- A call of `parse_packets` in a run. -/
structure Call where
  now : ℤ
  frame : Mem
  frameLen : ℤ

/-- The calls return one after the other, from `d` to `d'`. -/
inductive Run : StdcDecoder → List Call → StdcDecoder → List Event → Prop where
  | nil (d : StdcDecoder) : Run d [] d []
  | cons {d d₁ d₂ : StdcDecoder} {c : Call} {cs : List Call} {out outs : List Event}
      (h : Parses c.now d c.frame c.frameLen d₁ out) (hs : Run d₁ cs d₂ outs) :
      Run d (c :: cs) d₂ (out ++ outs)

/-- A decoder some run from `stdc_decoder_create` leads to. -/
def Reachable (d : StdcDecoder) : Prop := ∃ cs out, Run .create cs d out

end InmarsatSniffer.Stdc
