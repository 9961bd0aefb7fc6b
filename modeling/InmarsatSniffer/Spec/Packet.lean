import InmarsatSniffer.Spec.Message

/-!
# STD-C packets: length, checksum and the decoders without state

`look` is what `parse_packets` finds at a position: the end, a padding byte, a
packet that fails the checksum, or a packet to dispatch. The decoders here only
read the frame and build a message; the EGC and multiframe decoders, which keep
state, are in `Spec.Egc` and `Spec.Parse`.
-/

namespace InmarsatSniffer.Stdc

open ByteMem

/-! ## Packet descriptors -/

namespace Pkt

abbrev ackRequest : UInt8 := 0x08
abbrev channelClear : UInt8 := 0x27
abbrev msgAck : UInt8 := 0x2A
abbrev signallingCh : UInt8 := 0x6C
abbrev bulletinBoard : UInt8 := 0x7D
abbrev announcement : UInt8 := 0x81
abbrev chanAssignment : UInt8 := 0x83
abbrev loginAck : UInt8 := 0x92
abbrev individualPoll : UInt8 := 0xA3
abbrev confirmation : UInt8 := 0xA8
abbrev message : UInt8 := 0xAA
abbrev lesList : UInt8 := 0xAB
abbrev egcDouble1 : UInt8 := 0xB1
abbrev egcDouble2 : UInt8 := 0xB2
abbrev multiframeStart : UInt8 := 0xBD
abbrev multiframeCont : UInt8 := 0xBE

end Pkt

/-! ## Length and checksum -/

/-- The packet length from the descriptor. -/
def getPacketLength (fr : Frame) (pos : ℤ) : Acc ℤ := do
  let desc ← fr.read pos
  if desc >>> 7 = 0 then return (desc &&& 0x0F).toNat + 1
  else if desc >>> 6 = 2 then
    if pos + 1 ≥ fr.len then return fr.len - pos
    else do
      let n ← fr.read (pos + 1)
      return n.toNat + 2
  else return fr.len - pos

/-- The loop of `compute_crc`: byte `i` is next and `n` are left; `c0` and `c1` are the
`short` sums, by their 16 bits. -/
def crcLoop (fr : Frame) (pos length : ℤ) : ℕ → ℤ → UInt16 → UInt16 → Acc (UInt16 × UInt16)
  | 0, _, c0, c1 => return (c0, c1)
  | n + 1, i, c0, c1 =>
    if i < length - 2 then do
      let b ← fr.read (pos + i)
      crcLoop fr pos length n (i + 1) (c0 + b.toUInt16) (c1 + (c0 + b.toUInt16))
    else crcLoop fr pos length n (i + 1) (c0 + 0) (c1 + (c0 + 0))

/-- The Fletcher-style checksum of a packet, its last two bytes counted as zero. -/
def computeCrc (fr : Frame) (pos length : ℤ) : Acc ℕ := do
  let c ← crcLoop fr pos length length.toNat 0 0 0
  return be16 (c.1 - c.2).toUInt8 (c.2 - 2 * c.1).toUInt8

/-- What stands at a position of the frame. -/
inductive Look where
  | stop
  | pad
  | bad (pktLen : ℤ)
  | packet (pktLen : ℤ)
  deriving DecidableEq, Repr

/-- The head of the loop in `parse_packets`, up to the checksum test. -/
def look (fr : Frame) (pos : ℤ) : Acc Look :=
  if pos < fr.len - 2 then do
    let desc ← fr.read pos
    if desc = 0x00 then return .stop
    else if desc = 0xFF then return .pad
    else do
      let pktLen ← getPacketLength fr pos
      if pktLen ≤ 0 ∨ pos + pktLen > fr.len then return .stop
      else do
        let b1 ← fr.read (pos + pktLen - 2)
        let b2 ← fr.read (pos + pktLen - 1)
        let calcCrc ← computeCrc fr pos pktLen
        if be16 b1 b2 = 0 ∨ be16 b1 b2 = calcCrc then return .packet pktLen
        else return .bad pktLen
  else return .stop

/-! ## Decoders without state -/

/-- `snprintf` the text, set its length, emit. -/
def emitText (m : StdcMessage) (s : List UInt8) : Acc (Option StdcMessage) := do
  let text ← snprintfText 0 s
  return some { m with text := text, textLen := text.length }

/-- `decode_channel_clear` and `decode_msg_ack`: the same fields, another type, minimum
length and heading. -/
def decodeChannelMsg (type : MsgType) (descriptor : UInt8) (minLen : ℤ) (heading : String)
    (fr : Frame) (pos pktLen : ℤ) : Acc (Option StdcMessage) :=
  if pktLen < minLen then return none
  else do
    let b1 ← fr.read (pos + 1)
    let b2 ← fr.read (pos + 2)
    let b3 ← fr.read (pos + 3)
    let b4 ← fr.read (pos + 4)
    let b5 ← fr.read (pos + 5)
    let m : StdcMessage := { type, descriptor, mesId := be24 b1 b2 b3, logicalChannel := b5.toNat }
    let m := m.withLes b4
    emitText m (ascii heading ++ ascii "MES=" ++ fmtInt m.mesId ++ ascii " LES=" ++ ascii m.lesName ++
      ascii " ch=" ++ fmtInt m.logicalChannel)

/-- 0x27: Logical Channel Clear. -/
def decodeChannelClear : Frame → ℤ → ℤ → Acc (Option StdcMessage) :=
  decodeChannelMsg .channelClear 0x27 8 "Channel Clear: "

/-- 0x2A: Inbound Message Ack. -/
def decodeMsgAck : Frame → ℤ → ℤ → Acc (Option StdcMessage) :=
  decodeChannelMsg .msgAck 0x2A 9 "Message Ack: "

/-- 0x08: Acknowledgement Request. -/
def decodeAckRequest (fr : Frame) (pos pktLen : ℤ) : Acc (Option StdcMessage) :=
  if pktLen < 6 then return none
  else do
    let b1 ← fr.read (pos + 1)
    let b2 ← fr.read (pos + 2)
    let b3 ← fr.read (pos + 3)
    let b4 ← fr.read (pos + 4)
    let m : StdcMessage :=
      { type := .ackRequest, descriptor := 0x08, logicalChannel := b2.toNat, uplink := uplinkOf b3 b4 }
    let m := m.withLes b1
    emitText m (ascii "Ack Request: LES=" ++ ascii m.lesName ++ ascii " ch=" ++ fmtInt m.logicalChannel ++
      ascii " uplink=" ++ fmtMhz m.uplink ++ ascii " MHz")

/-- 0x6C: Signalling Channel. -/
def decodeSignalling (fr : Frame) (pos pktLen : ℤ) : Acc (Option StdcMessage) :=
  if pktLen < 11 then return none
  else do
    let b2 ← fr.read (pos + 2)
    let b3 ← fr.read (pos + 3)
    let m : StdcMessage := { type := .netUpdate, descriptor := 0x6C, uplink := uplinkOf b2 b3 }
    emitText m (ascii "Signalling Channel: uplink=" ++ fmtMhz m.uplink ++ ascii " MHz")

/-- 0x7D: Bulletin Board. The time of day is the frame number times 8.64 s. -/
def decodeBulletinBoard (fr : Frame) (pos pktLen : ℤ) : Acc (Option StdcMessage) :=
  if pktLen < 14 then return none
  else do
    let nv ← fr.read (pos + 1)
    let b2 ← fr.read (pos + 2)
    let b3 ← fr.read (pos + 3)
    let b7 ← fr.read (pos + 7)
    let m : StdcMessage := { type := .bulletin, descriptor := 0x7D, frameNumber := be16 b2 b3 }
    let m := m.withLes b7
    let tsSec := m.frameNumber * 864 / 100
    emitText m (ascii "Bulletin Board: LES=" ++ ascii m.lesName ++ ascii " sat=" ++ ascii m.satName ++
      ascii " frame=" ++ fmtInt m.frameNumber ++ ascii " time=" ++ fmtPad 2 (tsSec / 3600) ++ ascii ":" ++
      fmtPad 2 (tsSec % 3600 / 60) ++ ascii ":" ++ fmtPad 2 (tsSec % 60) ++ ascii " ver=" ++
      fmtInt nv.toNat ++ ascii " [Bulletin Board]")

/-- 0x81: Announcement. -/
def decodeAnnouncement (fr : Frame) (pos pktLen : ℤ) : Acc (Option StdcMessage) :=
  if pktLen < 17 then return none
  else do
    let b2 ← fr.read (pos + 2)
    let b3 ← fr.read (pos + 3)
    let b4 ← fr.read (pos + 4)
    let b5 ← fr.read (pos + 5)
    let b9 ← fr.read (pos + 9)
    let b6 ← fr.read (pos + 6)
    let b7 ← fr.read (pos + 7)
    let b14 ← fr.read (pos + 14)
    let m : StdcMessage :=
      { type := .announcement, descriptor := 0x81, mesId := be24 b2 b3 b4, logicalChannel := b9.toNat,
        downlink := downlinkOf b6 b7, presentation := b14.toNat }
    let m := m.withLes b5
    emitText m (ascii "Announcement: MES=" ++ fmtInt m.mesId ++ ascii " LES=" ++ ascii m.lesName ++
      ascii " ch=" ++ fmtInt m.logicalChannel ++ ascii " downlink=" ++ fmtMhz m.downlink ++
      ascii " MHz pres=" ++ fmtInt m.presentation)

/-- 0x83: Logical Channel Assignment. -/
def decodeChanAssignment (fr : Frame) (pos pktLen : ℤ) : Acc (Option StdcMessage) :=
  if pktLen < 16 then return none
  else do
    let b2 ← fr.read (pos + 2)
    let b3 ← fr.read (pos + 3)
    let b4 ← fr.read (pos + 4)
    let b5 ← fr.read (pos + 5)
    let b7 ← fr.read (pos + 7)
    let b10 ← fr.read (pos + 10)
    let b11 ← fr.read (pos + 11)
    let b12 ← fr.read (pos + 12)
    let b13 ← fr.read (pos + 13)
    let m : StdcMessage :=
      { type := .chanAssignment, descriptor := 0x83, mesId := be24 b2 b3 b4, logicalChannel := b7.toNat,
        downlink := downlinkOf b10 b11, uplink := uplinkOf b12 b13 }
    let m := m.withLes b5
    emitText m (ascii "Channel Assignment: MES=" ++ fmtInt m.mesId ++ ascii " LES=" ++ ascii m.lesName ++
      ascii " ch=" ++ fmtInt m.logicalChannel ++ ascii " down=" ++ fmtMhz m.downlink ++ ascii " up=" ++
      fmtMhz m.uplink ++ ascii " MHz")

/-- 0x92: Login Ack. -/
def decodeLoginAck (fr : Frame) (pos pktLen : ℤ) : Acc (Option StdcMessage) :=
  if pktLen < 8 then return none
  else do
    let b5 ← fr.read (pos + 5)
    let b6 ← fr.read (pos + 6)
    let m : StdcMessage := { type := .loginAck, descriptor := 0x92, downlink := downlinkOf b5 b6 }
    emitText m (ascii "Login Ack: downlink=" ++ fmtMhz m.downlink ++ ascii " MHz")

/-- 0xA3: Individual Poll. -/
def decodeIndividualPoll (fr : Frame) (pos pktLen : ℤ) : Acc (Option StdcMessage) :=
  if pktLen < 8 then return none
  else do
    let b2 ← fr.read (pos + 2)
    let b3 ← fr.read (pos + 3)
    let b4 ← fr.read (pos + 4)
    let b5 ← fr.read (pos + 5)
    let m : StdcMessage := { type := .individualPoll, descriptor := 0xA3, mesId := be24 b2 b3 b4 }
    let m := m.withLes b5
    if pktLen ≥ 38 then do
      let text ← shortText fr (pos + 13) (pos + pktLen - 2)
      return some { m with text := text, textLen := text.length }
    else
      emitText m (ascii "Individual Poll: MES=" ++ fmtInt m.mesId ++ ascii " LES=" ++ ascii m.lesName)

/-- 0xA8: Confirmation. -/
def decodeConfirmation (fr : Frame) (pos pktLen : ℤ) : Acc (Option StdcMessage) :=
  if pktLen < 9 then return none
  else do
    let b2 ← fr.read (pos + 2)
    let b3 ← fr.read (pos + 3)
    let b4 ← fr.read (pos + 4)
    let b5 ← fr.read (pos + 5)
    let m : StdcMessage := { type := .confirmation, descriptor := 0xA8, mesId := be24 b2 b3 b4 }
    let m := m.withLes b5
    let smLen ← fr.read (pos + 9)
    if smLen.toNat > 2 ∧ pos + 11 < pos + pktLen - 2 then do
      let text ← shortText fr (pos + 11) (pos + pktLen - 2)
      return some { m with text := text, textLen := text.length }
    else
      emitText m (ascii "Confirmation: MES=" ++ fmtInt m.mesId ++ ascii " LES=" ++ ascii m.lesName)

/-- 0xAA: Message Data. -/
def decodeMessage (fr : Frame) (pos pktLen : ℤ) : Acc (Option StdcMessage) :=
  if pktLen < 7 then return none
  else do
    let b2 ← fr.read (pos + 2)
    let b3 ← fr.read (pos + 3)
    let b4 ← fr.read (pos + 4)
    let m : StdcMessage :=
      { type := .messageData, descriptor := 0xAA, logicalChannel := b3.toNat, packetNo := b4.toNat }
    let m := m.withLes b2
    let payloadStart := pos + 5
    let payloadLen := max (pktLen - 5 - 2) 0
    let text ← extractIa5Text 0 textSize (fun i => fr.read (payloadStart + i)) payloadLen
    if text.length > 0 then return some { m with text := text, textLen := text.length }
    else return none

/-- The station loop of `decode_les_list`: `n` stations are announced and not yet read,
`j` is the next one's position, `tlen` the length wanted so far and `text` what is stored. -/
def lesListLoop (fr : Frame) (stop : ℤ) : ℕ → ℤ → ℤ → List UInt8 → Acc (ℤ × List UInt8)
  | 0, _, tlen, text => return (tlen, text)
  | n + 1, j, tlen, text =>
    if j + 5 < stop then do
      let b0 ← fr.read j
      let b4 ← fr.read (j + 4)
      let b5 ← fr.read (j + 5)
      let sat := (b0.toNat >>> 6) &&& 0x03
      let lid := b0.toNat &&& 0x3F
      let s := ascii " " ++ ascii (getSatName sat) ++ ascii "/" ++ ascii (getLesName sat lid) ++ ascii "@" ++
        fmtMhz (downlinkOf b4 b5)
      let stored ← snprintfText tlen s
      lesListLoop fr stop n (j + 6) (tlen + s.length) (text ++ stored)
    else return (tlen, text)

/-- 0xAB: LES List. -/
def decodeLesList (fr : Frame) (pos pktLen : ℤ) : Acc (Option StdcMessage) :=
  if pktLen < 6 then return none
  else do
    let stationCount ← fr.read (pos + 3)
    let s := ascii "LES List (" ++ fmtInt stationCount.toNat ++ ascii " stations):"
    let stored ← snprintfText 0 s
    let r ← lesListLoop fr (pos + pktLen - 2) stationCount.toNat (pos + 4) s.length stored
    Logged.touch [.text r.1]
    return some { type := .lesList, descriptor := 0xAB, text := r.2, textLen := r.1 }

/-- The cases of the dispatch that keep no state; every other descriptor is skipped. -/
def decodeSimple (desc : UInt8) (fr : Frame) (pos pktLen : ℤ) : Acc (Option StdcMessage) :=
  if desc = Pkt.ackRequest then decodeAckRequest fr pos pktLen
  else if desc = Pkt.channelClear then decodeChannelClear fr pos pktLen
  else if desc = Pkt.msgAck then decodeMsgAck fr pos pktLen
  else if desc = Pkt.signallingCh then decodeSignalling fr pos pktLen
  else if desc = Pkt.bulletinBoard then decodeBulletinBoard fr pos pktLen
  else if desc = Pkt.announcement then decodeAnnouncement fr pos pktLen
  else if desc = Pkt.chanAssignment then decodeChanAssignment fr pos pktLen
  else if desc = Pkt.loginAck then decodeLoginAck fr pos pktLen
  else if desc = Pkt.individualPoll then decodeIndividualPoll fr pos pktLen
  else if desc = Pkt.confirmation then decodeConfirmation fr pos pktLen
  else if desc = Pkt.message then decodeMessage fr pos pktLen
  else if desc = Pkt.lesList then decodeLesList fr pos pktLen
  else return none

end InmarsatSniffer.Stdc
