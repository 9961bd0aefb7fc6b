import InmarsatSniffer.Spec.Packet
import Mathlib.Data.List.FinRange

/-!
# EGC reassembly

Sixteen slots collect the parts of EGC messages, by message id. A part is stored at
128 times its index `(pkt_no - 1) * 2 + is_part2`; a 0xB2 packet without the
continuation bit completes its slot, and `try_emit_egc` sends what the slot holds.
`now` is `time(NULL)` while a packet is decoded.
-/

namespace InmarsatSniffer.Stdc

open ByteMem

/-- `EGC_MAX_REASSEMBLY`. -/
abbrev egcMaxReassembly : ℕ := 16

/-- `EGC_TIMEOUT_SEC`. -/
abbrev egcTimeoutSec : ℤ := 60

/-- `egc_reassembly_t`. -/
structure EgcReassembly where
  active : Bool
  messageId : ℕ
  presentation : ℕ
  serviceCode : ℕ
  priority : ℕ
  repetition : ℕ
  parts : Mem
  partLens : ℤ → ℤ
  maxPktNo : ℤ
  complete : Bool
  lastSeen : ℤ

/-- A slot after `memset` to zero. -/
def EgcReassembly.zero : EgcReassembly :=
  { active := false, messageId := 0, presentation := 0, serviceCode := 0, priority := 0, repetition := 0,
    parts := ByteMem.zero, partLens := fun _ => 0, maxPktNo := 0, complete := false, lastSeen := 0 }

/-- A slot taken for `msgId`. -/
def EgcReassembly.fresh (msgId : ℕ) (now : ℤ) : EgcReassembly :=
  { EgcReassembly.zero with active := true, messageId := msgId, lastSeen := now }

/-- `egc_slots`. -/
abbrev EgcSlots := Fin egcMaxReassembly → EgcReassembly

/-- The slots of a new decoder. -/
def EgcSlots.init : EgcSlots := fun _ => EgcReassembly.zero

/-- The slot seen longest ago, the first such. -/
def oldestSlot (slots : EgcSlots) : Fin egcMaxReassembly :=
  (List.finRange egcMaxReassembly).foldl
    (fun oldest i => if (slots i).lastSeen < (slots oldest).lastSeen then i else oldest) 0

/-- `find_egc_slot`: the slot of `msgId`, else an empty or expired one taken for it,
else the oldest one. -/
def findEgcSlot (slots : EgcSlots) (now : ℤ) (msgId : ℕ) : EgcSlots × Fin egcMaxReassembly :=
  match (List.finRange egcMaxReassembly).find? fun i => (slots i).active && (slots i).messageId == msgId with
  | some i => (slots, i)
  | none =>
    match (List.finRange egcMaxReassembly).find? fun i =>
        !(slots i).active || decide (now - (slots i).lastSeen > egcTimeoutSec) with
    | some i => (Function.update slots i (EgcReassembly.fresh msgId now), i)
    | none => (Function.update slots (oldestSlot slots) (EgcReassembly.fresh msgId now), oldestSlot slots)

/-- The loop of `try_emit_egc`: part `i` is next, `n` are left, `text` is what is written. -/
def emitLoop (slot : EgcReassembly) : ℕ → ℤ → List UInt8 → Acc (List UInt8)
  | 0, _, text => return text
  | n + 1, i, text =>
    if (text.length : ℤ) < textSize - 1 then do
      let off := i * 128
      let plen := slot.partLens i
      if plen ≤ 0 then emitLoop slot n (i + 1) text
      else do
        let plen := min plen 128
        if slot.presentation = 0 then do
          let t ← extractIa5Text text.length (textSize - text.length)
            (fun k : ℕ => pure (slot.parts (off + k))) plen
          emitLoop slot n (i + 1) (text ++ t)
        else do
          let len := if text.length + plen ≥ textSize then textSize - text.length - 1 else plen
          Logged.touch ((List.range len.toNat).map fun k : ℕ => .text (text.length + k))
          emitLoop slot n (i + 1) (text ++ slice slot.parts off len.toNat)
    else return text

/-- `try_emit_egc`: the message for a complete slot, if it has text, and the slot released. -/
def tryEmitEgc (slot : EgcReassembly) : Acc (EgcReassembly × Option StdcMessage) :=
  if slot.complete then do
    let text ← emitLoop slot (slot.maxPktNo + 1).toNat 0 []
    Logged.touch [.text text.length]
    let m : StdcMessage :=
      { type := .egcDouble1, descriptor := 0xB1, serviceCode := slot.serviceCode, priority := slot.priority,
        repetition := slot.repetition, messageId := slot.messageId, text := text, textLen := text.length }
    return ({ slot with active := false }, if text.length > 0 then some m else none)
  else return (slot, none)

/-- The header fields of an EGC packet, and where its payload stands. -/
structure EgcHeader where
  msgType : ℕ
  continuation : Bool
  priority : ℕ
  repetition : ℕ
  msgId : ℕ
  pktNo : ℕ
  presentation : ℕ
  payloadStart : ℤ
  payloadLen : ℤ

/-- The header of an EGC packet. -/
def readEgcHeader (fr : Frame) (pos pktLen : ℤ) : Acc EgcHeader := do
  let msgType ← fr.read (pos + 2)
  let b3 ← fr.read (pos + 3)
  let b4 ← fr.read (pos + 4)
  let b5 ← fr.read (pos + 5)
  let pktNo ← fr.read (pos + 6)
  let presentation ← fr.read (pos + 7)
  let hdrSize := min (8 + getAddressLength msgType.toNat) (pktLen - 2)
  return {
    msgType := msgType.toNat
    continuation := (b3.toNat >>> 7) &&& 1 == 1
    priority := (b3.toNat >>> 5) &&& 3
    repetition := b3.toNat &&& 0x1F
    msgId := be16 b4 b5
    pktNo := pktNo.toNat
    presentation := presentation.toNat
    payloadStart := pos + hdrSize
    payloadLen := max (pktLen - 2 - hdrSize) 0 }

/-- The index of a part in its slot. -/
def partIdx (pktNo : ℕ) (isPart2 : Bool) : ℤ :=
  min (max (((pktNo : ℤ) - 1) * 2 + (if isPart2 then 1 else 0)) 0) 63

/-- The slot after a packet's header and payload are stored in it. -/
def storePart (slot : EgcReassembly) (h : EgcHeader) (now : ℤ) (isPart2 : Bool) (payload : List UInt8) :
    Acc EgcReassembly := do
  let idx := partIdx h.pktNo isPart2
  let off := idx * 128
  let fits := off + payload.length ≤ partsSize
  if fits then
    Logged.touch ((List.range payload.length).map fun k : ℕ => Access.parts (off + k))
    Logged.touch [Access.partLens idx]
  return { slot with
    serviceCode := h.msgType
    priority := h.priority
    repetition := h.repetition
    presentation := h.presentation
    lastSeen := now
    parts := if fits then blit slot.parts off payload else slot.parts
    partLens := if fits then Function.update slot.partLens idx payload.length else slot.partLens
    maxPktNo := max slot.maxPktNo idx
    complete := slot.complete || (!h.continuation && isPart2) }

/-- The standalone message of one EGC packet, for immediate display. -/
def standaloneEgc (fr : Frame) (h : EgcHeader) (isPart2 : Bool) (payloadLen : ℤ) : Acc (Option StdcMessage) :=
  if payloadLen > 0 then do
    let m : StdcMessage :=
      { type := if isPart2 then .egcDouble2 else .egcDouble1, descriptor := if isPart2 then 0xB2 else 0xB1,
        serviceCode := h.msgType, priority := h.priority, repetition := h.repetition, messageId := h.msgId,
        packetNo := h.pktNo, continuation := if h.continuation then 1 else 0, presentation := h.presentation }
    if h.presentation = 0 then do
      let text ← extractIa5Text 0 textSize (fun i => fr.read (h.payloadStart + i)) payloadLen
      return if text.length > 0 then some { m with text := text, textLen := text.length } else none
    else do
      let n := if payloadLen ≥ textSize then textSize - 1 else payloadLen
      let text ← fr.readN h.payloadStart n.toNat
      Logged.touch ((List.range (n.toNat + 1)).map fun k : ℕ => .text k)
      return if n > 0 then some { m with text := text, textLen := n } else none
  else return none

/-- What `decode_egc` does: the slots after it, and the messages emitted for the packet
alone and for a completed slot, in this order. -/
structure EgcResult where
  slots : EgcSlots
  single : Option StdcMessage
  reassembled : Option StdcMessage

/-- `decode_egc`: 0xB1 and 0xB2. -/
def decodeEgc (now : ℤ) (slots : EgcSlots) (fr : Frame) (pos pktLen : ℤ) (isPart2 : Bool) : Acc EgcResult :=
  if pktLen < 10 then return ⟨slots, none, none⟩
  else do
    let h ← readEgcHeader fr pos pktLen
    let found := findEgcSlot slots now h.msgId
    -- the clamp for the slot's part size also cuts the standalone text
    let payloadLen := min h.payloadLen 128
    let payload ← fr.readN h.payloadStart payloadLen.toNat
    let slot ← storePart (found.1 found.2) h now isPart2 payload
    let single ← standaloneEgc fr h isPart2 payloadLen
    let r ← tryEmitEgc slot
    return ⟨Function.update found.1 found.2 r.1, single, r.2⟩

end InmarsatSniffer.Stdc
