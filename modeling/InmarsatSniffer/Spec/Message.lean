import InmarsatSniffer.Lib.ByteMem
import InmarsatSniffer.Lib.Logged

/-!
# STD-C messages and the memory their decoders touch

A packet decoder reads the frame through a pointer (`Frame`) and writes fixed
arrays: the message text, the EGC slot parts and lengths, the multiframe buffer.
Each such access is logged (`Access`), so that "stays inside the array" is a
property of the log (`Access.InBounds`).

Frequencies are exact, in units of 0.0001 MHz: the code's doubles are multiples of
0.0025 MHz and are only ever printed with four decimals.
-/

namespace InmarsatSniffer.Stdc

open ByteMem

/-- `sizeof(msg.text)`. -/
abbrev textSize : ℤ := 4096
/-- `sizeof(slot->parts)`. -/
abbrev partsSize : ℤ := 8192
/-- Entries of `slot->part_lens`. -/
abbrev partLensSize : ℤ := 64
/-- `sizeof(mfp->data)`. -/
abbrev mfpSize : ℤ := 4096

/-- An access of the packet parser: a read of `frame[i]` for a frame of `len` bytes,
or a write to entry `i` of one of the arrays. -/
inductive Access where
  | frame (i len : ℤ)
  | text (i : ℤ)
  | parts (i : ℤ)
  | partLens (i : ℤ)
  | mfpData (i : ℤ)
  deriving DecidableEq, Repr

/-- The access lies inside its array. -/
def Access.InBounds : Access → Prop
  | .frame i len => 0 ≤ i ∧ i < len
  | .text i => 0 ≤ i ∧ i < textSize
  | .parts i => 0 ≤ i ∧ i < partsSize
  | .partLens i => 0 ≤ i ∧ i < partLensSize
  | .mfpData i => 0 ≤ i ∧ i < mfpSize

instance : DecidablePred Access.InBounds := fun a => by
  cases a <;> unfold Access.InBounds <;> infer_instance

/-- A computation of the parser. -/
abbrev Acc := Logged Access

/-- The computation stays inside its arrays. -/
abbrev Acc.Safe {α : Type} (c : Acc α) : Prop := Logged.All Access.InBounds c

/-- The arguments `frame` and `frame_len`: the bytes from the pointer on, and the length. -/
structure Frame where
  mem : Mem
  len : ℤ

/-- `frame[i]`. -/
def Frame.read (fr : Frame) (i : ℤ) : Acc UInt8 := ⟨fr.mem i, [.frame i fr.len]⟩

/-- `memcpy` out of the frame: `n` bytes from `frame[i]` on. -/
def Frame.readN (fr : Frame) (i : ℤ) (n : ℕ) : Acc (List UInt8) :=
  ⟨slice fr.mem i n, (List.range n).map fun k : ℕ => .frame (i + k) fr.len⟩

/-- `(a << 8) | b`. -/
def be16 (a b : UInt8) : ℕ := a.toNat <<< 8 ||| b.toNat

/-- `(a << 16) | (b << 8) | c`. -/
def be24 (a b c : UInt8) : ℕ := a.toNat <<< 16 ||| b.toNat <<< 8 ||| c.toNat

/-! ## Lookup tables -/

def getSatName (sat : ℕ) : String :=
  if sat = 0 then "AOR-W" else if sat = 1 then "AOR-E" else if sat = 2 then "POR"
  else if sat = 3 then "IOR" else if sat = 9 then "All Regions" else "Unknown"

def getLesName (sat lesId : ℕ) : String :=
  let v := lesId + sat * 100
  if v ∈ [1, 101, 201, 301] then "Vizada-Telenor, USA"
  else if v ∈ [2, 102, 302] then "Stratos Global (Burum-2), Netherlands"
  else if v = 202 then "Stratos Global (Auckland), New Zealand"
  else if v ∈ [3, 103, 203, 303] then "KDDI, Japan"
  else if v ∈ [4, 104, 204, 304] then "Vizada-Telenor, Norway"
  else if v ∈ [44, 144, 244, 344] then "NCS"
  else if v ∈ [105, 335] then "Telecom, Italy"
  else if v ∈ [305, 120] then "OTESTAT, Greece"
  else if v = 306 then "VSNL, India"
  else if v ∈ [110, 310] then "Turk Telecom, Turkey"
  else if v ∈ [211, 311] then "Beijing MCN, China"
  else if v ∈ [12, 112, 212, 312] then "Stratos Global (Burum), Netherlands"
  else if v = 114 then "Embratel, Brazil"
  else if v ∈ [116, 316] then "TP, Poland"
  else if v ∈ [117, 217, 317] then "Morsviazsputnik, Russia"
  else if v ∈ [21, 121, 221, 321] then "Vizada (FT), France"
  else if v ∈ [127, 327] then "Bezeq, Israel"
  else if v ∈ [210, 328] then "Singapore Telecom, Singapore"
  else if v = 330 then "VISHIPEL, Vietnam"
  else "Unknown"

/-- The EGC address length by service code. -/
def getAddressLength (msgType : ℕ) : ℤ :=
  if msgType = 0x00 then 3
  else if msgType ∈ [0x11, 0x31] then 4
  else if msgType ∈ [0x02, 0x72] then 5
  else if msgType ∈ [0x13, 0x23, 0x33, 0x73] then 6
  else if msgType ∈ [0x04, 0x14, 0x24, 0x34, 0x44] then 7
  else 3

/-! ## Messages -/

/-- `stdc_msg_type_t`, the values the decoder sends. -/
inductive MsgType where
  | egcDouble1 | egcDouble2 | announcement | bulletin | messageData | netUpdate | channelClear
  | ackRequest | msgAck | chanAssignment | loginAck | individualPoll | confirmation | lesList
  deriving DecidableEq, Repr

/-- `stdc_message_t` as handed to the callback. `lat` and `lon` are NaN and
`has_position` is 0 in every message the decoder sends; they are left out. -/
structure StdcMessage where
  type : MsgType
  descriptor : UInt8
  satId : ℕ := 0
  lesId : ℕ := 0
  satName : String := ""
  lesName : String := ""
  serviceCode : ℕ := 0
  priority : ℕ := 0
  repetition : ℕ := 0
  messageId : ℕ := 0
  continuation : ℕ := 0
  packetNo : ℕ := 0
  logicalChannel : ℕ := 0
  uplink : ℤ := 0
  downlink : ℤ := 0
  mesId : ℕ := 0
  presentation : ℕ := 0
  frameNumber : ℕ := 0
  text : List UInt8 := []
  textLen : ℤ := 0
  crcOk : Bool := true
  deriving DecidableEq

/-- The satellite and LES fields from one byte. -/
def StdcMessage.withLes (m : StdcMessage) (b : UInt8) : StdcMessage :=
  let sat := (b.toNat >>> 6) &&& 0x03
  let les := b.toNat &&& 0x3F
  { m with satId := sat, lesId := les, satName := getSatName sat, lesName := getLesName sat les }

/-! ## Text -/

/-- The bytes of a string literal of the code. -/
def ascii (s : String) : List UInt8 := s.toList.map fun c => UInt8.ofNat c.toNat

/-- `%d` of a number that is never negative. -/
def fmtInt (n : ℕ) : List UInt8 := (Nat.toDigits 10 n).map fun c => UInt8.ofNat c.toNat

/-- The decimal digits of `n`, zero padded to `w` places (`%02d`, and the decimals of `%.4f`). -/
def fmtPad (w n : ℕ) : List UInt8 := List.replicate (w - (fmtInt n).length) 0x30 ++ fmtInt n

/-- `%.4f` of a frequency. -/
def fmtMhz (f : ℤ) : List UInt8 := fmtInt (f.toNat / 10000) ++ [0x2E] ++ fmtPad 4 (f.toNat % 10000)

/-- `(x - 6000) * 0.0025 + 1626.5`. -/
def uplinkOf (a b : UInt8) : ℤ := ((be16 a b : ℤ) - 6000) * 25 + 16265000

/-- `(x - 8000) * 0.0025 + 1530.5`. -/
def downlinkOf (a b : UInt8) : ℤ := ((be16 a b : ℤ) - 8000) * 25 + 15305000

/-- `snprintf(msg.text + off, sizeof(msg.text) - off, ...)` of an expanded format: the
characters stored. The size is a `size_t`, so a negative one wraps. -/
def snprintfText (off : ℤ) (s : List UInt8) : Acc (List UInt8) :=
  let size := ((textSize - off) % 2 ^ 64).toNat
  let stored := s.take (size - 1)
  if size = 0 then pure []
  else do
    Logged.touch ((List.range (stored.length + 1)).map fun k : ℕ => .text (off + k))
    return stored

/-- The characters `extract_ia5_text` keeps. -/
def ia5Printable (c : UInt8) : Bool := 0x20 ≤ c || c == 0x0A || c == 0x0D || c == 0x09

/-- The loop of `extract_ia5_text`: `todo` bytes are left, `data[i]` is next, `tlen`
characters are stored at `msg.text + out`. -/
def extractLoop (out maxOut : ℤ) (data : ℕ → Acc UInt8) : ℕ → ℕ → ℕ → Acc (List UInt8)
  | 0, _, tlen => do Logged.touch [.text (out + tlen)]; return []
  | todo + 1, i, tlen =>
    if (tlen : ℤ) < maxOut - 1 then do
      let b ← data i
      let c := b &&& 0x7F
      if ia5Printable c then do
        Logged.touch [.text (out + tlen)]
        let rest ← extractLoop out maxOut data todo (i + 1) (tlen + 1)
        return c :: rest
      else if c == 0x03 then do
        Logged.touch [.text (out + tlen)]
        return []
      else extractLoop out maxOut data todo (i + 1) tlen
    else do
      Logged.touch [.text (out + tlen)]
      return []

/-- `extract_ia5_text(msg.text + out, max_out, data, len)`. -/
def extractIa5Text (out maxOut : ℤ) (data : ℕ → Acc UInt8) (len : ℤ) : Acc (List UInt8) :=
  extractLoop out maxOut data len.toNat 0 0

/-- The short-message loop of `decode_individual_poll` and `decode_confirmation`: from
`frame[i]` on, without a stop at ETX and without tabs. -/
def shortTextLoop (fr : Frame) : ℕ → ℤ → ℕ → Acc (List UInt8)
  | 0, _, tlen => do Logged.touch [.text tlen]; return []
  | todo + 1, i, tlen =>
    if (tlen : ℤ) < textSize - 1 then do
      let b ← fr.read i
      let c := b &&& 0x7F
      if 0x20 ≤ c || c == 0x0A || c == 0x0D then do
        Logged.touch [.text tlen]
        let rest ← shortTextLoop fr todo (i + 1) (tlen + 1)
        return c :: rest
      else shortTextLoop fr todo (i + 1) tlen
    else do
      Logged.touch [.text tlen]
      return []

/-- The short message in `frame[start .. stop)`. -/
def shortText (fr : Frame) (start stop : ℤ) : Acc (List UInt8) :=
  shortTextLoop fr (stop - start).toNat start 0

end InmarsatSniffer.Stdc
