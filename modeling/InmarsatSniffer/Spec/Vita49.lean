import Mathlib
import InmarsatSniffer.Lib.ByteMem
import InmarsatSniffer.Lib.Logged

/-!
# VITA 49 over UDP

The receive loop of `vita49_thread`: a datagram holds a VRT packet, perhaps in a VRL wrapper.
Context packets are looked through for the frequency and the sample rate, signal data packets
give samples. `pkt` is the memory from `pkt_buf` on, of which the datagram is the first `len`
bytes; the reads are logged by their offsets.
-/

namespace InmarsatSniffer.Vita49

open ByteMem

/-- A computation that reads bytes of `pkt_buf`. -/
abbrev Reads := Logged ℕ

/-- "VRLP". -/
abbrev vrlMagic : UInt32 := 0x56524C50

/-- VRT packet types. -/
abbrev VrtType.signalDataNoSid : UInt32 := 0x0
abbrev VrtType.signalData : UInt32 := 0x1
abbrev VrtType.ifContext : UInt32 := 0x4
abbrev VrtType.extContext : UInt32 := 0x5

/-- A difference of unsigned numbers of `w` bits; below zero it wraps around. -/
def wrapSub (w a b : ℕ) : ℕ := (a + 2 ^ w - b) % 2 ^ w

/-- Four bytes in network order. -/
def be32 (b0 b1 b2 b3 : UInt8) : UInt32 :=
  UInt32.ofNat (2 ^ 24 * b0.toNat + 2 ^ 16 * b1.toNat + 2 ^ 8 * b2.toNat + b3.toNat)

def readByte (pkt : Mem) (off : ℕ) : Reads UInt8 := do
  Logged.touch [off]
  pure (pkt off)

/-- `ntohl` of the word at an offset. -/
def readWord (pkt : Mem) (off : ℕ) : Reads UInt32 := do
  let b0 ← readByte pkt off
  let b1 ← readByte pkt (off + 1)
  let b2 ← readByte pkt (off + 2)
  let b3 ← readByte pkt (off + 3)
  pure (be32 b0 b1 b2 b3)

/-- `read_be64`. -/
def readBe64 (pkt : Mem) (off : ℕ) : Reads UInt64 := do
  let hi ← readWord pkt off
  let lo ← readWord pkt (off + 4)
  pure (hi.toUInt64 <<< 32 ||| lo.toUInt64)

/-- `vrl_strip`: the offset of the VRT packet, and the length without the VRL trailer. -/
def vrlStrip (pkt : Mem) (pktLen : ℕ) : Reads (ℕ × ℕ) :=
  if pktLen ≥ 12 then do
    let w0 ← readWord pkt 0
    if w0 = vrlMagic then pure (8, wrapSub 64 pktLen 4) else pure (0, pktLen)
  else pure (0, pktLen)

/-- The fields of the first word of a VRT packet. -/
structure VrtHeader where
  pktType : UInt32
  classId : UInt32
  trailer : UInt32
  tsi : UInt32
  tsf : UInt32
  pktSizeW : ℕ

def VrtHeader.ofWord (w0 : UInt32) : VrtHeader where
  pktType := (w0 >>> 28) &&& 0xF
  classId := (w0 >>> 27) &&& 0x1
  trailer := (w0 >>> 26) &&& 0x1
  tsi := (w0 >>> 22) &&& 0x3
  tsf := (w0 >>> 20) &&& 0x3
  pktSizeW := (w0 &&& 0xFFFF).toNat

/-- `vrt_parse_header`: the offset and the number of the bytes of the payload. -/
def vrtParseHeader (pkt : Mem) (pktLen : ℕ) : Reads (Option (ℕ × ℕ)) :=
  if pktLen < 4 then pure none
  else do
    let vrl ← vrlStrip pkt pktLen
    let w0 ← readWord pkt vrl.1
    let h := VrtHeader.ofWord w0
    if h.pktType ≠ VrtType.signalDataNoSid ∧ h.pktType ≠ VrtType.signalData then pure none
    else
      let vrtLen := wrapSub 64 vrl.2 vrl.1
      let pktSizeBytes := h.pktSizeW * 4
      if pktSizeBytes > vrtLen ∨ pktSizeBytes < 4 then pure none
      else
        let hdrWords := 1 + (if h.pktType = VrtType.signalData then 1 else 0) + (if h.classId ≠ 0 then 2 else 0) +
          (if h.tsi ≠ 0 then 1 else 0) + (if h.tsf ≠ 0 then 2 else 0)
        let trailerWords := if h.trailer ≠ 0 then 1 else 0
        if hdrWords + trailerWords ≥ h.pktSizeW then pure none
        else
          let payloadWords := wrapSub 32 (wrapSub 32 h.pktSizeW hdrWords) trailerWords
          pure (some (vrl.1 + hdrWords * 4, payloadWords * 4))

/-! ## Context packets -/

/-- A field of the context, by its indicator bit. -/
structure CifField where
  bit : UInt32
  words : ℕ

/-- `1u << n`. -/
abbrev cifBit (n : UInt32) : UInt32 := (1 : UInt32) <<< n

abbrev cifRfRefFreq : UInt32 := cifBit 27
abbrev cifSampleRate : UInt32 := cifBit 21

/-- `cif_fields`. -/
def cifFields : List CifField :=
  [⟨cifBit 31, 1⟩, ⟨cifBit 30, 1⟩, ⟨cifBit 29, 2⟩, ⟨cifBit 28, 2⟩, ⟨cifRfRefFreq, 2⟩, ⟨cifBit 26, 2⟩, ⟨cifBit 25, 2⟩,
    ⟨cifBit 24, 1⟩, ⟨cifBit 23, 1⟩, ⟨cifBit 22, 1⟩, ⟨cifSampleRate, 2⟩]

/-- What a context packet reports, in units of 2^-20 Hz. -/
structure ContextFields where
  rfFreq : Option UInt64
  sampRate : Option UInt64

/-- The loop over the fields: `offW` is the word of the next one. `none` when one of them does
not fit in the packet. -/
def readFields (pkt : Mem) (vrt pktSizeW : ℕ) (cif0 : UInt32) :
    List CifField → ℕ → ContextFields → Reads (Option ContextFields)
  | [], _, ctx => pure (some ctx)
  | field :: fields, offW, ctx =>
    if cif0 &&& field.bit = 0 then readFields pkt vrt pktSizeW cif0 fields offW ctx
    else if offW + field.words > pktSizeW then pure none
    else if field.bit = cifRfRefFreq then do
      let val ← readBe64 pkt (vrt + offW * 4)
      readFields pkt vrt pktSizeW cif0 fields (offW + field.words) { ctx with rfFreq := some val }
    else if field.bit = cifSampleRate then do
      let val ← readBe64 pkt (vrt + offW * 4)
      readFields pkt vrt pktSizeW cif0 fields (offW + field.words) { ctx with sampRate := some val }
    else readFields pkt vrt pktSizeW cif0 fields (offW + field.words) ctx

/-- `vrt_handle_context` of the packet at offset `vrt`: `ctx_logged`, and what it reports on
`stderr`. -/
def vrtHandleContext (pkt : Mem) (vrt vrtLen : ℕ) (ctxLogged : Bool) : Reads (Bool × Option ContextFields) :=
  if vrtLen < 8 then pure (ctxLogged, none)
  else do
    let w0 ← readWord pkt vrt
    let h := VrtHeader.ofWord w0
    if h.pktSizeW * 4 > vrtLen ∨ h.pktSizeW < 2 then pure (ctxLogged, none)
    else
      let offW := 2 + (if h.classId ≠ 0 then 2 else 0) + (if h.tsi ≠ 0 then 1 else 0) + (if h.tsf ≠ 0 then 2 else 0)
      if offW ≥ h.pktSizeW then pure (ctxLogged, none)
      else do
        let cif0 ← readWord pkt (vrt + offW * 4)
        let fields ← readFields pkt vrt h.pktSizeW cif0 cifFields (offW + 1) ⟨none, none⟩
        match fields with
        | none => pure (ctxLogged, none)
        | some ctx =>
          if ctx.rfFreq.isNone ∧ ctx.sampRate.isNone then pure (ctxLogged, none)
          else if ctxLogged then pure (ctxLogged, none)
          else pure (true, some ctx)

/-! ## The receive loop -/

/-- `iq_format_t`. -/
inductive IqFormat where
  | ci8
  | cu8
  | ci16
  | cf32
  deriving DecidableEq

/-- `sample_buf_t`: bit patterns of floats, or bytes. -/
inductive SampleBuf where
  | floats (num : ℕ) (samples : List UInt32)
  | int8s (num : ℕ) (samples : List UInt8)
  deriving DecidableEq

/-- `n` words from an offset on. -/
def readWords (pkt : Mem) : ℕ → ℕ → Reads (List UInt32)
  | _, 0 => pure []
  | off, n + 1 => do
    let w ← readWord pkt off
    let ws ← readWords pkt (off + 4) n
    pure (w :: ws)

/-- `n` bytes from an offset on. -/
def readBytes (pkt : Mem) : ℕ → ℕ → Reads (List UInt8)
  | _, 0 => pure []
  | off, n + 1 => do
    let b ← readByte pkt off
    let bs ← readBytes pkt (off + 1) n
    pure (b :: bs)

/-- `ntohs(src[i]) >> 8` of `n` samples of two bytes. -/
def readHighBytes (pkt : Mem) : ℕ → ℕ → Reads (List UInt8)
  | _, 0 => pure []
  | off, n + 1 => do
    let hi ← readByte pkt off
    let lo ← readByte pkt (off + 1)
    let bs ← readHighBytes pkt (off + 2) n
    pure ((((hi.toUInt16 <<< 8) ||| lo.toUInt16) >>> 8).toUInt8 :: bs)

/-- The samples of a payload, if there is one. -/
def readSamples (fmt : IqFormat) (pkt : Mem) (off bytes : ℕ) : Reads (Option SampleBuf) :=
  match fmt with
  | .cf32 =>
    let num := bytes / 8
    if num = 0 then pure none
    else do
      let ws ← readWords pkt off (num * 2)
      pure (some (.floats num ws))
  | .ci16 =>
    let num := bytes / 4
    if num = 0 then pure none
    else do
      let bs ← readHighBytes pkt off (num * 2)
      pure (some (.int8s num bs))
  -- `case FMT_CI8: default:`
  | .ci8 | .cu8 =>
    let num := bytes / 2
    if num = 0 then pure none
    else do
      let bs ← readBytes pkt off (num * 2)
      pure (some (.int8s num bs))

/-- The variables of the loop. -/
structure Receiver where
  lastCount : ℕ
  haveCount : Bool
  ctxLogged : Bool
  totalPkts : UInt64
  skippedPkts : UInt64
  gapPkts : UInt64

/-- Whether the loop takes a datagram for a context packet; `ctx` is what `vrl_strip` says. -/
def isContext (pkt : Mem) (ctx : ℕ × ℕ) : Reads Bool :=
  if ctx.2 > ctx.1 + 4 then do
    let cw0 ← readWord pkt ctx.1
    let ctype := (VrtHeader.ofWord cw0).pktType
    pure (ctype = VrtType.ifContext ∨ ctype = VrtType.extContext : Bool)
  else pure false

/-- The count of a packet is taken down, and a gap is noted. -/
def Receiver.count (st : Receiver) (count : ℕ) : Receiver :=
  { st with
    gapPkts := if st.haveCount ∧ count ≠ (st.lastCount + 1) &&& 0xF then st.gapPkts + 1 else st.gapPkts
    lastCount := count
    haveCount := true
    totalPkts := st.totalPkts + 1 }

/-- The loop body for a datagram of `len` bytes: the context that is reported and the samples
that are pushed. -/
def receive (fmt : IqFormat) (pkt : Mem) (len : ℕ) (st : Receiver) :
    Reads (Receiver × Option ContextFields × Option SampleBuf) := do
  let ctx ← vrlStrip pkt len
  let isCtx ← isContext pkt ctx
  if isCtx then do
    let r ← vrtHandleContext pkt ctx.1 (wrapSub 64 ctx.2 ctx.1) st.ctxLogged
    pure ({ st with ctxLogged := r.1 }, r.2, none)
  else do
    let parsed ← vrtParseHeader pkt len
    match parsed with
    | none => pure ({ st with skippedPkts := st.skippedPkts + 1 }, none, none)
    | some (off, bytes) => do
      let magic ← readWord pkt 0
      let w0Seq ← readWord pkt (if magic = vrlMagic then 8 else 0)
      let samples ← readSamples fmt pkt off bytes
      pure (st.count ((w0Seq >>> 16) &&& 0xF).toNat, none, samples)

/-! ## The format -/

/-- The header of a VRT packet. -/
def headerOf (vrt : List UInt8) : VrtHeader :=
  VrtHeader.ofWord (be32 (vrt.getD 0 0) (vrt.getD 1 0) (vrt.getD 2 0) (vrt.getD 3 0))

/-- The words in front of the payload: the header, the stream id of its packet type, and the class
id and the timestamps it announces. -/
def VrtHeader.words (h : VrtHeader) : List ℕ :=
  [1, if h.pktType = VrtType.signalData then 1 else 0, if h.classId ≠ 0 then 2 else 0, if h.tsi ≠ 0 then 1 else 0,
    if h.tsf ≠ 0 then 2 else 0]

/-- A VRL wrapper: eight bytes that begin with "VRLP" in front, and four bytes behind. -/
structure Wrapped (datagram front vrt back : List UInt8) : Prop where
  split : datagram = front ++ vrt ++ back
  frontLen : front.length = 8
  magic : front.take 4 = [0x56, 0x52, 0x4C, 0x50]
  backLen : back.length = 4

/-- A signal data packet, its parts, and what is behind it. -/
structure IsSignalData (vrt header payload trailer rest : List UInt8) : Prop where
  split : vrt = header ++ payload ++ trailer ++ rest
  kind : (headerOf vrt).pktType = VrtType.signalDataNoSid ∨ (headerOf vrt).pktType = VrtType.signalData
  headerLen : header.length = 4 * (headerOf vrt).words.sum
  trailerLen : trailer.length = if (headerOf vrt).trailer ≠ 0 then 4 else 0
  size : header.length + payload.length + trailer.length = 4 * (headerOf vrt).pktSizeW
  payloadLen : 4 ≤ payload.length

/-- A datagram with a signal data packet, whose payload are the `n` bytes from `off` on. -/
def IsPayload (datagram : List UInt8) (off n : ℕ) : Prop :=
  ∃ front vrt back header payload trailer rest : List UInt8,
    (Wrapped datagram front vrt back ∨
      (¬∃ f v b : List UInt8, Wrapped datagram f v b) ∧ front = [] ∧ vrt = datagram ∧ back = []) ∧
    IsSignalData vrt header payload trailer rest ∧ off = front.length + header.length ∧ n = payload.length

end InmarsatSniffer.Vita49
