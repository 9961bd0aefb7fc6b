import Mathlib
import InmarsatSniffer.Spec.Channelizer

/-!
# Adding a channel when memory may run out

`channelizer_add_channel` works in place: it writes to the next slot of the channel table,
enters the channel in a band, and allocates buffers on the way.

* `RawChannelizer`: the tables as they lie there, with the count of the channels.
* `RawChannelizer.addChannel`: the call, failing at any of its four places.
* `Atomic`: a call that cannot be told from one that was not made.
-/

namespace InmarsatSniffer.Ddc

variable {F T : Type*} [Zero T] (dsp : Dsp F T)

/-- Which of the two calls of `malloc` would succeed: for `inter_buf` of a new band, for `out_buf`. -/
structure Memory where
  interBuf : Bool
  outBuf : Bool

/-- `channelizer_t`: of the slots written so far, `num_channels` count. A buffer that was
not allocated is an empty one. -/
structure RawChannelizer (F T : Type*) where
  ch : Channelizer F T
  numChannels : ℕ

/-- A slot behind its `memset`, with what is set before a band is looked for. -/
def blankChannel (type : ChannelType) (channelId : ℤ) : ChannelState F T where
  active := true
  channelId := channelId
  type := type
  bandIdx := 0
  nco := ⟨0, dsp.zero, dsp.zero, 0⟩
  stages := []
  cleanupTaps := fun _ => 0
  cleanupHist := fun _ => dsp.zero
  cleanupIdx := 0
  hasCleanup := false
  outBuf := []
  outCap := 0
  discards := 0

/-- A band as `init_band` leaves it without memory: its family and its NCO are never set. -/
def halfBand (ch : Channelizer F T) (freq : ℚ) (s1 : ℕ) : BandState F T :=
  { initBand dsp ch freq 0 s1 with nco := ⟨0, dsp.one, dsp.one, 0⟩ }

/-- `find_or_create_band`: the bands after it, and the channel's band unless it fails. -/
def RawChannelizer.findOrCreateBand (a : RawChannelizer F T) (freq : ℚ) (type : ChannelType) (mem : Memory) :
    List (BandState F T) × Option ℕ :=
  match a.ch.findBand freq type with
  | some b => (a.ch.bands.modify b (BandState.addIndex a.numChannels), some b)
  | none =>
    if a.ch.bands.length ≥ maxBands then (a.ch.bands, none)
    else if !mem.interBuf then
      -- num_bands is counted up before init_band is called
      (a.ch.bands ++ [halfBand dsp a.ch freq (s1Decim a.ch.sampRate type)], none)
    else
      let bd := initBand dsp a.ch freq (modulationFamily type) (s1Decim a.ch.sampRate type)
      (a.ch.bands ++ [bd.addIndex a.numChannels], some a.ch.bands.length)

/-- The bands, and the slot behind the channels that count, are written. -/
def RawChannelizer.write (a : RawChannelizer F T) (bands : List (BandState F T)) (c : ChannelState F T) :
    RawChannelizer F T :=
  { a with ch := { a.ch with bands := bands, channels := a.ch.channels.take a.numChannels ++ [c] } }

/-- `channelizer_add_channel`: the channelizer after it, and whether it returns 0. -/
def RawChannelizer.addChannel (a : RawChannelizer F T) (freq : ℚ) (type : ChannelType) (channelId : ℤ)
    (mem : Memory) : RawChannelizer F T × Bool :=
  if a.numChannels ≥ maxChannels then (a, false)
  else
    let (bands, bidx) := a.findOrCreateBand dsp freq type mem
    match bidx.bind fun b => bands[b]?.map fun bd => initChannel dsp a.ch freq type channelId b bd with
    | none => (a.write bands (blankChannel dsp type channelId), false)
    | some c =>
      if mem.outBuf then ({ a.write bands c with numChannels := a.numChannels + 1 }, true)
      else (a.write bands c, false)

/-- A call of the channelizer, with the memory that an added channel finds. -/
inductive RawCall where
  | add (freq : ℚ) (type : ChannelType) (channelId : ℤ) (mem : Memory)
  | finalize
  | adjustCenter (offset : ℚ)

/-- One call, and whether it succeeds. -/
def RawChannelizer.call (a : RawChannelizer F T) : RawCall → RawChannelizer F T × Bool
  | .add freq type channelId mem => a.addChannel dsp freq type channelId mem
  | .finalize => ({ a with ch := a.ch.finalize dsp }, true)
  | .adjustCenter offset => ({ a with ch := a.ch.adjustCenter dsp offset }, true)

/-- The calls in order, and which of them succeed. -/
def RawChannelizer.calls (a : RawChannelizer F T) : List RawCall → RawChannelizer F T × List Bool
  | [] => (a, [])
  | c :: cs =>
    let (a₁, ok) := a.call dsp c
    let (a₂, oks) := RawChannelizer.calls a₁ cs
    (a₂, ok :: oks)

/-- `channelizer_create`. -/
def RawChannelizer.create (centerFreq sampRate : ℚ) : RawChannelizer F T := ⟨.create centerFreq sampRate, 0⟩

/-! ## What a call that fails leaves -/

/-- What `channelizer_process` goes through: the bands, with the members of the active
ones, the channels walked in them, and the count of the channels that are flushed. -/
structure View where
  bands : List (Option (List ℕ))
  walked : List ℕ
  flushed : ℕ
  deriving DecidableEq

/-- The channels of a band that are walked. -/
def BandState.walked (bd : BandState F T) (channels : List (ChannelState F T)) : List ℕ :=
  if bd.active then bd.channelIndices.filter fun cidx => channels[cidx]?.any ChannelState.active else []

/-- The view of a channelizer. -/
def RawChannelizer.view (a : RawChannelizer F T) : View where
  bands := a.ch.bands.map fun bd => if bd.active then some bd.channelIndices else none
  walked := a.ch.bands.flatMap fun bd => bd.walked a.ch.channels
  flushed := a.numChannels

/-- **The call that led from `a` to `a'` was none**: the view is as it was, and all later
calls go as they would have gone. -/
def Atomic (a a' : RawChannelizer F T) : Prop :=
  a'.view = a.view ∧ ∀ later, (a'.calls dsp later).2 = (a.calls dsp later).2 ∧
    (a'.calls dsp later).1.view = (a.calls dsp later).1.view

/-- A table is full: that of the channels, or that of the bands when a new one is needed. -/
def RawChannelizer.TableFull (a : RawChannelizer F T) (freq : ℚ) (type : ChannelType) : Prop :=
  a.numChannels ≥ maxChannels ∨ a.ch.findBand freq type = none ∧ a.ch.bands.length ≥ maxBands

/-- All memory that the call asks for is there. -/
def RawCall.HasMemory : RawCall → Prop
  | .add _ _ _ mem => mem.interBuf = true ∧ mem.outBuf = true
  | _ => True

end InmarsatSniffer.Ddc
