import Mathlib

/-!
# Setting up the channelizer

Each channel is mixed down and decimated in two stages: with the other channels of its
band to an intermediate rate, then by itself. Frequencies and rates are rational numbers,
without rounding or overflow; the samples `F`, the filter taps `T` and the arithmetic on
them (`Dsp`) are parameters.
-/

namespace InmarsatSniffer.Ddc

/-- `MAX_STAGES`. -/
abbrev maxStages : ℕ := 4

/-- `STAGE_FIR_TAPS`. -/
abbrev stageFirTaps : ℕ := 63

/-- `CLEANUP_FIR_TAPS`. -/
abbrev cleanupFirTaps : ℕ := 127

/-- `MAX_BANDS`. -/
abbrev maxBands : ℕ := 8

/-- `MAX_CHANNELS`. -/
abbrev maxChannels : ℕ := 32

/-- `channel_type_t`. -/
inductive ChannelType where
  | stdcEgc
  | aero600
  | aero1200
  | aero10500
  | aero8400
  deriving DecidableEq

/-- The arithmetic on samples: the NCO and the filters. -/
structure Dsp (F T : Type*) where
  zero : F
  one : F
  mul : F → F → F
  /-- `acc + x * tap`. -/
  mulAdd : F → F → T → F
  /-- The phasor divided by its magnitude, if that is positive. -/
  normalize : F → F
  /-- `cosf(phase_inc) + sinf(phase_inc) * I` for an NCO of a frequency, at a rate. -/
  phasor : ℚ → ℚ → F
  /-- `design_lowpass`. -/
  designLowpass : ℕ → ℚ → ℕ → T
  /-- `simd_fir_ccf` of the cleanup taps, from a place in the history on. -/
  simdFirCcf : (ℕ → T) → (ℕ → F) → F
  /-- The product with `channel_gain`. -/
  applyGain : ChannelType → F → F

variable {F T : Type*}

/-- `decim_stage_t`. -/
structure DecimStage (F T : Type*) where
  decimation : ℕ
  count : ℕ
  firTaps : ℕ → T
  firHist : ℕ → F
  firIdx : ℕ

/-- The fields of an NCO. -/
structure Nco (F : Type*) where
  freq : ℚ
  phasor : F
  current : F
  renorm : ℕ

/-- `band_state_t`; `discards` counts the samples for which `inter_buf` has no room. -/
structure BandState (F T : Type*) where
  active : Bool
  centerFreq : ℚ
  intermediateRate : ℚ
  nco : Nco F
  stages : List (DecimStage F T)
  interBuf : List F
  interCap : ℕ
  channelIndices : List ℕ
  family : ℕ
  discards : ℕ

/-- `channel_state_t`; `discards` counts the samples for which `out_buf` has no room. -/
structure ChannelState (F T : Type*) where
  active : Bool
  channelId : ℤ
  type : ChannelType
  bandIdx : ℕ
  nco : Nco F
  stages : List (DecimStage F T)
  cleanupTaps : ℕ → T
  cleanupHist : ℕ → F
  cleanupIdx : ℕ
  hasCleanup : Bool
  outBuf : List F
  outCap : ℕ
  discards : ℕ

/-- `channelizer_t`. -/
structure Channelizer (F T : Type*) where
  centerFreq : ℚ
  sampRate : ℚ
  channels : List (ChannelState F T)
  bands : List (BandState F T)

/-! ## Decimation planning -/

/-- The largest `d` from `max_per_stage` down to 2 that divides `remaining`, else 2. -/
def bestDivisor (remaining maxPerStage : ℕ) : ℕ :=
  ((List.range' 2 (maxPerStage - 1)).reverse.find? fun d => remaining % d = 0).getD 2

/-- The loop of `plan_decimation`, with room for `left` stages: the stages and what remains. -/
def planLoop (maxPerStage : ℕ) : ℕ → ℕ → List ℕ × ℕ
  | 0, remaining => ([], remaining)
  | left + 1, remaining =>
    if remaining ≤ 1 then ([], remaining)
    else
      let d := if remaining ≤ maxPerStage then remaining else bestDivisor remaining maxPerStage
      let r := planLoop maxPerStage left (remaining / d)
      (d :: r.1, r.2)

/-- `plan_decimation`. -/
def planDecimation (total maxPerStage stages : ℕ) : List ℕ :=
  let r := planLoop maxPerStage stages total
  if r.2 > 1 ∧ r.1.length < stages then r.1 ++ [r.2] else r.1

/-- The rate behind a cascade, divided stage by stage. -/
def rateAfter (rate : ℚ) (stages : List (DecimStage F T)) : ℚ := stages.foldl (fun rate st => rate / st.decimation) rate

/-! ## Channel metadata -/

/-- `target_output_rate`. -/
def targetOutputRate : ChannelType → ℚ
  | .stdcEgc => 1200 * 16
  | .aero600 => 48000
  | .aero1200 => 48000
  | .aero10500 => 48000
  | .aero8400 => 48000

/-- `modulation_family`. -/
def modulationFamily : ChannelType → ℕ
  | .stdcEgc => 0
  | .aero600 => 1
  | .aero1200 => 1
  | .aero10500 => 2
  | .aero8400 => 3

/-- `target_intermediate_rate`. -/
def targetIntermediateRate : ChannelType → ℚ
  | .aero10500 => 200000
  | .aero8400 => 200000
  | _ => 400000

/-- `signal_bandwidth`. -/
def signalBandwidth : ChannelType → ℚ
  | .stdcEgc => 4800
  | .aero600 => 6000
  | .aero1200 => 6000
  | .aero10500 => 21000
  | .aero8400 => 14000

/-- The body of the loop of `largest_factor_leq`. -/
def factorStep (n limit best d : ℕ) : ℕ :=
  if n % d ≠ 0 then best
  else
    let best := if d ≤ limit ∧ d > best then d else best
    let other := n / d
    if other ≤ limit ∧ other > best then other else best

/-- `largest_factor_leq`: the `d` from 2 on with `d * d <= n`. -/
def largestFactorLeq (n limit : ℕ) : ℕ :=
  if n ≤ 1 then 1
  else
    let best := (List.range' 2 (n.sqrt - 1)).foldl (factorStep n limit) 1
    if n ≤ limit ∧ n > best then n else best

/-- `total_decim`. -/
def totalDecim (sampRate : ℚ) (type : ChannelType) : ℕ := max ⌊sampRate / targetOutputRate type⌋₊ 1

/-- `s1_decim`. -/
def s1Decim (sampRate : ℚ) (type : ChannelType) : ℕ :=
  largestFactorLeq (totalDecim sampRate type) (max ⌊sampRate / targetIntermediateRate type⌋₊ 1)

/-- `s2_decim`. -/
def s2Decim (sampRate : ℚ) (type : ChannelType) : ℕ := max (totalDecim sampRate type / s1Decim sampRate type) 1

/-! ## Bands and channels -/

variable (dsp : Dsp F T)

/-- An NCO set to a frequency. -/
def Nco.set (freq rate : ℚ) : Nco F := ⟨freq, dsp.phasor freq rate, dsp.one, 0⟩

/-- A decimation stage as it is set up. -/
def DecimStage.create (decimation : ℕ) : DecimStage F T where
  decimation := decimation
  count := 0
  firTaps := dsp.designLowpass stageFirTaps (2 / 5 / decimation)
  firHist := fun _ => dsp.zero
  firIdx := 0

/-- `init_band`, and what its caller sets: a band around `freq`. -/
def initBand (ch : Channelizer F T) (freq : ℚ) (family s1 : ℕ) : BandState F T :=
  let s1 := max s1 1
  let rate := ch.sampRate / s1
  { active := true
    centerFreq := freq
    intermediateRate := rate
    nco := .set dsp (freq - ch.centerFreq) ch.sampRate
    stages := (planDecimation s1 16 maxStages).map (DecimStage.create dsp)
    interBuf := []
    interCap := ⌊rate * (1 / 10)⌋₊ + 512
    channelIndices := []
    family := family
    discards := 0 }

/-- The test for a band that can take a channel. -/
def BandState.compatible (bd : BandState F T) (freq : ℚ) (family : ℕ) (actualInter : ℚ) : Bool :=
  bd.active && bd.family == family && decide (|bd.intermediateRate - actualInter| ≤ actualInter * (1 / 100)) &&
    decide (|bd.centerFreq - freq| ≤ actualInter * (2 / 5)) && decide (bd.channelIndices.length < maxChannels)

/-- The search of `find_or_create_band`. -/
def Channelizer.findBand (ch : Channelizer F T) (freq : ℚ) (type : ChannelType) : Option ℕ :=
  ch.bands.findIdx? fun bd =>
    bd.compatible freq (modulationFamily type) (ch.sampRate / s1Decim ch.sampRate type)

/-- A channel more in a band. -/
def BandState.addIndex (slot : ℕ) (bd : BandState F T) : BandState F T :=
  { bd with channelIndices := bd.channelIndices ++ [slot] }

/-- `find_or_create_band`: the bands after it, and the index of the channel's band. -/
def Channelizer.findOrCreateBand (ch : Channelizer F T) (freq : ℚ) (type : ChannelType) (slot : ℕ) :
    Option (List (BandState F T) × ℕ) :=
  match ch.findBand freq type with
  | some b => some (ch.bands.modify b (BandState.addIndex slot), b)
  | none =>
    if ch.bands.length ≥ maxBands then none
    else
      let bd := initBand dsp ch freq (modulationFamily type) (s1Decim ch.sampRate type)
      some (ch.bands ++ [bd.addIndex slot], ch.bands.length)

/-- A channel as it is set up in a band. -/
def initChannel (ch : Channelizer F T) (freq : ℚ) (type : ChannelType) (channelId : ℤ) (bidx : ℕ)
    (bd : BandState F T) : ChannelState F T :=
  let stages := (planDecimation (s2Decim ch.sampRate type) 16 maxStages).map (DecimStage.create dsp)
  let stageRate := rateAfter bd.intermediateRate stages
  let sigBw := signalBandwidth type
  { active := true
    channelId := channelId
    type := type
    bandIdx := bidx
    nco := .set dsp (freq - bd.centerFreq) bd.intermediateRate
    stages := stages
    cleanupTaps := dsp.designLowpass cleanupFirTaps (sigBw / (2 * stageRate))
    cleanupHist := fun _ => dsp.zero
    cleanupIdx := 0
    hasCleanup := decide (0 < sigBw) && decide (sigBw < stageRate * (4 / 5))
    outBuf := []
    outCap := ⌊stageRate * (1 / 10)⌋₊ + 512
    discards := 0 }

/-- `channelizer_create`. -/
def Channelizer.create (centerFreq sampRate : ℚ) : Channelizer F T := ⟨centerFreq, sampRate, [], []⟩

/-- `channelizer_add_channel`, if it succeeds. Memory is taken to be there. -/
def Channelizer.addChannel (ch : Channelizer F T) (freq : ℚ) (type : ChannelType) (channelId : ℤ) :
    Option (Channelizer F T) :=
  if ch.channels.length ≥ maxChannels then none
  else
    (ch.findOrCreateBand dsp freq type ch.channels.length).bind fun (bands, bidx) =>
      bands[bidx]?.map fun bd =>
        { ch with bands := bands, channels := ch.channels ++ [initChannel dsp ch freq type channelId bidx bd] }

/-- The centroid of the channels of a band, of which there are some. -/
def BandState.centroid (bd : BandState F T) (channels : List (ChannelState F T)) : ℚ :=
  (bd.channelIndices.map fun cidx => bd.centerFreq + (channels[cidx]?.map fun cs => cs.nco.freq).getD 0).sum /
    bd.channelIndices.length

/-- A band mixed at a new centre. -/
def BandState.recentre (sampRate centroid shift : ℚ) (bd : BandState F T) : BandState F T :=
  { bd with centerFreq := centroid
            nco := { Nco.set dsp (bd.nco.freq + shift) sampRate with renorm := bd.nco.renorm } }

/-- A channel of a band that is mixed at a new centre. -/
def ChannelState.rebalance (interRate shift : ℚ) (cs : ChannelState F T) : ChannelState F T :=
  { cs with nco := { Nco.set dsp (cs.nco.freq - shift) interRate with renorm := cs.nco.renorm } }

/-- The body of the loop of `channelizer_finalize`: band `b` is centred on its channels. -/
def Channelizer.centreBand (ch : Channelizer F T) (b : ℕ) : Channelizer F T :=
  match ch.bands[b]? with
  | none => ch
  | some bd =>
    if !bd.active || bd.channelIndices.isEmpty then ch
    else
      let centroid := bd.centroid ch.channels
      let shift := centroid - bd.centerFreq
      if |shift| < 1 then ch
      else
        { ch with bands := ch.bands.modify b (BandState.recentre dsp ch.sampRate centroid shift)
                  channels := bd.channelIndices.foldl
                    (fun channels cidx => channels.modify cidx (ChannelState.rebalance dsp bd.intermediateRate shift))
                    ch.channels }

/-- `channelizer_finalize`. -/
def Channelizer.finalize (ch : Channelizer F T) : Channelizer F T :=
  (List.range ch.bands.length).foldl (Channelizer.centreBand dsp) ch

/-- A band that follows the hardware centre; the phase stays, only its rate changes. -/
def BandState.adjust (sampRate offset : ℚ) (bd : BandState F T) : BandState F T :=
  if bd.active then
    let freq := bd.nco.freq + offset
    { bd with nco := { bd.nco with freq := freq, phasor := dsp.phasor freq sampRate } }
  else bd

/-- `channelizer_adjust_center`. -/
def Channelizer.adjustCenter (ch : Channelizer F T) (offset : ℚ) : Channelizer F T :=
  { ch with bands := ch.bands.map (BandState.adjust dsp ch.sampRate offset), centerFreq := ch.centerFreq - offset }

/-- `channelizer_output_rate`. -/
def Channelizer.outputRate (ch : Channelizer F T) (channelId : ℤ) : ℚ :=
  match ch.channels.find? fun cs => cs.channelId = channelId with
  | none => 0
  | some cs =>
    rateAfter ((ch.bands[cs.bandIdx]?.map BandState.intermediateRate).getD 0) cs.stages

/-- A call while the channelizer is set up. -/
inductive SetUpCall where
  | add (freq : ℚ) (type : ChannelType) (channelId : ℤ)
  | finalize

/-- One call, if it succeeds. -/
def Channelizer.call (ch : Channelizer F T) : SetUpCall → Option (Channelizer F T)
  | .add freq type channelId => ch.addChannel dsp freq type channelId
  | .finalize => some (ch.finalize dsp)

/-- The calls in order, if all of them succeed. -/
def Channelizer.setUp (ch : Channelizer F T) (calls : List SetUpCall) : Option (Channelizer F T) :=
  calls.foldlM (Channelizer.call dsp) ch

/-- A call that tunes the channelizer, before or between blocks of samples. -/
inductive TuneCall where
  | add (freq : ℚ) (type : ChannelType) (channelId : ℤ)
  | finalize
  | adjustCenter (offset : ℚ)

/-- A channelizer, with the frequencies that its channels were asked for. -/
structure Tuned (F T : Type*) where
  ch : Channelizer F T
  requested : List ℚ

/-- One call; one that fails leaves the channelizer as it is. -/
def Tuned.call (t : Tuned F T) : TuneCall → Tuned F T
  | .add freq type channelId =>
    match t.ch.addChannel dsp freq type channelId with
    | none => t
    | some ch => ⟨ch, t.requested ++ [freq]⟩
  | .finalize => { t with ch := t.ch.finalize dsp }
  | .adjustCenter offset => { t with ch := t.ch.adjustCenter dsp offset }

/-- The calls in order, from `channelizer_create` on. -/
def tuneRun (centerFreq sampRate : ℚ) (calls : List TuneCall) : Tuned F T :=
  calls.foldl (Tuned.call dsp) ⟨.create centerFreq sampRate, []⟩

end InmarsatSniffer.Ddc
