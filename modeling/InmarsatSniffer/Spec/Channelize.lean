import InmarsatSniffer.Spec.Channelizer

/-!
# Running the channelizer

`channelizer_process` cuts its samples into blocks of at most 0.05 s. In a block each
sample goes through every band into its intermediate buffer; then the buffers are drained
through the channels of each band, and output buffers with 32 samples or more are handed
to the callback, which is taken to be set.
-/

namespace InmarsatSniffer.Ddc

variable {F T : Type*} (dsp : Dsp F T)

/-- The loop over the taps of a decimation stage, backwards from the newest sample. -/
def DecimStage.filter (st : DecimStage F T) : F :=
  ((List.range stageFirTaps).foldl (fun (s : F × ℕ) t =>
    let idx := if s.2 = 0 then stageFirTaps - 1 else s.2 - 1
    (dsp.mulAdd s.1 (st.firHist idx) (st.firTaps t), idx)) (dsp.zero, st.firIdx)).1

/-- `decim_stage_process`: the stage after a sample, and what it produces. -/
def DecimStage.process (st : DecimStage F T) (input : F) : DecimStage F T × Option F :=
  let st := { st with firHist := Function.update st.firHist st.firIdx input, firIdx := (st.firIdx + 1) % stageFirTaps }
  if st.count + 1 < st.decimation then ({ st with count := st.count + 1 }, none)
  else
    let st := { st with count := 0 }
    (st, some (st.filter dsp))

/-- The loop over the stages of a cascade, as long as each produces something. -/
def cascade : List (DecimStage F T) → F → List (DecimStage F T) × Option F
  | [], x => ([], some x)
  | st :: stages, x =>
    match st.process dsp x with
    | (st, none) => (st :: stages, none)
    | (st, some y) => (st :: (cascade stages y).1, (cascade stages y).2)

/-- The mix with an NCO, which is turned and now and then brought back to length one. -/
def Nco.mix (nco : Nco F) (input : F) : Nco F × F :=
  let current := dsp.mul nco.current nco.phasor
  let nco' :=
    if nco.renorm + 1 ≥ 1024 then { nco with current := dsp.normalize current, renorm := 0 }
    else { nco with current := current, renorm := nco.renorm + 1 }
  (nco', dsp.mul input nco.current)

/-- A sample through the NCO and the cascade of a band. -/
def BandState.mixDown (bd : BandState F T) (input : F) : BandState F T × Option F :=
  let mix := bd.nco.mix dsp input
  let r := cascade dsp bd.stages mix.2
  ({ bd with nco := mix.1, stages := r.1 }, r.2)

/-- The body of the loop over the bands in stage 1. -/
def BandState.stage1 (bd : BandState F T) (input : F) : BandState F T :=
  if !bd.active then bd
  else
    match bd.mixDown dsp input with
    | (bd, none) => bd
    | (bd, some x) =>
      if bd.interBuf.length < bd.interCap then { bd with interBuf := bd.interBuf ++ [x] }
      else { bd with discards := bd.discards + 1 }

/-- The cleanup filter of a channel, over a history that is kept twice. -/
def ChannelState.cleanup (cs : ChannelState F T) (x : F) : ChannelState F T × F :=
  if cs.hasCleanup then
    let hist := Function.update (Function.update cs.cleanupHist cs.cleanupIdx x) (cs.cleanupIdx + cleanupFirTaps) x
    let idx := (cs.cleanupIdx + 1) % cleanupFirTaps
    ({ cs with cleanupHist := hist, cleanupIdx := idx }, dsp.simdFirCcf cs.cleanupTaps fun i => hist (idx + i))
  else (cs, x)

/-- A sample through the NCO, the cascade, the cleanup filter and the gain of a channel. -/
def ChannelState.mixDown (cs : ChannelState F T) (isamp : F) : ChannelState F T × Option F :=
  let mix := cs.nco.mix dsp isamp
  let r := cascade dsp cs.stages mix.2
  let cs := { cs with nco := mix.1, stages := r.1 }
  match r.2 with
  | none => (cs, none)
  | some x => ((cs.cleanup dsp x).1, some (dsp.applyGain cs.type (cs.cleanup dsp x).2))

/-- The body of the loop over the channels of a band in stage 2. -/
def ChannelState.stage2 (isamp : F) (cs : ChannelState F T) : ChannelState F T :=
  if !cs.active then cs
  else
    match cs.mixDown dsp isamp with
    | (cs, none) => cs
    | (cs, some x) =>
      if cs.outBuf.length < cs.outCap then { cs with outBuf := cs.outBuf ++ [x] }
      else { cs with discards := cs.discards + 1 }

/-- A call of the callback, for the channel in a slot. -/
structure Callback (F : Type*) where
  slot : ℕ
  channelId : ℤ
  type : ChannelType
  samples : List F

/-- The samples of a band's intermediate buffer through its channels. -/
def BandState.drain (bd : BandState F T) (channels : List (ChannelState F T)) : List (ChannelState F T) :=
  if !bd.active || bd.interBuf.isEmpty then channels
  else
    bd.interBuf.foldl (fun channels isamp =>
      bd.channelIndices.foldl (fun channels cidx => channels.modify cidx (ChannelState.stage2 dsp isamp)) channels) channels

/-- A band with its intermediate buffer empty. -/
def BandState.emptied (bd : BandState F T) : BandState F T := if !bd.active then bd else { bd with interBuf := [] }

/-- `flush_threshold`. -/
abbrev flushThreshold : ℕ := 32

/-- A channel after the flush of its output buffer. -/
def ChannelState.flushed (cs : ChannelState F T) : ChannelState F T :=
  if cs.outBuf.length ≥ flushThreshold then { cs with outBuf := [] } else cs

/-- The callback at the flush of the channel in a slot. -/
def ChannelState.callback (slot : ℕ) (cs : ChannelState F T) : Option (Callback F) :=
  if cs.outBuf.length ≥ flushThreshold then some ⟨slot, cs.channelId, cs.type, cs.outBuf⟩ else none

/-- `process_block`: the channelizer after it, and the callbacks. -/
def Channelizer.processBlock (ch : Channelizer F T) (samples : List F) : Channelizer F T × List (Callback F) :=
  let bands := samples.foldl (fun bands input => bands.map fun bd => bd.stage1 dsp input) ch.bands
  let channels := bands.foldl (fun channels bd => bd.drain dsp channels) ch.channels
  ({ ch with bands := bands.map BandState.emptied, channels := channels.map ChannelState.flushed },
    (channels.mapIdx ChannelState.callback).reduceOption)

/-- `max_block`. -/
def Channelizer.maxBlock (ch : Channelizer F T) : ℕ := max ⌊ch.sampRate * (1 / 20)⌋₊ 1

/-- The loop of `channelizer_process`, with blocks of `maxBlock` samples. -/
def processLoop (maxBlock : ℕ) (ch : Channelizer F T) (samples : List F) : Channelizer F T × List (Callback F) :=
  if samples = [] ∨ maxBlock = 0 then (ch, [])
  else
    let r := ch.processBlock dsp (samples.take maxBlock)
    let r' := processLoop maxBlock r.1 (samples.drop maxBlock)
    (r'.1, r.2 ++ r'.2)
termination_by samples.length
decreasing_by
  rename_i h
  rw [not_or] at h
  have := List.length_pos_iff.2 h.1
  rw [List.length_drop]
  omega

/-- `channelizer_process`. -/
def Channelizer.process (ch : Channelizer F T) (samples : List F) : Channelizer F T × List (Callback F) :=
  processLoop dsp ch.maxBlock ch samples

/-- Calls of `channelizer_process`, one behind the other. -/
def Channelizer.processAll (ch : Channelizer F T) : List (List F) → Channelizer F T × List (Callback F)
  | [] => (ch, [])
  | samples :: calls =>
    let r := ch.process dsp samples
    let r' := r.1.processAll calls
    (r'.1, r.2 ++ r'.2)

end InmarsatSniffer.Ddc
