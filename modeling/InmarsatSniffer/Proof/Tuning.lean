import InmarsatSniffer.Proof.Channelize

/-!
# The tuning of the channels

A channel is mixed down twice, by the NCO of its band and by its own, and three calls move
the centres between the two mixers.

* `centreBand_band`, `centreBand_channel`: what the centring of one band moves.
* `InTune`, `Tuned.call_inTune`: what every call keeps.
* `tuned_exactly`: **the two mixers take the requested frequency to zero**, whatever the
  order of the calls.
-/

namespace InmarsatSniffer.Ddc

variable {F T : Type*} {dsp : Dsp F T} {ch ch' : Channelizer F T} {bd : BandState F T} {cs : ChannelState F T}
  {cf r freq : ℚ} {type : ChannelType} {channelId : ℤ} {b c : ℕ}

/-! ## Centring a band -/

/-- How far a band is moved. -/
def BandState.shift (bd : BandState F T) (channels : List (ChannelState F T)) : ℚ :=
  let shift := bd.centroid channels - bd.centerFreq
  if !bd.active || bd.channelIndices.isEmpty || |shift| < 1 then 0 else shift

/-- A band and its frequencies, before and behind a move. -/
structure BandState.Moved (shift : ℚ) (bd bd' : BandState F T) : Prop where
  centre : bd'.centerFreq = bd.centerFreq + shift
  freq : bd'.nco.freq = bd.nco.freq + shift
  frame : bd'.frame = bd.frame

/-- A channel and its frequency, before and behind a move of its band. -/
structure ChannelState.Moved (shift : ℚ) (cs cs' : ChannelState F T) : Prop where
  freq : cs'.nco.freq = cs.nco.freq - shift
  frame : cs'.frame = cs.frame

theorem BandState.Moved.refl (bd : BandState F T) : bd.Moved 0 bd := ⟨(add_zero _).symm, (add_zero _).symm, rfl⟩

theorem ChannelState.Moved.refl (cs : ChannelState F T) : cs.Moved 0 cs := ⟨(sub_zero _).symm, rfl⟩

variable (dsp) in
/-- **The centring of one band**: what it does, if it does anything. -/
theorem centreBand_cases (ch : Channelizer F T) (b : ℕ) :
    ch.centreBand dsp b = ch ∧ (∀ bd, ch.bands[b]? = some bd → bd.shift ch.channels = 0) ∨
      ∃ bd, ch.bands[b]? = some bd ∧ ch.centreBand dsp b =
        { ch with
          bands := ch.bands.modify b
            (BandState.recentre dsp ch.sampRate (bd.centerFreq + bd.shift ch.channels) (bd.shift ch.channels))
          channels := bd.channelIndices.foldl (fun channels cidx => channels.modify cidx
            (ChannelState.rebalance dsp bd.intermediateRate (bd.shift ch.channels))) ch.channels } := by
  unfold Channelizer.centreBand
  cases hbd : ch.bands[b]? with
  | none => exact Or.inl ⟨rfl, nofun⟩
  | some bd =>
    dsimp only
    by_cases hskip : (!bd.active || bd.channelIndices.isEmpty) = true
    · rw [if_pos hskip]
      refine Or.inl ⟨rfl, fun bd' heq => ?_⟩
      cases heq
      rw [BandState.shift, if_pos (by rw [hskip]; rfl)]
    rw [if_neg hskip]
    by_cases hdead : |bd.centroid ch.channels - bd.centerFreq| < 1
    · rw [if_pos hdead]
      refine Or.inl ⟨rfl, fun bd' heq => ?_⟩
      cases heq
      rw [BandState.shift, if_pos (by rw [decide_eq_true hdead, Bool.or_true])]
    · rw [if_neg hdead]
      refine Or.inr ⟨bd, rfl, ?_⟩
      have hshift : bd.shift ch.channels = bd.centroid ch.channels - bd.centerFreq := by
        rw [BandState.shift, if_neg]
        rw [decide_eq_false hdead, Bool.or_false]
        exact hskip
      rw [hshift, add_sub_cancel]

variable (dsp) in
/-- The bands behind the centring of one. -/
theorem centreBand_band {i : ℕ} (hi : ch.bands[i]? = some bd) :
    ∃ bd', (ch.centreBand dsp b).bands[i]? = some bd' ∧ bd.Moved (if i = b then bd.shift ch.channels else 0) bd' := by
  rcases centreBand_cases dsp ch b with ⟨heq, hzero⟩ | ⟨bd₀, hbd₀, heq⟩
  · refine ⟨bd, by rw [heq]; exact hi, ?_⟩
    split
    · next hib =>
      subst hib
      rw [hzero bd hi]
      exact .refl bd
    · exact .refl bd
  · rw [heq]
    dsimp only
    rw [List.getElem?_modify, hi]
    refine ⟨_, rfl, ?_⟩
    beta_reduce
    by_cases hib : b = i
    · subst hib
      obtain rfl : bd₀ = bd := Option.some.inj (hbd₀.symm.trans hi)
      rw [if_pos rfl, if_pos rfl]
      exact ⟨rfl, rfl, rfl⟩
    · rw [if_neg hib, if_neg (Ne.symm hib)]
      exact .refl bd

variable (dsp) in
/-- The channels behind the centring of a band. -/
theorem centreBand_channel (h : Wired ch) (hb : ch.bands[b]? = some bd) (hc : ch.channels[c]? = some cs) :
    ∃ cs', (ch.centreBand dsp b).channels[c]? = some cs' ∧
      cs.Moved (if cs.bandIdx = b then bd.shift ch.channels else 0) cs' := by
  rcases centreBand_cases dsp ch b with ⟨heq, hzero⟩ | ⟨bd₀, hbd₀, heq⟩
  · refine ⟨cs, by rw [heq]; exact hc, ?_⟩
    rw [hzero bd hb, ite_self]
    exact .refl cs
  · obtain rfl : bd₀ = bd := Option.some.inj (hbd₀.symm.trans hb)
    rw [heq]
    dsimp only
    rw [getElem?_foldl_modify _ (h.band bd₀ (List.mem_of_getElem? hb)).nodup, hc]
    -- the list of the band names the channels that are in it
    have hin : c ∈ bd₀.channelIndices ↔ cs.bandIdx = b := by
      rw [h.wiring b bd₀ hb c, hc]
      exact Option.some_inj
    by_cases hcb : cs.bandIdx = b
    · rw [if_pos (hin.2 hcb), if_pos hcb]
      exact ⟨_, rfl, rfl, rfl⟩
    · rw [if_neg (fun h => hcb (hin.1 h)), if_neg hcb]
      exact ⟨cs, rfl, .refl cs⟩

/-- The centroid of a band depends on the channels in it. -/
theorem shift_congr (bd : BandState F T) {channels channels' : List (ChannelState F T)}
    (h : ∀ c ∈ bd.channelIndices, channels'[c]?.map (fun cs => cs.nco.freq) = channels[c]?.map fun cs => cs.nco.freq) :
    bd.shift channels' = bd.shift channels := by
  have hcentroid : bd.centroid channels' = bd.centroid channels := by
    unfold BandState.centroid
    rw [List.map_congr_left fun c hc => by rw [h c hc]]
  unfold BandState.shift
  rw [hcentroid]

/-- What a band and its list are, as far as its move depends on them. -/
theorem shift_moved_zero {bd' : BandState F T} (h : bd.Moved 0 bd') (channels : List (ChannelState F T)) :
    bd'.shift channels = bd.shift channels := by
  have hactive : bd'.active = bd.active := congrArg (fun p => p.1) h.frame
  have hindices : bd'.channelIndices = bd.channelIndices := congrArg (fun p => p.2.2.2.2.2.1) h.frame
  have hcentre : bd'.centerFreq = bd.centerFreq := by rw [h.centre, add_zero]
  unfold BandState.shift BandState.centroid
  rw [hactive, hindices, hcentre]

theorem BandState.Moved.trans {x y : ℚ} {bd' bd'' : BandState F T} (h : bd.Moved x bd') (h' : bd'.Moved y bd'') :
    bd.Moved (x + y) bd'' :=
  ⟨by rw [h'.centre, h.centre, add_assoc], by rw [h'.freq, h.freq, add_assoc], h'.frame.trans h.frame⟩

theorem ChannelState.Moved.trans {x y : ℚ} {cs' cs'' : ChannelState F T} (h : cs.Moved x cs') (h' : cs'.Moved y cs'') :
    cs.Moved (x + y) cs'' :=
  ⟨by rw [h'.freq, h.freq, sub_sub], h'.frame.trans h.frame⟩

/-- How far the channels of band `b` are moved. -/
def Channelizer.shiftAt (ch : Channelizer F T) (b : ℕ) : ℚ := ((ch.bands[b]?).map fun bd => bd.shift ch.channels).getD 0

/-- The bands up to `k` are centred, those from `k` on are not. -/
structure Centred (k : ℕ) (ch₀ ch : Channelizer F T) : Prop where
  wired : Wired ch
  centerFreq : ch.centerFreq = ch₀.centerFreq
  sampRate : ch.sampRate = ch₀.sampRate
  band : ∀ (i : ℕ) (bd : BandState F T), ch₀.bands[i]? = some bd →
    ∃ bd', ch.bands[i]? = some bd' ∧ bd.Moved (if i < k then ch₀.shiftAt i else 0) bd'
  channel : ∀ (c : ℕ) (cs : ChannelState F T), ch₀.channels[c]? = some cs →
    ∃ cs', ch.channels[c]? = some cs' ∧ cs.Moved (if cs.bandIdx < k then ch₀.shiftAt cs.bandIdx else 0) cs'

theorem centreBand_wired (h : Wired ch) (b : ℕ) : Wired (ch.centreBand dsp b) := by
  obtain ⟨-, hbands, hchannels⟩ := centreBand_keeps dsp frame_recentre frame_rebalance ch b
  exact h.of_frames hbands hchannels

/-- **One band more is centred.** -/
theorem Centred.step {ch₀ : Channelizer F T} {k : ℕ} (h₀ : Wired ch₀) (h : Centred k ch₀ ch) (hk : k < ch₀.bands.length) :
    Centred (k + 1) ch₀ (ch.centreBand dsp k) := by
  -- band `k` and its channels are as they were
  have hbd₀ : ch₀.bands[k]? = some ch₀.bands[k] := List.getElem?_eq_getElem hk
  obtain ⟨bd, hbd, hmoved⟩ := h.band k _ hbd₀
  rw [if_neg (lt_irrefl k)] at hmoved
  have hshift : bd.shift ch.channels = ch₀.shiftAt k := by
    rw [Channelizer.shiftAt, hbd₀, shift_moved_zero hmoved]
    refine shift_congr _ fun c hc => ?_
    rw [h₀.wiring k _ hbd₀, Option.map_eq_some_iff] at hc
    obtain ⟨cs, hcs, hidx⟩ := hc
    obtain ⟨cs', hcs', hm⟩ := h.channel c cs hcs
    rw [hidx, if_neg (lt_irrefl k)] at hm
    rw [hcs, hcs', Option.map_some, Option.map_some, hm.freq, sub_zero]
  obtain ⟨hcf, hrate⟩ : (ch.centreBand dsp k).centerFreq = ch.centerFreq ∧ (ch.centreBand dsp k).sampRate = ch.sampRate := by
    rcases centreBand_cases dsp ch k with ⟨heq, -⟩ | ⟨_, -, heq⟩
    · rw [heq]
      exact ⟨rfl, rfl⟩
    · rw [heq]
      exact ⟨rfl, rfl⟩
  refine ⟨centreBand_wired h.wired k, hcf.trans h.centerFreq, hrate.trans h.sampRate, fun i bd₁ hi => ?_, fun c cs hc => ?_⟩
  · obtain ⟨bd₂, hbd₂, hm⟩ := h.band i bd₁ hi
    obtain ⟨bd₃, hbd₃, hm'⟩ := centreBand_band dsp (b := k) hbd₂
    refine ⟨bd₃, hbd₃, ?_⟩
    have hsum := hm.trans hm'
    by_cases hik : i = k
    · subst hik
      obtain rfl : bd₂ = bd := Option.some.inj (hbd₂.symm.trans hbd)
      rw [if_neg (lt_irrefl i), if_pos rfl, hshift, zero_add] at hsum
      rwa [if_pos (Nat.lt_succ_self i)]
    · rw [if_neg hik, add_zero] at hsum
      rwa [if_congr (show i < k + 1 ↔ i < k by omega) rfl rfl]
  · obtain ⟨cs₂, hcs₂, hm⟩ := h.channel c cs hc
    obtain ⟨cs₃, hcs₃, hm'⟩ := centreBand_channel dsp h.wired hbd hcs₂
    refine ⟨cs₃, hcs₃, ?_⟩
    have hidx : cs₂.bandIdx = cs.bandIdx := congrArg (fun p => p.2.1) hm.frame
    rw [hidx, hshift] at hm'
    have hsum := hm.trans hm'
    by_cases hik : cs.bandIdx = k
    · rw [if_neg (by omega), if_pos hik, zero_add] at hsum
      rwa [if_pos (by omega), hik]
    · rw [if_neg hik, add_zero] at hsum
      rwa [if_congr (show cs.bandIdx < k + 1 ↔ cs.bandIdx < k by omega) rfl rfl]

variable (dsp) in
/-- **`channelizer_finalize`** moves each band with its channels. -/
theorem finalize_centred (h : Wired ch) : Centred ch.bands.length ch (ch.finalize dsp) := by
  have hrun : ∀ k ≤ ch.bands.length, Centred k ch ((List.range k).foldl (Channelizer.centreBand dsp) ch) := by
    intro k
    induction k with
    | zero =>
      refine fun _ => ⟨h, rfl, rfl, fun i bd hi => ⟨bd, hi, ?_⟩, fun c cs hc => ⟨cs, hc, ?_⟩⟩
      · rw [if_neg (Nat.not_lt_zero i)]
        exact .refl bd
      · rw [if_neg (Nat.not_lt_zero _)]
        exact .refl cs
    | succ k ih =>
      intro hk
      rw [List.range_succ, List.foldl_append]
      exact (ih (by omega)).step h hk
  exact hrun _ le_rfl

/-! ## What every call keeps -/

/-- **In tune**: the two mixers of a channel take its requested frequency to zero. -/
structure InTune (ch : Channelizer F T) (requested : List ℚ) : Prop where
  wired : Wired ch
  length : ch.channels.length = requested.length
  band : ∀ bd ∈ ch.bands, bd.nco.freq = bd.centerFreq - ch.centerFreq
  channel : ∀ (c : ℕ) (cs : ChannelState F T) (bd : BandState F T), ch.channels[c]? = some cs → ch.bands[cs.bandIdx]? = some bd →
    requested[c]? = some (bd.centerFreq + cs.nco.freq)

variable {requested : List ℚ}

theorem create_inTune : InTune (Channelizer.create cf r : Channelizer F T) [] where
  wired := create_wired
  length := rfl
  band := fun bd h => absurd h (by simp [Channelizer.create])
  channel := fun c cs bd h => absurd h (by simp [Channelizer.create])

/-- A new channel is tuned to its frequency, in the band that it gets. -/
theorem add_inTune (h : InTune ch requested) (hadd : ch.addChannel dsp freq type channelId = some ch') :
    InTune ch' (requested ++ [freq]) := by
  have hwired := add_wired h.wired hadd
  obtain ⟨bands, b, bd, hband, hbd, rfl⟩ := addChannel_cases hadd
  -- a band keeps its centre, whether a channel joins it or not
  have hold : ∀ i bd', bands[i]? = some bd' → i < ch.bands.length →
      ∃ bd₀, ch.bands[i]? = some bd₀ ∧ bd'.centerFreq = bd₀.centerFreq ∧ bd'.nco = bd₀.nco := by
    intro i bd' hi hlt
    rcases findOrCreateBand_getElem? hband hi with ⟨-, hi'⟩ | ⟨rfl, bd₀, rfl, hbd₀ | ⟨hnone, -⟩⟩
    · exact ⟨bd', hi', rfl, rfl⟩
    · exact ⟨bd₀, hbd₀, rfl, rfl⟩
    · rw [List.getElem?_eq_none_iff] at hnone
      omega
  refine ⟨hwired, ?_, fun bd' hmem => ?_, fun c cs bd' hc hb => ?_⟩
  · rw [List.length_append, List.length_append, h.length]
    rfl
  · obtain ⟨i, hi⟩ := List.mem_iff_getElem?.1 hmem
    by_cases hlt : i < ch.bands.length
    · obtain ⟨bd₀, hbd₀, hcentre, hnco⟩ := hold i bd' hi hlt
      rw [hnco, hcentre]
      exact h.band bd₀ (List.mem_of_getElem? hbd₀)
    · rcases findOrCreateBand_getElem? hband hi with ⟨-, hi'⟩ | ⟨rfl, bd₀, rfl, hbd₀ | ⟨-, rfl⟩⟩
      · exact absurd (List.getElem?_eq_some_iff.1 hi').1 hlt
      · exact absurd (List.getElem?_eq_some_iff.1 hbd₀).1 hlt
      · rfl
  · rcases lt_or_ge c ch.channels.length with hlt | hge
    · rw [List.getElem?_append_left hlt] at hc
      rw [List.getElem?_append_left (h.length ▸ hlt)]
      obtain ⟨bd₁, hbd₁, -⟩ := h.wired.channel cs (List.mem_of_getElem? hc)
      obtain ⟨bd₀, hbd₀, hcentre, -⟩ := hold _ bd' hb (List.getElem?_eq_some_iff.1 hbd₁).1
      rw [hcentre]
      exact h.channel c cs bd₀ hc hbd₀
    · obtain rfl : c = ch.channels.length := by
        have hlen := (List.getElem?_eq_some_iff.1 hc).1
        rw [List.length_append, List.length_singleton] at hlen
        omega
      rw [List.getElem?_concat_length, Option.some.injEq] at hc
      subst hc
      obtain rfl : bd = bd' := Option.some.inj (hbd.symm.trans hb)
      rw [h.length, List.getElem?_concat_length, Option.some.injEq]
      exact (add_sub_cancel _ _).symm

theorem finalize_inTune (h : InTune ch requested) : InTune (ch.finalize dsp) requested := by
  have hc := finalize_centred dsp h.wired
  have hlen : (ch.finalize dsp).channels.length = ch.channels.length ∧ (ch.finalize dsp).bands.length = ch.bands.length := by
    obtain ⟨-, hbands, hchannels⟩ := finalize_keeps dsp frame_recentre frame_rebalance ch
    have h1 := congrArg List.length hbands
    have h2 := congrArg List.length hchannels
    rw [List.length_map, List.length_map] at h1 h2
    exact ⟨h2, h1⟩
  refine ⟨hc.wired, hlen.1.trans h.length, fun bd' hmem => ?_, fun c cs' bd' hcs' hbd' => ?_⟩
  · obtain ⟨i, hi⟩ := List.mem_iff_getElem?.1 hmem
    have hlt : i < ch.bands.length := hlen.2 ▸ (List.getElem?_eq_some_iff.1 hi).1
    obtain ⟨bd'', hi', hm⟩ := hc.band i _ (List.getElem?_eq_getElem hlt)
    obtain rfl : bd'' = bd' := Option.some.inj (hi'.symm.trans hi)
    rw [hm.freq, hm.centre, hc.centerFreq, h.band _ (List.getElem_mem hlt)]
    ring
  · have hlt : c < ch.channels.length := hlen.1 ▸ (List.getElem?_eq_some_iff.1 hcs').1
    obtain ⟨cs'', hcs'', hm⟩ := hc.channel c _ (List.getElem?_eq_getElem hlt)
    obtain rfl : cs'' = cs' := Option.some.inj (hcs''.symm.trans hcs')
    have hidx : cs''.bandIdx = ch.channels[c].bandIdx := congrArg (fun p => p.2.1) hm.frame
    rw [hidx] at hbd'
    have hblt : ch.channels[c].bandIdx < ch.bands.length := hlen.2 ▸ (List.getElem?_eq_some_iff.1 hbd').1
    obtain ⟨bd'', hbd'', hm'⟩ := hc.band _ _ (List.getElem?_eq_getElem hblt)
    obtain rfl : bd'' = bd' := Option.some.inj (hbd''.symm.trans hbd')
    rw [h.channel c _ _ (List.getElem?_eq_getElem hlt) (List.getElem?_eq_getElem hblt), hm.freq, hm'.centre]
    congr 1
    ring

theorem adjustCenter_inTune (h : InTune ch requested) (offset : ℚ) : InTune (ch.adjustCenter dsp offset) requested := by
  have hadjust : ∀ bd ∈ ch.bands, (bd.adjust dsp ch.sampRate offset).nco.freq = bd.nco.freq + offset := fun bd hbd => by
    rw [BandState.adjust, if_pos (h.wired.band bd hbd).active]
  have hkeeps : ∀ bd : BandState F T, (bd.adjust dsp ch.sampRate offset).frame = bd.frame ∧
      (bd.adjust dsp ch.sampRate offset).centerFreq = bd.centerFreq := fun bd => by
    unfold BandState.adjust
    split
    · exact ⟨rfl, rfl⟩
    · exact ⟨rfl, rfl⟩
  refine ⟨h.wired.of_frames ?_ rfl, h.length, fun bd' hmem => ?_, fun c cs bd' hc hb => ?_⟩
  · rw [Channelizer.adjustCenter, List.map_map]
    exact List.map_congr_left fun bd _ => (hkeeps bd).1
  · obtain ⟨bd, hbd, rfl⟩ := List.mem_map.1 hmem
    have hcentre : (ch.adjustCenter dsp offset).centerFreq = ch.centerFreq - offset := rfl
    rw [hadjust bd hbd, (hkeeps bd).2, h.band bd hbd, hcentre]
    ring
  · have hb : (ch.bands.map (BandState.adjust dsp ch.sampRate offset))[cs.bandIdx]? = some bd' := hb
    rw [List.getElem?_map, Option.map_eq_some_iff] at hb
    obtain ⟨bd, hbd, rfl⟩ := hb
    rw [(hkeeps bd).2]
    exact h.channel c cs bd hc hbd

/-- **One call** keeps the channels in tune. -/
theorem Tuned.call_inTune {t : Tuned F T} (h : InTune t.ch t.requested) (call : TuneCall) :
    InTune (t.call dsp call).ch (t.call dsp call).requested := by
  cases call with
  | add freq type channelId =>
    unfold Tuned.call
    dsimp only
    cases hadd : t.ch.addChannel dsp freq type channelId with
    | none => exact h
    | some ch => exact add_inTune h hadd
  | finalize => exact finalize_inTune h
  | adjustCenter offset => exact adjustCenter_inTune h offset

/-- All calls keep the channels in tune. -/
theorem tuneRun_inTune (calls : List TuneCall) :
    InTune (tuneRun dsp cf r calls).ch (tuneRun dsp cf r calls).requested := by
  unfold tuneRun
  induction calls using List.reverseRecOn with
  | nil => exact create_inTune
  | append_singleton calls call ih =>
    rw [List.foldl_append]
    exact Tuned.call_inTune ih call

end InmarsatSniffer.Ddc
