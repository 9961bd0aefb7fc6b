import InmarsatSniffer.Proof.Tuning

/-!
# Room in a band

A channel is admitted to a band if it is at most 2/5 of the intermediate rate off the
centre. `channelizer_finalize` then moves the centre to the mean of the channels.

* `add_inside`: a call that adds a channel keeps to the rule.
* `finalize_inside`: the centring of the bands does if each band is `Balanced`.
* `inside_band_iff`: **all channels have room in their bands exactly if no band was
  lopsided**, whatever is added before and behind.
-/

namespace InmarsatSniffer.Ddc

variable {F T : Type*} {dsp : Dsp F T} {ch ch' : Channelizer F T} {bd : BandState F T} {cf r freq : ℚ}
  {type : ChannelType} {channelId : ℤ} {b : ℕ} {requested : List ℚ}

/-! ## Room in a band -/

/-- A channel that is asked for. -/
structure Request where
  freq : ℚ
  type : ChannelType
  channelId : ℤ

/-- The call that adds it. -/
def Request.call (q : Request) : SetUpCall := .add q.freq q.type q.channelId

/-- **The channel is in the part of its band that channels are admitted to.** -/
def Inside (ch : Channelizer F T) (cs : ChannelState F T) : Prop :=
  ∃ bd, ch.bands[cs.bandIdx]? = some bd ∧ |cs.nco.freq| ≤ 2 / 5 * bd.intermediateRate

/-- The frequencies that the channels of a band were asked for. -/
def BandState.members (bd : BandState F T) (freqs : List ℚ) : List ℚ := bd.channelIndices.filterMap fun c => freqs[c]?

/-- The mean of some frequencies. -/
def mean (freqs : List ℚ) : ℚ := freqs.sum / freqs.length

/-- **No band is lopsided**: the mean of the frequencies asked for is less than 1 Hz off the
centre, or none of them is further from it than a channel may be. -/
def Balanced (ch : Channelizer F T) (freqs : List ℚ) : Prop :=
  ∀ bd ∈ ch.bands, |mean (bd.members freqs) - bd.centerFreq| < 1 ∨
    ∀ f ∈ bd.members freqs, |f - mean (bd.members freqs)| ≤ 2 / 5 * bd.intermediateRate

/-- Each band has the rate of the types that it takes. -/
def RateOfFamily (ch : Channelizer F T) : Prop :=
  ∀ bd ∈ ch.bands, ∃ type, bd.family = modulationFamily type ∧ bd.intermediateRate = ch.sampRate / s1Decim ch.sampRate type

/-- The types of a family are decimated alike. -/
theorem s1Decim_family {type' : ChannelType} (r : ℚ) (h : modulationFamily type = modulationFamily type') :
    s1Decim r type = s1Decim r type' := by
  cases type <;> cases type' <;> first | rfl | exact absurd h (by decide)

theorem add_rateOfFamily (h : RateOfFamily ch) (hadd : ch.addChannel dsp freq type channelId = some ch') :
    RateOfFamily ch' := by
  obtain ⟨bands, b, bd, hband, hbd, rfl⟩ := addChannel_cases hadd
  intro bd' hmem
  obtain ⟨i, hi⟩ := List.mem_iff_getElem?.1 hmem
  rcases findOrCreateBand_getElem? hband hi with ⟨-, hi'⟩ | ⟨rfl, bd₀, rfl, hbd₀ | ⟨-, rfl⟩⟩
  · exact h bd' (List.mem_of_getElem? hi')
  · exact h bd₀ (List.mem_of_getElem? hbd₀)
  · refine ⟨type, rfl, ?_⟩
    show ch.sampRate / (max (s1Decim ch.sampRate type) 1 : ℕ) = _
    rw [max_eq_left (Nat.succ_le_of_lt (s1Decim_pos _ _))]

theorem finalize_rateOfFamily (h : RateOfFamily ch) : RateOfFamily (ch.finalize dsp) := by
  obtain ⟨hrate, hbands, -⟩ := finalize_keeps dsp (f := fun bd => (bd.family, bd.intermediateRate)) (fun _ _ _ _ => rfl)
    frame_rebalance ch
  intro bd hmem
  obtain ⟨i, hi⟩ := List.mem_iff_getElem?.1 hmem
  obtain ⟨bd', hi', heq⟩ := getElem?_of_map hbands hi
  obtain ⟨type, hfamily, hinter⟩ := h bd' (List.mem_of_getElem? hi')
  rw [Prod.mk.injEq] at heq
  rw [hrate, ← heq.1, ← heq.2]
  exact ⟨type, hfamily, hinter⟩

/-- **A call that adds a channel** puts it inside of its band and moves no other. -/
theorem add_inside (hr : 0 < ch.sampRate) (hwired : Wired ch) (hrates : RateOfFamily ch)
    (hadd : ch.addChannel dsp freq type channelId = some ch') :
    (∀ cs ∈ ch'.channels, Inside ch' cs) ↔ ∀ cs ∈ ch.channels, Inside ch cs := by
  obtain ⟨bands, b, bd, hband, hbd, rfl⟩ := addChannel_cases hadd
  have hpos : 0 < ch.sampRate / s1Decim ch.sampRate type := div_pos hr (Nat.cast_pos.2 (s1Decim_pos _ _))
  have hnew : |freq - bd.centerFreq| ≤ 2 / 5 * bd.intermediateRate := by
    rcases findOrCreateBand_cases hband with ⟨-, ⟨bd₀, hbd₀, hcomp⟩, rfl⟩ | ⟨-, rfl, rfl⟩
    · -- it has joined a band of its family, which has its rate
      rw [List.getElem?_modify, hbd₀] at hbd
      obtain rfl : bd₀.addIndex ch.channels.length = bd := by simpa using hbd
      simp only [BandState.compatible, Bool.and_eq_true, decide_eq_true_eq, beq_iff_eq] at hcomp
      obtain ⟨⟨⟨⟨-, hfamily⟩, -⟩, hnear⟩, -⟩ := hcomp
      obtain ⟨type', hfamily', hinter⟩ := hrates bd₀ (List.mem_of_getElem? hbd₀)
      show |freq - bd₀.centerFreq| ≤ 2 / 5 * bd₀.intermediateRate
      rw [abs_sub_comm, hinter, ← s1Decim_family ch.sampRate (hfamily.symm.trans hfamily'), mul_comm]
      exact hnear
    · rw [List.getElem?_concat_length] at hbd
      obtain rfl := Option.some.inj hbd
      show |freq - freq| ≤ 2 / 5 * (ch.sampRate / (max (s1Decim ch.sampRate type) 1 : ℕ))
      rw [max_eq_left (Nat.succ_le_of_lt (s1Decim_pos _ _)), sub_self, abs_zero]
      linarith
  have hsame : ∀ cs ∈ ch.channels, (∃ bd', bands[cs.bandIdx]? = some bd' ∧ |cs.nco.freq| ≤ 2 / 5 * bd'.intermediateRate) ↔
      Inside ch cs := fun cs hcs => by
    obtain ⟨bd₀, hbd₀, -⟩ := hwired.channel cs hcs
    obtain ⟨bd₁, hbd₁, hinter⟩ := findOrCreateBand_old hband hbd₀
    unfold Inside
    simp only [hbd₀, hbd₁, Option.some.injEq, exists_eq_left', hinter]
  constructor
  · intro hall cs hcs
    exact (hsame cs hcs).1 (hall cs (List.mem_append_left _ hcs))
  · intro hall cs hcs
    rcases List.mem_append.1 hcs with hcs | hcs
    · exact (hsame cs hcs).2 (hall cs hcs)
    · rw [List.mem_singleton.1 hcs]
      exact ⟨bd, hbd, hnew⟩

/-- What the set-up rests on. -/
structure Regular (r : ℚ) (ch : Channelizer F T) (requested : List ℚ) : Prop where
  rate : ch.sampRate = r
  inTune : InTune ch requested
  rates : RateOfFamily ch

/-- **The calls that add channels.** -/
theorem adds_regular (hr : 0 < r) {qs : List Request} : ∀ {ch : Channelizer F T} {requested : List ℚ},
    Regular r ch requested → ch.setUp dsp (qs.map Request.call) = some ch' →
      Regular r ch' (requested ++ qs.map Request.freq) ∧
        ((∀ cs ∈ ch'.channels, Inside ch' cs) ↔ ∀ cs ∈ ch.channels, Inside ch cs) := by
  induction qs with
  | nil =>
    intro ch requested h hset
    obtain rfl := Option.some.inj hset
    rw [List.map_nil, List.append_nil]
    exact ⟨h, Iff.rfl⟩
  | cons q qs ih =>
    intro ch requested h hset
    unfold Channelizer.setUp at hset
    rw [List.map_cons, List.foldlM_cons, Option.bind_eq_bind, Option.bind_eq_some_iff] at hset
    obtain ⟨ch₁, hcall, hset⟩ := hset
    have hadd : ch.addChannel dsp q.freq q.type q.channelId = some ch₁ := hcall
    have hrate : ch₁.sampRate = r := by
      obtain ⟨_, _, _, _, _, rfl⟩ := addChannel_cases hadd
      exact h.rate
    have h₁ : Regular r ch₁ (requested ++ [q.freq]) :=
      ⟨hrate, add_inTune h.inTune hadd, add_rateOfFamily h.rates hadd⟩
    obtain ⟨hreg, hiff⟩ := ih h₁ hset
    rw [List.map_cons, List.append_cons]
    exact ⟨hreg, hiff.trans (add_inside (h.rate ▸ hr) h.inTune.wired h.rates hadd)⟩

/-- The frequencies of a band are its centre and those of its channels' NCOs. -/
theorem members_eq (h : InTune ch requested) (hb : ch.bands[b]? = some bd) :
    bd.members requested =
      bd.channelIndices.map fun c => bd.centerFreq + (ch.channels[c]?.map fun cs => cs.nco.freq).getD 0 := by
  unfold BandState.members
  rw [← List.filterMap_eq_map]
  refine List.filterMap_congr fun c hc => ?_
  rw [h.wired.wiring b bd hb, Option.map_eq_some_iff] at hc
  obtain ⟨cs, hcs, rfl⟩ := hc
  rw [h.channel c cs bd hcs hb, Function.comp_apply, hcs]
  rfl

theorem mean_members (h : InTune ch requested) (hb : ch.bands[b]? = some bd) :
    mean (bd.members requested) = bd.centroid ch.channels := by
  rw [mean, members_eq h hb, List.length_map]
  rfl

/-- **`channelizer_finalize`** keeps the channels inside of balanced bands, and only of these. -/
theorem finalize_inside (h : InTune ch requested) (hin : ∀ cs ∈ ch.channels, Inside ch cs) :
    (∀ cs ∈ (ch.finalize dsp).channels, Inside (ch.finalize dsp) cs) ↔ Balanced ch requested := by
  have hc := finalize_centred dsp h.wired
  have hlen : (ch.finalize dsp).channels.length = ch.channels.length := by
    have hchannels := congrArg List.length (finalize_keeps dsp frame_recentre frame_rebalance ch).2.2
    rwa [List.length_map, List.length_map] at hchannels
  -- one channel
  have hone : ∀ (b : ℕ) (bd : BandState F T), ch.bands[b]? = some bd → ∀ c ∈ bd.channelIndices, ∃ cs cs', ch.channels[c]? = some cs ∧
      (ch.finalize dsp).channels[c]? = some cs' ∧ requested[c]? = some (bd.centerFreq + cs.nco.freq) ∧
        |cs.nco.freq| ≤ 2 / 5 * bd.intermediateRate ∧
          (Inside (ch.finalize dsp) cs' ↔ |cs.nco.freq - bd.shift ch.channels| ≤ 2 / 5 * bd.intermediateRate) := by
    intro b bd hb c hmem
    rw [h.wired.wiring b bd hb, Option.map_eq_some_iff] at hmem
    obtain ⟨cs, hcs, rfl⟩ := hmem
    obtain ⟨cs', hcs', hm⟩ := hc.channel c cs hcs
    obtain ⟨bd', hb', hm'⟩ := hc.band _ bd hb
    have hlt := (List.getElem?_eq_some_iff.1 hb).1
    have hshift : ch.shiftAt cs.bandIdx = bd.shift ch.channels := by
      rw [Channelizer.shiftAt, hb]
      rfl
    have hidx : cs'.bandIdx = cs.bandIdx := congrArg (fun p => p.2.1) hm.frame
    have hinter : bd'.intermediateRate = bd.intermediateRate := congrArg (fun p => p.2.1) hm'.frame
    rw [if_pos hlt, hshift] at hm
    refine ⟨cs, cs', hcs, hcs', h.channel c cs bd hcs hb, ?_, ?_⟩
    · obtain ⟨bd₁, hb₁, hle⟩ := hin cs (List.mem_of_getElem? hcs)
      obtain rfl : bd₁ = bd := Option.some.inj (hb₁.symm.trans hb)
      exact hle
    · unfold Inside
      rw [hidx, hm.freq]
      simp only [hb', Option.some.injEq, exists_eq_left', hinter]
  -- the move of a band with a channel
  have hshift : ∀ (b : ℕ) (bd : BandState F T), ch.bands[b]? = some bd → bd.channelIndices ≠ [] →
      bd.shift ch.channels = if |mean (bd.members requested) - bd.centerFreq| < 1 then 0
        else mean (bd.members requested) - bd.centerFreq := by
    intro b bd hb hne
    have hactive := (h.wired.band bd (List.mem_of_getElem? hb)).active
    rw [mean_members h hb, BandState.shift, hactive, List.isEmpty_eq_false_iff.2 hne]
    simp
  constructor
  · intro hall bd hmem
    obtain ⟨b, hb⟩ := List.mem_iff_getElem?.1 hmem
    by_cases hdead : |mean (bd.members requested) - bd.centerFreq| < 1
    · exact Or.inl hdead
    · refine Or.inr fun f hf => ?_
      obtain ⟨c, hmem', hreq⟩ := List.mem_filterMap.1 hf
      obtain ⟨cs, cs', -, hcs', hreq', -, hiff⟩ := hone b bd hb c hmem'
      have hle := hiff.1 (hall cs' (List.mem_of_getElem? hcs'))
      rw [hshift b bd hb (List.ne_nil_of_mem hmem'), if_neg hdead] at hle
      obtain rfl : f = bd.centerFreq + cs.nco.freq := Option.some.inj (hreq.symm.trans hreq')
      rwa [show bd.centerFreq + cs.nco.freq - mean (bd.members requested) =
        cs.nco.freq - (mean (bd.members requested) - bd.centerFreq) by ring]
  · intro hbal cs' hmem
    obtain ⟨c, hcs'⟩ := List.mem_iff_getElem?.1 hmem
    have hlt : c < ch.channels.length := hlen ▸ (List.getElem?_eq_some_iff.1 hcs').1
    obtain ⟨bd, hb, -⟩ := h.wired.channel _ (List.getElem_mem hlt)
    have hin' : c ∈ bd.channelIndices := by
      rw [h.wired.wiring _ bd hb, List.getElem?_eq_getElem hlt]
      rfl
    obtain ⟨cs, cs'', -, hcs'', hreq, hbefore, hiff⟩ := hone _ bd hb c hin'
    obtain rfl : cs'' = cs' := Option.some.inj (hcs''.symm.trans hcs')
    rw [hiff, hshift _ bd hb (List.ne_nil_of_mem hin')]
    split
    · rwa [sub_zero]
    · next hdead =>
      have hle := (hbal bd (List.mem_of_getElem? hb)).resolve_left hdead _ (List.mem_filterMap.2 ⟨c, hin', hreq⟩)
      rwa [show bd.centerFreq + cs.nco.freq - mean (bd.members requested) =
        cs.nco.freq - (mean (bd.members requested) - bd.centerFreq) by ring] at hle

/-- **Room in a band.** Channels are added, the bands are centred, and more channels are
added: all of them are in the part of their band that channels are admitted to, if and only
if no band was lopsided when it was centred. -/
theorem inside_band_iff {ch₁ ch₂ : Channelizer F T} {qs late : List Request} (hr : 0 < r)
    (hadds : (Channelizer.create cf r).setUp dsp (qs.map Request.call) = some ch₁)
    (hlate : (ch₁.finalize dsp).setUp dsp (late.map Request.call) = some ch₂) :
    (∀ cs ∈ ch₂.channels, Inside ch₂ cs) ↔ Balanced ch₁ (qs.map Request.freq) := by
  have hcreate : Regular r (Channelizer.create cf r : Channelizer F T) [] :=
    ⟨rfl, create_inTune, fun bd h => absurd h (by simp [Channelizer.create])⟩
  obtain ⟨hreg, hin⟩ := adds_regular hr hcreate hadds
  rw [List.nil_append] at hreg
  have hrate : (ch₁.finalize dsp).sampRate = r := (finalize_centred dsp hreg.inTune.wired).sampRate.trans hreg.rate
  have hfinal : Regular r (ch₁.finalize dsp) (qs.map Request.freq) :=
    ⟨hrate, finalize_inTune hreg.inTune, finalize_rateOfFamily hreg.rates⟩
  rw [(adds_regular hr hfinal hlate).2]
  exact finalize_inside hreg.inTune (hin.2 fun cs h => absurd h (by simp [Channelizer.create]))

/-! ## Two bands at 2.4 MHz -/

/-- The centre, the rate and the channels of each band, and the band and the frequency of
each channel's NCO. -/
def tuningOf (ch : Channelizer F T) : List (ℚ × ℚ × List ℕ) × List (ℕ × ℚ) :=
  (ch.bands.map fun bd => (bd.centerFreq, bd.intermediateRate, bd.channelIndices),
    ch.channels.map fun cs => (cs.bandIdx, cs.nco.freq))

/-- A band of channels at 1545.00 and 1545.09 MHz. -/
def evenBand : List Request := [⟨1545000000, .aero600, 1⟩, ⟨1545090000, .aero1200, 2⟩]

/-- A band around 1545.00 MHz, with three channels at its upper end and one at its lower. -/
def lopsidedBand : List Request :=
  [⟨1545000000, .aero600, 1⟩, ⟨1545190000, .aero600, 2⟩, ⟨1545191000, .aero600, 3⟩, ⟨1545192000, .aero600, 4⟩,
    ⟨1544808000, .aero600, 5⟩]

theorem evenBand_inside : ∃ ch₁ ch₂, (Channelizer.create 1545000000 2400000).setUp noDsp (evenBand.map Request.call) = some ch₁ ∧
    (ch₁.finalize noDsp).setUp noDsp [Request.call ⟨1544990000, .aero1200, 3⟩] = some ch₂ ∧
      ch₂.channels.length = 3 ∧ ∀ cs ∈ ch₂.channels, Inside ch₂ cs := by
  have h₁ : (((Channelizer.create 1545000000 2400000).setUp noDsp (evenBand.map Request.call)).map tuningOf) =
      some ([(1545000000, 480000, [0, 1])], [(0, 0), (0, 90000)]) := by decide +kernel
  have h₂ : (((Channelizer.create 1545000000 2400000).setUp noDsp (evenBand.map Request.call)).bind fun ch =>
      ((ch.finalize noDsp).setUp noDsp [Request.call ⟨1544990000, .aero1200, 3⟩]).map fun ch => ch.channels.length) =
        some 3 := by decide +kernel
  obtain ⟨ch₁, hch₁, htuning⟩ := Option.map_eq_some_iff.1 h₁
  rw [hch₁, Option.bind_some] at h₂
  obtain ⟨ch₂, hch₂, hlen⟩ := Option.map_eq_some_iff.1 h₂
  have hlate : (ch₁.finalize noDsp).setUp noDsp (List.map Request.call [⟨1544990000, .aero1200, 3⟩]) = some ch₂ := hch₂
  refine ⟨ch₁, ch₂, hch₁, hch₂, hlen, (inside_band_iff (by norm_num) hch₁ hlate).2 ?_⟩
  intro bd hbd
  obtain ⟨hbands, -⟩ := Prod.mk.inj htuning
  have hmem := List.mem_map_of_mem (f := fun bd => (bd.centerFreq, bd.intermediateRate, bd.channelIndices)) hbd
  rw [hbands, List.mem_singleton, Prod.mk.injEq, Prod.mk.injEq] at hmem
  obtain ⟨-, hrate, hindices⟩ := hmem
  -- the mean is in the middle
  have hmembers : bd.members (evenBand.map Request.freq) = [1545000000, 1545090000] := by
    rw [BandState.members, hindices]
    rfl
  right
  rw [hmembers, hrate]
  decide +kernel

/-- The channel at the lower end is put 268.2 kHz off the centre of its band, where 192 kHz
is the most that a channel is admitted with. -/
theorem lopsidedBand_outside :
    ¬∀ (cf r : ℚ) (ch₁ ch₂ : Channelizer Unit Unit) (qs late : List Request), 0 < r →
      (Channelizer.create cf r).setUp noDsp (qs.map Request.call) = some ch₁ →
        (ch₁.finalize noDsp).setUp noDsp (late.map Request.call) = some ch₂ → ∀ cs ∈ ch₂.channels, Inside ch₂ cs := by
  intro h
  have htuning : (((Channelizer.create 1545000000 2400000).setUp noDsp (lopsidedBand.map Request.call)).map fun ch =>
      tuningOf (ch.finalize noDsp)) = some ([(1545076200, 480000, [0, 1, 2, 3, 4])],
        [(0, -76200), (0, 113800), (0, 114800), (0, 115800), (0, -268200)]) := by decide +kernel
  obtain ⟨ch₁, hch₁, heq⟩ := Option.map_eq_some_iff.1 htuning
  obtain ⟨hbands, hchannels⟩ := Prod.mk.inj heq
  have hmem : (0, -268200) ∈ (ch₁.finalize noDsp).channels.map fun cs => (cs.bandIdx, cs.nco.freq) := by
    rw [hchannels]
    decide +kernel
  obtain ⟨cs, hcs, hcs'⟩ := List.mem_map.1 hmem
  obtain ⟨hidx, hfreq⟩ := Prod.mk.inj hcs'
  obtain ⟨bd, hbd, hle⟩ := h 1545000000 2400000 ch₁ _ lopsidedBand [] (by norm_num) hch₁ rfl cs hcs
  rw [hidx] at hbd
  have hrate : (bd.centerFreq, bd.intermediateRate, bd.channelIndices) = (1545076200, 480000, [0, 1, 2, 3, 4]) := by
    have hget := congrArg (fun l => l[0]?) hbands
    rw [List.getElem?_map, hbd] at hget
    exact Option.some.inj hget
  rw [hfreq, (Prod.mk.inj (Prod.mk.inj hrate).2).1] at hle
  exact absurd hle (by decide +kernel)

end InmarsatSniffer.Ddc
