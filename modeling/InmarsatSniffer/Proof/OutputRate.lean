import InmarsatSniffer.Proof.Plan

/-!
# The output rate

Along the calls that set a channelizer up each new band brings the plan of the decimation
that was asked of it, `requests`; joining a band and centring it change no plan
(`SetUpOk`).

* `output_rate_truthful`: **all output rates are true exactly when every plan asked of a
  new band has the product it is made for**.
-/

namespace InmarsatSniffer.Ddc

variable {F T : Type*} {dsp : Dsp F T} {ch ch' : Channelizer F T} {cf r freq : ℚ} {type : ChannelType} {channelId : ℤ}
  {calls : List SetUpCall} {c : SetUpCall}

/-- The product of the decimations of a cascade. -/
def decimationOf (stages : List (DecimStage F T)) : ℕ := (stages.map DecimStage.decimation).prod

/-- The decimation that a call asks of a new band, if it finds none to join. -/
def request (ch : Channelizer F T) : SetUpCall → List ℕ
  | .add freq type _ => if ch.findBand freq type = none then [s1Decim ch.sampRate type] else []
  | .finalize => []

/-- The decimations asked of new bands along the calls. -/
def requests (dsp : Dsp F T) (ch : Channelizer F T) : List SetUpCall → List ℕ
  | [] => []
  | c :: calls => request ch c ++ ((ch.call dsp c).map fun ch' => requests dsp ch' calls).getD []

/-! ## Plans -/

/-- The rate and the plan of a band. -/
def BandState.plan (bd : BandState F T) : ℚ × List ℕ := (bd.intermediateRate, bd.stages.map DecimStage.decimation)

/-- What `init_band` plans for a decimation. -/
def planOf (r : ℚ) (s1 : ℕ) : ℚ × List ℕ := (r / s1, planDecimation s1 16 maxStages)

/-- What the output rate of a channel depends on. -/
def ChannelState.layout (cs : ChannelState F T) : ℤ × ℕ × List ℕ :=
  (cs.channelId, cs.bandIdx, cs.stages.map DecimStage.decimation)

theorem plan_addIndex (slot : ℕ) (bd : BandState F T) : (bd.addIndex slot).plan = bd.plan := rfl

theorem plan_recentre (rate centroid shift : ℚ) (bd : BandState F T) :
    (bd.recentre dsp rate centroid shift).plan = bd.plan := rfl

theorem layout_rebalance (rate shift : ℚ) (cs : ChannelState F T) : (cs.rebalance dsp rate shift).layout = cs.layout := rfl

theorem map_create (l : List ℕ) : (l.map (DecimStage.create dsp)).map DecimStage.decimation = l := by
  rw [List.map_map]
  exact List.map_id _

theorem map_modify {α β : Type*} {f : α → β} {g : α → α} (h : ∀ a, f (g a) = f a) (l : List α) (i : ℕ) :
    (l.modify i g).map f = l.map f := by
  induction l generalizing i with
  | nil => rw [List.modify_nil]
  | cons a l ih =>
    cases i with
    | zero => rw [List.modify_zero_cons, List.map_cons, List.map_cons, h]
    | succ i => rw [List.modify_succ_cons, List.map_cons, List.map_cons, ih]

theorem foldl_modify_map {α β : Type*} {f : α → β} {g : α → α} (h : ∀ a, f (g a) = f a) (idxs : List ℕ) (l : List α) :
    (idxs.foldl (fun l i => l.modify i g) l).map f = l.map f := by
  induction idxs generalizing l with
  | nil => rfl
  | cons i idxs ih => exact (ih _).trans (map_modify h l i)

theorem planLoop_pos (m k : ℕ) : ∀ n, ∀ d ∈ (planLoop m k n).1, 0 < d := by
  induction k with
  | zero => exact fun n d h => absurd h (by simp [planLoop])
  | succ k ih =>
    intro n d hd
    rw [planLoop] at hd
    split at hd
    · exact absurd hd (by simp)
    · next h1 =>
      rcases List.mem_cons.1 hd with rfl | hd
      · split
        · omega
        · unfold bestDivisor
          cases hf : (List.range' 2 (m - 1)).reverse.find? fun d => n % d = 0 with
          | none => exact Nat.two_pos
          | some d =>
            have hmem := List.mem_of_find?_eq_some hf
            rw [List.mem_reverse, List.mem_range'_1] at hmem
            exact lt_of_lt_of_le Nat.two_pos hmem.1
      · exact ih _ d hd

theorem plan_pos (n : ℕ) : 0 < (planDecimation n 16 maxStages).prod := by
  rw [planDecimation_eq]
  exact Nat.pos_of_ne_zero fun h0 => absurd (planLoop_pos 16 maxStages n 0 (List.prod_eq_zero_iff.1 h0)) (lt_irrefl 0)

/-- A factor that divides, or none. -/
theorem factorStep_pos {n limit best d : ℕ} (h : 0 < best) : 0 < factorStep n limit best d := by
  unfold factorStep
  dsimp only
  split_ifs <;> omega

theorem s1Decim_pos (r : ℚ) (type : ChannelType) : 0 < s1Decim r type := by
  unfold s1Decim largestFactorLeq
  split
  · exact Nat.one_pos
  · have hfold : ∀ (l : List ℕ) (best : ℕ), 0 < best →
        0 < l.foldl (factorStep (totalDecim r type) (max ⌊r / targetIntermediateRate type⌋₊ 1)) best := by
      intro l
      induction l with
      | nil => exact fun best h => h
      | cons d l ih => exact fun best h => ih _ (factorStep_pos h)
    dsimp only
    split
    · omega
    · exact hfold _ 1 Nat.one_pos

theorem rateAfter_eq (rate : ℚ) (stages : List (DecimStage F T)) : rateAfter rate stages = rate / decimationOf stages := by
  unfold rateAfter decimationOf
  induction stages generalizing rate with
  | nil => simp
  | cons st stages ih =>
    rw [List.foldl_cons, ih, List.map_cons, List.prod_cons, Nat.cast_mul, div_div]

/-! ## One call -/

theorem request_add (ch : Channelizer F T) (freq : ℚ) (type : ChannelType) (channelId : ℤ) :
    request ch (.add freq type channelId) = if ch.findBand freq type = none then [s1Decim ch.sampRate type] else [] := rfl

/-- **What the calls have set up**, with the requests `reqs`. -/
structure SetUpOk (r : ℚ) (reqs : List ℕ) (ch : Channelizer F T) : Prop where
  rate : ch.sampRate = r
  bands : ch.bands.map BandState.plan = reqs.map (planOf r)
  inBand : ∀ cs ∈ ch.channels, cs.bandIdx < ch.bands.length
  used : ∀ b < ch.bands.length, ∃ cs ∈ ch.channels, cs.bandIdx = b
  plans : ∀ cs ∈ ch.channels, 0 < decimationOf cs.stages
  requested : ∀ s ∈ reqs, 0 < s

theorem create_ok : SetUpOk r [] (Channelizer.create cf r : Channelizer F T) where
  rate := rfl
  bands := rfl
  inBand := fun cs h => absurd h (by simp [Channelizer.create])
  used := fun b h => absurd h (by simp [Channelizer.create])
  plans := fun cs h => absurd h (by simp [Channelizer.create])
  requested := fun s h => absurd h (by simp)

/-- **A channel finds a band or gets a new one.** -/
theorem findOrCreateBand_cases {slot b : ℕ} {bands : List (BandState F T)}
    (h : ch.findOrCreateBand dsp freq type slot = some (bands, b)) :
    (ch.findBand freq type = some b ∧ (∃ bd, ch.bands[b]? = some bd ∧
        bd.compatible freq (modulationFamily type) (ch.sampRate / s1Decim ch.sampRate type) = true) ∧
      bands = ch.bands.modify b (BandState.addIndex slot)) ∨
    (ch.findBand freq type = none ∧ b = ch.bands.length ∧ bands = ch.bands ++
      [(initBand dsp ch freq (modulationFamily type) (s1Decim ch.sampRate type)).addIndex slot]) := by
  unfold Channelizer.findOrCreateBand at h
  cases hf : ch.findBand freq type with
  | some i =>
    rw [hf] at h
    obtain ⟨rfl, rfl⟩ := Prod.mk.inj (Option.some.inj h)
    obtain ⟨hlt, hcomp, -⟩ := List.findIdx?_eq_some_iff_getElem.1 hf
    exact Or.inl ⟨rfl, ⟨_, List.getElem?_eq_getElem hlt, hcomp⟩, rfl⟩
  | none =>
    rw [hf] at h
    dsimp only at h
    split at h
    · exact absurd h (by simp)
    · obtain ⟨rfl, rfl⟩ := Prod.mk.inj (Option.some.inj h)
      exact Or.inr ⟨rfl, rfl, rfl⟩

/-- **A call that adds a channel**, if it succeeds. -/
theorem addChannel_cases (h : ch.addChannel dsp freq type channelId = some ch') : ∃ bands b bd,
    ch.findOrCreateBand dsp freq type ch.channels.length = some (bands, b) ∧ bands[b]? = some bd ∧
      ch' = { ch with bands := bands, channels := ch.channels ++ [initChannel dsp ch freq type channelId b bd] } := by
  unfold Channelizer.addChannel at h
  split at h
  · exact absurd h (by simp)
  · rw [Option.bind_eq_some_iff] at h
    obtain ⟨⟨bands, b⟩, hband, h⟩ := h
    rw [Option.map_eq_some_iff] at h
    obtain ⟨bd, hbd, rfl⟩ := h
    exact ⟨bands, b, bd, hband, hbd, rfl⟩

/-- The bands after a channel has found one or got a new one. -/
theorem findOrCreateBand_plan (channelId : ℤ) {slot b : ℕ} {bands : List (BandState F T)}
    (h : ch.findOrCreateBand dsp freq type slot = some (bands, b)) :
    bands.map BandState.plan = ch.bands.map BandState.plan ++
      (request ch (.add freq type channelId)).map (planOf ch.sampRate) ∧ b < bands.length ∧
      (b < ch.bands.length ∨ b = ch.bands.length) ∧ (∀ i < bands.length, i < ch.bands.length ∨ i = b) := by
  rw [request_add]
  rcases findOrCreateBand_cases h with ⟨hf, ⟨bd, hbd, -⟩, rfl⟩ | ⟨hf, rfl, rfl⟩
  · have hlt := (List.getElem?_eq_some_iff.1 hbd).1
    rw [hf, if_neg (by simp), List.map_nil, List.append_nil, List.length_modify]
    exact ⟨map_modify (plan_addIndex slot) _ _, hlt, Or.inl hlt, fun i hi => Or.inl hi⟩
  · have hplan : (BandState.addIndex slot (initBand dsp ch freq (modulationFamily type) (s1Decim ch.sampRate type))).plan =
        planOf ch.sampRate (s1Decim ch.sampRate type) := by
      have hmax : max (s1Decim ch.sampRate type) 1 = s1Decim ch.sampRate type := max_eq_left (s1Decim_pos _ _)
      unfold BandState.plan BandState.addIndex initBand planOf
      dsimp only
      rw [hmax, map_create]
    rw [if_pos hf, List.map_append, List.map_singleton, List.map_singleton, hplan, List.length_append,
      List.length_singleton]
    exact ⟨rfl, by omega, Or.inr rfl, fun i hi => by omega⟩

theorem add_ok {reqs : List ℕ} (h : SetUpOk r reqs ch) (hadd : ch.addChannel dsp freq type channelId = some ch') :
    SetUpOk r (reqs ++ request ch (.add freq type channelId)) ch' := by
  obtain ⟨bands, b, bd, hband, hbd, rfl⟩ := addChannel_cases hadd
  obtain ⟨hplan, hlt, hb, hall⟩ := findOrCreateBand_plan channelId hband
  have hgrow : ch.bands.length ≤ bands.length := by
    have := congrArg List.length hplan
    rw [List.length_map, List.length_append, List.length_map] at this
    omega
  refine ⟨h.rate, ?_, ?_, ?_, ?_, ?_⟩
  · rw [List.map_append, ← h.bands, ← h.rate]
    exact hplan
  · intro cs hcs
    rcases List.mem_append.1 hcs with hcs | hcs
    · exact lt_of_lt_of_le (h.inBand cs hcs) hgrow
    · rw [List.mem_singleton.1 hcs]
      exact hlt
  · intro i hi
    rcases hall i hi with hi | rfl
    · obtain ⟨cs, hcs, heq⟩ := h.used i hi
      exact ⟨cs, List.mem_append_left _ hcs, heq⟩
    · exact ⟨_, List.mem_append_right _ (List.mem_singleton_self _), rfl⟩
  · intro cs hcs
    rcases List.mem_append.1 hcs with hcs | hcs
    · exact h.plans cs hcs
    · rw [List.mem_singleton.1 hcs]
      unfold decimationOf initChannel
      dsimp only
      rw [map_create]
      exact plan_pos _
  · intro s hs
    rcases List.mem_append.1 hs with hs | hs
    · exact h.requested s hs
    · rw [request_add] at hs
      split at hs
      · rw [List.mem_singleton.1 hs]
        exact s1Decim_pos _ _
      · exact absurd hs (by simp)

variable (dsp) in
/-- Centring changes only what `recentre` and `rebalance` change. -/
theorem centreBand_keeps {α β : Type*} {f : BandState F T → α} {g : ChannelState F T → β}
    (hf : ∀ rate centroid shift bd, f (BandState.recentre dsp rate centroid shift bd) = f bd)
    (hg : ∀ rate shift cs, g (ChannelState.rebalance dsp rate shift cs) = g cs) (ch : Channelizer F T) (b : ℕ) :
    (ch.centreBand dsp b).sampRate = ch.sampRate ∧ (ch.centreBand dsp b).bands.map f = ch.bands.map f ∧
      (ch.centreBand dsp b).channels.map g = ch.channels.map g := by
  unfold Channelizer.centreBand
  cases ch.bands[b]? with
  | none => exact ⟨rfl, rfl, rfl⟩
  | some bd =>
    dsimp only
    split
    · exact ⟨rfl, rfl, rfl⟩
    · split
      · exact ⟨rfl, rfl, rfl⟩
      · exact ⟨rfl, map_modify (hf _ _ _) _ _, foldl_modify_map (hg _ _) _ _⟩

variable (dsp) in
theorem finalize_keeps {α β : Type*} {f : BandState F T → α} {g : ChannelState F T → β}
    (hf : ∀ rate centroid shift bd, f (BandState.recentre dsp rate centroid shift bd) = f bd)
    (hg : ∀ rate shift cs, g (ChannelState.rebalance dsp rate shift cs) = g cs) (ch : Channelizer F T) :
    (ch.finalize dsp).sampRate = ch.sampRate ∧ (ch.finalize dsp).bands.map f = ch.bands.map f ∧
      (ch.finalize dsp).channels.map g = ch.channels.map g := by
  unfold Channelizer.finalize
  generalize List.range ch.bands.length = bs
  induction bs generalizing ch with
  | nil => exact ⟨rfl, rfl, rfl⟩
  | cons b bs ih =>
    obtain ⟨h1, h2, h3⟩ := ih (ch.centreBand dsp b)
    obtain ⟨g1, g2, g3⟩ := centreBand_keeps dsp hf hg ch b
    exact ⟨h1.trans g1, h2.trans g2, h3.trans g3⟩

theorem finalize_ok {reqs : List ℕ} (h : SetUpOk r reqs ch) : SetUpOk r reqs (ch.finalize dsp) := by
  obtain ⟨hrate, hbands, hchannels⟩ := finalize_keeps dsp plan_recentre layout_rebalance ch
  have hlen : (ch.finalize dsp).bands.length = ch.bands.length := by
    have := congrArg List.length hbands
    rwa [List.length_map, List.length_map] at this
  have hmem : ∀ cs ∈ (ch.finalize dsp).channels, ∃ cs' ∈ ch.channels, cs'.layout = cs.layout := fun cs hcs => by
    have := List.mem_map_of_mem (f := ChannelState.layout) hcs
    rw [hchannels] at this
    exact List.mem_map.1 this
  refine ⟨hrate.trans h.rate, hbands.trans h.bands, fun cs hcs => ?_, fun b hb => ?_, fun cs hcs => ?_, h.requested⟩
  · obtain ⟨cs', hcs', heq⟩ := hmem cs hcs
    have hidx : cs'.bandIdx = cs.bandIdx := congrArg (fun l => l.2.1) heq
    rw [hlen, ← hidx]
    exact h.inBand cs' hcs'
  · rw [hlen] at hb
    obtain ⟨cs', hcs', rfl⟩ := h.used b hb
    have := List.mem_map_of_mem (f := ChannelState.layout) hcs'
    rw [← hchannels] at this
    obtain ⟨cs, hcs, heq⟩ := List.mem_map.1 this
    exact ⟨cs, hcs, congrArg (fun l => l.2.1) heq⟩
  · obtain ⟨cs', hcs', heq⟩ := hmem cs hcs
    have hplan : decimationOf cs'.stages = decimationOf cs.stages := congrArg (fun l => l.2.2.prod) heq
    rw [← hplan]
    exact h.plans cs' hcs'

/-! ## All calls -/

theorem setUp_ok : ∀ {ch : Channelizer F T} {reqs : List ℕ}, SetUpOk r reqs ch → ch.setUp dsp calls = some ch' →
    SetUpOk r (reqs ++ requests dsp ch calls) ch' := by
  induction calls with
  | nil =>
    intro ch reqs h hset
    obtain rfl := Option.some.inj hset
    rw [requests, List.append_nil]
    exact h
  | cons c calls ih =>
    intro ch reqs h hset
    unfold Channelizer.setUp at hset
    rw [List.foldlM_cons, Option.bind_eq_bind, Option.bind_eq_some_iff] at hset
    obtain ⟨ch₁, hcall, hset⟩ := hset
    have h₁ : SetUpOk r (reqs ++ request ch c) ch₁ := by
      cases c with
      | add freq type channelId => exact add_ok h hcall
      | finalize =>
        obtain rfl := Option.some.inj hcall
        rw [show request ch .finalize = [] from rfl, List.append_nil]
        exact finalize_ok h
    rw [requests, hcall, Option.map_some, Option.getD_some, ← List.append_assoc]
    exact ih h₁ hset

/-- The output rate of a channel is the rate of its band, divided by its plan. -/
theorem outputRate_eq (hids : (ch.channels.map ChannelState.channelId).Nodup) {cs : ChannelState F T} {bd : BandState F T}
    (hcs : cs ∈ ch.channels) (hbd : ch.bands[cs.bandIdx]? = some bd) :
    ch.outputRate cs.channelId = bd.intermediateRate / decimationOf cs.stages := by
  have hfind : ch.channels.find? (fun cs' => cs'.channelId = cs.channelId) = some cs := by
    obtain ⟨pre, post, hsplit⟩ := List.append_of_mem hcs
    rw [hsplit] at hids ⊢
    rw [List.map_append, List.map_cons, List.nodup_append] at hids
    refine List.find?_eq_some_iff_append.2 ⟨by simp, pre, post, rfl, fun x hx => ?_⟩
    have := hids.2.2 _ (List.mem_map_of_mem hx) cs.channelId (by simp)
    simpa using this
  unfold Channelizer.outputRate
  rw [hfind]
  dsimp only
  rw [hbd, rateAfter_eq]
  rfl

/-- **Output rates.** For every positive sample rate and all successful calls that set the
channelizer up, with distinct channel ids: each output rate is the sample rate divided by
the decimations of the two plans of the channel, and each intermediate rate the sample rate
divided by those of the first, if and only if the plan of every decimation asked of a new
band fits. -/
theorem output_rate_truthful (hr : 0 < r) (hset : (Channelizer.create cf r).setUp dsp calls = some ch)
    (hids : (ch.channels.map ChannelState.channelId).Nodup) :
    (∀ cs ∈ ch.channels, ∃ bd, ch.bands[cs.bandIdx]? = some bd ∧ bd.intermediateRate = r / decimationOf bd.stages ∧
      ch.outputRate cs.channelId = r / (decimationOf bd.stages * decimationOf cs.stages)) ↔
    ∀ s ∈ requests dsp (Channelizer.create cf r) calls, Fits s := by
  have h := setUp_ok create_ok hset
  rw [List.nil_append] at h
  -- one band
  have hband : ∀ (b : ℕ) (bd : BandState F T), ch.bands[b]? = some bd → ∃ s, (requests dsp (Channelizer.create cf r) calls)[b]? = some s ∧
      (bd.intermediateRate = r / decimationOf bd.stages ↔ Fits s) := by
    intro b bd hbd
    have hplan : (ch.bands.map BandState.plan)[b]? = some bd.plan := by rw [List.getElem?_map, hbd]; rfl
    rw [h.bands, List.getElem?_map, Option.map_eq_some_iff] at hplan
    obtain ⟨s, hs, heq⟩ := hplan
    have hpos := h.requested s (List.mem_of_getElem? hs)
    have hrate : bd.intermediateRate = r / s := (congrArg Prod.fst heq).symm
    have hprod : decimationOf bd.stages = (planDecimation s 16 maxStages).prod := (congrArg (fun p => p.2.prod) heq).symm
    refine ⟨s, hs, ?_⟩
    rw [← plan_prod_iff hpos, hrate, hprod, div_eq_mul_inv, div_eq_mul_inv, mul_right_inj' hr.ne', inv_inj, Nat.cast_inj]
    exact eq_comm
  constructor
  · intro hall s hs
    obtain ⟨b, hlt, rfl⟩ := List.mem_iff_getElem.1 hs
    have hlen : ch.bands.length = (requests dsp (Channelizer.create cf r) calls).length := by
      have := congrArg List.length h.bands
      rwa [List.length_map, List.length_map] at this
    obtain ⟨cs, hcs, rfl⟩ := h.used b (by omega)
    obtain ⟨bd, hbd, hrate, -⟩ := hall cs hcs
    obtain ⟨s, hs', hiff⟩ := hband _ bd hbd
    rw [List.getElem?_eq_getElem hlt, Option.some.injEq] at hs'
    rw [hs']
    exact hiff.1 hrate
  · intro hfits cs hcs
    have hbd := List.getElem?_eq_getElem (h.inBand cs hcs)
    obtain ⟨s, hs, hiff⟩ := hband _ _ hbd
    have hrate := hiff.2 (hfits s (List.mem_of_getElem? hs))
    refine ⟨_, hbd, hrate, ?_⟩
    rw [outputRate_eq hids hcs hbd, div_mul_eq_div_div, ← hrate]

/-! ## Two sample rates -/

/-- Samples without values. -/
def noDsp : Dsp Unit Unit := ⟨(), (), fun _ _ => (), fun _ _ _ => (), id, fun _ _ => (), fun _ _ _ => (), fun _ _ => (), fun _ => id⟩

/-- What is looked at of a channelizer that is set up. -/
structure Summary where
  rate : ℚ
  plans : List (ℚ × List ℕ)
  layouts : List (ℤ × ℕ × List ℕ)
  deriving DecidableEq

/-- The summary after the calls, with the output rate of channel 1. -/
def summary (r : ℚ) (calls : List SetUpCall) : Option Summary :=
  ((Channelizer.create 0 r).setUp noDsp calls).map fun ch =>
    ⟨ch.outputRate 1, ch.bands.map BandState.plan, ch.channels.map ChannelState.layout⟩

/-- At 7.344 MHz the plan for 17 decimates by 16: the channel runs at 51 kHz, not at the
48 kHz that it is said to have. -/
theorem odd_rate_untrue : ∃ ch, (Channelizer.create 0 7344000).setUp noDsp [.add 0 .aero600 1] = some ch ∧
    (ch.channels.map ChannelState.channelId).Nodup ∧
    ¬∀ cs ∈ ch.channels, ∃ bd, ch.bands[cs.bandIdx]? = some bd ∧ bd.intermediateRate = 7344000 / decimationOf bd.stages ∧
      ch.outputRate cs.channelId = 7344000 / (decimationOf bd.stages * decimationOf cs.stages) := by
  have hsum : summary 7344000 [.add 0 .aero600 1] = some ⟨48000, [(432000, [2, 8])], [(1, 0, [9])]⟩ := by decide +kernel
  unfold summary at hsum
  rw [Option.map_eq_some_iff] at hsum
  obtain ⟨ch, hch, heq⟩ := hsum
  obtain ⟨-, hbands, hchannels⟩ := Summary.mk.inj heq
  obtain ⟨cs, hcs, hlayout⟩ := List.map_eq_singleton_iff.1 hchannels
  obtain ⟨bd, hbd, hplan⟩ := List.map_eq_singleton_iff.1 hbands
  refine ⟨ch, hch, by rw [hcs]; simp, fun hall => ?_⟩
  obtain ⟨bd', hbd', hrate, -⟩ := hall cs (by rw [hcs]; simp)
  have hidx : cs.bandIdx = 0 := congrArg (fun l => l.2.1) hlayout
  rw [hidx, hbd, List.getElem?_cons_zero, Option.some.injEq] at hbd'
  subst hbd'
  have hinter : bd.intermediateRate = 432000 := congrArg Prod.fst hplan
  have hprod : decimationOf bd.stages = 16 := congrArg (fun p => p.2.prod) hplan
  rw [hinter, hprod] at hrate
  norm_num at hrate

/-- At 2.4 MHz the rates are true, of channels in one band and in another one. -/
theorem even_rate_true : ∃ ch, (Channelizer.create 0 2400000).setUp noDsp
      [.add 0 .aero600 1, .add 90000 .aero1200 2, .finalize, .add 0 .stdcEgc 3] = some ch ∧
    ∀ cs ∈ ch.channels, ∃ bd, ch.bands[cs.bandIdx]? = some bd ∧ bd.intermediateRate = 2400000 / decimationOf bd.stages ∧
      ch.outputRate cs.channelId = 2400000 / (decimationOf bd.stages * decimationOf cs.stages) := by
  have hsum : summary 2400000 [.add 0 .aero600 1, .add 90000 .aero1200 2, .finalize, .add 0 .stdcEgc 3] =
      some ⟨48000, [(480000, [5]), (480000, [5])], [(1, 0, [10]), (2, 0, [10]), (3, 1, [5, 5])]⟩ := by decide +kernel
  unfold summary at hsum
  rw [Option.map_eq_some_iff] at hsum
  obtain ⟨ch, hch, heq⟩ := hsum
  obtain ⟨-, -, hlayouts⟩ := Summary.mk.inj heq
  have hids : ch.channels.map ChannelState.channelId = [1, 2, 3] := by
    have := congrArg (List.map fun l => l.1) hlayouts
    rwa [List.map_map] at this
  have hreqs : requests noDsp (Channelizer.create 0 2400000)
      [.add 0 .aero600 1, .add 90000 .aero1200 2, .finalize, .add 0 .stdcEgc 3] = [5, 5] := by decide +kernel
  refine ⟨ch, hch, (output_rate_truthful (by norm_num) hch (by rw [hids]; decide)).2 fun s hs => ?_⟩
  rw [hreqs] at hs
  have h5 : s = 5 := by simpa using hs
  rw [h5]
  exact (plan_prod_iff (by decide)).1 (by decide +kernel)

end InmarsatSniffer.Ddc
