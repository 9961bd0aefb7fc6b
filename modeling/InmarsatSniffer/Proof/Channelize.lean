import InmarsatSniffer.Lib.Transducer
import InmarsatSniffer.Spec.Channelize
import InmarsatSniffer.Proof.OutputRate

/-!
# Chunking

Behind each band and each channel there is a transducer of its whole input: the NCO, the
cascade and the filter, with an output for every `N` samples.

* `cascade_periodic`: the phases of the stages of a cascade, in mixed radix.
* `Wired`: what setting up leaves behind; `setUp_wired`.
* `Between`: between two blocks, every channel has been handed what its transducer makes of
  the samples so far, but for at most 31 samples; `processBlock_between`.
* `chunking_independent`: **however the samples are cut into calls, what a channel is handed
  differs by at most 31 samples at the end, and no buffer is ever full**.
-/

namespace InmarsatSniffer.Ddc

open Transducer

variable {F T : Type*} {dsp : Dsp F T} {ch ch' : Channelizer F T} {cf r : ℚ} {calls : List SetUpCall}

/-! ## Cascades -/

/-- The counters of the stages, in mixed radix. -/
def phase : List (DecimStage F T) → ℕ
  | [] => 0
  | st :: stages => st.count + st.decimation * phase stages

/-- The counters are below the decimations. -/
def Counting (stages : List (DecimStage F T)) : Prop := ∀ st ∈ stages, st.count < st.decimation

variable (dsp) in
/-- A sample through a stage. -/
theorem process_cases (st : DecimStage F T) (x : F) (hst : st.count < st.decimation) :
    ∃ st' : DecimStage F T, st'.decimation = st.decimation ∧
      (st.process dsp x = (st', none) ∧ st'.count = st.count + 1 ∧ st.count + 1 < st.decimation ∨
        ∃ y, st.process dsp x = (st', some y) ∧ st'.count = 0 ∧ st.count + 1 = st.decimation) := by
  unfold DecimStage.process
  dsimp only
  split
  · rename_i hlt
    refine ⟨_, ?_, Or.inl ⟨rfl, rfl, hlt⟩⟩
    rfl
  · rename_i hlt
    refine ⟨_, ?_, Or.inr ⟨_, rfl, rfl, by omega⟩⟩
    rfl

theorem decimationOf_cons (st : DecimStage F T) (stages : List (DecimStage F T)) :
    decimationOf (st :: stages) = st.decimation * decimationOf stages := by
  rw [decimationOf, List.map_cons, List.prod_cons, decimationOf]

variable (dsp) in
/-- A sample through a cascade. -/
theorem cascade_count (stages : List (DecimStage F T)) (x : F) (h : Counting stages) :
    Counting (cascade dsp stages x).1 ∧ decimationOf (cascade dsp stages x).1 = decimationOf stages ∧
      phase (cascade dsp stages x).1 + decimationOf stages * (cascade dsp stages x).2.toList.length =
        phase stages + 1 := by
  induction stages generalizing x with
  | nil => exact ⟨h, rfl, rfl⟩
  | cons st stages ih =>
    have hst := h st List.mem_cons_self
    have hrest : Counting stages := fun st h' => h st (List.mem_cons_of_mem _ h')
    obtain ⟨st', hdec, ⟨hp, hcount, hlt⟩ | ⟨y, hp, hcount, heq⟩⟩ := process_cases dsp st x hst
    · -- nothing comes out of this stage, so the others wait
      rw [cascade, hp]
      refine ⟨List.forall_mem_cons.2 ⟨by omega, hrest⟩, ?_, ?_⟩
      · rw [decimationOf_cons, decimationOf_cons, hdec]
      · rw [phase, phase, hdec, hcount, Option.toList_none, List.length_nil]
        ring
    · obtain ⟨hcounting, hprod, hphase⟩ := ih y hrest
      rw [cascade, hp]
      refine ⟨List.forall_mem_cons.2 ⟨by omega, hcounting⟩, ?_, ?_⟩
      · rw [decimationOf_cons, decimationOf_cons, hdec, hprod]
      · rw [phase, phase, decimationOf_cons, hdec, hcount, zero_add, mul_assoc, ← mul_add, hphase, ← heq]
        ring

/-- The phase has as many values as the product of the decimations. -/
theorem phase_lt {stages : List (DecimStage F T)} (h : Counting stages) : phase stages < decimationOf stages := by
  induction stages with
  | nil => exact Nat.one_pos
  | cons st stages ih =>
    have hst := h st List.mem_cons_self
    have hrest := ih fun st h' => h st (List.mem_cons_of_mem _ h')
    rw [phase, decimationOf_cons]
    calc st.count + st.decimation * phase stages < st.decimation + st.decimation * phase stages := by omega
      _ = st.decimation * (phase stages + 1) := by ring
      _ ≤ st.decimation * decimationOf stages := Nat.mul_le_mul_left _ hrest

/-! ## Bands and channels -/

variable (dsp) in
/-- A band puts out a sample for every `N` that go in. -/
theorem band_periodic (N : ℕ) : Periodic (BandState.mixDown dsp) N (fun bd : BandState F T => phase bd.stages)
    fun bd => Counting bd.stages ∧ decimationOf bd.stages = N where
  keeps := by
    rintro bd x ⟨h, rfl⟩
    obtain ⟨h1, h2, -⟩ := cascade_count dsp bd.stages (bd.nco.mix dsp x).2 h
    exact ⟨h1, h2⟩
  lt := by
    rintro bd ⟨h, rfl⟩
    exact phase_lt h
  count := by
    rintro bd x ⟨h, rfl⟩
    exact (cascade_count dsp bd.stages (bd.nco.mix dsp x).2 h).2.2

variable (dsp) in
/-- So does a channel. -/
theorem channel_periodic (N : ℕ) : Periodic (ChannelState.mixDown dsp) N (fun cs : ChannelState F T => phase cs.stages)
    fun cs => Counting cs.stages ∧ decimationOf cs.stages = N := by
  have hstages : ∀ (cs : ChannelState F T) (x : F),
      (cs.mixDown dsp x).1.stages = (cascade dsp cs.stages (cs.nco.mix dsp x).2).1 ∧
      (cs.mixDown dsp x).2.toList.length = (cascade dsp cs.stages (cs.nco.mix dsp x).2).2.toList.length := by
    intro cs x
    unfold ChannelState.mixDown
    dsimp only
    split
    · rename_i hnone
      rw [hnone]
      exact ⟨rfl, rfl⟩
    · rename_i y hsome
      rw [hsome]
      unfold ChannelState.cleanup
      split
      · exact ⟨rfl, rfl⟩
      · exact ⟨rfl, rfl⟩
  constructor
  · rintro cs x ⟨h, rfl⟩
    obtain ⟨h1, h2, -⟩ := cascade_count dsp cs.stages (cs.nco.mix dsp x).2 h
    rw [(hstages cs x).1]
    exact ⟨h1, h2⟩
  · rintro cs ⟨h, rfl⟩
    exact phase_lt h
  · rintro cs x ⟨h, rfl⟩
    rw [(hstages cs x).1, (hstages cs x).2]
    exact (cascade_count dsp cs.stages (cs.nco.mix dsp x).2 h).2.2

/-! ## Buffers -/

variable {bd : BandState F T} {cs : ChannelState F T} {xs : List F}

/-- A band with its buffer and its count of discards put back. -/
def BandState.join (p : BandState F T × List F × ℕ) : BandState F T := { p.1 with interBuf := p.2.1, discards := p.2.2 }

/-- A channel with its buffer and its count of discards put back. -/
def ChannelState.join (p : ChannelState F T × List F × ℕ) : ChannelState F T :=
  { p.1 with outBuf := p.2.1, discards := p.2.2 }

variable (dsp) in
/-- The input of a band changes its NCO and its stages. -/
theorem run_band (bd : BandState F T) (xs : List F) :
    ∃ nco stages, (run (BandState.mixDown dsp) bd xs).1 = { bd with nco := nco, stages := stages } := by
  refine run_keeps (P := fun bd' => ∃ nco stages, bd' = { bd with nco := nco, stages := stages }) ?_ ?_
  · rintro _ x ⟨nco, stages, rfl⟩
    exact ⟨_, _, rfl⟩
  · exact ⟨bd.nco, bd.stages, rfl⟩

variable (dsp) in
/-- A sample changes the NCO of a channel, its stages and the history of its filter. -/
theorem mixDown_channel (cs : ChannelState F T) (x : F) :
    ∃ nco stages hist idx, (cs.mixDown dsp x).1 =
      { cs with nco := nco, stages := stages, cleanupHist := hist, cleanupIdx := idx } := by
  unfold ChannelState.mixDown
  dsimp only
  split
  · exact ⟨_, _, _, _, rfl⟩
  · unfold ChannelState.cleanup
    split
    · exact ⟨_, _, _, _, rfl⟩
    · exact ⟨_, _, _, _, rfl⟩

variable (dsp) in
theorem run_channel (cs : ChannelState F T) (xs : List F) :
    ∃ nco stages hist idx, (run (ChannelState.mixDown dsp) cs xs).1 =
      { cs with nco := nco, stages := stages, cleanupHist := hist, cleanupIdx := idx } := by
  refine run_keeps (P := fun cs' => ∃ nco stages hist idx, cs' =
    { cs with nco := nco, stages := stages, cleanupHist := hist, cleanupIdx := idx }) ?_ ?_
  · rintro _ x ⟨nco, stages, hist, idx, rfl⟩
    exact mixDown_channel dsp _ x
  · exact ⟨cs.nco, cs.stages, cs.cleanupHist, cs.cleanupIdx, rfl⟩

/-- The buffer of a band is apart from its transducer. -/
theorem stage1_join (p : BandState F T × List F × ℕ) (hactive : p.1.active = true) (x : F) :
    (BandState.join p).stage1 dsp x = BandState.join (into (BandState.mixDown dsp) p.1.interCap p x) := by
  have hact : (BandState.join p).active = true := hactive
  have hmix : (BandState.join p).mixDown dsp x =
      (BandState.join ((p.1.mixDown dsp x).1, p.2), (p.1.mixDown dsp x).2) := rfl
  have hroom : (BandState.join ((p.1.mixDown dsp x).1, p.2)).interBuf.length <
      (BandState.join ((p.1.mixDown dsp x).1, p.2)).interCap ↔ p.2.1.length < p.1.interCap := Iff.rfl
  unfold BandState.stage1 into
  rw [hact, hmix]
  cases (p.1.mixDown dsp x).2 with
  | none => rfl
  | some y =>
    unfold push
    simp only [hroom, Bool.not_true, Bool.false_eq_true, if_false]
    split <;> rfl

/-- So is the buffer of a channel. -/
theorem stage2_join (p : ChannelState F T × List F × ℕ) (hactive : p.1.active = true) (x : F) :
    (ChannelState.join p).stage2 dsp x = ChannelState.join (into (ChannelState.mixDown dsp) p.1.outCap p x) := by
  have hact : (ChannelState.join p).active = true := hactive
  have hmix : (ChannelState.join p).mixDown dsp x =
      (ChannelState.join ((p.1.mixDown dsp x).1, p.2), (p.1.mixDown dsp x).2) := by
    unfold ChannelState.mixDown ChannelState.cleanup
    dsimp only [ChannelState.join]
    split
    · rfl
    · split <;> rfl
  have hcap : (p.1.mixDown dsp x).1.outCap = p.1.outCap := by
    obtain ⟨_, _, _, _, heq⟩ := mixDown_channel dsp p.1 x
    rw [heq]
  have hroom : (ChannelState.join ((p.1.mixDown dsp x).1, p.2)).outBuf.length <
      (ChannelState.join ((p.1.mixDown dsp x).1, p.2)).outCap ↔ p.2.1.length < p.1.outCap := by
    rw [← hcap]
    rfl
  unfold ChannelState.stage2 into
  rw [hact, hmix]
  cases (p.1.mixDown dsp x).2 with
  | none => rfl
  | some y =>
    unfold push
    simp only [hroom, Bool.not_true, Bool.false_eq_true, if_false]
    split <;> rfl

/-- **A band whose buffer has room** buffers what its transducer makes of the samples. -/
theorem foldl_stage1 (bd : BandState F T) (hactive : bd.active = true) (xs : List F)
    (hroom : bd.interBuf.length + (run (BandState.mixDown dsp) bd xs).2.length ≤ bd.interCap) :
    xs.foldl (fun bd x => bd.stage1 dsp x) bd =
      BandState.join ((run (BandState.mixDown dsp) bd xs).1, bd.interBuf ++ (run (BandState.mixDown dsp) bd xs).2,
        bd.discards) := by
  have hjoin : ∀ (xs : List F) (p : BandState F T × List F × ℕ), p.1.active = true → p.1.interCap = bd.interCap →
      xs.foldl (fun bd x => bd.stage1 dsp x) (BandState.join p) =
        BandState.join (xs.foldl (into (BandState.mixDown dsp) bd.interCap) p) := by
    intro xs
    induction xs with
    | nil => exact fun p _ _ => rfl
    | cons x xs ih =>
      intro p hact hcap
      rw [List.foldl_cons, List.foldl_cons, stage1_join p hact, hcap]
      exact ih _ hact hcap
  rw [← into_eq hroom]
  exact hjoin xs (bd, bd.interBuf, bd.discards) hactive rfl

/-- **A channel whose buffer has room** buffers what its transducer makes of the samples. -/
theorem foldl_stage2 (cs : ChannelState F T) (hactive : cs.active = true) (xs : List F)
    (hroom : cs.outBuf.length + (run (ChannelState.mixDown dsp) cs xs).2.length ≤ cs.outCap) :
    xs.foldl (fun cs x => cs.stage2 dsp x) cs =
      ChannelState.join ((run (ChannelState.mixDown dsp) cs xs).1,
        cs.outBuf ++ (run (ChannelState.mixDown dsp) cs xs).2, cs.discards) := by
  have hstep : ∀ (cs : ChannelState F T) (x : F), (cs.mixDown dsp x).1.active = cs.active ∧
      (cs.mixDown dsp x).1.outCap = cs.outCap := by
    intro cs x
    obtain ⟨_, _, _, _, heq⟩ := mixDown_channel dsp cs x
    rw [heq]
    exact ⟨rfl, rfl⟩
  have hjoin : ∀ (xs : List F) (p : ChannelState F T × List F × ℕ), p.1.active = true → p.1.outCap = cs.outCap →
      xs.foldl (fun cs x => cs.stage2 dsp x) (ChannelState.join p) =
        ChannelState.join (xs.foldl (into (ChannelState.mixDown dsp) cs.outCap) p) := by
    intro xs
    induction xs with
    | nil => exact fun p _ _ => rfl
    | cons x xs ih =>
      intro p hact hcap
      rw [List.foldl_cons, List.foldl_cons, stage2_join p hact, hcap]
      exact ih _ ((hstep p.1 x).1.trans hact) ((hstep p.1 x).2.trans hcap)
  rw [← into_eq hroom]
  exact hjoin xs (cs, cs.outBuf, cs.discards) hactive rfl

/-! ## Blocks -/

/-- Samples through all bands go through each band. -/
theorem foldl_map_bands (f : F → BandState F T → BandState F T) (xs : List F) (bands : List (BandState F T)) :
    xs.foldl (fun bands x => bands.map (f x)) bands = bands.map fun bd => xs.foldl (fun bd x => f x bd) bd := by
  induction xs generalizing bands with
  | nil => exact (List.map_id _).symm
  | cons x xs ih => rw [List.foldl_cons, ih, List.map_map]; rfl

/-- A change at different places. -/
theorem getElem?_foldl_modify {α : Type*} (f : α → α) {idxs : List ℕ} (h : idxs.Nodup) (l : List α) (c : ℕ) :
    (idxs.foldl (fun l i => l.modify i f) l)[c]? = l[c]?.map (if c ∈ idxs then f else id) := by
  induction idxs generalizing l with
  | nil => simp
  | cons i idxs ih =>
    rw [List.nodup_cons] at h
    rw [List.foldl_cons, ih h.2, List.getElem?_modify]
    by_cases hic : i = c
    · subst hic
      simp [h.1]
    · have hci : c ≠ i := fun h => hic h.symm
      simp [hic, hci]

/-- The drain of a band, at the place of a channel. -/
theorem getElem?_drain (hactive : bd.active = true) (hnodup : bd.channelIndices.Nodup)
    (channels : List (ChannelState F T)) (c : ℕ) :
    (bd.drain dsp channels)[c]? = channels[c]?.map
      (if c ∈ bd.channelIndices then fun cs => bd.interBuf.foldl (fun cs x => cs.stage2 dsp x) cs else id) := by
  have hfold : ∀ (xs : List F) (l : List (ChannelState F T)),
      (xs.foldl (fun channels x => bd.channelIndices.foldl
        (fun channels cidx => channels.modify cidx (ChannelState.stage2 dsp x)) channels) l)[c]? =
      l[c]?.map (if c ∈ bd.channelIndices then fun cs => xs.foldl (fun cs x => cs.stage2 dsp x) cs else id) := by
    intro xs
    induction xs with
    | nil =>
      intro l
      split <;> simp
    | cons x xs ih =>
      intro l
      rw [List.foldl_cons, ih, getElem?_foldl_modify _ hnodup, Option.map_map]
      split <;> rfl
  unfold BandState.drain
  rw [hactive]
  split
  · rename_i hempty
    have hnil : bd.interBuf = [] := by simpa using hempty
    rw [← hfold bd.interBuf channels, hnil]
    rfl
  · exact hfold bd.interBuf channels

/-- The drains of other bands leave a channel alone. -/
theorem getElem?_drains_other {bands : List (BandState F T)} {c : ℕ}
    (hok : ∀ bd ∈ bands, bd.active = true ∧ bd.channelIndices.Nodup) (hc : ∀ bd ∈ bands, c ∉ bd.channelIndices)
    (channels : List (ChannelState F T)) :
    (bands.foldl (fun channels bd => bd.drain dsp channels) channels)[c]? = channels[c]? := by
  induction bands generalizing channels with
  | nil => rfl
  | cons bd bands ih =>
    obtain ⟨hactive, hnodup⟩ := hok bd List.mem_cons_self
    rw [List.foldl_cons, ih (fun bd h => hok bd (List.mem_cons_of_mem _ h))
      (fun bd h => hc bd (List.mem_cons_of_mem _ h)), getElem?_drain hactive hnodup,
      if_neg (hc bd List.mem_cons_self), Option.map_id, id]

variable (dsp) in
/-- A channel gets the samples of its band. -/
theorem getElem?_drains {bands : List (BandState F T)} {b c : ℕ}
    (hok : ∀ bd ∈ bands, bd.active = true ∧ bd.channelIndices.Nodup) (hbd : bands[b]? = some bd)
    (hc : ∀ i bd', bands[i]? = some bd' → (c ∈ bd'.channelIndices ↔ i = b)) (channels : List (ChannelState F T)) :
    (bands.foldl (fun channels bd => bd.drain dsp channels) channels)[c]? =
      channels[c]?.map fun cs => bd.interBuf.foldl (fun cs x => cs.stage2 dsp x) cs := by
  obtain ⟨hlt, hget⟩ := List.getElem?_eq_some_iff.1 hbd
  have hsplit : bands = bands.take b ++ bd :: bands.drop (b + 1) := by
    rw [← hget, ← List.drop_eq_getElem_cons hlt, List.take_append_drop]
  have hpre : ∀ bd' ∈ bands.take b, c ∉ bd'.channelIndices := by
    intro bd' hmem hin
    obtain ⟨i, hi, rfl⟩ := List.getElem_of_mem hmem
    rw [List.length_take] at hi
    rw [List.getElem_take] at hin
    have := (hc i _ (List.getElem?_eq_getElem (by omega))).1 hin
    omega
  have hpost : ∀ bd' ∈ bands.drop (b + 1), c ∉ bd'.channelIndices := by
    intro bd' hmem hin
    obtain ⟨i, hi, rfl⟩ := List.getElem_of_mem hmem
    rw [List.length_drop] at hi
    rw [List.getElem_drop] at hin
    have := (hc (b + 1 + i) _ (List.getElem?_eq_getElem (by omega))).1 hin
    omega
  have hself := (hc b bd hbd).2 rfl
  obtain ⟨hactive, hnodup⟩ := hok bd (List.mem_of_getElem? hbd)
  rw [hsplit, List.foldl_append, List.foldl_cons,
    getElem?_drains_other (fun bd' h => hok bd' (List.mem_of_mem_drop h)) hpost, getElem?_drain hactive hnodup,
    if_pos hself, getElem?_drains_other (fun bd' h => hok bd' (List.mem_of_mem_take h)) hpre]

/-- What the callback got for the channel in a slot. -/
def delivered (slot : ℕ) (cbs : List (Callback F)) : List F :=
  (cbs.filter fun cb => cb.slot = slot).flatMap Callback.samples

theorem delivered_append (slot : ℕ) (cbs cbs' : List (Callback F)) :
    delivered slot (cbs ++ cbs') = delivered slot cbs ++ delivered slot cbs' := by
  rw [delivered, List.filter_append, List.flatMap_append, delivered, delivered]

/-- What a channel hands on at a flush. -/
def ChannelState.handed (cs : ChannelState F T) : List F := if cs.outBuf.length ≥ flushThreshold then cs.outBuf else []

theorem delivered_callback (cs : ChannelState F T) (k slot : ℕ) :
    delivered slot [cs.callback k].reduceOption = if slot = k then cs.handed else [] := by
  unfold ChannelState.callback ChannelState.handed
  split
  · by_cases hslot : slot = k
    · rw [if_pos hslot]
      simp [List.reduceOption, delivered, hslot]
    · rw [if_neg hslot]
      simp [List.reduceOption, delivered, Ne.symm hslot]
  · simp [List.reduceOption, delivered]

/-- The flush hands each channel its buffer. -/
theorem delivered_callbacks (channels : List (ChannelState F T)) (c : ℕ) :
    delivered c (channels.mapIdx ChannelState.callback).reduceOption =
      (channels[c]?.map ChannelState.handed).getD [] := by
  -- with the slots counted from any number on
  have hfrom : ∀ (channels : List (ChannelState F T)) (k : ℕ),
      delivered c (channels.mapIdx fun i cs => cs.callback (k + i)).reduceOption =
        if c < k then [] else (channels[c - k]?.map ChannelState.handed).getD [] := by
    intro channels
    induction channels with
    | nil =>
      intro k
      simp [delivered]
    | cons cs channels ih =>
      intro k
      have hshift : (fun i (cs : ChannelState F T) => cs.callback (k + (i + 1))) = fun i cs => cs.callback (k + 1 + i) := by
        funext i cs
        rw [Nat.add_right_comm, Nat.add_assoc]
      rw [List.mapIdx_cons, ← List.singleton_append, List.reduceOption_append, delivered_append, hshift, ih, Nat.add_zero,
        delivered_callback]
      rcases lt_trichotomy c k with hlt | rfl | hgt
      · rw [if_neg hlt.ne, if_pos (by omega), if_pos hlt, List.append_nil]
      · rw [if_pos rfl, if_pos (by omega), if_neg (lt_irrefl c), Nat.sub_self, List.append_nil]
        rfl
      · rw [if_neg hgt.ne', if_neg (by omega), if_neg hgt.not_gt, List.nil_append,
          show c - k = c - (k + 1) + 1 by omega, List.getElem?_cons_succ]
  have h := hfrom channels 0
  simp only [zero_add, Nat.not_lt_zero, if_false, Nat.sub_zero] at h
  exact h

theorem handed_flushed (cs : ChannelState F T) : cs.handed ++ cs.flushed.outBuf = cs.outBuf ∧
    cs.flushed.outBuf.length < flushThreshold ∧ cs.flushed = { cs with outBuf := cs.flushed.outBuf } := by
  unfold ChannelState.handed ChannelState.flushed
  split
  · exact ⟨List.append_nil _, Nat.zero_lt_succ _, rfl⟩
  · rename_i hlt
    exact ⟨rfl, Nat.lt_of_not_le hlt, rfl⟩

/-! ## What setting up leaves behind -/

/-- A band before its first sample. -/
structure BandState.Ready (bd : BandState F T) : Prop where
  active : bd.active = true
  empty : bd.interBuf = []
  kept : bd.discards = 0
  cap : bd.interCap = ⌊bd.intermediateRate * (1 / 10)⌋₊ + 512
  counting : Counting bd.stages
  nodup : bd.channelIndices.Nodup

/-- A channel before its first sample, in a band with an intermediate rate. -/
structure ChannelState.Ready (cs : ChannelState F T) (rate : ℚ) : Prop where
  active : cs.active = true
  empty : cs.outBuf = []
  kept : cs.discards = 0
  cap : cs.outCap = ⌊rateAfter rate cs.stages * (1 / 10)⌋₊ + 512
  counting : Counting cs.stages

/-- **What setting up leaves behind**: bands and channels before their first sample, each
channel in the list of its own band and of no other. -/
structure Wired (ch : Channelizer F T) : Prop where
  band : ∀ bd ∈ ch.bands, bd.Ready
  channel : ∀ cs ∈ ch.channels, ∃ bd, ch.bands[cs.bandIdx]? = some bd ∧ cs.Ready bd.intermediateRate
  wiring : ∀ b bd, ch.bands[b]? = some bd → ∀ c, c ∈ bd.channelIndices ↔ (ch.channels[c]?.map ChannelState.bandIdx) = some b

/-- The intermediate rates are the true ones. -/
def Truthful (ch : Channelizer F T) : Prop :=
  ∀ bd ∈ ch.bands, bd.intermediateRate = ch.sampRate / decimationOf bd.stages

theorem counting_create (l : List ℕ) (hl : ∀ d ∈ l, 0 < d) : Counting (l.map (DecimStage.create dsp)) := by
  intro st hst
  obtain ⟨d, hd, rfl⟩ := List.mem_map.1 hst
  exact hl d hd

/-! ## Room in the buffers -/

/-- A block is at most 0.05 s, or one sample. -/
theorem maxBlock_le (hr : 0 < ch.sampRate) : (ch.maxBlock : ℚ) ≤ ch.sampRate * (1 / 20) + 1 := by
  unfold Channelizer.maxBlock
  rw [Nat.cast_max, Nat.cast_one]
  have hfloor : (⌊ch.sampRate * (1 / 20)⌋₊ : ℚ) ≤ ch.sampRate * (1 / 20) := Nat.floor_le (by positivity)
  exact max_le (by linarith) (by linarith [show 0 < ch.sampRate * (1 / 20) by positivity])

/-- What a transducer with one output for every `N` samples puts out, as a rate. -/
theorem rate_of_lt {N out n : ℕ} {q : ℚ} (hN : 0 < N) (h : N * out < N + n) (hn : (n : ℚ) ≤ q) :
    (out : ℚ) < 1 + q / N := by
  have hN' : (0 : ℚ) < N := Nat.cast_pos.2 hN
  have hcast : (N : ℚ) * out < N + n := by exact_mod_cast h
  have hdiv : (out : ℚ) < (N + n) / N := by
    rw [lt_div_iff₀ hN']
    linarith
  calc (out : ℚ) < (N + n) / N := hdiv
    _ = 1 + n / N := by rw [add_div, div_self hN'.ne']
    _ ≤ 1 + q / N := by gcongr

/-- A buffer for 0.1 s has room for 0.05 s and some samples more. -/
theorem cap_room {rate : ℚ} {len k : ℕ} (hrate : 0 ≤ rate) (hk : k ≤ 500) (h : (len : ℚ) < rate * (1 / 20) + k) :
    len ≤ ⌊rate * (1 / 10)⌋₊ + 512 := by
  have hfloor := Nat.lt_floor_add_one (rate * (1 / 10))
  have hhalf : rate * (1 / 20) ≤ rate * (1 / 10) := mul_le_mul_of_nonneg_left (by norm_num) hrate
  have hk' : (k : ℚ) ≤ 500 := by exact_mod_cast hk
  have hcast : (len : ℚ) < ((⌊rate * (1 / 10)⌋₊ + 512 : ℕ) : ℚ) := by
    push_cast
    linarith
  exact (Nat.cast_lt.1 hcast).le

/-! ## Between blocks -/

/-- All that the transducer of a band makes of the samples. -/
def bandStream (dsp : Dsp F T) (bd : BandState F T) (xs : List F) : List F := (run (BandState.mixDown dsp) bd xs).2

/-- A channel after the samples of its band, with what is left over in its buffer. -/
def ChannelState.after (dsp : Dsp F T) (cs : ChannelState F T) (xs left : List F) : ChannelState F T :=
  { (run (ChannelState.mixDown dsp) cs xs).1 with outBuf := left }

theorem after_nil (h : cs.outBuf = []) : cs.after dsp [] [] = cs := by
  cases cs
  cases h
  rfl

/-- **Between two blocks.** `xs` are the samples so far, and `cbs` what the callback got. -/
structure Between (dsp : Dsp F T) (ch₀ : Channelizer F T) (xs : List F) (ch : Channelizer F T)
    (cbs : List (Callback F)) : Prop where
  rate : ch.sampRate = ch₀.sampRate
  bands : ch.bands = ch₀.bands.map fun bd => (run (BandState.mixDown dsp) bd xs).1
  length : ch.channels.length = ch₀.channels.length
  other : ∀ c, ch₀.channels.length ≤ c → delivered c cbs = []
  channel : ∀ (c : ℕ) (cs : ChannelState F T) (bd : BandState F T), ch₀.channels[c]? = some cs →
    ch₀.bands[cs.bandIdx]? = some bd → ∃ left, ch.channels[c]? = some (cs.after dsp (bandStream dsp bd xs) left) ∧
      delivered c cbs ++ left = (run (ChannelState.mixDown dsp) cs (bandStream dsp bd xs)).2 ∧ left.length < flushThreshold

theorem between_start (h : Wired ch) : Between dsp ch [] ch [] where
  rate := rfl
  bands := (List.map_id _).symm
  length := rfl
  other := fun _ _ => rfl
  channel := by
    intro c cs bd hcs hbd
    obtain ⟨bd', -, hready⟩ := h.channel cs (List.mem_of_getElem? hcs)
    exact ⟨[], hcs.trans (congrArg some (after_nil hready.empty).symm), rfl, Nat.zero_lt_succ _⟩

variable (dsp) in
/-- A band has room for what comes out of it in a block. -/
theorem band_room (hr : 0 < ch.sampRate) (hbd : bd.Ready) (htrue : bd.intermediateRate = ch.sampRate / decimationOf bd.stages)
    (xs : List F) {block : List F} (hblock : block.length ≤ ch.maxBlock) :
    let out := (run (BandState.mixDown dsp) (run (BandState.mixDown dsp) bd xs).1 block).2
    (out.length : ℚ) < bd.intermediateRate * (1 / 20) + 2 ∧ out.length ≤ bd.interCap := by
  intro out
  have hper := band_periodic dsp (decimationOf bd.stages)
  have hst : Counting (run (BandState.mixDown dsp) bd xs).1.stages ∧
      decimationOf (run (BandState.mixDown dsp) bd xs).1.stages = decimationOf bd.stages :=
    run_keeps hper.keeps ⟨hbd.counting, rfl⟩
  have hN : 0 < decimationOf bd.stages := (Nat.zero_le _).trans_lt (phase_lt hbd.counting)
  have hlt := hper.run_lt hst block
  have hn : (block.length : ℚ) ≤ ch.sampRate * (1 / 20) + 1 := (Nat.cast_le.2 hblock).trans (maxBlock_le hr)
  have hout := rate_of_lt hN hlt hn
  have hN' : (1 : ℚ) ≤ decimationOf bd.stages := by exact_mod_cast hN
  have hrate : 0 ≤ bd.intermediateRate := by
    rw [htrue]
    positivity
  have hone : (1 : ℚ) / decimationOf bd.stages ≤ 1 := by
    rw [div_le_one (by linarith)]
    exact hN'
  have hlen : (out.length : ℚ) < bd.intermediateRate * (1 / 20) + 2 := by
    calc (out.length : ℚ) < 1 + (ch.sampRate * (1 / 20) + 1) / decimationOf bd.stages := hout
      _ = bd.intermediateRate * (1 / 20) + 1 + 1 / decimationOf bd.stages := by
        rw [htrue]
        ring
      _ ≤ bd.intermediateRate * (1 / 20) + 2 := by linarith
  refine ⟨hlen, ?_⟩
  rw [hbd.cap]
  exact cap_room hrate (show 2 ≤ 500 by decide) (by exact_mod_cast hlen)

variable (dsp) in
/-- So has a channel, behind what was left over. -/
theorem channel_room {rate : ℚ} (hrate : 0 ≤ rate) (hcs : cs.Ready rate) (xs : List F) {block left : List F}
    (hblock : (block.length : ℚ) < rate * (1 / 20) + 2) (hleft : left.length < flushThreshold) :
    left.length + (run (ChannelState.mixDown dsp) (run (ChannelState.mixDown dsp) cs xs).1 block).2.length ≤ cs.outCap := by
  have hper := channel_periodic dsp (decimationOf cs.stages)
  have hst : Counting (run (ChannelState.mixDown dsp) cs xs).1.stages ∧
      decimationOf (run (ChannelState.mixDown dsp) cs xs).1.stages = decimationOf cs.stages :=
    run_keeps hper.keeps ⟨hcs.counting, rfl⟩
  have hN : 0 < decimationOf cs.stages := (Nat.zero_le _).trans_lt (phase_lt hcs.counting)
  have hlt := hper.run_lt hst block
  have hout := rate_of_lt hN hlt hblock.le
  have hN' : (1 : ℚ) ≤ decimationOf cs.stages := by exact_mod_cast hN
  have htwo : (2 : ℚ) / decimationOf cs.stages ≤ 2 := by
    rw [div_le_iff₀ (by linarith)]
    linarith
  have hleft' : (left.length : ℚ) + 1 ≤ 32 := by exact_mod_cast hleft
  rw [hcs.cap, rateAfter_eq]
  refine cap_room (k := 34) (by positivity) (by decide) ?_
  push_cast
  calc (left.length : ℚ) + (run (ChannelState.mixDown dsp) (run (ChannelState.mixDown dsp) cs xs).1 block).2.length
      < left.length + (1 + (rate * (1 / 20) + 2) / decimationOf cs.stages) := by linarith
    _ = rate / decimationOf cs.stages * (1 / 20) + (left.length + 1 + 2 / decimationOf cs.stages) := by ring
    _ ≤ rate / decimationOf cs.stages * (1 / 20) + 34 := by linarith

variable (dsp) in
/-- The samples of a block, behind those before it. -/
theorem run_after (cs : ChannelState F T) (xs xs' left : List F) :
    run (ChannelState.mixDown dsp) (cs.after dsp xs left) xs' =
      (cs.after dsp (xs ++ xs') left, (run (ChannelState.mixDown dsp) (run (ChannelState.mixDown dsp) cs xs).1 xs').2) := by
  have hmix : ∀ (cs : ChannelState F T) (x : F), ({ cs with outBuf := left } : ChannelState F T).mixDown dsp x =
      ({ (cs.mixDown dsp x).1 with outBuf := left }, (cs.mixDown dsp x).2) := by
    intro cs x
    unfold ChannelState.mixDown ChannelState.cleanup
    dsimp only
    split
    · rfl
    · split <;> rfl
  unfold ChannelState.after
  rw [run_append]
  exact run_map hmix _ xs'

variable (dsp) in
/-- What a channel keeps of the time before its first sample. -/
theorem after_keeps (cs : ChannelState F T) (xs left : List F) : (cs.after dsp xs left).active = cs.active ∧
    (cs.after dsp xs left).outCap = cs.outCap ∧ (cs.after dsp xs left).discards = cs.discards := by
  obtain ⟨_, _, _, _, heq⟩ := run_channel dsp cs xs
  unfold ChannelState.after
  rw [heq]
  exact ⟨rfl, rfl, rfl⟩

theorem length_drains (bands : List (BandState F T)) (channels : List (ChannelState F T)) :
    (bands.foldl (fun channels bd => bd.drain dsp channels) channels).length = channels.length := by
  have hmodify : ∀ (f : ChannelState F T → ChannelState F T) (idxs : List ℕ) (l : List (ChannelState F T)),
      (idxs.foldl (fun l i => l.modify i f) l).length = l.length := by
    intro f idxs
    induction idxs with
    | nil => exact fun l => rfl
    | cons i idxs ih => exact fun l => (ih _).trans (List.length_modify ..)
  have hdrain : ∀ (bd : BandState F T) (l : List (ChannelState F T)), (bd.drain dsp l).length = l.length := by
    intro bd l
    unfold BandState.drain
    split
    · rfl
    · generalize bd.interBuf = xs
      induction xs generalizing l with
      | nil => rfl
      | cons x xs ih => exact (ih _).trans (hmodify _ _ _)
  induction bands generalizing channels with
  | nil => rfl
  | cons bd bands ih => exact (ih _).trans (hdrain bd channels)

/-- A band behind stage 1 of a block. -/
def BandState.filled (dsp : Dsp F T) (xs block : List F) (bd : BandState F T) : BandState F T :=
  { (run (BandState.mixDown dsp) bd (xs ++ block)).1 with
    interBuf := (run (BandState.mixDown dsp) (run (BandState.mixDown dsp) bd xs).1 block).2 }

theorem bandStream_append (bd : BandState F T) (xs block : List F) :
    bandStream dsp bd (xs ++ block) = bandStream dsp bd xs ++ (bd.filled dsp xs block).interBuf := by
  unfold bandStream
  rw [run_append]
  rfl

/-- Stage 1 fills the bands. -/
theorem stage1_filled (hbd : bd.Ready) (xs : List F) {block : List F}
    (hroom : (run (BandState.mixDown dsp) (run (BandState.mixDown dsp) bd xs).1 block).2.length ≤ bd.interCap) :
    block.foldl (fun bd x => bd.stage1 dsp x) (run (BandState.mixDown dsp) bd xs).1 = bd.filled dsp xs block := by
  obtain ⟨nco, stages, hrun⟩ := run_band dsp bd xs
  obtain ⟨nco', stages', hrun'⟩ := run_band dsp (run (BandState.mixDown dsp) bd xs).1 block
  have hactive : (run (BandState.mixDown dsp) bd xs).1.active = true := by
    rw [hrun]
    exact hbd.active
  have hempty : (run (BandState.mixDown dsp) bd xs).1.interBuf = [] := by
    rw [hrun]
    exact hbd.empty
  have hcap : (run (BandState.mixDown dsp) bd xs).1.interCap = bd.interCap := by rw [hrun]
  rw [foldl_stage1 _ hactive block (by rw [hempty, hcap, List.length_nil, Nat.zero_add]; exact hroom), hempty,
    List.nil_append]
  unfold BandState.filled BandState.join
  rw [run_append, hrun']

/-- An emptied band is its transducer. -/
theorem emptied_filled (hbd : bd.Ready) (xs block : List F) :
    (bd.filled dsp xs block).emptied = (run (BandState.mixDown dsp) bd (xs ++ block)).1 := by
  obtain ⟨nco, stages, hrun⟩ := run_band dsp bd (xs ++ block)
  unfold BandState.filled BandState.emptied
  rw [hrun]
  dsimp only
  rw [hbd.active, ← hbd.empty]
  rfl

variable (dsp) in
theorem filled_keeps (bd : BandState F T) (xs block : List F) : (bd.filled dsp xs block).active = bd.active ∧
    (bd.filled dsp xs block).channelIndices = bd.channelIndices := by
  obtain ⟨nco, stages, hrun⟩ := run_band dsp bd (xs ++ block)
  unfold BandState.filled
  rw [hrun]
  exact ⟨rfl, rfl⟩

/-- Stage 2 of a block, for a channel with `left` in its buffer. -/
theorem stage2_filled {rate : ℚ} (hrate : 0 ≤ rate) (hcs : cs.Ready rate) (xs : List F) {block left : List F}
    (hblock : (block.length : ℚ) < rate * (1 / 20) + 2) (hleft : left.length < flushThreshold) :
    block.foldl (fun cs x => cs.stage2 dsp x) (cs.after dsp xs left) = cs.after dsp (xs ++ block)
      (left ++ (run (ChannelState.mixDown dsp) (run (ChannelState.mixDown dsp) cs xs).1 block).2) := by
  obtain ⟨hactive, hcap, hdiscards⟩ := after_keeps dsp cs xs left
  obtain ⟨-, -, hdiscards'⟩ := after_keeps dsp cs (xs ++ block) left
  have hroom := channel_room dsp hrate hcs xs hblock hleft
  have hrun := run_after dsp cs xs block left
  rw [foldl_stage2 _ (hactive.trans hcs.active) block (by rw [hrun, hcap]; exact hroom), hrun, hdiscards, ← hdiscards']
  rfl

/-- **A block**, between two states of this kind. -/
theorem processBlock_between {ch₀ : Channelizer F T} {block : List F} {cbs : List (Callback F)} (hr : 0 < ch₀.sampRate)
    (hwired : Wired ch₀) (htrue : Truthful ch₀) (h : Between dsp ch₀ xs ch cbs) (hblock : block.length ≤ ch₀.maxBlock) :
    Between dsp ch₀ (xs ++ block) (ch.processBlock dsp block).1 (cbs ++ (ch.processBlock dsp block).2) := by
  have hroom : ∀ bd ∈ ch₀.bands, _ := fun bd hmem => band_room dsp hr (hwired.band bd hmem) (htrue bd hmem) xs hblock
  -- stage 1: every band buffers what its transducer makes of the block
  have hstage1 : block.foldl (fun bands input => bands.map fun bd => bd.stage1 dsp input) ch.bands =
      ch₀.bands.map (BandState.filled dsp xs block) := by
    rw [foldl_map_bands (fun x bd => bd.stage1 dsp x), h.bands, List.map_map]
    exact List.map_congr_left fun bd hmem => stage1_filled (hwired.band bd hmem) xs (hroom bd hmem).2
  have hok : ∀ bd ∈ ch₀.bands.map (BandState.filled dsp xs block), bd.active = true ∧ bd.channelIndices.Nodup := by
    intro bd hmem
    obtain ⟨bd₀, hmem₀, rfl⟩ := List.mem_map.1 hmem
    obtain ⟨hactive, hindices⟩ := filled_keeps dsp bd₀ xs block
    rw [hactive, hindices]
    exact ⟨(hwired.band bd₀ hmem₀).active, (hwired.band bd₀ hmem₀).nodup⟩
  unfold Channelizer.processBlock
  dsimp only
  rw [hstage1]
  refine ⟨h.rate, ?_, ?_, ?_, ?_⟩
  · rw [List.map_map]
    exact List.map_congr_left fun bd hmem => emptied_filled (hwired.band bd hmem) xs block
  · rw [List.length_map, length_drains, h.length]
  · intro c hc
    rw [delivered_append, h.other c hc, delivered_callbacks,
      List.getElem?_eq_none (by rw [length_drains, h.length]; exact hc)]
    rfl
  · intro c cs bd hcs hbd
    obtain ⟨left, hget, hsent, hleft⟩ := h.channel c cs bd hcs hbd
    obtain ⟨bd', hbd', hready⟩ := hwired.channel cs (List.mem_of_getElem? hcs)
    obtain rfl : bd' = bd := Option.some.inj (hbd'.symm.trans hbd)
    have hmem := List.mem_of_getElem? hbd
    -- stage 2: the channel buffers what its transducer makes of the samples of its band
    have hwire : ∀ i bd'', (ch₀.bands.map (BandState.filled dsp xs block))[i]? = some bd'' →
        (c ∈ bd''.channelIndices ↔ i = cs.bandIdx) := by
      intro i bd'' hi
      rw [List.getElem?_map, Option.map_eq_some_iff] at hi
      obtain ⟨bd₀, hi, rfl⟩ := hi
      rw [(filled_keeps dsp bd₀ xs block).2, hwired.wiring i bd₀ hi c, hcs, Option.map_some, Option.some.injEq]
      exact eq_comm
    have hfilled : (ch₀.bands.map (BandState.filled dsp xs block))[cs.bandIdx]? = some (bd'.filled dsp xs block) := by
      rw [List.getElem?_map, hbd, Option.map_some]
    have hrate : 0 ≤ bd'.intermediateRate := by
      rw [htrue bd' hmem]
      positivity
    have hlen : ((bd'.filled dsp xs block).interBuf.length : ℚ) < bd'.intermediateRate * (1 / 20) + 2 := (hroom bd' hmem).1
    have hdrained := getElem?_drains dsp hok hfilled hwire ch.channels
    rw [hget, Option.map_some, stage2_filled hrate hready _ hlen hleft, ← bandStream_append] at hdrained
    -- the flush
    set buf := left ++ (run (ChannelState.mixDown dsp) (run (ChannelState.mixDown dsp) cs (bandStream dsp bd' xs)).1
      (bd'.filled dsp xs block).interBuf).2
    obtain ⟨hhanded, hlt, hflushed⟩ := handed_flushed (cs.after dsp (bandStream dsp bd' (xs ++ block)) buf)
    refine ⟨_, ?_, ?_, hlt⟩
    · rw [List.getElem?_map, hdrained, Option.map_some]
      exact congrArg some hflushed
    · rw [delivered_append, delivered_callbacks, hdrained, Option.map_some, Option.getD_some, List.append_assoc, hhanded,
        bandStream_append, run_append]
      show delivered c cbs ++ buf = _
      rw [← List.append_assoc, hsent]

/-! ## Calls -/

/-- Blocks, one behind the other. -/
theorem processLoop_between {ch₀ : Channelizer F T} (hr : 0 < ch₀.sampRate) (hwired : Wired ch₀) (htrue : Truthful ch₀)
    (samples : List F) : ∀ {ch : Channelizer F T} {xs : List F} {cbs : List (Callback F)}, Between dsp ch₀ xs ch cbs →
      Between dsp ch₀ (xs ++ samples) (processLoop dsp ch₀.maxBlock ch samples).1
        (cbs ++ (processLoop dsp ch₀.maxBlock ch samples).2) := by
  have hpos : 0 < ch₀.maxBlock := lt_max_of_lt_right Nat.one_pos
  induction hn : samples.length using Nat.strong_induction_on generalizing samples with
  | _ n ih =>
    intro ch xs cbs h
    rw [processLoop]
    split
    · rename_i hend
      obtain rfl : samples = [] := hend.resolve_right hpos.ne'
      rw [List.append_nil, List.append_nil]
      exact h
    · rename_i hmore
      rw [not_or] at hmore
      have hsamples := List.length_pos_iff.2 hmore.1
      have hblock := processBlock_between hr hwired htrue h (List.length_take_le ch₀.maxBlock samples)
      have hrest := ih _ (by rw [List.length_drop]; omega) (samples.drop ch₀.maxBlock) rfl hblock
      rw [List.append_assoc, List.append_assoc, List.take_append_drop] at hrest
      exact hrest

/-- Calls, one behind the other. -/
theorem processAll_between {ch₀ : Channelizer F T} (hr : 0 < ch₀.sampRate) (hwired : Wired ch₀) (htrue : Truthful ch₀)
    (chunks : List (List F)) : ∀ {ch : Channelizer F T} {xs : List F} {cbs : List (Callback F)}, Between dsp ch₀ xs ch cbs →
      Between dsp ch₀ (xs ++ chunks.flatten) (ch.processAll dsp chunks).1 (cbs ++ (ch.processAll dsp chunks).2) := by
  induction chunks with
  | nil =>
    intro ch xs cbs h
    rw [List.flatten_nil, List.append_nil, Channelizer.processAll, List.append_nil]
    exact h
  | cons samples chunks ih =>
    intro ch xs cbs h
    have hmax : ch.maxBlock = ch₀.maxBlock := by
      unfold Channelizer.maxBlock
      rw [h.rate]
    have hfirst := processLoop_between hr hwired htrue samples h
    rw [← hmax] at hfirst
    have hrest := ih hfirst
    rw [List.append_assoc, List.append_assoc] at hrest
    exact hrest

/-! ## Setting up -/

/-- What a band is, but for its centre and its NCO. -/
def BandState.frame (bd : BandState F T) : Bool × ℚ × List (DecimStage F T) × List F × ℕ × List ℕ × ℕ :=
  (bd.active, bd.intermediateRate, bd.stages, bd.interBuf, bd.interCap, bd.channelIndices, bd.discards)

/-- What a channel is, but for its NCO and its filter. -/
def ChannelState.frame (cs : ChannelState F T) : Bool × ℕ × List (DecimStage F T) × List F × ℕ × ℕ :=
  (cs.active, cs.bandIdx, cs.stages, cs.outBuf, cs.outCap, cs.discards)

theorem ready_of_frame {bd' : BandState F T} (h : bd.Ready) (heq : bd.frame = bd'.frame) : bd'.Ready := by
  obtain ⟨h1, h2, h3, h4, h5, h6⟩ := h
  simp only [BandState.frame, Prod.mk.injEq] at heq
  obtain ⟨e1, e2, e3, e4, e5, e6, e7⟩ := heq
  exact ⟨e1 ▸ h1, e4 ▸ h2, e7 ▸ h3, by rw [← e5, ← e2]; exact h4, e3 ▸ h5, e6 ▸ h6⟩

theorem channelReady_of_frame {cs' : ChannelState F T} {rate : ℚ} (h : cs.Ready rate) (heq : cs.frame = cs'.frame) :
    cs'.Ready rate := by
  obtain ⟨h1, h2, h3, h4, h5⟩ := h
  simp only [ChannelState.frame, Prod.mk.injEq] at heq
  obtain ⟨e1, e2, e3, e4, e5, e6⟩ := heq
  exact ⟨e1 ▸ h1, e4 ▸ h2, e6 ▸ h3, by rw [← e5, ← e3]; exact h4, e3 ▸ h5⟩

theorem getElem?_of_map {α β : Type*} {f : α → β} {l l' : List α} (h : l'.map f = l.map f) {i : ℕ} {a : α}
    (ha : l'[i]? = some a) : ∃ a', l[i]? = some a' ∧ f a' = f a := by
  have hget := congrArg (fun l => l[i]?) h
  rw [List.getElem?_map, List.getElem?_map, ha, Option.map_some, eq_comm, Option.map_eq_some_iff] at hget
  exact hget

/-- What changes no frame rewires nothing. -/
theorem Wired.of_frames (h : Wired ch) (hbands : ch'.bands.map BandState.frame = ch.bands.map BandState.frame)
    (hchannels : ch'.channels.map ChannelState.frame = ch.channels.map ChannelState.frame) : Wired ch' := by
  constructor
  · intro bd hbd
    obtain ⟨b, hb⟩ := List.mem_iff_getElem?.1 hbd
    obtain ⟨bd', hb', heq⟩ := getElem?_of_map hbands hb
    exact ready_of_frame (h.band bd' (List.mem_of_getElem? hb')) heq
  · intro cs hcs
    obtain ⟨c, hc⟩ := List.mem_iff_getElem?.1 hcs
    obtain ⟨cs', hc', heq⟩ := getElem?_of_map hchannels hc
    obtain ⟨bd', hb', hready⟩ := h.channel cs' (List.mem_of_getElem? hc')
    obtain ⟨bd, hb, heq'⟩ := getElem?_of_map hbands.symm hb'
    have hidx : cs'.bandIdx = cs.bandIdx := congrArg (fun p => p.2.1) heq
    have hrate : bd.intermediateRate = bd'.intermediateRate := congrArg (fun p => p.2.1) heq'
    rw [← hidx]
    exact ⟨bd, hb, hrate ▸ channelReady_of_frame hready heq⟩
  · intro b bd hb c
    obtain ⟨bd', hb', heq⟩ := getElem?_of_map hbands hb
    have hindices : bd'.channelIndices = bd.channelIndices := congrArg (fun p => p.2.2.2.2.2.1) heq
    have hidx : ch'.channels[c]?.map ChannelState.bandIdx = ch.channels[c]?.map ChannelState.bandIdx := by
      have hget := congrArg (fun l => l[c]?.map fun p => p.2.1) hchannels
      rw [List.getElem?_map, List.getElem?_map, Option.map_map, Option.map_map] at hget
      exact hget
    rw [← hindices, hidx]
    exact h.wiring b bd' hb' c

theorem frame_recentre (rate centroid shift : ℚ) (bd : BandState F T) :
    (BandState.recentre dsp rate centroid shift bd).frame = bd.frame := rfl

theorem frame_rebalance (rate shift : ℚ) (cs : ChannelState F T) :
    (ChannelState.rebalance dsp rate shift cs).frame = cs.frame := rfl

/-- Centring the bands rewires nothing. -/
theorem finalize_wired (h : Wired ch) : Wired (ch.finalize dsp) := by
  obtain ⟨-, hbands, hchannels⟩ := finalize_keeps dsp frame_recentre frame_rebalance ch
  exact h.of_frames hbands hchannels

theorem counting_plan (n : ℕ) : Counting ((planDecimation n 16 maxStages).map (DecimStage.create dsp)) := by
  refine counting_create _ fun d hd => ?_
  rw [planDecimation_eq] at hd
  exact planLoop_pos _ _ _ d hd

theorem initBand_ready (ch : Channelizer F T) (freq : ℚ) (family s1 : ℕ) : (initBand dsp ch freq family s1).Ready :=
  ⟨rfl, rfl, rfl, rfl, counting_plan _, List.nodup_nil⟩

theorem initChannel_ready (ch : Channelizer F T) (freq : ℚ) (type : ChannelType) (channelId : ℤ) (b : ℕ)
    (bd : BandState F T) : (initChannel dsp ch freq type channelId b bd).Ready bd.intermediateRate :=
  ⟨rfl, rfl, rfl, rfl, counting_plan _⟩

/-- A band behind a call that adds a channel. -/
theorem findOrCreateBand_getElem? {freq : ℚ} {type : ChannelType} {slot b i : ℕ} {bands : List (BandState F T)}
    (h : ch.findOrCreateBand dsp freq type slot = some (bands, b)) (hi : bands[i]? = some bd) :
    i ≠ b ∧ ch.bands[i]? = some bd ∨ i = b ∧ ∃ bd₀ : BandState F T, bd = bd₀.addIndex slot ∧
      (ch.bands[b]? = some bd₀ ∨
        ch.bands[b]? = none ∧ bd₀ = initBand dsp ch freq (modulationFamily type) (s1Decim ch.sampRate type)) := by
  rcases findOrCreateBand_cases h with ⟨-, ⟨bd', hbd', -⟩, rfl⟩ | ⟨-, rfl, rfl⟩
  · rw [List.getElem?_modify] at hi
    by_cases hib : b = i
    · subst hib
      simp only [hbd', if_true, Option.map_eq_map, Option.map_some, Option.some.injEq] at hi
      exact Or.inr ⟨rfl, bd', hi.symm, Or.inl hbd'⟩
    · exact Or.inl ⟨Ne.symm hib, by simpa [hib] using hi⟩
  · have hnone : ch.bands[ch.bands.length]? = none := List.getElem?_eq_none le_rfl
    rcases lt_or_ge i ch.bands.length with hlt | hge
    · rw [List.getElem?_append_left hlt] at hi
      exact Or.inl ⟨hlt.ne, hi⟩
    · obtain rfl : i = ch.bands.length := by
        have hlen := (List.getElem?_eq_some_iff.1 hi).1
        rw [List.length_append, List.length_singleton] at hlen
        omega
      rw [List.getElem?_concat_length, Option.some.injEq] at hi
      exact Or.inr ⟨rfl, _, hi.symm, Or.inr ⟨hnone, rfl⟩⟩

/-- Each old band is still there. -/
theorem findOrCreateBand_old {freq : ℚ} {type : ChannelType} {slot b i : ℕ} {bands : List (BandState F T)}
    (h : ch.findOrCreateBand dsp freq type slot = some (bands, b)) (hi : ch.bands[i]? = some bd) :
    ∃ bd', bands[i]? = some bd' ∧ bd'.intermediateRate = bd.intermediateRate := by
  rcases findOrCreateBand_cases h with ⟨-, -, rfl⟩ | ⟨-, rfl, rfl⟩
  · rw [List.getElem?_modify, hi]
    split
    · exact ⟨_, rfl, rfl⟩
    · exact ⟨_, rfl, rfl⟩
  · exact ⟨bd, by rw [List.getElem?_append_left (List.getElem?_eq_some_iff.1 hi).1, hi], rfl⟩

/-- Adding a channel wires it to its band. -/
theorem add_wired {freq : ℚ} {type : ChannelType} {channelId : ℤ} (h : Wired ch)
    (hadd : ch.addChannel dsp freq type channelId = some ch') : Wired ch' := by
  obtain ⟨bands, b, bd, hband, hbd, rfl⟩ := addChannel_cases hadd
  -- the band of a slot, with the new one
  have hslot : ∀ c i, ((ch.channels ++ [initChannel dsp ch freq type channelId b bd])[c]?.map ChannelState.bandIdx) = some i ↔
      (ch.channels[c]?.map ChannelState.bandIdx) = some i ∨ c = ch.channels.length ∧ i = b := by
    intro c i
    rcases lt_trichotomy c ch.channels.length with hlt | rfl | hgt
    · rw [List.getElem?_append_left hlt]
      simp [hlt.ne]
    · rw [List.getElem?_concat_length, List.getElem?_eq_none le_rfl]
      simp [initChannel, eq_comm]
    · rw [List.getElem?_eq_none (by simp; omega), List.getElem?_eq_none hgt.le]
      simp [hgt.ne']
  constructor
  · intro bd' hmem
    obtain ⟨i, hi⟩ := List.mem_iff_getElem?.1 hmem
    rcases findOrCreateBand_getElem? hband hi with ⟨-, hold⟩ | ⟨rfl, bd₀, rfl, hbd₀⟩
    · exact h.band bd' (List.mem_of_getElem? hold)
    · have hready : bd₀.Ready ∧ ch.channels.length ∉ bd₀.channelIndices := by
        rcases hbd₀ with hold | ⟨-, rfl⟩
        · refine ⟨h.band bd₀ (List.mem_of_getElem? hold), fun hin => ?_⟩
          rw [h.wiring i bd₀ hold, List.getElem?_eq_none le_rfl] at hin
          cases hin
        · exact ⟨initBand_ready _ _ _ _, List.not_mem_nil⟩
      obtain ⟨⟨h1, h2, h3, h4, h5, h6⟩, hnew⟩ := hready
      refine ⟨h1, h2, h3, h4, h5, ?_⟩
      exact List.nodup_append.2 ⟨h6, List.nodup_singleton _, fun a ha a' ha' => by
        rw [List.mem_singleton.1 ha']
        rintro rfl
        exact hnew ha⟩
  · intro cs hcs
    rcases List.mem_append.1 hcs with hcs | hcs
    · obtain ⟨bd', hbd', hready⟩ := h.channel cs hcs
      obtain ⟨bd'', hbd'', hrate⟩ := findOrCreateBand_old hband hbd'
      exact ⟨bd'', hbd'', hrate ▸ hready⟩
    · rw [List.mem_singleton.1 hcs]
      exact ⟨bd, hbd, initChannel_ready _ _ _ _ _ _⟩
  · intro i bd' hi c
    rw [hslot]
    rcases findOrCreateBand_getElem? hband hi with ⟨hne, hold⟩ | ⟨rfl, bd₀, rfl, hbd₀⟩
    · rw [h.wiring i bd' hold c]
      simp [hne]
    · have hbefore : c ∈ bd₀.channelIndices ↔ (ch.channels[c]?.map ChannelState.bandIdx) = some i := by
        rcases hbd₀ with hold | ⟨hnone, rfl⟩
        · exact h.wiring i bd₀ hold c
        · -- a new band, so no channel has been in it
          refine iff_of_false List.not_mem_nil fun hin => ?_
          obtain ⟨cs, hcs, rfl⟩ := Option.map_eq_some_iff.1 hin
          obtain ⟨bd', hbd', -⟩ := h.channel cs (List.mem_of_getElem? hcs)
          rw [hnone] at hbd'
          cases hbd'
      rw [← hbefore]
      simp [BandState.addIndex]

theorem create_wired : Wired (Channelizer.create cf r : Channelizer F T) where
  band := fun bd h => absurd h (by simp [Channelizer.create])
  channel := fun cs h => absurd h (by simp [Channelizer.create])
  wiring := fun b bd h => absurd h (by simp [Channelizer.create])

/-- **Every set-up is wired.** -/
theorem setUp_wired : ∀ {ch : Channelizer F T}, Wired ch → ch.setUp dsp calls = some ch' → Wired ch' := by
  induction calls with
  | nil =>
    intro ch h hset
    obtain rfl := Option.some.inj hset
    exact h
  | cons c calls ih =>
    intro ch h hset
    unfold Channelizer.setUp at hset
    rw [List.foldlM_cons, Option.bind_eq_bind, Option.bind_eq_some_iff] at hset
    obtain ⟨ch₁, hcall, hset⟩ := hset
    refine ih ?_ hset
    cases c with
    | add freq type channelId => exact add_wired h hcall
    | finalize =>
      obtain rfl := Option.some.inj hcall
      exact finalize_wired h

/-- The intermediate rates are true if the plans of the bands fit. -/
theorem setUp_truthful (hset : (Channelizer.create cf r).setUp dsp calls = some ch)
    (hplans : ∀ s ∈ requests dsp (Channelizer.create cf r) calls, (planDecimation s 16 maxStages).prod = s) :
    ch.sampRate = r ∧ Truthful ch := by
  have h := setUp_ok create_ok hset
  rw [List.nil_append] at h
  refine ⟨h.rate, fun bd hmem => ?_⟩
  have hplan := List.mem_map_of_mem (f := BandState.plan) hmem
  rw [h.bands, List.mem_map] at hplan
  obtain ⟨s, hs, heq⟩ := hplan
  have hrate : bd.intermediateRate = r / s := (congrArg Prod.fst heq).symm
  have hprod : decimationOf bd.stages = (planDecimation s 16 maxStages).prod := (congrArg (fun p => p.2.prod) heq).symm
  rw [hrate, hprod, hplans s hs, h.rate]

/-- No buffer has been full. -/
def NoDiscards (ch : Channelizer F T) : Prop :=
  (∀ bd ∈ ch.bands, bd.discards = 0) ∧ ∀ cs ∈ ch.channels, cs.discards = 0

theorem between_noDiscards {ch₀ : Channelizer F T} {cbs : List (Callback F)} (hwired : Wired ch₀)
    (h : Between dsp ch₀ xs ch cbs) : NoDiscards ch := by
  constructor
  · intro bd hmem
    rw [h.bands] at hmem
    obtain ⟨bd₀, hmem₀, rfl⟩ := List.mem_map.1 hmem
    obtain ⟨_, _, hrun⟩ := run_band dsp bd₀ xs
    rw [hrun]
    exact (hwired.band bd₀ hmem₀).kept
  · intro cs hmem
    obtain ⟨c, hlt, rfl⟩ := List.getElem_of_mem hmem
    have hcs := List.getElem?_eq_getElem (h.length ▸ hlt)
    obtain ⟨bd, hbd, hready⟩ := hwired.channel _ (List.mem_of_getElem? hcs)
    obtain ⟨left, hget, -⟩ := h.channel c _ bd hcs hbd
    obtain ⟨_, heq⟩ := List.getElem?_eq_some_iff.1 hget
    rw [heq, (after_keeps dsp _ _ _).2.2]
    exact hready.kept

end InmarsatSniffer.Ddc
