import Mathlib
import InmarsatSniffer.Spec.ChannelMem
import InmarsatSniffer.Proof.OutputRate

/-!
# A failed call of `channelizer_add_channel`

`add_atomic_iff`: a call that fails leaves no trace exactly if a table is full. What fails
for want of memory leaves a band without a buffer, or the channel's index in a band.

* `Sound`: the bands name only channels that count.
* `Alike`: two channelizers that differ at most in slots that do not count.
-/

namespace InmarsatSniffer.Ddc

variable {F T : Type*} {dsp : Dsp F T} {a a' : RawChannelizer F T} {ch : Channelizer F T}
  {freq : ℚ} {type : ChannelType} {channelId : ℤ} {mem : Memory} {n : ℕ}

/-! ## One call that adds a channel -/

/-- **The four ways through `find_or_create_band`.** -/
theorem findOrCreateBand_raw (dsp : Dsp F T) (a : RawChannelizer F T) (freq : ℚ) (type : ChannelType) (mem : Memory) :
    (∃ bands b bd, a.findOrCreateBand dsp freq type mem = (bands, some b) ∧ bands[b]? = some bd ∧
      a.ch.findOrCreateBand dsp freq type a.numChannels = some (bands, b)) ∨
    (a.findOrCreateBand dsp freq type mem = (a.ch.bands, none) ∧ a.ch.findBand freq type = none ∧
      a.ch.bands.length ≥ maxBands) ∨
    (∃ bd, a.findOrCreateBand dsp freq type mem = (a.ch.bands ++ [bd], none) ∧ a.ch.findBand freq type = none ∧
      a.ch.bands.length < maxBands ∧ mem.interBuf = false) := by
  unfold RawChannelizer.findOrCreateBand Channelizer.findOrCreateBand
  cases hf : a.ch.findBand freq type with
  | some b =>
    obtain ⟨hlt, -⟩ := List.findIdx?_eq_some_iff_getElem.1 hf
    refine Or.inl ⟨_, b, a.ch.bands[b].addIndex a.numChannels, rfl, ?_, rfl⟩
    rw [List.getElem?_modify_eq, List.getElem?_eq_getElem hlt]
    rfl
  | none =>
    dsimp only
    by_cases hfull : a.ch.bands.length ≥ maxBands
    · rw [if_pos hfull]
      exact Or.inr (Or.inl ⟨rfl, rfl, hfull⟩)
    · rw [if_neg hfull, if_neg hfull]
      cases hmem : mem.interBuf with
      | false => exact Or.inr (Or.inr ⟨_, rfl, rfl, not_le.1 hfull, rfl⟩)
      | true => exact Or.inl ⟨_, _, _, rfl, List.getElem?_concat_length, rfl⟩

/-- **The five ways through `channelizer_add_channel`.** -/
theorem addChannel_raw [Zero T] (dsp : Dsp F T) (a : RawChannelizer F T) (freq : ℚ) (type : ChannelType) (channelId : ℤ) (mem : Memory) :
    (a.numChannels ≥ maxChannels ∧ a.addChannel dsp freq type channelId mem = (a, false)) ∨
    (a.numChannels < maxChannels ∧ a.ch.findBand freq type = none ∧ a.ch.bands.length ≥ maxBands ∧
      a.addChannel dsp freq type channelId mem =
        (a.write a.ch.bands (blankChannel dsp type channelId), false)) ∨
    (∃ bd, a.numChannels < maxChannels ∧ a.ch.findBand freq type = none ∧ a.ch.bands.length < maxBands ∧
      mem.interBuf = false ∧ a.addChannel dsp freq type channelId mem =
        (a.write (a.ch.bands ++ [bd]) (blankChannel dsp type channelId), false)) ∨
    (∃ bands b bd, a.numChannels < maxChannels ∧ bands[b]? = some bd ∧
      a.ch.findOrCreateBand dsp freq type a.numChannels = some (bands, b) ∧ mem.outBuf = false ∧
      a.addChannel dsp freq type channelId mem =
        (a.write bands (initChannel dsp a.ch freq type channelId b bd), false)) ∨
    (∃ bands b bd, a.numChannels < maxChannels ∧ bands[b]? = some bd ∧
      a.ch.findOrCreateBand dsp freq type a.numChannels = some (bands, b) ∧ mem.outBuf = true ∧
      a.addChannel dsp freq type channelId mem =
        ({ a.write bands (initChannel dsp a.ch freq type channelId b bd) with numChannels := a.numChannels + 1 }, true)) := by
  unfold RawChannelizer.addChannel
  by_cases hfull : a.numChannels ≥ maxChannels
  · exact Or.inl ⟨hfull, if_pos hfull⟩
  have hroom : a.numChannels < maxChannels := not_le.1 hfull
  simp only [if_neg hfull]
  rcases findOrCreateBand_raw dsp a freq type mem with
    ⟨bands, b, bd, hband, hbd, hplain⟩ | ⟨hband, hnone, hbands⟩ | ⟨bd, hband, hnone, hbands, hinter⟩
  · rw [hband]
    dsimp only [Option.bind_some]
    rw [hbd]
    cases hout : mem.outBuf with
    | false => exact Or.inr (Or.inr (Or.inr (Or.inl ⟨bands, b, bd, hroom, hbd, hplain, rfl, rfl⟩)))
    | true => exact Or.inr (Or.inr (Or.inr (Or.inr ⟨bands, b, bd, hroom, hbd, hplain, rfl, rfl⟩)))
  · rw [hband]
    exact Or.inr (Or.inl ⟨hroom, hnone, hbands, rfl⟩)
  · rw [hband]
    exact Or.inr (Or.inr (Or.inl ⟨bd, hroom, hnone, hbands, hinter, rfl⟩))

/-! ## Slots that do not count -/

/-- Only the first `n` slots of the channel table. -/
def Channelizer.cut (n : ℕ) (ch : Channelizer F T) : Channelizer F T := { ch with channels := ch.channels.take n }

/-- The slots that count. -/
def RawChannelizer.cut (a : RawChannelizer F T) : RawChannelizer F T := { a with ch := a.ch.cut a.numChannels }

/-- The bands name only the first `n` channels. -/
def Channelizer.Named (n : ℕ) (ch : Channelizer F T) : Prop := ∀ bd ∈ ch.bands, ∀ cidx ∈ bd.channelIndices, cidx < n

/-- The slots that count are written, and the bands name only these. -/
structure RawChannelizer.Sound (a : RawChannelizer F T) : Prop where
  written : a.numChannels ≤ a.ch.channels.length
  named : a.ch.Named a.numChannels

/-- Two channelizers are the same, or sound and the same but for slots that do not count. -/
def Alike (a a' : RawChannelizer F T) : Prop := a = a' ∨ a.ch.Named a.numChannels ∧ a.cut = a'.cut

theorem take_modify {α : Type*} {i n : ℕ} (h : i < n) (f : α → α) (l : List α) :
    (l.modify i f).take n = (l.take n).modify i f := by
  apply List.ext_getElem?
  intro j
  rw [List.getElem?_modify, List.getElem?_take, List.getElem?_take, List.getElem?_modify]
  by_cases hj : j < n
  · rw [if_pos hj, if_pos hj]
  · have hij : i ≠ j := by omega
    simp [hj]

theorem take_foldl_modify {α : Type*} (f : α → α) {idxs : List ℕ} (h : ∀ i ∈ idxs, i < n) (l : List α) :
    (idxs.foldl (fun l i => l.modify i f) l).take n = idxs.foldl (fun l i => l.modify i f) (l.take n) := by
  induction idxs generalizing l with
  | nil => rfl
  | cons i idxs ih =>
    rw [List.foldl_cons, List.foldl_cons, ih fun j hj => h j (List.mem_cons_of_mem _ hj),
      take_modify (h i List.mem_cons_self)]

/-- The centroid of a band looks only at channels that the band names. -/
theorem centroid_cut {bd : BandState F T} (h : ∀ cidx ∈ bd.channelIndices, cidx < n) (channels : List (ChannelState F T)) :
    bd.centroid (channels.take n) = bd.centroid channels := by
  unfold BandState.centroid
  congr 2
  apply List.map_congr_left
  intro cidx hcidx
  rw [List.getElem?_take_of_lt (h cidx hcidx)]

/-- What `channelizer_finalize` keeps of the bands and of the channel table. -/
theorem finalize_layout (dsp : Dsp F T) (ch : Channelizer F T) :
    (ch.finalize dsp).bands.map BandState.channelIndices = ch.bands.map BandState.channelIndices ∧
      (ch.finalize dsp).channels.length = ch.channels.length := by
  obtain ⟨-, hbands, hchannels⟩ := finalize_keeps dsp (f := BandState.channelIndices) (g := fun _ => ())
    (fun _ _ _ _ => rfl) (fun _ _ _ => rfl) ch
  refine ⟨hbands, ?_⟩
  have := congrArg List.length hchannels
  rwa [List.length_map, List.length_map] at this

/-- `channelizer_adjust_center` keeps the members of the bands. -/
theorem adjustCenter_layout (ch : Channelizer F T) (offset : ℚ) :
    (ch.adjustCenter dsp offset).bands.map BandState.channelIndices = ch.bands.map BandState.channelIndices := by
  rw [Channelizer.adjustCenter, List.map_map]
  apply List.map_congr_left
  intro bd _
  rw [Function.comp_apply, BandState.adjust]
  split <;> rfl

theorem named_congr {ch' : Channelizer F T}
    (h : ch'.bands.map BandState.channelIndices = ch.bands.map BandState.channelIndices) (hn : ch.Named n) : ch'.Named n := by
  intro bd hbd cidx hcidx
  have hmem := List.mem_map_of_mem (f := BandState.channelIndices) hbd
  rw [h] at hmem
  obtain ⟨bd₀, hbd₀, heq⟩ := List.mem_map.1 hmem
  exact hn bd₀ hbd₀ cidx (heq ▸ hcidx)

theorem centreBand_cut (hn : ch.Named n) (b : ℕ) : (ch.cut n).centreBand dsp b = (ch.centreBand dsp b).cut n := by
  unfold Channelizer.centreBand Channelizer.cut
  dsimp only
  cases hbd : ch.bands[b]? with
  | none => rfl
  | some bd =>
    have hidx := hn bd (List.mem_of_getElem? hbd)
    dsimp only
    rw [centroid_cut hidx]
    split
    · rfl
    · split
      · rfl
      · rw [take_foldl_modify _ hidx]

theorem finalize_cut (hn : ch.Named n) : (ch.cut n).finalize dsp = (ch.finalize dsp).cut n := by
  unfold Channelizer.finalize
  rw [show (ch.cut n).bands.length = ch.bands.length from rfl]
  generalize List.range ch.bands.length = bs
  induction bs generalizing ch with
  | nil => rfl
  | cons b bs ih =>
    have hkeep := (centreBand_keeps dsp (f := BandState.channelIndices) (g := fun _ => ())
      (fun _ _ _ _ => rfl) (fun _ _ _ => rfl) ch b).2.1
    rw [List.foldl_cons, List.foldl_cons, centreBand_cut hn, ih (named_congr hkeep hn)]

theorem view_cut (hn : a.ch.Named a.numChannels) : a.cut.view = a.view := by
  have hwalked : (a.cut.ch.bands.flatMap fun bd => bd.walked a.cut.ch.channels) =
      a.ch.bands.flatMap fun bd => bd.walked a.ch.channels := by
    apply List.flatMap_congr
    intro bd hbd
    unfold BandState.walked
    refine if_congr Iff.rfl ?_ rfl
    apply List.filter_congr
    intro cidx hcidx
    have hlt := hn bd hbd cidx hcidx
    rw [show a.cut.ch.channels = a.ch.channels.take a.numChannels from rfl, List.getElem?_take_of_lt hlt]
  unfold RawChannelizer.view
  rw [hwalked]
  rfl

/-- An added channel overwrites the slots that do not count. -/
theorem addChannel_cut [Zero T] (h : a.numChannels < maxChannels) :
    a.cut.addChannel dsp freq type channelId mem = a.addChannel dsp freq type channelId mem := by
  have hwrite : ∀ bands c, a.cut.write bands c = a.write bands c := fun bands c => by
    unfold RawChannelizer.write RawChannelizer.cut Channelizer.cut
    rw [List.take_take, min_self]
  unfold RawChannelizer.addChannel
  simp only [hwrite]
  rw [if_neg (not_le.2 h), if_neg (show ¬a.cut.numChannels ≥ maxChannels from not_le.2 h)]
  rfl

/-- **One call keeps channelizers alike**, and goes the same way. -/
theorem Alike.call [Zero T] (dsp : Dsp F T) (h : Alike a a') (c : RawCall) :
    (a.call dsp c).2 = (a'.call dsp c).2 ∧ Alike (a.call dsp c).1 (a'.call dsp c).1 := by
  rcases h with rfl | ⟨hn, hcut⟩
  · exact ⟨rfl, Or.inl rfl⟩
  have hnum : a'.numChannels = a.numChannels := (congrArg RawChannelizer.numChannels hcut).symm
  have hbands : a'.ch.bands = a.ch.bands := (congrArg (fun x => x.ch.bands) hcut).symm
  have hn' : a'.ch.Named a'.numChannels := by
    unfold Channelizer.Named
    rw [hbands, hnum]
    exact hn
  cases c with
  | add freq type channelId mem =>
    by_cases hfull : a.numChannels ≥ maxChannels
    · have hadd : a.call dsp (.add freq type channelId mem) = (a, false) := if_pos hfull
      have hadd' : a'.call dsp (.add freq type channelId mem) = (a', false) := if_pos (hnum ▸ hfull)
      rw [hadd, hadd']
      exact ⟨rfl, Or.inr ⟨hn, hcut⟩⟩
    · have hadd : a.addChannel dsp freq type channelId mem = a'.addChannel dsp freq type channelId mem := by
        rw [← addChannel_cut (not_le.1 hfull), hcut, addChannel_cut (hnum ▸ not_le.1 hfull)]
      exact ⟨congrArg Prod.snd hadd, Or.inl (congrArg Prod.fst hadd)⟩
  | finalize =>
    refine ⟨rfl, Or.inr ⟨named_congr (finalize_layout dsp a.ch).1 hn, ?_⟩⟩
    unfold RawChannelizer.cut at hcut ⊢
    obtain ⟨hch, -⟩ := RawChannelizer.mk.inj hcut
    dsimp only [RawChannelizer.call]
    rw [← finalize_cut hn, ← finalize_cut hn', hch, hnum]
  | adjustCenter offset =>
    refine ⟨rfl, Or.inr ⟨named_congr (adjustCenter_layout a.ch offset) hn, ?_⟩⟩
    unfold RawChannelizer.cut at hcut ⊢
    obtain ⟨hch, -⟩ := RawChannelizer.mk.inj hcut
    rw [hnum] at hch
    have hadj := congrArg (Channelizer.adjustCenter dsp · offset) hch
    dsimp only [RawChannelizer.call]
    rw [hnum]
    exact congrArg (RawChannelizer.mk · _) hadj

/-- Alike channelizers go the same way through all later calls. -/
theorem Alike.calls [Zero T] (h : Alike a a') (cs : List RawCall) :
    (a.calls dsp cs).2 = (a'.calls dsp cs).2 ∧ Alike (a.calls dsp cs).1 (a'.calls dsp cs).1 := by
  induction cs generalizing a a' with
  | nil => exact ⟨rfl, h⟩
  | cons c cs ih =>
    obtain ⟨hok, hnext⟩ := h.call dsp c
    obtain ⟨hoks, hlast⟩ := ih hnext
    exact ⟨congrArg₂ List.cons hok hoks, hlast⟩

/-- Alike channelizers process the same channels. -/
theorem Alike.view (h : Alike a a') : a.view = a'.view := by
  rcases h with rfl | ⟨hn, hcut⟩
  · rfl
  have hn' : a'.ch.Named a'.numChannels := by
    unfold Channelizer.Named
    rw [show a'.ch.bands = a.ch.bands from (congrArg (fun x => x.ch.bands) hcut).symm,
      show a'.numChannels = a.numChannels from (congrArg RawChannelizer.numChannels hcut).symm]
    exact hn
  rw [← view_cut hn, hcut, view_cut hn']

theorem Alike.atomic [Zero T] (h : Alike a' a) : Atomic dsp a a' :=
  ⟨h.view, fun later => ⟨(h.calls later).1, (h.calls later).2.view⟩⟩

/-! ## Runs that find memory -/

/-- A band that takes a channel names its slot besides what it named before. -/
theorem findOrCreateBand_named {bands : List (BandState F T)} {b : ℕ} (hn : ch.Named n)
    (h : ch.findOrCreateBand dsp freq type n = some (bands, b)) :
    ∀ bd ∈ bands, ∀ cidx ∈ bd.channelIndices, cidx < n + 1 := by
  have hadd : ∀ bd : BandState F T, (∀ cidx ∈ bd.channelIndices, cidx < n) →
      ∀ cidx ∈ (bd.addIndex n).channelIndices, cidx < n + 1 := fun bd hbd cidx hcidx => by
    rcases List.mem_append.1 hcidx with hold | hnew
    · exact Nat.lt_succ_of_lt (hbd cidx hold)
    · rw [List.mem_singleton.1 hnew]
      exact Nat.lt_succ_self n
  intro bd hbd
  rcases findOrCreateBand_cases h with ⟨-, -, rfl⟩ | ⟨-, -, rfl⟩
  · obtain ⟨i, hi⟩ := List.getElem?_of_mem hbd
    rw [List.getElem?_modify] at hi
    obtain ⟨bd₀, hbd₀, rfl⟩ := Option.map_eq_some_iff.1 hi
    have hold := hn bd₀ (List.mem_of_getElem? hbd₀)
    split
    · exact hadd bd₀ hold
    · exact fun cidx hcidx => Nat.lt_succ_of_lt (hold cidx hcidx)
  · rcases List.mem_append.1 hbd with hold | hnew
    · exact fun cidx hcidx => Nat.lt_succ_of_lt (hn bd hold cidx hcidx)
    · rw [List.mem_singleton.1 hnew]
      exact hadd _ fun cidx hcidx => absurd hcidx List.not_mem_nil

theorem call_sound [Zero T] (h : a.Sound) {c : RawCall} (hmem : c.HasMemory) : (a.call dsp c).1.Sound := by
  cases c with
  | add freq type channelId mem =>
    obtain ⟨hinter, hout⟩ := hmem
    change (a.addChannel dsp freq type channelId mem).1.Sound
    have hlen : ∀ c, (a.ch.channels.take a.numChannels ++ [c]).length = a.numChannels + 1 := fun c => by
      rw [List.length_append, List.length_take, min_eq_left h.written, List.length_singleton]
    rcases addChannel_raw dsp a freq type channelId mem with
      ⟨-, heq⟩ | ⟨-, -, -, heq⟩ | ⟨bd, -, -, -, hno, -⟩ | ⟨bands, b, bd, -, -, -, hno, -⟩ |
      ⟨bands, b, bd, -, hbd, hband, -, heq⟩
    · rw [heq]
      exact h
    · rw [heq]
      exact ⟨(Nat.le_succ _).trans (hlen _).ge, h.named⟩
    · exact absurd hinter (by rw [hno]; exact Bool.false_ne_true)
    · exact absurd hout (by rw [hno]; exact Bool.false_ne_true)
    · rw [heq]
      exact ⟨(hlen _).ge, findOrCreateBand_named h.named hband⟩
  | finalize =>
    obtain ⟨hbands, hlen⟩ := finalize_layout dsp a.ch
    exact ⟨h.written.trans hlen.ge, named_congr hbands h.named⟩
  | adjustCenter offset => exact ⟨h.written, named_congr (adjustCenter_layout a.ch offset) h.named⟩

theorem calls_sound [Zero T] (h : a.Sound) {cs : List RawCall} (hmem : ∀ c ∈ cs, c.HasMemory) : (a.calls dsp cs).1.Sound := by
  induction cs generalizing a with
  | nil => exact h
  | cons c cs ih =>
    exact ih (call_sound h (hmem c List.mem_cons_self)) fun c' hc' => hmem c' (List.mem_cons_of_mem _ hc')

theorem create_sound (cf r : ℚ) : (RawChannelizer.create cf r : RawChannelizer F T).Sound :=
  ⟨le_rfl, fun _ hbd => absurd hbd List.not_mem_nil⟩

/-- **With memory the call is that of the tables alone**, on the slots that count. -/
theorem addChannel_refines [Zero T] (h : a.Sound) (hmem : (RawCall.add freq type channelId mem).HasMemory) :
    a.cut.ch.addChannel dsp freq type channelId =
      if (a.addChannel dsp freq type channelId mem).2 then some (a.addChannel dsp freq type channelId mem).1.cut.ch
      else none := by
  obtain ⟨hinter, hout⟩ := hmem
  have hlen : a.cut.ch.channels.length = a.numChannels := by
    rw [show a.cut.ch.channels = a.ch.channels.take a.numChannels from rfl, List.length_take, min_eq_left h.written]
  unfold Channelizer.addChannel
  rw [hlen]
  rcases addChannel_raw dsp a freq type channelId mem with
    ⟨hfull, heq⟩ | ⟨hroom, hnone, hbands, heq⟩ | ⟨bd, -, -, -, hno, -⟩ | ⟨bands, b, bd, -, -, -, hno, -⟩ |
    ⟨bands, b, bd, hroom, hbd, hband, -, heq⟩
  · rw [heq, if_pos hfull]
    rfl
  · have hfail : a.cut.ch.findOrCreateBand dsp freq type a.numChannels = none := by
      unfold Channelizer.findOrCreateBand
      rw [show a.cut.ch.findBand freq type = none from hnone]
      exact if_pos hbands
    rw [heq, if_neg (not_le.2 hroom), hfail]
    rfl
  · exact absurd hinter (by rw [hno]; exact Bool.false_ne_true)
  · exact absurd hout (by rw [hno]; exact Bool.false_ne_true)
  · rw [heq, if_neg (not_le.2 hroom),
      show a.cut.ch.findOrCreateBand dsp freq type a.numChannels = some (bands, b) from hband, Option.bind_some]
    dsimp only
    rw [hbd]
    have htake : (a.ch.channels.take a.numChannels ++ [initChannel dsp a.ch freq type channelId b bd]).take
        (a.numChannels + 1) = a.ch.channels.take a.numChannels ++ [initChannel dsp a.ch freq type channelId b bd] := by
      apply List.take_of_length_le
      rw [List.length_append, List.length_take, min_eq_left h.written, List.length_singleton]
    unfold RawChannelizer.write RawChannelizer.cut Channelizer.cut
    dsimp only
    rw [htake]
    rfl

/-! ## Calls that fail -/

/-- What is written behind the channels that count does not count. -/
theorem write_cut (h : a.Sound) (c : ChannelState F T) : (a.write a.ch.bands c).cut = a.cut := by
  unfold RawChannelizer.write RawChannelizer.cut Channelizer.cut
  dsimp only
  rw [List.take_append_of_le_length (by rw [List.length_take, min_eq_left h.written]), List.take_take, min_self]

/-- A band that takes a channel is seen to do so. -/
theorem findOrCreateBand_seen {bands : List (BandState F T)} {b : ℕ}
    (h : a.ch.findOrCreateBand dsp freq type n = some (bands, b)) (c : ChannelState F T) :
    (a.write bands c).view ≠ a.view := by
  intro hview
  have hbands := congrArg View.bands hview
  dsimp only [RawChannelizer.view, RawChannelizer.write] at hbands
  rcases findOrCreateBand_cases h with ⟨-, ⟨bd, hbd, hcomp⟩, rfl⟩ | ⟨-, -, rfl⟩
  · have hactive : bd.active = true := by
      unfold BandState.compatible at hcomp
      simp only [Bool.and_eq_true] at hcomp
      exact hcomp.1.1.1.1
    have hb := congrArg (·[b]?) hbands
    rw [List.getElem?_map, List.getElem?_map, List.getElem?_modify_eq, hbd, Option.map_some] at hb
    have hmembers := Option.some.inj hb
    dsimp only at hmembers
    rw [show (bd.addIndex n).active = true from hactive, if_pos rfl, if_pos hactive] at hmembers
    have hlen := congrArg List.length (Option.some.inj hmembers)
    rw [BandState.addIndex, List.length_append, List.length_singleton] at hlen
    omega
  · have hlen := congrArg List.length hbands
    rw [List.length_map, List.length_map, List.length_append, List.length_singleton] at hlen
    omega

/-- **`channelizer_add_channel` is atomic exactly if it fails for a full table**: in every
run whose calls find memory, a call that fails leaves no trace if and only if the table of
the channels is full, or that of the bands is when a new band is needed. -/
theorem add_atomic_iff [Zero T] (cf r : ℚ) (before : List RawCall) (hmem : ∀ c ∈ before, c.HasMemory)
    (ha : a = ((RawChannelizer.create cf r).calls dsp before).1)
    (hfail : (a.addChannel dsp freq type channelId mem).2 = false) :
    Atomic dsp a (a.addChannel dsp freq type channelId mem).1 ↔ a.TableFull freq type := by
  have hsound : a.Sound := ha ▸ calls_sound (create_sound cf r) hmem
  rcases addChannel_raw dsp a freq type channelId mem with
    ⟨hfull, heq⟩ | ⟨hroom, hnone, hbands, heq⟩ | ⟨bd, hroom, hnone, hbands, hinter, heq⟩ |
    ⟨bands, b, bd, hroom, hbd, hband, hout, heq⟩ | ⟨bands, b, bd, hroom, hbd, hband, hout, heq⟩
  · rw [heq]
    exact iff_of_true (Alike.atomic (Or.inl rfl)) (Or.inl hfull)
  · rw [heq]
    exact iff_of_true (Alike.atomic (Or.inr ⟨hsound.named, write_cut hsound _⟩)) (Or.inr ⟨hnone, hbands⟩)
  · -- init_band failed, with the new band already counted
    rw [heq]
    refine iff_of_false (fun h => ?_) ?_
    · have hlen := congrArg (fun v => v.bands.length) h.1
      dsimp only [RawChannelizer.view, RawChannelizer.write] at hlen
      rw [List.length_map, List.length_map, List.length_append, List.length_singleton] at hlen
      omega
    · rintro (hfull | ⟨-, hfull⟩)
      · exact absurd hfull (not_le.2 hroom)
      · exact absurd hfull (not_le.2 hbands)
  · -- the output buffer failed, with the slot already entered in its band
    rw [heq]
    refine iff_of_false (fun h => findOrCreateBand_seen hband _ h.1) ?_
    rintro (hfull | ⟨hnone, hfull⟩)
    · exact absurd hfull (not_le.2 hroom)
    · unfold Channelizer.findOrCreateBand at hband
      rw [hnone] at hband
      dsimp only at hband
      rw [if_pos hfull] at hband
      exact absurd hband (by simp)
  · rw [heq] at hfail
    exact absurd hfail (by simp)

/-- Eight channels, each too far from the others to share a band. -/
def eightBands : List RawCall :=
  [0, 1, 2, 3, 4, 5, 6, 7].map fun i : ℕ => .add (i * 100000) .aero600 i ⟨true, true⟩

/-- A ninth channel, for which there is no band, leaves no trace. -/
theorem ninth_band_atomic :
    (((RawChannelizer.create 0 48000).calls noDsp eightBands).1.addChannel noDsp 800000 .aero600 8 ⟨true, true⟩).2 = false ∧
    Atomic noDsp ((RawChannelizer.create 0 48000).calls noDsp eightBands).1
      (((RawChannelizer.create 0 48000).calls noDsp eightBands).1.addChannel noDsp 800000 .aero600 8 ⟨true, true⟩).1 := by
  have hfail : (((RawChannelizer.create 0 48000).calls noDsp eightBands).1.addChannel noDsp 800000 .aero600 8
      ⟨true, true⟩).2 = false := by decide +kernel
  refine ⟨hfail, (add_atomic_iff 0 48000 eightBands ?_ rfl hfail).2 (Or.inr ⟨by decide +kernel, by decide +kernel⟩)⟩
  intro c hc
  obtain ⟨i, -, rfl⟩ := List.mem_map.1 hc
  exact ⟨rfl, rfl⟩

/-- Without memory a first channel leaves a band that is active, or its index in the band. -/
theorem first_channel_leaves_trace :
    (((RawChannelizer.create 0 48000).addChannel noDsp 0 .aero600 1 ⟨false, true⟩).2 = false ∧
      ¬Atomic noDsp (.create 0 48000) ((RawChannelizer.create 0 48000).addChannel noDsp 0 .aero600 1 ⟨false, true⟩).1) ∧
    ((RawChannelizer.create 0 48000).addChannel noDsp 0 .aero600 1 ⟨true, false⟩).2 = false ∧
      ¬Atomic noDsp (.create 0 48000) ((RawChannelizer.create 0 48000).addChannel noDsp 0 .aero600 1 ⟨true, false⟩).1 :=
  ⟨⟨by decide +kernel, fun h => absurd h.1 (by decide +kernel)⟩,
    by decide +kernel, fun h => absurd h.1 (by decide +kernel)⟩

end InmarsatSniffer.Ddc
