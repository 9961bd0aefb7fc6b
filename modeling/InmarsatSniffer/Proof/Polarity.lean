import InmarsatSniffer.Proof.RoundTrip

/-!
# The polarity of the stream makes no difference

Two decoders get the same soft bits, one of them with all signs turned around. Behind a
frame that is processed both registers are the same, since the inverted one is negated in
place, and the bits that follow have opposite signs again; but a register is looked at only
when all of it is newer than the last frame (`Tracks.full`). So it is then the other one
negated (`Mirrored.registers`): it has the same score and the opposite polarity, and the frame is
the same.

* `Mirrored.feedBit`: **both decoders take every decision alike**.
* `polarity_invariant`: **the same gains and losses of sync, and the same calls of
  `parse_packets`**, for every stream and every chunking.
-/

namespace InmarsatSniffer.Stdc

variable {d d' : FrontEnd} {n : ℕ} {bs soft : List Int8} {sb v : Int8} {buf : ℕ → Int8} {reg : List Int8}

/-- Soft bits with their signs turned around. -/
def flipped (soft : List Int8) : List Int8 := soft.map fun sb => -sb

/-- A soft bit between -127 and 127, and not zero. -/
def Signed (sb : Int8) : Prop := sb ≠ 0 ∧ sb ≠ -128

@[simp] theorem flipped_append (bs soft : List Int8) : flipped (bs ++ soft) = flipped bs ++ flipped soft :=
  List.map_append

@[simp] theorem flipped_singleton (sb : Int8) : flipped [sb] = [-sb] := rfl

theorem flipped_flipped (bs : List Int8) : flipped (flipped bs) = bs := by
  unfold flipped
  rw [List.map_map]
  conv_rhs => rw [← List.map_id bs]
  exact List.map_congr_left fun v _ => Int8.neg_neg

theorem flipped_getD (reg : List Int8) (k : ℕ) : (flipped reg).getD k 0 = -reg.getD k 0 :=
  List.getD_map reg 0 (fun sb : Int8 => -sb)

theorem lastBits_flipped (n : ℕ) (bs : List Int8) : lastBits n (flipped bs) = flipped (lastBits n bs) := by
  unfold lastBits flipped
  rw [List.length_map, List.map_drop]

/-! ## The score of a flipped register -/

theorem hardBit_le (v : Int8) : hardBit v ≤ 1 := by
  unfold hardBit
  split <;> omega

theorem hardBit_neg (h : Signed v) : hardBit (-v) = 1 - hardBit v := by
  have hneg := toInt_neg h.2
  have hne : v.toInt ≠ 0 := fun h0 => h.1 (Int8.toInt_inj.1 (h0.trans Int8.toInt_zero.symm))
  unfold hardBit
  split_ifs <;> omega

theorem syncWord_le (r : ℕ) (hr : r < 64) : syncWord.getD r 0 ≤ 1 := by
  revert r
  decide

/-- A position that agrees with the sync word does not when it is flipped. -/
theorem sync_position (h : Signed v) {w : ℕ} (hw : w ≤ 1) :
    (if hardBit (-v) = w then 1 else 0) + (if hardBit v = w then 1 else 0) = 1 := by
  have hle := hardBit_le v
  rw [hardBit_neg h]
  split_ifs <;> omega

theorem syncMatches_neg (h : ∀ k < stdcEncodedSize, Signed (buf k)) :
    syncMatches (fun k => -buf k) + syncMatches buf = 2 * stdcFrameRows := by
  unfold syncMatches
  rw [← List.sum_map_add, List.map_congr_left (g := fun _ => 2), List.map_const', List.sum_replicate]
  · rfl
  · intro r hr
    have hr : r < 64 := List.mem_range.1 hr
    have hword := syncWord_le r hr
    have h0 := sync_position (h (r * stdcFrameCols) (show r * 162 < 10368 by omega)) hword
    have h1 := sync_position (h (r * stdcFrameCols + 1) (show r * 162 + 1 < 10368 by omega)) hword
    dsimp only
    omega

/-- **A flipped register** has the same score, and if that is good the opposite polarity. -/
theorem checkSync_neg (h : ∀ k < stdcEncodedSize, Signed (buf k)) :
    (checkSync fun k => -buf k).1 = (checkSync buf).1 ∧
      (100 ≤ (checkSync buf).1 → (checkSync fun k => -buf k).2 = !(checkSync buf).2) := by
  have hsum := syncMatches_neg h
  have hrows : 2 * stdcFrameRows = 128 := rfl
  unfold checkSync
  dsimp only
  generalize syncMatches buf = x at hsum ⊢
  generalize (syncMatches fun k => -buf k) = y at hsum ⊢
  by_cases hx : 2 * stdcFrameRows - x > x <;> by_cases hy : 2 * stdcFrameRows - y > y
  · omega
  · rw [if_pos hx, if_neg hy]
    exact ⟨by dsimp only; omega, fun _ => rfl⟩
  · rw [if_neg hx, if_pos hy]
    exact ⟨by dsimp only; omega, fun _ => rfl⟩
  · -- the scores are equal, and too low
    rw [if_neg hx, if_neg hy]
    exact ⟨by dsimp only; omega, fun hgood => by dsimp only at hgood; omega⟩

theorem syncScore_flipped (hlen : reg.length = stdcEncodedSize) (h : ∀ v ∈ reg, Signed v) :
    syncScore (flipped reg) = syncScore reg ∧
      (100 ≤ syncScore reg → syncInverted (flipped reg) = !syncInverted reg) := by
  have hget : (fun k => (flipped reg).getD k 0) = fun k => -reg.getD k 0 := funext (flipped_getD reg)
  unfold syncScore syncInverted
  rw [hget]
  refine checkSync_neg fun k hk => ?_
  rw [List.getD_eq_getElem _ _ (by omega)]
  exact h _ (List.getElem_mem _)

/-- **`process_frame`** makes the same of a register and of the flipped one. -/
theorem processFrame_flipped (reg : List Int8) (inverted : Bool) :
    processFrame (flipped reg) (!inverted) = processFrame reg inverted := by
  have hbuf : (if (!inverted) = true then (flipped reg).map fun v => -v else flipped reg) =
      if inverted = true then reg.map fun v => -v else reg := by
    cases inverted
    · exact flipped_flipped reg
    · rfl
  unfold processFrame
  rw [hbuf]

/-! ## The two decoders -/

/-- The score that makes a decoder process a register. -/
def threshold (d : FrontEnd) : ℕ := if d.synced then 100 else 110

/-- **What a decoder decides at a bit**: the register is processed if it is looked at and has a good
score; otherwise nothing is emitted, and sync is lost if it was looked at. -/
theorem feedBit_decides (h : Tracks d bs n) (sb : Int8) :
    (Looks (n + 1) ∧ threshold d ≤ syncScore (d.shift sb).shiftReg →
      d.feedBit sb = (d.shift sb).process (syncInverted (d.shift sb).shiftReg)) ∧
    (¬(Looks (n + 1) ∧ threshold d ≤ syncScore (d.shift sb).shiftReg) →
      (d.feedBit sb).2 = [] ∧ ((d.feedBit sb).1.synced = true ↔ d.synced = true ∧ ¬Looks (n + 1))) := by
  have hpos : (d.shift sb).shiftPos = Int32.ofNat (n + 1) := (h.shift sb).2
  have hlook : (d.shift sb).shiftPos ≥ 10368 ↔ Looks (n + 1) := by rw [hpos]; exact looks_iff _
  unfold FrontEnd.feedBit syncScore syncInverted threshold
  dsimp only
  have hsame : (d.shift sb).synced = d.synced := rfl
  generalize d.shift sb = e at hpos hlook hsame ⊢
  generalize (checkSync fun k => e.shiftReg.getD k 0) = sync
  rw [← hsame]
  by_cases hl : Looks (n + 1)
  · rw [if_pos (hlook.2 hl), if_pos (hlook.2 hl)]
    by_cases hs : e.synced = true
    · rw [if_pos hs, if_pos hs]
      refine ⟨fun hgood => if_pos hgood.2, fun hbad => ?_⟩
      rw [if_neg fun hgood => hbad ⟨hl, hgood⟩]
      exact ⟨rfl, iff_of_false Bool.false_ne_true fun hno => hno.2 hl⟩
    · rw [if_neg hs, if_neg hs]
      refine ⟨fun hgood => if_pos hgood.2, fun hbad => ?_⟩
      rw [if_neg fun hgood => hbad ⟨hl, hgood⟩]
      exact ⟨rfl, iff_of_false hs fun hno => hs hno.1⟩
  · rw [if_neg fun h0 => hl (hlook.1 h0), if_neg fun h0 => hl (hlook.1 h0), ite_self]
    exact ⟨fun hgood => absurd hgood.1 hl, fun _ => ⟨rfl, iff_of_eq (by simp [hl])⟩⟩

/-- The frames that `parse_packets` gets. -/
def frames (out : List FeedEvent) : List (List UInt8) :=
  out.filterMap fun
    | .parsePackets frame => some frame
    | .processFrame _ _ => none

/-- **Two decoders that see one stream**, with opposite signs: `n` bits after the last frame of
both. -/
structure Mirrored (d d' : FrontEnd) (bs : List Int8) (n : ℕ) : Prop where
  tracks : Tracks d bs n
  tracks' : Tracks d' (flipped bs) n
  synced : d'.synced = d.synced

/-- **No register of mixed polarity is looked at**: when 10368 bits are in since the last frame,
one register is the other one flipped. -/
theorem Mirrored.registers (h : Mirrored d d' bs n) (sb : Int8) (hn : stdcEncodedSize ≤ n + 1) :
    (d'.shift (-sb)).shiftReg = flipped (d.shift sb).shiftReg := by
  rw [shiftReg_full sb h.tracks hn, shiftReg_full (-sb) h.tracks' hn, ← lastBits_flipped, flipped_append,
    flipped_singleton]

theorem frames_process (d : FrontEnd) (inverted : Bool) :
    frames (d.process inverted).2 = (processFrame d.shiftReg inverted).2.toList := by
  unfold FrontEnd.process frames
  dsimp only
  cases (processFrame d.shiftReg inverted).2 <;> rfl

/-- The registers that are looked at decide alike, in opposite polarity. -/
theorem Mirrored.decide (h : Mirrored d d' bs n) (hbs : ∀ v ∈ bs ++ [sb], Signed v) (hl : Looks (n + 1)) :
    syncScore (d'.shift (-sb)).shiftReg = syncScore (d.shift sb).shiftReg ∧
      (threshold d ≤ syncScore (d.shift sb).shiftReg →
        syncInverted (d'.shift (-sb)).shiftReg = !syncInverted (d.shift sb).shiftReg) := by
  have hn : stdcEncodedSize ≤ n + 1 := by
    have hsize : stdcEncodedSize = 10368 := rfl
    have hlow := hl.1
    omega
  have hsigned : ∀ v ∈ (d.shift sb).shiftReg, Signed v := fun v hv => by
    rw [shiftReg_full sb h.tracks hn] at hv
    exact hbs v (List.mem_of_mem_drop hv)
  obtain ⟨hscore, hinv⟩ := syncScore_flipped (d.shift sb).reg_length hsigned
  rw [h.registers sb hn]
  refine ⟨hscore, fun hgood => hinv (le_trans ?_ hgood)⟩
  unfold threshold
  split <;> omega

/-- **One bit** for both decoders. -/
theorem Mirrored.feedBit (h : Mirrored d d' bs n) (hbs : ∀ v ∈ bs ++ [sb], Signed v) :
    Mirrored (d.feedBit sb).1 (d'.feedBit (-sb)).1 (bs ++ [sb]) (if (d.feedBit sb).2.isEmpty then n + 1 else 0) ∧
      frames (d'.feedBit (-sb)).2 = frames (d.feedBit sb).2 := by
  have ht := h.tracks.feedBit sb
  have ht' := h.tracks'.feedBit (-sb)
  rw [← flipped_singleton, ← flipped_append] at ht'
  have hthreshold : threshold d' = threshold d := by
    unfold threshold
    rw [h.synced]
  obtain ⟨hgood, hquiet⟩ := feedBit_decides h.tracks sb
  obtain ⟨hgood', hquiet'⟩ := feedBit_decides h.tracks' (-sb)
  rw [hthreshold] at hgood' hquiet'
  by_cases hyes : Looks (n + 1) ∧ threshold d ≤ syncScore (d.shift sb).shiftReg
  · obtain ⟨hscore, hinv⟩ := h.decide hbs hyes.1
    rw [hscore] at hgood'
    have hproc := hgood hyes
    have hproc' := hgood' hyes
    rw [hproc'] at ht' ⊢
    rw [hproc] at ht ⊢
    -- the register is processed in its own polarity
    refine ⟨⟨ht, ht', rfl⟩, ?_⟩
    have hn : stdcEncodedSize ≤ n + 1 := by
      have hsize : stdcEncodedSize = 10368 := rfl
      have hlow := hyes.1.1
      omega
    rw [frames_process, frames_process, hinv hyes.2, h.registers sb hn, processFrame_flipped]
  · have hno' : ¬(Looks (n + 1) ∧ threshold d ≤ syncScore (d'.shift (-sb)).shiftReg) := by
      rintro ⟨hl, hscore'⟩
      rw [(h.decide hbs hl).1] at hscore'
      exact hyes ⟨hl, hscore'⟩
    obtain ⟨hout, hsync⟩ := hquiet hyes
    obtain ⟨hout', hsync'⟩ := hquiet' hno'
    rw [hout'] at ht' ⊢
    rw [hout] at ht ⊢
    refine ⟨⟨ht, ht', ?_⟩, rfl⟩
    rw [Bool.eq_iff_iff, hsync, hsync', h.synced]

/-- **A stream** for both decoders. -/
theorem Mirrored.feed (h : Mirrored d d' bs n) (soft : List Int8) (hbs : ∀ v ∈ bs ++ soft, Signed v) :
    Mirrored (d.feed soft).1 (d'.feed (flipped soft)).1 (bs ++ soft) (bitsSince d n soft) ∧
      frames (d'.feed (flipped soft)).2 = frames (d.feed soft).2 := by
  induction soft generalizing d d' bs n with
  | nil =>
    rw [List.append_nil]
    exact ⟨h, rfl⟩
  | cons sb soft ih =>
    rw [List.append_cons] at hbs ⊢
    obtain ⟨hbit, hframes⟩ := h.feedBit fun v hv => hbs v (List.mem_append_left _ hv)
    obtain ⟨hrest, hframes'⟩ := ih hbit hbs
    refine ⟨hrest, ?_⟩
    show frames ((d'.feedBit (-sb)).2 ++ ((d'.feedBit (-sb)).1.feed (flipped soft)).2) =
      frames ((d.feedBit sb).2 ++ ((d.feedBit sb).1.feed soft).2)
    unfold frames at hframes hframes' ⊢
    rw [List.filterMap_append, List.filterMap_append, hframes, hframes']

theorem mirrored_create : Mirrored FrontEnd.create FrontEnd.create [] 0 := ⟨tracks_create, tracks_create, rfl⟩

/-! ## The whole stream -/

/-- Two runs that are seen alike: the decoders are both synced or both not, and `parse_packets` got the
same frames. -/
structure SeenAlike (r r' : FrontEnd × List FeedEvent) : Prop where
  synced : r'.1.synced = r.1.synced
  frames : Stdc.frames r'.2 = Stdc.frames r.2

/-- The calls of `parse_packets` for chunks that come in at their times. -/
def FrontEnd.callsOf (d : FrontEnd) : List (ℤ × List Int8) → List Call
  | [] => []
  | c :: cs => FeedEvent.calls c.1 (d.feed c.2).2 ++ (d.feed c.2).1.callsOf cs

theorem calls_eq (now : ℤ) (out : List FeedEvent) :
    FeedEvent.calls now out = (frames out).map fun frame => ⟨now, ByteMem.ofList frame, stdcFrameBytes⟩ := by
  unfold FeedEvent.calls frames
  rw [List.map_filterMap]
  congr 1
  funext e
  cases e <;> rfl

theorem Mirrored.callsOf (h : Mirrored d d' bs n) (cs : List (ℤ × List Int8))
    (hbs : ∀ v ∈ bs ++ (cs.map Prod.snd).flatten, Signed v) :
    d'.callsOf (cs.map fun c => (c.1, flipped c.2)) = d.callsOf cs := by
  induction cs generalizing d d' bs n with
  | nil => rfl
  | cons c cs ih =>
    rw [List.map_cons, List.flatten_cons, ← List.append_assoc] at hbs
    obtain ⟨hrest, hframes⟩ := h.feed c.2 fun v hv => hbs v (List.mem_append_left _ hv)
    rw [List.map_cons, FrontEnd.callsOf, FrontEnd.callsOf, calls_eq, calls_eq, hframes, ih hrest hbs]

/-- **The polarity makes no difference.** Of two new decoders, one gets a stream of soft bits and the
other one the stream with its signs turned around: behind every bit both are synced or both are not,
and `parse_packets` has got the same frames; the chunks do not matter; and for chunks at given times the
calls of `parse_packets` are the same, so that they run the same and give the same messages. -/
theorem polarity_invariant (soft : List Int8) (hsoft : ∀ sb ∈ soft, sb ≠ 0 ∧ sb ≠ -128) :
    (∀ bs, bs <+: soft → SeenAlike (FrontEnd.create.feed bs) (FrontEnd.create.feed (flipped bs))) ∧
      (∀ cs cs' : List (List Int8), cs.flatten = soft → cs'.flatten = flipped soft →
        SeenAlike (FrontEnd.create.feedChunks cs) (FrontEnd.create.feedChunks cs')) ∧
      ∀ cs : List (ℤ × List Int8), (cs.map Prod.snd).flatten = soft →
        FrontEnd.create.callsOf (cs.map fun c => (c.1, flipped c.2)) = FrontEnd.create.callsOf cs ∧
        ∀ (dec : StdcDecoder) (out : List Event), Run .create (FrontEnd.create.callsOf cs) dec out ↔
          Run .create (FrontEnd.create.callsOf (cs.map fun c => (c.1, flipped c.2))) dec out := by
  have hfeed : ∀ bs, bs <+: soft → SeenAlike (FrontEnd.create.feed bs) (FrontEnd.create.feed (flipped bs)) := by
    intro bs hbs
    obtain ⟨hm, hframes⟩ := mirrored_create.feed bs fun v hv => hsoft v (hbs.subset hv)
    exact ⟨hm.synced, hframes⟩
  refine ⟨hfeed, fun cs cs' hcs hcs' => ?_, fun cs hcs => ?_⟩
  · rw [feedChunks_eq, feedChunks_eq, hcs, hcs']
    exact hfeed soft (List.prefix_refl soft)
  · have hcalls := mirrored_create.callsOf cs fun v hv => hsoft v (by rwa [← hcs])
    exact ⟨hcalls, fun dec out => by rw [hcalls]⟩

/-- **A frame with its signs turned around** is found as well. -/
theorem flipped_bareFrame_found : (FrontEnd.create.feed (flipped bareFrame)).1.synced = true := by
  have hsigned : ∀ sb ∈ bareFrame, sb ≠ 0 ∧ sb ≠ -128 := by
    intro sb hsb
    obtain ⟨k, -, rfl⟩ := List.mem_map.1 hsb
    split
    · exact ⟨by decide, by decide⟩
    · exact ⟨by decide, by decide⟩
  rw [((polarity_invariant bareFrame hsigned).1 bareFrame (List.prefix_refl _)).synced,
    ← List.dropLast_append_getLast bareFrame_ne, synced_append, feed_singleton]
  exact bareFrame_found.2

end InmarsatSniffer.Stdc
