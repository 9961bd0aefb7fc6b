import InmarsatSniffer.Proof.Sync
import InmarsatSniffer.Proof.Viterbi

/-!
# From a frame to its symbols and back

Each stage of `process_frame` undoes one of the encoder's: the sync columns give the
polarity, `depermute` and `deinterleave` the encoded symbols, the Viterbi decoder the
scrambled bytes, `descramble` the frame.

* `stdc_round_trip`: **a fresh decoder parses exactly the frame that was sent**.
-/

namespace InmarsatSniffer.Stdc

open ByteMem

variable {frame : List UInt8} {buf : ℕ → Int8} {soft : List Int8}

/-! ## Scrambling -/

theorem reverseBits_reverseBits (b : UInt8) : reverseBits (reverseBits b) = b := by
  have hall : ∀ i : Fin 256, reverseBits (reverseBits (UInt8.ofNat i)) = UInt8.ofNat i := by decide +kernel
  have := hall ⟨b.toNat, b.toNat_lt⟩
  rwa [UInt8.ofNat_toNat] at this

theorem scramble_length (frame : List UInt8) : (scramble frame).length = stdcFrameBytes := by
  unfold scramble
  rw [List.length_map, List.length_range]

theorem descramble_scramble (h : frame.length = stdcFrameBytes) : descramble (scramble frame) = frame := by
  apply List.ext_getElem
  · unfold descramble
    rw [List.length_map, List.length_range, h]
  · intro k h1 h2
    have hk : k < stdcFrameBytes := by rwa [h] at h2
    rw [← List.getD_eq_getElem _ 0 h1, ← List.getD_eq_getElem _ 0 h2]
    unfold descramble scramble
    rw [getD_map_range _ hk, getD_map_range _ hk]
    dsimp only
    rw [reverseBits_reverseBits]
    by_cases hs : scrambleSeq.getD (k / 4) 0 ≠ 0
    · rw [if_pos hs, if_pos hs, UInt8.xor_assoc, UInt8.xor_self, UInt8.xor_zero]
    · rw [if_neg hs, if_neg hs]

/-! ## The symbols of a frame -/

/-- The encoded symbols of a frame. -/
def encodedSymbols (frame : List UInt8) : List ℕ := viterbiEncode (scramble frame) (stdcDataSize / 2)

theorem frameToSymbols_length (frame : List UInt8) : (frameToSymbols frame).length = stdcEncodedSize := by
  unfold frameToSymbols
  rw [List.length_map, List.length_range]

/-- The sync columns. -/
theorem frameToSymbols_sync (frame : List UInt8) {r c : ℕ} (hr : r < 64) (hc : c < 2) :
    (frameToSymbols frame).getD (r * 162 + c) 0 = syncWord.getD r 0 := by
  have hk : r * 162 + c < 10368 := by omega
  have hdiv : (r * 162 + c) / 162 = r := by omega
  have hmod : (r * 162 + c) % 162 = c := by omega
  unfold frameToSymbols
  dsimp only
  rw [getD_map_range _ (n := stdcEncodedSize) hk]
  simp only [hdiv, hmod, hc, if_true]

/-- The row before the permutation is found again. -/
theorem permuted_row : ∀ i < 64, ((List.range stdcFrameRows).map fun i => (i * 23 % 64, i)).lookup (i * 23 % 64) = some i := by
  decide

/-- **The data columns**: encoded symbol `k` stands where `depermute` and `deinterleave`
look for it. -/
theorem frameToSymbols_data (frame : List UInt8) {k : ℕ} (hk : k < 10240) :
    (frameToSymbols frame).getD (k % 64 * 23 % 64 * 162 + (k / 64 + 2)) 0 = (encodedSymbols frame).getD k 0 := by
  have hrow : k % 64 * 23 % 64 < 64 := Nat.mod_lt _ (by omega)
  have hi : k % 64 < 64 := Nat.mod_lt _ (by omega)
  generalize hr : k % 64 * 23 % 64 = r at hrow ⊢
  have hlookup := permuted_row (k % 64) hi
  rw [hr] at hlookup
  have hidx : r * 162 + (k / 64 + 2) < 10368 := by omega
  have hdiv : (r * 162 + (k / 64 + 2)) / 162 = r := by omega
  have hmod : (r * 162 + (k / 64 + 2)) % 162 = k / 64 + 2 := by omega
  unfold frameToSymbols
  dsimp only
  rw [getD_map_range _ (n := stdcEncodedSize) hidx]
  simp only [hdiv, hmod, hlookup]
  rw [if_neg (by omega), Option.getD_some, show (k / 64 + 2 - 2) * 64 + k % 64 = k by omega]
  rfl

theorem deinterleave_depermute (buf : ℕ → Int8) {k : ℕ} (hk : k < 10240) :
    deinterleave (depermute buf) k = buf (k % 64 * 23 % 64 * 162 + (k / 64 + 2)) := by
  have hi : k % 64 < 64 := Nat.mod_lt _ (by omega)
  have hdiv : (k % 64 * 162 + k / 64 + 2) / 162 = k % 64 := by omega
  have hmod : (k % 64 * 162 + k / 64 + 2) % 162 = k / 64 + 2 := by omega
  unfold deinterleave depermute
  simp only [hdiv, hmod]

/-! ## A frame in the register -/

theorem toInt_neg {v : Int8} (h : v ≠ -128) : (-v).toInt = -v.toInt := by
  have hb := int8_bounds v
  have hne : v.toInt ≠ -128 := fun h0 => h (Int8.toInt_inj.1 h0)
  rw [Int8.toInt_neg, Int.bmod_def]
  split <;> omega

/-- The register holds the symbols of the frame, as signs of soft bits. -/
def HoldsFrame (buf : ℕ → Int8) (frame : List UInt8) : Prop :=
  ∀ k < 10368, buf k ≠ 0 ∧ hardBit (buf k) = (frameToSymbols frame).getD k 0

/-- **The Viterbi decoder gets the encoded symbols and gives the scrambled bytes.** -/
theorem HoldsFrame.decode (h : HoldsFrame buf frame) :
    (viterbiDecode (deinterleave (depermute buf)) (stdcDataSize / 2)).1 = scramble frame ∧
      viterbiErrors (scramble frame) (stdcDataSize / 2) (deinterleave (depermute buf)) = 0 := by
  have hlen := scramble_length frame
  have hbytes : stdcFrameBytes = 640 := rfl
  have hbits : 8 * (scramble frame).length = stdcDataSize / 2 := by rw [hlen]; rfl
  have hidx : ∀ k, k < 10240 → k % 64 * 23 % 64 * 162 + (k / 64 + 2) < 10368 := fun k hk => by
    have : k % 64 * 23 % 64 < 64 := Nat.mod_lt _ (by omega)
    omega
  have : (viterbiDecode (deinterleave (depermute buf)) (8 * (scramble frame).length)).1 = scramble frame ∧
      viterbiErrors (scramble frame) (8 * (scramble frame).length) (deinterleave (depermute buf)) = 0 :=
    viterbiDecode_encode
    (by rw [hlen]; decide)
    (fun k hk => by
      rw [hlen, hbytes] at hk
      rw [deinterleave_depermute _ (by omega)]
      exact (h _ (hidx k (by omega))).1)
    (fun k hk => by
      rw [hlen, hbytes] at hk
      rw [deinterleave_depermute _ (by omega), (h _ (hidx k (by omega))).2, frameToSymbols_data _ (by omega), hbits]
      rfl)
  rwa [hbits] at this

/-- The sync columns of a frame in the register. -/
theorem HoldsFrame.sync (h : HoldsFrame buf frame) : checkSync buf = (128, false) := by
  refine checkSync_normal buf fun r hr c hc => ?_
  have hk : r * 162 + c < 10368 := by omega
  rw [← frameToSymbols_sync frame hr hc]
  exact (h _ hk).2

/-- A frame with its polarity inverted. -/
theorem HoldsFrame.sync_neg (h : HoldsFrame (fun k => -buf k) frame) (hbuf : ∀ k < 10368, buf k ≠ -128) :
    checkSync buf = (128, true) := by
  refine checkSync_inverted buf fun r hr c hc => ?_
  have hk : r * 162 + c < 10368 := by omega
  obtain ⟨hne, hbit⟩ := h _ hk
  have hlow := hbuf _ hk
  rw [← frameToSymbols_sync frame hr hc, ← hbit]
  have hflip : ∀ v : Int8, -v ≠ 0 → v ≠ -128 → hardBit v ≠ hardBit (-v) := by
    intro v hv hv'
    have hneg := toInt_neg hv'
    have hne0 : (-v).toInt ≠ 0 := fun h0 => hv (Int8.toInt_inj.1 (h0.trans Int8.toInt_zero.symm))
    unfold hardBit
    split_ifs <;> omega
  exact hflip _ hne hlow

/-- **`process_frame` on a frame of either polarity** hands it to the parser. -/
theorem processFrame_frame {reg : List Int8} (inverted : Bool) (hframe : frame.length = stdcFrameBytes)
    (h : HoldsFrame (fun k => (if inverted then reg.map fun v => -v else reg).getD k 0) frame) :
    (processFrame reg inverted).2 = some frame := by
  obtain ⟨hdec, herr⟩ := h.decode
  unfold processFrame
  dsimp only
  rw [hdec, herr, if_neg (by decide), descramble_scramble hframe]

/-! ## The round trip -/

/-- Soft bits of magnitude 1 to 127 with the signs of the symbols of a frame, or all of the
opposite sign. -/
structure SoftFrame (frame : List UInt8) (inverted : Bool) (soft : List Int8) : Prop where
  length : soft.length = stdcEncodedSize
  magnitude : ∀ v ∈ soft, 1 ≤ v.toInt.natAbs ∧ v.toInt.natAbs ≤ 127
  sign : ∀ k < stdcEncodedSize, (0 < (soft.getD k 0).toInt ↔ (frameToSymbols frame).getD k 0 = if inverted then 0 else 1)

theorem frameToSymbols_bit (frame : List UInt8) (k : ℕ) :
    (frameToSymbols frame).getD k 0 = 0 ∨ (frameToSymbols frame).getD k 0 = 1 := by
  have hsync : ∀ r, syncWord.getD r 0 = 0 ∨ syncWord.getD r 0 = 1 := by
    intro r
    by_cases hr : r < 64
    · exact (by decide : ∀ r < 64, syncWord.getD r 0 = 0 ∨ syncWord.getD r 0 = 1) r hr
    · rw [List.getD_eq_default _ _ (by rw [show syncWord.length = 64 from rfl]; omega)]
      exact Or.inl rfl
  have henc : ∀ (xs : List Bool) (s : Fin viterbiStates) (j : ℕ),
      (encodeLoop s xs).getD j 0 = 0 ∨ (encodeLoop s xs).getD j 0 = 1 := by
    intro xs
    induction xs with
    | nil => exact fun _ _ => Or.inl (by simp [encodeLoop])
    | cons x xs ih =>
      intro s j
      rw [encodeLoop]
      have hbits := edgeSymbols_bits s x
      unfold edgeSymbols at hbits
      rcases j with _ | _ | j
      · rw [List.getD_cons_zero]
        omega
      · rw [List.getD_cons_succ, List.getD_cons_zero]
        omega
      · rw [List.getD_cons_succ, List.getD_cons_succ]
        exact ih _ j
  by_cases hk : k < stdcEncodedSize
  · unfold frameToSymbols
    dsimp only
    rw [getD_map_range _ hk]
    split
    · exact hsync _
    · exact henc _ _ _
  · rw [List.getD_eq_default _ _ (by rw [frameToSymbols_length]; omega)]
    exact Or.inl rfl

/-- What `SoftFrame` says of the register. -/
theorem SoftFrame.holds {inverted : Bool} (h : SoftFrame frame inverted soft) :
    HoldsFrame (fun k => (if inverted then soft.map fun v => -v else soft).getD k 0) frame ∧
      checkSync (fun k => soft.getD k 0) = (128, inverted) := by
  have hval : ∀ k < 10368, (soft.getD k 0).toInt ≠ 0 ∧ soft.getD k 0 ≠ -128 := by
    intro k hk
    have hk' : k < soft.length := by rw [h.length]; exact hk
    have := h.magnitude _ (List.getElem_mem hk')
    rw [List.getD_eq_getElem _ _ hk']
    refine ⟨by omega, fun h0 => ?_⟩
    rw [h0] at this
    exact absurd this.2 (by decide)
  have hneg : ∀ k < 10368, (soft.map fun v => -v).getD k 0 = -soft.getD k 0 := by
    intro k hk
    have hk' : k < soft.length := by rw [h.length]; exact hk
    rw [List.getD_eq_getElem _ _ (by rwa [List.length_map]), List.getElem_map, List.getD_eq_getElem _ _ hk']
  cases inverted with
  | false =>
    have hf : HoldsFrame (fun k => soft.getD k 0) frame := by
      intro k hk
      obtain ⟨h0, -⟩ := hval k hk
      have hs := h.sign k hk
      rw [if_neg Bool.false_ne_true] at hs
      show soft.getD k 0 ≠ 0 ∧ hardBit (soft.getD k 0) = _
      refine ⟨fun hz => h0 (by rw [hz]; rfl), ?_⟩
      unfold hardBit
      rcases frameToSymbols_bit frame k with hb | hb
      · rw [if_neg (by rw [hs, hb]; decide), hb]
      · rw [if_pos (hs.2 hb), hb]
    exact ⟨hf, hf.sync⟩
  | true =>
    have hf : HoldsFrame (fun k => -soft.getD k 0) frame := by
      intro k hk
      obtain ⟨h0, h128⟩ := hval k hk
      have hs := h.sign k hk
      rw [if_pos rfl] at hs
      have hn := toInt_neg h128
      have hz : (-soft.getD k 0).toInt ≠ 0 := by omega
      show -soft.getD k 0 ≠ 0 ∧ hardBit (-soft.getD k 0) = _
      refine ⟨fun hzero => hz (by rw [hzero]; rfl), ?_⟩
      unfold hardBit
      rcases frameToSymbols_bit frame k with hb | hb
      · rw [if_neg (by have := hs.2 hb; omega), hb]
      · have hnp : ¬0 < (soft.getD k 0).toInt := fun hp => by rw [hs.1 hp] at hb; omega
        rw [if_pos (by omega), hb]
    refine ⟨fun k hk => ?_, hf.sync_neg fun k hk => (hval k hk).2⟩
    show (soft.map fun v => -v).getD k 0 ≠ 0 ∧ hardBit ((soft.map fun v => -v).getD k 0) = _
    rw [hneg k hk]
    exact hf k hk

/-- **STD-C round trip.** A fresh decoder that is fed the symbols of a 640-byte frame, as
soft bits of any magnitudes and in either polarity, calls `parse_packets` once, on that
frame. -/
theorem stdc_round_trip {inverted : Bool} (hframe : frame.length = stdcFrameBytes) (h : SoftFrame frame inverted soft)
    (now : ℤ) : FeedEvent.calls now (FrontEnd.create.feed soft).2 = [⟨now, ofList frame, stdcFrameBytes⟩] := by
  obtain ⟨hholds, hsync⟩ := h.holds
  have hne : soft ≠ [] := fun h0 => absurd (h0 ▸ h.length) (by decide)
  have hlen : soft.dropLast.length = 10367 := by
    rw [List.length_dropLast, h.length]
    rfl
  -- all bits but the last only fill the register
  obtain ⟨hout, hs, hn⟩ := feed_quiet soft.dropLast tracks_create rfl fun k hk => by
    refine Or.inl ?_
    rintro ⟨hge, -⟩
    rw [hlen] at hk
    omega
  rw [hlen] at hn
  have ht := feed_tracks soft.dropLast
  rw [hn] at ht
  have hreg : ((FrontEnd.create.feed soft.dropLast).1.shift (soft.getLast hne)).shiftReg = soft := by
    rw [shiftReg_full _ ht (by decide), List.dropLast_append_getLast]
    unfold lastBits
    rw [h.length, Nat.sub_self, List.drop_zero]
  have hlast : (FrontEnd.create.feed soft.dropLast).1.feedBit (soft.getLast hne) =
      ((FrontEnd.create.feed soft.dropLast).1.shift (soft.getLast hne)).process inverted := by
    rcases feedBit_cases ht (soft.getLast hne) with ⟨-, -, -, hno, -⟩ | ⟨-, -, hproc⟩
    · rw [hreg] at hno
      unfold syncScore at hno
      rw [hsync] at hno
      rcases hno with hno | hno
      · exact absurd ⟨by decide, by decide⟩ hno
      · exact absurd hno (by rw [not_lt]; exact (by decide : 110 ≤ 128))
    · rw [hproc, hreg]
      unfold syncInverted
      rw [hsync]
  have hsplit : FrontEnd.create.feed soft = FrontEnd.create.feed (soft.dropLast ++ [soft.getLast hne]) := by
    rw [List.dropLast_append_getLast]
  rw [hsplit, feed_append, hout, feed_singleton, hlast]
  have hparsed : (processFrame ((FrontEnd.create.feed soft.dropLast).1.shift (soft.getLast hne)).shiftReg inverted).2 =
      some frame := by rw [hreg]; exact processFrame_frame inverted hframe hholds
  unfold FrontEnd.process
  dsimp only
  rw [hparsed]
  rfl

/-- The symbols of a frame at full magnitude. -/
def fullSoft (frame : List UInt8) : List Int8 := (List.range stdcEncodedSize).map fun k =>
  if (frameToSymbols frame).getD k 0 = 1 then 127 else -127

theorem fullSoft_soft (frame : List UInt8) : SoftFrame frame false (fullSoft frame) where
  length := by
    unfold fullSoft
    rw [List.length_map, List.length_range]
  magnitude := fun v hv => by
    obtain ⟨k, -, rfl⟩ := List.mem_map.1 hv
    split <;> decide
  sign := fun k hk => by
    unfold fullSoft
    rw [getD_map_range _ hk, if_neg Bool.false_ne_true]
    split
    · exact iff_of_true (by decide) ‹_›
    · exact iff_of_false (by decide) ‹_›

theorem stdc_round_trip_zeros :
    FeedEvent.calls 0 (FrontEnd.create.feed (fullSoft (List.replicate stdcFrameBytes 0))).2 =
      [⟨0, ofList (List.replicate stdcFrameBytes 0), stdcFrameBytes⟩] :=
  stdc_round_trip List.length_replicate (fullSoft_soft (List.replicate stdcFrameBytes 0)) 0

end InmarsatSniffer.Stdc
