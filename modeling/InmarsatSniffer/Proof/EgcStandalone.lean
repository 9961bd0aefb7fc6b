import InmarsatSniffer.Proof.EgcText

/-!
# The message for one EGC packet

`decode_egc` emits a message for each packet alone. Its text is that of the first 128
bytes of the payload, which is what a slot has room for.

* `ia5_append`: the text of bytes that stand behind others.
* `standalone_whole_iff`: **no payload is lost exactly if the first 128 bytes have an ETX, or
  there is no text behind them**.
-/

namespace InmarsatSniffer.Stdc

open ByteMem Logged

variable {m : Mem} {pos len : ℤ}

/-- The byte ends an IA5 text. -/
def Etx (b : UInt8) : Prop := b &&& 0x7F = 0x03

instance : DecidablePred Etx := fun b => inferInstanceAs (Decidable (b &&& 0x7F = 0x03))

/-- **The text goes on behind some bytes**, unless there is an ETX in them. -/
theorem ia5_append (bs cs : List UInt8) :
    ia5 (bs ++ cs) = ia5 bs ++ if ∃ b ∈ bs, Etx b then [] else ia5 cs := by
  induction bs with
  | nil => simp [ia5]
  | cons b bs ih =>
    rw [List.cons_append, ia5, ia5]
    by_cases hprint : ia5Printable (b &&& 0x7F) = true
    · -- an ETX is not printable
      have hnot : ¬Etx b := fun h => by
        rw [show b &&& 0x7F = 0x03 from h] at hprint
        exact absurd hprint (by decide)
      simp only [hprint, if_true, ih, List.cons_append, List.exists_mem_cons_iff, hnot, false_or]
    · by_cases hetx : Etx b
      · have hbeq : (b &&& 0x7F == 0x03) = true := beq_iff_eq.2 hetx
        simp only [hprint, hbeq, if_true, List.exists_mem_cons_iff, hetx, true_or]
        rfl
      · have hbeq : (b &&& 0x7F == 0x03) = false := beq_eq_false_iff_ne.2 hetx
        simp only [hprint, hbeq, Bool.false_eq_true, if_false, ih, List.exists_mem_cons_iff, hetx, false_or]

/-- The size of the header of an EGC packet, with its address. -/
def egcHeaderSize (m : Mem) (pos : ℤ) : ℤ := 8 + getAddressLength (m (pos + 2)).toNat

/-- The bytes between the address header of an EGC packet and its checksum. -/
def egcPayload (m : Mem) (pos len : ℤ) : List UInt8 :=
  slice m (pos + egcHeaderSize m pos) (len - 2 - egcHeaderSize m pos).toNat

/-- The contents of a packet whose header fits. -/
theorem egcBody_payload (hfits : egcHeaderSize m pos ≤ len - 2) :
    ∃ b, egcBody (slice m pos len.toNat) = some b ∧ b.payload = egcPayload m pos len ∧
      b.isPart2 = decide (m pos = Pkt.egcDouble2) ∧ b.presentation = (m (pos + 7)).toNat := by
  have haddr := addressLength_pos (m (pos + 2)).toNat
  unfold egcHeaderSize at hfits
  have h0 : (slice m pos len.toNat).getD 0 0 = m pos := by
    rw [slice_getD (by omega), Nat.cast_zero, add_zero]
  have h2 : (slice m pos len.toNat).getD 2 0 = m (pos + 2) := slice_getD (by omega) 0
  have h7 : (slice m pos len.toNat).getD 7 0 = m (pos + 7) := slice_getD (by omega) 0
  have hlen : (slice m pos len.toNat).length = len.toNat := slice_length
  unfold egcBody
  rw [if_neg (by omega)]
  refine ⟨_, rfl, ?_, ?_, ?_⟩
  · dsimp only
    rw [h2, hlen, ← (holds_slice (m := m) (i := pos) (n := len.toNat)).drop_take (by omega)]
    unfold egcPayload egcHeaderSize
    congr 1
    · omega
    · omega
  · dsimp only
    rw [h0]
  · dsimp only
    rw [h7]

/-- What `parse_packets` emits for a packet. -/
theorem egcMessages_turn (now : ℤ) (d : StdcDecoder) (src : Src) {n : ℤ} {b : EgcBody}
    (hl : (look ⟨src.mem d, n⟩ pos).val = .packet len)
    (hegc : src.mem d pos = Pkt.egcDouble1 ∨ src.mem d pos = Pkt.egcDouble2)
    (hb : egcBody (slice (src.mem d) pos len.toNat) = some b) :
    egcMessages (parseTurn now d src n pos).out = (egcStep d.egcSlots ⟨now, b⟩).messages := by
  have hlen := (look_packet.1 hl).1.pos_len
  have h0 : (slice (src.mem d) pos len.toNat).getD 0 0 = src.mem d pos := by
    rw [slice_getD (by omega), Nat.cast_zero, add_zero]
  have hpacket : egcPacket? now (slice (src.mem d) pos len.toNat) = some ⟨now, b⟩ := by
    unfold egcPacket?
    rw [h0, if_pos hegc, hb]
    rfl
  have hdispatch := egcRun_dispatch now src.nested d hl
  rw [show slice (Frame.mem ⟨src.mem d, n⟩) pos len.toNat = slice (src.mem d) pos len.toNat from rfl, hpacket] at hdispatch
  have hmessages := congrArg Prod.snd hdispatch
  rw [turn_packet now d src hl]
  unfold packetOut
  rw [egcMessages_append, egcMessages_accesses, List.nil_append]
  refine Eq.trans hmessages.symm ?_
  exact List.append_nil _

/-- **EGC packets and their payloads.** In whatever state of the decoder, for every 0xB1 or
0xB2 packet that passes the checksum, with presentation 0, whose header fits and whose
payload has text: `parse_packets` emits what `decode_egc` does for it, and the message for
the packet alone has the text of the whole payload if and only if its first 128 bytes have
an ETX, or the bytes behind them have no text. -/
theorem standalone_whole_iff (now : ℤ) (d : StdcDecoder) (src : Src) (n : ℤ)
    (hl : (look ⟨src.mem d, n⟩ pos).val = .packet len)
    (hegc : src.mem d pos = Pkt.egcDouble1 ∨ src.mem d pos = Pkt.egcDouble2) (hpres : src.mem d (pos + 7) = 0)
    (hfits : egcHeaderSize (src.mem d) pos ≤ len - 2) (htext : ia5 (egcPayload (src.mem d) pos len) ≠ []) :
    let r := (decodeEgc now d.egcSlots ⟨src.mem d, n⟩ pos len (src.mem d pos = Pkt.egcDouble2)).val
    egcMessages (parseTurn now d src n pos).out = r.messages ∧
      (r.single.map StdcMessage.text = some (ia5 (egcPayload (src.mem d) pos len)) ↔
        (∃ b ∈ (egcPayload (src.mem d) pos len).take 128, Etx b) ∨
          ia5 ((egcPayload (src.mem d) pos len).drop 128) = []) := by
  intro r
  obtain ⟨b, hb, hpayload, hpart2, hpresentation⟩ := egcBody_payload hfits
  have hlen : ((slice (src.mem d) pos len.toNat).length : ℤ) = len := by
    have haddr := addressLength_pos (src.mem d (pos + 2)).toNat
    unfold egcHeaderSize at hfits
    rw [slice_length]
    omega
  have hholds : Holds (Frame.mem ⟨src.mem d, n⟩) pos (slice (src.mem d) pos len.toNat) := holds_slice
  have hval := decodeEgc_val now d.egcSlots hholds hb
  rw [hlen, hpart2] at hval
  have hval : r = egcStep d.egcSlots ⟨now, b⟩ := hval
  rw [hval]
  refine ⟨egcMessages_turn now d src hl hegc hb, ?_⟩
  have hsplit := ia5_append ((egcPayload (src.mem d) pos len).take 128) ((egcPayload (src.mem d) pos len).drop 128)
  rw [List.take_append_drop] at hsplit
  -- what is shown is the text of the first 128 bytes
  have hsingle : (egcStep d.egcSlots ⟨now, b⟩).single.map StdcMessage.text =
      if ia5 ((egcPayload (src.mem d) pos len).take 128) = [] then none
      else some (ia5 ((egcPayload (src.mem d) pos len).take 128)) := by
    have hpart : partText b.presentation b.part = ia5 ((egcPayload (src.mem d) pos len).take 128) := by
      rw [hpresentation, hpres, EgcBody.part, hpayload]
      rfl
    show b.single.map StdcMessage.text = _
    unfold EgcBody.single
    rw [hpart]
    dsimp only
    split <;> rfl
  rw [hsingle]
  constructor
  · intro h
    split at h
    · cases h
    · rw [Option.some.injEq] at h
      by_cases hetx : ∃ b ∈ (egcPayload (src.mem d) pos len).take 128, Etx b
      · exact Or.inl hetx
      · rw [if_neg hetx, h] at hsplit
        exact Or.inr (List.append_right_eq_self.1 hsplit.symm)
  · intro h
    have hwhole : ia5 ((egcPayload (src.mem d) pos len).take 128) = ia5 (egcPayload (src.mem d) pos len) := by
      rw [hsplit]
      rcases h with hetx | hnone
      · rw [if_pos hetx, List.append_nil]
      · rw [hnone, ite_self, List.append_nil]
    rw [hwhole, if_neg htext]

/-! ## Two warnings -/

/-- A 0xB1 packet with `k` letters, and its checksum. -/
def lettersPacket (k : ℕ) (crc1 crc2 : UInt8) : Mem :=
  ofList ([0xB1, (k + 11).toUInt8, 0x00, 0x80, 0x00, 0x01, 0x01, 0x00, 0x00, 0x00, 0x00] ++ List.replicate k 0x41 ++
    [crc1, crc2])

/-- 128 letters are all shown. -/
theorem letters128_whole :
    let src := Src.frame (lettersPacket 128 0x6E 0x54)
    (decodeEgc 0 StdcDecoder.create.egcSlots ⟨src.mem .create, 640⟩ 0 141
      (src.mem .create 0 = Pkt.egcDouble2)).val.single.map StdcMessage.text =
        some (ia5 (egcPayload (src.mem .create) 0 141)) := by
  intro src
  have hlook : (look ⟨src.mem .create, 640⟩ 0).val = .packet 141 := by decide +kernel
  exact (standalone_whole_iff 0 .create src 640 hlook (by decide +kernel) (by decide +kernel) (by decide +kernel)
    (by decide +kernel)).2.2 (Or.inr (by decide +kernel))

/-- Of 129 letters the last one is lost. -/
theorem letters129_cut :
    ¬∀ (now : ℤ) (d : StdcDecoder) (src : Src) (n pos len : ℤ), (look ⟨src.mem d, n⟩ pos).val = .packet len →
      (src.mem d pos = Pkt.egcDouble1 ∨ src.mem d pos = Pkt.egcDouble2) → src.mem d (pos + 7) = 0 →
        egcHeaderSize (src.mem d) pos ≤ len - 2 → ia5 (egcPayload (src.mem d) pos len) ≠ [] →
          (decodeEgc now d.egcSlots ⟨src.mem d, n⟩ pos len (src.mem d pos = Pkt.egcDouble2)).val.single.map
            StdcMessage.text = some (ia5 (egcPayload (src.mem d) pos len)) := by
  intro h
  have hall := h 0 .create (.frame (lettersPacket 129 0x22 0x5E)) 640 0 142 (by decide +kernel) (by decide +kernel)
    (by decide +kernel) (by decide +kernel) (by decide +kernel)
  exact absurd hall (by decide +kernel)

end InmarsatSniffer.Stdc
