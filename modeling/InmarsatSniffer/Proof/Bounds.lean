import InmarsatSniffer.Proof.Termination

/-!
# The accesses of the packet decoders

Every decoder of a packet that lies in the frame stays inside the frame and its own
arrays, but one: `decode_confirmation` reads `frame[pos + 9]` of a packet that may be
nine bytes long.

* `extractLoop_safe`, `emitLoop_safe`: text is never written past its array.
* `decodeSimple_safe`, `decodeEgc_safe`, `decodeMultiframeStart_safe`,
  `appendChunk_safe`: the decoders.
* `look_safe`: the head of the loop, which reads `frame[-1]` for a packet of one byte
  at the start of the frame.
-/

namespace InmarsatSniffer.Stdc

open ByteMem Logged

variable {m : Mem} {n pos len off i : ℤ} {fr : Frame} {k : ℕ}

/-! ## Single accesses -/

@[simp] theorem read_safe : (fr.read i).Safe ↔ 0 ≤ i ∧ i < fr.len := by
  simp [Frame.read, Acc.Safe, All, Access.InBounds]

theorem readN_safe : (fr.readN i k).Safe ↔ ∀ j < k, 0 ≤ i + (j : ℤ) ∧ i + (j : ℤ) < fr.len := by
  simp [Frame.readN, Acc.Safe, All, Access.InBounds]

theorem readN_safe_of (h0 : 0 ≤ i) (h : i + k ≤ fr.len) : (fr.readN i k).Safe :=
  readN_safe.2 fun j hj => ⟨by omega, by omega⟩

theorem touch_text_safe (h0 : 0 ≤ off) (h : off + k ≤ textSize) :
    ∀ e ∈ (List.range k).map fun j : ℕ => Access.text (off + j), e.InBounds := by
  simp only [List.mem_map, List.mem_range, forall_exists_index, and_imp]
  rintro e j hj rfl
  exact ⟨by omega, by omega⟩

/-! ## Text -/

theorem snprintfText_safe {s : List UInt8} (h0 : 0 ≤ off) (h : off ≤ textSize) : (snprintfText off s).Safe := by
  have hts : textSize = 4096 := rfl
  have hsz : ((textSize - off) % 2 ^ 64).toNat = (textSize - off).toNat := by
    rw [Int.emod_eq_of_lt (by omega) (by omega)]
  unfold snprintfText
  rw [hsz]
  simp only [Acc.Safe, all_ite, all_pure, all_bind, all_touch, implies_true, true_and, and_true]
  intro hz
  apply touch_text_safe h0
  have := List.length_take_le ((textSize - off).toNat - 1) s
  push_cast; omega

theorem emitText_safe (msg : StdcMessage) (s : List UInt8) : (emitText msg s).Safe := by
  unfold emitText
  simp only [Acc.Safe, all_bind, all_pure, and_true]
  exact snprintfText_safe le_rfl (by decide)

/-- **`extract_ia5_text` stays inside its buffer** and leaves room for the terminator. -/
theorem extractLoop_safe {out maxOut : ℤ} {data : ℕ → Acc UInt8} (h0 : 0 ≤ out) (h : out + maxOut ≤ textSize) :
    ∀ (todo i tlen : ℕ), (tlen : ℤ) ≤ maxOut - 1 → (∀ j, i ≤ j → j < i + todo → (data j).Safe) →
      (extractLoop out maxOut data todo i tlen).Safe ∧
        ((extractLoop out maxOut data todo i tlen).val.length : ℤ) + tlen ≤ maxOut - 1 := by
  intro todo
  induction todo with
  | zero =>
    intro i tlen ht _
    refine ⟨?_, by simpa [extractLoop] using ht⟩
    simp only [extractLoop, Acc.Safe, all_bind, all_touch, all_pure, and_true, List.forall_mem_singleton]
    exact ⟨by omega, by omega⟩
  | succ todo ih =>
    intro i tlen ht hd
    have hin : (Access.text (out + tlen)).InBounds := ⟨by omega, by omega⟩
    have hread := hd i le_rfl (by omega)
    have hskip := ih (i + 1) tlen ht fun j h1 h2 => hd j (by omega) (by omega)
    unfold extractLoop
    by_cases hlt : (tlen : ℤ) < maxOut - 1
    · have hkeep := ih (i + 1) (tlen + 1) (by push_cast; omega) fun j h1 h2 => hd j (by omega) (by omega)
      rw [if_pos hlt]
      simp only [Acc.Safe, all_bind, all_ite, all_touch, all_pure, val_bind, val_ite, val_pure,
        List.forall_mem_singleton, and_true]
      refine ⟨⟨hread, fun _ => ⟨hin, hkeep.1⟩, fun _ => ⟨fun _ => hin, fun _ => hskip.1⟩⟩, ?_⟩
      split_ifs
      · have := hkeep.2
        push_cast [List.length_cons] at this ⊢
        omega
      · simpa using ht
      · exact hskip.2
    · rw [if_neg hlt]
      simp only [Acc.Safe, all_bind, all_touch, all_pure, val_bind, val_pure, List.forall_mem_singleton, and_true]
      exact ⟨hin, by simpa using ht⟩

theorem extractIa5Text_safe {out maxOut : ℤ} {data : ℕ → Acc UInt8} (h0 : 0 ≤ out) (h1 : 1 ≤ maxOut)
    (h : out + maxOut ≤ textSize) (hd : ∀ j < len.toNat, (data j).Safe) :
    (extractIa5Text out maxOut data len).Safe ∧
      ((extractIa5Text out maxOut data len).val.length : ℤ) ≤ maxOut - 1 := by
  have hloop := extractLoop_safe h0 h len.toNat 0 0 (by push_cast; omega) fun j _ hj => hd j (by omega)
  rw [Nat.cast_zero, add_zero] at hloop
  exact hloop

theorem shortTextLoop_safe : ∀ (todo : ℕ) (i : ℤ) (tlen : ℕ), (tlen : ℤ) ≤ textSize - 1 → 0 ≤ i → i + todo ≤ fr.len →
    (shortTextLoop fr todo i tlen).Safe := by
  intro todo
  induction todo with
  | zero =>
    intro i tlen ht _ _
    unfold shortTextLoop
    simp only [Acc.Safe, all_bind, all_touch, all_pure, and_true, List.forall_mem_singleton]
    exact ⟨by omega, by omega⟩
  | succ todo ih =>
    intro i tlen ht h0 hi
    have hin : (Access.text tlen).InBounds := ⟨by omega, by omega⟩
    unfold shortTextLoop
    push_cast at hi
    simp only [Acc.Safe, all_ite, all_bind, all_touch, all_pure, List.forall_mem_singleton, and_true]
    refine ⟨fun hlt => ⟨read_safe.2 ⟨h0, by omega⟩, fun _ => ⟨hin, ?_⟩, fun _ => ?_⟩, fun _ => hin⟩
    · exact ih (i + 1) (tlen + 1) (by push_cast; omega) (by omega) (by omega)
    · exact ih (i + 1) tlen ht (by omega) (by omega)

theorem shortText_safe {start stop : ℤ} (h0 : 0 ≤ start) (h1 : start ≤ stop) (h : stop ≤ fr.len) :
    (shortText fr start stop).Safe :=
  shortTextLoop_safe _ _ _ (by decide) h0 (by omega)

/-! ## Decoders without state -/

/-- The accesses of a decoder that checks its length, reads fields and emits a text. -/
theorem decodeChannelMsg_safe {type : MsgType} {descriptor : UInt8} {minLen : ℤ} {heading : String}
    (h6 : 6 ≤ minLen) (h0 : 0 ≤ pos) (hn : pos + len ≤ fr.len) :
    (decodeChannelMsg type descriptor minLen heading fr pos len).Safe := by
  unfold decodeChannelMsg
  simp only [Acc.Safe, all_ite, all_pure, all_bind, read_safe, implies_true, true_and]
  intro h
  exact ⟨by omega, by omega, by omega, by omega, by omega, emitText_safe _ _⟩

theorem decodeAckRequest_safe (h0 : 0 ≤ pos) (hn : pos + len ≤ fr.len) : (decodeAckRequest fr pos len).Safe := by
  unfold decodeAckRequest
  simp only [Acc.Safe, all_ite, all_pure, all_bind, read_safe, implies_true, true_and]
  intro h
  exact ⟨by omega, by omega, by omega, by omega, emitText_safe _ _⟩

theorem decodeSignalling_safe (h0 : 0 ≤ pos) (hn : pos + len ≤ fr.len) : (decodeSignalling fr pos len).Safe := by
  unfold decodeSignalling
  simp only [Acc.Safe, all_ite, all_pure, all_bind, read_safe, implies_true, true_and]
  intro h
  exact ⟨by omega, by omega, emitText_safe _ _⟩

theorem decodeBulletinBoard_safe (h0 : 0 ≤ pos) (hn : pos + len ≤ fr.len) : (decodeBulletinBoard fr pos len).Safe := by
  unfold decodeBulletinBoard
  simp only [Acc.Safe, all_ite, all_pure, all_bind, read_safe, implies_true, true_and]
  intro h
  exact ⟨by omega, by omega, by omega, by omega, emitText_safe _ _⟩

theorem decodeAnnouncement_safe (h0 : 0 ≤ pos) (hn : pos + len ≤ fr.len) : (decodeAnnouncement fr pos len).Safe := by
  unfold decodeAnnouncement
  simp only [Acc.Safe, all_ite, all_pure, all_bind, read_safe, implies_true, true_and]
  intro h
  exact ⟨by omega, by omega, by omega, by omega, by omega, by omega, by omega, by omega, emitText_safe _ _⟩

theorem decodeChanAssignment_safe (h0 : 0 ≤ pos) (hn : pos + len ≤ fr.len) :
    (decodeChanAssignment fr pos len).Safe := by
  unfold decodeChanAssignment
  simp only [Acc.Safe, all_ite, all_pure, all_bind, read_safe, implies_true, true_and]
  intro h
  exact ⟨by omega, by omega, by omega, by omega, by omega, by omega, by omega, by omega, by omega, emitText_safe _ _⟩

theorem decodeLoginAck_safe (h0 : 0 ≤ pos) (hn : pos + len ≤ fr.len) : (decodeLoginAck fr pos len).Safe := by
  unfold decodeLoginAck
  simp only [Acc.Safe, all_ite, all_pure, all_bind, read_safe, implies_true, true_and]
  intro h
  exact ⟨by omega, by omega, emitText_safe _ _⟩

theorem decodeIndividualPoll_safe (h0 : 0 ≤ pos) (hn : pos + len ≤ fr.len) :
    (decodeIndividualPoll fr pos len).Safe := by
  unfold decodeIndividualPoll
  simp only [Acc.Safe, all_ite, all_pure, all_bind, read_safe, implies_true, true_and, and_true]
  intro h
  exact ⟨by omega, by omega, by omega, by omega,
    fun _ => shortText_safe (by omega) (by omega) (by omega), fun _ => emitText_safe _ _⟩

/-- **`decode_confirmation` reads one byte past the frame** for a packet of nine bytes at its end. -/
theorem decodeConfirmation_safe (h0 : 0 ≤ pos) (hn : pos + len ≤ fr.len) :
    (decodeConfirmation fr pos len).Safe ↔ ¬(len = 9 ∧ pos + 9 = fr.len) := by
  unfold decodeConfirmation
  simp only [Acc.Safe, all_ite, all_pure, all_bind, read_safe, implies_true, true_and, and_true]
  constructor
  · intro h hc
    have := (h (by omega)).2.2.2.2.1
    omega
  · intro hc h
    exact ⟨by omega, by omega, by omega, by omega, by omega,
      fun _ => shortText_safe (by omega) (by omega) (by omega), fun _ => emitText_safe _ _⟩

theorem decodeMessage_safe (h0 : 0 ≤ pos) (hn : pos + len ≤ fr.len) : (decodeMessage fr pos len).Safe := by
  unfold decodeMessage
  simp only [Acc.Safe, all_ite, all_pure, all_bind, read_safe, implies_true, true_and, and_true]
  intro h
  refine ⟨by omega, by omega, by omega, ?_⟩
  exact (extractIa5Text_safe le_rfl (by decide) (by decide) fun j hj => read_safe.2 ⟨by omega, by omega⟩).1

/-! ## The station list -/

theorem ascii_length (s : String) : (ascii s).length = s.toList.length := List.length_map _

theorem fmtInt_length {x e : ℕ} (he : 0 < e) (h : x < 10 ^ e) : (fmtInt x).length ≤ e := by
  unfold fmtInt
  rw [List.length_map]
  exact Nat.toDigits_length 10 x e he h

theorem fmtPad_length {x e : ℕ} (he : 0 < e) (h : x < 10 ^ e) : (fmtPad e x).length = e := by
  have := fmtInt_length he h
  unfold fmtPad
  rw [List.length_append, List.length_replicate]
  omega

theorem ascii_ite_length {p : Prop} [Decidable p] {a b : String} {e : ℕ} (ha : (ascii a).length ≤ e)
    (hb : (ascii b).length ≤ e) : (ascii (if p then a else b)).length ≤ e := by
  split
  · exact ha
  · exact hb

theorem satName_length (sat : ℕ) : (ascii (getSatName sat)).length ≤ 11 := by
  unfold getSatName
  iterate 5 refine ascii_ite_length (by decide) ?_
  decide

theorem lesName_length (sat lesId : ℕ) : (ascii (getLesName sat lesId)).length ≤ 38 := by
  unfold getLesName
  dsimp only
  generalize lesId + sat * 100 = v
  iterate 19 refine ascii_ite_length (by decide) ?_
  decide

theorem downlink_length (a b : UInt8) : (fmtMhz (downlinkOf a b)).length ≤ 9 := by
  have ha := a.toNat_lt
  have hb := b.toNat_lt
  have h : (downlinkOf a b).toNat < 10000 * 10 ^ 4 := by
    unfold downlinkOf
    rw [be16_eq]
    push_cast
    omega
  unfold fmtMhz
  have h1 := fmtInt_length (x := (downlinkOf a b).toNat / 10000) (e := 4) (by decide) (by omega)
  have h2 := fmtPad_length (x := (downlinkOf a b).toNat % 10000) (e := 4) (by decide) (Nat.mod_lt _ (by decide))
  rw [List.length_append, List.length_append, h2, List.length_singleton]
  omega

/-- **The station list fits the text**: six bytes of the packet make at most 61 characters. -/
theorem lesListLoop_safe {stop : ℤ} (hs : stop ≤ fr.len) : ∀ (k : ℕ) (j tlen : ℤ) (text : List UInt8), 0 ≤ j →
    j ≤ stop → 0 ≤ tlen → 6 * tlen + 61 * (stop - j) ≤ 6 * 4095 →
    (lesListLoop fr stop k j tlen text).Safe ∧ 0 ≤ (lesListLoop fr stop k j tlen text).val.1 ∧
      (lesListLoop fr stop k j tlen text).val.1 < textSize := by
  have hts : textSize = 4096 := rfl
  intro k
  induction k with
  | zero =>
    intro j tlen text _ hj ht h
    unfold lesListLoop
    exact ⟨all_pure _, ht, by show tlen < _; omega⟩
  | succ k ih =>
    intro j tlen text h0 hj ht h
    unfold lesListLoop
    by_cases hlt : j + 5 < stop
    · simp only [if_pos hlt, Acc.Safe, all_bind, val_bind, read_safe]
      generalize hst : ascii " " ++ _ ++ _ ++ _ ++ _ ++ _ = station
      have hlen : station.length ≤ 61 := by
        rw [← hst]
        simp only [List.length_append]
        have h1 := satName_length (((fr.read j).val.toNat >>> 6) &&& 0x03)
        have h2 := lesName_length (((fr.read j).val.toNat >>> 6) &&& 0x03) ((fr.read j).val.toNat &&& 0x3F)
        have h3 := downlink_length (fr.read (j + 4)).val (fr.read (j + 5)).val
        have h4 : (ascii " ").length = 1 := by decide
        have h5 : (ascii "/").length = 1 := by decide
        have h6 : (ascii "@").length = 1 := by decide
        omega
      have hrest := ih (j + 6) (tlen + station.length) (text ++ (snprintfText tlen station).val) (by omega) (by omega)
        (by omega) (by omega)
      exact ⟨⟨by omega, by omega, by omega, snprintfText_safe ht (by omega), hrest.1⟩, hrest.2⟩
    · rw [if_neg hlt]
      exact ⟨all_pure _, ht, by show tlen < _; omega⟩

theorem decodeLesList_safe (h0 : 0 ≤ pos) (hn : pos + len ≤ fr.len) (hl : len ≤ 257) :
    (decodeLesList fr pos len).Safe := by
  unfold decodeLesList
  simp only [Acc.Safe, all_ite, all_pure, all_bind, all_touch, read_safe, implies_true, true_and, and_true,
    List.forall_mem_singleton]
  intro h
  have hhead : (ascii "LES List (" ++ fmtInt (fr.read (pos + 3)).val.toNat ++ ascii " stations):").length ≤ 24 := by
    have h1 := fmtInt_length (x := (fr.read (pos + 3)).val.toNat) (e := 3) (by decide)
      (lt_trans (UInt8.toNat_lt _) (by decide))
    have h2 : (ascii "LES List (").length = 10 := by decide
    have h3 : (ascii " stations):").length = 11 := by decide
    simp only [List.length_append]
    omega
  generalize ascii "LES List (" ++ _ ++ _ = head at hhead ⊢
  have hloop := lesListLoop_safe (show pos + len - 2 ≤ fr.len by omega) (fr.read (pos + 3)).val.toNat
    (pos + 4) head.length (snprintfText 0 head).val (by omega) (by omega) (by omega) (by omega)
  exact ⟨⟨by omega, by omega⟩, snprintfText_safe le_rfl (by decide), hloop⟩

/-- **The decoders without state stay inside the frame**, but for the confirmation at its end. -/
theorem decodeSimple_safe {desc : UInt8} (h0 : 0 ≤ pos) (hn : pos + len ≤ fr.len)
    (hl : desc = Pkt.lesList → len ≤ 257) :
    (decodeSimple desc fr pos len).Safe ↔ ¬(desc = Pkt.confirmation ∧ len = 9 ∧ pos + 9 = fr.len) := by
  by_cases hc : desc = Pkt.confirmation
  · rw [hc]
    simp only [true_and]
    exact decodeConfirmation_safe h0 hn
  refine iff_of_true ?_ fun h => hc h.1
  unfold decodeSimple
  simp only [Acc.Safe, all_ite, all_pure, implies_true, and_true]
  exact ⟨fun _ => decodeAckRequest_safe h0 hn, fun _ => ⟨fun _ => decodeChannelMsg_safe (by decide) h0 hn,
    fun _ => ⟨fun _ => decodeChannelMsg_safe (by decide) h0 hn, fun _ => ⟨fun _ => decodeSignalling_safe h0 hn,
    fun _ => ⟨fun _ => decodeBulletinBoard_safe h0 hn, fun _ => ⟨fun _ => decodeAnnouncement_safe h0 hn,
    fun _ => ⟨fun _ => decodeChanAssignment_safe h0 hn, fun _ => ⟨fun _ => decodeLoginAck_safe h0 hn,
    fun _ => ⟨fun _ => decodeIndividualPoll_safe h0 hn, fun _ => ⟨fun h => absurd h hc,
    fun _ => ⟨fun _ => decodeMessage_safe h0 hn, fun _ h => decodeLesList_safe h0 hn (hl h)⟩⟩⟩⟩⟩⟩⟩⟩⟩⟩⟩

/-! ## EGC packets -/

theorem addressLength_pos (t : ℕ) : 3 ≤ getAddressLength t := by
  unfold getAddressLength
  split_ifs <;> omega

/-- The header of an EGC packet is read inside it, and its payload lies inside it. -/
theorem readEgcHeader_safe (h0 : 0 ≤ pos) (hn : pos + len ≤ fr.len) (h10 : 10 ≤ len) :
    (readEgcHeader fr pos len).Safe ∧ 0 ≤ (readEgcHeader fr pos len).val.payloadStart ∧
      (readEgcHeader fr pos len).val.payloadStart + (readEgcHeader fr pos len).val.payloadLen ≤ fr.len := by
  have ha := addressLength_pos (fr.mem (pos + 2)).toNat
  refine ⟨?_, ?_, ?_⟩
  · unfold readEgcHeader
    simp only [Acc.Safe, all_bind, all_pure, read_safe, and_true]
    exact ⟨by omega, by omega, by omega, by omega, by omega, by omega⟩
  · show 0 ≤ pos + min (8 + getAddressLength (fr.mem (pos + 2)).toNat) (len - 2)
    omega
  · show pos + min (8 + getAddressLength (fr.mem (pos + 2)).toNat) (len - 2) +
      max (len - 2 - min (8 + getAddressLength (fr.mem (pos + 2)).toNat) (len - 2)) 0 ≤ fr.len
    omega

theorem partIdx_bounds (pktNo : ℕ) (isPart2 : Bool) : 0 ≤ partIdx pktNo isPart2 ∧ partIdx pktNo isPart2 ≤ 63 := by
  unfold partIdx
  omega

theorem storePart_safe (slot : EgcReassembly) (h : EgcHeader) (now : ℤ) (isPart2 : Bool) (payload : List UInt8) :
    (storePart slot h now isPart2 payload).Safe := by
  have hp : partsSize = 8192 := rfl
  obtain ⟨h1, h2⟩ := partIdx_bounds h.pktNo isPart2
  unfold storePart
  simp only [Acc.Safe, all_bind, all_ite, all_touch, all_pure, implies_true, and_true, List.forall_mem_singleton]
  intro hfits
  refine ⟨?_, ⟨h1, lt_of_le_of_lt h2 (by decide)⟩⟩
  simp only [List.mem_map, List.mem_range, forall_exists_index, and_imp]
  rintro e j hj rfl
  exact ⟨by omega, by omega⟩

/-- **`try_emit_egc` stays inside the message text**, whatever the slot holds. -/
theorem emitLoop_safe (slot : EgcReassembly) : ∀ (k : ℕ) (i : ℤ) (text : List UInt8), (text.length : ℤ) < textSize →
    (emitLoop slot k i text).Safe ∧ ((emitLoop slot k i text).val.length : ℤ) < textSize := by
  have hts : textSize = 4096 := rfl
  intro k
  induction k with
  | zero => intro i text h; exact ⟨all_pure _, h⟩
  | succ k ih =>
    intro i text h
    unfold emitLoop
    by_cases hlt : (text.length : ℤ) < textSize - 1
    · rw [if_pos hlt]
      dsimp only
      by_cases hp : slot.partLens i ≤ 0
      · rw [if_pos hp]
        exact ih _ _ h
      rw [if_neg hp]
      by_cases hpres : slot.presentation = 0
      · rw [if_pos hpres]
        have hread : ∀ j < (min (slot.partLens i) 128).toNat,
            (pure (slot.parts (i * 128 + j)) : Acc UInt8).Safe := fun _ _ => all_pure _
        have hx := extractIa5Text_safe (by omega : 0 ≤ (text.length : ℤ)) (by omega : 1 ≤ textSize - (text.length : ℤ))
          (by omega) hread
        have hrest := ih (i + 1) (text ++ (extractIa5Text text.length (textSize - text.length)
          (fun j : ℕ => pure (slot.parts (i * 128 + j))) (min (slot.partLens i) 128)).val)
          (by rw [List.length_append]; push_cast; omega)
        simp only [Acc.Safe, all_bind, val_bind]
        exact ⟨⟨hx.1, hrest.1⟩, hrest.2⟩
      · rw [if_neg hpres]
        simp only [Acc.Safe, all_bind, val_bind, all_touch]
        generalize hlen : (if (text.length : ℤ) + min (slot.partLens i) 128 ≥ textSize then textSize - text.length - 1
          else min (slot.partLens i) 128) = len
        have hbound : 0 ≤ len ∧ text.length + len ≤ textSize - 1 := by split at hlen <;> omega
        have hrest := ih (i + 1) (text ++ slice slot.parts (i * 128) len.toNat)
          (by rw [List.length_append, slice_length]; push_cast; omega)
        exact ⟨⟨touch_text_safe (by omega) (by omega), hrest.1⟩, hrest.2⟩
    · rw [if_neg hlt]
      exact ⟨all_pure _, h⟩

theorem tryEmitEgc_safe (slot : EgcReassembly) : (tryEmitEgc slot).Safe := by
  unfold tryEmitEgc
  simp only [Acc.Safe, all_ite, all_bind, all_touch, all_pure, implies_true, and_true, List.forall_mem_singleton]
  intro _
  have := emitLoop_safe slot (slot.maxPktNo + 1).toNat 0 [] (by decide)
  exact ⟨this.1, Int.natCast_nonneg _, this.2⟩

theorem standaloneEgc_safe {h : EgcHeader} (isPart2 : Bool) (h0 : 0 ≤ h.payloadStart)
    (hl : h.payloadStart + len ≤ fr.len) (h128 : len ≤ 128) : (standaloneEgc fr h isPart2 len).Safe := by
  have hts : textSize = 4096 := rfl
  unfold standaloneEgc
  simp only [Acc.Safe, all_ite, all_bind, all_pure, implies_true, and_true, all_touch]
  intro hpos
  refine ⟨fun _ => ?_, fun _ => ?_⟩
  · exact (extractIa5Text_safe le_rfl (by decide) (by decide) fun j hj => read_safe.2 ⟨by omega, by omega⟩).1
  · rw [if_neg (by omega)]
    refine ⟨readN_safe_of h0 (by omega), ?_⟩
    have htouch := touch_text_safe (k := len.toNat + 1) (le_refl (0 : ℤ)) (by omega)
    simpa only [zero_add] using htouch

/-- **`decode_egc` stays inside the packet and its arrays.** -/
theorem decodeEgc_safe (now : ℤ) (slots : EgcSlots) (isPart2 : Bool) (h0 : 0 ≤ pos) (hn : pos + len ≤ fr.len) :
    (decodeEgc now slots fr pos len isPart2).Safe := by
  unfold decodeEgc
  simp only [Acc.Safe, all_ite, all_pure, all_bind, implies_true, true_and, and_true]
  intro h
  obtain ⟨h1, h2, h3⟩ := readEgcHeader_safe h0 hn (by omega)
  refine ⟨h1, ?_, storePart_safe _ _ _ _ _, standaloneEgc_safe _ h2 (by omega) (by omega), tryEmitEgc_safe _⟩
  by_cases hp : 0 ≤ (readEgcHeader fr pos len).val.payloadLen
  · exact readN_safe_of h2 (by omega)
  · exact readN_safe.2 fun j hj => by omega

/-! ## Multiframe packets -/

theorem mfpData_safe {k : ℕ} (h0 : 0 ≤ off) (h : off + k ≤ mfpSize) :
    ∀ e ∈ (List.range k).map fun j : ℕ => Access.mfpData (off + j), e.InBounds := by
  simp only [List.mem_map, List.mem_range, forall_exists_index, and_imp]
  rintro e j hj rfl
  exact ⟨by omega, by omega⟩

theorem decodeMultiframeStart_safe (nested : Bool) (s : MultiframeState) (h0 : 0 ≤ pos) (hn : pos + len ≤ fr.len) :
    (decodeMultiframeStart nested s fr pos len).Safe := by
  have hsz : mfpSize = 4096 := rfl
  have hlen : (if nested then (⟨ByteMem.zero, fr.len⟩ : Frame) else fr).len = fr.len := by cases nested <;> rfl
  unfold decodeMultiframeStart innerLength
  simp only [Acc.Safe, all_ite, all_pure, all_bind, all_touch, read_safe, implies_true, true_and, and_true]
  intro h
  refine ⟨⟨by omega, fun _ => fun _ => by omega⟩, ?_, readN_safe_of (by omega) (by rw [hlen]; omega), ?_⟩
  · have hclear := mfpData_safe (k := mfpSize.toNat) (le_refl (0 : ℤ)) (by decide)
    simpa only [zero_add] using hclear
  · have hcopy := mfpData_safe (k := (min (max (len - 2 - 2) 0) mfpSize).toNat) (le_refl (0 : ℤ)) (by omega)
    simpa only [zero_add] using hcopy

theorem appendChunk_safe {s : MultiframeState} (hs : MfpOk s) (h0 : 0 ≤ pos) (hn : pos + len ≤ fr.len) :
    (appendChunk s fr pos len).Safe := by
  have h1 := hs.nonneg
  have h2 := hs.size
  unfold appendChunk
  simp only [Acc.Safe, all_pure, all_bind, all_touch, and_true]
  generalize hp : (if max (len - 2 - 2) 0 > mfpSize - s.filled then mfpSize - s.filled else max (len - 2 - 2) 0) = payload
  have hb : 0 ≤ payload ∧ payload ≤ mfpSize - s.filled ∧ payload ≤ max (len - 4) 0 := by
    split at hp <;> omega
  refine ⟨?_, mfpData_safe h1 (by omega)⟩
  exact readN_safe.2 fun j hj => ⟨by omega, by omega⟩

/-! ## The head of the loop -/

theorem crcLoop_safe (h0 : 0 ≤ pos) (hn : pos + len ≤ fr.len) : ∀ (k : ℕ) (i : ℤ) c0 c1, 0 ≤ i →
    (crcLoop fr pos len k i c0 c1).Safe := by
  intro k
  induction k with
  | zero => intro i c0 c1 _; exact all_pure _
  | succ k ih =>
    intro i c0 c1 hi
    unfold crcLoop
    simp only [Acc.Safe, all_ite, all_bind, read_safe]
    exact ⟨fun h => ⟨⟨by omega, by omega⟩, ih _ _ _ (by omega)⟩, fun _ => ih _ _ _ (by omega)⟩

/-- A packet of one byte at the start of the frame. -/
def Underread (m : Mem) (n : ℤ) : Prop := 2 < n ∧ m 0 ≠ 0x00 ∧ m 0 >>> 7 = 0 ∧ m 0 &&& 0x0F = 0

instance (m : Mem) (n : ℤ) : Decidable (Underread m n) := inferInstanceAs (Decidable (_ ∧ _))

theorem pktLength_one (h : 2 < n) : pktLength m n 0 = 1 ↔ m 0 >>> 7 = 0 ∧ m 0 &&& 0x0F = 0 := by
  rw [pktLength_eq]
  have hz : (m 0 &&& 0x0F).toNat = 0 ↔ m 0 &&& 0x0F = 0 := by
    rw [← UInt8.toNat_inj]; rfl
  by_cases h7 : m 0 >>> 7 = 0
  · rw [if_pos h7, and_iff_right h7, ← hz]
    omega
  · rw [if_neg h7]
    refine iff_of_false ?_ fun hc => h7 hc.1
    split_ifs <;> omega

/-- **The head of the loop stays inside the frame**, but for a packet of one byte at its start. -/
theorem look_safe (h0 : 0 ≤ pos) : (look ⟨m, n⟩ pos).Safe ↔ ¬(pos = 0 ∧ Underread m n) := by
  have hgl : (getPacketLength ⟨m, n⟩ pos).Safe ↔ pos < n := by
    unfold getPacketLength
    simp only [Acc.Safe, all_bind, all_ite, all_pure, read_safe, implies_true, true_and, and_true]
    constructor
    · exact fun h => h.1.2
    · exact fun h => ⟨⟨h0, h⟩, fun _ _ hc => ⟨by omega, by omega⟩⟩
  unfold look
  simp only [Acc.Safe, all_ite, all_bind, all_pure, read_safe, implies_true, true_and, and_true, hgl]
  show (pos < n - 2 → (0 ≤ pos ∧ pos < n) ∧ (¬m pos = 0x00 → ¬m pos = 0xFF → pos < n ∧
    (¬(pktLength m n pos ≤ 0 ∨ pos + pktLength m n pos > n) →
      (0 ≤ pos + pktLength m n pos - 2 ∧ pos + pktLength m n pos - 2 < n) ∧
      (0 ≤ pos + pktLength m n pos - 1 ∧ pos + pktLength m n pos - 1 < n) ∧
        (computeCrc ⟨m, n⟩ pos (pktLength m n pos)).Safe))) ↔ _
  constructor
  · rintro h ⟨rfl, h1, h2, h3⟩
    have hl := (pktLength_one (m := m) h1).2 h3
    have hff : m 0 ≠ 0xFF := fun hc => by rw [hc] at h3; exact absurd h3.1 (by decide)
    have := ((h (by omega)).2 h2 hff).2 (by omega)
    omega
  · intro h hlt
    refine ⟨⟨h0, by omega⟩, fun h1 h2 => ⟨by omega, fun h3 => ?_⟩⟩
    have hcrc : (computeCrc ⟨m, n⟩ pos (pktLength m n pos)).Safe := by
      unfold computeCrc
      simp only [Acc.Safe, all_bind, all_pure, and_true]
      exact crcLoop_safe h0 (show pos + pktLength m n pos ≤ n by omega) _ _ _ _ le_rfl
    refine ⟨⟨?_, by omega⟩, ⟨by omega, by omega⟩, hcrc⟩
    by_contra hneg
    have hp : pos = 0 := by omega
    subst hp
    have hone : pktLength m n 0 = 1 := by omega
    exact h ⟨rfl, by omega, h1, (pktLength_one (by omega)).1 hone⟩

end InmarsatSniffer.Stdc
