import InmarsatSniffer.Proof.Bounds

/-!
# EGC packets by their contents

What `decode_egc` does depends on the bytes of the packet only (`EgcBody`), and what a
slot is emitted as on the bytes of its parts (`slotPart`). Whole runs of
`parse_packets` act on the slots as the list of EGC packets they dispatch.

* `extractIa5Text_val`, `emitLoop_val`: the texts.
* `decodeEgc_val`: `decode_egc` as a step on slots, `egcStep`.
* `run_egc`: **a run of frames emits the EGC messages of its EGC packets, in order**.
-/

namespace InmarsatSniffer.Stdc

open ByteMem Logged

variable {now n pos len i : ℤ} {fr : Frame} {slots : EgcSlots} {out o : List Event}

/-! ## Texts -/

/-- The IA5 text of some bytes: the characters kept, up to the first ETX. -/
def ia5 : List UInt8 → List UInt8
  | [] => []
  | b :: r =>
    if ia5Printable (b &&& 0x7F) then (b &&& 0x7F) :: ia5 r else if b &&& 0x7F == 0x03 then [] else ia5 r

theorem ia5_length (bs : List UInt8) : (ia5 bs).length ≤ bs.length := by
  induction bs with
  | nil => exact le_rfl
  | cons b r ih =>
    unfold ia5
    split_ifs
    · exact Nat.succ_le_succ ih
    · exact Nat.zero_le _
    · exact le_trans ih (Nat.le_succ _)

/-- The values of a data pointer. -/
def dataList (data : ℕ → Acc UInt8) (i k : ℕ) : List UInt8 := (List.range k).map fun j : ℕ => (data (i + j)).val

theorem dataList_succ (data : ℕ → Acc UInt8) (i k : ℕ) :
    dataList data i (k + 1) = (data i).val :: dataList data (i + 1) k := by
  unfold dataList
  rw [List.range_succ_eq_map, List.map_cons, List.map_map]
  congr 1
  apply List.map_congr_left
  intro j _
  simp only [Function.comp_apply, Nat.succ_eq_add_one]
  rw [Nat.add_assoc, Nat.add_comm 1 j]

theorem extractLoop_val {out maxOut : ℤ} {data : ℕ → Acc UInt8} : ∀ (todo i tlen : ℕ),
    (extractLoop out maxOut data todo i tlen).val =
      (ia5 (dataList data i todo)).take (maxOut - 1 - tlen).toNat := by
  intro todo
  induction todo with
  | zero => intro i tlen; simp [extractLoop, dataList, ia5]
  | succ todo ih =>
    intro i tlen
    unfold extractLoop
    rw [dataList_succ, ia5]
    by_cases hlt : (tlen : ℤ) < maxOut - 1
    · have hsucc : (maxOut - 1 - tlen).toNat = (maxOut - 1 - (tlen + 1 : ℕ)).toNat + 1 := by push_cast; omega
      rw [if_pos hlt]
      simp only [val_bind, val_ite, val_pure, ih]
      split_ifs
      · rw [hsucc, List.take_succ_cons]
      · exact List.take_nil.symm
      · rfl
    · rw [if_neg hlt, show (maxOut - 1 - tlen).toNat = 0 by omega, List.take_zero]
      rfl

theorem extractIa5Text_val {out maxOut : ℤ} {data : ℕ → Acc UInt8} :
    (extractIa5Text out maxOut data len).val = (ia5 (dataList data 0 len.toNat)).take (maxOut - 1).toNat := by
  unfold extractIa5Text
  rw [extractLoop_val, Nat.cast_zero, sub_zero]

theorem dataList_read (fr : Frame) (i : ℤ) (k : ℕ) :
    dataList (fun j => fr.read (i + j)) 0 k = slice fr.mem i k := by
  unfold dataList slice
  simp [Frame.read]

theorem dataList_parts (m : Mem) (i : ℤ) (k : ℕ) :
    dataList (fun j : ℕ => pure (m (i + j))) 0 k = slice m i k := by
  unfold dataList slice
  simp

/-- The text of a part, by the presentation. -/
def partText (presentation : ℕ) (bs : List UInt8) : List UInt8 := if presentation = 0 then ia5 bs else bs

@[simp] theorem partText_nil (presentation : ℕ) : partText presentation [] = [] := by
  unfold partText; split <;> rfl

theorem partText_length (presentation : ℕ) (bs : List UInt8) : (partText presentation bs).length ≤ bs.length := by
  unfold partText
  split
  · exact ia5_length bs
  · exact le_rfl

/-- The bytes of a slot's part. -/
def slotPart (slot : EgcReassembly) (i : ℤ) : List UInt8 :=
  if slot.partLens i ≤ 0 then [] else slice slot.parts (i * 128) (min (slot.partLens i) 128).toNat

/-- The characters `msg.text` holds beside the terminator. -/
abbrev textCapacity : ℕ := 4095

/-- Cutting before something is added changes nothing of the cut text. -/
theorem take_append_take (a b c : List UInt8) (h : a.length ≤ textCapacity) :
    ((a ++ b.take (textCapacity - a.length)) ++ c).take textCapacity = (a ++ (b ++ c)).take textCapacity := by
  have e : a ++ b.take (textCapacity - a.length) = (a ++ b).take textCapacity := by
    rw [List.take_append, List.take_of_length_le h]
  rw [e, ← List.append_assoc]
  rcases le_or_gt (a ++ b).length textCapacity with hl | hl
  · rw [List.take_of_length_le hl]
  · rw [List.take_append_of_le_length (by rw [List.length_take]; omega), List.take_take, min_self,
      List.take_append_of_le_length hl.le]

/-- **What `try_emit_egc` writes**: the texts of the parts one behind the other, cut at the
capacity of the text. -/
theorem emitLoop_val (slot : EgcReassembly) : ∀ (k : ℕ) (i : ℤ) (text : List UInt8), text.length ≤ textCapacity →
    (emitLoop slot k i text).val =
      (text ++ (List.range k).flatMap fun j : ℕ => partText slot.presentation (slotPart slot (i + j))).take
        textCapacity := by
  have hts : textSize = 4096 := rfl
  have htc : textCapacity = 4095 := rfl
  intro k
  induction k with
  | zero =>
    intro i text h
    rw [List.range_zero, List.flatMap_nil, List.append_nil, List.take_of_length_le h]
    rfl
  | succ k ih =>
    intro i text h
    have hrange : ((List.range (k + 1)).flatMap fun j : ℕ => partText slot.presentation (slotPart slot (i + j))) =
        partText slot.presentation (slotPart slot i) ++
          (List.range k).flatMap fun j : ℕ => partText slot.presentation (slotPart slot (i + 1 + j)) := by
      rw [List.range_succ_eq_map, List.flatMap_cons, List.flatMap_map, Nat.cast_zero, add_zero]
      congr 1
      apply List.flatMap_congr
      intro j _
      rw [Nat.succ_eq_add_one]
      push_cast
      rw [add_assoc, add_comm (1 : ℤ)]
    rw [hrange]
    unfold emitLoop
    by_cases hlt : (text.length : ℤ) < textSize - 1
    · rw [if_pos hlt]
      dsimp only
      by_cases hp : slot.partLens i ≤ 0
      · rw [if_pos hp, ih _ _ h]
        unfold slotPart
        rw [if_pos hp, partText_nil, List.nil_append]
      have hpart : slotPart slot i = slice slot.parts (i * 128) (min (slot.partLens i) 128).toNat := if_neg hp
      rw [if_neg hp, ← take_append_take _ _ _ h]
      by_cases hpres : slot.presentation = 0
      · have hx : (extractIa5Text text.length (textSize - text.length)
            (fun j : ℕ => pure (slot.parts (i * 128 + j))) (min (slot.partLens i) 128)).val =
            (partText slot.presentation (slotPart slot i)).take (textCapacity - text.length) := by
          rw [extractIa5Text_val, dataList_parts, hpart]
          unfold partText
          rw [if_pos hpres]
          congr 1
          omega
        rw [if_pos hpres]
        simp only [val_bind]
        rw [hx]
        exact ih _ _ (by rw [List.length_append, List.length_take]; omega)
      · have hx : slice slot.parts (i * 128)
            (if (text.length : ℤ) + min (slot.partLens i) 128 ≥ textSize then textSize - text.length - 1
              else min (slot.partLens i) 128).toNat =
            (partText slot.presentation (slotPart slot i)).take (textCapacity - text.length) := by
          unfold partText
          rw [if_neg hpres, hpart]
          unfold slice
          rw [← List.map_take, List.take_range]
          congr 2
          split <;> omega
        rw [if_neg hpres]
        simp only [val_bind]
        rw [hx]
        exact ih _ _ (by rw [List.length_append, List.length_take]; omega)
    · have hfull : text.length = textCapacity := by omega
      rw [if_neg hlt, ← hfull, List.take_left' rfl]
      rfl

/-! ## Packets -/

/-- The contents of an EGC packet. -/
structure EgcBody where
  isPart2 : Bool
  serviceCode : ℕ
  continuation : Bool
  priority : ℕ
  repetition : ℕ
  msgId : ℕ
  pktNo : ℕ
  presentation : ℕ
  payload : List UInt8
  deriving DecidableEq

/-- The contents of the bytes of an EGC packet, if `decode_egc` takes it. -/
def egcBody (bytes : List UInt8) : Option EgcBody :=
  let hdrSize := min (8 + (getAddressLength (bytes.getD 2 0).toNat).toNat) (bytes.length - 2)
  if bytes.length < 10 then none
  else some {
    isPart2 := bytes.getD 0 0 = Pkt.egcDouble2
    serviceCode := (bytes.getD 2 0).toNat
    continuation := ((bytes.getD 3 0).toNat >>> 7) &&& 1 == 1
    priority := ((bytes.getD 3 0).toNat >>> 5) &&& 3
    repetition := (bytes.getD 3 0).toNat &&& 0x1F
    msgId := be16 (bytes.getD 4 0) (bytes.getD 5 0)
    pktNo := (bytes.getD 6 0).toNat
    presentation := (bytes.getD 7 0).toNat
    payload := (bytes.drop hdrSize).take (bytes.length - 2 - hdrSize) }

/-- An EGC packet with the time it is decoded at. -/
structure EgcPacket where
  now : ℤ
  body : EgcBody
  deriving DecidableEq

/-- The part the packet is stored as. -/
def EgcBody.idx (b : EgcBody) : ℤ := partIdx b.pktNo b.isPart2

/-- What of the payload is stored and shown. -/
def EgcBody.part (b : EgcBody) : List UInt8 := b.payload.take 128

/-- The packet completes its slot. -/
def EgcBody.final (b : EgcBody) : Bool := !b.continuation && b.isPart2

/-- The message for the packet alone. -/
def EgcBody.single (b : EgcBody) : Option StdcMessage :=
  let text := partText b.presentation b.part
  if text = [] then none
  else some {
    type := if b.isPart2 then .egcDouble2 else .egcDouble1, descriptor := if b.isPart2 then 0xB2 else 0xB1
    serviceCode := b.serviceCode, priority := b.priority, repetition := b.repetition, messageId := b.msgId
    packetNo := b.pktNo, continuation := if b.continuation then 1 else 0, presentation := b.presentation
    text := text, textLen := text.length }

/-- The slot with the packet stored in it. -/
def EgcPacket.store (p : EgcPacket) (slot : EgcReassembly) : EgcReassembly :=
  { slot with
    serviceCode := p.body.serviceCode
    priority := p.body.priority
    repetition := p.body.repetition
    presentation := p.body.presentation
    lastSeen := p.now
    parts := blit slot.parts (p.body.idx * 128) p.body.part
    partLens := Function.update slot.partLens p.body.idx p.body.part.length
    maxPktNo := max slot.maxPktNo p.body.idx
    complete := slot.complete || p.body.final }

/-- **What an EGC packet does to the slots**, and the messages it makes them emit. -/
def egcStep (slots : EgcSlots) (p : EgcPacket) : EgcResult :=
  let found := findEgcSlot slots p.now p.body.msgId
  let r := (tryEmitEgc (p.store (found.1 found.2))).val
  ⟨Function.update found.1 found.2 r.1, p.body.single, r.2⟩

theorem part_length (b : EgcBody) : b.part.length ≤ 128 := List.length_take_le _ _

/-- The header is that of the packet's bytes. -/
theorem readEgcHeader_val {bytes : List UInt8} {b : EgcBody} (hb : Holds fr.mem pos bytes)
    (hbody : egcBody bytes = some b) : (readEgcHeader fr pos bytes.length).val =
      { msgType := b.serviceCode, continuation := b.continuation, priority := b.priority, repetition := b.repetition,
        msgId := b.msgId, pktNo := b.pktNo, presentation := b.presentation,
        payloadStart := pos + (min (8 + (getAddressLength (bytes.getD 2 0).toNat).toNat) (bytes.length - 2) : ℕ),
        payloadLen := b.payload.length } := by
  unfold egcBody at hbody
  dsimp only at hbody
  split at hbody
  · exact absurd hbody (by simp)
  rename_i h10
  have hbyte : ∀ k : ℕ, k < 10 → fr.mem (pos + k) = bytes.getD k 0 := fun k hk => hb.getD (by omega) 0
  have h2 : fr.mem (pos + 2) = bytes.getD 2 0 := hbyte 2 (by omega)
  have h3 : fr.mem (pos + 3) = bytes.getD 3 0 := hbyte 3 (by omega)
  have h4 : fr.mem (pos + 4) = bytes.getD 4 0 := hbyte 4 (by omega)
  have h5 : fr.mem (pos + 5) = bytes.getD 5 0 := hbyte 5 (by omega)
  have h6 : fr.mem (pos + 6) = bytes.getD 6 0 := hbyte 6 (by omega)
  have h7 : fr.mem (pos + 7) = bytes.getD 7 0 := hbyte 7 (by omega)
  have haddr := addressLength_pos (bytes.getD 2 0).toNat
  injection hbody with hbody
  subst hbody
  unfold readEgcHeader
  simp only [val_bind, val_pure, Frame.read, h2, h3, h4, h5, h6, h7]
  rw [EgcHeader.mk.injEq]
  refine ⟨rfl, rfl, rfl, rfl, rfl, rfl, rfl, by omega, ?_⟩
  rw [List.length_take, List.length_drop]
  omega

/-- **`decode_egc` is the step on the slots** for the packet's contents. -/
theorem decodeEgc_val (now : ℤ) (slots : EgcSlots) {bytes : List UInt8} {b : EgcBody} (hb : Holds fr.mem pos bytes)
    (hbody : egcBody bytes = some b) :
    (decodeEgc now slots fr pos bytes.length b.isPart2).val = egcStep slots ⟨now, b⟩ := by
  have h10 : ¬bytes.length < 10 := by
    intro h
    unfold egcBody at hbody
    simp only [h, if_true] at hbody
    exact absurd hbody (by simp)
  have hpay : slice fr.mem (pos + (min (8 + (getAddressLength (bytes.getD 2 0).toNat).toNat) (bytes.length - 2) : ℕ))
      b.payload.length = b.payload := by
    unfold egcBody at hbody
    simp only [h10, if_false] at hbody
    injection hbody with hbody
    rw [← hbody]
    dsimp only
    generalize hd : min (8 + (getAddressLength (bytes.getD 2 0).toNat).toNat) (bytes.length - 2) = hdr
    have e : ((bytes.drop hdr).take (bytes.length - 2 - hdr)).length = bytes.length - 2 - hdr := by
      rw [List.length_take, List.length_drop]
      omega
    rw [e]
    exact hb.drop_take (by omega)
  have hlen : (min (b.payload.length : ℤ) 128).toNat = b.part.length := by
    unfold EgcBody.part
    rw [List.length_take]
    omega
  have hpart : slice fr.mem
      (pos + (min (8 + (getAddressLength (bytes.getD 2 0).toNat).toNat) (bytes.length - 2) : ℕ)) b.part.length =
      b.part := by
    unfold EgcBody.part
    rw [List.length_take]
    conv_rhs => rw [← hpay]
    unfold slice
    rw [← List.map_take, List.take_range]
  generalize hstart : pos + (min (8 + (getAddressLength (bytes.getD 2 0).toNat).toNat) (bytes.length - 2) : ℕ) = start
    at hpart
  have h128 := part_length b
  have hstore : ∀ (slot : EgcReassembly) (h : EgcHeader), h.msgType = b.serviceCode → h.continuation = b.continuation →
      h.priority = b.priority → h.repetition = b.repetition → h.pktNo = b.pktNo → h.presentation = b.presentation →
      (storePart slot h now b.isPart2 b.part).val = (⟨now, b⟩ : EgcPacket).store slot := by
    intro slot h e1 e2 e3 e4 e5 e6
    have hidx := partIdx_bounds b.pktNo b.isPart2
    have hp : partsSize = 8192 := rfl
    unfold storePart EgcPacket.store EgcBody.final EgcBody.idx
    have hfits : partIdx b.pktNo b.isPart2 * 128 + (b.part.length : ℤ) ≤ partsSize := by omega
    simp only [e1, e2, e3, e4, e5, e6, hfits, if_true, val_bind, val_pure]
  have hsingle : ∀ h : EgcHeader, h.msgType = b.serviceCode → h.continuation = b.continuation →
      h.priority = b.priority → h.repetition = b.repetition → h.pktNo = b.pktNo → h.presentation = b.presentation →
      h.msgId = b.msgId → h.payloadStart = start →
      (standaloneEgc fr h b.isPart2 (min (b.payload.length : ℤ) 128)).val = b.single := by
    intro h e1 e2 e3 e4 e5 e6 e7 e8
    have hts : textSize = 4096 := rfl
    have hpl : (min (b.payload.length : ℤ) 128) = b.part.length := by omega
    unfold standaloneEgc EgcBody.single
    rw [e1, e2, e3, e4, e5, e6, e7, e8, hpl]
    by_cases h0 : b.part = []
    · simp [h0]
    have hpos : (b.part.length : ℤ) > 0 := by
      have := List.length_pos_iff.2 h0
      omega
    rw [if_pos hpos]
    by_cases hpres : b.presentation = 0
    · have htext : (extractIa5Text 0 textSize (fun i => fr.read (start + i)) b.part.length).val = partText b.presentation b.part := by
        rw [extractIa5Text_val, dataList_read, Int.toNat_natCast, hpart]
        unfold partText
        rw [if_pos hpres]
        exact List.take_of_length_le (le_trans (ia5_length _) (by omega))
      simp only [val_bind, val_pure, hpres, if_true] at htext ⊢
      rw [htext]
      by_cases ht : partText 0 b.part = []
      · simp [ht]
      · rw [if_pos (List.length_pos_iff.2 ht), if_neg ht]
    · have htext : partText b.presentation b.part = b.part := if_neg hpres
      have hn : (if (b.part.length : ℤ) ≥ textSize then textSize - 1 else (b.part.length : ℤ)) = b.part.length :=
        if_neg (by omega)
      simp only [val_bind, val_pure, hpres, if_false, htext, h0, hn, Frame.readN, Int.toNat_natCast, hpart]
      rw [if_pos hpos]
  unfold decodeEgc
  rw [if_neg (by omega)]
  simp only [val_bind, val_pure, readEgcHeader_val hb hbody, hlen, hstart]
  have hread : (fr.readN start b.part.length).val = b.part := hpart
  rw [hread, hstore _ _ rfl rfl rfl rfl rfl rfl, hsingle _ rfl rfl rfl rfl rfl rfl rfl rfl]
  rfl

theorem decodeEgc_short (isPart2 : Bool) (h : len < 10) :
    (decodeEgc now slots fr pos len isPart2).val = ⟨slots, none, none⟩ := by
  unfold decodeEgc
  rw [if_pos h]
  rfl

/-! ## Runs of frames -/

/-- The EGC packet in a dispatch event. -/
def egcPacket? (now : ℤ) (bytes : List UInt8) : Option EgcPacket :=
  if bytes.getD 0 0 = Pkt.egcDouble1 ∨ bytes.getD 0 0 = Pkt.egcDouble2 then
    (egcBody bytes).map fun b => ⟨now, b⟩
  else none

/-- The EGC packets dispatched, in order. -/
def egcPackets (out : List Event) : List EgcPacket :=
  out.filterMap fun
    | .dispatch _ now _ _ bytes => egcPacket? now bytes
    | _ => none

/-- The type of an EGC message. -/
def MsgType.isEgc (t : MsgType) : Bool := t == .egcDouble1 || t == .egcDouble2

/-- The EGC messages emitted, in order. -/
def egcMessages (out : List Event) : List StdcMessage :=
  out.filterMap fun
    | .message m => if m.type.isEgc then some m else none
    | _ => none

/-- The messages of one step. -/
def EgcResult.messages (r : EgcResult) : List StdcMessage := r.single.toList ++ r.reassembled.toList

/-- **A list of EGC packets**: the slots after them and the messages they make emitted. -/
def egcRun (slots : EgcSlots) : List EgcPacket → EgcSlots × List StdcMessage
  | [] => (slots, [])
  | p :: ps =>
    let r := egcStep slots p
    ((egcRun r.slots ps).1, r.messages ++ (egcRun r.slots ps).2)

theorem egcRun_append (ps qs : List EgcPacket) : ∀ slots, egcRun slots (ps ++ qs) =
    ((egcRun (egcRun slots ps).1 qs).1, (egcRun slots ps).2 ++ (egcRun (egcRun slots ps).1 qs).2) := by
  induction ps with
  | nil => intro slots; rfl
  | cons p ps ih => intro slots; simp only [List.cons_append, egcRun, ih, List.append_assoc]

@[simp] theorem egcPackets_nil : egcPackets [] = [] := rfl

@[simp] theorem egcPackets_append : egcPackets (out ++ o) = egcPackets out ++ egcPackets o := List.filterMap_append

@[simp] theorem egcMessages_append : egcMessages (out ++ o) = egcMessages out ++ egcMessages o :=
  List.filterMap_append

@[simp] theorem egcPackets_accesses {α : Type} (c : Acc α) : egcPackets (accesses c) = [] := by
  simp [egcPackets, accesses, List.filterMap_map]

@[simp] theorem egcMessages_accesses {α : Type} (c : Acc α) : egcMessages (accesses c) = [] := by
  simp [egcMessages, accesses, List.filterMap_map]

@[simp] theorem egcPackets_messages (ms : List StdcMessage) : egcPackets (ms.map .message) = [] := by
  simp [egcPackets, List.filterMap_map]

theorem egcMessages_messages (ms : List StdcMessage) :
    egcMessages (ms.map .message) = ms.filter fun m => m.type.isEgc := by
  unfold egcMessages
  induction ms with
  | nil => rfl
  | cons m ms ih =>
    rw [List.map_cons, List.filterMap_cons, List.filter_cons, ih]
    dsimp only
    by_cases h : m.type.isEgc = true
    · rw [if_pos h, if_pos h]
    · rw [if_neg h, if_neg h]

/-- The decoder emits no EGC message. -/
def NotEgc (c : Acc (Option StdcMessage)) : Prop := ∀ m ∈ c.val, m.type.isEgc = false

@[simp] theorem notEgc_none : NotEgc (pure none) := fun m h => by simp at h

@[simp] theorem notEgc_some (m : StdcMessage) : NotEgc (pure (some m)) ↔ m.type.isEgc = false := by
  simp [NotEgc]

@[simp] theorem notEgc_bind {α : Type} (c : Acc α) (f : α → Acc (Option StdcMessage)) :
    NotEgc (c >>= f) ↔ NotEgc (f c.val) := Iff.rfl

@[simp] theorem notEgc_ite (p : Prop) [Decidable p] (c c' : Acc (Option StdcMessage)) :
    NotEgc (if p then c else c') ↔ (p → NotEgc c) ∧ (¬p → NotEgc c') := by
  split <;> simp_all

@[simp] theorem notEgc_emitText (m : StdcMessage) (s : List UInt8) : NotEgc (emitText m s) ↔ m.type.isEgc = false := by
  simp [emitText]

@[simp] theorem withLes_type (m : StdcMessage) (b : UInt8) : (m.withLes b).type = m.type := rfl

theorem decodeChannelMsg_notEgc {type : MsgType} {descriptor : UInt8} {minLen : ℤ} {heading : String}
    (h : type.isEgc = false) : NotEgc (decodeChannelMsg type descriptor minLen heading fr pos len) := by
  unfold decodeChannelMsg; simp [h]

theorem decodeAckRequest_notEgc : NotEgc (decodeAckRequest fr pos len) := by
  unfold decodeAckRequest; simp [MsgType.isEgc]

theorem decodeSignalling_notEgc : NotEgc (decodeSignalling fr pos len) := by
  unfold decodeSignalling; simp [MsgType.isEgc]

theorem decodeBulletinBoard_notEgc : NotEgc (decodeBulletinBoard fr pos len) := by
  unfold decodeBulletinBoard; simp [MsgType.isEgc]

theorem decodeAnnouncement_notEgc : NotEgc (decodeAnnouncement fr pos len) := by
  unfold decodeAnnouncement; simp [MsgType.isEgc]

theorem decodeChanAssignment_notEgc : NotEgc (decodeChanAssignment fr pos len) := by
  unfold decodeChanAssignment; simp [MsgType.isEgc]

theorem decodeLoginAck_notEgc : NotEgc (decodeLoginAck fr pos len) := by
  unfold decodeLoginAck; simp [MsgType.isEgc]

theorem decodeIndividualPoll_notEgc : NotEgc (decodeIndividualPoll fr pos len) := by
  unfold decodeIndividualPoll; simp [MsgType.isEgc]

theorem decodeConfirmation_notEgc : NotEgc (decodeConfirmation fr pos len) := by
  unfold decodeConfirmation; simp [MsgType.isEgc]

theorem decodeMessage_notEgc : NotEgc (decodeMessage fr pos len) := by
  unfold decodeMessage; simp [MsgType.isEgc]

theorem decodeLesList_notEgc : NotEgc (decodeLesList fr pos len) := by
  unfold decodeLesList; simp [MsgType.isEgc]

/-- The decoders without state emit no EGC message. -/
theorem decodeSimple_notEgc (desc : UInt8) (fr : Frame) (pos len : ℤ) : NotEgc (decodeSimple desc fr pos len) := by
  unfold decodeSimple decodeChannelClear decodeMsgAck
  simp only [notEgc_ite, notEgc_none, decodeAckRequest_notEgc, decodeSignalling_notEgc, decodeBulletinBoard_notEgc,
    decodeAnnouncement_notEgc, decodeChanAssignment_notEgc, decodeLoginAck_notEgc, decodeIndividualPoll_notEgc,
    decodeConfirmation_notEgc, decodeMessage_notEgc, decodeLesList_notEgc, implies_true, and_true, true_and]
  exact fun _ => ⟨fun _ => decodeChannelMsg_notEgc rfl, fun _ _ => decodeChannelMsg_notEgc rfl⟩

/-- **The decoder call of a packet** acts on the slots as the EGC packet in it, if any. -/
theorem egcRun_dispatch (now : ℤ) (nested : Bool) (d : StdcDecoder) (hl : (look fr pos).val = .packet len) :
    egcRun d.egcSlots (egcPacket? now (slice fr.mem pos len.toNat)).toList =
      ((dispatchPacket now nested d fr pos len).dec.egcSlots, egcMessages (dispatchPacket now nested d fr pos len).out) := by
  have hpos := (look_packet.1 hl).1.pos_len
  have hlen : ((slice fr.mem pos len.toNat).length : ℤ) = len := by rw [slice_length]; omega
  have hholds : Holds fr.mem pos (slice fr.mem pos len.toNat) := holds_slice
  have h0 : (slice fr.mem pos len.toNat).getD 0 0 = fr.mem pos := by
    rw [slice_getD (by omega), Nat.cast_zero, add_zero]
  unfold dispatchPacket egcPacket?
  rw [h0]
  dsimp only
  by_cases c1 : fr.mem pos = Pkt.egcDouble1 ∨ fr.mem pos = Pkt.egcDouble2
  · rw [if_pos c1, if_pos c1, egcMessages_append, egcMessages_accesses, List.nil_append, egcMessages_messages]
    cases hb : egcBody (slice fr.mem pos len.toNat) with
    | none =>
      have hshort : len < 10 := by
        unfold egcBody at hb
        dsimp only at hb
        split at hb
        · omega
        · exact absurd hb (by simp)
      rw [decodeEgc_short _ hshort]
      rfl
    | some b =>
      have hpart2 : b.isPart2 = decide (fr.mem pos = Pkt.egcDouble2) := by
        unfold egcBody at hb
        dsimp only at hb
        split at hb
        · exact absurd hb (by simp)
        · injection hb with hb
          rw [← hb, ← h0]
      have hval := decodeEgc_val now d.egcSlots hholds hb
      rw [hlen, hpart2] at hval
      rw [hval]
      have hall : ((egcStep d.egcSlots ⟨now, b⟩).messages.filter fun m => m.type.isEgc) =
          (egcStep d.egcSlots ⟨now, b⟩).messages := by
        rw [List.filter_eq_self]
        intro m hm
        simp only [EgcResult.messages, List.mem_append, Option.mem_toList] at hm
        rcases hm with hm | hm
        · have hm' : b.single = some m := hm
          unfold EgcBody.single at hm'
          dsimp only at hm'
          split at hm'
          · exact absurd hm' (by simp)
          · injection hm' with hm'
            rw [← hm']
            cases b.isPart2 <;> rfl
        · have hm' : (tryEmitEgc _).val.2 = some m := hm
          unfold tryEmitEgc at hm'
          simp only [val_ite, val_bind, val_pure] at hm'
          split at hm'
          · dsimp only at hm'
            split at hm'
            · injection hm' with hm'
              rw [← hm']
              rfl
            · exact absurd hm' (by simp)
          · exact absurd hm' (by simp)
      show egcRun d.egcSlots [⟨now, b⟩] = (_, List.filter _ (egcStep d.egcSlots ⟨now, b⟩).messages)
      rw [hall]
      simp [egcRun]
  · rw [if_neg c1, if_neg c1]
    by_cases c2 : fr.mem pos = Pkt.multiframeStart
    · rw [if_pos c2, egcMessages_accesses]; rfl
    rw [if_neg c2]
    by_cases c3 : fr.mem pos = Pkt.multiframeCont
    · rw [if_pos c3]
      split
      · rw [egcMessages_accesses]; rfl
      · rfl
    · rw [if_neg c3, egcMessages_append, egcMessages_accesses, List.nil_append, egcMessages_messages]
      have hnone := decodeSimple_notEgc (fr.mem pos) fr pos len
      have : ((decodeSimple (fr.mem pos) fr pos len).val.toList.filter fun m => m.type.isEgc) = [] := by
        rw [List.filter_eq_nil_iff]
        intro m hm
        rw [hnone m (Option.mem_toList.1 hm)]
        exact Bool.false_ne_true
      rw [this]
      rfl

/-- **A call of `parse_packets`**, as far as the fuel goes, acts on the slots as the EGC
packets it dispatches. -/
theorem egcRun_parse (now : ℤ) : ∀ (f : ℕ) (d : StdcDecoder) (src : Src) (n pos : ℤ),
    egcRun d.egcSlots (egcPackets (parseFrom now f d src n pos).out) =
      ((parseFrom now f d src n pos).dec.egcSlots, egcMessages (parseFrom now f d src n pos).out) := by
  have hturn : ∀ d src n pos, egcRun d.egcSlots (egcPackets (parseTurn now d src n pos).out) =
      ((parseTurn now d src n pos).dec.egcSlots, egcMessages (parseTurn now d src n pos).out) := by
    intro d src n pos
    cases hl : (look ⟨src.mem d, n⟩ pos).val with
    | stop => rw [turn_stop now d src hl]; simp [egcRun]
    | pad => rw [turn_pad now d src hl]; simp [egcRun]
    | bad len => rw [turn_bad now d src hl]; simp [egcRun]
    | packet len =>
      rw [turn_packet now d src hl]
      have hdisp := egcRun_dispatch now src.nested d hl
      have hout : egcPackets (dispatchPacket now src.nested d ⟨src.mem d, n⟩ pos len).out = [] := by
        unfold dispatchPacket
        dsimp only
        split_ifs <;> simp
      have hp : egcPackets (packetOut now n d src pos len) =
          (egcPacket? now (slice (src.mem d) pos len.toNat)).toList := by
        unfold packetOut
        rw [egcPackets_append, egcPackets_accesses, List.nil_append]
        unfold egcPackets at hout ⊢
        rw [List.filterMap_cons, hout]
        dsimp only
        cases egcPacket? now (slice (src.mem d) pos len.toNat) <;> rfl
      have hm : egcMessages (packetOut now n d src pos len) =
          egcMessages (dispatchPacket now src.nested d ⟨src.mem d, n⟩ pos len).out := by
        unfold packetOut
        rw [egcMessages_append, egcMessages_accesses, List.nil_append]
        rfl
      rw [hp, hm]
      exact hdisp
  have happ : ∀ {d d' : StdcDecoder} {s : EgcSlots} {out o : List Event},
      egcRun d.egcSlots (egcPackets out) = (d'.egcSlots, egcMessages out) →
      egcRun d'.egcSlots (egcPackets o) = (s, egcMessages o) →
      egcRun d.egcSlots (egcPackets (out ++ o)) = (s, egcMessages (out ++ o)) := by
    intro d d' s out o h1 h2
    rw [egcPackets_append, egcRun_append, h1, h2, egcMessages_append]
  intro f
  induction f with
  | zero => intro d src n pos; rfl
  | succ f ih =>
    intro d src n pos
    have h1 := hturn d src n pos
    rw [parseFrom]
    dsimp only
    cases (parseTurn now d src n pos).next with
    | stop => exact h1
    | goto p => exact happ h1 (ih _ _ _ _)
    | nest len p =>
      have h2 := happ h1 (ih (parseTurn now d src n pos).dec .mfp len 0)
      dsimp only
      split
      · exact happ h2 (ih (parseFrom now f (parseTurn now d src n pos).dec .mfp len 0).dec.endMultiframe src n p)
      · exact h2

/-- **A run of frames emits the EGC messages of its EGC packets**, in order. -/
theorem run_egc {d d' : StdcDecoder} {cs : List Call} (h : Run d cs d' out) :
    egcRun d.egcSlots (egcPackets out) = (d'.egcSlots, egcMessages out) := by
  induction h with
  | nil d => rfl
  | @cons d d₁ d₂ c cs out outs hp _ ih =>
    obtain ⟨f, hf⟩ := hp
    have h1 := egcRun_parse c.now f d (.frame c.frame) c.frameLen 0
    rw [show parseFrom c.now f d (.frame c.frame) c.frameLen 0 = ⟨true, d₁, out⟩ from hf] at h1
    rw [egcPackets_append, egcRun_append, h1, ih, egcMessages_append]

end InmarsatSniffer.Stdc
