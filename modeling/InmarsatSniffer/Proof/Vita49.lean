import InmarsatSniffer.Spec.Vita49

/-!
# VRT datagrams are parsed exactly, and from their own bytes

* `isPayload_iff`: the format of a datagram, by the fields of its header.
* `vrtParseHeader_some`: what `vrt_parse_header` checks, and what it returns.
* `receive_within`: the receive loop reads no byte outside the datagram.
* `datagram_exact`: **a payload is found exactly when the format has one, and nothing
  outside the datagram is read**.
-/

namespace InmarsatSniffer.Vita49

open ByteMem

variable {pkt : Mem} {len off n : ℕ} {h : VrtHeader}

/-! ## Words and headers -/

theorem wrapSub_eq {w a b : ℕ} (h : b ≤ a) (ha : a < 2 ^ w) : wrapSub w a b = a - b := by
  unfold wrapSub
  rw [show a + 2 ^ w - b = a - b + 2 ^ w by omega, Nat.add_mod_right, Nat.mod_eq_of_lt (by omega)]

/-- The word at an offset. -/
def word (pkt : Mem) (off : ℕ) : UInt32 := be32 (pkt off) (pkt (off + 1 : ℕ)) (pkt (off + 2 : ℕ)) (pkt (off + 3 : ℕ))

@[simp] theorem readWord_val (pkt : Mem) (off : ℕ) : (readWord pkt off).val = word pkt off := rfl

@[simp] theorem readByte_within : Logged.All (· < len) (readByte pkt off) ↔ off < len := by
  simp [readByte]

/-- A word is read inside the datagram if it ends in it. -/
@[simp] theorem readWord_within : Logged.All (· < len) (readWord pkt off) ↔ off + 4 ≤ len := by
  simp only [readWord, Logged.all_bind, readByte_within, Logged.all_pure, and_true]
  omega

theorem be32_magic (b0 b1 b2 b3 : UInt8) :
    be32 b0 b1 b2 b3 = vrlMagic ↔ [b0, b1, b2, b3] = [0x56, 0x52, 0x4C, 0x50] := by
  have h0 := b0.toNat_lt
  have h1 := b1.toNat_lt
  have h2 := b2.toNat_lt
  have h3 := b3.toNat_lt
  have hval : (be32 b0 b1 b2 b3).toNat = 2 ^ 24 * b0.toNat + 2 ^ 16 * b1.toNat + 2 ^ 8 * b2.toNat + b3.toNat := by
    have hsize : UInt32.size = 2 ^ 32 := rfl
    exact UInt32.toNat_ofNat_of_lt' (by omega)
  have hmagic : vrlMagic.toNat = 0x56 * 2 ^ 24 + 0x52 * 2 ^ 16 + 0x4C * 2 ^ 8 + 0x50 := by decide
  have hbytes : (0x56 : UInt8).toNat = 0x56 ∧ (0x52 : UInt8).toNat = 0x52 ∧ (0x4C : UInt8).toNat = 0x4C ∧
      (0x50 : UInt8).toNat = 0x50 := by decide
  simp only [List.cons.injEq, and_true, ← UInt32.toNat_inj, ← UInt8.toNat_inj, hval, hmagic]
  omega

theorem ofWord_size (w0 : UInt32) : (VrtHeader.ofWord w0).pktSizeW < 65536 := by
  have hle : (w0 &&& 0xFFFF).toNat ≤ (0xFFFF : UInt32).toNat := by
    rw [UInt32.toNat_and]
    exact Nat.and_le_right
  have hmax : (0xFFFF : UInt32).toNat = 65535 := by decide
  show (w0 &&& 0xFFFF).toNat < 65536
  omega

theorem words_sum (h : VrtHeader) : h.words.sum =
    1 + (if h.pktType = VrtType.signalData then 1 else 0) + (if h.classId ≠ 0 then 2 else 0) +
      (if h.tsi ≠ 0 then 1 else 0) + (if h.tsf ≠ 0 then 2 else 0) := by
  simp only [VrtHeader.words, List.sum_cons, List.sum_nil, Nat.add_zero, Nat.add_assoc]

/-- The header of a packet in memory. -/
theorem headerOf_slice (hn : 4 ≤ n) : headerOf (slice pkt off n) = VrtHeader.ofWord (word pkt off) := by
  unfold headerOf word
  rw [slice_getD (by omega), slice_getD (by omega), slice_getD (by omega), slice_getD (by omega)]
  push_cast
  rw [add_zero]

/-! ## The format -/

/-- The conditions on a signal data packet of `avail` bytes, by the fields of its header. -/
structure Fits (h : VrtHeader) (avail : ℕ) : Prop where
  kind : h.pktType = VrtType.signalDataNoSid ∨ h.pktType = VrtType.signalData
  size : 4 * h.pktSizeW ≤ avail
  room : h.words.sum + (if h.trailer ≠ 0 then 1 else 0) < h.pktSizeW

/-- The words of its payload. -/
def payloadWords (h : VrtHeader) : ℕ := h.pktSizeW - (h.words.sum + if h.trailer ≠ 0 then 1 else 0)

/-- A list has parts of every length that it has room for. -/
theorem exists_parts {l : List UInt8} {a b c : ℕ} (h : a + b + c ≤ l.length) :
    ∃ w x y z : List UInt8, l = w ++ x ++ y ++ z ∧ w.length = a ∧ x.length = b ∧ y.length = c := by
  refine ⟨l.take a, (l.drop a).take b, (l.drop (a + b)).take c, l.drop (a + b + c), ?_, ?_, ?_, ?_⟩
  · rw [← List.drop_drop (i := c), List.append_assoc, List.append_assoc, List.take_append_drop, ← List.drop_drop,
      List.take_append_drop, List.take_append_drop]
  · rw [List.length_take]
    omega
  · rw [List.length_take, List.length_drop]
    omega
  · rw [List.length_take, List.length_drop]
    omega

theorem isSignalData_iff (vrt : List UInt8) (hl n : ℕ) :
    (∃ header payload trailer rest : List UInt8, IsSignalData vrt header payload trailer rest ∧ hl = header.length ∧
      n = payload.length) ↔
    Fits (headerOf vrt) vrt.length ∧ hl = 4 * (headerOf vrt).words.sum ∧ n = 4 * payloadWords (headerOf vrt) := by
  unfold payloadWords
  have htrailer : (if (headerOf vrt).trailer ≠ 0 then 4 else 0) = 4 * (if (headerOf vrt).trailer ≠ 0 then 1 else 0) := by
    split <;> rfl
  constructor
  · rintro ⟨header, payload, trailer, rest, hdata, rfl, rfl⟩
    have hlen := congrArg List.length hdata.split
    have hheader := hdata.headerLen
    have htr := hdata.trailerLen
    have hsize := hdata.size
    have hpay := hdata.payloadLen
    simp only [List.length_append] at hlen
    rw [htrailer] at htr
    exact ⟨⟨hdata.kind, by omega, by omega⟩, hheader, by omega⟩
  · rintro ⟨hfits, hhl, hn⟩
    have hsize := hfits.size
    have hroom := hfits.room
    generalize htw : (if (headerOf vrt).trailer ≠ 0 then 1 else 0) = tw at htrailer hroom hn
    obtain ⟨header, payload, trailer, rest, hsplit, h1, h2, h3⟩ :=
      exists_parts (l := vrt) (a := hl) (b := n) (c := 4 * tw) (by omega)
    refine ⟨header, payload, trailer, rest, ⟨hsplit, hfits.kind, ?_, ?_, ?_, ?_⟩, h1.symm, h2.symm⟩
    · rw [h1, hhl]
    · rw [h3, htrailer]
    · rw [h1, h2, h3, hhl, hn]
      omega
    · rw [h2, hn]
      omega

/-- Whether a datagram has a VRL wrapper. -/
def HasVrl (pkt : Mem) (len : ℕ) : Prop := 12 ≤ len ∧ word pkt 0 = vrlMagic

theorem word_zero_magic : word pkt 0 = vrlMagic ↔ slice pkt 0 4 = [0x56, 0x52, 0x4C, 0x50] := be32_magic _ _ _ _

/-- The wrapper of a datagram in memory, and what is in it. -/
theorem wrapped_iff {front vrt back : List UInt8} : Wrapped (slice pkt 0 len) front vrt back ↔
    HasVrl pkt len ∧ front = slice pkt 0 8 ∧ vrt = slice pkt 8 (len - 12) ∧ back = slice pkt (len - 4 : ℕ) 4 := by
  have hparts : ∀ hl : 12 ≤ len, slice pkt 0 len =
      slice pkt 0 8 ++ slice pkt 8 (len - 12) ++ slice pkt (len - 4 : ℕ) 4 := fun hl => by
    conv_lhs => rw [show len = 8 + (len - 12) + 4 by omega, slice_add, slice_add]
    congr 2
    push_cast
    omega
  constructor
  · intro hw
    have hlen := congrArg List.length hw.split
    rw [slice_length, List.length_append, List.length_append, hw.frontLen, hw.backLen] at hlen
    have hsplit := hw.split.symm
    rw [hparts (by omega)] at hsplit
    obtain ⟨hfv, hb⟩ := List.append_inj' hsplit (by rw [hw.backLen, slice_length])
    obtain ⟨hf, hv⟩ := List.append_inj hfv (by rw [hw.frontLen, slice_length])
    refine ⟨⟨by omega, ?_⟩, hf, hv, hb⟩
    rw [word_zero_magic, ← hw.magic, hf, show 8 = 4 + 4 from rfl, slice_add, List.take_left' slice_length]
  · rintro ⟨⟨hl, hmagic⟩, rfl, rfl, rfl⟩
    refine ⟨hparts hl, slice_length, ?_, slice_length⟩
    rw [← word_zero_magic.1 hmagic, show 8 = 4 + 4 from rfl, slice_add, List.take_left' slice_length]

/-! ## The header is parsed exactly -/

/-- `vrl_strip` takes a wrapper off, or leaves the datagram as it is. -/
theorem vrlStrip_cases (pkt : Mem) (hlen : len < 2 ^ 64) : HasVrl pkt len ∧ (vrlStrip pkt len).val = (8, len - 4) ∨
    ¬HasVrl pkt len ∧ (vrlStrip pkt len).val = (0, len) := by
  unfold vrlStrip HasVrl
  by_cases hl : 12 ≤ len
  · by_cases hmagic : word pkt 0 = vrlMagic
    · left
      rw [if_pos hl, Logged.val_bind, readWord_val, if_pos hmagic, Logged.val_pure,
        wrapSub_eq (by omega) (by omega)]
      exact ⟨⟨hl, hmagic⟩, rfl⟩
    · right
      rw [if_pos hl, Logged.val_bind, readWord_val, if_neg hmagic]
      exact ⟨fun hv => hmagic hv.2, rfl⟩
  · right
    rw [if_neg (by omega)]
    exact ⟨fun hv => hl hv.1, rfl⟩

/-- **What `vrt_parse_header` checks and returns**, by the header behind the wrapper. -/
theorem vrtParseHeader_some (hlen : len < 2 ^ 64) (h4 : 4 ≤ len) {vrl : ℕ × ℕ} (hvrl : (vrlStrip pkt len).val = vrl)
    (hle : vrl.1 ≤ vrl.2) (hmax : vrl.2 ≤ len) (hh : VrtHeader.ofWord (word pkt vrl.1) = h) (off n : ℕ) :
    (vrtParseHeader pkt len).val = some (off, n) ↔
      Fits h (vrl.2 - vrl.1) ∧ off = vrl.1 + 4 * h.words.sum ∧ n = 4 * payloadWords h := by
  have hsize : h.pktSizeW < 65536 := hh ▸ ofWord_size _
  have hsum := words_sum h
  unfold vrtParseHeader
  rw [if_neg (by omega), Logged.val_bind, hvrl, Logged.val_bind, readWord_val, hh, wrapSub_eq hle (by omega)]
  unfold payloadWords
  dsimp only
  rw [← hsum]
  generalize htw : (if h.trailer ≠ 0 then 1 else 0) = tw
  by_cases hkind : h.pktType ≠ VrtType.signalDataNoSid ∧ h.pktType ≠ VrtType.signalData
  · rw [if_pos hkind, Logged.val_pure]
    refine iff_of_false nofun fun hf => ?_
    rcases hf.1.kind with hk | hk
    · exact hkind.1 hk
    · exact hkind.2 hk
  rw [if_neg hkind]
  by_cases havail : h.pktSizeW * 4 > vrl.2 - vrl.1 ∨ h.pktSizeW * 4 < 4
  · rw [if_pos havail, Logged.val_pure]
    refine iff_of_false nofun fun hf => ?_
    have hs := hf.1.size
    have hr := hf.1.room
    omega
  rw [if_neg havail]
  by_cases hroom : h.words.sum + tw ≥ h.pktSizeW
  · rw [if_pos hroom, Logged.val_pure]
    refine iff_of_false nofun fun hf => ?_
    have hr := hf.1.room
    rw [htw] at hr
    omega
  rw [if_neg hroom, Logged.val_pure, wrapSub_eq (show h.words.sum ≤ h.pktSizeW by omega) (by omega),
    wrapSub_eq (by omega) (by omega), Option.some.injEq, Prod.mk.injEq]
  have hfits : Fits h (vrl.2 - vrl.1) := by
    refine ⟨?_, by omega, by omega⟩
    by_contra hno
    exact hkind ⟨fun hk => hno (Or.inl hk), fun hk => hno (Or.inr hk)⟩
  constructor
  · rintro ⟨rfl, rfl⟩
    exact ⟨hfits, by omega, by omega⟩
  · rintro ⟨-, rfl, rfl⟩
    constructor <;> omega

/-- The packet of the format is the one that `vrl_strip` gives. -/
theorem isPayload_iff (hlen : len < 2 ^ 64) {vrl : ℕ × ℕ} (hvrl : (vrlStrip pkt len).val = vrl) (off n : ℕ) :
    IsPayload (slice pkt 0 len) off n ↔ ∃ header payload trailer rest : List UInt8,
      IsSignalData (slice pkt vrl.1 (vrl.2 - vrl.1)) header payload trailer rest ∧ off = vrl.1 + header.length ∧
        n = payload.length := by
  rcases vrlStrip_cases pkt hlen with ⟨hhas, hval⟩ | ⟨hno, hval⟩
  · obtain rfl := hvrl.symm.trans hval
    have hvrt : slice pkt ((8, len - 4) : ℕ × ℕ).1 (((8, len - 4) : ℕ × ℕ).2 - ((8, len - 4) : ℕ × ℕ).1) =
        slice pkt 8 (len - 12) := by
      show slice pkt 8 (len - 4 - 8) = _
      rw [Nat.sub_sub]
    rw [hvrt]
    constructor
    · rintro ⟨front, vrt, back, header, payload, trailer, rest, hw | ⟨hbare, -⟩, hdata, rfl, rfl⟩
      · obtain ⟨-, rfl, rfl, -⟩ := wrapped_iff.1 hw
        exact ⟨header, payload, trailer, rest, hdata, by rw [slice_length], rfl⟩
      · exact absurd ⟨_, _, _, wrapped_iff.2 ⟨hhas, rfl, rfl, rfl⟩⟩ hbare
    · rintro ⟨header, payload, trailer, rest, hdata, rfl, rfl⟩
      exact ⟨_, _, _, header, payload, trailer, rest, Or.inl (wrapped_iff.2 ⟨hhas, rfl, rfl, rfl⟩), hdata,
        by rw [slice_length], rfl⟩
  · obtain rfl := hvrl.symm.trans hval
    have hbare : ¬∃ f v b : List UInt8, Wrapped (slice pkt 0 len) f v b := by
      rintro ⟨f, v, b, hw⟩
      exact hno (wrapped_iff.1 hw).1
    constructor
    · rintro ⟨front, vrt, back, header, payload, trailer, rest, hw | ⟨-, rfl, rfl, rfl⟩, hdata, rfl, rfl⟩
      · exact absurd ⟨front, vrt, back, hw⟩ hbare
      · exact ⟨header, payload, trailer, rest, hdata, rfl, rfl⟩
    · rintro ⟨header, payload, trailer, rest, hdata, rfl, rfl⟩
      exact ⟨[], _, [], header, payload, trailer, rest, Or.inr ⟨hbare, rfl, rfl, rfl⟩, hdata, rfl, rfl⟩

theorem Fits.avail {avail : ℕ} (hf : Fits h avail) : 8 ≤ avail := by
  have hsize := hf.size
  have hroom := hf.room
  have hsum := words_sum h
  omega

/-- **The header is parsed exactly.** -/
theorem vrtParseHeader_exact (hlen : len < 2 ^ 64) (off n : ℕ) :
    (vrtParseHeader pkt len).val = some (off, n) ↔ IsPayload (slice pkt 0 len) off n := by
  generalize hvrl : (vrlStrip pkt len).val = vrl
  have hbounds : (vrl.1 ≤ vrl.2 ∧ vrl.2 ≤ len) := by
    rcases vrlStrip_cases pkt hlen with ⟨⟨hl, -⟩, hval⟩ | ⟨-, hval⟩
    · rw [← hvrl, hval]
      dsimp only
      omega
    · rw [← hvrl, hval]
      exact ⟨Nat.zero_le _, le_rfl⟩
  have hdata := fun hl => isSignalData_iff (slice pkt vrl.1 (vrl.2 - vrl.1)) hl n
  rw [slice_length] at hdata
  rw [isPayload_iff hlen hvrl]
  have hformat : (∃ header payload trailer rest : List UInt8,
      IsSignalData (slice pkt vrl.1 (vrl.2 - vrl.1)) header payload trailer rest ∧ off = vrl.1 + header.length ∧
        n = payload.length) ↔
      Fits (headerOf (slice pkt vrl.1 (vrl.2 - vrl.1))) (vrl.2 - vrl.1) ∧
        off = vrl.1 + 4 * (headerOf (slice pkt vrl.1 (vrl.2 - vrl.1))).words.sum ∧
        n = 4 * payloadWords (headerOf (slice pkt vrl.1 (vrl.2 - vrl.1))) := by
    constructor
    · rintro ⟨header, payload, trailer, rest, hd, rfl, hn⟩
      obtain ⟨hf, hhl, hpay⟩ := (hdata header.length).1 ⟨header, payload, trailer, rest, hd, rfl, hn⟩
      exact ⟨hf, by rw [hhl], hpay⟩
    · rintro ⟨hf, hoff, hn⟩
      obtain ⟨header, payload, trailer, rest, hd, hhl, hpay⟩ := (hdata _).2 ⟨hf, rfl, hn⟩
      exact ⟨header, payload, trailer, rest, hd, by rw [hoff, hhl], hpay⟩
  rw [hformat]
  by_cases havail : 4 ≤ vrl.2 - vrl.1
  · rw [headerOf_slice havail]
    exact vrtParseHeader_some hlen (by omega) hvrl hbounds.1 hbounds.2 rfl off n
  · -- there is no header word
    refine iff_of_false (fun hsome => ?_) fun hf => havail (le_trans (by norm_num) hf.1.avail)
    by_cases h4 : 4 ≤ len
    · have hf := (vrtParseHeader_some hlen h4 hvrl hbounds.1 hbounds.2 rfl off n).1 hsome
      exact havail (le_trans (by norm_num) hf.1.avail)
    · unfold vrtParseHeader at hsome
      rw [if_pos (not_le.1 h4)] at hsome
      cases hsome

/-! ## Nothing outside the datagram is read -/

theorem vrlStrip_within : Logged.All (· < len) (vrlStrip pkt len) := by
  unfold vrlStrip
  rw [Logged.all_ite]
  refine ⟨fun hl => ?_, fun _ => Logged.all_pure _⟩
  rw [Logged.all_bind, Logged.all_ite]
  exact ⟨readWord_within.2 (by omega), fun _ => Logged.all_pure _, fun _ => Logged.all_pure _⟩

/-- The offset of the VRT packet, and its length. -/
theorem vrlStrip_bounds (pkt : Mem) (hlen : len < 2 ^ 64) : (vrlStrip pkt len).val.1 ≤ (vrlStrip pkt len).val.2 ∧
    (vrlStrip pkt len).val.2 ≤ len ∧ (4 ≤ len → (vrlStrip pkt len).val.1 + 4 ≤ len) := by
  rcases vrlStrip_cases pkt hlen with ⟨⟨hl, -⟩, hval⟩ | ⟨-, hval⟩ <;> rw [hval] <;> dsimp only <;> omega

theorem vrtParseHeader_within (hlen : len < 2 ^ 64) : Logged.All (· < len) (vrtParseHeader pkt len) := by
  unfold vrtParseHeader
  rw [Logged.all_ite]
  refine ⟨fun _ => Logged.all_pure _, fun h4 => ?_⟩
  rw [Logged.all_bind, Logged.all_bind]
  refine ⟨vrlStrip_within, readWord_within.2 ((vrlStrip_bounds pkt hlen).2.2 (not_lt.1 h4)), ?_⟩
  simp only [Logged.all_ite, Logged.all_pure, implies_true, and_self]

/-- **The fields of a context** are read inside its packet. -/
theorem readFields_within {vrt pktSizeW : ℕ} {cif0 : UInt32} (hfit : vrt + pktSizeW * 4 ≤ len) :
    ∀ (fields : List CifField) (offW : ℕ) (ctx : ContextFields),
      (∀ f ∈ fields, f.bit = cifRfRefFreq ∨ f.bit = cifSampleRate → f.words = 2) →
      Logged.All (· < len) (readFields pkt vrt pktSizeW cif0 fields offW ctx) := by
  intro fields
  induction fields with
  | nil => exact fun _ _ _ => Logged.all_pure _
  | cons field fields ih =>
    intro offW ctx hwords
    have hrest := fun offW' ctx' => ih offW' ctx' fun f hf => hwords f (List.mem_cons_of_mem _ hf)
    have hval : ∀ hk : field.bit = cifRfRefFreq ∨ field.bit = cifSampleRate, offW + field.words ≤ pktSizeW →
        Logged.All (· < len) (readBe64 pkt (vrt + offW * 4)) := fun hk hroom => by
      rw [hwords field List.mem_cons_self hk] at hroom
      simp only [readBe64, Logged.all_bind, readWord_within, Logged.all_pure, and_true]
      omega
    unfold readFields
    simp only [Logged.all_ite, Logged.all_bind, Logged.all_pure]
    refine ⟨fun _ => hrest _ _, fun _ => ⟨fun _ => trivial, fun hroom => ⟨fun hk => ⟨?_, hrest _ _⟩, fun _ =>
      ⟨fun hk => ⟨?_, hrest _ _⟩, fun _ => hrest _ _⟩⟩⟩⟩
    · exact hval (Or.inl hk) (not_lt.1 hroom)
    · exact hval (Or.inr hk) (not_lt.1 hroom)

theorem cifFields_words : ∀ f ∈ cifFields, f.bit = cifRfRefFreq ∨ f.bit = cifSampleRate → f.words = 2 := by
  unfold cifFields
  decide +kernel

/-- **A context packet** is read inside its `vrtLen` bytes. -/
theorem vrtHandleContext_within {vrt vrtLen : ℕ} (hfit : vrt + vrtLen ≤ len) (ctxLogged : Bool) :
    Logged.All (· < len) (vrtHandleContext pkt vrt vrtLen ctxLogged) := by
  unfold vrtHandleContext
  rw [Logged.all_ite]
  refine ⟨fun _ => Logged.all_pure _, fun h8 => ?_⟩
  rw [Logged.all_bind, Logged.all_ite]
  refine ⟨readWord_within.2 (by omega), fun _ => Logged.all_pure _, fun hsize => ?_⟩
  rw [readWord_val] at hsize ⊢
  generalize VrtHeader.ofWord (word pkt vrt) = h at hsize ⊢
  generalize 2 + (if h.classId ≠ 0 then 2 else 0) + (if h.tsi ≠ 0 then 1 else 0) + (if h.tsf ≠ 0 then 2 else 0) = offW
  rw [Logged.all_ite]
  refine ⟨fun _ => Logged.all_pure _, fun hoff => ?_⟩
  rw [Logged.all_bind, Logged.all_bind]
  refine ⟨readWord_within.2 (by omega), readFields_within (by omega) _ _ _ cifFields_words, ?_⟩
  split
  · exact Logged.all_pure _
  · simp only [Logged.all_ite, Logged.all_pure, implies_true, and_self]

/-! The loops over the samples. -/

theorem readWords_within : ∀ n off : ℕ, off + n * 4 ≤ len → Logged.All (· < len) (readWords pkt off n) := by
  intro n
  induction n with
  | zero => exact fun _ _ => Logged.all_pure _
  | succ n ih =>
    intro off hoff
    rw [readWords, Logged.all_bind, Logged.all_bind]
    exact ⟨readWord_within.2 (by omega), ih _ (by omega), Logged.all_pure _⟩

theorem readHighBytes_within : ∀ n off : ℕ, off + n * 2 ≤ len → Logged.All (· < len) (readHighBytes pkt off n) := by
  intro n
  induction n with
  | zero => exact fun _ _ => Logged.all_pure _
  | succ n ih =>
    intro off hoff
    rw [readHighBytes, Logged.all_bind, Logged.all_bind, Logged.all_bind]
    exact ⟨readByte_within.2 (by omega), readByte_within.2 (by omega), ih _ (by omega), Logged.all_pure _⟩

theorem readBytes_within : ∀ n off : ℕ, off + n ≤ len → Logged.All (· < len) (readBytes pkt off n) := by
  intro n
  induction n with
  | zero => exact fun _ _ => Logged.all_pure _
  | succ n ih =>
    intro off hoff
    rw [readBytes, Logged.all_bind, Logged.all_bind]
    exact ⟨readByte_within.2 (by omega), ih _ (by omega), Logged.all_pure _⟩

theorem readSamples_within {bytes : ℕ} (fmt : IqFormat) (h : off + bytes ≤ len) :
    Logged.All (· < len) (readSamples fmt pkt off bytes) := by
  cases fmt with
  | cf32 =>
    rw [readSamples, Logged.all_ite]
    refine ⟨fun _ => Logged.all_pure _, fun _ => ?_⟩
    rw [Logged.all_bind]
    exact ⟨readWords_within _ _ (by omega), Logged.all_pure _⟩
  | ci16 =>
    rw [readSamples, Logged.all_ite]
    refine ⟨fun _ => Logged.all_pure _, fun _ => ?_⟩
    rw [Logged.all_bind]
    exact ⟨readHighBytes_within _ _ (by omega), Logged.all_pure _⟩
  | ci8 | cu8 =>
    rw [readSamples, Logged.all_ite]
    refine ⟨fun _ => Logged.all_pure _, fun _ => ?_⟩
    rw [Logged.all_bind]
    exact ⟨readBytes_within _ _ (by omega), Logged.all_pure _⟩

/-- A payload lies in its datagram, behind a header. -/
theorem IsPayload.bounds {datagram : List UInt8} (h : IsPayload datagram off n) :
    4 ≤ off ∧ 4 ≤ n ∧ off + n ≤ datagram.length := by
  obtain ⟨front, vrt, back, header, payload, trailer, rest, hwrap, hdata, rfl, rfl⟩ := h
  have hlen : datagram.length = front.length + vrt.length + back.length := by
    rcases hwrap with hw | ⟨-, rfl, rfl, rfl⟩
    · rw [hw.split, List.length_append, List.length_append]
    · simp
  have hvrt := congrArg List.length hdata.split
  simp only [List.length_append] at hvrt
  have hheader := hdata.headerLen
  have hpayload := hdata.payloadLen
  have hsum := words_sum (headerOf vrt)
  omega

/-- A packet that begins like a wrapper is wrapped, if it has a payload. -/
theorem parsed_wrapped (hlen : len < 2 ^ 64) (hsome : (vrtParseHeader pkt len).val = some (off, n))
    (hmagic : word pkt 0 = vrlMagic) : 12 ≤ len := by
  have hbounds := ((vrtParseHeader_exact hlen off n).1 hsome).bounds
  rw [slice_length] at hbounds
  rcases vrlStrip_cases pkt hlen with ⟨⟨hl, -⟩, -⟩ | ⟨-, hval⟩
  · exact hl
  · -- "VRLP" would be the first word of a packet of another type
    have hfits := ((vrtParseHeader_some hlen (by omega) hval (Nat.zero_le _) le_rfl rfl off n).1 hsome).1
    dsimp only at hfits
    rw [hmagic] at hfits
    rcases hfits.kind with hk | hk
    · exact absurd hk (by decide)
    · exact absurd hk (by decide)

theorem isContext_within {ctx : ℕ × ℕ} (h : ctx.2 ≤ len) : Logged.All (· < len) (isContext pkt ctx) := by
  unfold isContext
  rw [Logged.all_ite]
  refine ⟨fun hl => ?_, fun _ => Logged.all_pure _⟩
  rw [Logged.all_bind]
  exact ⟨readWord_within.2 (by omega), Logged.all_pure _⟩

/-- **The receive loop** reads no byte outside the datagram. -/
theorem receive_within (hlen : len < 2 ^ 64) (fmt : IqFormat) (st : Receiver) :
    Logged.All (· < len) (receive fmt pkt len st) := by
  have hbounds := vrlStrip_bounds pkt hlen
  unfold receive
  rw [Logged.all_bind, Logged.all_bind]
  refine ⟨vrlStrip_within, isContext_within hbounds.2.1, ?_⟩
  split
  · rw [Logged.all_bind, wrapSub_eq hbounds.1 (by omega)]
    exact ⟨vrtHandleContext_within (by omega) _, Logged.all_pure _⟩
  · rw [Logged.all_bind]
    refine ⟨vrtParseHeader_within hlen, ?_⟩
    split
    · exact Logged.all_pure _
    · next off bytes hsome =>
      have hpayload := ((vrtParseHeader_exact hlen off bytes).1 hsome).bounds
      rw [slice_length] at hpayload
      rw [Logged.all_bind, Logged.all_bind, Logged.all_bind, readWord_val]
      refine ⟨readWord_within.2 (by omega), readWord_within.2 ?_, readSamples_within fmt hpayload.2.2,
        Logged.all_pure _⟩
      split
      · next hmagic => exact parsed_wrapped hlen hsome hmagic
      · omega

/-- **VRT datagrams are parsed exactly, and from their own bytes**: whatever stands in memory
around it, `vrt_parse_header` finds the payload that the format says, which lies in the
datagram, and neither it nor the receive loop with `vrt_handle_context` reads a byte outside. -/
theorem datagram_exact (pkt : Mem) (len : ℕ) (hlen : len < 2 ^ 64) :
    (∀ off n : ℕ, (vrtParseHeader pkt len).val = some (off, n) ↔ IsPayload (slice pkt 0 len) off n) ∧
      (∀ off n : ℕ, (vrtParseHeader pkt len).val = some (off, n) → 4 ≤ off ∧ 4 ≤ n ∧ off + n ≤ len) ∧
      Logged.All (· < len) (vrtParseHeader pkt len) ∧
      ∀ (fmt : IqFormat) (st : Receiver), Logged.All (· < len) (receive fmt pkt len st) := by
  refine ⟨vrtParseHeader_exact hlen, fun off n hsome => ?_, vrtParseHeader_within hlen, receive_within hlen⟩
  have hbounds := ((vrtParseHeader_exact hlen off n).1 hsome).bounds
  rwa [slice_length] at hbounds

/-- A VRL wrapper around a signal data packet with a stream id, a payload of two words and a
trailer. -/
def wrappedPacket : List UInt8 :=
  [0x56, 0x52, 0x4C, 0x50, 0, 0, 0, 0] ++ [0x14, 0, 0, 5] ++ [0, 0, 0, 1] ++ [1, 2, 3, 4, 5, 6, 7, 8] ++ [0, 0, 0, 0] ++
    [0x56, 0x45, 0x4E, 0x44]

/-- **The wrapped packet**: its payload are the eight bytes from the 16th on. -/
theorem wrappedPacket_payload : IsPayload (slice (ofList wrappedPacket) 0 32) 16 8 ∧
    slice (ofList wrappedPacket) 16 8 = [1, 2, 3, 4, 5, 6, 7, 8] :=
  ⟨((datagram_exact (ofList wrappedPacket) 32 (by norm_num)).1 16 8).1 (by decide +kernel), by decide +kernel⟩

end InmarsatSniffer.Vita49
