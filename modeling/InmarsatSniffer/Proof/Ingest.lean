import Mathlib
import InmarsatSniffer.Spec.Ingest
import InmarsatSniffer.Proof.Vita49

/-!
# Samples from a file and from the network

Both paths convert a sample number by number. They agree on each format but `cu8`, which `vita49_thread`
leaves to its default branch, where the bytes are copied without the offset taken off.

* `convert_values`: what a block of a file becomes.
* `receive_carries`: what a datagram becomes.
* `ingestion_agree`: **the two paths agree exactly if the format is not `cu8`**, or there are no samples.
-/

namespace InmarsatSniffer.Vita49

open ByteMem

variable {fmt : IqFormat} {samples part : Samples fmt} {pkt : Mem} {off n turns : ℕ}

/-! ## Numbers -/

/-- The numbers of the samples in order. -/
def Samples.numbers {fmt : IqFormat} (samples : Samples fmt) : List (Component fmt) := samples.flatMap fun s => [s.1, s.2]

/-- What a number becomes on its way from a file. -/
def Component.fromFile : (fmt : IqFormat) → Component fmt → Value
  | .ci8, b => .int8 b
  | .cu8, (b : UInt8) => .int8 (b - 128)
  | .ci16, (w : UInt16) => .int8 (w >>> 8).toUInt8
  | .cf32, w => .float w

/-- What a number becomes on its way from the network. -/
def Component.fromNetwork : (fmt : IqFormat) → Component fmt → Value
  | .ci8, b | .cu8, b => .int8 b
  | .ci16, (w : UInt16) => .int8 (w >>> 8).toUInt8
  | .cf32, w => .float w

theorem host_eq (samples : Samples fmt) : samples.host = samples.numbers.flatMap (Component.host fmt) := by
  unfold Samples.host Samples.numbers
  rw [List.flatMap_assoc]
  simp only [List.flatMap_cons, List.flatMap_nil, List.append_nil]

theorem network_eq (samples : Samples fmt) :
    samples.network = samples.numbers.flatMap fun c => (c.host fmt).reverse := by
  unfold Samples.network Samples.numbers
  rw [List.flatMap_assoc]
  simp only [List.flatMap_cons, List.flatMap_nil, List.append_nil]

theorem numbers_append (xs ys : Samples fmt) : Samples.numbers (xs ++ ys) = xs.numbers ++ ys.numbers := List.flatMap_append

theorem numbers_length (samples : Samples fmt) : samples.numbers.length = 2 * samples.length := by
  unfold Samples.numbers
  induction samples with
  | nil => rfl
  | cons s samples ih =>
    rw [List.flatMap_cons, List.length_append, ih, List.length_cons]
    simp only [List.length_cons, List.length_nil]
    omega

theorem host_length (samples : Samples fmt) : samples.host.length = samples.length * fmt.sampleBytes := by
  unfold Samples.host
  induction samples with
  | nil => simp
  | cons s samples ih =>
    have hone : (s.1.host fmt ++ s.2.host fmt).length = fmt.sampleBytes := by cases fmt <;> rfl
    rw [List.flatMap_cons, List.length_append, ih, hone, List.length_cons, Nat.succ_mul, Nat.add_comm]

theorem sampleBytes_pos (fmt : IqFormat) : 0 < fmt.sampleBytes := by cases fmt <;> decide

/-! ## From a file -/

/-- The arithmetic shift of an `int16_t`, cut to its low byte. -/
theorem highByte_eq (w : UInt16) : UInt8.ofInt (w.toInt16.toInt / 2 ^ 8) = (w >>> 8).toUInt8 := by
  have hw := w.toNat_lt
  have hint : w.toInt16.toInt = if 2 * w.toNat < 2 ^ 16 then (w.toNat : ℤ) else w.toNat - 2 ^ 16 :=
    BitVec.toInt_eq_toNat_cond w.toBitVec
  have hright : (w >>> 8).toUInt8.toNat = w.toNat / 256 % 256 := by
    rw [UInt16.toNat_toUInt8, UInt16.toNat_shiftRight, Nat.shiftRight_eq_div_pow]
    rfl
  rw [← UInt8.toNat_inj, hint, hright, UInt8.ofInt, UInt8.toNat_ofNat']
  split <;> omega

theorem low_high (w : UInt16) : UInt16.ofNat (w.toUInt8.toNat + 256 * (w >>> 8).toUInt8.toNat) = w := by
  have hw := w.toNat_lt
  rw [← UInt16.toNat_inj, UInt16.toNat_ofNat', UInt16.toNat_toUInt8, UInt16.toNat_toUInt8, UInt16.toNat_shiftRight,
    Nat.shiftRight_eq_div_pow]
  show (w.toNat % 2 ^ 8 + 256 * (w.toNat / 2 ^ 8 % 2 ^ 8)) % 2 ^ 16 = w.toNat
  omega

theorem be32_bytes (w : UInt32) : be32 (w >>> 24).toUInt8 (w >>> 16).toUInt8 (w >>> 8).toUInt8 w.toUInt8 = w := by
  have hw := w.toNat_lt
  unfold be32
  rw [← UInt32.toNat_inj, UInt32.toNat_ofNat', UInt32.toNat_toUInt8, UInt32.toNat_toUInt8, UInt32.toNat_toUInt8,
    UInt32.toNat_toUInt8, UInt32.toNat_shiftRight, UInt32.toNat_shiftRight, UInt32.toNat_shiftRight,
    Nat.shiftRight_eq_div_pow, Nat.shiftRight_eq_div_pow, Nat.shiftRight_eq_div_pow]
  show (2 ^ 24 * (w.toNat / 2 ^ 24 % 2 ^ 8) + 2 ^ 16 * (w.toNat / 2 ^ 16 % 2 ^ 8) + 2 ^ 8 * (w.toNat / 2 ^ 8 % 2 ^ 8) +
    w.toNat % 2 ^ 8) % 2 ^ 32 = w.toNat
  omega

theorem highBytes_host (ws : List UInt16) :
    highBytes (ws.flatMap host16) = ws.map fun w : UInt16 => (w >>> 8).toUInt8 := by
  induction ws with
  | nil => rfl
  | cons w ws ih =>
    have hcons : highBytes (host16 w ++ ws.flatMap host16) =
        UInt8.ofInt ((UInt16.ofNat (w.toUInt8.toNat + 256 * (w >>> 8).toUInt8.toNat)).toInt16.toInt / 2 ^ 8) ::
          highBytes (ws.flatMap host16) := rfl
    rw [List.flatMap_cons, hcons, List.map_cons, low_high, highByte_eq, ← ih]

theorem hostWords_host (ws : List UInt32) : hostWords (ws.flatMap host32) = ws := by
  induction ws with
  | nil => rfl
  | cons w ws ih =>
    have hcons : hostWords (host32 w ++ ws.flatMap host32) = be32 (w >>> 24).toUInt8 (w >>> 16).toUInt8 (w >>> 8).toUInt8
      w.toUInt8 :: hostWords (ws.flatMap host32) := rfl
    rw [List.flatMap_cons, hcons, be32_bytes, ih]

/-- **What a block of a file becomes.** -/
theorem convert_values (r : ℕ) (samples : Samples fmt) :
    (convert fmt r samples.host).values = samples.numbers.map (Component.fromFile fmt) := by
  have hbytes : ∀ bs : List UInt8, (bs.flatMap fun b => [b]) = bs := fun bs => List.flatMap_singleton' bs
  rw [host_eq]
  generalize samples.numbers = cs
  cases fmt with
  | ci8 => exact congrArg (List.map Value.int8) (hbytes cs)
  | cu8 =>
    show ((cs.flatMap fun b => [b]).map fun b => b - 128).map Value.int8 = _
    rw [hbytes, List.map_map]
    rfl
  | ci16 =>
    show (highBytes (cs.flatMap host16)).map Value.int8 = _
    rw [highBytes_host, List.map_map]
    rfl
  | cf32 =>
    show (hostWords (cs.flatMap host32)).map Value.float = _
    rw [hostWords_host]
    rfl

theorem take_host (samples : Samples fmt) (r : ℕ) : samples.host.take (r * fmt.sampleBytes) = Samples.host (samples.take r) ∧
    samples.host.drop (r * fmt.sampleBytes) = Samples.host (samples.drop r) := by
  have happend : samples.host = Samples.host (samples.take r) ++ Samples.host (samples.drop r) := by
    unfold Samples.host
    rw [← List.flatMap_append, List.take_append_drop]
  have hlen : (Samples.host (samples.take r)).length = min (r * fmt.sampleBytes) samples.host.length := by
    rw [host_length, host_length, List.length_take, Nat.mul_min_mul_right]
  rcases Nat.le_total (r * fmt.sampleBytes) samples.host.length with h | h
  · rw [Nat.min_eq_left h] at hlen
    rw [happend, List.take_left' hlen, List.drop_left' hlen]
    exact ⟨rfl, rfl⟩
  · -- all samples are taken
    have hall : samples.length ≤ r := Nat.le_of_mul_le_mul_right (by rwa [host_length] at h) (sampleBytes_pos fmt)
    rw [List.take_of_length_le h, List.drop_of_length_le h, List.take_of_length_le hall, List.drop_of_length_le hall]
    exact ⟨rfl, rfl⟩

/-- The turns of `spewer_thread` over a file of samples. -/
theorem spewer_values (hturns : samples.length < turns) :
    (spewer fmt turns samples.host).flatMap SampleBuf.values = samples.numbers.map (Component.fromFile fmt) := by
  induction turns generalizing samples with
  | zero => omega
  | succ turns ih =>
    have hcount : samples.host.length / fmt.sampleBytes = samples.length := by
      rw [host_length, Nat.mul_div_cancel _ (sampleBytes_pos fmt)]
    unfold spewer
    dsimp only
    rw [hcount]
    by_cases hzero : min block samples.length = 0
    · have hblock : block = 32768 := rfl
      have hnil : samples = [] := List.eq_nil_of_length_eq_zero (by omega)
      rw [if_pos hzero, hnil]
      rfl
    · obtain ⟨htake, hdrop⟩ := take_host samples (min block samples.length)
      have hless : (samples.drop (min block samples.length)).length < turns := by
        have hle := Nat.min_le_right block samples.length
        rw [List.length_drop]
        generalize min block samples.length = r at hzero hle
        omega
      have hrest := ih hless
      rw [if_neg hzero, List.flatMap_cons, htake, hdrop, hrest, convert_values, ← List.map_append, ← numbers_append,
        List.take_append_drop]

/-- A file of at most one block. -/
theorem spewer_single (hne : samples ≠ []) (hblock : samples.length ≤ block) (turns : ℕ) :
    spewer fmt (turns + 1) samples.host = [convert fmt samples.length samples.host] := by
  have hpos : 0 < samples.length := List.length_pos_iff.2 hne
  have hcount : samples.host.length / fmt.sampleBytes = samples.length := by
    rw [host_length, Nat.mul_div_cancel _ (sampleBytes_pos fmt)]
  unfold spewer
  dsimp only
  rw [hcount, Nat.min_eq_right hblock, if_neg (by omega), ← host_length, List.take_length, List.drop_length]
  cases turns with
  | zero => rfl
  | succ turns =>
    unfold spewer
    simp

/-! ## From the network -/

theorem readBytes_val (pkt : Mem) (off n : ℕ) : (readBytes pkt off n).val = slice pkt off n := by
  induction n generalizing off with
  | zero => rfl
  | succ n ih =>
    unfold readBytes
    rw [Logged.val_bind, Logged.val_bind, Logged.val_pure, ih, slice_succ]
    rfl

theorem highByte_network (hi lo : UInt8) : ((hi.toUInt16 <<< 8 ||| lo.toUInt16) >>> 8).toUInt8 = hi := by
  have hhi := hi.toNat_lt
  have hlo := lo.toNat_lt
  have hor : (hi.toUInt16 <<< 8 ||| lo.toUInt16).toNat = hi.toNat <<< 8 + lo.toNat := by
    rw [Nat.shiftLeft_add_eq_or_of_lt hlo, UInt16.toNat_or, UInt16.toNat_shiftLeft, UInt8.toNat_toUInt16, UInt8.toNat_toUInt16]
    congr 1
    show hi.toNat <<< 8 % 2 ^ 16 = _
    rw [Nat.shiftLeft_eq]
    omega
  rw [← UInt8.toNat_inj, UInt16.toNat_toUInt8, UInt16.toNat_shiftRight, hor, Nat.shiftLeft_eq, Nat.shiftRight_eq_div_pow]
  show (hi.toNat * 2 ^ 8 + lo.toNat) / 2 ^ 8 % 2 ^ 8 = _
  omega

/-- Two-byte numbers in network order. -/
theorem readHighBytes_val {ws : List UInt16} (h : slice pkt off (2 * ws.length) = ws.flatMap fun w => (host16 w).reverse) :
    (readHighBytes pkt off ws.length).val = ws.map fun w : UInt16 => (w >>> 8).toUInt8 := by
  induction ws generalizing off with
  | nil => rfl
  | cons w ws ih =>
    rw [List.length_cons, Nat.mul_succ, Nat.add_comm, slice_add, List.flatMap_cons] at h
    obtain ⟨hhead, htail⟩ := List.append_inj h (by rw [slice_length]; rfl)
    have hhigh : pkt off = (w >>> 8).toUInt8 := by
      rw [slice_succ] at hhead
      injection hhead
    have hoff : ((off + 2 : ℕ) : ℤ) = (off : ℤ) + (2 : ℕ) := by push_cast; ring
    have hrest := @ih (off + 2) (by rw [hoff]; exact htail)
    rw [List.length_cons, readHighBytes, List.map_cons, ← hrest, ← hhigh]
    exact congrArg (· :: _) (highByte_network _ _)

/-- Four-byte numbers in network order. -/
theorem readWords_val {ws : List UInt32} (h : slice pkt off (4 * ws.length) = ws.flatMap fun w => (host32 w).reverse) :
    (readWords pkt off ws.length).val = ws := by
  induction ws generalizing off with
  | nil => rfl
  | cons w ws ih =>
    rw [List.length_cons, Nat.mul_succ, Nat.add_comm, slice_add, List.flatMap_cons] at h
    obtain ⟨hhead, htail⟩ := List.append_inj h (by rw [slice_length]; rfl)
    have hword : word pkt off = w := by
      rw [slice_succ, slice_succ, slice_succ, slice_succ] at hhead
      injection hhead with h0 hhead
      injection hhead with h1 hhead
      injection hhead with h2 hhead
      injection hhead with h3 _
      rw [← be32_bytes w, ← h0, ← h1, ← h2, ← h3]
      rfl
    have hoff : ((off + 4 : ℕ) : ℤ) = (off : ℤ) + (4 : ℕ) := by push_cast; ring
    have hrest := @ih (off + 4) (by rw [hoff]; exact htail)
    rw [List.length_cons, readWords]
    simp only [Logged.val_bind, Logged.val_pure, readWord_val]
    rw [hword, hrest]

/-- The buffer of the samples in a datagram. -/
def networkBuf (fmt : IqFormat) (samples : Samples fmt) : SampleBuf :=
  match fmt with
  | .cu8 => .int8s samples.length samples.host
  | fmt => convert fmt samples.length samples.host

theorem network_length (samples : Samples fmt) : samples.network.length = samples.length * fmt.sampleBytes := by
  rw [← host_length, network_eq, host_eq, List.length_flatMap, List.length_flatMap]
  simp only [List.length_reverse]

/-- **The conversion of a payload.** -/
theorem readSamples_val (h : slice pkt off n = samples.network) (hne : samples ≠ []) :
    (readSamples fmt pkt off n).val = some (networkBuf fmt samples) := by
  have hlen : samples.length ≠ 0 := fun h0 => hne (List.eq_nil_of_length_eq_zero h0)
  have hn : n = samples.length * fmt.sampleBytes := by rw [← network_length, ← h, slice_length]
  have hnum : n / fmt.sampleBytes = samples.length := by rw [hn, Nat.mul_div_cancel _ (sampleBytes_pos fmt)]
  have hcount := numbers_length samples
  rw [network_eq] at h
  cases fmt with
  | ci8 | cu8 =>
    have hbytes : n = samples.length * 2 := hn
    rw [readSamples, show n / 2 = samples.length from hnum, if_neg hlen, Logged.val_bind, Logged.val_pure, readBytes_val, ← hbytes, h]
    have hhost : (samples.numbers.flatMap fun c => (Component.host _ c).reverse) = samples.host := by
      rw [host_eq]
      rfl
    rw [hhost]
    rfl
  | ci16 =>
    have hbytes : n = 2 * samples.numbers.length := by
      rw [hcount, hn]
      show samples.length * 4 = _
      omega
    rw [hbytes] at h
    rw [readSamples, show n / 4 = samples.length from hnum, if_neg hlen, Logged.val_bind, Logged.val_pure,
      show samples.length * 2 = samples.numbers.length by omega, readHighBytes_val h, ← highBytes_host]
    show _ = some (SampleBuf.int8s samples.length (highBytes samples.host))
    rw [host_eq]
    rfl
  | cf32 =>
    have hbytes : n = 4 * samples.numbers.length := by
      rw [hcount, hn]
      show samples.length * 8 = _
      omega
    rw [hbytes] at h
    rw [readSamples, show n / 8 = samples.length from hnum, if_neg hlen, Logged.val_bind, Logged.val_pure,
      show samples.length * 2 = samples.numbers.length by omega, readWords_val h]
    unfold networkBuf convert
    dsimp only
    rw [host_eq, show samples.numbers.flatMap (Component.host .cf32) = samples.numbers.flatMap host32 from rfl, hostWords_host]

theorem networkBuf_values (samples : Samples fmt) :
    (networkBuf fmt samples).values = samples.numbers.map (Component.fromNetwork fmt) := by
  have hfile := convert_values samples.length samples
  cases fmt with
  | cu8 =>
    show samples.host.map Value.int8 = _
    rw [host_eq]
    exact congrArg (List.map Value.int8) (List.flatMap_singleton' _)
  | ci8 | ci16 | cf32 => exact hfile

/-- **What a datagram becomes**, with the count and the totals aside. -/
theorem receive_carries {datagram : Mem × ℕ} (h : Carries fmt datagram samples) (st : Receiver) :
    (receive fmt datagram.1 datagram.2 st).val.2.2 = some (networkBuf fmt samples) ∧ samples ≠ [] := by
  obtain ⟨off, n, hpayload, hbytes⟩ := h.payload
  have hbounds := hpayload.bounds
  have hne : samples ≠ [] := by
    rintro rfl
    have hlen := congrArg List.length hbytes
    rw [slice_length, network_length, List.length_nil, Nat.zero_mul] at hlen
    omega
  have hparsed := (vrtParseHeader_exact h.size off n).2 hpayload
  refine ⟨?_, hne⟩
  -- a packet with a payload is no context packet
  have hctx : (isContext datagram.1 (vrlStrip datagram.1 datagram.2).val).val = false := by
    have hstrip := vrlStrip_bounds datagram.1 h.size
    rw [slice_length] at hbounds
    have hfits := ((vrtParseHeader_some h.size (by omega) rfl hstrip.1 hstrip.2.1 rfl off n).1 hparsed).1
    unfold isContext
    split
    · rw [Logged.val_bind, Logged.val_pure, readWord_val]
      rcases hfits.kind with hk | hk
      · rw [hk]
        decide
      · rw [hk]
        decide
    · rfl
  unfold receive
  rw [Logged.val_bind, Logged.val_bind, hctx, if_neg Bool.false_ne_true, Logged.val_bind, hparsed]
  dsimp only
  rw [Logged.val_bind, Logged.val_bind, Logged.val_bind, Logged.val_pure, readSamples_val hbytes hne]

/-- A sequence of datagrams. -/
theorem received_carries {datagrams : List (Mem × ℕ)} {parts : List (Samples fmt)}
    (h : List.Forall₂ (Carries fmt) datagrams parts) (st : Receiver) :
    received fmt st datagrams = parts.map (networkBuf fmt) := by
  induction h generalizing st with
  | nil => rfl
  | cons hone _ ih =>
    unfold received
    dsimp only
    rw [(receive_carries hone st).1, ih]
    rfl

/-! ## Agreement -/

/-- The offset of `cu8` shows in every number. -/
theorem fromFile_ne (b : UInt8) : Component.fromFile .cu8 b ≠ Component.fromNetwork .cu8 b := by
  intro heq
  injection heq with hb
  have hnat := congrArg UInt8.toNat hb
  have hlt := b.toNat_lt
  rw [UInt8.toNat_sub] at hnat
  change (2 ^ 8 - 128 + b.toNat) % 2 ^ 8 = b.toNat at hnat
  omega

theorem numbers_agree (samples : Samples fmt) :
    samples.numbers.map (Component.fromNetwork fmt) = samples.numbers.map (Component.fromFile fmt) ↔
      fmt ≠ .cu8 ∨ samples = [] := by
  cases fmt with
  | ci8 | ci16 | cf32 => exact iff_of_true rfl (Or.inl (by decide))
  | cu8 =>
    rw [or_iff_right (by decide)]
    constructor
    · intro heq
      cases samples with
      | nil => rfl
      | cons s samples =>
        exfalso
        injection heq with hfirst _
        exact fromFile_ne _ hfirst.symm
    · rintro rfl
      rfl

/-- **The two paths agree exactly if the format is not `cu8`**, or there is nothing to convert: for samples that
arrive in any number of datagrams, number by number with its format tag, and for samples of one datagram and one
block buffer by buffer. -/
theorem ingestion_agree {datagrams : List (Mem × ℕ)} {parts : List (Samples fmt)}
    (h : List.Forall₂ (Carries fmt) datagrams parts) (st : Receiver) :
    ((received fmt st datagrams).flatMap SampleBuf.values =
        (spewerThread fmt (Samples.host parts.flatten)).flatMap SampleBuf.values ↔ fmt ≠ .cu8 ∨ parts.flatten = []) ∧
      ∀ part, parts = [part] → part.length ≤ block →
        (received fmt st datagrams = spewerThread fmt part.host ↔ fmt ≠ .cu8 ∨ part = []) := by
  have hnet := received_carries h st
  constructor
  · have hturns : (parts.flatten : Samples fmt).length < (Samples.host parts.flatten).length + 1 := by
      have hmul := Nat.le_mul_of_pos_right (parts.flatten : Samples fmt).length (sampleBytes_pos fmt)
      rw [host_length]
      omega
    have hvalues : (parts.map (networkBuf fmt)).flatMap SampleBuf.values =
        (Samples.numbers parts.flatten).map (Component.fromNetwork fmt) := by
      clear h hnet hturns
      induction parts with
      | nil => rfl
      | cons part parts ih =>
        rw [List.map_cons, List.flatMap_cons, ih, networkBuf_values, List.flatten_cons, numbers_append, List.map_append]
    unfold spewerThread
    rw [hnet, hvalues, spewer_values hturns]
    exact numbers_agree _
  · rintro part rfl hblock
    have hne : part ≠ [] := by
      obtain _ | ⟨hone, _⟩ := h
      exact (receive_carries hone st).2
    unfold spewerThread
    rw [hnet, spewer_single hne hblock, List.map_singleton, or_iff_left hne]
    constructor
    · intro heq
      have hvalues := congrArg (List.flatMap SampleBuf.values) heq
      rw [List.flatMap_singleton, List.flatMap_singleton, networkBuf_values, convert_values, numbers_agree,
        or_iff_left hne] at hvalues
      exact hvalues
    · intro hfmt
      cases fmt with
      | cu8 => exact absurd rfl hfmt
      | ci8 | ci16 | cf32 => rfl

/-- A packet with two samples at the middle of the range. -/
def middlePacket : List UInt8 := [0x00, 0, 0, 2] ++ [128, 128, 128, 128]

theorem middlePacket_carries (fmt : IqFormat) (samples : Samples fmt) (h : samples.network = [128, 128, 128, 128]) :
    Carries fmt (ofList middlePacket, 8) samples where
  size := by norm_num
  payload := ⟨4, 4, (vrtParseHeader_exact (by norm_num) 4 4).1 (by decide +kernel), by rw [h]; decide +kernel⟩

/-- The loop as it starts. -/
def Receiver.start : Receiver := ⟨0, false, false, 0, 0, 0⟩

/-- **The same `cu8` samples** are zeros from a file, and -128 from the network. -/
theorem middle_differs : Carries .cu8 (ofList middlePacket, 8) [(128, 128), (128, 128)] ∧
    received .cu8 .start [(ofList middlePacket, 8)] = [.int8s 2 [128, 128, 128, 128]] ∧
    spewerThread .cu8 (@Samples.host .cu8 [(128, 128), (128, 128)]) = [.int8s 2 [0, 0, 0, 0]] ∧
    received .cu8 .start [(ofList middlePacket, 8)] ≠ spewerThread .cu8 (@Samples.host .cu8 [(128, 128), (128, 128)]) :=
  ⟨middlePacket_carries _ _ rfl, by decide +kernel, by decide +kernel, by decide +kernel⟩

/-- As `ci8` samples they agree. -/
theorem middle_agrees : received .ci8 .start [(ofList middlePacket, 8)] =
    spewerThread .ci8 (@Samples.host .ci8 [(128, 128), (128, 128)]) :=
  ((ingestion_agree (.cons (middlePacket_carries .ci8 [(128, 128), (128, 128)] rfl) .nil) .start).2 _ rfl (by norm_num)).2
    (Or.inl (by decide))

end InmarsatSniffer.Vita49
