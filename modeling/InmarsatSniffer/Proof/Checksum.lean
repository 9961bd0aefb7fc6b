import Mathlib
import InmarsatSniffer.Lib.Fletcher
import InmarsatSniffer.Proof.Walk

/-!
# The checksum of STD-C packets

The `short` sums of `compute_crc` and the bytes made from them are right modulo 256, where they are the
check symbols of `Fletcher.sums_check_iff`.

* `crcOf_eq`: `compute_crc` over the bytes of a packet, as a fold.
* `crcOk_iff`: the test of `parse_packets` in terms of the two sums.
* `checksum_law`: **exact acceptance**, acceptance of what `put_crc` writes, and rejection of every change
  of two neighbouring bytes.
-/

namespace InmarsatSniffer.Stdc

open ByteMem Fletcher

/-- The bytes of the loops of `compute_crc` and `put_crc`: the last two count as zero. -/
def zeroedTail (bytes : List UInt8) : List UInt8 := bytes.take (bytes.length - 2) ++ [0, 0]

/-- Both sums as they are kept in `short` variables. -/
def shortSums (bytes : List UInt8) : UInt16 × UInt16 :=
  bytes.foldl (fun c b => (c.1 + b.toUInt16, c.2 + (c.1 + b.toUInt16))) (0, 0)

/-- `put_crc` of `test_stdc.c`: the packet with its checksum in the last two bytes. -/
def putCrc (pkt : List UInt8) : List UInt8 :=
  let c := shortSums (zeroedTail pkt)
  pkt.take (pkt.length - 2) ++ [(c.1 - c.2).toUInt8, (c.2 - 2 * c.1).toUInt8]

/-- The sum of the bytes, and the sum of the running sums. -/
def byteSums (bytes : List UInt8) : ℕ × ℕ := sums (bytes.map UInt8.toNat)

variable {m m' : Mem} {pos : ℤ} {n : ℕ}

/-! ## The loop -/

theorem zeroedTail_length {bytes : List UInt8} (h : 2 ≤ bytes.length) : (zeroedTail bytes).length = bytes.length := by
  unfold zeroedTail
  rw [List.length_append, List.length_take]
  simp only [List.length_cons, List.length_nil]
  omega

theorem zeroedTail_getElem (m : Mem) (pos : ℤ) {n i : ℕ} (h : i < (zeroedTail (slice m pos n)).length) (hn : 2 ≤ n) :
    (zeroedTail (slice m pos n))[i] = if (i : ℤ) < n - 2 then m (pos + i) else 0 := by
  have hlen : i < n := by rwa [zeroedTail_length (by rwa [slice_length]), slice_length] at h
  have htake : ((slice m pos n).take ((slice m pos n).length - 2)).length = n - 2 := by
    rw [List.length_take, slice_length]
    omega
  unfold zeroedTail at h ⊢
  by_cases hi : i < n - 2
  · rw [List.getElem_append_left (by omega), List.getElem_take, slice_getElem, if_pos (by omega)]
  · rw [List.getElem_append_right (by omega), if_neg (by omega)]
    have htwo : ∀ q (hq : q < [(0 : UInt8), 0].length), [(0 : UInt8), 0][q] = 0 := by decide
    exact htwo _ _

/-- The loop over what is left of a packet. -/
theorem crcLoop_eq (m : Mem) (pos : ℤ) {n : ℕ} (hn : 2 ≤ n) : ∀ (k i : ℕ) (c0 c1 : UInt16), i + k = n →
    (crcLoop ⟨m, 0⟩ pos n k i c0 c1).val =
      ((zeroedTail (slice m pos n)).drop i).foldl (fun c b => (c.1 + b.toUInt16, c.2 + (c.1 + b.toUInt16))) (c0, c1) := by
  have hlen : (zeroedTail (slice m pos n)).length = n := by rw [zeroedTail_length (by rwa [slice_length]), slice_length]
  intro k
  induction k with
  | zero =>
    intro i c0 c1 hik
    rw [List.drop_of_length_le (by omega)]
    rfl
  | succ k ih =>
    intro i c0 c1 hik
    have hget := zeroedTail_getElem m pos (i := i) (by omega) hn
    have hnext : ((i : ℤ) + 1) = ((i + 1 : ℕ) : ℤ) := by push_cast; ring
    rw [List.drop_eq_getElem_cons (by omega), List.foldl_cons, hget]
    unfold crcLoop
    split
    · simp only [Frame.read, Logged.val_bind]
      rw [hnext, ih (i + 1) _ _ (by omega)]
    · rw [hnext, ih (i + 1) _ _ (by omega)]
      rfl

/-- **`compute_crc` as a fold** over the bytes, the last two counted as zero. -/
theorem crcOf_eq (m : Mem) (pos : ℤ) (hn : 2 ≤ n) : crcOf m pos n =
    be16 ((shortSums (zeroedTail (slice m pos n))).1 - (shortSums (zeroedTail (slice m pos n))).2).toUInt8
      ((shortSums (zeroedTail (slice m pos n))).2 - 2 * (shortSums (zeroedTail (slice m pos n))).1).toUInt8 := by
  have hloop := crcLoop_eq m pos hn n 0 0 0 (Nat.zero_add n)
  rw [List.drop_zero, Nat.cast_zero] at hloop
  unfold crcOf computeCrc shortSums
  simp only [Logged.val_bind, Logged.val_pure]
  rw [Int.toNat_natCast, hloop]

/-! ## The sums modulo 256 -/

/-- A byte modulo 256. -/
def residue (b : UInt8) : ZMod 256 := b.toNat

theorem residue_injective : Function.Injective residue := by
  intro a b h
  have hnat := (ZMod.natCast_eq_natCast_iff' _ _ _).1 h
  rw [Nat.mod_eq_of_lt a.toNat_lt, Nat.mod_eq_of_lt b.toNat_lt] at hnat
  exact UInt8.toNat_inj.1 hnat

/-- The low byte of a `short`. -/
theorem residue_toUInt8 (c : UInt16) : residue c.toUInt8 = (c.toNat : ZMod 256) := by
  unfold residue
  rw [UInt16.toNat_toUInt8, ZMod.natCast_eq_natCast_iff']
  exact Nat.mod_mod _ _

/-- A number reduced modulo 2^16 is the same modulo 256. -/
theorem cast_mod_short (v : ℕ) : ((v % 2 ^ 16 : ℕ) : ZMod 256) = v := by
  rw [ZMod.natCast_eq_natCast_iff']
  exact Nat.mod_mod_of_dvd _ (by norm_num)

theorem cast_add_short (a b : UInt16) : ((a + b).toNat : ZMod 256) = a.toNat + b.toNat := by
  rw [UInt16.toNat_add, cast_mod_short, Nat.cast_add]

theorem cast_sub_short (a b : UInt16) : ((a - b).toNat : ZMod 256) = a.toNat - b.toNat := by
  have hsum := cast_add_short (a - b) b
  rw [UInt16.sub_add_cancel] at hsum
  rw [hsum]
  ring

/-- **The sums do not feel the wrap.** -/
theorem shortSums_residue (bytes : List UInt8) :
    (((shortSums bytes).1.toNat : ZMod 256), ((shortSums bytes).2.toNat : ZMod 256)) = sums (bytes.map residue) := by
  have hfold : ∀ (c : UInt16 × UInt16),
      (((bytes.foldl (fun c b => (c.1 + b.toUInt16, c.2 + (c.1 + b.toUInt16))) c).1.toNat : ZMod 256),
        ((bytes.foldl (fun c b => (c.1 + b.toUInt16, c.2 + (c.1 + b.toUInt16))) c).2.toNat : ZMod 256)) =
        (bytes.map residue).foldl step ((c.1.toNat : ZMod 256), (c.2.toNat : ZMod 256)) := by
    induction bytes with
    | nil => exact fun c => rfl
    | cons b bytes ih =>
      intro c
      have hbyte : (b.toUInt16.toNat : ZMod 256) = residue b := by rw [UInt8.toNat_toUInt16]; rfl
      rw [List.foldl_cons, ih, List.map_cons, List.foldl_cons]
      unfold step
      dsimp only
      rw [cast_add_short, cast_add_short, cast_add_short, hbyte]
  have hzero := hfold (0, 0)
  unfold shortSums sums
  rw [hzero]
  norm_num

/-- The check bytes that the code makes of the sums. -/
theorem check_iff (bytes : List UInt8) (x y : UInt8) : sums ((bytes ++ [x, y]).map residue) = 0 ↔
    x = ((shortSums (bytes ++ [0, 0])).1 - (shortSums (bytes ++ [0, 0])).2).toUInt8 ∧
      y = ((shortSums (bytes ++ [0, 0])).2 - 2 * (shortSums (bytes ++ [0, 0])).1).toUInt8 := by
  have hsums := shortSums_residue (bytes ++ [0, 0])
  have hzero : residue 0 = 0 := rfl
  rw [List.map_append, List.map_cons, List.map_cons, List.map_nil, hzero, Prod.mk.injEq] at hsums
  rw [List.map_append, List.map_cons, List.map_cons, List.map_nil, sums_check_iff, ← hsums.1, ← hsums.2]
  have htwo : ((2 * (shortSums (bytes ++ [0, 0])).1).toNat : ZMod 256) = 2 * (shortSums (bytes ++ [0, 0])).1.toNat := by
    rw [UInt16.toNat_mul, cast_mod_short, Nat.cast_mul]
    rfl
  rw [← cast_sub_short, ← htwo, ← cast_sub_short, ← residue_toUInt8, ← residue_toUInt8]
  exact and_congr residue_injective.eq_iff residue_injective.eq_iff

theorem byteSums_dvd (bytes : List UInt8) :
    256 ∣ (byteSums bytes).1 ∧ 256 ∣ (byteSums bytes).2 ↔ sums (bytes.map residue) = 0 := by
  have hmap := sums_map (Nat.castRingHom (ZMod 256)) (bytes.map UInt8.toNat)
  rw [List.map_map] at hmap
  have hres : bytes.map residue = bytes.map (Nat.castRingHom (ZMod 256) ∘ UInt8.toNat) := rfl
  unfold byteSums
  rw [hres, hmap, Prod.mk_eq_zero, ← ZMod.natCast_eq_zero_iff, ← ZMod.natCast_eq_zero_iff]
  rfl

/-! ## The test -/

/-- A packet and its checksum. -/
theorem slice_tail (m : Mem) (pos : ℤ) (hn : 2 ≤ n) : slice m pos n =
    (slice m pos n).take ((slice m pos n).length - 2) ++ [m (pos + n - 2), m (pos + n - 1)] := by
  obtain ⟨q, rfl⟩ : ∃ q, n = q + 2 := ⟨n - 2, by omega⟩
  have hadd := slice_add (m := m) (i := pos) q 2
  have hpair : slice m (pos + q) 2 = [m (pos + (q + 2 : ℕ) - 2), m (pos + (q + 2 : ℕ) - 1)] := by
    rw [slice_succ, slice_succ, slice_zero]
    congr 2
    · push_cast
      ring_nf
    · push_cast
      ring_nf
  rw [slice_length, Nat.add_sub_cancel, ← hpair]
  conv_lhs => rw [hadd]
  rw [hadd, List.take_left' slice_length]

/-- **The checksum test in terms of the sums.** -/
theorem crcOk_iff (m : Mem) (pos : ℤ) (hn : 2 ≤ n) :
    CrcOk m pos n ↔ (m (pos + n - 2) = 0 ∧ m (pos + n - 1) = 0) ∨
      256 ∣ (byteSums (slice m pos n)).1 ∧ 256 ∣ (byteSums (slice m pos n)).2 := by
  have hsplit := slice_tail m pos hn
  unfold CrcOk
  rw [be16_eq_zero, crcOf_eq m pos hn, be16_inj, byteSums_dvd]
  unfold zeroedTail
  rw [← check_iff, ← hsplit]

/-- What `put_crc` writes is accepted. -/
theorem crcOk_putCrc {pkt : List UInt8} (h2 : 2 ≤ pkt.length) (h : Holds m pos (putCrc pkt)) : CrcOk m pos pkt.length := by
  have hlen : (putCrc pkt).length = pkt.length := by
    unfold putCrc
    rw [List.length_append, List.length_take]
    simp only [List.length_cons, List.length_nil]
    omega
  have hslice : slice m pos pkt.length = putCrc pkt := by
    unfold Holds at h
    rwa [hlen] at h
  rw [crcOk_iff m pos h2, byteSums_dvd, hslice]
  right
  unfold putCrc zeroedTail
  exact (check_iff _ _ _).2 ⟨rfl, rfl⟩

/-- The bytes of a packet around two of them. -/
theorem slice_around (m : Mem) (pos : ℤ) {i : ℕ} (hi : i + 1 < n) : slice m pos n =
    slice m pos i ++ [m (pos + i), m (pos + i + 1)] ++ slice m (pos + i + 2) (n - i - 2) := by
  obtain ⟨q, rfl⟩ : ∃ q, n = i + 2 + q := ⟨n - i - 2, by omega⟩
  have hpair : slice m (pos + i) 2 = [m (pos + i), m (pos + i + 1)] := by rw [slice_succ, slice_succ, slice_zero]
  have hend : pos + ((i + 2 : ℕ) : ℤ) = pos + i + 2 := by push_cast; ring
  rw [slice_add, slice_add, hpair, hend, show i + 2 + q - i - 2 = q by omega]

/-- **A change of two neighbouring bytes** of an accepted packet with a checksum is rejected. -/
theorem crcOk_adjacent (hn : 2 ≤ n) (hok : CrcOk m pos n) (hfield : ¬(m (pos + n - 2) = 0 ∧ m (pos + n - 1) = 0))
    (hfield' : ¬(m' (pos + n - 2) = 0 ∧ m' (pos + n - 1) = 0)) {i : ℕ} (hi : i + 1 < n)
    (hrest : ∀ j, pos ≤ j → j < pos + n → j ≠ pos + i → j ≠ pos + i + 1 → m' j = m j)
    (hdiff : m' (pos + i) ≠ m (pos + i) ∨ m' (pos + i + 1) ≠ m (pos + i + 1)) : ¬CrcOk m' pos n := by
  intro hok'
  rw [crcOk_iff m pos hn, or_iff_right hfield, byteSums_dvd] at hok
  rw [crcOk_iff m' pos hn, or_iff_right hfield', byteSums_dvd] at hok'
  have hpre : slice m' pos i = slice m pos i :=
    slice_congr fun j h1 h2 => hrest j h1 (by omega) (by omega) (by omega)
  have hpost : slice m' (pos + i + 2) (n - i - 2) = slice m (pos + i + 2) (n - i - 2) :=
    slice_congr fun j h1 h2 => hrest j (by omega) (by omega) (by omega) (by omega)
  rw [slice_around m' pos hi, hpre, hpost] at hok'
  rw [slice_around m pos hi, ← hok', List.map_append, List.map_append, List.map_append, List.map_append] at hok
  obtain ⟨ha, hb⟩ := sums_adjacent hok
  rcases hdiff with hdiff | hdiff
  · exact hdiff (residue_injective ha).symm
  · exact hdiff (residue_injective hb).symm

/-- **The checksum law.** A packet of `n` bytes with a checksum is accepted exactly if both sums over all its
bytes are 0 modulo 256; what `put_crc` writes is accepted; and an accepted packet of which one or
two neighbouring bytes are changed, but neither its length nor the presence of a checksum, is rejected, and not
dispatched by `parse_packets`. -/
theorem checksum_law (hn : 3 ≤ n) (hfield : ¬(m (pos + n - 2) = 0 ∧ m (pos + n - 1) = 0)) :
    (CrcOk m pos n ↔ 256 ∣ (byteSums (slice m pos n)).1 ∧ 256 ∣ (byteSums (slice m pos n)).2) ∧
      (∀ m' pkt, pkt.length = n → Holds m' pos (putCrc pkt) → CrcOk m' pos n) ∧
      (CrcOk m pos n → ∀ (m' : Mem) (i : ℕ), i + 1 < n →
        (∀ j, pos ≤ j → j < pos + n → j ≠ pos + i → j ≠ pos + i + 1 → m' j = m j) →
        (m' (pos + i) ≠ m (pos + i) ∨ m' (pos + i + 1) ≠ m (pos + i + 1)) →
        ¬(m' (pos + n - 2) = 0 ∧ m' (pos + n - 1) = 0) →
        ¬CrcOk m' pos n ∧ ∀ frameLen, pktLength m' frameLen pos = n →
          ∀ k, (look ⟨m', frameLen⟩ pos).val ≠ .packet k) := by
  have h2 : 2 ≤ n := by omega
  refine ⟨?_, fun m' pkt hlen hholds => ?_, fun hok m' i hi hrest hdiff hfield' => ?_⟩
  · rw [crcOk_iff m pos h2, or_iff_right hfield]
  · rw [← hlen] at h2 ⊢
    exact crcOk_putCrc h2 hholds
  · have hbad := crcOk_adjacent h2 hok hfield hfield' hi hrest hdiff
    refine ⟨hbad, fun frameLen hlength k hlook => ?_⟩
    obtain ⟨hfound, hgood⟩ := look_packet.1 hlook
    rw [← hfound.length, hlength] at hgood
    exact hbad hgood

/-- The packet 01 FE 01 is accepted, and rejected with another first byte. -/
theorem checksum_law_three : CrcOk (ofList [1, 254, 1]) 0 3 ∧ ¬CrcOk (ofList [2, 254, 1]) 0 3 := by
  have hlaw := @checksum_law (ofList [1, 254, 1]) 0 3 le_rfl (by decide)
  have hok : CrcOk (ofList [1, 254, 1]) 0 3 := hlaw.1.2 (by decide)
  refine ⟨hok, (hlaw.2.2 hok (ofList [2, 254, 1]) 0 (by norm_num) (fun j h1 h2 h3 h4 => ?_) (by decide) (by decide)).1⟩
  have hj : j = 2 := by omega
  rw [hj]
  rfl

end InmarsatSniffer.Stdc
