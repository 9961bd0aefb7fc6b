import Mathlib
import InmarsatSniffer.Lib.Lfsr
import InmarsatSniffer.Spec.Crc

/-!
# The checksum of the aero channels

`AeroLcrc16` is a shift register with feedback (`crcBit_toBitVec`), so that its laws are those of
`Lfsr`.

* `calcUsingBytes_eq`: a byte is its bits, the lowest one first, in spite of the sign of a `char`.
* `check_iff_residue`: `calcusingbitsandcheck` accepts what leaves the residue in the register.
* `crc_law`: **the variants agree, codewords are accepted, bursts of at most 16 bits are rejected**.
-/

namespace InmarsatSniffer.Aero

open Lfsr

/-- The reversed polynomial. -/
abbrev crcPoly : BitVec 16 := 0x8408#16

theorem crcPoly_top : crcPoly.getLsbD (16 - 1) = true := by decide

/-! ## The register -/

theorem lowBit_eq (crc : UInt16) : (crc &&& 1 == 1) = crc.toBitVec.getLsbD 0 := by
  have hand : (crc &&& 1).toBitVec = BitVec.setWidth 16 (BitVec.ofBool (crc.toBitVec.getLsbD 0)) := by
    rw [UInt16.toBitVec_and]
    exact BitVec.and_one_eq_setWidth_ofBool_getLsbD
  rw [Bool.eq_iff_iff, beq_iff_eq, ← UInt16.toBitVec_inj, hand]
  cases crc.toBitVec.getLsbD 0 <;> decide

/-- **A bit of `AeroLcrc16`** is a step of the register. -/
theorem crcBit_toBitVec (crc : UInt16) (bit : Bool) : (crcBit crc bit).toBitVec = step crcPoly crc.toBitVec bit := by
  unfold crcBit step
  rw [lowBit_eq]
  split
  · rw [UInt16.toBitVec_xor, UInt16.toBitVec_shiftRight]
    rfl
  · rw [UInt16.toBitVec_shiftRight]
    rfl

theorem foldl_toBitVec (crc : UInt16) (bits : List Bool) :
    (bits.foldl crcBit crc).toBitVec = run crcPoly crc.toBitVec bits := by
  induction bits generalizing crc with
  | nil => rfl
  | cons bit bits ih =>
    unfold run at ih ⊢
    rw [List.foldl_cons, List.foldl_cons, ih, crcBit_toBitVec]

/-- The register behind a message. -/
def register (bits : List Bool) : BitVec 16 := run crcPoly 0xFFFF#16 bits

theorem calcUsingBits_toBitVec (bits : List Bool) : (calcUsingBits bits).toBitVec = ~~~register bits := by
  unfold calcUsingBits register
  rw [UInt16.toBitVec_not, foldl_toBitVec]
  rfl

theorem crcBits_eq (crc : UInt16) : crcBits crc = Lfsr.own crc.toBitVec := rfl

/-! ## Bytes -/

/-- The bits of a signed `char`. -/
theorem crcByte_eq (crc : UInt16) (byte : UInt8) : crcByte crc byte = (byteBits byte).foldl crcBit crc := by
  have hbits : ∀ v < 256, ∀ k < 8, ((UInt8.ofNat v).toInt8.toInt / 2 ^ k % 2 == 1) = v.testBit k := by decide +kernel
  have hlt := byte.toNat_lt
  unfold crcByte byteBits
  rw [List.foldl_map]
  apply List.foldl_ext
  intro acc k hk
  have hbit := hbits byte.toNat hlt k (List.mem_range.1 hk)
  rw [UInt8.ofNat_toNat] at hbit
  rw [hbit]

/-- **A byte at a time** is a bit at a time. -/
theorem calcUsingBytes_eq (bytes : List UInt8) : calcUsingBytes bytes = calcUsingBits (bytes.flatMap byteBits) := by
  have hfold : ∀ crc : UInt16, bytes.foldl crcByte crc = (bytes.flatMap byteBits).foldl crcBit crc := by
    induction bytes with
    | nil => exact fun _ => rfl
    | cons byte bytes ih =>
      intro crc
      rw [List.foldl_cons, List.flatMap_cons, List.foldl_append, crcByte_eq, ih]
  unfold calcUsingBytes calcUsingBits
  rw [hfold]

/-! ## The check -/

/-- One bit more of the received checksum. -/
theorem shiftIn_getLsbD (crc : UInt16) (bit : Bool) {i : ℕ} (hi : i < 16) :
    (crc <<< 1 ||| if bit then 1 else 0).toBitVec.getLsbD i = (bit :: Lfsr.own crc.toBitVec).getD i false := by
  have hlow : (if bit then (1 : UInt16) else 0).toBitVec.getLsbD i = (decide (i = 0) && bit) := by
    have hone : ∀ j < 16, (1 : UInt16).toBitVec.getLsbD j = decide (j = 0) := by decide
    have hnone : ∀ j < 16, (0 : UInt16).toBitVec.getLsbD j = false := by decide
    cases bit with
    | true => rw [if_pos rfl, hone i hi, Bool.and_true]
    | false => rw [if_neg Bool.false_ne_true, hnone i hi, Bool.and_false]
  have hshift : (crc <<< 1).toBitVec = crc.toBitVec <<< 1 := by
    rw [UInt16.toBitVec_shiftLeft]
    rfl
  rw [UInt16.toBitVec_or, BitVec.getLsbD_or, hlow, hshift, BitVec.getLsbD_shiftLeft]
  cases i with
  | zero => simp
  | succ i =>
    rw [List.getD_cons_succ, List.getD_eq_getElem _ _ (by rw [own_length]; omega), own_getElem]
    simp [hi]

/-- The bits of the received checksum. -/
theorem crcRec_eq {bits : List Bool} (h : bits.length = 16) :
    Lfsr.own (bits.reverse.foldl (fun (crcRec : UInt16) bit => crcRec <<< 1 ||| if bit then 1 else 0) 0).toBitVec = bits := by
  -- from the last bit on, each one goes in below those before it
  have hbits : ∀ l : List Bool, ∀ i < 16,
      (l.foldr (fun bit (crcRec : UInt16) => crcRec <<< 1 ||| if bit then 1 else 0) 0).toBitVec.getLsbD i = l.getD i false := by
    intro l
    induction l with
    | nil => decide
    | cons bit l ih =>
      intro i hi
      rw [List.foldr_cons, shiftIn_getLsbD _ _ hi]
      cases i with
      | zero => rfl
      | succ i =>
        rw [List.getD_cons_succ, List.getD_cons_succ, List.getD_eq_getElem _ _ (by rw [own_length]; omega), own_getElem,
          ih i (by omega)]
  rw [List.foldl_reverse]
  apply List.ext_getElem
  · rw [own_length, h]
  · intro i h1 h2
    rw [own_getElem, hbits bits i (by omega), List.getD_eq_getElem _ _ h2]

/-- **The check is one for the residue.** -/
theorem check_iff_residue {bits : List Bool} (h : 16 ≤ bits.length) :
    calcUsingBitsAndCheck bits = true ↔ register bits = residue crcPoly := by
  have hlast : (bits.drop (bits.length - 16)).length = 16 := by
    rw [List.length_drop]
    omega
  have hrun : register bits = run crcPoly (register (bits.take (bits.length - 16))) (bits.drop (bits.length - 16)) := by
    unfold register
    rw [← Lfsr.run_append, List.take_append_drop]
  unfold calcUsingBitsAndCheck
  dsimp only
  rw [beq_iff_eq, hrun, run_eq_residue_iff crcPoly_top hlast, ← calcUsingBits_toBitVec, ← UInt16.toBitVec_inj]
  constructor
  · intro heq
    rw [← heq, crcRec_eq hlast]
  · intro heq
    apply own_injective
    rw [crcRec_eq hlast, heq]

/-- An error pattern within 16 bits. -/
theorem error_split {err : List Bool} (hone : true ∈ err) {start : ℕ}
    (hburst : ∀ j, err.getD j false = true → start ≤ j ∧ j < start + 16) :
    ∃ before burst behind, err = List.replicate before false ++ burst ++ List.replicate behind false ∧
      burst.length ≤ 16 ∧ true ∈ burst := by
  have hquiet : ∀ j, ∀ hj : j < err.length, j < start ∨ start + 16 ≤ j → err[j] = false := fun j hj hout => by
    by_contra hne
    have hset : err.getD j false = true := by
      rw [List.getD_eq_getElem _ _ hj]
      exact Bool.eq_true_of_not_eq_false hne
    have := hburst j hset
    omega
  have hbefore : err.take start = List.replicate (err.take start).length false := by
    apply List.ext_getElem
    · rw [List.length_replicate]
    · intro i h1 h2
      rw [List.length_take] at h1
      rw [List.getElem_take, List.getElem_replicate, hquiet i (by omega) (by omega)]
  have hbehind : err.drop (start + 16) = List.replicate (err.drop (start + 16)).length false := by
    apply List.ext_getElem
    · rw [List.length_replicate]
    · intro i h1 h2
      rw [List.length_drop] at h1
      rw [List.getElem_drop, List.getElem_replicate, hquiet _ (by omega) (by omega)]
  have hsplit : err = err.take start ++ (err.drop start).take 16 ++ err.drop (start + 16) := by
    rw [← List.drop_drop, List.append_assoc, List.take_append_drop, List.take_append_drop]
  refine ⟨(err.take start).length, (err.drop start).take 16, (err.drop (start + 16)).length, ?_, List.length_take_le _ _, ?_⟩
  · rw [← hbefore, ← hbehind]
    exact hsplit
  · rw [hsplit, hbefore, hbehind] at hone
    simpa using hone

/-- **Bursts are rejected.** -/
theorem check_burst {bits err : List Bool} (hok : calcUsingBitsAndCheck bits = true) (h : 16 ≤ bits.length)
    (hlen : err.length = bits.length) (hone : true ∈ err) {start : ℕ}
    (hburst : ∀ j, err.getD j false = true → start ≤ j ∧ j < start + 16) :
    calcUsingBitsAndCheck (List.zipWith xor bits err) = false := by
  obtain ⟨before, burst, behind, rfl, hshort, hset⟩ := error_split hone hburst
  rw [check_iff_residue h] at hok
  rw [← Bool.not_eq_true, check_iff_residue (by rw [List.length_zipWith, hlen, Nat.min_self]; exact h)]
  have hlin := run_xor crcPoly hlen.symm 0xFFFF#16 0#16
  rw [BitVec.xor_zero] at hlin
  have hnonzero := run_burst crcPoly_top hshort hset before behind
  unfold register at hok ⊢
  rw [hlin, hok]
  intro heq
  refine hnonzero ?_
  have hcancel := congrArg (residue crcPoly ^^^ ·) heq
  rwa [← BitVec.xor_assoc, BitVec.xor_self, BitVec.zero_xor] at hcancel

/-- A message and its checksum are accepted. -/
theorem check_codeword (message : List Bool) :
    calcUsingBitsAndCheck (message ++ crcBits (calcUsingBits message)) = true := by
  have hcrc : (crcBits (calcUsingBits message)).length = 16 := own_length _
  rw [check_iff_residue (by rw [List.length_append, hcrc]; omega)]
  unfold register
  rw [Lfsr.run_append, run_eq_residue_iff crcPoly_top hcrc, crcBits_eq, calcUsingBits_toBitVec]
  rfl

/-- **The law of `AeroLcrc16`.** The computation by bytes is that by bits; every message with its checksum is
accepted; and every error pattern other than none within 16 neighbouring bits of it is rejected. -/
theorem crc_law :
    (∀ bytes, calcUsingBytes bytes = calcUsingBits (bytes.flatMap byteBits)) ∧
      (∀ message, calcUsingBitsAndCheck (message ++ crcBits (calcUsingBits message)) = true) ∧
      ∀ message err : List Bool, err.length = message.length + 16 → true ∈ err →
        (∃ start, ∀ j, err.getD j false = true → start ≤ j ∧ j < start + 16) →
        calcUsingBitsAndCheck (List.zipWith xor (message ++ crcBits (calcUsingBits message)) err) = false := by
  refine ⟨calcUsingBytes_eq, check_codeword, fun message err hlen hone ⟨start, hburst⟩ => ?_⟩
  have hcrc : (message ++ crcBits (calcUsingBits message)).length = message.length + 16 := by
    rw [List.length_append]
    exact congrArg _ (own_length _)
  exact check_burst (check_codeword message) (by omega) (by omega) hone hburst

end InmarsatSniffer.Aero
