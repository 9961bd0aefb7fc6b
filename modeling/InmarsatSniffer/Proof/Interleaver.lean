import Mathlib
import InmarsatSniffer.Proof.FrameRecovery
import InmarsatSniffer.Spec.Interleaver

/-!
# The interleaver is inverted

The two row tables are inverse to each other, since 27 is a unit modulo 64. With that the entries of the
interleaver and of the deinterleaver, one behind the other, are the table that moves nothing.

* `col_of_row`, `row_of_col`: the tables one behind the other.
* `interleaver_inverts`: **interleaving and deinterleaving undo each other**, for every number of columns, and
  so do the two deinterleavers for fewer columns.
* `deinterleaveBa_decoder`: what the P channel decoder has from `deinterleave_ba`.
-/

namespace InmarsatSniffer.Aero

open Gather

/-! ## The row tables -/

/-- The other order: 27 has an inverse modulo 64. -/
theorem interleaveRowDepermute_permute : ∀ i < 64, interleaveRowDepermute (interleaveRowPermute.getD i 0) = i := by
  decide +kernel

theorem interleaveRowPermute_lt : ∀ i < 64, interleaveRowPermute.getD i 0 < 64 := by decide +kernel

namespace AeroLInterleaver

variable {l l' : AeroLInterleaver} {N cols : ℕ} {block : List ℤ}

theorem rowEntries_length : (rowEntries N).length = 64 * N := grid_length

theorem colEntries_length : (colEntries cols).length = 64 * cols := grid_length.trans (Nat.mul_comm _ _)

theorem rowEntries_lt {e : ℕ} (he : e ∈ rowEntries N) : e < 64 * N := by
  obtain ⟨i, hi, j, hj, rfl⟩ := mem_grid.1 he
  have hlt := index_lt hj (interleaveRowPermute_lt i hi)
  omega

theorem colEntries_lt {e : ℕ} (he : e ∈ colEntries cols) : e < 64 * cols := by
  obtain ⟨j, hj, i, hi, rfl⟩ := mem_grid.1 he
  exact index_lt (interleaveRowDepermute_lt i) hj

/-- **The deinterleaver behind the interleaver** moves nothing. -/
theorem col_of_row : (colEntries N).map (fun e => (rowEntries N).getD e 0) = List.range (64 * N) := by
  rw [colEntries, map_grid, Nat.mul_comm 64, ← grid_eq_range]
  apply grid_congr
  intro j hj i hi
  rw [rowEntries, grid_getD (interleaveRowDepermute_lt i) hj, interleaveRowPermute_depermute i hi]
  omega

/-- **The interleaver behind the deinterleaver** moves nothing. -/
theorem row_of_col : (rowEntries N).map (fun e => (colEntries N).getD e 0) = List.range (64 * N) := by
  rw [rowEntries, map_grid, ← grid_eq_range]
  apply grid_congr
  intro i hi j hj
  rw [Nat.add_comm, Nat.mul_comm 64 j, colEntries, grid_getD hj (interleaveRowPermute_lt i hi),
    interleaveRowDepermute_permute i hi]

theorem pick_col_row (h : 64 * N ≤ block.length) :
    pick (colEntries N) (pick (rowEntries N) block) = block.take (64 * N) := by
  rw [pick_pick fun e he => by rw [rowEntries_length]; exact colEntries_lt he, col_of_row, pick_range h]

theorem pick_row_col (h : 64 * N ≤ block.length) :
    pick (rowEntries N) (pick (colEntries N) block) = block.take (64 * N) := by
  rw [pick_pick fun e he => by rw [colEntries_length]; exact rowEntries_lt he, row_of_col, pick_range h]

/-! ## The functions -/

theorem setSize_N (l : AeroLInterleaver) (hN : 1 ≤ N) : (l.setSize N).N = N := by
  unfold setSize
  rw [if_neg (by omega)]
  exact Int.toNat_natCast N

/-- **`interleave`** of a whole block. -/
theorem interleave_eq (hlen : block.length = 64 * l.N) :
    ∃ l', l.interleave block = some l' ∧ l'.N = l.N ∧ l'.matrix.toList = pick (rowEntries l.N) block := by
  obtain ⟨matrix, hcopy, hlist⟩ := copy_eq id block l.matrix
    (fun e he => (rowEntries_lt he).trans_eq hlen.symm) rowEntries_length.le
  refine ⟨{ l with matrix := matrix }, ?_, rfl, ?_⟩
  · rw [interleave, if_pos hlen, hcopy]
    rfl
  · rw [hlist, List.map_id, rowEntries_length, List.drop_of_length_le (by rw [Vector.length_toList]), List.append_nil]

/-- **`deinterleave`** of a whole block. -/
theorem deinterleave_eq (hlen : block.length = 64 * l.N) :
    ∃ l', l.deinterleave block = some l' ∧ l'.N = l.N ∧ l'.matrix.toList = pick (colEntries l.N) block := by
  obtain ⟨matrix, hcopy, hlist⟩ := copy_eq id block l.matrix
    (fun e he => (colEntries_lt he).trans_eq hlen.symm) colEntries_length.le
  refine ⟨{ l with matrix := matrix }, ?_, rfl, ?_⟩
  · rw [deinterleave, if_pos hlen, hcopy]
    rfl
  · rw [hlist, List.map_id, colEntries_length, List.drop_of_length_le (by rw [Vector.length_toList]), List.append_nil]

/-- **`deinterleave` with fewer columns** writes the front of the matrix. -/
theorem deinterleaveCols_eq (hcols : cols ≤ l.N) (hlen : 64 * cols ≤ block.length) :
    ∃ l', l.deinterleaveCols block cols = some l' ∧ l'.matrix.toList.take (64 * cols) = pick (colEntries cols) block := by
  obtain ⟨matrix, hcopy, hlist⟩ := copy_eq id block l.matrix
    (fun e he => (colEntries_lt he).trans_le hlen) (colEntries_length.trans_le (Nat.mul_le_mul_left 64 hcols))
  refine ⟨{ l with matrix := matrix }, ?_, ?_⟩
  · rw [deinterleaveCols, if_pos ⟨hcols, hlen⟩, hcopy]
    rfl
  · rw [hlist, List.map_id, List.take_left' (pick_length.trans colEntries_length)]

/-- **`deinterleave_ba` with fewer columns** writes the front of its matrix, in bytes. -/
theorem deinterleaveBa_eq (hpos : 1 ≤ cols) (hcols : cols ≤ l.N) (hlen : 64 * cols ≤ block.length) :
    ∃ l', l.deinterleaveBa block cols = some l' ∧ l'.N = l.N ∧
      l'.matrixBa.toList.take (64 * cols) = (pick (colEntries cols) block).map toByte := by
  obtain ⟨matrixBa, hcopy, hlist⟩ := copy_eq toByte block l.matrixBa
    (fun e he => (colEntries_lt he).trans_le hlen) (colEntries_length.trans_le (Nat.mul_le_mul_left 64 hcols))
  refine ⟨{ l with matrixBa := matrixBa }, ?_, rfl, ?_⟩
  · unfold deinterleaveBa
    dsimp only
    rw [if_neg (by omega : ¬cols = 0), if_pos ⟨hcols, hlen⟩, hcopy]
    rfl
  · rw [hlist, List.take_left' ((List.length_map _).trans (pick_length.trans colEntries_length))]

/-! ## Inversion -/

/-- The symbols are those of a byte. -/
def Symbols (block : List ℤ) : Prop := ∀ x ∈ block, 0 ≤ x ∧ x < 256

theorem toByte_toNat {x : ℤ} (h0 : 0 ≤ x) (h : x < 256) : ((toByte x).toNat : ℤ) = x := by
  have hmod : x % 256 = x := Int.emod_eq_of_lt h0 h
  have hlt : x.toNat < 256 := by omega
  rw [toByte, hmod, UInt8.toNat_ofNat_of_lt' hlt, Int.toNat_of_nonneg h0]

/-- What is picked from symbols is the same in bytes. -/
theorem bytes_pick (hsym : Symbols block) (hlen : 64 * cols ≤ block.length) :
    ((pick (colEntries cols) block).map toByte).map (fun b => (b.toNat : ℤ)) = pick (colEntries cols) block := by
  unfold pick
  rw [List.map_map, List.map_map]
  apply List.map_congr_left
  intro e he
  have hlt := (colEntries_lt he).trans_le hlen
  obtain ⟨h0, h256⟩ := hsym _ (List.getElem_mem hlt)
  rw [Function.comp_apply, Function.comp_apply, List.getD_eq_getElem _ _ hlt]
  exact toByte_toNat h0 h256

/-- **The interleaver with `N` columns is inverted**, whatever is in its matrices. The block that is passed on
is a copy. -/
structure Inverts (l : AeroLInterleaver) (N : ℕ) : Prop where
  back : ∀ block, block.length = 64 * N → Symbols block → ∃ sent got, (l.setSize N).interleave block = some sent ∧
    sent.deinterleave sent.matrix.toList = some got ∧ got.matrix.toList = block
  forth : ∀ block, block.length = 64 * N → Symbols block → ∃ got sent, (l.setSize N).deinterleave block = some got ∧
    got.interleave got.matrix.toList = some sent ∧ sent.matrix.toList = block
  /-- The deinterleavers for fewer columns agree. -/
  agree : ∀ cols, 1 ≤ cols → cols ≤ N → ∀ block, 64 * cols ≤ block.length → Symbols block →
    ∃ got gotBa, (l.setSize N).deinterleaveCols block cols = some got ∧
      (l.setSize N).deinterleaveBa block cols = some gotBa ∧
      got.matrix.toList.take (64 * cols) = (gotBa.matrixBa.toList.take (64 * cols)).map fun b => (b.toNat : ℤ)
  /-- They undo an interleaver that has these columns. -/
  colsBack : ∀ cols, 1 ≤ cols → cols ≤ N → ∀ (sender : AeroLInterleaver) (block rest : List ℤ), block.length = 64 * cols →
    Symbols block → ∃ sent got gotBa, (sender.setSize cols).interleave block = some sent ∧
      (l.setSize N).deinterleaveCols (sent.matrix.toList ++ rest) cols = some got ∧
      (l.setSize N).deinterleaveBa (sent.matrix.toList ++ rest) cols = some gotBa ∧
      got.matrix.toList.take (64 * cols) = block ∧
      (gotBa.matrixBa.toList.take (64 * cols)).map (fun b => (b.toNat : ℤ)) = block
  /-- And it undoes them. -/
  colsForth : ∀ cols, 1 ≤ cols → cols ≤ N → ∀ (sender : AeroLInterleaver) (block : List ℤ), 64 * cols ≤ block.length →
    Symbols block → ∃ got sent, (l.setSize N).deinterleaveCols block cols = some got ∧
      (sender.setSize cols).interleave (got.matrix.toList.take (64 * cols)) = some sent ∧
      sent.matrix.toList = block.take (64 * cols)

theorem pick_row_append {rest : List ℤ} (hlen : block.length = 64 * cols) :
    pick (colEntries cols) (pick (rowEntries cols) block ++ rest) = block := by
  have hfront : pick (colEntries cols) (pick (rowEntries cols) block ++ rest) =
      pick (colEntries cols) (pick (rowEntries cols) block) := by
    unfold pick
    apply List.map_congr_left
    intro e he
    apply List.getD_append
    rw [List.length_map, rowEntries_length]
    exact colEntries_lt he
  rw [hfront, pick_col_row hlen.ge, List.take_of_length_le hlen.le]

/-- **The interleaver is inverted**, for every number of columns. -/
theorem interleaver_inverts (l : AeroLInterleaver) {N : ℕ} (hN : 1 ≤ N) : Inverts l N where
  back block hlen _ := by
    have hsize := setSize_N l hN
    obtain ⟨sent, hsent, hsentN, hmatrix⟩ := interleave_eq (l := l.setSize N) (by rw [hsize]; exact hlen)
    rw [hsize] at hsentN hmatrix
    have hsent' : sent.matrix.toList.length = 64 * sent.N := Vector.length_toList
    obtain ⟨got, hgot, -, hback⟩ := deinterleave_eq hsent'
    refine ⟨sent, got, hsent, hgot, ?_⟩
    rw [hback, hmatrix, hsentN, pick_col_row hlen.ge, List.take_of_length_le hlen.le]
  forth block hlen _ := by
    have hsize := setSize_N l hN
    obtain ⟨got, hgot, hgotN, hmatrix⟩ := deinterleave_eq (l := l.setSize N) (by rw [hsize]; exact hlen)
    rw [hsize] at hgotN hmatrix
    have hgot' : got.matrix.toList.length = 64 * got.N := Vector.length_toList
    obtain ⟨sent, hsent, -, hback⟩ := interleave_eq hgot'
    refine ⟨got, sent, hgot, hsent, ?_⟩
    rw [hback, hmatrix, hgotN, pick_row_col hlen.ge, List.take_of_length_le hlen.le]
  agree cols hpos hcols block hlen hsym := by
    have hle : cols ≤ (l.setSize N).N := hcols.trans_eq (setSize_N l hN).symm
    obtain ⟨got, hgot, hfront⟩ := deinterleaveCols_eq hle hlen
    obtain ⟨gotBa, hgotBa, -, hfrontBa⟩ := deinterleaveBa_eq hpos hle hlen
    refine ⟨got, gotBa, hgot, hgotBa, ?_⟩
    rw [hfront, hfrontBa, bytes_pick hsym hlen]
  colsBack cols hpos hcols sender block rest hlen hsym := by
    have hle : cols ≤ (l.setSize N).N := hcols.trans_eq (setSize_N l hN).symm
    have hsize := setSize_N sender hpos
    obtain ⟨sent, hsent, hsentN, hmatrix⟩ := interleave_eq (l := sender.setSize cols) (by rw [hsize]; exact hlen)
    rw [hsize] at hmatrix
    have hlong : 64 * cols ≤ (sent.matrix.toList ++ rest).length := by
      rw [List.length_append, hmatrix, pick_length, rowEntries_length]
      omega
    obtain ⟨got, hgot, hfront⟩ := deinterleaveCols_eq hle hlong
    obtain ⟨gotBa, hgotBa, -, hfrontBa⟩ := deinterleaveBa_eq hpos hle hlong
    rw [hmatrix, pick_row_append hlen] at hfront hfrontBa
    refine ⟨sent, got, gotBa, hsent, hgot, hgotBa, hfront, ?_⟩
    rw [hfrontBa, List.map_map]
    refine (List.map_congr_left fun x hx => ?_).trans (List.map_id _)
    exact toByte_toNat (hsym x hx).1 (hsym x hx).2
  colsForth cols hpos hcols sender block hlen _ := by
    have hle : cols ≤ (l.setSize N).N := hcols.trans_eq (setSize_N l hN).symm
    have hsize := setSize_N sender hpos
    obtain ⟨got, hgot, hfront⟩ := deinterleaveCols_eq hle hlen
    have hgot' : (got.matrix.toList.take (64 * cols)).length = 64 * (sender.setSize cols).N := by
      rw [hfront, hsize, pick_length, colEntries_length]
    obtain ⟨sent, hsent, -, hmatrix⟩ := interleave_eq hgot'
    refine ⟨got, sent, hgot, hsent, ?_⟩
    rw [hmatrix, hsize, hfront, pick_row_col hlen]

/-- The columns of 600 bps, and a block that is not constant. -/
theorem sixColumns_invert : ∃ sent got, (create.setSize 6).interleave ((List.range 384).map fun k : ℕ => ((k % 256 : ℕ) : ℤ)) = some sent ∧
    sent.deinterleave sent.matrix.toList = some got ∧ got.matrix.toList = (List.range 384).map fun k : ℕ => ((k % 256 : ℕ) : ℤ) :=
  (interleaver_inverts create (N := 6) (by decide)).back _ (by rw [List.length_map, List.length_range]) fun x hx => by
    obtain ⟨k, -, rfl⟩ := List.mem_map.1 hx
    omega

/-! ## The decoder -/

theorem toByte_natCast (x : UInt16) : toByte (x.toNat : ℤ) = x.toUInt8 := by
  have hmod : ((x.toNat : ℤ) % 256).toNat = x.toNat % 256 := by omega
  apply UInt8.toNat_inj.1
  rw [toByte, hmod, UInt8.toNat_ofNat_of_lt' (Nat.mod_lt _ (by norm_num)), UInt16.toNat_toUInt8]

/-- **What the decoder has from `deinterleave_ba`**: the block of the P channel, whose symbols are 16 bits wide
in the model, goes through the whole interleaver. -/
theorem deinterleaveBa_decoder {block : List UInt16} (hN : 1 ≤ l.N) (hlen : block.length = 64 * l.N) :
    ∃ l', l.deinterleaveBa (block.map fun x => (x.toNat : ℤ)) 0 = some l' ∧
      l'.matrixBa.toList = Aero.deinterleaveBa l.N block := by
  have hlong : 64 * l.N ≤ (block.map fun x => (x.toNat : ℤ)).length := by
    rw [List.length_map]
    exact hlen.ge
  obtain ⟨l', hrun, hsame, hfront⟩ := deinterleaveBa_eq hN le_rfl hlong
  -- zero columns stand for all of them
  have hzero : l.deinterleaveBa (block.map fun x => (x.toNat : ℤ)) 0 =
      l.deinterleaveBa (block.map fun x => (x.toNat : ℤ)) l.N := by
    unfold deinterleaveBa
    dsimp only
    rw [if_pos rfl, if_neg (by omega : ¬l.N = 0)]
  refine ⟨l', hzero.trans hrun, ?_⟩
  rw [List.take_of_length_le (by rw [Vector.length_toList, hsame])] at hfront
  rw [hfront, Aero.deinterleaveBa, colEntries, pick, grid, List.map_map, List.map_flatMap]
  apply List.flatMap_congr
  intro j hj
  rw [List.map_map]
  apply List.map_congr_left
  intro i hi
  have hlt : interleaveRowDepermute i * l.N + j < block.length := by
    rw [hlen]
    exact index_lt (interleaveRowDepermute_lt i) (List.mem_range.1 hj)
  rw [Function.comp_apply, Function.comp_apply, List.getD_eq_getElem _ _ (by rwa [List.length_map]), List.getElem_map,
    List.getD_eq_getElem _ _ hlt, toByte_natCast]

end AeroLInterleaver

end InmarsatSniffer.Aero
