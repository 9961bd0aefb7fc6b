import Mathlib
import InmarsatSniffer.Lib.Gather
import InmarsatSniffer.Spec.PChannel

/-!
# The interleaver of the aero channels

`AeroLInterleaver` copies a block of 64 rows through its two row tables into `matrix` or
`matrix_ba`, and returns a reference to it. An assertion that fails ends the program, so the
functions are partial.
-/

namespace InmarsatSniffer.Aero

open Gather

/-- `AeroLInterleaver`, with `M = 64`. Both matrices have `M * N` entries. -/
structure AeroLInterleaver where
  N : ℕ
  matrix : Vector ℤ (64 * N)
  matrixBa : Vector UInt8 (64 * N)

namespace AeroLInterleaver

/-- `setSize`; `resize` keeps what is there. -/
def setSize (l : AeroLInterleaver) (N : ℤ) : AeroLInterleaver :=
  if N < 1 then l
  else
    { N := N.toNat
      matrix := Vector.ofFn fun k => l.matrix.toList.getD k 0
      matrixBa := Vector.replicate _ 0 }

/-- `AeroLInterleaver::AeroLInterleaver`. -/
def create : AeroLInterleaver := setSize ⟨0, Vector.replicate _ 0, Vector.replicate _ 0⟩ 6

/-- The entries in the loops of `interleave`: row `i` of the block that is sent, column `j`. -/
def rowEntries (N : ℕ) : List ℕ := grid 64 N fun i j => interleaveRowPermute.getD i 0 + 64 * j

/-- The entries in the loops of the deinterleavers for `cols` columns. -/
def colEntries (cols : ℕ) : List ℕ := grid cols 64 fun j i => interleaveRowDepermute i * cols + j

/-- `interleave`. -/
def interleave (l : AeroLInterleaver) (block : List ℤ) : Option AeroLInterleaver :=
  if block.length = 64 * l.N then
    (copy id block l.matrix (rowEntries l.N)).map fun matrix => { l with matrix := matrix }
  else none

/-- `deinterleave(block)`. -/
def deinterleave (l : AeroLInterleaver) (block : List ℤ) : Option AeroLInterleaver :=
  if block.length = 64 * l.N then
    (copy id block l.matrix (colEntries l.N)).map fun matrix => { l with matrix := matrix }
  else none

/-- `deinterleave(block, cols)`. -/
def deinterleaveCols (l : AeroLInterleaver) (block : List ℤ) (cols : ℕ) : Option AeroLInterleaver :=
  if cols ≤ l.N ∧ 64 * cols ≤ block.length then
    (copy id block l.matrix (colEntries cols)).map fun matrix => { l with matrix := matrix }
  else none

/-- `(uint8_t)` of an `int`. -/
def toByte (symbol : ℤ) : UInt8 := UInt8.ofNat (symbol % 256).toNat

/-- `deinterleave_ba`. -/
def deinterleaveBa (l : AeroLInterleaver) (block : List ℤ) (cols : ℕ) : Option AeroLInterleaver :=
  -- default to MSK settings if zero
  let cols := if cols = 0 then l.N else cols
  if cols ≤ l.N ∧ 64 * cols ≤ block.length then
    (copy toByte block l.matrixBa (colEntries cols)).map fun matrixBa => { l with matrixBa := matrixBa }
  else none

end AeroLInterleaver

end InmarsatSniffer.Aero
