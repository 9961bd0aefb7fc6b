import Mathlib
import InmarsatSniffer.Spec.AeroL

/-!
# `AeroLcrc16` on bits

The variants of the checksum that take the bits of a message one by one.
-/

namespace InmarsatSniffer.Aero

/-- `AeroLcrc16::calcusingbits`. -/
def calcUsingBits (bits : List Bool) : UInt16 := ~~~(bits.foldl crcBit 0xFFFF)

/-- `AeroLcrc16::calcusingbitsandcheck`: the last 16 bits against the checksum of those before them. -/
def calcUsingBitsAndCheck (bits : List Bool) : Bool :=
  let numberOfBits := bits.length - 16
  let crcRec : UInt16 :=
    (bits.drop numberOfBits).reverse.foldl (fun crcRec bit => crcRec <<< 1 ||| if bit then 1 else 0) 0
  crcRec == calcUsingBits (bits.take numberOfBits)

/-- The bits of a byte, the lowest one first. -/
def byteBits (byte : UInt8) : List Bool := (List.range 8).map fun k => byte.toNat.testBit k

/-- A checksum as it is sent, the lowest bit first. -/
def crcBits (crc : UInt16) : List Bool := (List.range 16).map fun k => crc.toNat.testBit k

end InmarsatSniffer.Aero
