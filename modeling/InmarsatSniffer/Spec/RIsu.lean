import Mathlib
import InmarsatSniffer.Lib.Logged
import InmarsatSniffer.Spec.Isu

/-!
# Reassembly on the R channel

`RISUData::update` puts the user data of up to three signal units of 17 bytes together. The
first of them with a length sets the size of `userdata`, later ones may make it shorter, and
each writes its bytes at the place of its sequence indicator. Left out of an item are the
fields that only the P channel sets.
-/

namespace InmarsatSniffer.Aero

/-! ## Fields of a signal unit -/

/-- `SEQINDICATOR`. -/
def SU.seqIndicator (data : SU) : ℕ := (data 0).toNat / 16

/-- `SUTYPE`. -/
def SU.suType (data : SU) : ℕ := (data 0).toNat % 16

/-- `SUTotal`. -/
def SU.suTotal (data : SU) : ℕ :=
  match data.seqIndicator with
  | 1 => 1
  | 2 => 2
  | 3 => 2
  | 4 => 3
  | 5 => 3
  | 6 => 3
  | _ => 0

/-- `SUindex`. -/
def SU.suIndex (data : SU) : ℕ :=
  match data.seqIndicator with
  | 3 => 1
  | 5 => 1
  | 6 => 2
  | _ => 0

/-- `BytesInSU`. -/
def SU.bytesInSU (data : SU) : ℕ := if 1 ≤ data.suType ∧ data.suType ≤ 11 then data.suType else 0

/-- `SignalingInfoSU`. -/
def SU.signalingInfo (data : SU) : Bool := data.suType == 15

/-- `thisnum`. -/
def SU.thisnum (data : SU) : ℤ := 11 * data.suTotal - 11 + data.bytesInSU

/-! ## Items -/

/-- `RISUItem`. `units` are the signal units that went into it, which the code does not keep. -/
structure RISUItem extends ISUItem where
  count : ℕ
  seqIndicator : ℕ
  suType : ℕ
  filledarray : ℕ
  units : List SU

/-- `anisuitem` with the fields of a unit. -/
def SU.risuItem (data : SU) : RISUItem where
  aesid := ((data 2).toNat <<< 16) ||| ((data 3).toNat <<< 8) ||| (data 4).toNat
  gesid := data 5
  qno := (data 1 &&& 0xF0) >>> 4
  refno := data 1 &&& 0x07
  userdata := []
  count := 0
  seqIndicator := data.seqIndicator
  suType := data.suType
  filledarray := 0
  units := []

/-- `RISUData::findisuitem`. -/
def findrisuitem (isuitems : List RISUItem) (anisuitem : RISUItem) : Option ℕ :=
  if anisuitem.suType > 11 then none
  else if anisuitem.suType < 1 then none
  else isuitems.findIdx? fun e => anisuitem.gesid == e.gesid && anisuitem.aesid == e.aesid &&
    anisuitem.qno == e.qno && anisuitem.refno == e.refno

/-- `RISUData::deleteoldisuitems`. -/
def deleteoldrisuitems : List RISUItem → List RISUItem
  | [] => []
  | e :: es =>
    if e.count + 1 > 10 then deleteoldrisuitems es else { e with count := e.count + 1 } :: deleteoldrisuitems es

/-- `RISUData`. -/
structure RISUData where
  isuitems : List RISUItem
  lastvalidisuitem : RISUItem

/-- The item that a unit goes into, and its index: one that waits, or a new one at the end. -/
def RISUData.select (d : RISUData) (data : SU) : List RISUItem × ℕ × RISUItem :=
  let isuitems := deleteoldrisuitems d.isuitems
  match findrisuitem isuitems data.risuItem with
  | some idx => (isuitems, idx, isuitems.getD idx data.risuItem)
  | none => (isuitems ++ [data.risuItem], isuitems.length, data.risuItem)

/-! ## An update -/

/-- A write to `userdata`: the index, and the size of the vector at that moment. -/
structure UserdataWrite where
  index : ℕ
  size : ℕ
  deriving DecidableEq

/-- `resize`. -/
def resizeTo (userdata : List UInt8) (n : ℕ) : List UInt8 := userdata.take n ++ List.replicate (n - userdata.length) 0

/-- `userdata` behind its two `resize`s. -/
def SU.resize (data : SU) (userdata : List UInt8) : List UInt8 :=
  if data.thisnum > 0 then
    let userdata := if userdata.length = 0 then resizeTo userdata data.thisnum.toNat else userdata
    if data.thisnum < userdata.length then resizeTo userdata data.thisnum.toNat else userdata
  else userdata

/-- The loop over the bytes of a unit, from byte `k` on. A write outside of the vector changes nothing in it. -/
def SU.writeLoop (data : SU) (userdata : List UInt8) : ℕ → ℕ → Logged UserdataWrite (List UInt8)
  | _, 0 => pure userdata
  | k, n + 1 => do
    let index := 11 * data.suIndex + k
    Logged.touch [⟨index, userdata.length⟩]
    data.writeLoop (userdata.set index (data (6 + k))) (k + 1) n

/-- `*pisuitem` behind a unit. -/
def RISUItem.addUnit (pisuitem : RISUItem) (data : SU) : Logged UserdataWrite RISUItem := do
  let userdata := data.resize pisuitem.userdata
  if data.signalingInfo then
    pure { pisuitem with count := 0, userdata := [], units := pisuitem.units ++ [data] }
  else
    let userdata ← data.writeLoop userdata 0 data.bytesInSU
    pure { pisuitem with
      count := 0
      userdata := userdata
      filledarray := pisuitem.filledarray ||| (1 <<< data.suIndex)
      units := pisuitem.units ++ [data] }

/-- The test for a complete item. -/
def SU.completes (data : SU) (filledarray : ℕ) : Bool :=
  data.signalingInfo || (filledarray == 7 && data.suTotal == 3) || (filledarray == 3 && data.suTotal == 2) ||
    (filledarray == 1 && data.suTotal == 1)

/-- `RISUData::update`: the state after it, and what it returns. -/
def RISUData.update (d : RISUData) (data : SU) : Logged UserdataWrite (RISUData × Bool) := do
  let s := d.select data
  let pisuitem ← s.2.2.addUnit data
  if data.completes pisuitem.filledarray then
    pure (⟨s.1.eraseIdx s.2.1, pisuitem⟩, true)
  else pure ({ d with isuitems := s.1.set s.2.1 pisuitem }, false)

/-- The updates with units in order. -/
def RISUData.run (d : RISUData) : List SU → RISUData
  | [] => d
  | data :: units => ((d.update data).val.1).run units

end InmarsatSniffer.Aero
