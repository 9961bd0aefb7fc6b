import InmarsatSniffer.Spec.Acars

/-!
# ISUs and their SSUs

`ISUData::update` puts the user data of an ISU 0x71 and of the SSUs behind it together.
The items that wait are in a list; an SSU is added to the item that the fields of the
last ISU and its own sequence and reference numbers select.
-/

namespace InmarsatSniffer.Aero

/-- A signal unit, `data`: ten octets, and whatever is behind them in memory. -/
abbrev SU := ℕ → UInt8

/-- Octets `a .. a + n - 1` of a signal unit. -/
def octets (data : SU) (a n : ℕ) : List UInt8 := (List.range n).map fun i => data (a + i)

/-- An ISU, by its type octet. -/
def SU.isIsu (data : SU) : Bool := data 0 == 0x71

/-- An SSU, by the upper two bits of its type octet. -/
def SU.isSsu (data : SU) : Bool := data 0 &&& 0xC0 == 0xC0

/-- The upper four bits of the octet with the reference number. -/
def qnoOf (val : UInt8) : UInt8 := (val >>> 4) &&& 0x0F

/-- Its lower four bits. -/
def refnoOf (val : UInt8) : UInt8 := val &&& 0x0F

/-- `ISUItem` with the fields that only `ISUData` reads. -/
structure IsuEntry extends ISUItem where
  seqno : ℕ
  noOctLestInLastSsu : ℕ
  count : ℕ
  deriving DecidableEq

/-- The item of an ISU. -/
def SU.entry (data : SU) : IsuEntry where
  aesid := ((data 1).toNat <<< 16) ||| ((data 2).toNat <<< 8) ||| (data 3).toNat
  gesid := data 4
  qno := qnoOf (data 5)
  refno := refnoOf (data 5)
  seqno := (data 6 &&& 0x3F).toNat
  noOctLestInLastSsu := ((data 7 >>> 4) &&& 0x0F).toNat
  count := 0
  userdata := octets data 8 2

/-- `findisuitem71`. -/
def findisuitem71 (isuitems : List IsuEntry) (anisuitem : IsuEntry) : Option ℕ :=
  if anisuitem.noOctLestInLastSsu > 8 then none
  else isuitems.findIdx? fun e => anisuitem.aesid == e.aesid && anisuitem.gesid == e.gesid &&
    anisuitem.qno == e.qno && anisuitem.refno == e.refno

/-- `findisuitemC0`. -/
def findisuitemC0 (isuitems : List IsuEntry) (anisuitem : IsuEntry) : Option ℕ :=
  if anisuitem.noOctLestInLastSsu > 8 then none
  else isuitems.findIdx? fun e => anisuitem.aesid == e.aesid && anisuitem.gesid == e.gesid &&
    anisuitem.seqno + 1 == e.seqno && anisuitem.qno == e.qno && anisuitem.refno == e.refno

/-- `deleteoldisuitems`: each item gets older, and those over ten are erased. -/
def deleteoldisuitems : List IsuEntry → List IsuEntry
  | [] => []
  | e :: es => if e.count + 1 > 10 then deleteoldisuitems es else { e with count := e.count + 1 } :: deleteoldisuitems es

/-- The item of an ISU in the list, in the place of the item that it repeats. -/
def fileIsu (isuitems : List IsuEntry) (anisuitem : IsuEntry) : List IsuEntry :=
  match findisuitem71 isuitems anisuitem with
  | none => isuitems ++ [anisuitem]
  | some idx => isuitems.set idx anisuitem

/-- `*pisuitem` after an SSU. -/
def IsuEntry.addSsu (pisuitem : IsuEntry) (data : SU) : IsuEntry :=
  let seqno := pisuitem.seqno - 1
  { pisuitem with
    seqno := seqno
    userdata := pisuitem.userdata ++ octets data 2 (if seqno = 0 then pisuitem.noOctLestInLastSsu else 8) }

/-- `ISUData`. -/
structure ISUData where
  isuitems : List IsuEntry
  anisuitem : IsuEntry
  lastvalidisuitem : IsuEntry
  missingssu : Bool

/-- An `ISUData` as it is created. No constructor sets its two items. -/
def ISUData.create (anisuitem lastvalidisuitem : IsuEntry) : ISUData := ⟨[], anisuitem, lastvalidisuitem, false⟩

/-- `anisuitem` with the numbers of an SSU. The rest of it is that of the last ISU. -/
def IsuEntry.withSsu (anisuitem : IsuEntry) (data : SU) : IsuEntry :=
  { anisuitem with seqno := (data 0 &&& 0x3F).toNat, qno := qnoOf (data 1), refno := refnoOf (data 1) }

/-- `ISUData::update`: the state after it, and what it returns. -/
def ISUData.update (d : ISUData) (data : SU) : ISUData × Bool :=
  if data.isIsu then
    let anisuitem := data.entry
    ({ d with isuitems := fileIsu (deleteoldisuitems d.isuitems) anisuitem, anisuitem := anisuitem,
              missingssu := false }, false)
  else if data.isSsu then
    let anisuitem := d.anisuitem.withSsu data
    match findisuitemC0 d.isuitems anisuitem with
    | none => ({ d with anisuitem := anisuitem, missingssu := true }, false)
    | some idx =>
      let item := (d.isuitems.getD idx anisuitem).addSsu data
      if item.seqno = 0 then
        ({ isuitems := d.isuitems.set idx item, anisuitem := anisuitem, lastvalidisuitem := item,
           missingssu := false }, true)
      else ({ d with isuitems := d.isuitems.set idx item, anisuitem := anisuitem, missingssu := false }, false)
  else ({ d with missingssu := false }, false)

/-- The updates with signal units in order, and `lastvalidisuitem` where `update` returns true. -/
def ISUData.run (d : ISUData) : List SU → List (SU × Option IsuEntry)
  | [] => []
  | data :: rest =>
    let r := d.update data
    (data, if r.2 then some r.1.lastvalidisuitem else none) :: r.1.run rest

end InmarsatSniffer.Aero
