import Mathlib

/-!
# ACARS messages

`ParserISU::parse` takes the user data of an ISU apart, `ACARSDefragmenter` joins the
blocks of a message, and `pmsk_acars_adapter` hands the finished item to the C callback.
The callbacks are taken to be set. The item a parse fills in is cleared first, so the
parser keeps nothing of it but what the defragmenter stores.
-/

namespace InmarsatSniffer.Aero

/-- Octets `4 .. 10` of a user data, without parity. -/
def planeRegOf (userdata : List UInt8) : List UInt8 := (List.range 7).map fun k => userdata.getD (4 + k) 0 &&& 0x7F

/-- The octets of the text, from 16 up to the last four. -/
def textOctets (userdata : List UInt8) : List UInt8 :=
  if userdata.getD 15 0 = 0x02 then (userdata.take (userdata.length - 4)).drop 16 else []

/-- The text, without parity. -/
def textOf (userdata : List UInt8) : List UInt8 := (textOctets userdata).map fun b => b &&& 0x7F

/-- `ISUItem`, the fields that the parser and the adapter read. -/
structure ISUItem where
  aesid : ℕ
  gesid : UInt8
  qno : UInt8
  refno : UInt8
  userdata : List UInt8
  deriving DecidableEq

/-- Octet `i` of the user data. -/
def ISUItem.octet (isuitem : ISUItem) (i : ℕ) : UInt8 := isuitem.userdata.getD i 0

/-- `ACARSItem`. -/
structure ACARSItem where
  isuitem : ISUItem
  mode : UInt8 := 0
  tak : UInt8 := 0
  label : List UInt8 := []
  bi : UInt8 := 0
  planeReg : List UInt8 := []
  nonacars : Bool := false
  downlink : Bool := false
  valid : Bool := false
  hastext : Bool := false
  moretocome : Bool := false
  message : List UInt8 := []
  deriving DecidableEq

/-- An item as `parse` fills it in: valid, with the registration in its user data. -/
structure ACARSItem.Filed (item : ACARSItem) : Prop where
  valid : item.valid = true
  planeReg : item.planeReg = planeRegOf item.isuitem.userdata

/-- `ACARSItemext`. -/
structure ACARSItemext where
  anacarsitem : ACARSItem
  count : ℕ
  filed : anacarsitem.Filed

/-! ## The defragmenter -/

/-- `expnewbi`: `(((BI + 1) - 'A') % 26) + 'A'` as a `uint8_t`. -/
def expNewBi (bi : UInt8) : UInt8 := UInt8.ofInt ((((bi.toNat : ℤ) + 1) - 65).tmod 26 + 65)

/-- The test of `findfragment`: the item goes on with the fragment. -/
def goesOn (acarsitem : ACARSItem) (pitem : ACARSItemext) : Bool :=
  acarsitem.planeReg == pitem.anacarsitem.planeReg && acarsitem.label == pitem.anacarsitem.label &&
    acarsitem.mode == pitem.anacarsitem.mode && acarsitem.isuitem.aesid == pitem.anacarsitem.isuitem.aesid &&
    acarsitem.isuitem.gesid == pitem.anacarsitem.isuitem.gesid && pitem.anacarsitem.moretocome &&
    acarsitem.tak == pitem.anacarsitem.tak && expNewBi pitem.anacarsitem.bi == acarsitem.bi

/-- `findfragment`. -/
def findfragment (acarsitemexts : List ACARSItemext) (acarsitem : ACARSItem) : Option ℕ :=
  acarsitemexts.findIdx? (goesOn acarsitem)

/-- The flush of old fragments: each count goes up by one, and those over 30 are erased. -/
def flush (acarsitemexts : List ACARSItemext) : List ACARSItemext :=
  (acarsitemexts.map fun e => { e with count := e.count + 1 }).filter fun e => e.count ≤ 30

/-- The update of a fragment with an item. -/
def ACARSItemext.update (polditem : ACARSItemext) (acarsitem : ACARSItem) : ACARSItemext :=
  { anacarsitem := { polditem.anacarsitem with
      bi := acarsitem.bi
      message := polditem.anacarsitem.message ++ acarsitem.message
      moretocome := acarsitem.moretocome }
    count := 0
    filed := ⟨polditem.filed.valid, polditem.filed.planeReg⟩ }

/-- `defragment`: the fragments after it, and the item if it is whole. -/
def defragment (acarsitemexts : List ACARSItemext) (acarsitem : ACARSItem)
    (h : acarsitem.Filed) : List ACARSItemext × Option ACARSItem :=
  let exts := flush acarsitemexts
  match findfragment exts acarsitem with
  | none =>
    if !acarsitem.moretocome then (exts, some acarsitem)
    else (exts ++ [⟨acarsitem, 0, h⟩], none)
  | some idx =>
    if acarsitem.moretocome then (exts.modify idx fun polditem => polditem.update acarsitem, none)
    else (exts.eraseIdx idx, exts[idx]?.map fun polditem => (polditem.update acarsitem).anacarsitem)

/-! ## The parser -/

/-- An odd number of the bits is set. -/
def oddParity (b : UInt8) : Bool := (List.range 8).countP (fun j => (b.toNat >>> j) &&& 1 = 1) % 2 = 1

/-- `isacars`. -/
def ISUItem.isacars (isuitem : ISUItem) : Bool :=
  isuitem.userdata.length > 16 && isuitem.octet 0 == 0xFF && isuitem.octet 1 == 0xFF &&
    (isuitem.octet 15 == 0x83 || isuitem.octet 15 == 0x02)

/-- The item of an ACARS user data, if the parity of its registration and text is right. -/
def ISUItem.acarsitem (isuitem : ISUItem) (downlink : Bool) : Option ACARSItem :=
  if (List.range 7).all (fun k => oddParity (isuitem.octet (4 + k))) && (textOctets isuitem.userdata).all oddParity then
    some {
      isuitem := isuitem
      downlink := downlink
      mode := isuitem.octet 3 &&& 0x7F
      tak := isuitem.octet 11 &&& 0x7F
      label := [isuitem.octet 12 &&& 0x7F, isuitem.octet 13 &&& 0x7F]
      bi := isuitem.octet 14 &&& 0x7F
      hastext := isuitem.octet 15 == 0x02
      moretocome := isuitem.octet (isuitem.userdata.length - 4) == 0x97
      planeReg := planeRegOf isuitem.userdata
      message := textOf isuitem.userdata
      valid := true }
  else none

theorem acarsitem_filed {isuitem : ISUItem} {downlink : Bool} {item : ACARSItem}
    (h : isuitem.acarsitem downlink = some item) : item.Filed := by
  unfold ISUItem.acarsitem at h
  split at h
  · injection h with h
    rw [← h]
    exact ⟨rfl, rfl⟩
  · exact absurd h (by simp)

/-- The item without the dots in front of its registration. -/
def ACARSItem.stripDots (item : ACARSItem) : ACARSItem :=
  { item with planeReg := item.planeReg.dropWhile fun c => c == 0x2E }

/-- `ParserISU`. -/
structure ParserISU where
  downlink : Bool := false
  acarsitemexts : List ACARSItemext := []

/-- `ParserISU::parse`: the parser after it, and the item for the callback. -/
def ParserISU.parse (d : ParserISU) (isuitem : ISUItem) : ParserISU × Option ACARSItem :=
  if isuitem.aesid = 0 then (d, none)
  else if isuitem.isacars then
    match h : isuitem.acarsitem d.downlink with
    | none => (d, none)
    | some item =>
      let r := defragment d.acarsitemexts item (acarsitem_filed h)
      ({ d with acarsitemexts := r.1 }, r.2.map ACARSItem.stripDots)
  else
    -- not ACARS: the raw octets are the message
    (d, some { isuitem := isuitem, downlink := d.downlink, nonacars := true, valid := true,
               message := isuitem.userdata })

/-- What the C callback gets. -/
structure AcarsCall where
  data : List UInt8
  aesId : ℕ
  gesId : UInt8
  qno : UInt8
  refno : UInt8
  downlink : Bool
  deriving DecidableEq

/-- `pmsk_acars_adapter`. -/
def pmskAcarsAdapter (acarsitem : ACARSItem) : Option AcarsCall :=
  if acarsitem.valid then some {
    data := acarsitem.isuitem.userdata, aesId := acarsitem.isuitem.aesid, gesId := acarsitem.isuitem.gesid
    qno := acarsitem.isuitem.qno, refno := acarsitem.isuitem.refno, downlink := acarsitem.downlink }
  else none

/-- The calls of the C callback while ISU items are parsed in order. -/
def ParserISU.run (d : ParserISU) : List ISUItem → ParserISU × List AcarsCall
  | [] => (d, [])
  | isuitem :: items =>
    let r := d.parse isuitem
    let r' := r.1.run items
    (r'.1, (r.2.bind pmskAcarsAdapter).toList ++ r'.2)

end InmarsatSniffer.Aero
