import Mathlib
import InmarsatSniffer.Lib.CString
import InmarsatSniffer.Lib.Rounding

/-!
# Positions and altitudes in ACARS text

Labels and texts are strings that end with a NUL, and pointers that are not NULL; a `char *`
is an index. Degrees are doubles: rational numbers, rounded by `fl`. The scan for compact
coordinates logs what it reads of the text, and needs fuel for its loops.

* `acarsExtractTextPosition`: three formats, one after the other.
* `acarsExtractTextAltitude`: four formats.
-/

namespace InmarsatSniffer.AcarsText

open CString
open Logged (Fueled loop)

/-- A position in degrees, north and east positive. -/
structure Coord where
  lat : ℚ
  lon : ℚ
  deriving DecidableEq

/-- The direction of a latitude. -/
def isLatDir (c : UInt8) : Bool := c == chr 'N' || c == chr 'S'

/-- The direction of a longitude. -/
def isLonDir (c : UInt8) : Bool := c == chr 'E' || c == chr 'W'

/-- The degrees with the signs of their directions. -/
def signed (latDir lonDir : UInt8) (la lo : ℚ) : Coord :=
  ⟨if latDir = chr 'S' then -la else la, if lonDir = chr 'W' then -lo else lo⟩

/-! ## Which messages carry a position -/

/-- `label_ok`: the label is one of those that carry the aircraft's position. -/
def labelOk (label : CString) : Bool :=
  label 0 == chr 'H' && label 1 == chr '1' || label 0 == chr '2' && label 1 == chr '0' ||
  label 0 == chr '4' && label 1 == chr '4' || label 0 == chr '4' && label 1 == chr 'J' ||
  label 0 == chr '1' && label 1 == chr '5' || label 0 == chr 'S' && label 1 == chr 'A'

/-- The text is a flight plan. -/
def isFpn (label text : CString) : Bool :=
  label 0 == chr 'H' && label 1 == chr '1' && matchesAt text 0 "FPN".toList

/-! ## Format 1: `POS[NS]ddddd[EW]dddddd` -/

/-- How many digits stand from `p` on, counted up to a limit. -/
def digitsUpTo (mem : ℕ → UInt8) : ℕ → ℕ → ℕ
  | 0, _ => 0
  | limit + 1, p => if isDigit (mem p) then digitsUpTo mem limit (p + 1) + 1 else 0

/-- What format 1 reads behind the `POS` at `i`. -/
def posAt (fl : Rounding) (text : CString) (i : ℕ) : Option Coord := do
  let p := i + 3
  let latDir := text p
  guard (isLatDir latDir)
  let lp := p + 1
  let latDigits := digitsUpTo text 5 lp
  guard (latDigits = 5)
  let lonDir := text (lp + latDigits)
  guard (isLonDir lonDir)
  let lop := lp + latDigits + 1
  guard (digitsUpTo text 6 lop = 6)
  let la := fl.round (number text lp 5 / 1000)
  let lo := fl.round (number text lop 6 / 1000)
  guard (0 ≤ la ∧ la ≤ 90 ∧ 0 ≤ lo ∧ lo ≤ 180)
  return signed latDir lonDir la lo

/-- Format 1, with the first `POS`. -/
def posFormat (fl : Rounding) (text : CString) : Option Coord := (text.strstr 0 "POS".toList).bind (posAt fl text)

/-! ## Format 2: `[NS]dddmm[EW]dddmm` -/

/-- Degrees and tenths of minutes. -/
def degMin (fl : Rounding) (deg min10 : ℕ) : ℚ := fl.round (deg + fl.round (min10 / 600))

/-- The values of a candidate, whose digits stand at `latStart` and `lonStart`. -/
def compactValues (fl : Rounding) (mem : ℕ → UInt8) (latDir lonDir : UInt8) (latStart lonStart : ℕ) :
    Fueled ℕ (Option Coord) := do
  let latDeg ← readNumber mem latStart 2
  let latMin10 ← readNumber mem (latStart + 2) 3
  let lonDeg ← readNumber mem lonStart 3
  let lonMin10 ← readNumber mem (lonStart + 3) 3
  if latDeg ≤ 90 ∧ latMin10 < 600 ∧ lonDeg ≤ 180 ∧ lonMin10 < 600 then
    pure (some (signed latDir lonDir (degMin fl latDeg latMin10) (degMin fl lonDeg lonMin10)))
  else pure none

/-- A candidate whose latitude starts at `latStart`. -/
def compactCandidate (fl : Rounding) (mem : ℕ → UInt8) (fuel : ℕ) (latDir : UInt8) (latStart : ℕ) :
    Fueled ℕ (Option Coord) := do
  let n := (← scanWhile isDigit mem fuel latStart) - latStart
  if n = 5 then
    let lonDir ← readChar mem (latStart + n)
    if isLonDir lonDir then
      let lonStart := latStart + n + 1
      let m := (← scanWhile isDigit mem fuel lonStart) - lonStart
      if m = 6 then compactValues fl mem latDir lonDir latStart lonStart else pure none
    else pure none
  else pure none

/-- Format 2: the scan from `s` on. -/
def compactScan (fl : Rounding) (mem : ℕ → UInt8) (fuel s : ℕ) : Fueled ℕ (Option Coord) :=
  loop (fun s => do
    let c ← readChar mem s
    if c = 0 then pure (.inr none)
    else if isLatDir c then
      let latStart := s + 1
      let d ← readChar mem latStart
      if isDigit d then
        match ← compactCandidate fl mem fuel c latStart with
        | some coord => pure (.inr (some coord))
        | none => pure (.inl (latStart - 1 + 1)) -- s goes back to the direction, then s++
      else pure (.inl (s + 1))
    else pure (.inl (s + 1))) fuel s

/-! ## Format 3: `LAT [NS] dd.ddd/LON [EW] ddd.ddd` -/

/-- `isspace`. -/
def isSpace (c : UInt8) : Bool := c == chr ' ' || chr '\t' ≤ c && c ≤ chr '\r'

/-- A letter, whatever its case. -/
def isLetter (l : Char) (c : UInt8) : Bool := c == chr l || c == chr l.toUpper

/-- A text of lower case letters at an index, whatever their case. -/
def wordAt (mem : ℕ → UInt8) (i : ℕ) : List Char → Bool
  | [] => true
  | l :: ls => isLetter l (mem i) && wordAt mem (i + 1) ls

/-- A hexadecimal digit. -/
def isHexDigit (c : UInt8) : Bool := isDigit c || chr 'a' ≤ c && c ≤ chr 'f' || chr 'A' ≤ c && c ≤ chr 'F'

/-- The value of a digit, also of a hexadecimal one. -/
def digitValue (c : UInt8) : ℕ :=
  if isDigit c then c.toNat - 48 else if chr 'a' ≤ c then c.toNat - 87 else c.toNat - 55

/-- The value of the digits in a range, continuing that of others. -/
def digitsValue (mem : ℕ → UInt8) (base acc p q : ℕ) : ℕ :=
  (List.range' p (q - p)).foldl (fun v i => v * base + digitValue (mem i)) acc

/-- An exponent behind its letter, if it has digits: its value, and its end. -/
def exponent (text : CString) (p : ℕ) : Option (ℤ × ℕ) :=
  let neg := text p == chr '-'
  let q := if neg || text p == chr '+' then p + 1 else p
  let e := text.span isDigit q
  if e = q then none
  else
    let v : ℤ := digitsValue text 10 0 q e
    some (if neg then -v else v, e)

/-- The unsigned number at `p`: digits with a point in or around them, in base 10 or 16,
and an exponent of 10 or of 2. -/
def magnitude (text : CString) (hex : Bool) (p : ℕ) : Option (ℚ × ℕ) :=
  let isD := if hex then isHexDigit else isDigit
  let base := if hex then 16 else 10
  let i := text.span isD p
  let f := if text i == chr '.' then text.span isD (i + 1) else i
  let places := f - (i + 1)
  if i - p + places = 0 then none
  else
    let mantissa := digitsValue text base (digitsValue text base 0 p i) (i + 1) f
    let value : ℚ := mantissa / (base : ℚ) ^ places
    let expo := if isLetter (if hex then 'p' else 'e') (text f) then exponent text (f + 1) else none
    match expo with
    | some (x, e) => some (value * (if hex then 2 else 10) ^ x, e)
    | none => some (value, if text i == chr '.' then f else i)

/-- `strtod`: the value, which is missing for infinity and NaN, and where it ends; this is
`p` if there is no number. -/
def strtod (fl : Rounding) (text : CString) (p : ℕ) : Option ℚ × ℕ :=
  let start := text.span isSpace p
  let neg := text start == chr '-'
  let q := if neg || text start == chr '+' then start + 1 else start
  let hex := if wordAt text q "0x".toList then magnitude text true (q + 2) else none
  match hex.or (magnitude text false q) with
  | some (v, e) => (some (fl.round (if neg then -v else v)), e)
  | none =>
    if wordAt text q "infinity".toList then (none, q + 8)
    else if wordAt text q "inf".toList then (none, q + 3)
    else if wordAt text q "nan".toList then
      let e := text.span (fun c => isDigit c || isUpper c || chr 'a' ≤ c && c ≤ chr 'z' || c == chr '_') (q + 4)
      (none, if text (q + 3) == chr '(' && text e == chr ')' then e + 1 else q + 3)
    else (some 0, p)

/-- The number behind a direction, if `strtod` finds one from 0 to `limit`, and its end. -/
def degreesAt (fl : Rounding) (text : CString) (limit : ℚ) (p : ℕ) : Option (ℚ × ℕ) := do
  let p := text.span (· == chr ' ') p
  let (v, e) := strtod fl text p
  guard (e ≠ p)
  let v ← v
  guard (0 ≤ v ∧ v ≤ limit)
  return (v, e)

/-- What format 3 reads behind the `LAT` at `i`: the direction, the degrees, and their end. -/
def latAt (fl : Rounding) (text : CString) (i : ℕ) : Option (UInt8 × ℚ × ℕ) := do
  let p := text.span (· == chr ' ') (i + 3)
  guard (isLatDir (text p))
  let (la, e) ← degreesAt fl text 90 (p + 1)
  return (text p, la, e)

/-- What format 3 reads behind the `LON` at `i`. -/
def lonAt (fl : Rounding) (text : CString) (i : ℕ) : Option (UInt8 × ℚ) := do
  let p := text.span (· == chr ' ') (i + 3)
  guard (isLonDir (text p))
  let (lo, _) ← degreesAt fl text 180 (p + 1)
  return (text p, lo)

/-- Format 3, with the first `LAT`, and the first `LON` behind its degrees. -/
def latLonFormat (fl : Rounding) (text : CString) : Option Coord := do
  let i ← text.strstr 0 "LAT".toList
  let (latDir, la, e) ← latAt fl text i
  let j ← text.strstr e "LON".toList
  let (lonDir, lo) ← lonAt fl text j
  return signed latDir lonDir la lo

/-- `acars_extract_text_position`: the position, if it returns 1. -/
def acarsExtractTextPosition (fl : Rounding) (fuel : ℕ) (label text : CString) : Fueled ℕ (Option Coord) :=
  if text 0 = 0 then pure none
  else if !labelOk label then pure none
  else if isFpn label text then pure none
  else
    match posFormat fl text with
    | some coord => pure (some coord)
    | none => do
      match ← compactScan fl text fuel 0 with
      | some coord => pure (some coord)
      | none => pure (latLonFormat fl text)

/-! ## Altitudes -/

/-- The altitude of a flight level, if there is such a level. -/
def flightLevel (level : ℕ) : Option ℕ := if 0 < level ∧ level < 600 then some (level * 100) else none

/-- Format 1 at an `FL`: three digits, and no more. -/
def flAt (text : CString) (i : ℕ) : Option ℕ := do
  let q := i + 2
  guard (isDigit (text q) ∧ isDigit (text (q + 1)) ∧ isDigit (text (q + 2)) ∧ ¬isDigit (text (q + 3)))
  flightLevel (number text q 3)

/-- Format 1: `FLnnn`, the occurrences of `FL` from `p` on in order. -/
def flLoop (text : CString) : ℕ → ℕ → Option ℕ
  | 0, _ => none
  | fuel + 1, p =>
    match text.strstr p "FL".toList with
    | none => none
    | some i =>
      match flAt text i with
      | some alt => some alt
      | none => flLoop text fuel (i + 2)

/-- What may follow the `F` of a flight level. -/
def isLevelEnd (c : UInt8) : Bool :=
  c == 0 || c == chr '.' || c == chr ',' || c == chr ' ' || c == chr '\r' || c == chr '\n' || c == chr '/'

/-- The character before an index is no digit. -/
def noDigitBefore (text : CString) (s : ℕ) : Bool := s == 0 || !isDigit (text (s - 1))

/-- Format 2 at an index: `nnnF` between delimiters. -/
def levelAt (text : CString) (s : ℕ) : Option ℕ := do
  guard (isDigit (text s) ∧ isDigit (text (s + 1)) ∧ isDigit (text (s + 2)) ∧ text (s + 3) = chr 'F')
  guard (noDigitBefore text s)
  guard (isLevelEnd (text (s + 4)))
  flightLevel (number text s 3)

/-- Format 3 at an `ALT`: blanks and a number of feet. The value saturates as `strtol` does. -/
def altAt (text : CString) (i : ℕ) : Option ℕ := do
  let p := text.span (fun c => c == chr ' ' || c == chr '\t') (i + 3)
  guard (isDigit (text p))
  let v := min (number text p (text.span isDigit p - p)) (2 ^ 63 - 1)
  guard (0 < v ∧ v < 60000)
  return v

/-- Format 4 at an index: `nnnnnFT`. -/
def feetAt (text : CString) (s : ℕ) : Option ℕ := do
  guard (isDigit (text s) ∧ isDigit (text (s + 1)) ∧ isDigit (text (s + 2)) ∧ isDigit (text (s + 3)) ∧
    isDigit (text (s + 4)) ∧ text (s + 5) = chr 'F' ∧ text (s + 6) = chr 'T')
  guard (noDigitBefore text s)
  let v := number text s 5
  guard (0 < v ∧ v < 60000)
  return v

/-- `acars_extract_text_altitude`: the altitude in feet, if it returns 1. -/
def acarsExtractTextAltitude (text : CString) : Option ℕ :=
  if text 0 = 0 then none
  else
    (flLoop text (text.len + 1) 0).or <|
    ((List.range (text.len - 3)).findSome? (levelAt text)).or <|
    ((text.strstr 0 "ALT".toList).bind (altAt text)).or <|
    (List.range (text.len - 5)).findSome? (feetAt text)

end InmarsatSniffer.AcarsText
