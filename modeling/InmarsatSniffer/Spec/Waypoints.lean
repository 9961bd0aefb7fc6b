import Mathlib
import InmarsatSniffer.Lib.BinarySearch
import InmarsatSniffer.Lib.FirstMatch
import InmarsatSniffer.Spec.AcarsPosition

/-!
# Waypoints by their names

Names of waypoints are looked up in the waypoint database, and in what has been learned from
flight plans. The parser of flight plans and the scan for names log what they read of the
text, and need fuel for their loops. An `ident` is the list of its characters before the NUL.

* `learnedWpParseFpn`: what a flight plan teaches.
* `waypointDbLookup`, `learnedWpLookup`: the two tables.
* `acarsExtractWaypointPosition`: the first name of the text that one of them knows.
-/

namespace InmarsatSniffer.AcarsText

open BinarySearch CString
open Logged (Fueled loop)

/-! ## The learned waypoints -/

/-- `LEARNED_WP_MAX`. -/
abbrev learnedWpMax : ℕ := 4096

/-- `learned_entry_t`. -/
structure LearnedEntry where
  ident : List UInt8
  coord : Coord
  sightings : ℕ

/-- The cache, with its statistics. -/
structure Learned where
  cache : List LearnedEntry
  fpnParsed : ℕ
  sightings : ℕ

/-- At the start nothing has been learned. -/
def Learned.init : Learned := ⟨[], 0, 0⟩

/-- `cache_add_locked`: a known name is only counted, and a full cache stays as it is. -/
def Learned.add (st : Learned) (name : List UInt8) (coord : Coord) : Learned :=
  if st.cache.any fun e => e.ident == name then
    { st with cache := FirstMatch.updateFirst (fun e => e.ident == name)
                (fun e => { e with sightings := e.sightings + 1 }) st.cache
              sightings := st.sightings + 1 }
  else if st.cache.length ≥ learnedWpMax then st
  else { st with cache := st.cache ++ [⟨name.take 5, coord, 1⟩], sightings := st.sightings + 1 }

/-- `learned_wp_lookup`. -/
def learnedWpLookup (st : Learned) (ident : List UInt8) : Option Coord :=
  if ident = [] then none else (st.cache.find? fun e => e.ident == ident).map LearnedEntry.coord

/-! ## Flight plans -/

/-- `parse_dm_coord`. -/
def parseDmCoord (fl : Rounding) (mem : ℕ → UInt8) (s : ℕ) (lonWidth : Bool) : Fueled ℕ (Option ℚ) := do
  let dir ← readChar mem s
  if !(isLatDir dir || isLonDir dir) then return none
  let degDigits := if lonWidth then 3 else 2
  let minDigits := 3
  if !(← areAll isDigit mem (degDigits + minDigits) (s + 1)) then return none
  let deg ← readNumber mem (s + 1) degDigits
  let min10 ← readNumber mem (s + 1 + degDigits) minDigits
  if min10 ≥ 600 then return none
  let val := degMin fl deg min10
  if lonWidth ∧ val > 180 then return none
  if !lonWidth ∧ val > 90 then return none
  return some (if dir = chr 'S' ∨ dir = chr 'W' then -val else val)

/-- `strchr` for a comma. -/
def findComma (mem : ℕ → UInt8) (fuel p : ℕ) : Fueled ℕ (Option ℕ) := do
  let q ← scanWhile (fun c => c != 0 && c != chr ',') mem fuel p
  let c ← readChar mem q
  pure (if c = 0 then none else some q)

/-- The start of the letters before the comma, but not before `p`. -/
def nameStart (mem : ℕ → UInt8) (fuel p comma : ℕ) : Fueled ℕ ℕ :=
  loop (fun n => do
    if p < n then
      let c ← readChar mem (n - 1)
      pure (if isUpper c then .inl (n - 1) else .inr n)
    else pure (.inr n)) fuel comma

/-- The coordinates that may follow a name. -/
def parsePair (fl : Rounding) (mem : ℕ → UInt8) (after : ℕ) : Fueled ℕ (Option Coord) := do
  let d ← readChar mem after
  if !isLatDir d then return none
  match ← parseDmCoord fl mem after false with
  | none => return none
  | some lat =>
    let lonStart := after + 6
    let d ← readChar mem lonStart
    if !isLonDir d then return none
    match ← parseDmCoord fl mem lonStart true with
    | none => return none
    | some lon => return some ⟨lat, lon⟩

/-- Where the parser stands, how many waypoints it has learned, and the cache. -/
structure FpnScan where
  p : ℕ
  learned : ℕ
  st : Learned

/-- The body of the loop of `learned_wp_parse_fpn`. -/
def fpnRound (fl : Rounding) (mem : ℕ → UInt8) (fuel : ℕ) (s : FpnScan) : Fueled ℕ (FpnScan ⊕ ℕ × Learned) := do
  let c ← readChar mem s.p
  if c = 0 then return .inr (s.learned, s.st)
  match ← findComma mem fuel s.p with
  | none => return .inr (s.learned, s.st)
  | some comma =>
    let start ← nameStart mem fuel s.p comma
    let nameLen := comma - start
    if nameLen < 2 ∨ nameLen > 5 then return .inl { s with p := comma + 1 }
    match ← parsePair fl mem (comma + 1) with
    | none => return .inl { s with p := comma + 1 }
    | some coord =>
      let name ← readChars mem nameLen start
      let lonStart := comma + 1 + 6
      -- (0,0) is no waypoint, but it is passed over like one
      if coord.lat ≠ 0 ∨ coord.lon ≠ 0 then
        return .inl ⟨lonStart + 7, s.learned + 1, s.st.add name coord⟩
      else return .inl { s with p := lonStart + 7 }

/-- `learned_wp_parse_fpn`: how many waypoints it has learned, and the cache behind it. -/
def learnedWpParseFpn (fl : Rounding) (mem : ℕ → UInt8) (fuel : ℕ) (st : Learned) : Fueled ℕ (ℕ × Learned) := do
  let c ← readChar mem 0
  if c = 0 then return (0, st)
  let (learned, st) ← loop (fpnRound fl mem fuel) fuel ⟨0, 0, st⟩
  return (learned, if learned > 0 then { st with fpnParsed := st.fpnParsed + 1 } else st)

/-! ## The waypoint database -/

/-- `strcmp`: the order of the characters, and a string before what continues it. -/
def strcmp (a b : List UInt8) : Ordering := List.compareLex compare a b

/-- `wp_entry_t`. -/
structure WpEntry where
  ident : List UInt8
  coord : Coord

/-- The database, sorted by `qsort` when it is loaded. -/
structure WaypointDb where
  entries : List WpEntry
  sorted : entries.Pairwise fun a b => strcmp a.ident b.ident ≠ .gt

/-- `waypoint_db_lookup`. -/
def waypointDbLookup (db : WaypointDb) (ident : List UInt8) : Option Coord :=
  if db.entries = [] ∨ ident = [] then none
  else
    let key := ident.take 5
    (bsearch (fun e => strcmp key e.ident) db.entries db.entries.length 0 db.entries.length).map WpEntry.coord

/-! ## Names in the text -/

/-- What separates the chunks of the text. -/
def isDelim (c : UInt8) : Bool := c == chr ',' || c == chr ' ' || c == chr '/' || c == chr '.'

/-- What may follow a name. -/
def isIdentEnd (c : UInt8) : Bool := isDelim c || c == 0 || c == chr '\r' || c == chr '\n'

/-- The two tables, the database first. -/
def lookupIdent (db : WaypointDb) (st : Learned) (ident : List UInt8) : Option Coord :=
  (waypointDbLookup db ident).or (learnedWpLookup st ident)

/-- A name at `scan`, if there is one that a table knows. -/
def identAt (db : WaypointDb) (st : Learned) (mem : ℕ → UInt8) (scan : ℕ) : Fueled ℕ (Option Coord) := do
  if !(← areAll isUpper mem 5 scan) then return none
  let c ← readChar mem (scan + 5)
  if !isIdentEnd c then return none
  let ident ← readChars mem 5 scan
  return lookupIdent db st ident

/-- What is skipped over before a delimiter. -/
def inChunk (c : UInt8) : Bool := c != 0 && !isDelim c

/-- The body of the loop of `acars_extract_waypoint_position`. -/
def identRound (db : WaypointDb) (st : Learned) (mem : ℕ → UInt8) (fuel scan : ℕ) : Fueled ℕ (ℕ ⊕ Option Coord) := do
  let c ← readChar mem scan
  if c = 0 then return .inr none
  let scan ← scanWhile inChunk mem fuel scan
  let scan ← scanWhile isDelim mem fuel scan
  match ← identAt db st mem scan with
  | some coord => return .inr (some coord)
  | none =>
    let scan ← scanWhile inChunk mem fuel scan
    return .inl scan

/-- The scan for names from `scan` on. -/
def identScan (db : WaypointDb) (st : Learned) (mem : ℕ → UInt8) (fuel scan : ℕ) : Fueled ℕ (Option Coord) :=
  loop (identRound db st mem fuel) fuel scan

/-- `acars_extract_waypoint_position`: the position, if it returns 1. -/
def acarsExtractWaypointPosition (db : WaypointDb) (st : Learned) (fuel : ℕ) (label text : CString) :
    Fueled ℕ (Option Coord) :=
  if text 0 = 0 then pure none
  else if !labelOk label then pure none
  else if isFpn label text then pure none
  else identScan db st text fuel (if matchesAt text 0 "POS".toList then 3 else 0)

end InmarsatSniffer.AcarsText
