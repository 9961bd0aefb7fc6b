import InmarsatSniffer.Spec.Waypoints
import InmarsatSniffer.Spec.Feed

/-!
# The aircraft database

`aircraft_db_load` reads a file with one aircraft a line, the fields apart by semicolons, into
a table that is sorted by registration, with a second order by ICAO address. The texts of the
later fields lie in one pool of bytes, and an entry keeps the `int` at which they begin.
The C library is a parameter (`CLib`): what `qsort` leaves and what `bsearch` finds is known
up to the order of equal entries. Allocations succeed.
-/

namespace InmarsatSniffer.AircraftDb

open AcarsText (strcmp)
open BinarySearch (Descending closedSearch)
open Feed (fmtHex)

/-- `qsort` and `bsearch`. -/
structure CLib where
  qsort : ∀ {α : Type}, (α → α → Ordering) → List α → List α
  bsearch : ∀ {α : Type}, (α → Ordering) → List α → Option α
  qsort_perm : ∀ {α : Type} (cmp : α → α → Ordering) [Std.TransCmp cmp] (l : List α), (qsort cmp l).Perm l
  qsort_sorted : ∀ {α : Type} (cmp : α → α → Ordering) [Std.TransCmp cmp] (l : List α),
    (qsort cmp l).Pairwise fun a b => cmp a b ≠ .gt
  bsearch_mem : ∀ {α : Type} {cmp : α → Ordering} {l : List α} {a : α},
    bsearch cmp l = some a → a ∈ l ∧ cmp a = .eq
  bsearch_none : ∀ {α : Type} {cmp : α → Ordering} {l : List α}, Descending cmp l →
    bsearch cmp l = none → ∀ a ∈ l, cmp a ≠ .eq

/-! ## Texts -/

/-- A size as an `int`. -/
def toInt (n : ℕ) : ℤ := (n : ℤ).bmod (2 ^ 32)

/-- What a `char` array holds up to its NUL. -/
def cstr (s : List UInt8) : List UInt8 := s.takeWhile (· ≠ 0)

/-- `toupper` in the locale of C. -/
def toupper (c : UInt8) : UInt8 := if 0x61 ≤ c ∧ c ≤ 0x7A then c - 0x20 else c

/-- The digits that the address of an aircraft is read from. -/
def isXDigit (c : UInt8) : Bool :=
  (0x30 ≤ c && c ≤ 0x39) || (0x41 ≤ c && c ≤ 0x46) || (0x61 ≤ c && c ≤ 0x66)

/-- The loop of `normalize_reg`: dashes and blanks are left out. -/
def copyReg : ℕ → List UInt8 → List UInt8
  | _, [] => []
  | room, c :: src =>
    if c = 0 ∨ room = 0 then []
    else if c = 0x2D ∨ c = 0x20 then copyReg room src
    else toupper c :: copyReg (room - 1) src

/-- `normalize_reg`. -/
def normalizeReg (src : List UInt8) (dstlen : ℕ) : List UInt8 := copyReg (dstlen - 1) (src.dropWhile (· = 0x2E))

/-! ## The pool of strings -/

/-- `strings`: `strings_len` is the length of `buf`, and `cap` is `strings_cap`. -/
structure Strings where
  buf : List UInt8
  cap : ℕ

/-- `strings_add`. -/
def Strings.add (st : Strings) (s : Option (List UInt8)) : ℤ × Strings :=
  match s with
  | none => (-1, st)
  | some s =>
    if s = [] then (-1, st)
    else
      let need := st.buf.length + s.length + 1
      let cap :=
        if need > st.cap then if st.cap * 2 < need then st.buf.length + s.length + 1024 else st.cap * 2
        else st.cap
      (toInt st.buf.length, ⟨st.buf ++ s ++ [0], cap⟩)

/-- `strings_get`. -/
def Strings.get (st : Strings) (idx : ℤ) : Option (List UInt8) :=
  if 0 ≤ idx then some (cstr (st.buf.drop idx.toNat)) else none

/-! ## The file -/

/-- What `fgets` takes from a file into a buffer with room for `n` characters, and what it leaves. -/
def fgets : ℕ → List UInt8 → List UInt8 × List UInt8
  | 0, s => ([], s)
  | _ + 1, [] => ([], [])
  | n + 1, c :: s => if c = 0x0A then ([c], s) else ((c :: (fgets n s).1), (fgets n s).2)

/-- The strings that the loop over `fgets` sees, at most `fuel` of them. -/
def pieces : ℕ → List UInt8 → List (List UInt8)
  | 0, _ => []
  | _ + 1, [] => []
  | fuel + 1, c :: s => (fgets 1023 (c :: s)).1 :: pieces fuel (fgets 1023 (c :: s)).2

/-- The line cut at its semicolons, at most `n` times. -/
def splitFields : ℕ → List UInt8 → List (List UInt8)
  | _, [] => [[]]
  | 0, s => [s]
  | n + 1, c :: s =>
    if c = 0x3B then [] :: splitFields n s else (splitFields (n + 1) s).modifyHead (c :: ·)

/-- The newline, and a carriage return before it, are cut off. -/
def stripNewline (s : List UInt8) : List UInt8 := (s.takeWhile (· ≠ 0x0A)).takeWhile (· ≠ 0x0D)

/-- The fields of a line that are read. -/
structure Fields where
  hexField : List UInt8
  regField : List UInt8
  typeField : Option (List UInt8)
  descField : Option (List UInt8)
  opField : Option (List UInt8)

/-- The fields of the line, if it has an address and a registration. -/
def parseFields (line : List UInt8) : Option Fields :=
  let fields := splitFields 7 (cstr line)
  let fields := fields.modify (fields.length - 1) stripNewline
  match fields[0]?, fields[1]? with
  | some hexField, some regField =>
    if hexField.length = 6 ∧ hexField.all isXDigit ∧ regField ≠ [] then
      some ⟨hexField, regField, fields[2]?, fields[4]?, fields[6]?⟩
    else none
  | _, _ => none

/-! ## The table -/

/-- `db_entry_t`. -/
structure Entry where
  reg : List UInt8
  hex : List UInt8
  typeIdx : ℤ
  descIdx : ℤ
  opIdx : ℤ

/-- The table while it is read. -/
structure Loading where
  entries : List Entry
  capacity : ℕ
  strings : Strings

/-- The body of the loop over the lines. -/
def Loading.line (db : Loading) (line : List UInt8) : Loading :=
  match parseFields line with
  | none => db
  | some f =>
    -- the table doubles when it is full, also for a line that is dropped just after
    let db := if db.entries.length ≥ db.capacity then { db with capacity := db.capacity * 2 } else db
    let reg := normalizeReg f.regField 12
    if reg = [] then db
    else
      let (typeIdx, strings) := db.strings.add f.typeField
      let (descIdx, strings) := strings.add f.descField
      let (opIdx, strings) := strings.add f.opField
      { db with entries := db.entries ++ [⟨reg, f.hexField.map toupper, typeIdx, descIdx, opIdx⟩], strings }

/-- The table before the first line. -/
def Loading.init : Loading := ⟨[], 700000, ⟨[], 700000 * 64⟩⟩

/-- The database: `db`, `by_hex` and `strings`. -/
structure Database where
  entries : List Entry
  byHex : List ℕ
  strings : Strings

/-- `entry_cmp`. -/
def entryCmp (a b : Entry) : Ordering := strcmp a.reg b.reg

/-- `db[i].hex`. -/
def hexAt (entries : List Entry) (i : ℕ) : List UInt8 := (entries[i]?.map Entry.hex).getD []

/-- `by_hex_cmp`. -/
def byHexCmp (entries : List Entry) (ai bi : ℕ) : Ordering := strcmp (hexAt entries ai) (hexAt entries bi)

/-- `aircraft_db_load` of a file that can be opened: how many entries it has read, and the database. -/
def aircraftDbLoad (lib : CLib) (file : List UInt8) : ℕ × Database :=
  let db := (pieces file.length file).foldl Loading.line .init
  let entries := lib.qsort entryCmp db.entries
  (db.entries.length, ⟨entries, lib.qsort (byHexCmp entries) (List.range entries.length), db.strings⟩)

/-! ## Lookups -/

/-- `aircraft_db_lookup`. -/
def aircraftDbLookup (lib : CLib) (db : Database) (registration : List UInt8) : Option (List UInt8) :=
  if db.entries = [] ∨ cstr registration = [] then none
  else
    let norm := normalizeReg registration 12
    if norm = [] then none
    else (lib.bsearch (fun e => strcmp norm e.reg) db.entries).map Entry.hex

/-- `aircraft_info_t`. -/
structure AircraftInfo where
  registration : List UInt8
  type : Option (List UInt8)
  description : Option (List UInt8)
  operator : Option (List UInt8)
  deriving DecidableEq

/-- What an entry says of its aircraft. -/
def Entry.info (e : Entry) (strings : Strings) : AircraftInfo :=
  ⟨e.reg, strings.get e.typeIdx, strings.get e.descIdx, strings.get e.opIdx⟩

/-- `aircraft_db_lookup_by_hex` of six characters; `none` where it returns 0. -/
def aircraftDbLookupByHex (db : Database) (hex6 : List UInt8) : Option AircraftInfo :=
  let keyHex := (hex6.take 6).map toupper
  let found := closedSearch (fun i => strcmp (hexAt db.entries i) keyHex) db.byHex db.entries.length 0
    (db.entries.length - 1 : ℤ)
  found.bind fun i => db.entries[i]?.map fun e => e.info db.strings

/-- `aircraft_db_lookup_by_aes`. -/
def aircraftDbLookupByAes (db : Database) (aesId : UInt32) : Option AircraftInfo :=
  aircraftDbLookupByHex db (fmtHex 6 (aesId.toNat % 2 ^ 24))

end InmarsatSniffer.AircraftDb
