import Mathlib
import InmarsatSniffer.Spec.Feed

/-!
# The aircraft of the web page

`web_add_aero` keeps a table of the aircraft that were heard, and `build_json` makes one
JSON object of each. Doubles are rational numbers, as in the feed.
-/

namespace InmarsatSniffer.Web

open Stdc (ascii)
open Feed

/-- `MAX_AIRCRAFT`. -/
abbrev maxAircraft : ℕ := 256

/-- `MAX_FIXES`. -/
abbrev maxFixes : ℕ := 8

/-- A position fix: `fix_lat`, `fix_lon`, `fix_alt` and `fix_t` at one index. -/
structure Fix where
  lat : ℚ
  lon : ℚ
  alt : ℤ
  t : ℚ

/-- `aircraft_entry_t`. -/
structure AircraftEntry where
  reg : CString 16
  flight : CString 16
  label : CString 4
  fixes : List Fix
  lastSeen : ℚ
  lastText : CString 256
  channelId : ℤ
  fixes_le : fixes.length ≤ maxFixes

/-- The string at the front of a `char` array of `n + 1` bytes, when `text` was copied there. -/
def copyText (n : ℕ) (text : List UInt8) : CString (n + 1) :=
  ⟨(text.take n).takeWhile (· ≠ 0), by
    refine ⟨fun h => ?_, Nat.lt_succ_of_le ?_⟩
    · have := List.all_eq_true.1 List.all_takeWhile 0 h
      simp at this
    · exact (List.takeWhile_prefix _).length_le.trans (List.length_take_le _ _)⟩

/-- A new entry: `memset`, and the registration. -/
def AircraftEntry.new (reg : CString 16) : AircraftEntry where
  reg := reg
  flight := ⟨[], by simp⟩
  label := ⟨[], by simp⟩
  fixes := []
  lastSeen := 0
  lastText := ⟨[], by simp⟩
  channelId := 0
  fixes_le := Nat.zero_le _

/-- The fixes with one more; the first one goes if there is no room. -/
def pushFix (fixes : List Fix) (fix : Fix) : List Fix :=
  (if fixes.length ≥ maxFixes then fixes.tail else fixes) ++ [fix]

theorem pushFix_le {fixes : List Fix} (h : fixes.length ≤ maxFixes) (fix : Fix) :
    (pushFix fixes fix).length ≤ maxFixes := by
  have hpos : 0 < maxFixes := by decide
  unfold pushFix
  split
  · rw [List.length_append, List.length_tail, List.length_singleton]
    omega
  · rw [List.length_append, List.length_singleton]
    omega

/-- What `web_add_aero` puts into the entry of an aircraft. -/
def AircraftEntry.update (ac : AircraftEntry) (msg : AeroMessage) (now : ℚ) : AircraftEntry where
  reg := ac.reg
  flight := msg.flight
  label := msg.label
  fixes :=
    match msg.position with
    | some (lat, lon) => pushFix ac.fixes ⟨lat, lon, msg.altFt, now⟩
    | none => ac.fixes
  lastSeen := now
  lastText := if msg.text.length > 0 then copyText 255 msg.text else ac.lastText
  channelId := msg.channelId
  fixes_le := by
    split
    · exact pushFix_le ac.fixes_le _
    · exact ac.fixes_le

/-- `state.aircraft`. -/
abbrev Aircraft := {l : List AircraftEntry // l.length ≤ maxAircraft}

/-- The loop for the oldest entry, at index `i`. -/
def oldestLoop : ℕ → ℚ → ℕ → List AircraftEntry → ℕ
  | _, _, oldestI, [] => oldestI
  | i, oldestT, oldestI, ac :: rest =>
    if ac.lastSeen < oldestT then oldestLoop (i + 1) ac.lastSeen i rest
    else oldestLoop (i + 1) oldestT oldestI rest

/-- `web_add_aero`. -/
def webAddAero (table : Aircraft) (msg : AeroMessage) (now : ℚ) : Aircraft :=
  match table.1.findIdx? fun ac => ac.reg = msg.reg with
  | some i => ⟨table.1.modify i fun ac => ac.update msg now, by simpa using table.2⟩
  | none =>
    let ac := (AircraftEntry.new msg.reg).update msg now
    if h : table.1.length < maxAircraft then ⟨table.1 ++ [ac], by simpa using h⟩
    else ⟨table.1.set (oldestLoop 0 (10 ^ 18) 0 table.1) ac, by simpa using table.2⟩

/-- `json_escape_str`. -/
def jsonEscapeStr (maxlen : ℕ) (text : List UInt8) : List UInt8 := escapeLoop (maxlen - 6) [] text

/-- A fix in `build_json`. -/
def fixText (fix : Fix) : List UInt8 :=
  ascii "[" ++ fmtFixed 6 fix.lat ++ ascii "," ++ fmtFixed 6 fix.lon ++ ascii "," ++ fmtSigned fix.alt ++ ascii "," ++
  fmtFixed 3 fix.t ++ ascii "]"

/-- The fixes, with commas in between. -/
def fixesText : List Fix → List UInt8
  | [] => []
  | [fix] => fixText fix
  | fix :: fixes => fixText fix ++ ascii "," ++ fixesText fixes

/-- The size of `escaped_text`. -/
abbrev escapedTextSize : ℕ := 512

/-- What `build_json` writes for an aircraft. -/
def aircraftText (ac : AircraftEntry) : List UInt8 :=
  ascii "\x7b\"reg\":\"" ++ ac.reg.1 ++ ascii "\",\"flight\":\"" ++ ac.flight.1 ++ ascii "\",\"label\":\"" ++ ac.label.1 ++
  ascii "\",\"last_seen\":" ++ fmtFixed 3 ac.lastSeen ++ ascii ",\"ch\":" ++ fmtSigned ac.channelId ++
  ascii ",\"text\":\"" ++ jsonEscapeStr escapedTextSize ac.lastText.1 ++ ascii "\",\"fixes\":[" ++ fixesText ac.fixes ++
  ascii "]\x7d"

end InmarsatSniffer.Web
