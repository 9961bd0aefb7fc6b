import Mathlib
import InmarsatSniffer.Spec.Escape
import InmarsatSniffer.Spec.WebState

/-!
# The JSON of the web page

`build_json` writes into a buffer of `maxlen` bytes with `pos += snprintf(buf + pos, maxlen - pos, ...)`,
where `snprintf` returns the length that was wanted. Three loops stop when they come too near
to the end. What `web_get_channel_info` gives, and what the clock says at each of its readings,
are arguments.
-/

namespace InmarsatSniffer.Web

open Stdc (ascii fmtInt)
open Feed
open Escape (CharSign)

/-! ## The buffer -/

/-- A write to `buf`: `snprintf` at a position, with the size that was passed and the length that was
wanted, or a store. -/
inductive BufWrite where
  | snprintf (pos : ℕ) (size : ℤ) (wanted : ℕ)
  | store (pos : ℕ)

/-- What was wanted so far, and the writes. -/
structure JsonOut where
  text : List UInt8
  writes : List BufWrite

/-- `pos`. -/
def JsonOut.pos (o : JsonOut) : ℕ := o.text.length

/-- `pos += snprintf(buf + pos, maxlen - pos, ...)`. -/
def JsonOut.print (maxlen : ℕ) (o : JsonOut) (text : List UInt8) : JsonOut :=
  ⟨o.text ++ text, o.writes ++ [.snprintf o.pos (maxlen - o.pos) text.length]⟩

/-- `buf[pos++] = ','`. -/
def JsonOut.comma (o : JsonOut) : JsonOut := ⟨o.text ++ [0x2C], o.writes ++ [.store o.pos]⟩

/-- A loop over entries while `pos < maxlen - slack`, some of which are passed over, with commas in
between. -/
def eachEntry {α : Type} (maxlen slack : ℕ) (skip : α → Bool) (put : JsonOut → α → JsonOut) :
    Bool → JsonOut → List α → JsonOut
  | _, o, [] => o
  | first, o, a :: as =>
    if (o.pos : ℤ) < maxlen - slack then
      if skip a then eachEntry maxlen slack skip put first o as
      else eachEntry maxlen slack skip put false (put (if first then o else o.comma) a) as
    else o

/-! ## Entries -/

/-- `%.0f`. -/
def fmtRound (x : ℚ) : List UInt8 := (if x < 0 then [0x2D] else []) ++ fmtInt (roundEven |x|)

/-- A text through `json_escape_str` into an array of `size` bytes. -/
def escapedInto (sign : CharSign) (size : ℤ) (text : List UInt8) : List UInt8 :=
  (Escape.jsonEscapeStr sign (fun _ => 0) size text).text

/-- What is printed for a message. -/
def stdcText (sign : CharSign) (e : StdcEntry) : List UInt8 :=
  let escaped := escapedInto sign 1024 (e.text.take 400)
  match e.position with
  | some (lat, lon) =>
    ascii "\x7b\"t\":" ++ fmtFixed 3 e.timestamp ++ ascii ",\"svc\":" ++ fmtSigned e.serviceCode ++
    ascii ",\"type\":" ++ fmtSigned e.msgType ++ ascii ",\"lat\":" ++ fmtFixed 6 lat ++ ascii ",\"lon\":" ++
    fmtFixed 6 lon ++ ascii ",\"text\":\"" ++ escaped ++ ascii "\"\x7d"
  | none =>
    ascii "\x7b\"t\":" ++ fmtFixed 3 e.timestamp ++ ascii ",\"svc\":" ++ fmtSigned e.serviceCode ++
    ascii ",\"type\":" ++ fmtSigned e.msgType ++ ascii ",\"text\":\"" ++ escaped ++ ascii "\"\x7d"

/-- What is printed for an aircraft before its fixes. -/
def aircraftHead (sign : CharSign) (ac : AircraftEntry) : List UInt8 :=
  ascii "\x7b\"reg\":\"" ++ ac.reg.1 ++ ascii "\",\"flight\":\"" ++ ac.flight.1 ++ ascii "\",\"label\":\"" ++ ac.label.1 ++
  ascii "\",\"last_seen\":" ++ fmtFixed 3 ac.lastSeen ++ ascii ",\"ch\":" ++ fmtSigned ac.channelId ++
  ascii ",\"text\":\"" ++ escapedInto sign escapedTextSize ac.lastText.1 ++ ascii "\",\"fixes\":["

/-- The loop over the fixes, from index `j` on. -/
def putFixes (maxlen : ℕ) : ℕ → JsonOut → List Fix → JsonOut
  | _, o, [] => o
  | j, o, fix :: fixes => putFixes maxlen (j + 1) ((if j > 0 then o.comma else o).print maxlen (fixText fix)) fixes

/-- The body of the loop over the aircraft. -/
def putAircraft (sign : CharSign) (maxlen : ℕ) (o : JsonOut) (ac : AircraftEntry) : JsonOut :=
  (putFixes maxlen 0 (o.print maxlen (aircraftHead sign ac)) ac.fixes).print maxlen (ascii "]\x7d")

/-- `chan_web_info_t`, with the fields that are printed. -/
structure ChanWebInfo where
  channelId : ℤ
  baudRate : ℤ
  msgCount : ℕ
  lastMsgTime : ℚ
  mse : ℚ
  ebno : ℚ
  isLocked : ℤ

/-- What is printed for a channel, at a reading of the clock. -/
def channelText (c : ℚ × ChanWebInfo) : List UInt8 :=
  let age := if c.2.lastMsgTime < 1 then -1 else c.1 - c.2.lastMsgTime
  ascii "\x7b\"ch\":" ++ fmtSigned c.2.channelId ++ ascii ",\"baud\":" ++ fmtSigned c.2.baudRate ++
  ascii ",\"msgs\":" ++ fmtInt c.2.msgCount ++ ascii ",\"age\":" ++ fmtRound age ++
  ascii ",\"mse\":" ++ fmtFixed 3 c.2.mse ++ ascii ",\"ebno\":" ++ fmtFixed 1 c.2.ebno ++
  ascii ",\"lock\":" ++ fmtSigned c.2.isLocked ++ ascii "\x7d"

/-! ## The function -/

/-- What `build_json` reads besides `state`. The channels come with the readings of the clock for them. -/
structure JsonEnv where
  sign : CharSign
  stdcEnabled : Bool
  spectrumEnabled : Bool
  feedDrops : ℕ
  nowHeader : ℚ
  nowCutoff : ℚ
  channels : List (ℚ × ChanWebInfo)

/-- `"true"` and `"false"`. -/
def boolText (b : Bool) : List UInt8 := if b then ascii "true" else ascii "false"

/-- The first object members. -/
def headerText (s : WebState) (env : JsonEnv) : List UInt8 :=
  ascii "\x7b\"t\":" ++ fmtFixed 3 env.nowHeader ++ ascii ",\"stdc_enabled\":" ++ boolText env.stdcEnabled ++
  ascii ",\"spectrum_enabled\":" ++ boolText env.spectrumEnabled ++ ascii ",\"total_acars\":" ++ fmtInt s.totalAcars ++
  ascii ",\"feed_drops\":" ++ fmtInt env.feedDrops ++ ascii ","

/-- `build_json`; it returns `pos`. -/
def buildJson (s : WebState) (env : JsonEnv) (maxlen : ℕ) : JsonOut :=
  let o := (JsonOut.mk [] []).print maxlen (headerText s env)
  let o := o.print maxlen (ascii "\"stdc\":[")
  let o := eachEntry maxlen 1024 (fun _ => false) (fun o e => o.print maxlen (stdcText env.sign e)) true o s.stdcEntries
  let o := o.print maxlen (ascii "],")
  -- only the aircraft of the last ten minutes
  let cutoff := env.nowCutoff - 600
  let o := o.print maxlen (ascii "\"aircraft\":[")
  let o := eachEntry maxlen 2048 (fun ac => decide (ac.lastSeen < cutoff)) (putAircraft env.sign maxlen) true o s.aircraft.1
  let o := o.print maxlen (ascii "],")
  let o := o.print maxlen (ascii "\"channels\":[")
  let o := eachEntry maxlen 256 (fun _ => false) (fun o c => o.print maxlen (channelText c)) true o env.channels
  let o := o.print maxlen (ascii "]")
  o.print maxlen (ascii "\x7d")

end InmarsatSniffer.Web
