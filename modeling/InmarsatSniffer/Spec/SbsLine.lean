import InmarsatSniffer.Spec.AircraftDb
import InmarsatSniffer.Spec.Basestation

/-!
# The lines of the BaseStation feed

`basestation_send_position` makes one `MSG,3` line of a position, with the speed and the
track that came with it or, failing these, those since the last fix of the aircraft. What
comes of the floating-point operations is a parameter (`FloatOps`); the comparisons and the
formats are those of the code, for NaNs and infinities too.
-/

namespace InmarsatSniffer.Bs

open Stdc (ascii fmtInt fmtPad)
open Feed (fmtSigned roundEven Clock)
open AircraftDb (CLib Database aircraftDbLookup cstr)

/-! ## Doubles -/

/-- A `double`. -/
inductive Double where
  | finite (neg : Bool) (mag : ℚ≥0)
  | inf (neg : Bool)
  | nan (neg : Bool)
  deriving DecidableEq

/-- A sign and a magnitude as a number. -/
def signed (neg : Bool) (mag : ℚ≥0) : ℚ := if neg then -(mag : ℚ) else mag

/-- `x > c`. -/
def Double.above (c : ℚ) : Double → Bool
  | .finite neg mag => c < signed neg mag
  | .inf neg => !neg
  | .nan _ => false

/-- `x < c`. -/
def Double.below (c : ℚ) : Double → Bool
  | .finite neg mag => signed neg mag < c
  | .inf neg => neg
  | .nan _ => false

/-- `x >= 0`. -/
def Double.nonneg : Double → Bool
  | .finite neg mag => 0 ≤ signed neg mag
  | .inf neg => !neg
  | .nan _ => false

/-- `%.nf`. -/
def fmtDouble (n : ℕ) (x : Double) : List UInt8 :=
  let minus (neg : Bool) : List UInt8 := if neg then [0x2D] else []
  match x with
  | .finite neg mag =>
    let r := roundEven (mag * 10 ^ n)
    minus neg ++ fmtInt (r / 10 ^ n) ++ (if n = 0 then [] else 0x2E :: fmtPad n (r % 10 ^ n))
  | .inf neg => minus neg ++ ascii "inf"
  | .nan neg => minus neg ++ ascii "nan"

/-- What the floating-point operations give. -/
structure FloatOps where
  /-- Nanoseconds as seconds: `(double)ns / 1e9`. -/
  seconds : UInt64 → Double
  /-- `bs_distance_nm`. -/
  bsDistanceNm : Double → Double → Double → Double → Double
  /-- The speed from a distance and a time: `dist / (dt_sec / 3600.0)`. -/
  knots : Double → Double → Double
  /-- `bs_bearing`. -/
  bsBearing : Double → Double → Double → Double → Double

/-! ## Earlier fixes -/

/-- `BS_TRACK_MAX`. -/
abbrev bsTrackMax : ℕ := 64

/-- `bs_track_t`. -/
structure Track where
  hex : List UInt8
  lat : Double
  lon : Double
  timestampNs : UInt64
  deriving DecidableEq

/-- The loop that looks for the oldest fix, from entry `i` on. -/
def oldestLoop : List Track → ℕ → UInt64 → ℕ → ℕ
  | [], _, _, idx => idx
  | t :: ts, i, oldest, idx =>
    if t.timestampNs < oldest then oldestLoop ts (i + 1) t.timestampNs i else oldestLoop ts (i + 1) oldest idx

/-- `bs_derive_track`: the speed and the track, if there are any, and the fixes behind it. -/
def bsDeriveTrack (fl : FloatOps) (tracks : List Track) (hex : List UInt8) (lat lon : Double)
    (timestampNs : UInt64) : Option (Double × Double) × List Track :=
  match tracks.find? fun t => t.hex = hex with
  | some prev =>
    let dtSec := fl.seconds (timestampNs - prev.timestampNs)
    let speed := fl.knots (fl.bsDistanceNm prev.lat prev.lon lat lon) dtSec
    (if dtSec.above 10 && dtSec.below 7200 && speed.above (1 / 2) && speed.below 700 then
        some (speed, fl.bsBearing prev.lat prev.lon lat lon)
      else none,
      tracks.set (tracks.findIdx fun t => t.hex = hex) ⟨prev.hex, lat, lon, timestampNs⟩)
  | none =>
    let fix : Track := ⟨hex.take 6, lat, lon, timestampNs⟩
    (none,
      if tracks.length < bsTrackMax then tracks ++ [fix]
      else tracks.set (oldestLoop tracks 0 (UInt64.ofNat (2 ^ 64 - 1)) 0) fix)

/-! ## The line -/

/-- The arguments of `basestation_send_position`. -/
structure Report where
  reg : List UInt8
  flight : Option (List UInt8)
  lat : Double
  lon : Double
  altFt : ℤ
  gsKnotsIn : Double
  trackDegIn : Double
  timestampNs : UInt64

/-- The speed and the track of the line, and the fixes behind it. -/
def Report.motion (fl : FloatOps) (tracks : List Track) (hex : List UInt8) (r : Report) :
    Option (Double × Double) × List Track :=
  let derived := bsDeriveTrack fl tracks hex r.lat r.lon r.timestampNs
  -- what came with the position is used, but the fix is kept in any case
  if r.gsKnotsIn.nonneg && r.trackDegIn.nonneg then (some (r.gsKnotsIn, r.trackDegIn), derived.2) else derived

/-- `%Y/%m/%d`. -/
def datestamp (clock : Clock) : List UInt8 :=
  fmtInt (clock.year + 1900) ++ ascii "/" ++ fmtPad 2 (clock.mon + 1) ++ ascii "/" ++ fmtPad 2 clock.mday

/-- `%H:%M:%S.000`. -/
def timestamp (clock : Clock) : List UInt8 :=
  fmtPad 2 clock.hour ++ ascii ":" ++ fmtPad 2 clock.min ++ ascii ":" ++ fmtPad 2 clock.second ++ ascii ".000"

/-- The text of `flight`. -/
def Report.callsign (r : Report) : List UInt8 := cstr (r.flight.getD [])

/-- The four formats. -/
def sbsText (r : Report) (hex : List UInt8) (motion : Option (Double × Double)) (clock : Clock) : List UInt8 :=
  let head :=
    ascii "MSG,3,1,1," ++ hex ++ ascii ",1," ++ datestamp clock ++ ascii "," ++ timestamp clock ++ ascii "," ++
    datestamp clock ++ ascii "," ++ timestamp clock ++ ascii "," ++ r.callsign
  let tail := fmtDouble 6 r.lat ++ ascii "," ++ fmtDouble 6 r.lon ++ ascii ",,,,,,0\r\n"
  match decide (-99999 < r.altFt), motion with
  | true, some (gs, track) =>
    head ++ ascii "," ++ fmtSigned r.altFt ++ ascii "," ++ fmtDouble 0 gs ++ ascii "," ++ fmtDouble 0 track ++
      ascii "," ++ tail
  | true, none => head ++ ascii "," ++ fmtSigned r.altFt ++ ascii ",,," ++ tail
  | false, some (gs, track) =>
    head ++ ascii ",," ++ fmtDouble 0 gs ++ ascii "," ++ fmtDouble 0 track ++ ascii "," ++ tail
  | false, none => head ++ ascii ",,,," ++ tail

/-- `snprintf` into a buffer: what it leaves there before the NUL, and the length it returns. -/
def snprintf (size : ℕ) (text : List UInt8) : List UInt8 × ℕ := (text.take (size - 1), text.length)

/-- `basestation_send_position` up to the loop over the clients: the line that is written, if there
is one, and the fixes behind it. -/
def sendPosition (fl : FloatOps) (lib : CLib) (db : Database) (active : Bool) (tracks : List Track) (r : Report)
    (clock : Clock) : Option (List UInt8) × List Track :=
  if !active || cstr r.reg = [] then (none, tracks)
  else
    match aircraftDbLookup lib db r.reg with
    | none => (none, tracks)
    | some hex =>
      let (motion, tracks) := r.motion fl tracks hex
      let (msg, len) := snprintf msgSize (sbsText r hex motion clock)
      (if len = 0 ∨ len ≥ msgSize then none else some (msg.take len), tracks)

/-! ## The feed -/

/-- The clients of the feed and the fixes that it keeps. -/
structure SbsFeed where
  station : Station
  tracks : List Track

/-- `basestation_send_position`. -/
def SbsFeed.report (fl : FloatOps) (lib : CLib) (db : Database) (f : SbsFeed) (r : Report) (clock : Clock)
    (res : Fd → WriteResult) : SbsFeed :=
  match sendPosition fl lib db f.station.active f.tracks r clock with
  | (none, tracks) => ⟨f.station, tracks⟩
  | (some line, tracks) => ⟨(f.station.send line res).1, tracks⟩

/-- A run of the feed, with the positions that were reported. -/
inductive SbsRun (fl : FloatOps) (lib : CLib) (db : Database) : SbsFeed → List Report → SbsFeed → Prop where
  | nil {f : SbsFeed} : SbsRun fl lib db f [] f
  | accept {f f' : SbsFeed} {rs : List Report} {s : Station} {fd : Fd} (hrun : SbsRun fl lib db f rs f')
    (hstep : Step f'.station (.accept fd) s) : SbsRun fl lib db f rs ⟨s, f'.tracks⟩
  | reconnect {f f' : SbsFeed} {rs : List Report} {s : Station} {fd : Fd} (hrun : SbsRun fl lib db f rs f')
    (hstep : Step f'.station (.reconnect fd) s) : SbsRun fl lib db f rs ⟨s, f'.tracks⟩
  | report {f f' : SbsFeed} {rs : List Report} {r : Report} {clock : Clock} {res : Fd → WriteResult}
    (hrun : SbsRun fl lib db f rs f') : SbsRun fl lib db f (rs ++ [r]) (f'.report fl lib db r clock res)

end InmarsatSniffer.Bs
