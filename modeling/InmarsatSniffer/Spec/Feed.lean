import InmarsatSniffer.Spec.Message

/-!
# The feed of decoded messages

`feed_stdc_message` and `feed_aero_message` make one JSON line of a message and offer it to
the sinks: the writer of stdout, UDP destinations and MQTT; an Aero message also goes out
as text in JAERO's format 3. Strings are bytes, plain `char` is signed, and the doubles
that are printed are rational numbers.
-/

namespace InmarsatSniffer.Feed

open Stdc (ascii fmtInt fmtPad)

/-! ## Formats of `printf` -/

/-- `%d` and `%ld`. -/
def fmtSigned (i : ℤ) : List UInt8 := if i < 0 then 0x2D :: fmtInt i.natAbs else fmtInt i.natAbs

/-- `%0wd`. -/
def fmtSignedPad (w : ℕ) (i : ℤ) : List UInt8 :=
  if i < 0 then 0x2D :: fmtPad (w - 1) i.natAbs else fmtPad w i.natAbs

/-- `%0wX`. -/
def fmtHex (w n : ℕ) : List UInt8 :=
  let digits := (Nat.toDigits 16 n).map fun c => UInt8.ofNat c.toUpper.toNat
  List.replicate (w - digits.length) 0x30 ++ digits

/-- The nearest integer to a number that is not negative, the even one in between. -/
def roundEven (q : ℚ) : ℕ :=
  let n := ⌊q⌋₊
  if q - n < 1 / 2 ∨ q - n = 1 / 2 ∧ n % 2 = 0 then n else n + 1

/-- `%.nf` of a double that is finite. -/
def fmtFixed (n : ℕ) (x : ℚ) : List UInt8 :=
  let r := roundEven (|x| * 10 ^ n)
  (if x < 0 then [0x2D] else []) ++ fmtInt (r / 10 ^ n) ++ [0x2E] ++ fmtPad n (r % 10 ^ n)

/-! ## Messages -/

/-- A string in a `char` array of `n` bytes. -/
abbrev CString (n : ℕ) := {s : List UInt8 // 0 ∉ s ∧ s.length < n}

/-- `stdc_msg_type_t`. -/
inductive StdcMsgType where
  | egcSingle | egcDouble1 | egcDouble2 | announcement | bulletin | distressAck | messageData
  | netUpdate | multiframeStart | multiframeCont | channelClear | ackRequest | msgAck
  | chanAssignment | loginAck | individualPoll | confirmation | lesList
  deriving DecidableEq

/-- The fields of `stdc_message_t` that are read here. -/
structure StdcMessage where
  type : StdcMsgType
  descriptor : UInt8
  satId : ℤ
  lesId : ℤ
  satName : Option (List UInt8)
  lesName : Option (List UInt8)
  serviceCode : ℤ
  priority : ℤ
  logicalChannel : ℤ
  uplinkMhz : ℚ
  downlinkMhz : ℚ
  mesId : ℤ
  text : List UInt8
  /-- `lat` and `lon`, if there is a position and neither is a NaN. -/
  position : Option (ℚ × ℚ)

/-- The fields of `aero_message_t` that the feed and the web page read. -/
structure AeroMessage where
  reg : CString 16
  flight : CString 16
  label : CString 4
  mode : UInt8
  blockId : UInt8
  ack : UInt8
  text : List UInt8
  channelId : ℤ
  aesId : UInt32
  gesId : UInt8
  qno : UInt8
  refno : UInt8
  downlink : Bool
  arinc622Json : Option (List UInt8)
  /-- `lat` and `lon`, if there is a position and neither is a NaN. -/
  position : Option (ℚ × ℚ)
  altFt : ℤ

/-- What the clock says during a call: seconds, nanoseconds, and the fields of `gmtime_r`. -/
structure Clock where
  sec : ℤ
  nsec : ℕ
  hour : ℕ
  min : ℕ
  second : ℕ
  mday : ℕ
  mon : ℕ
  year : ℕ

/-- `now_unix`. -/
def Clock.nowUnix (c : Clock) : ℚ := c.sec + c.nsec / 1000000000

/-! ## Lines -/

/-- The size of `buf`. -/
abbrev bufSize : ℕ := 8192

/-- The sizes of `escaped` and of `jbuf`. -/
abbrev escapedSize : ℕ := 4096

/-- What `json_escape` makes of a byte; a byte from 0x80 on is negative. -/
def escapeByte (c : UInt8) : List UInt8 :=
  if c = 0x22 then [0x5C, 0x22]
  else if c = 0x5C then [0x5C, 0x5C]
  else if c = 0x0A then [0x5C, 0x6E]
  else if c = 0x0D then [0x5C, 0x72]
  else if c = 0x09 then [0x5C, 0x74]
  else if 0x20 ≤ c ∧ c < 0x80 then [c]
  else []

/-- The loop of `json_escape`, with the bytes that are out already. -/
def escapeLoop (limit : ℕ) : List UInt8 → List UInt8 → List UInt8
  | out, [] => out
  | out, c :: text => if out.length < limit then escapeLoop limit (out ++ escapeByte c) text else out

/-- `json_escape`, into `maxlen` bytes. -/
def jsonEscape (maxlen : ℕ) (text : List UInt8) : List UInt8 := escapeLoop (maxlen - 6) [] text

/-- `type_str`. -/
def typeStr : StdcMsgType → String
  | .egcSingle => "egc"
  | .egcDouble1 => "egc"
  | .egcDouble2 => "egc"
  | .bulletin => "bulletin"
  | .announcement => "announcement"
  | .channelClear => "signalling"
  | .ackRequest => "signalling"
  | .msgAck => "signalling"
  | .chanAssignment => "signalling"
  | .loginAck => "login_ack"
  | .messageData => "message"
  | .netUpdate => "net_update"
  | .lesList => "les_list"
  | .individualPoll => "poll"
  | .confirmation => "confirmation"
  | .distressAck => "stdc"
  | .multiframeStart => "stdc"
  | .multiframeCont => "stdc"

/-- What `feed_stdc_message` puts into `buf`, if there is room. -/
def stdcLine (satelliteName : List UInt8) (msg : StdcMessage) (clock : Clock) : List UInt8 :=
  ascii "\x7b\"source\":\"inmarsat-sniffer\",\"type\":\"" ++ ascii (typeStr msg.type) ++
  ascii "\",\"satellite\":\"" ++ satelliteName ++
  ascii "\",\"descriptor\":\"0x" ++ fmtHex 2 msg.descriptor.toNat ++ ascii "\"" ++
  (if msg.satId ≥ 0 ∧ msg.lesId > 0 then
    ascii ",\"sat_id\":" ++ fmtSigned msg.satId ++ ascii ",\"sat_name\":\"" ++ msg.satName.getD [] ++
    ascii "\",\"les_id\":" ++ fmtSigned msg.lesId ++ ascii ",\"les_name\":\"" ++ msg.lesName.getD [] ++ ascii "\""
  else []) ++
  (if msg.serviceCode > 0 ∨ msg.priority > 0 then
    ascii ",\"service\":" ++ fmtSigned msg.serviceCode ++ ascii ",\"priority\":" ++ fmtSigned msg.priority
  else []) ++
  (if msg.mesId > 0 then ascii ",\"mes_id\":" ++ fmtSigned msg.mesId else []) ++
  (if msg.logicalChannel > 0 then ascii ",\"channel\":" ++ fmtSigned msg.logicalChannel else []) ++
  (if msg.uplinkMhz > 0 then ascii ",\"uplink_mhz\":" ++ fmtFixed 4 msg.uplinkMhz else []) ++
  (if msg.downlinkMhz > 0 then ascii ",\"downlink_mhz\":" ++ fmtFixed 4 msg.downlinkMhz else []) ++
  ascii ",\"text\":\"" ++ jsonEscape escapedSize msg.text ++ ascii "\"" ++
  (match msg.position with
  | some (lat, lon) => ascii ",\"lat\":" ++ fmtFixed 6 lat ++ ascii ",\"lon\":" ++ fmtFixed 6 lon
  | none => []) ++
  ascii ",\"timestamp\":" ++ fmtFixed 3 clock.nowUnix ++ ascii "\x7d"

/-- `reg` without its leading dot. -/
def stripDot : List UInt8 → List UInt8
  | [] => []
  | c :: reg => if c = 0x2E then reg else c :: reg

/-- `%c` of a character, or of another one in place of NUL. -/
def orElse (c other : UInt8) : List UInt8 := if c = 0 then [other] else [c]

/-- `aes_hex`. -/
def aesHex (msg : AeroMessage) : List UInt8 := fmtHex 6 (msg.aesId.toNat % 2 ^ 24)

/-- `ges_hex`. -/
def gesHex (msg : AeroMessage) : List UInt8 := fmtHex 2 msg.gesId.toNat

/-- `src_type` and `dst_type`. -/
def stationType (aircraft : Bool) : List UInt8 :=
  if aircraft then ascii "Aircraft Earth Station" else ascii "Ground Earth Station"

/-- What `feed_aero_message` puts into `buf`, if there is room. -/
def aeroLine (stationId : List UInt8) (msg : AeroMessage) (clock : Clock) : List UInt8 :=
  ascii "\x7b\"app\":\x7b\"name\":\"JAERO\",\"ver\":\"inmarsat-sniffer VFO" ++ fmtSignedPad 2 msg.channelId ++
  ascii "\"\x7d,\"isu\":\x7b\"acars\":\x7b\"mode\":\"" ++ orElse msg.mode 0x20 ++
  ascii "\",\"ack\":\"" ++ orElse msg.ack 0x20 ++
  ascii "\",\"blk_id\":\"" ++ orElse msg.blockId 0x20 ++
  ascii "\",\"label\":\"" ++ msg.label.1.take 2 ++
  ascii "\",\"reg\":\"" ++ stripDot msg.reg.1 ++ ascii "\"" ++
  (if msg.flight.1 = [] then [] else ascii ",\"flight\":\"" ++ msg.flight.1 ++ ascii "\"") ++
  ascii ",\"msg_text\":\"" ++ jsonEscape escapedSize msg.text ++ ascii "\"" ++
  (match msg.arinc622Json with
  | some arinc => ascii ",\"arinc622\":" ++ arinc
  | none => []) ++
  ascii "\x7d,\"refno\":\"" ++ fmtHex 2 msg.refno.toNat ++
  ascii "\",\"qno\":\"" ++ fmtHex 2 msg.qno.toNat ++
  ascii "\",\"src\":\x7b\"addr\":\"" ++ (if msg.downlink then aesHex msg else gesHex msg) ++
  ascii "\",\"type\":\"" ++ stationType msg.downlink ++
  ascii "\"\x7d,\"dst\":\x7b\"addr\":\"" ++ (if msg.downlink then gesHex msg else aesHex msg) ++
  ascii "\",\"type\":\"" ++ stationType (!msg.downlink) ++
  ascii "\"\x7d\x7d,\"t\":\x7b\"sec\":" ++ fmtSigned clock.sec ++
  ascii ",\"usec\":" ++ fmtInt (clock.nsec / 1000) ++ ascii "\x7d" ++
  (if stationId = [] then [] else ascii ",\"station\":\"" ++ stationId ++ ascii "\"") ++
  ascii "\x7d"

/-- `reg_padded`. -/
def regPadded (reg : List UInt8) : List UInt8 := List.replicate (7 - reg.length) 0x2E ++ reg.take 7

/-- The loop over the text in JAERO's format, with `jpos` bytes in `jbuf` before it. -/
def jaeroText (jpos : ℕ) : List UInt8 → List UInt8
  | [] => []
  | c :: text =>
    if jpos < escapedSize - 4 then
      if c = 0x0D then jaeroText jpos text
      else if c = 0x0A then 0x0A :: 0x09 :: jaeroText (jpos + 2) text
      else c :: jaeroText (jpos + 1) text
    else []

/-- The line of JAERO's format 3 in `jbuf`. -/
def jaeroLine (msg : AeroMessage) (clock : Clock) : List UInt8 :=
  let label0 := msg.label.1.getD 0 0
  let label1 := if msg.label.1.getD 1 0 = 127 then 0x64 else msg.label.1.getD 1 0
  let head :=
    fmtPad 2 clock.hour ++ ascii ":" ++ fmtPad 2 clock.min ++ ascii ":" ++ fmtPad 2 clock.second ++ ascii " " ++
    fmtPad 2 clock.mday ++ ascii "-" ++ fmtPad 2 (clock.mon + 1) ++ ascii "-" ++ fmtPad 2 (clock.year % 100) ++
    ascii " UTC AES:" ++ fmtHex 6 msg.aesId.toNat ++ ascii " GES:" ++ fmtHex 2 msg.gesId.toNat ++ ascii " " ++
    orElse msg.mode 0x32 ++ ascii " " ++ regPadded msg.reg.1 ++ ascii " " ++ orElse msg.ack 0x20 ++ ascii " " ++
    orElse label0 0x5F ++ orElse label1 0x5F ++ ascii " " ++ orElse msg.blockId 0x20
  head ++ (if msg.text = [] then [] else ascii "\n\t" ++ jaeroText (head.length + 2) msg.text) ++ ascii "\n"

/-! ## Sinks -/

/-- `UDP_MAX`. -/
abbrev udpMax : ℕ := 4

/-- The options of the feed; `haveMqtt` is a switch of the build. -/
structure Options where
  feedEnabled : Bool
  udpHosts : List (List UInt8)
  haveMqtt : Bool
  mqttEnabled : Bool
  jaeroFormatEnabled : Bool
  jaeroFormatHost : Option (List UInt8)
  satelliteName : List UInt8
  stationId : List UInt8
  udpCount_le : udpHosts.length ≤ udpMax

/-- What the system has for `feed_init`: a socket for each destination and for JAERO's
format, the addresses that `inet_aton` can read, and the queue and the thread of the writer. -/
structure System where
  socket : ℕ → Option ℕ
  jaeroSocket : Option ℕ
  inetAton : List UInt8 → Bool
  writer : Bool

/-- The static variables of the feed, and the options; a socket that is not there is -1. -/
structure FeedState where
  options : Options
  udpSockets : List (Option ℕ)
  jaeroUdpSock : Option ℕ
  feedWriterRunning : Bool
  initialized : Bool

/-- `feed_init`. -/
def feedInit (options : Options) (sys : System) : FeedState where
  options := options
  udpSockets := options.udpHosts.mapIdx fun i host => if sys.inetAton host then sys.socket i else none
  jaeroUdpSock :=
    if options.jaeroFormatEnabled then
      options.jaeroFormatHost.bind fun host => if sys.inetAton host then sys.jaeroSocket else none
    else none
  feedWriterRunning := options.feedEnabled && sys.writer
  initialized := true

/-- Where a line can go. JAERO's format goes to its socket, or to stderr without one. -/
inductive Sink where
  | stdout
  | udp (i : ℕ)
  | mqtt
  | jaero
  deriving DecidableEq

/-- A line that is offered to a sink, which may drop it. -/
structure Offer where
  sink : Sink
  line : List UInt8

/-- `send_json`. -/
def sendJson (f : FeedState) (json : List UInt8) : List Offer :=
  (if f.options.feedEnabled && f.feedWriterRunning then [⟨.stdout, json⟩] else []) ++
  ((List.range f.udpSockets.length).filter fun i => (f.udpSockets.getD i none).isSome).map (fun i => ⟨.udp i, json⟩) ++
  (if f.options.haveMqtt && f.options.mqttEnabled then [⟨.mqtt, json⟩] else [])

/-- The test that both functions start with, behind the one for `initialized`. -/
def FeedState.nothingToDo (f : FeedState) : Bool := !f.options.feedEnabled && f.options.udpHosts.length == 0

/-- `feed_stdc_message`. -/
def feedStdcMessage (f : FeedState) (msg : StdcMessage) (clock : Clock) : List Offer :=
  if !f.initialized then []
  else if f.nothingToDo then []
  else
    let line := stdcLine f.options.satelliteName msg clock
    if line.length < bufSize then sendJson f line else []

/-- `feed_aero_message`. -/
def feedAeroMessage (f : FeedState) (msg : AeroMessage) (clock : Clock) : List Offer :=
  if !f.initialized then []
  else if f.nothingToDo then []
  else
    let line := aeroLine f.options.stationId msg clock
    (if line.length < bufSize then sendJson f line else []) ++
    (if f.options.jaeroFormatEnabled then [⟨.jaero, jaeroLine msg clock⟩] else [])

/-- A decoded message. -/
inductive Message where
  | stdc (msg : StdcMessage) (clock : Clock)
  | aero (msg : AeroMessage) (clock : Clock)

/-- What is offered for a message. -/
def feedMessage (f : FeedState) : Message → List Offer
  | .stdc msg clock => feedStdcMessage f msg clock
  | .aero msg clock => feedAeroMessage f msg clock

/-- What is offered for messages, one behind the other. -/
def feedMessages (f : FeedState) (msgs : List Message) : List Offer := msgs.flatMap (feedMessage f)

end InmarsatSniffer.Feed
