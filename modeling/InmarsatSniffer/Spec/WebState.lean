import Mathlib
import InmarsatSniffer.Spec.Web

/-!
# The state behind the web page

`web_add_stdc` writes into a ring of the last messages, `web_add_aero` into the table of
aircraft. `build_json` goes through the ring with indices of its own. The lock is held during
each of them, so that calls are one behind the other.
-/

namespace InmarsatSniffer.Feed

/-- The values of `stdc_msg_type_t`. -/
def StdcMsgType.code : StdcMsgType → ℤ
  | .egcSingle => 0x30
  | .egcDouble1 => 0xB1
  | .egcDouble2 => 0xB2
  | .announcement => 0x81
  | .bulletin => 0x7D
  | .distressAck => 0x91
  | .messageData => 0xAA
  | .netUpdate => 0x6C
  | .multiframeStart => 0xBD
  | .multiframeCont => 0xBE
  | .channelClear => 0x27
  | .ackRequest => 0x08
  | .msgAck => 0x2A
  | .chanAssignment => 0x83
  | .loginAck => 0x92
  | .individualPoll => 0xA3
  | .confirmation => 0xA8
  | .lesList => 0xAB

end InmarsatSniffer.Feed

namespace InmarsatSniffer.Web

open Feed

/-- `MAX_STDC_MSGS`. -/
abbrev maxStdcMsgs : ℕ := 200

/-- `stdc_entry_t`; `text` are the `text_len` bytes at the front of its array. -/
structure StdcEntry where
  timestamp : ℚ
  position : Option (ℚ × ℚ)
  serviceCode : ℤ
  msgType : ℤ
  text : List UInt8
  text_lt : text.length < 512

/-- An entry that was never written. -/
def StdcEntry.zero : StdcEntry := ⟨0, none, 0, 0, [], by decide⟩

/-- The entry of a message. -/
def StdcEntry.new (msg : StdcMessage) (now : ℚ) : StdcEntry where
  timestamp := now
  position := msg.position
  serviceCode := msg.serviceCode
  msgType := msg.type.code
  text := msg.text.take 511
  text_lt := Nat.lt_succ_of_le (List.length_take_le 511 msg.text)

/-- `state`. -/
structure WebState where
  stdc : ℕ → StdcEntry
  stdcHead : ℕ
  stdcCount : ℕ
  aircraft : Aircraft
  totalAcars : ℕ

/-- `state` at the start of the program. -/
def WebState.init : WebState := ⟨fun _ => .zero, 0, 0, ⟨[], Nat.zero_le _⟩, 0⟩

/-- `web_add_stdc`. -/
def WebState.addStdc (s : WebState) (msg : StdcMessage) (now : ℚ) : WebState :=
  { s with
    stdc := Function.update s.stdc s.stdcHead (.new msg now)
    stdcHead := (s.stdcHead + 1) % maxStdcMsgs
    stdcCount := if s.stdcCount < maxStdcMsgs then s.stdcCount + 1 else s.stdcCount }

/-- `web_add_aero`; `total_acars` is an `unsigned long`. -/
def WebState.addAero (s : WebState) (msg : AeroMessage) (now : ℚ) : WebState :=
  { s with
    aircraft := webAddAero s.aircraft msg now
    totalAcars := (s.totalAcars + 1) % 2 ^ 64 }

/-- A call, without its time. -/
inductive Call where
  | stdc (msg : StdcMessage)
  | aero (msg : AeroMessage)

/-- A call at a time. -/
def WebState.step (s : WebState) (call : ℚ × Call) : WebState :=
  match call.2 with
  | .stdc msg => s.addStdc msg call.1
  | .aero msg => s.addAero msg call.1

/-- The state behind the calls since the start. -/
def run (calls : List (ℚ × Call)) : WebState := calls.foldl WebState.step .init

/-- `idx` in `build_json`. -/
def WebState.stdcIdx (s : WebState) (i : ℕ) : ℕ :=
  (((s.stdcHead : ℤ) - s.stdcCount + i + maxStdcMsgs) % maxStdcMsgs).toNat

/-- The entries that `build_json` goes through. -/
def WebState.stdcEntries (s : WebState) : List StdcEntry :=
  (List.range s.stdcCount).map fun i => s.stdc (s.stdcIdx i)

end InmarsatSniffer.Web
