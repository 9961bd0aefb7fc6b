import Mathlib
import InmarsatSniffer.Lib.Json
import InmarsatSniffer.Spec.Web

/-!
# Escapes into a buffer

`json_escape` of the feed and `json_escape_str` of the web page write into a buffer of
`maxlen` bytes. Both compare plain `char`s, which are signed on x86 and unsigned on ARM.
-/

namespace InmarsatSniffer.Escape

/-- Plain `char`. -/
inductive CharSign where
  | signed
  | unsigned
  deriving DecidableEq

/-- The value of a `char`. -/
def CharSign.value : CharSign → UInt8 → ℤ
  | .signed, c => c.toInt8.toInt
  | .unsigned, c => c.toNat

/-- The buffer `out`, `pos`, and the indices that were stored to. -/
structure Out where
  buf : ℕ → UInt8
  pos : ℕ
  stored : List ℕ

/-- The bytes up to `pos`. -/
def Out.text (o : Out) : List UInt8 := (List.range o.pos).map o.buf

/-- `out[pos++] = c;` -/
def Out.put (o : Out) (c : UInt8) : Out := ⟨Function.update o.buf o.pos c, o.pos + 1, o.stored ++ [o.pos]⟩

/-- `out[pos] = '\0';` -/
def Out.close (o : Out) : Out := ⟨Function.update o.buf o.pos 0, o.pos, o.stored ++ [o.pos]⟩

/-- The `switch`: the characters that have a case, with what is behind their backslash, and the least value
of the others that is kept. -/
structure Switch where
  cases : List (UInt8 × UInt8)
  least : ℤ

/-- The body of the loop. -/
def Switch.put (sw : Switch) (sign : CharSign) (o : Out) (c : UInt8) : Out :=
  match sw.cases.lookup c with
  | some e => (o.put 0x5C).put e
  | none => if sw.least ≤ sign.value c then o.put c else o

/-- The loop, with `limit = maxlen - 6`. -/
def Switch.loop (sw : Switch) (sign : CharSign) (limit : ℤ) (o : Out) : List UInt8 → Out
  | [] => o
  | c :: text => if o.pos < limit then sw.loop sign limit (sw.put sign o c) text else o

/-- `json_escape`, on what is in the buffer. -/
def jsonEscape (sign : CharSign) (buf : ℕ → UInt8) (maxlen : ℤ) (text : List UInt8) : Out :=
  let sw : Switch := ⟨[(0x22, 0x22), (0x5C, 0x5C), (0x0A, 0x6E), (0x0D, 0x72), (0x09, 0x74)], 0x20⟩
  (sw.loop sign (maxlen - 6) ⟨buf, 0, []⟩ text).close

/-- `json_escape_str`, on what is in the buffer. -/
def jsonEscapeStr (sign : CharSign) (buf : ℕ → UInt8) (maxlen : ℤ) (text : List UInt8) : Out :=
  let sw : Switch := ⟨[(0x22, 0x22), (0x5C, 0x5C), (0x0A, 0x6E), (0x0D, 0x72), (0x09, 0x74)], 0x20⟩
  (sw.loop sign (maxlen - 6) ⟨buf, 0, []⟩ text).close

/-- The bytes that are written for a character. -/
def width (c : UInt8) : ℕ := if c = 0x22 ∨ c = 0x5C ∨ c = 0x0A ∨ c = 0x0D ∨ c = 0x09 then 2 else if 0x20 ≤ c then 1 else 0

/-- A text that is plain ASCII without quotes and backslashes, and whole escapes. -/
inductive Escaped : List UInt8 → Prop where
  | nil : Escaped []
  | plain {c : UInt8} {s : List UInt8} (hc : JsonText.IsPlain c) (hs : Escaped s) : Escaped (c :: s)
  | escape {b c : UInt8} {s : List UInt8} (hb : JsonText.shortEscape b = some c) (hs : Escaped s) :
    Escaped (0x5C :: b :: s)

end InmarsatSniffer.Escape
