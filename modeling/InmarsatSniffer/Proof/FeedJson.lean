import InmarsatSniffer.Lib.Json
import InmarsatSniffer.Spec.Web

/-!
# When the lines of the feed and the web page are JSON

Both put strings of a message between quotes, some through `json_escape` and some as they
are.

* `string_escaped`: what `json_escape` writes stands for what it kept.
* `fmtSigned_text`, `fmtFixed_text`, `fmtHex_plain`: what `printf` makes of numbers.
* `aeroLine_eq`, `aircraftText_eq`: the lines are objects of such members.
* `lines_json`: **a line is JSON that says what the message says exactly when the strings
  that go in as they are need no escapes**; `quotedReg_cut`: a registration with a quote.
-/

namespace InmarsatSniffer.Feed

open Stdc (ascii fmtInt fmtPad)
open JsonText
open Web

/-! ## Numbers -/

theorem ofNat_digitChar {d : ℕ} (h : d < 10) : isDigit (UInt8.ofNat (Nat.digitChar d).toNat) = true := by
  interval_cases d <;> decide

/-- The digits of a number that is not zero start with another digit. -/
theorem fmtInt_pos {n : ℕ} (hn : 0 < n) :
    ∃ d ds, fmtInt n = d :: ds ∧ d ≠ 0x30 ∧ isDigit d = true ∧ ∀ b ∈ ds, isDigit b = true := by
  induction n using Nat.strong_induction_on with
  | _ n ih =>
    unfold fmtInt
    rw [Nat.toDigits_eq_if (by decide)]
    split
    · rename_i hlt
      refine ⟨_, [], rfl, ?_, ofNat_digitChar hlt, fun b hb => absurd hb List.not_mem_nil⟩
      interval_cases n <;> decide
    · obtain ⟨d, ds, hds, hd, hdigit, hall⟩ := ih (n / 10) (by omega) (by omega)
      have hlast := ofNat_digitChar (Nat.mod_lt n (by decide : 0 < 10))
      unfold fmtInt at hds
      rw [List.map_append, List.map_singleton, hds]
      refine ⟨d, ds ++ [_], rfl, hd, hdigit, ?_⟩
      simpa [or_imp, forall_and, hlast] using hall

theorem isInt_fmtInt (n : ℕ) : IsInt (fmtInt n) := by
  rcases Nat.eq_zero_or_pos n with rfl | hn
  · exact Or.inl rfl
  · exact Or.inr (fmtInt_pos hn)

theorem fmtInt_digits (n : ℕ) : ∀ b ∈ fmtInt n, isDigit b = true := by
  rcases isInt_fmtInt n with h | ⟨d, ds, h, -, hd, hds⟩
  · rw [h]
    exact List.forall_mem_singleton.2 (by decide)
  · rw [h]
    exact List.forall_mem_cons.2 ⟨hd, hds⟩

theorem fmtPad_digits (w n : ℕ) : ∀ b ∈ fmtPad w n, isDigit b = true := by
  refine List.forall_mem_append.2 ⟨fun b hb => ?_, fmtInt_digits n⟩
  rw [List.eq_of_mem_replicate hb]
  decide

theorem fmtPad_ne_nil (w n : ℕ) : fmtPad w n ≠ [] := by
  rcases isInt_fmtInt n with h | ⟨d, ds, h, -⟩ <;> rw [fmtPad, h] <;> simp

theorem fmtSigned_text (i : ℤ) : Text (fmtSigned i) (.num (fmtSigned i)) := by
  refine text_num ?_
  unfold fmtSigned
  split
  · exact isNumber_int (show IsSign [0x2D] from Or.inr rfl) (isInt_fmtInt _)
  · exact isNumber_int (show IsSign [] from Or.inl rfl) (isInt_fmtInt _)

theorem fmtInt_text (n : ℕ) : Text (fmtInt n) (.num (fmtInt n)) :=
  text_num (isNumber_int (show IsSign [] from Or.inl rfl) (isInt_fmtInt n))

theorem fmtFixed_text (n : ℕ) (x : ℚ) : Text (fmtFixed n x) (.num (fmtFixed n x)) := by
  have hsign : IsSign (if x < 0 then [0x2D] else []) := by
    split
    · exact Or.inr rfl
    · exact Or.inl rfl
  refine text_num ?_
  unfold fmtFixed
  rw [List.append_assoc]
  exact isNumber_fixed hsign (isInt_fmtInt _) (fmtPad_ne_nil _ _) (fmtPad_digits _ _)

theorem fmtSignedPad_plain (w : ℕ) (i : ℤ) : ∀ b ∈ fmtSignedPad w i, IsPlain b := by
  unfold fmtSignedPad
  split
  · exact List.forall_mem_cons.2 ⟨by decide, fun b hb => isPlain_of_digit (fmtPad_digits _ _ b hb)⟩
  · exact fun b hb => isPlain_of_digit (fmtPad_digits _ _ b hb)

/-- The digits of `%X`. -/
theorem fmtHex_plain (w n : ℕ) : ∀ b ∈ fmtHex w n, IsPlain b := by
  have hdigit : ∀ d < 16, IsPlain (UInt8.ofNat (Nat.digitChar d).toUpper.toNat) := by
    intro d hd
    interval_cases d <;> decide
  have hall : ∀ n, ∀ c ∈ Nat.toDigits 16 n, IsPlain (UInt8.ofNat c.toUpper.toNat) := by
    intro n
    induction n using Nat.strong_induction_on with
    | _ n ih =>
      rw [Nat.toDigits_eq_if (by decide)]
      split
      · rename_i hlt
        exact List.forall_mem_singleton.2 (hdigit n hlt)
      · exact List.forall_mem_append.2 ⟨ih (n / 16) (by omega),
          List.forall_mem_singleton.2 (hdigit _ (Nat.mod_lt n (by decide)))⟩
  refine List.forall_mem_append.2 ⟨fun b hb => ?_, fun b hb => ?_⟩
  · rw [List.eq_of_mem_replicate hb]
    decide
  · obtain ⟨c, hc, rfl⟩ := List.mem_map.1 hb
    exact hall n c hc

/-! ## Escapes -/

/-- The bytes that `json_escape` keeps: printable ASCII, and LF, CR and TAB. -/
def kept (text : List UInt8) : List UInt8 :=
  text.filter fun c => 0x20 ≤ c && c < 0x80 || c == 0x0A || c == 0x0D || c == 0x09

theorem kept_append (text text' : List UInt8) : kept (text ++ text') = kept text ++ kept text' :=
  List.filter_append _ _

/-- What is written for a byte stands for it, if it was kept. -/
theorem string_escapeByte (c : UInt8) (s : List UInt8) :
    string .plain (escapeByte c ++ s) = (string .plain s).map fun r => (kept [c] ++ r.1, r.2) := by
  by_cases hq : c = 0x22
  · subst hq
    exact string_escape rfl s
  by_cases hb : c = 0x5C
  · subst hb
    exact string_escape rfl s
  by_cases hlf : c = 0x0A
  · subst hlf
    exact string_escape rfl s
  by_cases hcr : c = 0x0D
  · subst hcr
    exact string_escape rfl s
  by_cases htab : c = 0x09
  · subst htab
    exact string_escape rfl s
  by_cases hasc : 0x20 ≤ c ∧ c < 0x80
  · simp [escapeByte, kept, hq, hb, hlf, hcr, htab, hasc, string, strAct, UInt8.not_lt.2 hasc.1]
  · simp [escapeByte, kept, hq, hb, hlf, hcr, htab, hasc]

/-- **What is written stands for what was kept.** -/
theorem string_escaped (text rest : List UInt8) :
    string .plain (text.flatMap escapeByte ++ 0x22 :: rest) = some (kept text, rest) := by
  induction text with
  | nil => rfl
  | cons c text ih =>
    rw [List.flatMap_cons, List.append_assoc, string_escapeByte, ih, Option.map_some, ← kept_append]
    rfl

/-- The loop writes the front of a text, and all that is kept of it if there is room. -/
theorem escapeLoop_eq (limit : ℕ) (out text : List UInt8) :
    ∃ p, p <+: text ∧ escapeLoop limit out text = out ++ p.flatMap escapeByte ∧
      (out.length + (text.flatMap escapeByte).length ≤ limit → kept p = kept text) := by
  induction text generalizing out with
  | nil => exact ⟨[], List.prefix_rfl, (List.append_nil out).symm, fun _ => rfl⟩
  | cons c text ih =>
    rw [escapeLoop]
    split
    · obtain ⟨p, hp, heq, hfit⟩ := ih (out ++ escapeByte c)
      refine ⟨c :: p, (List.prefix_cons_inj c).2 hp, ?_, fun hlen => ?_⟩
      · rw [heq, List.flatMap_cons, List.append_assoc]
      · rw [List.flatMap_cons, List.length_append] at hlen
        have hkept := hfit (by rw [List.length_append]; omega)
        rw [← List.singleton_append, kept_append, hkept, ← kept_append]
        rfl
    · refine ⟨[], List.nil_prefix, (List.append_nil out).symm, fun hlen => ?_⟩
      -- no room is left, so nothing that is kept is left
      have hnil : (c :: text).flatMap escapeByte = [] := List.eq_nil_of_length_eq_zero (by omega)
      have hesc := string_escaped (c :: text) []
      rw [hnil] at hesc
      injection hesc with hesc
      exact (Prod.mk.inj hesc).1

/-- **The text of a member that went through `json_escape`.** -/
theorem escaped_text (limit : ℕ) (text : List UInt8) :
    ∃ s, Text (0x22 :: escapeLoop limit [] text ++ [0x22]) (.str s) ∧ s <+: kept text ∧
      ((text.flatMap escapeByte).length ≤ limit → s = kept text) := by
  obtain ⟨p, ⟨q, rfl⟩, heq, hfit⟩ := escapeLoop_eq limit [] text
  refine ⟨kept p, text_str ?_, ?_, fun hlen => hfit (by simpa using hlen)⟩
  · rw [heq]
    exact string_escaped p []
  · rw [kept_append]
    exact List.prefix_append _ _

/-! ## The line of an Aero message -/

/-- A member with a text. -/
def textField (key : String) (t : List UInt8) (j : Json) : Field := ⟨ascii key, .inl (t, j)⟩

/-- A member with bytes between quotes, as they are. -/
def bytesField (key : String) (f e : List UInt8) : Field := ⟨ascii key, .inr (f, e)⟩

/-- A member with clean bytes between quotes. -/
def strField (key : String) (f : List UInt8) : Field := textField key (0x22 :: f ++ [0x22]) (.str f)

/-- The members of `acars`. -/
def acarsFields (msg : AeroMessage) (text : List UInt8) (arinc : Json) : List Field :=
  [bytesField "mode" (orElse msg.mode 0x20) [], bytesField "ack" (orElse msg.ack 0x20) [],
    bytesField "blk_id" (orElse msg.blockId 0x20) [], bytesField "label" (msg.label.1.take 2) (msg.label.1.drop 2),
    bytesField "reg" (stripDot msg.reg.1) []] ++
  (if msg.flight.1 = [] then [] else [bytesField "flight" msg.flight.1 []]) ++
  [textField "msg_text" (0x22 :: jsonEscape escapedSize msg.text ++ [0x22]) (.str text)] ++
  (match msg.arinc622Json with
  | some t => [textField "arinc622" t arinc]
  | none => [])

/-- The members of `src` and `dst`. -/
def stationFields (addr : List UInt8) (aircraft : Bool) : List Field :=
  [strField "addr" addr, strField "type" (stationType aircraft)]

/-- A member with an object. -/
def objField (key : String) (fields : List Field) : Field := textField key (objText fields) (objJson fields)

/-- The members of `isu`. -/
def isuFields (msg : AeroMessage) (text : List UInt8) (arinc : Json) : List Field :=
  [objField "acars" (acarsFields msg text arinc), strField "refno" (fmtHex 2 msg.refno.toNat),
    strField "qno" (fmtHex 2 msg.qno.toNat),
    objField "src" (stationFields (if msg.downlink then aesHex msg else gesHex msg) msg.downlink),
    objField "dst" (stationFields (if msg.downlink then gesHex msg else aesHex msg) (!msg.downlink))]

/-- The members of `app`. -/
def appFields (channelId : ℤ) : List Field :=
  [strField "name" (ascii "JAERO"), strField "ver" (ascii "inmarsat-sniffer VFO" ++ fmtSignedPad 2 channelId)]

/-- The members of the line. -/
def lineFields (stationId : List UInt8) (msg : AeroMessage) (clock : Clock) (text : List UInt8) (arinc : Json) :
    List Field :=
  [objField "app" (appFields msg.channelId), objField "isu" (isuFields msg text arinc),
    objField "t" [textField "sec" (fmtSigned clock.sec) (.num (fmtSigned clock.sec)),
      textField "usec" (fmtInt (clock.nsec / 1000)) (.num (fmtInt (clock.nsec / 1000)))]] ++
  (if stationId = [] then [] else [strField "station" stationId])

/-- `acars` is an object. -/
theorem acarsFields_text (msg : AeroMessage) (text : List UInt8) (arinc : Json) :
    objText (acarsFields msg text arinc) =
      ascii "\x7b\"mode\":\"" ++ orElse msg.mode 0x20 ++ ascii "\",\"ack\":\"" ++ orElse msg.ack 0x20 ++
      ascii "\",\"blk_id\":\"" ++ orElse msg.blockId 0x20 ++ ascii "\",\"label\":\"" ++ msg.label.1.take 2 ++
      ascii "\",\"reg\":\"" ++ stripDot msg.reg.1 ++ ascii "\"" ++
      (if msg.flight.1 = [] then [] else ascii ",\"flight\":\"" ++ msg.flight.1 ++ ascii "\"") ++
      ascii ",\"msg_text\":\"" ++ jsonEscape escapedSize msg.text ++ ascii "\"" ++
      (match msg.arinc622Json with
      | some arinc => ascii ",\"arinc622\":" ++ arinc
      | none => []) ++ ascii "\x7d" := by
  unfold acarsFields
  by_cases hflight : msg.flight.1 = [] <;> cases msg.arinc622Json <;>
    simp only [hflight, if_true, if_false, List.cons_append, List.nil_append, List.append_nil, objText_cons,
      List.flatMap_cons, List.flatMap_nil, Field.member, Field.text, bytesField, textField, List.append_assoc] <;> rfl

set_option maxRecDepth 4000 in
/-- The line is an object. -/
theorem aeroLine_eq (stationId : List UInt8) (msg : AeroMessage) (clock : Clock) (text : List UInt8) (arinc : Json) :
    aeroLine stationId msg clock = objText (lineFields stationId msg clock text arinc) := by
  unfold aeroLine lineFields appFields isuFields
  by_cases hstation : stationId = [] <;>
    simp only [hstation, if_true, if_false, List.cons_append, List.nil_append, List.append_nil, objText_cons,
      acarsFields_text, List.flatMap_cons, List.flatMap_nil, Field.member, Field.text, objField, strField, textField,
      stationFields, List.append_assoc] <;> rfl

/-! ## The line of an aircraft -/

/-- The elements of a fix. -/
def fixItems (fix : Fix) : List (List UInt8 × Json) :=
  [fmtFixed 6 fix.lat, fmtFixed 6 fix.lon, fmtSigned fix.alt, fmtFixed 3 fix.t].map fun t => (t, .num t)

/-- A fix is an array. -/
theorem fixText_text (fix : Fix) : Text (fixText fix) (.arr ((fixItems fix).map Prod.snd)) := by
  have hitems : ∀ i ∈ fixItems fix, Text i.1 i.2 := by
    simp only [fixItems, List.map_cons, List.map_nil, List.forall_mem_cons, List.not_mem_nil, false_imp_iff,
      implies_true, and_true]
    exact ⟨fmtFixed_text _ _, fmtFixed_text _ _, fmtSigned_text _, fmtFixed_text _ _⟩
  have heq : fixText fix = 0x5B :: joinTexts ((fixItems fix).map Prod.fst) ++ [0x5D] := by
    simp only [fixText, fixItems, List.map_cons, List.map_nil, joinTexts, List.append_assoc, List.cons_append]
    rfl
  rw [heq]
  exact text_arr hitems

theorem fixesText_eq (fixes : List Fix) : fixesText fixes = joinTexts (fixes.map fixText) := by
  induction fixes with
  | nil => rfl
  | cons fix fixes ih =>
    cases fixes with
    | nil => rfl
    | cons fix' fixes =>
      rw [fixesText, ih, List.append_assoc]
      · rfl
      · exact List.cons_ne_nil _ _

/-- The value of the fixes. -/
def fixesJson (fixes : List Fix) : Json := .arr (fixes.map fun fix => .arr ((fixItems fix).map Prod.snd))

theorem fixesText_text (fixes : List Fix) : Text (ascii "[" ++ fixesText fixes ++ ascii "]") (fixesJson fixes) := by
  have hitems : ∀ i ∈ fixes.map (fun fix => (fixText fix, Json.arr ((fixItems fix).map Prod.snd))), Text i.1 i.2 := by
    intro i hi
    obtain ⟨fix, -, rfl⟩ := List.mem_map.1 hi
    exact fixText_text fix
  have harr := text_arr hitems
  rw [List.map_map, List.map_map] at harr
  rw [fixesText_eq]
  exact harr

/-- The members of an aircraft. -/
def aircraftFields (ac : AircraftEntry) (text : List UInt8) : List Field :=
  [bytesField "reg" ac.reg.1 [], bytesField "flight" ac.flight.1 [], bytesField "label" ac.label.1 [],
    textField "last_seen" (fmtFixed 3 ac.lastSeen) (.num (fmtFixed 3 ac.lastSeen)),
    textField "ch" (fmtSigned ac.channelId) (.num (fmtSigned ac.channelId)),
    textField "text" (0x22 :: jsonEscapeStr escapedTextSize ac.lastText.1 ++ [0x22]) (.str text),
    textField "fixes" (ascii "[" ++ fixesText ac.fixes ++ ascii "]") (fixesJson ac.fixes)]

/-- An aircraft is an object. -/
theorem aircraftText_eq (ac : AircraftEntry) (text : List UInt8) :
    aircraftText ac = objText (aircraftFields ac text) := by
  simp only [aircraftText, aircraftFields, objText_cons, List.flatMap_cons, List.flatMap_nil, Field.member,
    Field.text, bytesField, textField, List.append_assoc, List.cons_append, List.nil_append, List.append_nil]
  rfl

/-! ## What a reader gets -/

/-- The strings that go into the line as they are need no escapes, and the label is whole. -/
structure NeedsNoEscape (msg : AeroMessage) : Prop where
  mode : Clean (orElse msg.mode 0x20)
  ack : Clean (orElse msg.ack 0x20)
  blockId : Clean (orElse msg.blockId 0x20)
  label : Clean (msg.label.1.take 2)
  label_le : msg.label.1.length ≤ 2
  reg : Clean (stripDot msg.reg.1)
  flight : Clean msg.flight.1

/-- A member is what was kept of a text, or the front of it if there is no room. -/
def SaysText (j : Json) (key : String) (limit : ℕ) (text : List UInt8) : Prop :=
  ∃ s, get j (ascii key) = some (.str s) ∧ s <+: kept text ∧ ((text.flatMap escapeByte).length ≤ limit → s = kept text)

/-- `acars` says what the message says. -/
structure AcarsSays (msg : AeroMessage) (acars : Json) : Prop where
  mode : get acars (ascii "mode") = some (.str (orElse msg.mode 0x20))
  ack : get acars (ascii "ack") = some (.str (orElse msg.ack 0x20))
  blockId : get acars (ascii "blk_id") = some (.str (orElse msg.blockId 0x20))
  label : get acars (ascii "label") = some (.str msg.label.1)
  reg : get acars (ascii "reg") = some (.str (stripDot msg.reg.1))
  flight : msg.flight.1 ≠ [] → get acars (ascii "flight") = some (.str msg.flight.1)
  text : SaysText acars "msg_text" (escapedSize - 6) msg.text

/-- The line is a JSON object that says what the message says. -/
def LineSays (stationId : List UInt8) (msg : AeroMessage) (clock : Clock) : Prop :=
  ∃ line isu acars, Parses .value (aeroLine stationId msg clock) (.obj line) [] ∧
    get (.obj line) (ascii "isu") = some isu ∧ get isu (ascii "acars") = some acars ∧ AcarsSays msg acars

/-- What the web page gets for an aircraft is a JSON object that says what the entry says. -/
def EntrySays (ac : AircraftEntry) : Prop :=
  ∃ entry, Parses .value (aircraftText ac) (.obj entry) [] ∧
    get (.obj entry) (ascii "reg") = some (.str ac.reg.1) ∧
    get (.obj entry) (ascii "flight") = some (.str ac.flight.1) ∧
    get (.obj entry) (ascii "label") = some (.str ac.label.1) ∧
    SaysText (.obj entry) "text" (escapedTextSize - 6) ac.lastText.1

variable {key : String} {f e t rest : List UInt8} {j arinc : Json} {msg : AeroMessage} {ac : AircraftEntry}

theorem bytesField_get (h : get j (ascii key) = some (.str (f ++ e))) :
    ∀ f' e', (bytesField key f e).content = .inr (f', e') →
      get j (bytesField key f e).key = some (.str (f' ++ e')) := by
  rintro f' e' ⟨⟩
  exact h

theorem textField_get : ∀ f' e', (textField key t arinc).content = .inr (f', e') →
    get j (textField key t arinc).key = some (.str (f' ++ e')) := by
  rintro f' e' ⟨⟩

/-- The keys of `acars` are different. -/
theorem acarsFields_keys (msg : AeroMessage) (text : List UInt8) (arinc : Json) :
    ((acarsFields msg text arinc).map Field.key).Nodup := by
  unfold acarsFields
  by_cases hflight : msg.flight.1 = [] <;> cases msg.arinc622Json <;>
    simp only [hflight, if_true, if_false, List.map_append, List.map_cons, List.map_nil, bytesField, textField] <;>
    decide

theorem bytesField_ok (h : Clean (ascii key)) : (bytesField key f e).Ok := ⟨h, trivial⟩

theorem textField_ok (h : Clean (ascii key)) (ht : Text t j) : (textField key t j).Ok := ⟨h, ht⟩

theorem bytesField_faithful : (bytesField key f e).Faithful ↔ Clean f ∧ e = [] := Iff.rfl

theorem textField_faithful : (textField key t j).Faithful ↔ True := Iff.rfl

theorem acarsFields_ok {text : List UInt8} (htext : Text (0x22 :: jsonEscape escapedSize msg.text ++ [0x22]) (.str text))
    (harinc : ∀ t ∈ msg.arinc622Json, Text t arinc) : ∀ fd ∈ acarsFields msg text arinc, fd.Ok := by
  unfold acarsFields
  simp only [List.forall_mem_append, List.forall_mem_cons, List.not_mem_nil, false_imp_iff, implies_true, and_true]
  refine ⟨⟨⟨⟨bytesField_ok (by decide), bytesField_ok (by decide), bytesField_ok (by decide),
    bytesField_ok (by decide), bytesField_ok (by decide)⟩, ?_⟩, textField_ok (by decide) htext⟩, ?_⟩
  · split
    · exact fun fd hfd => absurd hfd List.not_mem_nil
    · exact List.forall_mem_singleton.2 (bytesField_ok (by decide))
  · split
    · rename_i t ht
      exact List.forall_mem_singleton.2 (textField_ok (by decide) (harinc t ht))
    · exact fun fd hfd => absurd hfd List.not_mem_nil

/-- **The bytes in `acars` stand for what is meant** exactly if they need no escapes. -/
theorem acarsFields_faithful {text : List UInt8} :
    (∀ fd ∈ acarsFields msg text arinc, fd.Faithful) ↔ NeedsNoEscape msg := by
  have hflight : (∀ fd ∈ if msg.flight.1 = [] then [] else [bytesField "flight" msg.flight.1 []], fd.Faithful) ↔
      Clean msg.flight.1 := by
    split
    · rename_i hnil
      rw [hnil]
      exact iff_of_true (fun fd hfd => absurd hfd List.not_mem_nil) rfl
    · rw [List.forall_mem_singleton, bytesField_faithful]
      exact and_iff_left rfl
  have harinc : (∀ fd ∈ (match msg.arinc622Json with
      | some t => [textField "arinc622" t arinc]
      | none => []), fd.Faithful) ↔ True := by
    split
    · exact List.forall_mem_singleton
    · exact iff_of_true (fun fd hfd => absurd hfd List.not_mem_nil) trivial
  unfold acarsFields
  rw [List.forall_mem_append, List.forall_mem_append, List.forall_mem_append, hflight, harinc]
  simp only [List.forall_mem_cons, bytesField_faithful, textField_faithful, List.not_mem_nil, false_imp_iff,
    implies_true, and_true, List.drop_eq_nil_iff]
  constructor
  · rintro ⟨⟨hmode, hack, hblock, ⟨hlabel, hle⟩, hreg⟩, hflight⟩
    exact ⟨hmode, hack, hblock, hlabel, hle, hreg, hflight⟩
  · rintro ⟨hmode, hack, hblock, hlabel, hle, hreg, hflight⟩
    exact ⟨⟨hmode, hack, hblock, ⟨hlabel, hle⟩, hreg⟩, hflight⟩

/-- What `acars` says comes from its members. -/
theorem acarsSays_get {acars : Json} {text : List UInt8} (h : AcarsSays msg acars) :
    ∀ fd ∈ acarsFields msg text arinc, ∀ f e, fd.content = .inr (f, e) → get acars fd.key = some (.str (f ++ e)) := by
  unfold acarsFields
  simp only [List.forall_mem_append, List.forall_mem_cons, List.not_mem_nil, false_imp_iff, implies_true, and_true]
  refine ⟨⟨⟨⟨bytesField_get ?_, bytesField_get ?_, bytesField_get ?_, bytesField_get ?_, bytesField_get ?_⟩, ?_⟩,
    textField_get⟩, ?_⟩
  · rw [List.append_nil]
    exact h.mode
  · rw [List.append_nil]
    exact h.ack
  · rw [List.append_nil]
    exact h.blockId
  · rw [List.take_append_drop]
    exact h.label
  · rw [List.append_nil]
    exact h.reg
  · split
    · exact fun fd hfd => absurd hfd List.not_mem_nil
    · rename_i hne
      refine List.forall_mem_singleton.2 (bytesField_get ?_)
      rw [List.append_nil]
      exact h.flight hne
  · split
    · exact List.forall_mem_singleton.2 textField_get
    · exact fun fd hfd => absurd hfd List.not_mem_nil

/-- The value of the members says what the message says. -/
theorem acarsSays_fields {text : List UInt8} (hpre : text <+: kept msg.text)
    (hfit : (msg.text.flatMap escapeByte).length ≤ escapedSize - 6 → text = kept msg.text) :
    AcarsSays msg (objJson (acarsFields msg text arinc)) := by
  have hget : ∀ key f e, bytesField key f e ∈ acarsFields msg text arinc →
      get (objJson (acarsFields msg text arinc)) (ascii key) = some (.str (f ++ e)) :=
    fun key f e hfd => get_field (acarsFields_keys msg text arinc) hfd
  refine ⟨?_, ?_, ?_, ?_, ?_, fun hne => ?_, text, ?_, hpre, hfit⟩
  · rw [hget "mode" (orElse msg.mode 0x20) [] (by simp [acarsFields]), List.append_nil]
  · rw [hget "ack" (orElse msg.ack 0x20) [] (by simp [acarsFields]), List.append_nil]
  · rw [hget "blk_id" (orElse msg.blockId 0x20) [] (by simp [acarsFields]), List.append_nil]
  · rw [hget "label" (msg.label.1.take 2) (msg.label.1.drop 2) (by simp [acarsFields]), List.take_append_drop]
  · rw [hget "reg" (stripDot msg.reg.1) [] (by simp [acarsFields]), List.append_nil]
  · rw [hget "flight" msg.flight.1 [] (by simp [acarsFields, hne]), List.append_nil]
  · have htext : textField "msg_text" (0x22 :: jsonEscape escapedSize msg.text ++ [0x22]) (.str text) ∈
        acarsFields msg text arinc := by simp [acarsFields]
    exact get_field (acarsFields_keys msg text arinc) htext

theorem strField_faithful (hkey : Clean (ascii key)) (hf : Clean f) :
    (strField key f).Ok ∧ (strField key f).Faithful := ⟨textField_ok hkey (text_clean hf), trivial⟩

theorem objField_faithful {fields : List Field} (hkey : Clean (ascii key)) (hne : fields ≠ [])
    (h : ∀ fd ∈ fields, fd.Ok ∧ fd.Faithful) : (objField key fields).Ok ∧ (objField key fields).Faithful :=
  ⟨textField_ok hkey (text_obj hne h), trivial⟩

theorem appFields_ok (channelId : ℤ) : ∀ fd ∈ appFields channelId, fd.Ok ∧ fd.Faithful := by
  unfold appFields
  simp only [List.forall_mem_cons, List.not_mem_nil, false_imp_iff, implies_true, and_true]
  refine ⟨strField_faithful (by decide) (by decide), strField_faithful (by decide) (clean_of_plain ?_)⟩
  exact List.forall_mem_append.2 ⟨by decide +kernel, fmtSignedPad_plain 2 channelId⟩

theorem stationFields_ok {addr : List UInt8} (h : Clean addr) (aircraft : Bool) :
    ∀ fd ∈ stationFields addr aircraft, fd.Ok ∧ fd.Faithful := by
  unfold stationFields
  simp only [List.forall_mem_cons, List.not_mem_nil, false_imp_iff, implies_true, and_true]
  refine ⟨strField_faithful (by decide) h, strField_faithful (by decide) ?_⟩
  cases aircraft <;> decide

theorem address_clean (msg : AeroMessage) : Clean (aesHex msg) ∧ Clean (gesHex msg) :=
  ⟨clean_of_plain (fmtHex_plain _ _), clean_of_plain (fmtHex_plain _ _)⟩

/-- All members of the line but those of `acars` are always what they should be. -/
theorem lineFields_ok {stationId text : List UInt8} (clock : Clock) (hstation : Clean stationId)
    (h : ∀ fd ∈ acarsFields msg text arinc, fd.Ok ∧ fd.Faithful) :
    ∀ fd ∈ lineFields stationId msg clock text arinc, fd.Ok ∧ fd.Faithful := by
  have hne : acarsFields msg text arinc ≠ [] := by simp [acarsFields]
  obtain ⟨haes, hges⟩ := address_clean msg
  have hisu : ∀ fd ∈ isuFields msg text arinc, fd.Ok ∧ fd.Faithful := by
    unfold isuFields
    simp only [List.forall_mem_cons, List.not_mem_nil, false_imp_iff, implies_true, and_true]
    refine ⟨objField_faithful (by decide) hne h,
      strField_faithful (by decide) (clean_of_plain (fmtHex_plain _ _)),
      strField_faithful (by decide) (clean_of_plain (fmtHex_plain _ _)),
      objField_faithful (by decide) (List.cons_ne_nil _ _) (stationFields_ok ?_ _),
      objField_faithful (by decide) (List.cons_ne_nil _ _) (stationFields_ok ?_ _)⟩
    · split <;> assumption
    · split <;> assumption
  unfold lineFields
  rw [List.forall_mem_append]
  simp only [List.forall_mem_cons, List.not_mem_nil, false_imp_iff, implies_true, and_true]
  refine ⟨⟨objField_faithful (by decide) (List.cons_ne_nil _ _) (appFields_ok msg.channelId),
    objField_faithful (by decide) (List.cons_ne_nil _ _) hisu,
    objField_faithful (by decide) (List.cons_ne_nil _ _) ?_⟩, ?_⟩
  · simp only [List.forall_mem_cons, List.not_mem_nil, false_imp_iff, implies_true, and_true]
    exact ⟨⟨textField_ok (by decide) (fmtSigned_text _), trivial⟩, textField_ok (by decide) (fmtInt_text _), trivial⟩
  · split
    · exact fun fd hfd => absurd hfd List.not_mem_nil
    · exact List.forall_mem_singleton.2 (strField_faithful (by decide) hstation)

/-- **A line that says what its message says** had nothing to escape in it. -/
theorem lineSays_iff {stationId : List UInt8} (clock : Clock) (hstation : Clean stationId)
    (harinc : ∀ t ∈ msg.arinc622Json, ∃ j, Text t j) : LineSays stationId msg clock ↔ NeedsNoEscape msg := by
  obtain ⟨text, htext, hpre, hfit⟩ := escaped_text (escapedSize - 6) msg.text
  obtain ⟨arinc, harinc⟩ : ∃ arinc, ∀ t ∈ msg.arinc622Json, Text t arinc := by
    cases hmsg : msg.arinc622Json with
    | none => exact ⟨.null, fun t ht => by cases ht⟩
    | some t =>
      obtain ⟨j, hj⟩ := harinc t hmsg
      refine ⟨j, ?_⟩
      rintro t' ⟨⟩
      exact hj
  have hok : ∀ fd ∈ acarsFields msg text arinc, fd.Ok := acarsFields_ok htext harinc
  constructor
  · rintro ⟨line, isu, acars, hp, hisu, hacars, hsays⟩
    -- behind `app`, which always ends where it should, the value of `isu` starts
    rw [aeroLine_eq _ _ _ text arinc, ← List.append_nil (objText _)] at hp
    have happ : (objField "app" (appFields msg.channelId)).Ok :=
      (objField_faithful (by decide) (List.cons_ne_nil _ _) (appFields_ok msg.channelId)).1
    obtain ⟨v, ms, hline, hms⟩ := members_rest happ (obj_members hp) textField_get
    obtain ⟨isu', rest, r', hisu', -, hp'⟩ := members_first (show Clean (ascii "isu") by decide) hms
    have hget : get (.obj line) (ascii "isu") = get (.obj ms) (ascii "isu") := by
      rw [hline]
      exact get_ne (show ascii "app" ≠ ascii "isu" by decide)
    obtain rfl : isu' = isu := Option.some.inj (hisu'.symm.trans (hget.symm.trans hisu))
    -- its first member is `acars`
    obtain ⟨acars', rest', r'', hacars', -, hp''⟩ :=
      members_first (show Clean (ascii "acars") by decide) (obj_members hp')
    obtain rfl : acars' = acars := Option.some.inj (hacars'.symm.trans hacars)
    exact acarsFields_faithful.1 (fields_faithful hok (acarsFields_keys msg text arinc) (obj_members hp'')
      (acarsSays_get hsays))
  · intro h
    have hfields := lineFields_ok clock hstation fun fd hfd => ⟨hok fd hfd, (acarsFields_faithful.2 h) fd hfd⟩
    have hp := parses_obj (by simp [lineFields]) hfields
    rw [← aeroLine_eq] at hp
    exact ⟨_, _, _, hp, rfl, rfl, acarsSays_fields hpre hfit⟩

/-- The strings of an aircraft that go to the web page as they are need no escapes. -/
structure EntryNeedsNoEscape (ac : AircraftEntry) : Prop where
  reg : Clean ac.reg.1
  flight : Clean ac.flight.1
  label : Clean ac.label.1

theorem aircraftFields_keys (ac : AircraftEntry) (text : List UInt8) :
    ((aircraftFields ac text).map Field.key).Nodup := by
  simp only [aircraftFields, List.map_cons, List.map_nil, bytesField, textField]
  decide

theorem aircraftFields_ok {text : List UInt8}
    (htext : Text (0x22 :: jsonEscapeStr escapedTextSize ac.lastText.1 ++ [0x22]) (.str text)) :
    ∀ fd ∈ aircraftFields ac text, fd.Ok := by
  unfold aircraftFields
  simp only [List.forall_mem_cons, List.not_mem_nil, false_imp_iff, implies_true, and_true]
  exact ⟨bytesField_ok (by decide), bytesField_ok (by decide), bytesField_ok (by decide),
    textField_ok (by decide) (fmtFixed_text _ _), textField_ok (by decide) (fmtSigned_text _),
    textField_ok (by decide) htext, textField_ok (by decide) (fixesText_text _)⟩

theorem aircraftFields_faithful {text : List UInt8} :
    (∀ fd ∈ aircraftFields ac text, fd.Faithful) ↔ EntryNeedsNoEscape ac := by
  unfold aircraftFields
  simp only [List.forall_mem_cons, bytesField_faithful, textField_faithful, List.not_mem_nil, false_imp_iff,
    implies_true, and_true]
  constructor
  · rintro ⟨hreg, hflight, hlabel⟩
    exact ⟨hreg, hflight, hlabel⟩
  · rintro ⟨hreg, hflight, hlabel⟩
    exact ⟨hreg, hflight, hlabel⟩

/-- **An entry that says what it should** had nothing to escape in it. -/
theorem entrySays_iff (ac : AircraftEntry) : EntrySays ac ↔ EntryNeedsNoEscape ac := by
  obtain ⟨text, htext, hpre, hfit⟩ := escaped_text (escapedTextSize - 6) ac.lastText.1
  have hok := aircraftFields_ok htext
  constructor
  · rintro ⟨entry, hp, hreg, hflight, hlabel, -⟩
    rw [aircraftText_eq ac text, ← List.append_nil (objText _)] at hp
    refine aircraftFields_faithful.1 (fields_faithful hok (aircraftFields_keys ac text) (obj_members hp) ?_)
    unfold aircraftFields
    simp only [List.forall_mem_cons, List.not_mem_nil, false_imp_iff, implies_true, and_true]
    refine ⟨bytesField_get ?_, bytesField_get ?_, bytesField_get ?_, textField_get, textField_get, textField_get,
      textField_get⟩
    · rw [List.append_nil]
      exact hreg
    · rw [List.append_nil]
      exact hflight
    · rw [List.append_nil]
      exact hlabel
  · intro h
    have hne : aircraftFields ac text ≠ [] := by simp [aircraftFields]
    have hp := parses_obj hne fun fd hfd => ⟨hok fd hfd, (aircraftFields_faithful.2 h) fd hfd⟩
    rw [← aircraftText_eq] at hp
    have hget : ∀ key f, bytesField key f [] ∈ aircraftFields ac text →
        get (objJson (aircraftFields ac text)) (ascii key) = some (.str f) := by
      intro key f hfd
      rw [← List.append_nil f]
      exact get_field (aircraftFields_keys ac text) hfd
    refine ⟨_, hp, hget "reg" _ ?_, hget "flight" _ ?_, hget "label" _ ?_, text, ?_, hpre, hfit⟩
    · simp [aircraftFields]
    · simp [aircraftFields]
    · simp [aircraftFields]
    · have hmem : textField "text" (0x22 :: jsonEscapeStr escapedTextSize ac.lastText.1 ++ [0x22]) (.str text) ∈
          aircraftFields ac text := by simp [aircraftFields]
      exact get_field (aircraftFields_keys ac text) hmem

/-- **The lines are JSON that says what the message and the entry say** exactly if the
strings that go in as they are need no escapes, and the label has no third character. -/
theorem lines_json (stationId : List UInt8) (msg : AeroMessage) (clock : Clock) (ac : AircraftEntry)
    (hstation : Clean stationId) (harinc : ∀ t ∈ msg.arinc622Json, ∃ j, Text t j) :
    (LineSays stationId msg clock ↔ NeedsNoEscape msg) ∧ (EntrySays ac ↔ EntryNeedsNoEscape ac) :=
  ⟨lineSays_iff clock hstation harinc, entrySays_iff ac⟩

/-- A message of an aircraft with a quote in its registration. -/
def quotedReg : AeroMessage where
  reg := ⟨ascii ".N1\"345", by decide⟩
  flight := ⟨ascii "LH0400", by decide⟩
  label := ⟨ascii "SA", by decide⟩
  mode := 0x32
  blockId := 0x33
  ack := 0x21
  text := ascii "POSN39W104"
  channelId := 1
  aesId := 0xA1B2C3
  gesId := 0x44
  qno := 1
  refno := 2
  downlink := true
  arinc622Json := none
  position := none
  altFt := 0

/-- The same message with a plain registration. -/
def plainReg : AeroMessage := { quotedReg with reg := ⟨ascii ".N13345", by decide⟩ }

/-- A moment. -/
def exampleClock : Clock := ⟨1767225600, 0, 0, 0, 0, 1, 0, 126⟩

/-- The line of a message with a plain registration is what it should be, and so is its
aircraft on the web page. -/
theorem plainReg_says : LineSays [] plainReg exampleClock ∧ EntrySays ((AircraftEntry.new plainReg.reg).update plainReg 0) := by
  have hiff := lines_json [] plainReg exampleClock ((AircraftEntry.new plainReg.reg).update plainReg 0) rfl
    (fun t ht => nomatch ht)
  exact ⟨hiff.1.2 (by constructor <;> decide), hiff.2.2 (by constructor <;> decide)⟩

/-- With a quote in the registration it is not. -/
theorem quotedReg_cut : ¬∀ (stationId : List UInt8) (msg : AeroMessage) (clock : Clock) (table : Aircraft) (now : ℚ),
    msg.mode ≠ 0 → msg.ack ≠ 0 → msg.blockId ≠ 0 → 0 ∉ msg.text → Clean stationId →
      (∀ t ∈ msg.arinc622Json, ∃ j, Text t j) → (aeroLine stationId msg clock).length < bufSize →
        LineSays stationId msg clock ∧ ∀ ac ∈ (webAddAero table msg now).1, EntrySays ac := by
  intro h
  have hfits : (aeroLine [] quotedReg exampleClock).length < bufSize := by decide +kernel
  have hiff : LineSays [] quotedReg exampleClock ↔ NeedsNoEscape quotedReg :=
    lineSays_iff exampleClock rfl fun t ht => nomatch ht
  have hsays := h [] quotedReg exampleClock ⟨[], by decide⟩ 0 (by decide) (by decide) (by decide) (by decide) rfl
    (fun t ht => nomatch ht) hfits
  exact absurd (hiff.1 hsays.1).reg (by decide)

/-! ## Runs -/

/-- `web_add_aero` for messages, one behind the other, each with its time. -/
def webRun (table : Aircraft) (msgs : List (AeroMessage × ℚ)) : Aircraft :=
  msgs.foldl (fun table m => webAddAero table m.1 m.2) table

/-- A message puts its own strings into the entry that it changes. -/
theorem update_clean (hreg : Clean ac.reg.1) (hflight : Clean msg.flight.1) (hlabel : Clean msg.label.1) (now : ℚ) :
    EntryNeedsNoEscape (ac.update msg now) := ⟨hreg, hflight, hlabel⟩

/-- A message without anything to escape adds nothing to escape. -/
theorem webAddAero_clean {table : Aircraft} (htable : ∀ ac ∈ table.1, EntryNeedsNoEscape ac) (hreg : Clean msg.reg.1)
    (hflight : Clean msg.flight.1) (hlabel : Clean msg.label.1) (now : ℚ) :
    ∀ ac ∈ (webAddAero table msg now).1, EntryNeedsNoEscape ac := by
  have hnew : EntryNeedsNoEscape ((AircraftEntry.new msg.reg).update msg now) := update_clean hreg hflight hlabel now
  unfold webAddAero
  split
  · intro ac hac
    obtain ⟨i, hi, rfl⟩ := List.getElem_of_mem hac
    rw [List.getElem_modify]
    have hold := htable _ (List.getElem_mem (by simpa using hi))
    split
    · exact update_clean hold.reg hflight hlabel now
    · exact hold
  · dsimp only
    split
    · exact List.forall_mem_append.2 ⟨htable, List.forall_mem_singleton.2 hnew⟩
    · intro ac hac
      rcases List.mem_or_eq_of_mem_set hac with hac | rfl
      · exact htable ac hac
      · exact hnew

/-- **The web page gets JSON** for every aircraft after messages that have nothing to escape. -/
theorem webRun_says {table : Aircraft} (htable : ∀ ac ∈ table.1, EntryNeedsNoEscape ac)
    {msgs : List (AeroMessage × ℚ)}
    (hmsgs : ∀ m ∈ msgs, Clean m.1.reg.1 ∧ Clean m.1.flight.1 ∧ Clean m.1.label.1) :
    ∀ ac ∈ (webRun table msgs).1, EntrySays ac := by
  induction msgs generalizing table with
  | nil => exact fun ac hac => (entrySays_iff ac).2 (htable ac hac)
  | cons m msgs ih =>
    obtain ⟨hreg, hflight, hlabel⟩ := hmsgs m List.mem_cons_self
    exact ih (webAddAero_clean htable hreg hflight hlabel m.2) fun m hm => hmsgs m (List.mem_cons_of_mem _ hm)

end InmarsatSniffer.Feed
