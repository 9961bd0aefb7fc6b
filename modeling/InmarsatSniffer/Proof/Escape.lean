import Mathlib
import InmarsatSniffer.Proof.FeedJson
import InmarsatSniffer.Spec.Escape

/-!
# What the escapes write

* `loop_spec`: the loop writes the bytes of the characters that it reaches, one behind the other.
* `bytesOf_signed`, `bytesOf_unsigned`: the two kinds of plain `char` differ from 0x80 on.
* `escape_iff`: **the buffer holds a JSON string for a part of the text exactly when no byte from 0x80
  on is reached**, or plain `char` is signed. `accent_kept`: an unsigned one keeps such a byte.
* `jsonEscape_signed`: with a signed `char` it is the text that the feed puts into its lines.
-/

namespace InmarsatSniffer.Escape

open JsonText

variable {sign : CharSign} {o : Out} {limit : ℤ} {c : UInt8} {buf : ℕ → UInt8} {maxlen : ℕ} {text : List UInt8}

/-! ## Stores -/

theorem put_text (o : Out) (c : UInt8) : (o.put c).text = o.text ++ [c] := by
  unfold Out.text Out.put
  dsimp only
  rw [List.range_succ, List.map_append, List.map_singleton, Function.update_self]
  congr 1
  apply List.map_congr_left
  intro i hi
  exact Function.update_of_ne (List.mem_range.1 hi).ne c o.buf

theorem text_length (o : Out) : o.text.length = o.pos := by rw [Out.text, List.length_map, List.length_range]

/-- The indices were stored to in order. -/
def Out.Filled (o : Out) : Prop := o.stored = List.range o.pos

theorem Out.Filled.put (h : o.Filled) (c : UInt8) : (o.put c).Filled := by
  unfold Out.Filled Out.put at *
  rw [h, List.range_succ]

/-! ## The loop -/

/-- The `switch` of both functions. -/
def escapes : Switch := ⟨[(0x22, 0x22), (0x5C, 0x5C), (0x0A, 0x6E), (0x0D, 0x72), (0x09, 0x74)], 0x20⟩

/-- The bytes that the loop writes for a character. -/
def bytesOf (sign : CharSign) (c : UInt8) : List UInt8 :=
  match escapes.cases.lookup c with
  | some e => [0x5C, e]
  | none => if escapes.least ≤ sign.value c then [c] else []

theorem bytesOf_length_le (sign : CharSign) (c : UInt8) : (bytesOf sign c).length ≤ 2 := by
  unfold bytesOf
  split
  · exact le_rfl
  · split <;> exact Nat.le_of_ble_eq_true rfl

theorem put_spec (sign : CharSign) (o : Out) (c : UInt8) :
    (escapes.put sign o c).text = o.text ++ bytesOf sign c ∧ (o.Filled → (escapes.put sign o c).Filled) := by
  unfold Switch.put bytesOf
  cases escapes.cases.lookup c with
  | some e =>
    refine ⟨?_, fun h => (h.put _).put _⟩
    dsimp only
    rw [put_text, put_text, List.append_assoc, List.singleton_append]
  | none =>
    dsimp only
    split
    · exact ⟨put_text o c, fun h => h.put c⟩
    · exact ⟨(List.append_nil _).symm, fun h => h⟩

/-- **The loop** writes the bytes of the characters in a front of the text. It has not got to the end only if
there is no room, and got to each of them with room left. -/
theorem loop_spec (sign : CharSign) (limit : ℤ) (o : Out) (text : List UInt8) (hfill : o.Filled) :
    ∃ pre suf, text = pre ++ suf ∧ (escapes.loop sign limit o text).text = o.text ++ pre.flatMap (bytesOf sign) ∧
      (escapes.loop sign limit o text).Filled ∧ (suf = [] ∨ limit ≤ (escapes.loop sign limit o text).pos) ∧
      ((escapes.loop sign limit o text).pos : ℤ) ≤ max (o.pos : ℤ) (limit + 1) ∧
      ∀ p c r, pre = p ++ c :: r → (o.pos + (p.flatMap (bytesOf sign)).length : ℤ) < limit := by
  induction text generalizing o with
  | nil =>
    refine ⟨[], [], rfl, (List.append_nil _).symm, hfill, Or.inl rfl, le_max_left _ _, fun p c r h => ?_⟩
    exact absurd h (by simp)
  | cons c text ih =>
    rw [Switch.loop]
    split
    · rename_i hroom
      obtain ⟨hput, hfilled⟩ := put_spec sign o c
      obtain ⟨pre, suf, heq, htext, hfin, hend, hpos, hreached⟩ := ih (escapes.put sign o c) (hfilled hfill)
      have hnext : (escapes.put sign o c).pos = o.pos + (bytesOf sign c).length := by
        rw [← text_length, hput, List.length_append, text_length]
      have hwidth := bytesOf_length_le sign c
      refine ⟨c :: pre, suf, by rw [heq]; rfl, ?_, hfin, hend, hpos.trans ?_, fun p c' r hp => ?_⟩
      · rw [htext, hput, List.flatMap_cons, List.append_assoc]
      · exact max_le (le_max_of_le_right (by omega)) (le_max_right _ _)
      · cases p with
        | nil => simpa using hroom
        | cons c'' p =>
          obtain ⟨rfl, htail⟩ := List.cons.inj hp
          have hlt := hreached p c' r htail
          rw [List.flatMap_cons, List.length_append]
          omega
    · rename_i hroom
      refine ⟨[], c :: text, rfl, (List.append_nil _).symm, hfill, Or.inr (not_lt.1 hroom), le_max_left _ _, fun p c r h => ?_⟩
      exact absurd h (by simp)

/-! ## The signedness -/

theorem lookup_cons_eq (c k e : UInt8) (cs : List (UInt8 × UInt8)) :
    ((k, e) :: cs).lookup c = if c = k then some e else cs.lookup c := by
  rw [List.lookup_cons]
  by_cases h : c = k
  · rw [if_pos h, beq_iff_eq.2 h]
  · rw [if_neg h, beq_eq_false_iff_ne.2 h]

theorem lookup_eq (c : UInt8) : escapes.cases.lookup c =
    if c = 0x22 then some 0x22 else if c = 0x5C then some 0x5C else if c = 0x0A then some 0x6E
    else if c = 0x0D then some 0x72 else if c = 0x09 then some 0x74 else none := by
  unfold escapes
  rw [lookup_cons_eq, lookup_cons_eq, lookup_cons_eq, lookup_cons_eq, lookup_cons_eq, List.lookup_nil]

theorem value_signed_iff (c : UInt8) : escapes.least ≤ CharSign.signed.value c ↔ 0x20 ≤ c ∧ c < 0x80 := by
  have hle : (0x20 : UInt8) ≤ c ↔ 32 ≤ c.toNat := Iff.rfl
  have hlt : c < 0x80 ↔ c.toNat < 128 := Iff.rfl
  have hc := c.toNat_lt
  have hval : c.toInt8.toInt = if 2 * c.toNat < 256 then (c.toNat : ℤ) else c.toNat - 256 :=
    BitVec.toInt_eq_toNat_cond c.toBitVec
  unfold escapes CharSign.value
  dsimp only
  rw [hle, hlt, hval]
  split <;> omega

theorem value_unsigned_iff (c : UInt8) : escapes.least ≤ CharSign.unsigned.value c ↔ 0x20 ≤ c := by
  have hle : (0x20 : UInt8) ≤ c ↔ 32 ≤ c.toNat := Iff.rfl
  unfold escapes CharSign.value
  dsimp only
  rw [hle]
  omega

/-- **A signed `char`** from 0x80 on is negative. -/
theorem bytesOf_signed (c : UInt8) : bytesOf .signed c = Feed.escapeByte c := by
  unfold bytesOf Feed.escapeByte
  rw [lookup_eq]
  simp only [value_signed_iff]
  split_ifs <;> rfl

/-- **An unsigned `char`** is kept from 0x20 on; below 0x80 nothing differs. -/
theorem bytesOf_unsigned (h : c < 0x80) : bytesOf .unsigned c = Feed.escapeByte c := by
  unfold bytesOf Feed.escapeByte
  rw [lookup_eq]
  simp only [value_unsigned_iff, h, and_true]
  split_ifs <;> rfl

theorem bytesOf_high (h : 0x80 ≤ c) : bytesOf .unsigned c = [c] := by
  have h20 : (0x20 : UInt8) ≤ c := UInt8.le_trans (by decide : (0x20 : UInt8) ≤ 0x80) h
  have hne : ∀ k : UInt8, k < 0x80 → c ≠ k := fun k hk heq => UInt8.not_le.2 hk (heq ▸ h)
  unfold bytesOf
  rw [lookup_eq, if_neg (hne _ (by decide)), if_neg (hne _ (by decide)), if_neg (hne _ (by decide)),
    if_neg (hne _ (by decide)), if_neg (hne _ (by decide))]
  exact if_pos ((value_unsigned_iff c).2 h20)

theorem bytesOf_width (c : UInt8) : (bytesOf .unsigned c).length = width c := by
  unfold bytesOf width
  rw [lookup_eq]
  simp only [value_unsigned_iff]
  split_ifs <;> simp_all

/-! ## Strings -/

theorem Escaped.append {s s' : List UInt8} (h : Escaped s) (h' : Escaped s') : Escaped (s ++ s') := by
  induction h with
  | nil => exact h'
  | plain hc _ ih => exact .plain hc ih
  | escape hb _ ih => exact .escape hb ih

theorem escaped_escapeByte (c : UInt8) : Escaped (Feed.escapeByte c) := by
  unfold Feed.escapeByte
  split_ifs with hq hb hlf hcr htab hasc
  · exact .escape (c := 0x22) rfl .nil
  · exact .escape (c := 0x5C) rfl .nil
  · exact .escape (c := 0x0A) rfl .nil
  · exact .escape (c := 0x0D) rfl .nil
  · exact .escape (c := 0x09) rfl .nil
  · exact .plain ⟨hasc.1, hasc.2, hq, hb⟩ .nil
  · exact .nil

theorem escaped_flatMap (pre : List UInt8) : Escaped (pre.flatMap Feed.escapeByte) := by
  induction pre with
  | nil => exact .nil
  | cons c pre ih => exact (escaped_escapeByte c).append ih

/-- An escaped text is ASCII. -/
theorem Escaped.lt {s : List UInt8} (h : Escaped s) : ∀ b ∈ s, b < 0x80 := by
  induction h with
  | nil => exact fun b hb => absurd hb List.not_mem_nil
  | plain hc _ ih => exact List.forall_mem_cons.2 ⟨hc.2.1, ih⟩
  | escape hb _ ih =>
    refine List.forall_mem_cons.2 ⟨by decide, List.forall_mem_cons.2 ⟨?_, ih⟩⟩
    unfold shortEscape at hb
    split_ifs at hb <;> subst_vars <;> decide

/-! ## The functions -/

/-- **What is asked of `json_escape` and `json_escape_str`** with a text and a buffer of `maxlen` bytes. -/
structure Sound (sign : CharSign) (buf : ℕ → UInt8) (maxlen : ℕ) (text : List UInt8) : Prop where
  /-- The stores are inside, also the one of the NUL at the end. -/
  inside : ∀ i ∈ (jsonEscape sign buf maxlen text).stored, i < maxlen
  room : (jsonEscape sign buf maxlen text).pos + 1 ≤ maxlen
  closed : (jsonEscape sign buf maxlen text).buf (jsonEscape sign buf maxlen text).pos = 0
  escaped : Escaped (jsonEscape sign buf maxlen text).text
  /-- A reader of JSON gets back a front of what is kept of the text. -/
  unescaped : ∃ s, string .plain ((jsonEscape sign buf maxlen text).text ++ [0x22]) = some (s, []) ∧ s <+: Feed.kept text
  same : jsonEscapeStr sign buf maxlen text = jsonEscape sign buf maxlen text

/-- No byte from 0x80 on is reached by an unsigned `char`: what is written before it fills the buffer. -/
def AsciiReached (sign : CharSign) (maxlen : ℕ) (text : List UInt8) : Prop :=
  sign = .signed ∨ ∀ pre c rest, text = pre ++ c :: rest → 0x80 ≤ c → maxlen ≤ 6 + (pre.map width).sum

theorem close_text (o : Out) : o.close.text = o.text := by
  unfold Out.text Out.close
  apply List.map_congr_left
  intro i hi
  exact Function.update_of_ne (List.mem_range.1 hi).ne 0 o.buf

theorem flatMap_width (p : List UInt8) : (p.flatMap (bytesOf .unsigned)).length = (p.map width).sum := by
  rw [List.length_flatMap]
  exact congrArg List.sum (List.map_congr_left fun c _ => bytesOf_width c)

/-- **What a call has written.** -/
theorem jsonEscape_spec (sign : CharSign) (buf : ℕ → UInt8) (hpos : 1 ≤ maxlen) (text : List UInt8) :
    ∃ pre suf, text = pre ++ suf ∧ (jsonEscape sign buf maxlen text).text = pre.flatMap (bytesOf sign) ∧
      (suf = [] ∨ maxlen ≤ 6 + (pre.flatMap (bytesOf sign)).length) ∧
      (∀ p c r, pre = p ++ c :: r → 6 + (p.flatMap (bytesOf sign)).length < maxlen) ∧
      (jsonEscape sign buf maxlen text).pos + 1 ≤ maxlen ∧
      (jsonEscape sign buf maxlen text).stored = List.range ((jsonEscape sign buf maxlen text).pos + 1) := by
  obtain ⟨pre, suf, heq, htext, hfill, hend, hle, hreached⟩ := loop_spec sign (maxlen - 6) ⟨buf, 0, []⟩ text rfl
  set o := escapes.loop sign (maxlen - 6) ⟨buf, 0, []⟩ text
  have hlen : o.pos = (pre.flatMap (bytesOf sign)).length := by
    rw [← text_length, htext]
    rfl
  have hmax : (o.pos : ℤ) ≤ max (0 : ℤ) ((maxlen : ℤ) - 6 + 1) := hle
  refine ⟨pre, suf, heq, (close_text o).trans htext, hend.imp_right fun h => by omega, fun p c r hp => ?_, ?_, ?_⟩
  · have hlt : (((0 : ℕ) : ℤ) + (p.flatMap (bytesOf sign)).length) < (maxlen : ℤ) - 6 := hreached p c r hp
    omega
  · change o.pos + 1 ≤ maxlen
    omega
  · change o.stored ++ [o.pos] = List.range (o.pos + 1)
    rw [hfill, List.range_succ]

/-- **The buffer holds a JSON string for a part of the text** exactly when no byte from 0x80 on is reached, or
plain `char` is signed. -/
theorem escape_iff (sign : CharSign) (buf : ℕ → UInt8) (text : List UInt8) (hpos : 1 ≤ maxlen) :
    Sound sign buf maxlen text ↔ AsciiReached sign maxlen text := by
  obtain ⟨pre, suf, heq, htext, hend, hreached, hroom, hstored⟩ := jsonEscape_spec sign buf hpos text
  constructor
  · intro hsound
    cases sign with
    | signed => exact Or.inl rfl
    | unsigned =>
      refine Or.inr fun p c rest hsplit hhigh => ?_
      by_contra hlt
      -- then the loop reaches the byte, and writes it as it is
      have hmem : c ∈ pre := by
        rw [← flatMap_width] at hlt
        rcases List.append_eq_append_iff.1 (heq.symm.trans hsplit) with ⟨mid, hp, hsuf⟩ | ⟨mid, hp, hmid⟩
        · have hfull := hend.resolve_left (by rw [hsuf]; simp)
          rw [hp, List.flatMap_append, List.length_append] at hlt
          omega
        · cases mid with
          | nil =>
            have hfull := hend.resolve_left fun hnil => by simp [hnil] at hmid
            rw [hp, List.append_nil] at hfull
            omega
          | cons c' mid =>
            rw [hp, (List.cons.inj hmid).1]
            exact List.mem_append_right p List.mem_cons_self
      have hout : c ∈ (jsonEscape .unsigned buf maxlen text).text := by
        rw [htext, List.mem_flatMap]
        exact ⟨c, hmem, by rw [bytesOf_high hhigh]; exact List.mem_singleton_self c⟩
      exact UInt8.not_le.2 (hsound.escaped.lt c hout) hhigh
  · intro hascii
    have hsame : pre.flatMap (bytesOf sign) = pre.flatMap Feed.escapeByte := by
      apply List.flatMap_congr
      intro c hc
      cases sign with
      | signed => exact bytesOf_signed c
      | unsigned =>
        apply bytesOf_unsigned
        by_contra hlow
        have hhigh : 0x80 ≤ c := UInt8.not_lt.1 hlow
        obtain ⟨p, r, rfl⟩ := List.append_of_mem hc
        have hlt := hreached p c r rfl
        rw [flatMap_width] at hlt
        have hle := (hascii.resolve_left (by decide)) p c (r ++ suf) (by rw [heq, List.append_assoc]; rfl) hhigh
        omega
    rw [hsame] at htext
    exact
      { inside := fun i hi => by
          rw [hstored, List.mem_range] at hi
          omega
        room := hroom
        closed := Function.update_self _ _ _
        escaped := by
          rw [htext]
          exact escaped_flatMap pre
        unescaped := by
          refine ⟨Feed.kept pre, ?_, ?_⟩
          · rw [htext]
            exact Feed.string_escaped pre []
          · rw [heq, Feed.kept_append]
            exact List.prefix_append _ _
        same := rfl }

/-- `é` in Latin-1 is behind what fits, so that an unsigned `char` does no harm. -/
theorem accentBehind_sound : Sound .unsigned (fun _ => 0) 8 [0x41, 0x0A, 0xE9] :=
  (escape_iff .unsigned (fun _ => 0) [0x41, 0x0A, 0xE9] (by decide)).2 <| Or.inr fun pre c rest heq hc => by
    match pre, heq with
    | [], heq => exact absurd ((List.cons.inj heq).1 ▸ hc) (by decide)
    | [_], heq => exact absurd ((List.cons.inj (List.cons.inj heq).2).1 ▸ hc) (by decide)
    | [a, b], heq =>
      obtain ⟨rfl, htail⟩ := List.cons.inj heq
      obtain ⟨rfl, -⟩ := List.cons.inj htail
      decide
    | a :: b :: d :: pre, heq => simp at heq

/-- **An unsigned `char` keeps `é`**, which is no ASCII. -/
theorem accent_kept : ¬∀ (sign : CharSign) (buf : ℕ → UInt8) (maxlen : ℕ) (text : List UInt8), 1 ≤ maxlen →
    Sound sign buf maxlen text := by
  intro h
  have hout := (h .unsigned (fun _ => 0) 16 [0xE9] (by decide)).escaped.lt 0xE9 (by decide)
  exact absurd hout (by decide)

theorem loop_text (limit : ℕ) (o : Out) (text : List UInt8) :
    (escapes.loop .signed limit o text).text = Feed.escapeLoop limit o.text text := by
  induction text generalizing o with
  | nil => rfl
  | cons c text ih =>
    rw [Switch.loop, Feed.escapeLoop, text_length]
    by_cases hroom : o.pos < limit
    · rw [if_pos (Int.ofNat_lt.2 hroom), if_pos hroom, ih, (put_spec .signed o c).1, bytesOf_signed]
    · rw [if_neg (fun h => hroom (Int.ofNat_lt.1 h)), if_neg hroom]

/-- **With a signed `char`** the buffer holds the text that the feed puts into its lines. -/
theorem jsonEscape_signed (buf : ℕ → UInt8) (hmaxlen : 6 ≤ maxlen) (text : List UInt8) :
    (jsonEscape .signed buf maxlen text).text = Feed.jsonEscape maxlen text := by
  have hlimit : (maxlen : ℤ) - 6 = ((maxlen - 6 : ℕ) : ℤ) := by omega
  refine (close_text _).trans ?_
  rw [hlimit]
  exact loop_text (maxlen - 6) ⟨buf, 0, []⟩ text

end InmarsatSniffer.Escape
