import Mathlib.Data.List.TakeWhile
import Mathlib.Tactic

/-!
# JSON texts

The grammar of JSON on bytes: `Parses kind s j r` says that `s` starts with a text of the
value `j`, behind which `r` follows. Strings are UTF-8.

* `string_clean`, `string_self`: between quotes, bytes that stand for themselves are
  exactly those of `Clean`: UTF-8 without control bytes, quotes and backslashes.
* `Parses.det`: a text has one value. `Parses.append`: more bytes behind a text do no harm.
* `Text`: the texts of a value. `text_obj`: an object of texts and of clean bytes between
  quotes is one; `fields_faithful`: if the members of an object have the bytes between
  their quotes as values, then these are clean.
-/

namespace JsonText

/-- A JSON value. A number is kept as it is written. -/
inductive Json where
  | null
  | bool (b : Bool)
  | num (token : List UInt8)
  | str (s : List UInt8)
  | arr (elements : List Json)
  | obj (members : List (List UInt8 × Json))

/-! ## Strings -/

/-- Where a string is between two of its bytes: between characters, behind a backslash, in
the digits of an escape, or inside a character of UTF-8 with some bytes owed. -/
inductive StrState where
  | plain
  | escape
  | hex (left acc : ℕ)
  | tail (left : ℕ) (min max : UInt8)
  deriving DecidableEq

/-- The state behind the first byte of a character that has more than one. -/
def leadByte (b : UInt8) : Option StrState :=
  if 0xC2 ≤ b ∧ b ≤ 0xDF then some (.tail 1 0x80 0xBF)
  else if b = 0xE0 then some (.tail 2 0xA0 0xBF)
  else if b = 0xED then some (.tail 2 0x80 0x9F)
  else if 0xE1 ≤ b ∧ b ≤ 0xEF then some (.tail 2 0x80 0xBF)
  else if b = 0xF0 then some (.tail 3 0x90 0xBF)
  else if 0xF1 ≤ b ∧ b ≤ 0xF3 then some (.tail 3 0x80 0xBF)
  else if b = 0xF4 then some (.tail 3 0x80 0x8F)
  else none

/-- The byte that a short escape stands for. -/
def shortEscape (b : UInt8) : Option UInt8 :=
  if b = 0x22 then some 0x22
  else if b = 0x5C then some 0x5C
  else if b = 0x2F then some 0x2F
  else if b = 0x62 then some 0x08
  else if b = 0x66 then some 0x0C
  else if b = 0x6E then some 0x0A
  else if b = 0x72 then some 0x0D
  else if b = 0x74 then some 0x09
  else none

/-- The value of a hexadecimal digit. -/
def hexDigit (b : UInt8) : Option ℕ :=
  if 0x30 ≤ b ∧ b ≤ 0x39 then some (b.toNat - 0x30)
  else if 0x41 ≤ b ∧ b ≤ 0x46 then some (b.toNat - 0x41 + 10)
  else if 0x61 ≤ b ∧ b ≤ 0x66 then some (b.toNat - 0x61 + 10)
  else none

/-- A code unit as the bytes of UTF-8; the halves of a pair are not put together. -/
def utf8 (u : ℕ) : List UInt8 :=
  if u < 0x80 then [UInt8.ofNat u]
  else if u < 0x800 then [UInt8.ofNat (0xC0 + u / 0x40), UInt8.ofNat (0x80 + u % 0x40)]
  else [UInt8.ofNat (0xE0 + u / 0x1000), UInt8.ofNat (0x80 + u / 0x40 % 0x40), UInt8.ofNat (0x80 + u % 0x40)]

/-- What a byte of a string does. -/
inductive StrAct where
  | close
  | bad
  | emit (out : List UInt8) (next : StrState)

/-- A byte of a string. -/
def strAct : StrState → UInt8 → StrAct
  | .plain, b =>
    if b = 0x22 then .close
    else if b = 0x5C then .emit [] .escape
    else if b < 0x20 then .bad
    else if b < 0x80 then .emit [b] .plain
    else
      match leadByte b with
      | some next => .emit [b] next
      | none => .bad
  | .escape, b =>
    match shortEscape b with
    | some c => .emit [c] .plain
    | none => if b = 0x75 then .emit [] (.hex 4 0) else .bad
  | .hex left acc, b =>
    match hexDigit b with
    | some d => if left = 1 then .emit (utf8 (acc * 16 + d)) .plain else .emit [] (.hex (left - 1) (acc * 16 + d))
    | none => .bad
  | .tail left min max, b =>
    if min ≤ b ∧ b ≤ max then .emit [b] (if left = 1 then .plain else .tail (left - 1) 0x80 0xBF) else .bad

/-- The bytes up to the closing quote, as they are meant, and what is behind it. -/
def string : StrState → List UInt8 → Option (List UInt8 × List UInt8)
  | _, [] => none
  | st, b :: s =>
    match strAct st b with
    | .close => some ([], s)
    | .bad => none
    | .emit out next => (string next s).map fun r => (out ++ r.1, r.2)

/-- Bytes that stand for themselves, from a state on. -/
def clean : StrState → List UInt8 → Bool
  | .plain, [] => true
  | .plain, b :: s =>
    b ≠ 0x22 && b ≠ 0x5C && 0x20 ≤ b &&
      if b < 0x80 then clean .plain s
      else
        match leadByte b with
        | some next => clean next s
        | none => false
  | .tail left min max, b :: s =>
    min ≤ b && b ≤ max && clean (if left = 1 then .plain else .tail (left - 1) 0x80 0xBF) s
  | _, _ => false

/-- UTF-8 without control bytes, quotes and backslashes. -/
def Clean (s : List UInt8) : Prop := clean .plain s = true

instance (s : List UInt8) : Decidable (Clean s) := inferInstanceAs (Decidable (clean .plain s = true))

/-- A printable character of ASCII that is no quote and no backslash. -/
def IsPlain (b : UInt8) : Prop := 0x20 ≤ b ∧ b < 0x80 ∧ b ≠ 0x22 ∧ b ≠ 0x5C

instance (b : UInt8) : Decidable (IsPlain b) := by
  unfold IsPlain
  infer_instance

theorem clean_of_plain {s : List UInt8} (h : ∀ b ∈ s, IsPlain b) : Clean s := by
  induction s with
  | nil => rfl
  | cons b s ih =>
    obtain ⟨h1, h2, h3, h4⟩ := h b List.mem_cons_self
    have hs : clean .plain s = true := ih fun b hb => h b (List.mem_cons_of_mem _ hb)
    simp [Clean, clean, h1, h2, h3, h4, hs]

/-- The state is not in an escape, and a quote is no byte that is owed. -/
def StrState.Ok : StrState → Prop
  | .plain => True
  | .escape => False
  | .hex _ _ => False
  | .tail _ min _ => 0x80 ≤ min

instance (st : StrState) : Decidable st.Ok := by
  cases st <;> unfold StrState.Ok <;> infer_instance

theorem leadByte_ok {b : UInt8} {next : StrState} (h : leadByte b = some next) : next.Ok := by
  unfold leadByte at h
  repeat' split at h
  all_goals cases h
  all_goals decide

theorem next_ok (left : ℕ) : (if left = 1 then StrState.plain else .tail (left - 1) 0x80 0xBF).Ok := by
  split
  · trivial
  · exact UInt8.le_refl 0x80

variable {f e w rest v r s t : List UInt8} {st : StrState}

/-- **Clean bytes stand for themselves.** -/
theorem string_clean (h : clean st f = true) (rest : List UInt8) : string st (f ++ 0x22 :: rest) = some (f, rest) := by
  induction f generalizing st with
  | nil =>
    cases st with
    | plain => rfl
    | escape => cases h
    | hex => cases h
    | tail => cases h
  | cons b f ih =>
    cases st with
    | plain =>
      simp only [clean, Bool.and_eq_true, decide_eq_true_eq, ne_eq] at h
      obtain ⟨⟨⟨h1, h2⟩, h3⟩, h4⟩ := h
      simp only [List.cons_append, string, strAct, h1, h2, if_false, UInt8.not_lt.2 h3]
      split at h4
      · rename_i h5
        simp only [h5, if_true, ih h4]
        rfl
      · rename_i h5
        cases hlead : leadByte b with
        | none =>
          rw [hlead] at h4
          cases h4
        | some next =>
          rw [hlead] at h4
          simp only [h5, if_false, ih h4]
          rfl
    | escape => cases h
    | hex => cases h
    | tail left min max =>
      simp only [clean, Bool.and_eq_true, decide_eq_true_eq] at h
      simp only [List.cons_append, string, strAct, h.1, and_self, if_true, ih h.2]
      rfl

/-- A short escape. -/
theorem string_escape {b c : UInt8} (h : shortEscape b = some c) (s : List UInt8) :
    string .plain (0x5C :: b :: s) = (string .plain s).map fun r => (c :: r.1, r.2) := by
  have hact : strAct .plain 0x5C = .emit [] .escape := rfl
  have hshort : strAct .escape b = .emit [c] .plain := by simp only [strAct, h]
  rw [string, hact]
  dsimp only
  rw [string, hshort]
  dsimp only
  cases string .plain s <;> rfl

/-- The bytes that an escape may have used up in advance. -/
def StrState.ahead : StrState → ℕ
  | .plain => 1
  | .escape => 1
  | .hex left _ => 6 - left
  | .tail _ _ _ => 1

/-- What is out in advance moves on with the next byte. -/
theorem split_ahead {out : List UInt8} {b : UInt8} (hlen : out.length ≤ w.length)
    (heq : out ++ v = w ++ b :: f ++ e) : ∃ w', w = out ++ w' ∧ v = (w' ++ [b]) ++ f ++ e := by
  have hpre : out <+: w := by
    refine List.prefix_of_prefix_length_le ?_ (List.prefix_append w (b :: f ++ e)) hlen
    rw [← List.append_assoc, ← heq]
    exact List.prefix_append out v
  obtain ⟨w', rfl⟩ := hpre
  refine ⟨w', rfl, ?_⟩
  simp only [List.append_assoc, List.append_cancel_left_eq] at heq
  simpa using heq

theorem utf8_length (u : ℕ) : (utf8 u).length ≤ 3 := by
  unfold utf8
  split
  · simp
  split <;> simp

/-- Only a quote is short for a quote. -/
theorem shortEscape_quote {c : UInt8} (h : shortEscape 0x22 = some c) : c = 0x22 := by
  cases h
  rfl

/-- No digit is a quote. -/
theorem hexDigit_quote : hexDigit 0x22 = none := by decide

/-- **A string never catches up**: what is out in advance and has no quote stays in advance,
so the bytes of `f` do not come out as they are. -/
theorem string_ahead (hw : (0x22 : UInt8) ∉ w) (hlen : st.ahead ≤ w.length) (htail : ∀ n a b, st = .tail n a b → st.Ok)
    (e r : List UInt8) : string st (f ++ 0x22 :: rest) ≠ some (w ++ f ++ e, r) := by
  -- by induction on the bytes, from any state; at a closing quote nothing may be in advance
  induction f generalizing st w with
  | nil =>
    intro h
    rw [List.append_nil] at h
    cases st with
    | plain =>
      have hnil : w ++ e = [] := by
        injection h with h
        exact ((Prod.mk.inj h).1).symm
      rw [List.append_eq_nil_iff] at hnil
      rw [hnil.1] at hlen
      exact absurd hlen (by decide)
    | escape =>
      simp only [List.nil_append, string, strAct, shortEscape, if_true, Option.map_eq_some_iff] at h
      obtain ⟨p, -, hp⟩ := h
      cases w with
      | nil => exact absurd hlen (by decide)
      | cons c w =>
        have hc := (List.cons.inj (Prod.mk.inj hp).1).1
        exact hw (hc ▸ List.mem_cons_self)
    | hex left acc =>
      simp only [List.nil_append, string, strAct, hexDigit_quote] at h
      cases h
    | tail left min max =>
      have hmin : (0x80 : UInt8) ≤ min := htail _ _ _ rfl
      have hno : ¬(min ≤ 0x22 ∧ (0x22 : UInt8) ≤ max) := fun hm =>
        absurd (UInt8.le_trans hmin hm.1) (by decide)
      simp only [List.nil_append, string, strAct, hno, if_false] at h
      cases h
  | cons b f ih =>
    -- what a byte puts out is at the front of what is in advance
    have hstep : ∀ (out : List UInt8) (next : StrState), strAct st b = .emit out next → b ≠ 0x22 →
        out.length ≤ w.length → next.ahead ≤ w.length - out.length + 1 → (∀ n x y, next = .tail n x y → next.Ok) →
        string st (b :: f ++ 0x22 :: rest) ≠ some (w ++ b :: f ++ e, r) := by
      intro out next hact hb hout hnext hok h
      rw [List.cons_append, string, hact] at h
      dsimp only at h
      obtain ⟨p, hp, heq⟩ := Option.map_eq_some_iff.1 h
      obtain ⟨h1, h2⟩ := Prod.mk.inj heq
      obtain ⟨w', rfl, hv⟩ := split_ahead hout h1
      refine ih (w := w' ++ [b]) ?_ ?_ hok (hp.trans ?_)
      · rw [List.mem_append, List.mem_singleton, not_or]
        exact ⟨fun hmem => hw (List.mem_append_right _ hmem), fun h => hb h.symm⟩
      · rw [List.length_append] at hnext
        rw [List.length_append, List.length_singleton]
        omega
      · rw [← hv, ← h2]
    cases st with
    | plain =>
      have hlen' : 1 ≤ w.length := hlen
      by_cases hq : b = 0x22
      · subst hq
        intro h
        injection h with h
        have hnil := (Prod.mk.inj h).1
        rw [eq_comm, List.append_assoc, List.append_eq_nil_iff] at hnil
        rw [hnil.1] at hlen'
        exact absurd hlen' (by decide)
      by_cases hb : b = 0x5C
      · exact hstep [] .escape (by simp only [strAct, hb]; rfl) hq (Nat.zero_le _) (by simp [StrState.ahead])
          (fun n x y h => nomatch h)
      by_cases hctl : b < 0x20
      · intro h
        simp only [List.cons_append, string, strAct, hq, hb, hctl, if_false, if_true] at h
        cases h
      by_cases hasc : b < 0x80
      · exact hstep [b] .plain (by simp only [strAct, hq, hb, hctl, hasc, if_false, if_true]) hq hlen'
          (Nat.le_add_left _ _) (fun n x y h => nomatch h)
      cases hlead : leadByte b with
      | none =>
        intro h
        simp only [List.cons_append, string, strAct, hq, hb, hctl, hasc, hlead, if_false] at h
        cases h
      | some next =>
        have hnext : next.ahead = 1 := by
          have := leadByte_ok hlead
          cases next with
          | plain => rfl
          | escape => cases this
          | hex => cases this
          | tail => rfl
        exact hstep [b] next (by simp only [strAct, hq, hb, hctl, hasc, hlead, if_false]) hq hlen'
          (by rw [hnext]; exact Nat.le_add_left _ _) (fun _ _ _ _ => leadByte_ok hlead)
    | escape =>
      have hlen' : 1 ≤ w.length := hlen
      cases hshort : shortEscape b with
      | some c =>
        by_cases hq : b = 0x22
        · -- a quote comes out, but none is in advance
          subst hq
          obtain rfl := shortEscape_quote hshort
          intro h
          simp only [List.cons_append, string, strAct, hshort, Option.map_eq_some_iff] at h
          obtain ⟨p, -, hp⟩ := h
          cases w with
          | nil => exact absurd hlen' (by decide)
          | cons c w =>
            have hc := (List.cons.inj (Prod.mk.inj hp).1).1
            exact hw (hc ▸ List.mem_cons_self)
        · exact hstep [c] .plain (by simp only [strAct, hshort]) hq hlen' (Nat.le_add_left _ _)
            (fun n x y h => nomatch h)
      | none =>
        by_cases hu : b = 0x75
        · exact hstep [] (.hex 4 0) (by subst hu; rfl) (by rw [hu]; decide) (Nat.zero_le _)
            (by simp only [StrState.ahead, List.length_nil]; omega) (fun n x y h => nomatch h)
        · intro h
          simp only [List.cons_append, string, strAct, hshort, hu, if_false] at h
          cases h
    | hex left acc =>
      have hlen' : 6 - left ≤ w.length := hlen
      cases hdigit : hexDigit b with
      | none =>
        intro h
        simp only [List.cons_append, string, strAct, hdigit] at h
        cases h
      | some d =>
        have hq : b ≠ 0x22 := by
          rintro rfl
          rw [hexDigit_quote] at hdigit
          cases hdigit
        by_cases hleft : left = 1
        · have hutf8 := utf8_length (acc * 16 + d)
          exact hstep (utf8 (acc * 16 + d)) .plain (by simp only [strAct, hdigit, hleft, if_true]) hq (by omega)
            (by simp only [StrState.ahead]; omega) (fun n x y h => nomatch h)
        · exact hstep [] (.hex (left - 1) (acc * 16 + d)) (by simp only [strAct, hdigit, hleft, if_false]) hq
            (Nat.zero_le _) (by simp only [StrState.ahead, List.length_nil]; omega) (fun n x y h => nomatch h)
    | tail left min max =>
      have hlen' : 1 ≤ w.length := hlen
      have hmin : (0x80 : UInt8) ≤ min := htail _ _ _ rfl
      by_cases hin : min ≤ b ∧ b ≤ max
      · have hq : b ≠ 0x22 := by
          rintro rfl
          exact absurd (UInt8.le_trans hmin hin.1) (by decide)
        have hahead : (if left = 1 then StrState.plain else .tail (left - 1) 0x80 0xBF).ahead = 1 := by
          split <;> rfl
        exact hstep [b] _ (by simp only [strAct, hin, and_self, if_true]) hq hlen'
          (by rw [hahead]; exact Nat.le_add_left _ _) (fun _ _ _ _ => next_ok left)
      · intro h
        simp only [List.cons_append, string, strAct, hin, if_false] at h
        cases h

/-- **Bytes that come out as they are** are clean, and nothing behind the quote is read. -/
theorem string_self (hst : st.Ok) (h : string st (f ++ 0x22 :: rest) = some (f ++ e, r)) :
    clean st f = true ∧ e = [] ∧ r = rest := by
  induction f generalizing st with
  | nil =>
    cases st with
    | plain =>
      injection h with h
      obtain ⟨h1, h2⟩ := Prod.mk.inj h
      exact ⟨rfl, h1.symm, h2.symm⟩
    | escape => exact hst.elim
    | hex => exact hst.elim
    | tail left min max =>
      have hno : ¬(min ≤ 0x22 ∧ (0x22 : UInt8) ≤ max) := fun hm =>
        absurd (UInt8.le_trans hst hm.1) (by decide)
      simp only [List.nil_append, string, strAct, hno, if_false] at h
      cases h
  | cons b f ih =>
    have hstep : ∀ next : StrState, strAct st b = .emit [b] next → next.Ok →
        clean next f = true ∧ e = [] ∧ r = rest := by
      intro next hact hok
      rw [List.cons_append, string, hact] at h
      dsimp only at h
      obtain ⟨p, hp, heq⟩ := Option.map_eq_some_iff.1 h
      obtain ⟨h1, h2⟩ := Prod.mk.inj heq
      have h1 : p.1 = f ++ e := (List.cons.inj h1).2
      exact ih hok (hp.trans (congrArg some (Prod.ext h1 h2)))
    cases st with
    | plain =>
      by_cases hq : b = 0x22
      · subst hq
        injection h with h
        cases (Prod.mk.inj h).1
      by_cases hb : b = 0x5C
      · -- an escape puts nothing out here, and never catches up
        subst hb
        simp only [List.cons_append, string, strAct, if_true] at h
        rw [if_neg (by decide)] at h
        obtain ⟨p, hp, heq⟩ := Option.map_eq_some_iff.1 h
        obtain ⟨h1, h2⟩ := Prod.mk.inj heq
        have hahead : string .escape (f ++ 0x22 :: rest) ≠ some ([0x5C] ++ f ++ e, r) :=
          string_ahead (by decide) (show StrState.escape.ahead ≤ _ from le_rfl) (fun n x y h => nomatch h) e r
        have hp' : p = ([0x5C] ++ f ++ e, r) := Prod.ext h1 h2
        exact absurd (hp.trans (congrArg some hp')) hahead
      by_cases hctl : b < 0x20
      · simp only [List.cons_append, string, strAct, hq, hb, hctl, if_false, if_true] at h
        cases h
      by_cases hasc : b < 0x80
      · obtain ⟨hclean, hrest⟩ := hstep .plain (by simp only [strAct, hq, hb, hctl, hasc, if_false, if_true]) trivial
        exact ⟨by simp [clean, hq, hb, hasc, hclean, UInt8.not_lt.1 hctl], hrest⟩
      cases hlead : leadByte b with
      | none =>
        simp only [List.cons_append, string, strAct, hq, hb, hctl, hasc, hlead, if_false] at h
        cases h
      | some next =>
        obtain ⟨hclean, hrest⟩ := hstep next (by simp only [strAct, hq, hb, hctl, hasc, hlead, if_false])
          (leadByte_ok hlead)
        exact ⟨by simp [clean, hq, hb, hasc, hlead, hclean, UInt8.not_lt.1 hctl], hrest⟩
    | escape => exact hst.elim
    | hex => exact hst.elim
    | tail left min max =>
      by_cases hin : min ≤ b ∧ b ≤ max
      · obtain ⟨hclean, hrest⟩ := hstep _ (by simp only [strAct, hin, and_self, if_true]) (next_ok left)
        exact ⟨by simp only [clean, hin, hclean, decide_true, Bool.and_self], hrest⟩
      · simp only [List.cons_append, string, strAct, hin, if_false] at h
        cases h

/-- More bytes behind a string do no harm. -/
theorem string_append (h : string st s = some (v, r)) (t : List UInt8) : string st (s ++ t) = some (v, r ++ t) := by
  induction s generalizing st v with
  | nil => cases h
  | cons b s ih =>
    rw [string] at h
    rw [List.cons_append, string]
    cases hact : strAct st b with
    | close =>
      rw [hact] at h
      injection h with h
      obtain ⟨rfl, rfl⟩ := Prod.mk.inj h
      rfl
    | bad =>
      rw [hact] at h
      cases h
    | emit out next =>
      rw [hact] at h
      dsimp only at h ⊢
      obtain ⟨p, hp, heq⟩ := Option.map_eq_some_iff.1 h
      obtain ⟨rfl, rfl⟩ := Prod.mk.inj heq
      rw [ih hp]
      rfl

/-! ## Tokens -/

/-- White space. -/
def isWs (b : UInt8) : Bool := b == 0x20 || b == 0x09 || b == 0x0A || b == 0x0D

/-- The text behind white space. -/
def skipWs (s : List UInt8) : List UInt8 := s.dropWhile isWs

/-- The text behind a byte that has to be next. -/
def expect (c : UInt8) (s : List UInt8) : Option (List UInt8) :=
  match skipWs s with
  | [] => none
  | b :: r => if b = c then some r else none

theorem expect_eq {c : UInt8} : expect c s = some r ↔ skipWs s = c :: r := by
  unfold expect
  cases hs : skipWs s with
  | nil => simp
  | cons b r' =>
    by_cases hb : b = c
    · simp [hb]
    · simp [hb]

theorem expect_inj {c c' : UInt8} {r' : List UInt8} (h : expect c s = some r) (h' : expect c' s = some r') :
    c = c' ∧ r = r' := by
  rw [expect_eq] at h h'
  exact List.cons.inj (h.symm.trans h')

theorem skipWs_append (h : skipWs s ≠ []) (t : List UInt8) : skipWs (s ++ t) = skipWs s ++ t := by
  unfold skipWs at h ⊢
  rw [List.dropWhile_append, if_neg (by simpa using h)]

theorem expect_append {c : UInt8} (h : expect c s = some r) (t : List UInt8) : expect c (s ++ t) = some (r ++ t) := by
  rw [expect_eq] at h ⊢
  rw [skipWs_append (by rw [h]; exact List.cons_ne_nil _ _), h, List.cons_append]

/-- Where a number is between two of its characters. -/
inductive NumState where
  | start
  | minus
  | zero
  | int
  | point
  | frac
  | e
  | sign
  | exp
  deriving DecidableEq

/-- A digit. -/
def isDigit (b : UInt8) : Bool := 0x30 ≤ b && b ≤ 0x39

/-- A character of a number. -/
def numStep : NumState → UInt8 → Option NumState
  | .start, b => if b = 0x2D then some .minus else if b = 0x30 then some .zero else if isDigit b then some .int else none
  | .minus, b => if b = 0x30 then some .zero else if isDigit b then some .int else none
  | .zero, b => if b = 0x2E then some .point else if b = 0x65 ∨ b = 0x45 then some .e else none
  | .int, b =>
    if isDigit b then some .int else if b = 0x2E then some .point
    else if b = 0x65 ∨ b = 0x45 then some .e else none
  | .point, b => if isDigit b then some .frac else none
  | .frac, b => if isDigit b then some .frac else if b = 0x65 ∨ b = 0x45 then some .e else none
  | .e, b => if b = 0x2B ∨ b = 0x2D then some .sign else if isDigit b then some .exp else none
  | .sign, b => if isDigit b then some .exp else none
  | .exp, b => if isDigit b then some .exp else none

/-- The state behind the characters of a token. -/
def numRun (st : NumState) (token : List UInt8) : Option NumState := token.foldlM numStep st

/-- A number may end here. -/
def NumState.accepts (st : NumState) : Bool := st == .zero || st == .int || st == .frac || st == .exp

/-- A token is a number. -/
def isNumber (token : List UInt8) : Bool := (numRun .start token).any NumState.accepts

/-- A character that numbers have. -/
def isNumChar (b : UInt8) : Bool := isDigit b || b == 0x2B || b == 0x2D || b == 0x2E || b == 0x65 || b == 0x45

/-- The words that stand for values. -/
def literals : List (List UInt8 × Json) :=
  [([0x6E, 0x75, 0x6C, 0x6C], .null), ([0x74, 0x72, 0x75, 0x65], .bool true),
    ([0x66, 0x61, 0x6C, 0x73, 0x65], .bool false)]

/-! ## Values -/

/-- What is read: a value, the members of an object behind its brace, or the elements of an
array behind its bracket, if there are any. -/
inductive Kind where
  | value
  | members
  | elements

/-- **The grammar.** `s` starts with a text of `j`, and `r` is behind it. -/
inductive Parses : Kind → List UInt8 → Json → List UInt8 → Prop where
  | str {s s' v r : List UInt8} (h : expect 0x22 s = some s') (hv : string .plain s' = some (v, r)) : Parses .value s (.str v) r
  | num {s : List UInt8} (h : isNumber ((skipWs s).takeWhile isNumChar) = true) :
    Parses .value s (.num ((skipWs s).takeWhile isNumChar)) ((skipWs s).dropWhile isNumChar)
  | literal {s w r : List UInt8} {j : Json} (h : (w, j) ∈ literals) (hs : skipWs s = w ++ r) : Parses .value s j r
  | objNil {s s' r : List UInt8} (h : expect 0x7B s = some s') (h' : expect 0x7D s' = some r) : Parses .value s (.obj []) r
  | obj {s s' r : List UInt8} {j : Json} (h : expect 0x7B s = some s') (hm : Parses .members s' j r) : Parses .value s j r
  | arrNil {s s' r : List UInt8} (h : expect 0x5B s = some s') (h' : expect 0x5D s' = some r) : Parses .value s (.arr []) r
  | arr {s s' r : List UInt8} {j : Json} (h : expect 0x5B s = some s') (hm : Parses .elements s' j r) : Parses .value s j r
  | memberLast {s s₀ s₁ s₂ s₃ k r : List UInt8} {v : Json} (hq : expect 0x22 s = some s₀) (hk : string .plain s₀ = some (k, s₁))
    (hc : expect 0x3A s₁ = some s₂) (hv : Parses .value s₂ v s₃) (he : expect 0x7D s₃ = some r) :
    Parses .members s (.obj [(k, v)]) r
  | memberCons {s s₀ s₁ s₂ s₃ s₄ k r : List UInt8} {v : Json} {ms : List (List UInt8 × Json)}
    (hq : expect 0x22 s = some s₀) (hk : string .plain s₀ = some (k, s₁)) (hc : expect 0x3A s₁ = some s₂) (hv : Parses .value s₂ v s₃) (he : expect 0x2C s₃ = some s₄)
    (hm : Parses .members s₄ (.obj ms) r) : Parses .members s (.obj ((k, v) :: ms)) r
  | elementLast {s s₁ r : List UInt8} {v : Json} (hv : Parses .value s v s₁) (he : expect 0x5D s₁ = some r) :
    Parses .elements s (.arr [v]) r
  | elementCons {s s₁ s₂ r : List UInt8} {v : Json} {vs : List Json} (hv : Parses .value s v s₁) (he : expect 0x2C s₁ = some s₂)
    (hm : Parses .elements s₂ (.arr vs) r) : Parses .elements s (.arr (v :: vs)) r

variable {k k' : Kind} {j j' : Json} {r' : List UInt8}

/-! ## A text has one value -/

/-- What starts with another character is no number. -/
theorem number_expect {c : UInt8} (h : isNumber ((skipWs s).takeWhile isNumChar) = true) (hs : expect c s = some r) :
    isNumChar c = true := by
  by_contra hc
  rw [expect_eq] at hs
  rw [hs, List.takeWhile_cons_of_neg hc] at h
  exact absurd h (by decide)

/-- A literal starts with a letter that starts nothing else. -/
theorem literal_head {w : List UInt8} (h : (w, j) ∈ literals) (hs : skipWs s = w ++ r) :
    ∃ c s', skipWs s = c :: s' ∧ (c = 0x6E ∨ c = 0x74 ∨ c = 0x66) := by
  simp only [literals, List.mem_cons, List.not_mem_nil, or_false, Prod.mk.injEq] at h
  rcases h with ⟨rfl, -⟩ | ⟨rfl, -⟩ | ⟨rfl, -⟩
  · exact ⟨_, _, hs, Or.inl rfl⟩
  · exact ⟨_, _, hs, Or.inr (Or.inl rfl)⟩
  · exact ⟨_, _, hs, Or.inr (Or.inr rfl)⟩

theorem literal_expect {w : List UInt8} {c : UInt8} (h : (w, j) ∈ literals) (hs : skipWs s = w ++ r)
    (he : expect c s = some r') : c = 0x6E ∨ c = 0x74 ∨ c = 0x66 := by
  obtain ⟨c', s', hc, hor⟩ := literal_head h hs
  rw [expect_eq, hc] at he
  rw [← (List.cons.inj he).1]
  exact hor

theorem literal_number {w : List UInt8} (h : (w, j) ∈ literals) (hs : skipWs s = w ++ r) :
    ¬isNumber ((skipWs s).takeWhile isNumChar) = true := by
  obtain ⟨c, s', hc, hor⟩ := literal_head h hs
  rw [hc, List.takeWhile_cons_of_neg (by rcases hor with rfl | rfl | rfl <;> decide)]
  decide

theorem literal_inj {w w' : List UInt8} (h : (w, j) ∈ literals) (hs : skipWs s = w ++ r) (h' : (w', j') ∈ literals)
    (hs' : skipWs s = w' ++ r') : j = j' ∧ r = r' := by
  rw [hs] at hs'
  simp only [literals, List.mem_cons, List.not_mem_nil, or_false, Prod.mk.injEq] at h h'
  rcases h with ⟨rfl, rfl⟩ | ⟨rfl, rfl⟩ | ⟨rfl, rfl⟩ <;> rcases h' with ⟨rfl, rfl⟩ | ⟨rfl, rfl⟩ | ⟨rfl, rfl⟩ <;>
    simp_all

/-- A text of members starts with a quote. -/
theorem members_quote (h : Parses .members s j r) : ∃ s', expect 0x22 s = some s' := by
  cases h with
  | memberLast hq => exact ⟨_, hq⟩
  | memberCons hq => exact ⟨_, hq⟩

/-- No value starts with the bracket that closes an array. -/
theorem elements_bracket (h : Parses .elements s j r) (hs : expect 0x5D s = some r') : False := by
  have hvalue : ∀ {v : Json} {s₁ : List UInt8}, Parses .value s v s₁ → False := by
    intro v s₁ hv
    cases hv with
    | str h => exact absurd (expect_inj h hs).1 (by decide)
    | num h => exact absurd (number_expect h hs) (by decide)
    | literal h h' => exact absurd (literal_expect h h' hs) (by decide)
    | objNil h => exact absurd (expect_inj h hs).1 (by decide)
    | obj h => exact absurd (expect_inj h hs).1 (by decide)
    | arrNil h => exact absurd (expect_inj h hs).1 (by decide)
    | arr h => exact absurd (expect_inj h hs).1 (by decide)
  cases h with
  | elementLast hv => exact hvalue hv
  | elementCons hv => exact hvalue hv

/-- **A text has one value**, and one end. -/
theorem Parses.det (h : Parses k s j r) (h' : Parses k s j' r') : j = j' ∧ r = r' := by
  induction h generalizing j' r' with
  | str h hv =>
    cases h' with
    | str h' hv' =>
      rw [(expect_inj h h').2, hv'] at hv
      injection hv with hv
      obtain ⟨rfl, rfl⟩ := Prod.mk.inj hv
      exact ⟨rfl, rfl⟩
    | num h' => exact absurd (number_expect h' h) (by decide)
    | literal h' hs => exact absurd (literal_expect h' hs h) (by decide)
    | objNil h' => exact absurd (expect_inj h h').1 (by decide)
    | obj h' => exact absurd (expect_inj h h').1 (by decide)
    | arrNil h' => exact absurd (expect_inj h h').1 (by decide)
    | arr h' => exact absurd (expect_inj h h').1 (by decide)
  | num h =>
    cases h' with
    | str h' => exact absurd (number_expect h h') (by decide)
    | num => exact ⟨rfl, rfl⟩
    | literal h' hs => exact absurd h (literal_number h' hs)
    | objNil h' => exact absurd (number_expect h h') (by decide)
    | obj h' => exact absurd (number_expect h h') (by decide)
    | arrNil h' => exact absurd (number_expect h h') (by decide)
    | arr h' => exact absurd (number_expect h h') (by decide)
  | literal h hs =>
    cases h' with
    | str h' => exact absurd (literal_expect h hs h') (by decide)
    | num h' => exact absurd h' (literal_number h hs)
    | literal h' hs' => exact literal_inj h hs h' hs'
    | objNil h' => exact absurd (literal_expect h hs h') (by decide)
    | obj h' => exact absurd (literal_expect h hs h') (by decide)
    | arrNil h' => exact absurd (literal_expect h hs h') (by decide)
    | arr h' => exact absurd (literal_expect h hs h') (by decide)
  | objNil h he =>
    cases h' with
    | str h' => exact absurd (expect_inj h h').1 (by decide)
    | num h' => exact absurd (number_expect h' h) (by decide)
    | literal h' hs => exact absurd (literal_expect h' hs h) (by decide)
    | objNil h' he' =>
      rw [(expect_inj h h').2] at he
      exact ⟨rfl, (expect_inj he he').2⟩
    | obj h' hm =>
      obtain ⟨_, hq⟩ := members_quote hm
      rw [(expect_inj h h').2] at he
      exact absurd (expect_inj he hq).1 (by decide)
    | arrNil h' => exact absurd (expect_inj h h').1 (by decide)
    | arr h' => exact absurd (expect_inj h h').1 (by decide)
  | obj h hm ih =>
    cases h' with
    | str h' => exact absurd (expect_inj h h').1 (by decide)
    | num h' => exact absurd (number_expect h' h) (by decide)
    | literal h' hs => exact absurd (literal_expect h' hs h) (by decide)
    | objNil h' he =>
      obtain ⟨_, hq⟩ := members_quote hm
      rw [← (expect_inj h h').2] at he
      exact absurd (expect_inj he hq).1 (by decide)
    | obj h' hm' =>
      rw [← (expect_inj h h').2] at hm'
      exact ih hm'
    | arrNil h' => exact absurd (expect_inj h h').1 (by decide)
    | arr h' => exact absurd (expect_inj h h').1 (by decide)
  | arrNil h he =>
    cases h' with
    | str h' => exact absurd (expect_inj h h').1 (by decide)
    | num h' => exact absurd (number_expect h' h) (by decide)
    | literal h' hs => exact absurd (literal_expect h' hs h) (by decide)
    | objNil h' => exact absurd (expect_inj h h').1 (by decide)
    | obj h' => exact absurd (expect_inj h h').1 (by decide)
    | arrNil h' he' =>
      rw [(expect_inj h h').2] at he
      exact ⟨rfl, (expect_inj he he').2⟩
    | arr h' hm =>
      rw [(expect_inj h h').2] at he
      exact (elements_bracket hm he).elim
  | arr h hm ih =>
    cases h' with
    | str h' => exact absurd (expect_inj h h').1 (by decide)
    | num h' => exact absurd (number_expect h' h) (by decide)
    | literal h' hs => exact absurd (literal_expect h' hs h) (by decide)
    | objNil h' => exact absurd (expect_inj h h').1 (by decide)
    | obj h' => exact absurd (expect_inj h h').1 (by decide)
    | arrNil h' he =>
      rw [← (expect_inj h h').2] at he
      exact (elements_bracket hm he).elim
    | arr h' hm' =>
      rw [← (expect_inj h h').2] at hm'
      exact ih hm'
  | memberLast hq hk hc hv he ih =>
    cases h' with
    | memberLast hq' hk' hc' hv' he' =>
      rw [← (expect_inj hq hq').2, hk] at hk'
      obtain ⟨rfl, rfl⟩ := Prod.mk.inj (Option.some.inj hk')
      rw [← (expect_inj hc hc').2] at hv'
      obtain ⟨rfl, rfl⟩ := ih hv'
      exact ⟨rfl, (expect_inj he he').2⟩
    | memberCons hq' hk' hc' hv' he' =>
      rw [← (expect_inj hq hq').2, hk] at hk'
      obtain ⟨rfl, rfl⟩ := Prod.mk.inj (Option.some.inj hk')
      rw [← (expect_inj hc hc').2] at hv'
      obtain ⟨rfl, rfl⟩ := ih hv'
      exact absurd (expect_inj he he').1 (by decide)
  | memberCons hq hk hc hv he hm ih ihm =>
    cases h' with
    | memberLast hq' hk' hc' hv' he' =>
      rw [← (expect_inj hq hq').2, hk] at hk'
      obtain ⟨rfl, rfl⟩ := Prod.mk.inj (Option.some.inj hk')
      rw [← (expect_inj hc hc').2] at hv'
      obtain ⟨rfl, rfl⟩ := ih hv'
      exact absurd (expect_inj he he').1 (by decide)
    | memberCons hq' hk' hc' hv' he' hm' =>
      rw [← (expect_inj hq hq').2, hk] at hk'
      obtain ⟨rfl, rfl⟩ := Prod.mk.inj (Option.some.inj hk')
      rw [← (expect_inj hc hc').2] at hv'
      obtain ⟨rfl, rfl⟩ := ih hv'
      rw [← (expect_inj he he').2] at hm'
      obtain ⟨hms, rfl⟩ := ihm hm'
      injection hms with hms
      exact ⟨by rw [hms], rfl⟩
  | elementLast hv he ih =>
    cases h' with
    | elementLast hv' he' =>
      obtain ⟨rfl, rfl⟩ := ih hv'
      exact ⟨rfl, (expect_inj he he').2⟩
    | elementCons hv' he' =>
      obtain ⟨rfl, rfl⟩ := ih hv'
      exact absurd (expect_inj he he').1 (by decide)
  | elementCons hv he hm ih ihm =>
    cases h' with
    | elementLast hv' he' =>
      obtain ⟨rfl, rfl⟩ := ih hv'
      exact absurd (expect_inj he he').1 (by decide)
    | elementCons hv' he' hm' =>
      obtain ⟨rfl, rfl⟩ := ih hv'
      rw [← (expect_inj he he').2] at hm'
      obtain ⟨hvs, rfl⟩ := ihm hm'
      injection hvs with hvs
      exact ⟨by rw [hvs], rfl⟩

/-! ## More bytes behind a text -/

/-- No character of a number is next. -/
def Delim (t : List UInt8) : Prop := ∀ b ∈ t.head?, isNumChar b = false

theorem takeWhile_delim (ht : Delim t) (p : List UInt8) :
    (∀ b ∈ p, isNumChar b = true) → (p ++ t).takeWhile isNumChar = p ∧ (p ++ t).dropWhile isNumChar = t := by
  intro hp
  have hnil : t.takeWhile isNumChar = [] ∧ t.dropWhile isNumChar = t := by
    cases t with
    | nil => exact ⟨rfl, rfl⟩
    | cons b t =>
      have hb : isNumChar b = false := ht b rfl
      exact ⟨List.takeWhile_cons_of_neg (by rw [hb]; decide), List.dropWhile_cons_of_neg (by rw [hb]; decide)⟩
  rw [List.takeWhile_append_of_pos hp, List.dropWhile_append_of_pos hp, hnil.1, hnil.2, List.append_nil]
  exact ⟨rfl, rfl⟩

/-- A number goes on behind its text only with more characters of a number. -/
theorem number_append (h : isNumber ((skipWs s).takeWhile isNumChar) = true)
    (ht : (skipWs s).dropWhile isNumChar = [] → Delim t) :
    (skipWs (s ++ t)).takeWhile isNumChar = (skipWs s).takeWhile isNumChar ∧
      (skipWs (s ++ t)).dropWhile isNumChar = (skipWs s).dropWhile isNumChar ++ t := by
  have hne : skipWs s ≠ [] := by
    intro hnil
    rw [hnil] at h
    exact absurd h (by decide)
  have hall : ∀ b ∈ (skipWs s).takeWhile isNumChar, isNumChar b = true := fun b hb => List.mem_takeWhile_imp hb
  have hdelim : Delim ((skipWs s).dropWhile isNumChar ++ t) := by
    cases hd : (skipWs s).dropWhile isNumChar with
    | nil => exact ht hd
    | cons b d =>
      rintro b' ⟨⟩
      have := List.head_dropWhile_not isNumChar (l := skipWs s) (by rw [hd]; exact List.cons_ne_nil _ _)
      simpa [hd] using this
  rw [skipWs_append hne]
  have hsplit := takeWhile_delim hdelim _ hall
  rwa [← List.append_assoc, List.takeWhile_append_dropWhile] at hsplit

/-- **More bytes behind a text** do no harm, if they do not go on with a number. -/
theorem Parses.append (h : Parses k s j r) (ht : r = [] → Delim t) : Parses k (s ++ t) j (r ++ t) := by
  have hclosed : ∀ {c : UInt8} {a b : List UInt8}, expect c a = some b → a = [] → Delim t := by
    rintro c a b he rfl
    cases he
  induction h with
  | str h hv => exact .str (expect_append h t) (string_append hv t)
  | num h =>
    obtain ⟨h1, h2⟩ := number_append h ht
    have hnum := Parses.num (h1 ▸ h)
    rwa [h1, h2] at hnum
  | literal h hs =>
    refine .literal h ?_
    rw [skipWs_append (by rw [hs]; rintro hnil; rw [List.append_eq_nil_iff] at hnil; rw [hnil.1] at h; simp [literals] at h),
      hs, List.append_assoc]
  | objNil h he => exact .objNil (expect_append h t) (expect_append he t)
  | obj h hm ih => exact .obj (expect_append h t) (ih ht)
  | arrNil h he => exact .arrNil (expect_append h t) (expect_append he t)
  | arr h hm ih => exact .arr (expect_append h t) (ih ht)
  | memberLast hq hk hc hv he ih =>
    exact .memberLast (expect_append hq t) (string_append hk t) (expect_append hc t) (ih (hclosed he)) (expect_append he t)
  | memberCons hq hk hc hv he hm ih ihm =>
    exact .memberCons (expect_append hq t) (string_append hk t) (expect_append hc t) (ih (hclosed he))
      (expect_append he t) (ihm ht)
  | elementLast hv he ih => exact .elementLast (ih (hclosed he)) (expect_append he t)
  | elementCons hv he hm ih ihm => exact .elementCons (ih (hclosed he)) (expect_append he t) (ihm ht)

/-! ## Texts -/

/-- **A text of a value**: white space may be at its end. -/
def Text (t : List UInt8) (j : Json) : Prop := ∃ ws, skipWs ws = [] ∧ Parses .value t j ws

/-- A text in front of more bytes. -/
theorem Text.parses {j : Json} (h : Text t j) (ht : Delim rest) :
    ∃ ws, skipWs ws = [] ∧ Parses .value (t ++ rest) j (ws ++ rest) := by
  obtain ⟨ws, hws, hp⟩ := h
  exact ⟨ws, hws, hp.append fun _ => ht⟩

/-- A byte behind white space. -/
theorem expect_ws {ws : List UInt8} {c : UInt8} (hws : skipWs ws = []) (hc : isWs c = false) (s : List UInt8) :
    expect c (ws ++ c :: s) = some s := by
  rw [expect_eq]
  unfold skipWs at hws ⊢
  rw [List.dropWhile_append, if_pos (by simpa using hws), List.dropWhile_cons_of_neg (by rw [hc]; decide)]

theorem expect_self {c : UInt8} (hc : isWs c = false) (s : List UInt8) : expect c (c :: s) = some s :=
  show expect c ([] ++ c :: s) = some s from expect_ws rfl hc s

/-- A string. -/
theorem text_str (h : string .plain (f ++ [0x22]) = some (v, [])) : Text (0x22 :: f ++ [0x22]) (.str v) :=
  ⟨[], rfl, .str (expect_self rfl _) h⟩

theorem text_clean (h : Clean f) : Text (0x22 :: f ++ [0x22]) (.str f) := text_str (string_clean h [])

/-- A number has the characters of numbers. -/
theorem numStep_char {st : NumState} {b : UInt8} (h : (numStep st b).isSome = true) : isNumChar b = true := by
  have hzero : b = 0x30 → isDigit b = true := by
    rintro rfl
    decide
  unfold isNumChar
  simp only [Bool.or_eq_true, beq_iff_eq]
  cases st <;> simp only [numStep] at h <;> split_ifs at h <;> tauto

theorem numRun_char {st : NumState} (h : (numRun st t).isSome = true) : ∀ b ∈ t, isNumChar b = true := by
  induction t generalizing st with
  | nil => exact fun b hb => absurd hb List.not_mem_nil
  | cons b t ih =>
    rw [numRun, List.foldlM_cons] at h
    cases hstep : numStep st b with
    | none =>
      rw [hstep] at h
      cases h
    | some st' =>
      rw [hstep] at h
      exact List.forall_mem_cons.2 ⟨numStep_char (by rw [hstep]; rfl), ih h⟩

/-- A number. -/
theorem text_num (h : isNumber t = true) : Text t (.num t) := by
  have hall : ∀ b ∈ t, isNumChar b = true := by
    refine numRun_char (show (numRun .start t).isSome = true from ?_)
    cases hrun : numRun .start t with
    | none =>
      rw [isNumber, hrun] at h
      cases h
    | some => rfl
  have hws : skipWs t = t := by
    cases t with
    | nil => rfl
    | cons b t =>
      refine List.dropWhile_cons_of_neg fun hb => ?_
      have hnum := hall b List.mem_cons_self
      unfold isWs at hb
      simp only [Bool.or_eq_true, beq_iff_eq] at hb
      rcases hb with ((rfl | rfl) | rfl) | rfl <;> exact absurd hnum (by decide)
  obtain ⟨h1, h2⟩ := takeWhile_delim (t := []) (fun b hb => nomatch hb) t hall
  rw [List.append_nil] at h1 h2
  have hp := Parses.num (s := t) (by rw [hws, h1]; exact h)
  rw [hws, h1, h2] at hp
  exact ⟨[], rfl, hp⟩

/-- The digits of a whole number: a zero has none behind it. -/
def IsInt (ds : List UInt8) : Prop :=
  ds = [0x30] ∨ ∃ d ds', ds = d :: ds' ∧ d ≠ 0x30 ∧ isDigit d = true ∧ ∀ b ∈ ds', isDigit b = true

/-- A sign, or none. -/
def IsSign (sign : List UInt8) : Prop := sign = [] ∨ sign = [0x2D]

theorem isPlain_of_digit {b : UInt8} (h : isDigit b = true) : IsPlain b := by
  have hb : 0x30 ≤ b ∧ b ≤ 0x39 := by simpa [isDigit] using h
  refine ⟨UInt8.le_trans (by decide) hb.1, UInt8.lt_of_le_of_lt hb.2 (by decide), ?_, ?_⟩
  · rintro rfl
    exact absurd hb.1 (by decide)
  · rintro rfl
    exact absurd hb.2 (by decide)

/-- More digits change nothing. -/
theorem numRun_digits {st : NumState} {ds : List UInt8} (hst : st = .int ∨ st = .frac)
    (h : ∀ b ∈ ds, isDigit b = true) : numRun st ds = some st := by
  induction ds with
  | nil => rfl
  | cons b ds ih =>
    have hb := h b List.mem_cons_self
    have hstep : numStep st b = some st := by
      rcases hst with rfl | rfl <;> simp only [numStep, hb, if_true]
    rw [numRun, List.foldlM_cons, hstep]
    exact ih fun b hb => h b (List.mem_cons_of_mem _ hb)

theorem numRun_append {st : NumState} (t t' : List UInt8) :
    numRun st (t ++ t') = (numRun st t).bind fun st' => numRun st' t' := List.foldlM_append

/-- The state behind a sign and a whole number. -/
theorem numRun_int {sign ds : List UInt8} (hs : IsSign sign) (h : IsInt ds) :
    numRun .start (sign ++ ds) = some .zero ∨ numRun .start (sign ++ ds) = some .int := by
  rcases h with rfl | ⟨d, ds, rfl, hd, hdigit, hds⟩
  · rcases hs with rfl | rfl
    · exact Or.inl rfl
    · exact Or.inl rfl
  · have hminus : d ≠ 0x2D := by
      rintro rfl
      exact absurd hdigit (by decide)
    have hrun : numRun .int ds = some .int := numRun_digits (Or.inl rfl) hds
    rcases hs with rfl | rfl
    · right
      rw [List.nil_append, numRun, List.foldlM_cons, numStep, if_neg hminus, if_neg hd, if_pos hdigit]
      exact hrun
    · right
      rw [List.singleton_append, numRun, List.foldlM_cons, numStep, if_pos rfl]
      show numRun .minus (d :: ds) = _
      rw [numRun, List.foldlM_cons, numStep, if_neg hd, if_pos hdigit]
      exact hrun

/-- A whole number. -/
theorem isNumber_int {sign ds : List UInt8} (hs : IsSign sign) (h : IsInt ds) : isNumber (sign ++ ds) = true := by
  rcases numRun_int hs h with hrun | hrun <;> rw [isNumber, hrun] <;> rfl

/-- A number with decimals. -/
theorem isNumber_fixed {sign ds ds' : List UInt8} (hs : IsSign sign) (h : IsInt ds) (hne : ds' ≠ [])
    (h' : ∀ b ∈ ds', isDigit b = true) : isNumber (sign ++ ds ++ 0x2E :: ds') = true := by
  have hpoint : ∀ st : NumState, st = .zero ∨ st = .int → numRun st (0x2E :: ds') = some .frac := by
    intro st hst
    cases ds' with
    | nil => exact absurd rfl hne
    | cons d ds' =>
      have hd := h' d List.mem_cons_self
      have hstep : numStep st 0x2E = some .point := by
        rcases hst with rfl | rfl <;> rfl
      rw [numRun, List.foldlM_cons, hstep]
      show numRun .point (d :: ds') = _
      rw [numRun, List.foldlM_cons, numStep, if_pos hd]
      exact numRun_digits (Or.inr rfl) fun b hb => h' b (List.mem_cons_of_mem _ hb)
  rw [isNumber, numRun_append]
  rcases numRun_int hs h with hrun | hrun
  · rw [hrun, Option.bind_some, hpoint .zero (Or.inl rfl)]
    rfl
  · rw [hrun, Option.bind_some, hpoint .int (Or.inr rfl)]
    rfl

/-- The texts of members, with commas in between. -/
def joinTexts : List (List UInt8) → List UInt8
  | [] => []
  | [t] => t
  | t :: ts => t ++ 0x2C :: joinTexts ts

theorem joinTexts_cons (t : List UInt8) (ts : List (List UInt8)) :
    joinTexts (t :: ts) = t ++ ts.flatMap fun t' => 0x2C :: t' := by
  induction ts generalizing t with
  | nil => simp [joinTexts]
  | cons t' ts ih =>
    rw [joinTexts, ih, List.flatMap_cons, List.cons_append]
    exact List.cons_ne_nil _ _

/-- The elements of an array, up to its bracket. -/
theorem elements_texts {items : List (List UInt8 × Json)} (hne : items ≠ []) (h : ∀ i ∈ items, Text i.1 i.2)
    (rest : List UInt8) :
    Parses .elements (joinTexts (items.map Prod.fst) ++ 0x5D :: rest) (.arr (items.map Prod.snd)) rest := by
  induction items with
  | nil => exact absurd rfl hne
  | cons i items ih =>
    have hi := h i List.mem_cons_self
    cases items with
    | nil =>
      have hdelim : Delim (0x5D :: rest) := by
        rintro b ⟨⟩
        rfl
      obtain ⟨ws, hws, hp⟩ := hi.parses hdelim
      exact .elementLast hp (expect_ws hws rfl rest)
    | cons i' items =>
      have hdelim : Delim (0x2C :: (joinTexts ((i' :: items).map Prod.fst) ++ 0x5D :: rest)) := by
        rintro b ⟨⟩
        rfl
      obtain ⟨ws, hws, hp⟩ := hi.parses hdelim
      have hrest := ih (List.cons_ne_nil _ _) fun i hi => h i (List.mem_cons_of_mem _ hi)
      have hall := Parses.elementCons hp (expect_ws hws rfl _) hrest
      simpa [joinTexts] using hall

/-- An array of texts. -/
theorem text_arr {items : List (List UInt8 × Json)} (h : ∀ i ∈ items, Text i.1 i.2) :
    Text (0x5B :: joinTexts (items.map Prod.fst) ++ [0x5D]) (.arr (items.map Prod.snd)) := by
  by_cases hne : items = []
  · subst hne
    exact ⟨[], rfl, .arrNil (expect_self rfl _) (expect_self rfl _)⟩
  · exact ⟨[], rfl, .arr (expect_self rfl _) (elements_texts hne h [])⟩

/-! ## Objects with bytes put in as they are -/

/-- A member: its key, and its value as a text or as bytes between quotes, whose value is
meant to be the bytes and some more. -/
structure Field where
  key : List UInt8
  content : (List UInt8 × Json) ⊕ (List UInt8 × List UInt8)

/-- The text of the value. -/
def Field.text (fd : Field) : List UInt8 :=
  match fd.content with
  | .inl (t, _) => t
  | .inr (f, _) => 0x22 :: f ++ [0x22]

/-- The value that is meant. -/
def Field.json (fd : Field) : Json :=
  match fd.content with
  | .inl (_, j) => j
  | .inr (f, e) => .str (f ++ e)

/-- The text of the member. -/
def Field.member (fd : Field) : List UInt8 := 0x22 :: fd.key ++ 0x22 :: 0x3A :: fd.text

/-- The key needs no escapes, and a text is one. -/
def Field.Ok (fd : Field) : Prop :=
  Clean fd.key ∧
    match fd.content with
    | .inl (t, j) => Text t j
    | .inr _ => True

/-- The bytes stand for what is meant. -/
def Field.Faithful (fd : Field) : Prop :=
  match fd.content with
  | .inl _ => True
  | .inr (f, e) => Clean f ∧ e = []

/-- The value of the first member with a key. -/
def get (j : Json) (key : List UInt8) : Option Json :=
  match j with
  | .obj ms => (ms.find? fun m => m.1 = key).map Prod.snd
  | _ => none

variable {fd : Field} {fields : List Field} {key key' : List UInt8} {ms : List (List UInt8 × Json)}

@[simp] theorem get_self : get (.obj ((key, j) :: ms)) key = some j := by simp [get]

theorem get_ne (h : key ≠ key') : get (.obj ((key, j) :: ms)) key' = get (.obj ms) key' := by simp [get, h]

theorem delim_comma (s : List UInt8) : Delim (0x2C :: s) := by
  rintro b ⟨⟩
  rfl

theorem delim_brace (s : List UInt8) : Delim (0x7D :: s) := by
  rintro b ⟨⟩
  rfl

/-- A member that stands for what is meant has a text for its value. -/
theorem Field.text_json (hok : fd.Ok) (hf : fd.Faithful) : Text fd.text fd.json := by
  obtain ⟨key, ⟨t, j⟩ | ⟨f, e⟩⟩ := fd
  · exact hok.2
  · obtain ⟨hclean, rfl⟩ := hf
    unfold Field.text Field.json
    simpa using text_clean hclean

/-- The members of an object, up to its brace. -/
theorem members_fields (hne : fields ≠ []) (hok : ∀ fd ∈ fields, fd.Ok ∧ fd.Faithful) (s : List UInt8) :
    Parses .members (joinTexts (fields.map Field.member) ++ 0x7D :: s)
      (.obj (fields.map fun fd => (fd.key, fd.json))) s := by
  induction fields with
  | nil => exact absurd rfl hne
  | cons fd fields ih =>
    obtain ⟨hfd, hf⟩ := hok fd List.mem_cons_self
    have htext := Field.text_json hfd hf
    cases fields with
    | nil =>
      obtain ⟨ws, hws, hp⟩ := htext.parses (delim_brace s)
      have hlast := Parses.memberLast (expect_self rfl _) (string_clean hfd.1 _) (expect_self rfl _) hp
        (expect_ws hws rfl s)
      simpa [joinTexts, Field.member] using hlast
    | cons fd' fields =>
      obtain ⟨ws, hws, hp⟩ := htext.parses
        (delim_comma (joinTexts ((fd' :: fields).map Field.member) ++ 0x7D :: s))
      have hrest := ih (List.cons_ne_nil _ _) fun fd h => hok fd (List.mem_cons_of_mem _ h)
      have hcons := Parses.memberCons (expect_self rfl _) (string_clean hfd.1 _) (expect_self rfl _) hp
        (expect_ws hws rfl _) hrest
      simpa [joinTexts, Field.member] using hcons

/-- The text of an object. -/
def objText (fields : List Field) : List UInt8 := 0x7B :: joinTexts (fields.map Field.member) ++ [0x7D]

theorem objText_cons (fd : Field) (fields : List Field) :
    objText (fd :: fields) = 0x7B :: (fd.member ++ (fields.flatMap fun fd => 0x2C :: fd.member) ++ [0x7D]) := by
  rw [objText, List.map_cons, joinTexts_cons, List.flatMap_map, List.cons_append]

/-- The value of an object. -/
def objJson (fields : List Field) : Json := .obj (fields.map fun fd => (fd.key, fd.json))

/-- **An object** of members that stand for what is meant. -/
theorem parses_obj (hne : fields ≠ []) (hok : ∀ fd ∈ fields, fd.Ok ∧ fd.Faithful) :
    Parses .value (objText fields) (objJson fields) [] :=
  .obj (expect_self rfl _) (members_fields hne hok [])

theorem text_obj (hne : fields ≠ []) (hok : ∀ fd ∈ fields, fd.Ok ∧ fd.Faithful) :
    Text (objText fields) (objJson fields) :=
  ⟨[], rfl, parses_obj hne hok⟩

/-- Each key has its value. -/
theorem get_field (hkeys : (fields.map Field.key).Nodup) (h : fd ∈ fields) :
    get (objJson fields) fd.key = some fd.json := by
  induction fields with
  | nil => exact absurd h List.not_mem_nil
  | cons fd' fields ih =>
    rw [List.map_cons, List.nodup_cons] at hkeys
    unfold objJson at ih ⊢
    rw [List.map_cons]
    rcases List.mem_cons.1 h with rfl | h
    · exact get_self
    · rw [get_ne, ih hkeys.2 h]
      intro heq
      exact hkeys.1 (heq ▸ List.mem_map_of_mem h)

/-- A value that starts with a quote. -/
theorem value_quote (h : Parses .value (0x22 :: s) j r) : ∃ v, j = .str v ∧ string .plain s = some (v, r) := by
  have hs : expect 0x22 (0x22 :: s) = some s := expect_self rfl s
  cases h with
  | str h hv =>
    obtain ⟨-, rfl⟩ := expect_inj h hs
    exact ⟨_, rfl, hv⟩
  | num h => exact absurd (number_expect h hs) (by decide)
  | literal h h' => exact absurd (literal_expect h h' hs) (by decide)
  | objNil h => exact absurd (expect_inj h hs).1 (by decide)
  | obj h => exact absurd (expect_inj h hs).1 (by decide)
  | arrNil h => exact absurd (expect_inj h hs).1 (by decide)
  | arr h => exact absurd (expect_inj h hs).1 (by decide)

/-- A value that starts with a brace and a quote. -/
theorem value_brace (h : Parses .value (0x7B :: 0x22 :: s) j r) : Parses .members (0x22 :: s) j r := by
  have hs : expect 0x7B (0x7B :: 0x22 :: s) = some (0x22 :: s) := expect_self rfl _
  cases h with
  | str h => exact absurd (expect_inj h hs).1 (by decide)
  | num h => exact absurd (number_expect h hs) (by decide)
  | literal h h' => exact absurd (literal_expect h h' hs) (by decide)
  | objNil h he =>
    obtain ⟨-, rfl⟩ := expect_inj h hs
    exact absurd (expect_inj he (expect_self rfl s)).1 (by decide)
  | obj h hm =>
    obtain ⟨-, rfl⟩ := expect_inj h hs
    exact hm
  | arrNil h => exact absurd (expect_inj h hs).1 (by decide)
  | arr h => exact absurd (expect_inj h hs).1 (by decide)

/-- Behind a clean key there is its value, and then the brace or more members. -/
theorem members_key (hk : Clean key) (h : Parses .members (0x22 :: key ++ 0x22 :: 0x3A :: t) j r) :
    ∃ v r' ms, Parses .value t v r' ∧ j = .obj ((key, v) :: ms) ∧
      (ms = [] ∧ expect 0x7D r' = some r ∨ ∃ s, expect 0x2C r' = some s ∧ Parses .members s (.obj ms) r) := by
  have hkey := string_clean hk (0x3A :: t)
  have hquote : expect 0x22 (0x22 :: key ++ 0x22 :: 0x3A :: t) = some (key ++ 0x22 :: 0x3A :: t) := expect_self rfl _
  have hcolon : expect 0x3A (0x3A :: t) = some t := expect_self rfl t
  cases h with
  | memberLast hq hs hc hv he =>
    rw [← (expect_inj hquote hq).2, hkey] at hs
    obtain ⟨rfl, rfl⟩ := Prod.mk.inj (Option.some.inj hs)
    rw [← (expect_inj hcolon hc).2] at hv
    exact ⟨_, _, [], hv, rfl, Or.inl ⟨rfl, he⟩⟩
  | memberCons hq hs hc hv he hm =>
    rw [← (expect_inj hquote hq).2, hkey] at hs
    obtain ⟨rfl, rfl⟩ := Prod.mk.inj (Option.some.inj hs)
    rw [← (expect_inj hcolon hc).2] at hv
    exact ⟨_, _, _, hv, rfl, Or.inr ⟨_, he, hm⟩⟩

/-- Behind a value with a text there is what was put there. -/
theorem Text.value {rest : List UInt8} (h : Text t j) (ht : Delim rest) (hv : Parses .value (t ++ rest) j' r) :
    j' = j ∧ ∃ ws, skipWs ws = [] ∧ r = ws ++ rest := by
  obtain ⟨ws, hws, hp⟩ := h.parses ht
  obtain ⟨rfl, rfl⟩ := hp.det hv
  exact ⟨rfl, ws, hws, rfl⟩

/-- **The first member.** If bytes between quotes come out as they are meant, they stand for
it, and what is behind the member is behind its value. -/
theorem Field.value {rest : List UInt8} (hok : fd.Ok) (ht : Delim rest) (hv : Parses .value (fd.text ++ rest) j r)
    (hj : ∀ f e, fd.content = .inr (f, e) → j = .str (f ++ e)) :
    fd.Faithful ∧ ∃ ws, skipWs ws = [] ∧ r = ws ++ rest := by
  obtain ⟨key, ⟨t, j'⟩ | ⟨f, e⟩⟩ := fd
  · exact ⟨trivial, (Text.value hok.2 ht hv).2⟩
  · obtain rfl := hj f e rfl
    have hv' : Parses .value (0x22 :: (f ++ 0x22 :: rest)) (.str (f ++ e)) r := by
      simpa [Field.text] using hv
    obtain ⟨v, hjv, hs⟩ := value_quote hv'
    injection hjv with hjv
    rw [← hjv] at hs
    obtain ⟨hclean, he, rfl⟩ := string_self (show StrState.plain.Ok from trivial) hs
    exact ⟨⟨hclean, he⟩, [], rfl, rfl⟩

/-- The value of the first member. -/
theorem members_first (hk : Clean fd.key)
    (h : Parses .members (joinTexts ((fd :: fields).map Field.member) ++ 0x7D :: s) j r) :
    ∃ v rest r', get j fd.key = some v ∧ Delim rest ∧ Parses .value (fd.text ++ rest) v r' := by
  cases fields with
  | nil =>
    have hm : Parses .members (0x22 :: fd.key ++ 0x22 :: 0x3A :: (fd.text ++ 0x7D :: s)) j r := by
      simpa [joinTexts, Field.member] using h
    obtain ⟨v, r', ms, hv, rfl, -⟩ := members_key hk hm
    exact ⟨v, _, r', get_self, delim_brace s, hv⟩
  | cons fd' fields =>
    have hm : Parses .members (0x22 :: fd.key ++ 0x22 :: 0x3A ::
        (fd.text ++ 0x2C :: (joinTexts ((fd' :: fields).map Field.member) ++ 0x7D :: s))) j r := by
      simpa [joinTexts, Field.member] using h
    obtain ⟨v, r', ms, hv, rfl, -⟩ := members_key hk hm
    exact ⟨v, _, r', get_self, delim_comma _, hv⟩

/-- The members behind the first one, if its value ends where it should. -/
theorem members_rest {fd' : Field} (hok : fd.Ok)
    (h : Parses .members (joinTexts ((fd :: fd' :: fields).map Field.member) ++ 0x7D :: s) j r)
    (hj : ∀ f e, fd.content = .inr (f, e) → get j fd.key = some (.str (f ++ e))) :
    ∃ v ms, j = .obj ((fd.key, v) :: ms) ∧
      Parses .members (joinTexts ((fd' :: fields).map Field.member) ++ 0x7D :: s) (.obj ms) r := by
  have hm : Parses .members (0x22 :: fd.key ++ 0x22 :: 0x3A ::
      (fd.text ++ 0x2C :: (joinTexts ((fd' :: fields).map Field.member) ++ 0x7D :: s))) j r := by
    simpa [joinTexts, Field.member] using h
  obtain ⟨v, r', ms, hv, rfl, hend⟩ := members_key hok.1 hm
  obtain ⟨-, ws, hws, rfl⟩ := Field.value hok (delim_comma _) hv fun f e hc =>
    Option.some.inj (get_self.symm.trans (hj f e hc))
  -- a comma is next, so there are more members
  rcases hend with ⟨-, hend⟩ | ⟨s', hs', hms⟩
  · exact absurd (expect_inj hend (expect_ws hws rfl _)).1 (by decide)
  obtain ⟨-, rfl⟩ := expect_inj hs' (expect_ws hws rfl _)
  exact ⟨v, ms, rfl, hms⟩

/-- **Bytes that come out as they are meant**: if members are read, and each key has the
bytes that were put in as its value, then these are clean. -/
theorem fields_faithful (hok : ∀ fd ∈ fields, fd.Ok) (hkeys : (fields.map Field.key).Nodup)
    (h : Parses .members (joinTexts (fields.map Field.member) ++ 0x7D :: s) j r)
    (hget : ∀ fd ∈ fields, ∀ f e, fd.content = .inr (f, e) → get j fd.key = some (.str (f ++ e))) :
    ∀ fd ∈ fields, fd.Faithful := by
  induction fields generalizing j with
  | nil => exact fun fd hfd => absurd hfd List.not_mem_nil
  | cons fd fields ih =>
    have hfd := hok fd List.mem_cons_self
    have hfdget := hget fd List.mem_cons_self
    have hfirst : fd.Faithful := by
      obtain ⟨v, rest, r', hv, hrest, hp⟩ := members_first hfd.1 h
      exact (Field.value hfd hrest hp fun f e hc => Option.some.inj (hv.symm.trans (hfdget f e hc))).1
    refine List.forall_mem_cons.2 ⟨hfirst, ?_⟩
    cases fields with
    | nil => exact fun fd hfd => absurd hfd List.not_mem_nil
    | cons fd' fields =>
      obtain ⟨v, ms, rfl, hms⟩ := members_rest hfd h hfdget
      rw [List.map_cons, List.nodup_cons] at hkeys
      refine ih (fun fd h => hok fd (List.mem_cons_of_mem _ h)) hkeys.2 hms fun fd₂ hfd₂ f e hc => ?_
      rw [← hget fd₂ (List.mem_cons_of_mem _ hfd₂) f e hc, get_ne]
      intro heq
      exact hkeys.1 (heq ▸ List.mem_map_of_mem hfd₂)

/-- The members of an object. -/
theorem obj_members (h : Parses .value (objText (fd :: fields) ++ rest) j r) :
    Parses .members (joinTexts ((fd :: fields).map Field.member) ++ 0x7D :: rest) j r := by
  have hobj : objText (fd :: fields) ++ rest =
      0x7B :: (joinTexts ((fd :: fields).map Field.member) ++ 0x7D :: rest) := by
    simp [objText]
  obtain ⟨s', hs'⟩ : ∃ s', joinTexts ((fd :: fields).map Field.member) = 0x22 :: s' := by
    rw [List.map_cons, joinTexts_cons]
    exact ⟨_, rfl⟩
  rw [hobj, hs'] at h
  rw [hs']
  exact value_brace h

end JsonText
