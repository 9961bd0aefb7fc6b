import Mathlib.Tactic
import InmarsatSniffer.Lib.Loop

/-!
# Strings that end with a NUL

A `CString` is memory with a NUL in it and no other before it; a pointer into it is an
index. What lies behind the NUL is arbitrary.

* `first?`: the first index in a range with a property.
* `CString.span`, `CString.strstr`: where a run of characters ends, where a text occurs.
* `scanWhile`: the loop that runs over characters, reading them one by one.
-/

/-- A string that ends with a NUL. -/
structure CString where
  mem : ℕ → UInt8
  len : ℕ
  nul : mem len = 0
  noNul : ∀ i < len, mem i ≠ 0

namespace CString

/-! ## The first index -/

/-- The first index from `a` on and below `b` with the property `q`. -/
def first? (q : ℕ → Bool) (a b : ℕ) : Option ℕ := (List.range' a (b - a)).find? q

section First

variable {q q' : ℕ → Bool} {a b i : ℕ}

theorem first?_of_le (h : b ≤ a) : first? q a b = none := by
  rw [first?, Nat.sub_eq_zero_of_le h]
  rfl

theorem first?_step (h : a < b) : first? q a b = if q a then some a else first? q (a + 1) b := by
  have hlen : b - a = (b - (a + 1)) + 1 := by omega
  rw [first?, hlen, List.range'_succ, List.find?_cons, first?]
  cases q a <;> rfl

theorem first?_eq_some : first? q a b = some i ↔ a ≤ i ∧ i < b ∧ q i = true ∧ ∀ j, a ≤ j → j < i → q j = false := by
  induction hk : b - a generalizing a with
  | zero =>
    rw [first?_of_le (by omega)]
    exact iff_of_false (by simp) fun h => by omega
  | succ k ih =>
    rw [first?_step (by omega)]
    by_cases ha : q a = true
    · rw [if_pos ha, Option.some.injEq]
      constructor
      · rintro rfl
        exact ⟨le_rfl, by omega, ha, fun j h1 h2 => by omega⟩
      · rintro ⟨h1, -, -, hmin⟩
        by_contra hne
        exact absurd (hmin a le_rfl (by omega)) (by rw [ha]; exact Bool.noConfusion)
    · rw [if_neg ha, ih (by omega)]
      constructor
      · rintro ⟨h1, h2, h3, hmin⟩
        refine ⟨by omega, h2, h3, fun j hj hji => ?_⟩
        rcases Nat.eq_or_lt_of_le hj with rfl | hlt
        · exact Bool.eq_false_iff.2 ha
        · exact hmin j hlt hji
      · rintro ⟨h1, h2, h3, hmin⟩
        refine ⟨?_, h2, h3, fun j hj hji => hmin j (by omega) hji⟩
        rcases Nat.eq_or_lt_of_le h1 with rfl | hlt
        · exact absurd h3 ha
        · exact hlt

theorem first?_eq_none : first? q a b = none ↔ ∀ i, a ≤ i → i < b → q i = false := by
  unfold first?
  rw [List.find?_eq_none]
  constructor
  · intro h i h1 h2
    exact Bool.eq_false_iff.2 (h i (List.mem_range'_1.2 ⟨h1, by omega⟩))
  · intro h i hi
    obtain ⟨h1, h2⟩ := List.mem_range'_1.1 hi
    exact Bool.eq_false_iff.1 (h i h1 (by omega))

theorem first?_isLeast : first? q 0 b = some i ↔ IsLeast {i | i < b ∧ q i = true} i := by
  rw [first?_eq_some]
  constructor
  · rintro ⟨-, h2, h3, hmin⟩
    refine ⟨⟨h2, h3⟩, fun j hj => ?_⟩
    by_contra hlt
    exact absurd hj.2 (by rw [hmin j (Nat.zero_le j) (not_le.1 hlt)]; exact Bool.false_ne_true)
  · rintro ⟨⟨h2, h3⟩, hmin⟩
    refine ⟨Nat.zero_le i, h2, h3, fun j _ hji => Bool.eq_false_iff.2 fun hj => ?_⟩
    exact absurd (hmin ⟨hji.trans h2, hj⟩) (not_le.2 hji)

/-- Indices without the property may be left out at the start. -/
theorem first?_skip {c : ℕ} (hac : a ≤ c) (h : ∀ i, a ≤ i → i < c → i < b → q i = false) :
    first? q a b = first? q c b := by
  cases hc : first? q c b with
  | none =>
    rw [first?_eq_none] at hc ⊢
    intro i h1 h2
    rcases Nat.lt_or_ge i c with hi | hi
    · exact h i h1 hi h2
    · exact hc i hi h2
  | some i =>
    rw [first?_eq_some] at hc ⊢
    obtain ⟨h1, h2, h3, hmin⟩ := hc
    refine ⟨by omega, h2, h3, fun j hj hji => ?_⟩
    rcases Nat.lt_or_ge j c with hjc | hjc
    · exact h j hj hjc (by omega)
    · exact hmin j hjc hji

theorem first?_congr (h : ∀ i, a ≤ i → i < b → q i = q' i) : first? q a b = first? q' a b := by
  unfold first?
  apply List.find?_congr
  intro i hi
  obtain ⟨h1, h2⟩ := List.mem_range'_1.1 hi
  exact h i h1 (by omega)

end First

/-! ## Strings -/

/-- The code of an ASCII character. -/
def chr (c : Char) : UInt8 := c.toNat.toUInt8

/-- `isdigit`. -/
def isDigit (c : UInt8) : Bool := chr '0' ≤ c && c ≤ chr '9'

/-- An upper case letter. -/
def isUpper (c : UInt8) : Bool := chr 'A' ≤ c && c ≤ chr 'Z'

/-- The text stands at an index. -/
def matchesAt (mem : ℕ → UInt8) (i : ℕ) : List Char → Bool
  | [] => true
  | c :: cs => mem i == chr c && matchesAt mem (i + 1) cs

/-- The value of `n` digits from `p` on. -/
def number (mem : ℕ → UInt8) (p : ℕ) : ℕ → ℕ
  | 0 => 0
  | n + 1 => number mem p n * 10 + ((mem (p + n)).toNat - 48)

/-- `n` characters from `p` on have `q`. -/
def allAt (q : UInt8 → Bool) (mem : ℕ → UInt8) (p n : ℕ) : Bool := (List.range n).all fun k => q (mem (p + k))

/-- The characters from `p` on. -/
def charsAt (mem : ℕ → UInt8) (p n : ℕ) : List UInt8 := (List.range n).map fun k => mem (p + k)

/-- `*p` -/
def readChar (mem : ℕ → UInt8) (p : ℕ) : Logged.Fueled ℕ UInt8 := Logged.access p (mem p)

/-- `while (q(*p)) p++;` -/
def scanWhile (q : UInt8 → Bool) (mem : ℕ → UInt8) (fuel p : ℕ) : Logged.Fueled ℕ ℕ :=
  Logged.loop (fun p => do
    let c ← readChar mem p
    pure (if q c then .inl (p + 1) else .inr p)) fuel p

/-- The test of `n` characters one by one; the first without `q` ends it. -/
def areAll (q : UInt8 → Bool) (mem : ℕ → UInt8) : ℕ → ℕ → Logged.Fueled ℕ Bool
  | 0, _ => pure true
  | n + 1, p => do
    let c ← readChar mem p
    if q c then areAll q mem n (p + 1) else pure false

/-- `memcpy` of `n` characters. -/
def readChars (mem : ℕ → UInt8) : ℕ → ℕ → Logged.Fueled ℕ (List UInt8)
  | 0, _ => pure []
  | n + 1, p => do
    let c ← readChar mem p
    let cs ← readChars mem n (p + 1)
    pure (c :: cs)

/-- The value of `n` digits, read one by one. -/
def readNumber (mem : ℕ → UInt8) (p : ℕ) : ℕ → Logged.Fueled ℕ ℕ
  | 0 => pure 0
  | n + 1 => do
    let v ← readNumber mem p n
    let c ← readChar mem (p + n)
    pure (v * 10 + (c.toNat - 48))

section Strings

instance : CoeFun CString fun _ => ℕ → UInt8 := ⟨CString.mem⟩

variable (t : CString)

/-- Where the run of characters with `q` from `p` on ends. -/
def span (q : UInt8 → Bool) (p : ℕ) : ℕ := (first? (fun i => !q (t i)) p t.len).getD t.len

/-- `strstr` from `p` on. -/
def strstr (p : ℕ) (needle : List Char) : Option ℕ := first? (matchesAt t · needle) p t.len

variable {t} {q : UInt8 → Bool} {p i : ℕ}

theorem lt_len (hi : i ≤ t.len) (h : t i ≠ 0) : i < t.len := by
  rcases Nat.lt_or_eq_of_le hi with hlt | rfl
  · exact hlt
  · exact absurd t.nul h

/-- What holds of a character but not of NUL holds inside of the string. -/
theorem lt_len_of (hq : q 0 = false) (hi : i ≤ t.len) (h : q (t i) = true) : i < t.len :=
  lt_len hi fun h0 => by rw [h0, hq] at h; exact Bool.false_ne_true h

theorem span_of_true (hp : p < t.len) (h : q (t p) = true) : t.span q p = t.span q (p + 1) := by
  rw [span, first?_step hp, h]
  rfl

theorem span_of_false (hp : p ≤ t.len) (h : q (t p) = false) : t.span q p = p := by
  rcases Nat.lt_or_eq_of_le hp with hlt | rfl
  · rw [span, first?_step hlt, h]
    rfl
  · rw [span, first?_of_le le_rfl]
    rfl

/-- **The run**: it ends in the string, all of it has `q`, and what is behind it has not. -/
theorem span_spec (hp : p ≤ t.len) (hq : q 0 = false) :
    p ≤ t.span q p ∧ t.span q p ≤ t.len ∧ (∀ i, p ≤ i → i < t.span q p → q (t i) = true) ∧
      q (t (t.span q p)) = false := by
  unfold span
  cases h : first? (fun i => !q (t i)) p t.len with
  | none =>
    rw [first?_eq_none] at h
    refine ⟨hp, le_rfl, fun i h1 h2 => ?_, ?_⟩
    · simpa using h i h1 h2
    · rw [Option.getD_none, t.nul, hq]
  | some e =>
    obtain ⟨h1, h2, h3, hmin⟩ := first?_eq_some.1 h
    refine ⟨h1, h2.le, fun i hi hie => ?_, ?_⟩
    · simpa using hmin i hi hie
    · simpa using h3

/-- A run is known by its end. -/
theorem span_eq {e : ℕ} (hq : q 0 = false) (hp : p ≤ e) (he : e ≤ t.len) (hall : ∀ i, p ≤ i → i < e → q (t i) = true)
    (hend : q (t e) = false) : t.span q p = e := by
  obtain ⟨h1, h2, h3, h4⟩ := span_spec (hp.trans he) hq
  rcases Nat.lt_trichotomy (t.span q p) e with hlt | heq | hgt
  · exact absurd (hall _ h1 hlt) (by rw [h4]; exact Bool.false_ne_true)
  · exact heq
  · exact absurd (h3 e hp hgt) (by rw [hend]; exact Bool.false_ne_true)

theorem returns_readChar (hp : p ≤ t.len) : Logged.Returns (· ≤ t.len) (readChar t p) (t p) :=
  Logged.Returns.access (· ≤ t.len) hp _

/-- **The loop over a run** ends at its end, and reads only the string. -/
theorem returns_scanWhile (hq : q 0 = false) {fuel : ℕ} (hp : p ≤ t.len) (hfuel : t.len - p < fuel) :
    Logged.Returns (· ≤ t.len) (scanWhile q t fuel p) (t.span q p) := by
  refine Logged.Returns.loop (· ≤ t.len) (t.len - ·) (t.span q) (fun p hp => ?_) hp hfuel
  cases h : q (t p) with
  | false =>
    refine Or.inl ((returns_readChar hp).bind ?_)
    rw [h, span_of_false hp h]
    exact Logged.Returns.pure _
  | true =>
    have hlt := lt_len_of hq hp h
    refine Or.inr ⟨p + 1, (returns_readChar hp).bind ?_, hlt, by omega, (span_of_true hlt h).symm⟩
    rw [h]
    exact Logged.Returns.pure _

end Strings

/-! ## Texts and numbers -/

section Texts

variable {mem : ℕ → UInt8} {i p n : ℕ}

theorem allAt_iff {q : UInt8 → Bool} : allAt q mem p n = true ↔ ∀ k < n, q (mem (p + k)) = true := by
  rw [allAt, List.all_eq_true]
  exact forall_congr' fun k => by rw [List.mem_range]

theorem allAt_succ {q : UInt8 → Bool} : allAt q mem p (n + 1) = (q (mem p) && allAt q mem (p + 1) n) := by
  rw [Bool.eq_iff_iff, Bool.and_eq_true, allAt_iff, allAt_iff]
  constructor
  · intro h
    refine ⟨h 0 (Nat.zero_lt_succ n), fun k hk => ?_⟩
    have := h (k + 1) (Nat.succ_lt_succ hk)
    rwa [show p + (k + 1) = p + 1 + k by omega] at this
  · rintro ⟨h0, hrest⟩ k hk
    cases k with
    | zero => exact h0
    | succ k =>
      have := hrest k (Nat.lt_of_succ_lt_succ hk)
      rwa [show p + 1 + k = p + (k + 1) by omega] at this

theorem charsAt_succ : charsAt mem p (n + 1) = mem p :: charsAt mem (p + 1) n := by
  unfold charsAt
  rw [List.range_succ_eq_map, List.map_cons, List.map_map]
  congr 1
  apply List.map_congr_left
  intro k _
  rw [Function.comp_apply, Nat.succ_eq_add_one, show p + (k + 1) = p + 1 + k by omega]

/-- A text stands at an index character by character. -/
theorem matchesAt_iff {needle : List Char} :
    matchesAt mem i needle = true ↔ ∀ k (hk : k < needle.length), mem (i + k) = chr needle[k] := by
  induction needle generalizing i with
  | nil => exact iff_of_true rfl fun k hk => absurd hk (Nat.not_lt_zero _)
  | cons c cs ih =>
    rw [matchesAt, Bool.and_eq_true, beq_iff_eq, ih]
    constructor
    · rintro ⟨h0, hrest⟩ k hk
      cases k with
      | zero => exact h0
      | succ k =>
        rw [show i + (k + 1) = i + 1 + k by omega]
        exact hrest k (Nat.lt_of_succ_lt_succ hk)
    · intro h
      refine ⟨h 0 (Nat.zero_lt_succ _), fun k hk => ?_⟩
      have := h (k + 1) (Nat.succ_lt_succ hk)
      rwa [show i + (k + 1) = i + 1 + k by omega] at this

theorem number_lt (hd : ∀ k < n, isDigit (mem (p + k)) = true) : number mem p n < 10 ^ n := by
  induction n with
  | zero => exact Nat.one_pos
  | succ n ih =>
    have hle := ih fun k hk => hd k (Nat.lt_succ_of_lt hk)
    have hdigit := hd n (Nat.lt_succ_self n)
    have h9 : (mem (p + n)).toNat ≤ 57 := by
      rw [isDigit, Bool.and_eq_true, decide_eq_true_eq, decide_eq_true_eq] at hdigit
      exact hdigit.2
    rw [number, pow_succ]
    omega

end Texts

/-! ## Reading a string -/

section Reads

variable {t : CString} {q : UInt8 → Bool} {p n : ℕ}

/-- Characters that are no NUL lie inside of the string, if they start there. -/
theorem add_le_len (hq : q 0 = false) (hp : p ≤ t.len) (h : ∀ k < n, q (t (p + k)) = true) : p + n ≤ t.len := by
  induction n with
  | zero => exact hp
  | succ n ih => exact lt_len_of hq (ih fun k hk => h k (Nat.lt_succ_of_lt hk)) (h n (Nat.lt_succ_self n))

/-- The length of a run. -/
theorem span_sub_iff (hq : q 0 = false) (hp : p ≤ t.len) :
    t.span q p - p = n ↔ (∀ k < n, q (t (p + k)) = true) ∧ q (t (p + n)) = false := by
  obtain ⟨h1, h2, h3, h4⟩ := span_spec hp hq
  constructor
  · rintro rfl
    refine ⟨fun k hk => h3 _ (Nat.le_add_right p k) (by omega), ?_⟩
    rwa [Nat.add_sub_cancel' h1]
  · rintro ⟨hall, hend⟩
    have hle := add_le_len hq hp hall
    rw [span_eq hq (Nat.le_add_right p n) hle (fun i hi hin => ?_) hend, Nat.add_sub_cancel_left]
    have := hall (i - p) (by omega)
    rwa [Nat.add_sub_cancel' hi] at this

/-- A test of characters ends inside of the string. -/
theorem returns_areAll (hq : q 0 = false) (hp : p ≤ t.len) :
    Logged.Returns (· ≤ t.len) (areAll q t n p) (allAt q t p n) := by
  induction n generalizing p with
  | zero => exact Logged.Returns.pure _
  | succ n ih =>
    refine (returns_readChar hp).bind ?_
    rw [allAt_succ]
    cases h : q (t p) with
    | false => exact Logged.Returns.pure _
    | true => exact ih (lt_len_of hq hp h)

theorem returns_readChars (h : p + n ≤ t.len + 1) : Logged.Returns (· ≤ t.len) (readChars t n p) (charsAt t p n) := by
  induction n generalizing p with
  | zero => exact Logged.Returns.pure _
  | succ n ih =>
    rw [charsAt_succ]
    exact (returns_readChar (by omega)).bind ((ih (by omega)).bind (Logged.Returns.pure _))

/-- A number is read digit by digit. -/
theorem returns_readNumber (h : p + n ≤ t.len + 1) : Logged.Returns (· ≤ t.len) (readNumber t p n) (number t p n) := by
  induction n with
  | zero => exact Logged.Returns.pure _
  | succ n ih =>
    refine (ih (by omega)).bind ((returns_readChar (by omega)).bind ?_)
    exact Logged.Returns.pure _

end Reads

/-! ## Given texts -/

/-- The string of the characters in a list, with NULs behind them. -/
def ofList (l : List UInt8) (h : l.all (· != 0) = true) : CString where
  mem i := l.getD i 0
  len := l.length
  nul := by rw [List.getD_eq_getElem?_getD, List.getElem?_eq_none le_rfl, Option.getD_none]
  noNul i hi := by
    rw [List.getD_eq_getElem?_getD, List.getElem?_eq_getElem hi, Option.getD_some]
    exact bne_iff_ne.1 (List.all_eq_true.1 h _ (List.getElem_mem hi))

/-- The codes of the characters of a text. -/
def chars (s : String) : List UInt8 := s.toList.map chr

end CString
