import Mathlib
import InmarsatSniffer.Spec.Waypoints
import InmarsatSniffer.Proof.OnGlobe

/-!
# What a flight plan teaches

`fpn_exact`: `learned_wp_parse_fpn` learns exactly the waypoints of the text, in their order,
and the cache has each ident once, with the coordinates that came first.

* `waypointAt`, `waypoints`: the waypoints of a text, comma by comma.
* `returns_parseFpn`: the parser finds them, and reads only the text.
* `Cached`: the cache against all waypoints learned so far.
-/

namespace InmarsatSniffer.AcarsText

open CString Rounding
open Logged (Returns)

variable {fl : Rounding} {text : CString} {fuel s p n i a : ℕ} {st : Learned} {mem : ℕ → UInt8}

/-! ## The waypoints of a text -/

/-- The start of the maximal run of upper case letters before an index. -/
def runStart (mem : ℕ → UInt8) : ℕ → ℕ
  | 0 => 0
  | i + 1 => if isUpper (mem i) then runStart mem i else i + 1

/-- `[NS]DDmmm[EW]DDDmmm` at an index, with minutes below 60 and degrees in range. -/
def pairGood (mem : ℕ → UInt8) (a : ℕ) : Prop :=
  isLatDir (mem a) = true ∧ digitsAt mem (a + 1) 5 = true ∧ isLonDir (mem (a + 6)) = true ∧
    digitsAt mem (a + 7) 6 = true ∧ number mem (a + 3) 3 < 600 ∧ number mem (a + 10) 3 < 600 ∧
    number mem (a + 1) 2 * 600 + number mem (a + 3) 3 ≤ 90 * 600 ∧
    number mem (a + 7) 3 * 600 + number mem (a + 10) 3 ≤ 180 * 600

instance (mem : ℕ → UInt8) (a : ℕ) : Decidable (pairGood mem a) :=
  inferInstanceAs (Decidable (_ ∧ _ ∧ _ ∧ _ ∧ _ ∧ _ ∧ _ ∧ _))

/-- Both coordinates at an index are zero. -/
def pairZero (mem : ℕ → UInt8) (a : ℕ) : Prop :=
  number mem (a + 1) 2 = 0 ∧ number mem (a + 3) 3 = 0 ∧ number mem (a + 7) 3 = 0 ∧ number mem (a + 10) 3 = 0

instance (mem : ℕ → UInt8) (a : ℕ) : Decidable (pairZero mem a) := inferInstanceAs (Decidable (_ ∧ _ ∧ _ ∧ _))

/-- **The waypoint at a comma**: two to five letters before it, and coordinates behind it
that are not (0,0). -/
def waypointAt (fl : Rounding) (mem : ℕ → UInt8) (i : ℕ) : Option (List UInt8 × Coord) :=
  if mem i = chr ',' ∧ (2 ≤ i - runStart mem i ∧ i - runStart mem i ≤ 5) ∧ pairGood mem (i + 1) ∧ ¬pairZero mem (i + 1) then
    some (charsAt mem (runStart mem i) (i - runStart mem i), compactValue fl mem (i + 1))
  else none

/-- **The waypoints of a text**, in the order of their commas. -/
def waypoints (fl : Rounding) (text : CString) : List (List UInt8 × Coord) :=
  (List.range text.len).filterMap (waypointAt fl text)

/-- Those whose comma stands from `p` on. -/
def waypointsFrom (fl : Rounding) (text : CString) (p : ℕ) : List (List UInt8 × Coord) :=
  (List.range' p (text.len - p)).filterMap (waypointAt fl text)

/-- A cache that learns waypoints. -/
def Learned.teach (st : Learned) (ws : List (List UInt8 × Coord)) : Learned :=
  let st := ws.foldl (fun st w => st.add w.1 w.2) st
  if ws.length > 0 then { st with fpnParsed := st.fpnParsed + 1 } else st

/-! ## The parts of the parser -/

/-- The comma that is found is the first one. -/
theorem returns_findComma (hp : p ≤ text.len) (hfuel : text.len < fuel) :
    Returns (· ≤ text.len) (findComma text fuel p) (first? (fun i => text i == chr ',') p text.len) := by
  have hzero : (fun c : UInt8 => c != 0 && c != chr ',') 0 = false := by decide
  obtain ⟨h1, h2, h3, h4⟩ := CString.span_spec (q := fun c => c != 0 && c != chr ',') hp hzero
  refine (CString.returns_scanWhile hzero hp (by omega)).bind ((CString.returns_readChar h2).bind ?_)
  generalize text.span (fun c => c != 0 && c != chr ',') p = q at h1 h2 h3 h4 ⊢
  have hbefore : ∀ i, p ≤ i → i < q → (text i == chr ',') = false := fun i hi hiq => by
    have := h3 i hi hiq
    rw [Bool.and_eq_true] at this
    simpa using this.2
  by_cases hend : text q = 0
  · have hlen : q = text.len := by
      by_contra hne
      exact text.noNul q (by omega) hend
    rw [if_pos hend, first?_eq_none.2 fun i hi hil => hbefore i hi (by omega)]
    exact Returns.pure _
  · have hcomma : (text q == chr ',') = true := by
      by_contra hne
      rw [Bool.not_eq_true] at hne
      rw [Bool.and_eq_false_iff] at h4
      rcases h4 with h4 | h4
      · exact hend (by simpa using h4)
      · rw [beq_eq_false_iff_ne] at hne
        exact hne (by simpa using h4)
    rw [if_neg hend, first?_eq_some.2 ⟨h1, CString.lt_len h2 hend, hcomma, hbefore⟩]
    exact Returns.pure _

/-- A run of letters starts behind what is no letter. -/
theorem le_runStart (hp : p = 0 ∨ isUpper (mem (p - 1)) = false) (h : p ≤ i) : p ≤ runStart mem i := by
  induction i with
  | zero => exact h
  | succ i ih =>
    rw [runStart]
    split
    · next hup =>
      rcases Nat.eq_or_lt_of_le h with rfl | hlt
      · rcases hp with h0 | hno
        · exact absurd h0 (Nat.succ_ne_zero i)
        · exact absurd hup (by rw [Nat.add_sub_cancel] at hno; rw [hno]; exact Bool.false_ne_true)
      · exact ih (Nat.le_of_lt_succ hlt)
    · exact h

theorem runStart_le (mem : ℕ → UInt8) (i : ℕ) : runStart mem i ≤ i := by
  induction i with
  | zero => exact le_rfl
  | succ i ih =>
    rw [runStart]
    split
    · exact ih.trans (Nat.le_succ i)
    · exact le_rfl

/-- The loop back over the letters stops at the start of their run, or at its bound. -/
theorem returns_nameStart (hp : p ≤ i) (hi : i ≤ text.len) (hfuel : text.len < fuel) :
    Returns (· ≤ text.len) (nameStart text fuel p i) (max p (runStart text i)) := by
  refine Returns.loop (fun n => p ≤ n ∧ n ≤ text.len) id (fun n => max p (runStart text n)) (fun n hn => ?_) ⟨hp, hi⟩
    (lt_of_le_of_lt hi hfuel)
  obtain ⟨hpn, hnl⟩ := hn
  by_cases hlt : p < n
  · obtain ⟨m, rfl⟩ : ∃ m, n = m + 1 := ⟨n - 1, by omega⟩
    have hread : Returns (· ≤ text.len) (readChar text (m + 1 - 1)) (text m) := CString.returns_readChar (by omega)
    cases hup : isUpper (text m) with
    | true =>
      refine Or.inr ⟨m, ?_, ⟨by omega, by omega⟩, Nat.lt_succ_self m, ?_⟩
      · rw [if_pos hlt]
        refine hread.bind ?_
        rw [hup]
        exact Returns.pure _
      · rw [runStart, hup]
        rfl
    | false =>
      refine Or.inl ?_
      have hself : max p (runStart text (m + 1)) = m + 1 := by
        rw [runStart, hup]
        exact max_eq_right hpn
      rw [if_pos hlt, hself]
      refine hread.bind ?_
      rw [hup]
      exact Returns.pure _
  · refine Or.inl ?_
    have hself : max p (runStart text n) = n := by
      have := runStart_le text n
      omega
    rw [if_neg hlt, hself]
    exact Returns.pure _

/-! ## Coordinates -/

/-- The limit of degrees and minutes, as it is tested, is that of the tenths of minutes. -/
theorem degMin_le_tenths (fl : Rounding) {deg min10 limit : ℕ} (hdeg : deg ≤ 1000) (hlimit : limit ≤ 1000)
    (hmin : min10 < 600) : degMin fl deg min10 ≤ limit ↔ deg * 600 + min10 ≤ limit * 600 := by
  rw [degMin_le_iff fl hdeg limit hmin hlimit]
  omega

/-- The width of the degrees. -/
def degDigits (lonWidth : Bool) : ℕ := if lonWidth then 3 else 2

/-- The limit of the degrees. -/
def degLimit (lonWidth : Bool) : ℕ := if lonWidth then 180 else 90

/-- What `parse_dm_coord` accepts behind a direction. -/
def dmGood (mem : ℕ → UInt8) (s : ℕ) (lonWidth : Bool) : Prop :=
  digitsAt mem (s + 1) (degDigits lonWidth + 3) = true ∧ number mem (s + 1 + degDigits lonWidth) 3 < 600 ∧
    number mem (s + 1) (degDigits lonWidth) * 600 + number mem (s + 1 + degDigits lonWidth) 3 ≤ degLimit lonWidth * 600

instance (mem : ℕ → UInt8) (s : ℕ) (lonWidth : Bool) : Decidable (dmGood mem s lonWidth) :=
  inferInstanceAs (Decidable (_ ∧ _ ∧ _))

/-- What it returns. -/
def dmValue (fl : Rounding) (mem : ℕ → UInt8) (s : ℕ) (lonWidth : Bool) : ℚ :=
  let v := degMin fl (number mem (s + 1) (degDigits lonWidth)) (number mem (s + 1 + degDigits lonWidth) 3)
  if mem s = chr 'S' ∨ mem s = chr 'W' then -v else v

/-- **`parse_dm_coord`**, at a direction. -/
theorem returns_parseDmCoord (lonWidth : Bool) (hs : s ≤ text.len) (hdir : (isLatDir (text s) || isLonDir (text s)) = true) :
    Returns (· ≤ text.len) (parseDmCoord fl text s lonWidth)
      (if dmGood text s lonWidth then some (dmValue fl text s lonWidth) else none) := by
  have hlt : s < text.len := by
    refine CString.lt_len hs fun h0 => ?_
    rw [h0] at hdir
    exact absurd hdir (by decide)
  unfold parseDmCoord
  refine (CString.returns_readChar hs).bind ?_
  rw [if_neg (by rw [hdir]; decide)]
  refine (CString.returns_areAll isDigit_zero hlt).bind ?_
  change Returns _ (if (!digitsAt text (s + 1) (degDigits lonWidth + 3)) = true then _ else _) _
  refine Returns.ite (fun hno => ?_) fun hdigits => ?_
  · rw [if_neg fun h => by rw [h.1] at hno; exact absurd hno (by decide)]
    exact Returns.pure _
  rw [Bool.not_eq_true, Bool.not_eq_false'] at hdigits
  have hall := allAt_iff.1 hdigits
  have hle := CString.add_le_len isDigit_zero (show s + 1 ≤ text.len from hlt) hall
  have hdeg : number text (s + 1) (degDigits lonWidth) ≤ 1000 := by
    have hnum := number_lt fun k hk => hall k (Nat.lt_add_right 3 hk)
    have hpow : 10 ^ degDigits lonWidth ≤ 1000 := by cases lonWidth <;> decide
    omega
  refine (CString.returns_readNumber (show s + 1 + degDigits lonWidth ≤ text.len + 1 by omega)).bind ?_
  refine (CString.returns_readNumber (show s + 1 + degDigits lonWidth + 3 ≤ text.len + 1 by omega)).bind ?_
  refine Returns.ite (fun hmin => ?_) fun hmin => ?_
  · rw [if_neg fun h => absurd h.2.1 (not_lt.2 hmin)]
    exact Returns.pure _
  rw [ge_iff_le, not_le] at hmin
  have hlimit := degMin_le_tenths fl hdeg (show degLimit lonWidth ≤ 1000 by cases lonWidth <;> decide) hmin
  by_cases hrange : number text (s + 1) (degDigits lonWidth) * 600 + number text (s + 1 + degDigits lonWidth) 3 ≤
      degLimit lonWidth * 600
  · have hval := hlimit.2 hrange
    rw [if_pos (show dmGood text s lonWidth from ⟨hdigits, hmin, hrange⟩)]
    cases lonWidth with
    | true =>
      rw [if_neg fun h => absurd hval (not_le.2 h.2), if_neg fun h => absurd h.1 (by decide)]
      exact Returns.pure _
    | false =>
      rw [if_neg fun h => absurd h.1 (by decide), if_neg fun h => absurd hval (not_le.2 h.2)]
      exact Returns.pure _
  · have hval := not_le.1 (mt hlimit.1 hrange)
    rw [if_neg (show ¬dmGood text s lonWidth from fun h => hrange h.2.2)]
    cases lonWidth with
    | true =>
      rw [if_pos ⟨rfl, hval⟩]
      exact Returns.pure _
    | false =>
      rw [if_neg fun h => absurd h.1 (by decide), if_pos ⟨rfl, hval⟩]
      exact Returns.pure _

theorem isLatDir_not_west {c : UInt8} (h : isLatDir c = true) : c ≠ chr 'W' := by
  rintro rfl
  exact absurd h (by decide)

theorem isLonDir_not_south {c : UInt8} (h : isLonDir c = true) : c ≠ chr 'S' := by
  rintro rfl
  exact absurd h (by decide)

/-- A pair is good when its two coordinates are. -/
theorem pairGood_iff : pairGood mem a ↔ isLatDir (mem a) = true ∧ dmGood mem a false ∧ isLonDir (mem (a + 6)) = true ∧
    dmGood mem (a + 6) true := by
  unfold pairGood dmGood degDigits degLimit
  constructor
  · rintro ⟨h1, h2, h3, h4, h5, h6, h7, h8⟩
    exact ⟨h1, ⟨h2, h5, h7⟩, h3, h4, h6, h8⟩
  · rintro ⟨h1, ⟨h2, h5, h7⟩, h3, h4, h6, h8⟩
    exact ⟨h1, h2, h3, h4, h5, h6, h7, h8⟩

/-- **The coordinates behind a comma.** -/
theorem returns_parsePair (fl : Rounding) (ha : a ≤ text.len) : Returns (· ≤ text.len) (parsePair fl text a)
    (if pairGood text a then some (compactValue fl text a) else none) := by
  have hnone : ¬pairGood text a →
      Returns (· ≤ text.len) (pure none) (if pairGood text a then some (compactValue fl text a) else none) := fun h => by
    rw [if_neg h]
    exact Returns.pure _
  unfold parsePair
  refine (CString.returns_readChar ha).bind ?_
  refine Returns.ite (fun hno => hnone fun h => ?_) fun hlat => ?_
  · rw [h.1] at hno
    exact absurd hno (by decide)
  rw [Bool.not_eq_true, Bool.not_eq_false'] at hlat
  refine (returns_parseDmCoord false ha (by rw [hlat]; rfl)).bind ?_
  by_cases hgood : dmGood text a false
  · rw [if_pos hgood]
    dsimp only
    have hlt : a < text.len := CString.lt_len ha (isLatDir_ne_zero hlat)
    have hle : a + 6 ≤ text.len := CString.add_le_len (n := 5) isDigit_zero (show a + 1 ≤ text.len from hlt) (allAt_iff.1 hgood.1)
    refine (CString.returns_readChar hle).bind ?_
    refine Returns.ite (fun hno => hnone fun h => ?_) fun hlon => ?_
    · rw [h.2.2.1] at hno
      exact absurd hno (by decide)
    rw [Bool.not_eq_true, Bool.not_eq_false'] at hlon
    refine (returns_parseDmCoord true hle (by rw [hlon, Bool.or_true])).bind ?_
    by_cases hgood' : dmGood text (a + 6) true
    · rw [if_pos hgood', if_pos (pairGood_iff.2 ⟨hlat, hgood, hlon, hgood'⟩)]
      have hvalue : compactValue fl text a = ⟨dmValue fl text a false, dmValue fl text (a + 6) true⟩ := by
        unfold compactValue signed dmValue
        simp only [isLatDir_not_west hlat, isLonDir_not_south hlon, or_false, false_or]
        rfl
      rw [hvalue]
      exact Returns.pure _
    · rw [if_neg hgood']
      exact hnone fun h => hgood' (pairGood_iff.1 h).2.2.2
  · rw [if_neg hgood]
    exact hnone fun h => hgood (pairGood_iff.1 h).2.1

/-! ## The parser -/

theorem waypoints_step (fl : Rounding) (hp : p < text.len) :
    waypointsFrom fl text p = (waypointAt fl text p).toList ++ waypointsFrom fl text (p + 1) := by
  have hlen : text.len - p = text.len - (p + 1) + 1 := by omega
  unfold waypointsFrom
  rw [hlen, List.range'_succ, List.filterMap_cons]
  cases waypointAt fl text p <;> rfl

theorem waypointsFrom_zero (fl : Rounding) (text : CString) : waypointsFrom fl text 0 = waypoints fl text := by
  rw [waypoints, List.range_eq_range']
  rfl

theorem waypoints_end (fl : Rounding) (hp : text.len ≤ p) : waypointsFrom fl text p = [] := by
  rw [waypointsFrom, Nat.sub_eq_zero_of_le hp]
  rfl

/-- Where there is no comma there is no waypoint. -/
theorem waypointAt_none (h : mem i ≠ chr ',') : waypointAt fl mem i = none := if_neg fun hgood => h hgood.1

/-- What is between commas may be left out. -/
theorem waypoints_skip (fl : Rounding) {q : ℕ} (hpq : p ≤ q) (h : ∀ i, p ≤ i → i < q → text i ≠ chr ',') :
    waypointsFrom fl text p = waypointsFrom fl text q := by
  induction hk : q - p generalizing p with
  | zero => rw [show p = q by omega]
  | succ k ih =>
    rcases Nat.lt_or_ge p text.len with hlt | hge
    · rw [waypoints_step fl hlt, waypointAt_none (h p le_rfl (by omega)),
        ih (by omega) (fun i hi hiq => h i (by omega) hiq) (by omega)]
      rfl
    · rw [waypoints_end fl hge, waypoints_end fl (by omega)]

/-- The characters of a pair are no commas. -/
theorem pairGood_no_comma (h : pairGood mem a) {k : ℕ} (hk : k < 13) : mem (a + k) ≠ chr ',' := by
  obtain ⟨hlat, hd, hlon, hd', -⟩ := h
  have hdigit : ∀ {c : UInt8}, isDigit c = true → c ≠ chr ',' := fun hc h0 => by
    rw [h0] at hc
    exact absurd hc (by decide)
  rw [allAt_iff] at hd hd'
  rcases Nat.lt_trichotomy k 6 with hlt | rfl | hgt
  · rcases Nat.eq_zero_or_pos k with rfl | hpos
    · intro h0
      rw [Nat.add_zero] at h0
      rw [h0] at hlat
      exact absurd hlat (by decide)
    · have := hd (k - 1) (by omega)
      rw [show a + 1 + (k - 1) = a + k by omega] at this
      exact hdigit this
  · intro h0
    rw [h0] at hlon
    exact absurd hlon (by decide)
  · have := hd' (k - 7) (by omega)
    rw [show a + 7 + (k - 7) = a + k by omega] at this
    exact hdigit this

theorem isUpper_of_digit {c : UInt8} (h : isDigit c = true) : isUpper c = false := by
  rw [isDigit, Bool.and_eq_true, decide_eq_true_eq, decide_eq_true_eq] at h
  have h9 : chr '9' < chr 'A' := by decide
  have hlt : c < chr 'A' := UInt8.lt_of_le_of_lt h.2 h9
  rw [isUpper, decide_eq_false (UInt8.not_le.2 hlt), Bool.false_and]

/-- A pair lies in the text, and ends with a digit. -/
theorem pairGood_inText (h : pairGood text a) (ha : a ≤ text.len) :
    a + 13 ≤ text.len ∧ isDigit (text (a + 12)) = true := by
  obtain ⟨hlat, hd, hlon, hd', -⟩ := h
  rw [allAt_iff] at hd hd'
  have h1 : a + 1 ≤ text.len := CString.lt_len ha (isLatDir_ne_zero hlat)
  have h6 : a + 6 ≤ text.len := CString.add_le_len (n := 5) isDigit_zero h1 hd
  have h7 : a + 7 ≤ text.len := CString.lt_len h6 (isLonDir_ne_zero hlon)
  exact ⟨CString.add_le_len (n := 6) isDigit_zero h7 hd', hd' 5 (by omega)⟩

/-- The value of a pair is (0,0) exactly if all its numbers are. -/
theorem compactValue_zero_iff (fl : Rounding) (h : pairGood mem a) :
    (compactValue fl mem a).lat ≠ 0 ∨ (compactValue fl mem a).lon ≠ 0 ↔ ¬pairZero mem a := by
  obtain ⟨-, -, -, -, -, -, hlat, hlon⟩ := h
  have hzero : ∀ {deg min10 : ℕ}, deg ≤ 1000 → (degMin fl deg min10 = 0 ↔ deg = 0 ∧ min10 = 0) := fun {deg min10} hdeg => by
    rcases Nat.eq_zero_or_pos min10 with rfl | hpos
    · rw [degMin_zero fl hdeg, Nat.cast_eq_zero]
      exact ⟨fun h => ⟨h, rfl⟩, fun h => h.1⟩
    · refine iff_of_false (ne_of_gt ?_) (by omega)
      exact (Nat.cast_nonneg deg).trans_lt (lt_degMin fl hdeg hpos)
  have hsign : ∀ {q : Prop} [Decidable q] {v : ℚ}, (if q then -v else v) = 0 ↔ v = 0 := fun {q} _ {v} => by
    by_cases hq : q
    · rw [if_pos hq, neg_eq_zero]
    · rw [if_neg hq]
  unfold compactValue signed pairZero
  dsimp only
  rw [ne_eq, ne_eq, hsign, hsign, hzero (by omega), hzero (by omega), ← not_and_or, and_assoc]

/-- The rest of the scan: what it will have learned, and the cache then. -/
def FpnScan.out (fl : Rounding) (text : CString) (s : FpnScan) : ℕ × Learned :=
  (s.learned + (waypointsFrom fl text s.p).length, (waypointsFrom fl text s.p).foldl (fun st w => st.add w.1 w.2) s.st)

/-- The scan stands in the text, and not inside of a name. -/
structure FpnScan.Ok (text : CString) (s : FpnScan) : Prop where
  inText : s.p ≤ text.len
  fresh : s.p = 0 ∨ isUpper (text (s.p - 1)) = false

theorem out_of_no_waypoints {s : FpnScan} (h : waypointsFrom fl text s.p = []) : s.out fl text = (s.learned, s.st) := by
  rw [FpnScan.out, h]
  rfl

/-- **One round** ends the scan, or goes behind the next comma or its coordinates. -/
theorem fpn_round (fl : Rounding) (hfuel : text.len < fuel) {s : FpnScan} (h : s.Ok text) :
    Returns (· ≤ text.len) (fpnRound fl text fuel s) (.inr (s.out fl text)) ∨
      ∃ s' : FpnScan, Returns (· ≤ text.len) (fpnRound fl text fuel s) (.inl s') ∧ s'.Ok text ∧
        text.len - s'.p < text.len - s.p ∧ s'.out fl text = s.out fl text := by
  unfold fpnRound
  by_cases hend : text s.p = 0
  · -- the NUL
    have hlen : text.len ≤ s.p := by
      by_contra hlt
      exact text.noNul s.p (by omega) hend
    refine Or.inl ((CString.returns_readChar h.inText).bind ?_)
    rw [if_pos hend, out_of_no_waypoints (waypoints_end fl hlen)]
    exact Returns.pure _
  have hread := CString.returns_readChar h.inText
  have hcomma := returns_findComma h.inText hfuel
  cases hfirst : first? (fun i => text i == chr ',') s.p text.len with
  | none =>
    rw [hfirst] at hcomma
    have hskip : waypointsFrom fl text s.p = [] := by
      rw [waypoints_skip fl h.inText fun i hi hil => ?_, waypoints_end fl le_rfl]
      simpa using first?_eq_none.1 hfirst i hi hil
    refine Or.inl (hread.bind ?_)
    rw [if_neg hend, out_of_no_waypoints hskip]
    exact hcomma.bind (Returns.pure _)
  | some comma =>
    rw [hfirst] at hcomma
    obtain ⟨hle, hlt, hat, hbefore⟩ := first?_eq_some.1 hfirst
    have hat' : text comma = chr ',' := by simpa using hat
    have hout : waypointsFrom fl text s.p = (waypointAt fl text comma).toList ++ waypointsFrom fl text (comma + 1) := by
      rw [waypoints_skip fl hle fun i hi hic => by simpa using hbefore i hi hic, waypoints_step fl hlt]
    have hname : Returns (· ≤ text.len) (nameStart text fuel s.p comma) (runStart text comma) := by
      have := returns_nameStart hle hlt.le hfuel
      rwa [max_eq_right (le_runStart h.fresh hle)] at this
    have hnext : ({ s with p := comma + 1 } : FpnScan).Ok text :=
      ⟨hlt, Or.inr (by rw [show comma + 1 - 1 = comma from rfl, hat']; decide)⟩
    -- a comma without a waypoint is passed over
    have hpass : waypointAt fl text comma = none → ({ s with p := comma + 1 } : FpnScan).out fl text = s.out fl text :=
      fun hnone => by
        unfold FpnScan.out
        rw [hout, hnone]
        rfl
    by_cases hlen : comma - runStart text comma < 2 ∨ comma - runStart text comma > 5
    · refine Or.inr ⟨{ s with p := comma + 1 }, hread.bind ?_, hnext, by dsimp only; omega,
        hpass (if_neg fun hgood => by have := hgood.2.1; omega)⟩
      rw [if_neg hend]
      refine hcomma.bind (hname.bind ?_)
      rw [if_pos hlen]
      exact Returns.pure _
    have hpair := returns_parsePair fl (show comma + 1 ≤ text.len from hlt)
    by_cases hgood : pairGood text (comma + 1)
    · rw [if_pos hgood] at hpair
      obtain ⟨hfar, hlast⟩ := pairGood_inText hgood hlt
      have hfresh : ∀ learned st, (⟨comma + 14, learned, st⟩ : FpnScan).Ok text := fun _ _ =>
        ⟨by dsimp only; omega, Or.inr (isUpper_of_digit hlast)⟩
      have hskip : waypointsFrom fl text (comma + 1) = waypointsFrom fl text (comma + 14) :=
        waypoints_skip fl (by omega) fun i hi hi' => by
          have := pairGood_no_comma hgood (k := i - (comma + 1)) (by omega)
          rwa [show comma + 1 + (i - (comma + 1)) = i by omega] at this
      have hchars := CString.returns_readChars (t := text) (p := runStart text comma) (n := comma - runStart text comma)
        (by have := runStart_le text comma; omega)
      by_cases hzero : pairZero text (comma + 1)
      · have hval := mt (compactValue_zero_iff fl hgood).1 (not_not.2 hzero)
        refine Or.inr ⟨{ s with p := comma + 14 }, hread.bind ?_, hfresh _ _, by dsimp only; omega, ?_⟩
        · rw [if_neg hend]
          refine hcomma.bind (hname.bind ?_)
          rw [if_neg hlen]
          refine hpair.bind (hchars.bind ?_)
          rw [if_neg hval]
          exact Returns.pure _
        · unfold FpnScan.out
          rw [hout, waypointAt, if_neg fun hw => hw.2.2.2 hzero, hskip]
          rfl
      · have hval := (compactValue_zero_iff fl hgood).2 hzero
        refine Or.inr ⟨⟨comma + 14, s.learned + 1,
          s.st.add (charsAt text (runStart text comma) (comma - runStart text comma)) (compactValue fl text (comma + 1))⟩,
          hread.bind ?_, hfresh _ _, by dsimp only; omega, ?_⟩
        · rw [if_neg hend]
          refine hcomma.bind (hname.bind ?_)
          rw [if_neg hlen]
          refine hpair.bind (hchars.bind ?_)
          rw [if_pos hval]
          exact Returns.pure _
        · unfold FpnScan.out
          rw [hout, waypointAt, if_pos ⟨hat', by omega, hgood, hzero⟩, hskip, Option.toList_some, List.singleton_append,
            List.length_cons, List.foldl_cons]
          refine Prod.ext ?_ rfl
          dsimp only
          omega
    · rw [if_neg hgood] at hpair
      refine Or.inr ⟨{ s with p := comma + 1 }, hread.bind ?_, hnext, by dsimp only; omega,
        hpass (if_neg fun hw => hgood hw.2.2.1)⟩
      rw [if_neg hend]
      refine hcomma.bind (hname.bind ?_)
      rw [if_neg hlen]
      exact hpair.bind (Returns.pure _)

/-- **The parser** learns the waypoints of the text, and reads only the text. -/
theorem returns_parseFpn (fl : Rounding) (text : CString) (st : Learned) (hfuel : text.len < fuel) :
    Returns (· ≤ text.len) (learnedWpParseFpn fl text fuel st)
      ((waypoints fl text).length, st.teach (waypoints fl text)) := by
  unfold learnedWpParseFpn
  refine (CString.returns_readChar (Nat.zero_le _)).bind ?_
  refine Returns.ite (fun hend => ?_) fun _ => ?_
  · -- the empty text
    have hlen : text.len ≤ 0 := by
      by_contra hlt
      exact text.noNul 0 (by omega) hend
    rw [← waypointsFrom_zero, waypoints_end fl hlen]
    exact Returns.pure _
  · have hloop := Returns.loop (fun s : FpnScan => s.Ok text) (fun s => text.len - s.p) (FpnScan.out fl text)
      (fun s hs => fpn_round fl hfuel hs) (s := ⟨0, 0, st⟩) ⟨Nat.zero_le _, Or.inl rfl⟩ (by dsimp only; omega)
    refine hloop.bind ?_
    unfold FpnScan.out Learned.teach
    dsimp only
    rw [Nat.zero_add, waypointsFrom_zero]
    exact Returns.pure _

/-! ## The cache -/

/-- The cache after the messages, from the start of the program on. -/
inductive Heard (fl : Rounding) : List CString → Learned → Prop
  | start : Heard fl [] .init
  | hear {msgs : List CString} {st st' : Learned} {text : CString} {fuel learned : ℕ} (h : Heard fl msgs st)
      (hfuel : text.len < fuel) (hrun : (learnedWpParseFpn fl text fuel st).run.val = some (learned, st')) :
      Heard fl (msgs ++ [text]) st'

/-- An entry without its count. -/
def LearnedEntry.waypoint (e : LearnedEntry) : List UInt8 × Coord := (e.ident, e.coord)

/-- The waypoints in the cache. -/
def Learned.waypoints (st : Learned) : List (List UInt8 × Coord) := st.cache.map LearnedEntry.waypoint

/-- The first waypoint of a name among all that were learned. -/
def firstOf (history : List (List UInt8 × Coord)) (ident : List UInt8) : Option (List UInt8 × Coord) :=
  history.find? fun w => w.1 == ident

/-- **The cache against all waypoints learned so far.** -/
structure Cached (history : List (List UInt8 × Coord)) (st : Learned) : Prop where
  unique : (st.waypoints.map Prod.fst).Nodup
  bound : st.waypoints.length ≤ learnedWpMax
  first : ∀ w ∈ st.waypoints, firstOf history w.1 = some w
  complete : st.waypoints.length < learnedWpMax → ∀ w ∈ history, w.1 ∈ st.waypoints.map Prod.fst

theorem firstOf_append {history history' : List (List UInt8 × Coord)} {ident : List UInt8} {w : List UInt8 × Coord}
    (h : firstOf history ident = some w) : firstOf (history ++ history') ident = some w := by
  rw [firstOf, List.find?_append, show history.find? _ = some w from h]
  rfl

theorem mem_idents {ident : List UInt8} :
    (st.cache.any fun e => e.ident == ident) = true ↔ ident ∈ st.waypoints.map Prod.fst := by
  rw [List.any_eq_true, Learned.waypoints, List.map_map, List.mem_map]
  exact exists_congr fun e => and_congr_right fun _ => beq_iff_eq

/-- One waypoint more. -/
theorem Cached.add {history : List (List UInt8 × Coord)} (h : Cached history st) {w : List UInt8 × Coord}
    (hw : w.1.length ≤ 5) : Cached (history ++ [w]) (st.add w.1 w.2) := by
  have hfirst : ∀ v ∈ st.waypoints, firstOf (history ++ [w]) v.1 = some v := fun v hv => firstOf_append (h.first v hv)
  unfold Learned.add
  by_cases hknown : (st.cache.any fun e => e.ident == w.1) = true
  · -- a known name is only counted
    rw [if_pos hknown]
    have hsame : ∀ n, (⟨FirstMatch.updateFirst (fun e => e.ident == w.1) (fun e => { e with sightings := e.sightings + 1 })
        st.cache, st.fpnParsed, n⟩ : Learned).waypoints = st.waypoints := fun n => FirstMatch.map_updateFirst fun _ => rfl
    constructor
    · rw [hsame]
      exact h.unique
    · rw [hsame]
      exact h.bound
    · rw [hsame]
      exact hfirst
    · rw [hsame]
      intro hroom v hv
      rcases List.mem_append.1 hv with hold | hnew
      · exact h.complete hroom v hold
      · rw [List.mem_singleton.1 hnew]
        exact mem_idents.1 hknown
  rw [if_neg hknown]
  have hunknown : w.1 ∉ st.waypoints.map Prod.fst := fun hmem => hknown (mem_idents.2 hmem)
  have hlen : st.waypoints.length = st.cache.length := List.length_map _
  by_cases hfull : st.cache.length ≥ learnedWpMax
  · rw [if_pos hfull]
    exact ⟨h.unique, h.bound, hfirst, fun hroom => absurd hroom (by omega)⟩
  · -- a new name, which was never learned before, as there was always room for it
    rw [if_neg hfull]
    have hroom : st.waypoints.length < learnedWpMax := by omega
    have hnew : ∀ m n, (⟨st.cache ++ [⟨w.1.take 5, w.2, 1⟩], m, n⟩ : Learned).waypoints = st.waypoints ++ [w] := fun m n => by
      rw [Learned.waypoints, List.map_append, List.take_of_length_le hw]
      rfl
    have hnever : firstOf history w.1 = none := by
      refine List.find?_eq_none.2 fun v hv heq => hunknown ?_
      rw [← beq_iff_eq.1 heq]
      exact h.complete hroom v hv
    constructor
    · rw [hnew, List.map_append]
      exact List.Nodup.append h.unique (List.nodup_singleton _) (by simpa using hunknown)
    · rw [hnew, List.length_append, List.length_singleton]
      exact hroom
    · rw [hnew]
      intro v hv
      rcases List.mem_append.1 hv with hold | hlast
      · exact hfirst v hold
      · rw [List.mem_singleton.1 hlast, firstOf, List.find?_append, show history.find? _ = none from hnever,
          Option.none_or, List.find?_cons_of_pos (by rw [beq_self_eq_true])]
    · rw [hnew]
      intro _ v hv
      rw [List.map_append, List.mem_append]
      rcases List.mem_append.1 hv with hold | hlast
      · exact Or.inl (h.complete hroom v hold)
      · rw [List.mem_singleton.1 hlast]
        exact Or.inr (List.mem_singleton_self _)

theorem Cached.foldl {history ws : List (List UInt8 × Coord)} (h : Cached history st) (hws : ∀ w ∈ ws, w.1.length ≤ 5) :
    Cached (history ++ ws) (ws.foldl (fun st w => st.add w.1 w.2) st) := by
  induction ws generalizing history st with
  | nil =>
    rw [List.append_nil]
    exact h
  | cons w ws ih =>
    have hone := h.add (hws w List.mem_cons_self)
    have hrest := ih hone fun v hv => hws v (List.mem_cons_of_mem _ hv)
    rwa [List.append_assoc] at hrest

/-- Names have two to five letters. -/
theorem waypoints_name (fl : Rounding) (text : CString) : ∀ w ∈ waypoints fl text, 2 ≤ w.1.length ∧ w.1.length ≤ 5 := by
  intro w hw
  obtain ⟨i, -, hi⟩ := List.mem_filterMap.1 hw
  unfold waypointAt at hi
  split at hi
  · next hgood =>
    cases hi
    have hlen : (charsAt text (runStart text i) (i - runStart text i)).length = i - runStart text i := by
      rw [charsAt, List.length_map, List.length_range]
    dsimp only
    rw [hlen]
    exact hgood.2.1
  · exact absurd hi (by simp)

/-- **The cache over all messages.** -/
theorem heard_cached {msgs : List CString} (h : Heard fl msgs st) : Cached (msgs.flatMap (waypoints fl)) st := by
  induction h with
  | start => exact ⟨List.nodup_nil, Nat.zero_le _, fun _ hw => absurd hw List.not_mem_nil, fun _ _ hw => absurd hw List.not_mem_nil⟩
  | @hear msgs st st' text fuel learned _ hfuel hrun ih =>
    have hst := congrArg Prod.snd ((returns_parseFpn fl text st hfuel).eq hrun)
    dsimp only at hst
    have hlearned := ih.foldl fun w hw => (waypoints_name fl text w hw).2
    rw [List.flatMap_append, List.flatMap_singleton, hst]
    unfold Learned.teach
    dsimp only
    split
    · exact ⟨hlearned.unique, hlearned.bound, hlearned.first, hlearned.complete⟩
    · exact hlearned

/-- What is looked up of an ident in the cache was learned first. -/
theorem heard_lookup {msgs : List CString} (h : Heard fl msgs st) {ident : List UInt8}
    (hident : ident ∈ st.cache.map LearnedEntry.ident) :
    learnedWpLookup st ident = (firstOf (msgs.flatMap (waypoints fl)) ident).map Prod.snd := by
  have hcached := heard_cached h
  obtain ⟨e, he, hei⟩ := List.mem_map.1 hident
  have hsome : (st.cache.find? fun e => e.ident == ident).isSome = true :=
    List.find?_isSome.2 ⟨e, he, beq_iff_eq.2 hei⟩
  obtain ⟨e', hfind⟩ := Option.isSome_iff_exists.1 hsome
  have hident' : e'.ident = ident := by
    have := List.find?_some hfind
    exact beq_iff_eq.1 this
  have hfirst := hcached.first e'.waypoint (List.mem_map_of_mem (List.mem_of_find?_eq_some hfind))
  have hne : ident ≠ [] := by
    obtain ⟨text, -, hw⟩ := List.mem_flatMap.1 (List.mem_of_find?_eq_some hfirst)
    have hname : 2 ≤ e'.ident.length := (waypoints_name fl text _ hw).1
    rw [← hident']
    rintro heq
    rw [heq] at hname
    exact absurd hname (by decide)
  rw [learnedWpLookup, if_neg hne, hfind, ← hident', show firstOf _ e'.ident = some e'.waypoint from hfirst]
  rfl

/-- A route with one waypoint: the first has no digits, the second too many letters. -/
def route : CString := .ofList (chars "ATL,N34N12W084..KATLXY,N33384W084259.BNA,N36076W086407") (by decide +kernel)

example : (waypoints binary64 route).map Prod.fst = [chars "BNA"] := by decide +kernel

end InmarsatSniffer.AcarsText
