import Mathlib
import InmarsatSniffer.Proof.OnGlobe

/-!
# Fields behind a tag

`tagged_found_iff`: when a field behind `POS`, `LAT`/`LON` or `ALT` is found wherever it
stands. Only the first occurrence of a tag is looked at, so an earlier one hides it, unless
the format that is tried next gives the same value.

* `GoodPos`, `LatLonPair`, `AltField`: well-formed fields at places of the text.
* `TaggedFound`: the first well-formed fields are returned.
* `PosReached`, `PairReached`, `AltReached`: when they are.
-/

namespace InmarsatSniffer.AcarsText

open CString Rounding
open Logged (Returns)

variable {fl : Rounding} {label text : CString} {fuel i j v : ℕ} {coord : Coord}

/-! ## The fields -/

/-- `POS[NS]ddddd[EW]dddddd` at an index, in range. -/
def GoodPos (text : CString) (i : ℕ) : Prop :=
  i < text.len ∧ matchesAt text i "POS".toList = true ∧ posGood text i

instance (text : CString) (i : ℕ) : Decidable (GoodPos text i) := inferInstanceAs (Decidable (_ ∧ _ ∧ _))

/-- `LAT` with its degrees at `i`, and behind them `LON` with its degrees at `j`. -/
def LatLonPair (fl : Rounding) (text : CString) (i j : ℕ) (coord : Coord) : Prop :=
  ∃ latDir la e lonDir lo, i < text.len ∧ matchesAt text i "LAT".toList = true ∧ latAt fl text i = some (latDir, la, e) ∧
    e ≤ j ∧ j < text.len ∧ matchesAt text j "LON".toList = true ∧ lonAt fl text j = some (lonDir, lo) ∧
    signed latDir lonDir la lo = coord

/-- The first pair: the first `LAT` that is part of one, with the first `LON` that fits it. -/
structure FirstPair (fl : Rounding) (text : CString) (i j : ℕ) (coord : Coord) : Prop where
  pair : LatLonPair fl text i j coord
  first : ∀ i' j' coord', LatLonPair fl text i' j' coord' → i < i' ∨ i = i' ∧ j ≤ j'

/-- Where the blanks behind the `ALT` at an index end. -/
def altStart (text : CString) (i : ℕ) : ℕ := text.span (fun c => c == chr ' ' || c == chr '\t') (i + 3)

/-- The number that stands there. -/
def altNumber (text : CString) (i : ℕ) : ℕ :=
  number text (altStart text i) (text.span isDigit (altStart text i) - altStart text i)

/-- `ALT` at an index, blanks, and a number from 1 to 59999. -/
def AltField (text : CString) (i v : ℕ) : Prop :=
  i < text.len ∧ matchesAt text i "ALT".toList = true ∧ isDigit (text (altStart text i)) = true ∧
    altNumber text i = v ∧ 0 < v ∧ v < 60000

instance (text : CString) (i v : ℕ) : Decidable (AltField text i v) :=
  inferInstanceAs (Decidable (_ ∧ _ ∧ _ ∧ _ ∧ _ ∧ _))

/-- `FLnnn` at some index. -/
def HasFl (text : CString) : Prop :=
  ∃ i < text.len, matchesAt text i "FL".toList = true ∧ (flAt text i).isSome = true

/-- `nnnF` at some index. -/
def HasLevel (text : CString) : Prop := ∃ i < text.len, (levelAt text i).isSome = true

/-- The first `nnnnnFT`, with its value. -/
def FirstFeet (text : CString) (k v : ℕ) : Prop :=
  IsLeast {k | k + 5 < text.len ∧ (feetAt text k).isSome = true} k ∧ feetAt text k = some v

/-- **Tagged fields are found wherever they stand**: the first well-formed field of each kind
is returned. -/
structure TaggedFound (fl : Rounding) (fuel : ℕ) (label text : CString) : Prop where
  pos : labelOk label = true → isFpn label text = false → ∀ i, IsLeast {i | GoodPos text i} i →
    (acarsExtractTextPosition fl fuel label text).run.val = some (some (posValue fl text i))
  latLon : labelOk label = true → isFpn label text = false → (∀ i, ¬GoodPos text i) →
    (∀ i < text.len, compactAt text i = false) → ∀ i j coord, FirstPair fl text i j coord →
    (acarsExtractTextPosition fl fuel label text).run.val = some (some coord)
  alt : ¬HasFl text → ¬HasLevel text → ∀ i, IsLeast {i | ∃ v, AltField text i v} i → ∀ v, AltField text i v →
    acarsExtractTextAltitude text = some v

/-! ## When they are found -/

/-- The first `LAT`, and the first `LON` behind its degrees, are a pair. -/
def TagPair (fl : Rounding) (text : CString) (i j : ℕ) (coord : Coord) : Prop :=
  ∃ latDir la e lonDir lo, text.strstr 0 "LAT".toList = some i ∧ latAt fl text i = some (latDir, la, e) ∧
    text.strstr e "LON".toList = some j ∧ lonAt fl text j = some (lonDir, lo) ∧ signed latDir lonDir la lo = coord

/-- The first position is at the first `POS`; or what is found in its place has its value:
the leftmost compact coordinate or, without one, the pair at the first `LAT`. -/
def PosReached (fl : Rounding) (text : CString) (i : ℕ) : Prop :=
  text.strstr 0 "POS".toList = some i ∨
  (∃ k, IsLeast {k | k < text.len ∧ compactAt text k = true} k ∧ compactValue fl text k = posValue fl text i) ∨
  (∀ k < text.len, compactAt text k = false) ∧ ∃ k j, TagPair fl text k j (posValue fl text i)

/-- The first altitude is at the first `ALT`, or the first `nnnnnFT` has its value. -/
def AltReached (text : CString) (i v : ℕ) : Prop :=
  text.strstr 0 "ALT".toList = some i ∨ ∃ k, FirstFeet text k v

theorem strstr_isLeast {needle : List Char} : text.strstr 0 needle = some i ↔
    IsLeast {i | i < text.len ∧ matchesAt text i needle = true} i := first?_isLeast

/-- Format 1 takes the first `POS`, if it is good. -/
theorem posFormat_iff : posFormat fl text = some coord ↔
    ∃ i, text.strstr 0 "POS".toList = some i ∧ posGood text i ∧ posValue fl text i = coord := by
  unfold posFormat
  rw [Option.bind_eq_some_iff]
  exact exists_congr fun i => and_congr_right fun _ => posAt_iff

/-- Format 3 takes the first tags. -/
theorem latLonFormat_iff : latLonFormat fl text = some coord ↔ ∃ i j, TagPair fl text i j coord := by
  unfold latLonFormat TagPair
  simp only [Option.bind_eq_bind, Option.bind_eq_some_iff]
  constructor
  · rintro ⟨i, hi, ⟨latDir, la, e⟩, hlat, j, hj, ⟨lonDir, lo⟩, hlon, heq⟩
    exact ⟨i, j, latDir, la, e, lonDir, lo, hi, hlat, hj, hlon, Option.some.inj heq⟩
  · rintro ⟨i, j, latDir, la, e, lonDir, lo, hi, hlat, hj, hlon, rfl⟩
    exact ⟨i, hi, (latDir, la, e), hlat, j, hj, (lonDir, lo), hlon, rfl⟩

/-- The first tags, if they are a pair, are the first pair. -/
theorem TagPair.firstPair (h : TagPair fl text i j coord) : FirstPair fl text i j coord := by
  obtain ⟨latDir, la, e, lonDir, lo, hi, hlat, hj, hlon, rfl⟩ := h
  obtain ⟨⟨hilt, himatch⟩, hifirst⟩ := strstr_isLeast.1 hi
  obtain ⟨hje, hjlt, hjmatch, hjfirst⟩ := first?_eq_some.1 hj
  refine ⟨⟨latDir, la, e, lonDir, lo, hilt, himatch, hlat, hje, hjlt, hjmatch, hlon, rfl⟩, ?_⟩
  rintro i' j' coord' ⟨latDir', la', e', lonDir', lo', hilt', himatch', hlat', hje', hjlt', hjmatch', -, -⟩
  rcases Nat.eq_or_lt_of_le (hifirst ⟨hilt', himatch'⟩) with rfl | hlt
  · refine Or.inr ⟨rfl, ?_⟩
    have hsame := Option.some.inj (hlat.symm.trans hlat')
    obtain rfl : e = e' := congrArg (fun x => x.2.2) hsame
    by_contra hlt
    have hfalse := hjfirst j' hje' (not_le.1 hlt)
    rw [hjmatch'] at hfalse
    exact Bool.noConfusion hfalse
  · exact Or.inl hlt

/-- The first pair is one. -/
theorem FirstPair.unique {i' j' : ℕ} {coord' : Coord} (h : FirstPair fl text i j coord) (h' : FirstPair fl text i' j' coord') :
    i = i' ∧ j = j' ∧ coord = coord' := by
  have hle := h.first i' j' coord' h'.pair
  have hge := h'.first i j coord h.pair
  obtain rfl : i = i' := by omega
  obtain rfl : j = j' := by omega
  refine ⟨rfl, rfl, ?_⟩
  obtain ⟨latDir, la, e, lonDir, lo, -, -, hlat, -, -, -, hlon, rfl⟩ := h.pair
  obtain ⟨latDir', la', e', lonDir', lo', -, -, hlat', -, -, -, hlon', rfl⟩ := h'.pair
  obtain ⟨rfl, rfl, rfl⟩ : latDir = latDir' ∧ la = la' ∧ e = e' := by simpa using hlat.symm.trans hlat'
  obtain ⟨rfl, rfl⟩ : lonDir = lonDir' ∧ lo = lo' := by simpa using hlon.symm.trans hlon'
  rfl

/-! ## Positions -/

/-- Without a good first `POS`, format 1 gives nothing. -/
theorem posFormat_none (h : ∀ i, text.strstr 0 "POS".toList = some i → ¬posGood text i) : posFormat fl text = none := by
  rw [Option.eq_none_iff_forall_ne_some]
  intro coord hcoord
  obtain ⟨i, hi, hgood, -⟩ := posFormat_iff.1 hcoord
  exact h i hi hgood

/-- What is found when format 1 gives nothing. -/
theorem fallThrough_iff : ((leftmostCompact text 0).map (compactValue fl text)).or (latLonFormat fl text) = some coord ↔
    (∃ k, IsLeast {k | k < text.len ∧ compactAt text k = true} k ∧ compactValue fl text k = coord) ∨
    (∀ k < text.len, compactAt text k = false) ∧ ∃ k j, TagPair fl text k j coord := by
  cases hleft : leftmostCompact text 0 with
  | some k =>
    have hk := first?_isLeast.1 hleft
    rw [Option.map_some, Option.some_or, Option.some.injEq]
    constructor
    · exact fun h => Or.inl ⟨k, hk, h⟩
    · rintro (⟨k', hk', h⟩ | ⟨hno, -⟩)
      · rwa [hk.unique hk']
      · exact absurd hk.1.2 (by rw [hno k hk.1.1]; exact Bool.false_ne_true)
  | none =>
    have hno : ∀ k < text.len, compactAt text k = false := fun k hk => first?_eq_none.1 hleft k (Nat.zero_le k) hk
    rw [Option.map_none, Option.none_or, latLonFormat_iff]
    constructor
    · exact fun h => Or.inr ⟨hno, h⟩
    · rintro (⟨k, hk, -⟩ | ⟨-, h⟩)
      · exact absurd hk.1.2 (by rw [hno k hk.1.1]; exact Bool.false_ne_true)
      · exact h

variable (hlabel : labelOk label = true) (hfpn : isFpn label text = false) (hfuel : text.len < fuel)

include hlabel hfpn hfuel

/-- **The first position behind a `POS`** is returned exactly if it is reached. -/
theorem pos_found_iff (hi : IsLeast {i | GoodPos text i} i) :
    (acarsExtractTextPosition fl fuel label text).run.val = some (some (posValue fl text i)) ↔ PosReached fl text i := by
  have hret := (returns_textPosition fl label text hfuel).value
  have hne : text 0 ≠ 0 := text.noNul 0 (by have := hi.1.1; omega)
  rw [if_pos ⟨hne, hlabel, hfpn⟩] at hret
  rw [hret, Option.some.injEq]
  unfold PosReached
  by_cases hfirst : text.strstr 0 "POS".toList = some i
  · rw [posFormat_iff.2 ⟨i, hfirst, hi.1.2.2, rfl⟩]
    exact iff_of_true rfl (Or.inl hfirst)
  · have hnone : posFormat fl text = none := posFormat_none fun k hk hgood => hfirst <| by
      have hk' := strstr_isLeast.1 hk
      have hle : k ≤ i := hk'.2 ⟨hi.1.1, hi.1.2.1⟩
      have hge : i ≤ k := hi.2 ⟨hk'.1.1, hk'.1.2, hgood⟩
      rw [hk, le_antisymm hle hge]
    rw [hnone, Option.none_or, fallThrough_iff]
    exact ⟨fun h => Or.inr h, fun h => h.resolve_left hfirst⟩

/-- **The first pair** is returned exactly if its tags are the first ones. -/
theorem pair_found_iff (hpos : ∀ i, ¬GoodPos text i) (hcompact : ∀ i < text.len, compactAt text i = false)
    (hpair : FirstPair fl text i j coord) :
    (acarsExtractTextPosition fl fuel label text).run.val = some (some coord) ↔ TagPair fl text i j coord := by
  have hret := (returns_textPosition fl label text hfuel).value
  have hne : text 0 ≠ 0 := text.noNul 0 (by
    obtain ⟨-, -, -, -, -, hlt, -⟩ := hpair.pair
    omega)
  have hnone : posFormat fl text = none := posFormat_none fun k hk hgood =>
    hpos k ⟨(strstr_isLeast.1 hk).1.1, (strstr_isLeast.1 hk).1.2, hgood⟩
  have hleft : leftmostCompact text 0 = none := first?_eq_none.2 fun k _ hk => hcompact k hk
  rw [if_pos ⟨hne, hlabel, hfpn⟩, hnone, hleft, Option.map_none, Option.none_or, Option.none_or] at hret
  rw [hret, Option.some.injEq, latLonFormat_iff]
  constructor
  · rintro ⟨i', j', htag⟩
    obtain ⟨rfl, rfl, -⟩ := hpair.unique htag.firstPair
    exact htag
  · exact fun h => ⟨i, j, h⟩

omit hlabel hfpn hfuel

/-! ## Altitudes -/

theorem altAt_eq : altAt text i = (do
    guard (isDigit (text (altStart text i)))
    let v := min (altNumber text i) (2 ^ 63 - 1)
    guard (0 < v ∧ v < 60000)
    return v) := rfl

/-- **What format 3 of the altitudes accepts**: a number that saturates is too large anyway. -/
theorem altAt_iff : altAt text i = some v ↔
    isDigit (text (altStart text i)) = true ∧ altNumber text i = v ∧ 0 < v ∧ v < 60000 := by
  rw [altAt_eq]
  generalize altNumber text i = m
  simp only [guard_bind]
  constructor
  · rintro ⟨hd, ⟨hpos, hlt⟩, heq⟩
    have hv := Option.some.inj heq
    exact ⟨hd, by omega, by omega, by omega⟩
  · rintro ⟨hd, rfl, hpos, hlt⟩
    have hmin : min m (2 ^ 63 - 1) = m := by omega
    rw [hmin]
    exact ⟨hd, ⟨hpos, hlt⟩, rfl⟩

/-- **The loop over the `FL`** finds the first good one: the next cannot start before its end. -/
theorem flLoop_eq {fuel p : ℕ} (hfuel : text.len < p + fuel) : flLoop text fuel p =
    (first? (fun k => matchesAt text k "FL".toList && (flAt text k).isSome) p text.len).bind (flAt text) := by
  induction fuel generalizing p with
  | zero =>
    rw [first?_of_le (by omega)]
    rfl
  | succ fuel ih =>
    rw [flLoop]
    cases hstr : text.strstr p "FL".toList with
    | none =>
      rw [first?_eq_none.2 fun k hk hkl => by rw [first?_eq_none.1 hstr k hk hkl, Bool.false_and]]
      rfl
    | some k =>
      obtain ⟨hpk, hlt, hmatch, hbefore⟩ := first?_eq_some.1 hstr
      cases hfl : flAt text k with
      | some alt =>
        rw [first?_eq_some.2 ⟨hpk, hlt, by rw [hmatch, hfl]; rfl, fun j hj hjk => by rw [hbefore j hj hjk, Bool.false_and]⟩,
          Option.bind_some, hfl]
        dsimp only
        rw [hfl]
      | none =>
        have hskip : ∀ j, p ≤ j → j < k + 2 → j < text.len →
            (matchesAt text j "FL".toList && (flAt text j).isSome) = false := fun j hj hjk _ => by
          rcases Nat.lt_trichotomy j k with hlt | rfl | hgt
          · rw [hbefore j hj hlt, Bool.false_and]
          · rw [hfl]
            exact Bool.and_false _
          · -- an L stands behind the F
            obtain rfl : j = k + 1 := by omega
            have hl : text (k + 1) = chr 'L' := matchesAt_iff.1 hmatch 1 (by decide)
            have hno : matchesAt text (k + 1) "FL".toList = false := by
              rw [Bool.eq_false_iff]
              intro hyes
              have hf : text (k + 1 + 0) = chr 'F' := matchesAt_iff.1 hyes 0 (by decide)
              rw [Nat.add_zero, hl] at hf
              exact absurd hf (by decide)
            rw [hno, Bool.false_and]
        rw [first?_skip (by omega) hskip, ← ih (by omega)]
        dsimp only
        rw [hfl]

/-- The first index at which a search is successful. -/
theorem findSome?_range {α : Type} {f : ℕ → Option α} {n : ℕ} {a : α} :
    (List.range n).findSome? f = some a ↔ ∃ k, IsLeast {k | k < n ∧ (f k).isSome = true} k ∧ f k = some a := by
  have hfind : ∀ l : List ℕ, l.findSome? f = (l.find? fun k => (f k).isSome).bind f := fun l => by
    induction l with
    | nil => rfl
    | cons k l ih =>
      rw [List.findSome?_cons, List.find?_cons, ih]
      cases hk : f k with
      | none => rfl
      | some b => exact hk.symm
  rw [hfind, List.range_eq_range', Option.bind_eq_some_iff]
  refine exists_congr fun k => and_congr_left fun _ => ?_
  rw [← first?_isLeast]
  rfl

/-- **The first altitude behind an `ALT`** is returned exactly if it is reached. -/
theorem alt_found_iff (hfl : ¬HasFl text) (hlevel : ¬HasLevel text) (hi : IsLeast {i | ∃ v, AltField text i v} i)
    (hv : AltField text i v) : acarsExtractTextAltitude text = some v ↔ AltReached text i v := by
  have hne : text 0 ≠ 0 := text.noNul 0 (by have := hv.1; omega)
  have hnofl : flLoop text (text.len + 1) 0 = none := by
    rw [flLoop_eq (by omega), first?_eq_none.2 fun k _ hk => ?_]
    · rfl
    · rw [Bool.eq_false_iff]
      intro hyes
      rw [Bool.and_eq_true] at hyes
      exact hfl ⟨k, hk, hyes⟩
  have hnolevel : (List.range (text.len - 3)).findSome? (levelAt text) = none := by
    rw [Option.eq_none_iff_forall_ne_some]
    intro a ha
    obtain ⟨k, hk, -⟩ := findSome?_range.1 ha
    exact hlevel ⟨k, by have := hk.1.1; omega, hk.1.2⟩
  have hfeet : (List.range (text.len - 5)).findSome? (feetAt text) = some v ↔ ∃ k, FirstFeet text k v := by
    rw [findSome?_range]
    refine exists_congr fun k => ?_
    unfold FirstFeet
    rw [show {k | k < text.len - 5 ∧ (feetAt text k).isSome = true} = {k | k + 5 < text.len ∧ (feetAt text k).isSome = true}
      from Set.ext fun k => and_congr_left fun _ => Nat.lt_sub_iff_add_lt]
  unfold acarsExtractTextAltitude AltReached
  rw [if_neg hne, hnofl, hnolevel, Option.none_or, Option.none_or, ← hfeet]
  by_cases hfirst : text.strstr 0 "ALT".toList = some i
  · rw [hfirst, Option.bind_some, altAt_iff.2 hv.2.2]
    exact iff_of_true rfl (Or.inl rfl)
  · -- an earlier ALT, which is not good
    have hnone : (text.strstr 0 "ALT".toList).bind (altAt text) = none := by
      rw [Option.eq_none_iff_forall_ne_some]
      intro w hw
      obtain ⟨k, hk, hkw⟩ := Option.bind_eq_some_iff.1 hw
      have hk' := strstr_isLeast.1 hk
      have hle : k ≤ i := hk'.2 ⟨hv.1, hv.2.1⟩
      have hge : i ≤ k := hi.2 ⟨w, hk'.1.1, hk'.1.2, altAt_iff.1 hkw⟩
      exact hfirst (by rw [hk, le_antisymm hle hge])
    rw [hnone, Option.none_or]
    exact ⟨fun h => Or.inr h, fun h => h.resolve_left hfirst⟩

/-- **When tagged fields are found wherever they stand.** -/
theorem tagged_found_iff (fl : Rounding) (label text : CString) (hfuel : text.len < fuel) :
    TaggedFound fl fuel label text ↔
      (labelOk label = true → isFpn label text = false → ∀ i, IsLeast {i | GoodPos text i} i → PosReached fl text i) ∧
      (labelOk label = true → isFpn label text = false → (∀ i, ¬GoodPos text i) →
        (∀ i < text.len, compactAt text i = false) → ∀ i j coord, FirstPair fl text i j coord → TagPair fl text i j coord) ∧
      (¬HasFl text → ¬HasLevel text → ∀ i, IsLeast {i | ∃ v, AltField text i v} i → ∀ v, AltField text i v →
        AltReached text i v) := by
  constructor
  · intro h
    exact ⟨fun hlabel hfpn i hi => (pos_found_iff hlabel hfpn hfuel hi).1 (h.pos hlabel hfpn i hi),
      fun hlabel hfpn hpos hcompact i j coord hpair =>
        (pair_found_iff hlabel hfpn hfuel hpos hcompact hpair).1 (h.latLon hlabel hfpn hpos hcompact i j coord hpair),
      fun hfl hlevel i hi v hv => (alt_found_iff hfl hlevel hi hv).1 (h.alt hfl hlevel i hi v hv)⟩
  · rintro ⟨hpos, hpair, halt⟩
    exact ⟨fun hlabel hfpn i hi => (pos_found_iff hlabel hfpn hfuel hi).2 (hpos hlabel hfpn i hi),
      fun hlabel hfpn hno hcompact i j coord h =>
        (pair_found_iff hlabel hfpn hfuel hno hcompact h).2 (hpair hlabel hfpn hno hcompact i j coord h),
      fun hfl hlevel i hi v hv => (alt_found_iff hfl hlevel hi hv).2 (halt hfl hlevel i hi v hv)⟩

/-! ## Three texts -/

/-- A `POS` in an ordinary word, before a position. -/
def posTwice : CString := .ofList (chars "POSS,POSN43312W123174") (by decide +kernel)

/-- An `ALT` in an ordinary word, before an altitude. -/
def altTwice : CString := .ofList (chars "SALT,ALT 35000") (by decide +kernel)

/-- A position and an altitude. -/
def posAndAlt : CString := .ofList (chars "POSN43312W123174,ALT 35") (by decide +kernel)

/-- The position is replaced by that of another format, and the altitude is lost. -/
theorem earlier_tags_hide : ¬TaggedFound binary64 22 labelH1 posTwice ∧ ¬TaggedFound binary64 15 labelH1 altTwice := by
  refine ⟨fun h => ?_, fun h => ?_⟩
  · have hleast : IsLeast {i | GoodPos posTwice i} 5 := by
      refine ⟨by decide +kernel, fun j hj => ?_⟩
      by_contra hlt
      have hj5 : j < 5 := not_le.1 hlt
      interval_cases j <;> exact absurd hj (by decide +kernel)
    exact absurd (h.pos (by decide) (by decide) 5 hleast) (by decide +kernel)
  · have hleast : IsLeast {i | ∃ v, AltField altTwice i v} 5 := by
      refine ⟨⟨35000, by decide +kernel⟩, fun j hj => ?_⟩
      by_contra hlt
      obtain ⟨v, -, hmatch, hdigit, -⟩ := hj
      have hj5 : j < 5 := not_le.1 hlt
      have hno : (matchesAt altTwice j "ALT".toList && isDigit (altTwice (altStart altTwice j))) = false := by
        interval_cases j <;> decide +kernel
      rw [hmatch, hdigit] at hno
      exact Bool.noConfusion hno
    have hno : ¬HasFl altTwice ∧ ¬HasLevel altTwice := by
      unfold HasFl HasLevel
      decide +kernel
    exact absurd (h.alt hno.1 hno.2 5 hleast 35000 (by decide +kernel)) (by decide +kernel)

/-- Where the tags stand once, their fields are found. -/
theorem posAndAlt_found : TaggedFound binary64 24 labelH1 posAndAlt ∧ acarsExtractTextAltitude posAndAlt = some 35 := by
  have hpos : GoodPos posAndAlt 0 := by decide +kernel
  have halt : AltField posAndAlt 17 35 := by decide +kernel
  have hstr : posAndAlt.strstr 0 "ALT".toList = some 17 := by decide +kernel
  refine ⟨(tagged_found_iff binary64 labelH1 posAndAlt (by decide)).2 ⟨fun _ _ i hi => ?_, fun _ _ hno => ?_,
    fun _ _ i hi v hv => ?_⟩, by decide +kernel⟩
  · obtain rfl : i = 0 := Nat.le_zero.1 (hi.2 hpos)
    exact Or.inl (by decide +kernel)
  · exact absurd hpos (hno 0)
  · have hle : i ≤ 17 := hi.2 ⟨35, halt⟩
    have hge : 17 ≤ i := (strstr_isLeast.1 hstr).2 ⟨hv.1, hv.2.1⟩
    obtain rfl : i = 17 := le_antisymm hle hge
    exact Or.inl hstr

end InmarsatSniffer.AcarsText
