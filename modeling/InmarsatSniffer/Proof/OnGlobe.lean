import Mathlib
import InmarsatSniffer.Proof.CompactScan

/-!
# Positions on the globe

`text_position_onGlobe_iff`: a text position is on the globe, unless it is a compact one with
minutes behind 90 or 180 degrees. Formats 1 and 3 test the sum of degrees and fraction.

* `degMin_le_iff`: when degrees and minutes stay within a limit.
* `posAt_iff`: what format 1 accepts.
-/

namespace InmarsatSniffer.AcarsText

open CString Rounding
open Logged (Returns)

variable {fl : Rounding} {label text : CString} {fuel i deg min10 limit : ℕ} {coord : Coord}

/-- A position on the globe. -/
structure OnGlobe (coord : Coord) : Prop where
  lat : -90 ≤ coord.lat ∧ coord.lat ≤ 90
  lon : -180 ≤ coord.lon ∧ coord.lon ≤ 180

/-- Minutes behind the last degree, in a compact coordinate. -/
def overEdge (mem : ℕ → UInt8) (i : ℕ) : Prop :=
  number mem (i + 1) 2 = 90 ∧ 0 < number mem (i + 3) 3 ∨ number mem (i + 7) 3 = 180 ∧ 0 < number mem (i + 10) 3

/-! ## Degrees and minutes -/

/-- The 1024th behind a small number of degrees is a double. -/
theorem isDouble_past (h : limit ≤ 1000) : IsDouble ((limit : ℚ) + 1 / 1024) := by
  have hcast : (limit : ℚ) + 1 / 1024 = ((limit * 1024 + 1 : ℤ) : ℚ) / 1024 := by
    push_cast
    ring
  rw [hcast]
  apply isDouble_1024th
  rw [abs_of_nonneg (by positivity)]
  omega

theorem degMin_nonneg (fl : Rounding) (deg min10 : ℕ) : 0 ≤ degMin fl deg min10 :=
  fl.round_nonneg (add_nonneg (Nat.cast_nonneg _) (fl.round_nonneg (by positivity)))

/-- Without minutes the degrees are exact. -/
theorem degMin_zero (fl : Rounding) (h : deg ≤ 1000) : degMin fl deg 0 = deg := by
  rw [degMin, Nat.cast_zero, zero_div, fl.round_zero, add_zero]
  exact fl.exact _ (isDouble_natCast (h.trans (by norm_num)))

/-- With minutes the degrees are passed, by more than the rounding takes away. -/
theorem lt_degMin (fl : Rounding) (h : deg ≤ 1000) (hmin : 0 < min10) : (deg : ℚ) < degMin fl deg min10 := by
  have h1024 : IsDouble (1 / 1024) := by simpa using isDouble_1024th (z := 1) (by norm_num)
  have hpos : (1 : ℚ) ≤ min10 := by exact_mod_cast hmin
  have hfrac : 1 / 1024 ≤ fl.round ((min10 : ℚ) / 600) := fl.ge_of_ge h1024 (by linarith)
  have hsum := fl.ge_of_ge (isDouble_past h) (show (deg : ℚ) + 1 / 1024 ≤ deg + fl.round (min10 / 600) by linarith)
  have hpast : (deg : ℚ) < deg + 1 / 1024 := by norm_num
  exact hpast.trans_le hsum

/-- Minutes stay below the next degree. -/
theorem degMin_le_succ (fl : Rounding) (h : deg + 1 ≤ 1000) (hmin : min10 < 600) : degMin fl deg min10 ≤ (deg + 1 : ℕ) := by
  have hlt : (min10 : ℚ) < 600 := by exact_mod_cast hmin
  have hfrac := fl.le_of_le (isDouble_natCast (n := 1) (by norm_num)) (show (min10 : ℚ) / 600 ≤ (1 : ℕ) by
    rw [Nat.cast_one, div_le_one (by norm_num)]
    exact hlt.le)
  refine fl.le_of_le (isDouble_natCast (h.trans (by norm_num))) ?_
  push_cast at hfrac ⊢
  linarith

/-- **Degrees and minutes within a limit**: the degrees are below it, or reach it without minutes. -/
theorem degMin_le_iff (fl : Rounding) (hdeg : deg ≤ 1000) (limit : ℕ) (hmin : min10 < 600) (hlimit : limit ≤ 1000) :
    degMin fl deg min10 ≤ limit ↔ deg < limit ∨ deg = limit ∧ min10 = 0 := by
  have hcast : ∀ {a b : ℕ}, a ≤ b → (a : ℚ) ≤ b := fun h => by exact_mod_cast h
  rcases Nat.lt_trichotomy deg limit with hlt | rfl | hgt
  · exact iff_of_true ((degMin_le_succ fl (by omega) hmin).trans (hcast hlt)) (Or.inl hlt)
  · rcases Nat.eq_zero_or_pos min10 with rfl | hpos
    · exact iff_of_true (degMin_zero fl hdeg).le (Or.inr ⟨rfl, rfl⟩)
    · exact iff_of_false (not_le.2 (lt_degMin fl hdeg hpos)) (by omega)
  · refine iff_of_false (not_le.2 ?_) (by omega)
    have hself : (deg : ℚ) ≤ degMin fl deg min10 := by
      rcases Nat.eq_zero_or_pos min10 with rfl | hpos
      · exact (degMin_zero fl hdeg).ge
      · exact (lt_degMin fl hdeg hpos).le
    have hlt : (limit : ℚ) < deg := by exact_mod_cast hgt
    exact hlt.trans_le hself

/-- The signs of the directions keep a position on the globe, or off it. -/
theorem signed_onGlobe {la lo : ℚ} (hla : 0 ≤ la) (hlo : 0 ≤ lo) (latDir lonDir : UInt8) :
    OnGlobe (signed latDir lonDir la lo) ↔ la ≤ 90 ∧ lo ≤ 180 := by
  have hsign : ∀ {p : Prop} [Decidable p] {v b : ℚ}, 0 ≤ v →
      (-b ≤ (if p then -v else v) ∧ (if p then -v else v) ≤ b ↔ v ≤ b) := fun {p} _ {v} {b} hv => by
    by_cases hp : p
    · rw [if_pos hp]
      exact ⟨fun h => by linarith [h.1], fun h => ⟨by linarith, by linarith⟩⟩
    · rw [if_neg hp]
      exact ⟨fun h => h.2, fun h => ⟨by linarith, h⟩⟩
  constructor
  · intro h
    exact ⟨(hsign hla).1 h.lat, (hsign hlo).1 h.lon⟩
  · rintro ⟨h1, h2⟩
    exact ⟨(hsign hla).2 h1, (hsign hlo).2 h2⟩

/-- A compact coordinate is on the globe unless it has minutes behind the last degree. -/
theorem compactValue_onGlobe (fl : Rounding) (h : compactAt text i = true) :
    OnGlobe (compactValue fl text i) ↔ ¬overEdge text i := by
  obtain ⟨-, -, -, -, -, h1, h2, h3, h4⟩ := compactAt_iff.1 h
  rw [compactValue, signed_onGlobe (degMin_nonneg _ _ _) (degMin_nonneg _ _ _)]
  have hlat : degMin fl (number text (i + 1) 2) (number text (i + 3) 3) ≤ 90 ↔ _ :=
    degMin_le_iff fl (h1.trans (by norm_num)) 90 h2 (by norm_num)
  have hlon : degMin fl (number text (i + 7) 3) (number text (i + 10) 3) ≤ 180 ↔ _ :=
    degMin_le_iff fl (h3.trans (by norm_num)) 180 h4 (by norm_num)
  rw [hlat, hlon]
  unfold overEdge
  omega

/-! ## The formats with a test of the sum -/

theorem guard_bind {p : Prop} [Decidable p] {β : Type} {f : Unit → Option β} {b : β} :
    (guard p >>= f) = some b ↔ p ∧ f () = some b := by
  by_cases hp : p
  · rw [guard, if_pos hp]
    exact ⟨fun h => ⟨hp, h⟩, fun h => h.2⟩
  · rw [guard, if_neg hp]
    exact ⟨fun h => absurd h (by simp [failure]), fun h => absurd h.1 hp⟩

/-- A limit on thousandths holds of the number as it is rounded. -/
theorem thousandths_le_iff (fl : Rounding) (n limit : ℕ) (h : limit ≤ 1000) :
    fl.round ((n : ℚ) / 1000) ≤ limit ↔ n ≤ limit * 1000 := by
  constructor
  · intro hle
    by_contra hlt
    have hnext : ((limit * 1000 + 1 : ℕ) : ℚ) ≤ n := by exact_mod_cast not_le.1 hlt
    push_cast at hnext
    have hpast := fl.ge_of_ge (isDouble_past h) (show (limit : ℚ) + 1 / 1024 ≤ n / 1000 by
      rw [le_div_iff₀ (by norm_num)]
      linarith)
    linarith
  · intro hle
    refine fl.le_of_le (isDouble_natCast (h.trans (by norm_num))) ?_
    rw [div_le_iff₀ (by norm_num)]
    exact_mod_cast hle

theorem digitsUpTo_eq {mem : ℕ → UInt8} {n p : ℕ} : digitsUpTo mem n p = n ↔ digitsAt mem p n = true := by
  rw [allAt_iff]
  induction n generalizing p with
  | zero => exact iff_of_true rfl fun k hk => absurd hk (Nat.not_lt_zero k)
  | succ n ih =>
    rw [digitsUpTo]
    constructor
    · intro h k hk
      split at h
      · next hd =>
        cases k with
        | zero => exact hd
        | succ k =>
          have := ih.1 (Nat.succ.inj h) k (Nat.lt_of_succ_lt_succ hk)
          rwa [show p + 1 + k = p + (k + 1) by omega] at this
      · exact absurd h (Nat.succ_ne_zero n).symm
    · intro h
      have hd : isDigit (mem p) = true := h 0 (Nat.zero_lt_succ n)
      rw [if_pos hd, ih.2 fun k hk => ?_]
      have := h (k + 1) (Nat.succ_lt_succ hk)
      rwa [show p + (k + 1) = p + 1 + k by omega] at this

/-- **A position of format 1**, behind the `POS` at `i`: a direction with five digits and one
with six, thousandths of degrees in range. -/
def posGood (mem : ℕ → UInt8) (i : ℕ) : Prop :=
  isLatDir (mem (i + 3)) = true ∧ digitsAt mem (i + 4) 5 = true ∧ isLonDir (mem (i + 9)) = true ∧
    digitsAt mem (i + 10) 6 = true ∧ number mem (i + 4) 5 ≤ 90 * 1000 ∧ number mem (i + 10) 6 ≤ 180 * 1000

instance (mem : ℕ → UInt8) (i : ℕ) : Decidable (posGood mem i) := inferInstanceAs (Decidable (_ ∧ _ ∧ _ ∧ _ ∧ _ ∧ _))

/-- Its value. -/
def posValue (fl : Rounding) (mem : ℕ → UInt8) (i : ℕ) : Coord :=
  signed (mem (i + 3)) (mem (i + 9)) (fl.round (number mem (i + 4) 5 / 1000)) (fl.round (number mem (i + 10) 6 / 1000))

/-- **What format 1 accepts.** -/
theorem posAt_iff : posAt fl text i = some coord ↔ posGood text i ∧ posValue fl text i = coord := by
  have hnonneg : ∀ n : ℕ, 0 ≤ fl.round ((n : ℚ) / 1000) := fun n => fl.round_nonneg (by positivity)
  have hlat : fl.round (number text (i + 4) 5 / 1000) ≤ 90 ↔ _ := thousandths_le_iff fl _ 90 (by norm_num)
  have hlon : fl.round (number text (i + 10) 6 / 1000) ≤ 180 ↔ _ := thousandths_le_iff fl _ 180 (by norm_num)
  unfold posAt
  simp only [guard_bind]
  constructor
  · rintro ⟨h1, h2, h3, h4, h5, h6⟩
    rw [h2] at h3 h4 h5 h6
    exact ⟨⟨h1, digitsUpTo_eq.1 h2, h3, digitsUpTo_eq.1 h4, hlat.1 h5.2.1, hlon.1 h5.2.2.2⟩, Option.some.inj h6⟩
  · rintro ⟨⟨h1, h2, h3, h4, h5, h6⟩, rfl⟩
    have hdigits : digitsUpTo text 5 (i + 4) = 5 := digitsUpTo_eq.2 h2
    refine ⟨h1, hdigits, ?_⟩
    rw [hdigits]
    exact ⟨h3, digitsUpTo_eq.2 h4, ⟨hnonneg _, hlat.2 h5, hnonneg _, hlon.2 h6⟩, rfl⟩

theorem posFormat_onGlobe (h : posFormat fl text = some coord) : OnGlobe coord := by
  obtain ⟨i, -, hpos⟩ := Option.bind_eq_some_iff.1 h
  obtain ⟨⟨-, -, -, -, hlat, hlon⟩, rfl⟩ := posAt_iff.1 hpos
  rw [posValue, signed_onGlobe (fl.round_nonneg (by positivity)) (fl.round_nonneg (by positivity))]
  exact ⟨(thousandths_le_iff fl _ 90 (by norm_num)).2 hlat, (thousandths_le_iff fl _ 180 (by norm_num)).2 hlon⟩

theorem degreesAt_range {b v : ℚ} {p e : ℕ} (h : degreesAt fl text b p = some (v, e)) : 0 ≤ v ∧ v ≤ b := by
  simp only [degreesAt, Option.bind_eq_bind, Option.bind_eq_some_iff, Option.guard_eq_some'] at h
  obtain ⟨-, -, w, -, -, hrange, heq⟩ := h
  cases heq
  exact hrange

theorem latLonFormat_onGlobe (h : latLonFormat fl text = some coord) : OnGlobe coord := by
  simp only [latLonFormat, latAt, lonAt, Option.bind_eq_bind, Option.bind_eq_some_iff, Option.guard_eq_some'] at h
  obtain ⟨i, -, ⟨latDir, la, e⟩, ⟨-, -, ⟨v, e'⟩, hlat, heq⟩, j, -, ⟨lonDir, lo⟩, ⟨-, -, ⟨w, e''⟩, hlon, heq'⟩, heq''⟩ := h
  cases heq
  cases heq'
  cases heq''
  obtain ⟨hla, hle⟩ := degreesAt_range hlat
  obtain ⟨hlo, hle'⟩ := degreesAt_range hlon
  exact (signed_onGlobe hla hlo _ _).2 ⟨hle, hle'⟩

/-! ## All texts -/

/-- **A text position is on the globe**, unless the label and the text are such that format 2
is reached, and its leftmost coordinate has minutes behind 90 or 180 degrees. -/
theorem text_position_onGlobe_iff (fl : Rounding) (label text : CString) (hfuel : text.len < fuel) :
    (∀ coord, (acarsExtractTextPosition fl fuel label text).run.val = some (some coord) → OnGlobe coord) ↔
      ¬(labelOk label = true ∧ isFpn label text = false ∧ posFormat fl text = none ∧
        ∃ i, IsLeast {i | i < text.len ∧ compactAt text i = true} i ∧ overEdge text i) := by
  have htext := returns_textPosition fl label text hfuel
  constructor
  · rintro hall ⟨hlabel, hfpn, hpos, i, hi, hedge⟩
    have hne : text 0 ≠ 0 := text.noNul 0 (by have := hi.1.1; omega)
    have hleft : leftmostCompact text 0 = some i := first?_isLeast.2 hi
    rw [if_pos ⟨hne, hlabel, hfpn⟩, hpos, hleft] at htext
    exact (compactValue_onGlobe fl hi.1.2).1 (hall _ htext.value) hedge
  · intro hnot coord hcoord
    have hval := htext.eq hcoord
    split at hval
    · next hok =>
      cases hpos : posFormat fl text with
      | some c =>
        rw [hpos] at hval
        rw [Option.some.inj hval]
        exact posFormat_onGlobe hpos
      | none =>
        rw [hpos, Option.none_or] at hval
        cases hleft : leftmostCompact text 0 with
        | some i =>
          have hi := first?_isLeast.1 hleft
          rw [hleft] at hval
          rw [Option.some.inj hval]
          exact (compactValue_onGlobe fl hi.1.2).2 fun hedge => hnot ⟨hok.2.1, hok.2.2, hpos, i, hi, hedge⟩
        | none =>
          rw [hleft] at hval
          exact latLonFormat_onGlobe hval.symm
    · exact absurd hval (by simp)

/-! ## Two texts -/

/-- A tenth of a minute behind the pole. -/
def pastPole : CString := .ofList (chars "N90001W000000") (by decide)

/-- 45 degrees and 30 minutes. -/
def midLatitude : CString := .ofList (chars "N45300W090300") (by decide)

/-- A tenth of a minute behind the pole is returned. -/
theorem pastPole_off_globe : ∃ coord,
    (acarsExtractTextPosition binary64 14 labelH1 pastPole).run.val = some (some coord) ∧ ¬OnGlobe coord :=
  ⟨⟨791663032153757 / 8796093022208, 0⟩, by decide +kernel, fun h => absurd h.lat.2 (by norm_num)⟩

/-- What is returned of 45 degrees and 30 minutes is on the globe. -/
theorem midLatitude_onGlobe :
    (acarsExtractTextPosition binary64 14 labelH1 midLatitude).run.val = some (some ⟨91 / 2, -(181 / 2)⟩) ∧
      ∀ coord, (acarsExtractTextPosition binary64 14 labelH1 midLatitude).run.val = some (some coord) → OnGlobe coord := by
  refine ⟨by decide +kernel, (text_position_onGlobe_iff binary64 labelH1 midLatitude (by decide)).2 ?_⟩
  rintro ⟨-, -, -, i, hi, hedge⟩
  have hfirst : first? (compactAt midLatitude) 0 midLatitude.len = some 0 := by decide
  obtain rfl : 0 = i := Option.some.inj (hfirst.symm.trans (first?_isLeast.2 hi))
  rcases hedge with ⟨h90, -⟩ | ⟨h180, -⟩
  · exact absurd h90 (by decide)
  · exact absurd h180 (by decide)

end InmarsatSniffer.AcarsText
