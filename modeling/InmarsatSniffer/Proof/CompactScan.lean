import Mathlib
import InmarsatSniffer.Spec.AcarsPosition

/-!
# The scan for compact coordinates

`compact_scan_exact`: format 2 of `acars_extract_text_position` ends, reads only the text, and
finds the leftmost compact coordinate.

* `compactAt`: what a compact coordinate is.
* `returns_compactScan`: the scan from any index of the text on.
-/

namespace InmarsatSniffer.AcarsText

open CString Rounding
open Logged (Returns)

variable {fl : Rounding} {label text : CString} {fuel s p n : ℕ} {c : UInt8}

/-- `n` digits stand from `p` on. -/
abbrev digitsAt (mem : ℕ → UInt8) (p n : ℕ) : Bool := allAt isDigit mem p n

/-- **A compact coordinate**: a direction with five digits and one with exactly six, degrees
in range, and fewer than 600 tenths of minutes. -/
def compactAt (mem : ℕ → UInt8) (i : ℕ) : Bool :=
  isLatDir (mem i) && digitsAt mem (i + 1) 5 && isLonDir (mem (i + 6)) && digitsAt mem (i + 7) 6 &&
    !isDigit (mem (i + 13)) && number mem (i + 1) 2 ≤ 90 && number mem (i + 3) 3 < 600 &&
    number mem (i + 7) 3 ≤ 180 && number mem (i + 10) 3 < 600

/-- Its value. -/
def compactValue (fl : Rounding) (mem : ℕ → UInt8) (i : ℕ) : Coord :=
  signed (mem i) (mem (i + 6)) (degMin fl (number mem (i + 1) 2) (number mem (i + 3) 3))
    (degMin fl (number mem (i + 7) 3) (number mem (i + 10) 3))

/-- The leftmost compact coordinate from an index on. -/
def leftmostCompact (text : CString) (s : ℕ) : Option ℕ := first? (compactAt text) s text.len

/-! ## Directions and digits -/

theorem isDigit_zero : isDigit 0 = false := by decide

theorem isLatDir_ne_zero (h : isLatDir c = true) : c ≠ 0 := by
  rintro rfl
  exact absurd h (by decide)

theorem isLonDir_ne_zero (h : isLonDir c = true) : c ≠ 0 := by
  rintro rfl
  exact absurd h (by decide)

theorem isLonDir_not_digit (h : isLonDir c = true) : isDigit c = false := by
  rw [isLonDir, Bool.or_eq_true, beq_iff_eq, beq_iff_eq] at h
  rcases h with rfl | rfl <;> decide

/-- Degrees and tenths of minutes in range, of a latitude and of a longitude. -/
def minutesInRange (mem : ℕ → UInt8) (lat lon : ℕ) : Prop :=
  number mem lat 2 ≤ 90 ∧ number mem (lat + 2) 3 < 600 ∧ number mem lon 3 ≤ 180 ∧ number mem (lon + 3) 3 < 600

instance (mem : ℕ → UInt8) (lat lon : ℕ) : Decidable (minutesInRange mem lat lon) :=
  inferInstanceAs (Decidable (_ ∧ _ ∧ _ ∧ _))

theorem compactAt_iff {mem : ℕ → UInt8} : compactAt mem s = true ↔ isLatDir (mem s) = true ∧
    (∀ k < 5, isDigit (mem (s + 1 + k)) = true) ∧ isLonDir (mem (s + 6)) = true ∧
    (∀ k < 6, isDigit (mem (s + 7 + k)) = true) ∧ isDigit (mem (s + 13)) = false ∧
    minutesInRange mem (s + 1) (s + 7) := by
  unfold compactAt minutesInRange
  simp only [Bool.and_eq_true, Bool.not_eq_true', decide_eq_true_eq, allAt_iff, and_assoc]

/-! ## One candidate -/

/-- The values of a candidate, if it is in range. -/
theorem returns_compactValues (latDir lonDir : UInt8) {lat lon : ℕ} (hlat : lat + 5 ≤ text.len)
    (hlon : lon + 6 ≤ text.len) :
    Returns (· ≤ text.len) (compactValues fl text latDir lonDir lat lon)
      (if minutesInRange text lat lon then
        some (signed latDir lonDir (degMin fl (number text lat 2) (number text (lat + 2) 3))
          (degMin fl (number text lon 3) (number text (lon + 3) 3)))
      else none) := by
  unfold compactValues
  refine (CString.returns_readNumber (by omega)).bind ?_
  refine (CString.returns_readNumber (by omega)).bind ?_
  refine (CString.returns_readNumber (by omega)).bind ?_
  refine (CString.returns_readNumber (by omega)).bind ?_
  refine Returns.ite (fun hrange => ?_) fun hrange => ?_
  · rw [if_pos (show minutesInRange text lat lon from hrange)]
    exact Returns.pure _
  · rw [if_neg (show ¬minutesInRange text lat lon from hrange)]
    exact Returns.pure _

/-- **A candidate** is taken exactly if it is a compact coordinate. -/
theorem returns_compactCandidate (hdir : isLatDir (text s) = true) (hs : s < text.len) (hfuel : text.len < fuel) :
    Returns (· ≤ text.len) (compactCandidate fl text fuel (text s) (s + 1))
      (if compactAt text s then some (compactValue fl text s) else none) := by
  have hs' : s + 1 ≤ text.len := hs
  have hspan := CString.span_sub_iff (n := 5) isDigit_zero hs'
  have hnone : compactAt text s ≠ true →
      Returns (· ≤ text.len) (pure none) (if compactAt text s then some (compactValue fl text s) else none) := fun h => by
    rw [if_neg h]
    exact Returns.pure _
  unfold compactCandidate
  refine (CString.returns_scanWhile isDigit_zero hs' (by omega)).bind ?_
  refine Returns.ite (fun hn => ?_) fun hn => hnone fun h => ?_
  · -- five digits and no more, so what follows them is the end of their run
    obtain ⟨hdigits, -⟩ := hspan.1 hn
    have hle : s + 6 ≤ text.len := CString.add_le_len (n := 5) isDigit_zero hs' hdigits
    rw [hn]
    refine (CString.returns_readChar hle).bind ?_
    refine Returns.ite (fun hlon => ?_) fun hlon => hnone fun h => hlon (compactAt_iff.1 h).2.2.1
    have hlt : s + 7 ≤ text.len := CString.lt_len hle (isLonDir_ne_zero hlon)
    have hspan' := CString.span_sub_iff (n := 6) isDigit_zero hlt
    refine (CString.returns_scanWhile isDigit_zero hlt (by omega)).bind ?_
    refine Returns.ite (fun hm => ?_) fun hm => hnone fun h => ?_
    · obtain ⟨hdigits', hend⟩ := hspan'.1 hm
      have hle' := CString.add_le_len isDigit_zero hlt hdigits'
      have hcompact : compactAt text s = true ↔ minutesInRange text (s + 1) (s + 7) := by
        rw [compactAt_iff]
        exact ⟨fun h => h.2.2.2.2.2, fun h => ⟨hdir, hdigits, hlon, hdigits', hend, h⟩⟩
      rw [if_congr hcompact rfl rfl]
      exact returns_compactValues (text s) (text (s + 6)) hle hle'
    · obtain ⟨-, -, -, hdigits', hend, -⟩ := compactAt_iff.1 h
      exact hm (hspan'.2 ⟨hdigits', hend⟩)
  · obtain ⟨-, hdigits, hlon, -⟩ := compactAt_iff.1 h
    exact hn (hspan.2 ⟨hdigits, isLonDir_not_digit hlon⟩)

/-! ## The scan -/

/-- **The scan ends** with the leftmost compact coordinate, and reads only the text: a
candidate that fails sends it back to the character behind its direction. -/
theorem returns_compactScan (fl : Rounding) (hs : s ≤ text.len) (hfuel : text.len < fuel) :
    Returns (· ≤ text.len) (compactScan fl text fuel s) ((leftmostCompact text s).map (compactValue fl text)) := by
  refine Returns.loop (· ≤ text.len) (text.len - ·) (fun s => (leftmostCompact text s).map (compactValue fl text))
    (fun s hs => ?_) hs (by omega)
  by_cases hend : text s = 0
  · -- the NUL
    have hlen : s = text.len := by
      by_contra hne
      exact text.noNul s (by omega) hend
    refine Or.inl ((CString.returns_readChar hs).bind ?_)
    rw [if_pos hend, leftmostCompact, hlen, first?_of_le le_rfl]
    exact Returns.pure _
  have hlt : s < text.len := CString.lt_len hs hend
  have hstep : leftmostCompact text s = if compactAt text s then some s else leftmostCompact text (s + 1) := first?_step hlt
  have hskip : compactAt text s ≠ true →
      (leftmostCompact text (s + 1)).map (compactValue fl text) = (leftmostCompact text s).map (compactValue fl text) :=
    fun h => by rw [hstep, if_neg h]
  by_cases hdir : isLatDir (text s) = true
  · by_cases hdigit : isDigit (text (s + 1)) = true
    · by_cases hcompact : compactAt text s = true
      · refine Or.inl ((CString.returns_readChar hs).bind ?_)
        rw [if_neg hend, if_pos hdir]
        refine (CString.returns_readChar hlt).bind ?_
        rw [if_pos hdigit]
        refine (returns_compactCandidate hdir hlt hfuel).bind ?_
        rw [if_pos hcompact, hstep, if_pos hcompact]
        exact Returns.pure _
      · refine Or.inr ⟨s + 1, (CString.returns_readChar hs).bind ?_, hlt, by omega, hskip hcompact⟩
        rw [if_neg hend, if_pos hdir]
        refine (CString.returns_readChar hlt).bind ?_
        rw [if_pos hdigit]
        refine (returns_compactCandidate hdir hlt hfuel).bind ?_
        rw [if_neg hcompact]
        exact Returns.pure _
    · refine Or.inr ⟨s + 1, (CString.returns_readChar hs).bind ?_, hlt, by omega, hskip fun h => ?_⟩
      · rw [if_neg hend, if_pos hdir]
        refine (CString.returns_readChar hlt).bind ?_
        rw [if_neg hdigit]
        exact Returns.pure _
      · exact hdigit ((compactAt_iff.1 h).2.1 0 (by omega))
  · refine Or.inr ⟨s + 1, (CString.returns_readChar hs).bind ?_, hlt, by omega, hskip fun h => hdir (compactAt_iff.1 h).1⟩
    rw [if_neg hend, if_neg hdir]
    exact Returns.pure _

/-- **The position of a text**, format by format: it is found, and only the text is read. -/
theorem returns_textPosition (fl : Rounding) (label text : CString) (hfuel : text.len < fuel) :
    Returns (· ≤ text.len) (acarsExtractTextPosition fl fuel label text)
      (if text 0 ≠ 0 ∧ labelOk label = true ∧ isFpn label text = false then
        (posFormat fl text).or (((leftmostCompact text 0).map (compactValue fl text)).or (latLonFormat fl text))
      else none) := by
  unfold acarsExtractTextPosition
  by_cases hok : text 0 ≠ 0 ∧ labelOk label = true ∧ isFpn label text = false
  · rw [if_pos hok]
    obtain ⟨hne, hlabel, hfpn⟩ := hok
    rw [if_neg hne, if_neg (by rw [hlabel]; decide), if_neg (by rw [hfpn]; decide)]
    cases hpos : posFormat fl text with
    | some coord => exact Returns.pure _
    | none =>
      refine (returns_compactScan fl (Nat.zero_le _) hfuel).bind ?_
      cases (leftmostCompact text 0).map (compactValue fl text) with
      | some coord => exact Returns.pure _
      | none => exact Returns.pure _
  · rw [if_neg hok]
    refine Returns.ite (fun _ => Returns.pure _) fun hne => ?_
    refine Returns.ite (fun _ => Returns.pure _) fun hlabel => ?_
    refine Returns.ite (fun _ => Returns.pure _) fun hfpn => ?_
    exact absurd ⟨hne, by simpa using hlabel, by simpa using hfpn⟩ hok

/-- **The compact scan is exact**: of a text without a position of format 1 it finds the
leftmost compact coordinate, if there is one, ends, and reads nothing behind the NUL. -/
theorem compact_scan_exact (fl : Rounding) (label text : CString) (hlabel : labelOk label = true) (hfpn : isFpn label text = false)
    (hpos : posFormat fl text = none) (hfuel : text.len < fuel) :
    (∀ i, IsLeast {i | i < text.len ∧ compactAt text i = true} i →
      Returns (· ≤ text.len) (compactScan fl text fuel 0) (some (compactValue fl text i)) ∧
        Returns (· ≤ text.len) (acarsExtractTextPosition fl fuel label text) (some (compactValue fl text i))) ∧
    ((∀ i < text.len, compactAt text i = false) → Returns (· ≤ text.len) (compactScan fl text fuel 0) none) := by
  have hscan := returns_compactScan fl (Nat.zero_le text.len) hfuel
  have htext := returns_textPosition fl label text hfuel
  refine ⟨fun i hi => ?_, fun h => ?_⟩
  · have hleft : leftmostCompact text 0 = some i := first?_isLeast.2 hi
    have hne : text 0 ≠ 0 := text.noNul 0 (by have := hi.1.1; omega)
    rw [hleft] at hscan
    rw [if_pos ⟨hne, hlabel, hfpn⟩, hpos, hleft] at htext
    exact ⟨hscan, htext⟩
  · have hnone : leftmostCompact text 0 = none := first?_eq_none.2 fun i _ hi => h i hi
    rw [hnone] at hscan
    exact hscan

/-- The label of a position report. -/
def labelH1 : CString := .ofList (chars "H1") (by decide)

/-- A position report in which a direction with too few digits stands before the coordinate. -/
def nearMatch : CString := .ofList (chars "N3352N33521W084123/") (by decide +kernel)

/-- Of it the coordinate is found, and nothing is read behind its end. -/
theorem nearMatch_found :
    Returns (· ≤ 19) (compactScan binary64 nearMatch 20 0) (some (compactValue binary64 nearMatch 5)) ∧
      Returns (· ≤ 19) (acarsExtractTextPosition binary64 20 labelH1 nearMatch)
        (some (compactValue binary64 nearMatch 5)) :=
  (compact_scan_exact binary64 labelH1 nearMatch (by decide) (by decide) (by decide +kernel) (by decide)).1 5
    (first?_isLeast.1 (by decide +kernel))

end InmarsatSniffer.AcarsText
