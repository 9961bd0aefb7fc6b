import Mathlib
import InmarsatSniffer.Spec.Waypoints
import InmarsatSniffer.Proof.CompactScan

/-!
# The first known name of a text

`waypoint_position_iff`: `acars_extract_waypoint_position` gives the position of the first
token of the text that is a known name, unless that token is one it does not look at: the
first of the text, or the first of a line.

* `waypointDbLookup_isSome_iff`: the database knows the idents of its entries.
* `tried`: the places of the text at which the scan looks for a name.
* `returns_identScan`: the scan finds the first place with a known name.
-/

namespace InmarsatSniffer.AcarsText

open BinarySearch CString
open Logged (Returns)

variable {db : WaypointDb} {st : Learned} {label text : CString} {fuel s i : ℕ} {c : UInt8} {ident : List UInt8}
  {coord : Coord} {mem : ℕ → UInt8}

/-! ## The database -/

instance : Std.TransCmp strcmp := inferInstanceAs (Std.TransCmp (List.compareLex compare))

instance : Std.LawfulEqCmp strcmp := inferInstanceAs (Std.LawfulEqCmp (List.compareLex compare))

theorem strcmp_eq {a b : List UInt8} : strcmp a b = .eq ↔ a = b := Std.LawfulEqCmp.compare_eq_iff_eq

/-- The entries of the database compare with a key in one direction. -/
theorem db_descending (db : WaypointDb) (key : List UInt8) : Descending (fun e => strcmp key e.ident) db.entries :=
  descending_of_sorted key db.sorted

/-- What the database finds is the position of an entry with this ident. -/
theorem waypointDbLookup_some (h : waypointDbLookup db ident = some coord) :
    ∃ e ∈ db.entries, e.ident = ident.take 5 ∧ e.coord = coord := by
  unfold waypointDbLookup at h
  split at h
  · exact absurd h (by simp)
  · obtain ⟨e, he, rfl⟩ := Option.map_eq_some_iff.1 h
    obtain ⟨hmem, heq⟩ := bsearch_mem he
    exact ⟨e, hmem, (strcmp_eq.1 heq).symm, rfl⟩

/-- **The database knows the idents of its entries.** -/
theorem waypointDbLookup_isSome_iff (h : ident ≠ []) :
    (waypointDbLookup db ident).isSome = true ↔ ∃ e ∈ db.entries, e.ident = ident.take 5 := by
  constructor
  · intro hsome
    obtain ⟨coord, hcoord⟩ := Option.isSome_iff_exists.1 hsome
    obtain ⟨e, he, hident, -⟩ := waypointDbLookup_some hcoord
    exact ⟨e, he, hident⟩
  · rintro ⟨e, he, hident⟩
    have hne : ¬(db.entries = [] ∨ ident = []) := by
      rintro (hdb | hid)
      · rw [hdb] at he
        exact absurd he List.not_mem_nil
      · exact h hid
    unfold waypointDbLookup
    rw [if_neg hne, Option.isSome_map]
    cases hb : bsearch (fun e => strcmp (ident.take 5) e.ident) db.entries db.entries.length 0 db.entries.length with
    | some e' => rfl
    | none =>
      have hnone := bsearch_none (db_descending db _) le_rfl (Nat.sub_le _ _)
        (fun i a _ hi => absurd hi (Nat.not_lt_zero i))
        (fun i a ha hi => absurd (List.getElem?_eq_some_iff.1 ha).1 (not_lt.2 hi)) hb e he
      exact absurd (strcmp_eq.2 hident.symm) hnone

/-! ## The scan -/

/-- Five upper case letters that end as a name does. -/
def isName (mem : ℕ → UInt8) (i : ℕ) : Bool := allAt isUpper mem i 5 && isIdentEnd (mem (i + 5))

/-- What the tables know of the five characters at an index. -/
def known (db : WaypointDb) (st : Learned) (mem : ℕ → UInt8) (i : ℕ) : Option Coord := lookupIdent db st (charsAt mem i 5)

/-- **A name that the scan tries**: it stands behind a comma, a space, a slash or a period. -/
def tried (mem : ℕ → UInt8) (i : ℕ) : Bool := isDelim (mem (i - 1)) && isName mem i

/-- The first name behind an index that is tried and known. -/
def firstTried (db : WaypointDb) (st : Learned) (text : CString) (s : ℕ) : Option ℕ :=
  first? (fun i => tried text i && (known db st text i).isSome) (s + 1) text.len

theorem isUpper_zero : isUpper 0 = false := by decide

theorem isDelim_zero : isDelim 0 = false := by decide

theorem isDelim_not_upper (h : isDelim c = true) : isUpper c = false := by
  unfold isDelim at h
  simp only [Bool.or_eq_true, beq_iff_eq] at h
  rcases h with ((rfl | rfl) | rfl) | rfl <;> decide

/-- The test at one place. -/
theorem returns_identAt (hi : i ≤ text.len) :
    Returns (· ≤ text.len) (identAt db st text i) (if isName text i then known db st text i else none) := by
  unfold identAt
  refine (CString.returns_areAll isUpper_zero hi).bind ?_
  unfold isName
  cases hup : allAt isUpper text i 5 with
  | false => exact Returns.pure _
  | true =>
    have hle := CString.add_le_len isUpper_zero hi (allAt_iff.1 hup)
    rw [if_neg (by decide)]
    refine (CString.returns_readChar hle).bind ?_
    cases hend : isIdentEnd (text (i + 5)) with
    | false => exact Returns.pure _
    | true =>
      rw [if_neg (by decide)]
      exact (CString.returns_readChars (by omega)).bind (Returns.pure _)

/-- Behind what is no delimiter nothing is tried. -/
theorem firstTried_skip {q : ℕ} (hsq : s ≤ q) (h : ∀ i, s ≤ i → i < q → isDelim (text i) = false) :
    firstTried db st text s = firstTried db st text q := by
  refine first?_skip (by omega) fun i h1 h2 _ => ?_
  have hno : isDelim (text (i - 1)) = false := h (i - 1) (by omega) (by omega)
  rw [tried, hno]
  rfl

/-- Where a delimiter stands nothing is tried. -/
theorem tried_delim (h : isDelim (text i) = true) : (tried text i && (known db st text i).isSome) = false := by
  have hname : isName text i = false := by
    rw [isName, allAt_succ, isDelim_not_upper h]
    rfl
  rw [tried, hname, Bool.and_false]
  rfl

theorem firstTried_delims {q : ℕ} (hsq : s < q) (h : ∀ i, s < i → i < q → isDelim (text i) = true) (hq : q < text.len) :
    firstTried db st text s =
      if tried text q && (known db st text q).isSome then some q else firstTried db st text q := by
  unfold firstTried
  rw [first?_skip (show s + 1 ≤ q by omega) fun i h1 h2 _ => tried_delim (h i h1 h2), first?_step hq]

theorem inChunk_zero : inChunk 0 = false := by decide

theorem inChunk_not_delim (h : inChunk c = true) : isDelim c = false := by
  rw [inChunk, Bool.and_eq_true, Bool.not_eq_true'] at h
  exact h.2

/-- What ends a chunk is a delimiter or the NUL. -/
theorem isDelim_of_end (h : inChunk c = false) (hne : c ≠ 0) : isDelim c = true := by
  rw [inChunk, Bool.and_eq_false_iff, Bool.not_eq_false'] at h
  exact h.resolve_left fun h0 => hne (by simpa using h0)

/-- **One round** finds a known name behind the next delimiters, or passes on. -/
theorem ident_round (db : WaypointDb) (st : Learned) (hfuel : text.len < fuel) (hs : s ≤ text.len) :
    Returns (· ≤ text.len) (identRound db st text fuel s) (.inr ((firstTried db st text s).bind (known db st text))) ∨
      ∃ s', Returns (· ≤ text.len) (identRound db st text fuel s) (.inl s') ∧ s' ≤ text.len ∧
        text.len - s' < text.len - s ∧
        (firstTried db st text s').bind (known db st text) = (firstTried db st text s).bind (known db st text) := by
  unfold identRound
  have hread := CString.returns_readChar hs
  by_cases hend : text s = 0
  · -- the NUL
    have hnone : firstTried db st text s = none := by
      have hlen : text.len ≤ s := by
        by_contra hlt
        exact text.noNul s (by omega) hend
      exact first?_of_le (by omega)
    refine Or.inl (hread.bind ?_)
    rw [if_pos hend, hnone]
    exact Returns.pure _
  -- the rest of the chunk, the delimiters, the next chunk
  obtain ⟨h1, h1l, hchunk, hstop⟩ := CString.span_spec (t := text) hs inChunk_zero
  have hscan1 := CString.returns_scanWhile (t := text) inChunk_zero hs (show text.len - s < fuel by omega)
  generalize text.span inChunk s = s₁ at h1 h1l hchunk hstop hscan1
  obtain ⟨h2, h2l, hdelims, hstop2⟩ := CString.span_spec (t := text) h1l isDelim_zero
  have hscan2 := CString.returns_scanWhile (t := text) isDelim_zero h1l (show text.len - s₁ < fuel by omega)
  generalize text.span isDelim s₁ = s₂ at h2 h2l hdelims hstop2 hscan2
  obtain ⟨h3, h3l, hchunk3, -⟩ := CString.span_spec (t := text) h2l inChunk_zero
  have hscan3 := CString.returns_scanWhile (t := text) inChunk_zero h2l (show text.len - s₂ < fuel by omega)
  generalize text.span inChunk s₂ = s₃ at h3 h3l hchunk3 hscan3
  have hfirst : firstTried db st text s = firstTried db st text s₁ :=
    firstTried_skip h1 fun i hi hi' => inChunk_not_delim (hchunk i hi hi')
  have hlast : firstTried db st text s₂ = firstTried db st text s₃ :=
    firstTried_skip h3 fun i hi hi' => inChunk_not_delim (hchunk3 i hi hi')
  have hless : s < s₂ := by
    by_contra hle
    obtain rfl : s = s₁ := by omega
    obtain rfl : s = s₂ := by omega
    exact absurd (isDelim_of_end hstop hend) (by rw [hstop2]; exact Bool.false_ne_true)
  have hstep : firstTried db st text s =
      if isName text s₂ && (known db st text s₂).isSome then some s₂ else firstTried db st text s₃ := by
    rw [hfirst, ← hlast]
    rcases Nat.lt_or_ge s₂ text.len with hlt | hge
    · -- a character follows the delimiters, so there are some
      have hsome : s₁ < s₂ := by
        by_contra hle
        obtain rfl : s₁ = s₂ := by omega
        exact absurd (isDelim_of_end hstop (text.noNul s₁ hlt)) (by rw [hstop2]; exact Bool.false_ne_true)
      rw [firstTried_delims hsome (fun i hi hi' => hdelims i (by omega) hi') hlt, tried, hdelims (s₂ - 1) (by omega) (by omega),
        Bool.true_and]
    · -- the text ends with them
      obtain rfl : s₂ = text.len := by omega
      have hno : isName text text.len = false := by
        rw [isName, allAt_succ, text.nul, isUpper_zero]
        rfl
      rw [hno, Bool.false_and, if_neg Bool.false_ne_true]
      exact first?_skip (by omega) fun i hi _ hlt => tried_delim (hdelims i (by omega) hlt)
  have hname : Returns (· ≤ text.len) (identAt db st text s₂) (if isName text s₂ then known db st text s₂ else none) :=
    returns_identAt h2l
  cases hfound : (if isName text s₂ then known db st text s₂ else none) with
  | some coord =>
    rw [hfound] at hname
    have hknown : isName text s₂ = true ∧ known db st text s₂ = some coord := by
      split at hfound
      · next h => exact ⟨h, hfound⟩
      · exact absurd hfound (by simp)
    refine Or.inl (hread.bind ?_)
    rw [if_neg hend, hstep, hknown.1, hknown.2, if_pos (by rfl), Option.bind_some, hknown.2]
    exact hscan1.bind (hscan2.bind (hname.bind (Returns.pure _)))
  | none =>
    rw [hfound] at hname
    have hunknown : (isName text s₂ && (known db st text s₂).isSome) = false := by
      cases hn : isName text s₂ with
      | false => rfl
      | true =>
        rw [hn, if_pos rfl] at hfound
        rw [hfound]
        rfl
    refine Or.inr ⟨s₃, hread.bind ?_, h3l, by omega, by rw [hstep, hunknown, if_neg Bool.false_ne_true]⟩
    rw [if_neg hend]
    exact hscan1.bind (hscan2.bind (hname.bind (hscan3.bind (Returns.pure _))))

/-- **The scan** finds the first known name that is tried, and reads only the text. -/
theorem returns_identScan (db : WaypointDb) (st : Learned) (hfuel : text.len < fuel) (hs : s ≤ text.len) :
    Returns (· ≤ text.len) (identScan db st text fuel s) ((firstTried db st text s).bind (known db st text)) :=
  Returns.loop (· ≤ text.len) (text.len - ·) (fun s => (firstTried db st text s).bind (known db st text))
    (fun _ hs => ident_round db st hfuel hs) hs (by omega)

/-! ## Tokens -/

/-- Where the text starts, behind one leading `POS`. -/
def textStart (mem : ℕ → UInt8) : ℕ := if matchesAt mem 0 "POS".toList then 3 else 0

/-- What separates tokens: all that may follow a name. -/
def isTokenSep (c : UInt8) : Bool := isDelim c || c == chr '\r' || c == chr '\n'

/-- **A token**: a maximal run of characters that separate nothing. -/
structure IsToken (text : CString) (i e : ℕ) : Prop where
  start_le : textStart text ≤ i
  nonempty : i < e
  inText : e ≤ text.len
  run : ∀ k, i ≤ k → k < e → isTokenSep (text k) = false
  starts : i = textStart text ∨ isTokenSep (text (i - 1)) = true
  ends : e = text.len ∨ isTokenSep (text e) = true

/-- A token of five upper case letters that a table knows. -/
structure KnownName (db : WaypointDb) (st : Learned) (text : CString) (i : ℕ) : Prop where
  token : IsToken text i (i + 5)
  upper : allAt isUpper text i 5 = true
  known : (known db st text i).isSome = true

/-- The token stands behind a comma, a space, a slash or a period. -/
def BehindDelim (text : CString) (i : ℕ) : Prop := textStart text < i ∧ isDelim (text (i - 1)) = true

/-- **The first known name is found**: the fallback gives its position, and none if there is
no known name. -/
def FirstNameFound (db : WaypointDb) (st : Learned) (fuel : ℕ) (label text : CString) : Prop :=
  (∀ i, IsLeast {i | KnownName db st text i} i →
    (acarsExtractWaypointPosition db st fuel label text).run.val = some (known db st text i)) ∧
  ((∀ i, ¬KnownName db st text i) → (acarsExtractWaypointPosition db st fuel label text).run.val = some none)

theorem isTokenSep_of_delim (h : isDelim c = true) : isTokenSep c = true := by
  rw [isTokenSep, h]
  rfl

theorem isUpper_not_sep (h : isUpper c = true) : isTokenSep c = false := by
  cases hsep : isTokenSep c with
  | false => rfl
  | true =>
    unfold isTokenSep isDelim at hsep
    simp only [Bool.or_eq_true, beq_iff_eq] at hsep
    rcases hsep with ((((rfl | rfl) | rfl) | rfl) | rfl) | rfl <;> exact absurd h (by decide)

/-- What ends a name is a separator or the NUL. -/
theorem isIdentEnd_iff : isIdentEnd c = true ↔ c = 0 ∨ isTokenSep c = true := by
  unfold isIdentEnd isTokenSep
  simp only [Bool.or_eq_true, beq_iff_eq]
  tauto

/-- **What is tried and known** are the known names behind a delimiter. -/
theorem tried_iff (h : textStart text < i) (hi : i ≤ text.len) :
    (tried text i && (known db st text i).isSome) = true ↔ KnownName db st text i ∧ BehindDelim text i := by
  rw [Bool.and_eq_true, tried, Bool.and_eq_true, isName, Bool.and_eq_true, isIdentEnd_iff]
  constructor
  · rintro ⟨⟨hdelim, hupper, hend⟩, hknown⟩
    have hall := allAt_iff.1 hupper
    have hle := CString.add_le_len isUpper_zero hi hall
    refine ⟨⟨⟨h.le, by omega, hle, fun k hk hk' => ?_, Or.inr (isTokenSep_of_delim hdelim), ?_⟩, hupper, hknown⟩, h, hdelim⟩
    · have := hall (k - i) (by omega)
      rw [Nat.add_sub_cancel' hk] at this
      exact isUpper_not_sep this
    · rcases hend with hnul | hsep
      · left
        by_contra hne
        exact text.noNul (i + 5) (by omega) hnul
      · exact Or.inr hsep
  · rintro ⟨⟨htoken, hupper, hknown⟩, -, hdelim⟩
    refine ⟨⟨hdelim, hupper, ?_⟩, hknown⟩
    rcases htoken.ends with hlen | hsep
    · left
      rw [hlen]
      exact text.nul
    · exact Or.inr hsep

/-- The first place that is tried and known. -/
theorem firstTried_iff : firstTried db st text (textStart text) = some i ↔
    IsLeast {i | KnownName db st text i ∧ BehindDelim text i} i := by
  have hlt : ∀ {i}, KnownName db st text i → i < text.len := fun h => by
    have := h.token.inText
    omega
  unfold firstTried
  rw [first?_eq_some]
  constructor
  · rintro ⟨h1, h2, h3, hmin⟩
    refine ⟨(tried_iff h1 h2.le).1 h3, fun j hj => ?_⟩
    by_contra hji
    have hfalse := hmin j hj.2.1 (not_le.1 hji)
    rw [(tried_iff hj.2.1 (hlt hj.1).le).2 hj] at hfalse
    exact Bool.noConfusion hfalse
  · rintro ⟨hi, hmin⟩
    refine ⟨hi.2.1, hlt hi.1, (tried_iff hi.2.1 (hlt hi.1).le).2 hi, fun j h1 h2 => ?_⟩
    rw [Bool.eq_false_iff]
    intro hj
    exact absurd (hmin ((tried_iff h1 (h2.le.trans (hlt hi.1).le)).1 hj)) (not_le.2 h2)

/-- **The fallback** gives the first known name behind a delimiter, and reads only the text. -/
theorem returns_waypointPosition (db : WaypointDb) (st : Learned) (hlabel : labelOk label = true) (hfpn : isFpn label text = false)
    (hfuel : text.len < fuel) : Returns (· ≤ text.len) (acarsExtractWaypointPosition db st fuel label text)
      ((firstTried db st text (textStart text)).bind (known db st text)) := by
  unfold acarsExtractWaypointPosition
  by_cases hend : text 0 = 0
  · have hlen : text.len ≤ textStart text + 1 := by
      by_contra hlt
      exact text.noNul 0 (by omega) hend
    have hnone : firstTried db st text (textStart text) = none := first?_of_le hlen
    rw [if_pos hend, hnone]
    exact Returns.pure _
  have hstart : textStart text ≤ text.len := by
    unfold textStart
    split
    · next hpos =>
      have hall := matchesAt_iff.1 hpos
      refine CString.add_le_len isUpper_zero (n := 3) (Nat.zero_le text.len) fun k hk => ?_
      rw [hall k hk]
      revert k
      decide
    · exact Nat.zero_le _
  rw [if_neg hend, if_neg (by rw [hlabel]; decide), if_neg (by rw [hfpn]; decide)]
  exact returns_identScan db st hfuel hstart

/-- **When the first known name is found**: when it stands behind a comma, a space, a slash
or a period, or the first that does has the same position. -/
theorem first_name_iff (db : WaypointDb) (st : Learned) (label text : CString) (hlabel : labelOk label = true)
    (hfpn : isFpn label text = false) (hfuel : text.len < fuel) :
    FirstNameFound db st fuel label text ↔ ∀ i, IsLeast {i | KnownName db st text i} i →
      BehindDelim text i ∨ ∃ j, IsLeast {j | KnownName db st text j ∧ BehindDelim text j} j ∧
        known db st text j = known db st text i := by
  have hret := (returns_waypointPosition db st hlabel hfpn hfuel).value
  unfold FirstNameFound
  rw [hret]
  constructor
  · rintro ⟨hfirst, -⟩ i hi
    have hval := Option.some.inj (hfirst i hi)
    obtain ⟨coord, hcoord⟩ := Option.isSome_iff_exists.1 hi.1.known
    rw [hcoord] at hval
    obtain ⟨j, hj, hknown⟩ := Option.bind_eq_some_iff.1 hval
    exact Or.inr ⟨j, firstTried_iff.1 hj, hknown.trans hcoord.symm⟩
  · intro hall
    refine ⟨fun i hi => ?_, fun hno => ?_⟩
    · rcases hall i hi with hdelim | ⟨j, hj, hknown⟩
      · have hi' := firstTried_iff.2 ⟨⟨hi.1, hdelim⟩, fun j hj => hi.2 hj.1⟩
        rw [hi', Option.bind_some]
      · rw [firstTried_iff.2 hj, Option.bind_some, hknown]
    · have hnone : firstTried db st text (textStart text) = none := by
        rw [Option.eq_none_iff_forall_ne_some]
        exact fun j hj => hno j (firstTried_iff.1 hj).1.1
      rw [hnone]
      rfl

/-! ## Three texts -/

/-- A database with one waypoint. -/
def oneWaypoint : WaypointDb := ⟨[⟨chars "MALOT", ⟨53, -15⟩⟩], List.pairwise_singleton _ _⟩

/-- A waypoint as the first token. -/
def nameFirst : CString := .ofList (chars "MALOT/1") (by decide)

/-- A waypoint at the start of a line. -/
def nameOnLine : CString := .ofList (chars "1\nMALOT") (by decide)

/-- A waypoint behind a comma. -/
def nameBehindComma : CString := .ofList (chars "POS1,MALOT.") (by decide)

theorem isUpper_of_knownName {k : ℕ} (h : KnownName db st text i) (hk : k < 5) : isUpper (text (i + k)) = true :=
  allAt_iff.1 h.upper k hk

theorem nameFirst_known : KnownName oneWaypoint .init nameFirst 0 where
  token :=
    { start_le := by decide
      nonempty := by decide
      inText := by decide
      run := fun k _ hk => by interval_cases k <;> decide
      starts := Or.inl (by decide)
      ends := Or.inr (by decide) }
  upper := by decide
  known := by decide +kernel

theorem nameOnLine_known : KnownName oneWaypoint .init nameOnLine 2 where
  token :=
    { start_le := by decide
      nonempty := by decide
      inText := by decide
      run := fun k hk hk' => by interval_cases k <;> decide
      starts := Or.inr (by decide)
      ends := Or.inl (by decide) }
  upper := by decide
  known := by decide +kernel

theorem nameBehindComma_known : KnownName oneWaypoint .init nameBehindComma 5 where
  token :=
    { start_le := by decide
      nonempty := by decide
      inText := by decide
      run := fun k hk hk' => by interval_cases k <;> decide
      starts := Or.inr (by decide)
      ends := Or.inr (by decide) }
  upper := by decide
  known := by decide +kernel

/-- The first token, and that of a line, are missed. -/
theorem first_names_missed : ¬FirstNameFound oneWaypoint .init 8 labelH1 nameFirst ∧
    ¬FirstNameFound oneWaypoint .init 8 labelH1 nameOnLine := by
  refine ⟨fun h => ?_, fun h => ?_⟩
  · have hfound := h.1 0 ⟨nameFirst_known, fun j _ => Nat.zero_le j⟩
    exact absurd hfound (by decide +kernel)
  · have hleast : IsLeast {i | KnownName oneWaypoint .init nameOnLine i} 2 := by
      refine ⟨nameOnLine_known, fun j hj => ?_⟩
      by_contra hlt
      have hupper := isUpper_of_knownName hj (show 0 < 5 by decide)
      have hj2 : j < 2 := not_le.1 hlt
      interval_cases j <;> exact absurd hupper (by decide)
    exact absurd (h.1 2 hleast) (by decide +kernel)

/-- A name behind a comma is found. -/
theorem nameBehindComma_found : FirstNameFound oneWaypoint .init 12 labelH1 nameBehindComma ∧
    (acarsExtractWaypointPosition oneWaypoint .init 12 labelH1 nameBehindComma).run.val = some (some ⟨53, -15⟩) := by
  refine ⟨(first_name_iff oneWaypoint .init labelH1 nameBehindComma (by decide) (by decide) (by decide)).2
    fun i hi => Or.inl ?_, by decide +kernel⟩
  have hle : i ≤ 5 := hi.2 nameBehindComma_known
  have hge : 3 ≤ i := hi.1.token.start_le
  have hupper := isUpper_of_knownName hi.1 (show 0 < 5 by decide)
  interval_cases i
  · exact absurd hupper (by decide)
  · exact absurd hupper (by decide)
  · exact ⟨by decide, by decide⟩

end InmarsatSniffer.AcarsText
