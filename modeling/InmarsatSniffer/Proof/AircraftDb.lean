import Mathlib
import InmarsatSniffer.Spec.AircraftDb
import InmarsatSniffer.Proof.Idents

/-!
# The aircraft database and its file

The file stands for its `rows`: the lines with an address of six hex digits and a
registration that something is left of. A lookup agrees with the file (`Agrees`) when it
gives what one of these rows says, and gives nothing only if no row has the key.

An entry keeps the `int` of where its strings begin in the pool, so that a string from
`2 ^ 31` bytes on is lost (`Small`).

* `foldl_line`: the table that the lines of a file leave.
* `info_entryAt`: an entry says what its row says.
* `agrees_of_small`, `small_of_agrees`: the lookups agree with a small file, and of the files
  without a second row for an address with no other.
-/

namespace InmarsatSniffer.AircraftDb

open AcarsText (strcmp strcmp_eq)
open BinarySearch
open Feed (fmtHex)

/-! ## The rows of a file -/

/-- The lines of the file fit into the buffer of `fgets`. -/
def ShortLines (file : List UInt8) : Prop := ∀ l ∈ file.splitOn 0x0A, l.length < 1023

/-- What a line says of an aircraft. -/
structure Row where
  reg : List UInt8
  hex : List UInt8
  type : Option (List UInt8)
  desc : Option (List UInt8)
  op : Option (List UInt8)
  deriving DecidableEq

/-- A field with something in it. -/
def nonempty (s : Option (List UInt8)) : Option (List UInt8) := s.filter fun s => s ≠ []

/-- The row of the fields, if something is left of the registration. -/
def Row.ofFields (f : Fields) : Option Row :=
  if normalizeReg f.regField 12 = [] then none
  else some ⟨normalizeReg f.regField 12, f.hexField.map toupper, nonempty f.typeField, nonempty f.descField,
    nonempty f.opField⟩

/-- The row of a line that is accepted. -/
def rowOf (line : List UInt8) : Option Row := (parseFields line).bind Row.ofFields

/-- The rows of the file. -/
def rows (file : List UInt8) : List Row := (file.splitOn 0x0A).filterMap rowOf

/-- What the database is to say of the aircraft. -/
def Row.info (r : Row) : AircraftInfo := ⟨r.reg, r.type, r.desc, r.op⟩

/-- The strings of the row that go into the pool. -/
def Row.strings (r : Row) : List (List UInt8) := r.type.toList ++ r.desc.toList ++ r.op.toList

/-- The lookups agree with the file. -/
structure Agrees (lib : CLib) (file : List UInt8) : Prop where
  reg_iff : ∀ reg, (aircraftDbLookup lib (aircraftDbLoad lib file).2 reg).isSome ↔
    ∃ r ∈ rows file, r.reg = normalizeReg reg 12
  reg_hex : ∀ reg hex, aircraftDbLookup lib (aircraftDbLoad lib file).2 reg = some hex →
    ∃ r ∈ rows file, r.reg = normalizeReg reg 12 ∧ r.hex = hex
  aes_iff : ∀ a : UInt32, (aircraftDbLookupByAes (aircraftDbLoad lib file).2 a).isSome ↔
    ∃ r ∈ rows file, r.hex = fmtHex 6 (a.toNat % 2 ^ 24)
  aes_info : ∀ (a : UInt32) info, aircraftDbLookupByAes (aircraftDbLoad lib file).2 a = some info →
    ∃ r ∈ rows file, r.hex = fmtHex 6 (a.toNat % 2 ^ 24) ∧ info = r.info

/-- How many bytes of the pool the strings take, with a NUL behind each. -/
def poolLen (ss : List (List UInt8)) : ℕ := (ss.map fun s => s.length + 1).sum

/-- The file is small: the sums of indices of its rows are `int`s, and each of its strings begins
below `2 ^ 31` in the pool. -/
structure Small (file : List UInt8) : Prop where
  count : (rows file).length ≤ 2 ^ 30
  starts : ∀ pre s post, (rows file).flatMap Row.strings = pre ++ s :: post → poolLen pre < 2 ^ 31

variable {lib : CLib} {file line l s rest : List UInt8} {lines : List (List UInt8)} {n w fuel : ℕ} {r : Row}
  {f : Fields}

/-! ## Strings with a NUL behind them -/

theorem cstr_append_nul (s t : List UInt8) : cstr (s ++ 0 :: t) = cstr s := by
  unfold cstr
  induction s with
  | nil => rfl
  | cons c s ih => rw [List.cons_append, List.takeWhile_cons, List.takeWhile_cons, ih]

theorem cstr_of_notMem (h : 0 ∉ s) : cstr s = s :=
  List.takeWhile_eq_self_iff.2 fun _ hb => decide_eq_true fun h0 => h (h0 ▸ hb)

theorem zero_notMem_cstr (s : List UInt8) : 0 ∉ cstr s := by
  intro h
  simpa using List.mem_takeWhile_imp h

/-! ## The lines that the loop sees -/

theorem fgets_line (hl : 0x0A ∉ l) (hn : l.length < n) : fgets n (l ++ 0x0A :: rest) = (l ++ [0x0A], rest) := by
  induction l generalizing n with
  | nil =>
    obtain ⟨n, rfl⟩ := Nat.exists_eq_add_one.2 hn
    simp [fgets]
  | cons c l ih =>
    obtain ⟨n, rfl⟩ := Nat.exists_eq_add_one.2 (Nat.zero_lt_of_lt hn)
    obtain ⟨hc, hl⟩ := not_or.1 (mt List.mem_cons.2 hl)
    rw [List.cons_append, fgets, if_neg (Ne.symm hc), ih hl (by simpa using hn)]
    rfl

theorem fgets_last (hl : 0x0A ∉ l) (hn : l.length ≤ n) : fgets n l = (l, []) := by
  induction l generalizing n with
  | nil => cases n <;> rfl
  | cons c l ih =>
    obtain ⟨n, rfl⟩ := Nat.exists_eq_add_one.2 (Nat.zero_lt_of_lt hn)
    obtain ⟨hc, hl⟩ := not_or.1 (mt List.mem_cons.2 hl)
    rw [fgets, if_neg (Ne.symm hc), ih hl (by simpa using hn)]

/-- The last field takes up what the line is continued by. -/
theorem splitFields_append (n : ℕ) (s : List UInt8) : ∃ a b, splitFields n s = a ++ [b] ∧
    splitFields n (s ++ [0x0A]) = a ++ [b ++ [0x0A]] ∧ ∀ x ∈ a ++ [b], x.Sublist s := by
  induction s generalizing n with
  | nil =>
    refine ⟨[], [], by simp [splitFields], ?_, by simp⟩
    cases n <;> simp [splitFields]
  | cons c s ih =>
    cases n with
    | zero => exact ⟨[], c :: s, by simp [splitFields], by simp [splitFields], by simp⟩
    | succ n =>
      by_cases hc : c = 0x3B
      · obtain ⟨a, b, h1, h2, h3⟩ := ih n
        refine ⟨[] :: a, b, by simp [splitFields, hc, h1], by simp [splitFields, hc, h2], ?_⟩
        intro x hx
        rcases List.mem_cons.1 hx with rfl | hx
        · exact List.nil_sublist _
        · exact (h3 x hx).cons c
      · obtain ⟨a, b, h1, h2, h3⟩ := ih (n + 1)
        rw [List.cons_append, splitFields, splitFields, if_neg hc, if_neg hc, h1, h2]
        cases a with
        | nil =>
          refine ⟨[], c :: b, rfl, rfl, ?_⟩
          simpa using h3 b (by simp)
        | cons x a =>
          refine ⟨(c :: x) :: a, b, rfl, rfl, ?_⟩
          intro y hy
          rcases List.mem_cons.1 hy with rfl | hy
          · exact (h3 x (by simp)).cons_cons c
          · exact (h3 y (List.mem_cons_of_mem _ hy)).cons c

theorem modify_last (a : List (List UInt8)) (b : List UInt8) (f : List UInt8 → List UInt8) :
    (a ++ [b]).modify ((a ++ [b]).length - 1) f = a ++ [f b] := by
  induction a with
  | nil => rfl
  | cons x a ih => simpa using ih

theorem stripNewline_append (s : List UInt8) : stripNewline (s ++ [0x0A]) = stripNewline s := by
  rw [stripNewline, stripNewline]
  congr 1
  induction s with
  | nil => rfl
  | cons c s ih => rw [List.cons_append, List.takeWhile_cons, List.takeWhile_cons, ih]

/-- **The newline of a line makes no difference.** -/
theorem rowOf_newline (l : List UInt8) : rowOf (l ++ [0x0A]) = rowOf l := by
  unfold rowOf
  congr 1
  by_cases h0 : 0 ∈ l
  · -- nothing behind a NUL is looked at
    obtain ⟨a, b, rfl⟩ := List.append_of_mem h0
    rw [parseFields, parseFields, List.append_assoc, List.cons_append, cstr_append_nul, cstr_append_nul]
  · obtain ⟨a, b, h1, h2, -⟩ := splitFields_append 7 l
    rw [parseFields, parseFields, cstr_of_notMem h0, cstr_of_notMem (by simpa using h0), h1, h2, modify_last,
      modify_last, stripNewline_append]

theorem splitOn_last (hl : 0x0A ∉ l) : l.splitOn 0x0A = [l] :=
  List.splitOnP_eq_singleton fun _ hx => beq_eq_false_iff_ne.2 fun h => hl (h ▸ hx)

theorem splitOn_line (hl : 0x0A ∉ l) : (l ++ 0x0A :: rest).splitOn 0x0A = l :: rest.splitOn 0x0A := by
  rw [List.splitOn_append_cons_self, splitOn_last hl]
  rfl

/-- **The loop sees the lines of the file**, when they are short. -/
theorem filterMap_pieces (hshort : ShortLines file) (hfuel : file.length ≤ fuel) :
    (pieces fuel file).filterMap rowOf = rows file := by
  have hnil : rowOf [] = none := by decide
  induction fuel generalizing file with
  | zero =>
    obtain rfl := List.length_eq_zero_iff.1 (Nat.le_zero.1 hfuel)
    simp [pieces, rows, hnil]
  | succ fuel ih =>
    cases hfile : file with
    | nil => simp [pieces, rows, hnil]
    | cons c s =>
      rw [pieces, ← hfile]
      by_cases hnl : 0x0A ∈ file
      · -- a line and what follows it
        obtain ⟨l, rest, hfile', hl⟩ := List.eq_append_cons_of_mem hnl
        rw [ShortLines, hfile', splitOn_line hl] at hshort
        have hlen : l.length < 1023 := hshort l (by simp)
        have hrest := ih (fun l' hl' => hshort l' (List.mem_cons_of_mem _ hl'))
          (by rw [hfile', List.length_append, List.length_cons] at hfuel; omega)
        rw [hfile', fgets_line hl hlen, List.filterMap_cons, rowOf_newline, rows, splitOn_line hl, List.filterMap_cons,
          hrest, rows]
      · -- the last line has no newline
        have hlen : file.length < 1023 := hshort file (by rw [splitOn_last hnl]; simp)
        have hend : pieces fuel [] = [] := by cases fuel <;> rfl
        rw [fgets_last hnl (Nat.le_of_lt hlen), hend, rows, splitOn_last hnl]

/-! ## Strings of a row -/

/-- The fields of a line are parts of it, up to its NUL. -/
theorem fields_sublist (h : parseFields line = some f) :
    ∀ s ∈ f.typeField.toList ++ f.descField.toList ++ f.opField.toList, s.Sublist (cstr line) := by
  obtain ⟨a, b, h1, -, h3⟩ := splitFields_append 7 (cstr line)
  have hsub : ∀ (i : ℕ) (s : List UInt8), (a ++ [stripNewline b])[i]? = some s → s.Sublist (cstr line) := by
    intro i s hs
    rcases List.mem_append.1 (List.mem_of_getElem? hs) with hs | hs
    · exact h3 s (List.mem_append_left _ hs)
    · obtain rfl := List.mem_singleton.1 hs
      exact ((List.takeWhile_sublist _).trans (List.takeWhile_sublist _)).trans (h3 b (by simp))
  rw [parseFields, h1, modify_last] at h
  split at h
  · split at h
    · obtain rfl := Option.some.inj h
      intro s hs
      rcases List.mem_append.1 hs with hs | hs
      · rcases List.mem_append.1 hs with hs | hs
        · exact hsub 2 s (Option.mem_toList.1 hs)
        · exact hsub 4 s (Option.mem_toList.1 hs)
      · exact hsub 6 s (Option.mem_toList.1 hs)
    · exact absurd h (by simp)
  · exact absurd h (by simp)

/-- The row of a line. -/
theorem rowOf_some (h : rowOf line = some r) : ∃ f, parseFields line = some f ∧ normalizeReg f.regField 12 ≠ [] ∧
    r = ⟨normalizeReg f.regField 12, f.hexField.map toupper, nonempty f.typeField, nonempty f.descField,
      nonempty f.opField⟩ := by
  obtain ⟨f, hf, hr⟩ := Option.bind_eq_some_iff.1 h
  refine ⟨f, hf, ?_⟩
  unfold Row.ofFields at hr
  split at hr
  · exact absurd hr (by simp)
  · next hne => exact ⟨hne, (Option.some.inj hr).symm⟩

/-- The strings of a row are parts of its line. -/
theorem strings_sublist (h : rowOf line = some r) : ∀ s ∈ r.strings, s.Sublist (cstr line) := by
  obtain ⟨f, hf, -, rfl⟩ := rowOf_some h
  have hmem : ∀ {o : Option (List UInt8)} {s : List UInt8}, s ∈ (nonempty o).toList → s ∈ o.toList := by
    intro o s hs
    exact Option.mem_toList.2 (Option.mem_filter_iff.1 (Option.mem_toList.1 hs)).1
  intro s hs
  refine fields_sublist hf s ?_
  rcases List.mem_append.1 hs with hs | hs
  · rcases List.mem_append.1 hs with hs | hs
    · exact List.mem_append_left _ (List.mem_append_left _ (hmem hs))
    · exact List.mem_append_left _ (List.mem_append_right _ (hmem hs))
  · exact List.mem_append_right _ (hmem hs)

theorem mem_rows : r ∈ rows file ↔ ∃ line ∈ file.splitOn 0x0A, rowOf line = some r := List.mem_filterMap

/-- No string of a file has a NUL in it. -/
theorem noNul (hr : r ∈ rows file) (hs : s ∈ r.strings) : 0 ∉ s := by
  obtain ⟨line, -, hrow⟩ := mem_rows.1 hr
  exact fun h0 => zero_notMem_cstr line ((strings_sublist hrow s hs).subset h0)

/-! ## The pool -/

/-- The pool of some strings. -/
def pool (ss : List (List UInt8)) : List UInt8 := ss.flatMap fun s => s ++ [0]

theorem length_pool (ss : List (List UInt8)) : (pool ss).length = poolLen ss := by
  simp [pool, poolLen, List.length_flatMap]

theorem pool_append (ss ts : List (List UInt8)) : pool (ss ++ ts) = pool ss ++ pool ts := List.flatMap_append

theorem poolLen_append (ss ts : List (List UInt8)) : poolLen (ss ++ ts) = poolLen ss + poolLen ts := by
  rw [poolLen, List.map_append, List.sum_append]
  rfl

theorem toInt_of_lt (h : n < 2 ^ 31) : toInt n = n := Int.bmod_eq_of_le (by norm_num) (by norm_num; omega)

/-- **An index wraps** when the pool has `2 ^ 31` bytes. -/
theorem toInt_neg (h1 : 2 ^ 31 ≤ n) (h2 : n < 2 ^ 32) : toInt n < 0 := by
  have hsub : ((n : ℤ) - (2 ^ 32 : ℕ)).bmod (2 ^ 32) = (n : ℤ) - (2 ^ 32 : ℕ) :=
    Int.bmod_eq_of_le (by norm_num; omega) (by norm_num; omega)
  have hidx : toInt n = (n : ℤ) - (2 ^ 32 : ℕ) := (Int.sub_bmod_right _ _).symm.trans hsub
  rw [hidx]
  norm_num
  omega

/-- The index of a string that is put at the end of `n` bytes. -/
def indexAt (n : ℕ) (s : Option (List UInt8)) : ℤ := if s.isSome then toInt n else -1

theorem add_eq (st : Strings) (s : Option (List UInt8)) : (st.add s).1 = indexAt st.buf.length (nonempty s) ∧
    (st.add s).2.buf = st.buf ++ pool (nonempty s).toList := by
  cases s with
  | none => exact ⟨rfl, (List.append_nil _).symm⟩
  | some s =>
    unfold Strings.add
    by_cases hs : s = []
    · simp [nonempty, indexAt, pool, hs]
    · have hfilter : nonempty (some s) = some s := by simp [nonempty, Option.filter, hs]
      simp [hfilter, indexAt, pool, hs]

/-- No string is put behind the end of the pool. -/
theorem add_fits {st : Strings} (h : st.buf.length ≤ st.cap) (s : Option (List UInt8)) :
    (st.add s).2.buf.length ≤ (st.add s).2.cap := by
  cases s with
  | none => exact h
  | some s =>
    unfold Strings.add
    by_cases hs : s = []
    · simpa [hs] using h
    · simp only [if_neg hs, List.length_append, List.length_singleton]
      split_ifs <;> omega

/-- **What is read back of a string**: the string when it begins below `2 ^ 31`. -/
theorem get_pool {st : Strings} {pre : List (List UInt8)} (post : List (List UInt8)) {o : Option (List UInt8)}
    (hbuf : st.buf = pool (pre ++ o.toList ++ post)) (hnul : ∀ s ∈ o, 0 ∉ s) (hlt : ∀ s ∈ o, poolLen pre < 2 ^ 31) :
    st.get (indexAt (poolLen pre) o) = o := by
  cases o with
  | none => rfl
  | some s =>
    have hn := hlt s rfl
    have hidx : indexAt (poolLen pre) (some s) = (poolLen pre : ℤ) := by
      rw [indexAt, Option.isSome_some, if_pos rfl, toInt_of_lt hn]
    rw [hidx, Strings.get, if_pos (Int.natCast_nonneg _), Int.toNat_natCast, hbuf, pool_append, pool_append,
      List.append_assoc, ← length_pool, List.drop_left]
    have hpool : pool (some s).toList ++ pool post = s ++ 0 :: pool post := by simp [pool]
    rw [hpool, cstr_append_nul, cstr_of_notMem (hnul s rfl)]

/-- A string that begins from there on is lost. -/
theorem get_lost {st : Strings} {o : Option (List UInt8)} (h1 : 2 ^ 31 ≤ n) (h2 : n < 2 ^ 32) :
    st.get (indexAt n o) = none := by
  have hneg : indexAt n o < 0 := by
    unfold indexAt
    split
    · exact toInt_neg h1 h2
    · exact Int.negSucc_lt_zero 0
  rw [Strings.get, if_neg (not_le.2 hneg)]

/-! ## The table of the rows -/

/-- The entry of a row whose strings begin at `n`. -/
def entryAt (n : ℕ) (r : Row) : Entry :=
  ⟨r.reg, r.hex, indexAt n r.type, indexAt (n + poolLen r.type.toList) r.desc,
    indexAt (n + poolLen r.type.toList + poolLen r.desc.toList) r.op⟩

/-- The entries of rows whose strings begin at `n`. -/
def layout : ℕ → List Row → List Entry
  | _, [] => []
  | n, r :: rs => entryAt n r :: layout (n + poolLen r.strings) rs

theorem poolLen_strings (r : Row) :
    poolLen r.strings = poolLen r.type.toList + poolLen r.desc.toList + poolLen r.op.toList := by
  rw [Row.strings, poolLen_append, poolLen_append]

/-- What a line adds to the table. -/
theorem line_eq (db : Loading) (line : List UInt8) :
    (db.line line).entries = db.entries ++ layout db.strings.buf.length (rowOf line).toList ∧
      (db.line line).strings.buf = db.strings.buf ++ pool ((rowOf line).toList.flatMap Row.strings) := by
  cases hf : parseFields line with
  | none => simp [Loading.line, rowOf, hf, layout, pool]
  | some f =>
    -- the growth of the table leaves its entries as they are
    have hgrow : ∀ c : Prop, ∀ [Decidable c], ((if c then { db with capacity := db.capacity * 2 } else db) : Loading).entries
        = db.entries ∧ ((if c then { db with capacity := db.capacity * 2 } else db) : Loading).strings = db.strings := by
      intro c _
      split <;> exact ⟨rfl, rfl⟩
    obtain ⟨hentries, hstrings⟩ := hgrow (db.entries.length ≥ db.capacity)
    unfold Loading.line
    rw [hf]
    dsimp only
    by_cases hreg : normalizeReg f.regField 12 = []
    · have hrow : rowOf line = none := by simp [rowOf, hf, Row.ofFields, hreg]
      rw [if_pos hreg, hrow, hentries, hstrings]
      simp [layout, pool]
    · have hrow : rowOf line = some ⟨normalizeReg f.regField 12, f.hexField.map toupper, nonempty f.typeField,
          nonempty f.descField, nonempty f.opField⟩ := by simp [rowOf, hf, Row.ofFields, hreg]
      rw [if_neg hreg, hrow, hentries, hstrings]
      obtain ⟨hidx1, hbuf1⟩ := add_eq db.strings f.typeField
      obtain ⟨hidx2, hbuf2⟩ := add_eq (db.strings.add f.typeField).2 f.descField
      obtain ⟨hidx3, hbuf3⟩ := add_eq ((db.strings.add f.typeField).2.add f.descField).2 f.opField
      rw [hbuf1, List.length_append, length_pool] at hidx2
      rw [hbuf2, hbuf1, List.length_append, List.length_append, length_pool, length_pool] at hidx3
      constructor
      · rw [hidx1, hidx2, hidx3]
        rfl
      · rw [hbuf3, hbuf2, hbuf1, List.append_assoc, List.append_assoc, ← pool_append, ← pool_append]
        simp [Row.strings]

theorem layout_append (n : ℕ) (rs rs' : List Row) :
    layout n (rs ++ rs') = layout n rs ++ layout (n + poolLen (rs.flatMap Row.strings)) rs' := by
  induction rs generalizing n with
  | nil => rfl
  | cons r rs ih =>
    rw [List.cons_append, layout, layout, ih, List.flatMap_cons, poolLen_append, Nat.add_assoc]
    rfl

/-- **The table that the lines leave.** -/
theorem foldl_line (lines : List (List UInt8)) (db : Loading) :
    (lines.foldl Loading.line db).entries = db.entries ++ layout db.strings.buf.length (lines.filterMap rowOf) ∧
      (lines.foldl Loading.line db).strings.buf =
        db.strings.buf ++ pool ((lines.filterMap rowOf).flatMap Row.strings) := by
  induction lines generalizing db with
  | nil => simp [layout, pool]
  | cons line lines ih =>
    obtain ⟨hentries, hbuf⟩ := line_eq db line
    obtain ⟨ih1, ih2⟩ := ih (db.line line)
    have hrows : (line :: lines).filterMap rowOf = (rowOf line).toList ++ lines.filterMap rowOf := by
      cases h : rowOf line <;> simp [h]
    rw [List.foldl_cons, ih1, ih2, hrows, layout_append, List.flatMap_append, pool_append, hentries, hbuf,
      List.length_append, length_pool, List.append_assoc, List.append_assoc]
    exact ⟨rfl, rfl⟩

/-- No entry and no string lies outside of the memory that is allocated. -/
structure Loading.Fits (db : Loading) : Prop where
  entries : db.entries.length ≤ db.capacity
  strings : db.strings.buf.length ≤ db.strings.cap
  pos : 0 < db.capacity

theorem Loading.Fits.step {db : Loading} (h : db.Fits) (l : List UInt8) : (db.line l).Fits := by
  unfold Loading.line
  split
  · exact h
  · next f _ =>
    have hgrow : ∀ db' : Loading, db' = (if db.entries.length ≥ db.capacity then
        { db with capacity := db.capacity * 2 } else db) →
        db'.entries.length < db'.capacity ∧ db'.strings.buf.length ≤ db'.strings.cap := by
      rintro _ rfl
      have := h.pos
      split
      · exact ⟨by have := h.entries; dsimp only; omega, h.strings⟩
      · exact ⟨by omega, h.strings⟩
    obtain ⟨hroom, hpool⟩ := hgrow _ rfl
    dsimp only
    split
    · exact ⟨Nat.le_of_lt hroom, hpool, Nat.zero_lt_of_lt hroom⟩
    · refine ⟨?_, add_fits (add_fits (add_fits hpool _) _) _, Nat.zero_lt_of_lt hroom⟩
      simpa using hroom

/-- **The table and the pool grow in time**: loading writes to allocated memory only. -/
theorem fits_foldl_line (lines : List (List UInt8)) : (lines.foldl Loading.line .init).Fits := by
  have h : ∀ db : Loading, db.Fits → (lines.foldl Loading.line db).Fits := by
    induction lines with
    | nil => exact fun _ h => h
    | cons l lines ih => exact fun db h => ih _ (h.step l)
  exact h _ ⟨by decide, by decide, by decide⟩

/-! ## The database of a file -/

theorem mem_layout {e : Entry} {rs : List Row} : e ∈ layout n rs ↔
    ∃ pre r post, rs = pre ++ r :: post ∧ e = entryAt (n + poolLen (pre.flatMap Row.strings)) r := by
  constructor
  · intro h
    induction rs generalizing n with
    | nil => exact absurd h (by simp [layout])
    | cons r rs ih =>
      rcases List.mem_cons.1 h with rfl | h
      · exact ⟨[], r, rs, rfl, rfl⟩
      · obtain ⟨pre, r', post, rfl, rfl⟩ := ih h
        refine ⟨r :: pre, r', post, rfl, ?_⟩
        rw [List.flatMap_cons, poolLen_append, Nat.add_assoc]
  · rintro ⟨pre, r, post, rfl, rfl⟩
    rw [layout_append]
    exact List.mem_append_right _ (List.mem_cons_self ..)

instance : Std.TransCmp entryCmp :=
  @transCmp_on _ _ strcmp _ Entry.reg

instance (entries : List Entry) : Std.TransCmp (byHexCmp entries) :=
  @transCmp_on _ _ strcmp _ (hexAt entries)

/-- What is known of a loaded database, with the entries in the order of registrations. -/
structure Loaded (file : List UInt8) (db : Database) : Prop where
  perm : db.entries.Perm (layout 0 (rows file))
  sorted : db.entries.Pairwise fun a b => strcmp a.reg b.reg ≠ .gt
  byHex_perm : db.byHex.Perm (List.range db.entries.length)
  byHex_sorted : db.byHex.Pairwise fun a b => strcmp (hexAt db.entries a) (hexAt db.entries b) ≠ .gt
  buf : db.strings.buf = pool ((rows file).flatMap Row.strings)

theorem loaded (lib : CLib) (hshort : ShortLines file) : Loaded file (aircraftDbLoad lib file).2 := by
  obtain ⟨hentries, hbuf⟩ := foldl_line (pieces file.length file) .init
  rw [filterMap_pieces hshort le_rfl] at hentries hbuf
  refine ⟨?_, lib.qsort_sorted entryCmp _, lib.qsort_perm (byHexCmp _) _, lib.qsort_sorted (byHexCmp _) _, hbuf⟩
  exact (lib.qsort_perm entryCmp _).trans (.of_eq hentries)

/-- `aircraft_db_load` returns how many rows the file has. -/
theorem loaded_count (lib : CLib) (hshort : ShortLines file) : (aircraftDbLoad lib file).1 = (rows file).length := by
  have hlen : ∀ n rs, (layout n rs).length = rs.length := by
    intro n rs
    induction rs generalizing n with
    | nil => rfl
    | cons r rs ih => rw [layout, List.length_cons, ih, List.length_cons]
  obtain ⟨hentries, -⟩ := foldl_line (pieces file.length file) .init
  rw [filterMap_pieces hshort le_rfl] at hentries
  show ((pieces file.length file).foldl Loading.line .init).entries.length = _
  rw [hentries, List.length_append, hlen]
  exact Nat.zero_add _

namespace Loaded

variable {db : Database} {e : Entry}

theorem mem (h : Loaded file db) : e ∈ db.entries ↔
    ∃ pre r post, rows file = pre ++ r :: post ∧ e = entryAt (poolLen (pre.flatMap Row.strings)) r := by
  rw [h.perm.mem_iff, mem_layout]
  simp only [Nat.zero_add]

theorem exists_reg_iff (h : Loaded file db) (p : List UInt8 → List UInt8 → Prop) :
    (∃ e ∈ db.entries, p e.reg e.hex) ↔ ∃ r ∈ rows file, p r.reg r.hex := by
  constructor
  · rintro ⟨e, he, hp⟩
    obtain ⟨pre, r, post, hrows, rfl⟩ := h.mem.1 he
    exact ⟨r, by rw [hrows]; simp, hp⟩
  · rintro ⟨r, hr, hp⟩
    obtain ⟨pre, post, hrows⟩ := List.append_of_mem hr
    exact ⟨_, h.mem.2 ⟨pre, r, post, hrows, rfl⟩, hp⟩

end Loaded

/-! ## Lookups by registration -/

theorem reg_ne_nil (h : r ∈ rows file) : r.reg ≠ [] := by
  obtain ⟨line, -, hrow⟩ := mem_rows.1 h
  obtain ⟨f, -, hne, rfl⟩ := rowOf_some hrow
  exact hne

/-- Nothing is left of an empty registration. -/
theorem normalizeReg_nil {reg : List UInt8} (h : cstr reg = []) : normalizeReg reg 12 = [] := by
  cases reg with
  | nil => rfl
  | cons c reg =>
    have hc : c = 0 := by
      by_contra hne
      exact absurd h (by simp [cstr, hne])
    subst hc
    simp [normalizeReg, copyReg]

/-- What a lookup by registration finds is the address of an entry with it. -/
theorem lookup_some {db : Database} {reg hex : List UInt8} (h : aircraftDbLookup lib db reg = some hex) :
    ∃ e ∈ db.entries, e.reg = normalizeReg reg 12 ∧ e.hex = hex := by
  unfold aircraftDbLookup at h
  dsimp only at h
  split_ifs at h
  obtain ⟨e, he, rfl⟩ := Option.map_eq_some_iff.1 h
  obtain ⟨hmem, heq⟩ := lib.bsearch_mem he
  exact ⟨e, hmem, (strcmp_eq.1 heq).symm, rfl⟩

/-- **A lookup by registration misses no entry.** -/
theorem lookup_isSome {db : Database} (hsorted : db.entries.Pairwise fun a b => strcmp a.reg b.reg ≠ .gt) {e : Entry}
    {reg : List UInt8} (he : e ∈ db.entries) (hreg : e.reg = normalizeReg reg 12) (hne : e.reg ≠ []) :
    (aircraftDbLookup lib db reg).isSome := by
  have hentries : db.entries ≠ [] := List.ne_nil_of_mem he
  have hcstr : cstr reg ≠ [] := fun h => hne (hreg.trans (normalizeReg_nil h))
  unfold aircraftDbLookup
  rw [if_neg (not_or.2 ⟨hentries, hcstr⟩)]
  dsimp only
  rw [if_neg (hreg ▸ hne), Option.isSome_map]
  by_contra hnone
  refine lib.bsearch_none (descending_of_sorted _ hsorted) (Option.not_isSome_iff_eq_none.1 hnone) e he ?_
  exact strcmp_eq.2 hreg.symm

/-! ## Addresses of six digits -/

/-- A digit of an address. -/
def hexDigit (d : ℕ) : UInt8 := UInt8.ofNat (Nat.digitChar d).toUpper.toNat

/-- The last `w` digits. -/
def hexDigits : ℕ → ℕ → List UInt8
  | 0, _ => []
  | w + 1, n => hexDigits w (n / 16) ++ [hexDigit (n % 16)]

theorem length_hexDigits (w n : ℕ) : (hexDigits w n).length = w := by
  induction w generalizing n with
  | zero => rfl
  | succ w ih => rw [hexDigits, List.length_append, ih]; rfl

/-- The digits of a number with at most `w` of them. -/
theorem fmtHex_eq (hw : 1 ≤ w) (hn : n < 16 ^ w) : fmtHex w n = hexDigits w n := by
  induction w, hw using Nat.le_induction generalizing n with
  | base =>
    have h : n < 16 := by simpa using hn
    rw [fmtHex, Nat.toDigits_eq_if (by decide), if_pos h, hexDigits, Nat.mod_eq_of_lt h]
    rfl
  | succ w hw ih =>
    have hq : n / 16 < 16 ^ w := by
      rw [Nat.div_lt_iff_lt_mul (by decide)]
      simpa [pow_succ] using hn
    rw [hexDigits, ← ih hq]
    by_cases h : n < 16
    · -- a single digit, behind zeros
      have hzero : List.replicate w 0x30 = fmtHex w 0 := by
        obtain ⟨w, rfl⟩ := Nat.exists_eq_add_one.2 hw
        rw [List.replicate_succ']
        rfl
      rw [fmtHex, Nat.toDigits_eq_if (by decide), if_pos h, Nat.div_eq_of_lt h, Nat.mod_eq_of_lt h, ← hzero]
      rfl
    · rw [fmtHex, Nat.toDigits_eq_if (by decide), if_neg h, fmtHex]
      rw [List.map_append, List.length_append, ← List.append_assoc, List.map_singleton, List.length_singleton,
        Nat.add_sub_add_right]
      rfl

theorem toupper_hexDigit {d : ℕ} (hd : d < 16) : toupper (hexDigit d) = hexDigit d := by
  revert d
  decide

theorem map_toupper_hexDigits (w n : ℕ) : (hexDigits w n).map toupper = hexDigits w n := by
  induction w generalizing n with
  | zero => rfl
  | succ w ih =>
    rw [hexDigits, List.map_append, ih, List.map_singleton, toupper_hexDigit (Nat.mod_lt n (by decide))]

theorem hexDigit_of_isXDigit {c : UInt8} (h : isXDigit c = true) : ∃ d < 16, hexDigit d = toupper c := by
  revert c
  decide +kernel

/-- **Each address of six hex digits is that of a number.** -/
theorem exists_hexDigits (h : s.all isXDigit = true) : ∃ n < 16 ^ s.length, hexDigits s.length n = s.map toupper := by
  induction s using List.reverseRecOn with
  | nil => exact ⟨0, by decide, rfl⟩
  | append_singleton s c ih =>
    rw [List.all_append, Bool.and_eq_true] at h
    obtain ⟨n, hn, hdigits⟩ := ih h.1
    obtain ⟨d, hd, hdigit⟩ := hexDigit_of_isXDigit (by simpa using h.2)
    refine ⟨n * 16 + d, ?_, ?_⟩
    · rw [List.length_append, List.length_singleton, pow_succ]
      omega
    · rw [List.length_append, List.length_singleton, hexDigits, List.map_append, List.map_singleton, ← hdigits, ← hdigit,
        show (n * 16 + d) / 16 = n by omega, show (n * 16 + d) % 16 = d by omega]

/-- The address of a row has six digits, in upper case. -/
theorem hex_of_rowOf (h : rowOf line = some r) : ∃ n < 16 ^ 6, hexDigits 6 n = r.hex := by
  obtain ⟨f, hf, -, rfl⟩ := rowOf_some h
  have hhex : f.hexField.length = 6 ∧ f.hexField.all isXDigit = true := by
    unfold parseFields at hf
    dsimp only at hf
    split at hf
    · split at hf
      · next hok =>
        obtain rfl := Option.some.inj hf
        exact ⟨hok.1, hok.2.1⟩
      · exact absurd hf (by simp)
    · exact absurd hf (by simp)
  have hdigits := exists_hexDigits hhex.2
  rwa [hhex.1] at hdigits

theorem exists_aes (h : r ∈ rows file) : ∃ a : UInt32, fmtHex 6 (a.toNat % 2 ^ 24) = r.hex := by
  obtain ⟨line, -, hrow⟩ := mem_rows.1 h
  obtain ⟨n, hn, hdigits⟩ := hex_of_rowOf hrow
  refine ⟨UInt32.ofNat n, ?_⟩
  rw [UInt32.toNat_ofNat_of_lt' (by norm_num [UInt32.size]; omega), Nat.mod_eq_of_lt (by norm_num at hn ⊢; exact hn),
    fmtHex_eq (by decide) hn, hdigits]

/-- So has the address of an entry, whatever the lines of the file are. -/
theorem hex_of_mem {e : Entry} (he : e ∈ (aircraftDbLoad lib file).2.entries) : ∃ n < 16 ^ 6, hexDigits 6 n = e.hex := by
  obtain ⟨hentries, -⟩ := foldl_line (pieces file.length file) .init
  have hmem : e ∈ layout 0 ((pieces file.length file).filterMap rowOf) := by
    have := (lib.qsort_perm entryCmp _).mem_iff.1 he
    rwa [hentries] at this
  obtain ⟨pre, r, post, hrows, rfl⟩ := mem_layout.1 hmem
  obtain ⟨line, -, hrow⟩ := List.mem_filterMap.1 (show r ∈ (pieces file.length file).filterMap rowOf by rw [hrows]; simp)
  exact hex_of_rowOf hrow

/-! ## Lookups by address -/

theorem hexAt_eq {entries : List Entry} {i : ℕ} {e : Entry} (h : entries[i]? = some e) : hexAt entries i = e.hex := by
  rw [hexAt, h]
  rfl

/-- The key of a lookup by an address. -/
theorem keyHex_eq (a : UInt32) :
    ((fmtHex 6 (a.toNat % 2 ^ 24)).take 6).map toupper = fmtHex 6 (a.toNat % 2 ^ 24) := by
  have hlt : a.toNat % 2 ^ 24 < 16 ^ 6 := Nat.mod_lt _ (by decide)
  rw [fmtHex_eq (by decide) hlt, List.take_of_length_le (length_hexDigits _ _).le, map_toupper_hexDigits]

/-- What a lookup by address finds is an entry with it. -/
theorem lookupByAes_some {db : Database} {a : UInt32} {info : AircraftInfo}
    (hinfo : aircraftDbLookupByAes db a = some info) :
    ∃ e ∈ db.entries, e.hex = fmtHex 6 (a.toNat % 2 ^ 24) ∧ info = e.info db.strings := by
  obtain ⟨i, hi, hget⟩ := Option.bind_eq_some_iff.1 hinfo
  obtain ⟨e, he, rfl⟩ := Option.map_eq_some_iff.1 hget
  obtain ⟨-, heq⟩ := closedSearch_mem hi
  rw [hexAt_eq he, keyHex_eq] at heq
  exact ⟨e, List.mem_of_getElem? he, strcmp_eq.1 heq, rfl⟩

namespace Loaded

variable {db : Database} {e : Entry} {a : UInt32}

/-- **A lookup by address misses no entry.** -/
theorem aes_isSome (h : Loaded file db) (he : e ∈ db.entries) (hhex : e.hex = fmtHex 6 (a.toNat % 2 ^ 24)) :
    (aircraftDbLookupByAes db a).isSome := by
  obtain ⟨i, hi⟩ := List.getElem?_of_mem he
  have hlen : db.byHex.length = db.entries.length := by rw [h.byHex_perm.length_eq, List.length_range]
  have hmem : i ∈ db.byHex := by
    rw [h.byHex_perm.mem_iff, List.mem_range]
    exact (List.getElem?_eq_some_iff.1 hi).1
  unfold aircraftDbLookupByAes aircraftDbLookupByHex
  dsimp only
  rw [keyHex_eq]
  cases hfound : closedSearch (fun i => strcmp (hexAt db.entries i) (fmtHex 6 (a.toNat % 2 ^ 24))) db.byHex
      db.entries.length 0 (db.entries.length - 1 : ℤ) with
  | some j =>
    obtain ⟨hj, -⟩ := closedSearch_mem hfound
    rw [h.byHex_perm.mem_iff, List.mem_range] at hj
    rw [Option.bind_some, List.getElem?_eq_getElem hj]
    rfl
  | none =>
    -- the order of the addresses is that of the search
    have hdesc : Descending (fun i => (strcmp (hexAt db.entries i) (fmtHex 6 (a.toNat % 2 ^ 24))).swap) db.byHex := by
      have hswap : (fun i => (strcmp (hexAt db.entries i) (fmtHex 6 (a.toNat % 2 ^ 24))).swap) =
          fun i => strcmp (fmtHex 6 (a.toNat % 2 ^ 24)) (hexAt db.entries i) :=
        funext fun i => Std.OrientedCmp.eq_swap.symm
      rw [hswap]
      exact descending_of_sorted _ h.byHex_sorted
    have hnone := closedSearch_none hdesc le_rfl (by omega) (by omega) (by omega) ?_ hfound i hmem
    · exact absurd (strcmp_eq.2 ((hexAt_eq hi).trans hhex)) hnone
    · intro j b hb hj
      have := (List.getElem?_eq_some_iff.1 hb).1
      omega

/-- What an entry says is what its row says, where its strings begin below `2 ^ 31`. -/
theorem info_entryAt (h : Loaded file db) {pre post : List Row} (hrows : rows file = pre ++ r :: post)
    (hlt : ∀ pre' s post', r.strings = pre' ++ s :: post' → poolLen (pre.flatMap Row.strings ++ pre') < 2 ^ 31) :
    (entryAt (poolLen (pre.flatMap Row.strings)) r).info db.strings = r.info := by
  have hbuf : db.strings.buf = pool (pre.flatMap Row.strings ++ r.type.toList ++ r.desc.toList ++ r.op.toList ++
      post.flatMap Row.strings) := by
    rw [h.buf, hrows]
    simp [Row.strings]
  have hnul : ∀ s ∈ r.strings, 0 ∉ s := by
    intro s hs
    have hr : r ∈ rows file := by
      rw [hrows]
      simp
    exact noNul hr hs
  have htype : db.strings.get (indexAt (poolLen (pre.flatMap Row.strings)) r.type) = r.type := by
    refine get_pool (r.desc.toList ++ r.op.toList ++ post.flatMap Row.strings) (by simpa using hbuf) ?_ ?_
    · intro s hs
      exact hnul s (by simp [Row.strings, Option.mem_def.1 hs])
    · intro s hs
      simpa using hlt [] s (r.desc.toList ++ r.op.toList) (by simp [Row.strings, Option.mem_def.1 hs])
  have hdesc : db.strings.get (indexAt (poolLen (pre.flatMap Row.strings) + poolLen r.type.toList) r.desc) = r.desc := by
    rw [← poolLen_append]
    refine get_pool (r.op.toList ++ post.flatMap Row.strings) (by simpa using hbuf) ?_ ?_
    · intro s hs
      exact hnul s (by simp [Row.strings, Option.mem_def.1 hs])
    · intro s hs
      exact hlt r.type.toList s r.op.toList (by simp [Row.strings, Option.mem_def.1 hs])
  have hop : db.strings.get (indexAt (poolLen (pre.flatMap Row.strings) + poolLen r.type.toList +
      poolLen r.desc.toList) r.op) = r.op := by
    rw [← poolLen_append, ← poolLen_append]
    refine get_pool (post.flatMap Row.strings) hbuf ?_ ?_
    · intro s hs
      exact hnul s (by simp [Row.strings, Option.mem_def.1 hs])
    · intro s hs
      have := hlt (r.type.toList ++ r.desc.toList) s [] (by simp [Row.strings, Option.mem_def.1 hs])
      rwa [← List.append_assoc] at this
  simp only [Entry.info, entryAt, htype, hdesc, hop, Row.info]

end Loaded

/-! ## The lookups and the file -/

/-- **The lookups agree with a small file.** -/
theorem agrees_of_small (lib : CLib) (hshort : ShortLines file) (hsmall : Small file) : Agrees lib file := by
  have h := loaded lib hshort
  refine ⟨fun reg => ⟨fun hsome => ?_, ?_⟩, ?_, fun a => ⟨fun hsome => ?_, ?_⟩, ?_⟩
  · obtain ⟨hex, hhex⟩ := Option.isSome_iff_exists.1 hsome
    obtain ⟨e, he, hreg, -⟩ := lookup_some hhex
    exact (h.exists_reg_iff fun g _ => g = normalizeReg reg 12).1 ⟨e, he, hreg⟩
  · rintro ⟨r, hr, hreg⟩
    obtain ⟨pre, post, hrows⟩ := List.append_of_mem hr
    exact lookup_isSome h.sorted (h.mem.2 ⟨pre, r, post, hrows, rfl⟩) hreg (reg_ne_nil hr)
  · intro reg hex hhex
    obtain ⟨e, he, hreg, hx⟩ := lookup_some hhex
    exact (h.exists_reg_iff fun g x => g = normalizeReg reg 12 ∧ x = hex).1 ⟨e, he, hreg, hx⟩
  · obtain ⟨info, hinfo⟩ := Option.isSome_iff_exists.1 hsome
    obtain ⟨e, he, hhex, -⟩ := lookupByAes_some hinfo
    exact (h.exists_reg_iff fun _ x => x = fmtHex 6 (a.toNat % 2 ^ 24)).1 ⟨e, he, hhex⟩
  · rintro ⟨r, hr, hhex⟩
    obtain ⟨pre, post, hrows⟩ := List.append_of_mem hr
    exact h.aes_isSome (h.mem.2 ⟨pre, r, post, hrows, rfl⟩) hhex
  · intro a info hinfo
    obtain ⟨e, he, hhex, rfl⟩ := lookupByAes_some hinfo
    obtain ⟨pre, r, post, hrows, rfl⟩ := h.mem.1 he
    refine ⟨r, by rw [hrows]; simp, hhex, h.info_entryAt hrows ?_⟩
    intro pre' s post' hstrings
    refine hsmall.starts _ s (post' ++ post.flatMap Row.strings) ?_
    rw [hrows, List.flatMap_append, List.flatMap_cons, hstrings]
    simp

/-! ## Files that are not small -/

/-- A string behind an option is the option's, or behind it. -/
theorem toList_append_split {o : Option (List UInt8)} {ss pre post : List (List UInt8)}
    (h : o.toList ++ ss = pre ++ s :: post) : (o = some s ∧ pre = []) ∨
      ∃ pre', pre = o.toList ++ pre' ∧ ss = pre' ++ s :: post := by
  cases o with
  | none => exact .inr ⟨pre, rfl, h⟩
  | some t =>
    cases pre with
    | nil => exact .inl ⟨congrArg some (List.cons.inj h).1, rfl⟩
    | cons x pre =>
      obtain ⟨rfl, h'⟩ : t = x ∧ ss = pre ++ s :: post := List.cons.inj h
      exact .inr ⟨pre, rfl, h'⟩

/-- Which string of a row one is. -/
theorem strings_split {pre post : List (List UInt8)} (h : r.strings = pre ++ s :: post) :
    (r.type = some s ∧ pre = []) ∨ (r.desc = some s ∧ pre = r.type.toList) ∨
      (r.op = some s ∧ pre = r.type.toList ++ r.desc.toList) := by
  rw [Row.strings, List.append_assoc] at h
  rcases toList_append_split h with h1 | ⟨pre₁, rfl, h1⟩
  · exact .inl h1
  rcases toList_append_split h1 with ⟨hs, rfl⟩ | ⟨pre₂, rfl, h2⟩
  · exact .inr (.inl ⟨hs, List.append_nil _⟩)
  rw [← List.append_nil r.op.toList] at h2
  rcases toList_append_split h2 with ⟨hs, rfl⟩ | ⟨pre₃, rfl, h3⟩
  · exact .inr (.inr ⟨hs, by rw [List.append_nil]⟩)
  · exact absurd h3 (by simp)

/-- **A lost string shows**: the lookup of its address does not say it, when no other row has the address. -/
theorem not_agrees (hshort : ShortLines file) {pre post : List Row} (hrows : rows file = pre ++ r :: post)
    (huniq : ∀ r' ∈ pre ++ post, r'.hex ≠ r.hex) {pre' post' : List (List UInt8)}
    (hstrings : r.strings = pre' ++ s :: post') (h1 : 2 ^ 31 ≤ poolLen (pre.flatMap Row.strings ++ pre'))
    (h2 : poolLen (pre.flatMap Row.strings ++ pre') < 2 ^ 32) : ¬Agrees lib file := by
  intro hagrees
  have h := loaded lib hshort
  have hr : r ∈ rows file := by
    rw [hrows]
    simp
  -- the only row with this address
  have honly : ∀ r' ∈ rows file, r'.hex = r.hex → r' = r := by
    intro r' hr' hhex
    rw [hrows] at hr'
    rcases List.mem_append.1 hr' with hr' | hr'
    · exact absurd hhex (huniq r' (List.mem_append_left _ hr'))
    · rcases List.mem_cons.1 hr' with rfl | hr'
      · rfl
      · exact absurd hhex (huniq r' (List.mem_append_right _ hr'))
  obtain ⟨a, ha⟩ := exists_aes hr
  obtain ⟨info, hinfo⟩ := Option.isSome_iff_exists.1 ((hagrees.aes_iff a).2 ⟨r, hr, ha.symm⟩)
  -- what the file says, and what the entry says
  obtain ⟨r', hr', hhex', rfl⟩ := hagrees.aes_info a info hinfo
  obtain rfl := honly r' hr' (hhex'.trans ha)
  obtain ⟨e, he, hhex, hsays⟩ := lookupByAes_some hinfo
  obtain ⟨pre₂, r₂, post₂, hrows₂, rfl⟩ := h.mem.1 he
  obtain rfl := honly r₂ (by rw [hrows₂]; simp) (hhex.trans ha)
  have hnot : ∀ rs : List Row, (∀ r'' ∈ rs, r'' ∈ pre ++ post) → r₂ ∉ rs := fun rs hrs hmem => huniq r₂ (hrs r₂ hmem) rfl
  obtain ⟨rfl, -, rfl⟩ := (List.append_cons_inj_of_notMem (hnot pre fun _ => List.mem_append_left _)
    (hnot post fun _ => List.mem_append_right _)).1 (hrows.symm.trans hrows₂)
  simp only [Row.info, Entry.info, entryAt, AircraftInfo.mk.injEq] at hsays
  obtain ⟨-, htype, hdesc, hop⟩ := hsays
  rcases strings_split hstrings with ⟨hs, rfl⟩ | ⟨hs, rfl⟩ | ⟨hs, rfl⟩
  · rw [List.append_nil] at h1 h2
    rw [get_lost h1 h2, hs] at htype
    exact absurd htype (by simp)
  · rw [poolLen_append] at h1 h2
    rw [get_lost h1 h2, hs] at hdesc
    exact absurd hdesc (by simp)
  · rw [poolLen_append, poolLen_append, ← Nat.add_assoc] at h1 h2
    rw [get_lost h1 h2, hs] at hop
    exact absurd hop (by simp)

/-- A string of a row is shorter than a line. -/
theorem length_string_lt (hshort : ShortLines file) (h : r ∈ rows file) (hs : s ∈ r.strings) : s.length < 1023 := by
  obtain ⟨line, hline, hrow⟩ := mem_rows.1 h
  have hsub := (strings_sublist hrow s hs).trans (List.takeWhile_sublist _)
  exact Nat.lt_of_le_of_lt hsub.length_le (hshort line hline)

/-- Each row takes little room in the pool. -/
theorem poolLen_strings_le (hshort : ShortLines file) (h : r ∈ rows file) : poolLen r.strings ≤ 3 * 1023 := by
  have hopt : ∀ o : Option (List UInt8), (∀ s ∈ o, s ∈ r.strings) → poolLen o.toList ≤ 1023 := by
    intro o ho
    cases o with
    | none => exact Nat.zero_le _
    | some s => exact length_string_lt hshort h (ho s rfl)
  have htype := hopt r.type fun s hs => by simp [Row.strings, Option.mem_def.1 hs]
  have hdesc := hopt r.desc fun s hs => by simp [Row.strings, Option.mem_def.1 hs]
  have hop := hopt r.op fun s hs => by simp [Row.strings, Option.mem_def.1 hs]
  rw [poolLen_strings]
  omega

/-- **No string of a file that the lookups agree with is lost.** -/
theorem starts_of_agrees (hshort : ShortLines file) (hnodup : ((rows file).map Row.hex).Nodup)
    (hagrees : Agrees lib file) (rs rest : List Row) (hrows : rows file = rs ++ rest) :
    ∀ pre s post, rs.flatMap Row.strings = pre ++ s :: post → poolLen pre < 2 ^ 31 := by
  induction rs using List.reverseRecOn generalizing rest with
  | nil => exact fun pre s post h => absurd h (by simp)
  | append_singleton rs r ih =>
    have hrows' : rows file = rs ++ r :: rest := by simpa using hrows
    have hr : r ∈ rows file := by
      rw [hrows']
      simp
    specialize ih (r :: rest) hrows'
    intro pre s post hstrings
    rw [List.flatMap_append, List.flatMap_singleton] at hstrings
    -- the strings of the rows before do not go far beyond the bound
    have hbefore : poolLen (rs.flatMap Row.strings) < 2 ^ 31 + 1023 := by
      rcases List.eq_nil_or_concat (rs.flatMap Row.strings) with hnil | ⟨ss, t, hlast⟩
      · rw [hnil]
        exact Nat.zero_lt_of_lt (Nat.lt_add_of_pos_left (by norm_num))
      · have hss := ih ss t [] (by simpa using hlast)
        obtain ⟨r', hr', ht⟩ := List.mem_flatMap.1 (show t ∈ rs.flatMap Row.strings by rw [hlast]; simp)
        have hlen := length_string_lt hshort (by rw [hrows']; exact List.mem_append_left _ hr') ht
        have hone : poolLen [t] = t.length + 1 := rfl
        rw [hlast, List.concat_eq_append, poolLen_append, hone]
        omega
    -- a string of the last row, or one before it
    have hlastRow : ∀ pre', r.strings = pre' ++ s :: post → poolLen (rs.flatMap Row.strings ++ pre') < 2 ^ 31 := by
      intro pre' hsplit
      by_contra hge
      have hroom := poolLen_strings_le hshort hr
      rw [hsplit, poolLen_append] at hroom
      refine not_agrees hshort hrows' ?_ hsplit (Nat.le_of_not_lt hge) ?_ hagrees
      · intro r' hr' hhex
        rw [hrows', List.map_append, List.map_cons, List.nodup_middle, List.nodup_cons, ← List.map_append] at hnodup
        exact hnodup.1 (List.mem_map.2 ⟨r', hr', hhex⟩)
      · rw [poolLen_append]
        omega
    rcases List.append_eq_append_iff.1 hstrings with ⟨pre', rfl, hsplit⟩ | ⟨a, ha, hsplit⟩
    · exact hlastRow pre' hsplit
    · cases a with
      | nil =>
        rw [List.append_nil] at ha
        have := hlastRow [] hsplit.symm
        rwa [List.append_nil, ha] at this
      | cons x a =>
        obtain ⟨rfl, -⟩ : s = x ∧ post = a ++ r.strings := List.cons.inj hsplit
        exact ih pre s a ha

/-- There are not more addresses than numbers of six hex digits. -/
theorem length_le_of_nodup (hnodup : ((rows file).map Row.hex).Nodup) : (rows file).length ≤ 2 ^ 24 := by
  have hsub : (rows file).map Row.hex ⊆ (List.range (2 ^ 24)).map (fmtHex 6) := by
    intro x hx
    obtain ⟨r, hr, rfl⟩ := List.mem_map.1 hx
    obtain ⟨a, ha⟩ := exists_aes hr
    exact List.mem_map.2 ⟨_, List.mem_range.2 (Nat.mod_lt _ (by decide)), ha⟩
  have hle := (List.subperm_of_subset hnodup hsub).length_le
  rwa [List.length_map, List.length_map, List.length_range] at hle

/-- **Only with a small file, when no address comes twice.** -/
theorem small_of_agrees (hshort : ShortLines file) (hnodup : ((rows file).map Row.hex).Nodup)
    (hagrees : Agrees lib file) : Small file := by
  refine ⟨(length_le_of_nodup hnodup).trans (by norm_num), ?_⟩
  exact starts_of_agrees hshort hnodup hagrees (rows file) [] (List.append_nil _).symm

/-- **When the lookups agree with the file.** -/
theorem aircraft_db_agrees (lib : CLib) (file : List UInt8) (hshort : ShortLines file) :
    (Small file → Agrees lib file) ∧ (((rows file).map Row.hex).Nodup → Agrees lib file → Small file) :=
  ⟨agrees_of_small lib hshort, small_of_agrees hshort⟩

/-- A file is small whose strings take little room. -/
theorem small_of_poolLen (hcount : (rows file).length ≤ 2 ^ 30)
    (hlen : poolLen ((rows file).flatMap Row.strings) ≤ 2 ^ 31) : Small file := by
  refine ⟨hcount, fun pre s post h => ?_⟩
  have hs : poolLen (s :: post) = s.length + 1 + poolLen post := rfl
  rw [h, poolLen_append, hs] at hlen
  omega

/-! ### A library, and two files -/

/-- A stable sort, and a search from the front. -/
def CLib.plain : CLib where
  qsort cmp l := l.mergeSort fun a b => (cmp a b).isLE
  bsearch cmp l := l.find? fun a => cmp a == .eq
  qsort_perm _ _ l := List.mergeSort_perm l _
  qsort_sorted cmp _ l := by
    have htotal : ∀ a b, ((cmp a b).isLE || (cmp b a).isLE) = true := by
      intro a b
      have hswap : cmp b a = (cmp a b).swap := Std.OrientedCmp.eq_swap
      rw [hswap]
      cases cmp a b <;> rfl
    refine (List.pairwise_mergeSort (fun _ _ _ => Std.TransCmp.isLE_trans) htotal l).imp ?_
    intro a b hab hgt
    rw [hgt] at hab
    exact absurd hab (by decide)
  bsearch_mem h := ⟨List.mem_of_find?_eq_some h, by simpa using List.find?_some h⟩
  bsearch_none _ h a ha := by simpa using List.find?_eq_none.1 h a ha

/-- An aircraft without a newline behind it. -/
def oneAircraft : List UInt8 := Stdc.ascii "a98539;n712-tw;B738;00;BOEING 737-800"

theorem oneAircraft_lines : oneAircraft.splitOn 0x0A = [oneAircraft] := splitOn_last (by decide +kernel)

theorem oneAircraft_rows : rows oneAircraft = [⟨Stdc.ascii "N712TW", Stdc.ascii "A98539", some (Stdc.ascii "B738"),
    some (Stdc.ascii "BOEING 737-800"), none⟩] := by
  have hrow : rowOf oneAircraft = some ⟨Stdc.ascii "N712TW", Stdc.ascii "A98539", some (Stdc.ascii "B738"),
      some (Stdc.ascii "BOEING 737-800"), none⟩ := by decide +kernel
  rw [rows, oneAircraft_lines, List.filterMap_cons, hrow]
  rfl

theorem oneAircraft_short : ShortLines oneAircraft := by
  rw [ShortLines, oneAircraft_lines]
  simp only [List.mem_singleton, forall_eq]
  decide +kernel

theorem oneAircraft_small : Small oneAircraft := by
  refine small_of_poolLen ?_ ?_
  · rw [oneAircraft_rows]
    decide
  · rw [oneAircraft_rows]
    decide

theorem oneAircraft_agrees : Agrees .plain oneAircraft ∧ Small oneAircraft := by
  have hagrees := (aircraft_db_agrees .plain oneAircraft oneAircraft_short).1 oneAircraft_small
  exact ⟨hagrees, (aircraft_db_agrees .plain oneAircraft oneAircraft_short).2 (by rw [oneAircraft_rows]; simp) hagrees⟩

/-- A file of many aircraft with a long description, and one with a type behind them. -/
def bigFile : List UInt8 :=
  (List.replicate (2 ^ 24) (Stdc.ascii "000001;A;;;" ++ List.replicate 127 0x78 ++ [0x0A])).flatten ++
    Stdc.ascii "FFFFFF;B;T"

theorem splitOn_replicate (hl : 0x0A ∉ l) (k : ℕ) :
    ((List.replicate k (l ++ [0x0A])).flatten ++ s).splitOn 0x0A = List.replicate k l ++ s.splitOn 0x0A := by
  induction k with
  | zero => rfl
  | succ k ih =>
    have hcons : (List.replicate (k + 1) (l ++ [0x0A])).flatten ++ s =
        l ++ 0x0A :: ((List.replicate k (l ++ [0x0A])).flatten ++ s) := by simp [List.replicate_succ]
    rw [hcons, splitOn_line hl, ih]
    rfl

theorem poolLen_replicate (k : ℕ) (r : Row) : poolLen ((List.replicate k r).flatMap Row.strings) = k * poolLen r.strings := by
  induction k with
  | zero => simp [poolLen]
  | succ k ih =>
    rw [List.replicate_succ, List.flatMap_cons, poolLen_append, ih]
    ring

theorem bigFile_disagrees : ShortLines bigFile ∧ ¬Agrees .plain bigFile := by
  have hlines : bigFile.splitOn 0x0A = List.replicate (2 ^ 24) (Stdc.ascii "000001;A;;;" ++ List.replicate 127 0x78) ++
      [Stdc.ascii "FFFFFF;B;T"] := by
    rw [bigFile, splitOn_replicate (by decide +kernel), splitOn_last (by decide +kernel)]
  have hrow1 : rowOf (Stdc.ascii "000001;A;;;" ++ List.replicate 127 0x78) =
      some ⟨Stdc.ascii "A", Stdc.ascii "000001", none, some (List.replicate 127 0x78), none⟩ := by decide +kernel
  have hrow2 : rowOf (Stdc.ascii "FFFFFF;B;T") =
      some ⟨Stdc.ascii "B", Stdc.ascii "FFFFFF", some (Stdc.ascii "T"), none, none⟩ := by decide +kernel
  have hshort : ShortLines bigFile := by
    intro l hl
    rw [hlines] at hl
    rcases List.mem_append.1 hl with hl | hl
    · rw [List.eq_of_mem_replicate hl]
      decide +kernel
    · rw [List.mem_singleton.1 hl]
      decide +kernel
  have hrows : rows bigFile = List.replicate (2 ^ 24)
      ⟨Stdc.ascii "A", Stdc.ascii "000001", none, some (List.replicate 127 0x78), none⟩ ++
        ⟨Stdc.ascii "B", Stdc.ascii "FFFFFF", some (Stdc.ascii "T"), none, none⟩ :: [] := by
    rw [rows, hlines, List.filterMap_append, List.filterMap_replicate_of_some hrow1, List.filterMap_cons, hrow2]
    rfl
  have hlen : poolLen (Row.strings ⟨Stdc.ascii "A", Stdc.ascii "000001", none, some (List.replicate 127 0x78), none⟩) =
      128 := by decide +kernel
  refine ⟨hshort, not_agrees hshort hrows ?_ (rfl : _ = [] ++ Stdc.ascii "T" :: []) ?_ ?_⟩
  · intro r' hr'
    rw [List.append_nil] at hr'
    rw [List.eq_of_mem_replicate hr']
    decide +kernel
  · rw [List.append_nil, poolLen_replicate, hlen]
    norm_num
  · rw [List.append_nil, poolLen_replicate, hlen]
    norm_num

end InmarsatSniffer.AircraftDb
