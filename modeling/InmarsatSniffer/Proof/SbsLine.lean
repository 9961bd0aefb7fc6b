import Mathlib
import InmarsatSniffer.Spec.SbsLine
import InmarsatSniffer.Proof.AircraftDb
import InmarsatSniffer.Proof.FeedJson
import InmarsatSniffer.Proof.Delivery

/-!
# The fields of a BaseStation line

A line is in the format when it is 22 fields with commas between them, the values of the
position in fields 11 to 16, and one line end (`SbsLine`). Only the callsign is text that
others have written: it goes in as it is.

* `sbsText_eq`: each of the four formats joins 22 texts.
* `sbsLine_text_iff`: the line is in the format when no comma and no line end is in one of them.
* `sbs_line_iff`: **a line that is written is in the format exactly when the callsign is plain**.
* `SbsRun.lines`: what goes out in a run with plain callsigns.
-/

namespace InmarsatSniffer.Bs

open Stdc (ascii fmtInt fmtPad)
open Feed (fmtSigned roundEven Clock)
open AircraftDb (CLib Database aircraftDbLookup aircraftDbLoad cstr)

variable {fl : FloatOps} {lib : CLib} {db : Database} {file hex line : List UInt8} {tracks : List Track} {r : Report}
  {clock : Clock} {active : Bool} {motion : Option (Double × Double)}

/-! ## The format -/

/-- A text with no comma and no line end in it. -/
def Plain (s : List UInt8) : Prop := ∀ b ∈ s, b ≠ 0x2C ∧ b ≠ 0x0D ∧ b ≠ 0x0A

instance (s : List UInt8) : Decidable (Plain s) :=
  inferInstanceAs (Decidable (∀ b ∈ s, b ≠ 0x2C ∧ b ≠ 0x0D ∧ b ≠ 0x0A))

/-- A line of 22 fields with these in fields 11 to 16, and one line end. -/
structure SbsLine (line callsign alt gs track lat lon : List UInt8) : Prop where
  parts : ∃ body, line = body ++ [0x0D, 0x0A] ∧ 0x0D ∉ body ∧ 0x0A ∉ body ∧
    (body.splitOn 0x2C).length = 22 ∧ ((body.splitOn 0x2C).drop 10).take 6 = [callsign, alt, gs, track, lat, lon]

/-- The altitude, if it is known. -/
def Report.altText (r : Report) : List UInt8 := if -99999 < r.altFt then fmtSigned r.altFt else []

/-- The speed and the track, if they are known. -/
def gsText (motion : Option (Double × Double)) : List UInt8 := (motion.map fun m => fmtDouble 0 m.1).getD []

def trackText (motion : Option (Double × Double)) : List UInt8 := (motion.map fun m => fmtDouble 0 m.2).getD []

/-- The fields of a line. -/
def sbsFields (r : Report) (hex : List UInt8) (motion : Option (Double × Double)) (clock : Clock) : List (List UInt8) :=
  [ascii "MSG", ascii "3", ascii "1", ascii "1", hex, ascii "1", datestamp clock, timestamp clock, datestamp clock,
    timestamp clock, r.callsign, r.altText, gsText motion, trackText motion, fmtDouble 6 r.lat, fmtDouble 6 r.lon,
    [], [], [], [], [], ascii "0"]

/-- **Each of the four formats joins 22 texts.** -/
theorem sbsText_eq (r : Report) (hex : List UInt8) (motion : Option (Double × Double)) (clock : Clock) :
    sbsText r hex motion clock = [0x2C].intercalate (sbsFields r hex motion clock) ++ [0x0D, 0x0A] := by
  have hhead : ascii "MSG,3,1,1," = ascii "MSG" ++ 0x2C :: (ascii "3" ++ 0x2C :: (ascii "1" ++ 0x2C :: (ascii "1" ++
      [0x2C]))) := by decide
  have hone : ascii ",1," = 0x2C :: (ascii "1" ++ [0x2C]) := by decide
  have htail : ascii ",,,,,,0\r\n" = 0x2C :: 0x2C :: 0x2C :: 0x2C :: 0x2C :: 0x2C :: (ascii "0" ++ [0x0D, 0x0A]) := by
    decide
  have hc : ascii "," = [0x2C] := by decide
  have hcc : ascii ",," = [0x2C, 0x2C] := by decide
  have hccc : ascii ",,," = [0x2C, 0x2C, 0x2C] := by decide
  have hcccc : ascii ",,,," = [0x2C, 0x2C, 0x2C, 0x2C] := by decide
  unfold sbsText sbsFields Report.altText gsText trackText
  by_cases halt : -99999 < r.altFt
  · cases motion with
    | none => simp [halt, hhead, hone, htail, hc, hccc, List.intercalate_cons_cons]
    | some m => simp [halt, hhead, hone, htail, hc, List.intercalate_cons_cons]
  · cases motion with
    | none => simp [halt, hhead, hone, htail, hc, hcccc, List.intercalate_cons_cons]
    | some m => simp [halt, hhead, hone, htail, hc, hcc, List.intercalate_cons_cons]

/-! ## Joined texts -/

theorem length_splitOn (s : List UInt8) (c : UInt8) : (s.splitOn c).length = s.count c + 1 := by
  unfold List.splitOn
  induction s with
  | nil => rfl
  | cons b s ih =>
    rw [List.splitOnP_cons_eq_if_modifyHead, List.count_cons]
    by_cases hb : b = c
    · simp [hb, ih]
    · simp [hb, ih]

theorem count_intercalate (c : UInt8) {ls : List (List UInt8)} (hls : ls ≠ []) :
    ([c].intercalate ls).count c + 1 = (ls.map fun l => l.count c).sum + ls.length := by
  induction ls with
  | nil => exact absurd rfl hls
  | cons l ls ih =>
    cases ls with
    | nil => simp [List.intercalate_singleton]
    | cons l' ls =>
      have := ih (by simp)
      rw [List.intercalate_cons_cons, List.count_append, List.count_append, List.count_singleton_self]
      simp only [List.map_cons, List.sum_cons, List.length_cons] at this ⊢
      omega

theorem mem_intercalate {b c : UInt8} {ls : List (List UInt8)} (hb : b ≠ c) :
    b ∈ [c].intercalate ls ↔ ∃ l ∈ ls, b ∈ l := by
  induction ls with
  | nil => simp
  | cons l ls ih =>
    cases ls with
    | nil => simp [List.intercalate_singleton]
    | cons l' ls =>
      rw [List.intercalate_cons_cons, List.mem_append, List.mem_append, ih]
      simp [hb]

/-- **The text is in the format when no comma and no line end is in a field.** -/
theorem sbsLine_text_iff (r : Report) (hex : List UInt8) (motion : Option (Double × Double)) (clock : Clock) :
    SbsLine (sbsText r hex motion clock) r.callsign r.altText (gsText motion) (trackText motion) (fmtDouble 6 r.lat)
      (fmtDouble 6 r.lon) ↔ ∀ s ∈ sbsFields r hex motion clock, Plain s := by
  rw [sbsText_eq]
  constructor
  · rintro ⟨body, hbody, hcr, hlf, hlen, -⟩
    obtain rfl := List.append_cancel_right hbody
    have hcount := count_intercalate 0x2C (show sbsFields r hex motion clock ≠ [] from List.cons_ne_nil _ _)
    have hfields : (sbsFields r hex motion clock).length = 22 := rfl
    rw [← length_splitOn, hlen, hfields, Nat.right_eq_add, List.sum_eq_zero_iff] at hcount
    intro s hs b hb
    refine ⟨?_, ?_, ?_⟩
    · rintro rfl
      have := hcount _ (List.mem_map_of_mem hs)
      exact absurd hb (List.count_eq_zero.1 this)
    · rintro rfl
      exact hcr ((mem_intercalate (by decide)).2 ⟨s, hs, hb⟩)
    · rintro rfl
      exact hlf ((mem_intercalate (by decide)).2 ⟨s, hs, hb⟩)
  · intro hplain
    have hsplit : ([0x2C].intercalate (sbsFields r hex motion clock)).splitOn 0x2C = sbsFields r hex motion clock :=
      List.splitOn_intercalate 0x2C (fun s hs hmem => (hplain s hs _ hmem).1 rfl) (List.cons_ne_nil _ _)
    refine ⟨_, rfl, ?_, ?_, ?_, ?_⟩
    · intro hmem
      obtain ⟨s, hs, hb⟩ := (mem_intercalate (by decide)).1 hmem
      exact (hplain s hs _ hb).2.1 rfl
    · intro hmem
      obtain ⟨s, hs, hb⟩ := (mem_intercalate (by decide)).1 hmem
      exact (hplain s hs _ hb).2.2 rfl
    · rw [hsplit]
      rfl
    · rw [hsplit]
      rfl

/-! ## Texts that `printf` makes -/

theorem plain_append {s t : List UInt8} (hs : Plain s) (ht : Plain t) : Plain (s ++ t) :=
  List.forall_mem_append.2 ⟨hs, ht⟩

theorem plain_of_digits {s : List UInt8} (h : ∀ b ∈ s, JsonText.isDigit b = true) : Plain s := by
  intro b hb
  have hd := h b hb
  refine ⟨?_, ?_, ?_⟩ <;> rintro rfl <;> exact absurd hd (by decide)

theorem fmtInt_plain (n : ℕ) : Plain (fmtInt n) := plain_of_digits (Feed.fmtInt_digits n)

theorem fmtPad_plain (w n : ℕ) : Plain (fmtPad w n) := plain_of_digits (Feed.fmtPad_digits w n)

theorem fmtSigned_plain (i : ℤ) : Plain (fmtSigned i) := by
  unfold fmtSigned
  split
  · exact List.forall_mem_cons.2 ⟨by decide, fmtInt_plain _⟩
  · exact fmtInt_plain _

theorem fmtDouble_plain (n : ℕ) (x : Double) : Plain (fmtDouble n x) := by
  have hminus : ∀ neg : Bool, Plain (if neg then [0x2D] else []) := by
    intro neg
    cases neg <;> simp [Plain]
  cases x with
  | finite neg mag =>
    refine plain_append (plain_append (hminus neg) (fmtInt_plain _)) ?_
    split
    · exact fun b hb => absurd hb List.not_mem_nil
    · exact List.forall_mem_cons.2 ⟨by decide, fmtPad_plain _ _⟩
  | inf neg => exact plain_append (hminus neg) (by simp [Plain, ascii])
  | nan neg => exact plain_append (hminus neg) (by simp [Plain, ascii])

theorem datestamp_plain (clock : Clock) : Plain (datestamp clock) :=
  plain_append (plain_append (plain_append (plain_append (fmtInt_plain _) (by simp [Plain, ascii]))
    (fmtPad_plain _ _)) (by simp [Plain, ascii]))
    (fmtPad_plain _ _)

theorem timestamp_plain (clock : Clock) : Plain (timestamp clock) :=
  plain_append (plain_append (plain_append (plain_append (plain_append (fmtPad_plain _ _)
    (by simp [Plain, ascii])) (fmtPad_plain _ _)) (by simp [Plain, ascii])) (fmtPad_plain _ _)) (by simp [Plain, ascii])

theorem hexDigits_plain (w n : ℕ) : Plain (AircraftDb.hexDigits w n) := by
  have htable : (List.range 16).map AircraftDb.hexDigit =
      [0x30, 0x31, 0x32, 0x33, 0x34, 0x35, 0x36, 0x37, 0x38, 0x39, 0x41, 0x42, 0x43, 0x44, 0x45, 0x46] := by
    decide +kernel
  have hdigit : ∀ d < 16, Plain [AircraftDb.hexDigit d] := by
    intro d hd
    have hmem := List.mem_map_of_mem (f := AircraftDb.hexDigit) (List.mem_range.2 hd)
    rw [htable] at hmem
    have hall : Plain [0x30, 0x31, 0x32, 0x33, 0x34, 0x35, 0x36, 0x37, 0x38, 0x39, 0x41, 0x42, 0x43, 0x44, 0x45, 0x46] := by
      simp [Plain]
    exact List.forall_mem_singleton.2 (hall _ hmem)
  induction w generalizing n with
  | zero => exact fun b hb => absurd hb List.not_mem_nil
  | succ w ih => exact plain_append (ih _) (hdigit _ (Nat.mod_lt n (by decide)))

/-- The database gives plain addresses. -/
theorem lookup_plain {reg : List UInt8} (h : aircraftDbLookup lib (aircraftDbLoad lib file).2 reg = some hex) :
    Plain hex := by
  obtain ⟨e, he, -, rfl⟩ := AircraftDb.lookup_some h
  obtain ⟨n, -, hn⟩ := AircraftDb.hex_of_mem he
  rw [← hn]
  exact hexDigits_plain 6 n

/-- **Only the callsign can break the format.** -/
theorem sbsFields_plain_iff (hhex : Plain hex) :
    (∀ s ∈ sbsFields r hex motion clock, Plain s) ↔ Plain r.callsign := by
  have halt : Plain r.altText := by
    unfold Report.altText
    split
    · exact fmtSigned_plain _
    · exact fun b hb => absurd hb List.not_mem_nil
  have hgs : Plain (gsText motion) := by
    cases motion with
    | none => exact fun b hb => absurd hb List.not_mem_nil
    | some m => exact fmtDouble_plain _ _
  have htrack : Plain (trackText motion) := by
    cases motion with
    | none => exact fun b hb => absurd hb List.not_mem_nil
    | some m => exact fmtDouble_plain _ _
  constructor
  · intro h
    exact h _ (by simp [sbsFields])
  · intro hcall
    have hnil : Plain [] := fun b hb => absurd hb List.not_mem_nil
    have hmsg : Plain (ascii "MSG") := by simp [Plain, ascii]
    have hthree : Plain (ascii "3") := by simp [Plain, ascii]
    have hone : Plain (ascii "1") := by simp [Plain, ascii]
    have hzero : Plain (ascii "0") := by simp [Plain, ascii]
    simp only [sbsFields, List.forall_mem_cons]
    refine ⟨hmsg, hthree, hone, hone, hhex, hone, datestamp_plain _, timestamp_plain _,
      datestamp_plain _, timestamp_plain _, hcall, halt, hgs, htrack, fmtDouble_plain _ _, fmtDouble_plain _ _,
      hnil, hnil, hnil, hnil, hnil, hzero, fun s hs => absurd hs List.not_mem_nil⟩

/-! ## The lines that are written -/

/-- **A line that is written is the whole text.** -/
theorem sendPosition_some (h : (sendPosition fl lib db active tracks r clock).1 = some line) :
    ∃ hex, aircraftDbLookup lib db r.reg = some hex ∧ line = sbsText r hex (r.motion fl tracks hex).1 clock := by
  unfold sendPosition at h
  split at h
  · exact absurd h (by simp)
  · cases hlookup : aircraftDbLookup lib db r.reg with
    | none =>
      rw [hlookup] at h
      exact absurd h (by simp)
    | some hex =>
      rw [hlookup] at h
      refine ⟨hex, rfl, ?_⟩
      dsimp only at h
      split_ifs at h with hlen
      -- what `snprintf` has cut off would not have been written
      obtain rfl := Option.some.inj h
      unfold snprintf at hlen ⊢
      rw [List.take_take, List.take_of_length_le]
      dsimp only at hlen ⊢
      omega

/-- The line of a position in the format. -/
def InFormat (fl : FloatOps) (tracks : List Track) (hex : List UInt8) (r : Report) (line : List UInt8) : Prop :=
  SbsLine line r.callsign r.altText (gsText (r.motion fl tracks hex).1) (trackText (r.motion fl tracks hex).1)
    (fmtDouble 6 r.lat) (fmtDouble 6 r.lon)

/-- The text is in the format when the callsign is plain. -/
theorem inFormat_iff (hhex : Plain hex) :
    InFormat fl tracks hex r (sbsText r hex (r.motion fl tracks hex).1 clock) ↔ Plain r.callsign := by
  unfold InFormat
  rw [sbsLine_text_iff, sbsFields_plain_iff hhex]

/-- **When a line that is written is in the format**, whatever fixes came before. -/
theorem sbs_line_iff (fl : FloatOps) (lib : CLib) (file : List UInt8) (active : Bool) (tracks : List Track)
    (r : Report) (clock : Clock) (line : List UInt8)
    (h : (sendPosition fl lib (aircraftDbLoad lib file).2 active tracks r clock).1 = some line) :
    ∃ hex, aircraftDbLookup lib (aircraftDbLoad lib file).2 r.reg = some hex ∧
      line = sbsText r hex (r.motion fl tracks hex).1 clock ∧ (InFormat fl tracks hex r line ↔ Plain r.callsign) := by
  obtain ⟨hex, hhex, rfl⟩ := sendPosition_some h
  exact ⟨hex, hhex, rfl, inFormat_iff (lookup_plain hhex)⟩

/-! ### Two callsigns -/

/-- Operations that give no number. -/
def FloatOps.none : FloatOps := ⟨fun _ => .nan false, fun _ _ _ _ => .nan false, fun _ _ => .nan false,
  fun _ _ _ _ => .nan false⟩

/-- A position of the one aircraft, under a callsign, and the time of its line. -/
def positionOf (callsign : List UInt8) : Report :=
  ⟨ascii "N712TW", some callsign, .finite false 0, .finite true 0, -99999, .finite true 1, .finite true 1, 0⟩

def noon : Clock := ⟨0, 0, 12, 0, 0, 1, 0, 126⟩

theorem oneAircraft_lookup : aircraftDbLookup .plain (aircraftDbLoad .plain AircraftDb.oneAircraft).2 (ascii "N712TW") =
    some (ascii "A98539") := by
  have hagrees := AircraftDb.agrees_of_small .plain AircraftDb.oneAircraft_short AircraftDb.oneAircraft_small
  have hreg : AircraftDb.normalizeReg (ascii "N712TW") 12 = ascii "N712TW" := by decide +kernel
  have hsome := (hagrees.reg_iff (ascii "N712TW")).2 ⟨_, by rw [AircraftDb.oneAircraft_rows]; exact List.mem_cons_self .., hreg.symm⟩
  obtain ⟨hex, hhex⟩ := Option.isSome_iff_exists.1 hsome
  obtain ⟨r, hr, -, rfl⟩ := hagrees.reg_hex _ _ hhex
  rw [AircraftDb.oneAircraft_rows, List.mem_singleton] at hr
  rw [hhex, hr]

theorem motion_positionOf (callsign hex : List UInt8) : ((positionOf callsign).motion .none [] hex).1 = none := by
  have hnonneg : (Double.finite true 1).nonneg = false := by
    simp [Double.nonneg, signed]
  simp [Report.motion, positionOf, hnonneg, bsDeriveTrack]

/-- The line of such a position, when it is short. -/
theorem sendPosition_positionOf {callsign : List UInt8}
    (hlen : (sbsText (positionOf callsign) (ascii "A98539") none noon).length ∈ Set.Ioo 0 msgSize) :
    (sendPosition .none .plain (aircraftDbLoad .plain AircraftDb.oneAircraft).2 true [] (positionOf callsign) noon).1 =
      some (sbsText (positionOf callsign) (ascii "A98539") none noon) := by
  have hreg : cstr (positionOf callsign).reg ≠ [] := by
    show cstr (ascii "N712TW") ≠ []
    decide +kernel
  have hlookup : aircraftDbLookup .plain (aircraftDbLoad .plain AircraftDb.oneAircraft).2 (positionOf callsign).reg =
      some (ascii "A98539") := oneAircraft_lookup
  unfold sendPosition
  rw [if_neg (by simpa using hreg), hlookup]
  obtain ⟨hpos, hlt⟩ := hlen
  dsimp only [snprintf]
  rw [motion_positionOf, if_neg (by omega), List.take_take, List.take_of_length_le]
  omega

theorem plainCallsign_inFormat : ∃ hex line,
    (sendPosition .none .plain (aircraftDbLoad .plain AircraftDb.oneAircraft).2 true [] (positionOf (ascii "BA0123"))
      noon).1 = some line ∧ InFormat .none [] hex (positionOf (ascii "BA0123")) line := by
  have hline := @sendPosition_positionOf (ascii "BA0123") (by decide +kernel)
  obtain ⟨hex, -, -, hiff⟩ := sbs_line_iff .none .plain AircraftDb.oneAircraft true [] _ noon _ hline
  exact ⟨hex, _, hline, hiff.2 (by decide +kernel)⟩

theorem commaCallsign_shifts : ∃ line,
    (sendPosition .none .plain (aircraftDbLoad .plain AircraftDb.oneAircraft).2 true [] (positionOf (ascii "BA,123"))
      noon).1 = some line ∧ ¬InFormat .none [] (ascii "A98539") (positionOf (ascii "BA,123")) line := by
  refine ⟨_, sendPosition_positionOf (by decide +kernel), fun h => ?_⟩
  have hhex : Plain (ascii "A98539") := by decide +kernel
  rw [← motion_positionOf _ (ascii "A98539"), inFormat_iff hhex] at h
  exact absurd h (by decide +kernel)

/-! ## Runs of the feed -/

/-- The loop over the clients writes this line only. -/
theorem sendLoop_line (s : Station) (line : List UInt8) (res : Fd → WriteResult) (i : ℕ) {fd : Fd} {w : Write} :
    ∀ c ∈ (s.sendLoop line res i).2, c.writeTo fd = some w → w.1 = line := by
  have hwrite : ∀ fd' r, (Syscall.write fd' line r).writeTo fd = some w → w.1 = line := by
    intro fd' r h
    unfold Syscall.writeTo at h
    dsimp only at h
    split_ifs at h
    exact (Option.some.inj h) ▸ rfl
  induction hn : s.clients.length - i generalizing i with
  | zero =>
    rw [Station.sendLoop, dif_neg (by omega)]
    exact fun c hc => absurd hc List.not_mem_nil
  | succ n ih =>
    rw [Station.sendLoop, dif_pos (by omega)]
    dsimp only
    split
    · -- the write that fails, and the call that closes its connection
      intro c hc h
      rcases List.mem_cons.1 hc with rfl | hc
      · exact hwrite _ _ h
      · obtain rfl := List.mem_singleton.1 hc
        exact absurd h (by simp [Syscall.writeTo])
    · intro c hc h
      rcases List.mem_cons.1 hc with rfl | hc
      · exact hwrite _ _ h
      · exact ih (i + 1) (by omega) c hc h

/-- What a call leaves in the writes of a connection. -/
theorem mem_writes_send {s : Station} {res : Fd → WriteResult} {fd : Fd} {w : Write}
    (h : w ∈ (s.send line res).1.writes fd) : w ∈ s.writes fd ∨ w.1 = line := by
  unfold Station.send at h
  split at h
  · exact .inl h
  · rcases List.mem_append.1 h with h | h
    · exact .inl h
    · obtain ⟨c, hc, hw⟩ := List.mem_filterMap.1 h
      exact .inr (sendLoop_line s line res 0 c hc hw)

/-- A new connection has no writes. -/
theorem mem_writes_connect {s s' : Station} {act : Action} {fd' fd : Fd} {w : Write} (hstep : Step s act s')
    (hact : act = .accept fd' ∨ act = .reconnect fd') (h : w ∈ s'.writes fd) : w ∈ s.writes fd := by
  have hupdate : w ∈ Function.update s.writes fd' [] fd → w ∈ s.writes fd := by
    intro h
    by_cases hfd : fd = fd'
    · rw [hfd, Function.update_self] at h
      exact absurd h List.not_mem_nil
    · rwa [Function.update_of_ne hfd] at h
  cases hstep with
  | accept =>
    obtain rfl := by simpa using hact
    unfold Station.accept at h
    split at h
    · exact hupdate h
    · exact h
  | reconnect =>
    obtain rfl := by simpa using hact
    exact hupdate h
  | send => exact absurd hact (by simp)

/-- **What goes out in a run**: lines of the positions that were reported, in the format
exactly when their callsigns are plain. -/
theorem SbsRun.lines {f f' : SbsFeed} {rs : List Report} (hrun : SbsRun fl lib (aircraftDbLoad lib file).2 f rs f')
    (hfresh : ∀ fd, f.station.writes fd = []) (fd : Fd) :
    ∀ w ∈ f'.station.writes fd, ∃ r ∈ rs, ∃ tracks hex,
      aircraftDbLookup lib (aircraftDbLoad lib file).2 r.reg = some hex ∧
        (InFormat fl tracks hex r w.1 ↔ Plain r.callsign) := by
  induction hrun with
  | nil => exact fun w hw => absurd hw (by rw [hfresh]; exact List.not_mem_nil)
  | accept hrun hstep ih => exact fun w hw => ih w (mem_writes_connect hstep (.inl rfl) hw)
  | reconnect hrun hstep ih => exact fun w hw => ih w (mem_writes_connect hstep (.inr rfl) hw)
  | @report f' rs r clock res hrun ih =>
    have hold : ∀ w ∈ f'.station.writes fd, ∃ r' ∈ rs ++ [r], ∃ tracks hex,
        aircraftDbLookup lib (aircraftDbLoad lib file).2 r'.reg = some hex ∧
          (InFormat fl tracks hex r' w.1 ↔ Plain r'.callsign) := by
      intro w hw
      obtain ⟨r', hr', hex⟩ := ih w hw
      exact ⟨r', List.mem_append_left _ hr', hex⟩
    intro w hw
    unfold SbsFeed.report at hw
    split at hw
    · exact hold w hw
    · next line tracks heq =>
      rcases mem_writes_send hw with hw | hw
      · exact hold w hw
      · obtain ⟨hex, hhex, htext⟩ := sendPosition_some (congrArg Prod.fst heq)
        refine ⟨r, by simp, f'.tracks, hex, hhex, ?_⟩
        rw [hw, htext, inFormat_iff (lookup_plain hhex)]

end InmarsatSniffer.Bs
