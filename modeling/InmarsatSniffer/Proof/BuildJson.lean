import Mathlib
import InmarsatSniffer.Proof.Bounds
import InmarsatSniffer.Proof.Escape
import InmarsatSniffer.Proof.WebState
import InmarsatSniffer.Spec.BuildJson

/-!
# The JSON of the web page stays in its buffer

* `fmtFixed_length`, `escapedInto_length`: how long a number and an escaped text get.
* `stdcText_length`, `putAircraft_safe`, `channelText_length`: an entry is shorter than the slack of its loop.
* `eachEntry_safe`: such a loop ends inside, wherever it starts.
* `build_json_inside`: **no write of `build_json` is outside, and none is cut**.
* `putAircraft_text`: an aircraft is printed as the object that `aircraftText` is.
-/

namespace InmarsatSniffer.Web

open Stdc (ascii fmtInt fmtPad fmtInt_length fmtPad_length)
open Feed
open Escape (CharSign)

variable {maxlen : ℕ} {o : JsonOut} {text : List UInt8} {sign : CharSign} {x : ℚ} {e n : ℕ}

/-! ## Lengths -/

theorem roundEven_le {q : ℚ} {N : ℕ} (h0 : 0 ≤ q) (h : q < N) : roundEven q ≤ N := by
  have hfloor : ⌊q⌋₊ < N := (Nat.floor_lt h0).2 h
  unfold roundEven
  dsimp only
  split <;> omega

theorem fmtSigned_length {i : ℤ} (he : 0 < e) (h : |i| < 10 ^ e) : (fmtSigned i).length ≤ e + 1 := by
  have habs : i.natAbs < 10 ^ e := by
    rw [Int.abs_eq_natAbs] at h
    exact_mod_cast h
  have hlen := fmtInt_length he habs
  unfold fmtSigned
  split
  · rw [List.length_cons]
    omega
  · omega

theorem fmtRound_length (h : |x| < 10 ^ e) : (fmtRound x).length ≤ e + 2 := by
  have hround : roundEven |x| ≤ 10 ^ e := roundEven_le (abs_nonneg x) (by exact_mod_cast h)
  have hlt : roundEven |x| < 10 ^ (e + 1) := hround.trans_lt (Nat.pow_lt_pow_right (by decide) (Nat.lt_succ_self e))
  have hlen := fmtInt_length (Nat.succ_pos e) hlt
  unfold fmtRound
  rw [List.length_append]
  split
  · rw [List.length_singleton]
    omega
  · rw [List.length_nil]
    omega

/-- **`%.nf`**: rounding can make one more digit. -/
theorem fmtFixed_length (hn : 0 < n) (h : |x| < 10 ^ e) : (fmtFixed n x).length ≤ e + n + 3 := by
  have hpos : (0 : ℚ) < 10 ^ n := by positivity
  have hround : roundEven (|x| * 10 ^ n) ≤ 10 ^ (e + n) := by
    refine roundEven_le (mul_nonneg (abs_nonneg x) hpos.le) ?_
    rw [Nat.cast_pow, Nat.cast_ofNat, pow_add]
    exact mul_lt_mul_of_pos_right h hpos
  have hint : roundEven (|x| * 10 ^ n) / 10 ^ n < 10 ^ (e + 1) := by
    refine lt_of_le_of_lt (Nat.div_le_of_le_mul ?_) (Nat.pow_lt_pow_right (by decide) (Nat.lt_succ_self e))
    rwa [← pow_add, Nat.add_comm n e]
  have hlen := fmtInt_length (Nat.succ_pos e) hint
  have hpad := fmtPad_length hn (Nat.mod_lt (roundEven (|x| * 10 ^ n)) (Nat.pos_of_ne_zero (by positivity : (10 : ℕ) ^ n ≠ 0)))
  unfold fmtFixed
  dsimp only
  rw [List.length_append, List.length_append, List.length_append, hpad, List.length_singleton]
  split
  · rw [List.length_singleton]
    omega
  · rw [List.length_nil]
    omega

/-- **An escaped text** is at most twice as long, and shorter than its array. -/
theorem escapedInto_length (sign : CharSign) (size : ℕ) (hpos : 1 ≤ size) (text : List UInt8) :
    (escapedInto sign size text).length ≤ 2 * text.length ∧ (escapedInto sign size text).length < size := by
  obtain ⟨pre, suf, rfl, htext, -, -, hroom, -⟩ := Escape.jsonEscape_spec sign (fun _ => 0) hpos text
  have hsame : escapedInto sign size (pre ++ suf) = (Escape.jsonEscape sign (fun _ => 0) size (pre ++ suf)).text := rfl
  refine ⟨?_, ?_⟩
  · rw [hsame, htext, List.length_flatMap, List.length_append]
    have hsum : (pre.map fun c => (Escape.bytesOf sign c).length).sum ≤ pre.length * 2 := by
      have := List.sum_le_card_nsmul (pre.map fun c => (Escape.bytesOf sign c).length) 2 fun k hk => by
        obtain ⟨c, -, rfl⟩ := List.mem_map.1 hk
        exact Escape.bytesOf_length_le sign c
      simpa using this
    omega
  · rw [hsame, Escape.text_length]
    omega

/-! ## Values -/

/-- The value of an `int`. -/
def IsInt (i : ℤ) : Prop := -2 ^ 31 ≤ i ∧ i < 2 ^ 31

/-- A time less than 10^11 seconds from the epoch. -/
def IsTime (t : ℚ) : Prop := |t| < 10 ^ 11

/-- A latitude and a longitude that are at most 180 degrees. -/
def IsPosition (p : ℚ × ℚ) : Prop := |p.1| ≤ 180 ∧ |p.2| ≤ 180

theorem isInt_zero : IsInt 0 := ⟨by norm_num, by norm_num⟩

theorem IsInt.length {i : ℤ} (h : IsInt i) : (fmtSigned i).length ≤ 11 := by
  obtain ⟨h1, h2⟩ := h
  exact fmtSigned_length (e := 10) (by decide) (abs_lt.2 ⟨by omega, by omega⟩)

theorem IsTime.length (h : IsTime x) : (fmtFixed 3 x).length ≤ 17 := fmtFixed_length (by decide) h

theorem degrees_length (h : |x| ≤ 180) : (fmtFixed 6 x).length ≤ 12 :=
  fmtFixed_length (e := 3) (by decide) (lt_of_le_of_lt h (by norm_num))

/-- **The values of a message.** -/
structure StdcEntry.Ok (e : StdcEntry) : Prop where
  time : IsTime e.timestamp
  service : IsInt e.serviceCode
  msgType : IsInt e.msgType
  position : ∀ p ∈ e.position, IsPosition p

/-- **The values of an aircraft.** -/
structure AircraftEntry.Ok (ac : AircraftEntry) : Prop where
  time : IsTime ac.lastSeen
  channel : IsInt ac.channelId
  fixes : ∀ fix ∈ ac.fixes, IsPosition (fix.lat, fix.lon) ∧ IsInt fix.alt ∧ IsTime fix.t

/-- **The values of a channel.** -/
structure ChanWebInfo.Ok (c : ChanWebInfo) : Prop where
  channel : |c.channelId| < 10 ^ 9
  baud : |c.baudRate| < 10 ^ 9
  msgs : c.msgCount < 10 ^ 9
  last : |c.lastMsgTime| < 10 ^ 9
  mse : |c.mse| < 10 ^ 9
  ebno : |c.ebno| < 10 ^ 9
  locked : |c.isLocked| < 10 ^ 9

/-! ## Entries -/

theorem stdcText_length (sign : CharSign) {e : StdcEntry} (h : e.Ok) : (stdcText sign e).length ≤ 908 := by
  have htime := h.time.length
  have hservice := h.service.length
  have htype := h.msgType.length
  have htext := (escapedInto_length sign 1024 (by decide) (e.text.take 400)).1
  have htake := List.length_take_le 400 e.text
  have h1 : (ascii "\x7b\"t\":").length = 5 := rfl
  have h2 : (ascii ",\"svc\":").length = 7 := rfl
  have h3 : (ascii ",\"type\":").length = 8 := rfl
  have h4 : (ascii ",\"lat\":").length = 7 := rfl
  have h5 : (ascii ",\"lon\":").length = 7 := rfl
  have h6 : (ascii ",\"text\":\"").length = 9 := rfl
  have h7 : (ascii "\"\x7d").length = 2 := rfl
  unfold stdcText
  dsimp only
  cases hp : e.position with
  | none =>
    simp only [List.length_append, h1, h2, h3, h6, h7]
    push_cast at htext
    omega
  | some p =>
    have hlat := degrees_length (h.position p hp).1
    have hlon := degrees_length (h.position p hp).2
    simp only [List.length_append, h1, h2, h3, h4, h5, h6, h7]
    push_cast at htext
    omega

theorem aircraftHead_length (sign : CharSign) {ac : AircraftEntry} (h : ac.Ok) : (aircraftHead sign ac).length ≤ 645 := by
  have htime := h.time.length
  have hchannel := h.channel.length
  have htext := (escapedInto_length sign escapedTextSize (by decide) ac.lastText.1).2
  have hreg := ac.reg.2.2
  have hflight := ac.flight.2.2
  have hlabel := ac.label.2.2
  have h1 : (ascii "\x7b\"reg\":\"").length = 8 := rfl
  have h2 : (ascii "\",\"flight\":\"").length = 12 := rfl
  have h3 : (ascii "\",\"label\":\"").length = 11 := rfl
  have h4 : (ascii "\",\"last_seen\":").length = 14 := rfl
  have h5 : (ascii ",\"ch\":").length = 6 := rfl
  have h6 : (ascii ",\"text\":\"").length = 9 := rfl
  have h7 : (ascii "\",\"fixes\":[").length = 11 := rfl
  unfold aircraftHead
  simp only [List.length_append, h1, h2, h3, h4, h5, h6, h7]
  dsimp only [escapedTextSize] at htext ⊢
  omega

theorem fixText_length {fix : Fix} (h : IsPosition (fix.lat, fix.lon) ∧ IsInt fix.alt ∧ IsTime fix.t) :
    (fixText fix).length ≤ 57 := by
  have hlat := degrees_length h.1.1
  have hlon := degrees_length h.1.2
  have halt := h.2.1.length
  have htime := h.2.2.length
  have h1 : (ascii "[").length = 1 := rfl
  have h2 : (ascii ",").length = 1 := rfl
  have h3 : (ascii "]").length = 1 := rfl
  unfold fixText
  simp only [List.length_append, h1, h2, h3]
  dsimp only at hlat hlon
  omega

theorem channelText_length {c : ℚ × ChanWebInfo} (ht : IsTime c.1) (h : c.2.Ok) : (channelText c).length ≤ 134 := by
  have hchannel := fmtSigned_length (by decide) h.channel
  have hbaud := fmtSigned_length (by decide) h.baud
  have hmsgs := fmtInt_length (by decide) h.msgs
  have hmse := fmtFixed_length (n := 3) (by decide) h.mse
  have hebno := fmtFixed_length (n := 1) (by decide) h.ebno
  have hlocked := fmtSigned_length (by decide) h.locked
  have hage : (fmtRound (if c.2.lastMsgTime < 1 then -1 else c.1 - c.2.lastMsgTime)).length ≤ 14 := by
    refine fmtRound_length (e := 12) ?_
    split
    · norm_num
    · calc |c.1 - c.2.lastMsgTime| ≤ |c.1| + |c.2.lastMsgTime| := abs_sub _ _
        _ < 10 ^ 11 + 10 ^ 9 := add_lt_add ht h.last
        _ < 10 ^ 12 := by norm_num
  have h1 : (ascii "\x7b\"ch\":").length = 6 := rfl
  have h2 : (ascii ",\"baud\":").length = 8 := rfl
  have h3 : (ascii ",\"msgs\":").length = 8 := rfl
  have h4 : (ascii ",\"age\":").length = 7 := rfl
  have h5 : (ascii ",\"mse\":").length = 7 := rfl
  have h6 : (ascii ",\"ebno\":").length = 8 := rfl
  have h7 : (ascii ",\"lock\":").length = 8 := rfl
  have h8 : (ascii "\x7d").length = 1 := rfl
  unfold channelText
  simp only [List.length_append, h1, h2, h3, h4, h5, h6, h7, h8]
  omega

theorem headerText_length {s : WebState} {env : JsonEnv} (htime : IsTime env.nowHeader) (hacars : s.totalAcars < 2 ^ 64)
    (hdrops : env.feedDrops < 2 ^ 64) : (headerText s env).length ≤ 138 := by
  have hnow := htime.length
  have htotal := fmtInt_length (x := s.totalAcars) (e := 20) (by decide) (hacars.trans (by norm_num))
  have hfeed := fmtInt_length (x := env.feedDrops) (e := 20) (by decide) (hdrops.trans (by norm_num))
  have hbool : ∀ b, (boolText b).length ≤ 5 := by decide
  have hstdc := hbool env.stdcEnabled
  have hspectrum := hbool env.spectrumEnabled
  have h1 : (ascii "\x7b\"t\":").length = 5 := rfl
  have h2 : (ascii ",\"stdc_enabled\":").length = 16 := rfl
  have h3 : (ascii ",\"spectrum_enabled\":").length = 20 := rfl
  have h4 : (ascii ",\"total_acars\":").length = 15 := rfl
  have h5 : (ascii ",\"feed_drops\":").length = 14 := rfl
  have h6 : (ascii ",").length = 1 := rfl
  unfold headerText
  simp only [List.length_append, h1, h2, h3, h4, h5, h6]
  omega

/-! ## Writes -/

/-- A write is inside of the buffer, with its NUL if it is an `snprintf`, whose output is not cut. -/
def BufWrite.Inside (maxlen : ℕ) : BufWrite → Prop
  | .snprintf pos size wanted => 0 ≤ size ∧ (wanted : ℤ) < size ∧ pos + wanted < maxlen
  | .store pos => pos < maxlen

/-- All writes so far are inside. -/
def JsonOut.Safe (maxlen : ℕ) (o : JsonOut) : Prop := ∀ w ∈ o.writes, w.Inside maxlen

theorem pos_print : (o.print maxlen text).pos = o.pos + text.length := List.length_append

theorem pos_comma : o.comma.pos = o.pos + 1 := List.length_append

theorem safe_print (text : List UInt8) (h : o.Safe maxlen) (hroom : o.pos + text.length < maxlen) : (o.print maxlen text).Safe maxlen := by
  intro w hw
  rcases List.mem_append.1 hw with hw | hw
  · exact h w hw
  · rw [List.mem_singleton.1 hw]
    exact ⟨by omega, by omega, hroom⟩

theorem safe_comma (h : o.Safe maxlen) (hroom : o.pos < maxlen) : o.comma.Safe maxlen := by
  intro w hw
  rcases List.mem_append.1 hw with hw | hw
  · exact h w hw
  · rw [List.mem_singleton.1 hw]
    exact hroom

/-- **A loop over entries** whose slack is larger than an entry ends inside: where it started, or less than an
entry behind the last place where it goes on. -/
theorem eachEntry_safe {α : Type} {slack width : ℕ} (skip : α → Bool) {put : JsonOut → α → JsonOut} {as : List α}
    (hwidth : width + 1 < slack)
    (hput : ∀ o : JsonOut, ∀ a ∈ as, o.Safe maxlen → o.pos + width < maxlen →
      (put o a).Safe maxlen ∧ (put o a).pos ≤ o.pos + width)
    (first : Bool) (h : o.Safe maxlen) :
    (eachEntry maxlen slack skip put first o as).Safe maxlen ∧
      (eachEntry maxlen slack skip put first o as).pos + (slack - width) ≤ max (o.pos + (slack - width)) maxlen := by
  induction as generalizing first o with
  | nil => exact ⟨h, le_max_left _ _⟩
  | cons a as ih =>
    rw [eachEntry]
    split
    · rename_i hroom
      split
      · exact ih (fun o a ha => hput o a (List.mem_cons_of_mem _ ha)) first h
      · -- the entry, with a comma before it
        have hcomma : (if first then o else o.comma).Safe maxlen ∧ (if first then o else o.comma).pos ≤ o.pos + 1 := by
          split
          · exact ⟨h, Nat.le_succ _⟩
          · exact ⟨safe_comma h (by omega), pos_comma.le⟩
        obtain ⟨hsafe, hpos⟩ := hput _ a List.mem_cons_self hcomma.1 (by omega)
        obtain ⟨hsafe', hpos'⟩ := ih (fun o a ha => hput o a (List.mem_cons_of_mem _ ha)) false hsafe
        refine ⟨hsafe', hpos'.trans (max_le (le_max_of_le_right ?_) (le_max_right _ _))⟩
        omega
    · exact ⟨h, le_max_left _ _⟩

theorem putFixes_safe {fixes : List Fix} (hfixes : ∀ fix ∈ fixes, IsPosition (fix.lat, fix.lon) ∧ IsInt fix.alt ∧ IsTime fix.t)
    (j : ℕ) (h : o.Safe maxlen) (hroom : o.pos + 58 * fixes.length < maxlen) :
    (putFixes maxlen j o fixes).Safe maxlen ∧ (putFixes maxlen j o fixes).pos ≤ o.pos + 58 * fixes.length := by
  induction fixes generalizing j o with
  | nil => exact ⟨h, le_rfl⟩
  | cons fix fixes ih =>
    obtain ⟨hfix, hrest⟩ := List.forall_mem_cons.1 hfixes
    have hlen := fixText_length hfix
    rw [List.length_cons] at hroom
    have hcomma : (if j > 0 then o.comma else o).Safe maxlen ∧ (if j > 0 then o.comma else o).pos ≤ o.pos + 1 := by
      split
      · exact ⟨safe_comma h (by omega), pos_comma.le⟩
      · exact ⟨h, Nat.le_succ _⟩
    have hnext : ((if j > 0 then o.comma else o).print maxlen (fixText fix)).pos ≤ o.pos + 58 := by
      rw [pos_print]
      omega
    obtain ⟨hsafe, hpos⟩ := ih hrest (j + 1) (safe_print (fixText fix) hcomma.1 (by omega)) (by omega)
    refine ⟨hsafe, hpos.trans ?_⟩
    rw [List.length_cons]
    omega

theorem putAircraft_safe {ac : AircraftEntry} (hac : ac.Ok) (h : o.Safe maxlen) (hroom : o.pos + 1111 < maxlen) :
    (putAircraft sign maxlen o ac).Safe maxlen ∧ (putAircraft sign maxlen o ac).pos ≤ o.pos + 1111 := by
  have hhead := aircraftHead_length sign hac
  have hcount : ac.fixes.length ≤ 8 := ac.fixes_le
  have hclose : (ascii "]\x7d").length = 2 := rfl
  have hpos : (o.print maxlen (aircraftHead sign ac)).pos ≤ o.pos + 645 := by
    rw [pos_print]
    omega
  obtain ⟨hsafe, hfixes⟩ := putFixes_safe hac.fixes 0 (safe_print (aircraftHead sign ac) h (by omega)) (by omega)
  unfold putAircraft
  refine ⟨safe_print _ hsafe (by omega), ?_⟩
  rw [pos_print]
  omega

/-! ## Reachable states -/

/-- **The values of a state.** -/
structure WebState.Ok (s : WebState) : Prop where
  stdc : ∀ i, (s.stdc i).Ok
  aircraft : ∀ ac ∈ s.aircraft.1, ac.Ok
  total : s.totalAcars < 2 ^ 64

/-- **The values of a call**: a time, a position, and `int`s. -/
def CallOk (call : ℚ × Call) : Prop :=
  IsTime call.1 ∧
    match call.2 with
    | .stdc msg => IsInt msg.serviceCode ∧ ∀ p ∈ msg.position, IsPosition p
    | .aero msg => IsInt msg.channelId ∧ IsInt msg.altFt ∧ ∀ p ∈ msg.position, IsPosition p

theorem code_isInt (type : StdcMsgType) : IsInt type.code := by
  cases type <;> exact ⟨by decide, by decide⟩

theorem ok_update {ac : AircraftEntry} {msg : AeroMessage} {t : ℚ} (hcall : CallOk (t, .aero msg))
    (hfixes : ∀ fix ∈ ac.fixes, IsPosition (fix.lat, fix.lon) ∧ IsInt fix.alt ∧ IsTime fix.t) : (ac.update msg t).Ok := by
  obtain ⟨htime, hchannel, halt, hposition⟩ := hcall
  refine ⟨htime, hchannel, fun fix hfix => ?_⟩
  rw [update_fixes] at hfix
  have hmem : fix ∈ ac.fixes ++ fixesOf msg.reg [(t, .aero msg)] := List.mem_of_mem_drop hfix
  rcases List.mem_append.1 hmem with hmem | hmem
  · exact hfixes fix hmem
  · rw [fixesOf, heardOf_own] at hmem
    obtain ⟨m, hm, hfix⟩ := List.mem_filterMap.1 hmem
    rw [List.mem_singleton.1 hm] at hfix
    obtain ⟨p, hp, rfl⟩ := Option.map_eq_some_iff.1 hfix
    exact ⟨hposition p hp, halt, htime⟩

theorem ok_fresh {msg : AeroMessage} {t : ℚ} (hcall : CallOk (t, .aero msg)) : (freshEntry msg t).Ok :=
  ok_update hcall fun _ h => absurd h List.not_mem_nil

/-- **One call** keeps the values in range. -/
theorem WebState.Ok.step {s : WebState} (h : s.Ok) {call : ℚ × Call} (hcall : CallOk call) : (s.step call).Ok := by
  obtain ⟨t, call⟩ := call
  cases call with
  | stdc msg =>
    obtain ⟨htime, hservice, hposition⟩ := hcall
    refine ⟨fun i => ?_, h.aircraft, h.total⟩
    have hnew : (StdcEntry.new msg t).Ok := ⟨htime, hservice, code_isInt msg.type, hposition⟩
    have hcell : ((s.step (t, .stdc msg)).stdc i) = Function.update s.stdc s.stdcHead (.new msg t) i := rfl
    rw [hcell, Function.update_apply]
    split
    · exact hnew
    · exact h.stdc i
  | aero msg =>
    refine ⟨h.stdc, ?_, Nat.mod_lt _ (by norm_num)⟩
    have htable : (s.step (t, .aero msg)).aircraft = webAddAero s.aircraft msg t := rfl
    rw [htable]
    have hsplit : ∀ {pre post : List AircraftEntry} {ac new : AircraftEntry}, s.aircraft.1 = pre ++ ac :: post → new.Ok →
        ∀ ac' ∈ pre ++ new :: post, ac'.Ok := by
      intro pre post ac new htable hnew ac' hac'
      rcases List.mem_append.1 hac' with hac' | hac'
      · exact h.aircraft ac' (htable ▸ List.mem_append_left _ hac')
      · rcases List.mem_cons.1 hac' with rfl | hac'
        · exact hnew
        · exact h.aircraft ac' (htable ▸ List.mem_append_right _ (List.mem_cons_of_mem _ hac'))
    rcases webAddAero_cases s.aircraft msg t with ⟨pre, ac, post, htable, -, hnext⟩ | ⟨-, -, hnext⟩ |
      ⟨-, -, pre, old, post, htable, -, hnext⟩
    · have hac := h.aircraft ac (htable ▸ List.mem_append_right _ List.mem_cons_self)
      rw [hnext]
      exact hsplit htable (ok_update hcall hac.fixes)
    · rw [hnext]
      intro ac' hac'
      rcases List.mem_append.1 hac' with hac' | hac'
      · exact h.aircraft ac' hac'
      · rw [List.mem_singleton.1 hac']
        exact ok_fresh hcall
    · rw [hnext]
      exact hsplit htable (ok_fresh hcall)

theorem ok_run {calls : List (ℚ × Call)} (hcalls : ∀ call ∈ calls, CallOk call) : (run calls).Ok := by
  induction calls using List.reverseRecOn with
  | nil =>
    have hzero : StdcEntry.zero.Ok :=
      ⟨lt_of_eq_of_lt abs_zero (by norm_num), isInt_zero, isInt_zero, fun _ h => absurd h (Option.not_mem_none _)⟩
    exact ⟨fun _ => hzero, fun _ h => absurd h List.not_mem_nil, by decide⟩
  | append_singleton calls call ih =>
    rw [run_append]
    exact (ih fun c hc => hcalls c (List.mem_append_left _ hc)).step
      (hcalls call (List.mem_append_right _ (List.mem_singleton_self _)))

/-! ## The whole function -/

/-- The writes so far are inside, and `pos` is at most `b`. -/
def JsonOut.Within (maxlen b : ℕ) (o : JsonOut) : Prop := o.Safe maxlen ∧ o.pos ≤ b

theorem within_empty (maxlen : ℕ) : (JsonOut.mk [] []).Within maxlen 0 := ⟨fun _ h => absurd h List.not_mem_nil, le_rfl⟩

theorem within_print {b k : ℕ} (h : o.Within maxlen b) (hlen : text.length ≤ k) (hroom : b + k < maxlen) :
    (o.print maxlen text).Within maxlen (b + k) := by
  obtain ⟨hsafe, hpos⟩ := h
  refine ⟨safe_print _ hsafe (by omega), ?_⟩
  rw [pos_print]
  omega

theorem within_mono {b b' : ℕ} (h : o.Within maxlen b) (hle : b ≤ b') : o.Within maxlen b' := ⟨h.1, h.2.trans hle⟩

/-- A loop that goes on up to `slack` before the end leaves `pos` where it may already be. -/
theorem within_each {α : Type} {b : ℕ} (slack width : ℕ) (skip : α → Bool) (put : JsonOut → α → JsonOut) (as : List α)
    (h : o.Within maxlen b) (hwidth : width + 1 < slack) (hb : maxlen ≤ b + (slack - width))
    (hput : ∀ o : JsonOut, ∀ a ∈ as, o.Safe maxlen → o.pos + width < maxlen →
      (put o a).Safe maxlen ∧ (put o a).pos ≤ o.pos + width) :
    (eachEntry maxlen slack skip put true o as).Within maxlen b := by
  obtain ⟨hsafe, hpos⟩ := eachEntry_safe skip hwidth hput true h.1
  have hle := h.2
  exact ⟨hsafe, by omega⟩

/-- **The values of what `build_json` reads besides the state.** -/
structure JsonEnv.Ok (env : JsonEnv) : Prop where
  drops : env.feedDrops < 2 ^ 64
  header : IsTime env.nowHeader
  channels : ∀ c ∈ env.channels, IsTime c.1 ∧ c.2.Ok

/-- **No write of `build_json` is outside, and none is cut.** -/
theorem build_json_inside {calls : List (ℚ × Call)} {env : JsonEnv} (hcalls : ∀ call ∈ calls, CallOk call) (henv : env.Ok)
    (hmaxlen : 4096 ≤ maxlen) :
    (∀ w ∈ (buildJson (run calls) env maxlen).writes, w.Inside maxlen) ∧ (buildJson (run calls) env maxlen).pos < maxlen := by
  have hs := ok_run hcalls
  have hstdc : ∀ e ∈ (run calls).stdcEntries, e.Ok := by
    intro e he
    obtain ⟨i, -, rfl⟩ := List.mem_map.1 he
    exact hs.stdc _
  have hheader := headerText_length (s := run calls) henv.header hs.total henv.drops
  have hopen := within_print (within_print (within_empty maxlen) hheader (by omega))
    (show (ascii "\"stdc\":[").length ≤ 8 from le_rfl) (by omega)
  have hstart := within_mono hopen (show _ ≤ maxlen - 116 by omega)
  -- the messages: from here on `pos` may be 116 bytes before the end
  have hmessages := within_each 1024 908 (fun _ => false) (fun o e => o.print maxlen (stdcText env.sign e)) (run calls).stdcEntries
    hstart (by decide) (by omega) fun o e he ho hroom => by
      have hlen := stdcText_length env.sign (hstdc e he)
      exact ⟨safe_print _ ho (by omega), by rw [pos_print]; omega⟩
  have hbetween := within_print (within_print hmessages (show (ascii "],").length ≤ 2 from le_rfl) (by omega))
    (show (ascii "\"aircraft\":[").length ≤ 12 from le_rfl) (by omega)
  have haircraft := within_each 2048 1111 (fun ac => decide (ac.lastSeen < env.nowCutoff - 600))
    (putAircraft env.sign maxlen) (run calls).aircraft.1 hbetween (by decide) (by omega) fun o ac hac ho hroom =>
      putAircraft_safe (hs.aircraft ac hac) ho hroom
  have hbehind := within_print (within_print haircraft (show (ascii "],").length ≤ 2 from le_rfl) (by omega))
    (show (ascii "\"channels\":[").length ≤ 12 from le_rfl) (by omega)
  have hchannels := within_each 256 134 (fun _ => false) (fun o c => o.print maxlen (channelText c))
    env.channels hbehind (by decide) (by omega)
    fun o c hc ho hroom => by
      have hlen := channelText_length (henv.channels c hc).1 (henv.channels c hc).2
      exact ⟨safe_print _ ho (by omega), by rw [pos_print]; omega⟩
  have hclose := within_print (within_print hchannels (show (ascii "]").length ≤ 1 from le_rfl) (by omega))
    (show (ascii "\x7d").length ≤ 1 from le_rfl) (by omega)
  exact ⟨hclose.1, lt_of_le_of_lt hclose.2 (by omega)⟩

/-- An aircraft without a position, and a channel, in the smallest buffer. -/
theorem oneAircraft_inside :
    (∀ w ∈ (buildJson (run [(0, .aero (blankMessage 0))])
        ⟨.unsigned, true, false, 0, 1, 1, [(1, ⟨0, 10500, 2, 0, 1, 5, 1⟩)]⟩ 4096).writes, w.Inside 4096) ∧
      (buildJson (run [(0, .aero (blankMessage 0))])
        ⟨.unsigned, true, false, 0, 1, 1, [(1, ⟨0, 10500, 2, 0, 1, 5, 1⟩)]⟩ 4096).pos < 4096 := by
  have htime : ∀ t : ℚ, t = 0 ∨ t = 1 → IsTime t := by
    rintro t (rfl | rfl)
    · exact lt_of_eq_of_lt abs_zero (by norm_num)
    · exact lt_of_eq_of_lt abs_one (by norm_num)
  refine build_json_inside (List.forall_mem_singleton.2 ?_) ⟨by norm_num, htime 1 (Or.inr rfl), List.forall_mem_singleton.2 ?_⟩ le_rfl
  · exact ⟨htime 0 (Or.inl rfl), isInt_zero, isInt_zero, fun _ h => absurd h (Option.not_mem_none _)⟩
  · refine ⟨htime 1 (Or.inr rfl), ?_⟩
    constructor <;> norm_num

/-! ## The text of an aircraft -/

theorem putFixes_text (fixes : List Fix) (j : ℕ) (o : JsonOut) : (putFixes maxlen j o fixes).text =
    o.text ++ (if j > 0 ∧ fixes ≠ [] then [0x2C] else []) ++ fixesText fixes := by
  induction fixes generalizing j o with
  | nil => simp [putFixes, fixesText]
  | cons fix fixes ih =>
    have hcomma : (if j > 0 then o.comma else o).text = o.text ++ if j > 0 ∧ fix :: fixes ≠ [] then [0x2C] else [] := by
      by_cases hj : j > 0
      · rw [if_pos hj, if_pos ⟨hj, List.cons_ne_nil _ _⟩]
        rfl
      · rw [if_neg hj, if_neg fun h => hj h.1, List.append_nil]
    have hprint : ((if j > 0 then o.comma else o).print maxlen (fixText fix)).text =
        (if j > 0 then o.comma else o).text ++ fixText fix := rfl
    rw [putFixes, ih, hprint, hcomma, List.append_assoc, List.append_assoc]
    congr 1
    cases fixes with
    | nil => simp [fixesText]
    | cons fix' fixes =>
      rw [if_pos ⟨Nat.succ_pos j, List.cons_ne_nil _ _⟩]
      simp [fixesText, ascii]

/-- **An aircraft is printed** as the object that the reader of the page gets, where plain `char` is signed. -/
theorem putAircraft_text (maxlen : ℕ) (o : JsonOut) (ac : AircraftEntry) :
    (putAircraft .signed maxlen o ac).text = o.text ++ aircraftText ac := by
  have hescape : escapedInto .signed escapedTextSize ac.lastText.1 = jsonEscapeStr escapedTextSize ac.lastText.1 :=
    Escape.jsonEscape_signed (fun _ => 0) (by decide) ac.lastText.1
  have hprint : (putAircraft .signed maxlen o ac).text =
      (putFixes maxlen 0 (o.print maxlen (aircraftHead .signed ac)) ac.fixes).text ++ ascii "]\x7d" := rfl
  rw [hprint, putFixes_text, if_neg fun h => absurd h.1 (lt_irrefl 0), aircraftText, ← hescape]
  unfold JsonOut.print aircraftHead
  simp only [List.append_assoc, List.nil_append]

end InmarsatSniffer.Web
