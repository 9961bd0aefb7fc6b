import InmarsatSniffer.Spec.AeroL

/-!
# The data carrier detect flag of the P channel

* `dcd_decodeBit`: a soft bit moves the flag and its countdown with the signal units of the
  frame that it completes, and a sync sets both.
* `softBit_keeps_datacd`: no soft bit ever clears the flag, however many frames fail.
* `dcd_sound`: so the flag implies a positive countdown only as long as no signal unit fails
  its CRC with the flag set and the countdown at three or less.
-/

namespace InmarsatSniffer.Aero

variable {decodeSoft : List UInt8 → ℕ → Bool} {s : AeroL} {dcd : Dcd}

/-! ## One soft bit -/

/-- The flag behind signal units with the given results. -/
def Dcd.frame (dcd : Dcd) (verdicts : List Bool) : Dcd := verdicts.foldl Dcd.su dcd

theorem dcd_dispatch (s : AeroL) (su : List UInt8) : (s.dispatch su).1.dcd = s.dcd := by
  unfold AeroL.dispatch
  dsimp only
  split
  · rfl
  split
  · rfl
  split
  · split <;> rfl
  · rfl

theorem dcd_checkSu (s : AeroL) (su : List UInt8) : (s.checkSu su).1.dcd = s.dcd.su (suOk su) := by
  unfold AeroL.checkSu
  dsimp only
  split
  · exact dcd_dispatch _ su
  · rfl

theorem dcd_checkSus (s : AeroL) (sus : List (List UInt8)) : (s.checkSus sus).1.dcd = s.dcd.frame (sus.map suOk) := by
  induction sus generalizing s with
  | nil => rfl
  | cons su sus ih =>
    unfold AeroL.checkSus
    rw [ih, dcd_checkSu]
    rfl

theorem dcd_detect (s : AeroL) (bit : Bool) (soft : UInt16) : (s.detect bit soft).1.dcd = s.dcd := by
  unfold AeroL.detect AeroL.detectOqpsk AeroL.pairSync
  dsimp only
  split
  · split
    · split <;> split <;> rfl
    · rfl
  · rfl

theorem dcd_count (s : AeroL) : s.count.dcd = s.dcd := by
  unfold AeroL.count
  dsimp only
  split <;> split <;> rfl

theorem dcd_fill (s : AeroL) (soft : UInt16) : (s.fill decodeSoft soft).dcd = s.dcd := by
  unfold AeroL.fill
  dsimp only
  split <;> rfl

theorem dcd_intake (s : AeroL) (b : Int16) : (s.intake decodeSoft b).1.dcd = s.dcd := by
  unfold AeroL.intake
  dsimp only
  split
  · rw [dcd_fill, dcd_count, dcd_detect]
  · rw [dcd_count, dcd_detect]

theorem dcd_wrap (s : AeroL) : s.wrap.dcd = s.dcd := by
  unfold AeroL.wrap
  split <;> rfl

/-- The results of the CRC tests of the frame that a soft bit completes, if it does. -/
def AeroL.verdicts (decodeSoft : List UInt8 → ℕ → Bool) (s : AeroL) (b : Int16) : List Bool :=
  let d := (s.intake decodeSoft b).1
  if b.toInt < 0 then [] else if d.cntr ≥ 16 && d.frameDone then d.signalUnits.map suOk else []

/-- **What a soft bit does** to the flag and the countdown. -/
theorem dcd_decodeBit (decodeSoft : List UInt8 → ℕ → Bool) (s : AeroL) (b : Int16) :
    (s.decodeBit decodeSoft b).1.dcd = s.dcd.frame (s.verdicts decodeSoft b) ∨
      (s.decodeBit decodeSoft b).1.dcd = ⟨true, 12⟩ := by
  unfold AeroL.decodeBit AeroL.verdicts
  dsimp only
  split
  · exact Or.inl rfl
  rw [dcd_wrap]
  split
  · exact Or.inr rfl
  left
  split
  · unfold AeroL.endFrame
    rw [dcd_checkSus, dcd_intake]
  · exact dcd_intake s b

/-! ## The flag is never cleared -/

theorem su_datacd (dcd : Dcd) (ok : Bool) (h : dcd.datacd = true) : (dcd.su ok).datacd = true := by
  show (dcd.datacd || _) = true
  rw [h, Bool.true_or]

theorem frame_datacd (verdicts : List Bool) (h : dcd.datacd = true) : (dcd.frame verdicts).datacd = true := by
  induction verdicts generalizing dcd with
  | nil => exact h
  | cons ok verdicts ih => exact ih (su_datacd dcd ok h)

/-- **No soft bit clears the flag**, whatever the CRCs of the frames are. -/
theorem softBit_keeps_datacd (s : AeroL) (b : Int16) (h : s.dcd.datacd = true) :
    (s.decodeBit decodeSoft b).1.dcd.datacd = true := by
  rcases dcd_decodeBit decodeSoft s b with heq | heq
  · rw [heq]
    exact frame_datacd _ h
  · rw [heq]

/-! ## Where the countdown holds -/

/-- No signal unit fails with the flag set and the countdown at three or less. -/
def Dcd.keeps (dcd : Dcd) : List Bool → Bool
  | [] => true
  | ok :: verdicts => (ok || !dcd.datacd || decide (3 < dcd.datacdcountdown)) && (dcd.su ok).keeps verdicts

/-- The flag implies a positive countdown. -/
def Dcd.Sound (dcd : Dcd) : Prop := dcd.datacd = true → 0 < dcd.datacdcountdown

/-- **One signal unit** keeps the flag sound, unless it takes the last of the countdown. -/
theorem Dcd.Sound.su (h : dcd.Sound) {ok : Bool}
    (hkeeps : (ok || !dcd.datacd || decide (3 < dcd.datacdcountdown)) = true) : (dcd.su ok).Sound := by
  intro hset
  unfold Dcd.su at hset ⊢
  dsimp only at hset ⊢
  rw [Bool.or_eq_true, decide_eq_true_eq] at hset
  rcases hset with hset | hset
  swap
  · omega
  have hpos := h hset
  cases ok with
  | true =>
    rw [if_pos rfl]
    split <;> omega
  | false =>
    rw [hset, Bool.false_or, Bool.not_true, Bool.false_or, decide_eq_true_eq] at hkeeps
    rw [if_neg Bool.false_ne_true, if_pos hpos]
    omega

theorem Dcd.Sound.frame {verdicts : List Bool} (h : dcd.Sound) (hkeeps : dcd.keeps verdicts = true) :
    (dcd.frame verdicts).Sound := by
  induction verdicts generalizing dcd with
  | nil => exact h
  | cons ok verdicts ih =>
    unfold Dcd.keeps at hkeeps
    rw [Bool.and_eq_true] at hkeeps
    exact ih (h.su hkeeps.1) hkeeps.2

/-- An event with no signal unit that takes the last of the countdown. -/
def AeroL.calm (decodeSoft : List UInt8 → ℕ → Bool) (s : AeroL) : Event → Bool
  | .softBit b => s.dcd.keeps (s.verdicts decodeSoft b)
  | .lostSignal => true

/-- Every event of a run is such an event. -/
def AeroL.calmRun (decodeSoft : List UInt8 → ℕ → Bool) (s : AeroL) : List Event → Bool
  | [] => true
  | e :: events => s.calm decodeSoft e && (s.step decodeSoft e).1.calmRun decodeSoft events

theorem step_sound (h : s.dcd.Sound) {e : Event} (hcalm : s.calm decodeSoft e = true) :
    (s.step decodeSoft e).1.dcd.Sound := by
  cases e with
  | softBit b =>
    rcases dcd_decodeBit decodeSoft s b with heq | heq
    · show (s.decodeBit decodeSoft b).1.dcd.Sound
      rw [heq]
      exact h.frame hcalm
    · show (s.decodeBit decodeSoft b).1.dcd.Sound
      rw [heq]
      exact fun _ => by decide
  | lostSignal => exact fun hset => absurd hset Bool.false_ne_true

/-- What a decoder at 600 baud has while it gets soft bits that are zero. -/
structure Idle (s : AeroL) (cntr : ℤ) (overlap position : ℕ) (infofield : List UInt8) : Prop where
  rate : s.rate = .r600
  buffer : s.preambledetector = List.replicate 32 false
  block : s.block.length = 384
  dl2 : ∃ ptr < 571, s.dl2 = ⟨List.replicate 571 false, ptr⟩
  cntr : s.cntr = cntr
  overlap : s.overlap.length = overlap
  position : s.position = position
  infofield : s.infofield = infofield
  dcd : s.dcd = ⟨true, 12⟩

/-- A Viterbi decoder that finds zeros. -/
def zeroBits : List UInt8 → ℕ → Bool := fun _ _ => false

/-- Zeros through a delay line of zeros. -/
theorem update_zeros (n ptr m : ℕ) (h : ptr < n) :
    ∃ ptr' < n, (⟨List.replicate n false, ptr⟩ : DelayLine).update (List.replicate m false) =
      (⟨List.replicate n false, ptr'⟩, List.replicate m false) := by
  induction m generalizing ptr with
  | zero => exact ⟨ptr, h, rfl⟩
  | succ m ih =>
    have hlt : (ptr + 1) % n < n := Nat.mod_lt _ (by omega)
    have hpush : (⟨List.replicate n false, ptr⟩ : DelayLine).push false =
        (⟨List.replicate n false, (ptr + 1) % n⟩, false) := by
      unfold DelayLine.push
      dsimp only
      rw [List.length_replicate, List.set_replicate_self, List.getD_replicate _ hlt]
    obtain ⟨ptr', hptr', heq⟩ := ih _ hlt
    refine ⟨ptr', hptr', ?_⟩
    rw [List.replicate_succ, DelayLine.update, hpush, heq]

theorem deinterleaveBa_length (cols : ℕ) (block : List UInt16) : (deinterleaveBa cols block).length = cols * 64 := by
  unfold deinterleaveBa
  rw [List.length_flatMap]
  simp

/-- The bits of a block, when the Viterbi decoder finds zeros. -/
theorem decodeContinuous_zeros (overlap soft : List UInt8) (hsoft : soft.length = 384) :
    (decodeContinuous zeroBits overlap soft).1.length = 62 ∧
      (decodeContinuous zeroBits overlap soft).2 =
        List.replicate (min 192 ((overlap.length + 408) / 2 - 25)) false := by
  unfold decodeContinuous
  dsimp only
  refine ⟨?_, ?_⟩
  · rw [if_pos (by rw [hsoft]; decide), List.length_append, List.length_replicate, List.length_drop, hsoft]
    rfl
  · have hmap : ((List.range ((overlap ++ soft ++ List.replicate paddingLength 128).length / 2)).map
        (zeroBits (overlap ++ soft ++ List.replicate paddingLength 128))) =
          List.replicate ((overlap.length + 408) / 2) false := by
      rw [List.eq_replicate_iff]
      refine ⟨?_, fun b hb => ?_⟩
      · rw [List.length_map, List.length_range, List.length_append, List.length_append, List.length_replicate, hsoft]
        rfl
      · obtain ⟨i, -, rfl⟩ := List.mem_map.1 hb
        rfl
    rw [hmap, List.drop_replicate, List.take_replicate, hsoft]

/-- The bits that a frame has got so far. -/
def zeroBytes (position n : ℕ) : List UInt8 := packBytes (scramble position (List.replicate n false))

variable {cntr : ℤ} {overlap position : ℕ} {infofield : List UInt8}

theorem Idle.detect (h : Idle s cntr overlap position infofield) :
    s.detect false 0 = ({ s with preambledetector := List.replicate 32 false }, false, 0) := by
  have hno : detectPreamble (List.replicate 32 false) false = (List.replicate 32 false, false) := by decide
  unfold AeroL.detect
  rw [h.rate, if_neg (by decide), h.buffer, hno]

/-- The counter behind a zero bit. -/
theorem Idle.count (h : Idle s cntr overlap position infofield) (h0 : 0 ≤ cntr) (h1 : cntr < 1167) :
    Idle (AeroL.count { s with preambledetector := List.replicate 32 false }) (cntr + 1) overlap position infofield := by
  have hcntr := h.cntr
  unfold AeroL.count
  dsimp only
  rw [if_neg (show ¬(if s.cntr < 1000000000 then s.cntr + 1 else s.cntr) = 0 by rw [if_pos (by omega)]; omega)]
  exact ⟨h.rate, rfl, h.block, h.dl2, by rw [← hcntr]; exact if_pos (by omega), h.overlap, h.position, h.infofield, h.dcd⟩

theorem Idle.blockIdx (h : Idle s cntr overlap position infofield) (h0 : 16 ≤ cntr) (h1 : cntr < 1168) :
    (s.blockIdx : ℤ) = (cntr - 16) % 384 := by
  have hmod : (cntr - 16) % 2 ^ 64 = cntr - 16 := Int.emod_eq_of_lt (by omega) (by omega)
  unfold AeroL.blockIdx
  rw [h.cntr, h.rate, h.block]
  show ((((cntr - 16) % 2 ^ 64).toNat % 384 : ℕ) : ℤ) = _
  rw [hmod]
  omega

/-- A soft bit into the block, which it does not end. -/
theorem Idle.fill (h : Idle s cntr overlap position infofield) (h0 : 16 ≤ cntr) (h1 : cntr < 1168)
    (hquiet : (cntr - 16) % 384 ≠ 383) : Idle (s.fill zeroBits 0) cntr overlap position infofield := by
  have hidx := h.blockIdx h0 h1
  have hlen : (s.block.set s.blockIdx 0).length = 384 := by rw [List.length_set, h.block]
  unfold AeroL.fill
  dsimp only
  rw [hlen, if_neg (by omega)]
  exact ⟨h.rate, h.buffer, hlen, h.dl2, h.cntr, h.overlap, h.position, h.infofield, h.dcd⟩

/-- A soft bit that ends a block: the bytes of zeros, scrambled, are behind the others. -/
theorem Idle.fillLast (h : Idle s cntr overlap position infofield) (h0 : 16 ≤ cntr) (h1 : cntr < 1168)
    (hlast : (cntr - 16) % 384 = 383) {n : ℕ} (hn : min 192 ((overlap + 408) / 2 - 25) = n) :
    Idle (s.fill zeroBits 0) cntr 62 (position + n) (infofield ++ zeroBytes position n) := by
  have hidx := h.blockIdx h0 h1
  have hlen : (s.block.set s.blockIdx 0).length = 384 := by rw [List.length_set, h.block]
  obtain ⟨ptr, hptr, hdl2⟩ := h.dl2
  unfold AeroL.fill
  dsimp only
  rw [hlen, if_pos (by omega)]
  obtain ⟨hover, hbits⟩ := decodeContinuous_zeros s.overlap (deinterleaveBa s.rate.cols (s.block.set s.blockIdx 0))
    (by rw [deinterleaveBa_length, h.rate]; rfl)
  rw [h.overlap, hn] at hbits
  obtain ⟨ptr', hptr', hupdate⟩ := update_zeros 571 ptr n hptr
  unfold AeroL.decodeBlock
  dsimp only
  rw [hbits, hdl2, hupdate]
  dsimp only
  rw [List.length_replicate, h.position, h.infofield]
  exact ⟨h.rate, h.buffer, hlen, ⟨ptr', hptr', rfl⟩, h.cntr, hover, rfl, rfl, h.dcd⟩

theorem Idle.intake_eq (h : Idle s cntr overlap position infofield) :
    s.intake zeroBits 0 =
      (let t := AeroL.count { s with preambledetector := List.replicate 32 false }
       if t.cntr ≥ 16 then t.fill zeroBits 0 else t, false) := by
  have hbit : decide ((0 : Int16).toInt % 256 ≥ 128) = false := by decide
  unfold AeroL.intake
  rw [hbit, show (0 : Int16).toUInt16 = 0 by decide, h.detect]

/-- **A zero bit before the end of the frame.** -/
theorem Idle.bit (h : Idle s cntr overlap position infofield) (h0 : 0 ≤ cntr) (h1 : cntr < 1166)
    {overlap' position' : ℕ} {infofield' : List UInt8}
    (hintake : Idle (s.intake zeroBits 0).1 (cntr + 1) overlap' position' infofield') :
    Idle (s.decodeBit zeroBits 0).1 (cntr + 1) overlap' position' infofield' := by
  have hdone : (decide ((s.intake zeroBits 0).1.cntr ≥ 16) && (s.intake zeroBits 0).1.frameDone) = false := by
    unfold AeroL.frameDone
    rw [hintake.cntr, hintake.rate, Bool.and_eq_false_iff, Bool.and_eq_false_iff]
    refine Or.inr (Or.inr (beq_eq_false_iff_ne.2 ?_))
    show cntr + 1 - 16 ≠ 1152 - 1
    omega
  have hsync : (s.intake zeroBits 0).2 = false := by rw [h.intake_eq]
  have hwrap : (s.intake zeroBits 0).1.wrap = (s.intake zeroBits 0).1 := by
    have htotal : Rate.totalNumberOfBits .r600 = 1200 := by decide
    unfold AeroL.wrap
    rw [hintake.cntr, hintake.rate, htotal, if_neg (by omega)]
  unfold AeroL.decodeBit
  rw [if_neg (by decide)]
  dsimp only
  rw [hdone, hsync, if_neg Bool.false_ne_true, if_neg Bool.false_ne_true, hwrap]
  exact hintake

/-- Soft bits that are zero. -/
def zeros (n : ℕ) : List Event := List.replicate n (.softBit 0)

/-- Zero bits that end no block. -/
theorem Idle.bits (n : ℕ) {cntr' : ℤ} (h : Idle s cntr overlap position infofield) (h0 : 0 ≤ cntr)
    (h1 : cntr + n = cntr') (h2 : cntr' < 1167) (hquiet : ∀ c, cntr < c → c ≤ cntr' → 16 ≤ c → (c - 16) % 384 ≠ 383) :
    Idle (s.run zeroBits (zeros n)) cntr' overlap position infofield := by
  subst h1
  induction n generalizing s cntr with
  | zero => simpa [AeroL.run, zeros] using h
  | succ n ih =>
    have hcount := h.count h0 (by omega)
    have hintake : Idle (s.intake zeroBits 0).1 (cntr + 1) overlap position infofield := by
      rw [h.intake_eq]
      dsimp only
      split
      · rename_i hge
        rw [hcount.cntr] at hge
        exact hcount.fill hge (by omega) (hquiet _ (by omega) (by omega) hge)
      · exact hcount
    have hrest := ih (h.bit h0 (by omega) hintake) (by omega) (by push_cast at h2; omega)
      (fun c hc hc' => hquiet c (by omega) (by push_cast; omega))
    rw [zeros, List.replicate_succ]
    have hcast : cntr + 1 + (n : ℤ) = cntr + (n + 1 : ℕ) := by push_cast; ring
    rw [hcast] at hrest
    exact hrest

/-- A zero bit that ends a block of the frame, but the last one. -/
theorem Idle.blockEnd {cntr' : ℤ} (h : Idle s cntr overlap position infofield) (h0 : 15 ≤ cntr) (h1 : cntr < 1166)
    (hcntr : cntr + 1 = cntr') (hlast : (cntr' - 16) % 384 = 383) {n position' : ℕ}
    (hn : min 192 ((overlap + 408) / 2 - 25) = n) (hpos : position + n = position') :
    Idle (s.decodeBit zeroBits 0).1 cntr' 62 position' (infofield ++ zeroBytes position n) := by
  subst hcntr hpos
  have hcount := h.count (by omega) (by omega)
  refine h.bit (by omega) h1 ?_
  rw [h.intake_eq]
  dsimp only
  rw [if_pos (by rw [hcount.cntr]; omega)]
  exact hcount.fillLast (by omega) (by omega) hlast hn

/-- **The last zero bit of the frame**: the signal units are checked. -/
theorem Idle.frameEnd (h : Idle s 1166 overlap position infofield) {n : ℕ}
    (hn : min 192 ((overlap + 408) / 2 - 25) = n) {info : List UInt8}
    (hinfo : infofield ++ zeroBytes position n = info) :
    (s.decodeBit zeroBits 0).1.dcd =
      Dcd.frame ⟨true, 12⟩ (((List.range (info.length / 12)).map fun k => (info.drop (k * 12)).take 12).map suOk) := by
  have hcount := h.count (by omega) (by omega)
  have hintake : Idle (s.intake zeroBits 0).1 1167 62 (position + n) info := by
    rw [h.intake_eq, ← hinfo]
    dsimp only
    rw [if_pos (by rw [hcount.cntr]; omega)]
    exact hcount.fillLast (by omega) (by omega) (by decide) hn
  have hidx := hintake.blockIdx (by omega) (by omega)
  have hdone : (decide ((s.intake zeroBits 0).1.cntr ≥ 16) && (s.intake zeroBits 0).1.frameDone) = true := by
    unfold AeroL.frameDone
    rw [hintake.cntr, hintake.rate, hintake.block, Bool.and_eq_true, Bool.and_eq_true, beq_iff_eq, beq_iff_eq]
    exact ⟨by decide, by omega, by decide⟩
  have hsync : (s.intake zeroBits 0).2 = false := by rw [h.intake_eq]
  unfold AeroL.decodeBit
  rw [if_neg (by decide)]
  dsimp only
  rw [hdone, hsync, if_pos rfl, if_neg Bool.false_ne_true, dcd_wrap]
  unfold AeroL.endFrame AeroL.signalUnits AeroL.signalUnit
  rw [dcd_checkSus, hintake.dcd, hintake.infofield]

theorem events_append (s : AeroL) (a b : List Event) : s.run decodeSoft (a ++ b) = (s.run decodeSoft a).run decodeSoft b :=
  List.foldl_append

theorem run_zeros (s : AeroL) : s.run decodeSoft (zeros 1) = (s.decodeBit decodeSoft 0).1 := rfl

/-- A fresh decoder at 600 baud. -/
def fresh : AeroL := .create .r600 false (SU.entry fun _ => 0) (SU.entry fun _ => 0)

/-- The preamble, and the first bit of a header. -/
def preambleEvents : List Event := (preamble ++ [false]).map fun b => .softBit (if b then 255 else 0)

theorem idle_start : Idle (fresh.run zeroBits preambleEvents) 0 0 0 [] := by
  have hall : (fresh.run zeroBits preambleEvents).rate = .r600 ∧
      (fresh.run zeroBits preambleEvents).preambledetector = List.replicate 32 false ∧
      (fresh.run zeroBits preambleEvents).block.length = 384 ∧
      (fresh.run zeroBits preambleEvents).dl2.buffer = List.replicate 571 false ∧
      (fresh.run zeroBits preambleEvents).dl2.ptr = 0 ∧ (fresh.run zeroBits preambleEvents).cntr = 0 ∧
      (fresh.run zeroBits preambleEvents).overlap = [] ∧ (fresh.run zeroBits preambleEvents).position = 0 ∧
      (fresh.run zeroBits preambleEvents).infofield = [] ∧
      (fresh.run zeroBits preambleEvents).dcd = ⟨true, 12⟩ := by decide +kernel
  obtain ⟨h1, h2, h3, hbuffer, hptr, h4, h5, h6, h7, h8⟩ := hall
  exact ⟨h1, h2, h3, ⟨0, by decide, by rw [← hbuffer, ← hptr]⟩, h4, by rw [h5]; rfl, h6, h7, h8⟩

/-- A frame of zeros behind the preamble, block by block. -/
def zeroFrame : List Event := preambleEvents ++ zeros 398 ++ zeros 1 ++ zeros 383 ++ zeros 1 ++ zeros 383 ++ zeros 1

/-- Zeros through the scrambler are its bits. -/
theorem zeroBytes_eq {position n : ℕ} (h : position + n ≤ preState.length) :
    zeroBytes position n = packBytes ((preState.drop position).take n) := by
  have hlen : (scramble position (List.replicate n false)).length = n := by
    rw [scramble, List.length_mapIdx, List.length_replicate]
  unfold zeroBytes
  congr 1
  refine List.ext_getElem (by rw [hlen, List.length_take, List.length_drop]; omega) fun i h1 h2 => ?_
  rw [hlen] at h1
  simp [scramble, List.getElem?_eq_getElem (show position + i < preState.length by omega)]

theorem scramblerBits_length (n : ℕ) (state : List Bool) : (scramblerBits n state).length = n := by
  induction n generalizing state with
  | zero => rfl
  | succ n ih => rw [scramblerBits, List.length_cons, ih]

theorem preState_length : preState.length = 5000 := scramblerBits_length 5000 _

/-- The bytes of the frame. -/
def zeroFrameBytes : List UInt8 :=
  packBytes ((preState.drop 0).take 179) ++ packBytes ((preState.drop 179).take 192) ++
    packBytes ((preState.drop 371).take 192)

set_option maxRecDepth 20000 in
theorem zeroFrameBytes_fail :
    ((List.range (zeroFrameBytes.length / 12)).map fun k => (zeroFrameBytes.drop (k * 12)).take 12).map suOk =
      [false, false, false, false, false] := by
  decide +kernel

/-- **The flag outlives its countdown**: all signal units of the frame fail. -/
theorem zeroFrame_dcd : (fresh.run zeroBits zeroFrame).dcd = ⟨true, 0⟩ := by
  have hlen := preState_length
  have hquiet : ∀ a b : ℤ, (b = 398 ∧ a = 0) ∨ (b = 782 ∧ a = 399) ∨ (b = 1166 ∧ a = 783) →
      ∀ c, a < c → c ≤ b → 16 ≤ c → (c - 16) % 384 ≠ 383 := by omega
  have h1 := idle_start.bits 398 le_rfl (by norm_num) (by norm_num) (hquiet 0 398 (by norm_num))
  have h2 := h1.blockEnd (by norm_num) (by norm_num) (show (398 : ℤ) + 1 = 399 by norm_num) (by norm_num)
    (show _ = 179 by decide) (Nat.zero_add 179)
  have h3 := h2.bits 383 (by norm_num) (by norm_num) (by norm_num) (hquiet 399 782 (by norm_num))
  have h4 := h3.blockEnd (by norm_num) (by norm_num) (show (782 : ℤ) + 1 = 783 by norm_num) (by norm_num)
    (show _ = 192 by decide) (show 179 + 192 = 371 by norm_num)
  have h5 := h4.bits 383 (by norm_num) (by norm_num) (by norm_num) (hquiet 783 1166 (by norm_num))
  have hinfo : [] ++ zeroBytes 0 179 ++ zeroBytes 179 192 ++ zeroBytes 371 192 = zeroFrameBytes := by
    rw [zeroBytes_eq (by omega), zeroBytes_eq (by omega), zeroBytes_eq (by omega), List.nil_append]
    rfl
  have hdcd := h5.frameEnd (show _ = 192 by decide) hinfo
  rw [zeroFrameBytes_fail] at hdcd
  unfold zeroFrame
  rw [events_append, run_zeros, events_append, events_append, run_zeros, events_append, events_append, run_zeros, events_append, hdcd]
  rfl

end InmarsatSniffer.Aero
