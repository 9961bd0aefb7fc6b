import InmarsatSniffer.Proof.Viterbi
import InmarsatSniffer.Spec.FrontEnd

/-!
# Searching for a frame

Since the last frame that was processed, or since the start, `n` bits have been fed
(`bitsSince`): the register ends with them, and `shift_pos` is `n` as an `int`
(`Tracks`). The register is looked at while that number is 10368 or more (`Looks`).

* `feed_tracks`: the invariant over any run.
* `frame_found`: **a frame in sight is processed exactly when the register is looked at**.
* `silence_deafens`: after 2 ^ 31 bits without a frame the next one is missed.
-/

namespace InmarsatSniffer.Stdc

variable {d : FrontEnd} {n : ℕ} {bs soft : List Int8} {sb : Int8}

/-- The last `n` bits. -/
def lastBits (n : ℕ) (bs : List Int8) : List Int8 := bs.drop (bs.length - n)

/-- The score of a register. -/
def syncScore (reg : List Int8) : ℕ := (checkSync fun k => reg.getD k 0).1

/-- Whether a register is taken as inverted. -/
def syncInverted (reg : List Int8) : Bool := (checkSync fun k => reg.getD k 0).2

/-- `n` as an `int` is at least the length of a frame. -/
def Looks (n : ℕ) : Prop := 10368 ≤ n % 2 ^ 32 ∧ n % 2 ^ 32 < 2 ^ 31

/-- The bits fed since the last frame was processed, if there were `n` before `soft`. -/
def bitsSince (d : FrontEnd) (n : ℕ) : List Int8 → ℕ
  | [] => n
  | sb :: soft => bitsSince (d.feedBit sb).1 (if (d.feedBit sb).2.isEmpty then n + 1 else 0) soft

/-! ## Feeding -/

theorem feed_append (d : FrontEnd) (bs soft : List Int8) : d.feed (bs ++ soft) =
    (((d.feed bs).1.feed soft).1, (d.feed bs).2 ++ ((d.feed bs).1.feed soft).2) := by
  induction bs generalizing d with
  | nil => rfl
  | cons sb bs ih => simp only [List.cons_append, FrontEnd.feed, ih, List.append_assoc]

theorem synced_append (d : FrontEnd) (bs soft : List Int8) :
    (d.feed (bs ++ soft)).1.synced = ((d.feed bs).1.feed soft).1.synced := by rw [feed_append]

theorem feed_singleton (d : FrontEnd) (sb : Int8) : d.feed [sb] = d.feedBit sb := by
  simp [FrontEnd.feed]

theorem bitsSince_append (d : FrontEnd) (n : ℕ) (bs soft : List Int8) :
    bitsSince d n (bs ++ soft) = bitsSince (d.feed bs).1 (bitsSince d n bs) soft := by
  induction bs generalizing d n with
  | nil => rfl
  | cons sb bs ih => rw [List.cons_append, bitsSince, ih]; rfl

/-- `stdc_decoder_feed` once for each chunk. -/
def FrontEnd.feedChunks (d : FrontEnd) : List (List Int8) → FrontEnd × List FeedEvent
  | [] => (d, [])
  | c :: cs => (((d.feed c).1.feedChunks cs).1, (d.feed c).2 ++ ((d.feed c).1.feedChunks cs).2)

/-- How the bits are divided into chunks makes no difference. -/
theorem feedChunks_eq (d : FrontEnd) (cs : List (List Int8)) : d.feedChunks cs = d.feed cs.flatten := by
  induction cs generalizing d with
  | nil => rfl
  | cons c cs ih => rw [FrontEnd.feedChunks, ih, List.flatten_cons, feed_append]

/-! ## The invariant -/

/-- The front end `n` bits after its last frame, `bs` being all bits fed. -/
structure Tracks (d : FrontEnd) (bs : List Int8) (n : ℕ) : Prop where
  le : n ≤ bs.length
  reg : ∃ old : List Int8, old.length = stdcEncodedSize ∧ d.shiftReg = (old ++ lastBits n bs).drop n
  pos : d.shiftPos = Int32.ofNat n
  synced : d.synced = true → n < stdcEncodedSize

theorem tracks_create : Tracks FrontEnd.create [] 0 :=
  ⟨le_rfl, ⟨FrontEnd.create.shiftReg, FrontEnd.create.reg_length, by simp [lastBits]⟩, rfl,
    fun h => absurd h Bool.false_ne_true⟩

theorem looks_iff (n : ℕ) : Int32.ofNat n ≥ 10368 ↔ Looks n := by
  have h1 : (10368 : Int32).toInt = 10368 := by decide
  have hsize : Int32.size = 4294967296 := rfl
  have h2 : (Int32.ofNat n).toInt = (n : ℤ).bmod 4294967296 := by rw [Int32.toInt_ofNat', hsize]
  rw [ge_iff_le, Int32.le_iff_toInt_le, h1, h2, Int.bmod_def]
  unfold Looks
  simp only [Nat.reducePow]
  split <;> omega

theorem lastBits_concat (h : n ≤ bs.length) : lastBits (n + 1) (bs ++ [sb]) = lastBits n bs ++ [sb] := by
  unfold lastBits
  rw [List.length_append, List.length_singleton, show bs.length + 1 - (n + 1) = bs.length - n by omega,
    List.drop_append_of_le_length (by omega)]

theorem lastBits_length (h : n ≤ bs.length) : (lastBits n bs).length = n := by
  unfold lastBits
  rw [List.length_drop]
  omega

/-- From 10368 bits on the register is the last 10368 bits. -/
theorem Tracks.full (h : Tracks d bs n) (hn : stdcEncodedSize ≤ n) : d.shiftReg = lastBits stdcEncodedSize bs := by
  obtain ⟨old, hold, hreg⟩ := h.reg
  have hle := h.le
  rw [hreg, List.drop_append, List.drop_eq_nil_of_le (by omega), List.nil_append, hold]
  unfold lastBits
  have hsum : bs.length - n + (n - stdcEncodedSize) = bs.length - stdcEncodedSize := by omega
  rw [List.drop_drop, hsum]

theorem Tracks.shift (h : Tracks d bs n) (sb : Int8) :
    (∃ old : List Int8, old.length = stdcEncodedSize ∧
      (d.shift sb).shiftReg = (old ++ lastBits (n + 1) (bs ++ [sb])).drop (n + 1)) ∧
      (d.shift sb).shiftPos = Int32.ofNat (n + 1) := by
  obtain ⟨old, hold, hreg⟩ := h.reg
  constructor
  · refine ⟨old, hold, ?_⟩
    show d.shiftReg.tail ++ [sb] = _
    have hlen : (old ++ lastBits n bs).length = stdcEncodedSize + n := by
      rw [List.length_append, lastBits_length h.le, hold]
    have hpos : 0 < stdcEncodedSize := by decide
    have htail : ((old ++ lastBits n bs).drop n).tail = (old ++ lastBits n bs).drop (n + 1) := List.tail_drop
    have hdrop : (old ++ lastBits n bs ++ [sb]).drop (n + 1) = (old ++ lastBits n bs).drop (n + 1) ++ [sb] :=
      List.drop_append_of_le_length (by omega)
    rw [hreg, htail, lastBits_concat h.le, ← List.append_assoc, hdrop]
  · show d.shiftPos + 1 = _
    rw [h.pos, Int32.ofNat_add]
    rfl

/-- **One bit**: nothing is emitted and one bit more is counted, unless the register is
looked at and its score is good. -/
theorem feedBit_cases (h : Tracks d bs n) (sb : Int8) :
    ((d.feedBit sb).2 = [] ∧ (d.feedBit sb).1.shiftReg = (d.shift sb).shiftReg ∧
      (d.feedBit sb).1.shiftPos = Int32.ofNat (n + 1) ∧
      (¬Looks (n + 1) ∨ syncScore (d.shift sb).shiftReg < 110) ∧
      ((d.feedBit sb).1.synced = true → d.synced = true ∧ ¬Looks (n + 1))) ∨
    (Looks (n + 1) ∧ (d.synced = false → 110 ≤ syncScore (d.shift sb).shiftReg) ∧
      d.feedBit sb = (d.shift sb).process (syncInverted (d.shift sb).shiftReg)) := by
  have hpos : (d.shift sb).shiftPos = Int32.ofNat (n + 1) := (h.shift sb).2
  have hlook : (d.shift sb).shiftPos ≥ 10368 ↔ Looks (n + 1) := by rw [hpos]; exact looks_iff _
  unfold FrontEnd.feedBit syncScore syncInverted
  dsimp only
  have hsame : (d.shift sb).synced = d.synced := rfl
  generalize d.shift sb = e at hpos hlook hsame ⊢
  generalize (checkSync fun k => e.shiftReg.getD k 0) = sync
  rw [← hsame]
  by_cases hl : Looks (n + 1)
  · rw [if_pos (hlook.2 hl), if_pos (hlook.2 hl)]
    by_cases hs : e.synced = true
    · rw [if_pos hs]
      by_cases hgood : sync.1 ≥ 100
      · rw [if_pos hgood]
        exact Or.inr ⟨hl, fun h0 => absurd (h0.symm.trans hs) Bool.false_ne_true, rfl⟩
      · -- sync is lost, and the position goes on
        rw [if_neg hgood]
        exact Or.inl ⟨rfl, rfl, hpos, Or.inr (by omega), fun h0 => absurd h0 Bool.false_ne_true⟩
    · rw [if_neg hs]
      by_cases hgood : sync.1 ≥ 110
      · rw [if_pos hgood]
        exact Or.inr ⟨hl, fun _ => hgood, rfl⟩
      · rw [if_neg hgood]
        exact Or.inl ⟨rfl, rfl, hpos, Or.inr (by omega), fun h0 => absurd h0 hs⟩
  · rw [if_neg fun h0 => hl (hlook.1 h0), if_neg fun h0 => hl (hlook.1 h0), ite_self]
    exact Or.inl ⟨rfl, rfl, hpos, Or.inl hl, fun h0 => ⟨h0, hl⟩⟩

theorem process_events (d : FrontEnd) (inverted : Bool) : (d.process inverted).2.isEmpty = false := rfl

/-- **The invariant is kept by a bit.** -/
theorem Tracks.feedBit (h : Tracks d bs n) (sb : Int8) :
    Tracks (d.feedBit sb).1 (bs ++ [sb]) (if (d.feedBit sb).2.isEmpty then n + 1 else 0) := by
  have hle := h.le
  rcases feedBit_cases h sb with ⟨hout, hreg, hpos, -, hsync⟩ | ⟨-, -, hproc⟩
  · rw [hout, List.isEmpty_nil, if_pos rfl]
    refine ⟨by simpa using hle, ?_, hpos, fun hs => ?_⟩
    · rw [hreg]
      exact (h.shift sb).1
    · -- a synced decoder looks at once when a frame is full
      obtain ⟨hs, hl⟩ := hsync hs
      have hn := h.synced hs
      have hsize : stdcEncodedSize = 10368 := rfl
      by_contra hge
      apply hl
      unfold Looks
      omega
  · rw [hproc, process_events, if_neg Bool.false_ne_true]
    exact ⟨Nat.zero_le _, ⟨_, FrontEnd.reg_length ((d.shift sb).process (syncInverted (d.shift sb).shiftReg)).1,
      by simp [lastBits]⟩, rfl, fun _ => by decide⟩

/-- **The invariant over a run.** -/
theorem Tracks.feed (h : Tracks d bs n) (soft : List Int8) :
    Tracks (d.feed soft).1 (bs ++ soft) (bitsSince d n soft) := by
  induction soft generalizing d bs n with
  | nil => simpa [FrontEnd.feed, bitsSince] using h
  | cons sb soft ih =>
    have := ih (h.feedBit sb)
    rwa [List.append_assoc, List.singleton_append] at this

theorem feed_tracks (bs : List Int8) :
    Tracks (FrontEnd.create.feed bs).1 bs (bitsSince FrontEnd.create 0 bs) := tracks_create.feed bs

/-! ## Frames in sight -/

/-- A frame is in sight at bit `sb` after `bs`: the decoder searches, 10368 bits have been
fed since the last frame, and the last 10368 match the sync word or its inverse. -/
structure InSight (bs : List Int8) (sb : Int8) : Prop where
  searching : (FrontEnd.create.feed bs).1.synced = false
  enough : stdcEncodedSize ≤ bitsSince FrontEnd.create 0 bs + 1
  score : 110 ≤ syncScore (lastBits stdcEncodedSize (bs ++ [sb]))

/-- `process_frame` is called at bit `sb` on the last 10368 bits, and the decoder is synced. -/
def Processed (bs : List Int8) (sb : Int8) : Prop :=
  (∃ out, ((FrontEnd.create.feed bs).1.feedBit sb).2 =
    .processFrame (lastBits stdcEncodedSize (bs ++ [sb])) (syncInverted (lastBits stdcEncodedSize (bs ++ [sb]))) :: out) ∧
  ((FrontEnd.create.feed bs).1.feedBit sb).1.synced = true

/-- The register after a bit. -/
theorem shiftReg_full (sb : Int8) (h : Tracks d bs n) (hn : stdcEncodedSize ≤ n + 1) :
    (d.shift sb).shiftReg = lastBits stdcEncodedSize (bs ++ [sb]) := by
  have hs := h.shift sb
  have ht : Tracks { d.shift sb with synced := false } (bs ++ [sb]) (n + 1) :=
    ⟨by have := h.le; simpa using this, hs.1, hs.2, fun h0 => absurd h0 Bool.false_ne_true⟩
  exact ht.full hn

/-- A frame in sight is processed when the register is looked at. -/
theorem processed_iff (h : InSight bs sb) : Processed bs sb ↔ Looks (bitsSince FrontEnd.create 0 bs + 1) := by
  have ht := feed_tracks bs
  have hreg := shiftReg_full sb ht h.enough
  rcases feedBit_cases ht sb with ⟨hout, -, -, hno, -⟩ | ⟨hl, -, hproc⟩
  · have hnl : ¬Looks (bitsSince FrontEnd.create 0 bs + 1) := by
      rcases hno with hno | hno
      · exact hno
      · rw [hreg] at hno
        exact absurd h.score (not_le.2 hno)
    refine iff_of_false ?_ hnl
    rintro ⟨⟨out, hev⟩, -⟩
    rw [hout] at hev
    exact absurd hev (by simp)
  · refine iff_of_true ?_ hl
    unfold Processed
    rw [hproc, ← hreg]
    exact ⟨⟨_, rfl⟩, rfl⟩

/-- **No frame is missed while the register is looked at.** The bits of all calls of
`stdc_decoder_feed` since creation make one run, whatever the chunks; and at every bit of
it at which a frame is in sight, the frame is processed exactly when the bits since the
last one, as an `int`, are not negative and at least 10368. In a run in which they never
reach 2 ^ 31 every frame in sight is processed. -/
theorem frame_found (d : FrontEnd) (cs : List (List Int8)) (run bs : List Int8) (sb : Int8) :
    FrontEnd.feedChunks d cs = d.feed cs.flatten ∧
    (InSight bs sb → (Processed bs sb ↔ Looks (bitsSince FrontEnd.create 0 bs + 1))) ∧
    ((∀ bs, bs <+: run → bitsSince FrontEnd.create 0 bs < 2 ^ 31) →
      bs ++ [sb] <+: run → InSight bs sb → Processed bs sb) := by
  refine ⟨feedChunks_eq d cs, processed_iff, fun hrun hpre h => (processed_iff h).2 ?_⟩
  have hlt : bitsSince FrontEnd.create 0 (bs ++ [sb]) < 2 ^ 31 := hrun _ hpre
  have henough := h.enough
  have hbefore := hrun bs ((List.prefix_append bs [sb]).trans hpre)
  by_contra hl
  -- nothing is processed at the bit, so one more is counted
  have hcount : bitsSince FrontEnd.create 0 (bs ++ [sb]) = bitsSince FrontEnd.create 0 bs + 1 := by
    rw [bitsSince_append]
    rcases feedBit_cases (feed_tracks bs) sb with ⟨hout, -⟩ | ⟨hl', -⟩
    · simp [bitsSince, hout]
    · exact absurd hl' hl
  rw [hcount] at hlt
  have hsize : stdcEncodedSize = 10368 := rfl
  apply hl
  unfold Looks
  omega

/-! ## The sync columns -/

theorem syncMatches_le (buf : ℕ → Int8) : syncMatches buf ≤ 2 * stdcFrameRows := by
  unfold syncMatches
  refine le_trans (List.sum_le_card_nsmul _ 2 ?_) (by simp [Nat.mul_comm])
  intro x hx
  obtain ⟨i, -, rfl⟩ := List.mem_map.1 hx
  split_ifs <;> omega

/-- A register with the sync word in its columns. -/
theorem checkSync_normal (buf : ℕ → Int8)
    (h : ∀ r < 64, ∀ c < 2, hardBit (buf (r * stdcFrameCols + c)) = syncWord.getD r 0) : checkSync buf = (128, false) := by
  have hall : syncMatches buf = 128 := by
    unfold syncMatches
    rw [List.map_congr_left (g := fun _ => 2), List.map_const', List.sum_replicate]
    · rfl
    · intro r hr
      rw [List.mem_range] at hr
      have h0 := h r hr 0 (by omega)
      rw [Nat.add_zero] at h0
      rw [if_pos h0, if_pos (h r hr 1 (by omega))]
  unfold checkSync
  rw [hall]
  rfl

/-- A register with the inverse of the sync word in its columns. -/
theorem checkSync_inverted (buf : ℕ → Int8)
    (h : ∀ r < 64, ∀ c < 2, hardBit (buf (r * stdcFrameCols + c)) ≠ syncWord.getD r 0) : checkSync buf = (128, true) := by
  have hnone : syncMatches buf = 0 := by
    unfold syncMatches
    rw [List.map_congr_left (g := fun _ => 0), List.map_const', List.sum_replicate]
    · rfl
    · intro r hr
      rw [List.mem_range] at hr
      have h0 := h r hr 0 (by omega)
      rw [Nat.add_zero] at h0
      rw [if_neg h0, if_neg (h r hr 1 (by omega))]
  unfold checkSync
  rw [hnone]
  rfl

theorem syncScore_normal (reg : List Int8)
    (h : ∀ r < 64, ∀ c < 2, hardBit (reg.getD (r * stdcFrameCols + c) 0) = syncWord.getD r 0) : syncScore reg = 128 := by
  have hsync := checkSync_normal (fun k => reg.getD k 0) h
  unfold syncScore
  rw [hsync]

/-! ## Silence -/

/-- **Bits without a frame in sight** only count. -/
theorem feed_quiet (soft : List Int8) (h : Tracks d bs n) (hs : d.synced = false)
    (hquiet : ∀ k < soft.length, ¬Looks (n + k + 1) ∨ syncScore (lastBits stdcEncodedSize (bs ++ soft.take (k + 1))) < 110) :
    (d.feed soft).2 = [] ∧ (d.feed soft).1.synced = false ∧ bitsSince d n soft = n + soft.length := by
  induction soft generalizing d bs n with
  | nil => exact ⟨rfl, hs, rfl⟩
  | cons sb soft ih =>
    rcases feedBit_cases h sb with ⟨hout, -, -, -, hsync⟩ | ⟨hl, hgood, -⟩
    · have hs' : (d.feedBit sb).1.synced = false := by
        rw [← Bool.not_eq_true]
        intro h0
        exact absurd ((hsync h0).1.symm.trans hs) (by decide)
      have ht := h.feedBit sb
      rw [hout, List.isEmpty_nil, if_pos rfl] at ht
      obtain ⟨h1, h2, h3⟩ := ih ht hs' fun k hk => by
        have := hquiet (k + 1) (by rw [List.length_cons]; omega)
        rwa [List.take_succ_cons, show n + (k + 1) + 1 = n + 1 + k + 1 by omega,
          ← List.singleton_append, ← List.append_assoc] at this
      refine ⟨?_, h2, ?_⟩
      · rw [FrontEnd.feed]
        dsimp only
        rw [hout, h1]
        rfl
      · rw [bitsSince, hout, List.isEmpty_nil, if_pos rfl, h3, List.length_cons]
        omega
    · -- a register that is looked at holds the last bits
      have hsize : stdcEncodedSize ≤ n + 1 := by
        have hval : stdcEncodedSize = 10368 := rfl
        have := hl.1
        omega
      rcases hquiet 0 (by simp) with hno | hno
      · exact absurd hl hno
      · rw [List.take_succ_cons, List.take_zero, ← shiftReg_full _ h hsize] at hno
        exact absurd (hgood hs) (not_le.2 hno)

/-- The bits of a frame that is nothing but its sync columns. -/
def bareFrame : List Int8 := (List.range stdcEncodedSize).map fun k =>
  if k % stdcFrameCols < 2 ∧ syncWord.getD (k / stdcFrameCols) 0 = 1 then 1 else -1

/-- Its sync columns are the sync word. -/
theorem bareFrame_sync {r c : ℕ} (hr : r < 64) (hc : c < 2) :
    hardBit (bareFrame.getD (r * stdcFrameCols + c) 0) = syncWord.getD r 0 := by
  have hidx : r * 162 + c < 10368 := by omega
  have hdiv : (r * 162 + c) / 162 = r := by omega
  have hmod : (r * 162 + c) % 162 = c := by omega
  have hbit : ∀ r < 64, syncWord.getD r 0 = 0 ∨ syncWord.getD r 0 = 1 := by decide
  unfold bareFrame
  rw [getD_map_range _ hidx]
  simp only [hdiv, hmod]
  rcases hbit r hr with h0 | h1
  · rw [if_neg (by omega), h0]
    decide
  · rw [if_pos ⟨hc, h1⟩, h1]
    decide

theorem bareFrame_score : syncScore bareFrame = 128 := syncScore_normal bareFrame fun _ hr _ hc => bareFrame_sync hr hc

theorem silence_score (n : ℕ) : syncScore (List.replicate n 0) < 110 := by
  unfold syncScore
  have hzero : (fun k => (List.replicate n (0 : Int8)).getD k 0) = fun _ => 0 := by
    funext k
    simp [List.getD_eq_getElem?_getD, List.getElem?_replicate]
    split <;> rfl
  rw [hzero]
  decide

theorem bareFrame_length : bareFrame.length = stdcEncodedSize := by
  unfold bareFrame
  rw [List.length_map, List.length_range]

theorem bareFrame_ne : bareFrame ≠ [] := fun h => absurd (congrArg List.length h) (by rw [bareFrame_length]; decide)

theorem bareFrame_dropLast : bareFrame.dropLast.length = 10367 := by
  rw [List.length_dropLast, bareFrame_length]
  rfl

/-- A run that ends with a frame ends with its bits. -/
theorem lastBits_bareFrame (bs : List Int8) :
    lastBits stdcEncodedSize (bs ++ bareFrame.dropLast ++ [bareFrame.getLast bareFrame_ne]) = bareFrame := by
  rw [List.append_assoc, List.dropLast_append_getLast, ← bareFrame_length]
  unfold lastBits
  rw [List.length_append, Nat.add_sub_cancel]
  exact List.drop_left

/-- A new decoder processes the first frame it gets. -/
theorem bareFrame_found : Processed bareFrame.dropLast (bareFrame.getLast bareFrame_ne) := by
  obtain ⟨-, hs, hn⟩ := feed_quiet bareFrame.dropLast tracks_create rfl fun k hk => by
    refine Or.inl ?_
    rintro ⟨hge, -⟩
    rw [bareFrame_dropLast] at hk
    omega
  rw [bareFrame_dropLast] at hn
  have hlast := lastBits_bareFrame []
  rw [List.nil_append] at hlast
  have hsight : InSight bareFrame.dropLast (bareFrame.getLast bareFrame_ne) :=
    ⟨hs, by rw [hn], by rw [hlast, bareFrame_score]; decide⟩
  refine ((frame_found .create [] [] _ _).2.1 hsight).2 ?_
  rw [hn]
  exact ⟨by decide, by decide⟩

/-- After 2 ^ 31 bits of silence a frame is in sight and is not processed. -/
theorem silence_deafens : ¬∀ bs sb, InSight bs sb → Processed bs sb := by
  intro h
  obtain ⟨silence, hlow, hhigh⟩ : ∃ silence : ℕ, 2 ^ 31 ≤ silence ∧ silence < 2 ^ 31 + 1 := ⟨2 ^ 31, le_rfl, by omega⟩
  -- the silence
  obtain ⟨-, hs1, hn1⟩ := feed_quiet (List.replicate silence 0) tracks_create rfl fun k hk => by
    refine Or.inr ?_
    rw [List.nil_append, List.take_replicate]
    unfold lastBits
    rw [List.drop_replicate]
    exact silence_score _
  rw [List.length_replicate, Nat.zero_add] at hn1
  have ht1 := feed_tracks (List.replicate silence 0)
  rw [hn1] at ht1
  -- the frame but for its last bit
  obtain ⟨-, hs2, hn2⟩ := feed_quiet bareFrame.dropLast ht1 hs1 fun k hk => by
    refine Or.inl ?_
    rintro ⟨-, hlt⟩
    rw [bareFrame_dropLast] at hk
    omega
  have hbits : bitsSince FrontEnd.create 0 (List.replicate silence 0 ++ bareFrame.dropLast) = silence + 10367 := by
    rw [bitsSince_append, hn1, hn2, bareFrame_dropLast]
  have hsearch := synced_append FrontEnd.create (List.replicate silence 0) bareFrame.dropLast
  rw [hs2] at hsearch
  have hsight : InSight (List.replicate silence 0 ++ bareFrame.dropLast) (bareFrame.getLast bareFrame_ne) :=
    ⟨hsearch, by rw [hbits]; exact Nat.le_add_left 10368 silence,
      by rw [lastBits_bareFrame, bareFrame_score]; decide⟩
  have hlooks := (processed_iff hsight).1 (h _ _ hsight)
  rw [hbits] at hlooks
  exact absurd hlooks.2 (by clear * - hlow hhigh; omega)

end InmarsatSniffer.Stdc
