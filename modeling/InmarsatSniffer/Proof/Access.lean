import InmarsatSniffer.Proof.Bounds

/-!
# When parsing stays inside its arrays

The two accesses out of bounds that `Proof.Bounds` leaves open decide the matter: a
packet of one byte at the start of a frame (`Underread`) and a confirmation packet of
nine bytes at its end (`ConfAtEnd`), in the frame of the call and in each buffer it
completes, as far as the call gets.

* `stays_nested`: the calls on a completed buffer.
* `stays_frame`: the calls on a frame.
* `parse_stays_inside`: **every access of a call is inside its array exactly when no
  such packet is met**.
-/

namespace InmarsatSniffer.Stdc

open ByteMem

variable {now n pos p len : ℤ} {d d' d₁ : StdcDecoder} {src : Src} {s : MultiframeState} {m : Mem}
  {vs : List (StdcDecoder × ℤ)} {out o : List Event} {pre post : List (ℤ × ℤ)}

/-! ## Accesses of turns and calls -/

/-- Every access among the events is inside its array. -/
def OutSafe (out : List Event) : Prop := ∀ a, Event.access a ∈ out → a.InBounds

@[simp] theorem outSafe_append : OutSafe (out ++ o) ↔ OutSafe out ∧ OutSafe o := by
  unfold OutSafe
  simp only [List.mem_append]
  exact ⟨fun h => ⟨fun a ha => h a (Or.inl ha), fun a ha => h a (Or.inr ha)⟩,
    fun h a ha => ha.elim (h.1 a) (h.2 a)⟩

@[simp] theorem outSafe_nil : OutSafe [] := by simp [OutSafe]

@[simp] theorem outSafe_accesses {α : Type} (c : Acc α) : OutSafe (accesses c) ↔ c.Safe := by
  simp [OutSafe, accesses, Acc.Safe, Logged.All]

@[simp] theorem outSafe_messages (ms : List StdcMessage) : OutSafe (ms.map .message) := by simp [OutSafe]

@[simp] theorem outSafe_dispatch {nested : Bool} {bytes : List UInt8} :
    OutSafe (.dispatch nested now pos len bytes :: out) ↔ OutSafe out := by
  simp [OutSafe]

/-- A confirmation packet of nine bytes that ends with the frame. -/
def ConfAtEnd (m : Mem) (n : ℤ) (q : ℤ × ℤ) : Prop := m q.1 = Pkt.confirmation ∧ q.2 = 9 ∧ q.1 + 9 = n

instance (m : Mem) (n : ℤ) (q : ℤ × ℤ) : Decidable (ConfAtEnd m n q) := inferInstanceAs (Decidable (_ ∧ _))

/-- A station list packet has at most 257 bytes. -/
theorem lesList_length (hl : (look ⟨m, n⟩ pos).val = .packet len) (hd : m pos = Pkt.lesList) : len ≤ 257 := by
  have h := (look_packet.1 hl).1
  have := h.length
  have hlt := h.lt
  rw [pktLength_eq, hd, if_neg (by decide), if_pos (by decide), if_neg (by omega)] at this
  have := (m (pos + 1)).toNat_lt
  omega

/-- **The decoder call of a packet** stays inside, but for the confirmation at the end. -/
theorem dispatchPacket_safe {nested : Bool} (hd : MfpInv d) (h0 : 0 ≤ pos) (hl : (look ⟨m, n⟩ pos).val = .packet len) :
    OutSafe (dispatchPacket now nested d ⟨m, n⟩ pos len).out ↔ ¬ConfAtEnd m n (pos, len) := by
  have hn := (look_packet.1 hl).1.fits
  have hother : ∀ {desc : UInt8}, m pos = desc → desc ≠ Pkt.confirmation → ¬ConfAtEnd m n (pos, len) :=
    fun hdesc hne hc => hne (hdesc.symm.trans hc.1)
  unfold dispatchPacket
  dsimp only
  by_cases c1 : m pos = Pkt.egcDouble1 ∨ m pos = Pkt.egcDouble2
  · rw [if_pos c1, outSafe_append, outSafe_accesses]
    refine iff_of_true ⟨decodeEgc_safe _ _ _ h0 hn, outSafe_messages _⟩ ?_
    rcases c1 with c1 | c1
    · exact hother c1 (by decide)
    · exact hother c1 (by decide)
  rw [if_neg c1]
  by_cases c2 : m pos = Pkt.multiframeStart
  · rw [if_pos c2, outSafe_accesses]
    exact iff_of_true (decodeMultiframeStart_safe _ _ h0 hn) (hother c2 (by decide))
  rw [if_neg c2]
  by_cases c3 : m pos = Pkt.multiframeCont
  · rw [if_pos c3]
    refine iff_of_true ?_ (hother c3 (by decide))
    split
    · rename_i ha
      rw [outSafe_accesses]
      exact appendChunk_safe (hd ha) h0 hn
    · exact outSafe_nil
  · rw [if_neg c3, outSafe_append, outSafe_accesses, and_iff_left (outSafe_messages _)]
    exact decodeSimple_safe h0 hn (lesList_length hl)

theorem underread_look (h : Underread m n) : (look ⟨m, n⟩ 0).val = .bad 1 := by
  obtain ⟨h1, h2, h3⟩ := h
  have hlen := (pktLength_one (m := m) h1).2 h3
  have hff : m 0 ≠ 0xFF := fun hc => by rw [hc] at h3; exact absurd h3.1 (by decide)
  refine look_bad.2 ⟨⟨by omega, h2, hff, hlen, by omega, by omega⟩, fun hc => ?_⟩
  -- the checksum field ends with the descriptor, and the sums are zero
  have e : crcOf m 0 1 = 0 := by
    unfold crcOf computeCrc
    simp [show Int.toNat 1 = 1 from rfl, crcLoop, be16]
  unfold CrcOk at hc
  rw [e, or_self, be16_eq_zero] at hc
  exact h2 hc.2

/-- **A turn of the loop** stays inside unless it meets one of the two packets. -/
theorem turn_safe (hd : MfpInv d) (h0 : 0 ≤ pos) : OutSafe (parseTurn now d src n pos).out ↔
    ¬(pos = 0 ∧ Underread (src.mem d) n) ∧
      ∀ len, (look ⟨src.mem d, n⟩ pos).val = .packet len → ¬ConfAtEnd (src.mem d) n (pos, len) := by
  cases hl : (look ⟨src.mem d, n⟩ pos).val with
  | stop => rw [turn_stop now d src hl, outSafe_accesses, look_safe h0]; simp
  | pad => rw [turn_pad now d src hl, outSafe_accesses, look_safe h0]; simp
  | bad len => rw [turn_bad now d src hl, outSafe_accesses, look_safe h0]; simp
  | packet len =>
    rw [turn_packet now d src hl, packetOut, outSafe_append, outSafe_accesses, look_safe h0, outSafe_dispatch,
      dispatchPacket_safe hd h0 hl]
    simp

/-- The accesses of a call are inside as far as the fuel goes. -/
def StaysIn (f : ℕ) (now : ℤ) (d : StdcDecoder) (src : Src) (n pos : ℤ) : Prop :=
  OutSafe (parseFrom now f d src n pos).out

/-- **The accesses of a call are inside**, whether or not it returns. -/
def Stays (now : ℤ) (d : StdcDecoder) (src : Src) (n pos : ℤ) : Prop := ∀ f, StaysIn f now d src n pos

theorem staysIn_zero : StaysIn 0 now d src n pos := outSafe_nil

theorem StaysIn.mono {f f' : ℕ} (hf : f ≤ f') (h : StaysIn f' now d src n pos) : StaysIn f now d src n pos :=
  fun a ha => h a ((parseFrom_out_mono hf).subset ha)

theorem stays_stop (h : (parseTurn now d src n pos).next = .stop) :
    Stays now d src n pos ↔ OutSafe (parseTurn now d src n pos).out := by
  constructor
  · intro hs
    have := hs 1
    unfold StaysIn at this
    rwa [parseFrom, h] at this
  · intro ht f
    cases f with
    | zero => exact staysIn_zero
    | succ f => unfold StaysIn; rw [parseFrom, h]; exact ht

theorem staysIn_goto {f : ℕ} (h : (parseTurn now d src n pos).next = .goto p) :
    StaysIn (f + 1) now d src n pos ↔
      OutSafe (parseTurn now d src n pos).out ∧ StaysIn f now (parseTurn now d src n pos).dec src n p := by
  unfold StaysIn
  rw [parseFrom, h, outSafe_append]

theorem stays_goto (h : (parseTurn now d src n pos).next = .goto p) :
    Stays now d src n pos ↔
      OutSafe (parseTurn now d src n pos).out ∧ Stays now (parseTurn now d src n pos).dec src n p := by
  constructor
  · exact fun hs => ⟨((staysIn_goto h).1 (hs 1)).1, fun f => ((staysIn_goto h).1 (hs (f + 1))).2⟩
  · rintro ⟨h1, h2⟩ f
    cases f with
    | zero => exact staysIn_zero
    | succ f => exact (staysIn_goto h).2 ⟨h1, h2 f⟩

/-- With fuel for the nested call, what is left to show is the rest of the frame. -/
theorem staysIn_nest {f : ℕ} {t : Turn} (ht : parseTurn now d src n pos = t) (h : t.next = .nest len p)
    (h1 : OutSafe t.out) (h2 : StaysIn f now t.dec .mfp len 0)
    (h3 : ∀ d₁ o₁, Returns now t.dec .mfp len 0 d₁ o₁ → Stays now d₁.endMultiframe src n p) :
    StaysIn (f + 1) now d src n pos := by
  unfold StaysIn
  rw [parseFrom, ht, h]
  dsimp only
  split
  · rename_i hd
    rw [outSafe_append, outSafe_append]
    exact ⟨⟨h1, h2⟩, h3 _ (parseFrom now f t.dec .mfp len 0).out ⟨f, by rw [← hd]⟩ f⟩
  · rw [outSafe_append]
    exact ⟨h1, h2⟩

theorem stays_nest {t : Turn} (ht : parseTurn now d src n pos = t) (h : t.next = .nest len p) :
    Stays now d src n pos ↔ OutSafe t.out ∧ Stays now t.dec .mfp len 0 ∧
      ∀ d₁ o₁, Returns now t.dec .mfp len 0 d₁ o₁ → Stays now d₁.endMultiframe src n p := by
  constructor
  · intro hs
    have hout : ∀ f, OutSafe (t.out ++ (parseFrom now f t.dec .mfp len 0).out) := by
      intro f
      have := hs (f + 1)
      unfold StaysIn at this
      rw [parseFrom, ht, h] at this
      dsimp only at this
      split at this
      · rw [outSafe_append] at this
        exact this.1
      · exact this
    refine ⟨(outSafe_append.1 (hout 0)).1, fun f => (outSafe_append.1 (hout f)).2, ?_⟩
    intro d₁ o₁ hr f
    obtain ⟨g, hg⟩ := hr.fuel
    have := hs (max f g + 1)
    unfold StaysIn at this
    rw [parseFrom, ht, h] at this
    simp only [hg _ (le_max_right f g), if_true, outSafe_append] at this
    exact StaysIn.mono (le_max_left f g) this.2
  · rintro ⟨h1, h2, h3⟩ f
    cases f with
    | zero => exact staysIn_zero
    | succ f => exact staysIn_nest ht h h1 (h2 f) h3

theorem stays_goes (g : Goes now src n d pos vs d₁ p) :
    Stays now d src n pos ↔ OutSafe (turnsOut now src n vs) ∧ Stays now d₁ src n p := by
  induction g with
  | here d pos => simp [turnsOut]
  | turn h g ih => rw [stays_goto h, ih, ← and_assoc, ← outSafe_append]; rfl

theorem staysIn_goes (g : Goes now src n d pos vs d₁ p) (h : OutSafe (turnsOut now src n vs)) :
    ∀ f, (∀ f' ≤ f, StaysIn f' now d₁ src n p) → StaysIn f now d src n pos := by
  induction g with
  | here d pos => exact fun f hf => hf f le_rfl
  | turn hn g ih =>
    intro f hf
    have hsplit := outSafe_append.1 (show OutSafe (_ ++ turnsOut now src n _) from h)
    cases f with
    | zero => exact staysIn_zero
    | succ f => exact (staysIn_goto hn).2 ⟨hsplit.1, ih hsplit.2 f fun f' hf' => hf f' (by omega)⟩

/-! ## Stretches without multiframe packets -/

/-- **The turns of a quiet stretch** stay inside unless it holds one of the two packets. -/
theorem QuietWalk.safe (w : QuietWalk now src n m s d pos pre post vs d₁ p) (hs : s.active = true → MfpOk s)
    (h0 : 0 ≤ pos) : OutSafe (turnsOut now src n vs) ↔ ¬(pos = 0 ∧ Underread m n) ∧ ∀ q ∈ pre, ¬ConfAtEnd m n q := by
  have hturn : ∀ v ∈ vs, (OutSafe (parseTurn now v.1 src n v.2).out ↔ ¬(v.2 = 0 ∧ Underread m n) ∧
      ∀ len, (look ⟨m, n⟩ v.2).val = .packet len → ¬ConfAtEnd m n (v.2, len)) := by
    intro v hv
    obtain ⟨h1, h2, h3⟩ := w.visited v hv
    rw [turn_safe (by unfold MfpInv; rw [h1]; exact hs) (by omega), h2]
  have hout : OutSafe (turnsOut now src n vs) ↔ ∀ v ∈ vs, OutSafe (parseTurn now v.1 src n v.2).out := by
    unfold OutSafe turnsOut
    simp only [List.mem_flatMap]
    exact ⟨fun h v hv a ha => h a ⟨v, hv, ha⟩, fun h a ⟨v, hv, ha⟩ => h v hv a ha⟩
  rw [hout]
  constructor
  · intro h
    refine ⟨?_, fun q hq => ?_⟩
    · rintro ⟨rfl, hu⟩
      rcases w.start with ⟨-, rfl⟩ | ⟨v, hv, hv0⟩
      · -- no turn was made, so the walk does not start with a packet of one byte
        have hl := underread_look hu
        have hhead := w.head
        cases post with
        | nil => rw [show (look ⟨m, n⟩ 0).val = .stop from hhead] at hl; exact absurd hl (by simp)
        | cons q post => rw [hhead.2.1] at hl; exact absurd hl (by simp)
      · exact ((hturn v hv).1 (h v hv)).1 ⟨hv0, hu⟩
    · obtain ⟨v, hv, h1, h2⟩ := (w.packets q).1 hq
      have := ((hturn v hv).1 (h v hv)).2 q.2 h2
      rwa [h1] at this
  · rintro ⟨h1, h2⟩ v hv
    have hpos := (w.visited v hv).2.2
    rw [hturn v hv]
    exact ⟨fun hc => h1 ⟨by omega, hc.2⟩, fun len hl => h2 _ ((w.packets (v.2, len)).2 ⟨v, hv, rfl, hl⟩)⟩

/-- Where the walk stops, the call stays inside. -/
theorem stays_of_stop (h0 : 0 ≤ pos) (h : (look ⟨src.mem d, n⟩ pos).val = .stop) : Stays now d src n pos := by
  rw [stays_stop (by rw [turn_stop now d src h]), turn_stop now d src h, outSafe_accesses, look_safe h0]
  rintro ⟨rfl, hu⟩
  rw [underread_look hu] at h
  exact absurd h (by simp)

/-! ## Calls on a completed buffer -/

/-- Neither of the two packets is met in the buffer. -/
def NestSafe (s : MultiframeState) : Prop :=
  ¬Underread s.data s.totalLen ∧ ∀ q ∈ quietPrefix s, ¬ConfAtEnd s.data s.totalLen q

/-- A buffer whose packets all leave the reassembly alone. -/
theorem stays_nested_none (now : ℤ) (hs : MfpOk s) (hd : d.mfp = s) (hl : loudPacket s = none) :
    Stays now d .mfp s.totalLen 0 ↔ NestSafe s := by
  obtain ⟨vs, d₁, p, w⟩ := goes_quiet now .mfp 0 d (congrArg MultiframeState.data hd) hd _ []
    (List.append_nil _).symm (loudPacket_none.1 hl)
  have hstop : Stays now d₁ .mfp s.totalLen p :=
    stays_of_stop w.le (by rw [show Src.mem d₁ .mfp = s.data from congrArg MultiframeState.data w.mfp]; exact w.head)
  unfold NestSafe
  rw [stays_goes w.goes, w.safe (fun _ => hs) le_rfl, and_iff_left hstop, quietPrefix_none hl]
  simp only [true_and]

/-- The turn of a 0xBE packet in a completed buffer, its nested call and what follows it. -/
theorem staysIn_cont {f : ℕ} (hm : MfpOk s) (hs : Completed s) (hd : d.mfp = s) (hl : loudPacket s = some (p, len))
    (hc : s.data p = Pkt.multiframeCont) (hu : ¬Underread s.data s.totalLen)
    (hnest : ∀ d₁, d₁.mfp = appendState s s.data p len → ∀ f' < f, StaysIn f' now d₁ .mfp s.totalLen 0) :
    StaysIn f now d .mfp s.totalLen 0 := by
  obtain ⟨-, pre, post, he, hpre⟩ := loudPacket_some.1 hl
  obtain ⟨vs, d₁, q, w⟩ := goes_quiet now .mfp 0 d (congrArg MultiframeState.data hd) hd pre _ he hpre
  obtain ⟨hq, hlook, -⟩ := w.head
  replace hq : p = q := hq.symm
  subst hq
  have hfits := (look_packet.1 hlook).1
  have hp0 := w.le
  have hout : OutSafe (turnsOut now .mfp s.totalLen vs) := by
    rw [w.safe (fun _ => hm) le_rfl]
    refine ⟨fun h => hu h.2, fun q hq h => ?_⟩
    -- packets before the 0xBE packet do not reach the end
    have := packetsAt_ordered 0 pre post he q hq
    have := hfits.fits
    have := hfits.pos_len
    have := h.2.1
    have := h.2.2
    omega
  have hmem : Src.mem d₁ .mfp = s.data := congrArg MultiframeState.data w.mfp
  have hinv : MfpInv d₁ := by
    unfold MfpInv
    rw [w.mfp]
    exact fun _ => hm
  have hturn : OutSafe (parseTurn now d₁ .mfp s.totalLen p).out := by
    rw [turn_safe hinv hp0, hmem]
    exact ⟨fun h => hu h.2, fun len' _ h => absurd (hc.symm.trans h.1) (by decide)⟩
  refine staysIn_goes w.goes hout f fun f' hf' => ?_
  cases f' with
  | zero => exact staysIn_zero
  | succ f' =>
    have hp := turn_packet now d₁ .mfp (by rw [hmem]; exact hlook)
    have hdisp := dispatch_cont now s.totalLen true len (d := d₁) (m := s.data) hc (by rw [w.mfp]; exact hs.active)
    rw [w.mfp, if_pos (hs.append _ _ _).complete] at hdisp
    rw [hmem] at hp
    rw [hp] at hturn
    refine staysIn_nest hp hdisp.2 hturn (hnest _ (congrArg StdcDecoder.mfp hdisp.1) f' (by omega)) ?_
    · -- a call that returns had its 0xBE packet at the end of the buffer
      intro d₂ o₂ hr
      have hends : Ends now d .mfp s.totalLen 0 := by
        rw [w.goes.ends, ends_nest hp hdisp.2]
        exact ⟨d₂, o₂, hr, ends_inactive rfl _ _⟩
      have := tail_of_ends hs hd hl hc hends
      have := hfits.pos_len
      exact stays_of_stop (by omega) (look_stop_of_ge (by omega))

/-- **The calls on a buffer with a 0xBE packet to append stay inside** as far as the first
byte allows: by induction on the fuel, from one append to the next. -/
theorem staysIn_nested_cont (p len : ℤ) : ∀ (f : ℕ) (s : MultiframeState) (d : StdcDecoder), MfpOk s → Completed s →
    d.mfp = s → loudPacket s = some (p, len) → s.data p = Pkt.multiframeCont → ¬Underread s.data s.totalLen →
    StaysIn f now d .mfp s.totalLen 0 := by
  intro f
  induction f using Nat.strong_induction_on with
  | _ f ih =>
    intro s d hm hs hd hl hc hu
    refine staysIn_cont hm hs hd hl hc hu fun d₁ h1 f' hf' => ?_
    obtain ⟨-, pre, post, he, hpre⟩ := loudPacket_some.1 hl
    have hmem := mem_packetsAt 0 p len (by rw [he]; simp)
    have hlt := (look_packet.1 hmem.2).1.lt
    have hf := hs.filled
    obtain ⟨c1, q1, l1⟩ := append_cont hs hl hc
    have h0 : (appendState s s.data p len).data 0 = s.data 0 := appendState_below (by omega)
    have hu1 : ¬Underread (appendState s s.data p len).data s.totalLen := by
      unfold Underread
      rw [h0]
      exact hu
    by_cases hcrc : CrcOk (appendState s s.data p len).data p len
    · rw [if_pos hcrc] at l1
      exact ih f' hf' (appendState s s.data p len) d₁ (hm.append _ _ _) (hs.append _ _ _) h1 l1 c1 hu1
    · rw [if_neg hcrc] at l1
      have hnone := (stays_nested_none now (hm.append s.data p len) h1 l1).2 ⟨hu1, fun q hq h => ?_⟩
      · exact hnone f'
      · rw [q1, quietPrefix_eq he hpre (loudPacket_some.1 hl).1] at hq
        have := packetsAt_ordered 0 pre post he q hq
        have := (look_packet.1 hmem.2).1.fits
        have := (look_packet.1 hmem.2).1.pos_len
        have h2 := h.2.1
        have h3 : q.1 + 9 = s.totalLen := h.2.2
        omega

/-- **The calls on a completed buffer stay inside** exactly when neither packet is met in it. -/
theorem stays_nested (now : ℤ) (hm : MfpOk s) (hs : Completed s) (hd : d.mfp = s) :
    Stays now d .mfp s.totalLen 0 ↔ NestSafe s := by
  cases hl : loudPacket s with
  | none => exact stays_nested_none now hm hd hl
  | some q =>
    obtain ⟨p, len⟩ := q
    obtain ⟨hloud, pre, post, he, hpre⟩ := loudPacket_some.1 hl
    obtain ⟨vs, d₁, q, w⟩ := goes_quiet now .mfp 0 d (congrArg MultiframeState.data hd) hd pre _ he hpre
    have hsafe := w.safe (fun _ => hm) le_rfl
    simp only [true_and] at hsafe
    unfold NestSafe
    rw [quietPrefix_eq he hpre hloud]
    by_cases hc : s.data p = Pkt.multiframeCont
    · constructor
      · exact fun h => hsafe.1 ((stays_goes w.goes).1 h).1
      · exact fun h f => staysIn_nested_cont p len f s d hm hs hd hl hc h.1
    · -- a 0xBD packet clears the buffer, and the call ends behind it
      rw [stays_goes w.goes, hsafe, and_iff_left_iff_imp]
      rintro ⟨hu, -⟩
      obtain ⟨hq, hlook, -⟩ := w.head
      replace hq : p = q := hq.symm
      subst hq
      have hp0 := w.le
      have hstart : s.data p = Pkt.multiframeStart ∧ 5 ≤ len := by
        by_contra hn
        exact hloud ⟨hn, fun hcc => hc hcc.1⟩
      have hmem : Src.mem d₁ .mfp = s.data := congrArg MultiframeState.data w.mfp
      have hp := turn_packet now d₁ .mfp (by rw [hmem]; exact hlook)
      obtain ⟨e1, e2⟩ := dispatch_start now s.totalLen true d₁ hstart.1 hstart.2
      rw [hmem] at hp
      rw [stays_goto (by rw [hp]; exact e2), turn_safe (by unfold MfpInv; rw [w.mfp]; exact fun _ => hm) hp0, hmem]
      refine ⟨⟨fun h => hu h.2, fun _ _ h => absurd (hstart.1.symm.trans h.1) (by decide)⟩, ?_⟩
      have hpos := (look_packet.1 hlook).1.pos_len
      refine stays_of_stop (by omega) (look_stop_of_zero ?_)
      rw [hp]
      show (dispatchPacket now true d₁ ⟨s.data, s.totalLen⟩ p len).dec.mfp.data _ = 0
      rw [e1, startState_nested]
      rfl

/-! ## Calls on a frame -/

/-- Neither packet is met from here on: not among the arrivals of the frame, and not in
the buffers they complete, up to a buffer that does not let the parser go on. -/
def WalkSafe (n : ℤ) : MultiframeState → List Arrival → Prop
  | _, [] => True
  | s, a :: r =>
    ¬ConfAtEnd a.mem n (a.pos, a.len) ∧
      match (stepArrival s a).2 with
      | none => WalkSafe n (stepArrival s a).1 r
      | some b => NestSafe b ∧ (¬Reentrant b → WalkSafe n (stepArrival s a).1 r)

theorem walkSafe_inactive : ∀ (l : List Arrival) (s s' : MultiframeState), s.active = false → s'.active = false →
    (WalkSafe n s l ↔ WalkSafe n s' l) := by
  intro l
  induction l with
  | nil => intro s s' _ _; exact Iff.rfl
  | cons a l ih =>
    intro s s' h h'
    unfold WalkSafe stepArrival
    simp only [h, h', Bool.false_eq_true, and_false, if_false]
    split_ifs
    · exact Iff.rfl
    · rw [ih s s' h h']

/-- **The call on a frame stays inside** exactly when neither packet is met. -/
theorem stays_frame (now pos : ℤ) : ∀ d : StdcDecoder, MfpInv d → 0 ≤ pos →
    (Stays now d (.frame m) n pos ↔ ¬(pos = 0 ∧ Underread m n) ∧ WalkSafe n d.mfp (arrivalsAt m n pos)) := by
  induction pos using walk_induction (m := m) (n := n) with
  | stop pos h =>
    intro d hd h0
    have hl : arrivalsAt m n pos = [] := by unfold arrivalsAt; rw [packetsAt_stop h]; rfl
    rw [hl, stays_stop (by rw [turn_stop now d (.frame m) h]), turn_stop now d (.frame m) h, outSafe_accesses,
      look_safe h0]
    exact (and_iff_left trivial).symm
  | pad pos h ih =>
    intro d hd h0
    have hl : arrivalsAt m n pos = arrivalsAt m n (pos + 1) := by unfold arrivalsAt; rw [packetsAt_pad h]
    have hturn := turn_pad now d (.frame m) h
    rw [stays_goto (by rw [hturn]), hturn, outSafe_accesses, look_safe h0, ih d hd (by omega), hl,
      and_iff_right (a := ¬(pos + 1 = 0 ∧ Underread m n)) (by omega)]
    rfl
  | bad pos len h ih =>
    intro d hd h0
    have hpos := (look_bad.1 h).1.pos_len
    have hl : arrivalsAt m n pos = arrivalsAt m n (pos + len) := by unfold arrivalsAt; rw [packetsAt_bad h]
    have hturn := turn_bad now d (.frame m) h
    rw [stays_goto (by rw [hturn]), hturn, outSafe_accesses, look_safe h0, ih d hd (by omega), hl,
      and_iff_right (a := ¬(pos + len = 0 ∧ Underread m n)) (by omega)]
    rfl
  | packet pos len h ih =>
    intro d hd h0
    have hpos := (look_packet.1 h).1.pos_len
    have hl : arrivalsAt m n pos = ⟨m, pos, len⟩ :: arrivalsAt m n (pos + len) := by
      unfold arrivalsAt; rw [packetsAt_packet h, List.map_cons]
    have hsafe : OutSafe (parseTurn now d (.frame m) n pos).out ↔
        ¬(pos = 0 ∧ Underread m n) ∧ ¬ConfAtEnd m n (pos, len) := by
      rw [turn_safe hd h0]
      refine and_congr_right fun _ => ⟨fun hc => hc len h, fun hc len' h' => ?_⟩
      have e := h.symm.trans h'
      injection e with e
      rw [← e]
      exact hc
    have hturn := turn_packet now d (.frame m) h
    have hd₁ : MfpInv (dispatchPacket now false d ⟨m, n⟩ pos len).dec := mfpInv_dispatch hd
    have ht := turnOf_dispatch now n d m pos len
    rw [hl, WalkSafe]
    generalize hnext : (dispatchPacket now false d ⟨m, n⟩ pos len).next = next at ht
    cases ht with
    | goto h1 h2 =>
      rw [stays_goto (by rw [hturn]; exact hnext), hsafe, h2, ← h1, hturn]
      show _ ∧ Stays now (dispatchPacket now false d ⟨m, n⟩ pos len).dec (.frame m) n (pos + len) ↔ _
      rw [ih _ hd₁ (by omega), and_iff_right (a := ¬(pos + len = 0 ∧ Underread m n)) (by omega), and_assoc]
    | @nest b h1 h2 h3 h4 h5 =>
      have hm : MfpOk b := by rw [h4]; exact (hd h3).append m pos len
      have hb : Completed b := hm.completed (by rw [h4]; exact h3) h5
      have hrest : ∀ d₂ : StdcDecoder, Stays now d₂.endMultiframe (.frame m) n (pos + len) ↔
          WalkSafe n { b with active := false } (arrivalsAt m n (pos + len)) := by
        intro d₂
        rw [ih _ (mfpInv_end d₂) (by omega), and_iff_right (a := ¬(pos + len = 0 ∧ Underread m n)) (by omega)]
        exact walkSafe_inactive _ _ _ rfl rfl
      rw [stays_nest rfl (by rw [hturn]; exact hnext), hsafe, h2, hturn]
      show _ ∧ Stays now (dispatchPacket now false d ⟨m, n⟩ pos len).dec .mfp b.totalLen 0 ∧ _ ↔ _
      rw [stays_nested now hm hb h1, and_assoc]
      refine and_congr_right fun _ => and_congr_right fun _ => and_congr_right fun _ => ?_
      have hends := ends_nested now hb h1
      constructor
      · intro hr hre
        obtain ⟨d₂, o₂, h6⟩ := hends.2 hre
        exact (hrest d₂).1 (hr d₂ o₂ h6)
      · intro hw d₂ o₂ h6
        exact (hrest d₂).2 (hw (hends.1 ⟨d₂, o₂, h6⟩))

/-! ## The claim -/

/-- The call meets neither packet. -/
def Inside (s : MultiframeState) (frame : Mem) (frameLen : ℤ) : Prop :=
  ¬Underread frame frameLen ∧ WalkSafe frameLen s (arrivals frame frameLen)

end InmarsatSniffer.Stdc
