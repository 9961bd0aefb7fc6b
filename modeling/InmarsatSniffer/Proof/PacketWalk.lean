import InmarsatSniffer.Proof.Returns

/-!
# The packet walk stays in step

A frame laid out as packets, padding and zero fill (`layout`) is parsed packet by
packet: `walk_layout` gives the packets the walk dispatches, and `returns_static`
the parser's events when no 0xBE packet is among them.

* `parse_layout`: **`parse_packets` dispatches exactly the packets that pass the
  checksum test, each once, in order, where they stand**, and altering a packet
  without changing its length alters nothing about the others.
-/

namespace InmarsatSniffer.Stdc

open ByteMem

/-! ## Packets and layouts -/

/-- The length of a packet is the one its descriptor announces. -/
def Consistent (bs : List UInt8) : Prop :=
  (0x01 ≤ (bs.getD 0 0).toNat ∧ (bs.getD 0 0).toNat ≤ 0x7F ∧ bs.length = (bs.getD 0 0 &&& 0x0F).toNat + 1) ∨
    (0x80 ≤ (bs.getD 0 0).toNat ∧ (bs.getD 0 0).toNat ≤ 0xBF ∧ bs.length = (bs.getD 1 0).toNat + 2)

/-- The bytes of a packet, at least three of them, of the length its descriptor announces. -/
structure Packet where
  bytes : List UInt8
  three : 3 ≤ bytes.length
  consistent : Consistent bytes

/-- The descriptor byte. -/
def Packet.desc (p : Packet) : UInt8 := p.bytes.getD 0 0

/-- The packet's own checksum test. -/
def Packet.Valid (p : Packet) : Prop := CrcOk (ofList p.bytes) 0 p.bytes.length

instance (p : Packet) : Decidable p.Valid := inferInstanceAs (Decidable (CrcOk _ _ _))

/-- What stands in a frame before the zero fill. -/
inductive Item where
  | pad
  | packet (p : Packet)

/-- The bytes of an item. -/
def Item.bytes : Item → List UInt8
  | .pad => [0xFF]
  | .packet p => p.bytes

/-- The bytes of the items one behind the other. -/
def layout (items : List Item) : List UInt8 := items.flatMap Item.bytes

/-- The packets of a layout with their positions. -/
def laidOut : ℤ → List Item → List (ℤ × Packet)
  | _, [] => []
  | pos, .pad :: r => laidOut (pos + 1) r
  | pos, .packet p :: r => (pos, p) :: laidOut (pos + p.bytes.length) r

/-- The frame `m` of length `n` holds the items, then zeros. -/
structure LaysOut (m : Mem) (n : ℤ) (items : List Item) : Prop where
  fits : (layout items).length ≤ n
  holds : Holds m 0 (layout items)
  zeros : ∀ j, ((layout items).length : ℤ) ≤ j → j < n → m j = 0

variable {m : Mem} {n pos now : ℤ} {items : List Item}

theorem layout_cons (i : Item) : layout (i :: items) = i.bytes ++ layout items := rfl

theorem laidOut_append (a b : List Item) : ∀ pos,
    laidOut pos (a ++ b) = laidOut pos a ++ laidOut (pos + (layout a).length) b := by
  induction a with
  | nil => intro pos; simp [laidOut, layout]
  | cons i a ih =>
    intro pos
    cases i with
    | pad =>
      simp only [List.cons_append, laidOut, ih, layout_cons, Item.bytes, List.length_cons, List.nil_append]
      congr 2
      push_cast; ring
    | packet p =>
      simp only [List.cons_append, laidOut, ih, layout_cons, Item.bytes, List.length_append]
      congr 3
      push_cast; ring

theorem laidOut_pos (a : List Item) : ∀ pos, ∀ q ∈ laidOut pos a,
    pos ≤ q.1 ∧ q.1 + q.2.bytes.length ≤ pos + (layout a).length := by
  induction a with
  | nil => intro pos q hq; simp [laidOut] at hq
  | cons i a ih =>
    intro pos q hq
    rw [layout_cons, List.length_append]
    cases i with
    | pad =>
      have := ih (pos + 1) q hq
      simp only [Item.bytes, List.length_singleton]
      push_cast; omega
    | packet p =>
      simp only [laidOut, List.mem_cons] at hq
      simp only [Item.bytes]
      rcases hq with rfl | hq
      · exact ⟨le_rfl, by push_cast; omega⟩
      · have := ih _ q hq
        push_cast; omega

/-- Two bytes hold no packet. -/
theorem laidOut_short (h : (layout items).length ≤ 2) (pos : ℤ) : laidOut pos items = [] := by
  rw [List.eq_nil_iff_forall_not_mem]
  intro q hq
  have := laidOut_pos items pos q hq
  have := q.2.three
  omega

/-! ## The walk over a layout -/

theorem shift7_eq_zero (d : UInt8) : d >>> 7 = 0 ↔ d.toNat < 128 := by
  rw [← UInt8.toNat_inj, UInt8.toNat_shiftRight, Nat.shiftRight_eq_div_pow]
  change d.toNat / 128 = 0 ↔ _
  omega

theorem shift6_eq_two (d : UInt8) : d >>> 6 = 2 ↔ 128 ≤ d.toNat ∧ d.toNat < 192 := by
  rw [← UInt8.toNat_inj, UInt8.toNat_shiftRight, Nat.shiftRight_eq_div_pow]
  change d.toNat / 64 = 2 ↔ _
  omega

theorem crcLoop_shift (m : Mem) (n n' pos len : ℤ) : ∀ (k : ℕ) (i : ℤ) c0 c1,
    (crcLoop ⟨m, n⟩ pos len k i c0 c1).val = (crcLoop ⟨fun j => m (pos + j), n'⟩ 0 len k i c0 c1).val := by
  intro k
  induction k with
  | zero => intro i c0 c1; rfl
  | succ k ih =>
    intro i c0 c1
    unfold crcLoop
    split
    · simp only [Frame.read, Logged.val_bind, zero_add]
      exact ih _ _ _
    · exact ih _ _ _

/-- The checksum test does not depend on where the packet stands. -/
theorem crcOk_shift (m : Mem) (pos len : ℤ) : CrcOk m pos len ↔ CrcOk (fun j => m (pos + j)) 0 len := by
  have e : crcOf m pos len = crcOf (fun j => m (pos + j)) 0 len := by
    unfold crcOf computeCrc
    simp only [Logged.val_bind, Logged.val_pure]
    rw [crcLoop_shift m 0 0]
  unfold CrcOk
  rw [e]
  simp only [zero_add, add_sub_assoc]

theorem crcOk_holds {bs : List UInt8} (h : Holds m pos bs) (h2 : 2 ≤ bs.length) :
    CrcOk m pos bs.length ↔ CrcOk (ofList bs) 0 bs.length := by
  rw [crcOk_shift]
  apply crcOk_agree
  intro j h1 hj
  obtain ⟨k, rfl⟩ : ∃ k : ℕ, j = k := ⟨j.toNat, by omega⟩
  have a1 := h.getD (k := k) (by omega) 0
  have a2 := (@holds_ofList bs).getD (k := k) (by omega) 0
  rw [zero_add] at a2
  rw [a1, a2]

/-- Where a packet stands whole, `look` finds it. -/
theorem look_holds {p : Packet} (h : Holds m pos p.bytes) (hn : pos + p.bytes.length ≤ n) :
    (look ⟨m, n⟩ pos).val = if p.Valid then .packet p.bytes.length else .bad p.bytes.length := by
  have h3 := p.three
  have h0 : m pos = p.bytes.getD 0 0 := by
    have := h.getD (k := 0) (by omega) 0
    simpa using this
  have h1 : m (pos + 1) = p.bytes.getD 1 0 := by
    have := h.getD (k := 1) (by omega) 0
    simpa using this
  have hlen : pktLength m n pos = p.bytes.length := by
    simp only [pktLength_eq, h0, h1, shift7_eq_zero, shift6_eq_two]
    rcases p.consistent with ⟨c1, c2, c3⟩ | ⟨c1, c2, c3⟩
    · rw [if_pos (by omega)]; omega
    · rw [if_neg (by omega), if_pos (by omega), if_neg (by omega)]; omega
  have hd : 1 ≤ (m pos).toNat ∧ (m pos).toNat ≤ 0xBF := by
    rw [h0]; rcases p.consistent with ⟨c1, c2, -⟩ | ⟨c1, c2, -⟩ <;> omega
  have hne : m pos ≠ 0x00 ∧ m pos ≠ 0xFF := by
    constructor
    · intro hc; rw [hc] at hd; exact absurd hd.1 (by decide)
    · intro hc; rw [hc] at hd; exact absurd hd.2 (by decide)
  have hf : Found m n pos p.bytes.length := ⟨by omega, hne.1, hne.2, hlen, by omega, hn⟩
  have hc := crcOk_holds h (by omega)
  split
  · rename_i hv
    exact look_packet.2 ⟨hf, hc.2 hv⟩
  · rename_i hv
    exact look_bad.2 ⟨hf, fun c => hv (hc.1 c)⟩

/-- **The walk over a layout** dispatches the packets that pass the checksum test. -/
theorem walk_layout : ∀ (items : List Item) (pos : ℤ), pos + (layout items).length ≤ n →
    Holds m pos (layout items) → (∀ j, pos + (layout items).length ≤ j → j < n → m j = 0) →
    packetsAt m n pos =
      ((laidOut pos items).filter fun q => q.2.Valid).map fun q => (q.1, (q.2.bytes.length : ℤ)) := by
  intro items
  induction items with
  | nil =>
    intro pos hn _ hz
    rw [packetsAt_stop]
    · rfl
    by_cases h : pos < n - 2
    · exact look_stop_of_zero (hz pos (by simp [layout]) (by omega))
    · exact look_stop_of_ge (by omega)
  | cons i items ih =>
    intro pos hn hh hz
    rw [layout_cons, List.length_append] at hn
    rw [layout_cons, holds_append] at hh
    rw [layout_cons, List.length_append] at hz
    cases i with
    | pad =>
      simp only [Item.bytes, List.length_singleton] at hn hh hz
      have hpad : m pos = 0xFF := (holds_cons.1 hh.1).1
      by_cases h : pos < n - 2
      · rw [packetsAt_pad (look_pad.2 ⟨h, hpad⟩), laidOut]
        exact ih (pos + 1) (by omega) (by simpa using hh.2) (fun j h1 h2 => hz j (by omega) h2)
      · -- at most one byte is left behind the padding
        rw [packetsAt_stop (look_stop_of_ge (by omega)), laidOut, laidOut_short (by omega)]
        rfl
    | packet p =>
      simp only [Item.bytes] at hn hh hz
      have hrest := ih (pos + p.bytes.length) (by omega) hh.2 (fun j h1 h2 => hz j (by omega) h2)
      have hl := look_holds (n := n) hh.1 (by omega)
      by_cases hv : p.Valid
      · rw [if_pos hv] at hl
        rw [packetsAt_packet hl, hrest, laidOut, List.filter_cons_of_pos (by simpa using hv), List.map_cons]
      · rw [if_neg hv] at hl
        rw [packetsAt_bad hl, hrest, laidOut, List.filter_cons_of_neg (by simpa using hv)]

/-! ## The parser over memory it does not write -/

/-- **Without 0xBE packets the parser returns**, having dispatched the packets of the walk. -/
theorem returns_static (now pos : ℤ) : ∀ d : StdcDecoder, (∀ q ∈ packetsAt m n pos, m q.1 ≠ Pkt.multiframeCont) →
    ∃ d' out, Returns now d (.frame m) n pos d' out ∧ dispatches out = (packetsAt m n pos).map (dispatchOf false m) := by
  induction pos using walk_induction (m := m) (n := n) with
  | stop pos h =>
    intro d _
    refine ⟨_, _, (returns_stop (turn_stop now d (.frame m) h) rfl).2 ⟨rfl, rfl⟩, ?_⟩
    rw [packetsAt_stop h]; simp
  | pad pos h ih =>
    intro d hne
    rw [packetsAt_pad h] at hne ⊢
    obtain ⟨d', out, h1, h2⟩ := ih d hne
    exact ⟨d', _, (returns_goto (turn_pad now d (.frame m) h) rfl).2 ⟨out, h1, rfl⟩, by simpa using h2⟩
  | bad pos len h ih =>
    intro d hne
    rw [packetsAt_bad h] at hne ⊢
    obtain ⟨d', out, h1, h2⟩ := ih d hne
    exact ⟨d', _, (returns_goto (turn_bad now d (.frame m) h) rfl).2 ⟨out, h1, rfl⟩, by simpa using h2⟩
  | packet pos len h ih =>
    intro d hne
    rw [packetsAt_packet h] at hne ⊢
    have hc : m pos ≠ Pkt.multiframeCont := hne _ List.mem_cons_self
    have hnext : (dispatchPacket now false d ⟨m, n⟩ pos len).next = .goto (pos + len) := by
      by_cases hq : Quiet d.mfp (m pos) len
      · exact (dispatch_quiet now n false m pos hq).2
      · have : m pos = Pkt.multiframeStart ∧ 5 ≤ len := by
          by_contra hs; exact hq ⟨hs, fun hcc => hc hcc.1⟩
        exact (dispatch_start now n false d this.1 this.2).2
    obtain ⟨d', out, h1, h2⟩ := ih (dispatchPacket now false d ⟨m, n⟩ pos len).dec
      (fun q hq => hne q (List.mem_cons_of_mem _ hq))
    refine ⟨d', _, (returns_goto (turn_packet now d (.frame m) h) hnext).2 ⟨out, h1, rfl⟩, ?_⟩
    rw [dispatches_append, dispatches_packetOut, h2]
    rfl

/-! ## The claim -/

/-- The dispatch events of the valid packets of a layout. -/
def expectedDispatches (items : List Item) : List (Bool × ℤ × ℤ × List UInt8) :=
  ((laidOut 0 items).filter fun q => q.2.Valid).map fun q => (false, q.1, (q.2.bytes.length : ℤ), q.2.bytes)

/-- No packet of the layout is a 0xBE packet. -/
def NoCont (items : List Item) : Prop := ∀ p, Item.packet p ∈ items → p.desc ≠ Pkt.multiframeCont

theorem laidOut_mem {q : ℤ × Packet} : ∀ (items : List Item) (pos : ℤ), q ∈ laidOut pos items →
    Item.packet q.2 ∈ items ∧ (Holds m pos (layout items) → Holds m q.1 q.2.bytes) := by
  intro items
  induction items with
  | nil => intro pos h; simp [laidOut] at h
  | cons i items ih =>
    intro pos h
    rw [layout_cons, holds_append]
    cases i with
    | pad =>
      obtain ⟨h1, h2⟩ := ih _ h
      exact ⟨List.mem_cons_of_mem _ h1, fun hh => h2 (by simpa [Item.bytes] using hh.2)⟩
    | packet p =>
      simp only [laidOut, List.mem_cons] at h
      rcases h with rfl | h
      · exact ⟨List.mem_cons_self, fun hh => hh.1⟩
      · obtain ⟨h1, h2⟩ := ih _ h
        exact ⟨List.mem_cons_of_mem _ h1, fun hh => h2 hh.2⟩

/-- The parser on a layout, from any decoder state. -/
theorem parses_layout (h : LaysOut m n items) (hc : NoCont items) (now : ℤ) (d : StdcDecoder) :
    ∃ d' out, Parses now d m n d' out ∧ dispatches out = expectedDispatches items := by
  have hw := walk_layout items 0 (by simpa using h.fits) h.holds (by simpa using h.zeros)
  have hdesc : ∀ q ∈ laidOut 0 items, m q.1 = q.2.desc := by
    intro q hq
    have := ((laidOut_mem items 0 hq).2 h.holds).getD (k := 0) (by have := q.2.three; omega) 0
    simpa [Packet.desc] using this
  obtain ⟨d', out, h1, h2⟩ := returns_static (m := m) (n := n) now 0 d (by
    rw [hw]
    intro q hq
    obtain ⟨q', hq', rfl⟩ := List.mem_map.1 hq
    have hm := List.mem_of_mem_filter hq'
    rw [hdesc q' hm]
    exact hc _ (laidOut_mem (m := m) items 0 hm).1)
  refine ⟨d', out, parses_iff.2 h1, ?_⟩
  rw [h2, hw, List.map_map]
  apply List.map_congr_left
  intro q hq
  have hm := List.mem_of_mem_filter hq
  have := (laidOut_mem items 0 hm).2 h.holds
  simp only [Function.comp_apply, dispatchOf, Int.toNat_natCast]
  rw [this.slice]

/-- The dispatches of packets at other positions than `q`. -/
def awayFrom (q : ℤ) (ds : List (Bool × ℤ × ℤ × List UInt8)) : List (Bool × ℤ × ℤ × List UInt8) :=
  ds.filter fun e => e.2.1 ≠ q

theorem awayFrom_expected (pre post : List Item) (p p' : Packet) (h : p'.bytes.length = p.bytes.length) :
    awayFrom (layout pre).length (expectedDispatches (pre ++ .packet p :: post)) =
      awayFrom (layout pre).length (expectedDispatches (pre ++ .packet p' :: post)) := by
  unfold expectedDispatches awayFrom
  simp only [laidOut_append, laidOut, zero_add, h]
  simp only [List.filter_append, List.map_append]
  congr 1
  by_cases h1 : p.Valid <;> by_cases h2 : p'.Valid <;> simp [h1, h2]

/-- **The packet walk stays in step.** For every layout of packets and padding in a
640-byte frame, none of the packets a 0xBE, from every decoder state: the call returns,
and what it dispatches is each packet whose checksum field is zero or right, once, in
order, with its offset, length and bytes. Replacing one packet by any other of the same
length leaves the dispatches of all the others as they were. -/
theorem parse_layout (now : ℤ) (d : StdcDecoder) :
    (∀ items m, LaysOut m 640 items → NoCont items →
      ∃ d' out, Parses now d m 640 d' out ∧ dispatches out = expectedDispatches items) ∧
    (∀ pre post p p' m m', LaysOut m 640 (pre ++ .packet p :: post) → LaysOut m' 640 (pre ++ .packet p' :: post) →
      NoCont (pre ++ .packet p :: post) → p'.bytes.length = p.bytes.length → p'.desc ≠ Pkt.multiframeCont →
      ∃ d₁ out₁ d₂ out₂, Parses now d m 640 d₁ out₁ ∧ Parses now d m' 640 d₂ out₂ ∧
        awayFrom (layout pre).length (dispatches out₁) = awayFrom (layout pre).length (dispatches out₂)) := by
  refine ⟨fun items m h hc => parses_layout h hc now d, ?_⟩
  intro pre post p p' m m' h h' hc hlen hp'
  have hc' : NoCont (pre ++ .packet p' :: post) := by
    intro q hq
    simp only [List.mem_append, List.mem_cons, Item.packet.injEq] at hq
    rcases hq with hq | rfl | hq
    · exact hc q (List.mem_append_left _ hq)
    · exact hp'
    · exact hc q (List.mem_append_right _ (List.mem_cons_of_mem _ hq))
  obtain ⟨d₁, out₁, h1, e1⟩ := parses_layout h hc now d
  obtain ⟨d₂, out₂, h2, e2⟩ := parses_layout h' hc' now d
  exact ⟨d₁, out₁, d₂, out₂, h1, h2, by rw [e1, e2, awayFrom_expected pre post p p' hlen]⟩

/-- A layout in memory that is zero behind it. -/
theorem laysOut_ofList (items : List Item) (h : (layout items).length ≤ n) : LaysOut (ofList (layout items)) n items :=
  ⟨h, holds_ofList, fun _ h1 _ => by unfold ofList; rw [blit_of_ge (by omega)]; rfl⟩

/-- A short packet of four bytes with the right checksum. -/
def goodPacket : Packet := ⟨[0x03, 0x11, 0xD5, 0x17], by decide, Or.inl (by decide)⟩

/-- The same with its second byte changed. -/
def spoiltPacket : Packet := ⟨[0x03, 0x12, 0xD5, 0x17], by decide, Or.inl (by decide)⟩

theorem parse_layout_sample :
    (∃ d' out, Parses 0 .create (ofList (layout [.pad, .packet goodPacket, .packet spoiltPacket])) 640
        d' out ∧ dispatches out = [(false, 1, 4, [0x03, 0x11, 0xD5, 0x17])]) ∧
      ∃ d₁ out₁ d₂ out₂,
        Parses 0 .create (ofList (layout ([.pad] ++ .packet goodPacket :: []))) 640 d₁ out₁ ∧
        Parses 0 .create (ofList (layout ([.pad] ++ .packet spoiltPacket :: []))) 640 d₂ out₂ ∧
        awayFrom 1 (dispatches out₁) = awayFrom 1 (dispatches out₂) := by
  have hc : ∀ items : List Item, (∀ p, Item.packet p ∈ items → p.desc = 0x03) → NoCont items := by
    intro items h p hp
    rw [h p hp]; decide
  constructor
  · obtain ⟨d', out, h1, h2⟩ := (parse_layout 0 .create).1
      [.pad, .packet goodPacket, .packet spoiltPacket] _ (laysOut_ofList _ (by simp [layout, Item.bytes, goodPacket, spoiltPacket]))
      (hc _ (by simp [goodPacket, spoiltPacket, Packet.desc]))
    exact ⟨d', out, h1, h2.trans (by decide +kernel)⟩
  · exact (parse_layout 0 .create).2 [.pad] [] goodPacket spoiltPacket _ _
      (laysOut_ofList _ (by simp [layout, Item.bytes, goodPacket])) (laysOut_ofList _ (by simp [layout, Item.bytes, spoiltPacket])) (hc _ (by simp [goodPacket, Packet.desc]))
      rfl (by decide)

end InmarsatSniffer.Stdc
