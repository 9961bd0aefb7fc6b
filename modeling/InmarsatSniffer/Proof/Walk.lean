import InmarsatSniffer.Spec.Parse

/-!
# The packet walk over unchanging memory

While no packet writes the memory it stands in, the packets `parse_packets`
dispatches are a function of that memory and the length (`packets`).

* `look_val`: what `look` finds, by the descriptor, the length and the checksum test.
* `look_agree`: it depends only on the bytes of the packet it finds.
* `packetsFrom_step`: the walk, one turn at a time, for any sufficient fuel.
-/

namespace InmarsatSniffer.Stdc

open ByteMem

/-! ## The values of `get_packet_length` and `compute_crc` -/

theorem be16_eq (a b : UInt8) : be16 a b = a.toNat * 256 + b.toNat := by
  have hb : b.toNat < 2 ^ 8 := b.toNat_lt
  unfold be16
  rw [← Nat.shiftLeft_add_eq_or_of_lt hb, Nat.shiftLeft_eq]

theorem be16_inj {a b c d : UInt8} : be16 a b = be16 c d ↔ a = c ∧ b = d := by
  have hb := b.toNat_lt
  have hd := d.toNat_lt
  rw [be16_eq, be16_eq, ← UInt8.toNat_inj, ← UInt8.toNat_inj]
  omega

theorem be16_eq_zero {a b : UInt8} : be16 a b = 0 ↔ a = 0 ∧ b = 0 := by
  rw [show (0 : ℕ) = be16 0 0 from rfl, be16_inj]

/-- The length `get_packet_length` computes. -/
def pktLength (m : Mem) (n pos : ℤ) : ℤ := (getPacketLength ⟨m, n⟩ pos).val

theorem pktLength_eq (m : Mem) (n pos : ℤ) :
    pktLength m n pos =
      if m pos >>> 7 = 0 then ((m pos &&& 0x0F).toNat : ℤ) + 1
      else if m pos >>> 6 = 2 then if pos + 1 ≥ n then n - pos else (m (pos + 1)).toNat + 2
      else n - pos := by
  unfold pktLength getPacketLength
  simp only [Frame.read, Logged.val_bind, Logged.val_ite, Logged.val_pure]

/-- The checksum loop reads the packet but for its last two bytes. -/
theorem crcLoop_agree {m m' : Mem} {n n' pos len : ℤ} (h : ∀ j, pos ≤ j → j < pos + len - 2 → m j = m' j) :
    ∀ (k : ℕ) (i : ℤ), 0 ≤ i → ∀ c0 c1,
      (crcLoop ⟨m, n⟩ pos len k i c0 c1).val = (crcLoop ⟨m', n'⟩ pos len k i c0 c1).val := by
  intro k
  induction k with
  | zero => intro i _ c0 c1; rfl
  | succ k ih =>
    intro i hi c0 c1
    unfold crcLoop
    split
    · simp only [Frame.read, Logged.val_bind]
      rw [h (pos + i) (by omega) (by omega)]
      exact ih (i + 1) (by omega) _ _
    · exact ih (i + 1) (by omega) _ _

/-- The checksum `compute_crc` computes. -/
def crcOf (m : Mem) (pos len : ℤ) : ℕ := (computeCrc ⟨m, 0⟩ pos len).val

theorem crcOf_agree {m m' : Mem} {pos len : ℤ} (h : ∀ j, pos ≤ j → j < pos + len - 2 → m j = m' j) :
    crcOf m pos len = crcOf m' pos len := by
  unfold crcOf computeCrc
  simp only [Logged.val_bind, Logged.val_pure]
  rw [crcLoop_agree h _ 0 le_rfl]

theorem computeCrc_val (m : Mem) (n pos len : ℤ) : (computeCrc ⟨m, n⟩ pos len).val = crcOf m pos len := by
  unfold crcOf computeCrc
  simp only [Logged.val_bind, Logged.val_pure]
  rw [crcLoop_agree (fun _ _ _ => rfl) _ 0 le_rfl]

/-- The checksum test of `parse_packets`: the field is zero or as computed. -/
def CrcOk (m : Mem) (pos len : ℤ) : Prop :=
  be16 (m (pos + len - 2)) (m (pos + len - 1)) = 0 ∨
    be16 (m (pos + len - 2)) (m (pos + len - 1)) = crcOf m pos len

instance (m : Mem) (pos len : ℤ) : Decidable (CrcOk m pos len) := inferInstanceAs (Decidable (_ ∨ _))

theorem crcOk_agree {m m' : Mem} {pos len : ℤ} (h : ∀ j, min pos (pos + len - 2) ≤ j → j < pos + len → m j = m' j) :
    CrcOk m pos len ↔ CrcOk m' pos len := by
  unfold CrcOk
  rw [crcOf_agree (fun j h1 h2 => h j (by omega) (by omega)), h (pos + len - 2) (by omega) (by omega),
    h (pos + len - 1) (by omega) (by omega)]

/-! ## What stands at a position -/

theorem look_val (m : Mem) (n pos : ℤ) :
    (look ⟨m, n⟩ pos).val =
      if pos < n - 2 then
        if m pos = 0x00 then .stop
        else if m pos = 0xFF then .pad
        else if pktLength m n pos ≤ 0 ∨ pos + pktLength m n pos > n then .stop
        else if CrcOk m pos (pktLength m n pos) then .packet (pktLength m n pos)
        else .bad (pktLength m n pos)
      else .stop := by
  unfold look CrcOk
  simp only [Frame.read, Logged.val_ite, Logged.val_bind, Logged.val_pure, computeCrc_val]
  rfl

/-- What a `look` that finds a packet says. -/
structure Found (m : Mem) (n pos len : ℤ) : Prop where
  lt : pos < n - 2
  ne_zero : m pos ≠ 0x00
  ne_pad : m pos ≠ 0xFF
  length : pktLength m n pos = len
  pos_len : 0 < len
  fits : pos + len ≤ n

theorem look_packet {m : Mem} {n pos len : ℤ} :
    (look ⟨m, n⟩ pos).val = .packet len ↔ Found m n pos len ∧ CrcOk m pos len := by
  rw [look_val]
  constructor
  · intro h
    split_ifs at h with h1 h2 h3 h4 h5
    injection h with h
    subst h
    exact ⟨⟨h1, h2, h3, rfl, by omega, by omega⟩, h5⟩
  · rintro ⟨⟨h1, h2, h3, h4, h5, h6⟩, h7⟩
    rw [h4, if_pos h1, if_neg h2, if_neg h3, if_neg (by omega), if_pos h7]

theorem look_bad {m : Mem} {n pos len : ℤ} :
    (look ⟨m, n⟩ pos).val = .bad len ↔ Found m n pos len ∧ ¬CrcOk m pos len := by
  rw [look_val]
  constructor
  · intro h
    split_ifs at h with h1 h2 h3 h4 h5
    injection h with h
    subst h
    exact ⟨⟨h1, h2, h3, rfl, by omega, by omega⟩, h5⟩
  · rintro ⟨⟨h1, h2, h3, h4, h5, h6⟩, h7⟩
    rw [h4, if_pos h1, if_neg h2, if_neg h3, if_neg (by omega), if_neg h7]

theorem look_pad {m : Mem} {n pos : ℤ} :
    (look ⟨m, n⟩ pos).val = .pad ↔ pos < n - 2 ∧ m pos = 0xFF := by
  rw [look_val]
  constructor
  · intro h
    split_ifs at h with h1 h2 h3
    exact ⟨h1, h3⟩
  · rintro ⟨h1, h2⟩
    rw [if_pos h1, h2, if_neg (by decide), if_pos rfl]

theorem look_stop_of_ge {m : Mem} {n pos : ℤ} (h : n - 2 ≤ pos) : (look ⟨m, n⟩ pos).val = .stop := by
  rw [look_val, if_neg (by omega)]

theorem look_stop_of_zero {m : Mem} {n pos : ℤ} (h : m pos = 0x00) : (look ⟨m, n⟩ pos).val = .stop := by
  rw [look_val, h]; simp

/-- The walk's next position after a `look`. -/
def Look.next? (pos : ℤ) : Look → Option ℤ
  | .stop => none
  | .pad => some (pos + 1)
  | .bad len => some (pos + len)
  | .packet len => some (pos + len)

theorem look_next {m : Mem} {n pos' : ℤ} (pos : ℤ) (h : (look ⟨m, n⟩ pos).val.next? pos = some pos') :
    pos < pos' ∧ pos' ≤ n ∧ pos < n - 2 := by
  cases hl : (look ⟨m, n⟩ pos).val with
  | stop => rw [hl] at h; simp [Look.next?] at h
  | pad =>
    rw [hl] at h
    have := look_pad.1 hl
    simp only [Look.next?, Option.some.injEq] at h
    omega
  | bad len =>
    rw [hl] at h
    have := (look_bad.1 hl).1
    simp only [Look.next?, Option.some.injEq] at h
    exact ⟨by have := this.pos_len; omega, by have := this.fits; omega, this.lt⟩
  | packet len =>
    rw [hl] at h
    have := (look_packet.1 hl).1
    simp only [Look.next?, Option.some.injEq] at h
    exact ⟨by have := this.pos_len; omega, by have := this.fits; omega, this.lt⟩

theorem pktLength_agree {m m' : Mem} {n pos : ℤ} (h0 : m pos = m' pos) (h1 : m (pos + 1) = m' (pos + 1)) :
    pktLength m n pos = pktLength m' n pos := by
  rw [pktLength_eq, pktLength_eq, h0, h1]

/-- **`look` depends on the packet's own bytes**, for a packet that ends before `k`. -/
theorem look_agree {m m' : Mem} {n k : ℤ} (pos : ℤ) (h : ∀ j, j < k → m j = m' j) (hk : pos + 1 < k)
    (he : ∀ pos', (look ⟨m, n⟩ pos).val.next? pos = some pos' → pos' ≤ k) :
    (look ⟨m', n⟩ pos).val = (look ⟨m, n⟩ pos).val := by
  have h0 := h pos (by omega)
  have h1 := h (pos + 1) (by omega)
  have hl := pktLength_agree (n := n) h0 h1
  rw [look_val, look_val] at *
  rw [← h0, ← hl]
  split_ifs with c1 c2 c3 c4 c5 c6 c6 <;> try rfl
  all_goals
    rw [if_pos c1, if_neg c2, if_neg c3, if_neg c4] at he
    have hag : CrcOk m pos (pktLength m n pos) ↔ CrcOk m' pos (pktLength m n pos) := by
      apply crcOk_agree
      intro j _ hj
      apply h
      by_cases hc : CrcOk m pos (pktLength m n pos)
      · rw [if_pos hc] at he
        have := he _ rfl
        omega
      · rw [if_neg hc] at he
        have := he _ rfl
        omega
    tauto

/-! ## The packets of a frame -/

/-- The packets dispatched from `pos` on, with their lengths, in at most `fuel` turns. -/
def packetsFrom (m : Mem) (n : ℤ) : ℕ → ℤ → List (ℤ × ℤ)
  | 0, _ => []
  | f + 1, pos =>
    match (look ⟨m, n⟩ pos).val with
    | .stop => []
    | .pad => packetsFrom m n f (pos + 1)
    | .bad len => packetsFrom m n f (pos + len)
    | .packet len => (pos, len) :: packetsFrom m n f (pos + len)

/-- **The packets `parse_packets` dispatches** in the frame `m` of length `n`, by
position and length, as long as nothing writes the frame. -/
def packets (m : Mem) (n : ℤ) : List (ℤ × ℤ) := packetsFrom m n n.toNat 0

/-- Fuel beyond the end of the frame changes nothing. -/
theorem packetsFrom_fuel (m : Mem) (n : ℤ) : ∀ (f f' : ℕ) (pos : ℤ), (n - pos).toNat ≤ f → (n - pos).toNat ≤ f' →
    packetsFrom m n f pos = packetsFrom m n f' pos := by
  intro f
  induction f with
  | zero =>
    intro f' pos h _
    cases f' with
    | zero => rfl
    | succ f' => rw [packetsFrom, packetsFrom, look_stop_of_ge (by omega)]
  | succ f ih =>
    intro f' pos h h'
    cases f' with
    | zero => rw [packetsFrom, packetsFrom, look_stop_of_ge (by omega)]
    | succ f' =>
      rw [packetsFrom, packetsFrom]
      cases hl : (look ⟨m, n⟩ pos).val with
      | stop => rfl
      | pad =>
        have hn := look_next (m := m) (n := n) pos (by rw [hl]; rfl)
        exact ih f' (pos + 1) (by omega) (by omega)
      | bad len =>
        have hn := look_next (m := m) (n := n) pos (by rw [hl]; rfl)
        exact ih f' (pos + len) (by omega) (by omega)
      | packet len =>
        have hn := look_next (m := m) (n := n) pos (by rw [hl]; rfl)
        dsimp only
        rw [ih f' (pos + len) (by omega) (by omega)]

/-- The packets from `pos` on. -/
def packetsAt (m : Mem) (n pos : ℤ) : List (ℤ × ℤ) := packetsFrom m n (n - pos).toNat pos

theorem packets_eq (m : Mem) (n : ℤ) : packets m n = packetsAt m n 0 := by
  unfold packets packetsAt; rw [sub_zero]

/-- **One turn of the walk.** -/
theorem packetsAt_step (m : Mem) (n pos : ℤ) :
    packetsAt m n pos =
      match (look ⟨m, n⟩ pos).val with
      | .stop => []
      | .pad => packetsAt m n (pos + 1)
      | .bad len => packetsAt m n (pos + len)
      | .packet len => (pos, len) :: packetsAt m n (pos + len) := by
  have e : packetsAt m n pos = packetsFrom m n ((n - pos).toNat + 1) pos :=
    packetsFrom_fuel m n _ _ pos le_rfl (Nat.le_succ _)
  rw [e, packetsFrom]
  cases hl : (look ⟨m, n⟩ pos).val with
  | stop => rfl
  | pad =>
    have hn := look_next (m := m) (n := n) pos (by rw [hl]; rfl)
    exact packetsFrom_fuel m n _ _ _ (by omega) le_rfl
  | bad len =>
    have hn := look_next (m := m) (n := n) pos (by rw [hl]; rfl)
    exact packetsFrom_fuel m n _ _ _ (by omega) le_rfl
  | packet len =>
    have hn := look_next (m := m) (n := n) pos (by rw [hl]; rfl)
    dsimp only
    rw [packetsFrom_fuel m n _ (n - (pos + len)).toNat _ (by omega) le_rfl]
    rfl

theorem packetsAt_stop {m : Mem} {n pos : ℤ} (h : (look ⟨m, n⟩ pos).val = .stop) : packetsAt m n pos = [] := by
  rw [packetsAt_step, h]

theorem packetsAt_pad {m : Mem} {n pos : ℤ} (h : (look ⟨m, n⟩ pos).val = .pad) :
    packetsAt m n pos = packetsAt m n (pos + 1) := by
  rw [packetsAt_step, h]

theorem packetsAt_bad {m : Mem} {n pos len : ℤ} (h : (look ⟨m, n⟩ pos).val = .bad len) :
    packetsAt m n pos = packetsAt m n (pos + len) := by
  rw [packetsAt_step, h]

theorem packetsAt_packet {m : Mem} {n pos len : ℤ} (h : (look ⟨m, n⟩ pos).val = .packet len) :
    packetsAt m n pos = (pos, len) :: packetsAt m n (pos + len) := by
  rw [packetsAt_step, h]

/-- The walk is an induction on what is left of the frame. -/
theorem walk_induction {m : Mem} {n : ℤ} {P : ℤ → Prop}
    (stop : ∀ pos, (look ⟨m, n⟩ pos).val = .stop → P pos)
    (pad : ∀ pos, (look ⟨m, n⟩ pos).val = .pad → P (pos + 1) → P pos)
    (bad : ∀ pos len, (look ⟨m, n⟩ pos).val = .bad len → P (pos + len) → P pos)
    (packet : ∀ pos len, (look ⟨m, n⟩ pos).val = .packet len → P (pos + len) → P pos) (pos : ℤ) : P pos := by
  have key : ∀ (k : ℕ) (pos : ℤ), (n - pos).toNat ≤ k → P pos := by
    intro k
    induction k with
    | zero => intro pos h; exact stop pos (look_stop_of_ge (by omega))
    | succ k ih =>
      intro pos h
      cases hl : (look ⟨m, n⟩ pos).val with
      | stop => exact stop pos hl
      | pad =>
        have hn := look_next (m := m) (n := n) pos (by rw [hl]; rfl)
        exact pad pos hl (ih _ (by omega))
      | bad len =>
        have hn := look_next (m := m) (n := n) pos (by rw [hl]; rfl)
        exact bad pos len hl (ih _ (by omega))
      | packet len =>
        have hn := look_next (m := m) (n := n) pos (by rw [hl]; rfl)
        exact packet pos len hl (ih _ (by omega))
  exact key _ pos le_rfl

/-- The packets of the walk passed the checksum test where they stand. -/
theorem mem_packetsAt {m : Mem} {n : ℤ} (pos : ℤ) :
    ∀ p len, (p, len) ∈ packetsAt m n pos → pos ≤ p ∧ (look ⟨m, n⟩ p).val = .packet len := by
  induction pos using walk_induction (m := m) (n := n) with
  | stop pos h => intro p len hm; rw [packetsAt_stop h] at hm; simp at hm
  | pad pos h ih =>
    intro p len hm
    rw [packetsAt_pad h] at hm
    have := ih p len hm
    exact ⟨by omega, this.2⟩
  | bad pos l h ih =>
    intro p len hm
    rw [packetsAt_bad h] at hm
    have := ih p len hm
    have := (look_bad.1 h).1.pos_len
    exact ⟨by omega, (ih p len hm).2⟩
  | packet pos l h ih =>
    intro p len hm
    rw [packetsAt_packet h, List.mem_cons] at hm
    rcases hm with hm | hm
    · simp only [Prod.mk.injEq] at hm
      rw [hm.1, hm.2]; exact ⟨le_rfl, h⟩
    · have := (look_packet.1 h).1.pos_len
      have := ih p len hm
      exact ⟨by omega, this.2⟩

end InmarsatSniffer.Stdc
