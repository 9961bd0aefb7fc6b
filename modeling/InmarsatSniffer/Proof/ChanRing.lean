import InmarsatSniffer.Spec.ChanRing
import InmarsatSniffer.Lib.RingWindow

/-!
# The ring is a queue

The heads and tails of a run are counted without end: `H` samples have been accepted and
`T` of them released. Each thread may hold old values of the other's counter; what it
knows from them stays true (`ProducerOk`, `ConsumerOk`), since the other only moves on.

* `produce_ok`, `consume_ok`: one turn of a thread.
* `ring_fifo`: **in every run the accepted samples are the ones fed, the ones in hand and
  the unread ones in the ring**, in this order.
-/

namespace InmarsatSniffer.Chan

open RingWindow

variable {α : Type*} {jc : JaeroChan α} {H T : ℕ}

/-- The samples that the ring has accepted. -/
def JaeroChan.accepted (jc : JaeroChan α) : List α := jc.pushes.flatMap Push.accepted

/-- The samples taken out and not fed yet. -/
def Consumer.inHand : Consumer α → List α
  | .feeding batch => batch
  | _ => []

/-- The samples between the tail and the head of the ring. -/
def JaeroChan.unread (jc : JaeroChan α) : List α :=
  (List.range (jc.ringHead - jc.ringTail).toNat).map fun i => jc.ring ((jc.ringTail.toNat + i) % chanRingSize)

/-- The producer is past its count of a block that does not fit. -/
def Producer.dropping : Producer α → Bool
  | .copying samples _ free _ _ => free.toNat < samples.length
  | _ => false

/-- The drops of a run: of the calls that have returned, and of the one under way. -/
def JaeroChan.dropped (jc : JaeroChan α) : ℕ := jc.pushes.countP Push.dropped + jc.producer.dropping.toNat

/-- What the producer knows: its head is the head, and its room is still there. -/
def ProducerOk (ring : ℕ → α) (H T : ℕ) : Producer α → Prop
  | .idle => True
  | .entered _ => True
  | .hasHead _ head => head = UInt32.ofNat H
  | .hasTail _ head tail => head = UInt32.ofNat H ∧ ∃ T' ≤ T, tail = UInt32.ofNat T' ∧ H ≤ T' + chanRingSize
  | .copying samples head free n i => head = UInt32.ofNat H ∧ n = min samples.length free.toNat ∧
      H + n ≤ T + chanRingSize ∧ i ≤ n ∧ ∀ j < i, samples[j]? = some (ring ((H + j) % chanRingSize))

/-- What the consumer knows: its tail is the tail, and the samples it saw are still there. -/
def ConsumerOk (accepted : List α) (H T : ℕ) : Consumer α → Prop
  | .idle => True
  | .hasHead head => ∃ H', T ≤ H' ∧ H' ≤ H ∧ head = UInt32.ofNat H'
  | .hasTail head tail => tail = UInt32.ofNat T ∧ ∃ H', T ≤ H' ∧ H' ≤ H ∧ head = UInt32.ofNat H'
  | .copying tail take batch => tail = UInt32.ofNat T ∧ T + take ≤ H ∧ batch.length ≤ take ∧
      batch = (accepted.drop T).take batch.length
  | .feeding _ => True

/-- **The invariant of the ring**, with `H` samples accepted and `T` released. -/
structure RingOk (jc : JaeroChan α) (H T : ℕ) : Prop where
  head : jc.ringHead = UInt32.ofNat H
  tail : jc.ringTail = UInt32.ofNat T
  le : T ≤ H
  fits : H ≤ T + chanRingSize
  length : jc.accepted.length = H
  window : Window chanRingSize jc.ring jc.accepted T H
  fed : jc.fed ++ jc.consumer.inHand = jc.accepted.take T
  drops : jc.drops = UInt64.ofNat jc.dropped
  producer : ProducerOk jc.ring H T jc.producer
  consumer : ConsumerOk jc.accepted H T jc.consumer

theorem size_eq : chanRingSize = 262144 := rfl

/-- The cell of a sample, split at the end of the ring or not. -/
theorem ringCell_eq {n i : ℕ} (hn : n ≤ chanRingSize) (hi : i < n) (P : ℕ) :
    ringCell (UInt32.ofNat P) n i = (P + i) % chanRingSize := by
  have hmod : (UInt32.ofNat P &&& UInt32.ofNat (chanRingSize - 1)).toNat = P % chanRingSize := by
    rw [UInt32.toNat_and, UInt32.toNat_ofNat', UInt32.toNat_ofNat',
      Nat.mod_eq_of_lt (by decide : chanRingSize - 1 < 2 ^ 32), Nat.and_two_pow_sub_one_eq_mod,
      Nat.mod_mod_of_dvd _ (Nat.pow_dvd_pow 2 (by decide))]
  have hlt : P % chanRingSize < chanRingSize := Nat.mod_lt _ (by decide)
  unfold ringCell
  rw [hmod, ← Nat.mod_add_mod]
  generalize P % chanRingSize = mod at hlt
  dsimp only
  rcases lt_or_ge (mod + i) chanRingSize with h | h
  · rw [Nat.mod_eq_of_lt h, if_pos (by omega)]
  · rw [Nat.mod_eq_sub_mod h, Nat.mod_eq_of_lt (by omega), if_neg (by omega)]
    omega

theorem init_ok (ring : ℕ → α) : RingOk (JaeroChan.init ring) 0 0 where
  head := rfl
  tail := rfl
  le := le_rfl
  fits := Nat.zero_le _
  length := rfl
  window := fun i h1 h2 => absurd h2 (by omega)
  fed := rfl
  drops := rfl
  producer := trivial
  consumer := trivial

/-! ## The producer -/

/-- More samples in the queue, and older heads stay heads. -/
theorem ConsumerOk.mono {accepted more : List α} {c : Consumer α} (h : ConsumerOk accepted H T c) (n : ℕ)
    (hlen : accepted.length = H) : ConsumerOk (accepted ++ more) (H + n) T c := by
  cases c with
  | idle => trivial
  | hasHead head =>
    obtain ⟨H', h1, h2, h3⟩ := h
    exact ⟨H', h1, by omega, h3⟩
  | hasTail head tail =>
    obtain ⟨h0, H', h1, h2, h3⟩ := h
    exact ⟨h0, H', h1, by omega, h3⟩
  | copying tail take batch =>
    obtain ⟨h0, h1, h2, h3⟩ := h
    refine ⟨h0, by omega, h2, ?_⟩
    rw [List.drop_append_of_le_length (by omega), List.take_append_of_le_length (by rw [List.length_drop]; omega)]
    exact h3
  | feeding batch => trivial

/-- **The room that the producer computes** is there. -/
theorem free_eq {T' : ℕ} (hle : T' ≤ H) (hfits : H ≤ T' + chanRingSize) :
    (UInt32.ofNat chanRingSize - (UInt32.ofNat H - UInt32.ofNat T')).toNat = T' + chanRingSize - H := by
  have hsize := size_eq
  have hd := distance T' H hle (by omega)
  rw [UInt32.toNat_sub, hd, UInt32.toNat_ofNat']
  omega

theorem accepted_push (pushes : List (Push α)) (p : Push α) :
    (pushes ++ [p]).flatMap Push.accepted = pushes.flatMap Push.accepted ++ p.accepted := by
  rw [List.flatMap_append, List.flatMap_singleton]

theorem ofNat_succ64 (n : ℕ) : UInt64.ofNat n + 1 = UInt64.ofNat (n + 1) := by
  rw [← UInt64.toNat_inj]
  simp [UInt64.toNat_add, UInt64.toNat_ofNat']

/-- A call that returns has put the first `n` samples of its block into the ring. -/
theorem RingOk.accept (h : RingOk jc H T) (samples : List α) (free n : ℕ) (hn : n = min samples.length free)
    (hfits : H + n ≤ T + chanRingSize)
    (hcopied : ∀ j < n, samples[j]? = some (jc.ring ((H + j) % chanRingSize))) (drops : UInt64)
    (hdrops : drops = UInt64.ofNat (jc.pushes.countP Push.dropped + (decide (free < samples.length)).toNat)) :
    RingOk { jc with
        ringHead := UInt32.ofNat H + UInt32.ofNat n
        drops := drops
        producer := .idle
        pushes := jc.pushes ++ [⟨samples, free⟩] } (H + n) T := by
  have hlen : (samples.take free).length = n := by rw [List.length_take, hn, min_comm]
  have hacc : (jc.pushes ++ [Push.mk samples free]).flatMap Push.accepted = jc.accepted ++ samples.take free :=
    accepted_push jc.pushes ⟨samples, free⟩
  have hwritten : ∀ j, j < (samples.take free).length →
      (samples.take free)[j]? = some (jc.ring ((H + j) % chanRingSize)) := by
    intro j hj
    rw [List.getElem?_take_of_lt (by rw [List.length_take] at hj; omega)]
    exact hcopied j (by omega)
  have hle := h.le
  have hlength := h.length
  have hdropped : jc.pushes.countP Push.dropped + (decide (free < samples.length)).toNat =
      (jc.pushes ++ [Push.mk samples free]).countP Push.dropped := by
    rw [List.countP_append, List.countP_singleton]
    unfold Push.dropped
    dsimp only
    cases decide (free < samples.length) <;> rfl
  have hwindow : Window chanRingSize jc.ring (jc.accepted ++ samples.take free) T (H + n) := by
    rw [← hlen]
    exact h.window.append hlength hwritten
  have hfed : jc.fed ++ jc.consumer.inHand = (jc.accepted ++ samples.take free).take T := by
    rw [List.take_append_of_le_length (by omega)]
    exact h.fed
  have hcons : ConsumerOk (jc.accepted ++ samples.take free) (H + n) T jc.consumer := h.consumer.mono n hlength
  rw [← hacc] at hwindow hfed hcons
  refine ⟨(UInt32.ofNat_add H n).symm, h.tail, by omega, hfits, ?_, hwindow, hfed, ?_, trivial, hcons⟩
  · have hsum : ((jc.pushes ++ [Push.mk samples free]).flatMap Push.accepted).length = H + n := by
      rw [hacc, List.length_append, hlength, hlen]
    exact hsum
  · rw [hdrops, hdropped]
    rfl

/-- **A turn of the producer.** -/
theorem produce_ok (h : RingOk jc H T) (samples : Block α) : ∃ H', RingOk (jc.produce samples) H' T := by
  have hdrops := h.drops
  have hprod := h.producer
  unfold JaeroChan.produce
  unfold JaeroChan.dropped at hdrops
  cases hp : jc.producer with
  | idle =>
    rw [hp] at hdrops
    exact ⟨H, ⟨h.head, h.tail, h.le, h.fits, h.length, h.window, h.fed, hdrops, trivial, h.consumer⟩⟩
  | entered samples =>
    rw [hp] at hdrops
    exact ⟨H, ⟨h.head, h.tail, h.le, h.fits, h.length, h.window, h.fed, hdrops, h.head, h.consumer⟩⟩
  | hasHead samples head =>
    rw [hp] at hdrops hprod
    exact ⟨H, ⟨h.head, h.tail, h.le, h.fits, h.length, h.window, h.fed, hdrops,
      ⟨hprod, T, le_rfl, h.tail, h.fits⟩, h.consumer⟩⟩
  | hasTail samples head tail =>
    rw [hp] at hdrops hprod
    obtain ⟨rfl, T', hT', rfl, hfits⟩ := hprod
    have hle := h.le
    have hfree := free_eq (H := H) (le_trans hT' hle) hfits
    dsimp only
    generalize UInt32.ofNat chanRingSize - (UInt32.ofNat H - UInt32.ofNat T') = free at hfree
    split
    · next hgt =>
      have hcount : jc.drops + 1 = UInt64.ofNat (jc.pushes.countP Push.dropped + 1) := by
        rw [hdrops]
        exact ofNat_succ64 _
      split
      · next h0 =>
        -- no room at all
        have haccept := h.accept samples 0 0 (by omega) (by have := h.fits; omega)
          (fun j hj => absurd hj (by omega)) (jc.drops + 1) (by rw [hcount, decide_eq_true (by omega)]; rfl)
        have hhead : UInt32.ofNat H + UInt32.ofNat 0 = jc.ringHead := by rw [← UInt32.ofNat_add, h.head]; rfl
        rw [hhead] at haccept
        exact ⟨H + 0, haccept⟩
      · refine ⟨H, ⟨h.head, h.tail, h.le, h.fits, h.length, h.window, h.fed, ?_,
          ⟨rfl, by omega, by omega, Nat.zero_le _, fun j hj => absurd hj (by omega)⟩, h.consumer⟩⟩
        rw [hcount]
        unfold JaeroChan.dropped Producer.dropping
        dsimp only
        rw [decide_eq_true (by omega)]
        rfl
    · next hle' =>
      refine ⟨H, ⟨h.head, h.tail, h.le, h.fits, h.length, h.window, h.fed, ?_,
        ⟨rfl, by omega, by omega, Nat.zero_le _, fun j hj => absurd hj (by omega)⟩, h.consumer⟩⟩
      rw [hdrops]
      unfold JaeroChan.dropped Producer.dropping
      dsimp only
      rw [decide_eq_false (by omega)]
  | copying samples head free n i =>
    rw [hp] at hdrops hprod
    obtain ⟨rfl, hn, hfits, hi, hcopied⟩ := hprod
    have hle := h.le
    dsimp only
    split
    · next hlt =>
      -- the cell of the next sample is behind all unread ones
      rw [ringCell_eq (by omega) hlt.1]
      refine ⟨H, ⟨h.head, h.tail, h.le, h.fits, h.length, h.window.write (by omega) (by omega) _, h.fed, hdrops,
        ⟨rfl, hn, hfits, hlt.1, fun j hj => ?_⟩, h.consumer⟩⟩
      dsimp only
      rcases Nat.lt_succ_iff_lt_or_eq.1 hj with hj | rfl
      · rw [Function.update_of_ne (cell_ne (by omega) (by omega)), hcopied j hj]
      · rw [Function.update_self]
        exact List.getElem?_eq_getElem hlt.2
    · next hge =>
      have hall : i = n := by
        rw [not_and_or] at hge
        omega
      subst hall
      refine ⟨H + i, h.accept samples free.toNat i hn hfits hcopied jc.drops ?_⟩
      rw [hdrops]
      rfl

/-! ## The consumer -/

/-- The room of the producer only grows. -/
theorem ProducerOk.mono {ring : ℕ → α} {p : Producer α} (h : ProducerOk ring H T p) (n : ℕ) :
    ProducerOk ring H (T + n) p := by
  cases p with
  | idle => trivial
  | entered samples => trivial
  | hasHead samples head => exact h
  | hasTail samples head tail =>
    obtain ⟨h0, T', h1, h2, h3⟩ := h
    exact ⟨h0, T', by omega, h2, h3⟩
  | copying samples head free n i =>
    obtain ⟨h0, h1, h2, h3, h4⟩ := h
    exact ⟨h0, h1, by omega, h3, h4⟩

/-- **A turn of the consumer.** -/
theorem consume_ok (h : RingOk jc H T) : ∃ T', RingOk jc.consume H T' := by
  have hcons := h.consumer
  have hfed := h.fed
  unfold JaeroChan.consume
  cases hc : jc.consumer with
  | idle =>
    rw [hc] at hfed
    exact ⟨T, ⟨h.head, h.tail, h.le, h.fits, h.length, h.window, hfed, h.drops, h.producer, H, h.le, le_rfl, h.head⟩⟩
  | hasHead head =>
    rw [hc] at hfed hcons
    exact ⟨T, ⟨h.head, h.tail, h.le, h.fits, h.length, h.window, hfed, h.drops, h.producer, h.tail, hcons⟩⟩
  | hasTail head tail =>
    rw [hc] at hfed hcons
    obtain ⟨rfl, H', hH', hle', rfl⟩ := hcons
    have hfits := h.fits
    have hsize := size_eq
    have hd := distance T H' hH' (by omega)
    dsimp only
    split
    · exact ⟨T, ⟨h.head, h.tail, h.le, h.fits, h.length, h.window, hfed, h.drops, h.producer, trivial⟩⟩
    · exact ⟨T, ⟨h.head, h.tail, h.le, h.fits, h.length, h.window, hfed, h.drops, h.producer,
        rfl, by rw [hd]; omega, Nat.zero_le _, rfl⟩⟩
  | copying tail take batch =>
    rw [hc] at hfed hcons
    obtain ⟨rfl, hle', hlen, hbatch⟩ := hcons
    have hfits := h.fits
    dsimp only
    split
    · next hlt =>
      refine ⟨T, ⟨h.head, h.tail, h.le, h.fits, h.length, h.window, hfed, h.drops, h.producer, rfl, hle', ?_, ?_⟩⟩
      · rw [List.length_append, List.length_singleton]
        exact hlt
      · -- the sample read is the next one of the queue
        have hread := h.window (T + batch.length) (by omega) (by omega)
        have hnext : batch ++ [jc.ring ((T + batch.length) % chanRingSize)] =
            (jc.accepted.drop T).take (batch.length + 1) := by
          rw [List.take_add_one, ← hbatch, List.getElem?_drop, hread]
          rfl
        rw [ringCell_eq (by omega) hlt, List.length_append]
        exact hnext
    · next hge =>
      have hfull : batch.length = take := by omega
      rw [hfull] at hbatch
      refine ⟨T + take, ⟨h.head, (UInt32.ofNat_add T take).symm, by omega, by omega, h.length,
        h.window.mono (by omega), ?_, h.drops, h.producer.mono take, trivial⟩⟩
      have hnext : jc.fed ++ batch = jc.accepted.take (T + take) := by
        rw [List.take_add, ← hfed, ← hbatch]
        exact congrArg (· ++ batch) (List.append_nil _).symm
      exact hnext
  | feeding batch =>
    rw [hc] at hfed
    refine ⟨T, ⟨h.head, h.tail, h.le, h.fits, h.length, h.window, ?_, h.drops, h.producer, trivial⟩⟩
    exact (List.append_nil _).trans hfed

/-! ## Runs -/

theorem run_ok (turns : List (Turn α)) : ∀ {jc : JaeroChan α} {H T : ℕ}, RingOk jc H T →
    ∃ H' T', RingOk (jc.run turns) H' T' := by
  induction turns with
  | nil => exact fun h => ⟨_, _, h⟩
  | cons t turns ih =>
    intro jc H T h
    cases t with
    | producer samples =>
      obtain ⟨H', h'⟩ := produce_ok h samples
      exact ih h'
    | consumer =>
      obtain ⟨T', h'⟩ := consume_ok h
      exact ih h'

/-- **The ring is a FIFO.** In every run, with the turns of the threads in any order, from
a ring with any contents: the samples accepted are those fed to the demodulator, those in
hand and those unread in the ring, in this order; head and tail are at most the size of
the ring apart; and the drops counted are the calls whose block did not fit. -/
theorem ring_fifo (ring : ℕ → α) (turns : List (Turn α)) :
    let jc := (JaeroChan.init ring).run turns
    jc.accepted = jc.fed ++ jc.consumer.inHand ++ jc.unread ∧ jc.fed <+: jc.accepted ∧
      (jc.ringHead - jc.ringTail).toNat ≤ chanRingSize ∧ jc.drops = UInt64.ofNat jc.dropped ∧
      ∀ p ∈ jc.pushes, p.accepted <+: p.samples ∧ (p.dropped = true ↔ p.accepted ≠ p.samples) := by
  intro jc
  obtain ⟨H, T, h⟩ := run_ok turns (init_ok ring)
  have hle := h.le
  have hfits := h.fits
  have hsize := size_eq
  have hd : (jc.ringHead - jc.ringTail).toNat = H - T := by
    rw [h.head, h.tail]
    exact distance T H hle (by omega)
  have hunread : jc.unread = jc.accepted.drop T := by
    unfold JaeroChan.unread
    rw [h.window.read h.length, hd, h.tail]
    refine List.map_congr_left fun i _ => ?_
    have hdvd : chanRingSize ∣ 2 ^ 32 := Nat.pow_dvd_pow 2 (by decide)
    rw [UInt32.toNat_ofNat', ← Nat.mod_add_mod, Nat.mod_mod_of_dvd _ hdvd, Nat.mod_add_mod]
  have hall : jc.accepted = jc.fed ++ jc.consumer.inHand ++ jc.unread := by
    rw [hunread, h.fed]
    exact (List.take_append_drop T _).symm
  refine ⟨hall, ?_, by omega, h.drops, fun p _ => ⟨List.take_prefix _ _, ?_⟩⟩
  · rw [hall, List.append_assoc]
    exact List.prefix_append _ _
  · unfold Push.dropped Push.accepted
    rw [decide_eq_true_eq, ne_eq, List.take_eq_self_iff, not_le]

end InmarsatSniffer.Chan
