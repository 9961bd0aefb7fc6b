import InmarsatSniffer.Proof.Returns
import Mathlib.Data.List.TakeWhile

/-!
# Parsing the reassembly buffer

When a reassembly is complete, `parse_packets` walks the buffer it lives in. A 0xBD
packet found there clears the buffer; a 0xBE packet appends to it and, the buffer
being complete still, starts yet another call on it.

* `goes_quiet`: the loop up to the first packet that touches the reassembly.
* `append_cont`: what one 0xBE packet does to the buffer it stands in.
* `ends_nested`: **the call on a complete buffer ends exactly when the buffer is not
  `Reentrant`**.
-/

namespace InmarsatSniffer.Stdc

open ByteMem

variable {now n pos p len : ℤ} {d d' d₁ : StdcDecoder} {src : Src} {out : List Event}
  {s : MultiframeState} {m : Mem} {vs : List (StdcDecoder × ℤ)}

/-! ## Stretches of the loop -/

/-- What the turns at some places did, each with the decoder the loop had there. -/
def turnsOut (now : ℤ) (src : Src) (n : ℤ) (vs : List (StdcDecoder × ℤ)) : List Event :=
  vs.flatMap fun v => (parseTurn now v.1 src n v.2).out

/-- The loop goes from `pos` to `p` without a nested call, by turns at the places `vs`. -/
inductive Goes (now : ℤ) (src : Src) (n : ℤ) :
    StdcDecoder → ℤ → List (StdcDecoder × ℤ) → StdcDecoder → ℤ → Prop where
  | here (d : StdcDecoder) (pos : ℤ) : Goes now src n d pos [] d pos
  | turn {d d' : StdcDecoder} {pos q p : ℤ} {vs : List (StdcDecoder × ℤ)}
      (h : (parseTurn now d src n pos).next = .goto q) (g : Goes now src n (parseTurn now d src n pos).dec q vs d' p) :
      Goes now src n d pos ((d, pos) :: vs) d' p

theorem Goes.returns (g : Goes now src n d pos vs d₁ p) :
    Returns now d src n pos d' out ↔ ∃ o', Returns now d₁ src n p d' o' ∧ out = turnsOut now src n vs ++ o' := by
  induction g generalizing out with
  | here d pos => simp [turnsOut]
  | turn h g ih =>
    rw [returns_goto rfl h]
    constructor
    · rintro ⟨o₁, h1, rfl⟩
      obtain ⟨o', h2, rfl⟩ := ih.1 h1
      exact ⟨o', h2, by simp [turnsOut]⟩
    · rintro ⟨o', h2, rfl⟩
      exact ⟨_, ih.2 ⟨o', h2, rfl⟩, by simp [turnsOut]⟩

theorem Goes.ends (g : Goes now src n d pos vs d₁ p) : Ends now d src n pos ↔ Ends now d₁ src n p := by
  induction g with
  | here d pos => exact Iff.rfl
  | turn h g ih => rw [ends_goto rfl h, ih]

theorem done_goto {f : ℕ} {t : Turn} (ht : parseTurn now d src n pos = t) (h : t.next = .goto p)
    (hd : (parseFrom now f d src n pos).done = true) : ∃ g < f, (parseFrom now g t.dec src n p).done = true := by
  cases f with
  | zero => simp [parseFrom] at hd
  | succ f =>
    rw [parseFrom, ht, h] at hd
    exact ⟨f, Nat.lt_succ_self f, hd⟩

theorem done_nest {f : ℕ} {t : Turn} (ht : parseTurn now d src n pos = t) (h : t.next = .nest len p)
    (hd : (parseFrom now f d src n pos).done = true) : ∃ g < f, (parseFrom now g t.dec .mfp len 0).done = true := by
  cases f with
  | zero => simp [parseFrom] at hd
  | succ f =>
    rw [parseFrom, ht, h] at hd
    simp only at hd
    split at hd
    · rename_i hr
      exact ⟨f, Nat.lt_succ_self f, hr⟩
    · exact absurd hd (by simp)

theorem Goes.done {f : ℕ} (g : Goes now src n d pos vs d₁ p) (hd : (parseFrom now f d src n pos).done = true) :
    ∃ f' ≤ f, (parseFrom now f' d₁ src n p).done = true := by
  induction g generalizing f with
  | here d pos => exact ⟨f, le_rfl, hd⟩
  | turn h g ih =>
    obtain ⟨f₁, h1, h2⟩ := done_goto rfl h hd
    obtain ⟨f₂, h3, h4⟩ := ih h2
    exact ⟨f₂, by omega, h4⟩

/-- A decoder with the same reassembly shows a call the same memory. -/
theorem mem_of_mfp (h : d'.mfp = d.mfp) : src.mem d' = src.mem d := by
  cases src
  · rfl
  · exact congrArg MultiframeState.data h

/-- At `p` the walk is at the head of `l`. -/
def AtHead (m : Mem) (n p : ℤ) : List (ℤ × ℤ) → Prop
  | [] => (look ⟨m, n⟩ p).val = .stop
  | q :: r => p = q.1 ∧ (look ⟨m, n⟩ p).val = .packet q.2 ∧ packetsAt m n (p + q.2) = r

/-- The loop goes from `pos` past the packets `pre`, which leave the reassembly `s`
alone, to where `post` begins. -/
structure QuietWalk (now : ℤ) (src : Src) (n : ℤ) (m : Mem) (s : MultiframeState) (d : StdcDecoder) (pos : ℤ)
    (pre post : List (ℤ × ℤ)) (vs : List (StdcDecoder × ℤ)) (d₁ : StdcDecoder) (p : ℤ) : Prop where
  goes : Goes now src n d pos vs d₁ p
  mfp : d₁.mfp = s
  le : pos ≤ p
  head : AtHead m n p post
  visited : ∀ v ∈ vs, v.1.mfp = s ∧ src.mem v.1 = m ∧ pos ≤ v.2
  packets : ∀ q, q ∈ pre ↔ ∃ v ∈ vs, v.2 = q.1 ∧ (look ⟨m, n⟩ v.2).val = .packet q.2
  start : (vs = [] ∧ p = pos) ∨ ∃ v ∈ vs, v.2 = pos
  dispatched : dispatches (turnsOut now src n vs) = pre.map (dispatchOf src.nested m)

/-- One more turn in front that dispatches nothing. -/
theorem QuietWalk.skip {pre post : List (ℤ × ℤ)} {q : ℤ} (w : QuietWalk now src n m s d q pre post vs d₁ p)
    (hpos : pos ≤ q) (hm : src.mem d = m) (hs : d.mfp = s) (hl : ∀ len, (look ⟨m, n⟩ pos).val ≠ .packet len)
    (hturn : parseTurn now d src n pos = ⟨d, accesses (look ⟨src.mem d, n⟩ pos), .goto q⟩) :
    QuietWalk now src n m s d pos pre post ((d, pos) :: vs) d₁ p where
  goes := .turn (by rw [hturn]) (by rw [hturn]; exact w.goes)
  mfp := w.mfp
  le := le_trans hpos w.le
  head := w.head
  visited := List.forall_mem_cons.2 ⟨⟨hs, hm, le_rfl⟩, fun v hv => by
    have := w.visited v hv
    exact ⟨this.1, this.2.1, by omega⟩⟩
  packets := fun r => by
    rw [w.packets r, List.exists_mem_cons_iff]
    exact ⟨Or.inr, fun h => h.resolve_left fun hc => hl _ hc.2⟩
  start := Or.inr ⟨_, List.mem_cons_self, rfl⟩
  dispatched := by
    have := w.dispatched
    unfold turnsOut at this ⊢
    rw [List.flatMap_cons, dispatches_append, this, hturn, dispatches_accesses, List.nil_append]

/-- **The loop passes packets that leave the reassembly alone.** -/
theorem goes_quiet (now : ℤ) (src : Src) (pos : ℤ) : ∀ (d : StdcDecoder), src.mem d = m → d.mfp = s → ∀ pre post,
    packetsAt m n pos = pre ++ post → (∀ q ∈ pre, Quiet s (m q.1) q.2) →
    ∃ vs d₁ p, QuietWalk now src n m s d pos pre post vs d₁ p := by
  induction pos using walk_induction (m := m) (n := n) with
  | stop pos h =>
    intro d hm hs pre post e _
    rw [packetsAt_stop h] at e
    obtain ⟨rfl, rfl⟩ := List.append_eq_nil_iff.1 e.symm
    exact ⟨[], d, pos, .here d pos, hs, le_rfl, h, by simp, by simp, Or.inl ⟨rfl, rfl⟩, rfl⟩
  | pad pos h ih =>
    intro d hm hs pre post e hq
    rw [packetsAt_pad h] at e
    obtain ⟨vs, d₁, p, w⟩ := ih d hm hs pre post e hq
    exact ⟨_, d₁, p, w.skip (by omega) hm hs (by simp [h]) (turn_pad now d src (by rw [hm]; exact h))⟩
  | bad pos len h ih =>
    intro d hm hs pre post e hq
    rw [packetsAt_bad h] at e
    obtain ⟨vs, d₁, p, w⟩ := ih d hm hs pre post e hq
    have := (look_bad.1 h).1.pos_len
    exact ⟨_, d₁, p, w.skip (by omega) hm hs (by simp [h]) (turn_bad now d src (by rw [hm]; exact h))⟩
  | packet pos len h ih =>
    intro d hm hs pre post e hq
    rw [packetsAt_packet h] at e
    have hpos := (look_packet.1 h).1.pos_len
    cases pre with
    | nil =>
      subst e
      exact ⟨[], d, pos, .here d pos, hs, le_rfl, ⟨rfl, h, rfl⟩, by simp, by simp, Or.inl ⟨rfl, rfl⟩, rfl⟩
    | cons q pre =>
      obtain ⟨rfl, e'⟩ := List.cons.inj e
      subst hm
      have hquiet : Quiet d.mfp (src.mem d pos) len := by rw [hs]; exact hq _ List.mem_cons_self
      obtain ⟨hmfp, hnext⟩ := dispatch_quiet now n src.nested _ pos hquiet
      have hturn := turn_packet now d src h
      obtain ⟨vs, d₁, p, w⟩ := ih _ (mem_of_mfp hmfp) (hmfp.trans hs) pre post e'
        (fun q' h' => hq q' (List.mem_cons_of_mem _ h'))
      refine ⟨_, d₁, p, .turn (by rw [hturn]; exact hnext) (by rw [hturn]; exact w.goes), w.mfp,
        by have := w.le; omega, w.head, ?_, ?_, Or.inr ⟨_, List.mem_cons_self, rfl⟩, ?_⟩
      · refine List.forall_mem_cons.2 ⟨⟨hs, rfl, le_rfl⟩, fun v hv => ?_⟩
        have := w.visited v hv
        exact ⟨this.1, this.2.1, by omega⟩
      · intro q
        rw [List.mem_cons, w.packets q, List.exists_mem_cons_iff]
        refine or_congr_left ⟨?_, ?_⟩
        · rintro rfl
          exact ⟨rfl, h⟩
        · rintro ⟨h1, h2⟩
          rw [h] at h2
          injection h2 with h2
          exact Prod.ext h1.symm h2.symm
      · have := w.dispatched
        unfold turnsOut at this ⊢
        rw [List.flatMap_cons, dispatches_append, this, hturn, dispatches_packetOut]
        rfl

/-- A walk that only meets such packets returns. -/
theorem returns_quiet (now : ℤ) (src : Src) (hm : src.mem d = m) (hs : d.mfp = s)
    (hq : ∀ q ∈ packetsAt m n pos, Quiet s (m q.1) q.2) :
    ∃ d' out, Returns now d src n pos d' out ∧ d'.mfp = s ∧
      dispatches out = (packetsAt m n pos).map (dispatchOf src.nested m) := by
  obtain ⟨vs, d₁, p, w⟩ := goes_quiet now src pos d hm hs (packetsAt m n pos) [] (List.append_nil _).symm hq
  have hm₁ : src.mem d₁ = m := (mem_of_mfp (w.mfp.trans hs.symm)).trans hm
  have hr := (returns_stop (turn_stop now d₁ src (by rw [hm₁]; exact w.head)) rfl).2 ⟨rfl, rfl⟩
  refine ⟨d₁, _, w.goes.returns.2 ⟨_, hr, rfl⟩, w.mfp, ?_⟩
  rw [dispatches_append, w.dispatched, dispatches_accesses, List.append_nil]

/-! ## Buffers -/

/-- A reassembly whose buffer `decode_multiframe_cont` hands to `parse_packets`. -/
structure Completed (s : MultiframeState) : Prop where
  active : s.active = true
  filled : s.totalLen - 2 ≤ s.filled
  size : s.filled ≤ mfpSize
  pos : 1 ≤ s.totalLen
  total : s.totalLen ≤ 257

/-- The first packet in the buffer that touches the reassembly. -/
def loudPacket (s : MultiframeState) : Option (ℤ × ℤ) :=
  (packets s.data s.totalLen).find? fun q => ¬Quiet s (s.data q.1) q.2

/-- The packets in the buffer before that one. -/
def quietPrefix (s : MultiframeState) : List (ℤ × ℤ) :=
  (packets s.data s.totalLen).takeWhile fun q => Quiet s (s.data q.1) q.2

/-- **The buffer makes the parser call itself forever**: its first packet that touches
the reassembly is a 0xBE packet that still passes the checksum test when its payload
has been appended to the buffer once and twice. -/
def Reentrant (s : MultiframeState) : Prop :=
  match loudPacket s with
  | none => False
  | some (p, len) =>
    let s₁ := appendState s s.data p len
    let s₂ := appendState s₁ s₁.data p len
    s.data p = Pkt.multiframeCont ∧ CrcOk s₁.data p len ∧ CrcOk s₂.data p len

theorem quiet_iff {desc : UInt8} (h : s.active = true) :
    Quiet s desc len ↔ ¬(desc = Pkt.multiframeStart ∧ 5 ≤ len) ∧ desc ≠ Pkt.multiframeCont := by
  unfold Quiet; rw [h]; simp

theorem loudPacket_none : loudPacket s = none ↔
    ∀ q ∈ packetsAt s.data s.totalLen 0, Quiet s (s.data q.1) q.2 := by
  unfold loudPacket
  rw [List.find?_eq_none, packets_eq]
  simp only [decide_not, Bool.not_eq_eq_eq_not, Bool.not_true, decide_eq_false_iff_not, not_not]

theorem loudPacket_some : loudPacket s = some (p, len) ↔
    ¬Quiet s (s.data p) len ∧ ∃ pre post, packetsAt s.data s.totalLen 0 = pre ++ (p, len) :: post ∧
      ∀ q ∈ pre, Quiet s (s.data q.1) q.2 := by
  unfold loudPacket
  rw [List.find?_eq_some_iff_append, packets_eq]
  simp only [decide_not, Bool.not_eq_eq_eq_not, Bool.not_true, decide_eq_false_iff_not, Bool.not_not,
    decide_eq_true_eq]

theorem quietPrefix_none (h : loudPacket s = none) : quietPrefix s = packetsAt s.data s.totalLen 0 := by
  unfold quietPrefix
  rw [packets_eq, List.takeWhile_eq_self_iff]
  simpa using loudPacket_none.1 h

theorem quietPrefix_eq {pre post : List (ℤ × ℤ)} (he : packetsAt s.data s.totalLen 0 = pre ++ (p, len) :: post)
    (hpre : ∀ q ∈ pre, Quiet s (s.data q.1) q.2) (hl : ¬Quiet s (s.data p) len) : quietPrefix s = pre := by
  unfold quietPrefix
  rw [packets_eq, he, List.takeWhile_append_of_pos (by simpa using hpre), List.takeWhile_cons_of_neg (by simpa using hl),
    List.append_nil]

/-- Packets of the walk end before the later ones begin. -/
theorem packetsAt_ordered (pos : ℤ) : ∀ pre post, packetsAt m n pos = pre ++ (p, len) :: post →
    ∀ q ∈ pre, q.1 + q.2 ≤ p := by
  induction pos using walk_induction (m := m) (n := n) with
  | stop pos hl => intro pre post e; rw [packetsAt_stop hl] at e; simp at e
  | pad pos hl ih => intro pre post e; rw [packetsAt_pad hl] at e; exact ih pre post e
  | bad pos l hl ih => intro pre post e; rw [packetsAt_bad hl] at e; exact ih pre post e
  | packet pos l hl ih =>
    intro pre post e
    rw [packetsAt_packet hl] at e
    cases pre with
    | nil => simp
    | cons q pre =>
      obtain ⟨rfl, e'⟩ := List.cons.inj e
      refine List.forall_mem_cons.2 ⟨?_, ih pre post e'⟩
      exact (mem_packetsAt (m := m) (n := n) (pos + l) p len (by rw [e']; simp)).1

/-- The loop stops where the memory is zero. -/
theorem ends_zero (h : src.mem d pos = 0 ∨ n - 2 ≤ pos) : Ends now d src n pos := by
  refine ends_stop (turn_stop now d src (h.elim look_stop_of_zero look_stop_of_ge)) rfl

theorem slice_zero_mem (i : ℤ) (k : ℕ) : slice zero i k = List.replicate k 0 := by
  unfold slice zero
  rw [List.map_const', List.length_range]

/-- A 0xBD packet inside the buffer clears it. -/
theorem startState_nested : (startState true m p len).data = zero := by
  unfold startState ofList
  simp only [if_true, slice_zero_mem]
  funext j
  unfold blit
  split
  · rw [List.getD_eq_getElem?_getD, List.getElem?_replicate]
    split <;> rfl
  · rfl

/-- After a 0xBD packet inside the buffer the call ends. -/
theorem ends_start (hs : d.mfp.data = m) (hl : (look ⟨m, n⟩ p).val = .packet len)
    (hd : m p = Pkt.multiframeStart) (h5 : 5 ≤ len) : Ends now d .mfp n p := by
  subst hs
  obtain ⟨h1, h2⟩ := dispatch_start now n true d hd h5
  rw [ends_goto (turn_packet now d .mfp hl) h2]
  apply ends_zero
  left
  show (dispatchPacket now true d ⟨d.mfp.data, n⟩ p len).dec.mfp.data _ = 0
  rw [h1, startState_nested]
  rfl

/-- With no reassembly under way the call on the buffer ends. -/
theorem ends_inactive (h : d.mfp.active = false) (n pos : ℤ) : Ends now d .mfp n pos := by
  cases hf : (packetsAt d.mfp.data n pos).find? fun q => ¬Quiet d.mfp (d.mfp.data q.1) q.2 with
  | none =>
    have hq : ∀ q ∈ packetsAt d.mfp.data n pos, Quiet d.mfp (d.mfp.data q.1) q.2 := by
      intro q hq
      simpa using List.find?_eq_none.1 hf q hq
    obtain ⟨d', out, hr, -, -⟩ := returns_quiet now .mfp rfl rfl hq
    exact ⟨d', out, hr⟩
  | some q =>
    obtain ⟨hloud, pre, post, he, hpre⟩ := List.find?_eq_some_iff_append.1 hf
    obtain ⟨vs, d₁, p, w⟩ := goes_quiet now .mfp pos d rfl rfl pre (q :: post) he
      (fun q' hq' => by simpa [Src.mem] using hpre q' hq')
    obtain ⟨rfl, hl, -⟩ := w.head
    have hq : ¬Quiet d.mfp (d.mfp.data q.1) q.2 := by simpa using hloud
    have hstart : d.mfp.data q.1 = Pkt.multiframeStart ∧ 5 ≤ q.2 := by
      by_contra hc
      exact hq ⟨hc, fun hcc => by rw [h] at hcc; exact absurd hcc.2 (by decide)⟩
    rw [w.goes.ends]
    exact ends_start (m := d.mfp.data) (by rw [w.mfp]) hl hstart.1 hstart.2

/-! ## A 0xBE packet inside the buffer -/

/-- A 0xBE packet that passes the checksum test has at least four bytes. -/
theorem cont_length (h : (look ⟨m, n⟩ p).val = .packet len) (hd : m p = Pkt.multiframeCont) :
    4 ≤ len ∧ len = (m (p + 1)).toNat + 2 := by
  obtain ⟨⟨h1, -, -, h4, h5, h6⟩, hc⟩ := look_packet.1 h
  rw [pktLength_eq, hd, if_neg (by decide), if_pos (by decide), if_neg (by omega)] at h4
  refine ⟨?_, h4.symm⟩
  by_contra hlt
  have hcases : len = 2 ∨ len = 3 := by omega
  rcases hcases with rfl | rfl
  · -- the field is the packet itself, and the sums are zero
    have e : crcOf m p 2 = 0 := by
      unfold crcOf computeCrc
      simp [show Int.toNat 2 = 2 from rfl, crcLoop, be16]
    unfold CrcOk at hc
    rw [e, or_self, be16_eq_zero, show p + 2 - 2 = p by ring, hd] at hc
    exact absurd hc.1 (by decide)
  · have h1' : m (p + 1) = 1 := by
      apply UInt8.toNat_inj.1
      show _ = 1
      omega
    have e : crcOf m p 3 = be16 0x84 0xBE := by
      unfold crcOf computeCrc
      simp [show Int.toNat 3 = 3 from rfl, crcLoop, Frame.read, hd]
    unfold CrcOk at hc
    rw [e, be16_eq_zero, be16_inj, show p + 3 - 2 = p + 1 by ring, h1'] at hc
    rcases hc with hc | hc <;> exact absurd hc.1 (by decide)

/-- Where two memories agree up to a packet, so do the walks. -/
theorem packetsAt_agree {m m' : Mem} {k : ℤ} (h : ∀ j, j < k → m j = m' j) (hp : p < k) (pos : ℤ) :
    ∀ pre post, packetsAt m n pos = pre ++ (p, len) :: post →
      packetsAt m' n pos = pre ++ packetsAt m' n p := by
  induction pos using walk_induction (m := m) (n := n) with
  | stop pos hl => intro pre post e; rw [packetsAt_stop hl] at e; simp at e
  | pad pos hl ih =>
    intro pre post e
    rw [packetsAt_pad hl] at e
    have hm := (mem_packetsAt (m := m) (n := n) (pos + 1) p len (by rw [e]; simp)).1
    have hl' := look_agree (n := n) pos h (by omega)
      (fun q hq => by rw [hl] at hq; simp only [Look.next?, Option.some.injEq] at hq; omega)
    rw [packetsAt_pad (hl'.trans hl)]
    exact ih pre post e
  | bad pos l hl ih =>
    intro pre post e
    rw [packetsAt_bad hl] at e
    have hm := (mem_packetsAt (m := m) (n := n) (pos + l) p len (by rw [e]; simp)).1
    have := (look_bad.1 hl).1.pos_len
    have hl' := look_agree (n := n) pos h (by omega)
      (fun q hq => by rw [hl] at hq; simp only [Look.next?, Option.some.injEq] at hq; omega)
    rw [packetsAt_bad (hl'.trans hl)]
    exact ih pre post e
  | packet pos l hl ih =>
    intro pre post e
    rw [packetsAt_packet hl] at e
    cases pre with
    | nil =>
      obtain ⟨e, -⟩ := List.cons.inj e
      simp only [Prod.mk.injEq] at e
      rw [e.1, List.nil_append]
    | cons q pre =>
      obtain ⟨rfl, e'⟩ := List.cons.inj e
      have hm := (mem_packetsAt (m := m) (n := n) (pos + l) p len (by rw [e']; simp)).1
      have := (look_packet.1 hl).1.pos_len
      have hl' := look_agree (n := n) pos h (by omega)
        (fun q hq => by rw [hl] at hq; simp only [Look.next?, Option.some.injEq] at hq; omega)
      rw [packetsAt_packet (hl'.trans hl), ih pre post e', List.cons_append]

theorem chunkLen_nonneg (h : s.filled ≤ mfpSize) (len : ℤ) : 0 ≤ chunkLen s len := by
  unfold chunkLen; split <;> omega

theorem chunkLen_le (s : MultiframeState) (len : ℤ) : chunkLen s len ≤ mfpSize - s.filled := by
  unfold chunkLen; split <;> omega

/-- Appending leaves the bytes below `filled` alone. -/
theorem appendState_below {j : ℤ} (h : j < s.filled) : (appendState s m p len).data j = s.data j :=
  blit_of_lt h

theorem Completed.append (h : Completed s) (m : Mem) (p len : ℤ) : Completed (appendState s m p len) := by
  have h1 := chunkLen_nonneg h.size len
  have h2 := chunkLen_le s len
  have hf := h.filled
  exact ⟨h.active, show s.totalLen - 2 ≤ s.filled + _ by omega, show s.filled + _ ≤ mfpSize by omega, h.pos, h.total⟩

theorem Completed.complete (h : Completed s) : s.complete = true := by
  unfold MultiframeState.complete
  exact decide_eq_true h.filled

/-- **A 0xBE packet inside a complete buffer** stays the first packet that touches the
reassembly as long as it passes the checksum test; after that no packet does. -/
theorem append_cont (hs : Completed s) (hl : loudPacket s = some (p, len)) (hd : s.data p = Pkt.multiframeCont) :
    (appendState s s.data p len).data p = Pkt.multiframeCont ∧
      quietPrefix (appendState s s.data p len) = quietPrefix s ∧
      loudPacket (appendState s s.data p len) =
        if CrcOk (appendState s s.data p len).data p len then some (p, len) else none := by
  obtain ⟨hloud, pre, post, he, hpre⟩ := loudPacket_some.1 hl
  have hmem := (mem_packetsAt 0 p len (by rw [he]; simp)).2
  obtain ⟨⟨f1, f2, f3, f4, f5, f6⟩, hcrc⟩ := look_packet.1 hmem
  obtain ⟨h4, -⟩ := cont_length hmem hd
  have hf := hs.filled
  set s₁ := appendState s s.data p len with hs₁
  have hag : ∀ j, j < s.filled → s.data j = s₁.data j := fun j hj => (appendState_below hj).symm
  have hp : s₁.data p = s.data p := (hag p (by omega)).symm
  have hlen : pktLength s₁.data s.totalLen p = len := by
    rw [← f4]
    exact (pktLength_agree (hag p (by omega)) (hag (p + 1) (by omega))).symm
  have hfound : Found s₁.data s.totalLen p len := ⟨f1, by rw [hp]; exact f2, by rw [hp]; exact f3, hlen, f5, f6⟩
  have hwalk := packetsAt_agree hag (by omega) 0 pre post he
  have hpre' : ∀ q ∈ pre, Quiet s₁ (s₁.data q.1) q.2 := by
    intro q hq
    have hqm := mem_packetsAt 0 q.1 q.2 (by rw [he]; exact List.mem_append_left _ hq)
    have hlt := (look_packet.1 hqm.2).1.lt
    rw [← hag q.1 (by omega)]
    exact hpre q hq
  rw [quietPrefix_eq he hpre hloud]
  refine ⟨hp.trans hd, ?_⟩
  by_cases hc : CrcOk s₁.data p len
  · have hloud' : ¬Quiet s₁ (s₁.data p) len := by
      rw [hp, hd]
      exact fun hq => hq.2 ⟨rfl, hs.active⟩
    have he' : packetsAt s₁.data s₁.totalLen 0 = pre ++ (p, len) :: packetsAt s₁.data s.totalLen (p + len) := by
      show packetsAt s₁.data s.totalLen 0 = _
      rw [hwalk, packetsAt_packet (look_packet.2 ⟨hfound, hc⟩)]
    rw [if_pos hc, loudPacket_some]
    exact ⟨quietPrefix_eq he' hpre' hloud', hloud', pre, _, he', hpre'⟩
  · -- only the checksum field can have changed, so the packet ends the buffer
    have hend : s.totalLen - 2 ≤ p + len := by
      by_contra hlt
      exact hc ((crcOk_agree fun j _ hj => hag j (by omega)).1 hcrc)
    have he' : packetsAt s₁.data s₁.totalLen 0 = pre := by
      show packetsAt s₁.data s.totalLen 0 = _
      rw [hwalk, packetsAt_bad (look_bad.2 ⟨hfound, hc⟩), packetsAt_stop (look_stop_of_ge hend), List.append_nil]
    have hnone : loudPacket s₁ = none := loudPacket_none.2 (by rw [he']; exact hpre')
    rw [if_neg hc]
    exact ⟨(quietPrefix_none hnone).trans he', hnone⟩

/-- **The nested call up to its 0xBE packet**: it goes on in a call on the buffer with
the payload appended, and ends when that one does. -/
theorem nested_cont (now : ℤ) (hs : Completed s) (hd : d.mfp = s) (hl : loudPacket s = some (p, len))
    (hc : s.data p = Pkt.multiframeCont) :
    ∃ d₁, d₁.mfp = appendState s s.data p len ∧
      (Ends now d .mfp s.totalLen 0 ↔ Ends now d₁ .mfp s.totalLen 0) ∧
      ∀ f, (parseFrom now f d .mfp s.totalLen 0).done = true →
        ∃ g < f, (parseFrom now g d₁ .mfp s.totalLen 0).done = true := by
  obtain ⟨-, pre, post, he, hpre⟩ := loudPacket_some.1 hl
  obtain ⟨vs, d₁, q, w⟩ := goes_quiet now .mfp 0 d (congrArg MultiframeState.data hd) hd pre _ he hpre
  obtain ⟨hq, hlook, -⟩ := w.head
  replace hq : p = q := hq.symm
  subst hq
  have hmem : Src.mem d₁ .mfp = s.data := congrArg MultiframeState.data w.mfp
  have hturn := turn_packet now d₁ .mfp (by rw [hmem]; exact hlook)
  have hdisp := dispatch_cont now s.totalLen true len (d := d₁) (m := s.data) hc (by rw [w.mfp]; exact hs.active)
  rw [w.mfp, if_pos (hs.append _ _ _).complete] at hdisp
  rw [hmem] at hturn
  refine ⟨{ d₁ with mfp := appendState s s.data p len }, rfl, ?_, ?_⟩
  · rw [w.goes.ends, ends_nest hturn hdisp.2]
    constructor
    · rintro ⟨d₂, o₂, h2, -⟩
      exact ⟨d₂, o₂, hdisp.1 ▸ h2⟩
    · rintro ⟨d₂, o₂, h2⟩
      exact ⟨d₂, o₂, hdisp.1 ▸ h2, ends_inactive rfl _ _⟩
  · intro f hf
    obtain ⟨f₁, hf₁, hd₁⟩ := w.goes.done hf
    obtain ⟨f₂, hf₂, hd₂⟩ := done_nest hturn hdisp.2 hd₁
    exact ⟨f₂, by omega, hdisp.1 ▸ hd₂⟩

/-- A call on a buffer without a 0xBE packet to append ends. -/
theorem ends_nested_of_not_cont (hd : d.mfp = s) (h : ∀ p len, loudPacket s = some (p, len) → s.data p ≠ Pkt.multiframeCont) :
    Ends now d .mfp s.totalLen 0 := by
  subst hd
  cases hl : loudPacket d.mfp with
  | none =>
    obtain ⟨d', out, hr, -⟩ := returns_quiet now .mfp rfl rfl (loudPacket_none.1 hl)
    exact ⟨d', out, hr⟩
  | some q =>
    obtain ⟨p, len⟩ := q
    obtain ⟨hloud, pre, post, he, hpre⟩ := loudPacket_some.1 hl
    obtain ⟨vs, d₁, q, w⟩ := goes_quiet now .mfp 0 d rfl rfl pre _ he hpre
    obtain ⟨hq, hlook, -⟩ := w.head
    replace hq : p = q := hq.symm
    subst hq
    have hstart : d.mfp.data p = Pkt.multiframeStart ∧ 5 ≤ len := by
      by_contra hn
      exact hloud ⟨hn, fun hcc => h p len hl hcc.1⟩
    rw [w.goes.ends]
    exact ends_start (m := d.mfp.data) (by rw [w.mfp]) hlook hstart.1 hstart.2

/-- A 0xBE packet in the buffer that no further appending changes. -/
structure Stuck (s : MultiframeState) (p len : ℤ) : Prop where
  completed : Completed s
  loud : loudPacket s = some (p, len)
  cont : s.data p = Pkt.multiframeCont
  still : s.totalLen ≤ s.filled ∨ chunkLen s len = 0 ∨ p + len ≤ s.totalLen - 2

theorem chunkLen_append_zero (h : chunkLen s len = 0) : chunkLen (appendState s m p len) len = 0 := by
  unfold chunkLen at h ⊢
  show (if max (len - 2 - 2) 0 > mfpSize - (s.filled + _) then mfpSize - (s.filled + _) else max (len - 2 - 2) 0) = 0
  unfold chunkLen
  rw [h, add_zero]
  exact h

/-- Once stuck, always stuck. -/
theorem Stuck.append (h : Stuck s p len) : Stuck (appendState s s.data p len) p len := by
  obtain ⟨hs, hl, hd, hst⟩ := h
  obtain ⟨hc, -, hl'⟩ := append_cont hs hl hd
  obtain ⟨-, pre, post, he, -⟩ := loudPacket_some.1 hl
  obtain ⟨hf, hcrc⟩ := look_packet.1 (mem_packetsAt 0 p len (by rw [he]; simp)).2
  have hcrc' : CrcOk (appendState s s.data p len).data p len := by
    refine (crcOk_agree fun j _ hj => ?_).1 hcrc
    have hfill := hs.filled
    rcases hst with hst | hst | hst
    · exact (appendState_below (by have := hf.fits; omega)).symm
    · unfold appendState
      rw [hst]; simp
    · exact (appendState_below (by omega)).symm
  rw [if_pos hcrc'] at hl'
  refine ⟨hs.append _ _ _, hl', hc, hst.imp (fun h => ?_) (Or.imp_left chunkLen_append_zero)⟩
  have := chunkLen_nonneg hs.size len
  show s.totalLen ≤ s.filled + _
  omega

/-- **Stuck calls never end.** -/
theorem not_done_of_stuck (now p len : ℤ) : ∀ (f : ℕ) (s : MultiframeState) (d : StdcDecoder), Stuck s p len → d.mfp = s →
    (parseFrom now f d .mfp s.totalLen 0).done = false := by
  intro f
  induction f using Nat.strong_induction_on with
  | _ f ih =>
    intro s d h hd
    by_contra hdone
    obtain ⟨d₁, h1, -, h3⟩ := nested_cont now h.completed hd h.loud h.cont
    obtain ⟨g, hg, hgd⟩ := h3 f (by simpa using hdone)
    have := ih g hg (appendState s s.data p len) d₁ h.append h1
    rw [show (appendState s s.data p len).totalLen = s.totalLen from rfl, hgd] at this
    exact absurd this (by decide)

/-- A call that ends on a buffer with a 0xBE packet to append has that packet at its end. -/
theorem tail_of_ends (hs : Completed s) (hd : d.mfp = s) (hl : loudPacket s = some (p, len))
    (hc : s.data p = Pkt.multiframeCont) (h : Ends now d .mfp s.totalLen 0) : s.totalLen - 2 < p + len := by
  by_contra hlt
  obtain ⟨f, hf⟩ := ends_iff_done.1 h
  have := not_done_of_stuck now p len f s d ⟨hs, hl, hc, Or.inr (Or.inr (by omega))⟩ hd
  rw [hf] at this
  exact absurd this (by decide)

/-- Two appends bring the packet's end inside what is filled, or change nothing. -/
theorem still_twice (hs : Completed s) (m m' : Mem) (p len : ℤ) :
    s.totalLen ≤ (appendState (appendState s m p len) m' p len).filled ∨
      chunkLen (appendState (appendState s m p len) m' p len) len = 0 := by
  by_cases h0 : chunkLen s len = 0
  · exact Or.inr (chunkLen_append_zero (chunkLen_append_zero h0))
  by_cases h1 : chunkLen (appendState s m p len) len = 0
  · exact Or.inr (chunkLen_append_zero h1)
  left
  have a := chunkLen_nonneg hs.size len
  have b := chunkLen_nonneg (hs.append m p len).size len
  have hf := hs.filled
  show s.totalLen ≤ s.filled + chunkLen s len + chunkLen (appendState s m p len) len
  omega

/-- **The call on a complete buffer ends exactly when the buffer is not reentrant.** -/
theorem ends_nested (now : ℤ) (hs : Completed s) (hd : d.mfp = s) : Ends now d .mfp s.totalLen 0 ↔ ¬Reentrant s := by
  by_cases hnc : ∀ p len, loudPacket s = some (p, len) → s.data p ≠ Pkt.multiframeCont
  · refine iff_of_true (ends_nested_of_not_cont hd hnc) ?_
    unfold Reentrant
    cases hl : loudPacket s with
    | none => exact id
    | some q => exact fun h => hnc _ _ hl h.1
  push Not at hnc
  obtain ⟨p, len, hl, hc⟩ := hnc
  set s₁ := appendState s s.data p len with hs₁
  set s₂ := appendState s₁ s₁.data p len with hs₂
  have hR : Reentrant s ↔ CrcOk s₁.data p len ∧ CrcOk s₂.data p len := by
    unfold Reentrant
    rw [hl]
    simp only [hc, true_and, hs₁, hs₂]
  obtain ⟨d₁, e1, i1, -⟩ := nested_cont now hs hd hl hc
  obtain ⟨c1, -, l1⟩ := append_cont hs hl hc
  rw [hR, i1]
  by_cases k1 : CrcOk s₁.data p len
  · rw [if_pos k1] at l1
    have hs1 : Completed s₁ := hs.append _ _ _
    obtain ⟨d₂, e2, i2, -⟩ := nested_cont now hs1 e1 l1 c1
    obtain ⟨c2, -, l2⟩ := append_cont hs1 l1 c1
    rw [show s.totalLen = s₁.totalLen from rfl, i2]
    by_cases k2 : CrcOk s₂.data p len
    · rw [if_pos k2] at l2
      have hstuck : Stuck s₂ p len := ⟨hs1.append _ _ _, l2, c2, (still_twice hs _ _ _ _).imp_right Or.inl⟩
      refine iff_of_false (fun h => ?_) (fun h => h ⟨k1, k2⟩)
      obtain ⟨f, hf⟩ := ends_iff_done.1 h
      have := not_done_of_stuck now p len f s₂ d₂ hstuck e2
      rw [show s₂.totalLen = s₁.totalLen from rfl, hf] at this
      exact absurd this (by decide)
    · rw [if_neg k2] at l2
      refine iff_of_true (ends_nested_of_not_cont (s := s₂) e2 ?_) (fun h => k2 h.2)
      intro p' len' h
      rw [l2] at h
      exact absurd h (by simp)
  · rw [if_neg k1] at l1
    refine iff_of_true (ends_nested_of_not_cont (s := s₁) e1 ?_) (fun h => k1 h.1)
    intro p' len' h
    rw [l1] at h
    exact absurd h (by simp)

end InmarsatSniffer.Stdc
