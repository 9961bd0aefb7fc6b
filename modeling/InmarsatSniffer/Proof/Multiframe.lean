import InmarsatSniffer.Proof.PacketWalk
import InmarsatSniffer.Proof.Termination

/-!
# Multiframe reassembly against direct reception

A packet sent in pieces reaches the buffer piece by piece; `decode_multiframe_cont`
parses the buffer as soon as all but two bytes are there, so the two checksum bytes
may be missing when it does.

* `returns_frame`: the nested dispatches of a call are those of the buffers it completes.
* `completions_conts`: the pieces of `P` complete one buffer, which holds what of `P`
  has arrived by then.
* `multiframe_reassembly`: **`P` is dispatched once and whole exactly when what is
  missing of it at that point is zero anyway**.
-/

namespace InmarsatSniffer.Stdc

open ByteMem

variable {now n pos : ℤ} {d d' : StdcDecoder} {s : MultiframeState} {m : Mem} {P : List UInt8}

/-! ## Nested dispatches of a call and of a run -/

/-- The packets dispatched out of the reassembly buffer. -/
def nestedDispatches (out : List Event) : List (Bool × ℤ × ℤ × List UInt8) := (dispatches out).filter (·.1)

@[simp] theorem nestedDispatches_append (a b : List Event) :
    nestedDispatches (a ++ b) = nestedDispatches a ++ nestedDispatches b := by
  simp [nestedDispatches]

@[simp] theorem nestedDispatches_accesses {α : Type} (c : Acc α) : nestedDispatches (accesses c) = [] := by
  simp [nestedDispatches]

theorem nestedDispatches_packetOut {len : ℤ} : nestedDispatches (packetOut now n d (.frame m) pos len) = [] := by
  unfold nestedDispatches
  rw [dispatches_packetOut]
  rfl

/-- What is dispatched out of a completed buffer whose packets leave the reassembly alone. -/
def bufferDispatches (b : MultiframeState) : List (Bool × ℤ × ℤ × List UInt8) :=
  (packets b.data b.totalLen).map (dispatchOf true b.data)

/-- The reassembly after a list of arrivals. -/
def afterArrivals (s : MultiframeState) (l : List Arrival) : MultiframeState :=
  l.foldl (fun s a => (stepArrival s a).1) s

theorem completions_append (l l' : List Arrival) : ∀ s,
    completions s (l ++ l') = completions s l ++ completions (afterArrivals s l) l' := by
  induction l with
  | nil => intro s; rfl
  | cons a l ih => intro s; simp only [List.cons_append, completions, ih, List.append_assoc]; rfl

/-- **A call whose completed buffers hold no multiframe packet**: it returns, leaves the
reassembly its arrivals lead to, and dispatches the packets of those buffers. -/
theorem returns_frame (now pos : ℤ) : ∀ d : StdcDecoder,
    (∀ b ∈ completions d.mfp (arrivalsAt m n pos), loudPacket b = none) →
    ∃ d' out, Returns now d (.frame m) n pos d' out ∧ d'.mfp = afterArrivals d.mfp (arrivalsAt m n pos) ∧
      nestedDispatches out = (completions d.mfp (arrivalsAt m n pos)).flatMap bufferDispatches := by
  induction pos using walk_induction (m := m) (n := n) with
  | stop pos h =>
    intro d _
    have hl : arrivalsAt m n pos = [] := by unfold arrivalsAt; rw [packetsAt_stop h]; rfl
    rw [hl]
    exact ⟨d, _, (returns_stop (turn_stop now d (.frame m) h) rfl).2 ⟨rfl, rfl⟩, rfl, nestedDispatches_accesses _⟩
  | pad pos h ih =>
    intro d hb
    have hl : arrivalsAt m n pos = arrivalsAt m n (pos + 1) := by unfold arrivalsAt; rw [packetsAt_pad h]
    rw [hl] at hb ⊢
    obtain ⟨d', out, h1, h2, h3⟩ := ih d hb
    exact ⟨d', _, (returns_goto (turn_pad now d (.frame m) h) rfl).2 ⟨out, h1, rfl⟩, h2, by simpa using h3⟩
  | bad pos len h ih =>
    intro d hb
    have hl : arrivalsAt m n pos = arrivalsAt m n (pos + len) := by unfold arrivalsAt; rw [packetsAt_bad h]
    rw [hl] at hb ⊢
    obtain ⟨d', out, h1, h2, h3⟩ := ih d hb
    exact ⟨d', _, (returns_goto (turn_bad now d (.frame m) h) rfl).2 ⟨out, h1, rfl⟩, h2, by simpa using h3⟩
  | packet pos len h ih =>
    intro d hb
    have hl : arrivalsAt m n pos = ⟨m, pos, len⟩ :: arrivalsAt m n (pos + len) := by
      unfold arrivalsAt; rw [packetsAt_packet h, List.map_cons]
    rw [hl, completions] at hb ⊢
    have hturn := turn_packet now d (.frame m) h
    have ht := turnOf_dispatch now n d m pos len
    generalize hnext : (dispatchPacket now false d ⟨m, n⟩ pos len).next = next at ht
    cases ht with
    | goto h1 h2 =>
      rw [h2, ← h1] at hb ⊢
      obtain ⟨d', out, e1, e2, e3⟩ := ih _ hb
      refine ⟨d', _, (returns_goto hturn hnext).2 ⟨out, e1, rfl⟩, ?_, ?_⟩
      · rw [e2, h1]; rfl
      · rw [nestedDispatches_append, nestedDispatches_packetOut, e3]; rfl
    | @nest b h1 h2 h3 h4 h5 =>
      rw [h2] at hb ⊢
      simp only [Option.toList_some, List.singleton_append, List.forall_mem_cons] at hb
      obtain ⟨d₁, o₁, r1, r2, r3⟩ := returns_quiet now .mfp (congrArg MultiframeState.data h1) h1
        (loudPacket_none.1 hb.1)
      have he : d₁.endMultiframe.mfp = { b with active := false } := by rw [← r2]; rfl
      obtain ⟨d', o₂, e1, e2, e3⟩ := ih d₁.endMultiframe (by rw [he]; exact hb.2)
      refine ⟨d', _, (returns_nest hturn hnext).2 ⟨d₁, o₁, o₂, r1, e1, rfl⟩, ?_, ?_⟩
      · rw [e2, he]
        show _ = afterArrivals (stepArrival d.mfp _).1 _
        rw [h2]
      · have hn : nestedDispatches o₁ = bufferDispatches b := by
          unfold nestedDispatches bufferDispatches
          rw [r3, packets_eq]
          exact List.filter_eq_self.2 (by simp [dispatchOf, Src.nested])
        rw [nestedDispatches_append, nestedDispatches_append, nestedDispatches_packetOut, hn, e3, he]
        rfl

/-- The arrivals of a run. -/
def runArrivals (cs : List Call) : List Arrival := cs.flatMap fun c => arrivals c.frame c.frameLen

/-- The same for runs. -/
theorem run_frames : ∀ (cs : List Call) (d : StdcDecoder),
    (∀ b ∈ completions d.mfp (runArrivals cs), loudPacket b = none) →
    ∃ d' out, Run d cs d' out ∧
      nestedDispatches out = (completions d.mfp (runArrivals cs)).flatMap bufferDispatches := by
  intro cs
  induction cs with
  | nil => intro d _; exact ⟨d, [], .nil d, rfl⟩
  | cons c cs ih =>
    intro d hb
    have hl : runArrivals (c :: cs) = arrivalsAt c.frame c.frameLen 0 ++ runArrivals cs := rfl
    rw [hl, completions_append] at hb ⊢
    obtain ⟨d₁, o₁, h1, h2, h3⟩ := returns_frame c.now 0 d fun b h => hb b (List.mem_append_left _ h)
    rw [← h2] at hb ⊢
    obtain ⟨d', o₂, h4, h5⟩ := ih d₁ fun b h => hb b (List.mem_append_right _ h)
    exact ⟨d', _, .cons h1 h4, by rw [nestedDispatches_append, h3, h5, List.flatMap_append]⟩

/-! ## The pieces of a packet -/

/-- A medium packet as the claim has it: not a multiframe packet itself, its length byte
right, its checksum right and not zero. -/
structure Inner (P : List UInt8) : Prop where
  length : 5 ≤ P.length ∧ P.length ≤ 257
  medium : 0x80 ≤ (P.getD 0 0).toNat ∧ (P.getD 0 0).toNat ≤ 0xBF
  notMultiframe : P.getD 0 0 ≠ Pkt.multiframeStart ∧ P.getD 0 0 ≠ Pkt.multiframeCont
  lengthByte : (P.getD 1 0).toNat + 2 = P.length
  nonzero : be16 (P.getD (P.length - 2) 0) (P.getD (P.length - 1) 0) ≠ 0
  checksum : be16 (P.getD (P.length - 2) 0) (P.getD (P.length - 1) 0) = crcOf (ofList P) 0 P.length

/-- The arrival is a packet with the descriptor `desc` that brings the bytes `chunk`. -/
structure Brings (desc : UInt8) (a : Arrival) (chunk : List UInt8) : Prop where
  desc : a.desc = desc
  len : a.len = chunk.length + 4
  bytes : Holds a.mem (a.pos + 2) chunk

/-- An arrival that is a multiframe packet. -/
def Arrival.multiframe (a : Arrival) : Bool := a.desc == Pkt.multiframeStart || a.desc == Pkt.multiframeCont

/-- The multiframe packets among the arrivals are one 0xBD packet that brings the first
chunk and 0xBE packets that bring the others, in order. -/
def Sends (l : List Arrival) (first : List UInt8) (others : List (List UInt8)) : Prop :=
  ∃ a r, l.filter Arrival.multiframe = a :: r ∧ Brings Pkt.multiframeStart a first ∧
    List.Forall₂ (Brings Pkt.multiframeCont) r others

/-- The bytes of the packet that are there when the buffer is parsed: those up to the
first of the later chunks with which all but two are. -/
def arrivedAt (L : ℕ) : ℕ → List (List UInt8) → ℕ
  | k, [] => k
  | k, c :: cs => if L - 2 ≤ k + c.length then k + c.length else arrivedAt L (k + c.length) cs

/-- Only multiframe packets matter to the reassembly. -/
theorem completions_filter (l : List Arrival) : ∀ s,
    completions s l = completions s (l.filter Arrival.multiframe) := by
  induction l with
  | nil => intro s; rfl
  | cons a l ih =>
    intro s
    by_cases h : a.multiframe = true
    · rw [List.filter_cons_of_pos h, completions, completions, ih]
    · have hs : stepArrival s a = (s, none) := by
        unfold stepArrival
        simp only [Arrival.multiframe, Bool.or_eq_true, beq_iff_eq, not_or] at h
        rw [if_neg (fun hc => h.1 hc.1), if_neg (fun hc => h.2 hc.1)]
      rw [List.filter_cons_of_neg h, completions, hs, ih]
      rfl

/-- The first `k` bytes of `P` have arrived. -/
def gathered (P : List UInt8) (k : ℕ) : MultiframeState :=
  { active := true, data := ofList (P.take k), totalLen := P.length, filled := k }

theorem completions_conts_inactive {r : List Arrival} {cs : List (List UInt8)}
    (hr : List.Forall₂ (Brings Pkt.multiframeCont) r cs) (hs : s.active = false) : completions s r = [] := by
  induction hr with
  | nil => rfl
  | @cons a c r cs h _ ih =>
    have e : stepArrival s a = (s, none) := by
      unfold stepArrival
      rw [if_neg (fun hc => absurd (h.desc.symm.trans hc.1) (by decide)),
        if_neg (fun hc => by rw [hs] at hc; exact absurd hc.2 Bool.false_ne_true)]
    rw [completions, e, ih]
    rfl

/-- A chunk is appended where the others end. -/
theorem appendState_gathered {a : Arrival} {c : List UInt8} {k : ℕ} (h : Brings Pkt.multiframeCont a c)
    (hL : P.length ≤ 257) (hc : P.take (k + c.length) = P.take k ++ c) (hk : k + c.length ≤ P.length) :
    appendState (gathered P k) a.mem a.pos a.len = gathered P (k + c.length) := by
  have hsz : (257 : ℤ) ≤ mfpSize := by decide
  have e : chunkLen (gathered P k) a.len = c.length := by
    unfold chunkLen
    rw [h.len, show (gathered P k).filled = k from rfl, if_neg (by omega)]
    omega
  have hk' : ((P.take k).length : ℤ) = k := by rw [List.length_take, min_eq_left (by omega)]
  unfold appendState
  rw [e, Int.toNat_natCast, h.bytes.slice]
  unfold gathered ofList
  rw [hc, ← blit_append, zero_add, hk']
  push_cast
  rfl

/-- **The later chunks complete one buffer**, with what has arrived by then. -/
theorem completions_conts {r : List Arrival} {cs : List (List UInt8)}
    (hr : List.Forall₂ (Brings Pkt.multiframeCont) r cs) (hL : P.length ≤ 257) (h2 : 2 ≤ P.length) :
    ∀ k, P = P.take k ++ cs.flatten → k ≤ P.length → cs ≠ [] →
      completions (gathered P k) r = [gathered P (arrivedAt P.length k cs)] := by
  induction hr with
  | nil => intro k _ _ h; exact absurd rfl h
  | @cons a c r cs h hr ih =>
    intro k hP hk _
    have hlen : P.length = k + (c.length + cs.flatten.length) := by
      conv_lhs => rw [hP]
      rw [List.length_append, List.length_take, min_eq_left hk, List.flatten_cons, List.length_append]
    have hsplit : P.take (k + c.length) = P.take k ++ c := by
      have e : (P.take k ++ c).length = k + c.length := by
        rw [List.length_append, List.length_take, min_eq_left hk]
      conv_lhs => rw [hP, List.flatten_cons, ← List.append_assoc]
      rw [← e, List.take_left']
      rfl
    have happ := appendState_gathered h hL hsplit (by omega)
    have hstep : stepArrival (gathered P k) a = _ :=
      (if_neg (fun hc => absurd (h.desc.symm.trans hc.1) (by decide))).trans (if_pos ⟨h.desc, rfl⟩)
    rw [happ] at hstep
    rw [completions, arrivedAt]
    by_cases hdone : P.length - 2 ≤ k + c.length
    · have hcomp : (gathered P (k + c.length)).complete = true := by
        unfold MultiframeState.complete gathered
        exact decide_eq_true (by dsimp only; omega)
      rw [hstep.trans (if_pos hcomp), if_pos hdone, completions_conts_inactive hr rfl]
      rfl
    · have hcomp : ¬(gathered P (k + c.length)).complete = true := by
        unfold MultiframeState.complete gathered
        rw [decide_eq_true_iff]
        dsimp only
        omega
      rw [hstep.trans (if_neg hcomp), if_neg hdone]
      refine ih (k + c.length) ?_ (by omega) ?_
      · conv_lhs => rw [hP]
        rw [hsplit, List.flatten_cons, List.append_assoc]
      · -- the last chunk would have completed the packet
        rintro rfl
        rw [List.flatten_nil, List.length_nil] at hlen
        omega

/-! ## The buffer that is parsed -/

/-- What the walk of the buffer finds: one packet of the whole length, if its checksum holds. -/
theorem packetsAt_gathered {k : ℕ} (hP : Inner P) (h2 : 2 ≤ k) :
    packetsAt (ofList (P.take k)) P.length 0 =
      if CrcOk (ofList (P.take k)) 0 P.length then [(0, (P.length : ℤ))] else [] := by
  have hl := hP.length
  have hget : ∀ j, j < 2 → ofList (P.take k) (j : ℕ) = P.getD j 0 := by
    intro j hj
    rw [ofList_natCast, List.getD_eq_getElem?_getD, List.getElem?_take_of_lt (by omega), ← List.getD_eq_getElem?_getD]
  have h0 : ofList (P.take k) 0 = P.getD 0 0 := hget 0 (by omega)
  have h1 : ofList (P.take k) (0 + 1) = P.getD 1 0 := hget 1 (by omega)
  have hlen : pktLength (ofList (P.take k)) P.length 0 = P.length := by
    have := hP.lengthByte
    have := hP.medium
    simp only [pktLength_eq, h0, h1, shift7_eq_zero, shift6_eq_two]
    rw [if_neg (by omega), if_pos (by omega), if_neg (by omega)]
    omega
  have hne : ofList (P.take k) 0 ≠ 0x00 ∧ ofList (P.take k) 0 ≠ 0xFF := by
    have := hP.medium
    rw [h0]
    constructor <;> intro hc <;> rw [hc] at this
    · exact absurd this.1 (by decide)
    · exact absurd this.2 (by decide)
  have hf : Found (ofList (P.take k)) P.length 0 P.length := ⟨by omega, hne.1, hne.2, hlen, by omega, by omega⟩
  have hstop : packetsAt (ofList (P.take k)) P.length (0 + P.length) = [] :=
    packetsAt_stop (look_stop_of_ge (by omega))
  split
  · rename_i hc
    rw [packetsAt_packet (look_packet.2 ⟨hf, hc⟩), hstop]
  · rename_i hc
    rw [packetsAt_bad (look_bad.2 ⟨hf, hc⟩), hstop]

theorem loudPacket_gathered {k : ℕ} (hP : Inner P) (h2 : 2 ≤ k) : loudPacket (gathered P k) = none := by
  rw [loudPacket_none]
  intro q hq
  have hq' : q ∈ packetsAt (ofList (P.take k)) P.length 0 := hq
  rw [packetsAt_gathered hP h2] at hq'
  split at hq'
  · have h0 : (gathered P k).data 0 = P.getD 0 0 := by
      show ofList (P.take k) (0 : ℕ) = _
      rw [ofList_natCast, List.getD_eq_getElem?_getD, List.getElem?_take_of_lt (by omega),
        ← List.getD_eq_getElem?_getD]
    rw [List.mem_singleton.1 hq', h0]
    exact ⟨fun h => hP.notMultiframe.1 h.1, fun h => hP.notMultiframe.2 h.1⟩
  · exact absurd hq' List.not_mem_nil

theorem slice_ofList_self : slice (ofList P) 0 P.length = P := holds_ofList

/-- **The buffer dispatches `P`** exactly when what has not arrived is zero. -/
theorem bufferDispatches_gathered {k : ℕ} (hP : Inner P) (h2 : 2 ≤ k) :
    bufferDispatches (gathered P k) = [(true, 0, (P.length : ℤ), P)] ↔ ∀ b ∈ P.drop k, b = 0 := by
  rw [← ofList_take_eq]
  have e : bufferDispatches (gathered P k) =
      (packetsAt (ofList (P.take k)) P.length 0).map (dispatchOf true (ofList (P.take k))) := by
    unfold bufferDispatches
    rw [packets_eq]
    rfl
  rw [e, packetsAt_gathered hP h2]
  constructor
  · intro h
    split at h
    · -- the dispatched bytes are `P`, so the buffer agrees with it
      have hs : slice (ofList (P.take k)) 0 P.length = P := by
        simpa [dispatchOf] using h
      funext j
      rcases lt_or_ge j 0 with hj | hj
      · rw [ofList_of_neg hj, ofList_of_neg hj]
      obtain ⟨i, rfl⟩ := Int.eq_ofNat_of_zero_le hj
      show ofList (P.take k) (i : ℕ) = ofList P (i : ℕ)
      by_cases hi : i < P.length
      · have := slice_getD (m := ofList (P.take k)) (i := 0) hi 0
        rw [hs, zero_add] at this
        rw [← this, ofList_natCast]
      · rw [ofList_natCast, ofList_natCast, List.getD_eq_default _ _ (by simp; omega),
          List.getD_eq_default _ _ (by omega)]
    · exact absurd h (by simp)
  · intro h
    have hl := hP.length
    have hc : CrcOk (ofList P) 0 P.length := by
      right
      rw [← hP.checksum]
      congr 1
      · rw [show (0 : ℤ) + P.length - 2 = ((P.length - 2 : ℕ) : ℤ) by omega, ofList_natCast]
      · rw [show (0 : ℤ) + P.length - 1 = ((P.length - 1 : ℕ) : ℤ) by omega, ofList_natCast]
    rw [h, if_pos hc]
    simp [dispatchOf, slice_ofList_self]

theorem arrivedAt_ge {L : ℕ} : ∀ (cs : List (List UInt8)) (k : ℕ), k ≤ arrivedAt L k cs := by
  intro cs
  induction cs with
  | nil => intro k; exact le_rfl
  | cons c cs ih =>
    intro k
    unfold arrivedAt
    split
    · omega
    · exact le_trans (by omega) (ih _)

/-- **A run that brings the pieces of `P`** returns, and its nested dispatches are those of
the one buffer the pieces complete. -/
theorem run_sends {first : List UInt8} {others : List (List UInt8)} {cs : List Call} (hP : Inner P)
    (hfirst : 2 ≤ first.length) (hne : others ≠ []) (hsplit : P = first ++ others.flatten) (d : StdcDecoder)
    (hs : Sends (runArrivals cs) first others) :
    ∃ d' out, Run d cs d' out ∧
      nestedDispatches out = bufferDispatches (gathered P (arrivedAt P.length first.length others)) := by
  obtain ⟨a, r, hl, ha, hr⟩ := hs
  have hlen := hP.length
  have htake : P.take first.length = first := by rw [hsplit, List.take_left']; rfl
  have hfl : first.length ≤ P.length := by rw [hsplit, List.length_append]; omega
  have hget : ∀ j : ℕ, j < 2 → a.mem (a.pos + 2 + j) = P.getD j 0 := by
    intro j hj
    rw [ha.bytes.getD (k := j) (by omega) 0, hsplit, List.getD_append _ _ _ _ (by omega)]
  have h0 : a.mem (a.pos + 2) = P.getD 0 0 := by simpa using hget 0 (by omega)
  have h1 : a.mem (a.pos + 3) = P.getD 1 0 := by
    have := hget 1 (by omega)
    rwa [show a.pos + 2 + ((1 : ℕ) : ℤ) = a.pos + 3 by push_cast; ring] at this
  have hstart : startState false a.mem a.pos a.len = gathered P first.length := by
    have hb : (first.length : ℤ) ≤ mfpSize := by
      have : (257 : ℤ) ≤ mfpSize := by decide
      omega
    have hinner : innerLen a.mem a.pos = P.length := by
      have := hP.medium
      have := hP.lengthByte
      simp only [innerLen, h0, h1, shift7_eq_zero, shift6_eq_two]
      rw [if_neg (by omega), if_pos (by omega)]
      omega
    unfold startState gathered
    rw [ha.len, hinner, htake, show min ((first.length : ℤ) + 4 - 4) mfpSize = first.length by omega]
    simp only [Bool.false_eq_true, if_false, Int.toNat_natCast, ha.bytes.slice]
  have hcomp : completions d.mfp (runArrivals cs) = [gathered P (arrivedAt P.length first.length others)] := by
    have hstep : stepArrival d.mfp a = (startState false a.mem a.pos a.len, none) :=
      if_pos ⟨ha.desc, by rw [ha.len]; omega⟩
    rw [completions_filter, hl, completions, hstep, hstart, completions_conts hr hlen.2 (by omega) first.length
      (by rw [htake]; exact hsplit) hfl hne]
    rfl
  have h2 : 2 ≤ arrivedAt P.length first.length others := le_trans hfirst (arrivedAt_ge _ _)
  obtain ⟨d', out, hrun, hout⟩ := run_frames cs d (by
    rw [hcomp]
    intro b hb
    rw [List.mem_singleton.1 hb]
    exact loudPacket_gathered hP h2)
  exact ⟨d', out, hrun, by rw [hout, hcomp]; simp⟩

/-- `P` as a packet of a layout. -/
def Inner.packet (hP : Inner P) : Packet :=
  ⟨P, by have := hP.length; omega, Or.inr ⟨hP.medium.1, hP.medium.2, hP.lengthByte.symm⟩⟩

/-- `P` in a frame by itself is dispatched. -/
theorem direct_reception (hP : Inner P) (now : ℤ) (d : StdcDecoder) :
    ∃ d' out, Parses now d (ofList P) 640 d' out ∧ dispatches out = [(false, 0, (P.length : ℤ), P)] := by
  have hl := hP.length
  have hlay : layout [.packet hP.packet] = P := by simp [layout, Item.bytes, Inner.packet]
  have hv : hP.packet.Valid := by
    right
    show be16 (ofList P _) (ofList P _) = _
    rw [show (hP.packet.bytes.length : ℤ) = P.length from rfl,
      show (0 : ℤ) + P.length - 2 = ((P.length - 2 : ℕ) : ℤ) by omega,
      show (0 : ℤ) + P.length - 1 = ((P.length - 1 : ℕ) : ℤ) by omega, ofList_natCast, ofList_natCast]
    exact hP.checksum
  obtain ⟨d', out, h1, h2⟩ := parses_layout (laysOut_ofList [.packet hP.packet] (n := 640) (by
    rw [hlay]; omega)) (by
      intro p hp
      rw [List.mem_singleton, Item.packet.injEq] at hp
      rw [hp]
      exact hP.notMultiframe.2) now d
  rw [hlay] at h1
  refine ⟨d', out, h1, h2.trans ?_⟩
  unfold expectedDispatches
  rw [show laidOut 0 [.packet hP.packet] = [(0, hP.packet)] from rfl,
    List.filter_cons_of_pos (by simpa using hv)]
  rfl

/-- **Multiframe reassembly against direct reception.** For every packet `P` and every
split of it into a first chunk of two bytes or more and later chunks, sent by the
multiframe packets of a run of frames, from every decoder state: the run returns, and
what it dispatches out of the buffer is `P`, once and whole, as in a frame by itself,
exactly when the bytes of `P` still missing at the first 0xBE packet with which all but
two have arrived are zero. -/
theorem multiframe_reassembly {first : List UInt8} {others : List (List UInt8)} (hP : Inner P)
    (hfirst : 2 ≤ first.length) (hne : others ≠ []) (hsplit : P = first ++ others.flatten) :
    (∀ now d, ∃ d' out, Parses now d (ofList P) 640 d' out ∧ dispatches out = [(false, 0, (P.length : ℤ), P)]) ∧
    ∀ (d : StdcDecoder) (cs : List Call), Sends (runArrivals cs) first others →
      ∃ d' out, Run d cs d' out ∧ (nestedDispatches out = [(true, 0, (P.length : ℤ), P)] ↔
        ∀ b ∈ P.drop (arrivedAt P.length first.length others), b = 0) := by
  refine ⟨direct_reception hP, fun d cs hs => ?_⟩
  obtain ⟨d', out, hrun, hout⟩ := run_sends hP hfirst hne hsplit d hs
  refine ⟨d', out, hrun, ?_⟩
  rw [hout]
  exact bufferDispatches_gathered hP (le_trans hfirst (arrivedAt_ge _ _))

/-! ## Two splits of one packet -/

/-- A packet of five bytes. -/
def shortInner : List UInt8 := [0x80, 0x03, 0x00, 0xF7, 0x86]

theorem shortInner_inner : Inner shortInner :=
  ⟨by decide, by decide, by decide, by decide, by decide, by decide +kernel⟩

/-- The packet in three chunks: its header, its third byte, its checksum. -/
def splitFrame : Mem :=
  ofList [0xBD, 0x04, 0x80, 0x03, 0xB9, 0x03, 0xBE, 0x03, 0x00, 0xFF, 0x40, 0xBE, 0x04, 0xF7, 0x86, 0x49, 0x78]

theorem splitFrame_sends : Sends (runArrivals [⟨0, splitFrame, 640⟩]) [0x80, 0x03] [[0x00], [0xF7, 0x86]] := by
  have h : packetsAt splitFrame 640 0 = [(0, 6), (6, 5), (11, 6)] := by decide +kernel
  have hr : runArrivals [⟨0, splitFrame, 640⟩] = [⟨splitFrame, 0, 6⟩, ⟨splitFrame, 6, 5⟩, ⟨splitFrame, 11, 6⟩] := by
    simp [runArrivals, arrivals, arrivalsAt, h]
  rw [hr]
  exact ⟨_, _, rfl, ⟨by decide, by decide, by decide⟩,
    .cons ⟨by decide, by decide, by decide⟩ (.cons ⟨by decide, by decide, by decide⟩ .nil)⟩

/-- Split before its checksum, the packet is dispatched without it. -/
theorem splitFrame_loses : Inner shortInner ∧ shortInner = [0x80, 0x03] ++ [[0x00], [0xF7, 0x86]].flatten ∧
    Sends (runArrivals [⟨0, splitFrame, 640⟩]) [0x80, 0x03] [[0x00], [0xF7, 0x86]] ∧
    ¬∃ d' out, Run .create [⟨0, splitFrame, 640⟩] d' out ∧ nestedDispatches out = [(true, 0, 5, shortInner)] := by
  refine ⟨shortInner_inner, rfl, splitFrame_sends, ?_⟩
  rintro ⟨d', out, hr, h⟩
  obtain ⟨d₁, o, hr', h'⟩ := run_sends shortInner_inner (by decide) (by decide) rfl .create splitFrame_sends
  rw [(hr.unique hr').2, h'] at h
  have := (bufferDispatches_gathered shortInner_inner (by decide)).1 h
  exact absurd this (by decide +kernel)

/-- The packet in two chunks, all but its checksum first. -/
def wholeFrame : Mem :=
  ofList [0xBD, 0x05, 0x80, 0x03, 0x00, 0x70, 0x4B, 0xBE, 0x04, 0xF7, 0x86, 0x49, 0x78]

theorem wholeFrame_arrives : ∃ d' out, Run .create [⟨0, wholeFrame, 640⟩] d' out ∧
    nestedDispatches out = [(true, 0, 5, shortInner)] := by
  have h : packetsAt wholeFrame 640 0 = [(0, 7), (7, 6)] := by decide +kernel
  have hr : runArrivals [⟨0, wholeFrame, 640⟩] = [⟨wholeFrame, 0, 7⟩, ⟨wholeFrame, 7, 6⟩] := by
    simp [runArrivals, arrivals, arrivalsAt, h]
  have hs : Sends (runArrivals [⟨0, wholeFrame, 640⟩]) [0x80, 0x03, 0x00] [[0xF7, 0x86]] := by
    rw [hr]
    exact ⟨_, _, rfl, ⟨by decide, by decide, by decide⟩, .cons ⟨by decide, by decide, by decide⟩ .nil⟩
  obtain ⟨d', out, hrun, hiff⟩ :=
    (multiframe_reassembly shortInner_inner (by decide) (by decide) rfl).2 .create _ hs
  exact ⟨d', out, hrun, hiff.2 (by decide +kernel)⟩

end InmarsatSniffer.Stdc
