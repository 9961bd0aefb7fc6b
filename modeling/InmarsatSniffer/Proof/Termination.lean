import InmarsatSniffer.Proof.Nested

/-!
# When `parse_packets` returns

A call on a frame can only hang in the recursion into the reassembly buffer, and
there only on a `Reentrant` buffer. `completions` lists the buffers a frame completes.

* `mfpOk_reachable`: the bounds on the reassembly that every reachable decoder keeps.
* `ends_frame`: **a call returns exactly when the frame completes no reentrant buffer**.
* `parse_terminates`: the same for reachable decoders, and for whole runs.
-/

namespace InmarsatSniffer.Stdc

open ByteMem

variable {now n pos len : ℤ} {d d' : StdcDecoder} {s : MultiframeState} {m : Mem} {nested : Bool} {fr : Frame}

/-! ## Bounds on the reassembly -/

/-- The bounds a reassembly under way keeps. -/
structure MfpOk (s : MultiframeState) : Prop where
  nonneg : 0 ≤ s.filled
  size : s.filled ≤ mfpSize
  pos : 1 ≤ s.totalLen
  total : s.totalLen ≤ 257

theorem innerLen_bounds (m : Mem) (pos : ℤ) : 1 ≤ innerLen m pos ∧ innerLen m pos ≤ 257 := by
  unfold innerLen
  split_ifs
  · have h : (m (pos + 2) &&& 0x0F).toNat < 16 := by
      rw [UInt8.toNat_and]
      exact Nat.and_lt_two_pow _ (n := 4) (by decide)
    omega
  · have := (m (pos + 3)).toNat_lt
    omega
  · omega

theorem mfpOk_start (h : 5 ≤ len) : MfpOk (startState nested m pos len) := by
  have h1 : (startState nested m pos len).filled = min (len - 4) mfpSize := rfl
  have := innerLen_bounds m pos
  have hsz : (0 : ℤ) ≤ mfpSize := by decide
  exact ⟨by rw [h1]; omega, by rw [h1]; omega, this.1, this.2⟩

theorem MfpOk.append (h : MfpOk s) (m : Mem) (pos len : ℤ) : MfpOk (appendState s m pos len) := by
  have h1 := chunkLen_nonneg h.size len
  have h2 := chunkLen_le s len
  have h3 := h.nonneg
  exact ⟨show 0 ≤ s.filled + _ by omega, show s.filled + _ ≤ mfpSize by omega, h.pos, h.total⟩

theorem MfpOk.completed (h : MfpOk s) (ha : s.active = true) (hc : s.complete = true) : Completed s :=
  ⟨ha, by simpa [MultiframeState.complete] using hc, h.size, h.pos, h.total⟩

/-- A reassembly under way is within bounds. -/
def MfpInv (d : StdcDecoder) : Prop := d.mfp.active = true → MfpOk d.mfp

theorem mfpInv_dispatch (hd : MfpInv d) : MfpInv (dispatchPacket now nested d fr pos len).dec := by
  obtain ⟨m, n⟩ := fr
  by_cases h1 : m pos = Pkt.multiframeStart ∧ 5 ≤ len
  · rw [(dispatch_start _ _ _ _ h1.1 h1.2).1]
    exact fun _ => mfpOk_start h1.2
  by_cases h2 : m pos = Pkt.multiframeCont ∧ d.mfp.active = true
  · rw [(dispatch_cont _ _ _ _ h2.1 h2.2).1]
    exact fun _ => (hd h2.2).append _ _ _
  · unfold MfpInv
    rw [(dispatch_quiet _ _ _ _ _ ⟨h1, h2⟩).1]
    exact hd

theorem mfpInv_end (d : StdcDecoder) : MfpInv d.endMultiframe := fun h => absurd h Bool.false_ne_true

/-- **Every reachable decoder** keeps its reassembly within bounds. -/
theorem mfpOk_reachable (h : Reachable d) : MfpInv d :=
  h.inv (fun h => absurd h Bool.false_ne_true) (fun _ _ _ _ _ _ _ hd => mfpInv_dispatch hd)
    (fun d _ => mfpInv_end d)

/-! ## The buffers a frame completes -/

/-- A packet handed to its decoder by a call that is not nested: the frame, the position
and the length. -/
structure Arrival where
  mem : Mem
  pos : ℤ
  len : ℤ

/-- The descriptor of an arrival. -/
def Arrival.desc (a : Arrival) : UInt8 := a.mem a.pos

/-- The arrivals of a frame from `pos` on. -/
def arrivalsAt (m : Mem) (n pos : ℤ) : List Arrival := (packetsAt m n pos).map fun q => ⟨m, q.1, q.2⟩

/-- The arrivals of a frame. -/
def arrivals (m : Mem) (n : ℤ) : List Arrival := arrivalsAt m n 0

/-- What an arrival makes of the reassembly, and the buffer it completes. -/
def stepArrival (s : MultiframeState) (a : Arrival) : MultiframeState × Option MultiframeState :=
  if a.desc = Pkt.multiframeStart ∧ 5 ≤ a.len then (startState false a.mem a.pos a.len, none)
  else if a.desc = Pkt.multiframeCont ∧ s.active = true then
    let s' := appendState s a.mem a.pos a.len
    if s'.complete = true then ({ s' with active := false }, some s') else (s', none)
  else (s, none)

/-- The buffers a list of arrivals completes, in order. -/
def completions : MultiframeState → List Arrival → List MultiframeState
  | _, [] => []
  | s, a :: r => (stepArrival s a).2.toList ++ completions (stepArrival s a).1 r

/-- **No buffer the frame completes is reentrant.** -/
def NoReentry (s : MultiframeState) (frame : Mem) (frameLen : ℤ) : Prop :=
  ∀ b ∈ completions s (arrivals frame frameLen), ¬Reentrant b

instance : DecidablePred Reentrant := fun s =>
  match h : loudPacket s with
  | none => .isFalse (by unfold Reentrant; rw [h]; exact id)
  | some (_, _) => decidable_of_iff _ (by unfold Reentrant; rw [h])

/-- An inactive reassembly does not matter. -/
theorem completions_inactive : ∀ (l : List Arrival) (s s' : MultiframeState), s.active = false →
    s'.active = false → completions s l = completions s' l := by
  intro l
  induction l with
  | nil => intro s s' _ _; rfl
  | cons a l ih =>
    intro s s' h h'
    unfold completions stepArrival
    simp only [h, h', Bool.false_eq_true, and_false, if_false]
    split
    · rfl
    · rw [ih s s' h h']

/-- How the turn of an arrival acts on the reassembly. -/
inductive TurnOf (d d₁ : StdcDecoder) (a : Arrival) : Next → Prop where
  | goto (h1 : d₁.mfp = (stepArrival d.mfp a).1) (h2 : (stepArrival d.mfp a).2 = none) : TurnOf d d₁ a (.goto (a.pos + a.len))
  | nest {b : MultiframeState} (h1 : d₁.mfp = b) (h2 : stepArrival d.mfp a = ({ b with active := false }, some b))
      (h3 : d.mfp.active = true) (h4 : b = appendState d.mfp a.mem a.pos a.len) (h5 : b.complete = true) :
      TurnOf d d₁ a (.nest b.totalLen (a.pos + a.len))

/-- **The turn of a packet in a frame** acts on the reassembly as `stepArrival` does. -/
theorem turnOf_dispatch (now n : ℤ) (d : StdcDecoder) (m : Mem) (pos len : ℤ) :
    TurnOf d (dispatchPacket now false d ⟨m, n⟩ pos len).dec ⟨m, pos, len⟩
      (dispatchPacket now false d ⟨m, n⟩ pos len).next := by
  by_cases h1 : m pos = Pkt.multiframeStart ∧ 5 ≤ len
  · obtain ⟨e1, e2⟩ := dispatch_start now n false d h1.1 h1.2
    have hs : stepArrival d.mfp ⟨m, pos, len⟩ = (startState false m pos len, none) := if_pos h1
    rw [e1, e2]
    exact .goto (by rw [hs]) (by rw [hs])
  by_cases h2 : m pos = Pkt.multiframeCont ∧ d.mfp.active = true
  · obtain ⟨e1, e2⟩ := dispatch_cont now n false len h2.1 h2.2
    rw [e1, e2]
    have hs : stepArrival d.mfp ⟨m, pos, len⟩ = _ := (if_neg h1).trans (if_pos h2)
    by_cases hc : (appendState d.mfp m pos len).complete = true
    · rw [if_pos hc]
      exact .nest (b := appendState d.mfp m pos len) rfl (hs.trans (if_pos hc)) h2.2 rfl hc
    · rw [if_neg hc]
      replace hs := hs.trans (if_neg hc)
      exact .goto (by rw [hs]) (by rw [hs])
  · obtain ⟨e1, e2⟩ := dispatch_quiet now n false (d := d) m pos ⟨h1, h2⟩
    have hs : stepArrival d.mfp ⟨m, pos, len⟩ = _ := (if_neg h1).trans (if_neg h2)
    rw [e2]
    exact .goto (by rw [e1, hs]) (by rw [hs])

/-- **A call returns exactly when no buffer it completes is reentrant.** -/
theorem ends_frame (pos : ℤ) : ∀ d : StdcDecoder, MfpInv d →
    (Ends now d (.frame m) n pos ↔ ∀ b ∈ completions d.mfp (arrivalsAt m n pos), ¬Reentrant b) := by
  induction pos using walk_induction (m := m) (n := n) with
  | stop pos h =>
    intro d _
    unfold arrivalsAt
    rw [packetsAt_stop h]
    exact iff_of_true (ends_stop (turn_stop now d (.frame m) h) rfl) (by simp [completions])
  | pad pos h ih =>
    intro d hd
    unfold arrivalsAt at ih ⊢
    rw [packetsAt_pad h, ends_goto (turn_pad now d (.frame m) h) rfl]
    exact ih d hd
  | bad pos len h ih =>
    intro d hd
    unfold arrivalsAt at ih ⊢
    rw [packetsAt_bad h, ends_goto (turn_bad now d (.frame m) h) rfl]
    exact ih d hd
  | packet pos len h ih =>
    intro d hd
    have hl : arrivalsAt m n pos = ⟨m, pos, len⟩ :: arrivalsAt m n (pos + len) := by
      unfold arrivalsAt
      rw [packetsAt_packet h, List.map_cons]
    rw [hl, completions]
    have hturn := turn_packet now d (.frame m) h
    have hd₁ : MfpInv (dispatchPacket now false d ⟨m, n⟩ pos len).dec := mfpInv_dispatch hd
    have ht := turnOf_dispatch now n d m pos len
    generalize hnext : (dispatchPacket now false d ⟨m, n⟩ pos len).next = next at ht
    cases ht with
    | goto h1 h2 => rw [ends_goto hturn hnext, h2, ← h1, Option.toList_none, List.nil_append]; exact ih _ hd₁
    | @nest b h1 h2 h3 h4 h5 =>
      -- the completed buffer is parsed, then the rest of the frame
      subst h4
      have hnest := ends_nested now (((hd h3).append m pos len).completed h3 h5) h1
      rw [ends_nest hturn hnext, h2]
      simp only [Option.toList_some, List.singleton_append, List.forall_mem_cons]
      rw [← hnest]
      have hrest : ∀ d₂ : StdcDecoder, Ends now d₂.endMultiframe (.frame m) n (pos + len) ↔
          ∀ b ∈ completions { appendState d.mfp m pos len with active := false } (arrivalsAt m n (pos + len)),
            ¬Reentrant b := by
        intro d₂
        rw [ih _ (mfpInv_end d₂), completions_inactive _ d₂.endMultiframe.mfp
          { appendState d.mfp m pos len with active := false } rfl rfl]
      constructor
      · rintro ⟨d₂, o₂, hr, he⟩
        exact ⟨⟨d₂, o₂, hr⟩, (hrest d₂).1 he⟩
      · rintro ⟨⟨d₂, o₂, hr⟩, hb⟩
        exact ⟨d₂, o₂, hr, (hrest d₂).2 hb⟩

/-- A run goes through when each of its calls does. -/
theorem run_of_ends : ∀ (cs : List Call) (d : StdcDecoder),
    (∀ pre c post d₁ out, cs = pre ++ c :: post → Run d pre d₁ out → ∃ d₂ o, Parses c.now d₁ c.frame c.frameLen d₂ o) →
    ∃ d' out, Run d cs d' out := by
  intro cs
  induction cs with
  | nil => intro d _; exact ⟨d, [], .nil d⟩
  | cons c cs ih =>
    intro d h
    obtain ⟨d₁, o₁, h1⟩ := h [] c cs d [] rfl (.nil d)
    obtain ⟨d', out, h2⟩ := ih d₁ (fun pre c' post d₂ out e hr => by
      exact h (c :: pre) c' post d₂ _ (by rw [e]; rfl) (.cons h1 hr))
    exact ⟨d', _, .cons h1 h2⟩

/-- A 0xBD packet that announces a packet of four bytes and brings all of it, a 0xBE
packet, and behind it a 0xBE packet that brings nothing. -/
def hangingFrame : Mem := ofList [0xBD, 0x06, 0xBE, 0x02, 0x00, 0x00, 0x00, 0x00, 0xBE, 0x02, 0x00, 0x00]

end InmarsatSniffer.Stdc
