import InmarsatSniffer.Proof.Walk

/-!
# Calls of `parse_packets`, without the fuel

`Returns` says that the loop ends from a position, with which decoder and which
events; `Ends` that it ends at all. Both are characterised by the first turn
(`returns_stop`, `returns_goto`, `returns_nest` and the same for `Ends`), so little
later unfolds `parseFrom`.

`Quiet` turns leave the reassembly alone; `dispatch_start` and `dispatch_cont` are
the two that do not.
-/

namespace InmarsatSniffer.Stdc

open ByteMem

variable {now n pos : ℤ} {d d' d₁ : StdcDecoder} {src : Src} {out o : List Event}

/-- The loop ends from `pos` on. -/
def Returns (now : ℤ) (d : StdcDecoder) (src : Src) (n pos : ℤ) (d' : StdcDecoder) (out : List Event) : Prop :=
  ∃ f, parseFrom now f d src n pos = ⟨true, d', out⟩

theorem parses_iff {frame : Mem} {frameLen : ℤ} :
    Parses now d frame frameLen d' out ↔ Returns now d (.frame frame) frameLen 0 d' out := Iff.rfl

/-! ## Fuel -/

/-- More fuel changes nothing once the loop has ended, and otherwise only adds events. -/
theorem parseFrom_succ (now : ℤ) : ∀ (f : ℕ) (d : StdcDecoder) (src : Src) (n pos : ℤ),
    ((parseFrom now f d src n pos).done = true →
      parseFrom now (f + 1) d src n pos = parseFrom now f d src n pos) ∧
    (parseFrom now f d src n pos).out <+: (parseFrom now (f + 1) d src n pos).out := by
  intro f
  induction f with
  | zero =>
    intro d src n pos
    exact ⟨fun h => by simp [parseFrom] at h, by simp [parseFrom]⟩
  | succ f ih =>
    intro d src n pos
    rw [parseFrom, parseFrom]
    generalize parseTurn now d src n pos = t
    obtain ⟨td, tout, tnext⟩ := t
    cases tnext with
    | stop => exact ⟨fun _ => rfl, List.prefix_rfl⟩
    | goto p =>
      obtain ⟨h1, h2⟩ := ih td src n p
      refine ⟨fun h => ?_, ?_⟩
      · dsimp only at h ⊢
        rw [h1 h]
      · exact (List.prefix_append_right_inj _).2 h2
    | nest len p =>
      obtain ⟨h1, h2⟩ := ih td .mfp len 0
      dsimp only
      by_cases hd : (parseFrom now f td .mfp len 0).done = true
      · obtain ⟨h3, h4⟩ := ih (parseFrom now f td .mfp len 0).dec.endMultiframe src n p
        rw [if_pos hd, h1 hd, if_pos hd]
        refine ⟨fun h => ?_, ?_⟩
        · dsimp only at h
          rw [h3 h]
        · exact (List.prefix_append_right_inj _).2 h4
      · rw [if_neg hd]
        refine ⟨fun h => absurd h (by simp), ?_⟩
        split
        · dsimp only
          rw [List.append_assoc, List.prefix_append_right_inj]
          exact h2.trans (List.prefix_append _ _)
        · exact (List.prefix_append_right_inj _).2 h2

theorem parseFrom_mono {f f' : ℕ} (hf : f ≤ f') (h : (parseFrom now f d src n pos).done = true) :
    parseFrom now f' d src n pos = parseFrom now f d src n pos := by
  induction hf with
  | refl => rfl
  | step hm ih => rw [(parseFrom_succ now _ d src n pos).1 (by rw [ih]; exact h), ih]

theorem parseFrom_out_mono {f f' : ℕ} (hf : f ≤ f') :
    (parseFrom now f d src n pos).out <+: (parseFrom now f' d src n pos).out := by
  induction hf with
  | refl => exact List.prefix_rfl
  | step hm ih => exact ih.trans (parseFrom_succ now _ d src n pos).2

/-- A call returns in one way only. -/
theorem Returns.unique (h : Returns now d src n pos d' out) (h' : Returns now d src n pos d₁ o) :
    d' = d₁ ∧ out = o := by
  obtain ⟨f, hf⟩ := h
  obtain ⟨f', hf'⟩ := h'
  have e1 := parseFrom_mono (le_max_left f f') (by rw [hf])
  have e2 := parseFrom_mono (le_max_right f f') (by rw [hf'])
  rw [e1, hf, hf'] at e2
  injection e2 with _ h1 h2
  exact ⟨h1, h2⟩

/-- A run goes in one way only. -/
theorem Run.unique {cs : List Call} (h : Run d cs d' out) (h' : Run d cs d₁ o) : d' = d₁ ∧ out = o := by
  induction h generalizing d₁ o with
  | nil d => cases h'; exact ⟨rfl, rfl⟩
  | cons hp _ ih =>
    cases h' with
    | cons hp' hs' =>
      obtain ⟨rfl, rfl⟩ := Returns.unique hp hp'
      obtain ⟨rfl, rfl⟩ := ih hs'
      exact ⟨rfl, rfl⟩

theorem Returns.fuel (h : Returns now d src n pos d' out) :
    ∃ f, ∀ f', f ≤ f' → parseFrom now f' d src n pos = ⟨true, d', out⟩ := by
  obtain ⟨f, hf⟩ := h
  exact ⟨f, fun f' hf' => by rw [parseFrom_mono hf' (by rw [hf]), hf]⟩

/-- The call returns at all. -/
def Ends (now : ℤ) (d : StdcDecoder) (src : Src) (n pos : ℤ) : Prop := ∃ d' out, Returns now d src n pos d' out

theorem ends_iff_done : Ends now d src n pos ↔ ∃ f, (parseFrom now f d src n pos).done = true := by
  constructor
  · rintro ⟨d', out, f, hf⟩
    exact ⟨f, by rw [hf]⟩
  · rintro ⟨f, hf⟩
    refine ⟨(parseFrom now f d src n pos).dec, (parseFrom now f d src n pos).out, f, ?_⟩
    rw [← hf]

/-- A call that is done with some fuel is a run. -/
theorem run_of_done {c : Call} (f : ℕ) (h : (parsePackets f c.now d c.frame c.frameLen).done = true) :
    Run d [c] (parsePackets f c.now d c.frame c.frameLen).dec (parsePackets f c.now d c.frame c.frameLen).out := by
  have hp : Parses c.now d c.frame c.frameLen (parsePackets f c.now d c.frame c.frameLen).dec
      (parsePackets f c.now d c.frame c.frameLen).out := ⟨f, by rw [← h]⟩
  have hrun := Run.cons hp (.nil _)
  rwa [List.append_nil] at hrun

/-! ## The first turn -/

section FirstTurn

variable {t : Turn}

theorem returns_stop (ht : parseTurn now d src n pos = t) (h : t.next = .stop) :
    Returns now d src n pos d' out ↔ d' = t.dec ∧ out = t.out := by
  constructor
  · rintro ⟨f, hf⟩
    cases f with
    | zero => simp [parseFrom] at hf
    | succ f =>
      rw [parseFrom, ht, h] at hf
      injection hf with _ h1 h2
      exact ⟨h1.symm, h2.symm⟩
  · rintro ⟨rfl, rfl⟩
    exact ⟨1, by rw [parseFrom, ht, h]⟩

theorem returns_goto {p : ℤ} (ht : parseTurn now d src n pos = t) (h : t.next = .goto p) :
    Returns now d src n pos d' out ↔ ∃ o, Returns now t.dec src n p d' o ∧ out = t.out ++ o := by
  constructor
  · rintro ⟨f, hf⟩
    cases f with
    | zero => simp [parseFrom] at hf
    | succ f =>
      rw [parseFrom, ht, h] at hf
      injection hf with h1 h2 h3
      exact ⟨_, ⟨f, by rw [← h1, ← h2]⟩, h3.symm⟩
  · rintro ⟨o, ⟨f, hf⟩, rfl⟩
    exact ⟨f + 1, by rw [parseFrom, ht, h]; simp only [hf]⟩

theorem returns_nest {len p : ℤ} (ht : parseTurn now d src n pos = t) (h : t.next = .nest len p) :
    Returns now d src n pos d' out ↔ ∃ d₁ o₁ o₂, Returns now t.dec .mfp len 0 d₁ o₁ ∧
      Returns now d₁.endMultiframe src n p d' o₂ ∧ out = t.out ++ o₁ ++ o₂ := by
  constructor
  · rintro ⟨f, hf⟩
    cases f with
    | zero => simp [parseFrom] at hf
    | succ f =>
      rw [parseFrom, ht, h] at hf
      simp only at hf
      split at hf
      · rename_i hd
        injection hf with h1 h2 h3
        exact ⟨_, _, _, ⟨f, by rw [← hd]⟩, ⟨f, by rw [← h1, ← h2]⟩, h3.symm⟩
      · injection hf with h1
        exact absurd h1 (by simp)
  · rintro ⟨d₁, o₁, o₂, h1, h2, rfl⟩
    obtain ⟨f, hf⟩ := h1.fuel
    obtain ⟨g, hg⟩ := h2.fuel
    refine ⟨max f g + 1, ?_⟩
    rw [parseFrom, ht, h]
    simp only [hf _ (le_max_left f g), hg _ (le_max_right f g), if_true]

theorem ends_stop (ht : parseTurn now d src n pos = t) (h : t.next = .stop) : Ends now d src n pos :=
  ⟨_, _, (returns_stop ht h).2 ⟨rfl, rfl⟩⟩

theorem ends_goto {p : ℤ} (ht : parseTurn now d src n pos = t) (h : t.next = .goto p) :
    Ends now d src n pos ↔ Ends now t.dec src n p := by
  constructor
  · rintro ⟨d', out, hr⟩
    obtain ⟨o, ho, -⟩ := (returns_goto ht h).1 hr
    exact ⟨d', o, ho⟩
  · rintro ⟨d', o, ho⟩
    exact ⟨d', _, (returns_goto ht h).2 ⟨o, ho, rfl⟩⟩

theorem ends_nest {len p : ℤ} (ht : parseTurn now d src n pos = t) (h : t.next = .nest len p) :
    Ends now d src n pos ↔
      ∃ d₁ o₁, Returns now t.dec .mfp len 0 d₁ o₁ ∧ Ends now d₁.endMultiframe src n p := by
  constructor
  · rintro ⟨d', out, hr⟩
    obtain ⟨d₁, o₁, o₂, h1, h2, -⟩ := (returns_nest ht h).1 hr
    exact ⟨d₁, o₁, h1, d', o₂, h2⟩
  · rintro ⟨d₁, o₁, h1, d', o₂, h2⟩
    exact ⟨d', _, (returns_nest ht h).2 ⟨d₁, o₁, o₂, h1, h2, rfl⟩⟩

end FirstTurn

/-! ## The turns -/

variable {len : ℤ}

theorem turn_stop (now : ℤ) (d : StdcDecoder) (src : Src) (h : (look ⟨src.mem d, n⟩ pos).val = .stop) :
    parseTurn now d src n pos = ⟨d, accesses (look ⟨src.mem d, n⟩ pos), .stop⟩ := by
  unfold parseTurn; simp only [h]

theorem turn_pad (now : ℤ) (d : StdcDecoder) (src : Src) (h : (look ⟨src.mem d, n⟩ pos).val = .pad) :
    parseTurn now d src n pos = ⟨d, accesses (look ⟨src.mem d, n⟩ pos), .goto (pos + 1)⟩ := by
  unfold parseTurn; simp only [h]

theorem turn_bad (now : ℤ) (d : StdcDecoder) (src : Src) (h : (look ⟨src.mem d, n⟩ pos).val = .bad len) :
    parseTurn now d src n pos = ⟨d, accesses (look ⟨src.mem d, n⟩ pos), .goto (pos + len)⟩ := by
  unfold parseTurn; simp only [h]

/-- The turn's output for a dispatched packet. -/
def packetOut (now n : ℤ) (d : StdcDecoder) (src : Src) (pos len : ℤ) : List Event :=
  accesses (look ⟨src.mem d, n⟩ pos) ++
    .dispatch src.nested now pos len (slice (src.mem d) pos len.toNat) ::
      (dispatchPacket now src.nested d ⟨src.mem d, n⟩ pos len).out

theorem turn_packet (now : ℤ) (d : StdcDecoder) (src : Src) (h : (look ⟨src.mem d, n⟩ pos).val = .packet len) :
    parseTurn now d src n pos =
      ⟨(dispatchPacket now src.nested d ⟨src.mem d, n⟩ pos len).dec, packetOut now n d src pos len,
        (dispatchPacket now src.nested d ⟨src.mem d, n⟩ pos len).next⟩ := by
  unfold parseTurn packetOut; simp only [h]

/-- A packet that leaves the reassembly alone, in the state `s` of the reassembly. -/
def Quiet (s : MultiframeState) (desc : UInt8) (len : ℤ) : Prop :=
  ¬(desc = Pkt.multiframeStart ∧ 5 ≤ len) ∧ ¬(desc = Pkt.multiframeCont ∧ s.active = true)

instance (s : MultiframeState) (desc : UInt8) (len : ℤ) : Decidable (Quiet s desc len) :=
  inferInstanceAs (Decidable (_ ∧ _))

theorem dispatch_quiet (now n : ℤ) (nested : Bool) (m : Mem) (pos : ℤ) (h : Quiet d.mfp (m pos) len) :
    (dispatchPacket now nested d ⟨m, n⟩ pos len).dec.mfp = d.mfp ∧
      (dispatchPacket now nested d ⟨m, n⟩ pos len).next = .goto (pos + len) := by
  obtain ⟨h1, h2⟩ := h
  unfold dispatchPacket
  simp only
  by_cases c1 : m pos = Pkt.egcDouble1 ∨ m pos = Pkt.egcDouble2
  · rw [if_pos c1]
    exact ⟨rfl, rfl⟩
  rw [if_neg c1]
  by_cases c2 : m pos = Pkt.multiframeStart
  · have hl : len < 5 := by by_contra hc; exact h1 ⟨c2, by omega⟩
    rw [if_pos c2]
    unfold decodeMultiframeStart
    rw [if_pos hl]
    exact ⟨rfl, rfl⟩
  rw [if_neg c2]
  by_cases c3 : m pos = Pkt.multiframeCont
  · rw [if_pos c3, if_neg (fun c4 => h2 ⟨c3, c4⟩)]
    exact ⟨rfl, rfl⟩
  · rw [if_neg c3]
    exact ⟨rfl, rfl⟩

/-- The total length `decode_multiframe_start` derives from the encapsulated packet. -/
def innerLen (m : Mem) (pos : ℤ) : ℤ :=
  if m (pos + 2) >>> 7 = 0 then (m (pos + 2) &&& 0x0F).toNat + 1
  else if m (pos + 2) >>> 6 = 2 then (m (pos + 3)).toNat + 2
  else 256

/-- The reassembly after a 0xBD packet. -/
def startState (nested : Bool) (m : Mem) (pos len : ℤ) : MultiframeState :=
  { active := true
    data := ofList (slice (if nested then zero else m) (pos + 2) (min (len - 4) mfpSize).toNat)
    totalLen := innerLen m pos
    filled := min (len - 4) mfpSize }

theorem decodeMultiframeStart_val {nested : Bool} {s : MultiframeState} {m : Mem} (h : 5 ≤ len) :
    (decodeMultiframeStart nested s ⟨m, n⟩ pos len).val = startState nested m pos len := by
  have e : max (len - 2 - 2) 0 = len - 4 := by omega
  unfold decodeMultiframeStart innerLength startState innerLen
  rw [if_neg (by omega)]
  cases nested <;>
    simp [Frame.read, Frame.readN, Logged.val_ite, e]

theorem dispatch_start (now n : ℤ) (nested : Bool) (d : StdcDecoder) {m : Mem} (hd : m pos = Pkt.multiframeStart) (h : 5 ≤ len) :
    (dispatchPacket now nested d ⟨m, n⟩ pos len).dec = { d with mfp := startState nested m pos len } ∧
      (dispatchPacket now nested d ⟨m, n⟩ pos len).next = .goto (pos + len) := by
  unfold dispatchPacket
  simp only [hd]
  rw [if_neg (by decide), if_pos trivial]
  exact ⟨by rw [decodeMultiframeStart_val h], rfl⟩

/-- The bytes a 0xBE packet brings. -/
def chunkLen (s : MultiframeState) (len : ℤ) : ℤ :=
  if max (len - 2 - 2) 0 > mfpSize - s.filled then mfpSize - s.filled else max (len - 2 - 2) 0

/-- The reassembly after a 0xBE packet. -/
def appendState (s : MultiframeState) (m : Mem) (pos len : ℤ) : MultiframeState :=
  { s with
    data := blit s.data s.filled (slice m (pos + 2) (chunkLen s len).toNat)
    filled := s.filled + chunkLen s len }

theorem appendChunk_val {s : MultiframeState} {m : Mem} :
    (appendChunk s ⟨m, n⟩ pos len).val = appendState s m pos len := rfl

theorem dispatch_cont (now n : ℤ) (nested : Bool) (len : ℤ) {m : Mem} (hd : m pos = Pkt.multiframeCont) (h : d.mfp.active = true) :
    (dispatchPacket now nested d ⟨m, n⟩ pos len).dec = { d with mfp := appendState d.mfp m pos len } ∧
      (dispatchPacket now nested d ⟨m, n⟩ pos len).next =
        if (appendState d.mfp m pos len).complete then .nest d.mfp.totalLen (pos + len) else .goto (pos + len) := by
  unfold dispatchPacket
  simp only [hd]
  rw [if_neg (by decide), if_neg (by decide), if_pos trivial, if_pos h]
  exact ⟨rfl, rfl⟩

/-! ## Invariants of runs -/

/-- **What every dispatch and the end of a reassembly keep, every call keeps.** -/
theorem parseFrom_inv {I : StdcDecoder → Prop}
    (hdisp : ∀ nested d fr pos len, (look fr pos).val = .packet len → I d →
      I (dispatchPacket now nested d fr pos len).dec)
    (hend : ∀ d, I d → I d.endMultiframe) :
    ∀ (f : ℕ) (d : StdcDecoder) (src : Src) (n pos : ℤ), I d → I (parseFrom now f d src n pos).dec := by
  have hturn : ∀ d src n pos, I d → I (parseTurn now d src n pos).dec := by
    intro d src n pos hd
    cases hl : (look ⟨src.mem d, n⟩ pos).val with
    | stop => rw [turn_stop _ _ _ hl]; exact hd
    | pad => rw [turn_pad _ _ _ hl]; exact hd
    | bad len => rw [turn_bad _ _ _ hl]; exact hd
    | packet len => rw [turn_packet _ _ _ hl]; exact hdisp _ _ _ _ _ hl hd
  intro f
  induction f with
  | zero => intro d src n pos hd; exact hd
  | succ f ih =>
    intro d src n pos hd
    have ht := hturn d src n pos hd
    rw [parseFrom]
    dsimp only
    cases (parseTurn now d src n pos).next with
    | stop => exact ht
    | goto p => exact ih _ _ _ _ ht
    | nest len p =>
      dsimp only
      have h1 := ih (parseTurn now d src n pos).dec .mfp len 0 ht
      split
      · exact ih _ _ _ _ (hend _ h1)
      · exact h1

/-- The same for every reachable decoder. -/
theorem Reachable.inv {I : StdcDecoder → Prop} (h0 : I .create)
    (hdisp : ∀ now nested d fr pos len, (look fr pos).val = .packet len → I d →
      I (dispatchPacket now nested d fr pos len).dec)
    (hend : ∀ d, I d → I d.endMultiframe) {d : StdcDecoder} (h : Reachable d) : I d := by
  obtain ⟨cs, out, hr⟩ := h
  have key : ∀ {d cs d' out}, Run d cs d' out → I d → I d' := by
    intro d cs d' out hr
    induction hr with
    | nil d => exact id
    | @cons d d₁ d₂ c cs out outs hp _ ih =>
      intro hd
      obtain ⟨f, hf⟩ := hp
      have h1 := parseFrom_inv (hdisp c.now) hend f d (.frame c.frame) c.frameLen 0 hd
      rw [show parseFrom c.now f d (.frame c.frame) c.frameLen 0 = ⟨true, d₁, out⟩ from hf] at h1
      exact ih h1
  exact key hr h0

/-! ## What is dispatched -/

/-- The packets handed to their decoder, in order: at which depth, where, and their bytes. -/
def dispatches (out : List Event) : List (Bool × ℤ × ℤ × List UInt8) :=
  out.filterMap fun
    | .dispatch nested _ pos pktLen bytes => some (nested, pos, pktLen, bytes)
    | _ => none

@[simp] theorem dispatches_nil : dispatches [] = [] := rfl

@[simp] theorem dispatches_append (a b : List Event) : dispatches (a ++ b) = dispatches a ++ dispatches b :=
  List.filterMap_append

@[simp] theorem dispatches_accesses {α : Type} (c : Acc α) : dispatches (accesses c) = [] := by
  simp [dispatches, accesses, List.filterMap_map]

@[simp] theorem dispatches_messages (ms : List StdcMessage) : dispatches (ms.map .message) = [] := by
  simp [dispatches, List.filterMap_map]

theorem dispatches_dispatchPacket (nested : Bool) (d : StdcDecoder) (fr : Frame) (pos len : ℤ) :
    dispatches (dispatchPacket now nested d fr pos len).out = [] := by
  unfold dispatchPacket
  simp only
  split_ifs <;> simp

/-- The dispatch event of a packet in the memory `m`. -/
def dispatchOf (nested : Bool) (m : Mem) (p : ℤ × ℤ) : Bool × ℤ × ℤ × List UInt8 :=
  (nested, p.1, p.2, slice m p.1 p.2.toNat)

theorem dispatches_packetOut :
    dispatches (packetOut now n d src pos len) = [dispatchOf src.nested (src.mem d) (pos, len)] := by
  unfold packetOut
  rw [dispatches_append, dispatches_accesses, List.nil_append]
  show _ :: dispatches _ = _
  rw [dispatches_dispatchPacket]
  rfl

end InmarsatSniffer.Stdc
