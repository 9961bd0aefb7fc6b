import InmarsatSniffer.Proof.EgcTable

/-!
# Complete EGC messages

A slot is emitted when its 0xB2 packet without the continuation bit arrives, whatever
else has arrived. `Complete` says what the message of a whole slot is, `Whole` when the
slot is whole.

* `egc_complete`: **an emitted message is complete if its slot is whole**, and only then.
* `loneFinal_incomplete`: a frame with a last packet only.
-/

namespace InmarsatSniffer.Stdc

open ByteMem

variable {bs : List EgcBody} {b : EgcBody} {m : StdcMessage}

/-- The payloads that some packets bring, by index: of the packets of an index, the last. -/
def payloads (bs : List EgcBody) : ℤ → List UInt8 :=
  bs.foldl (fun c b => Function.update c b.idx b.payload) fun _ => []

/-- The message has every part up to that of the last packet `b`, and nothing but them. -/
structure Complete (bs : List EgcBody) (b : EgcBody) (m : StdcMessage) : Prop where
  received : ∀ i, 0 ≤ i → i ≤ b.idx → ∃ a ∈ bs, a.idx = i
  text : m.text = textOf b.presentation (payloads bs) b.idx

/-- The first 128 bytes of the payloads up to that of `b` have all their text. -/
def Uncut (bs : List EgcBody) (b : EgcBody) : Prop :=
  ∀ i, 0 ≤ i → i ≤ b.idx → partText b.presentation (content bs i) = partText b.presentation (payloads bs i)

/-- Every part up to that of the last packet `b` has arrived, their texts fit the text of a
message, and parts above have no text or find no place. -/
structure Whole (bs : List EgcBody) (b : EgcBody) : Prop where
  received : ∀ i, 0 ≤ i → i ≤ b.idx → ∃ a ∈ bs, a.idx = i
  fits : (textOf b.presentation (payloads bs) b.idx).length ≤ textCapacity
  above : (textOf b.presentation (payloads bs) b.idx).length = textCapacity ∨
    ∀ i, b.idx < i → partText b.presentation (content bs i) = []

theorem payloads_append (bs : List EgcBody) (b : EgcBody) :
    payloads (bs ++ [b]) = Function.update (payloads bs) b.idx b.payload := by
  unfold payloads; rw [List.foldl_append]; rfl

/-- What a slot holds of a payload: its first 128 bytes. -/
theorem content_eq (bs : List EgcBody) (i : ℤ) : content bs i = (payloads bs i).take 128 := by
  induction bs using List.reverseRecOn with
  | nil => rfl
  | append_singleton bs b ih =>
    rw [content_append, payloads_append]
    by_cases h : i = b.idx
    · rw [h, Function.update_self, Function.update_self]
      rfl
    · rw [Function.update_of_ne h, Function.update_of_ne h, ih]

theorem uncut_of_short (h : ∀ a ∈ bs, a.payload.length ≤ 128) : Uncut bs b := by
  intro i _ _
  have hlen : (payloads bs i).length ≤ 128 := by
    induction bs using List.reverseRecOn with
    | nil => exact Nat.zero_le _
    | append_singleton bs a ih =>
      rw [payloads_append]
      by_cases hi : i = a.idx
      · rw [hi, Function.update_self]
        exact h a (by simp)
      · rw [Function.update_of_ne hi]
        exact ih fun a' ha' => h a' (by simp [ha'])
  rw [content_eq, List.take_of_length_le hlen]

/-! ## The text of the parts -/

theorem textOf_congr {pres : ℕ} {f g : ℤ → List UInt8} {top : ℤ}
    (h : ∀ i, 0 ≤ i → i ≤ top → partText pres (f i) = partText pres (g i)) : textOf pres f top = textOf pres g top := by
  unfold textOf
  apply List.flatMap_congr
  intro j hj
  rw [List.mem_range] at hj
  exact h _ (by omega) (by omega)

/-- The text up to a higher index goes on with that of the parts between. -/
theorem textOf_split {pres : ℕ} {f : ℤ → List UInt8} {k top : ℤ} (h0 : 0 ≤ k) (h : k ≤ top) : textOf pres f top =
    textOf pres f k ++ (List.range (top - k).toNat).flatMap fun j : ℕ => partText pres (f (k + 1 + j)) := by
  unfold textOf
  rw [show (top + 1).toNat = (k + 1).toNat + (top - k).toNat by omega, List.range_add, List.flatMap_append,
    List.flatMap_map]
  congr 1
  apply List.flatMap_congr
  intro j _
  rw [show (((k + 1).toNat + j : ℕ) : ℤ) = k + 1 + j by omega]

theorem topIdx_ge (h : b ∈ bs) : b.idx ≤ topIdx bs := by
  induction bs using List.reverseRecOn with
  | nil => exact absurd h (by simp)
  | append_singleton bs a ih =>
    rw [topIdx_append]
    rcases List.mem_append.1 h with h | h
    · exact le_max_of_le_left (ih h)
    · rw [List.mem_singleton.1 h]
      exact le_max_right _ _

/-- The text above the last packet's part is empty when every part of it is, and only then. -/
theorem above_empty (bs : List EgcBody) (b : EgcBody) :
    ((List.range (topIdx bs - b.idx).toNat).flatMap fun j : ℕ =>
        partText b.presentation (content bs (b.idx + 1 + j))) = [] ↔
      ∀ i, b.idx < i → partText b.presentation (content bs i) = [] := by
  rw [List.flatMap_eq_nil_iff]
  constructor
  · intro h i hi
    rcases lt_or_ge (topIdx bs) i with htop | htop
    · rw [content_above htop, partText_nil]
    · have := h (i - b.idx - 1).toNat (by rw [List.mem_range]; omega)
      rwa [show b.idx + 1 + ((i - b.idx - 1).toNat : ℤ) = i by omega] at this
  · intro h j _
    exact h _ (by omega)

/-- A text followed by another and cut is the first one when it just fits or nothing follows. -/
theorem take_append_eq_left (s t : List UInt8) : (s ++ t).take textCapacity = s ↔
    s.length ≤ textCapacity ∧ (s.length = textCapacity ∨ t = []) := by
  constructor
  · intro h
    have hlen := congrArg List.length h
    rw [List.length_take, List.length_append] at hlen
    refine ⟨by omega, ?_⟩
    rcases t with _ | ⟨c, t⟩
    · exact Or.inr rfl
    · rw [List.length_cons] at hlen
      exact Or.inl (by omega)
  · rintro ⟨hle, h | h⟩
    · rw [List.take_append_of_le_length h.ge, List.take_of_length_le hle]
    · rw [h, List.append_nil, List.take_of_length_le hle]

/-- **A slot's message is complete when the slot is whole**, and only then. -/
theorem reassembly_complete (hb : b ∈ bs) (hm : reassembly bs b = some m) (hu : Uncut bs b) :
    Complete bs b m ↔ Whole bs b := by
  have hidx := idx_bounds b
  have htext : m.text = (textOf b.presentation (content bs) (topIdx bs)).take textCapacity := by
    unfold reassembly at hm
    dsimp only at hm
    split at hm
    · exact absurd hm (by simp)
    · injection hm with hm
      rw [← hm]
  rw [textOf_split hidx.1 (topIdx_ge hb), textOf_congr hu] at htext
  have hiff := take_append_eq_left (textOf b.presentation (payloads bs) b.idx)
    ((List.range (topIdx bs - b.idx).toNat).flatMap fun j : ℕ => partText b.presentation (content bs (b.idx + 1 + j)))
  rw [← htext, above_empty] at hiff
  exact ⟨fun h => ⟨h.received, (hiff.1 h.text).1, (hiff.1 h.text).2⟩,
    fun h => ⟨h.received, hiff.2 ⟨h.fits, h.above⟩⟩⟩

/-! ## Runs -/

/-- The packets that stand in the slot of `p` when it has arrived after `pre`. -/
def slotBodies (pre : List EgcPacket) (p : EgcPacket) : List EgcBody :=
  (opensAfter pre p.body.msgId ++ [p]).map EgcPacket.body

/-- With one message id there is always room. -/
theorem allRoomy_of_single {ps : List EgcPacket} {id : ℕ} (h : ∀ p ∈ ps, p.body.msgId = id) : AllRoomy ps := by
  have hother : ∀ qs : List EgcPacket, (∀ q ∈ qs, q.body.msgId = id) → ∀ i, i ≠ id → opensAfter qs i = [] := by
    intro qs
    induction qs using List.reverseRecOn with
    | nil => exact fun _ _ _ => rfl
    | append_singleton qs q ih =>
      intro hqs i hi
      rw [opensAfter_append]
      unfold opensStep
      rw [hqs q (by simp), Function.update_of_ne hi]
      exact ih (fun q' hq' => hqs q' (by simp [hq'])) i hi
  intro pre p post e hnil
  have hp : p.body.msgId = id := h p (by simp [e])
  have hnone : ∀ i, opensAfter pre i = [] := by
    intro i
    by_cases hi : i = id
    · rw [hi, ← hp]
      exact hnil
    · exact hother pre (fun q hq => h q (by simp [e, hq])) i hi
  refine ⟨⟨∅, by decide, fun i hi => absurd (hnone i) hi⟩, fun i q hq => ?_⟩
  rw [hnone i] at hq
  exact absurd hq (by simp)

/-- **EGC reassembly and completeness.** For every run of frames of a new decoder whose
EGC packets are of one message id, in whatever order and with whatever losses: the
messages are those of its packets in order; in a run in which every slot is whole when it
is emitted, every reassembled message is complete; and where the 128 bytes kept of each
payload have all its text, a reassembled message is complete exactly when its slot was
whole. -/
theorem egc_complete {cs : List Call} {d' : StdcDecoder} {out : List Event} {id : ℕ}
    (hrun : Run .create cs d' out) (hid : ∀ p ∈ egcPackets out, p.body.msgId = id) :
    egcMessages out = (egcRun EgcSlots.init (egcPackets out)).2 ∧
    ((∀ pre p post, egcPackets out = pre ++ p :: post → p.body.final = true →
        Whole (slotBodies pre p) p.body ∧ Uncut (slotBodies pre p) p.body) →
      ∀ pre p post, egcPackets out = pre ++ p :: post → ∀ m, reassembledAt pre p = some m →
        Complete (slotBodies pre p) p.body m) ∧
    ∀ pre p post, egcPackets out = pre ++ p :: post → ∀ m, reassembledAt pre p = some m →
      Uncut (slotBodies pre p) p.body → (Complete (slotBodies pre p) p.body m ↔ Whole (slotBodies pre p) p.body) := by
  have hemit : ∀ pre p post, egcPackets out = pre ++ p :: post → ∀ m, reassembledAt pre p = some m →
      p.body.final = true ∧ reassembly (slotBodies pre p) p.body = some m := by
    intro pre p post e m hm
    rw [reassembledAt_eq (allRoomy_of_single hid) e] at hm
    split at hm
    · exact ⟨by assumption, hm⟩
    · exact absurd hm (by simp)
  have hmem : ∀ pre (p : EgcPacket), p.body ∈ slotBodies pre p := fun pre p =>
    List.mem_map_of_mem (by simp)
  refine ⟨(congrArg Prod.snd (run_egc hrun)).symm, fun hw pre p post e m hm => ?_, fun pre p post e m hm hu => ?_⟩
  · obtain ⟨hfin, hr⟩ := hemit pre p post e m hm
    obtain ⟨hwhole, hu⟩ := hw pre p post e hfin
    exact (reassembly_complete (hmem pre p) hr hu).2 hwhole
  · exact reassembly_complete (hmem pre p) (hemit pre p post e m hm).2 hu

/-! ## One last packet, alone and behind its first -/

/-- The last packet of a message, alone in a frame. -/
def loneFinal : Mem := ofList [0xB2, 0x0C, 0x00, 0x00, 0x00, 0x01, 0x01, 0x00, 0x00, 0x00, 0x00, 0x42, 0x00, 0x00]

/-- The last packet. -/
def finalPacket : EgcPacket := ⟨0, {
  isPart2 := true, serviceCode := 0, continuation := false, priority := 0, repetition := 0, msgId := 1, pktNo := 1
  presentation := 0, payload := [0x42] }⟩

/-- The packet before it. -/
def firstPacket : EgcPacket := ⟨0, {
  isPart2 := false, serviceCode := 0, continuation := true, priority := 0, repetition := 0, msgId := 1, pktNo := 1
  presentation := 0, payload := [0x41] }⟩

/-- A last packet alone is sent as a message, and its part 0 is missing. -/
theorem loneFinal_incomplete : ∃ d' out, Run .create [⟨0, loneFinal, 640⟩] d' out ∧
    (∀ p ∈ egcPackets out, p.body.msgId = 1) ∧
    ¬∀ pre p post, egcPackets out = pre ++ p :: post → ∀ m, reassembledAt pre p = some m →
      Complete (slotBodies pre p) p.body m := by
  have hps : egcPackets (parsePackets 4 0 .create loneFinal 640).out = [finalPacket] := by decide +kernel
  refine ⟨_, _, run_of_done (c := ⟨0, loneFinal, 640⟩) 4 (by decide +kernel), ?_, fun h => ?_⟩
  · dsimp only
    rw [hps]
    decide
  · have hm : reassembledAt [] finalPacket = some {
        type := .egcDouble1, descriptor := 0xB1, messageId := 1, text := [0x42], textLen := 1 } := by decide +kernel
    have hidx : finalPacket.body.idx = 1 := by decide
    obtain ⟨a, ha, e⟩ := (h [] finalPacket [] hps _ hm).received 0 le_rfl (by rw [hidx]; decide)
    rw [show slotBodies [] finalPacket = [finalPacket.body] from rfl, List.mem_singleton] at ha
    rw [ha, hidx] at e
    exact absurd e (by decide)

/-- Both packets in a frame. -/
def bothPackets : Mem :=
  ofList [0xB1, 0x0C, 0x00, 0x80, 0x00, 0x01, 0x01, 0x00, 0x00, 0x00, 0x00, 0x41, 0x00, 0x00,
    0xB2, 0x0C, 0x00, 0x00, 0x00, 0x01, 0x01, 0x00, 0x00, 0x00, 0x00, 0x42, 0x00, 0x00]

theorem bothPackets_whole : Whole (slotBodies [firstPacket] finalPacket) finalPacket.body where
  received := fun i h0 h1 => by
    have hidx : finalPacket.body.idx = 1 := by decide
    rw [hidx] at h1
    obtain rfl | rfl : i = 0 ∨ i = 1 := by omega
    · exact ⟨firstPacket.body, by decide, by decide⟩
    · exact ⟨finalPacket.body, by decide, by decide⟩
  fits := by decide
  above := Or.inr fun i hi => by
    have htop : topIdx (slotBodies [firstPacket] finalPacket) = finalPacket.body.idx := by decide
    rw [content_above (by rw [htop]; exact hi), partText_nil]

theorem bothPackets_complete : ∃ d' out, Run .create [⟨0, bothPackets, 640⟩] d' out ∧
    egcPackets out = [firstPacket, finalPacket] ∧ ∃ m, reassembledAt [firstPacket] finalPacket = some m ∧
      Complete (slotBodies [firstPacket] finalPacket) finalPacket.body m := by
  have hps : egcPackets (parsePackets 6 0 .create bothPackets 640).out = [firstPacket, finalPacket] := by
    decide +kernel
  have hrun := run_of_done (d := .create) (c := ⟨0, bothPackets, 640⟩) 6 (by decide +kernel)
  have hm : reassembledAt [firstPacket] finalPacket = some {
      type := .egcDouble1, descriptor := 0xB1, messageId := 1, text := [0x41, 0x42], textLen := 2 } := by
    decide +kernel
  have hc := egc_complete hrun (by dsimp only; rw [hps]; decide : ∀ p ∈ egcPackets _, p.body.msgId = 1)
  exact ⟨_, _, hrun, hps, _, hm, (hc.2.2 [firstPacket] finalPacket [] hps _ hm
    (uncut_of_short (by decide))).2 bothPackets_whole⟩

end InmarsatSniffer.Stdc
