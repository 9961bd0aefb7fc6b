import InmarsatSniffer.Proof.EgcComplete
import InmarsatSniffer.Proof.EgcInterleave

/-!
# EGC messages and time

A slot is expired 60 s behind its last packet. `find_egc_slot` tests that when it looks for
a slot to take, not when it finds the one of the id.

* `findEgcSlot_cases`: which slot a packet gets.
* `Chains`, `chains_step`: whatever is lost or evicted, a slot in use holds a chain of the
  latest packets of its id, **as long as no packet comes to an expired slot of its own id**.
* `egc_timeout`: then each reassembled message is made of the packets of one chain.
* `stale_mixed`: a packet that comes to an expired slot of its id, and mixes two messages.
-/

namespace InmarsatSniffer.Stdc

open ByteMem

variable {slots : EgcSlots} {ps pre post : List EgcPacket} {p q : EgcPacket} {m : StdcMessage} {id : ℕ} {now : ℤ}

/-! ## Chains -/

/-- Packets that are at most 60 s apart. -/
def Chain (E : List EgcPacket) : Prop := E.IsChain fun p q => q.now - p.now ≤ egcTimeoutSec

/-- **The parts of the message have been received in a chain**: of the packets of its id,
the latest, which are at most 60 s apart, and nothing else. -/
def OfChain (pre : List EgcPacket) (p : EgcPacket) (m : StdcMessage) : Prop :=
  ∃ E, E <:+ packetsOf p.body.msgId (pre ++ [p]) ∧ Chain E ∧ reassembly (E.map EgcPacket.body) p.body = some m

/-- The packet does not come to an expired slot of its id. -/
def InTime (slots : EgcSlots) (p : EgcPacket) : Prop :=
  ∀ i, (slots i).active = true → (slots i).messageId = p.body.msgId → p.now - (slots i).lastSeen ≤ egcTimeoutSec

/-- A list in which no packet comes to an expired slot of its id. -/
def AllInTime (ps : List EgcPacket) : Prop :=
  ∀ pre p post, ps = pre ++ p :: post → InTime (egcRun EgcSlots.init pre).1 p

theorem AllInTime.init (h : AllInTime (ps ++ [p])) : AllInTime ps := fun pre q post e =>
  h pre q (post ++ [p]) (by rw [e, List.append_assoc]; rfl)

/-- **The slots hold chains**, one for each id in use. -/
structure Chains (ps : List EgcPacket) (slots : EgcSlots) : Prop where
  unique : OnePerId slots
  chain : ∀ i, (slots i).active = true →
    ∃ E, E <:+ packetsOf (slots i).messageId ps ∧ Chain E ∧ InUse (slots i) E

/-! ## One packet -/

/-- **Which slot a packet gets**: that of its id, or one that is taken for it. -/
theorem findEgcSlot_cases (slots : EgcSlots) (now : ℤ) (id : ℕ) :
    (∃ i, (slots i).active = true ∧ (slots i).messageId = id ∧ findEgcSlot slots now id = (slots, i)) ∨
      (∀ i, (slots i).active = true → (slots i).messageId ≠ id) ∧
        ∃ i, findEgcSlot slots now id = (Function.update slots i (EgcReassembly.fresh id now), i) := by
  unfold findEgcSlot
  cases hf : (List.finRange egcMaxReassembly).find? fun i => (slots i).active && (slots i).messageId == id with
  | some i =>
    have hi := List.find?_some hf
    simp only [Bool.and_eq_true, beq_iff_eq] at hi
    exact Or.inl ⟨i, hi.1, hi.2, rfl⟩
  | none =>
    right
    refine ⟨fun i ha e => ?_, ?_⟩
    · have := List.find?_eq_none.1 hf i (List.mem_finRange i)
      simp [ha, e] at this
    · dsimp only
      split
      · exact ⟨_, rfl⟩
      · exact ⟨_, rfl⟩

/-- A chain goes on with a packet in time. -/
theorem Chain.snoc {E : List EgcPacket} (h : Chain E) (hlast : ∀ q, E.getLast? = some q → p.now - q.now ≤ egcTimeoutSec) :
    Chain (E ++ [p]) := by
  unfold Chain
  rw [List.isChain_append]
  refine ⟨h, List.isChain_singleton p, fun q hq r hr => ?_⟩
  obtain rfl : p = r := by simpa using hr
  exact hlast q hq

/-- The packets in the slot that a packet gets, with the packet. -/
theorem found_chain (h : Chains ps slots) (hp : InTime slots p) :
    ∃ E i slots', findEgcSlot slots p.now p.body.msgId = (slots', i) ∧ E <:+ packetsOf p.body.msgId ps ∧
      Chain (E ++ [p]) ∧ Gathers (slots' i) (E.map EgcPacket.body) ∧ (slots' i).complete = false ∧
        (slots' i).active = true ∧ (slots' i).messageId = p.body.msgId ∧ (∀ j, j ≠ i → slots' j = slots j) ∧
          ∀ j, j ≠ i → (slots j).active = true → (slots j).messageId ≠ p.body.msgId := by
  rcases findEgcSlot_cases slots p.now p.body.msgId with ⟨i, ha, hid, heq⟩ | ⟨hnone, i, heq⟩
  · obtain ⟨E, hE, hchain, huse⟩ := h.chain i ha
    refine ⟨E, i, slots, heq, hid ▸ hE, hchain.snoc fun q hq => ?_, huse.gathers, huse.unfinished, ha, hid,
      fun _ _ => rfl, fun j hj haj hidj => hj (h.unique j i haj ha (hidj.trans hid.symm))⟩
    obtain ⟨q', hq', hseen⟩ := huse.last
    obtain rfl : q' = q := Option.some.inj (hq'.symm.trans hq)
    rw [← hseen]
    exact hp i ha hid
  · -- a slot is taken, whoever had it
    have hself : Function.update slots i (EgcReassembly.fresh p.body.msgId p.now) i =
        EgcReassembly.fresh p.body.msgId p.now := Function.update_self _ _ _
    refine ⟨[], i, _, heq, List.nil_suffix, List.isChain_singleton p, ?_, ?_, ?_, ?_,
      fun j hj => Function.update_of_ne hj _ _, fun j _ haj => hnone j haj⟩
    · rw [hself]
      exact gathers_fresh _ _
    · rw [hself]
      rfl
    · rw [hself]
      rfl
    · rw [hself]
      rfl

/-- **One packet**: the slots hold chains behind it, and what is reassembled is of a chain. -/
theorem chains_step (h : Chains ps slots) (hp : InTime slots p) :
    Chains (ps ++ [p]) (egcStep slots p).slots ∧
      ∀ m, (egcStep slots p).reassembled = some m → OfChain ps p m := by
  obtain ⟨E, i, slots', hfound, hE, hchain, hgath, hunf, hact, hid, hothers, halone⟩ := found_chain h hp
  have hE' : E ++ [p] <:+ packetsOf p.body.msgId (ps ++ [p]) := by
    rw [packetsOf_append, packetsOf_cons_self]
    exact List.suffix_append_self_iff.2 hE
  have hstore : Gathers (p.store (slots' i)) ((E ++ [p]).map EgcPacket.body) := by
    rw [List.map_append]
    exact hgath.store
  have hcomplete : (p.store (slots' i)).complete = p.body.final := by
    unfold EgcPacket.store
    rw [hunf, Bool.false_or]
  -- a slot in use that is not the packet's
  have hother : ∀ j, j ≠ i → ∀ slot, (Function.update slots' i slot) j = slots j := fun j hj slot =>
    (Function.update_of_ne hj _ _).trans (hothers j hj)
  have hkeep : ∀ j, j ≠ i → (slots j).active = true →
      ∃ E, E <:+ packetsOf (slots j).messageId (ps ++ [p]) ∧ Chain E ∧ InUse (slots j) E := fun j hj haj => by
    have hne : ¬p.body.msgId = (slots j).messageId := fun h => halone j hj haj h.symm
    rw [packetsOf_append, show packetsOf (slots j).messageId [p] = [] from List.filter_cons_of_neg (by simpa using hne),
      List.append_nil]
    exact h.chain j haj
  unfold egcStep
  rw [hfound]
  dsimp only
  cases hfin : p.body.final with
  | true =>
    rw [hfin] at hcomplete
    rw [tryEmitEgc_complete hstore hcomplete hid]
    dsimp only
    refine ⟨⟨fun j k hj hk heq => ?_, fun j hj => ?_⟩, fun m hm => ⟨E ++ [p], hE', hchain, hm⟩⟩
    · -- the slot is released
      have hji : j ≠ i := fun h => by simp [h] at hj
      have hki : k ≠ i := fun h => by simp [h] at hk
      rw [hother j hji] at hj heq
      rw [hother k hki] at hk heq
      exact h.unique j k hj hk heq
    · have hji : j ≠ i := fun h => by simp [h] at hj
      rw [hother j hji] at hj ⊢
      exact hkeep j hji hj
  | false =>
    rw [hfin] at hcomplete
    rw [tryEmitEgc_open hcomplete]
    dsimp only
    refine ⟨⟨fun j k hj hk heq => ?_, fun j hj => ?_⟩, fun m hm => by cases hm⟩
    · by_cases hji : j = i
      · by_cases hki : k = i
        · exact hji.trans hki.symm
        · rw [hother k hki] at hk heq
          rw [hji, Function.update_self] at heq
          exact absurd (heq.symm.trans hid) (halone k hki hk)
      · rw [hother j hji] at hj heq
        by_cases hki : k = i
        · rw [hki, Function.update_self] at heq
          exact absurd (heq.trans hid) (halone j hji hj)
        · rw [hother k hki] at hk heq
          exact h.unique j k hj hk heq
    · by_cases hji : j = i
      · rw [hji, Function.update_self]
        refine ⟨E ++ [p], ?_, hchain, hstore, hcomplete, p, List.getLast?_concat, rfl⟩
        rw [show (p.store (slots' i)).messageId = p.body.msgId from hid]
        exact hE'
      · rw [hother j hji] at hj ⊢
        exact hkeep j hji hj

/-! ## Runs -/

theorem chains_init : Chains [] EgcSlots.init :=
  ⟨fun _ _ h => absurd h Bool.false_ne_true, fun _ h => absurd h Bool.false_ne_true⟩

/-- **A list of packets** that come in time. -/
theorem chains_run (h : AllInTime ps) : Chains ps (egcRun EgcSlots.init ps).1 := by
  induction ps using List.reverseRecOn with
  | nil => exact chains_init
  | append_singleton ps p ih =>
    rw [egcRun_concat]
    exact (chains_step (ih h.init) (h ps p [] rfl)).1

/-- **EGC messages and time.** For every run of frames of a new decoder, with packets of
whatever ids, times and losses: the EGC messages are those of its EGC packets, and if no
packet comes to an expired slot of its own id, the parts of each reassembled message have
been received in a chain. -/
theorem egc_timeout {cs : List Call} {d' : StdcDecoder} {out : List Event} (hrun : Run .create cs d' out)
    (htime : AllInTime (egcPackets out)) :
    egcMessages out = (egcRun EgcSlots.init (egcPackets out)).2 ∧
      ∀ pre p post, egcPackets out = pre ++ p :: post → ∀ m, reassembledAt pre p = some m → OfChain pre p m := by
  refine ⟨(congrArg Prod.snd (run_egc hrun)).symm, fun pre p post heq m hm => ?_⟩
  have hpre : AllInTime pre := fun pre' q post' e =>
    htime pre' q (post' ++ p :: post) (by rw [heq, e, List.append_assoc]; rfl)
  exact (chains_step (chains_run hpre) (htime pre p post heq)).2 m hm

/-! ## Two packets, at once and 100 s apart -/

instance (slots : EgcSlots) (p : EgcPacket) : Decidable (InTime slots p) := by
  unfold InTime
  infer_instance

/-- The message of both packets of a frame is of a chain. -/
theorem bothPackets_chain : ∃ d' out, Run .create [⟨0, bothPackets, 640⟩] d' out ∧
    egcPackets out = [firstPacket, finalPacket] ∧ ∃ m, reassembledAt [firstPacket] finalPacket = some m ∧
      OfChain [firstPacket] finalPacket m := by
  have hps : egcPackets (parsePackets 6 0 .create bothPackets 640).out = [firstPacket, finalPacket] := by
    decide +kernel
  have hrun := run_of_done (d := .create) (c := ⟨0, bothPackets, 640⟩) 6 (by decide +kernel)
  have hm : reassembledAt [firstPacket] finalPacket = some {
      type := .egcDouble1, descriptor := 0xB1, messageId := 1, text := [0x41, 0x42], textLen := 2 } := by
    decide +kernel
  have htime : AllInTime (egcPackets (parsePackets 6 0 .create bothPackets 640).out) := by
    rw [hps]
    intro pre p post e
    rcases pre with _ | ⟨q, pre⟩
    · exact fun i h => absurd h Bool.false_ne_true
    · rcases pre with _ | ⟨q', pre⟩
      · obtain ⟨rfl, rfl, -⟩ : firstPacket = q ∧ finalPacket = p ∧ [] = post := by simpa using e
        decide +kernel
      · have hlen := congrArg List.length e
        simp at hlen
  exact ⟨_, _, hrun, hps, _, hm, (egc_timeout hrun htime).2 [firstPacket] finalPacket [] hps _ hm⟩

/-- The first packet in a frame of its own. -/
def loneFirst : Mem := ofList [0xB1, 0x0C, 0x00, 0x80, 0x00, 0x01, 0x01, 0x00, 0x00, 0x00, 0x00, 0x41, 0x00, 0x00]

/-- The last packet, 100 s behind the first. -/
def latePacket : EgcPacket := { finalPacket with now := 100 }

/-- The last packet of the first message is lost, and its id is used again 100 s later: the
later message has the part of the earlier one in it. -/
theorem stale_mixed : ¬∀ (cs : List Call) (d' : StdcDecoder) (out : List Event), Run .create cs d' out →
    ((egcPackets out).Pairwise fun p q => p.now ≤ q.now) →
      ∀ pre p post, egcPackets out = pre ++ p :: post → ∀ m, reassembledAt pre p = some m → OfChain pre p m := by
  intro h
  -- the decoder behind the first frame
  have hdone : (parsePackets 4 0 .create loneFirst 640).done = true := by decide +kernel
  have hfirst : Parses 0 .create loneFirst 640 (parsePackets 4 0 .create loneFirst 640).dec
      (parsePackets 4 0 .create loneFirst 640).out := ⟨4, by rw [← hdone]⟩
  have hlast := run_of_done (d := (parsePackets 4 0 .create loneFirst 640).dec) (c := ⟨100, loneFinal, 640⟩) 4
    (by decide +kernel)
  have hrun : Run .create [⟨0, loneFirst, 640⟩, ⟨100, loneFinal, 640⟩] _ _ := .cons hfirst hlast
  have hps : egcPackets ((parsePackets 4 0 .create loneFirst 640).out ++
      (parsePackets 4 100 (parsePackets 4 0 .create loneFirst 640).dec loneFinal 640).out) = [firstPacket, latePacket] := by
    decide +kernel
  have hm : reassembledAt [firstPacket] latePacket = some {
      type := .egcDouble1, descriptor := 0xB1, messageId := 1, text := [0x41, 0x42], textLen := 2 } := by
    decide +kernel
  obtain ⟨E, hE, hchain, htext⟩ :=
    h _ _ _ hrun (by dsimp only; rw [hps]; decide) [firstPacket] latePacket [] hps _ hm
  have hE : E <:+ [firstPacket, latePacket] := hE
  rcases List.suffix_cons_iff.1 hE with rfl | hE
  · -- the two packets are not a chain
    exact absurd (List.isChain_cons_cons.1 hchain).1 (by decide)
  rcases List.suffix_cons_iff.1 hE with rfl | hE
  · exact absurd htext (by decide +kernel)
  · rw [List.suffix_nil.1 hE] at htext
    exact absurd htext (by decide +kernel)

end InmarsatSniffer.Stdc
