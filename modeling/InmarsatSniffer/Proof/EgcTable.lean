import InmarsatSniffer.Proof.EgcText

/-!
# The EGC slot table

A slot holds what the packets of its message id have brought since it was taken
(`Gathers`). As long as a new id finds a slot that is free, none of the others being
expired (`Roomy`), the sixteen slots are a map from open message ids to their packets
(`Table`).

* `table_step`: one packet.
* `table_run`, `reassembledAt_eq`: **a list of packets**: the slots after it, and every
  reassembled message on the way.
-/

namespace InmarsatSniffer.Stdc

open ByteMem Logged

variable {now : ℤ} {slots : EgcSlots} {slot : EgcReassembly} {bs : List EgcBody} {b : EgcBody}

/-! ## What a slot holds -/

/-- The parts that some packets leave in a slot, by index. -/
def content (bs : List EgcBody) : ℤ → List UInt8 :=
  bs.foldl (fun c b => Function.update c b.idx b.part) fun _ => []

/-- The highest index stored. -/
def topIdx (bs : List EgcBody) : ℤ := bs.foldl (fun top b => max top b.idx) 0

theorem content_append (bs : List EgcBody) (b : EgcBody) :
    content (bs ++ [b]) = Function.update (content bs) b.idx b.part := by
  unfold content; rw [List.foldl_append]; rfl

theorem topIdx_append (bs : List EgcBody) (b : EgcBody) : topIdx (bs ++ [b]) = max (topIdx bs) b.idx := by
  unfold topIdx; rw [List.foldl_append]; rfl

theorem idx_bounds (b : EgcBody) : 0 ≤ b.idx ∧ b.idx ≤ 63 := partIdx_bounds _ _

theorem content_length (bs : List EgcBody) (i : ℤ) : (content bs i).length ≤ 128 := by
  induction bs using List.reverseRecOn with
  | nil => exact Nat.zero_le _
  | append_singleton bs b ih =>
    rw [content_append]
    by_cases h : i = b.idx
    · rw [h, Function.update_self]; exact part_length b
    · rw [Function.update_of_ne h]; exact ih

theorem topIdx_nonneg (bs : List EgcBody) : 0 ≤ topIdx bs := by
  induction bs using List.reverseRecOn with
  | nil => exact le_rfl
  | append_singleton bs b ih => rw [topIdx_append]; exact le_max_of_le_left ih

/-- Parts above the highest index are empty. -/
theorem content_above {i : ℤ} (h : topIdx bs < i) : content bs i = [] := by
  induction bs using List.reverseRecOn with
  | nil => rfl
  | append_singleton bs b ih =>
    rw [topIdx_append, max_lt_iff] at h
    rw [content_append, Function.update_of_ne (by omega), ih h.1]

/-- The slot holds the parts the packets brought. -/
structure Gathers (slot : EgcReassembly) (bs : List EgcBody) : Prop where
  lens : ∀ i, slot.partLens i = (content bs i).length
  bytes : ∀ i, Holds slot.parts (i * 128) (content bs i)
  top : slot.maxPktNo = topIdx bs

theorem gathers_fresh (id : ℕ) (now : ℤ) : Gathers (EgcReassembly.fresh id now) [] :=
  ⟨fun _ => rfl, fun _ => holds_nil, rfl⟩

/-- **Storing a packet** adds its part and leaves the others. -/
theorem Gathers.store {p : EgcPacket} (h : Gathers slot bs) : Gathers (p.store slot) (bs ++ [p.body]) where
  lens := fun i => by
    unfold EgcPacket.store
    rw [content_append]
    by_cases hi : i = p.body.idx
    · rw [hi]
      simp
    · simp only [Function.update_of_ne hi]
      exact h.lens i
  bytes := fun i => by
    unfold EgcPacket.store
    rw [content_append]
    by_cases hi : i = p.body.idx
    · rw [hi, Function.update_self]
      exact slice_blit_self
    · rw [Function.update_of_ne hi]
      have h1 := content_length bs i
      have h2 := part_length p.body
      have hold : slice slot.parts (i * 128) (content bs i).length = content bs i := h.bytes i
      unfold Holds
      dsimp only
      -- parts of 128 bytes do not overlap
      rcases lt_or_gt_of_ne hi with hlt | hgt
      · rw [slice_blit_below (by omega), hold]
      · rw [slice_blit_above (by omega), hold]
  top := by
    unfold EgcPacket.store
    rw [topIdx_append, ← h.top]

theorem Gathers.slotPart (h : Gathers slot bs) (i : ℤ) : slotPart slot i = content bs i := by
  unfold InmarsatSniffer.Stdc.slotPart
  rw [h.lens]
  have hl := content_length bs i
  split
  · exact (List.length_eq_zero_iff.1 (by omega)).symm
  · rw [min_eq_left (by omega), Int.toNat_natCast]
    exact h.bytes i

/-! ## The reassembled message -/

/-- The texts of the parts `0 .. top`, one behind the other. -/
def textOf (presentation : ℕ) (parts : ℤ → List UInt8) (top : ℤ) : List UInt8 :=
  (List.range (top + 1).toNat).flatMap fun j : ℕ => partText presentation (parts j)

/-- The message for a slot whose last packet is `b`. -/
def reassembly (bs : List EgcBody) (b : EgcBody) : Option StdcMessage :=
  let text := (textOf b.presentation (content bs) (topIdx bs)).take textCapacity
  if text = [] then none
  else some {
    type := .egcDouble1, descriptor := 0xB1, serviceCode := b.serviceCode, priority := b.priority
    repetition := b.repetition, messageId := b.msgId, text := text, textLen := text.length }

theorem tryEmitEgc_open (h : slot.complete = false) : (tryEmitEgc slot).val = (slot, none) := by
  unfold tryEmitEgc
  rw [h]
  rfl

theorem tryEmitEgc_complete {p : EgcPacket} (h : Gathers (p.store slot) bs) (hc : (p.store slot).complete = true)
    (hid : slot.messageId = p.body.msgId) :
    (tryEmitEgc (p.store slot)).val = ({ p.store slot with active := false }, reassembly bs p.body) := by
  have htext : (emitLoop (p.store slot) ((p.store slot).maxPktNo + 1).toNat 0 []).val =
      (textOf p.body.presentation (content bs) (topIdx bs)).take textCapacity := by
    rw [emitLoop_val _ _ _ _ (Nat.zero_le _), List.nil_append, h.top]
    unfold textOf
    congr 1
    apply List.flatMap_congr
    intro j _
    rw [zero_add, h.slotPart]
    rfl
  unfold tryEmitEgc reassembly
  rw [if_pos hc]
  simp only [val_bind, val_pure, htext]
  congr 1
  generalize (textOf p.body.presentation (content bs) (topIdx bs)).take textCapacity = text
  by_cases ht : text = []
  · simp [ht]
  · rw [if_pos (List.length_pos_iff.2 ht), if_neg ht, ← hid]
    rfl

/-! ## The table -/

/-- The packets of each message id since its slot was taken; none if it has no slot. -/
abbrev Opens := ℕ → List EgcPacket

/-- A slot in use, for the packets `E`. -/
structure InUse (slot : EgcReassembly) (E : List EgcPacket) : Prop where
  gathers : Gathers slot (E.map EgcPacket.body)
  unfinished : slot.complete = false
  last : ∃ q, E.getLast? = some q ∧ slot.lastSeen = q.now

/-- **The slots are a map from open message ids** to the packets gathered for them. -/
structure Table (slots : EgcSlots) (opens : Opens) : Prop where
  unique : ∀ i j, (slots i).active = true → (slots j).active = true →
    (slots i).messageId = (slots j).messageId → i = j
  inUse : ∀ i, (slots i).active = true → InUse (slots i) (opens (slots i).messageId)
  found : ∀ id, opens id ≠ [] → ∃ i, (slots i).active = true ∧ (slots i).messageId = id

/-- The open ids after one more packet. -/
def opensStep (opens : Opens) (p : EgcPacket) : Opens :=
  Function.update opens p.body.msgId (if p.body.final then [] else opens p.body.msgId ++ [p])

/-- A packet of an id that is not open finds a free slot, and no slot in use is expired. -/
def Roomy (opens : Opens) (p : EgcPacket) : Prop :=
  opens p.body.msgId = [] →
    (∃ S : Finset ℕ, S.card < egcMaxReassembly ∧ ∀ id, opens id ≠ [] → id ∈ S) ∧
      ∀ id q, (opens id).getLast? = some q → p.now - q.now ≤ egcTimeoutSec

theorem table_init : Table EgcSlots.init fun _ => [] :=
  ⟨fun _ _ h => absurd h Bool.false_ne_true, fun _ h => absurd h Bool.false_ne_true, fun _ h => absurd rfl h⟩

variable {opens : Opens} {p : EgcPacket}

/-- Fewer open ids than slots leave a slot free. -/
theorem Table.free (h : Table slots opens) {S : Finset ℕ} (hS : S.card < egcMaxReassembly)
    (hopen : ∀ id, opens id ≠ [] → id ∈ S) : ∃ i, (slots i).active = false := by
  by_contra hfull
  push Not at hfull
  have hact : ∀ i, (slots i).active = true := fun i => by simpa using hfull i
  have hmem : ∀ i ∈ (Finset.univ : Finset (Fin egcMaxReassembly)), (slots i).messageId ∈ S := by
    intro i _
    apply hopen
    obtain ⟨q, hq, -⟩ := (h.inUse i (hact i)).last
    intro hnil
    rw [hnil] at hq
    exact absurd hq (by simp)
  have hinj : Set.InjOn (fun i => (slots i).messageId) (Finset.univ : Finset (Fin egcMaxReassembly)) :=
    fun i _ j _ e => h.unique i j (hact i) (hact j) e
  have := Finset.card_le_card_of_injOn _ hmem hinj
  rw [Finset.card_univ, Fintype.card_fin] at this
  omega

/-- What `find_egc_slot` finds: a slot of the id, holding what is gathered for it. -/
structure FoundSlot (slots : EgcSlots) (opens : Opens) (id : ℕ) (found : EgcSlots × Fin egcMaxReassembly) : Prop where
  others : ∀ j, j ≠ found.2 → found.1 j = slots j
  alone : ∀ j, j ≠ found.2 → (slots j).active = true → (slots j).messageId ≠ id
  active : (found.1 found.2).active = true
  ofId : (found.1 found.2).messageId = id
  unfinished : (found.1 found.2).complete = false
  gathers : Gathers (found.1 found.2) ((opens id).map EgcPacket.body)

theorem findEgcSlot_spec (h : Table slots opens) (hr : Roomy opens p) :
    FoundSlot slots opens p.body.msgId (findEgcSlot slots p.now p.body.msgId) := by
  unfold findEgcSlot
  cases hf : (List.finRange egcMaxReassembly).find? fun i =>
      (slots i).active && (slots i).messageId == p.body.msgId with
  | some i =>
    have hi := List.find?_some hf
    simp only [Bool.and_eq_true, beq_iff_eq] at hi
    have huse := h.inUse i hi.1
    rw [hi.2] at huse
    exact ⟨fun _ _ => rfl, fun j hj ha e => hj (h.unique j i ha hi.1 (e.trans hi.2.symm)), hi.1, hi.2,
      huse.unfinished, huse.gathers⟩
  | none =>
    have hno : ∀ i, (slots i).active = true → (slots i).messageId ≠ p.body.msgId := by
      intro i ha e
      have := List.find?_eq_none.1 hf i (List.mem_finRange i)
      simp [ha, e] at this
    have hnil : opens p.body.msgId = [] := by
      by_contra hne
      obtain ⟨i, ha, e⟩ := h.found _ hne
      exact hno i ha e
    obtain ⟨⟨S, hS, hopen⟩, htime⟩ := hr hnil
    obtain ⟨k, hk⟩ := h.free hS hopen
    cases hg : (List.finRange egcMaxReassembly).find? fun i =>
        !(slots i).active || decide (p.now - (slots i).lastSeen > egcTimeoutSec) with
    | none =>
      have := List.find?_eq_none.1 hg k (List.mem_finRange k)
      simp [hk] at this
    | some i =>
      dsimp only
      have hself : Function.update slots i (EgcReassembly.fresh p.body.msgId p.now) i =
          EgcReassembly.fresh p.body.msgId p.now := Function.update_self _ _ _
      refine ⟨fun j hj => Function.update_of_ne hj _ _, fun j _ ha => hno j ha, ?_, ?_, ?_, ?_⟩
      · exact congrArg EgcReassembly.active hself
      · exact congrArg EgcReassembly.messageId hself
      · exact congrArg EgcReassembly.complete hself
      · rw [hnil]
        have hfresh := gathers_fresh p.body.msgId p.now
        rw [← hself] at hfresh
        exact hfresh

/-- A slot that is taken for a new id was free. -/
theorem findEgcSlot_free (h : Table slots opens) (hr : Roomy opens p) (hnil : opens p.body.msgId = []) :
    (slots (findEgcSlot slots p.now p.body.msgId).2).active = false := by
  unfold findEgcSlot
  cases hf : (List.finRange egcMaxReassembly).find? fun i =>
      (slots i).active && (slots i).messageId == p.body.msgId with
  | some i =>
    have hi := List.find?_some hf
    simp only [Bool.and_eq_true, beq_iff_eq] at hi
    obtain ⟨q, hq, -⟩ := (h.inUse i hi.1).last
    rw [hi.2, hnil] at hq
    exact absurd hq (by simp)
  | none =>
    obtain ⟨⟨S, hS, hopen⟩, htime⟩ := hr hnil
    obtain ⟨k, hk⟩ := h.free hS hopen
    cases hg : (List.finRange egcMaxReassembly).find? fun i =>
        !(slots i).active || decide (p.now - (slots i).lastSeen > egcTimeoutSec) with
    | none =>
      have := List.find?_eq_none.1 hg k (List.mem_finRange k)
      simp [hk] at this
    | some i =>
      dsimp only
      by_contra ha
      have ha : (slots i).active = true := by simpa using ha
      obtain ⟨q, hq, hseen⟩ := (h.inUse i ha).last
      have hi := List.find?_some hg
      simp only [ha, Bool.not_true, Bool.false_or, decide_eq_true_eq, hseen] at hi
      have := htime _ q hq
      omega

/-- **One packet**: the slots stay a table, and the messages are the packet's own and, for
the final packet of its id, the reassembled one. -/
theorem table_step (h : Table slots opens) (hr : Roomy opens p) :
    Table (egcStep slots p).slots (opensStep opens p) ∧
      (egcStep slots p).reassembled =
        if p.body.final then reassembly ((opens p.body.msgId ++ [p]).map EgcPacket.body) p.body else none := by
  have hf := findEgcSlot_spec h hr
  have hfree := findEgcSlot_free h hr
  unfold egcStep
  dsimp only
  generalize findEgcSlot slots p.now p.body.msgId = found at hf hfree
  obtain ⟨slots', i⟩ := found
  obtain ⟨hothers, halone, hact, hid, hunf, hgath⟩ := hf
  dsimp only at hothers halone hact hid hunf hgath hfree ⊢
  have hstore : Gathers (p.store (slots' i)) ((opens p.body.msgId ++ [p]).map EgcPacket.body) := by
    rw [List.map_append]
    exact hgath.store
  have hcomplete : (p.store (slots' i)).complete = p.body.final := by
    show ((slots' i).complete || p.body.final) = _
    rw [hunf, Bool.false_or]
  -- the slots besides `i` are as they were, and hold other ids
  have hopens : ∀ j, j ≠ i → (slots j).active = true →
      opensStep opens p (slots j).messageId = opens (slots j).messageId := fun j hj ha =>
    Function.update_of_ne (halone j hj ha) _ _
  have hfound : ∀ id, id ≠ p.body.msgId → opensStep opens p id ≠ [] →
      ∃ j, j ≠ i ∧ (slots j).active = true ∧ (slots j).messageId = id := by
    intro id hne ho
    unfold opensStep at ho
    rw [Function.update_of_ne hne] at ho
    obtain ⟨j, ha, e⟩ := h.found id ho
    refine ⟨j, ?_, ha, e⟩
    rintro rfl
    by_cases hnil : opens p.body.msgId = []
    · rw [hfree hnil] at ha
      exact absurd ha Bool.false_ne_true
    · -- the slot found was that of the id already
      obtain ⟨k, hak, ek⟩ := h.found _ hnil
      by_cases hkj : k = j
      · exact hne (e.symm.trans ((congrArg (fun x => (slots x).messageId) hkj).symm.trans ek))
      · exact halone k hkj hak ek
  by_cases hfin : p.body.final = true
  · rw [tryEmitEgc_complete hstore (hcomplete.trans hfin) hid, if_pos hfin]
    refine ⟨⟨?_, ?_, ?_⟩, rfl⟩
    · intro j k hj hk e
      have hji : j ≠ i := by rintro rfl; rw [Function.update_self] at hj; exact absurd hj Bool.false_ne_true
      have hki : k ≠ i := by rintro rfl; rw [Function.update_self] at hk; exact absurd hk Bool.false_ne_true
      rw [Function.update_of_ne hji, hothers j hji] at hj e
      rw [Function.update_of_ne hki, hothers k hki] at hk e
      exact h.unique j k hj hk e
    · intro j hj
      have hji : j ≠ i := by rintro rfl; rw [Function.update_self] at hj; exact absurd hj Bool.false_ne_true
      rw [Function.update_of_ne hji, hothers j hji] at hj ⊢
      rw [hopens j hji hj]
      exact h.inUse j hj
    · intro id ho
      have hne : id ≠ p.body.msgId := by
        rintro rfl
        unfold opensStep at ho
        rw [Function.update_self, if_pos hfin] at ho
        exact ho rfl
      obtain ⟨j, hji, ha, e⟩ := hfound id hne ho
      exact ⟨j, by rw [Function.update_of_ne hji, hothers j hji]; exact ⟨ha, e⟩⟩
  · rw [tryEmitEgc_open (hcomplete.trans (by simpa using hfin)), if_neg hfin]
    have hself : opensStep opens p p.body.msgId = opens p.body.msgId ++ [p] := by
      unfold opensStep
      rw [Function.update_self, if_neg hfin]
    have hstored : (p.store (slots' i)).active = true ∧ (p.store (slots' i)).messageId = p.body.msgId := ⟨hact, hid⟩
    refine ⟨⟨?_, ?_, ?_⟩, rfl⟩
    · intro j k hj hk e
      by_cases hji : j = i
      · by_cases hki : k = i
        · rw [hji, hki]
        · rw [Function.update_of_ne hki, hothers k hki] at hk e
          rw [hji, Function.update_self, hstored.2] at e
          exact absurd e.symm (halone k hki hk)
      · rw [Function.update_of_ne hji, hothers j hji] at hj e
        by_cases hki : k = i
        · rw [hki, Function.update_self, hstored.2] at e
          exact absurd e (halone j hji hj)
        · rw [Function.update_of_ne hki, hothers k hki] at hk e
          exact h.unique j k hj hk e
    · intro j hj
      by_cases hji : j = i
      · rw [hji, Function.update_self, hstored.2, hself]
        exact ⟨hstore, hcomplete.trans (by simpa using hfin), p, by simp, rfl⟩
      · rw [Function.update_of_ne hji, hothers j hji] at hj ⊢
        rw [hopens j hji hj]
        exact h.inUse j hj
    · intro id ho
      by_cases hne : id = p.body.msgId
      · exact ⟨i, by rw [Function.update_self, hne]; exact hstored⟩
      · obtain ⟨j, hji, ha, e⟩ := hfound id hne ho
        exact ⟨j, by rw [Function.update_of_ne hji, hothers j hji]; exact ⟨ha, e⟩⟩

/-! ## Lists of packets -/

/-- The open message ids after some packets of a new decoder. -/
def opensAfter (ps : List EgcPacket) : Opens := ps.foldl opensStep fun _ => []

theorem opensAfter_append (ps : List EgcPacket) (p : EgcPacket) :
    opensAfter (ps ++ [p]) = opensStep (opensAfter ps) p := by
  unfold opensAfter
  rw [List.foldl_append]
  rfl

/-- The reassembled message that packet `p` makes a decoder emit after the packets `pre`. -/
def reassembledAt (pre : List EgcPacket) (p : EgcPacket) : Option StdcMessage :=
  (egcStep (egcRun EgcSlots.init pre).1 p).reassembled

/-- One packet more of a run. -/
theorem egcRun_concat (pre : List EgcPacket) (p : EgcPacket) :
    egcRun EgcSlots.init (pre ++ [p]) = ((egcStep (egcRun EgcSlots.init pre).1 p).slots,
      (egcRun EgcSlots.init pre).2 ++ (p.body.single.toList ++ (reassembledAt pre p).toList)) := by
  rw [egcRun_append]
  simp only [egcRun, List.append_nil]
  rfl

/-- A list in which every packet finds room. -/
def AllRoomy (ps : List EgcPacket) : Prop := ∀ pre p post, ps = pre ++ p :: post → Roomy (opensAfter pre) p

theorem AllRoomy.init {ps : List EgcPacket} (h : AllRoomy (ps ++ [p])) : AllRoomy ps := fun pre q post e =>
  h pre q (post ++ [p]) (by rw [e, List.append_assoc]; rfl)

/-- **The slots after a list of packets** are a table of the open ids. -/
theorem table_run (ps : List EgcPacket) (h : AllRoomy ps) : Table (egcRun EgcSlots.init ps).1 (opensAfter ps) := by
  induction ps using List.reverseRecOn with
  | nil => exact table_init
  | append_singleton ps p ih =>
    rw [egcRun_concat, opensAfter_append]
    exact (table_step (ih h.init) (h ps p [] rfl)).1

/-- **The reassembled messages of a list of packets** are those of the open ids. -/
theorem reassembledAt_eq {ps pre post : List EgcPacket} (h : AllRoomy ps) (e : ps = pre ++ p :: post) :
    reassembledAt pre p =
      if p.body.final then reassembly ((opensAfter pre p.body.msgId ++ [p]).map EgcPacket.body) p.body else none := by
  have hpre : AllRoomy pre := fun pre' q post' e' =>
    h pre' q (post' ++ p :: post) (by rw [e, e', List.append_assoc]; rfl)
  exact (table_step (table_run pre hpre) (h pre p post e)).2

end InmarsatSniffer.Stdc
