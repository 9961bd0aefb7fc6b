import InmarsatSniffer.Proof.EgcTable

/-!
# Interleaved EGC messages

Up to sixteen messages, each sent once and in order, with the packets of one between
those of another (`Interleaves`). The packets that stand in a message's slot are the
ones it has sent (`opensAfter_sent`), so its slot is emitted with all of them.

* `egc_interleaving`: **every message arrives, once and by itself**.
-/

namespace InmarsatSniffer.Stdc

open ByteMem

/-- An EGC message as it is sent: the payloads of its packets in order, two for each packet
number. -/
structure EgcSent where
  id : ℕ
  serviceCode : ℕ
  priority : ℕ
  repetition : ℕ
  payloads : List (List UInt8)

/-- Packet `k` of a message: 0xB1 and 0xB2 by turns, the last one without the continuation bit. -/
def EgcSent.body (m : EgcSent) (k : ℕ) : EgcBody :=
  { isPart2 := decide (k % 2 = 1), serviceCode := m.serviceCode, continuation := decide (k + 1 ≠ m.payloads.length)
    priority := m.priority, repetition := m.repetition, msgId := m.id, pktNo := k / 2 + 1, presentation := 0
    payload := m.payloads.getD k [] }

/-- The packets of a message. -/
def EgcSent.bodies (m : EgcSent) : List EgcBody := (List.range m.payloads.length).map m.body

/-- The message that its packets make, if they have text. -/
def EgcSent.reassembled (m : EgcSent) : Option StdcMessage :=
  let text := (m.payloads.flatMap ia5).take textCapacity
  if text = [] then none
  else some {
    type := .egcDouble1, descriptor := 0xB1, serviceCode := m.serviceCode, priority := m.priority
    repetition := m.repetition, messageId := m.id, text := text, textLen := text.length }

/-- At most 32 packet numbers, payloads that fit a part. -/
structure EgcSent.Valid (m : EgcSent) : Prop where
  pairs : ∃ n ≤ 32, m.payloads.length = 2 * n
  short : ∀ x ∈ m.payloads, x.length ≤ 128

/-- The packets of one message id. -/
def packetsOf (id : ℕ) (ps : List EgcPacket) : List EgcPacket := ps.filter fun p => p.body.msgId = id

/-- **An interleaving** of the packets of at most sixteen messages, in the order of time,
with at most 60 s between a packet of a message and its next. -/
structure Interleaves (ms : List EgcSent) (ps : List EgcPacket) : Prop where
  distinct : (ms.map EgcSent.id).Nodup
  few : ms.length ≤ egcMaxReassembly
  valid : ∀ m ∈ ms, m.Valid
  sent : ∀ p ∈ ps, ∃ m ∈ ms, p.body.msgId = m.id
  order : ∀ m ∈ ms, (packetsOf m.id ps).map EgcPacket.body = m.bodies
  times : ps.Pairwise fun p q => p.now ≤ q.now
  close : ∀ m ∈ ms, (packetsOf m.id ps).IsChain fun p q => q.now - p.now ≤ egcTimeoutSec

/-- The reassembled message that is due with a packet. -/
def dueWith (ms : List EgcSent) (p : EgcPacket) : Option StdcMessage :=
  if p.body.final then (ms.find? fun m => m.id = p.body.msgId).bind EgcSent.reassembled else none

/-- No two slots in use have the same message id. -/
def OnePerId (slots : EgcSlots) : Prop :=
  ∀ i j, (slots i).active = true → (slots j).active = true → (slots i).messageId = (slots j).messageId → i = j

variable {m : EgcSent} {ms : List EgcSent} {ps pre post : List EgcPacket} {p q : EgcPacket} {id : ℕ} {k : ℕ}

/-! ## The packets of a message -/

theorem EgcSent.Valid.length (h : m.Valid) : m.payloads.length ≤ 64 := by
  obtain ⟨n, hn, e⟩ := h.pairs
  omega

theorem body_idx (_ : k < 64) : (m.body k).idx = k := by
  unfold EgcBody.idx EgcSent.body partIdx
  have hdiv := Nat.div_add_mod k 2
  rcases Nat.mod_two_eq_zero_or_one k with h | h
  · simp only [h]
    norm_num
    omega
  · simp only [h]
    norm_num
    omega

/-- Only the last packet completes the slot. -/
theorem body_final (h : m.Valid) (k : ℕ) : (m.body k).final = true ↔ k + 1 = m.payloads.length := by
  obtain ⟨n, -, e⟩ := h.pairs
  unfold EgcBody.final EgcSent.body
  simp only [ne_eq, decide_not, Bool.not_not, Bool.and_eq_true, decide_eq_true_eq]
  omega

theorem bodies_length (m : EgcSent) : m.bodies.length = m.payloads.length := by
  unfold EgcSent.bodies
  rw [List.length_map, List.length_range]

theorem range_bodies (hn : k ≤ 64) (i : ℤ) : content ((List.range k).map m.body) i =
    if 0 ≤ i ∧ i < k then (m.payloads.getD i.toNat []).take 128 else [] := by
  induction k with
  | zero =>
    rw [if_neg (by omega)]
    rfl
  | succ k ih =>
    rw [List.range_succ, List.map_append, List.map_singleton, content_append, body_idx (by omega)]
    by_cases hi : i = k
    · rw [hi, Function.update_self, if_pos (by omega), Int.toNat_natCast]
      rfl
    · rw [Function.update_of_ne hi, ih (by omega)]
      congr 1
      rw [eq_iff_iff]
      omega

theorem range_topIdx (hn : k + 1 ≤ 64) : topIdx ((List.range (k + 1)).map m.body) = k := by
  induction k with
  | zero => rw [show (List.range 1).map m.body = [] ++ [m.body 0] from rfl, topIdx_append, body_idx (by omega)]; rfl
  | succ k ih =>
    rw [List.range_succ, List.map_append, List.map_singleton, topIdx_append, ih (by omega), body_idx (by omega)]
    push_cast
    omega

/-- **All packets of a message** make its text. -/
theorem reassembly_bodies (h : m.Valid) (hk : k + 1 = m.payloads.length) :
    reassembly m.bodies (m.body k) = m.reassembled := by
  have hlen := h.length
  have htext : textOf 0 (content m.bodies) (topIdx m.bodies) = m.payloads.flatMap ia5 := by
    have htop : topIdx m.bodies = k := by
      unfold EgcSent.bodies
      rw [← hk]
      exact range_topIdx (by omega)
    rw [htop]
    unfold textOf
    rw [show ((k : ℤ) + 1).toNat = m.payloads.length by omega]
    have hmap : m.payloads = (List.range m.payloads.length).map fun j => m.payloads.getD j [] := by
      apply List.ext_getElem
      · simp
      · intro j h1 h2
        simp [List.getD_eq_getElem?_getD, h1]
    conv_rhs => rw [hmap, List.flatMap_map]
    apply List.flatMap_congr
    intro j hj
    rw [List.mem_range] at hj
    unfold EgcSent.bodies
    rw [range_bodies hlen, if_pos (by omega), Int.toNat_natCast, List.take_of_length_le]
    · exact if_pos rfl
    · rw [List.getD_eq_getElem _ _ hj]
      exact h.short _ (List.getElem_mem hj)
  unfold reassembly EgcSent.reassembled
  rw [show (m.body k).presentation = 0 from rfl, htext]
  rfl

/-! ## The packets in a slot -/

/-- The packets since the last one that completes a slot. -/
def sinceFinal (ps : List EgcPacket) : List EgcPacket :=
  ps.foldl (fun E p => if p.body.final then [] else E ++ [p]) []

theorem sinceFinal_append (ps : List EgcPacket) (p : EgcPacket) :
    sinceFinal (ps ++ [p]) = if p.body.final then [] else sinceFinal ps ++ [p] := by
  unfold sinceFinal
  rw [List.foldl_append]
  rfl

theorem packetsOf_append (id : ℕ) (ps qs : List EgcPacket) :
    packetsOf id (ps ++ qs) = packetsOf id ps ++ packetsOf id qs := List.filter_append _ _

theorem packetsOf_cons_self (p : EgcPacket) (ps : List EgcPacket) :
    packetsOf p.body.msgId (p :: ps) = p :: packetsOf p.body.msgId ps := List.filter_cons_of_pos (by simp)

/-- What stands in the slot of an id is what its packets say. -/
theorem opensAfter_eq (ps : List EgcPacket) (id : ℕ) : opensAfter ps id = sinceFinal (packetsOf id ps) := by
  induction ps using List.reverseRecOn with
  | nil => rfl
  | append_singleton ps p ih =>
    rw [opensAfter_append, packetsOf_append]
    unfold opensStep
    by_cases h : id = p.body.msgId
    · rw [← h, Function.update_self, ih, h, packetsOf_cons_self, ← sinceFinal_append]
      rfl
    · rw [Function.update_of_ne h, ih, show packetsOf id [p] = [] from List.filter_cons_of_neg (by simpa using Ne.symm h),
        List.append_nil]

theorem sinceFinal_open (h : ∀ q ∈ ps, q.body.final = false) : sinceFinal ps = ps := by
  induction ps using List.reverseRecOn with
  | nil => rfl
  | append_singleton ps p ih =>
    rw [sinceFinal_append, h p (by simp), ih fun q hq => h q (by simp [hq])]
    rfl

theorem sinceFinal_getLast (h : (sinceFinal ps).getLast? = some q) : ps.getLast? = some q ∧ q.body.final = false := by
  induction ps using List.reverseRecOn with
  | nil => exact absurd h (by simp [sinceFinal])
  | append_singleton ps p ih =>
    rw [sinceFinal_append] at h
    split at h
    · exact absurd h (by simp)
    · rw [List.getLast?_concat, Option.some.injEq] at h
      rw [← h, List.getLast?_concat]
      exact ⟨rfl, by simpa using ‹¬p.body.final = true›⟩

/-- Where a packet of an interleaving stands among those of its message. -/
theorem Interleaves.at (h : Interleaves ms ps) (e : ps = pre ++ p :: post) (hm : m ∈ ms) (hid : p.body.msgId = m.id) :
    ∃ k < m.payloads.length, p.body = m.body k ∧ (packetsOf m.id pre).map EgcPacket.body = (List.range k).map m.body ∧
      (packetsOf m.id post).length = m.payloads.length - (k + 1) := by
  have horder := h.order m hm
  rw [e, packetsOf_append, ← hid, packetsOf_cons_self, hid, List.map_append, List.map_cons] at horder
  have hlen := congrArg List.length horder
  rw [List.length_append, List.length_cons, bodies_length, List.length_map, List.length_map] at hlen
  refine ⟨(packetsOf m.id pre).length, by omega, ?_, ?_, by omega⟩
  · have := congrArg (fun l => l[(packetsOf m.id pre).length]?) horder
    simp only [EgcSent.bodies, List.getElem?_map] at this
    rw [List.getElem?_append_right (by simp), List.length_map, Nat.sub_self, List.getElem?_cons_zero,
      List.getElem?_range (by omega)] at this
    simpa using this
  · have := congrArg (List.take (packetsOf m.id pre).length) horder
    rw [List.take_left' (by simp)] at this
    rw [this]
    unfold EgcSent.bodies
    rw [← List.map_take, List.take_range, min_eq_left (by omega)]

/-- **The slot of a message holds the packets it has sent.** -/
theorem opensAfter_sent (h : Interleaves ms ps) (e : ps = pre ++ p :: post) (hm : m ∈ ms) (hid : p.body.msgId = m.id) :
    opensAfter pre m.id = packetsOf m.id pre := by
  obtain ⟨k, hk, -, hpre, -⟩ := h.at e hm hid
  rw [opensAfter_eq]
  apply sinceFinal_open
  intro q hq
  have hmem : q.body ∈ (List.range k).map m.body := hpre ▸ List.mem_map_of_mem hq
  obtain ⟨j, hj, hb⟩ := List.mem_map.1 hmem
  rw [List.mem_range] at hj
  rw [← hb, ← Bool.not_eq_true, body_final (h.valid m hm)]
  omega

/-- A message with a packet in its slot has another one to come. -/
theorem Interleaves.next (h : Interleaves ms ps) (e : ps = pre ++ post) (hm : m ∈ ms)
    (hq : (opensAfter pre m.id).getLast? = some q) : ∃ r ∈ post, r.now - q.now ≤ egcTimeoutSec := by
  rw [opensAfter_eq] at hq
  obtain ⟨hlast, hopen⟩ := sinceFinal_getLast hq
  obtain ⟨qs, hqs⟩ := List.getLast?_eq_some_iff.1 hlast
  have hall : packetsOf m.id ps = qs ++ [q] ++ packetsOf m.id post := by rw [e, packetsOf_append, hqs]
  cases hpost : packetsOf m.id post with
  | nil =>
    -- the packet in the slot would be the last, which completes it
    have horder := h.order m hm
    rw [hall, hpost, List.append_nil, List.map_append] at horder
    have hlen := congrArg List.length horder
    rw [bodies_length] at hlen
    simp only [List.length_append, List.length_map, List.length_singleton] at hlen
    have hb := congrArg List.getLast? horder
    unfold EgcSent.bodies at hb
    rw [← hlen, List.range_succ, List.map_append, List.map_singleton, List.map_singleton, List.getLast?_concat,
      List.getLast?_concat, Option.some.injEq] at hb
    rw [hb, ← Bool.not_eq_true, body_final (h.valid m hm)] at hopen
    exact absurd hlen hopen
  | cons r rs =>
    have hmem : r ∈ packetsOf m.id post := by rw [hpost]; exact List.mem_cons_self
    refine ⟨r, List.mem_of_mem_filter hmem, ?_⟩
    have hchain := h.close m hm
    rw [hall, hpost, List.append_assoc] at hchain
    exact (List.isChain_cons_cons.1 (List.isChain_append.1 hchain).2.1).1

/-- **There is always room**: the messages are few and none of them is late. -/
theorem Interleaves.allRoomy (h : Interleaves ms ps) : AllRoomy ps := by
  intro pre p post e hnil
  have hopen : ∀ i, opensAfter pre i ≠ [] → i ∈ (ms.map EgcSent.id).toFinset := by
    intro i hi
    rw [opensAfter_eq] at hi
    have hne : packetsOf i pre ≠ [] := fun h0 => hi (by rw [h0]; rfl)
    obtain ⟨q, hq⟩ := List.exists_mem_of_ne_nil _ hne
    have hq := List.mem_filter.1 hq
    obtain ⟨m, hm, hid⟩ := h.sent q (by rw [e]; simp [hq.1])
    rw [List.mem_toFinset, List.mem_map]
    exact ⟨m, hm, by rw [← hid]; simpa using hq.2⟩
  constructor
  · obtain ⟨m, hm, hid⟩ := h.sent p (by rw [e]; simp)
    have hp : p.body.msgId ∈ (ms.map EgcSent.id).toFinset := by
      rw [List.mem_toFinset, List.mem_map]
      exact ⟨m, hm, hid.symm⟩
    refine ⟨(ms.map EgcSent.id).toFinset.erase p.body.msgId, ?_, fun i hi => ?_⟩
    · have hcard := Finset.card_erase_lt_of_mem hp
      rw [List.toFinset_card_of_nodup h.distinct, List.length_map] at hcard
      exact lt_of_lt_of_le hcard h.few
    · rw [Finset.mem_erase]
      refine ⟨?_, hopen i hi⟩
      rintro rfl
      exact hi hnil
  · intro i q hq
    have hi := hopen i (by intro h0; rw [h0] at hq; exact absurd hq (by simp))
    rw [List.mem_toFinset, List.mem_map] at hi
    obtain ⟨m, hm, rfl⟩ := hi
    obtain ⟨r, hr, hnext⟩ := h.next e hm hq
    -- the next packet of the message comes after `p`, and in time
    have hnow : p.now ≤ r.now := by
      have htimes := h.times
      rw [e] at htimes
      rcases List.mem_cons.1 hr with rfl | hr
      · exact le_rfl
      · exact List.rel_of_pairwise_cons (List.pairwise_append.1 htimes).2.1 hr
    omega

theorem find_sent (h : (ms.map EgcSent.id).Nodup) (hm : m ∈ ms) : (ms.find? fun x => x.id = m.id) = some m := by
  induction ms with
  | nil => exact absurd hm (by simp)
  | cons a ms ih =>
    rw [List.map_cons, List.nodup_cons] at h
    rcases List.mem_cons.1 hm with rfl | hm
    · exact List.find?_cons_of_pos (by simp)
    · have hne : a.id ≠ m.id := fun e => h.1 (e ▸ List.mem_map_of_mem hm)
      rw [List.find?_cons_of_neg (by simpa using hne), ih h.2 hm]

/-- **What a packet of an interleaving makes reassembled.** -/
theorem reassembledAt_due (h : Interleaves ms ps) (e : ps = pre ++ p :: post) : reassembledAt pre p = dueWith ms p := by
  rw [reassembledAt_eq h.allRoomy e]
  unfold dueWith
  by_cases hfin : p.body.final = true
  · rw [if_pos hfin, if_pos hfin]
    obtain ⟨m, hm, hid⟩ := h.sent p (by rw [e]; simp)
    obtain ⟨k, hk, hp, hpre, -⟩ := h.at e hm hid
    rw [hp, body_final (h.valid m hm)] at hfin
    have hslot : (packetsOf m.id pre ++ [p]).map EgcPacket.body = m.bodies := by
      unfold EgcSent.bodies
      rw [List.map_append, hpre, ← hfin, List.range_succ, List.map_append, List.map_singleton, List.map_singleton, hp]
    rw [hid, opensAfter_sent h e hm hid, hslot, find_sent h.distinct hm, hp, reassembly_bodies (h.valid m hm) hfin]
    rfl
  · rw [if_neg hfin, if_neg hfin]

/-! ## Runs -/

/-- The messages of the packets of an interleaving. -/
theorem messages_due (h : Interleaves ms ps) : ∀ pre post, ps = pre ++ post → (egcRun EgcSlots.init pre).2 =
    pre.flatMap fun p => p.body.single.toList ++ (dueWith ms p).toList := by
  intro pre
  induction pre using List.reverseRecOn with
  | nil => exact fun _ _ => rfl
  | append_singleton pre p ih =>
    intro post e
    have e' : ps = pre ++ p :: post := by rw [e, List.append_assoc]; rfl
    rw [egcRun_concat, ih _ e', reassembledAt_due h e', List.flatMap_append, List.flatMap_singleton]

/-- The slots of a table, also while `p` is being stored, have different ids. -/
theorem onePerId_found {slots : EgcSlots} {opens : Opens} (h : Table slots opens) (hr : Roomy opens p) :
    OnePerId (findEgcSlot slots p.now p.body.msgId).1 := by
  obtain ⟨hothers, halone, -, hid, -, -⟩ := findEgcSlot_spec h hr
  intro i j hi hj e
  by_cases hif : i = (findEgcSlot slots p.now p.body.msgId).2
  · by_cases hjf : j = (findEgcSlot slots p.now p.body.msgId).2
    · rw [hif, hjf]
    · rw [hothers j hjf] at hj e
      rw [hif, hid] at e
      exact absurd e.symm (halone j hjf hj)
  · rw [hothers i hif] at hi e
    by_cases hjf : j = (findEgcSlot slots p.now p.body.msgId).2
    · rw [hjf, hid] at e
      exact absurd e (halone i hif hi)
    · rw [hothers j hjf] at hj e
      exact h.unique i j hi hj e

/-- **EGC reassembly under interleaving.** When the EGC packets of a run of a new decoder
are an interleaving of at most sixteen messages, the EGC messages are, packet by packet,
the packet's own and the one due with it; every message is due with its last packet, and
with no other; and at no time do two slots in use have the same id. -/
theorem egc_interleaving {cs : List Call} {d' : StdcDecoder} {out : List Event}
    (hrun : Run .create cs d' out) (h : Interleaves ms (egcPackets out)) :
    (egcMessages out = (egcPackets out).flatMap fun p => p.body.single.toList ++ (dueWith ms p).toList) ∧
    (∀ m ∈ ms, m.payloads ≠ [] → ∃ pre p post, egcPackets out = pre ++ p :: post ∧ p.body.msgId = m.id ∧
      dueWith ms p = m.reassembled ∧ (∀ q ∈ pre, q.body.msgId = m.id → dueWith ms q = none) ∧
      ∀ q ∈ post, q.body.msgId ≠ m.id) ∧
    (∀ pre p post, egcPackets out = pre ++ p :: post → OnePerId (egcRun EgcSlots.init pre).1 ∧
      OnePerId (findEgcSlot (egcRun EgcSlots.init pre).1 p.now p.body.msgId).1) ∧ OnePerId d'.egcSlots := by
  have hout := run_egc hrun
  have htable := table_run (egcPackets out) h.allRoomy
  refine ⟨?_, fun m hm hne => ?_, fun pre p post e => ?_, ?_⟩
  · rw [← messages_due h _ [] (by simp)]
    exact (congrArg Prod.snd hout).symm
  · have hall : packetsOf m.id (egcPackets out) ≠ [] := by
      intro h0
      have := h.order m hm
      rw [h0] at this
      have hl := congrArg List.length this
      rw [bodies_length] at hl
      exact hne (List.length_eq_zero_iff.1 hl.symm)
    -- the last packet of the message
    obtain ⟨qs, p, hqs⟩ : ∃ qs p, packetsOf m.id (egcPackets out) = qs ++ [p] :=
      ⟨_, _, (List.dropLast_append_getLast hall).symm⟩
    obtain ⟨pre, post', e, hpre, hpost⟩ := List.filter_eq_append_iff.1 hqs
    obtain ⟨mid, post, e', hmid, hp, hpost'⟩ := List.filter_eq_cons_iff.1 hpost
    have hid : p.body.msgId = m.id := by simpa using hp
    have hsplit : egcPackets out = (pre ++ mid) ++ p :: post := by rw [e, e', List.append_assoc]
    have hnone : ∀ q ∈ post, q.body.msgId ≠ m.id := by
      intro q hq
      have := List.filter_eq_nil_iff.1 hpost' q hq
      simpa using this
    obtain ⟨k, hk, hb, hbefore, hafter⟩ := h.at hsplit hm hid
    have hlast : k + 1 = m.payloads.length := by
      have h0 : packetsOf m.id post = [] := hpost'
      rw [h0, List.length_nil] at hafter
      omega
    refine ⟨pre ++ mid, p, post, hsplit, hid, ?_, fun q hq hqid => ?_, hnone⟩
    · unfold dueWith
      rw [hid, find_sent h.distinct hm, hb, if_pos ((body_final (h.valid m hm) k).2 hlast)]
      rfl
    · have hmem : q.body ∈ (List.range k).map m.body :=
        hbefore ▸ List.mem_map_of_mem (List.mem_filter.2 ⟨hq, by simpa using hqid⟩)
      obtain ⟨j, hj, hbj⟩ := List.mem_map.1 hmem
      rw [List.mem_range] at hj
      unfold dueWith
      rw [if_neg]
      rw [← hbj, body_final (h.valid m hm)]
      omega
  · have hpre : AllRoomy pre := fun pre' q post' e' =>
      h.allRoomy pre' q (post' ++ p :: post) (by rw [e, e', List.append_assoc]; rfl)
    have ht := table_run pre hpre
    exact ⟨ht.unique, onePerId_found ht (h.allRoomy pre p post e)⟩
  · have : d'.egcSlots = (egcRun EgcSlots.init (egcPackets out)).1 := (congrArg Prod.fst hout).symm
    rw [this]
    exact htable.unique

/-! ## Two messages by turns -/

/-- A frame with the packets of two messages by turns. -/
def turnsFrame : Mem :=
  ofList [0xB1, 0x0C, 0x00, 0x80, 0x00, 0x01, 0x01, 0x00, 0x00, 0x00, 0x00, 0x41, 0x00, 0x00,
    0xB1, 0x0C, 0x00, 0x80, 0x00, 0x02, 0x01, 0x00, 0x00, 0x00, 0x00, 0x43, 0x00, 0x00,
    0xB2, 0x0C, 0x00, 0x00, 0x00, 0x02, 0x01, 0x00, 0x00, 0x00, 0x00, 0x44, 0x00, 0x00,
    0xB2, 0x0C, 0x00, 0x00, 0x00, 0x01, 0x01, 0x00, 0x00, 0x00, 0x00, 0x42, 0x00, 0x00]

/-- The messages in it. -/
def turnsSent : List EgcSent := [⟨1, 0, 0, 0, [[0x41], [0x42]]⟩, ⟨2, 0, 0, 0, [[0x43], [0x44]]⟩]

/-- The packets in it. -/
def turnsPackets : List EgcPacket :=
  [⟨0, EgcSent.body ⟨1, 0, 0, 0, [[0x41], [0x42]]⟩ 0⟩, ⟨0, EgcSent.body ⟨2, 0, 0, 0, [[0x43], [0x44]]⟩ 0⟩,
    ⟨0, EgcSent.body ⟨2, 0, 0, 0, [[0x43], [0x44]]⟩ 1⟩, ⟨0, EgcSent.body ⟨1, 0, 0, 0, [[0x41], [0x42]]⟩ 1⟩]

theorem turns_interleaves : Interleaves turnsSent turnsPackets where
  distinct := by decide
  few := by decide
  valid := by
    intro m hm
    simp only [turnsSent, List.mem_cons, List.not_mem_nil, or_false] at hm
    rcases hm with rfl | rfl
    · exact ⟨⟨1, by decide, rfl⟩, by decide⟩
    · exact ⟨⟨1, by decide, rfl⟩, by decide⟩
  sent := by decide
  order := by decide
  times := by decide
  close := by decide

/-- Both messages arrive, each with its own text. -/
theorem turns_arrive : ∃ d' out, Run .create [⟨0, turnsFrame, 640⟩] d' out ∧
    egcMessages out = turnsPackets.flatMap (fun p => p.body.single.toList ++ (dueWith turnsSent p).toList) ∧
    turnsSent.map (fun m => m.reassembled.map StdcMessage.text) = [some [0x41, 0x42], some [0x43, 0x44]] := by
  have hps : egcPackets (parsePackets 8 0 .create turnsFrame 640).out = turnsPackets := by decide +kernel
  have hrun := run_of_done (d := .create) (c := ⟨0, turnsFrame, 640⟩) 8 (by decide +kernel)
  have hturns : Interleaves turnsSent (egcPackets (parsePackets 8 0 .create turnsFrame 640).out) := by
    rw [hps]
    exact turns_interleaves
  have hmsgs := (egc_interleaving hrun hturns).1
  exact ⟨_, _, hrun, by rw [hmsgs, hps], by decide⟩

end InmarsatSniffer.Stdc
