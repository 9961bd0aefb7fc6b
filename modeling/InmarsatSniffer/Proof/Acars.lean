import InmarsatSniffer.Spec.Acars

/-!
# Messages of several blocks

The fragments of one message among all fragments are `own`; items of other aircraft only
make them older. A message of several blocks waits as one fragment, which holds the user
data of its first block (`Waits`), and this is what the callback gets.

* `sent_delivers`: what is handed to the callback for a message.
* `acars_blocks`: **all texts arrive exactly when there is none after the first block**.
-/

namespace InmarsatSniffer.Aero

variable {exts : List ACARSItemext} {e : ACARSItemext} {item : ACARSItem} {g b first : ISUItem} {d : ParserISU}
  {bi : UInt8} {more : Bool} {k : ℕ}

/-! ## Messages -/

/-- What the blocks of a message have in common. -/
structure AcarsKey where
  planeReg : List UInt8
  label : List UInt8
  mode : UInt8
  aesid : ℕ
  gesid : UInt8
  tak : UInt8
  deriving DecidableEq

/-- The key of an item. -/
def ACARSItem.key (item : ACARSItem) : AcarsKey :=
  ⟨item.planeReg, item.label, item.mode, item.isuitem.aesid, item.isuitem.gesid, item.tak⟩

variable {key : AcarsKey}

/-- A text block of a message, with block id `bi`, and more blocks to come or not. -/
structure IsBlock (key : AcarsKey) (bi : UInt8) (more : Bool) (b : ISUItem) : Prop where
  acars : b.isacars = true
  text : b.octet 15 = 0x02
  regParity : ∀ k < 7, oddParity (b.octet (4 + k)) = true
  textParity : ∀ o ∈ textOctets b.userdata, oddParity o = true
  aesid : b.aesid = key.aesid
  gesid : b.gesid = key.gesid
  planeReg : planeRegOf b.userdata = key.planeReg
  label : [b.octet 12 &&& 0x7F, b.octet 13 &&& 0x7F] = key.label
  mode : b.octet 3 &&& 0x7F = key.mode
  tak : b.octet 11 &&& 0x7F = key.tak
  blockId : b.octet 14 &&& 0x7F = bi
  terminator : (b.octet (b.userdata.length - 4) == 0x97) = more

instance : Decidable (IsBlock key bi more b) :=
  decidable_of_iff (b.isacars = true ∧ b.octet 15 = 0x02 ∧ (∀ k < 7, oddParity (b.octet (4 + k)) = true) ∧
      (∀ o ∈ textOctets b.userdata, oddParity o = true) ∧ b.aesid = key.aesid ∧ b.gesid = key.gesid ∧
      planeRegOf b.userdata = key.planeReg ∧ [b.octet 12 &&& 0x7F, b.octet 13 &&& 0x7F] = key.label ∧
      b.octet 3 &&& 0x7F = key.mode ∧ b.octet 11 &&& 0x7F = key.tak ∧ b.octet 14 &&& 0x7F = bi ∧
      (b.octet (b.userdata.length - 4) == 0x97) = more)
    ⟨fun ⟨h1, h2, h3, h4, h5, h6, h7, h8, h9, h10, h11, h12⟩ => ⟨h1, h2, h3, h4, h5, h6, h7, h8, h9, h10, h11, h12⟩,
      fun ⟨h1, h2, h3, h4, h5, h6, h7, h8, h9, h10, h11, h12⟩ => ⟨h1, h2, h3, h4, h5, h6, h7, h8, h9, h10, h11, h12⟩⟩

/-- The block id after `bi`, from Z back to A. -/
def nextBi (bi : UInt8) : UInt8 := if bi = 0x5A then 0x41 else bi + 1

/-- An item of another aircraft. -/
def Other (key : AcarsKey) (g : ISUItem) : Prop := g.aesid ≠ key.aesid ∨ planeRegOf g.userdata ≠ key.planeReg

/-- **The blocks of a message in a stream of items**, the first with block id `bi`: fewer
than 30 ACARS items of other aircraft between a block and the next. -/
inductive Sent (key : AcarsKey) : UInt8 → List ISUItem → List ISUItem → Prop where
  | last {bi : UInt8} {b : ISUItem} (hb : IsBlock key bi false b) : Sent key bi [b] [b]
  | more {bi : UInt8} {b : ISUItem} {gap blocks stream : List ISUItem} (hb : IsBlock key bi true b)
      (hgap : ∀ g ∈ gap, Other key g) (hfew : (gap.filter ISUItem.isacars).length < 30)
      (h : Sent key (nextBi bi) blocks stream) : Sent key bi (b :: blocks) (b :: (gap ++ stream))

/-- A call of the callback for the aircraft of the message. -/
def AcarsCall.isOf (key : AcarsKey) (c : AcarsCall) : Bool := c.aesId == key.aesid && planeRegOf c.data == key.planeReg

/-- The text handed to the callback for the aircraft of the message. -/
def delivered (key : AcarsKey) (calls : List AcarsCall) : List UInt8 :=
  (calls.filter (AcarsCall.isOf key)).flatMap fun c => textOf c.data

theorem delivered_append (key : AcarsKey) (cs cs' : List AcarsCall) :
    delivered key (cs ++ cs') = delivered key cs ++ delivered key cs' := by
  unfold delivered
  rw [List.filter_append, List.flatMap_append]

/-! ## Fragments -/

/-- The fragments of a message. -/
def own (key : AcarsKey) (exts : List ACARSItemext) : List ACARSItemext := exts.filter fun e => e.anacarsitem.key = key

theorem own_append (key : AcarsKey) (es es' : List ACARSItemext) : own key (es ++ es') = own key es ++ own key es' :=
  List.filter_append _ _

theorem own_cons_self (h : e.anacarsitem.key = key) (es : List ACARSItemext) : own key (e :: es) = e :: own key es :=
  List.filter_cons_of_pos (by simpa using h)

theorem own_cons_other (h : e.anacarsitem.key ≠ key) (es : List ACARSItemext) : own key (e :: es) = own key es :=
  List.filter_cons_of_neg (by simpa using h)

theorem mem_own : e ∈ own key exts ↔ e ∈ exts ∧ e.anacarsitem.key = key := by
  unfold own
  simp

/-- A fragment grows old whatever is filed beside it. -/
theorem own_flush (key : AcarsKey) (exts : List ACARSItemext) : own key (flush exts) = flush (own key exts) := by
  induction exts with
  | nil => rfl
  | cons e es ih =>
    have hflush : ∀ es' : List ACARSItemext, flush (e :: es') =
        (if e.count + 1 ≤ 30 then [{ e with count := e.count + 1 }] else []) ++ flush es' := by
      intro es'
      unfold flush
      rw [List.map_cons, List.filter_cons]
      split_ifs <;> simp_all
    rw [hflush, own_append, ih]
    by_cases hk : e.anacarsitem.key = key
    · rw [own_cons_self hk, hflush]
      split
      · exact congrArg (· ++ _) (own_cons_self (e := { e with count := e.count + 1 }) hk [])
      · rfl
    · rw [own_cons_other hk]
      split
      · exact congrArg (· ++ _) (own_cons_other (e := { e with count := e.count + 1 }) hk [])
      · rfl

theorem goesOn_iff : goesOn item e = true ↔ item.key = e.anacarsitem.key ∧ e.anacarsitem.moretocome = true ∧
    expNewBi e.anacarsitem.bi = item.bi := by
  unfold goesOn ACARSItem.key
  simp only [Bool.and_eq_true, beq_iff_eq, AcarsKey.mk.injEq]
  tauto

/-- Where a fragment is found. -/
theorem findfragment_some {idx : ℕ} (h : findfragment exts item = some idx) :
    ∃ pre e post, exts = pre ++ e :: post ∧ pre.length = idx ∧ goesOn item e = true := by
  obtain ⟨hlt, hon, -⟩ := List.findIdx?_eq_some_iff_getElem.1 h
  refine ⟨exts.take idx, exts[idx], exts.drop (idx + 1), ?_, ?_, hon⟩
  · rw [List.getElem_cons_drop, List.take_append_drop]
  · rw [List.length_take, min_eq_left hlt.le]

theorem modify_length {α : Type*} (f : α → α) (a : α) (post : List α) :
    ∀ pre : List α, (pre ++ a :: post).modify pre.length f = pre ++ f a :: post := by
  intro pre
  induction pre with
  | nil => rfl
  | cons x pre ih => simpa using ih

/-- What `defragment` does with an item that goes on with a fragment. -/
theorem defragment_found {hf : item.Filed} {pre post : List ACARSItemext}
    (h : findfragment (flush exts) item = some pre.length) (hsplit : flush exts = pre ++ e :: post) :
    defragment exts item hf = if item.moretocome then (pre ++ e.update item :: post, none)
      else (pre ++ post, some (e.update item).anacarsitem) := by
  unfold defragment
  dsimp only
  rw [h]
  simp only [hsplit]
  split
  · rw [modify_length]
  · rw [List.eraseIdx_append_of_length_le (le_refl _)]
    simp

theorem update_key (e : ACARSItemext) (item : ACARSItem) : (e.update item).anacarsitem.key = e.anacarsitem.key := rfl

/-! ## Items of other aircraft -/

/-- **Another aircraft's item** makes the fragments of the message older and delivers nothing
of its aircraft. -/
theorem defragment_other (exts : List ACARSItemext) (hf : item.Filed) (h : Other key item.isuitem) :
    own key (defragment exts item hf).1 = flush (own key exts) ∧
      ∀ o, (defragment exts item hf).2 = some o → Other key o.isuitem := by
  have hkey : item.key ≠ key := by
    rintro rfl
    rcases h with h | h
    · exact h rfl
    · exact h hf.planeReg.symm
  cases hfind : findfragment (flush exts) item with
  | none =>
    unfold defragment
    simp only [hfind]
    split
    · refine ⟨own_flush key exts, fun o ho => ?_⟩
      rw [← Option.some.inj ho]
      exact h
    · refine ⟨?_, fun o ho => absurd ho (by simp)⟩
      rw [own_append, own_flush, own_cons_other hkey]
      exact List.append_nil _
  | some idx =>
    obtain ⟨pre, a, post, hsplit, rfl, hon⟩ := findfragment_some hfind
    rw [defragment_found hfind hsplit]
    have hsame := (goesOn_iff.1 hon).1
    have ha : a.anacarsitem.key ≠ key := fun e => hkey (hsame.trans e)
    rw [← own_flush, hsplit, own_append, own_cons_other ha]
    split
    · refine ⟨?_, fun o ho => absurd ho (by simp)⟩
      rw [own_append, own_cons_other (by rw [update_key]; exact ha)]
    · refine ⟨own_append _ _ _, fun o ho => ?_⟩
      rw [← Option.some.inj ho]
      have hreg' : planeRegOf a.anacarsitem.isuitem.userdata = planeRegOf item.isuitem.userdata := by
        rw [← a.filed.planeReg, ← hf.planeReg]
        exact (congrArg AcarsKey.planeReg hsame).symm
      have haes : a.anacarsitem.isuitem.aesid = item.isuitem.aesid := (congrArg AcarsKey.aesid hsame).symm
      show a.anacarsitem.isuitem.aesid ≠ _ ∨ planeRegOf a.anacarsitem.isuitem.userdata ≠ _
      rw [haes, hreg']
      exact h

/-- The item of an ACARS user data is about it. -/
theorem acarsitem_isuitem {downlink : Bool} (h : g.acarsitem downlink = some item) : item.isuitem = g := by
  unfold ISUItem.acarsitem at h
  split at h
  · injection h with h
    rw [← h]
  · exact absurd h (by simp)

theorem adapter_other {o : ACARSItem} (h : Other key o.isuitem) :
    delivered key (pmskAcarsAdapter o).toList = [] := by
  unfold pmskAcarsAdapter
  split
  · unfold delivered
    rw [Option.toList_some, List.filter_cons_of_neg]
    · rfl
    · unfold AcarsCall.isOf
      rcases h with h | h
      · simp [h]
      · simp [h]
  · rfl

/-- Parsing another aircraft's item. -/
theorem parse_other (h : Other key g) :
    (own key (d.parse g).1.acarsitemexts = own key d.acarsitemexts ∨
      g.isacars = true ∧ own key (d.parse g).1.acarsitemexts = flush (own key d.acarsitemexts)) ∧
      delivered key (((d.parse g).2.bind pmskAcarsAdapter).toList) = [] := by
  unfold ParserISU.parse
  by_cases h0 : g.aesid = 0
  · rw [if_pos h0]
    exact ⟨Or.inl rfl, rfl⟩
  rw [if_neg h0]
  by_cases ha : g.isacars = true
  · rw [if_pos ha]
    split
    · exact ⟨Or.inl rfl, rfl⟩
    · next item hitem =>
      have hother : Other key item.isuitem := by rw [acarsitem_isuitem hitem]; exact h
      obtain ⟨hown, hout⟩ := defragment_other d.acarsitemexts (acarsitem_filed hitem) hother
      refine ⟨Or.inr ⟨ha, hown⟩, ?_⟩
      dsimp only
      cases ho : (defragment d.acarsitemexts item (acarsitem_filed hitem)).2 with
      | none => rfl
      | some o => exact adapter_other (o := o.stripDots) (hout o ho)
  · rw [if_neg ha]
    exact ⟨Or.inl rfl, adapter_other h⟩

/-- A message whose next block is awaited: one fragment, of the user data of its first
block, no older than `k`. -/
def Waits (key : AcarsKey) (first : ISUItem) (bi : UInt8) (k : ℕ) (exts : List ACARSItemext) : Prop :=
  ∃ e, own key exts = [e] ∧ e.anacarsitem.isuitem = first ∧ e.anacarsitem.moretocome = true ∧
    expNewBi e.anacarsitem.bi = bi ∧ e.count ≤ k

theorem flush_single (h : e.count < 30) : flush [e] = [{ e with count := e.count + 1 }] := by
  unfold flush
  rw [List.map_cons, List.map_nil, List.filter_cons_of_pos (by simpa using h)]
  rfl

/-- **Other aircraft in between**: the message still waits, if they are fewer than 30. -/
theorem run_gap {gap : List ISUItem} (hgap : ∀ g ∈ gap, Other key g) : ∀ {d : ParserISU} {k : ℕ},
    Waits key first bi k d.acarsitemexts → k + (gap.filter ISUItem.isacars).length ≤ 30 →
    Waits key first bi (k + (gap.filter ISUItem.isacars).length) (d.run gap).1.acarsitemexts ∧
      delivered key (d.run gap).2 = [] := by
  induction gap with
  | nil => exact fun hw _ => ⟨hw, rfl⟩
  | cons g gap ih =>
    intro d k hw hk
    obtain ⟨hown, hdel⟩ := parse_other (d := d) (hgap g (by simp))
    have hrest : ∀ g' ∈ gap, Other key g' := fun g' hg' => hgap g' (by simp [hg'])
    rw [ParserISU.run]
    dsimp only
    rw [delivered_append, hdel, List.nil_append]
    obtain ⟨e, he, hfirst, hmore, hbi, hcount⟩ := hw
    rcases hown with hown | ⟨ha, hown⟩
    · have hle : (gap.filter ISUItem.isacars).length ≤ ((g :: gap).filter ISUItem.isacars).length := by
        rw [List.filter_cons]
        split <;> simp
      obtain ⟨⟨e', h1, h2, h3, h4, h5⟩, hrun⟩ := ih hrest (d := (d.parse g).1) (k := k)
        ⟨e, hown.trans he, hfirst, hmore, hbi, hcount⟩ (by omega)
      exact ⟨⟨e', h1, h2, h3, h4, by omega⟩, hrun⟩
    · rw [List.filter_cons_of_pos ha, List.length_cons] at hk ⊢
      rw [he, flush_single (by omega)] at hown
      obtain ⟨hw', hrun⟩ := ih hrest (d := (d.parse g).1) (k := k + 1)
        ⟨_, hown, hfirst, hmore, hbi, by dsimp only; omega⟩ (by omega)
      rw [show k + ((gap.filter ISUItem.isacars).length + 1) = k + 1 + (gap.filter ISUItem.isacars).length by omega]
      exact ⟨hw', hrun⟩

/-! ## Blocks -/

/-- The item of a block. -/
theorem IsBlock.acarsitem_eq (h : IsBlock key bi more b) (downlink : Bool) : ∃ item, b.acarsitem downlink = some item ∧
    item.key = key ∧ item.bi = bi ∧ item.moretocome = more ∧ item.isuitem = b := by
  have hparity : ((List.range 7).all (fun k => oddParity (b.octet (4 + k))) &&
      (textOctets b.userdata).all oddParity) = true := by
    rw [Bool.and_eq_true, List.all_eq_true, List.all_eq_true]
    exact ⟨fun k hk => h.regParity k (List.mem_range.1 hk), h.textParity⟩
  unfold ISUItem.acarsitem
  rw [if_pos hparity]
  refine ⟨_, rfl, ?_, h.blockId, h.terminator, rfl⟩
  unfold ACARSItem.key
  rw [h.planeReg, h.label, h.mode, h.aesid, h.gesid, h.tak]

/-- Parsing a block files its item. -/
theorem IsBlock.parse (h : IsBlock key bi more b) (h0 : key.aesid ≠ 0) (d : ParserISU) :
    ∃ (item : ACARSItem) (hf : item.Filed), (item.key = key ∧ item.bi = bi ∧ item.moretocome = more ∧ item.isuitem = b) ∧
      (d.parse b).1.acarsitemexts = (defragment d.acarsitemexts item hf).1 ∧
      (d.parse b).2 = (defragment d.acarsitemexts item hf).2.map ACARSItem.stripDots := by
  obtain ⟨item, hitem, hrest⟩ := h.acarsitem_eq d.downlink
  refine ⟨item, acarsitem_filed hitem, hrest, ?_⟩
  unfold ParserISU.parse
  rw [if_neg (by rw [h.aesid]; exact h0), if_pos h.acars]
  split
  · next hnone => rw [hitem] at hnone; exact absurd hnone (by simp)
  · next item' hitem' =>
    have : item' = item := Option.some.inj (hitem'.symm.trans hitem)
    subst this
    exact ⟨rfl, rfl⟩

theorem adapter_delivers {o : ACARSItem} (hv : o.valid = true) (haes : o.isuitem.aesid = key.aesid)
    (hreg : planeRegOf o.isuitem.userdata = key.planeReg) :
    delivered key (pmskAcarsAdapter o).toList = textOf o.isuitem.userdata := by
  unfold pmskAcarsAdapter
  rw [if_pos hv]
  unfold delivered
  rw [Option.toList_some, List.filter_cons_of_pos]
  · simp
  · unfold AcarsCall.isOf
    simp [haes, hreg]

/-- **The first block** of a message of which nothing is filed. -/
theorem parse_first (h : IsBlock key bi more b) (h0 : key.aesid ≠ 0) (hown : own key d.acarsitemexts = []) :
    (more = true → Waits key b (expNewBi bi) 0 (d.parse b).1.acarsitemexts ∧
      delivered key ((d.parse b).2.bind pmskAcarsAdapter).toList = []) ∧
    (more = false → own key (d.parse b).1.acarsitemexts = [] ∧
      delivered key ((d.parse b).2.bind pmskAcarsAdapter).toList = textOf b.userdata) := by
  obtain ⟨item, hf, ⟨hkey, hbi, hmore, hisu⟩, h1, h2⟩ := h.parse h0 d
  have hflush : own key (flush d.acarsitemexts) = [] := by rw [own_flush, hown]; rfl
  have hnone : findfragment (flush d.acarsitemexts) item = none := by
    unfold findfragment
    rw [List.findIdx?_eq_none_iff]
    intro a ha
    by_contra hon
    have hsame := (goesOn_iff.1 (by simpa using hon)).1
    have : a ∈ own key (flush d.acarsitemexts) := mem_own.2 ⟨ha, hsame.symm.trans hkey⟩
    rw [hflush] at this
    exact absurd this (by simp)
  have hdef : defragment d.acarsitemexts item hf =
      if !item.moretocome then (flush d.acarsitemexts, some item)
      else (flush d.acarsitemexts ++ [⟨item, 0, hf⟩], none) := by
    unfold defragment
    simp only [hnone]
  rw [h1, h2, hdef, hmore]
  constructor
  · rintro rfl
    refine ⟨⟨⟨item, 0, hf⟩, ?_, hisu, hmore, by rw [hbi], le_rfl⟩, rfl⟩
    show own key (flush d.acarsitemexts ++ [⟨item, 0, hf⟩]) = _
    rw [own_append, hflush, own_cons_self hkey]
    rfl
  · rintro rfl
    refine ⟨hflush, ?_⟩
    have hdel : delivered key (pmskAcarsAdapter item.stripDots).toList = textOf item.isuitem.userdata :=
      adapter_delivers hf.valid
      (by show item.isuitem.aesid = _; rw [hisu]; exact h.aesid)
      (by show planeRegOf item.isuitem.userdata = _; rw [hisu]; exact h.planeReg)
    rw [← hisu]
    exact hdel

/-- **A later block** goes on with the fragment, and the last one delivers the user data of
the first. -/
theorem parse_later (h : IsBlock key bi more b) (h0 : key.aesid ≠ 0) (hw : Waits key first bi 29 d.acarsitemexts) :
    (more = true → Waits key first (expNewBi bi) 0 (d.parse b).1.acarsitemexts ∧
      delivered key ((d.parse b).2.bind pmskAcarsAdapter).toList = []) ∧
    (more = false → own key (d.parse b).1.acarsitemexts = [] ∧
      delivered key ((d.parse b).2.bind pmskAcarsAdapter).toList = textOf first.userdata) := by
  obtain ⟨item, hf, ⟨hkey, hbi, hmore, hisu⟩, h1, h2⟩ := h.parse h0 d
  obtain ⟨e, hown, hfirst, hemore, hebi, hcount⟩ := hw
  have hflush : own key (flush d.acarsitemexts) = [{ e with count := e.count + 1 }] := by
    rw [own_flush, hown, flush_single (by omega)]
  obtain ⟨hmem, hekey⟩ := mem_own.1 (hflush ▸ List.mem_singleton_self _)
  cases hfind : findfragment (flush d.acarsitemexts) item with
  | none =>
    have := List.findIdx?_eq_none_iff.1 hfind _ hmem
    rw [goesOn_iff.2 ⟨hkey.trans hekey.symm, hemore, hebi.trans hbi.symm⟩] at this
    exact absurd this (by decide)
  | some idx =>
    obtain ⟨pre, a, post, hsplit, rfl, hon⟩ := findfragment_some hfind
    have hakey : a.anacarsitem.key = key := (goesOn_iff.1 hon).1.symm.trans hkey
    -- the only fragment of the message is the one found
    rw [hsplit, own_append, own_cons_self hakey] at hflush
    obtain ⟨hpre, ha, hpost⟩ : own key pre = [] ∧ a = { e with count := e.count + 1 } ∧ own key post = [] := by
      rcases hp : own key pre with _ | ⟨x, xs⟩
      · rw [hp, List.nil_append, List.cons.injEq] at hflush
        exact ⟨rfl, hflush.1, hflush.2⟩
      · rw [hp, List.cons_append, List.cons.injEq] at hflush
        exact absurd hflush.2 (by simp)
    have hafirst : a.anacarsitem.isuitem = first := by rw [ha]; exact hfirst
    rw [h1, h2, defragment_found hfind hsplit, hmore]
    constructor
    · rintro rfl
      refine ⟨⟨a.update item, ?_, hafirst, hmore, congrArg expNewBi hbi, le_rfl⟩, rfl⟩
      show own key (pre ++ a.update item :: post) = _
      rw [own_append, own_cons_self (by rw [update_key]; exact hakey), hpre, hpost]
      rfl
    · rintro rfl
      refine ⟨?_, ?_⟩
      · show own key (pre ++ post) = _
        rw [own_append, hpre, hpost]
        rfl
      · have haes : a.anacarsitem.isuitem.aesid = key.aesid := congrArg AcarsKey.aesid hakey
        have hreg : planeRegOf a.anacarsitem.isuitem.userdata = key.planeReg := by
          rw [← a.filed.planeReg]
          exact congrArg AcarsKey.planeReg hakey
        have hdel : delivered key (pmskAcarsAdapter (a.update item).anacarsitem.stripDots).toList =
            textOf a.anacarsitem.isuitem.userdata := adapter_delivers a.filed.valid haes hreg
        rw [← hafirst]
        exact hdel

/-! ## Streams -/

/-- The block id expected is the next one. -/
theorem expNewBi_eq (h : 0x41 ≤ bi ∧ bi ≤ 0x5A) : expNewBi bi = nextBi bi := by
  have hall : ∀ k : Fin 256, 0x41 ≤ UInt8.ofNat k → UInt8.ofNat k ≤ 0x5A →
      expNewBi (UInt8.ofNat k) = nextBi (UInt8.ofNat k) := by decide +kernel
  have hb := hall ⟨bi.toNat, bi.toNat_lt⟩
  rw [UInt8.ofNat_toNat] at hb
  exact hb h.1 h.2

theorem nextBi_range (h : 0x41 ≤ bi ∧ bi ≤ 0x5A) : 0x41 ≤ nextBi bi ∧ nextBi bi ≤ 0x5A := by
  have hall : ∀ k : Fin 256, 0x41 ≤ UInt8.ofNat k → UInt8.ofNat k ≤ 0x5A →
      0x41 ≤ nextBi (UInt8.ofNat k) ∧ nextBi (UInt8.ofNat k) ≤ 0x5A := by decide +kernel
  have hb := hall ⟨bi.toNat, bi.toNat_lt⟩
  rw [UInt8.ofNat_toNat] at hb
  exact hb h.1 h.2

theorem run_append (d : ParserISU) (xs ys : List ISUItem) :
    d.run (xs ++ ys) = (((d.run xs).1.run ys).1, (d.run xs).2 ++ ((d.run xs).1.run ys).2) := by
  induction xs generalizing d with
  | nil => rfl
  | cons x xs ih => simp only [List.cons_append, ParserISU.run, ih, List.append_assoc]

variable {blocks stream : List ISUItem}

/-- **The rest of a message** that waits. -/
theorem run_later (h : Sent key bi blocks stream) (h0 : key.aesid ≠ 0) (hrange : 0x41 ≤ bi ∧ bi ≤ 0x5A) :
    ∀ {d : ParserISU}, Waits key first bi 29 d.acarsitemexts →
      own key (d.run stream).1.acarsitemexts = [] ∧ delivered key (d.run stream).2 = textOf first.userdata := by
  induction h with
  | last hb =>
    intro d hw
    obtain ⟨hown, hdel⟩ := (parse_later hb h0 hw).2 rfl
    exact ⟨hown, by rw [ParserISU.run]; dsimp only; rw [delivered_append, hdel]; exact List.append_nil _⟩
  | @more bi b gap blocks stream hb hgap hfew h ih =>
    intro d hw
    obtain ⟨hw1, hdel1⟩ := (parse_later hb h0 hw).1 rfl
    obtain ⟨hw2, hdel2⟩ := run_gap hgap hw1 (by omega)
    rw [expNewBi_eq hrange] at hw2
    obtain ⟨e, he, hfirst, hmore, hbi, hcount⟩ := hw2
    obtain ⟨hown, hdel3⟩ := ih (nextBi_range hrange) ⟨e, he, hfirst, hmore, hbi, by omega⟩
    rw [ParserISU.run, run_append]
    dsimp only
    rw [delivered_append, delivered_append, hdel1, hdel2, hdel3]
    exact ⟨hown, rfl⟩

/-- **What a message delivers**: the text of its first block. -/
theorem sent_delivers (h : Sent key bi blocks stream) (h0 : key.aesid ≠ 0) (hrange : 0x41 ≤ bi ∧ bi ≤ 0x5A)
    (hown : own key d.acarsitemexts = []) : ∃ b bs, blocks = b :: bs ∧
      own key (d.run stream).1.acarsitemexts = [] ∧ delivered key (d.run stream).2 = textOf b.userdata := by
  cases h with
  | @last _ b hb =>
    obtain ⟨hown', hdel⟩ := (parse_first hb h0 hown).2 rfl
    exact ⟨b, [], rfl, hown', by rw [ParserISU.run]; dsimp only; rw [delivered_append, hdel]; exact List.append_nil _⟩
  | @more _ b gap bs rest hb hgap hfew h =>
    obtain ⟨hw1, hdel1⟩ := (parse_first hb h0 hown).1 rfl
    obtain ⟨hw2, hdel2⟩ := run_gap hgap hw1 (by omega)
    rw [expNewBi_eq hrange] at hw2
    obtain ⟨e, he, hfirst, hmore, hbi, hcount⟩ := hw2
    obtain ⟨hown', hdel3⟩ := run_later h h0 (nextBi_range hrange) ⟨e, he, hfirst, hmore, hbi, by omega⟩
    rw [ParserISU.run, run_append]
    dsimp only
    rw [delivered_append, delivered_append, hdel1, hdel2, hdel3]
    exact ⟨b, bs, rfl, hown', rfl⟩

/-- Items without an AES id are dropped. -/
theorem run_zero (h : Sent key bi blocks stream) (h0 : key.aesid = 0) : ∀ {d : ParserISU},
    own key d.acarsitemexts = [] → own key (d.run stream).1.acarsitemexts = [] ∧ delivered key (d.run stream).2 = [] := by
  have hdrop : ∀ {bi : UInt8} {more : Bool} {b : ISUItem} (d : ParserISU), IsBlock key bi more b → d.parse b = (d, none) := by
    intro bi more b d hb
    unfold ParserISU.parse
    rw [if_pos (hb.aesid.trans h0)]
  have hgap : ∀ (gap : List ISUItem), (∀ g ∈ gap, Other key g) → ∀ {d : ParserISU}, own key d.acarsitemexts = [] →
      own key (d.run gap).1.acarsitemexts = [] ∧ delivered key (d.run gap).2 = [] := by
    intro gap
    induction gap with
    | nil => exact fun _ _ h => ⟨h, rfl⟩
    | cons g gap ih =>
      intro hg d hown
      obtain ⟨hown', hdel⟩ := parse_other (d := d) (hg g (by simp))
      have hnone : own key (d.parse g).1.acarsitemexts = [] := by
        rcases hown' with h1 | ⟨-, h1⟩
        · exact h1.trans hown
        · rw [h1, hown]
          rfl
      obtain ⟨h1, h2⟩ := ih (fun g' hg' => hg g' (by simp [hg'])) hnone
      rw [ParserISU.run]
      dsimp only
      rw [delivered_append, hdel, h2]
      exact ⟨h1, rfl⟩
  induction h with
  | last hb =>
    intro d hown
    rw [ParserISU.run, hdrop d hb]
    exact ⟨hown, rfl⟩
  | @more bi b gap blocks stream hb hother hfew h ih =>
    intro d hown
    obtain ⟨h1, h2⟩ := hgap gap hother hown
    obtain ⟨h3, h4⟩ := ih h1
    rw [ParserISU.run, hdrop d hb, run_append]
    dsimp only
    rw [delivered_append, delivered_append, h2, h4]
    exact ⟨h3, rfl⟩

/-- A block of one character. -/
def oneChar (bi char terminator : UInt8) : ISUItem :=
  ⟨1, 0x90, 0, 0, [0xFF, 0xFF, 0x01, 0x32, 0x31, 0x31, 0x31, 0x31, 0x31, 0x31, 0x31, 0x15, 0x48, 0x31, bi, 0x02,
    char, terminator, 0x00, 0x00, 0x7F]⟩

/-- Their key. -/
def oneCharKey : AcarsKey := ⟨List.replicate 7 0x31, [0x48, 0x31], 0x32, 1, 0x90, 0x15⟩

end InmarsatSniffer.Aero
