import InmarsatSniffer.Spec.Isu
import InmarsatSniffer.Lib.FirstMatch

/-!
# One update

What `update` does to the items of one reference octet (`ofRef`): a unit of another message
leaves them as they are or makes them older; an ISU is filed among them; an SSU is added
to the first of them that has the ids of the last ISU and waits for its number.

* `update_selected`, `update_missed`: an SSU that is added to an item, or to none.
* `run_waiting`: **an item that waits gets its SSUs** while the last ISU has its ids.
* `isu_recovers`: **a message in order arrives from every state**.
-/

namespace InmarsatSniffer.Aero

open FirstMatch

variable {d : ISUData} {data u : SU} {e x : IsuEntry} {items pre post : List IsuEntry} {ref : UInt8} {us rest : List SU}

/-! ## Reference numbers -/

/-- The ids of the stations. -/
def IsuEntry.ids (e : IsuEntry) : ℕ × UInt8 := (e.aesid, e.gesid)

/-- The item has the reference octet. -/
def IsuEntry.hasRef (ref : UInt8) (e : IsuEntry) : Bool := e.qno == qnoOf ref && e.refno == refnoOf ref

/-- The sequence number of an SSU. -/
def SU.seqno (data : SU) : ℕ := (data 0 &&& 0x3F).toNat

/-- An SSU with the reference octet. -/
def SU.ssuOf (ref : UInt8) (data : SU) : Bool := data.isSsu && data 1 == ref

/-- The items with a reference octet. -/
def ofRef (ref : UInt8) (items : List IsuEntry) : List IsuEntry := items.filter (IsuEntry.hasRef ref)

/-- Two nibbles make an octet. -/
theorem nibbles_inj {a b : UInt8} (hq : qnoOf a = qnoOf b) (hr : refnoOf a = refnoOf b) : a = b := by
  have hall : ∀ k : Fin 256, UInt8.ofNat k = (qnoOf (UInt8.ofNat k) <<< 4) ||| refnoOf (UInt8.ofNat k) := by
    decide +kernel
  have ha := hall ⟨a.toNat, a.toNat_lt⟩
  have hb := hall ⟨b.toNat, b.toNat_lt⟩
  rw [UInt8.ofNat_toNat] at ha hb
  rw [ha, hb, hq, hr]

theorem hasRef_iff : e.hasRef ref = true ↔ e.qno = qnoOf ref ∧ e.refno = refnoOf ref := by
  unfold IsuEntry.hasRef
  rw [Bool.and_eq_true, beq_iff_eq, beq_iff_eq]

/-- An item has one reference octet. -/
theorem hasRef_inj {ref' : UInt8} (h : e.hasRef ref = true) (h' : e.hasRef ref' = true) : ref = ref' := by
  rw [hasRef_iff] at h h'
  exact nibbles_inj (h.1.symm.trans h'.1) (h.2.symm.trans h'.2)

theorem hasRef_entry (data : SU) : data.entry.hasRef (data 5) = true := hasRef_iff.2 ⟨rfl, rfl⟩

theorem hasRef_of_mem (h : e ∈ ofRef ref items) : e.hasRef ref = true := (List.mem_filter.1 h).2

theorem isSsu_not_isu (h : data.isSsu = true) : data.isIsu = false := by
  unfold SU.isSsu at h
  unfold SU.isIsu
  rw [beq_iff_eq] at h
  rw [beq_eq_false_iff_ne]
  intro h0
  rw [h0] at h
  exact absurd h (by decide)

theorem ssuOf_iff : data.ssuOf ref = true ↔ data.isSsu = true ∧ data 1 = ref := by
  unfold SU.ssuOf
  rw [Bool.and_eq_true, beq_iff_eq]

/-! ## The searches -/

/-- What `findisuitemC0` looks for. -/
def selects (anisuitem : IsuEntry) (data : SU) (e : IsuEntry) : Bool :=
  anisuitem.noOctLestInLastSsu ≤ 8 && e.ids == anisuitem.ids && e.seqno == data.seqno + 1 && e.hasRef (data 1)

theorem selects_iff : selects x data e = true ↔ x.noOctLestInLastSsu ≤ 8 ∧ e.ids = x.ids ∧
    e.seqno = data.seqno + 1 ∧ e.hasRef (data 1) = true := by
  unfold selects
  simp only [Bool.and_eq_true, decide_eq_true_eq, beq_iff_eq, and_assoc]

/-- An SSU is added to the first item selected. -/
theorem update_ssu (h : data.isSsu = true) : d.update data =
    match d.isuitems.find? (selects d.anisuitem data) with
    | none => ({ d with anisuitem := d.anisuitem.withSsu data, missingssu := true }, false)
    | some e => ({ isuitems := updateFirst (selects d.anisuitem data) (fun e => e.addSsu data) d.isuitems
                   anisuitem := d.anisuitem.withSsu data
                   lastvalidisuitem := if (e.addSsu data).seqno = 0 then e.addSsu data else d.lastvalidisuitem
                   missingssu := false }, decide ((e.addSsu data).seqno = 0)) := by
  have hfind : findisuitemC0 d.isuitems (d.anisuitem.withSsu data) = d.isuitems.findIdx? (selects d.anisuitem data) := by
    unfold findisuitemC0
    by_cases hk : d.anisuitem.noOctLestInLastSsu > 8
    · have hnone : ∀ e ∈ d.isuitems, selects d.anisuitem data e = false := fun e _ => by
        rw [← Bool.not_eq_true, selects_iff]
        omega
      rw [if_pos (show (d.anisuitem.withSsu data).noOctLestInLastSsu > 8 from hk), List.findIdx?_eq_none_iff.2 hnone]
    · rw [if_neg (show ¬(d.anisuitem.withSsu data).noOctLestInLastSsu > 8 from hk)]
      congr 1
      funext e
      rw [Bool.eq_iff_iff, selects_iff, hasRef_iff]
      simp only [IsuEntry.withSsu, IsuEntry.ids, SU.seqno, Bool.and_eq_true, beq_iff_eq, Prod.mk.injEq]
      constructor
      · rintro ⟨⟨⟨⟨h1, h2⟩, h3⟩, h4⟩, h5⟩
        exact ⟨by omega, ⟨h1.symm, h2.symm⟩, h3.symm, h4.symm, h5.symm⟩
      · rintro ⟨-, ⟨h1, h2⟩, h3, h4, h5⟩
        exact ⟨⟨⟨⟨h1.symm, h2.symm⟩, h3.symm⟩, h4.symm⟩, h5.symm⟩
  unfold ISUData.update
  rw [isSsu_not_isu h, if_neg Bool.false_ne_true, if_pos h]
  dsimp only
  rw [hfind]
  cases hidx : d.isuitems.findIdx? (selects d.anisuitem data) with
  | none => rw [find?_of_findIdx? hidx]
  | some idx =>
    obtain ⟨h1, h2⟩ := updateFirst_findIdx (f := fun e => e.addSsu data) hidx (d.anisuitem.withSsu data)
    rw [h1]
    dsimp only at h2 ⊢
    rw [h2]
    split
    · next h0 => rw [decide_eq_true h0]
    · next h0 => rw [decide_eq_false h0]

/-- What `findisuitem71` looks for. -/
def repeats (anisuitem e : IsuEntry) : Bool :=
  anisuitem.noOctLestInLastSsu ≤ 8 && e.ids == anisuitem.ids && e.qno == anisuitem.qno && e.refno == anisuitem.refno

theorem repeats_iff : repeats x e = true ↔ x.noOctLestInLastSsu ≤ 8 ∧ e.ids = x.ids ∧
    e.qno = x.qno ∧ e.refno = x.refno := by
  unfold repeats
  simp only [Bool.and_eq_true, decide_eq_true_eq, beq_iff_eq, and_assoc]

/-- An ISU takes the place of the first item that it repeats. -/
theorem fileIsu_eq (items : List IsuEntry) (x : IsuEntry) : fileIsu items x =
    if (items.find? (repeats x)).isSome then updateFirst (repeats x) (fun _ => x) items else items ++ [x] := by
  have hfind : findisuitem71 items x = items.findIdx? (repeats x) := by
    unfold findisuitem71
    split
    · next hk =>
      have hnone : ∀ e ∈ items, repeats x e = false := fun e _ => by
        rw [← Bool.not_eq_true, repeats_iff]
        omega
      rw [List.findIdx?_eq_none_iff.2 hnone]
    · next hk =>
      congr 1
      funext e
      rw [Bool.eq_iff_iff, repeats_iff]
      simp only [IsuEntry.ids, Bool.and_eq_true, beq_iff_eq, Prod.mk.injEq]
      constructor
      · rintro ⟨⟨⟨h1, h2⟩, h3⟩, h4⟩
        exact ⟨by omega, ⟨h1.symm, h2.symm⟩, h3.symm, h4.symm⟩
      · rintro ⟨-, ⟨h1, h2⟩, h3, h4⟩
        exact ⟨⟨⟨h1.symm, h2.symm⟩, h3.symm⟩, h4.symm⟩
  unfold fileIsu
  rw [hfind]
  cases hidx : items.findIdx? (repeats x) with
  | none => rw [find?_of_findIdx? hidx]; rfl
  | some idx =>
    obtain ⟨h1, h2⟩ := updateFirst_findIdx (f := fun _ => x) hidx x
    rw [h1, ← h2]
    rfl

/-! ## The items of one reference octet -/

theorem hasRef_addSsu (e : IsuEntry) (data : SU) : (e.addSsu data).hasRef ref = e.hasRef ref := rfl

theorem ids_addSsu (e : IsuEntry) (data : SU) : (e.addSsu data).ids = e.ids := rfl

/-- Items get older whatever is filed beside them. -/
theorem ofRef_deleteold (ref : UInt8) (items : List IsuEntry) :
    ofRef ref (deleteoldisuitems items) = deleteoldisuitems (ofRef ref items) := by
  unfold ofRef
  induction items with
  | nil => rfl
  | cons e es ih =>
    have hage : ({ e with count := e.count + 1 } : IsuEntry).hasRef ref = e.hasRef ref := rfl
    rw [deleteoldisuitems]
    by_cases hr : e.hasRef ref = true
    · rw [List.filter_cons_of_pos hr, deleteoldisuitems]
      split
      · exact ih
      · rw [List.filter_cons_of_pos (hage.trans hr), ih]
    · rw [List.filter_cons_of_neg hr]
      split
      · exact ih
      · rw [List.filter_cons_of_neg (by rwa [hage]), ih]

/-- An ISU is filed among the items of its reference octet. -/
theorem ofRef_fileIsu_self (hx : x.hasRef ref = true) : ofRef ref (fileIsu items x) = fileIsu (ofRef ref items) x := by
  have hsub : ∀ e, repeats x e = true → e.hasRef ref = true := fun e he => by
    rw [hasRef_iff] at hx ⊢
    rw [repeats_iff] at he
    exact ⟨he.2.2.1.trans hx.1, he.2.2.2.trans hx.2⟩
  rw [fileIsu_eq, fileIsu_eq]
  unfold ofRef
  rw [find?_filter hsub]
  split
  · exact filter_updateFirst_own fun e he => ⟨hsub e he, hx⟩
  · rw [List.filter_append, List.filter_cons_of_pos hx, List.filter_nil]

theorem ofRef_fileIsu_other (hx : x.hasRef ref = false) : ofRef ref (fileIsu items x) = ofRef ref items := by
  have hother : ∀ e, repeats x e = true → e.hasRef ref = false := fun e he => by
    rw [← Bool.not_eq_true, hasRef_iff] at hx ⊢
    rw [repeats_iff] at he
    rwa [he.2.2.1, he.2.2.2]
  rw [fileIsu_eq]
  unfold ofRef
  split
  · exact filter_updateFirst_other fun e he => ⟨hother e he, hx⟩
  · rw [List.filter_append, List.filter_cons_of_neg (by simp [hx]), List.filter_nil, List.append_nil]

theorem update_isu (h : data.isIsu = true) : d.update data = ({ d with
    isuitems := fileIsu (deleteoldisuitems d.isuitems) data.entry, anisuitem := data.entry, missingssu := false }, false) := by
  unfold ISUData.update
  rw [if_pos h]

/-- **A unit that is no SSU of the reference octet**, and no ISU. -/
theorem update_other (hi : data.isIsu = false) (hs : data.ssuOf ref = false) :
    ofRef ref (d.update data).1.isuitems = ofRef ref d.isuitems ∧ (d.update data).1.anisuitem.ids = d.anisuitem.ids ∧
      (d.update data).1.anisuitem.noOctLestInLastSsu = d.anisuitem.noOctLestInLastSsu := by
  by_cases h : data.isSsu = true
  · rw [update_ssu h]
    cases hf : d.isuitems.find? (selects d.anisuitem data) with
    | none => exact ⟨rfl, rfl, rfl⟩
    | some e =>
      refine ⟨filter_updateFirst_other fun e' he' => ?_, rfl, rfl⟩
      have hr := (selects_iff.1 he').2.2.2
      have hne : e'.hasRef ref = false := by
        rw [← Bool.not_eq_true]
        intro hr'
        rw [← Bool.not_eq_true, ssuOf_iff] at hs
        exact hs ⟨h, hasRef_inj hr hr'⟩
      exact ⟨hne, hne⟩
  · unfold ISUData.update
    rw [hi, if_neg Bool.false_ne_true, if_neg h]
    exact ⟨rfl, rfl, rfl⟩

/-- **An SSU that is added to an item**: the first one that has the ids of the last ISU. -/
theorem update_selected (h : data.ssuOf ref = true) (hk : d.anisuitem.noOctLestInLastSsu ≤ 8)
    (hitems : ofRef ref d.isuitems = pre ++ e :: post) (hpre : ∀ x ∈ pre, x.ids ≠ e.ids)
    (hids : d.anisuitem.ids = e.ids) (hseq : e.seqno = data.seqno + 1) :
    ofRef ref (d.update data).1.isuitems = pre ++ e.addSsu data :: post ∧
      (d.update data).1.anisuitem.ids = e.ids ∧ (d.update data).1.anisuitem.noOctLestInLastSsu ≤ 8 ∧
      (d.update data).2 = decide (data.seqno = 0) ∧
      (data.seqno = 0 → (d.update data).1.lastvalidisuitem = e.addSsu data) := by
  obtain ⟨hssu, href⟩ := ssuOf_iff.1 h
  subst href
  have hsub : ∀ x, selects d.anisuitem data x = true → x.hasRef (data 1) = true := fun x hx => (selects_iff.1 hx).2.2.2
  have hmem : e ∈ ofRef (data 1) d.isuitems := by
    rw [hitems]
    simp
  have he : selects d.anisuitem data e = true := selects_iff.2 ⟨hk, hids.symm, hseq, hasRef_of_mem hmem⟩
  have hnot : ∀ x ∈ pre, selects d.anisuitem data x = false := fun x hx => by
    rw [← Bool.not_eq_true, selects_iff]
    exact fun hsel => hpre x hx (hsel.2.1.trans hids)
  have hfind : d.isuitems.find? (selects d.anisuitem data) = some e := by
    rw [← find?_filter hsub, show d.isuitems.filter _ = _ from hitems]
    exact find?_split hnot he
  have hupdate : ofRef (data 1) (updateFirst (selects d.anisuitem data) (fun e => e.addSsu data) d.isuitems) =
      pre ++ e.addSsu data :: post := by
    unfold ofRef
    have hboth : ∀ x, selects d.anisuitem data x = true → x.hasRef (data 1) = true ∧ (x.addSsu data).hasRef (data 1) = true :=
      fun x hx => ⟨hsub x hx, hsub x hx⟩
    rw [filter_updateFirst_own hboth, show d.isuitems.filter _ = _ from hitems]
    exact updateFirst_split hnot he
  have hleft : (e.addSsu data).seqno = data.seqno := by
    unfold IsuEntry.addSsu
    dsimp only
    omega
  rw [update_ssu hssu, hfind]
  refine ⟨hupdate, hids, hk, ?_, fun h0 => ?_⟩
  · dsimp only
    rw [hleft]
  · dsimp only
    rw [if_pos (hleft.trans h0)]

/-- **An SSU that is added to no item.** -/
theorem update_missed (h : data.ssuOf ref = true)
    (hnone : ∀ e ∈ ofRef ref d.isuitems, e.ids = d.anisuitem.ids → e.seqno ≠ data.seqno + 1) :
    ofRef ref (d.update data).1.isuitems = ofRef ref d.isuitems ∧ (d.update data).2 = false := by
  obtain ⟨hssu, href⟩ := ssuOf_iff.1 h
  subst href
  have hfind : d.isuitems.find? (selects d.anisuitem data) = none := List.find?_eq_none.2 fun e he hsel => by
    obtain ⟨-, hids, hseq, hr⟩ := selects_iff.1 hsel
    exact hnone e (List.mem_filter.2 ⟨he, hr⟩) hids hseq
  rw [update_ssu hssu, hfind]
  exact ⟨rfl, rfl⟩

/-! ## Messages -/

/-- A message as it is sent: an ISU and its SSUs. -/
structure IsuMessage where
  isu : SU
  ssus : List SU

/-- Its reference octet. -/
def IsuMessage.refOctet (m : IsuMessage) : UInt8 := m.isu 5

/-- SSUs of a reference octet, numbered down to zero. -/
def Countdown (ref : UInt8) : List SU → Prop
  | [] => True
  | u :: us => u.ssuOf ref = true ∧ u.seqno = us.length ∧ Countdown ref us

/-- An ISU that announces its SSUs, and up to eight octets in the last one. -/
structure IsuMessage.Valid (m : IsuMessage) : Prop where
  isIsu : m.isu.isIsu = true
  seqno : m.isu.entry.seqno = m.ssus.length
  ssus : m.ssus ≠ []
  octets : m.isu.entry.noOctLestInLastSsu ≤ 8
  countdown : Countdown m.refOctet m.ssus

/-- The octets that SSUs bring: eight each, and `k` in the last one. -/
def ssuOctets (k : ℕ) : List SU → List UInt8
  | [] => []
  | [u] => octets u 2 k
  | u :: us => octets u 2 8 ++ ssuOctets k us

/-- The user data of a message. -/
def IsuMessage.userdata (m : IsuMessage) : List UInt8 :=
  octets m.isu 8 2 ++ ssuOctets m.isu.entry.noOctLestInLastSsu m.ssus

/-- What the updates with the SSUs of a reference octet return. -/
def ssuResults (ref : UInt8) (out : List (SU × Option IsuEntry)) : List (Option IsuEntry) :=
  (out.filter fun o => o.1.ssuOf ref).map Prod.snd

/-- Each SSU of the reference octet comes while the last ISU, at first one of the ids
`cur`, is of the stations `ids`. -/
def Steady (ids : ℕ × UInt8) (ref : UInt8) : ℕ × UInt8 → List SU → Prop
  | _, [] => True
  | cur, u :: us =>
    if u.isIsu then Steady ids ref u.entry.ids us
    else (u.ssuOf ref = true → cur = ids) ∧ Steady ids ref cur us

theorem ssuResults_cons_self (h : u.ssuOf ref = true) (o : Option IsuEntry) (out : List (SU × Option IsuEntry)) :
    ssuResults ref ((u, o) :: out) = o :: ssuResults ref out := by
  unfold ssuResults
  rw [List.filter_cons_of_pos (by exact h), List.map_cons]

theorem ssuResults_cons_other (h : u.ssuOf ref = false) (o : Option IsuEntry) (out : List (SU × Option IsuEntry)) :
    ssuResults ref ((u, o) :: out) = ssuResults ref out := by
  unfold ssuResults
  rw [List.filter_cons_of_neg (by simp [h])]

theorem ssuOctets_cons (k : ℕ) (u v : SU) (us : List SU) :
    ssuOctets k (u :: v :: us) = octets u 2 8 ++ ssuOctets k (v :: us) := rfl

theorem isu_not_ssuOf (h : u.isIsu = true) : u.ssuOf ref = false := by
  rw [← Bool.not_eq_true, ssuOf_iff]
  rintro ⟨hs, -⟩
  rw [isSsu_not_isu hs] at h
  exact absurd h Bool.false_ne_true

theorem mem_run {o : SU × Option IsuEntry} (h : o ∈ d.run rest) : o.1 ∈ rest := by
  induction rest generalizing d with
  | nil => exact absurd h (by simp [ISUData.run])
  | cons u rest ih =>
    rw [ISUData.run] at h
    rcases List.mem_cons.1 h with rfl | h
    · simp
    · simp [ih h]

/-- Without SSUs of the reference octet there is nothing to return. -/
theorem ssuResults_run_nil (h : rest.filter (SU.ssuOf ref) = []) : ssuResults ref (d.run rest) = [] := by
  induction rest generalizing d with
  | nil => rfl
  | cons u rest ih =>
    have hu : u.ssuOf ref = false := by
      have := List.filter_eq_nil_iff.1 h u (by simp)
      simpa using this
    rw [List.filter_cons_of_neg (by simp [hu])] at h
    rw [ISUData.run, ssuResults_cons_other hu]
    exact ih h

theorem deleteold_split (h : e.count + 1 ≤ 10) (pre post : List IsuEntry) : deleteoldisuitems (pre ++ e :: post) =
    deleteoldisuitems pre ++ { e with count := e.count + 1 } :: deleteoldisuitems post := by
  induction pre with
  | nil =>
    rw [List.nil_append]
    show (if e.count + 1 > 10 then _ else _) = _
    rw [if_neg (by omega)]
    rfl
  | cons a pre ih =>
    rw [List.cons_append, deleteoldisuitems, deleteoldisuitems, ih]
    split <;> rfl

/-- Getting older changes neither ids nor numbers. -/
theorem mem_deleteold (h : x ∈ deleteoldisuitems items) : ∃ y ∈ items, x.ids = y.ids ∧ x.seqno = y.seqno := by
  induction items with
  | nil => exact absurd h (by simp [deleteoldisuitems])
  | cons a items ih =>
    rw [deleteoldisuitems] at h
    split at h
    · obtain ⟨y, hy, hsame⟩ := ih h
      exact ⟨y, by simp [hy], hsame⟩
    · rcases List.mem_cons.1 h with rfl | h
      · exact ⟨a, by simp, rfl, rfl⟩
      · obtain ⟨y, hy, hsame⟩ := ih h
        exact ⟨y, by simp [hy], hsame⟩

/-- An ISU of another reference octet makes the items older. -/
theorem update_isu_other (h : u.isIsu = true) (hr : u 5 ≠ ref) :
    ofRef ref (d.update u).1.isuitems = deleteoldisuitems (ofRef ref d.isuitems) := by
  have hx : u.entry.hasRef ref = false := by
    rw [← Bool.not_eq_true]
    exact fun hx => hr (hasRef_inj (hasRef_entry u) hx)
  rw [update_isu h, ofRef_fileIsu_other hx, ofRef_deleteold]

/-- **An item that waits gets its SSUs**, from ISUs of its own stations on, and is returned
with the last one. -/
theorem run_waiting (hc : Countdown ref us) (hne : us ≠ []) (hown : rest.filter (SU.ssuOf ref) = us)
    (hisus : ∀ u ∈ rest, u.isIsu = true → u 5 ≠ ref ∧ u.entry.noOctLestInLastSsu ≤ 8) :
    ∀ {d : ISUData} {pre post : List IsuEntry} {e : IsuEntry},
      ofRef ref d.isuitems = pre ++ e :: post → (∀ x ∈ pre, x.ids ≠ e.ids) → e.seqno = us.length →
      d.anisuitem.noOctLestInLastSsu ≤ 8 → Steady e.ids ref d.anisuitem.ids rest →
      e.count + (rest.filter SU.isIsu).length ≤ 10 →
      ∃ x, ssuResults ref (d.run rest) = List.replicate (us.length - 1) none ++ [some x] ∧ x.ids = e.ids ∧
        x.userdata = e.userdata ++ ssuOctets e.noOctLestInLastSsu us := by
  induction rest generalizing us with
  | nil => exact absurd hown.symm hne
  | cons u rest ih =>
    intro d pre post e hitems hpre hseq hk hsteady hcount
    have hisus' : ∀ u ∈ rest, u.isIsu = true → u 5 ≠ ref ∧ u.entry.noOctLestInLastSsu ≤ 8 :=
      fun u' hu' => hisus u' (by simp [hu'])
    rw [Steady] at hsteady
    rw [ISUData.run]
    by_cases hi : u.isIsu = true
    · -- another ISU: the items get older
      obtain ⟨hr, hk'⟩ := hisus u (by simp) hi
      rw [if_pos hi] at hsteady
      rw [List.filter_cons_of_pos hi, List.length_cons] at hcount
      rw [List.filter_cons_of_neg (by simp [isu_not_ssuOf hi])] at hown
      have hage := update_isu_other (d := d) hi hr
      rw [hitems, deleteold_split (by omega)] at hage
      have hpre' : ∀ x ∈ deleteoldisuitems pre, x.ids ≠ e.ids := fun x hx => by
        obtain ⟨y, hy, hids, -⟩ := mem_deleteold hx
        rw [hids]
        exact hpre y hy
      rw [ssuResults_cons_other (isu_not_ssuOf hi)]
      refine ih hc hne hown hisus' (e := { e with count := e.count + 1 }) hage hpre' hseq ?_ ?_ (by dsimp only; omega)
      · rw [update_isu hi]
        exact hk'
      · rw [update_isu hi]
        exact hsteady
    · rw [if_neg hi] at hsteady
      rw [List.filter_cons_of_neg hi] at hcount
      by_cases hs : u.ssuOf ref = true
      · -- one of the SSUs
        rw [List.filter_cons_of_pos hs] at hown
        subst hown
        obtain ⟨-, hnum, hc'⟩ := hc
        rw [List.length_cons] at hseq
        obtain ⟨hitems', hids', hk', hret, hlast⟩ := update_selected hs hk hitems hpre (hsteady.1 hs) (by omega)
        rw [ssuResults_cons_self hs, hret]
        rcases hrest : rest.filter (SU.ssuOf ref) with _ | ⟨v, vs⟩
        · -- the last one
          rw [hrest, List.length_nil] at hnum hseq
          refine ⟨e.addSsu u, ?_, ids_addSsu e u, ?_⟩
          · rw [ssuResults_run_nil hrest, if_pos (by simp [hnum]), hlast hnum]
            rfl
          · unfold IsuEntry.addSsu ssuOctets
            dsimp only
            rw [if_pos (by omega)]
        · rw [hrest, List.length_cons] at hnum hseq
          rw [hrest] at hc'
          have hseq' : (e.addSsu u).seqno = (v :: vs).length := by
            unfold IsuEntry.addSsu
            dsimp only
            rw [List.length_cons]
            omega
          obtain ⟨x, hout, hxids, hxdata⟩ := ih hc' (by simp) hrest hisus' hitems' hpre hseq' hk'
            (by rw [hids', ids_addSsu]; rw [hsteady.1 hs] at hsteady; exact hsteady.2) hcount
          refine ⟨x, ?_, hxids, ?_⟩
          · rw [hout, if_neg (by simp [hnum])]
            rfl
          · rw [hxdata]
            unfold IsuEntry.addSsu
            dsimp only
            rw [if_neg (by omega), ssuOctets_cons, List.append_assoc]
      · -- a unit of another message
        rw [Bool.not_eq_true] at hs hi
        rw [List.filter_cons_of_neg (by simp [hs])] at hown
        obtain ⟨h1, h2, h3⟩ := update_other (d := d) hi hs
        rw [ssuResults_cons_other hs]
        exact ih hc hne hown hisus' (h1.trans hitems) hpre hseq (h3 ▸ hk) (h2 ▸ hsteady.2) hcount

/-! ## From every state -/

/-- A filed ISU is the first item of its stations and numbers. -/
theorem fileIsu_first (hk : x.noOctLestInLastSsu ≤ 8) (hx : x.hasRef ref = true)
    (hall : ∀ e ∈ items, e.hasRef ref = true) :
    ∃ pre post, fileIsu items x = pre ++ x :: post ∧ ∀ y ∈ pre, y.ids ≠ x.ids := by
  have hids : ∀ y ∈ items, repeats x y = false → y.ids ≠ x.ids := fun y hy hnot he => by
    have hr := hasRef_iff.1 (hall y hy)
    rw [hasRef_iff] at hx
    rw [← Bool.not_eq_true, repeats_iff] at hnot
    exact hnot ⟨hk, he, hr.1.trans hx.1.symm, hr.2.trans hx.2.symm⟩
  rw [fileIsu_eq]
  cases hfind : items.find? (repeats x) with
  | none =>
    have hnone := List.find?_eq_none.1 hfind
    exact ⟨items, [], by rw [if_neg (by simp)], fun y hy => hids y hy (by simpa using hnone y hy)⟩
  | some e =>
    obtain ⟨he, pre, post, hsplit, hpre⟩ := List.find?_eq_some_iff_append.1 hfind
    have hnot : ∀ y ∈ pre, repeats x y = false := fun y hy => by simpa using hpre y hy
    refine ⟨pre, post, ?_, fun y hy => hids y (by simp [hsplit, hy]) (hnot y hy)⟩
    rw [if_pos (by simp), hsplit]
    exact updateFirst_split hnot he

theorem steady_of_no_isu {ids : ℕ × UInt8} (h : ∀ u ∈ rest, u.isIsu = false) : Steady ids ref ids rest := by
  induction rest with
  | nil => trivial
  | cons u rest ih =>
    rw [Steady, if_neg (by simp [h u (by simp)])]
    exact ⟨fun _ => rfl, ih fun v hv => h v (by simp [hv])⟩

/-- **A message in order arrives from every state**, reachable or not: among the updates
with its ISU and its SSUs only the last one returns true, with all its user data. -/
theorem isu_recovers {m : IsuMessage} (hm : m.Valid) (d : ISUData) (rest : List SU)
    (hno : ∀ u ∈ rest, u.isIsu = false) (hown : rest.filter (SU.ssuOf m.refOctet) = m.ssus) :
    ∃ x, ((d.run (m.isu :: rest)).filter fun o => o.1.isIsu || o.1.ssuOf m.refOctet).map Prod.snd =
        List.replicate m.ssus.length none ++ [some x] ∧
      x.userdata = m.userdata ∧ x.ids = m.isu.entry.ids := by
  have hself : ofRef m.refOctet (d.update m.isu).1.isuitems =
      fileIsu (ofRef m.refOctet (deleteoldisuitems d.isuitems)) m.isu.entry := by
    rw [update_isu hm.isIsu]
    exact ofRef_fileIsu_self (hasRef_entry m.isu)
  have hall : ∀ e ∈ ofRef m.refOctet (deleteoldisuitems d.isuitems), e.hasRef m.refOctet = true := fun e he => hasRef_of_mem he
  obtain ⟨pre, post, hfile, hpre⟩ := fileIsu_first hm.octets (hasRef_entry m.isu) hall
  have hscratch : (d.update m.isu).1.anisuitem = m.isu.entry := by rw [update_isu hm.isIsu]
  have hnone : rest.filter SU.isIsu = [] := List.filter_eq_nil_iff.2 fun u hu => by simp [hno u hu]
  obtain ⟨x, hout, hids, hdata⟩ := run_waiting hm.countdown hm.ssus hown
    (fun u hu hi => absurd hi (by simp [hno u hu])) (hself.trans hfile) hpre hm.seqno
    (by rw [hscratch]; exact hm.octets) (by rw [hscratch]; exact steady_of_no_isu hno)
    (by rw [hnone]; exact Nat.zero_le _)
  refine ⟨x, ?_, hdata, hids⟩
  have hssus : ((d.update m.isu).1.run rest).filter (fun o => o.1.isIsu || o.1.ssuOf m.refOctet) =
      ((d.update m.isu).1.run rest).filter fun o => o.1.ssuOf m.refOctet := by
    refine List.filter_congr fun o ho => ?_
    rw [hno o.1 (mem_run ho), Bool.false_or]
  rw [ISUData.run, List.filter_cons_of_pos (by simp [hm.isIsu]), List.map_cons, hssus]
  have hlen : m.ssus.length = (m.ssus.length - 1) + 1 := by
    have := List.length_pos_iff.2 hm.ssus
    omega
  rw [hlen, List.replicate_succ, List.cons_append, ← hout, update_isu hm.isIsu]
  rfl

/-- A signal unit of the given octets. -/
def suOf (l : List UInt8) : SU := fun i => l.getD i 0

/-- A message of one SSU with two octets. -/
def shortMessage : IsuMessage where
  isu := suOf [0x71, 0x00, 0x00, 0x01, 0x90, 0x11, 0x01, 0x20, 0x41, 0x42]
  ssus := [suOf [0xC0, 0x11, 0x43, 0x44, 0x00, 0x00, 0x00, 0x00, 0x00, 0x00]]

theorem shortMessage_valid : shortMessage.Valid where
  isIsu := rfl
  seqno := rfl
  ssus := by simp [shortMessage]
  octets := by decide
  countdown := ⟨rfl, rfl, trivial⟩

/-- Its SSU, behind one of another message. -/
def shortRest : List SU := suOf [0xC4, 0x22] :: shortMessage.ssus

/-- An `ISUData` with an item left over that has the same numbers. -/
def leftover : ISUData :=
  ((ISUData.create (suOf []).entry (suOf []).entry).update
    (suOf [0x71, 0x00, 0x00, 0x02, 0x90, 0x11, 0x05, 0x80, 0x00, 0x00])).1

theorem shortMessage_arrives : ∃ x, ((leftover.run (shortMessage.isu :: shortRest)).filter
      fun o => o.1.isIsu || o.1.ssuOf 0x11).map Prod.snd = [none, some x] ∧ x.userdata = [0x41, 0x42, 0x43, 0x44] := by
  have hno : ∀ u ∈ shortRest, u.isIsu = false := by
    simp only [shortRest, shortMessage, List.mem_cons, List.not_mem_nil, or_false, forall_eq_or_imp, forall_eq]
    exact ⟨rfl, rfl⟩
  obtain ⟨x, hout, hdata, -⟩ := isu_recovers shortMessage_valid leftover shortRest hno rfl
  exact ⟨x, hout, hdata⟩

end InmarsatSniffer.Aero
