import InmarsatSniffer.Proof.Isu

/-!
# Interleaved messages

Up to ten messages with reference octets of their own, their units in any order that keeps
those of one message in order (`Interleaves`). An SSU is looked up with the ids of the last
ISU, whichever message that was of: behind an ISU of other stations it is lost, and with it
the rest of its message (`run_disturbed`).

* `isu_interleaving`: **all messages arrive exactly when each SSU comes while the last ISU
  is of its own stations**.
-/

namespace InmarsatSniffer.Aero

variable {d : ISUData} {u : SU} {e : IsuEntry} {ref : UInt8} {us rest stream : List SU} {m : IsuMessage}
  {ms : List IsuMessage} {ids cur : ℕ × UInt8}

/-- The octet with the numbers of a unit. -/
def SU.refOctet (u : SU) : UInt8 := if u.isIsu then u 5 else u 1

/-- The units of a message. -/
def IsuMessage.units (m : IsuMessage) : List SU := m.isu :: m.ssus

/-- **An interleaving** of the units of at most ten messages. -/
structure IsuInterleaves (ms : List IsuMessage) (stream : List SU) : Prop where
  distinct : (ms.map IsuMessage.refOctet).Nodup
  few : ms.length ≤ 10
  valid : ∀ m ∈ ms, m.Valid
  sent : ∀ u ∈ stream, ∃ m ∈ ms, u.refOctet = m.refOctet
  order : ∀ m ∈ ms, stream.filter (fun u => u.refOctet = m.refOctet) = m.units

/-- What the updates with the units of a message return. -/
def results (m : IsuMessage) (out : List (SU × Option IsuEntry)) : List (Option IsuEntry) :=
  (out.filter fun o => o.1.refOctet = m.refOctet).map Prod.snd

/-- The message arrives: `update` returns true once, at its last SSU, with its user data and ids. -/
def Arrives (m : IsuMessage) (out : List (SU × Option IsuEntry)) : Prop :=
  ∃ x, results m out = List.replicate m.ssus.length none ++ [some x] ∧ x.userdata = m.userdata ∧
    x.ids = m.isu.entry.ids

/-- The ids of the last ISU of a stream, `cur` if there is none. -/
def lastIds (cur : ℕ × UInt8) (stream : List SU) : ℕ × UInt8 :=
  stream.foldl (fun c u => if u.isIsu then u.entry.ids else c) cur

/-- **Each SSU of the message comes while the last ISU is of its stations.** -/
def Undisturbed (m : IsuMessage) (stream : List SU) : Prop :=
  ∀ pre u post, stream = pre ++ u :: post → u.ssuOf m.refOctet = true → lastIds (0, 0) pre = m.isu.entry.ids

/-! ## A message that is disturbed -/

theorem steady_iff : Steady ids ref cur stream ↔
    ∀ pre u post, stream = pre ++ u :: post → u.ssuOf ref = true → lastIds cur pre = ids := by
  induction stream generalizing cur with
  | nil => exact ⟨fun _ pre u post h => absurd h (by simp), fun _ => trivial⟩
  | cons v stream ih =>
    rw [Steady]
    have hnext : lastIds cur [v] = if v.isIsu then v.entry.ids else cur := rfl
    have hcons : ∀ pre, lastIds cur (v :: pre) = lastIds (lastIds cur [v]) pre := fun pre => rfl
    have hsplit : (∀ pre u post, v :: stream = pre ++ u :: post → u.ssuOf ref = true → lastIds cur pre = ids) ↔
        (v.ssuOf ref = true → cur = ids) ∧ Steady ids ref (lastIds cur [v]) stream := by
      rw [ih]
      constructor
      · intro h
        exact ⟨fun hv => h [] v stream rfl hv, fun pre u post e hu => (hcons pre) ▸ h (v :: pre) u post (by rw [e]; rfl) hu⟩
      · rintro ⟨h1, h2⟩ pre u post hsplit hu
        rcases pre with _ | ⟨w, pre⟩
        · obtain ⟨rfl, -⟩ := List.cons.inj hsplit
          exact h1 hu
        · rw [List.cons_append] at hsplit
          obtain ⟨rfl, htail⟩ := List.cons.inj hsplit
          rw [hcons]
          exact h2 pre u post htail hu
    rw [hsplit, hnext]
    by_cases hi : v.isIsu = true
    · rw [if_pos hi, if_pos hi, isu_not_ssuOf hi]
      simp
    · rw [if_neg hi, if_neg hi]

/-- **Behind a missed SSU** no item waits for the others. -/
theorem run_missed (hc : Countdown ref us) (hown : rest.filter (SU.ssuOf ref) = us)
    (hisus : ∀ u ∈ rest, u.isIsu = true → u 5 ≠ ref) :
    ∀ {d : ISUData}, (∀ e ∈ ofRef ref d.isuitems, us.length < e.seqno) →
      ssuResults ref (d.run rest) = List.replicate us.length none := by
  induction rest generalizing us with
  | nil => subst hown; intro d h; rfl
  | cons u rest ih =>
    intro d hlate
    have hisus' : ∀ u ∈ rest, u.isIsu = true → u 5 ≠ ref := fun u' hu' => hisus u' (by simp [hu'])
    rw [ISUData.run]
    by_cases hi : u.isIsu = true
    · rw [List.filter_cons_of_neg (by simp [isu_not_ssuOf hi])] at hown
      rw [ssuResults_cons_other (isu_not_ssuOf hi)]
      refine ih hc hown hisus' fun e he => ?_
      rw [update_isu_other hi (hisus u (by simp) hi)] at he
      obtain ⟨y, hy, -, hseq⟩ := mem_deleteold he
      rw [hseq]
      exact hlate y hy
    · by_cases hs : u.ssuOf ref = true
      · rw [List.filter_cons_of_pos hs] at hown
        subst hown
        obtain ⟨-, hnum, hc'⟩ := hc
        obtain ⟨hsame, hret⟩ := update_missed hs fun e he _ => by
          have := hlate e he
          rw [List.length_cons] at this
          omega
        rw [ssuResults_cons_self hs, hret, List.length_cons, List.replicate_succ]
        rw [ih hc' rfl hisus' fun e he => ?_]
        · rfl
        · rw [hsame] at he
          have := hlate e he
          rw [List.length_cons] at this
          omega
      · rw [Bool.not_eq_true] at hs hi
        rw [List.filter_cons_of_neg (by simp [hs])] at hown
        rw [ssuResults_cons_other hs]
        exact ih hc hown hisus' fun e he => hlate e (by rwa [(update_other (d := d) hi hs).1] at he)

/-- **A message that is disturbed does not arrive**: its last SSU is added to no item. -/
theorem run_disturbed (hc : Countdown ref us) (hown : rest.filter (SU.ssuOf ref) = us)
    (hisus : ∀ u ∈ rest, u.isIsu = true → u 5 ≠ ref ∧ u.entry.noOctLestInLastSsu ≤ 8) :
    ∀ {d : ISUData} {e : IsuEntry}, ofRef ref d.isuitems = [e] → e.seqno = us.length →
      d.anisuitem.noOctLestInLastSsu ≤ 8 → e.count + (rest.filter SU.isIsu).length ≤ 10 →
      ¬Steady e.ids ref d.anisuitem.ids rest → (ssuResults ref (d.run rest)).getLast? = some none := by
  induction rest generalizing us with
  | nil => exact fun _ _ _ _ h => absurd trivial h
  | cons u rest ih =>
    intro d e hitems hseq hk hcount hdist
    have hisus' : ∀ u ∈ rest, u.isIsu = true → u 5 ≠ ref ∧ u.entry.noOctLestInLastSsu ≤ 8 :=
      fun u' hu' => hisus u' (by simp [hu'])
    rw [Steady] at hdist
    rw [ISUData.run]
    by_cases hi : u.isIsu = true
    · obtain ⟨hr, hk'⟩ := hisus u (by simp) hi
      rw [if_pos hi] at hdist
      rw [List.filter_cons_of_pos hi, List.length_cons] at hcount
      rw [List.filter_cons_of_neg (by simp [isu_not_ssuOf hi])] at hown
      have hage := update_isu_other (d := d) hi hr
      rw [hitems, show [e] = [] ++ e :: [] from rfl, deleteold_split (by omega)] at hage
      rw [ssuResults_cons_other (isu_not_ssuOf hi)]
      refine ih hc hown hisus' (e := { e with count := e.count + 1 }) hage hseq ?_ (by dsimp only; omega) ?_
      · rw [update_isu hi]
        exact hk'
      · rw [update_isu hi]
        exact hdist
    · rw [if_neg hi] at hdist
      rw [List.filter_cons_of_neg hi] at hcount
      by_cases hs : u.ssuOf ref = true
      · rw [List.filter_cons_of_pos hs] at hown
        subst hown
        obtain ⟨-, hnum, hc'⟩ := hc
        rw [List.length_cons] at hseq
        rw [ssuResults_cons_self hs]
        by_cases hcur : d.anisuitem.ids = e.ids
        · -- this one is added, a later one is missed
          have halone : ofRef ref d.isuitems = [] ++ e :: [] := hitems
          obtain ⟨hitems', hids', hk', -, -⟩ := update_selected hs hk halone (List.forall_mem_nil _) hcur (by omega)
          have hlater : ¬Steady (e.addSsu u).ids ref (d.update u).1.anisuitem.ids rest := fun h =>
            hdist ⟨fun _ => hcur, by rw [hcur]; rwa [hids', ids_addSsu] at h⟩
          have hseq' : (e.addSsu u).seqno = (rest.filter (SU.ssuOf ref)).length := by
            unfold IsuEntry.addSsu
            dsimp only
            omega
          have hlast := ih hc' rfl hisus' hitems' hseq' hk' hcount hlater
          rw [List.getLast?_cons, hlast]
          rfl
        · -- this one is missed, and so are those behind it
          obtain ⟨hsame, hret⟩ := update_missed hs fun x hx hids => absurd hids.symm (by
            rw [hitems, List.mem_singleton] at hx
            rwa [hx])
          have hlate : ∀ x ∈ ofRef ref (d.update u).1.isuitems, (rest.filter (SU.ssuOf ref)).length < x.seqno := by
            rw [hsame, hitems]
            intro x hx
            rw [List.mem_singleton.1 hx]
            omega
          rw [hret, run_missed hc' rfl (fun v hv hvi => (hisus' v hv hvi).1) hlate, List.getLast?_cons, List.getLast?_replicate]
          split <;> rfl
      · rw [Bool.not_eq_true] at hs hi
        rw [List.filter_cons_of_neg (by simp [hs])] at hown
        obtain ⟨h1, h2, h3⟩ := update_other (d := d) hi hs
        rw [ssuResults_cons_other hs]
        refine ih hc hown hisus' (h1.trans hitems) hseq (h3 ▸ hk) hcount ?_
        rw [h2]
        exact fun h => hdist ⟨fun hu => absurd hu (by simp [hs]), h⟩

/-! ## The units of an interleaving -/

/-- The state after the updates. -/
def ISUData.feed (d : ISUData) (stream : List SU) : ISUData := stream.foldl (fun d u => (d.update u).1) d

theorem run_split (d : ISUData) (pre rest : List SU) : d.run (pre ++ rest) = d.run pre ++ (d.feed pre).run rest := by
  induction pre generalizing d with
  | nil => rfl
  | cons u pre ih =>
    rw [List.cons_append, ISUData.run, ISUData.run, ih]
    rfl

theorem countdown_mem (hc : Countdown ref us) (hu : u ∈ us) : u.ssuOf ref = true := by
  induction us with
  | nil => exact absurd hu (by simp)
  | cons v us ih =>
    rcases List.mem_cons.1 hu with rfl | hu
    · exact hc.1
    · exact ih hc.2.2 hu

theorem refOctet_isu (h : u.isIsu = true) : u.refOctet = u 5 := by
  unfold SU.refOctet
  rw [if_pos h]

theorem refOctet_ssu (h : u.ssuOf ref = true) : u.refOctet = ref := by
  obtain ⟨hs, hr⟩ := ssuOf_iff.1 h
  unfold SU.refOctet
  rw [isSsu_not_isu hs, if_neg Bool.false_ne_true, hr]

/-- A unit of a message that is not its ISU. -/
theorem IsuInterleaves.unit (h : IsuInterleaves ms stream) (hu : u ∈ stream) :
    ∃ m ∈ ms, u.refOctet = m.refOctet ∧ (u = m.isu ∨ u.ssuOf m.refOctet = true) := by
  obtain ⟨m, hm, href⟩ := h.sent u hu
  refine ⟨m, hm, href, ?_⟩
  have hmem : u ∈ m.units := by
    rw [← h.order m hm]
    exact List.mem_filter.2 ⟨hu, by simpa using href⟩
  rcases List.mem_cons.1 hmem with hisu | hssu
  · exact Or.inl hisu
  · exact Or.inr (countdown_mem (h.valid m hm).countdown hssu)

/-- The ISUs of an interleaving announce at most eight octets. -/
theorem IsuInterleaves.octets (h : IsuInterleaves ms stream) (hu : u ∈ stream) (hi : u.isIsu = true) :
    u.entry.noOctLestInLastSsu ≤ 8 := by
  obtain ⟨m, hm, -, rfl | hssu⟩ := h.unit hu
  · exact (h.valid m hm).octets
  · rw [isu_not_ssuOf hi] at hssu
    exact absurd hssu Bool.false_ne_true

/-- There is one ISU for each message. -/
theorem IsuInterleaves.isus (h : IsuInterleaves ms stream) : (stream.filter SU.isIsu).length ≤ 10 := by
  have hone : ((stream.filter SU.isIsu).map SU.refOctet).Nodup := by
    rw [List.nodup_iff_count_le_one]
    intro r
    rw [List.count, List.countP_map, List.countP_eq_length_filter, List.filter_filter]
    by_cases hr : ∃ m ∈ ms, r = m.refOctet
    · obtain ⟨m, hm, rfl⟩ := hr
      have hvalid := h.valid m hm
      have hsame : stream.filter (fun u => (((fun x => x == m.refOctet) ∘ SU.refOctet) u) && u.isIsu) =
          m.units.filter SU.isIsu := by
        rw [← h.order m hm, List.filter_filter]
        refine List.filter_congr fun u _ => ?_
        rw [Bool.and_comm]
        rfl
      have hssus : m.ssus.filter SU.isIsu = [] := List.filter_eq_nil_iff.2 fun u hu hi => by
        have := countdown_mem hvalid.countdown hu
        rw [isu_not_ssuOf hi] at this
        exact absurd this Bool.false_ne_true
      rw [hsame, IsuMessage.units, List.filter_cons_of_pos hvalid.isIsu, hssus]
      exact le_rfl
    · rw [List.filter_eq_nil_iff.2 fun u hu hp => ?_]
      · exact Nat.zero_le _
      · obtain ⟨m, hm, href⟩ := h.sent u hu
        rw [Bool.and_eq_true] at hp
        exact hr ⟨m, hm, (eq_of_beq hp.1).symm.trans href⟩
  have hsub : (stream.filter SU.isIsu).map SU.refOctet ⊆ ms.map IsuMessage.refOctet := by
    intro r hr
    obtain ⟨u, hu, rfl⟩ := List.mem_map.1 hr
    obtain ⟨m, hm, href⟩ := h.sent u (List.mem_filter.1 hu).1
    exact List.mem_map.2 ⟨m, hm, href.symm⟩
  have hle := (List.subperm_of_subset hone hsub).length_le
  rw [List.length_map, List.length_map] at hle
  exact hle.trans h.few

/-! ## All messages -/

/-- Before the first unit of a message nothing is filed for it. -/
theorem feed_before (h : ∀ u ∈ rest, u.refOctet ≠ ref) : ∀ {d : ISUData}, ofRef ref d.isuitems = [] →
    ofRef ref (d.feed rest).isuitems = [] := by
  induction rest with
  | nil => exact fun h => h
  | cons u rest ih =>
    intro d hd
    have hu := h u (by simp)
    refine ih (fun v hv => h v (by simp [hv])) (d := (d.update u).1) ?_
    by_cases hi : u.isIsu = true
    · rw [refOctet_isu hi] at hu
      rw [update_isu_other hi hu, hd]
      rfl
    · rw [Bool.not_eq_true] at hi
      have hs : u.ssuOf ref = false := by
        rw [← Bool.not_eq_true]
        exact fun hs => hu (refOctet_ssu hs)
      rw [(update_other hi hs).1, hd]

theorem steady_append (h : ∀ u ∈ rest, u.ssuOf ref = false) :
    Steady ids ref cur (rest ++ us) ↔ Steady ids ref (lastIds cur rest) us := by
  induction rest generalizing cur with
  | nil => rfl
  | cons u rest ih =>
    have hrest : ∀ v ∈ rest, v.ssuOf ref = false := fun v hv => h v (by simp [hv])
    rw [List.cons_append, Steady]
    split
    · next hi =>
      rw [ih hrest]
      unfold lastIds
      rw [List.foldl_cons, if_pos hi]
    · next hi =>
      rw [ih hrest, h u (by simp)]
      unfold lastIds
      rw [List.foldl_cons, if_neg hi]
      simp

/-- **When a message of an interleaving arrives.** -/
theorem arrives_iff (h : IsuInterleaves ms stream) (hm : m ∈ ms) (anisuitem lastvalid : IsuEntry) :
    Arrives m ((ISUData.create anisuitem lastvalid).run stream) ↔ Undisturbed m stream := by
  have hvalid := h.valid m hm
  obtain ⟨pre, rest, rfl, hpre, -, hrest⟩ := List.filter_eq_cons_iff.1 (h.order m hm)
  have hbefore : ∀ u ∈ pre, u.refOctet ≠ m.refOctet := fun u hu => by simpa using hpre u hu
  -- behind the ISU the units of the message are SSUs
  have hssu : ∀ u ∈ rest, (u.refOctet = m.refOctet ↔ u.ssuOf m.refOctet = true) := fun u hu =>
    ⟨fun href => countdown_mem hvalid.countdown (hrest ▸ List.mem_filter.2 ⟨hu, by simpa using href⟩), refOctet_ssu⟩
  have hown : rest.filter (SU.ssuOf m.refOctet) = m.ssus := by
    rw [← hrest]
    refine List.filter_congr fun u hu => ?_
    rw [Bool.eq_iff_iff, ← hssu u hu]
    simp
  have hisus : ∀ u ∈ rest, u.isIsu = true → u 5 ≠ m.refOctet ∧ u.entry.noOctLestInLastSsu ≤ 8 := by
    refine fun u hu hi => ⟨fun href => ?_, h.octets (by simp [hu]) hi⟩
    have := (hssu u hu).1 ((refOctet_isu hi).trans href)
    rw [isu_not_ssuOf hi] at this
    exact absurd this Bool.false_ne_true
  have hcount : m.isu.entry.count + (rest.filter SU.isIsu).length ≤ 10 := by
    have hten := h.isus
    rw [List.filter_append, List.filter_cons_of_pos hvalid.isIsu, List.length_append, List.length_cons] at hten
    have hzero : m.isu.entry.count = 0 := rfl
    omega
  -- the item that the ISU files
  set d₁ := (ISUData.create anisuitem lastvalid).feed pre with hd₁
  have hempty : ofRef m.refOctet d₁.isuitems = [] := feed_before hbefore rfl
  have hitems : ofRef m.refOctet (d₁.update m.isu).1.isuitems = [m.isu.entry] := by
    rw [update_isu hvalid.isIsu]
    dsimp only
    rw [ofRef_fileIsu_self (show m.isu.entry.hasRef m.refOctet = true from hasRef_entry m.isu), ofRef_deleteold, hempty,
      fileIsu_eq]
    rfl
  have hscratch : (d₁.update m.isu).1.anisuitem = m.isu.entry := by rw [update_isu hvalid.isIsu]
  -- what the updates return for the message
  have hresults : results m ((ISUData.create anisuitem lastvalid).run (pre ++ m.isu :: rest)) =
      none :: ssuResults m.refOctet ((d₁.update m.isu).1.run rest) := by
    have hnone : ((ISUData.create anisuitem lastvalid).run pre).filter (fun o => o.1.refOctet = m.refOctet) = [] :=
      List.filter_eq_nil_iff.2 fun o ho => by simpa using hbefore o.1 (mem_run ho)
    have hsame : ((d₁.update m.isu).1.run rest).filter (fun o => o.1.refOctet = m.refOctet) =
        ((d₁.update m.isu).1.run rest).filter fun o => o.1.ssuOf m.refOctet :=
      List.filter_congr fun o ho => by
        rw [Bool.eq_iff_iff, ← hssu o.1 (mem_run ho)]
        simp
    have hfirst : (d₁.update m.isu).2 = false := by rw [update_isu hvalid.isIsu]
    have hisu : m.isu.refOctet = m.refOctet := refOctet_isu hvalid.isIsu
    unfold results
    rw [run_split, List.filter_append, hnone, List.nil_append, ← hd₁, ISUData.run,
      List.filter_cons_of_pos (by simpa using hisu), hsame, List.map_cons, hfirst]
    rfl
  -- the ids that the SSUs meet
  have hsteady : Undisturbed m (pre ++ m.isu :: rest) ↔
      Steady m.isu.entry.ids m.refOctet (d₁.update m.isu).1.anisuitem.ids rest := by
    have hno : ∀ u ∈ pre, u.ssuOf m.refOctet = false := fun u hu => by
      rw [← Bool.not_eq_true]
      exact fun hs => hbefore u hu (refOctet_ssu hs)
    unfold Undisturbed
    rw [← steady_iff, steady_append hno, Steady, if_pos hvalid.isIsu, hscratch]
  have hlen : m.ssus.length = (m.ssus.length - 1) + 1 := by
    have := List.length_pos_iff.2 hvalid.ssus
    omega
  have hk : (d₁.update m.isu).1.anisuitem.noOctLestInLastSsu ≤ 8 := by
    rw [hscratch]
    exact hvalid.octets
  unfold Arrives
  rw [hresults, hsteady, hlen, List.replicate_succ]
  constructor
  · rintro ⟨x, hout, -, -⟩
    by_contra hdist
    have hlast := run_disturbed hvalid.countdown hown hisus hitems hvalid.seqno hk hcount hdist
    rw [List.cons_append, List.cons.injEq] at hout
    rw [hout.2, List.getLast?_concat] at hlast
    exact absurd hlast (by simp)
  · intro hst
    have halone : ofRef m.refOctet (d₁.update m.isu).1.isuitems = [] ++ m.isu.entry :: [] := hitems
    obtain ⟨x, hout, hids, hdata⟩ := run_waiting hvalid.countdown hvalid.ssus hown hisus halone (List.forall_mem_nil _)
      hvalid.seqno hk hst hcount
    exact ⟨x, by rw [hout]; rfl, hdata, hids⟩

/-- **Interleaved messages.** For up to ten messages with reference octets of their own,
and every interleaving of their units fed to a new `ISUData`: `update` returns true exactly
once for each, at its last SSU, with its user data and ids, if and only if each SSU comes
while the last ISU is of the stations of its message. -/
theorem isu_interleaving (h : IsuInterleaves ms stream) (anisuitem lastvalid : IsuEntry) :
    (∀ m ∈ ms, Arrives m ((ISUData.create anisuitem lastvalid).run stream)) ↔ ∀ m ∈ ms, Undisturbed m stream :=
  forall₂_congr fun _ hm => arrives_iff h hm anisuitem lastvalid

/-! ## Two aircraft -/

/-- A message of one SSU from aircraft `aes`. -/
def oneSsu (aes ref : UInt8) : IsuMessage where
  isu := suOf [0x71, 0x00, 0x00, aes, 0x90, ref, 0x01, 0x80, 0x41, 0x42]
  ssus := [suOf [0xC0, ref, 0x43, 0x44, 0x45, 0x46, 0x47, 0x48, 0x49, 0x4A]]

/-- Two messages, both ISUs before both SSUs. -/
def crossed (m m' : IsuMessage) : List SU := [m.isu, m'.isu] ++ m.ssus ++ m'.ssus

theorem oneSsu_valid (aes : UInt8) (h : ref = 0x11 ∨ ref = 0x22) : (oneSsu aes ref).Valid where
  isIsu := rfl
  seqno := show ((0x01 : UInt8) &&& 0x3F).toNat = 1 by decide
  ssus := by simp [oneSsu]
  octets := show ((0x80 : UInt8) >>> 4 &&& 0x0F).toNat ≤ 8 by decide
  countdown := by
    refine ⟨?_, show ((0xC0 : UInt8) &&& 0x3F).toNat = 0 by decide, trivial⟩
    rcases h with rfl | rfl <;> rfl

theorem crossed_interleaves (aes aes' : UInt8) :
    IsuInterleaves [oneSsu aes 0x11, oneSsu aes' 0x22] (crossed (oneSsu aes 0x11) (oneSsu aes' 0x22)) where
  distinct := by
    show [(0x11 : UInt8), 0x22].Nodup
    decide
  few := by simp
  valid := by
    intro m hm
    simp only [List.mem_cons, List.not_mem_nil, or_false] at hm
    rcases hm with rfl | rfl
    · exact oneSsu_valid aes (Or.inl rfl)
    · exact oneSsu_valid aes' (Or.inr rfl)
  sent := by
    intro u hu
    simp only [crossed, oneSsu, List.cons_append, List.nil_append, List.mem_cons, List.not_mem_nil, or_false] at hu
    rcases hu with rfl | rfl | rfl | rfl
    · exact ⟨oneSsu aes 0x11, by simp, rfl⟩
    · exact ⟨oneSsu aes' 0x22, by simp, rfl⟩
    · exact ⟨oneSsu aes 0x11, by simp, rfl⟩
    · exact ⟨oneSsu aes' 0x22, by simp, rfl⟩
  order := by
    intro m hm
    simp only [List.mem_cons, List.not_mem_nil, or_false] at hm
    rcases hm with rfl | rfl <;> rfl

/-- An item with no ids. -/
def blank : IsuEntry := (suOf []).entry

/-- Of two aircraft the first message is lost. -/
theorem crossed_loses : IsuInterleaves [oneSsu 1 0x11, oneSsu 2 0x22] (crossed (oneSsu 1 0x11) (oneSsu 2 0x22)) ∧
    ¬∀ m ∈ [oneSsu 1 0x11, oneSsu 2 0x22],
      Arrives m ((ISUData.create blank blank).run (crossed (oneSsu 1 0x11) (oneSsu 2 0x22))) := by
  refine ⟨crossed_interleaves 1 2, fun h => ?_⟩
  obtain ⟨x, hout, -⟩ := h (oneSsu 1 0x11) (by simp)
  have hnone : results (oneSsu 1 0x11) ((ISUData.create blank blank).run (crossed (oneSsu 1 0x11) (oneSsu 2 0x22))) =
      [none, none] := by decide
  rw [hnone] at hout
  exact absurd hout (by simp [oneSsu])

/-- Of one aircraft both arrive. -/
theorem crossed_arrives :
    Arrives (oneSsu 1 0x11) ((ISUData.create blank blank).run (crossed (oneSsu 1 0x11) (oneSsu 1 0x22))) ∧
      Arrives (oneSsu 1 0x22) ((ISUData.create blank blank).run (crossed (oneSsu 1 0x11) (oneSsu 1 0x22))) := by
  have harrive := (isu_interleaving (crossed_interleaves 1 1) blank blank).2 fun m hm => by
    have hids : m.isu.entry.ids = (1, 0x90) := by
      simp only [List.mem_cons, List.not_mem_nil, or_false] at hm
      rcases hm with rfl | rfl <;> rfl
    unfold Undisturbed
    rw [hids, ← steady_iff]
    exact ⟨fun _ => rfl, fun _ => rfl, trivial⟩
  exact ⟨harrive _ List.mem_cons_self, harrive _ (List.mem_cons_of_mem _ List.mem_cons_self)⟩

end InmarsatSniffer.Aero
