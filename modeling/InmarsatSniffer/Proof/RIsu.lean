import Mathlib
import InmarsatSniffer.Spec.RIsu

/-!
# When the writes of the R channel stay inside

The size of `userdata` is the least length that a unit of the item has announced so far (`Sized`), so the writes
of a unit stay inside if they end below each of these lengths, and a complete item has no hole if each row below
them is filled.

* `resize_sized`: what a unit does to the size.
* `writeLoop_spec`, `addUnit_spec`: the writes of a unit, and what is in the vector behind them.
* `stepSound_iff`: one update. `risu_sound_iff`: **a run is sound exactly when its units fit together**.
* `reserved_outside`: a reserved sequence indicator.
-/

namespace InmarsatSniffer.Aero

variable {d : RISUData} {data : SU} {it : RISUItem} {us : List SU} {userdata : List UInt8} {i k n : ℕ}

/-! ## Announced lengths -/

/-- An index below every length that a unit announces, if one does. -/
def Below (us : List SU) (n : ℕ) : Prop := (∃ u ∈ us, 0 < u.thisnum) ∧ ∀ u ∈ us, 0 < u.thisnum → n < u.thisnum

/-- The size of `userdata` is the least length that was announced. -/
def RISUItem.Sized (it : RISUItem) : Prop := ∀ n, n < it.userdata.length ↔ Below it.units n

theorem below_append (us : List SU) (data : SU) (n : ℕ) : Below (us ++ [data]) n ↔
    ((∃ u ∈ us, 0 < u.thisnum) ∨ 0 < data.thisnum) ∧ (∀ u ∈ us, 0 < u.thisnum → n < u.thisnum) ∧
      (0 < data.thisnum → n < data.thisnum) := by
  unfold Below
  constructor
  · rintro ⟨⟨u, hu, hpos⟩, hall⟩
    refine ⟨?_, fun u hu => hall u (List.mem_append_left _ hu), hall data (List.mem_append_right _ (List.mem_singleton_self _))⟩
    rcases List.mem_append.1 hu with hu | hu
    · exact Or.inl ⟨u, hu, hpos⟩
    · exact Or.inr (List.mem_singleton.1 hu ▸ hpos)
  · rintro ⟨hex, hall, hlast⟩
    refine ⟨?_, fun u hu => ?_⟩
    · rcases hex with ⟨u, hu, hpos⟩ | hpos
      · exact ⟨u, List.mem_append_left _ hu, hpos⟩
      · exact ⟨data, List.mem_append_right _ (List.mem_singleton_self _), hpos⟩
    · rcases List.mem_append.1 hu with hu | hu
      · exact hall u hu
      · exact List.mem_singleton.1 hu ▸ hlast

theorem resizeTo_length (userdata : List UInt8) (n : ℕ) : (resizeTo userdata n).length = n := by
  rw [resizeTo, List.length_append, List.length_take, List.length_replicate]
  omega

/-- **What a unit does to the size**: it is the least length announced so far again. -/
theorem resize_sized (data : SU) (h : ∀ n, n < userdata.length ↔ Below us n) (n : ℕ) :
    n < (data.resize userdata).length ↔ Below (us ++ [data]) n := by
  rw [below_append]
  unfold SU.resize
  by_cases hpos : data.thisnum > 0
  · rw [if_pos hpos]
    dsimp only
    by_cases hzero : userdata.length = 0
    · -- no unit has announced a length before
      have hnone : ∀ u ∈ us, ¬0 < u.thisnum := fun u hu hu0 => by
        have hbelow : Below us 0 := ⟨⟨u, hu, hu0⟩, fun u _ h => h⟩
        have := (h 0).2 hbelow
        omega
      rw [if_pos hzero, if_neg (by rw [resizeTo_length]; omega), resizeTo_length]
      constructor
      · exact fun hn => ⟨Or.inr hpos, fun u hu hu0 => absurd hu0 (hnone u hu), fun _ => by omega⟩
      · rintro ⟨-, -, hn⟩
        have := hn hpos
        omega
    · obtain ⟨hex, -⟩ := (h 0).1 (Nat.pos_of_ne_zero hzero)
      have hall : n < userdata.length ↔ ∀ u ∈ us, 0 < u.thisnum → (n : ℤ) < u.thisnum :=
        (h n).trans (and_iff_right hex)
      rw [if_neg hzero, ← hall]
      split
      · rw [resizeTo_length]
        constructor
        · exact fun hn => ⟨Or.inr hpos, by omega, fun _ => by omega⟩
        · rintro ⟨-, -, hn⟩
          have := hn hpos
          omega
      · constructor
        · exact fun hn => ⟨Or.inr hpos, hn, fun _ => by omega⟩
        · exact fun hn => hn.2.1
  · rw [if_neg hpos, h n]
    unfold Below
    constructor
    · exact fun hn => ⟨Or.inl hn.1, hn.2, fun h0 => absurd h0 hpos⟩
    · exact fun hn => ⟨hn.1.resolve_right hpos, hn.2.1⟩

/-- A vector that has bytes keeps those that are left. -/
theorem resize_getD (hi : i < (data.resize userdata).length) (hne : userdata.length ≠ 0) :
    (data.resize userdata).getD i 0 = userdata.getD i 0 := by
  have hsize : data.resize userdata =
      if 0 < data.thisnum ∧ data.thisnum < userdata.length then resizeTo userdata data.thisnum.toNat else userdata := by
    unfold SU.resize
    dsimp only
    rw [if_neg hne, ite_and]
  rw [hsize] at hi ⊢
  split
  · rename_i hshort
    rw [if_pos hshort, resizeTo_length] at hi
    have hlen : i < (userdata.take data.thisnum.toNat).length := by
      rw [List.length_take]
      omega
    rw [resizeTo, List.getD_append _ _ _ _ hlen, List.getD_eq_getElem _ _ hlen, List.getElem_take, List.getD_eq_getElem]
  · rfl

/-! ## The writes of a unit -/

/-- A unit has a byte for an index of `userdata`. -/
def SU.Writes (data : SU) (i : ℕ) : Prop := 11 * data.suIndex ≤ i ∧ i < 11 * data.suIndex + data.bytesInSU

instance (data : SU) (i : ℕ) : Decidable (data.Writes i) := inferInstanceAs (Decidable (_ ∧ _))

/-- Its byte for an index. -/
def SU.byteAt (data : SU) (i : ℕ) : UInt8 := data (6 + (i - 11 * data.suIndex))

/-- **The loop over the bytes of a unit.** -/
theorem writeLoop_spec (data : SU) (userdata : List UInt8) (k n : ℕ) :
    (data.writeLoop userdata k n).log = (List.range' k n).map (fun j => ⟨11 * data.suIndex + j, userdata.length⟩) ∧
      (data.writeLoop userdata k n).val.length = userdata.length ∧
      ∀ i < userdata.length, (data.writeLoop userdata k n).val.getD i 0 =
        if 11 * data.suIndex + k ≤ i ∧ i < 11 * data.suIndex + k + n then data.byteAt i else userdata.getD i 0 := by
  induction n generalizing userdata k with
  | zero =>
    refine ⟨rfl, rfl, fun i _ => ?_⟩
    rw [if_neg (by omega)]
    rfl
  | succ n ih =>
    obtain ⟨hlog, hlen, hget⟩ := ih (userdata.set (11 * data.suIndex + k) (data (6 + k))) (k + 1)
    rw [List.length_set] at hlog hlen hget
    refine ⟨?_, hlen, fun i hi => ?_⟩
    · rw [List.range'_succ, List.map_cons, ← hlog]
      rfl
    · refine (hget i hi).trans ?_
      by_cases hk : i = 11 * data.suIndex + k
      · rw [if_neg (by omega), if_pos (by omega), List.getD_eq_getElem _ _ (by rwa [List.length_set]), List.getElem_set,
          if_pos hk.symm, SU.byteAt, hk, Nat.add_sub_cancel_left]
      · have hset : (userdata.set (11 * data.suIndex + k) (data (6 + k))).getD i 0 = userdata.getD i 0 := by
          rw [List.getD_eq_getElem _ _ (by rwa [List.length_set]), List.getElem_set, if_neg (Ne.symm hk),
            List.getD_eq_getElem]
        rw [hset]
        exact if_congr (by omega) rfl rfl

/-- The user data of an item behind a unit that has some. -/
theorem addUnit_user (it : RISUItem) (h : data.signalingInfo = false) :
    (it.addUnit data).log = (data.writeLoop (data.resize it.userdata) 0 data.bytesInSU).log ∧
      (it.addUnit data).val =
        { it with
          count := 0
          userdata := (data.writeLoop (data.resize it.userdata) 0 data.bytesInSU).val
          filledarray := it.filledarray ||| (1 <<< data.suIndex)
          units := it.units ++ [data] } := by
  unfold RISUItem.addUnit
  dsimp only
  rw [h, if_neg Bool.false_ne_true]
  exact ⟨List.append_nil _, rfl⟩

theorem bytesInSU_signaling (h : data.signalingInfo = true) : data.bytesInSU = 0 := by
  rw [SU.signalingInfo, beq_iff_eq] at h
  rw [SU.bytesInSU, if_neg (by omega)]

theorem bytesInSU_le (data : SU) : data.bytesInSU ≤ 11 := by
  unfold SU.bytesInSU
  split <;> omega

/-! ## Items -/

/-- **What holds of an item that waits**: its size, and that it holds what its units have written. -/
structure RISUItem.Good (it : RISUItem) : Prop where
  sized : it.Sized
  held : ∀ i < it.userdata.length, (∃ u ∈ it.units, u.Writes i) →
    ∃ u ∈ it.units, u.Writes i ∧ it.userdata.getD i 0 = u.byteAt i
  /-- Nothing was written before a length was announced. -/
  bare : it.userdata.length = 0 → ∀ u ∈ it.units, u.bytesInSU = 0

theorem good_new (data : SU) : data.risuItem.Good where
  sized n := iff_of_false (Nat.not_lt_zero n) fun h => by
    obtain ⟨⟨u, hu, -⟩, -⟩ := h
    exact absurd hu List.not_mem_nil
  held i hi := absurd hi (Nat.not_lt_zero i)
  bare _ u hu := absurd hu List.not_mem_nil

theorem good_count (h : it.Good) (c : ℕ) : ({ it with count := c } : RISUItem).Good := ⟨h.sized, h.held, h.bare⟩

/-- **An item behind a unit that fits.** -/
theorem good_addUnit (h : it.Good) (hsig : data.signalingInfo = false)
    (hroom : 0 < data.bytesInSU → Below (it.units ++ [data]) (11 * data.suIndex + data.bytesInSU - 1)) :
    (it.addUnit data).val.Good := by
  obtain ⟨-, hval⟩ := addUnit_user it hsig
  obtain ⟨-, hlen, hget⟩ := writeLoop_spec data (data.resize it.userdata) 0 data.bytesInSU
  have hsize := resize_sized data h.sized
  -- a size that was there before can only get smaller
  have hshrink : ∀ n, n < (data.resize it.userdata).length → it.userdata.length ≠ 0 → n < it.userdata.length := by
    intro n hn hne
    have hbelow := (below_append it.units data n).1 ((hsize n).1 hn)
    exact (h.sized n).2 ⟨((h.sized 0).1 (Nat.pos_of_ne_zero hne)).1, hbelow.2.1⟩
  rw [hval]
  refine ⟨fun n => ?_, fun i hi hex => ?_, fun hzero u hu => ?_⟩
  · dsimp only
    rw [hlen]
    exact hsize n
  · dsimp only at hi hex ⊢
    rw [hlen] at hi
    rw [hget i hi]
    by_cases hw : data.Writes i
    · refine ⟨data, List.mem_append_right _ (List.mem_singleton_self _), hw, ?_⟩
      unfold SU.Writes at hw
      rw [if_pos (by omega)]
    · obtain ⟨u, hu, huw⟩ := hex
      have hold : u ∈ it.units := by
        rcases List.mem_append.1 hu with hu | hu
        · exact hu
        · exact absurd (List.mem_singleton.1 hu ▸ huw) hw
      have hne : it.userdata.length ≠ 0 := fun h0 => by
        have := h.bare h0 u hold
        unfold SU.Writes at huw
        omega
      obtain ⟨u', hu', hw', hbyte⟩ := h.held i (hshrink i hi hne) ⟨u, hold, huw⟩
      refine ⟨u', List.mem_append_left _ hu', hw', ?_⟩
      unfold SU.Writes at hw
      rw [if_neg (by omega), resize_getD hi hne, hbyte]
  · dsimp only at hzero hu
    rw [hlen] at hzero
    rcases List.mem_append.1 hu with hu | hu
    · by_contra hbytes
      have hne : it.userdata.length ≠ 0 := fun h0 => hbytes (h.bare h0 u hu)
      have hbelow := (h.sized 0).1 (Nat.pos_of_ne_zero hne)
      have := (hsize 0).2 ((below_append _ _ _).2 ⟨Or.inl hbelow.1, hbelow.2, fun h => h⟩)
      omega
    · rw [List.mem_singleton.1 hu]
      by_contra hbytes
      have := (hsize _).2 (hroom (Nat.pos_of_ne_zero hbytes))
      omega

/-! ## One update -/

/-- **What is asked of an update**: its writes are inside of `userdata`, and in a message that it reports each
byte was written by a unit of the message. -/
structure StepSound (d : RISUData) (data : SU) : Prop where
  inside : (d.update data).All fun w => w.index < w.size
  whole : (d.update data).val.2 = true → ∀ i < (d.update data).val.1.lastvalidisuitem.userdata.length,
    ∃ u ∈ (d.update data).val.1.lastvalidisuitem.units, u.Writes i ∧
      (d.update data).val.1.lastvalidisuitem.userdata.getD i 0 = u.byteAt i

/-- **A unit fits** to those that are in its item: its last byte is below each length that was announced, one of
them by itself if there is no other; and if it completes the item, each row below them has a unit that fills the
row or reaches one of the lengths. -/
structure Fits (d : RISUData) (data : SU) : Prop where
  room : 0 < data.bytesInSU → Below ((d.select data).2.2.units ++ [data]) (11 * data.suIndex + data.bytesInSU - 1)
  rows : data.signalingInfo = false → data.completes ((d.select data).2.2.filledarray ||| (1 <<< data.suIndex)) = true →
    ∀ r, Below ((d.select data).2.2.units ++ [data]) (11 * r) → ∃ u ∈ (d.select data).2.2.units ++ [data],
      u.suIndex = r ∧ (u.bytesInSU = 11 ∨ ¬Below ((d.select data).2.2.units ++ [data]) (11 * r + u.bytesInSU))

theorem update_eq (d : RISUData) (data : SU) :
    (d.update data).log = ((d.select data).2.2.addUnit data).log ∧
      (d.update data).val = if data.completes ((d.select data).2.2.addUnit data).val.filledarray then
        (⟨(d.select data).1.eraseIdx (d.select data).2.1, ((d.select data).2.2.addUnit data).val⟩, true)
      else ({ d with isuitems := (d.select data).1.set (d.select data).2.1 ((d.select data).2.2.addUnit data).val }, false) := by
  unfold RISUData.update
  dsimp only
  rw [Logged.log_bind, Logged.val_bind, Logged.log_ite, Logged.val_ite]
  refine ⟨?_, rfl⟩
  split <;> exact List.append_nil _

theorem below_mono {m n : ℕ} (hmn : m ≤ n) (h : Below us n) : Below us m :=
  ⟨h.1, fun u hu hpos => lt_of_le_of_lt (Int.ofNat_le.2 hmn) (h.2 u hu hpos)⟩

/-- The indices below the announced lengths have writers exactly when the rows below them are filled. -/
theorem rows_iff (us : List SU) : (∀ i, Below us i → ∃ u ∈ us, u.Writes i) ↔
    ∀ r, Below us (11 * r) → ∃ u ∈ us, u.suIndex = r ∧ (u.bytesInSU = 11 ∨ ¬Below us (11 * r + u.bytesInSU)) := by
  constructor
  · intro h r hr
    by_cases hfull : Below us (11 * r + 10)
    · obtain ⟨u, hu, hw⟩ := h _ hfull
      have hle := bytesInSU_le u
      unfold SU.Writes at hw
      exact ⟨u, hu, by omega, Or.inl (by omega)⟩
    · -- the last index of the row that is below the lengths has a writer
      have hex : ∃ k, ¬Below us (11 * r + k) := ⟨10, hfull⟩
      classical
      have hfind := Nat.find_spec hex
      obtain ⟨k, hk⟩ : ∃ k, Nat.find hex = k + 1 := by
        refine Nat.exists_eq_succ_of_ne_zero fun h0 => ?_
        rw [h0] at hfind
        exact hfind hr
      have hlast : Below us (11 * r + k) := not_not.1 (Nat.find_min hex (by omega))
      have hlt : Nat.find hex ≤ 10 := Nat.find_le hfull
      obtain ⟨u, hu, hw⟩ := h _ hlast
      have hle := bytesInSU_le u
      unfold SU.Writes at hw
      refine ⟨u, hu, by omega, Or.inr fun hb => ?_⟩
      rw [hk] at hfind
      exact hfind (below_mono (by omega) hb)
  · intro h i hi
    obtain ⟨u, hu, hidx, hfill⟩ := h (i / 11) (below_mono (by omega) hi)
    refine ⟨u, hu, ?_⟩
    unfold SU.Writes
    rcases hfill with hfull | hend
    · omega
    · have hlt : i < 11 * (i / 11) + u.bytesInSU := by
        by_contra hge
        exact hend (below_mono (not_lt.1 hge) hi)
      omega

/-- The writes of a unit are inside exactly when its last byte is below the lengths. -/
theorem inside_iff (h : it.Good) (hsig : data.signalingInfo = false) :
    ((it.addUnit data).All fun w => w.index < w.size) ↔
      (0 < data.bytesInSU → Below (it.units ++ [data]) (11 * data.suIndex + data.bytesInSU - 1)) := by
  have hsize := resize_sized data h.sized
  unfold Logged.All
  rw [(addUnit_user it hsig).1, (writeLoop_spec _ _ 0 _).1, List.forall_mem_map]
  constructor
  · intro hall hpos
    have hlast := hall (data.bytesInSU - 1) (List.mem_range'_1.2 (by omega))
    rw [← hsize]
    dsimp only at hlast
    omega
  · intro hroom j hj
    have hj' := List.mem_range'_1.1 hj
    have hlast := (hsize _).2 (hroom (by omega))
    dsimp only
    omega

/-- **One update** is sound exactly when the unit fits. -/
theorem stepSound_iff (h : (d.select data).2.2.Good) : StepSound d data ↔ Fits d data := by
  obtain ⟨hlog, hval⟩ := update_eq d data
  cases hsig : data.signalingInfo with
  | true =>
    -- such a unit writes nothing, and its item is reported without user data
    have hbytes := bytesInSU_signaling hsig
    have hadd : (d.select data).2.2.addUnit data =
        ⟨{ (d.select data).2.2 with count := 0, userdata := [], units := (d.select data).2.2.units ++ [data] }, []⟩ := by
      unfold RISUItem.addUnit
      dsimp only
      rw [hsig, if_pos rfl]
      rfl
    refine iff_of_true ⟨?_, fun _ i hi => ?_⟩ ⟨fun hpos => by omega, fun hno => absurd hno (by rw [hsig]; decide)⟩
    · unfold Logged.All
      rw [hlog, hadd]
      exact fun w hw => absurd hw List.not_mem_nil
    · have hdone : data.completes ((d.select data).2.2.addUnit data).val.filledarray = true := by
        rw [SU.completes, hsig]
        rfl
      rw [hval, if_pos hdone, hadd] at hi
      exact absurd hi (Nat.not_lt_zero i)
  | false =>
    have hinside := inside_iff h hsig
    have hall : (d.update data).All (fun w => w.index < w.size) ↔
        ((d.select data).2.2.addUnit data).All fun w => w.index < w.size := by
      unfold Logged.All
      rw [hlog]
    have hfilled : ((d.select data).2.2.addUnit data).val.filledarray =
        (d.select data).2.2.filledarray ||| (1 <<< data.suIndex) := by
      rw [(addUnit_user (d.select data).2.2 hsig).2]
    have hunits : ((d.select data).2.2.addUnit data).val.units = (d.select data).2.2.units ++ [data] := by
      rw [(addUnit_user (d.select data).2.2 hsig).2]
    have hlen : ((d.select data).2.2.addUnit data).val.userdata.length = (data.resize (d.select data).2.2.userdata).length := by
      rw [(addUnit_user (d.select data).2.2 hsig).2]
      exact (writeLoop_spec _ _ 0 _).2.1
    have hsize := resize_sized data h.sized
    constructor
    · rintro ⟨hin, hwhole⟩
      refine ⟨hinside.1 (hall.1 hin), fun _ hdone => (rows_iff _).1 fun i hi => ?_⟩
      rw [← hfilled] at hdone
      rw [hval, if_pos hdone, hunits, hlen] at hwhole
      obtain ⟨u, hu, hw, -⟩ := hwhole rfl i ((hsize i).2 hi)
      exact ⟨u, hu, hw⟩
    · rintro ⟨hroom, hrows⟩
      have hgood := good_addUnit h hsig hroom
      refine ⟨hall.2 (hinside.2 hroom), ?_⟩
      by_cases hdone : data.completes ((d.select data).2.2.addUnit data).val.filledarray = true
      · rw [hval, if_pos hdone]
        intro _ i hi
        apply hgood.held i hi
        rw [hunits]
        rw [hlen] at hi
        rw [hfilled] at hdone
        exact (rows_iff _).2 (hrows hsig hdone) i ((hsize i).1 hi)
      · rw [hval, if_neg hdone]
        exact fun hno => absurd hno Bool.false_ne_true

/-! ## Runs -/

/-- Every item that waits is good. -/
def RISUData.Good (d : RISUData) : Prop := ∀ it ∈ d.isuitems, it.Good

theorem good_aged {items : List RISUItem} (h : ∀ it ∈ items, it.Good) : ∀ it ∈ deleteoldrisuitems items, it.Good := by
  induction items with
  | nil => exact fun it hit => absurd hit List.not_mem_nil
  | cons e es ih =>
    obtain ⟨he, hes⟩ := List.forall_mem_cons.1 h
    rw [deleteoldrisuitems]
    split
    · exact ih hes
    · exact List.forall_mem_cons.2 ⟨good_count he _, ih hes⟩

theorem good_select (h : d.Good) (data : SU) : (∀ it ∈ (d.select data).1, it.Good) ∧ (d.select data).2.2.Good := by
  have haged := good_aged h
  unfold RISUData.select
  dsimp only
  split
  · refine ⟨haged, ?_⟩
    rename_i idx _
    rcases Nat.lt_or_ge idx (deleteoldrisuitems d.isuitems).length with hlt | hge
    · dsimp only
      rw [List.getD_eq_getElem _ _ hlt]
      exact haged _ (List.getElem_mem hlt)
    · dsimp only
      rw [List.getD_eq_default _ _ hge]
      exact good_new data
  · refine ⟨fun it hit => ?_, good_new data⟩
    rcases List.mem_append.1 hit with hit | hit
    · exact haged it hit
    · rw [List.mem_singleton.1 hit]
      exact good_new data

theorem good_update (h : d.Good) (hfits : Fits d data) : (d.update data).val.1.Good := by
  obtain ⟨hall, hsel⟩ := good_select h data
  rw [(update_eq d data).2]
  split
  · exact fun it hit => hall it (List.mem_of_mem_eraseIdx hit)
  · rename_i hdone
    have hsig : data.signalingInfo = false := by
      by_contra hsig
      rw [Bool.not_eq_false] at hsig
      exact hdone (by rw [SU.completes, hsig]; rfl)
    intro it hit
    rcases List.mem_or_eq_of_mem_set hit with hit | rfl
    · exact hall it hit
    · exact good_addUnit hsel hsig hfits.room

/-- Something holds of every update of a run. -/
def RISUData.Always (P : RISUData → SU → Prop) (d : RISUData) : List SU → Prop
  | [] => True
  | data :: units => P d data ∧ (d.update data).val.1.Always P units

theorem always_iff (h : d.Good) (units : List SU) : d.Always StepSound units ↔ d.Always Fits units := by
  induction units generalizing d with
  | nil => exact Iff.rfl
  | cons data units ih =>
    have hstep := stepSound_iff (good_select h data).2
    constructor
    · rintro ⟨hsound, hrest⟩
      have hfits := hstep.1 hsound
      exact ⟨hfits, (ih (good_update h hfits)).1 hrest⟩
    · rintro ⟨hfits, hrest⟩
      exact ⟨hstep.2 hfits, (ih (good_update h hfits)).2 hrest⟩

/-- **A run is sound exactly when its units fit together**, whatever `lastvalidisuitem` holds at first. -/
theorem risu_sound_iff (lastvalidisuitem : RISUItem) (units : List SU) :
    (⟨[], lastvalidisuitem⟩ : RISUData).Always StepSound units ↔ (⟨[], lastvalidisuitem⟩ : RISUData).Always Fits units :=
  always_iff (fun _ hit => absurd hit List.not_mem_nil) units

/-- A unit with the given first octet, and zeros behind it. -/
def unitOf (b : UInt8) : SU := fun k => if k = 0 then b else 0

/-- **A reserved sequence indicator**: a unit that announces no length writes into an empty vector. -/
theorem reserved_outside : ¬∀ (lastvalidisuitem : RISUItem) (units : List SU),
    (⟨[], lastvalidisuitem⟩ : RISUData).Always StepSound units := by
  intro h
  have hinside := (h (unitOf 0).risuItem [unitOf 0x05]).1.inside
  have hmem : (⟨0, 0⟩ : UserdataWrite) ∈ ((⟨[], (unitOf 0).risuItem⟩ : RISUData).update (unitOf 0x05)).log := by decide
  exact Nat.lt_irrefl 0 (hinside _ hmem)

/-- Two units of five bytes each, the first of two and the second: the message is reported with six bytes in
between that no unit has. -/
example : (((⟨[], (unitOf 0).risuItem⟩ : RISUData).run [unitOf 0x25]).update (unitOf 0x35)).val.2 = true ∧
    (((⟨[], (unitOf 0).risuItem⟩ : RISUData).run [unitOf 0x25]).update (unitOf 0x35)).val.1.lastvalidisuitem.userdata.length = 16 ∧
    ∀ i, 5 ≤ i → i < 11 → ∀ u ∈ [unitOf 0x25, unitOf 0x35], ¬u.Writes i := by
  refine ⟨by decide, by decide, fun i h5 h11 u hu => ?_⟩
  rcases List.mem_cons.1 hu with rfl | hu
  · exact fun hw => absurd hw.2 (not_lt.2 h5)
  · rw [List.mem_singleton.1 hu]
    exact fun hw => absurd hw.1 (not_le.2 h11)

end InmarsatSniffer.Aero
