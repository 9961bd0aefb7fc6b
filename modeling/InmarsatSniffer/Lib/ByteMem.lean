import Mathlib.Tactic
import Mathlib.Data.List.GetD

/-!
# Byte memory seen from a pointer

`Mem` is the memory around a pointer: `m i` is the byte at offset `i`, also for an
`i` outside the object the pointer was given for. `slice` reads a run of bytes,
`blit` writes one (`memcpy`), `Holds m i bs` says that `bs` stands at offset `i`.
-/

namespace ByteMem

/-- The bytes around a pointer, by offset. -/
abbrev Mem := ℤ → UInt8

/-- All bytes zero. -/
def zero : Mem := fun _ => 0

/-- The `n` bytes from offset `i` on. -/
def slice (m : Mem) (i : ℤ) (n : ℕ) : List UInt8 := (List.range n).map fun k : ℕ => m (i + k)

/-- Memory after the bytes `bs` are written from offset `i` on. -/
def blit (m : Mem) (i : ℤ) (bs : List UInt8) : Mem :=
  fun j => if i ≤ j ∧ j < i + bs.length then bs.getD (j - i).toNat 0 else m j

/-- The bytes `bs` stand at offset `i`. -/
def Holds (m : Mem) (i : ℤ) (bs : List UInt8) : Prop := slice m i bs.length = bs

/-- A list of bytes as memory, zero elsewhere. -/
def ofList (bs : List UInt8) : Mem := blit zero 0 bs

variable {m m' : Mem} {i j : ℤ} {n k : ℕ} {bs cs : List UInt8}

@[simp] theorem slice_length : (slice m i n).length = n := by simp [slice]

@[simp] theorem slice_zero : slice m i 0 = [] := rfl

theorem slice_getElem (h : k < (slice m i n).length) : (slice m i n)[k] = m (i + k) := by simp [slice]

theorem slice_getD (h : k < n) (d : UInt8) : (slice m i n).getD k d = m (i + k) := by
  rw [List.getD_eq_getElem _ _ (by simpa using h), slice_getElem]

theorem slice_add (a b : ℕ) : slice m i (a + b) = slice m i a ++ slice m (i + a) b := by
  unfold slice
  rw [List.range_add, List.map_append, List.map_map]
  congr 1
  apply List.map_congr_left
  intro x _
  simp [add_assoc]

theorem slice_succ (n : ℕ) : slice m i (n + 1) = m i :: slice m (i + 1) n := by
  rw [Nat.add_comm, slice_add]
  simp [slice]

theorem slice_congr (h : ∀ j, i ≤ j → j < i + n → m j = m' j) : slice m i n = slice m' i n := by
  apply List.map_congr_left
  intro x hx
  rw [List.mem_range] at hx
  exact h _ (by omega) (by omega)

theorem blit_of_mem (h1 : i ≤ j) (h2 : j < i + bs.length) : blit m i bs j = bs.getD (j - i).toNat 0 := by
  simp [blit, h1, h2]

theorem blit_of_lt (h : j < i) : blit m i bs j = m j := by
  unfold blit; rw [if_neg (by omega)]

theorem blit_of_ge (h : i + bs.length ≤ j) : blit m i bs j = m j := by
  unfold blit; rw [if_neg (by omega)]

@[simp] theorem blit_nil : blit m i [] = m := by
  funext j; unfold blit; rw [if_neg (by simp)]

/-- What was written is read back. -/
theorem slice_blit_self : slice (blit m i bs) i bs.length = bs := by
  apply List.ext_getElem (by simp)
  intro k h1 h2
  rw [slice_getElem, blit_of_mem (by omega) (by simp at h1; omega)]
  simp [h2]

/-- Bytes below the written ones are unchanged. -/
theorem slice_blit_below (h : i + n ≤ j) : slice (blit m j bs) i n = slice m i n :=
  slice_congr fun _ _ h2 => blit_of_lt (by omega)

/-- Bytes above the written ones are unchanged. -/
theorem slice_blit_above (h : j + bs.length ≤ i) : slice (blit m j bs) i n = slice m i n :=
  slice_congr fun _ h1 _ => blit_of_ge (by omega)

/-- Writing two pieces one behind the other is writing them together. -/
theorem blit_append : blit (blit m i bs) (i + bs.length) cs = blit m i (bs ++ cs) := by
  funext j
  unfold blit
  by_cases h1 : i + bs.length ≤ j
  · rw [if_neg (show ¬(i ≤ j ∧ j < i + bs.length) by omega)]
    have e : (j - i).toNat = bs.length + (j - (i + bs.length)).toNat := by omega
    simp only [List.length_append, h1, true_and, show i ≤ j by omega, Nat.cast_add,
      ← add_assoc, e, List.getD_append_right _ _ _ _ (Nat.le_add_right _ _), Nat.add_sub_cancel_left]
  · rw [if_neg (by omega)]
    by_cases h2 : i ≤ j
    · rw [if_pos ⟨h2, by omega⟩, if_pos ⟨h2, by simp; omega⟩,
        List.getD_append _ _ _ _ (by omega)]
    · rw [if_neg (by omega), if_neg (by omega)]

instance : Decidable (Holds m i bs) := inferInstanceAs (Decidable (_ = _))

theorem holds_nil : Holds m i [] := rfl

theorem holds_append : Holds m i (bs ++ cs) ↔ Holds m i bs ∧ Holds m (i + bs.length) cs := by
  unfold Holds
  rw [List.length_append, slice_add]
  constructor
  · intro h
    exact List.append_inj h (by simp)
  · rintro ⟨h1, h2⟩
    rw [h1, h2]

theorem holds_cons {b : UInt8} : Holds m i (b :: bs) ↔ m i = b ∧ Holds m (i + 1) bs := by
  unfold Holds
  rw [List.length_cons, slice_succ, List.cons.injEq]

theorem Holds.getD (h : Holds m i bs) (hk : k < bs.length) (d : UInt8) : m (i + k) = bs.getD k d := by
  have e : slice m i bs.length = bs := h
  rw [← slice_getD (m := m) (i := i) hk d, e]

theorem Holds.slice (h : Holds m i bs) : ByteMem.slice m i bs.length = bs := h

theorem holds_slice : Holds m i (ByteMem.slice m i n) := by unfold Holds; rw [slice_length]

theorem holds_ofList : Holds (ofList bs) 0 bs := slice_blit_self

theorem ofList_natCast (k : ℕ) : ofList bs k = bs.getD k 0 := by
  unfold ofList
  by_cases h : k < bs.length
  · rw [blit_of_mem (by omega) (by omega), sub_zero, Int.toNat_natCast]
  · rw [blit_of_ge (by omega), List.getD_eq_default _ _ (by omega)]
    rfl

theorem ofList_of_neg (h : j < 0) : ofList bs j = 0 := blit_of_lt h

/-- Bytes that are zero need not be written. -/
theorem ofList_take_eq {k : ℕ} : ofList (bs.take k) = ofList bs ↔ ∀ b ∈ bs.drop k, b = 0 := by
  constructor
  · intro h b hb
    obtain ⟨i, hi, rfl⟩ := List.mem_iff_getElem.1 hb
    rw [List.length_drop] at hi
    have := congrFun h (k + i : ℕ)
    rw [ofList_natCast, ofList_natCast, List.getD_eq_default _ _ (by simp),
      List.getD_eq_getElem _ _ (by omega)] at this
    rw [List.getElem_drop, ← this]
  · intro h
    funext j
    rcases lt_or_ge j 0 with hj | hj
    · rw [ofList_of_neg hj, ofList_of_neg hj]
    obtain ⟨i, rfl⟩ := Int.eq_ofNat_of_zero_le hj
    rw [ofList_natCast, ofList_natCast, List.getD_eq_getElem?_getD, List.getD_eq_getElem?_getD, List.getElem?_take]
    split
    · rfl
    · -- beyond the bytes kept, a byte of the list is zero
      by_cases hi : i < bs.length
      · have hm : bs[i] ∈ bs.drop k := List.mem_iff_getElem.2 ⟨i - k, by simp; omega, by simp [show k + (i - k) = i by omega]⟩
        rw [List.getElem?_eq_getElem hi]
        exact (h _ hm).symm
      · rw [List.getElem?_eq_none (by omega)]

/-- The middle of a held list. -/
theorem Holds.drop_take (h : Holds m i bs) {a c : ℕ} (hac : a + c ≤ bs.length) :
    ByteMem.slice m (i + a) c = (bs.drop a).take c := by
  apply List.ext_getElem (by simp; omega)
  intro k h1 h2
  simp only [slice_length] at h1
  have := h.getD (k := a + k) (by omega) 0
  rw [slice_getElem, List.getElem_take, List.getElem_drop, ← List.getD_eq_getElem _ 0, ← this]
  push_cast; ring_nf

end ByteMem
