import Mathlib.Tactic
import Mathlib.Data.List.GetD

/-!
# Rings that hold the last inputs

A ring of `n` cells is written round and round. Behind `t` inputs, the cell that is written next holds
the oldest of the last `n` inputs, and the cells after it the later ones in order (`RingBuf.Holds`);
before the first input there were zeros.
-/

namespace LastInputs

variable {K : Type*} [Zero K] {n t j : ℕ} {x : ℕ → K}

/-- A buffer and the index that is written next. -/
structure RingBuf (K : Type*) where
  buf : List K
  idx : ℕ

/-- A ring of zeros. -/
def RingBuf.zeros (K : Type*) [Zero K] (n : ℕ) : RingBuf K := ⟨List.replicate n 0, 0⟩

/-- An input is written, and the index goes on. -/
def RingBuf.push (n : ℕ) (r : RingBuf K) (a : K) : RingBuf K := ⟨r.buf.set r.idx a, (r.idx + 1) % n⟩

/-- Behind `t` inputs, the one before the last `k`. -/
def past (x : ℕ → K) (t k : ℕ) : K := if k < t then x (t - 1 - k) else 0

/-- **The ring holds the last `n` of `t` inputs.** -/
structure RingBuf.Holds (n : ℕ) (r : RingBuf K) (x : ℕ → K) (t : ℕ) : Prop where
  length : r.buf.length = n
  idx : r.idx = t % n
  cells : ∀ j < n, r.buf.getD ((r.idx + j) % n) 0 = past x t (n - 1 - j)

theorem holds_zeros (n : ℕ) (x : ℕ → K) : (RingBuf.zeros K n).Holds n x 0 where
  length := List.length_replicate
  idx := (Nat.zero_mod n).symm
  cells := fun j hj => by
    have hlt : (0 + j) % n < n := Nat.mod_lt _ (by omega)
    unfold RingBuf.zeros past
    rw [List.getD_eq_getElem _ _ (by rwa [List.length_replicate]), List.getElem_replicate, if_neg (Nat.not_lt_zero _)]

/-- Two cells less than a ring apart. -/
theorem cell_inj {a i j : ℕ} (hi : i < n) (hj : j < n) (h : (a + i) % n = (a + j) % n) : i = j := by
  have hmod : i ≡ j [MOD n] := Nat.ModEq.add_left_cancel' a h
  exact Nat.ModEq.eq_of_lt_of_lt hmod hi hj

/-- **One input more.** -/
theorem RingBuf.Holds.push {r : RingBuf K} (h : r.Holds n x t) (hn : 0 < n) : (r.push n (x t)).Holds n x (t + 1) := by
  have hlt : r.idx < n := by
    rw [h.idx]
    exact Nat.mod_lt _ hn
  have hnext : (r.idx + 1) % n = (t + 1) % n := by rw [h.idx, Nat.mod_add_mod]
  refine ⟨by rw [RingBuf.push, List.length_set, h.length], hnext, fun j hj => ?_⟩
  unfold RingBuf.push
  dsimp only
  rw [Nat.mod_add_mod, Nat.add_right_comm]
  have hread : ∀ q, (r.buf.set r.idx (x t)).getD q 0 = if r.idx = q then x t else r.buf.getD q 0 := fun q => by
    rw [List.getD_eq_getElem?_getD, List.getD_eq_getElem?_getD, List.getElem?_set, h.length]
    by_cases hq : r.idx = q
    · rw [if_pos hq, if_pos hlt, if_pos hq]
      rfl
    · rw [if_neg hq, if_neg hq]
  rw [hread, Nat.add_assoc]
  by_cases hlast : j + 1 = n
  · -- the cell that was written
    rw [hlast, Nat.add_mod_right, Nat.mod_eq_of_lt hlt, if_pos rfl]
    unfold past
    rw [if_pos (by omega)]
    congr 1
    omega
  · have hother : r.idx ≠ (r.idx + (j + 1)) % n := by
      intro heq
      have hzero : (r.idx + 0) % n = (r.idx + (j + 1)) % n := by rwa [Nat.add_zero, Nat.mod_eq_of_lt hlt]
      have := cell_inj hn (by omega) hzero
      omega
    rw [if_neg hother, h.cells (j + 1) (by omega)]
    unfold past
    by_cases hold : n - 1 - (j + 1) < t
    · rw [if_pos hold, if_pos (by omega)]
      congr 1
      omega
    · rw [if_neg hold, if_neg (by omega)]

end LastInputs
