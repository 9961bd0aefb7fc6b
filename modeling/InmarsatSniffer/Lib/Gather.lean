import Mathlib.Tactic
import Mathlib.Data.List.GetD

/-!
# Copy loops through a table of indices

`out[k++] = block[entry]` for the entries of a table, each index inside of its array by an assertion.

* `copy_eq`: the loop passes its assertions, and writes what the table picks.
* `grid_getD`: the table of two nested loops, by row and column.
* `pick_pick`: a table behind another one. `grid_eq_range`: the table that moves nothing.
-/

namespace Gather

variable {α β : Type*} {m a b : ℕ} {block : List α} {entries : List ℕ}

/-! ## The loop -/

/-- `assert(entry < block.size()); assert(k < out.size()); out[k] = block[entry]; k++;` -/
def turn (conv : α → β) (block : List α) (st : Vector β m × ℕ) (entry : ℕ) : Option (Vector β m × ℕ) :=
  if h : entry < block.length ∧ st.2 < m then
    some (st.1.set st.2 (conv (block.get ⟨entry, h.1⟩)) h.2, st.2 + 1)
  else none

/-- The loop over the entries, with `k` from 0 on. -/
def copy (conv : α → β) (block : List α) (out : Vector β m) (entries : List ℕ) : Option (Vector β m) :=
  (entries.foldlM (turn conv block) (out, 0)).map Prod.fst

/-- What a table picks from a block. -/
def pick [Inhabited α] (entries : List ℕ) (block : List α) : List α := entries.map fun e => block.getD e default

/-- The table of two nested loops. -/
def grid (a b : ℕ) (f : ℕ → ℕ → ℕ) : List ℕ := (List.range a).flatMap fun i => (List.range b).map (f i)

/-- The loop from index `k` on. -/
theorem foldlM_turn [Inhabited α] (conv : α → β) (out : Vector β m) (k : ℕ) (hin : ∀ e ∈ entries, e < block.length)
    (hroom : k + entries.length ≤ m) : ∃ out', entries.foldlM (turn conv block) (out, k) = some (out', k + entries.length) ∧
      out'.toList = out.toList.take k ++ (pick entries block).map conv ++ out.toList.drop (k + entries.length) := by
  induction entries generalizing out k with
  | nil => exact ⟨out, rfl, by simp [pick]⟩
  | cons e es ih =>
    have he := hin e List.mem_cons_self
    rw [List.length_cons] at hroom
    have hk : k < m := by omega
    -- the rest of the loop runs on `out` with the first entry in it
    obtain ⟨out', hrun, hlist⟩ := ih (out.set k (conv (block.get ⟨e, he⟩)) hk) (k + 1)
      (fun e' he' => hin e' (List.mem_cons_of_mem _ he')) (by omega)
    have hlen : k < out.toList.length := by rwa [Vector.length_toList]
    refine ⟨out', ?_, ?_⟩
    · have hturn : turn conv block (out, k) e = some (out.set k (conv (block.get ⟨e, he⟩)) hk, k + 1) := dif_pos ⟨he, hk⟩
      rw [List.foldlM_cons, hturn, Option.bind_eq_bind, Option.bind_some, hrun, List.length_cons, Nat.add_right_comm]
      rfl
    · have hget : block.get ⟨e, he⟩ = block.getD e default := (List.getD_eq_getElem _ _ he).symm
      rw [hlist, Vector.toList_set, List.length_cons, hget, List.take_succ_eq_append_getElem (by rwa [List.length_set]),
        List.getElem_set_self, List.take_set_of_le le_rfl, List.drop_set_of_lt (by omega)]
      simp [pick, Nat.add_right_comm, Nat.add_assoc]

/-- **The loop passes its assertions**, and what is behind its last entry stays. -/
theorem copy_eq [Inhabited α] (conv : α → β) (block : List α) (out : Vector β m) (hin : ∀ e ∈ entries, e < block.length)
    (hroom : entries.length ≤ m) : ∃ out', copy conv block out entries = some out' ∧
      out'.toList = (pick entries block).map conv ++ out.toList.drop entries.length := by
  obtain ⟨out', hrun, hlist⟩ := foldlM_turn conv out 0 hin ((Nat.zero_add _).trans_le hroom)
  refine ⟨out', ?_, ?_⟩
  · rw [copy, hrun]
    rfl
  · rw [hlist, List.take_zero, List.nil_append, Nat.zero_add]

/-! ## Tables -/

theorem pick_length [Inhabited α] : (pick entries block).length = entries.length := List.length_map _

/-- **A table behind another one.** -/
theorem pick_pick [Inhabited α] {entries' : List ℕ} (h : ∀ e ∈ entries, e < entries'.length) :
    pick entries (pick entries' block) = pick (entries.map fun e => entries'.getD e 0) block := by
  unfold pick
  rw [List.map_map]
  apply List.map_congr_left
  intro e he
  have hlt := h e he
  rw [List.getD_eq_getElem _ _ (by rwa [List.length_map]), List.getElem_map, Function.comp_apply,
    List.getD_eq_getElem entries' _ hlt]

theorem pick_range [Inhabited α] {n : ℕ} (h : n ≤ block.length) : pick (List.range n) block = block.take n := by
  apply List.ext_getElem
  · rw [pick_length, List.length_range, List.length_take, Nat.min_eq_left h]
  · intro i h1 h2
    rw [pick_length, List.length_range] at h1
    simp only [pick, List.getElem_map, List.getElem_range, List.getElem_take]
    exact List.getD_eq_getElem _ _ (h1.trans_le h)

variable {f g : ℕ → ℕ → ℕ}

theorem grid_length : (grid a b f).length = a * b := by
  rw [grid, List.length_flatMap]
  simp

theorem mem_grid {e : ℕ} : e ∈ grid a b f ↔ ∃ i < a, ∃ j < b, f i j = e := by
  simp only [grid, List.mem_flatMap, List.mem_map, List.mem_range]

theorem grid_congr (h : ∀ i < a, ∀ j < b, f i j = g i j) : grid a b f = grid a b g := by
  unfold grid
  apply List.flatMap_congr
  intro i hi
  apply List.map_congr_left
  intro j hj
  exact h i (List.mem_range.1 hi) j (List.mem_range.1 hj)

theorem map_grid (h : ℕ → ℕ) : (grid a b f).map h = grid a b fun i j => h (f i j) := by
  unfold grid
  rw [List.map_flatMap]
  apply List.flatMap_congr
  intro i _
  exact List.map_map

/-- **The table that moves nothing.** -/
theorem grid_eq_range : grid a b (fun i j => i * b + j) = List.range (a * b) := by
  induction a with
  | zero => rw [Nat.zero_mul]; rfl
  | succ a ih =>
    have hlast : grid (a + 1) b (fun i j => i * b + j) =
        grid a b (fun i j => i * b + j) ++ (List.range b).map (a * b + ·) := by
      unfold grid
      rw [List.range_succ, List.flatMap_append, List.flatMap_singleton]
    rw [hlast, ih, Nat.succ_mul, List.range_add]

theorem index_lt {i j : ℕ} (hi : i < a) (hj : j < b) : i * b + j < a * b :=
  calc i * b + j < i * b + b := by omega
    _ = (i + 1) * b := (Nat.succ_mul i b).symm
    _ ≤ a * b := Nat.mul_le_mul_right b hi

/-- The row and the column of an index. -/
theorem index_div_mod (i : ℕ) {j : ℕ} (hj : j < b) : (i * b + j) / b = i ∧ (i * b + j) % b = j := by
  refine ⟨?_, ?_⟩
  · rw [Nat.mul_comm, Nat.mul_add_div (by omega), Nat.div_eq_of_lt hj, Nat.add_zero]
  · rw [Nat.mul_comm, Nat.mul_add_mod, Nat.mod_eq_of_lt hj]

/-- **The table of nested loops** at a row and a column. -/
theorem grid_getD {i j : ℕ} (hi : i < a) (hj : j < b) : (grid a b f).getD (i * b + j) 0 = f i j := by
  have hflat : grid a b f = (List.range (a * b)).map fun k => f (k / b) (k % b) := by
    rw [← grid_eq_range, map_grid]
    apply grid_congr
    intro i' _ j' hj'
    rw [(index_div_mod i' hj').1, (index_div_mod i' hj').2]
  have hlt := index_lt hi hj
  rw [hflat, List.getD_eq_getElem _ _ (by rwa [List.length_map, List.length_range]), List.getElem_map, List.getElem_range,
    (index_div_mod i hj).1, (index_div_mod i hj).2]

end Gather
