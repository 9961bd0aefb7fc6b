import Mathlib

/-!
# Lists linked by pointers

`Linked next xs`: each cell of `xs` points to the one behind it, and the last one nowhere. Cells are linked behind the
last one (`Linked.snoc`) and taken out of the middle (`Linked.remove`) as C programs do, with the last cell in hand.
-/

namespace LinkedCells

variable {P : Type*} {next next' : P → Option P} {xs ys : List P} {x e : P}

/-- The cells are linked in this order. -/
def Linked (next : P → Option P) : List P → Prop
  | [] => True
  | x :: xs => next x = xs.head? ∧ Linked next xs

theorem Linked.congr (h : Linked next xs) (heq : ∀ x ∈ xs, next' x = next x) : Linked next' xs := by
  induction xs with
  | nil => trivial
  | cons x xs ih =>
    refine ⟨(heq x List.mem_cons_self).trans h.1, ih h.2 fun y hy => heq y (List.mem_cons_of_mem _ hy)⟩

variable [DecidableEq P]

/-- A pointer outside of the list changes nothing in it. -/
theorem Linked.update (h : Linked next xs) (hx : x ∉ xs) (p : Option P) : Linked (Function.update next x p) xs :=
  h.congr fun _ hy => Function.update_of_ne (by rintro rfl; exact hx hy) _ _

/-- The last cell, if there is one, is made to point to `p`. -/
def relink (next : P → Option P) (last p : Option P) : P → Option P :=
  match last with
  | none => next
  | some l => Function.update next l p

theorem relink_of_notMem (hx : x ∉ xs) (p : Option P) : relink next xs.getLast? p x = next x := by
  cases hlast : xs.getLast? with
  | none => rfl
  | some l => exact Function.update_of_ne (by rintro rfl; exact hx (List.mem_of_getLast? hlast)) _ _

/-- What stands between two parts of the list is taken out. -/
theorem Linked.relink (hxs : Linked next (xs ++ ys)) {zs : List P} (hzs : Linked next zs) (hnodup : (xs ++ zs).Nodup) :
    Linked (relink next xs.getLast? zs.head?) (xs ++ zs) := by
  induction xs with
  | nil => exact hzs
  | cons x xs ih =>
    obtain ⟨hnot, hnodup'⟩ := List.nodup_cons.1 hnodup
    cases xs with
    | nil =>
      refine ⟨?_, hzs.update hnot _⟩
      show Function.update next x zs.head? x = _
      rw [Function.update_self]
      rfl
    | cons x' xs =>
      have hrest := ih hxs.2 hnodup'
      rw [List.getLast?_cons_cons]
      refine ⟨?_, hrest⟩
      rw [relink_of_notMem fun hmem => hnot (List.mem_append_left _ hmem)]
      exact hxs.1

/-- A cell at the end. -/
theorem Linked.snoc (h : Linked next xs) (hnodup : (xs ++ [e]).Nodup) :
    Linked (Function.update (LinkedCells.relink next xs.getLast? (some e)) e none) (xs ++ [e]) := by
  have hnot : e ∉ xs := fun hmem => (List.nodup_append.1 hnodup).2.2 e hmem e List.mem_cons_self rfl
  have hnone : Linked (Function.update next e none) [e] := ⟨Function.update_self .., trivial⟩
  have hbefore : Linked (Function.update next e none) (xs ++ []) := by
    rw [List.append_nil]
    exact h.update hnot none
  have hlinked := hbefore.relink hnone hnodup
  refine hlinked.congr fun y hy => ?_
  by_cases hye : y = e
  · rw [hye, Function.update_self, relink_of_notMem hnot, Function.update_self]
  · rw [Function.update_of_ne hye]
    cases hlast : xs.getLast? with
    | none => exact (Function.update_of_ne hye _ _).symm
    | some l =>
      show Function.update next l (some e) y = Function.update (Function.update next e none) l (some e) y
      by_cases hyl : y = l
      · rw [hyl, Function.update_self, Function.update_self]
      · rw [Function.update_of_ne hyl, Function.update_of_ne hyl, Function.update_of_ne hye]

/-- A cell out of the middle. -/
theorem Linked.remove (h : Linked next (xs ++ e :: ys)) (hnodup : (xs ++ e :: ys).Nodup) :
    Linked (LinkedCells.relink next xs.getLast? (next e)) (xs ++ ys) := by
  have hsuffix : ∀ {zs : List P}, Linked next (zs ++ e :: ys) → next e = ys.head? ∧ Linked next ys := by
    intro zs hzs
    induction zs with
    | nil => exact hzs
    | cons z zs ih => exact ih hzs.2
  obtain ⟨hnext, hys⟩ := hsuffix h
  rw [hnext]
  exact h.relink hys (hnodup.sublist (List.Sublist.append_left (List.sublist_cons_self e ys) xs))

end LinkedCells
