import Mathlib.Tactic

/-!
# A bounded queue that can be closed

Elements come out in the order in which they went in. A closed queue takes and gives no
elements any more, those that are in it included.
-/

namespace ClosableQueue

/-- A queue with room for `cap` elements. -/
structure Queue (E : Type*) (cap : ℕ) where
  items : List E
  closed : Bool
  bound : items.length ≤ cap

/-- What a call comes to. -/
inductive Res (E : Type*) where
  | ok (e : E)
  /-- No room for an element, or none to give. -/
  | no
  | closed

variable {E : Type*} {cap : ℕ} {q : Queue E cap} {e : E}

/-- The empty queue. -/
def Queue.empty : Queue E cap := ⟨[], false, Nat.zero_le cap⟩

/-- An element more, if there is room. -/
def Queue.add (q : Queue E cap) (e : E) : Queue E cap × Res E :=
  if q.closed then (q, .closed)
  else if h : q.items.length < cap then
    (⟨q.items ++ [e], q.closed, by rw [List.length_append]; exact h⟩, .ok e)
  else (q, .no)

/-- The first element, if there is one. -/
def Queue.poll (q : Queue E cap) : Queue E cap × Res E :=
  if q.closed then (q, .closed)
  else
    match h : q.items with
    | [] => (q, .no)
    | e :: items =>
      (⟨items, q.closed, by
        have hbound := q.bound
        rw [h, List.length_cons] at hbound
        exact Nat.le_of_succ_le hbound⟩, .ok e)

/-- The queue closed. -/
def Queue.close (q : Queue E cap) : Queue E cap := { q with closed := true }

/-- An element goes in behind the others, or the queue stays as it is. -/
theorem add_cases (q : Queue E cap) (e : E) :
    (q.closed = false ∧ (q.add e).2 = .ok e ∧ (q.add e).1.items = q.items ++ [e] ∧ (q.add e).1.closed = false) ∨
      (∀ e', (q.add e).2 ≠ .ok e') ∧ (q.add e).1 = q := by
  unfold Queue.add
  cases hclosed : q.closed with
  | true => exact Or.inr ⟨nofun, rfl⟩
  | false =>
    rw [if_neg Bool.false_ne_true]
    split
    · exact Or.inl ⟨rfl, rfl, rfl, rfl⟩
    · exact Or.inr ⟨nofun, rfl⟩

/-- An element that comes out was the first. -/
theorem poll_ok (h : q.poll.2 = .ok e) :
    q.closed = false ∧ q.items = e :: q.poll.1.items ∧ q.poll.1.closed = false := by
  unfold Queue.poll at h ⊢
  cases hclosed : q.closed with
  | true =>
    rw [hclosed, if_pos rfl] at h
    cases h
  | false =>
    rw [hclosed, if_neg Bool.false_ne_true] at h
    rw [if_neg Bool.false_ne_true]
    split at h
    · cases h
    · next items heq =>
      cases h
      exact ⟨rfl, heq, rfl⟩

/-- Where there is room, an element goes in behind the others. -/
theorem add_room (hopen : q.closed = false) (hroom : q.items.length < cap) (e : E) :
    (q.add e).1.items = q.items ++ [e] ∧ (q.add e).1.closed = false ∧ (q.add e).2 = .ok e := by
  rw [Queue.add, if_neg (by rw [hopen]; exact Bool.false_ne_true), dif_pos hroom]
  exact ⟨rfl, hopen, rfl⟩

/-- Where there is an element, the first comes out. -/
theorem poll_cons {items : List E} (hopen : q.closed = false) (hitems : q.items = e :: items) :
    q.poll.1.items = items ∧ q.poll.1.closed = false ∧ q.poll.2 = .ok e := by
  rw [Queue.poll, if_neg (by rw [hopen]; exact Bool.false_ne_true)]
  split
  · next h => cases hitems.symm.trans h
  · next h =>
    cases hitems.symm.trans h
    exact ⟨rfl, hopen, rfl⟩

/-- **A closed queue keeps its elements.** -/
theorem add_closed (h : q.closed = true) (e : E) : q.add e = (q, .closed) := if_pos h

theorem poll_closed (h : q.closed = true) : q.poll = (q, .closed) := if_pos h

end ClosableQueue
