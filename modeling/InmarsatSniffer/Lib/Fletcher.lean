import Mathlib.Tactic

/-!
# Fletcher sums

The sum of a list and the sum of its running sums, over a commutative ring. Two check
symbols at the end make both of them zero, in one way (`sums_check_iff`), and no change of two
neighbouring symbols keeps both (`sums_adjacent`).
-/

namespace Fletcher

variable {R S : Type*} [CommRing R]

/-- One symbol more: the sum, and the sum of the running sums. -/
def step [Add S] (c : S × S) (b : S) : S × S := (c.1 + b, c.2 + (c.1 + b))

/-- Both sums of a list. -/
def sums [Add S] [Zero S] (l : List S) : S × S := l.foldl step (0, 0)

variable {l pre post : List R} {c : R × R} {a b a' b' x y : R}

/-- The sums from a start on. -/
theorem foldl_step (l : List R) (c : R × R) :
    l.foldl step c = (c.1 + (sums l).1, c.2 + l.length * c.1 + (sums l).2) := by
  induction l generalizing c with
  | nil => simp [sums]
  | cons b l ih =>
    have hsums : sums (b :: l) = l.foldl step (step (0, 0) b) := rfl
    rw [List.foldl_cons, hsums, ih (step c b), ih (step (0, 0) b), Prod.mk.injEq]
    unfold step
    push_cast [List.length_cons]
    constructor
    · ring
    · ring

theorem sums_append (l m : List R) :
    sums (l ++ m) = ((sums l).1 + (sums m).1, (sums l).2 + m.length * (sums l).1 + (sums m).2) := by
  unfold sums
  rw [List.foldl_append]
  exact foldl_step m _

theorem sums_pair (x y : R) : sums [x, y] = (x + y, 2 * x + y) := by
  unfold sums step
  simp only [List.foldl_cons, List.foldl_nil, Prod.mk.injEq]
  constructor
  · ring
  · ring

/-- **The check symbols**: those of the sums with zeros in their place. -/
theorem sums_check_iff (l : List R) (x y : R) : sums (l ++ [x, y]) = 0 ↔
    x = (sums (l ++ [0, 0])).1 - (sums (l ++ [0, 0])).2 ∧ y = (sums (l ++ [0, 0])).2 - 2 * (sums (l ++ [0, 0])).1 := by
  rw [sums_append, sums_append, sums_pair, sums_pair, Prod.mk_eq_zero]
  push_cast [List.length_cons, List.length_nil]
  constructor
  · rintro ⟨h0, h1⟩
    constructor
    · linear_combination h1 - h0
    · linear_combination 2 * h0 - h1
  · rintro ⟨hx, hy⟩
    rw [hx, hy]
    constructor
    · ring
    · ring

/-- **Two neighbouring symbols** are determined by the sums and the others. -/
theorem sums_adjacent (h : sums (pre ++ [a, b] ++ post) = sums (pre ++ [a', b'] ++ post)) : a = a' ∧ b = b' := by
  rw [sums_append, sums_append pre, sums_append, sums_append pre, sums_pair, sums_pair, Prod.mk.injEq] at h
  obtain ⟨h0, h1⟩ := h
  push_cast [List.length_cons, List.length_nil] at h0 h1
  have ha : a = a' := by linear_combination h1 - (post.length + 1) * h0
  refine ⟨ha, ?_⟩
  rw [ha] at h0
  linear_combination h0

/-- Sums go through a homomorphism. -/
theorem sums_map [Semiring S] (f : S →+* R) (l : List S) : sums (l.map f) = (f (sums l).1, f (sums l).2) := by
  have hfold : ∀ c : S × S, (l.map f).foldl step (f c.1, f c.2) = (f (l.foldl step c).1, f (l.foldl step c).2) := by
    induction l with
    | nil => exact fun c => rfl
    | cons b l ih =>
      intro c
      rw [List.map_cons, List.foldl_cons, List.foldl_cons, ← ih (step c b)]
      unfold step
      rw [map_add, map_add, map_add]
  have hzero := hfold (0, 0)
  rwa [map_zero] at hzero

end Fletcher
