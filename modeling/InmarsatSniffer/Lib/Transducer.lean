import Mathlib.Tactic

/-!
# Transducers

A transducer takes one symbol at a time, and puts one out at some of them.

* `run_append`: input in two pieces. `run_map`: a part of the state that is not looked at.
* `Periodic`: it puts one symbol out for every `N`; `Periodic.run_count`.
* `into_eq`: output into a buffer that has room.
* `near_of_leftover`: two ways to hand on the same output, each with some of it left over.
-/

namespace Transducer

variable {σ α β : Type*}

/-- The state after the input, and the output. -/
def run (step : σ → α → σ × Option β) : σ → List α → σ × List β
  | s, [] => (s, [])
  | s, a :: as =>
    let r := run step (step s a).1 as
    (r.1, (step s a).2.toList ++ r.2)

variable {step : σ → α → σ × Option β} {s : σ} {a : α} {as : List α}

theorem run_cons (step : σ → α → σ × Option β) (s : σ) (a : α) (as : List α) : run step s (a :: as) =
    ((run step (step s a).1 as).1, (step s a).2.toList ++ (run step (step s a).1 as).2) := rfl

/-- **Input in two pieces.** -/
theorem run_append (step : σ → α → σ × Option β) (s : σ) (as as' : List α) : run step s (as ++ as') =
    ((run step (run step s as).1 as').1, (run step s as).2 ++ (run step (run step s as).1 as').2) := by
  induction as generalizing s with
  | nil => rfl
  | cons a as ih => rw [List.cons_append, run_cons, run_cons, ih, List.append_assoc]

/-- What each step keeps is kept. -/
theorem run_keeps {P : σ → Prop} (hstep : ∀ s a, P s → P (step s a).1) (h : P s) : P (run step s as).1 := by
  induction as generalizing s with
  | nil => exact h
  | cons a as ih => exact ih (hstep s a h)

/-- A change of the state that no step looks at. -/
theorem run_map {f : σ → σ} (hstep : ∀ s a, step (f s) a = (f (step s a).1, (step s a).2)) (s : σ) (as : List α) :
    run step (f s) as = (f (run step s as).1, (run step s as).2) := by
  induction as generalizing s with
  | nil => rfl
  | cons a as ih => rw [run_cons, run_cons, hstep, ih]

/-! ## One symbol out for every `N` -/

/-- From states with `P` on, the transducer counts its input in `phase`, and puts a symbol
out at every `N`-th. -/
structure Periodic (step : σ → α → σ × Option β) (N : ℕ) (phase : σ → ℕ) (P : σ → Prop) : Prop where
  keeps : ∀ s a, P s → P (step s a).1
  lt : ∀ s, P s → phase s < N
  count : ∀ s a, P s → phase (step s a).1 + N * (step s a).2.toList.length = phase s + 1

variable {N : ℕ} {phase : σ → ℕ} {P : σ → Prop}

/-- **The length of the output.** -/
theorem Periodic.run_count (h : Periodic step N phase P) (hs : P s) (as : List α) :
    phase (run step s as).1 + N * (run step s as).2.length = phase s + as.length := by
  induction as generalizing s with
  | nil => rfl
  | cons a as ih =>
    have hstep := h.count s a hs
    have hrest := ih (h.keeps s a hs)
    rw [run_cons, List.length_append, List.length_cons, mul_add]
    dsimp only
    omega

theorem Periodic.run_lt (h : Periodic step N phase P) (hs : P s) (as : List α) :
    N * (run step s as).2.length < N + as.length := by
  have hcount := h.run_count hs as
  have hlt := h.lt s hs
  omega

/-! ## Buffers -/

/-- A symbol into a buffer, if there is one and there is room; else it is counted. -/
def push (cap : ℕ) (buf : List β × ℕ) : Option β → List β × ℕ
  | none => buf
  | some b => if buf.1.length < cap then (buf.1 ++ [b], buf.2) else (buf.1, buf.2 + 1)

/-- A step with its output into a buffer. -/
def into (step : σ → α → σ × Option β) (cap : ℕ) (s : σ × List β × ℕ) (a : α) : σ × List β × ℕ :=
  ((step s.1 a).1, push cap s.2 (step s.1 a).2)

/-- **A buffer with room** takes the whole output. -/
theorem into_eq {cap : ℕ} {buf : List β} {n : ℕ} (h : buf.length + (run step s as).2.length ≤ cap) :
    as.foldl (into step cap) (s, buf, n) = ((run step s as).1, buf ++ (run step s as).2, n) := by
  induction as generalizing s buf with
  | nil => rw [List.foldl_nil, run, List.append_nil]
  | cons a as ih =>
    rw [run_cons] at h ⊢
    rw [List.foldl_cons, into]
    dsimp only at h ⊢
    cases hout : (step s a).2 with
    | none =>
      rw [hout] at h
      exact ih h
    | some b =>
      rw [hout, Option.toList_some, List.length_append, List.length_singleton] at h
      have hpush : push cap (buf, n) (some b) = (buf ++ [b], n) := if_pos (show buf.length < cap by omega)
      rw [hpush, ih (by rw [List.length_append, List.length_singleton]; omega), List.append_assoc]
      rfl

/-- **Leftovers.** Of two ways to hand on the same symbols one is ahead, but by no more than
what may be left over. -/
theorem near_of_leftover {sent sent' left left' all : List β} {k : ℕ} (h : sent ++ left = all)
    (h' : sent' ++ left' = all) (hleft : left.length ≤ k) (hleft' : left'.length ≤ k) :
    (sent <+: sent' ∨ sent' <+: sent) ∧ sent.length ≤ sent'.length + k ∧ sent'.length ≤ sent.length + k := by
  have hlen : sent.length + left.length = sent'.length + left'.length := by
    rw [← List.length_append, ← List.length_append, h, h']
  refine ⟨List.prefix_or_prefix_of_prefix ⟨left, h⟩ ⟨left', h'⟩, ?_, ?_⟩
  · omega
  · omega

end Transducer
