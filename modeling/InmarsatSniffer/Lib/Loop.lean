import InmarsatSniffer.Lib.Logged

/-!
# Loops over memory

A program with loops reads memory and may not end: it is given fuel, and logs what it
accesses. `Returns P c a` says that `c` has fuel enough, returns `a`, and makes only
accesses that satisfy `P`; it goes through a program piece by piece, and through a loop by
an invariant and a measure (`Returns.loop`).
-/

namespace Logged

variable {ε α β σ : Type}

/-- A computation that logs its accesses and may run out of fuel. -/
abbrev Fueled (ε α : Type) := OptionT (Logged ε) α

/-- The access `e`, which gives `a`. -/
def access (e : ε) (a : α) : Fueled ε α := OptionT.mk do
  touch [e]
  pure (some a)

/-- The body is repeated while it gives a new state. -/
def loop (body : σ → Fueled ε (σ ⊕ α)) : ℕ → σ → Fueled ε α
  | 0, _ => failure
  | fuel + 1, s => do
    match ← body s with
    | .inl s' => loop body fuel s'
    | .inr a => pure a

/-- **The computation returns `a`**, and makes only accesses that satisfy `P`. -/
structure Returns (P : ε → Prop) (c : Fueled ε α) (a : α) : Prop where
  value : c.run.val = some a
  accesses : c.run.All P

namespace Returns

variable {P : ε → Prop} {c : Fueled ε α} {f : α → Fueled ε β} {a : α} {b : β}

theorem pure (a : α) : Returns P (pure a : Fueled ε α) a := ⟨rfl, all_pure _⟩

theorem access (P : ε → Prop) {e : ε} (h : P e) (a : α) : Returns P (access e a) a := by
  refine ⟨rfl, ?_⟩
  intro e' he'
  rw [List.mem_singleton.1 he']
  exact h

theorem bind (h : Returns P c a) (hf : Returns P (f a) b) : Returns P (c >>= f) b := by
  have hrun : (c >>= f).run = c.run >>= fun r => r.elim (Pure.pure none) fun a => (f a).run := by
    rw [OptionT.run_bind]
    rfl
  refine ⟨?_, ?_⟩
  · rw [hrun, val_bind, h.value]
    exact hf.value
  · rw [hrun, all_bind, h.value]
    exact ⟨h.accesses, hf.accesses⟩

theorem ite {p : Prop} [Decidable p] {c' : Fueled ε α} (ht : p → Returns P c a) (hf : ¬p → Returns P c' a) :
    Returns P (if p then c else c') a := by
  by_cases hp : p
  · rw [if_pos hp]
    exact ht hp
  · rw [if_neg hp]
    exact hf hp

/-- A computation returns one value. -/
theorem eq (h : Returns P c a) {a' : α} (h' : c.run.val = some a') : a' = a :=
  Option.some.inj (h'.symm.trans h.value)

/-- **The rule of the loop**: each round either ends with the result `out` that belongs to
its state, or keeps the invariant and the result and makes the measure smaller. -/
theorem loop {body : σ → Fueled ε (σ ⊕ α)} (I : σ → Prop) (μ : σ → ℕ) (out : σ → α)
    (round : ∀ s, I s → Returns P (body s) (.inr (out s)) ∨
      ∃ s', Returns P (body s) (.inl s') ∧ I s' ∧ μ s' < μ s ∧ out s' = out s) {fuel : ℕ} {s : σ} (hI : I s)
    (hfuel : μ s < fuel) : Returns P (loop body fuel s) (out s) := by
  induction fuel generalizing s with
  | zero => exact absurd hfuel (Nat.not_lt_zero _)
  | succ fuel ih =>
    rcases round s hI with hend | ⟨s', hnext, hI', hless, hout⟩
    · exact hend.bind (pure _)
    · rw [← hout]
      exact hnext.bind (ih hI' (by omega))

end Returns

end Logged
