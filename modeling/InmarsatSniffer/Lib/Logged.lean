import Mathlib.Tactic

/-!
# Computations that log what they touch

`Logged ε α` is a value of type `α` with the accesses of type `ε` made on the way,
in order. A predicate on accesses holds of a computation (`All`) when it holds of
each access; it goes through `bind` piece by piece (`all_bind`).
-/

/-- A value and the accesses made while computing it. -/
structure Logged (ε α : Type) where
  val : α
  log : List ε

namespace Logged

variable {ε α β : Type}

instance : Monad (Logged ε) where
  pure a := ⟨a, []⟩
  bind c f := ⟨(f c.val).val, c.log ++ (f c.val).log⟩

/-- Make the accesses `es`. -/
def touch (es : List ε) : Logged ε Unit := ⟨(), es⟩

@[simp] theorem val_pure (a : α) : (pure a : Logged ε α).val = a := rfl
@[simp] theorem log_pure (a : α) : (pure a : Logged ε α).log = [] := rfl
@[simp] theorem val_bind (c : Logged ε α) (f : α → Logged ε β) : (c >>= f).val = (f c.val).val := rfl
@[simp] theorem log_bind (c : Logged ε α) (f : α → Logged ε β) :
    (c >>= f).log = c.log ++ (f c.val).log := rfl
@[simp] theorem log_touch (es : List ε) : (touch es).log = es := rfl

@[simp] theorem val_ite (p : Prop) [Decidable p] (c c' : Logged ε α) :
    (if p then c else c').val = if p then c.val else c'.val := by split <;> rfl
@[simp] theorem log_ite (p : Prop) [Decidable p] (c c' : Logged ε α) :
    (if p then c else c').log = if p then c.log else c'.log := by split <;> rfl

/-- Every access satisfies `P`. -/
def All (P : ε → Prop) (c : Logged ε α) : Prop := ∀ e ∈ c.log, P e

variable {P : ε → Prop}

@[simp] theorem all_pure (a : α) : All P (pure a : Logged ε α) := by simp [All]

@[simp] theorem all_touch (es : List ε) : All P (touch es) ↔ ∀ e ∈ es, P e := Iff.rfl

@[simp] theorem all_bind (c : Logged ε α) (f : α → Logged ε β) :
    All P (c >>= f) ↔ All P c ∧ All P (f c.val) := by
  simp only [All, log_bind, List.mem_append]
  constructor
  · intro h
    exact ⟨fun e he => h e (Or.inl he), fun e he => h e (Or.inr he)⟩
  · rintro ⟨h1, h2⟩ e (he | he)
    · exact h1 e he
    · exact h2 e he

theorem all_ite (p : Prop) [Decidable p] (c c' : Logged ε α) :
    All P (if p then c else c') ↔ (p → All P c) ∧ (¬p → All P c') := by
  split <;> simp_all

end Logged
