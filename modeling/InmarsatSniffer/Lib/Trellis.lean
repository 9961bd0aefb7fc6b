import Mathlib.Tactic

/-!
# Shortest paths through a trellis

A path through a trellis is the list of its inputs, the latest first; each step has a
cost that also depends on what was received at that step. A survivor list keeps, for
every state, a cheapest path that ends there by its last step (`Survives`).

* `Survives.le_cost`, `Survives.trace`: what survives is cheapest, and tracing it back
  gives a path of its cost.
* `Survives.isLeast`: **the best state traces to a path of least cost**.
* `Survives.trace_eq`: **a path cheaper than all others is what the best state traces to**.
* `cost_lt_of_ne`: when a path has the least cost at each of its steps.
-/

namespace Trellis

variable {σ ι γ : Type*} (next : σ → ι → σ) (c : γ → σ → ι → ℕ) (s₀ : σ)

/-- The state at the end of a path. -/
def endState : List ι → σ
  | [] => s₀
  | x :: xs => next (endState xs) x

/-- The cost of a path, against what was received on it. -/
def cost : List γ → List ι → ℕ
  | r :: rs, x :: xs => cost rs xs + c r (endState next s₀ xs) x
  | _, _ => 0

/-- The path that the decisions of the steps lead to from a final state. -/
def trace : List (σ → σ × ι) → σ → List ι
  | [], _ => []
  | d :: ds, s => (d s).2 :: trace ds (d s).1

/-- One step of the survivors: `m'` is the least cost over the edges into each state, and
`d` an edge of that cost. -/
structure Selects (r : γ) (m m' : σ → WithTop ℕ) (d : σ → σ × ι) : Prop where
  le : ∀ s x, m' (next s x) ≤ m s + c r s x
  attained : ∀ s, m' s ≠ ⊤ → next (d s).1 (d s).2 = s ∧ m' s = m (d s).1 + c r (d s).1 (d s).2

/-- The survivors after what was received: the cost of a cheapest path to each state, and
the decisions of the steps. -/
inductive Survives : List γ → (σ → WithTop ℕ) → List (σ → σ × ι) → Prop where
  | start {m : σ → WithTop ℕ} (h0 : m s₀ = 0) (h : ∀ s, s ≠ s₀ → m s = ⊤) : Survives [] m []
  | step {r : γ} {rs : List γ} {m m' : σ → WithTop ℕ} {d : σ → σ × ι} {ds : List (σ → σ × ι)}
      (h : Survives rs m ds) (hs : Selects next c r m m' d) : Survives (r :: rs) m' (d :: ds)

variable {next c s₀} {r : γ} {rs : List γ} {m : σ → WithTop ℕ} {ds : List (σ → σ × ι)} {s : σ} {xs ys : List ι}

/-- No path is cheaper than what survives at its end. -/
theorem Survives.le_cost (h : Survives next c s₀ rs m ds) :
    ∀ xs : List ι, xs.length = rs.length → m (endState next s₀ xs) ≤ cost next c s₀ rs xs := by
  induction h with
  | start h0 _ =>
    intro xs hl
    rw [List.length_eq_zero_iff.1 hl]
    exact h0.le
  | @step r rs m m' d ds _ hs ih =>
    intro xs hl
    rcases xs with _ | ⟨x, xs⟩
    · exact absurd hl (by simp)
    · have hih := ih xs (by simpa using hl)
      calc m' (next (endState next s₀ xs) x) ≤ m (endState next s₀ xs) + c r (endState next s₀ xs) x := hs.le _ _
        _ ≤ (cost next c s₀ rs xs : WithTop ℕ) + c r (endState next s₀ xs) x := by gcongr
        _ = (cost next c s₀ (r :: rs) (x :: xs) : ℕ) := by rw [cost, Nat.cast_add]

/-- **Tracing back** from a state that is reached gives a path that ends there, of the cost
that survives. -/
theorem Survives.trace (h : Survives next c s₀ rs m ds) : ∀ s, m s ≠ ⊤ →
    (trace ds s).length = rs.length ∧ endState next s₀ (Trellis.trace ds s) = s ∧
      (cost next c s₀ rs (Trellis.trace ds s) : WithTop ℕ) = m s := by
  induction h with
  | start h0 h =>
    intro s hs
    have : s = s₀ := by
      by_contra hne
      exact hs (h s hne)
    rw [this, h0]
    exact ⟨rfl, rfl, rfl⟩
  | @step r rs m m' d ds _ hsel ih =>
    intro s hs
    obtain ⟨hnext, hm⟩ := hsel.attained s hs
    have hfin : m (d s).1 ≠ ⊤ := by
      intro htop
      rw [htop, top_add] at hm
      exact hs hm
    obtain ⟨hlen, hend, hcost⟩ := ih (d s).1 hfin
    rw [Trellis.trace, endState, cost, hend]
    exact ⟨congrArg (· + 1) hlen, hnext, by rw [hm, ← hcost, Nat.cast_add]⟩

/-- The states that survive are those that a path leads to. -/
theorem Survives.reached_iff (h : Survives next c s₀ rs m ds) (s : σ) :
    m s ≠ ⊤ ↔ ∃ xs : List ι, xs.length = rs.length ∧ endState next s₀ xs = s := by
  constructor
  · intro hs
    obtain ⟨hlen, hend, -⟩ := h.trace s hs
    exact ⟨_, hlen, hend⟩
  · rintro ⟨xs, hlen, rfl⟩ htop
    have hle := h.le_cost xs hlen
    rw [htop] at hle
    exact WithTop.coe_ne_top (top_le_iff.1 hle)

/-- **The best state traces to a path of least cost**, and the cost is what survives. -/
theorem Survives.isLeast (h : Survives next c s₀ rs m ds) (hs : ∀ s', m s ≤ m s') (hfin : m s ≠ ⊤) :
    (cost next c s₀ rs (Trellis.trace ds s) : WithTop ℕ) = m s ∧
      ∀ ys : List ι, ys.length = rs.length → cost next c s₀ rs (Trellis.trace ds s) ≤ cost next c s₀ rs ys := by
  obtain ⟨-, -, hcost⟩ := h.trace s hfin
  refine ⟨hcost, fun ys hy => WithTop.coe_le_coe.1 ?_⟩
  calc (cost next c s₀ rs (Trellis.trace ds s) : WithTop ℕ) = m s := hcost
    _ ≤ m (endState next s₀ ys) := hs _
    _ ≤ cost next c s₀ rs ys := h.le_cost ys hy

/-- **The best state traces to the best path**, if that is cheaper than all others. -/
theorem Survives.trace_eq (h : Survives next c s₀ rs m ds) (hl : xs.length = rs.length)
    (hbest : ∀ ys : List ι, ys.length = rs.length → ys ≠ xs → cost next c s₀ rs xs < cost next c s₀ rs ys)
    (hs : ∀ s', m s ≤ m s') : Trellis.trace ds s = xs := by
  have hle : m s ≤ cost next c s₀ rs xs := le_trans (hs _) (h.le_cost xs hl)
  have hfin : m s ≠ ⊤ := fun htop => WithTop.coe_ne_top (top_le_iff.1 (htop ▸ hle))
  obtain ⟨hlen, -, hcost⟩ := h.trace s hfin
  by_contra hne
  have hlt := hbest _ hlen hne
  rw [← hcost] at hle
  exact absurd (WithTop.coe_le_coe.1 hle) (not_le.2 hlt)

/-- Each step of the path costs no more than `g` of what was received there. -/
def Attains (next : σ → ι → σ) (c : γ → σ → ι → ℕ) (s₀ : σ) (g : γ → ℕ) : List γ → List ι → Prop
  | r :: rs, x :: xs => Attains next c s₀ g rs xs ∧ c r (endState next s₀ xs) x = g r
  | _, _ => True

/-- **A path of least steps is cheaper than all others**, where two inputs of a state are
never both least. -/
theorem cost_lt_of_ne {g : γ → ℕ} : ∀ {rs : List γ} {xs ys : List ι}, Attains next c s₀ g rs xs →
    (∀ r ∈ rs, ∀ s x, g r ≤ c r s x) → (∀ r ∈ rs, ∀ s x y, c r s x = g r → c r s y = g r → x = y) →
    xs.length = rs.length → ys.length = rs.length → ys ≠ xs → cost next c s₀ rs xs < cost next c s₀ rs ys := by
  intro rs
  induction rs with
  | nil =>
    intro xs ys _ _ _ hx hy hne
    exact absurd ((List.length_eq_zero_iff.1 hy).trans (List.length_eq_zero_iff.1 hx).symm) hne
  | cons r rs ih =>
    intro xs ys hatt hleast huniq hx hy hne
    rcases xs with _ | ⟨x, xs⟩
    · exact absurd hx (by simp)
    rcases ys with _ | ⟨y, ys⟩
    · exact absurd hy (by simp)
    have hleast' := hleast r (by simp)
    have huniq' := huniq r (by simp)
    rw [cost, cost, hatt.2]
    by_cases h : ys = xs
    · -- the paths part at the last step
      have hxy : y ≠ x := fun e => hne (by rw [e, h])
      have hlt : g r < c r (endState next s₀ xs) y := lt_of_le_of_ne (hleast' _ _) fun e =>
        hxy (huniq' _ _ _ e.symm hatt.2)
      rw [h]
      omega
    · have hlt := ih hatt.1 (fun r' hr' => hleast r' (by simp [hr'])) (fun r' hr' => huniq r' (by simp [hr']))
        (by simpa using hx) (by simpa using hy) h
      have := hleast' (endState next s₀ ys) y
      omega

end Trellis
