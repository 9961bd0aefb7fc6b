import Mathlib.Tactic
import Mathlib.Data.List.GetD

/-!
# Shift registers with feedback

A register of `w` bits that is shifted towards its low end; where the bit that leaves differs from the input bit,
the polynomial `p` is added. It is linear (`run_xor`), its own bits clear it (`run_own`), and with the top bit of
`p` set it forgets nothing (`run_zeros`). So it is never zero behind a burst of at most `w` bits (`run_burst`).
-/

namespace Lfsr

variable {w : ℕ} {p c : BitVec w} {bits bits' : List Bool}

/-- One input bit. -/
def step (p c : BitVec w) (bit : Bool) : BitVec w := if xor (c.getLsbD 0) bit then (c >>> 1) ^^^ p else c >>> 1

/-- The input bits in order. -/
def run (p c : BitVec w) (bits : List Bool) : BitVec w := bits.foldl (step p) c

/-- The bits of a register, the low one first. -/
def own (c : BitVec w) : List Bool := (List.range w).map fun i => c.getLsbD i

theorem run_append (p c : BitVec w) (bits bits' : List Bool) : run p c (bits ++ bits') = run p (run p c bits) bits' :=
  List.foldl_append

/-- **The register is linear.** -/
theorem step_xor (p c c' : BitVec w) (bit bit' : Bool) :
    step p (c ^^^ c') (xor bit bit') = step p c bit ^^^ step p c' bit' := by
  have hcancel : ∀ a b : BitVec w, a ^^^ b = a ^^^ p ^^^ (b ^^^ p) := fun a b => by
    rw [BitVec.xor_assoc a p, BitVec.xor_comm p, BitVec.xor_assoc b p p, BitVec.xor_self, BitVec.xor_zero]
  have hmove : ∀ a b : BitVec w, a ^^^ b ^^^ p = a ^^^ (b ^^^ p) := fun a b => BitVec.xor_assoc a b p
  have hmove' : ∀ a b : BitVec w, a ^^^ b ^^^ p = a ^^^ p ^^^ b := fun a b => by
    rw [BitVec.xor_assoc, BitVec.xor_comm b, ← BitVec.xor_assoc]
  unfold step
  rw [BitVec.getLsbD_xor, BitVec.ushiftRight_xor_distrib]
  cases c.getLsbD 0 <;> cases c'.getLsbD 0 <;> cases bit <;> cases bit' <;> simp [← hcancel, ← hmove, ← hmove']

theorem run_xor (p : BitVec w) (h : bits.length = bits'.length) (c c' : BitVec w) :
    run p (c ^^^ c') (List.zipWith xor bits bits') = run p c bits ^^^ run p c' bits' := by
  induction bits generalizing bits' c c' with
  | nil =>
    rw [List.eq_nil_of_length_eq_zero h.symm]
    rfl
  | cons bit bits ih =>
    cases bits' with
    | nil => cases h
    | cons bit' bits' =>
      have hstep := step_xor p c c' bit bit'
      unfold run at ih ⊢
      rw [List.zipWith_cons_cons, List.foldl_cons, List.foldl_cons, List.foldl_cons, hstep]
      exact ih (by simpa using h) _ _

theorem step_zero_false (p : BitVec w) : step p 0#w false = 0#w := by
  unfold step
  simp

theorem run_zero (p : BitVec w) (k : ℕ) : run p 0#w (List.replicate k false) = 0#w := by
  induction k with
  | zero => rfl
  | succ k ih =>
    unfold run at ih ⊢
    rw [List.replicate_succ, List.foldl_cons, step_zero_false, ih]

/-- A step without input only clears a register that is clear. -/
theorem step_eq_zero (hp : p.getLsbD (w - 1) = true) (h : step p c false = 0#w) : c = 0#w := by
  have hw : 0 < w := by
    by_contra h0
    rw [BitVec.getLsbD_of_ge _ _ (by omega)] at hp
    cases hp
  unfold step at h
  rw [Bool.xor_false] at h
  split at h
  · -- the top bit comes from the polynomial
    have htop := congrArg (BitVec.getLsbD · (w - 1)) h
    rw [BitVec.getLsbD_xor, BitVec.getLsbD_ushiftRight, BitVec.getLsbD_of_ge _ _ (by omega), hp, BitVec.getLsbD_zero] at htop
    cases htop
  · next hlow =>
    apply BitVec.eq_of_getLsbD_eq
    intro i hi
    rw [BitVec.getLsbD_zero]
    cases i with
    | zero => exact Bool.eq_false_iff.2 hlow
    | succ i =>
      have hbit := congrArg (BitVec.getLsbD · i) h
      rwa [BitVec.getLsbD_ushiftRight, BitVec.getLsbD_zero, Nat.add_comm] at hbit

/-- **Nothing is forgotten.** -/
theorem run_zeros (hp : p.getLsbD (w - 1) = true) (k : ℕ) (h : run p c (List.replicate k false) = 0#w) : c = 0#w := by
  induction k generalizing c with
  | zero => exact h
  | succ k ih =>
    unfold run at ih h
    rw [List.replicate_succ, List.foldl_cons] at h
    exact step_eq_zero hp (ih h)

/-- **A register is cleared by its own bits.** -/
theorem run_own (p c : BitVec w) : run p c (own c) = 0#w := by
  have hshift : ∀ k ≤ w, run p c ((List.range k).map fun i => c.getLsbD i) = c >>> k := by
    intro k
    induction k with
    | zero => exact fun _ => (BitVec.ushiftRight_zero c).symm
    | succ k ih =>
      intro hk
      have hbefore := ih (by omega)
      rw [List.range_succ, List.map_append, run_append, hbefore]
      show step p (c >>> k) (c.getLsbD k) = _
      unfold step
      rw [BitVec.getLsbD_ushiftRight, Nat.add_zero, Bool.xor_self, if_neg Bool.false_ne_true, ← BitVec.shiftRight_add]
  unfold own
  rw [hshift w le_rfl]
  apply BitVec.eq_of_getLsbD_eq
  intro i hi
  rw [BitVec.getLsbD_ushiftRight, BitVec.getLsbD_of_ge _ _ (by omega), BitVec.getLsbD_zero]

theorem own_length (c : BitVec w) : (own c).length = w := by
  unfold own
  rw [List.length_map, List.length_range]

theorem own_getElem {i : ℕ} (h : i < (own c).length) : (own c)[i] = c.getLsbD i := by
  simp [own]

theorem own_injective : Function.Injective (@own w) := by
  intro c c' h
  apply BitVec.eq_of_getLsbD_eq
  intro i hi
  rw [← own_getElem (by rwa [own_length]), ← own_getElem (by rwa [own_length]), List.getElem_of_eq h]

/-- Any `w` bits are those of a register. -/
theorem exists_own (h : bits.length = w) : ∃ c : BitVec w, own c = bits := by
  subst h
  refine ⟨BitVec.ofBoolListLE bits, ?_⟩
  apply List.ext_getElem
  · rw [own_length]
  · intro i h1 h2
    rw [own_getElem, BitVec.getLsbD_ofBoolListLE, List.getD_eq_getElem _ _ h2]

theorem zipWith_xor_zeros (bits : List Bool) : List.zipWith xor bits (List.replicate bits.length false) = bits := by
  apply List.ext_getElem
  · rw [List.length_zipWith, List.length_replicate, Nat.min_self]
  · intro i h1 h2
    rw [List.getElem_zipWith, List.getElem_replicate, Bool.xor_false]

/-- The bits of a register as the input of another one. -/
theorem run_own_of (p c d : BitVec w) : run p c (own d) = run p (c ^^^ d) (List.replicate w false) := by
  have hlin := run_xor p (show (own d).length = (List.replicate w false).length by rw [own_length, List.length_replicate]) d
    (c ^^^ d)
  have hzip := zipWith_xor_zeros (own d)
  rw [own_length] at hzip
  rwa [hzip, run_own, BitVec.zero_xor, BitVec.xor_comm c d, ← BitVec.xor_assoc, BitVec.xor_self, BitVec.zero_xor,
    BitVec.xor_comm d c] at hlin

/-! ## Checks -/

/-- The register behind a message and the inverse of what it leaves. -/
def residue (p : BitVec w) : BitVec w := run p (BitVec.allOnes w) (List.replicate w false)

/-- **The residue shows the inverted register**, and nothing else. -/
theorem run_eq_residue_iff (hp : p.getLsbD (w - 1) = true) (h : bits.length = w) :
    run p c bits = residue p ↔ bits = own (~~~c) := by
  obtain ⟨d, rfl⟩ := exists_own h
  have hlin := run_xor p (rfl : (List.replicate w false).length = (List.replicate w false).length) (c ^^^ d) (BitVec.allOnes w)
  have hzip := zipWith_xor_zeros (List.replicate w false)
  rw [List.length_replicate] at hzip
  rw [hzip] at hlin
  rw [run_own_of]
  unfold residue
  constructor
  · intro heq
    rw [heq, BitVec.xor_self] at hlin
    have hd := run_zeros hp w hlin
    rw [← BitVec.xor_allOnes]
    have hdc : d = c ^^^ BitVec.allOnes w := by
      have hsum := congrArg (c ^^^ · ^^^ BitVec.allOnes w) hd
      rwa [← BitVec.xor_assoc, ← BitVec.xor_assoc, BitVec.xor_self, BitVec.zero_xor, BitVec.xor_assoc, BitVec.xor_self,
        BitVec.xor_zero, BitVec.xor_zero] at hsum
    rw [hdc]
  · intro heq
    obtain rfl : d = ~~~c := own_injective heq
    rw [← BitVec.xor_allOnes, ← BitVec.xor_assoc, BitVec.xor_self, BitVec.zero_xor]

/-- **A burst of at most `w` bits** leaves a register that is not zero. -/
theorem run_burst (hp : p.getLsbD (w - 1) = true) (hlen : bits.length ≤ w) (hone : true ∈ bits) (before behind : ℕ) :
    run p 0#w (List.replicate before false ++ bits ++ List.replicate behind false) ≠ 0#w := by
  intro hzero
  rw [run_append, run_append, run_zero] at hzero
  have hburst := run_zeros hp behind hzero
  -- the burst, filled up to a whole register
  obtain ⟨d, hd⟩ := exists_own (show (bits ++ List.replicate (w - bits.length) false).length = w by
    rw [List.length_append, List.length_replicate]
    omega)
  have hfull : run p 0#w (own d) = 0#w := by rw [hd, run_append, hburst, run_zero]
  rw [run_own_of, BitVec.zero_xor] at hfull
  have hd0 := run_zeros hp w hfull
  have hmem : true ∈ own d := by
    rw [hd]
    exact List.mem_append_left _ hone
  unfold own at hmem
  rw [hd0] at hmem
  simp at hmem

end Lfsr
