import InmarsatSniffer.Spec.Channelizer

/-!
# Decimation plans

`plan_decimation` divides the largest divisor up to 16 off, step by step (`peel`). Without
such a divisor it takes 2 for one, and after four steps it stops: the product of the plan
is the decimation if neither happens (`Fits`), and less otherwise.

* `plan_prod_iff`: **when a plan has the product it is made for**.
-/

namespace InmarsatSniffer.Ddc

variable {n k : ℕ}

/-- What is left of a decimation when its largest divisor up to 16 is divided off. -/
def peel (n : ℕ) : ℕ := n / Nat.findGreatest (fun d => d ∣ n) 16

/-- **No prime factor above 13, and at most 16 left behind three steps.** -/
def Fits (n : ℕ) : Prop := (∀ p, p.Prime → p ∣ n → p ≤ 13) ∧ peel (peel (peel n)) ≤ 16

theorem findGreatest_self (hpos : 0 < n) (h : n ≤ 16) : Nat.findGreatest (fun d => d ∣ n) 16 = n := by
  apply le_antisymm
  · exact Nat.le_of_dvd hpos (Nat.findGreatest_spec (P := fun d => d ∣ n) (m := 1) (by omega) (one_dvd n))
  · exact Nat.le_findGreatest h dvd_rfl

theorem findGreatest_dvd (n : ℕ) : Nat.findGreatest (fun d => d ∣ n) 16 ∣ n :=
  Nat.findGreatest_spec (P := fun d => d ∣ n) (m := 1) (by omega) (one_dvd n)

theorem findGreatest_pos (n : ℕ) : 0 < Nat.findGreatest (fun d => d ∣ n) 16 :=
  Nat.le_findGreatest (by omega) (one_dvd n)

theorem peel_pos (h : 0 < n) : 0 < peel n :=
  Nat.div_pos (Nat.le_of_dvd h (findGreatest_dvd n)) (findGreatest_pos n)

/-- One step is the last exactly from 16 down. -/
theorem peel_eq_one (h : 0 < n) : peel n = 1 ↔ n ≤ 16 := by
  unfold peel
  constructor
  · intro h1
    have heq := Nat.div_mul_cancel (findGreatest_dvd n)
    rw [h1, one_mul] at heq
    rw [← heq]
    exact Nat.findGreatest_le 16
  · intro hle
    rw [findGreatest_self h hle, Nat.div_self h]

/-- The divisor that a step divides off, if there is one. -/
theorem bestDivisor_eq (h : 2 ≤ Nat.findGreatest (fun d => d ∣ n) 16) :
    bestDivisor n 16 = Nat.findGreatest (fun d => d ∣ n) 16 := by
  have hmem : ∀ d, d ∈ (List.range' 2 (16 - 1)).reverse ↔ 2 ≤ d ∧ d ≤ 16 := fun d => by
    rw [List.mem_reverse, List.mem_range'_1]
    omega
  have hsorted : ((List.range' 2 (16 - 1)).reverse).Pairwise fun a b => b < a := by decide
  unfold bestDivisor
  cases hf : (List.range' 2 (16 - 1)).reverse.find? fun d => n % d = 0 with
  | none =>
    have hnone := List.find?_eq_none.1 hf (Nat.findGreatest (fun d => d ∣ n) 16)
      ((hmem _).2 ⟨h, Nat.findGreatest_le 16⟩)
    exact absurd (decide_eq_true (Nat.mod_eq_zero_of_dvd (findGreatest_dvd n))) hnone
  | some d =>
    obtain ⟨hd, pre, post, hsplit, hpre⟩ := List.find?_eq_some_iff_append.1 hf
    have hdvd : d ∣ n := Nat.dvd_of_mod_eq_zero (by simpa using hd)
    have hrange : 2 ≤ d ∧ d ≤ 16 := (hmem d).1 (by rw [hsplit]; simp)
    rw [Option.getD_some]
    apply le_antisymm
    · exact Nat.le_findGreatest hrange.2 hdvd
    · -- a greater divisor would stand before `d`
      by_contra hlt
      rw [not_le] at hlt
      have hg : Nat.findGreatest (fun d => d ∣ n) 16 ∈ (List.range' 2 (16 - 1)).reverse :=
        (hmem _).2 ⟨h, Nat.findGreatest_le 16⟩
      rw [hsplit] at hg hsorted
      rcases List.mem_append.1 hg with hg | hg
      · have := hpre _ hg
        rw [decide_eq_true (Nat.mod_eq_zero_of_dvd (findGreatest_dvd n))] at this
        exact absurd this (by decide)
      · rcases List.mem_cons.1 hg with hg | hg
        · omega
        · have := (List.pairwise_cons.1 (List.pairwise_append.1 hsorted).2.1).1 _ hg
          omega

/-- Without a divisor the step takes 2. -/
theorem bestDivisor_none (h : Nat.findGreatest (fun d => d ∣ n) 16 < 2) : bestDivisor n 16 = 2 := by
  unfold bestDivisor
  rw [List.find?_eq_none.2 fun d hd => ?_]
  · rfl
  · rw [List.mem_reverse, List.mem_range'_1] at hd
    rw [decide_eq_true_eq]
    intro h0
    have := Nat.le_findGreatest (P := fun d => d ∣ n) (n := 16) (m := d) (by omega) (Nat.dvd_of_mod_eq_zero h0)
    omega

/-- The prime factors that a step divides off are at most 13. -/
theorem smooth_peel (n : ℕ) : (∀ p, p.Prime → p ∣ n → p ≤ 13) ↔ ∀ p, p.Prime → p ∣ peel n → p ≤ 13 := by
  have heq : peel n * Nat.findGreatest (fun d => d ∣ n) 16 = n := Nat.div_mul_cancel (findGreatest_dvd n)
  constructor
  · intro h p hp hdvd
    exact h p hp (heq ▸ Dvd.dvd.mul_right hdvd _)
  · intro h p hp hdvd
    rw [← heq] at hdvd
    rcases (Nat.Prime.dvd_mul hp).1 hdvd with hdvd | hdvd
    · exact h p hp hdvd
    · have hle : p ≤ 16 := (Nat.le_of_dvd (findGreatest_pos n) hdvd).trans (Nat.findGreatest_le 16)
      by_contra hlt
      have h14 : ¬Nat.Prime 14 := by norm_num
      have h15 : ¬Nat.Prime 15 := by norm_num
      have h16 : ¬Nat.Prime 16 := by norm_num
      rcases (show p = 14 ∨ p = 15 ∨ p = 16 by omega) with rfl | rfl | rfl
      · exact h14 hp
      · exact h15 hp
      · exact h16 hp

/-- **The steps of a plan**: its product is right if each finds a divisor and none is left over. -/
theorem planLoop_prod_iff (k : ℕ) : ∀ n, 0 < n →
    ((planLoop 16 k n).1.prod = n ↔ (∀ p, p.Prime → p ∣ n → p ≤ 13) ∧ peel^[k] n = 1) := by
  induction k with
  | zero =>
    intro n hn
    rw [planLoop, List.prod_nil, Function.iterate_zero, id_eq]
    constructor
    · rintro rfl
      exact ⟨fun p hp hdvd => absurd (Nat.dvd_one.1 hdvd) hp.one_lt.ne', rfl⟩
    · exact fun h => h.2.symm
  | succ k ih =>
    intro n hn
    rw [Function.iterate_succ_apply, planLoop]
    have hexact : ∀ d, d = Nat.findGreatest (fun d => d ∣ n) 16 → (d * (planLoop 16 k (n / d)).1.prod = n ↔
        (∀ p, p.Prime → p ∣ n → p ≤ 13) ∧ peel^[k] (peel n) = 1) := by
      rintro d rfl
      have hpeel := ih (peel n) (peel_pos hn)
      rw [← smooth_peel] at hpeel
      rw [← hpeel]
      have heq : Nat.findGreatest (fun d => d ∣ n) 16 * peel n = n := Nat.mul_div_cancel' (findGreatest_dvd n)
      constructor
      · intro h
        exact Nat.eq_of_mul_eq_mul_left (findGreatest_pos n) (h.trans heq.symm)
      · intro h
        exact (congrArg _ h).trans heq
    split
    · next h1 =>
      have hone : n = 1 := by omega
      subst hone
      have hpeel : peel 1 = 1 := (peel_eq_one (by omega)).2 (by omega)
      refine iff_of_true rfl ⟨fun p hp hdvd => absurd (Nat.dvd_one.1 hdvd) hp.one_lt.ne', ?_⟩
      rw [← Function.iterate_succ_apply, Function.iterate_fixed hpeel]
    · dsimp only
      rw [List.prod_cons]
      split
      · next h16 => exact hexact n (findGreatest_self hn h16).symm
      · next h16 =>
        rcases lt_or_ge (Nat.findGreatest (fun d => d ∣ n) 16) 2 with h2 | h2
        · -- no divisor: the product gets too small, and the least prime factor is above 16
          have hnodvd : ∀ d, 2 ≤ d → d ≤ 16 → ¬d ∣ n := fun d h2' hle hdvd => by
            have := Nat.le_findGreatest (P := fun d => d ∣ n) hle hdvd
            omega
          rw [bestDivisor_none h2]
          refine iff_of_false (fun heq => ?_) fun h => ?_
          · exact hnodvd 2 le_rfl (by omega) ⟨_, heq.symm⟩
          · have hle := h.1 n.minFac (Nat.minFac_prime (by omega)) (Nat.minFac_dvd n)
            exact hnodvd n.minFac (Nat.minFac_prime (by omega)).two_le (by omega) (Nat.minFac_dvd n)
        · exact hexact _ (bestDivisor_eq h2)

/-- The loop of the plan ends with nothing left or without room. -/
theorem planLoop_length (m k : ℕ) : ∀ n, 1 < (planLoop m k n).2 → (planLoop m k n).1.length = k := by
  induction k with
  | zero => exact fun n h => rfl
  | succ k ih =>
    intro n
    rw [planLoop]
    split
    · exact fun h => absurd h (by omega)
    · exact fun h => congrArg (· + 1) (ih _ h)

/-- The lines behind the loop of `plan_decimation` have nothing to do. -/
theorem planDecimation_eq (m k n : ℕ) : planDecimation n m k = (planLoop m k n).1 := by
  unfold planDecimation
  dsimp only
  rw [if_neg]
  rintro ⟨h1, h2⟩
  have := planLoop_length m k n h1
  omega

/-- **When a plan has the product it is made for.** -/
theorem plan_prod_iff (h : 0 < n) : (planDecimation n 16 maxStages).prod = n ↔ Fits n := by
  rw [planDecimation_eq, planLoop_prod_iff maxStages n h]
  have h3 : 0 < peel (peel (peel n)) := peel_pos (peel_pos (peel_pos h))
  exact and_congr_right fun _ => peel_eq_one h3

end InmarsatSniffer.Ddc
