import Mathlib
import InmarsatSniffer.Spec.Simd

/-!
# The kernels and their generic versions

Each version does the turns of the generic one in blocks, with a scalar tail. A block loads
only what its turns load, and stores the values that they store: float by float
(`fir`, `windowed`, `converted`), or two pieces of the shifted magnitudes.

* `firBlock_refines`, `firDecTurn_refines`, `windowBlock_refines`, `fftshiftBlock_refines`,
  `convertBlock_refines`: one block.
* `simd_refines`: **every version refines the generic one**, for every length, tap count and
  decimation.
-/

namespace InmarsatSniffer.Simd

open Kernel
open Lanes

variable {R : Type} [Field R] {taps input samples window fftOut : ℤ → R} {iq : ℤ → Int8} {ntaps n half : ℤ}
  {i last : ℕ}

/-! ## FIR filters -/

/-- The first `count` taps at float `j` of an array with `stride` floats to an element. -/
def fir (stride : ℕ) (taps : ℤ → R) (count : ℕ) (input : ℤ → R) (j : ℤ) : R :=
  ∑ k ∈ Finset.range count, taps k * input (j + (k * stride : ℕ))

theorem fir_succ (stride : ℕ) (taps : ℤ → R) (count : ℕ) (input : ℤ → R) (j : ℤ) :
    fir stride taps (count + 1) input j = fir stride taps count input j + taps count * input (j + (count * stride : ℕ)) :=
  Finset.sum_range_succ _ _

/-- What a turn of the generic complex filters does. -/
theorem firCcfTurn_log (p : ℤ) (i : ℕ) : (firCcfTurn taps ntaps input p i).log =
    ((List.range ntaps.toNat).flatMap fun k =>
      [.read .taps k, .read .input (2 * (p + k)), .read .input (2 * (p + k) + 1)]) ++
    [.write (2 * i) (fir 2 taps ntaps.toNat input (2 * p)), .write (2 * i + 1) (fir 2 taps ntaps.toNat input (2 * p + 1))] := by
  unfold firCcfTurn
  rw [Logged.log_bind, forLoop_all (fun k => scale (taps k) (input (2 * (p + k)), input (2 * (p + k) + 1)))
    (fun k => [.read Arr.taps k, .read .input (2 * (p + k)), .read .input (2 * (p + k) + 1)])]
  · have hre : ∀ k : ℕ, (2 : ℤ) * p + (k * 2 : ℕ) = 2 * (p + k) := fun k => by push_cast; ring
    have him : ∀ k : ℕ, (2 : ℤ) * p + 1 + (k * 2 : ℕ) = 2 * (p + k) + 1 := fun k => by push_cast; ring
    simp only [zero_add, storeC, Logged.log_bind, store, List.singleton_append, Prod.fst_sum, Prod.snd_sum, scale, fir,
      hre, him]
  · exact fun k acc => rfl
  · exact fun k acc => rfl

/-- What a scalar tail of the complex filters does. -/
theorem firCcfTail_log (i : ℕ) : (firCcfTail taps ntaps input i).log =
    ((List.range ntaps.toNat).flatMap fun k => [.read .taps k, .read .input ((i + k) * 2), .read .taps k,
      .read .input ((i + k) * 2 + 1)]) ++
    [.write (i * 2) (fir 2 taps ntaps.toNat input (2 * i)), .write (i * 2 + 1) (fir 2 taps ntaps.toNat input (2 * i + 1))] := by
  unfold firCcfTail
  rw [Logged.log_bind, forLoop_all (fun k => (taps k * input ((i + k) * 2), taps k * input ((i + k) * 2 + 1)))
    (fun k => [.read Arr.taps k, .read .input ((i + k) * 2), .read .taps k, .read .input ((i + k) * 2 + 1)])]
  · have hre : ∀ k : ℕ, 2 * (i : ℤ) + (k * 2 : ℕ) = (i + k) * 2 := fun k => by push_cast; ring
    have him : ∀ k : ℕ, 2 * (i : ℤ) + 1 + (k * 2 : ℕ) = (i + k) * 2 + 1 := fun k => by push_cast; ring
    simp only [store, Logged.log_bind, List.singleton_append, zero_add, Prod.fst_sum, Prod.snd_sum,
      fir, hre, him]
  · exact fun k acc => rfl
  · exact fun k acc => rfl

/-- What a turn of the real filter does. -/
theorem firFffTurn_log (i : ℕ) : (firFffTurn taps ntaps input i).log =
    ((List.range ntaps.toNat).flatMap fun k => [.read .taps k, .read .input (i + k)]) ++
      [.write i (fir 1 taps ntaps.toNat input i)] := by
  unfold firFffTurn
  rw [Logged.log_bind, forLoop_all (fun k => taps k * input (i + k))
    (fun k => [.read Arr.taps k, .read .input (i + k)])]
  · simp [store, fir]
  · exact fun k acc => rfl
  · exact fun k acc => rfl

/-- What a block of a filter does. -/
theorem firBlock_log {stride w : ℕ} {mulAdd : (Fin w → R) → (Fin w → R) → (Fin w → R) → Fin w → R}
    (hmul : ∀ acc c d, mulAdd acc c d = fun l => acc l + c l * d l) (i : ℕ) :
    (firBlock stride w mulAdd taps ntaps input i).log = ((List.range ntaps.toNat).flatMap fun k =>
        .read .taps k :: (List.range w).map fun l : ℕ => .read .input (((i + k) * stride : ℕ) + l)) ++
      (storeLanes (i * stride : ℕ) fun l : Fin w => fir stride taps ntaps.toNat input ((i * stride : ℕ) + (l : ℕ))).log := by
  unfold firBlock
  rw [Logged.log_bind, forLoop_all (fun k (l : Fin w) => taps k * input (((i + k) * stride : ℕ) + (l : ℕ)))
    (fun k => .read Arr.taps k :: (List.range w).map fun l : ℕ => .read .input (((i + k) * stride : ℕ) + l))]
  · have hidx : ∀ (k : ℕ) (l : Fin w), ((i * stride : ℕ) : ℤ) + (l : ℕ) + (k * stride : ℕ) = ((i + k) * stride : ℕ) + (l : ℕ) :=
      fun k l => by push_cast; ring
    simp only [storeLanes, fir, hidx]
    congr 1
    refine List.map_congr_left fun l _ => ?_
    simp [set1]
  · intro k acc
    rw [Logged.val_bind, Logged.val_bind, Logged.val_pure, hmul]
    rfl
  · intro k acc
    simp [load, loadLanes]

/-- What the turns of a filter write, and what they read at least. -/
structure IsFirTurn (stride : ℕ) (taps : ℤ → R) (ntaps : ℤ) (input : ℤ → R) (turn : ℕ → Run R Unit) : Prop where
  writes : ∀ i, writesOf (turn i).log = run (fir stride taps ntaps.toNat input) (stride * i : ℕ) stride
  readsTaps : ∀ i k : ℕ, k < ntaps.toNat → .read .taps k ∈ (turn i).log
  readsInput : ∀ i k m : ℕ, k < ntaps.toNat → m < stride → .read .input (((i + k) * stride : ℕ) + m) ∈ (turn i).log

theorem firCcfTurn_isFirTurn : IsFirTurn 2 taps ntaps input fun i => firCcfTurn taps ntaps input i i where
  writes i := by
    rw [firCcfTurn_log, ReadsOnly.writesOf_append]
    · simp [writesOf, run, List.range_succ]
    · exact .flatMap fun k => by simp [ReadsOnly]
  readsTaps i k hk := by
    rw [firCcfTurn_log]
    exact List.mem_append_left _ (List.mem_flatMap.2 ⟨k, List.mem_range.2 hk, by simp⟩)
  readsInput i k m hk hm := by
    rw [firCcfTurn_log]
    refine List.mem_append_left _ (List.mem_flatMap.2 ⟨k, List.mem_range.2 hk, ?_⟩)
    have hm' : m = 0 ∨ m = 1 := by omega
    rcases hm' with rfl | rfl <;> simp [mul_comm]

theorem firFffTurn_isFirTurn : IsFirTurn 1 taps ntaps input (firFffTurn taps ntaps input) where
  writes i := by
    rw [firFffTurn_log, ReadsOnly.writesOf_append]
    · simp [writesOf, run]
    · exact .flatMap fun k => by simp [ReadsOnly]
  readsTaps i k hk := by
    rw [firFffTurn_log]
    exact List.mem_append_left _ (List.mem_flatMap.2 ⟨k, List.mem_range.2 hk, by simp⟩)
  readsInput i k m hk hm := by
    rw [firFffTurn_log]
    refine List.mem_append_left _ (List.mem_flatMap.2 ⟨k, List.mem_range.2 hk, ?_⟩)
    obtain rfl : m = 0 := by omega
    simp

/-- **A block of a filter does its turns.** -/
theorem firBlock_refines {stride w : ℕ} {mulAdd : (Fin w → R) → (Fin w → R) → (Fin w → R) → Fin w → R}
    {turn : ℕ → Run R Unit} (hturn : IsFirTurn stride taps ntaps input turn) (hw : w = stride * (last + 1))
    (hmul : ∀ acc c d, mulAdd acc c d = fun l => acc l + c l * d l) (i : ℕ) :
    Refines (firBlock stride w mulAdd taps ntaps input i).log
      ((List.range (last + 1)).flatMap fun l => (turn (i + l)).log) := by
  refine block_refines ?_ hturn.writes fun e hmem => ?_
  · rw [firBlock_log hmul, ReadsOnly.writesOf_append, Nat.mul_comm i, ← hw]
    · exact writesOf_storeLanes fun l => rfl
    · exact .flatMap fun k => by simp [ReadsOnly]
  · rw [firBlock_log hmul, List.mem_append] at hmem
    rcases hmem with hmem | hmem
    · obtain ⟨k, hk, hread⟩ := List.mem_flatMap.1 hmem
      have hk' := List.mem_range.1 hk
      rcases List.mem_cons.1 hread with rfl | hread
      · exact mem_turns (Nat.zero_le _) (hturn.readsTaps _ k hk')
      · obtain ⟨l, hl, rfl⟩ := List.mem_map.1 hread
        -- lane `l` belongs to element `l / stride` of the block
        have hl' : l < stride * (last + 1) := hw ▸ List.mem_range.1 hl
        have hpos : 0 < stride := Nat.pos_of_mul_pos_right (Nat.zero_lt_of_lt hl')
        refine mem_turns (l := l / stride) (Nat.le_of_lt_succ (Nat.div_lt_of_lt_mul hl')) ?_
        have hidx : (((i + k) * stride : ℕ) : ℤ) + l = ((i + l / stride + k) * stride : ℕ) + (l % stride : ℕ) := by
          have hdiv := Nat.div_add_mod l stride
          have hsplit : (i + l / stride + k) * stride = (i + k) * stride + stride * (l / stride) := by ring
          omega
        rw [hidx]
        exact hturn.readsInput _ k _ hk' (Nat.mod_lt l hpos)
    · exact within_storeLanes e hmem

/-- The accesses of a turn of the generic complex filters that are reads. -/
def FirRead (ntaps p : ℤ) (e : Event Arr R) : Prop := ∃ k : ℕ, (k : ℤ) < ntaps ∧
  e ∈ [.read .taps k, .read .input (2 * (p + k)), .read .input (2 * (p + k) + 1)]

/-- A list of such reads, and the two floats of an output behind it. -/
theorem refines_firCcfTurn {p : ℤ} {es : List (Event Arr R)} (hes : ∀ e ∈ es, FirRead ntaps p e) :
    Refines (es ++ [.write (i * 2) (fir 2 taps ntaps.toNat input (2 * p)),
      .write (i * 2 + 1) (fir 2 taps ntaps.toNat input (2 * p + 1))]) (firCcfTurn taps ntaps input p i).log := by
  have hreads : ReadsOnly es := by
    intro e he
    obtain ⟨k, -, hmem⟩ := hes e he
    simp only [List.mem_cons, List.not_mem_nil, or_false] at hmem
    rcases hmem with rfl | rfl | rfl <;> exact ⟨_, _, rfl⟩
  rw [firCcfTurn_log]
  refine .of_eq ?_ fun a j hmem => ?_
  · rw [hreads.writesOf_append, ReadsOnly.writesOf_append (.flatMap fun k => by simp [ReadsOnly])]
    simp [writesOf, mul_comm]
  · rcases List.mem_append.1 hmem with hmem | hmem
    · obtain ⟨k, hk, hread⟩ := hes _ hmem
      exact List.mem_append_left _ (List.mem_flatMap.2 ⟨k, List.mem_range.2 (by omega), hread⟩)
    · exact absurd hmem (by simp)

/-- A scalar tail does a turn of the generic filter. -/
theorem firCcfTail_refines (i : ℕ) : Refines (firCcfTail taps ntaps input i).log (firCcfTurn taps ntaps input i i).log := by
  have hes : ∀ e ∈ (List.range ntaps.toNat).flatMap fun k : ℕ => [Event.read Arr.taps (k : ℤ), .read .input ((i + k) * 2),
      .read .taps k, .read .input ((i + k) * 2 + 1)], FirRead (R := R) ntaps i e := by
    intro e he
    obtain ⟨k, hk, hmem⟩ := List.mem_flatMap.1 he
    have hlt := List.mem_range.1 hk
    refine ⟨k, by omega, ?_⟩
    simp only [List.mem_cons, List.not_mem_nil, or_false, mul_comm (2 : ℤ)] at hmem ⊢
    tauto
  rw [firCcfTail_log]
  exact refines_firCcfTurn hes

/-! ## Decimating filters -/

omit [Field R] in
theorem firRead_taps {p k : ℤ} (hpos : 0 ≤ k) (h : k < ntaps) : FirRead (R := R) ntaps p (.read .taps k) := by
  lift k to ℕ using hpos
  exact ⟨k, h, List.mem_cons_self⟩

omit [Field R] in
/-- Two floats to a tap. -/
theorem firRead_input {p j : ℤ} (hpos : p * 2 ≤ j) (h : j < p * 2 + 2 * ntaps) :
    FirRead (R := R) ntaps p (.read .input j) := by
  obtain ⟨l, rfl⟩ : ∃ l : ℕ, j = p * 2 + l := ⟨(j - p * 2).toNat, by omega⟩
  refine ⟨l / 2, by omega, List.mem_cons_of_mem _ ?_⟩
  have hlane : l % 2 = 0 ∨ l % 2 = 1 := by omega
  rcases hlane with hlane | hlane
  · have hidx : p * 2 + l = 2 * (p + (l / 2 : ℕ)) := by omega
    rw [hidx]
    exact List.mem_cons_self
  · have hidx : p * 2 + l = 2 * (p + (l / 2 : ℕ)) + 1 := by omega
    rw [hidx]
    exact List.mem_cons_of_mem _ List.mem_cons_self

omit [Field R] in
theorem loadTaps_all {p k : ℤ} {w : ℕ} (hpos : 0 ≤ k) (h : k + w ≤ ntaps) :
    (loadLanes w .taps taps k : Run R _).All (FirRead ntaps p) := by
  intro e he
  obtain ⟨l, hl, rfl⟩ := List.mem_map.1 he
  have hlt := List.mem_range.1 hl
  exact firRead_taps (by omega) (by omega)

omit [Field R] in
theorem loadInput_all {p j : ℤ} {w : ℕ} (hpos : p * 2 ≤ j) (h : j + w ≤ p * 2 + 2 * ntaps) :
    (loadLanes w .input input j : Run R _).All (FirRead ntaps p) := by
  intro e he
  obtain ⟨l, hl, rfl⟩ := List.mem_map.1 he
  have hlt := List.mem_range.1 hl
  exact firRead_input (by omega) (by omega)

omit [Field R] in
theorem loadPairs_all {p j : ℤ} (hpos : p * 2 ≤ j) (h : j + 8 ≤ p * 2 + 2 * ntaps) :
    (vld2q .input input j : Run R _).All (FirRead ntaps p) :=
  @loadInput_all _ input _ _ _ 8 hpos h

theorem fir_add (stride : ℕ) (taps : ℤ → R) (count m : ℕ) (input : ℤ → R) (j : ℤ) :
    fir stride taps (count + m) input j = fir stride taps count input j +
      ∑ l ∈ Finset.range m, taps (count + l : ℕ) * input (j + ((count + l) * stride : ℕ)) :=
  Finset.sum_range_add _ _ _

/-- The real part and the imaginary part of the sum over the first `k` taps. -/
structure SumTo (taps : ℤ → R) (ntaps : ℤ) (input : ℤ → R) (p : ℤ) (k : ℕ) (acc : R × R) : Prop where
  le : k ≤ ntaps.toNat
  re : acc.1 = fir 2 taps k input (2 * p)
  im : acc.2 = fir 2 taps k input (2 * p + 1)

/-- `m` more taps. -/
theorem SumTo.add {p : ℤ} {k m : ℕ} {acc acc' : R × R} (h : SumTo taps ntaps input p k acc) (hm : (k + m : ℤ) ≤ ntaps)
    (hre : acc'.1 = acc.1 + ∑ l ∈ Finset.range m, taps (k + l : ℕ) * input (p * 2 + k * 2 + (2 * l : ℕ)))
    (him : acc'.2 = acc.2 + ∑ l ∈ Finset.range m, taps (k + l : ℕ) * input (p * 2 + k * 2 + (2 * l + 1 : ℕ))) :
    SumTo taps ntaps input p (k + m) acc' where
  le := by omega
  re := by
    rw [fir_add, hre, h.re]
    refine congrArg₂ (· + ·) rfl (Finset.sum_congr rfl fun l _ => ?_)
    congr 2
    push_cast
    ring
  im := by
    rw [fir_add, him, h.im]
    refine congrArg₂ (· + ·) rfl (Finset.sum_congr rfl fun l _ => ?_)
    congr 2
    push_cast
    ring

/-- What the scalar tail of a decimating filter makes of the sums up to tap `k`. -/
theorem firDecTail_refines {p : ℤ} {k : ℕ} {acc : R × R} {es : List (Event Arr R)} (hes : ∀ e ∈ es, FirRead ntaps p e)
    (hsum : SumTo taps ntaps input p k acc) :
    Refines (es ++ (firDecTail taps ntaps input (p * 2) i k acc).log) (firCcfTurn taps ntaps input p i).log := by
  unfold firDecTail
  refine forLoop_rule (Q := fun ds => Refines (es ++ ds) _) (SumTo taps ntaps input p) (P := FirRead ntaps p) hsum
    (fun k acc hk hs => ⟨?_, ?_⟩) fun k acc ds hk hs hds => ?_
  · refine hs.add (by omega) ?_ ?_
    · simp [load]
    · simp [load, add_assoc]
  · have htap : FirRead (R := R) ntaps p (.read .taps k) := firRead_taps (by omega) (by omega)
    have hre : FirRead (R := R) ntaps p (.read .input (p * 2 + k * 2)) := firRead_input (by omega) (by omega)
    have him : FirRead (R := R) ntaps p (.read .input (p * 2 + k * 2 + 1)) := firRead_input (by omega) (by omega)
    simp [load, Logged.All, hre, him, htap]
  · obtain rfl : k = ntaps.toNat := le_antisymm hs.le (by omega)
    have hfloats := @refines_firCcfTurn _ _ taps input _ i _ _ (List.forall_mem_append.2 ⟨hes, hds⟩)
    rw [← hs.re, ← hs.im] at hfloats
    simpa [store] using hfloats

/-- A turn of the AVX2 version: lanes `2 l` and `2 l + 1` add up every fourth tap. -/
theorem avx2FirDecTurn_refines (p : ℤ) (i : ℕ) :
    Refines (avx2FirDecTurn taps ntaps input (p * 2) i).log (firCcfTurn taps ntaps input p i).log := by
  unfold avx2FirDecTurn
  refine forLoop_rule (Q := fun ds => Refines ds _) (P := FirRead ntaps p)
    (fun k acc => SumTo taps ntaps input p k (acc 0 + acc 4 + (acc 2 + acc 6), acc 1 + acc 5 + (acc 3 + acc 7)))
    ⟨Nat.zero_le _, by simp [set1, fir], by simp [set1, fir]⟩ (fun k acc hk hs => ⟨?_, ?_⟩)
    fun k acc es hk hs hes => firDecTail_refines hes hs
  · refine hs.add (by push_cast; omega) ?_ ?_
    · simp [loadLanes, fmadd, setM128, unpacklo, unpackhi, Finset.sum_range_succ]
      ring
    · simp [loadLanes, fmadd, setM128, unpacklo, unpackhi, Finset.sum_range_succ]
      ring
  · simp only [Logged.all_bind, Logged.all_pure, and_true]
    exact ⟨loadInput_all (by omega) (by push_cast; omega), loadTaps_all (by omega) (by push_cast; omega)⟩

/-- A turn of the SSE4.2 version: lanes `2 l` and `2 l + 1` add up every second tap. -/
theorem sse42FirDecTurn_refines (p : ℤ) (i : ℕ) :
    Refines (sse42FirDecTurn taps ntaps input (p * 2) i).log (firCcfTurn taps ntaps input p i).log := by
  unfold sse42FirDecTurn
  refine forLoop_rule (Q := fun ds => Refines ds _) (P := FirRead ntaps p)
    (fun k acc => SumTo taps ntaps input p k (acc 0 + acc 2, acc 1 + acc 3))
    ⟨Nat.zero_le _, by simp [set1, fir], by simp [set1, fir]⟩ (fun k acc hk hs => ⟨?_, ?_⟩)
    fun k acc es hk hs hes => firDecTail_refines hes hs
  · refine hs.add (by push_cast; omega) ?_ ?_
    · simp [load, loadLanes, add, mul, mmSetPs, Finset.sum_range_succ]
      ring
    · simp [load, loadLanes, add, mul, mmSetPs, Finset.sum_range_succ]
      ring
  · have htap : FirRead (R := R) ntaps p (.read .taps k) := firRead_taps (by omega) (by omega)
    have htap' : FirRead (R := R) ntaps p (.read .taps (k + 1)) := firRead_taps (by omega) (by omega)
    simp only [Logged.all_bind, Logged.all_pure, and_true]
    refine ⟨loadInput_all (by omega) (by push_cast; omega), ?_⟩
    simp [load, Logged.All, htap, htap']

/-- What the registers of the NEON version add up to. -/
def neonSums (acc : NeonAcc R) : R × R :=
  (vaddvq (add acc.1 acc.2.2.1), vaddvq (add acc.2.1 acc.2.2.2))

/-- A turn of the NEON version: eight taps a turn, then four, and lane `l` adds up every fourth tap. -/
theorem neonFirDecTurn_refines (p : ℤ) (i : ℕ) :
    Refines (neonFirDecTurn taps ntaps input (p * 2) i).log (firCcfTurn taps ntaps input p i).log := by
  unfold neonFirDecTurn
  refine forLoop_rule (Q := fun ds => Refines ds _) (P := FirRead ntaps p)
    (fun k acc => SumTo taps ntaps input p k (neonSums acc))
    ⟨Nat.zero_le _, by simp [neonSums, vaddvq, add, set1, fir], by simp [neonSums, vaddvq, add, set1, fir]⟩
    (fun k acc hk hs => ⟨?_, ?_⟩) fun k acc es hk hs hes => ?_
  · refine hs.add (by push_cast; omega) ?_ ?_
    · simp [neonSums, loadLanes, vld2q, vfmaq, vaddvq, add, Finset.sum_range_succ]
      ring_nf
    · simp [neonSums, loadLanes, vld2q, vfmaq, vaddvq, add, Finset.sum_range_succ]
      ring_nf
  · simp only [Logged.all_bind, Logged.all_pure, and_true]
    exact ⟨loadPairs_all (by omega) (by omega), loadPairs_all (by omega) (by omega),
      loadTaps_all (by omega) (by push_cast; omega), loadTaps_all (by omega) (by push_cast; omega)⟩
  · -- the second loop adds to the first two registers only
    refine forLoop_rule (Q := fun ds => Refines (es ++ ds) _) (P := FirRead ntaps p)
      (fun k acc' => SumTo taps ntaps input p k (neonSums (acc'.1, acc'.2, acc.2.2.1, acc.2.2.2))) hs
      (fun k acc' hk hs => ⟨?_, ?_⟩) fun k acc' ds hk hs hds => ?_
    · refine hs.add (by push_cast; omega) ?_ ?_
      · simp [neonSums, loadLanes, vld2q, vfmaq, vaddvq, add, Finset.sum_range_succ]
        ring
      · simp [neonSums, loadLanes, vld2q, vfmaq, vaddvq, add, Finset.sum_range_succ]
        ring
    · simp only [Logged.all_bind, Logged.all_pure, and_true]
      exact ⟨loadPairs_all (by omega) (by omega), loadTaps_all (by omega) (by push_cast; omega)⟩
    · rw [← List.append_assoc]
      exact firDecTail_refines (List.forall_mem_append.2 ⟨hes, hds⟩) hs

/-! ## Windows -/

/-- Float `j` of the windowed samples. -/
def windowed (samples window : ℤ → R) (j : ℤ) : R := samples j * window (j / 2)

theorem windowCfTurn_log (i : ℕ) : (windowCfTurn samples window i).log =
    [.read .samples (2 * i), .read .samples (2 * i + 1), .read .window i,
      .write (2 * i) (windowed samples window (2 * i)), .write (2 * i + 1) (windowed samples window (2 * i + 1))] := by
  have hre : windowed samples window (2 * i) = window i * samples (2 * i) := by
    rw [windowed, mul_comm, Int.mul_ediv_cancel_left _ two_ne_zero]
  have him : windowed samples window (2 * i + 1) = window i * samples (2 * i + 1) := by
    have hdiv : (2 * i + 1 : ℤ) / 2 = i := by omega
    rw [windowed, mul_comm, hdiv]
  simp [windowCfTurn, loadC, load, storeC, store, scale, hre, him]

theorem writesOf_windowCfTurn (i : ℕ) :
    writesOf (windowCfTurn samples window i).log = run (windowed samples window) (2 * i : ℕ) 2 := by
  rw [windowCfTurn_log]
  simp [writesOf, run, List.range_succ]

/-- The reads of the turns of a block: the floats of its samples. -/
theorem samples_mem (i : ℕ) {l : ℕ} (hl : l < 2 * (last + 1)) : .read .samples (i * 2 + l) ∈
    (List.range (last + 1)).flatMap fun l => (windowCfTurn samples window (i + l)).log := by
  refine mem_turns (l := l / 2) (by omega) ?_
  rw [windowCfTurn_log]
  have hlane : l % 2 = 0 ∨ l % 2 = 1 := by omega
  rcases hlane with hlane | hlane
  · have hidx : (i * 2 + l : ℤ) = 2 * (i + l / 2 : ℕ) := by omega
    rw [hidx]
    exact List.mem_cons_self
  · have hidx : (i * 2 + l : ℤ) = 2 * (i + l / 2 : ℕ) + 1 := by omega
    rw [hidx]
    exact List.mem_cons_of_mem _ List.mem_cons_self

/-- The reads of the turns of a block: the window. -/
theorem window_mem (i : ℕ) {l : ℕ} (hl : l ≤ last) : .read .window (i + l) ∈
    (List.range (last + 1)).flatMap fun l => (windowCfTurn samples window (i + l)).log := by
  refine mem_turns hl ?_
  rw [windowCfTurn_log, Nat.cast_add]
  simp

omit [Field R] in
/-- Each lane twice. -/
theorem setM128_unpack (v : Fin 4 → R) (l : Fin 8) : setM128 (unpackhi v v) (unpacklo v v) l = v ⟨l / 2, by omega⟩ := by
  fin_cases l <;> rfl

theorem avx2WindowBlock_refines (i : ℕ) : Refines (avx2WindowBlock samples window i).log
    ((List.range 4).flatMap fun l => (windowCfTurn samples window (i + l)).log) := by
  refine block_refines ?_ writesOf_windowCfTurn ?_
  · simp only [avx2WindowBlock, writesOf_bind, writesOf_loadLanes, List.nil_append]
    rw [mul_comm, ← Nat.cast_two, ← Nat.cast_mul]
    refine writesOf_storeLanes fun l => ?_
    have hdiv : ((2 * i : ℕ) + (l : ℕ) : ℤ) / 2 = i + (l / 2 : ℕ) := by omega
    rw [windowed, hdiv, mul, setM128_unpack]
    rfl
  · simp only [avx2WindowBlock, Logged.all_bind]
    exact ⟨within_loadLanes fun l hl => samples_mem i hl, within_loadLanes fun l hl => window_mem i (by omega),
      within_storeLanes⟩

theorem sse42WindowBlock_refines (i : ℕ) : Refines (sse42WindowBlock samples window i).log
    ((List.range 2).flatMap fun l => (windowCfTurn samples window (i + l)).log) := by
  refine block_refines ?_ writesOf_windowCfTurn ?_
  · simp only [sse42WindowBlock, writesOf_bind, writesOf_loadLanes, writesOf_load, List.nil_append]
    rw [mul_comm, ← Nat.cast_two, ← Nat.cast_mul]
    refine writesOf_storeLanes fun l => ?_
    have hdiv : ((2 * i : ℕ) + (l : ℕ) : ℤ) / 2 = i + (l / 2 : ℕ) := by omega
    rw [windowed, hdiv, mul]
    fin_cases l <;> simp [loadLanes, load, mmSetPs]
  · have hw : .read .window (i : ℤ) ∈ (List.range 2).flatMap fun l => (windowCfTurn samples window (i + l)).log := by
      simpa using @window_mem _ _ samples window 1 i 0 (Nat.zero_le 1)
    have hw' := @window_mem _ _ samples window 1 i 1 le_rfl
    simp only [sse42WindowBlock, Logged.all_bind]
    exact ⟨within_loadLanes fun l hl => samples_mem i hl, within_load hw', within_load hw', within_load hw,
      within_load hw, within_storeLanes⟩

theorem neonWindowBlock_refines (i : ℕ) : Refines (neonWindowBlock samples window i).log
    ((List.range 4).flatMap fun l => (windowCfTurn samples window (i + l)).log) := by
  refine block_refines ?_ writesOf_windowCfTurn ?_
  · have hlow : writesOf (storeLanes (i * 2) (mul (fun l : Fin 4 => samples (i * 2 + (l : ℕ)))
        (unpacklo (fun l => window (i + (l : ℕ))) fun l => window (i + (l : ℕ)))) : Run R Unit).log =
        run (windowed samples window) (i * 2) 4 := by
      refine writesOf_storeLanes fun l => ?_
      have hdiv : (i * 2 + (l : ℕ) : ℤ) / 2 = i + (l / 2 : ℕ) := by omega
      rw [windowed, hdiv, mul]
      fin_cases l <;> rfl
    have hhigh : writesOf (storeLanes (i * 2 + 4) (mul (fun l : Fin 4 => samples (i * 2 + 4 + (l : ℕ)))
        (unpackhi (fun l => window (i + (l : ℕ))) fun l => window (i + (l : ℕ)))) : Run R Unit).log =
        run (windowed samples window) (i * 2 + 4) 4 := by
      refine writesOf_storeLanes fun l => ?_
      have hdiv : (i * 2 + 4 + (l : ℕ) : ℤ) / 2 = i + (2 + l / 2 : ℕ) := by omega
      rw [windowed, hdiv, mul]
      fin_cases l <;> rfl
    have hrun := run_add (windowed samples window) (i * 2) 4 4
    simp only [neonWindowBlock, writesOf_bind, writesOf_loadLanes, List.nil_append]
    rw [mul_comm 2 i, Nat.cast_mul]
    exact (congrArg₂ (· ++ ·) hlow hhigh).trans hrun.symm
  · simp only [neonWindowBlock, Logged.all_bind]
    refine ⟨within_loadLanes fun l hl => samples_mem i (by omega), within_loadLanes fun l hl => ?_,
      within_loadLanes fun l hl => window_mem i (by omega), within_storeLanes, within_storeLanes⟩
    rw [add_assoc]
    exact samples_mem (l := 4 + l) i (by omega)

/-! ## Conversion -/

theorem convertI8CfTurn_log (i : ℕ) : (convertI8CfTurn iq i : Run R Unit).log =
    [.read .iq (2 * i), .read .iq (2 * i + 1), .write (2 * i) (converted iq (2 * i)),
      .write (2 * i + 1) (converted iq (2 * i + 1))] := by
  simp [convertI8CfTurn, loadI8, load, storeC, store, scale, imagUnit, converted]

theorem writesOf_convertI8CfTurn (i : ℕ) :
    writesOf (convertI8CfTurn iq i : Run R Unit).log = run (converted iq) (2 * i : ℕ) 2 := by
  rw [convertI8CfTurn_log]
  simp [writesOf, run, List.range_succ]

/-- A scalar tail does a turn of the generic version. -/
theorem convertI8CfTail_refines (i : ℕ) :
    Refines (convertI8CfTail iq i : Run R Unit).log (convertI8CfTurn iq i : Run R Unit).log := by
  have htail : (convertI8CfTail iq i : Run R Unit).log =
      [.read .iq (2 * i), .write (i * 2) (converted iq (2 * i)), .read .iq (2 * i + 1),
        .write (i * 2 + 1) (converted iq (2 * i + 1))] := by
    simp [convertI8CfTail, loadI8, load, store, converted]
  rw [convertI8CfTurn_log, htail]
  refine .of_eq ?_ fun a j hmem => ?_
  · simp [writesOf, mul_comm]
  · simpa using hmem

/-- The reads of the turns of a block. -/
theorem iq_mem (i : ℕ) {l : ℕ} (hl : l < 2 * (last + 1)) : .read .iq (i * 2 + l) ∈
    (List.range (last + 1)).flatMap fun l => (convertI8CfTurn iq (i + l) : Run R Unit).log := by
  refine mem_turns (l := l / 2) (by omega) ?_
  rw [convertI8CfTurn_log]
  have hlane : l % 2 = 0 ∨ l % 2 = 1 := by omega
  rcases hlane with hlane | hlane
  · have hidx : (i * 2 + l : ℤ) = 2 * (i + l / 2 : ℕ) := by omega
    rw [hidx]
    exact List.mem_cons_self
  · have hidx : (i * 2 + l : ℤ) = 2 * (i + l / 2 : ℕ) + 1 := by omega
    rw [hidx]
    exact List.mem_cons_of_mem _ List.mem_cons_self

omit [Field R] in
theorem within_loadLanesI8 {w : ℕ} {j : ℤ} {es : List (Event Arr R)} (h : ∀ l < w, .read .iq (j + (l : ℕ)) ∈ es) :
    (loadLanesI8 w iq j).All (Within es) := by
  unfold loadLanesI8
  rw [Logged.all_bind]
  exact ⟨within_loadLanes h, Logged.all_pure _⟩

omit [Field R] in
@[simp] theorem writesOf_loadLanesI8 (w : ℕ) (j : ℤ) : writesOf (loadLanesI8 w iq j : Run R _).log = [] := by
  simp [loadLanesI8]

omit [Field R] in
@[simp] theorem val_loadLanesI8 (w : ℕ) (j : ℤ) :
    (loadLanesI8 w iq j : Run R _).val = slice (fun j => (iq j).toInt) j := rfl

/-- Lanes that hold the bytes from `j` on. -/
theorem writesOf_scaled (w : ℕ) (j : ℤ) :
    writesOf (storeLanes j (scaled (slice (w := w) (fun j => (iq j).toInt) j)) : Run R Unit).log = run (converted iq) j w := by
  refine writesOf_storeLanes fun l => ?_
  rw [scaled, mul, cvtepi32, set1, slice, converted, mul_one_div]

theorem avx2ConvertBlock_refines (i : ℕ) : Refines (avx2ConvertBlock iq i : Run R Unit).log
    ((List.range 8).flatMap fun l => (convertI8CfTurn iq (i + l) : Run R Unit).log) := by
  refine block_refines ?_ writesOf_convertI8CfTurn ?_
  · have hidx : ((i : ℤ) + 4) * 2 = i * 2 + (8 : ℕ) := by omega
    simp only [avx2ConvertBlock, writesOf_bind, writesOf_loadLanesI8, val_loadLanesI8, List.nil_append]
    rw [low_slice, low_srli_slice _ (by norm_num), hidx, writesOf_scaled, writesOf_scaled, Nat.mul_comm 2 i, Nat.cast_mul]
    exact (run_add _ _ 8 8).symm
  · simp only [avx2ConvertBlock, Logged.all_bind]
    exact ⟨within_loadLanesI8 fun l hl => iq_mem i hl, within_storeLanes, within_storeLanes⟩

theorem sse42ConvertBlock_refines (i : ℕ) : Refines (sse42ConvertBlock iq i : Run R Unit).log
    ((List.range 4).flatMap fun l => (convertI8CfTurn iq (i + l) : Run R Unit).log) := by
  refine block_refines ?_ writesOf_convertI8CfTurn ?_
  · have hidx : ((i : ℤ) + 2) * 2 = i * 2 + (4 : ℕ) := by omega
    simp only [sse42ConvertBlock, writesOf_bind, writesOf_loadLanesI8, val_loadLanesI8, List.nil_append]
    rw [low_slice, low_srli_slice _ (by norm_num), hidx, writesOf_scaled, writesOf_scaled, Nat.mul_comm 2 i, Nat.cast_mul]
    exact (run_add _ _ 4 4).symm
  · simp only [sse42ConvertBlock, Logged.all_bind]
    exact ⟨within_loadLanesI8 fun l hl => iq_mem i hl, within_storeLanes, within_storeLanes⟩

theorem neonConvertBlock_refines (i : ℕ) : Refines (neonConvertBlock iq i : Run R Unit).log
    ((List.range 8).flatMap fun l => (convertI8CfTurn iq (i + l) : Run R Unit).log) := by
  refine block_refines ?_ writesOf_convertI8CfTurn ?_
  · have hlast : (i * 2 : ℤ) + 8 + 4 = i * 2 + 12 := by omega
    have hrun : run (converted iq : ℤ → R) (i * 2) 16 = run (converted iq) (i * 2) 4 ++ (run (converted iq) (i * 2 + 4) 4 ++
        (run (converted iq) (i * 2 + 8) 4 ++ run (converted iq) (i * 2 + 12) 4)) := by
      simp only [run, List.range_succ, List.range_zero]
      simp [add_assoc]
    simp only [neonConvertBlock, writesOf_bind, writesOf_loadLanesI8, val_loadLanesI8, List.nil_append, low_slice,
      high_slice, Nat.reduceSub, Nat.cast_ofNat, hlast, writesOf_scaled]
    rw [Nat.mul_comm 2 i, Nat.cast_mul]
    exact hrun.symm
  · simp only [neonConvertBlock, Logged.all_bind]
    exact ⟨within_loadLanesI8 fun l hl => iq_mem i hl, within_storeLanes, within_storeLanes, within_storeLanes,
      within_storeLanes⟩

/-! ## Shifted magnitudes -/

/-- The squared magnitude of element `j`. -/
def magAt (fftOut : ℤ → R) (j : ℤ) : R := fftOut (2 * j) * fftOut (2 * j) + fftOut (2 * j + 1) * fftOut (2 * j + 1)

theorem writesOf_fftshiftMagTurn (i : ℕ) : writesOf (fftshiftMagTurn fftOut half i).log =
    [((i : ℤ), magAt fftOut (half + i)), (half + i, magAt fftOut i)] := by
  simp [fftshiftMagTurn, loadC, load, store, writesOf, magAt]

/-- The reads of the turns of a block, in either half. -/
theorem fftOut_mem (i : ℕ) {l : ℕ} {base : ℤ} (hbase : base = half + i ∨ base = i) (hl : l < 2 * (last + 1)) :
    .read .fftOut (base * 2 + l) ∈
      (List.range (last + 1)).flatMap fun l => (fftshiftMagTurn fftOut half (i + l)).log := by
  refine mem_turns (l := l / 2) (by omega) ?_
  have hidx : base * 2 + l = 2 * (base + (l / 2 : ℕ)) ∨ base * 2 + l = 2 * (base + (l / 2 : ℕ)) + 1 := by omega
  rcases hbase with rfl | rfl <;> rcases hidx with hidx | hidx <;> rw [hidx] <;>
    simp [fftshiftMagTurn, loadC, load, store, add_assoc]

/-- `mag base` computes the magnitudes of `w` elements from `base` on, and reads no others. -/
structure IsMag {w : ℕ} (fftOut : ℤ → R) (mag : ℤ → Run R (Fin w → R)) : Prop where
  val : ∀ base l, (mag base).val l = magAt fftOut (base + (l : ℕ))
  writes : ∀ base, writesOf (mag base).log = []
  reads : ∀ base (es : List (Event Arr R)), (∀ l < 2 * w, .read .fftOut (base * 2 + (l : ℕ)) ∈ es) → (mag base).All (Within es)

theorem avx2Mag_isMag : IsMag fftOut (avx2Mag fftOut) where
  val base l := by
    fin_cases l <;>
      simp [avx2Mag, loadLanes, permutevar8x32, setrEpi32, castps128, extractf128, fmadd, mul, magAt] <;> ring_nf
  writes base := by simp [avx2Mag]
  reads base es h := by
    simp only [avx2Mag, Logged.all_bind, Logged.all_pure, and_true]
    exact within_loadLanes h

theorem sse42Mag_isMag : IsMag fftOut (sse42Mag fftOut) where
  val base l := by
    fin_cases l <;> simp [sse42Mag, loadLanes, shuffle, mmShuffle, lowPair, add, mul, magAt] <;> ring_nf
  writes base := by simp [sse42Mag]
  reads base es h := by
    simp only [sse42Mag, Logged.all_bind, Logged.all_pure, and_true]
    exact within_loadLanes h

theorem neonMag_isMag : IsMag fftOut (neonMag fftOut) where
  val base l := by
    fin_cases l <;> simp [neonMag, loadLanes, uzp1, uzp2, vfmaq, mul, magAt] <;> ring_nf
  writes base := by simp [neonMag, writesOf_append]
  reads base es h := by
    simp only [neonMag, Logged.all_bind, Logged.all_pure, and_true]
    refine ⟨within_loadLanes fun l hl => h l (by omega), within_loadLanes fun l hl => ?_⟩
    have hidx : (base + 2) * 2 + (l : ℤ) = base * 2 + (4 + l : ℕ) := by omega
    rw [hidx]
    exact h (4 + l) (by omega)

/-- **A block of the shifted magnitudes** writes in two places, each as far as the halves reach. -/
theorem fftshiftBlock_refines {mag : ℤ → Run R (Fin (last + 1) → R)} (hmag : IsMag fftOut mag) (hi : (i + last : ℤ) < half) :
    Refines (fftshiftBlock mag half i).log
      ((List.range (last + 1)).flatMap fun l => (fftshiftMagTurn fftOut half (i + l)).log) := by
  have hblock : writesOf (fftshiftBlock mag half i).log =
      run (fun j => magAt fftOut (half + j)) i (last + 1) ++ run (fun j => magAt fftOut (j - half)) (half + i) (last + 1) := by
    simp only [fftshiftBlock, writesOf_bind, hmag.writes, List.nil_append]
    refine congrArg₂ (· ++ ·) (writesOf_storeLanes fun l => ?_) (writesOf_storeLanes fun l => ?_)
    · rw [hmag.val, add_assoc]
    · rw [hmag.val, add_assoc, add_sub_cancel_left]
  have hreads : (fftshiftBlock mag half i).All
      (Within ((List.range (last + 1)).flatMap fun l => (fftshiftMagTurn fftOut half (i + l)).log)) := by
    simp only [fftshiftBlock, Logged.all_bind]
    exact ⟨hmag.reads _ _ fun l hl => fftOut_mem i (.inl rfl) hl, within_storeLanes,
      hmag.reads _ _ fun l hl => fftOut_mem i (.inr rfl) hl, within_storeLanes⟩
  refine .of_perm ?_ ?_ fun a j hmem => hreads _ hmem
  · -- a turn writes one element here and one there
    have hturns : ∀ l : ℕ, writesOf (fftshiftMagTurn fftOut half (i + l)).log = ((i + l : ℤ), magAt fftOut (half + (i + l))) ::
        [(half + i + (l : ℤ), magAt fftOut (half + i + l - half))] := by
      intro l
      rw [writesOf_fftshiftMagTurn, Nat.cast_add, add_sub_right_comm, add_sub_cancel_left, add_assoc half]
    rw [hblock, writesOf_flatMap, run, run, List.map_eq_flatMap (f := fun l : ℕ => (half + i + (l : ℤ), _))]
    simp only [hturns]
    exact List.map_append_flatMap_perm _ _ _
  · -- the two places do not meet: a block ends in front of the upper half
    have hfst : ∀ (g : ℤ → R) (j : ℤ) (count : ℕ), (run g j count).map Prod.fst = (List.range count).map fun l : ℕ => j + (l : ℤ) :=
      fun g j count => by rw [run, List.map_map]; rfl
    have hinj : ∀ j : ℤ, ((List.range (last + 1)).map fun l : ℕ => j + (l : ℤ)).Nodup := fun j =>
      List.nodup_range.map fun a b hab => Int.ofNat_inj.1 (add_left_cancel hab)
    rw [hblock, List.map_append, hfst, hfst]
    refine List.nodup_append.2 ⟨hinj _, hinj _, ?_⟩
    intro x hx y hy
    obtain ⟨a, ha, rfl⟩ := List.mem_map.1 hx
    obtain ⟨b, hb, rfl⟩ := List.mem_map.1 hy
    have hlt := List.mem_range.1 ha
    omega

/-! ## Back ends -/

variable {m : SimdMode}

theorem fmadd_acc {w : ℕ} (acc c d : Fin w → R) : fmadd c d acc = fun l => acc l + c l * d l := by
  funext l
  exact add_comm _ _

theorem simdFirCcf_refines : Refines (simdFirCcf m taps ntaps input n).log (genericFirCcf taps ntaps input n).log := by
  have htail : ∀ i : ℕ, (i : ℤ) < n →
      Refines (firCcfTail taps ntaps input i).log (firCcfTurn taps ntaps input i i).log := fun i _ => firCcfTail_refines i
  cases m with
  | avx2 => exact blocks_refine (fun i _ => firBlock_refines firCcfTurn_isFirTurn (by rfl) fmadd_acc i) htail
  | sse42 => exact blocks_refine (fun i _ => firBlock_refines firCcfTurn_isFirTurn (by rfl) (fun _ _ _ => rfl) i) htail
  | neon => exact blocks_refine (fun i _ => firBlock_refines firCcfTurn_isFirTurn (by rfl) (fun _ _ _ => rfl) i) htail

theorem simdFirCcfDec_refines {nOut decimation : ℤ} : Refines (simdFirCcfDec m taps ntaps input nOut decimation).log
    (genericFirCcfDec taps ntaps input nOut decimation).log := by
  cases m with
  | avx2 => exact turns_refine fun i _ => avx2FirDecTurn_refines _ i
  | sse42 => exact turns_refine fun i _ => sse42FirDecTurn_refines _ i
  | neon => exact turns_refine fun i _ => neonFirDecTurn_refines _ i

theorem simdFirFff_refines : Refines (simdFirFff m taps ntaps input n).log (genericFirFff taps ntaps input n).log := by
  cases m with
  | avx2 => exact blocks_refine (fun i _ => firBlock_refines firFffTurn_isFirTurn (by rfl) fmadd_acc i) fun i _ => .refl _
  | sse42 =>
    exact blocks_refine (fun i _ => firBlock_refines firFffTurn_isFirTurn (by rfl) (fun _ _ _ => rfl) i) fun i _ => .refl _
  | neon =>
    exact blocks_refine (fun i _ => firBlock_refines firFffTurn_isFirTurn (by rfl) (fun _ _ _ => rfl) i) fun i _ => .refl _

theorem simdWindowCf_refines : Refines (simdWindowCf m samples window n).log (genericWindowCf samples window n).log := by
  cases m with
  | avx2 => exact blocks_refine (fun i _ => avx2WindowBlock_refines i) fun i _ => .refl _
  | sse42 => exact blocks_refine (fun i _ => sse42WindowBlock_refines i) fun i _ => .refl _
  | neon => exact blocks_refine (fun i _ => neonWindowBlock_refines i) fun i _ => .refl _

theorem simdFftshiftMag_refines {fftSize : ℤ} :
    Refines (simdFftshiftMag m fftOut fftSize).log (genericFftshiftMag fftOut fftSize).log := by
  cases m with
  | avx2 => exact blocks_refine (fun i hi => fftshiftBlock_refines avx2Mag_isMag hi) fun i _ => .refl _
  | sse42 => exact blocks_refine (fun i hi => fftshiftBlock_refines sse42Mag_isMag hi) fun i _ => .refl _
  | neon => exact blocks_refine (fun i hi => fftshiftBlock_refines neonMag_isMag hi) fun i _ => .refl _

theorem simdConvertI8Cf_refines {count : ℕ} :
    Refines (simdConvertI8Cf m iq count : Run R Unit).log (genericConvertI8Cf iq count : Run R Unit).log := by
  cases m with
  | avx2 => exact blocks_refine (fun i _ => avx2ConvertBlock_refines i) fun i _ => convertI8CfTail_refines i
  | sse42 => exact blocks_refine (fun i _ => sse42ConvertBlock_refines i) fun i _ => convertI8CfTail_refines i
  | neon => exact blocks_refine (fun i _ => neonConvertBlock_refines i) fun i _ => convertI8CfTail_refines i

/-- **Every version refines the generic one**: the output is the same, and no element is read or written that
the generic version does not read or write. -/
theorem simd_refines (m : SimdMode) :
    (∀ (taps : ℤ → R) (ntaps : ℤ) (input : ℤ → R) (n : ℤ),
      Refines (simdFirCcf m taps ntaps input n).log (genericFirCcf taps ntaps input n).log) ∧
    (∀ (taps : ℤ → R) (ntaps : ℤ) (input : ℤ → R) (nOut decimation : ℤ),
      Refines (simdFirCcfDec m taps ntaps input nOut decimation).log
        (genericFirCcfDec taps ntaps input nOut decimation).log) ∧
    (∀ (taps : ℤ → R) (ntaps : ℤ) (input : ℤ → R) (n : ℤ),
      Refines (simdFirFff m taps ntaps input n).log (genericFirFff taps ntaps input n).log) ∧
    (∀ (samples window : ℤ → R) (n : ℤ),
      Refines (simdWindowCf m samples window n).log (genericWindowCf samples window n).log) ∧
    (∀ (fftOut : ℤ → R) (fftSize : ℤ),
      Refines (simdFftshiftMag m fftOut fftSize).log (genericFftshiftMag fftOut fftSize).log) ∧
    ∀ (iq : ℤ → Int8) (n : ℕ),
      Refines (simdConvertI8Cf m iq n : Run R Unit).log (genericConvertI8Cf iq n : Run R Unit).log :=
  ⟨fun _ _ _ _ => simdFirCcf_refines, fun _ _ _ _ _ => simdFirCcfDec_refines, fun _ _ _ _ => simdFirFff_refines,
    fun _ _ _ => simdWindowCf_refines, fun _ _ => simdFftshiftMag_refines, fun _ _ => simdConvertI8Cf_refines⟩

end InmarsatSniffer.Simd
