import InmarsatSniffer.Lib.Trellis
import InmarsatSniffer.Spec.Viterbi

/-!
# The Viterbi decoder finds the encoder's bits

The metrics and history rows of `forwardPass` are survivors of the trellis of the code
(`forwardPass_survives`), so the traceback gives a path of least cost.

* `viterbiDecode_encode`: **soft symbols with the signs of an encoded sequence decode to
  its bits**, whatever their magnitudes and the final state.
-/

namespace InmarsatSniffer.Stdc

open Trellis

variable {metrics : Metrics} {soft : Int8 × Int8} {softs : List (Int8 × Int8)} {acc : Metrics × Metrics}
  {es : List (Fin viterbiStates × Bool)} {xs : List Bool}

/-! ## One step of the forward pass -/

theorem unreached_eq : unreached = 2147483647 := rfl

theorem int8_bounds (v : Int8) : -128 ≤ v.toInt ∧ v.toInt ≤ 127 := ⟨v.le_toInt, by have := v.toInt_lt; omega⟩

theorem edgeMetric_le (soft : Int8 × Int8) (s : Fin viterbiStates) (bit : Bool) : edgeMetric soft s bit ≤ 510 := by
  have h1 := int8_bounds soft.1
  have h2 := int8_bounds soft.2
  unfold edgeMetric branchMetric
  dsimp only
  split_ifs <;> omega

/-- An entry of the history holds the state and the bit it was made of. -/
theorem entry_decode : ∀ (s : Fin viterbiStates) (bit : Bool),
    Fin.ofNat viterbiStates (((s.val <<< 1) ||| bit.toNat) >>> 1) = s ∧
      ((((s.val <<< 1) ||| bit.toNat) &&& 1) == 1) = bit := by decide

theorem mem_edges (s : Fin viterbiStates) (bit : Bool) : (s, bit) ∈ edges := by
  unfold edges
  rw [List.mem_flatMap]
  exact ⟨s, List.mem_finRange s, by cases bit <;> simp⟩

theorem get_set (v : Metrics) (i j : Fin viterbiStates) (x : ℕ) :
    (v.set i x i.isLt).get j = if i = j then x else v.get j := by
  have hset : (v.set i x i.isLt)[(j : ℕ)] = if (i : ℕ) = j then x else v[(j : ℕ)] := Vector.getElem_set i.isLt j.isLt
  simpa [Vector.get_eq_getElem, Fin.ext_iff] using hset

/-- What the new metrics and the history row say after the edges `es`: each is the least
metric into its state, and comes from an edge of that metric. -/
structure Relaxed (metrics : Metrics) (soft : Int8 × Int8) (es : List (Fin viterbiStates × Bool))
    (acc : Metrics × Metrics) : Prop where
  le : ∀ e ∈ es, metrics.get e.1 < unreached → acc.1.get (nextState e.1 e.2) ≤ metrics.get e.1 + edgeMetric soft e.1 e.2
  attained : ∀ n : Fin viterbiStates, acc.1.get n = 0xFFFFFFFF ∨ ∃ e ∈ es, metrics.get e.1 < unreached ∧
    nextState e.1 e.2 = n ∧ acc.1.get n = metrics.get e.1 + edgeMetric soft e.1 e.2 ∧
      acc.2.get n = (e.1.val <<< 1) ||| e.2.toNat

theorem relaxed_nil : Relaxed metrics soft []
    (Vector.replicate viterbiStates 0xFFFFFFFF, Vector.replicate viterbiStates 0) :=
  ⟨fun _ h => absurd h (by simp), fun _ => Or.inl (by simp)⟩

theorem Relaxed.relax (h : Relaxed metrics soft es acc) (e : Fin viterbiStates × Bool) :
    Relaxed metrics soft (es ++ [e]) (relax metrics soft acc e) := by
  have hmono : ∀ {acc' : Metrics × Metrics} {n : Fin viterbiStates}, acc'.1.get n = acc.1.get n → acc'.2.get n = acc.2.get n →
      acc'.1.get n = 0xFFFFFFFF ∨ ∃ e' ∈ es ++ [e], metrics.get e'.1 < unreached ∧ nextState e'.1 e'.2 = n ∧
        acc'.1.get n = metrics.get e'.1 + edgeMetric soft e'.1 e'.2 ∧ acc'.2.get n = (e'.1.val <<< 1) ||| e'.2.toNat := by
    intro acc' n h1 h2
    rw [h1, h2]
    rcases h.attained n with hn | ⟨e', he', hrest⟩
    · exact Or.inl hn
    · exact Or.inr ⟨e', by simp [he'], hrest⟩
  unfold InmarsatSniffer.Stdc.relax
  dsimp only
  by_cases hu : metrics.get e.1 ≥ unreached
  · rw [if_pos hu]
    refine ⟨fun e' he' hr => ?_, fun n => hmono rfl rfl⟩
    rcases List.mem_append.1 he' with he' | he'
    · exact h.le e' he' hr
    · rw [List.mem_singleton.1 he'] at hr
      exact absurd hr (not_lt.2 hu)
  rw [if_neg hu]
  have hedge := edgeMetric_le soft e.1 e.2
  have hunr := unreached_eq
  have hmod : (metrics.get e.1 + edgeMetric soft e.1 e.2) % 2 ^ 32 = metrics.get e.1 + edgeMetric soft e.1 e.2 :=
    Nat.mod_eq_of_lt (by omega)
  rw [hmod]
  by_cases hlt : metrics.get e.1 + edgeMetric soft e.1 e.2 < acc.1.get (nextState e.1 e.2)
  · rw [if_pos hlt]
    refine ⟨fun e' he' hr => ?_, fun n => ?_⟩
    · dsimp only
      rw [get_set]
      rcases List.mem_append.1 he' with he' | he'
      · have hle := h.le e' he' hr
        split
        · next heq =>
          have hsame : acc.1.get (nextState e.1 e.2) = acc.1.get (nextState e'.1 e'.2) :=
            congrArg (fun n : Fin viterbiStates => acc.1.get n) heq
          omega
        · exact hle
      · rw [List.mem_singleton.1 he', if_pos rfl]
    · by_cases hn : nextState e.1 e.2 = n
      · refine Or.inr ⟨e, by simp, by omega, hn, ?_, ?_⟩
        · rw [get_set, if_pos hn]
        · rw [get_set, if_pos hn]
      · apply hmono
        · rw [get_set, if_neg hn]
        · rw [get_set, if_neg hn]
  · rw [if_neg hlt]
    refine ⟨fun e' he' hr => ?_, fun n => hmono rfl rfl⟩
    rcases List.mem_append.1 he' with he' | he'
    · exact h.le e' he' hr
    · rw [List.mem_singleton.1 he']
      omega

theorem acsStep_relaxed (metrics : Metrics) (soft : Int8 × Int8) : Relaxed metrics soft edges (acsStep metrics soft) := by
  unfold acsStep
  generalize edges = es
  induction es using List.reverseRecOn with
  | nil => exact relaxed_nil
  | append_singleton es e ih =>
    rw [List.foldl_append]
    exact ih.relax e

/-! ## The forward pass -/

/-- A path metric, infinite from `unreached` on. -/
def lift (k : ℕ) : WithTop ℕ := if k < unreached then (k : WithTop ℕ) else ⊤

/-- The metrics of reached states are at most `k`. -/
def Bounded (k : ℕ) (metrics : Metrics) : Prop := ∀ s : Fin viterbiStates, metrics.get s < unreached → metrics.get s ≤ k

theorem lift_top {k : ℕ} (h : unreached ≤ k) : lift k = ⊤ := by
  unfold lift
  rw [if_neg (not_lt.2 h)]

theorem lift_mono {j k : ℕ} (h : j ≤ k) : lift j ≤ lift k := by
  unfold lift
  split_ifs
  · exact WithTop.coe_le_coe.2 h
  · exact le_top
  · omega
  · exact le_rfl

theorem acsStep_bounded {k : ℕ} (h : Bounded k metrics) : Bounded (k + 510) (acsStep metrics soft).1 := by
  intro n hn
  have hunr := unreached_eq
  rcases (acsStep_relaxed metrics soft).attained n with htop | ⟨e, -, hr, -, he, -⟩
  · omega
  · have := h e.1 hr
    have := edgeMetric_le soft e.1 e.2
    omega

/-- **A step of the forward pass** is a step of the survivors. -/
theorem acsStep_selects {k : ℕ} (h : Bounded k metrics) (hk : k + 510 < unreached) :
    Selects nextState edgeMetric soft (fun s => lift (metrics.get s)) (fun s => lift ((acsStep metrics soft).1.get s))
      (decision (acsStep metrics soft).2) where
  le := fun s bit => by
    by_cases hr : metrics.get s < unreached
    · have hle := (acsStep_relaxed metrics soft).le (s, bit) (mem_edges s bit) hr
      have hs := h s hr
      have hedge := edgeMetric_le soft s bit
      refine le_trans (lift_mono hle) ?_
      unfold lift
      rw [if_pos hr, if_pos (show metrics.get s + edgeMetric soft s bit < unreached by omega), Nat.cast_add]
    · rw [lift_top (not_lt.1 hr), top_add]
      exact le_top
  attained := fun n hn => by
    have hlt : (acsStep metrics soft).1.get n < unreached := by
      by_contra hge
      exact hn (lift_top (not_lt.1 hge))
    have hunr := unreached_eq
    rcases (acsStep_relaxed metrics soft).attained n with htop | ⟨e, -, hr, hnext, he, hrow⟩
    · omega
    · have hdec : decision (acsStep metrics soft).2 n = e := by
        unfold decision
        rw [hrow, (entry_decode e.1 e.2).1, (entry_decode e.1 e.2).2]
      rw [hdec]
      refine ⟨hnext, ?_⟩
      rw [he] at hlt ⊢
      unfold lift
      rw [if_pos hlt, if_pos hr, Nat.cast_add]

theorem forwardPass_append (softs : List (Int8 × Int8)) (soft : Int8 × Int8) : forwardPass (softs ++ [soft]) =
    ((acsStep (forwardPass softs).1 soft).1, (acsStep (forwardPass softs).1 soft).2 :: (forwardPass softs).2) := by
  unfold forwardPass
  rw [List.foldl_append]
  rfl

/-- **The forward pass** keeps survivors, as long as no metric comes near `unreached`. -/
theorem forwardPass_survives (softs : List (Int8 × Int8)) (h : 510 * softs.length < unreached) :
    Survives nextState edgeMetric 0 softs.reverse (fun s => lift ((forwardPass softs).1.get s))
      ((forwardPass softs).2.map decision) ∧ Bounded (510 * softs.length) (forwardPass softs).1 := by
  induction softs using List.reverseRecOn with
  | nil =>
    have hinit : ∀ s : Fin viterbiStates, (forwardPass []).1.get s = if s = 0 then 0 else unreached := fun s => by
      show viterbiInit.get s = _
      unfold viterbiInit
      simp
    refine ⟨.start ?_ fun s hs => ?_, fun s hs => ?_⟩
    · rw [hinit]
      rfl
    · rw [hinit, if_neg hs]
      exact lift_top le_rfl
    · rw [hinit] at hs ⊢
      split_ifs at hs ⊢ with h0
      · exact Nat.zero_le _
      · exact absurd hs (lt_irrefl _)
  | append_singleton softs soft ih =>
    rw [List.length_append, List.length_singleton] at h ⊢
    obtain ⟨hs, hb⟩ := ih (by omega)
    rw [forwardPass_append, List.reverse_append, List.reverse_singleton, List.singleton_append, List.map_cons]
    exact ⟨.step hs (acsStep_selects hb (by omega)), acsStep_bounded hb⟩

/-! ## The traceback -/

theorem traceback_eq : ∀ (rows : List Metrics) (s : Fin viterbiStates) (decoded : List Bool),
    traceback rows s decoded = (trace (rows.map decision) s).reverse ++ decoded := by
  intro rows
  induction rows with
  | nil => exact fun _ _ => rfl
  | cons row rows ih =>
    intro s decoded
    rw [traceback, ih, List.map_cons, trace, List.reverse_cons, List.append_assoc]
    rfl

/-- The best metric among the states `l`, and a state of that metric. -/
structure BestOf (metrics : Metrics) (l : List (Fin viterbiStates)) (best : ℕ × Fin viterbiStates) : Prop where
  le : ∀ s ∈ l, best.1 ≤ metrics.get s
  attained : best.1 = 0xFFFFFFFF ∨ best.1 = metrics.get best.2

theorem BestOf.better {l : List (Fin viterbiStates)} {best : ℕ × Fin viterbiStates} (h : BestOf metrics l best)
    (a : Fin viterbiStates) : BestOf metrics (l ++ [a]) (better metrics best a) := by
  unfold InmarsatSniffer.Stdc.better
  split
  · refine ⟨fun s hs => ?_, Or.inr rfl⟩
    rcases List.mem_append.1 hs with hs | hs
    · have := h.le s hs
      dsimp only
      omega
    · rw [List.mem_singleton.1 hs]
  · refine ⟨fun s hs => ?_, h.attained⟩
    rcases List.mem_append.1 hs with hs | hs
    · exact h.le s hs
    · rw [List.mem_singleton.1 hs]
      omega

theorem bestFinal_best (metrics : Metrics) : BestOf metrics (List.finRange viterbiStates) (bestFinal metrics) := by
  unfold bestFinal
  generalize List.finRange viterbiStates = l
  induction l using List.reverseRecOn with
  | nil => exact ⟨fun _ h => absurd h (by simp), Or.inl rfl⟩
  | append_singleton l a ih =>
    rw [List.foldl_append]
    exact ih.better a

/-- The best final state has the least metric. -/
theorem bestFinal_le (metrics : Metrics) (s : Fin viterbiStates) :
    lift (metrics.get (bestFinal metrics).2) ≤ lift (metrics.get s) := by
  have hbest := bestFinal_best metrics
  have hs := hbest.le s (List.mem_finRange s)
  rcases hbest.attained with hr | hr
  · -- nothing is reached
    rw [hr] at hs
    rw [lift_top (le_trans (by decide) hs)]
    exact le_top
  · rw [hr] at hs
    exact lift_mono hs

/-! ## Encoded sequences -/

/-- The metric of a pair against the symbols of its signs. -/
def leastMetric (soft : Int8 × Int8) : ℕ := branchMetric soft.1 soft.2 (hardBit soft.1) (hardBit soft.2)

/-- The symbols of an edge. -/
def edgeSymbols (s : Fin viterbiStates) (bit : Bool) : ℕ × ℕ := ((encodeSym s bit >>> 1) &&& 1, encodeSym s bit &&& 1)

theorem edgeSymbols_bits (s : Fin viterbiStates) (bit : Bool) : (edgeSymbols s bit).1 ≤ 1 ∧ (edgeSymbols s bit).2 ≤ 1 :=
  ⟨Nat.and_le_right, Nat.and_le_right⟩

/-- The two inputs of a state differ in their symbols. -/
theorem edgeSymbols_inj : ∀ (s : Fin viterbiStates) (x y : Bool), edgeSymbols s x = edgeSymbols s y → x = y := by
  decide +kernel

/-- The distance of a soft symbol from a hard one is least for its sign, and only for that. -/
theorem sign_least {v : Int8} (hv : v ≠ 0) {e : ℕ} (he : e ≤ 1) :
    (v.toInt - (if hardBit v ≠ 0 then 127 else -127)).natAbs ≤ (v.toInt - (if e ≠ 0 then 127 else -127)).natAbs ∧
      ((v.toInt - (if e ≠ 0 then 127 else -127)).natAbs =
        (v.toInt - (if hardBit v ≠ 0 then 127 else -127)).natAbs ↔ e = hardBit v) := by
  have hne : v.toInt ≠ 0 := fun h0 => hv (Int8.toInt_inj.1 (h0.trans Int8.toInt_zero.symm))
  have hb := int8_bounds v
  unfold hardBit
  by_cases hpos : 0 < v.toInt <;> by_cases h0 : e = 0 <;> simp only [hpos, h0, if_true, if_false] <;> norm_num <;> omega

/-- **The signs decide**: an edge has the least metric of a pair exactly when its symbols
have the signs of the pair. -/
theorem edgeMetric_least (h : soft.1 ≠ 0 ∧ soft.2 ≠ 0) (s : Fin viterbiStates) (bit : Bool) :
    leastMetric soft ≤ edgeMetric soft s bit ∧
      (edgeMetric soft s bit = leastMetric soft ↔ edgeSymbols s bit = (hardBit soft.1, hardBit soft.2)) := by
  obtain ⟨e1, e2⟩ := edgeSymbols_bits s bit
  obtain ⟨hle1, hiff1⟩ := sign_least h.1 e1
  obtain ⟨hle2, hiff2⟩ := sign_least h.2 e2
  have hedge : edgeMetric soft s bit = branchMetric soft.1 soft.2 (edgeSymbols s bit).1 (edgeSymbols s bit).2 := rfl
  rw [hedge, Prod.ext_iff, ← hiff1, ← hiff2]
  unfold leastMetric branchMetric
  dsimp only
  omega

theorem encodeLoop_append (x : Bool) : ∀ (xs : List Bool) (s : Fin viterbiStates), encodeLoop s (xs ++ [x]) =
    encodeLoop s xs ++ [(edgeSymbols (endState nextState s xs.reverse) x).1,
      (edgeSymbols (endState nextState s xs.reverse) x).2] := by
  have hend : ∀ (xs : List Bool) (b : Bool) (s : Fin viterbiStates),
      endState nextState s (xs ++ [b]) = endState nextState (nextState s b) xs := by
    intro xs b s
    induction xs with
    | nil => rfl
    | cons a xs ih => rw [List.cons_append, endState, ih, endState]
  intro xs
  induction xs with
  | nil => exact fun _ => rfl
  | cons b xs ih =>
    intro s
    rw [List.cons_append, encodeLoop, ih, List.reverse_cons, hend]
    rfl

theorem encodeLoop_length : ∀ (xs : List Bool) (s : Fin viterbiStates), (encodeLoop s xs).length = 2 * xs.length := by
  intro xs
  induction xs with
  | nil => exact fun _ => rfl
  | cons b xs ih =>
    intro s
    rw [encodeLoop, List.length_cons, List.length_cons, ih, List.length_cons]
    omega

/-- The hard decisions of symbol pairs. -/
def hardPairs (softs : List (Int8 × Int8)) : List ℕ := softs.flatMap fun soft => [hardBit soft.1, hardBit soft.2]

/-- Soft symbols with the signs of an encoded sequence attain the least metrics along it. -/
theorem attains_encode : ∀ (softs : List (Int8 × Int8)) (xs : List Bool), (∀ p ∈ softs, p.1 ≠ 0 ∧ p.2 ≠ 0) →
    xs.length = softs.length → hardPairs softs = encodeLoop 0 xs →
    Attains nextState edgeMetric 0 leastMetric softs.reverse xs.reverse := by
  intro softs
  induction softs using List.reverseRecOn with
  | nil =>
    intro xs _ hl _
    rw [List.length_eq_zero_iff.1 hl]
    trivial
  | append_singleton softs soft ih =>
    intro xs hne hl hsym
    rcases List.eq_nil_or_concat xs with rfl | ⟨xs, x, rfl⟩
    · exact absurd hl (by simp)
    rw [List.concat_eq_append] at hl hsym ⊢
    have hl : xs.length = softs.length := by simpa using hl
    unfold hardPairs at hsym
    rw [List.flatMap_append, List.flatMap_singleton, encodeLoop_append] at hsym
    have hlen : (hardPairs softs).length = (encodeLoop 0 xs).length := by
      unfold hardPairs
      rw [encodeLoop_length, hl, List.length_flatMap]
      simp [Nat.mul_comm]
    obtain ⟨hpre, hlast⟩ := List.append_inj hsym hlen
    rw [List.cons.injEq, List.cons.injEq] at hlast
    rw [List.reverse_append, List.reverse_append]
    refine ⟨ih xs (fun p hp => hne p (by simp [hp])) hl hpre, ?_⟩
    refine (edgeMetric_least (hne soft (by simp)) _ _).2.2 ?_
    exact Prod.ext hlast.1.symm hlast.2.1.symm

/-- **The decoder traces back the encoder's bits.** -/
theorem traceback_encode (hne : ∀ p ∈ softs, p.1 ≠ 0 ∧ p.2 ≠ 0) (hl : xs.length = softs.length)
    (hsym : hardPairs softs = encodeLoop 0 xs) (hsize : 510 * softs.length < unreached) :
    traceback (forwardPass softs).2 (bestFinal (forwardPass softs).1).2 [] = xs := by
  have hmem : ∀ r ∈ softs.reverse, r.1 ≠ 0 ∧ r.2 ≠ 0 := fun r hr => hne r (List.mem_reverse.1 hr)
  have hlen : xs.reverse.length = softs.reverse.length := by simp [hl]
  have htrace := (forwardPass_survives softs hsize).1.trace_eq (s := (bestFinal (forwardPass softs).1).2) hlen
    (fun ys hy hneq => cost_lt_of_ne (attains_encode softs xs hne hl hsym)
      (fun r hr s x => (edgeMetric_least (hmem r hr) s x).1)
      (fun r hr s x y hx hy => edgeSymbols_inj s x y
        (((edgeMetric_least (hmem r hr) s x).2.1 hx).trans ((edgeMetric_least (hmem r hr) s y).2.1 hy).symm))
      (by simp [hl]) hy hneq)
    fun s' => bestFinal_le _ s'
  rw [traceback_eq, htrace, List.reverse_reverse, List.append_nil]

/-! ## Packed bits -/

theorem getD_map_range {α : Type*} (f : ℕ → α) {n k : ℕ} (h : k < n) (a : α) : ((List.range n).map f).getD k a = f k := by
  rw [List.getD_eq_getElem _ _ (by rwa [List.length_map, List.length_range]), List.getElem_map, List.getElem_range]

theorem packByte_congr {f g : ℕ → Bool} (h : ∀ i < 8, f i = g i) : packByte f = packByte g := by
  unfold packByte
  apply List.foldl_ext
  intro b i hi
  rw [h i (List.mem_range.1 hi)]

theorem packByte_bits : ∀ b : Fin 256,
    packByte (fun i => (((UInt8.ofNat b).toNat >>> (7 - i)) &&& 1) == 1) = UInt8.ofNat b := by
  decide +kernel

theorem bitAt_byte (bits : List UInt8) {j i : ℕ} (hi : i < 8) :
    bitAt bits (8 * j + i) = ((((bits.getD j 0).toNat >>> (7 - i)) &&& 1) == 1) := by
  unfold bitAt
  rw [show (8 * j + i) / 8 = j by omega, show (8 * j + i) % 8 = i by omega]

/-- Packing the bits of bytes gives the bytes. -/
theorem packBits_bitAt (bits : List UInt8) : packBits ((List.range (8 * bits.length)).map (bitAt bits)) = bits := by
  unfold packBits
  rw [List.length_map, List.length_range, show (8 * bits.length + 7) / 8 = bits.length by omega]
  apply List.ext_getElem
  · simp
  · intro j h1 h2
    rw [List.getElem_map, List.getElem_range]
    have hbyte : packByte (fun i => ((List.range (8 * bits.length)).map (bitAt bits)).getD (8 * j + i) false) =
        packByte fun i => ((((bits.getD j 0).toNat >>> (7 - i)) &&& 1) == 1) := by
      apply packByte_congr
      intro i hi
      rw [getD_map_range _ (by omega), bitAt_byte bits hi]
    rw [hbyte, List.getD_eq_getElem _ _ h2]
    have hb := packByte_bits ⟨bits[j].toNat, bits[j].toNat_lt⟩
    rwa [UInt8.ofNat_toNat] at hb

/-- The hard decisions of the pairs are those of the symbols. -/
theorem hardPairs_softPairs (softSyms : ℕ → Int8) (numBits : ℕ) :
    hardPairs (softPairs softSyms numBits) = (List.range (2 * numBits)).map fun k => hardBit (softSyms k) := by
  unfold hardPairs softPairs
  induction numBits with
  | zero => rfl
  | succ n ih =>
    rw [List.range_succ, List.map_append, List.flatMap_append, ih, show 2 * (n + 1) = 2 * n + 1 + 1 by omega,
      List.range_succ, List.range_succ, List.map_append, List.map_append, List.append_assoc]
    rfl

/-- **Decoding undoes encoding**: soft symbols of the signs of encoded bytes, of whatever
magnitudes, decode to the bytes, with no symbol in error. -/
theorem viterbiDecode_encode {bits : List UInt8} {softSyms : ℕ → Int8} (hsize : 510 * (8 * bits.length) < unreached)
    (hne : ∀ k < 16 * bits.length, softSyms k ≠ 0)
    (hsym : ∀ k < 16 * bits.length, hardBit (softSyms k) = (viterbiEncode bits (8 * bits.length)).getD k 0) :
    (viterbiDecode softSyms (8 * bits.length)).1 = bits ∧ viterbiErrors bits (8 * bits.length) softSyms = 0 := by
  have hlen : (viterbiEncode bits (8 * bits.length)).length = 16 * bits.length := by
    unfold viterbiEncode
    rw [encodeLoop_length, List.length_map, List.length_range]
    omega
  have hpairs : hardPairs (softPairs softSyms (8 * bits.length)) =
      encodeLoop 0 ((List.range (8 * bits.length)).map (bitAt bits)) := by
    rw [hardPairs_softPairs]
    apply List.ext_getElem
    · rw [List.length_map, List.length_range, encodeLoop_length, List.length_map, List.length_range]
    · intro k h1 h2
      rw [List.length_map, List.length_range] at h1
      rw [List.getElem_map, List.getElem_range, hsym k (by omega)]
      exact List.getD_eq_getElem _ _ h2
  constructor
  · unfold viterbiDecode
    dsimp only
    rw [traceback_encode _ _ hpairs]
    · exact packBits_bitAt bits
    · unfold softPairs
      rwa [List.length_map, List.length_range]
    · intro p hp
      obtain ⟨t, ht, rfl⟩ := List.mem_map.1 hp
      rw [List.mem_range] at ht
      exact ⟨hne _ (by omega), hne _ (by omega)⟩
    · simp [softPairs]
  · unfold viterbiErrors
    rw [List.countP_eq_zero]
    intro k hk
    rw [List.mem_range] at hk
    simpa using hsym k (by omega)

end InmarsatSniffer.Stdc
