import InmarsatSniffer.Proof.Viterbi

/-!
# The Viterbi decoder is maximum-likelihood

The cost of an input is the distance of the soft symbols from those that `viterbi_encode`
makes of it. It is the cost of a path through the trellis (`encodeCost_eq`), so what
`forwardPass` keeps and `traceback` follows is an input of least cost.

* `Separated`: the path metrics and the sentinels of states that are not reached.
* `viterbiDecode_least`: **the returned metric is the least cost of all inputs, the decoded
  bits attain it, and no metric overflows or meets a sentinel**.
-/

namespace InmarsatSniffer.Stdc

open Trellis

variable {softSyms : ℕ → Int8} {numBits : ℕ} {bits : List UInt8} {xs : List Bool}

/-- The distance of a soft symbol from a code bit, +127 or -127. -/
def symbolCost (soft : Int8) (codeBit : ℕ) : ℕ := (soft.toInt - if codeBit ≠ 0 then 127 else -127).natAbs

/-- The cost of an input: the distances of all symbols from those that it is encoded to. -/
def encodeCost (softSyms : ℕ → Int8) (numBits : ℕ) (bits : List UInt8) : ℕ :=
  ((List.range (2 * numBits)).map fun k => symbolCost (softSyms k) ((viterbiEncode bits numBits).getD k 0)).sum

/-! ## The cost of an input is that of its path -/

theorem foldl_nextState (xs : List Bool) : xs.foldl nextState 0 = endState nextState 0 xs.reverse := by
  induction xs using List.reverseRecOn with
  | nil => rfl
  | append_singleton xs x ih =>
    rw [List.foldl_append, ih, List.reverse_append]
    rfl

theorem viterbiEncode_length (bits : List UInt8) (numBits : ℕ) : (viterbiEncode bits numBits).length = 2 * numBits := by
  unfold viterbiEncode
  rw [encodeLoop_length, List.length_map, List.length_range]

/-- One more bit is encoded to the symbols of its edge. -/
theorem viterbiEncode_succ (bits : List UInt8) (n : ℕ) :
    viterbiEncode bits (n + 1) = viterbiEncode bits n ++
      [(edgeSymbols (endState nextState 0 ((List.range n).map (bitAt bits)).reverse) (bitAt bits n)).1,
        (edgeSymbols (endState nextState 0 ((List.range n).map (bitAt bits)).reverse) (bitAt bits n)).2] := by
  unfold viterbiEncode
  rw [List.range_succ, List.map_append, List.map_singleton, encodeLoop_append]

theorem softPairs_succ (softSyms : ℕ → Int8) (n : ℕ) :
    softPairs softSyms (n + 1) = softPairs softSyms n ++ [(softSyms (2 * n), softSyms (2 * n + 1))] := by
  unfold softPairs
  rw [List.range_succ, List.map_append, List.map_singleton]

theorem softPairs_length (softSyms : ℕ → Int8) (n : ℕ) : (softPairs softSyms n).length = n := by
  unfold softPairs
  rw [List.length_map, List.length_range]

/-- **The cost of an input** is that of its path through the trellis. -/
theorem encodeCost_eq (softSyms : ℕ → Int8) (bits : List UInt8) (n : ℕ) : encodeCost softSyms n bits =
    cost nextState edgeMetric 0 (softPairs softSyms n).reverse ((List.range n).map (bitAt bits)).reverse := by
  induction n with
  | zero => rfl
  | succ n ih =>
    have hlen := viterbiEncode_length bits n
    have hpre : ∀ k ∈ List.range (2 * n), (viterbiEncode bits (n + 1)).getD k 0 = (viterbiEncode bits n).getD k 0 := by
      intro k hk
      rw [List.mem_range] at hk
      rw [viterbiEncode_succ, List.getD_append _ _ _ _ (by omega)]
    have hfirst : (viterbiEncode bits (n + 1)).getD (2 * n) 0 =
        (edgeSymbols (endState nextState 0 ((List.range n).map (bitAt bits)).reverse) (bitAt bits n)).1 := by
      rw [viterbiEncode_succ, List.getD_append_right _ _ _ _ (by omega), hlen, Nat.sub_self]
      rfl
    have hsecond : (viterbiEncode bits (n + 1)).getD (2 * n + 1) 0 =
        (edgeSymbols (endState nextState 0 ((List.range n).map (bitAt bits)).reverse) (bitAt bits n)).2 := by
      rw [viterbiEncode_succ, List.getD_append_right _ _ _ _ (by omega), hlen, Nat.add_sub_cancel_left]
      rfl
    unfold encodeCost at ih ⊢
    rw [show 2 * (n + 1) = 2 * n + 1 + 1 by omega, List.range_succ, List.range_succ, List.map_append, List.map_append,
      List.sum_append, List.sum_append, List.map_singleton, List.map_singleton, List.sum_singleton,
      List.sum_singleton, hfirst, hsecond, List.map_congr_left fun k hk => by rw [hpre k hk], ih, softPairs_succ,
      List.range_succ, List.map_append, List.map_singleton, List.reverse_append, List.reverse_append, Nat.add_assoc]
    rfl

/-! ## Packed bits -/

theorem packByte_bit : ∀ (f : Fin 8 → Bool) (i : Fin 8),
    (((packByte fun k => f (Fin.ofNat 8 k)).toNat >>> (7 - i.val)) &&& 1 == 1) = f i := by
  decide +kernel

theorem packBits_length (xs : List Bool) : (packBits xs).length = (xs.length + 7) / 8 := by
  unfold packBits
  rw [List.length_map, List.length_range]

/-- The bits that are packed are read back. -/
theorem bitAt_packBits {i : ℕ} (hi : i < xs.length) : bitAt (packBits xs) i = xs.getD i false := by
  have hbyte : (packBits xs).getD (i / 8) 0 = packByte fun k => xs.getD (8 * (i / 8) + k) false := by
    unfold packBits
    rw [getD_map_range _ (by omega)]
  have hfin : (packByte fun k => xs.getD (8 * (i / 8) + k) false) =
      packByte fun k => (fun j : Fin 8 => xs.getD (8 * (i / 8) + j) false) (Fin.ofNat 8 k) := by
    apply packByte_congr
    intro k hk
    dsimp only [Fin.ofNat]
    rw [Nat.mod_eq_of_lt hk]
  unfold bitAt
  rw [hbyte, hfin, packByte_bit (fun j : Fin 8 => xs.getD (8 * (i / 8) + j) false) ⟨i % 8, Nat.mod_lt _ (by norm_num)⟩]
  dsimp only
  rw [Nat.div_add_mod]

theorem map_bitAt_packBits (xs : List Bool) : (List.range xs.length).map (bitAt (packBits xs)) = xs := by
  apply List.ext_getElem
  · simp
  · intro i h1 h2
    rw [List.getElem_map, List.getElem_range, bitAt_packBits h2, List.getD_eq_getElem _ _ h2]

/-! ## Metrics and sentinels -/

/-- `path_metric` behind `t` steps of the forward pass. -/
def metricsAt (softSyms : ℕ → Int8) (t : ℕ) : Metrics := (forwardPass (softPairs softSyms t)).1

/-- **Metrics and sentinels** behind `t` steps: a state that an input of `t` bits leads to has a
metric below both of them, and each other state has one of them. -/
structure Separated (softSyms : ℕ → Int8) (t : ℕ) : Prop where
  reached : ∀ xs : List Bool, xs.length = t → (metricsAt softSyms t).get (xs.foldl nextState 0) < 0x7FFFFFFF
  others : ∀ s : Fin viterbiStates, (∀ xs : List Bool, xs.length = t → xs.foldl nextState 0 ≠ s) →
    (metricsAt softSyms t).get s = 0x7FFFFFFF ∨ (metricsAt softSyms t).get s = 0xFFFFFFFF

theorem metricsAt_succ (softSyms : ℕ → Int8) (t : ℕ) : metricsAt softSyms (t + 1) =
    (acsStep (metricsAt softSyms t) (softSyms (2 * t), softSyms (2 * t + 1))).1 := by
  unfold metricsAt
  rw [softPairs_succ, forwardPass_append]

theorem metricsAt_survives (softSyms : ℕ → Int8) {t : ℕ} (h : 510 * t < unreached) :
    Survives nextState edgeMetric 0 (softPairs softSyms t).reverse (fun s => lift ((metricsAt softSyms t).get s))
      ((forwardPass (softPairs softSyms t)).2.map decision) ∧ Bounded (510 * t) (metricsAt softSyms t) := by
  have hsurv := forwardPass_survives (softPairs softSyms t) (by rwa [softPairs_length])
  rwa [softPairs_length] at hsurv

theorem lift_ne_top_iff {k : ℕ} : lift k ≠ ⊤ ↔ k < unreached := by
  unfold lift
  split_ifs with h
  · exact iff_of_true (WithTop.coe_ne_top) h
  · exact iff_of_false (fun hne => hne rfl) h

/-- A metric that is not below the sentinels is one. -/
theorem metricsAt_sentinel {t : ℕ} (h : 510 * t < unreached) {s : Fin viterbiStates}
    (hs : unreached ≤ (metricsAt softSyms t).get s) :
    (metricsAt softSyms t).get s = 0x7FFFFFFF ∨ (metricsAt softSyms t).get s = 0xFFFFFFFF := by
  cases t with
  | zero =>
    have hinit : (metricsAt softSyms 0).get s = if s = 0 then 0 else unreached := by
      show viterbiInit.get s = _
      unfold viterbiInit
      simp
    rw [hinit] at hs ⊢
    split_ifs at hs ⊢ with h0
    · exact absurd hs (by decide)
    · exact Or.inl rfl
  | succ t =>
    have hbound := (metricsAt_survives softSyms (show 510 * t < unreached by omega)).2
    rw [metricsAt_succ] at hs ⊢
    rcases (acsStep_relaxed _ _).attained s with htop | ⟨e, -, hr, -, he, -⟩
    · exact Or.inr htop
    · -- a sum is below the sentinels
      have hpm := hbound e.1 hr
      have hedge := edgeMetric_le (softSyms (2 * t), softSyms (2 * t + 1)) e.1 e.2
      omega

theorem separated (softSyms : ℕ → Int8) {t : ℕ} (h : 510 * t < unreached) : Separated softSyms t where
  reached := fun xs hxs => by
    have hsurv := (metricsAt_survives softSyms h).1
    refine lift_ne_top_iff.1 ((hsurv.reached_iff _).2 ⟨xs.reverse, ?_, (foldl_nextState xs).symm⟩)
    rw [List.length_reverse, List.length_reverse, softPairs_length, hxs]
  others := fun s hs => by
    have hsurv := (metricsAt_survives softSyms h).1
    apply metricsAt_sentinel h
    by_contra hlt
    obtain ⟨ys, hlen, hend⟩ := (hsurv.reached_iff s).1 (lift_ne_top_iff.2 (not_le.1 hlt))
    refine hs ys.reverse ?_ ?_
    · rw [List.length_reverse, hlen, List.length_reverse, softPairs_length]
    · rw [foldl_nextState, List.reverse_reverse, hend]

/-! ## The decoder -/

/-- The best final metric is the one of the best final state. -/
theorem bestFinal_metric (softSyms : ℕ → Int8) (h : 510 * numBits < unreached) :
    (bestFinal (metricsAt softSyms numBits)).1 =
      (metricsAt softSyms numBits).get (bestFinal (metricsAt softSyms numBits)).2 ∧
    (bestFinal (metricsAt softSyms numBits)).1 < unreached := by
  have hbest := bestFinal_best (metricsAt softSyms numBits)
  have hle := hbest.le ((List.replicate numBits false).foldl nextState 0) (List.mem_finRange _)
  have hreached := (separated softSyms h).reached (List.replicate numBits false) List.length_replicate
  have hunr := unreached_eq
  rcases hbest.attained with htop | hval
  · omega
  · exact ⟨hval, by omega⟩

/-- The traceback gives the path to the best final state, packed. -/
theorem viterbiDecode_eq (softSyms : ℕ → Int8) (numBits : ℕ) : viterbiDecode softSyms numBits =
    (packBits (trace ((forwardPass (softPairs softSyms numBits)).2.map decision)
      (bestFinal (metricsAt softSyms numBits)).2).reverse, (bestFinal (metricsAt softSyms numBits)).1) := by
  unfold viterbiDecode metricsAt
  dsimp only
  rw [traceback_eq, List.append_nil]

/-- **The decoder is maximum-likelihood**: it returns the least cost of all inputs, its bits
attain it, and on the way no metric overflows or meets a sentinel. -/
theorem viterbiDecode_least (softSyms : ℕ → Int8) (numBits : ℕ) (hsize : 510 * numBits < 2 ^ 31 - 1) :
    IsLeast {k | ∃ bits : List UInt8, bits.length = (numBits + 7) / 8 ∧ k = encodeCost softSyms numBits bits}
      (viterbiDecode softSyms numBits).2 ∧
    (viterbiDecode softSyms numBits).1.length = (numBits + 7) / 8 ∧
    encodeCost softSyms numBits (viterbiDecode softSyms numBits).1 = (viterbiDecode softSyms numBits).2 ∧
    (∀ t ≤ numBits, Separated softSyms t) ∧
    ∀ t < numBits, ∀ (s : Fin viterbiStates) (bit : Bool), (metricsAt softSyms t).get s < 0x7FFFFFFF →
      (metricsAt softSyms t).get s + edgeMetric (softSyms (2 * t), softSyms (2 * t + 1)) s bit < 0x7FFFFFFF := by
  obtain ⟨hsurv, -⟩ := metricsAt_survives softSyms hsize
  obtain ⟨hval, hlt⟩ := bestFinal_metric softSyms hsize
  have hbest := bestFinal_le (metricsAt softSyms numBits)
  rw [viterbiDecode_eq]
  generalize bestFinal (metricsAt softSyms numBits) = best at *
  have hreached : (metricsAt softSyms numBits).get best.2 < unreached := by
    rw [← hval]
    exact hlt
  obtain ⟨hlen, -, -⟩ := hsurv.trace best.2 (lift_ne_top_iff.2 hreached)
  obtain ⟨hcost, hleast⟩ := hsurv.isLeast hbest (lift_ne_top_iff.2 hreached)
  generalize trace ((forwardPass (softPairs softSyms numBits)).2.map decision) best.2 = path at *
  rw [List.length_reverse, softPairs_length] at hlen
  have hread : (List.range numBits).map (bitAt (packBits path.reverse)) = path.reverse := by
    have hmap := map_bitAt_packBits path.reverse
    rwa [List.length_reverse, hlen] at hmap
  have hdecoded : encodeCost softSyms numBits (packBits path.reverse) = best.1 := by
    rw [encodeCost_eq, hread, List.reverse_reverse, hval]
    unfold lift at hcost
    rw [if_pos hreached] at hcost
    exact WithTop.coe_injective hcost
  have hlength : (packBits path.reverse).length = (numBits + 7) / 8 := by
    rw [packBits_length, List.length_reverse, hlen]
  have hunr := unreached_eq
  refine ⟨⟨⟨_, hlength, hdecoded.symm⟩, ?_⟩, hlength, hdecoded, fun t ht => ?_, fun t ht s bit hs => ?_⟩
  · rintro _ ⟨bits, -, rfl⟩
    rw [← hdecoded, encodeCost_eq, encodeCost_eq, hread, List.reverse_reverse]
    apply hleast
    simp [softPairs_length]
  · exact separated softSyms (by omega)
  · have hpm := (metricsAt_survives softSyms (show 510 * t < unreached by omega)).2 s hs
    have hedge := edgeMetric_le (softSyms (2 * t), softSyms (2 * t + 1)) s bit
    omega

/-- Symbols of which none is sure, and their last pair says one thing and the other. -/
def faintSyms (k : ℕ) : Int8 := if k = 5 then -3 else 9

/-- **Three faint pairs**: the nearest symbols are those of the input 1 1 0. -/
theorem faintSyms_least :
    IsLeast {k | ∃ bits : List UInt8, bits.length = 1 ∧ k = encodeCost faintSyms 3 bits} 732 ∧
      (viterbiDecode faintSyms 3).1 = [0xC0] := by
  have hval : viterbiDecode faintSyms 3 = ([0xC0], 732) := by decide +kernel
  have h := viterbiDecode_least faintSyms 3 (by norm_num)
  rw [hval] at h
  exact ⟨h.1, by rw [hval]⟩

end InmarsatSniffer.Stdc
