import Mathlib

/-!
# The Viterbi codec

Rate 1/2, constraint length 7. The decoder keeps a path metric for each of the 64
states and, step by step, how each state was reached; `viterbiDecode` traces the best
final state back to the start. Metrics are `uint32_t`, soft symbols `int8_t`.
-/

namespace InmarsatSniffer.Stdc

/-- `VITERBI_STATES`. -/
abbrev viterbiStates : ℕ := 64

/-- `path_metric`, and a row of `path_history`. -/
abbrev Metrics := Vector ℕ viterbiStates

/-- The metric from which on a state counts as not reached. -/
abbrev unreached : ℕ := 0x7FFFFFFF

/-- `parity` of a register of seven bits. -/
def parity (x : ℕ) : ℕ :=
  let x := x ^^^ (x >>> 4)
  let x := x ^^^ (x >>> 2)
  let x := x ^^^ (x >>> 1)
  x &&& 1

/-- `encode_sym`: the symbol pair `(g1 << 1) | g2`. -/
def encodeSym (state : Fin viterbiStates) (inputBit : Bool) : ℕ :=
  let reg := (inputBit.toNat <<< 6) ||| state
  (parity (reg &&& 0x6D) <<< 1) ||| parity (reg &&& 0x4F)

/-- `(state >> 1) | (bit << (K - 2))`. -/
def nextState (state : Fin viterbiStates) (bit : Bool) : Fin viterbiStates :=
  Fin.ofNat viterbiStates ((state >>> 1) ||| (bit.toNat <<< 5))

/-- `viterbi_init`: the path metrics at the start. -/
def viterbiInit : Metrics := Vector.ofFn fun i => if i = 0 then 0 else unreached

/-- `branch_metric` of the soft symbols `s0`, `s1`. -/
def branchMetric (s0 s1 : Int8) (expG1 expG2 : ℕ) : ℕ :=
  let e1 : ℤ := if expG1 ≠ 0 then 127 else -127
  let e2 : ℤ := if expG2 ≠ 0 then 127 else -127
  (s0.toInt - e1).natAbs + (s1.toInt - e2).natAbs

/-- The branch metric of input `bit` in state `s`, against a received pair. -/
def edgeMetric (soft : Int8 × Int8) (s : Fin viterbiStates) (bit : Bool) : ℕ :=
  let expected := encodeSym s bit
  branchMetric soft.1 soft.2 ((expected >>> 1) &&& 1) (expected &&& 1)

/-- The body of the two inner loops of `viterbi_decode`: `acc` is `path_metric_new` and
the history row. -/
def relax (metrics : Metrics) (soft : Int8 × Int8) (acc : Metrics × Metrics) (edge : Fin viterbiStates × Bool) :
    Metrics × Metrics :=
  let s := edge.1
  let bit := edge.2
  if metrics.get s ≥ unreached then acc
  else
    let next := nextState s bit
    let pm := (metrics.get s + edgeMetric soft s bit) % 2 ^ 32
    if pm < acc.1.get next then
      (acc.1.set next pm next.isLt, acc.2.set next ((s.val <<< 1) ||| bit.toNat) next.isLt)
    else acc

/-- The order of the two inner loops. -/
def edges : List (Fin viterbiStates × Bool) := (List.finRange viterbiStates).flatMap fun s => [(s, false), (s, true)]

/-- One step of the forward pass. -/
def acsStep (metrics : Metrics) (soft : Int8 × Int8) : Metrics × Metrics :=
  edges.foldl (relax metrics soft) (Vector.replicate viterbiStates 0xFFFFFFFF, Vector.replicate viterbiStates 0)

/-- The forward pass: the final metrics, and the history rows with the last step first. -/
def forwardPass (softs : List (Int8 × Int8)) : Metrics × List Metrics :=
  softs.foldl (fun st soft => ((acsStep st.1 soft).1, (acsStep st.1 soft).2 :: st.2)) (viterbiInit, [])

/-- The better of the best metric so far and that of state `s`. -/
def better (metrics : Metrics) (best : ℕ × Fin viterbiStates) (s : Fin viterbiStates) : ℕ × Fin viterbiStates :=
  if metrics.get s < best.1 then (metrics.get s, s) else best

/-- The best final metric and state. -/
def bestFinal (metrics : Metrics) : ℕ × Fin viterbiStates :=
  (List.finRange viterbiStates).foldl (better metrics) (0xFFFFFFFF, 0)

/-- The state and the bit that a history row holds for a state. -/
def decision (row : Metrics) (n : Fin viterbiStates) : Fin viterbiStates × Bool :=
  (Fin.ofNat viterbiStates (row.get n >>> 1), row.get n &&& 1 == 1)

/-- The traceback loop: `decoded` holds the bits behind the rows that are left. -/
def traceback : List Metrics → Fin viterbiStates → List Bool → List Bool
  | [], _, decoded => decoded
  | row :: rows, state, decoded =>
    let entry := row.get state
    traceback rows (Fin.ofNat viterbiStates (entry >>> 1)) ((entry &&& 1 == 1) :: decoded)

/-- Eight bits in a byte, the first in the highest place. -/
def packByte (bits : ℕ → Bool) : UInt8 :=
  (List.range 8).foldl (fun b i => if bits i then b ||| UInt8.ofNat (0x80 >>> i) else b) 0

/-- Bits packed into bytes, `bits_out[i / 8] |= 0x80 >> (i % 8)`. -/
def packBits (decoded : List Bool) : List UInt8 :=
  (List.range ((decoded.length + 7) / 8)).map fun j => packByte fun i => decoded.getD (8 * j + i) false

/-- The symbol pairs of `soft_syms`. -/
def softPairs (softSyms : ℕ → Int8) (numBits : ℕ) : List (Int8 × Int8) :=
  (List.range numBits).map fun t => (softSyms (2 * t), softSyms (2 * t + 1))

/-- `viterbi_decode`: the bits, and the best metric. -/
def viterbiDecode (softSyms : ℕ → Int8) (numBits : ℕ) : List UInt8 × ℕ :=
  let fwd := forwardPass (softPairs softSyms numBits)
  let best := bestFinal fwd.1
  (packBits (traceback fwd.2 best.2 []), best.1)

/-- Bit `i` of packed bits, `(bits[i / 8] >> (7 - i % 8)) & 1`. -/
def bitAt (bits : List UInt8) (i : ℕ) : Bool := ((bits.getD (i / 8) 0).toNat >>> (7 - i % 8)) &&& 1 == 1

/-- The loop of `viterbi_encode`: the symbols of the bits from `state` on. -/
def encodeLoop : Fin viterbiStates → List Bool → List ℕ
  | _, [] => []
  | state, bit :: bits =>
    let sym := encodeSym state bit
    ((sym >>> 1) &&& 1) :: (sym &&& 1) :: encodeLoop (nextState state bit) bits

/-- `viterbi_encode`. -/
def viterbiEncode (bits : List UInt8) (numBits : ℕ) : List ℕ := encodeLoop 0 ((List.range numBits).map (bitAt bits))

/-- The hard decision of a soft symbol, `soft > 0`. -/
def hardBit (v : Int8) : ℕ := if 0 < v.toInt then 1 else 0

/-- `viterbi_ber`: the number of symbol errors, out of `2 * num_bits`. -/
def viterbiErrors (bits : List UInt8) (numBits : ℕ) (softSyms : ℕ → Int8) : ℕ :=
  let syms := viterbiEncode bits numBits
  (List.range (2 * numBits)).countP fun i => hardBit (softSyms i) ≠ syms.getD i 0

end InmarsatSniffer.Stdc
