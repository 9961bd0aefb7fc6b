import Mathlib
import InmarsatSniffer.Spec.Jfft

/-!
# `JFastFir`

Filtering by the transforms of `jfft.cpp`, block by block, the ends of the blocks overlapping. A `std::vector`
is its size and the function of its indices. A failed assertion is `none`.
-/

namespace InmarsatSniffer.Fft

/-- `std::vector`. -/
structure Vec (K : Type) where
  size : ℕ
  data : ℕ → K

variable {K : Type} [Field K]

/-- `resize(n, 0)`. -/
def Vec.resize (v : Vec K) (n : ℕ) : Vec K := ⟨n, fun i => if i < v.size then v.data i else 0⟩

/-- `JFFT::fft` and `JFFT::ifft` of a vector. -/
def JFFT.fftVec (cis : ℚ → K) (f : JFFT K) (x : Vec K) (direction : Direction) : Option (JFFT K × Vec K) :=
  let (f, x) :=
    if x.size ≠ f.nfft then
      let f := f.init cis x.size
      (f, x.resize f.nfft)
    else (f, x)
  (f.fft x.data x.size direction).map fun y => (f, { x with data := y })

/-- `JFastFir`, but for the buffers of real signals. -/
structure JFastFir (K : Type) where
  fft : JFFT K
  kernel : Vec K
  sigspace : Vec K
  remainder : Vec K
  kernelNonZeroSize : ℕ
  remainderSize : ℕ
  signalNonZeroSize : ℕ
  sigspacePtr : ℕ
  nfft : ℕ

/-- `JFastFir::JFastFir`. -/
def JFastFir.create : JFastFir K :=
  ⟨.create, ⟨0, fun _ => 0⟩, ⟨0, fun _ => 0⟩, ⟨0, fun _ => 0⟩, 0, 0, 0, 0, 0⟩

/-- `JFastFir::SetKernel`; a negative size of the remainder throws. -/
def JFastFir.setKernel (cis : ℚ → K) (f : JFastFir K) (kernel : Vec K) (approxFftSize : ℤ) : Option (JFastFir K) :=
  let approxFftSize := if approxFftSize ≤ 0 then 4 * (kernel.size : ℤ) else approxFftSize
  let nfft := (sizeLoop approxFftSize 1 0).1
  let signalNonZeroSize : ℤ := nfft + 1 - kernel.size
  let remainderSize : ℤ := nfft - signalNonZeroSize
  if remainderSize < 0 ∨ signalNonZeroSize < remainderSize then none
  else (f.fft.fftVec cis (kernel.resize nfft) .forward).map fun (fft, freq) =>
    { fft := fft
      kernel := freq
      sigspace := f.sigspace.resize nfft
      remainder := f.remainder.resize remainderSize.toNat
      kernelNonZeroSize := kernel.size
      remainderSize := remainderSize.toNat
      signalNonZeroSize := signalNonZeroSize.toNat
      sigspacePtr := 0
      nfft := nfft }

/-- The multiplication in the frequency domain, between the transforms. -/
def JFastFir.convolution (cis : ℚ → K) (f : JFastFir K) : Option (JFastFir K) := do
  let (fft, freq) ← f.fft.fftVec cis f.sigspace .forward
  let product := (List.range f.nfft).foldl (fun x k => Function.update x k (x k * f.kernel.data k)) freq.data
  let (fft, sigspace) ← fft.fftVec cis { freq with data := product } .inverse
  pure { f with fft := fft, sigspace := sigspace }

/-- One round of the loop that deals with the overlap. -/
def overlapStep (N : ℕ) (s : (ℕ → K) × (ℕ → K)) (k : ℕ) : (ℕ → K) × (ℕ → K) :=
  let (sigspace, remainder) := s
  let sigspace := Function.update sigspace k (sigspace k + remainder k)
  let remainder := Function.update remainder k (sigspace (k + N))
  (Function.update sigspace (k + N) 0, remainder)

/-- The overlap, in one loop. -/
def overlap (N size : ℕ) (sigspace remainder : ℕ → K) : (ℕ → K) × (ℕ → K) :=
  (List.range size).foldl (overlapStep N) (sigspace, remainder)

/-- The overlap of `update_easy_to_understand`, in three loops. -/
def overlapEasy (N size : ℕ) (sigspace remainder : ℕ → K) : (ℕ → K) × (ℕ → K) :=
  let sigspace := (List.range size).foldl (fun x k => Function.update x k (x k + remainder k)) sigspace
  let remainder := (List.range size).foldl (fun r k => Function.update r k (sigspace (k + N))) remainder
  ((List.range size).foldl (fun x k => Function.update x (k + N) 0) sigspace, remainder)

/-- The block is full: it is filtered, and the next one starts. -/
def JFastFir.turn (cis : ℚ → K) (overlap : ℕ → ℕ → (ℕ → K) → (ℕ → K) → (ℕ → K) × (ℕ → K)) (f : JFastFir K) : Option (JFastFir K) :=
  (f.convolution cis).map fun f =>
    let (sigspace, remainder) := overlap f.signalNonZeroSize f.remainderSize f.sigspace.data f.remainder.data
    { f with
      sigspace := { f.sigspace with data := sigspace }
      remainder := { f.remainder with data := remainder }
      sigspacePtr := 0 }

/-- The old value comes out, the new one goes in. -/
def JFastFir.exchange (f : JFastFir K) (inVal : K) : JFastFir K × K :=
  let outVal := f.sigspace.data f.sigspacePtr
  ({ f with
      sigspace := { f.sigspace with data := Function.update f.sigspace.data f.sigspacePtr inVal }
      sigspacePtr := f.sigspacePtr + 1 }, outVal)

/-- `JFastFir::update`, with the loop for the overlap. -/
def JFastFir.updateWith (cis : ℚ → K) (overlap : ℕ → ℕ → (ℕ → K) → (ℕ → K) → (ℕ → K) × (ℕ → K)) (f : JFastFir K) (inVal : K) :
    Option (JFastFir K × K) :=
  if f.sigspacePtr ≥ f.signalNonZeroSize then
    if f.signalNonZeroSize ≤ 0 then some (f, inVal)
    else (f.turn cis overlap).map fun f => f.exchange inVal
  else some (f.exchange inVal)

/-- `JFastFir::update`. -/
def JFastFir.update (cis : ℚ → K) : JFastFir K → K → Option (JFastFir K × K) := JFastFir.updateWith cis overlap

/-- `JFastFir::update_easy_to_understand`. -/
def JFastFir.updateEasyToUnderstand (cis : ℚ → K) : JFastFir K → K → Option (JFastFir K × K) := JFastFir.updateWith cis overlapEasy

/-- `JFastFir::update` of a buffer, from sample `i` on. -/
def JFastFir.updateBuffer (update : JFastFir K → K → Option (JFastFir K × K)) (f : JFastFir K) (buffer : ℕ → K) (size i : ℕ) :
    Option (JFastFir K × (ℕ → K)) :=
  if i < size then
    match update f (buffer i) with
    | none => none
    | some (f, outVal) => f.updateBuffer update (Function.update buffer i outVal) size (i + 1)
  else some (f, buffer)
termination_by size - i

/-- `memcpy` of `n` elements. -/
def memcpy (dst : ℕ → K) (pos : ℕ) (src : ℕ → K) (start n : ℕ) : ℕ → K :=
  fun i => if pos ≤ i ∧ i < pos + n then src (start + (i - pos)) else dst i

/-- As many samples as fit are exchanged. -/
def JFastFir.copyOver (f : JFastFir K) (buffer : ℕ → K) (samplesProcessed number : ℕ) : JFastFir K × (ℕ → K) :=
  let tmpSpace := memcpy (fun _ => 0) 0 buffer samplesProcessed number
  ({ f with
      sigspace := { f.sigspace with data := memcpy f.sigspace.data f.sigspacePtr tmpSpace 0 number }
      sigspacePtr := f.sigspacePtr + number }, memcpy buffer samplesProcessed f.sigspace.data f.sigspacePtr number)

/-- The loop of `JFastFir::update_block`. -/
def JFastFir.updateBlock (cis : ℚ → K) (f : JFastFir K) (buffer : ℕ → K) (size samplesProcessed : ℕ) : Option (JFastFir K × (ℕ → K)) :=
  if samplesProcessed < size then
    if f.sigspacePtr ≥ f.signalNonZeroSize ∧ f.signalNonZeroSize ≤ 0 then some (f, buffer)
    else
      match (if f.sigspacePtr ≥ f.signalNonZeroSize then f.turn cis overlap else some f) with
      | none => none
      | some f =>
        let number := min (f.signalNonZeroSize - f.sigspacePtr) (size - samplesProcessed)
        let (f, buffer) := f.copyOver buffer samplesProcessed number
        -- a loop that does not move on does not end
        if 0 < number then f.updateBlock cis buffer size (samplesProcessed + number) else none
  else some (f, buffer)
termination_by size - samplesProcessed

/-- The ways to filter a buffer. -/
inductive Method where
  | update
  | updateEasyToUnderstand
  | updateBlock

def JFastFir.process (cis : ℚ → K) (f : JFastFir K) (buffer : ℕ → K) (size : ℕ) : Method → Option (JFastFir K × (ℕ → K))
  | .update => f.updateBuffer (JFastFir.update cis) buffer size 0
  | .updateEasyToUnderstand => f.updateBuffer (JFastFir.updateEasyToUnderstand cis) buffer size 0
  | .updateBlock => f.updateBlock cis buffer size 0

/-- Calls with buffers of a signal from sample `t` on, and all that comes out. -/
def JFastFir.runCalls (cis : ℚ → K) (signal : ℕ → K) : JFastFir K → ℕ → List (Method × ℕ) → Option (List K)
  | _, _, [] => some []
  | f, t, (method, size) :: calls => do
    let (f, buffer) ← f.process cis (fun i => signal (t + i)) size method
    let rest ← f.runCalls cis signal (t + size) calls
    pure ((List.range size).map buffer ++ rest)

end InmarsatSniffer.Fft
