import Mathlib
import InmarsatSniffer.Lib.Dft

/-!
# `JFFT`

The complex transforms of `jfft.cpp` in exact arithmetic: elements are of a field `K`, and `cis q` stands for
`std::exp(2.0 * imag * M_PI * q)`. An array is the function of its indices. Sizes are `int`s that do not
overflow, so transforms have at most `2 ^ 30` elements.
-/

namespace InmarsatSniffer.Fft

variable {K : Type} [Field K]

/-- `fft_direction_t`. -/
inductive Direction where
  | forward
  | inverse
  deriving DecidableEq

/-- `JFFT`, but for the factors of the real transforms. -/
structure JFFT (K : Type) where
  nfft2power : ℕ
  nfft : ℕ
  twiddleMem : ℕ → K
  twiddleInvMem : ℕ → K

/-- `JFFT::JFFT`. -/
def JFFT.create : JFFT K := ⟨0, 0, fun _ => 0, fun _ => 0⟩

/-! ## The tables -/

/-- `while(nfft < fft_size)` of `init`. -/
def sizeLoop (fftSize : ℤ) (nfft nfft2power : ℕ) : ℕ × ℕ :=
  if 0 < nfft ∧ (nfft : ℤ) < fftSize then sizeLoop fftSize (nfft <<< 1) (nfft2power + 1) else (nfft, nfft2power)
termination_by (fftSize - nfft).toNat
decreasing_by
  rw [Nat.shiftLeft_eq]
  omega

/-- The twiddles of the stage with `N` elements to a block, from index `w` on. -/
def twiddleStage (cis : ℚ → K) (sign : ℚ) (N : ℕ) (s : (ℕ → K) × ℕ) : (ℕ → K) × ℕ :=
  (List.range (N / 2)).foldl (fun (twiddle, w) (i : ℕ) => (Function.update twiddle w (cis (sign * i / N)), w + 1)) s

/-- `for(int N=2;N<=nfft;N<<=1)` of `init`, for one of the two tables. -/
def twiddleLoop (cis : ℚ → K) (sign : ℚ) (nfft N : ℕ) (s : (ℕ → K) × ℕ) : (ℕ → K) × ℕ :=
  if 0 < N ∧ N ≤ nfft then twiddleLoop cis sign nfft (N <<< 1) (twiddleStage cis sign N s) else s
termination_by nfft + 1 - N
decreasing_by
  rw [Nat.shiftLeft_eq]
  omega

/-- `JFFT::init`; `fft_size` becomes the size of the transform. -/
def JFFT.init (cis : ℚ → K) (f : JFFT K) (fftSize : ℤ) : JFFT K :=
  let (nfft, nfft2power) := sizeLoop fftSize 1 0
  { nfft2power := nfft2power
    nfft := nfft
    twiddleMem := (twiddleLoop cis (-1) nfft 2 (f.twiddleMem, 0)).1
    twiddleInvMem := (twiddleLoop cis 1 nfft 2 (f.twiddleInvMem, 0)).1 }

/-- The twiddles of a direction. -/
def JFFT.twiddle (f : JFFT K) : Direction → ℕ → K
  | .forward => f.twiddleMem
  | .inverse => f.twiddleInvMem

/-! ## Bit reversal -/

/-- `swap`. -/
def swap (x : ℕ → K) (a b : ℕ) : ℕ → K := Function.update (Function.update x b (x a)) a (x b)

/-- The place of element `i`, in 32 bits: pairs of bits are swapped, then pairs of pairs, and so on. -/
def reverse32 (nfft2power : ℕ) (i : UInt32) : UInt32 :=
  let y := i
  let y := ((y &&& 0xaaaaaaaa) >>> 1) ||| ((y &&& 0x55555555) <<< 1)
  let y := ((y &&& 0xcccccccc) >>> 2) ||| ((y &&& 0x33333333) <<< 2)
  let y := ((y &&& 0xf0f0f0f0) >>> 4) ||| ((y &&& 0x0f0f0f0f) <<< 4)
  let y := ((y &&& 0xff00ff00) >>> 8) ||| ((y &&& 0x00ff00ff) <<< 8)
  ((y >>> 16) ||| (y <<< 16)) >>> UInt32.ofNat (32 - nfft2power)

/-- The place of element `i` in `fft_easy_to_understand`, bit by bit. -/
def reverseBits (nfft2power i : ℕ) : ℕ :=
  ((List.range nfft2power).foldl (fun (ti, ti2) _ => (ti >>> 1, (ti2 <<< 1) ||| (ti &&& 1))) (i, 0)).2

/-- The loop over all elements, which swaps each pair once. -/
def permute (place : ℕ → ℕ) (nfft : ℕ) (x : ℕ → K) : ℕ → K :=
  (List.range nfft).foldl (fun x i => if place i > i then swap x i (place i) else x) x

/-! ## Butterflies -/

/-- The loop of a stage of `fft`, with the indices that its pointers stand for. -/
def pass (twiddle : ℕ → K) (nfft n nfill : ℕ) (k xk xl w : ℕ) (x : ℕ → K) : ℕ → K :=
  if k < nfft then
    let y := twiddle w * x xl
    let x := Function.update x xl (x xk - y)
    let x := Function.update x xk (x xk + y)
    if (k + 1) &&& nfill ≠ 0 then pass twiddle nfft n nfill (k + 1) (xk + 1) (xl + 1) (w + 1) x
    else pass twiddle nfft n nfill (k + 1 + n) (xk + 1 + n) (xl + 1 + n) (n - 1) x
  else x
termination_by nfft - k

/-- `for(int n=1;n<nfft;n<<=1)` of `fft`. -/
def stages (twiddle : ℕ → K) (nfft n nfill : ℕ) (x : ℕ → K) : ℕ → K :=
  if 0 < n ∧ n < nfft then
    stages twiddle nfft (n <<< 1) ((nfill <<< 1) ||| 1) (pass twiddle nfft n nfill 0 0 n (n - 1) x)
  else x
termination_by nfft - n
decreasing_by
  rw [Nat.shiftLeft_eq]
  omega

/-- The loop of a stage of `fft_easy_to_understand`. -/
def passEasy (twiddle : ℕ → K) (nfft n : ℕ) (k l w : ℕ) (x : ℕ → K) : ℕ → K :=
  if k < nfft then
    let y := x k - twiddle w * x l
    let x := Function.update x k (x k + twiddle w * x l)
    let x := Function.update x l y
    if (k + 1) % n = 0 then passEasy twiddle nfft n (k + 1 + n) (l + 1 + n) (n - 1) x
    else passEasy twiddle nfft n (k + 1) (l + 1) (w + 1) x
  else x
termination_by nfft - k

/-- `for(int n=1;n<nfft;n<<=1)` of `fft_easy_to_understand`. -/
def stagesEasy (twiddle : ℕ → K) (nfft n : ℕ) (x : ℕ → K) : ℕ → K :=
  if 0 < n ∧ n < nfft then stagesEasy twiddle nfft (n <<< 1) (passEasy twiddle nfft n 0 n (n - 1) x) else x
termination_by nfft - n
decreasing_by
  rw [Nat.shiftLeft_eq]
  omega

/-- The scaling of the inverse transforms. -/
def scaled (nfft : ℕ) (x : ℕ → K) : Direction → ℕ → K
  | .forward => x
  | .inverse => (List.range nfft).foldl (fun x i => Function.update x i (x i * (1 / nfft))) x

/-- `JFFT::fft`; nothing when the assertion fails. -/
def JFFT.fft (f : JFFT K) (x : ℕ → K) (size : ℕ) (direction : Direction) : Option (ℕ → K) :=
  if size = f.nfft then
    let x := permute (fun i => (reverse32 f.nfft2power (UInt32.ofNat i)).toNat) f.nfft x
    some (scaled f.nfft (stages (f.twiddle direction) f.nfft 1 0 x) direction)
  else none

/-- `JFFT::fft_easy_to_understand`. -/
def JFFT.fftEasyToUnderstand (f : JFFT K) (x : ℕ → K) (size : ℕ) (direction : Direction) : Option (ℕ → K) :=
  if size = f.nfft then
    let x := permute (reverseBits f.nfft2power) f.nfft x
    some (scaled f.nfft (stagesEasy (f.twiddle direction) f.nfft 1 x) direction)
  else none

/-- `JFFT::sft`, with its table of powers. -/
def sft (cis : ℚ → K) (x : ℕ → K) (size : ℕ) (direction : Direction) : ℕ → K :=
  let W : K := match direction with
    | .forward => cis (-1 / size)
    | .inverse => cis (1 / size)
  let Wf : ℕ → K := fun i => W ^ i
  let F : ℕ → K := fun n => (List.range size).foldl (fun acc k => acc + x k * Wf (n * k % size)) 0
  match direction with
  | .forward => fun i => if i < size then F i else x i
  | .inverse => fun i => if i < size then F i * (1 / size) else x i

/-! ## Real transforms -/

section Real

open Complex ComplexConjugate

/-- `JFFT`, with the factors of the real transforms. -/
structure RealJFFT extends JFFT ℂ where
  diddleA : ℕ → ℂ
  diddleB : ℕ → ℂ

/-- `JFFT::JFFT`. -/
noncomputable def RealJFFT.create : RealJFFT := ⟨.create, fun _ => 0, fun _ => 0⟩

/-- `JFFT::init`, with the loop for the factors. -/
noncomputable def RealJFFT.init (cis : ℚ → ℂ) (f : RealJFFT) (fftSize : ℤ) : RealJFFT :=
  let g := f.toJFFT.init cis fftSize
  let diddles := (List.range g.nfft).foldl (fun (a, b) (i : ℕ) =>
    (Function.update a i (0.5 * (1.0 - I * cis (-1 * i / (2 * g.nfft)))), Function.update b i (0.5 * (1.0 + I * cis (-1 * i / (2 * g.nfft))))))
    (f.diddleA, f.diddleB)
  ⟨g, diddles.1, diddles.2⟩

/-- `JFFT::fft_real`. -/
noncomputable def RealJFFT.fftReal (f : RealJFFT) (real : ℕ → ℝ) (complex : ℕ → ℂ) (size : ℕ) : Option (ℕ → ℂ) :=
  let NpN := f.nfft <<< 1
  if size = NpN then
    -- the real data is split into real and imaginary
    (f.fft (fun i => ⟨real (2 * i), real (2 * i + 1)⟩) f.nfft .forward).map fun F =>
      let complex := Function.update complex 0 (F 0 * f.diddleA 0 + f.diddleB 0 * conj (F 0))
      let complex := Function.update complex f.nfft (F 0 * f.diddleB 0 + f.diddleA 0 * conj (F 0))
      (List.range' 1 (f.nfft - 1)).foldl (fun complex i =>
        let complex := Function.update complex i (F i * f.diddleA i + f.diddleB i * conj (F (f.nfft - i)))
        Function.update complex (NpN - i) (conj (complex i))) complex
  else none

/-- `JFFT::ifft_real`. -/
noncomputable def RealJFFT.ifftReal (f : RealJFFT) (complex : ℕ → ℂ) (real : ℕ → ℝ) (size : ℕ) : Option (ℕ → ℝ) :=
  if size = f.nfft <<< 1 then
    (f.fft (fun i => complex i * conj (f.diddleA i) + conj (f.diddleB i) * conj (complex (f.nfft - i))) f.nfft .inverse).map fun F =>
      (List.range f.nfft).foldl (fun real i => Function.update (Function.update real (2 * i) (F i).re) (2 * i + 1) (F i).im) real
  else none

end Real

end InmarsatSniffer.Fft
