import Mathlib
import InmarsatSniffer.Lib.Kernel
import InmarsatSniffer.Lib.Lanes

/-!
# The kernels

The kernels of `simd_generic.c` and their versions for AVX2, SSE4.2 and NEON, in exact
arithmetic. Arrays are functions of an index, a `float complex` array by its floats. Indices
are exact too: `int`s that do not overflow. A kernel's output lies in no array that it reads.
-/

namespace InmarsatSniffer.Simd

open Kernel
open Lanes

/-- The arrays that are read. -/
inductive Arr where
  | taps
  | input
  | samples
  | window
  | fftOut
  | iq
  deriving DecidableEq

variable {R : Type} [Field R]

/-- What a kernel does. -/
abbrev Run (R α : Type) := Logged (Event Arr R) α

/-! ## Complex elements -/

/-- An element of a `float complex` array: two floats. -/
def loadC (a : Arr) (mem : ℤ → R) (i : ℤ) : Run R (R × R) := do
  let re ← load a mem (2 * i)
  let im ← load a mem (2 * i + 1)
  pure (re, im)

def storeC (i : ℤ) (z : R × R) : Run R Unit := do
  store (2 * i) z.1
  store (2 * i + 1) z.2

/-- A `float` times a `float complex`. -/
def scale (t : R) (z : R × R) : R × R := (t * z.1, t * z.2)

/-- `I`. -/
def imagUnit : R × R := (0, 1)

/-! ## Generic -/

/-- Output `i` of the generic complex filters, from element `p` of the input on. -/
def firCcfTurn (taps : ℤ → R) (ntaps : ℤ) (input : ℤ → R) (p : ℤ) (i : ℕ) : Run R Unit := do
  let (_, acc) ← forLoop 0 ntaps (fun k acc => do
    let t ← load .taps taps k
    let x ← loadC .input input (p + k)
    pure (acc + scale t x)) 0 (0 : R × R)
  storeC i acc

/-- `generic_fir_ccf`. -/
def genericFirCcf (taps : ℤ → R) (ntaps : ℤ) (input : ℤ → R) (n : ℤ) : Run R Unit :=
  plainLoop n fun i => firCcfTurn taps ntaps input i i

/-- `generic_fir_ccf_dec`. -/
def genericFirCcfDec (taps : ℤ → R) (ntaps : ℤ) (input : ℤ → R) (nOut decimation : ℤ) : Run R Unit :=
  plainLoop nOut fun i => firCcfTurn taps ntaps input (i * decimation) i

/-- One output of `generic_fir_fff`, and of the scalar tails of the other versions. -/
def firFffTurn (taps : ℤ → R) (ntaps : ℤ) (input : ℤ → R) (i : ℕ) : Run R Unit := do
  let (_, acc) ← forLoop 0 ntaps (fun k acc => do
    let t ← load .taps taps k
    let x ← load .input input (i + k)
    pure (acc + t * x)) 0 (0 : R)
  store i acc

/-- `generic_fir_fff`. -/
def genericFirFff (taps : ℤ → R) (ntaps : ℤ) (input : ℤ → R) (n : ℤ) : Run R Unit :=
  plainLoop n (firFffTurn taps ntaps input)

/-- One output of `generic_window_cf`, and of the scalar tails of the other versions. -/
def windowCfTurn (samples window : ℤ → R) (i : ℕ) : Run R Unit := do
  let x ← loadC .samples samples i
  let w ← load .window window i
  storeC i (scale w x)

/-- `generic_window_cf`. -/
def genericWindowCf (samples window : ℤ → R) (n : ℤ) : Run R Unit := plainLoop n (windowCfTurn samples window)

/-- One turn of `generic_fftshift_mag`, and of the scalar tails of the other versions. -/
def fftshiftMagTurn (fftOut : ℤ → R) (half : ℤ) (i : ℕ) : Run R Unit := do
  let re := (← loadC .fftOut fftOut (half + i)).1
  let im := (← loadC .fftOut fftOut (half + i)).2
  store i (re * re + im * im)
  let re := (← loadC .fftOut fftOut i).1
  let im := (← loadC .fftOut fftOut i).2
  store (half + i) (re * re + im * im)

/-- `generic_fftshift_mag`. -/
def genericFftshiftMag (fftOut : ℤ → R) (fftSize : ℤ) : Run R Unit :=
  let half := fftSize.tdiv 2
  plainLoop half (fftshiftMagTurn fftOut half)

/-- An `int8_t` as a number. -/
def loadI8 (iq : ℤ → Int8) (i : ℤ) : Run R R := do
  let x ← load .iq iq i
  pure (x.toInt : R)

/-- One element of `generic_convert_i8_cf`. -/
def convertI8CfTurn (iq : ℤ → Int8) (i : ℕ) : Run R Unit := do
  let re := (← loadI8 iq (2 * i)) / 128
  let im := (← loadI8 iq (2 * i + 1)) / 128
  storeC i ((re, 0) + scale im imagUnit)

/-- `generic_convert_i8_cf`. -/
def genericConvertI8Cf (iq : ℤ → Int8) (n : ℕ) : Run R Unit := plainLoop n (convertI8CfTurn iq)

/-! ## FIR filters -/

/-- One output of the scalar tails of the complex filters. -/
def firCcfTail (taps : ℤ → R) (ntaps : ℤ) (input : ℤ → R) (i : ℕ) : Run R Unit := do
  let (_, accRe, accIm) ← forLoop 0 ntaps (fun k (accRe, accIm) => do
    let accRe := accRe + (← load .taps taps k) * (← load .input input ((i + k) * 2))
    let accIm := accIm + (← load .taps taps k) * (← load .input input ((i + k) * 2 + 1))
    pure (accRe, accIm)) 0 ((0, 0) : R × R)
  store (i * 2) accRe
  store (i * 2 + 1) accIm

/-- A block of `w` floats of output, `stride` of them to an element; `mulAdd acc coeff data` is how
the products are added up. -/
def firBlock (stride w : ℕ) (mulAdd : (Fin w → R) → (Fin w → R) → (Fin w → R) → Fin w → R) (taps : ℤ → R)
    (ntaps : ℤ) (input : ℤ → R) (i : ℕ) : Run R Unit := do
  let (_, acc) ← forLoop 0 ntaps (fun k acc => do
    let coeff := set1 (← load .taps taps k)
    let data ← loadLanes w .input input (((i + k) * stride : ℕ))
    pure (mulAdd acc coeff data)) 0 (set1 0)
  storeLanes ((i * stride : ℕ)) acc

/-- `avx2_fir_ccf`. -/
def avx2FirCcf (taps : ℤ → R) (ntaps : ℤ) (input : ℤ → R) (n : ℤ) : Run R Unit :=
  blockLoop 3 n (firBlock 2 8 (fun acc coeff data => fmadd coeff data acc) taps ntaps input)
    (firCcfTail taps ntaps input)

/-- `sse42_fir_ccf`. -/
def sse42FirCcf (taps : ℤ → R) (ntaps : ℤ) (input : ℤ → R) (n : ℤ) : Run R Unit :=
  blockLoop 1 n (firBlock 2 4 (fun acc coeff data => add acc (mul coeff data)) taps ntaps input)
    (firCcfTail taps ntaps input)

/-- `neon_fir_ccf`. -/
def neonFirCcf (taps : ℤ → R) (ntaps : ℤ) (input : ℤ → R) (n : ℤ) : Run R Unit :=
  blockLoop 1 n (firBlock 2 4 vfmaq taps ntaps input) (firCcfTail taps ntaps input)

/-- `avx2_fir_fff`. -/
def avx2FirFff (taps : ℤ → R) (ntaps : ℤ) (input : ℤ → R) (n : ℤ) : Run R Unit :=
  blockLoop 7 n (firBlock 1 8 (fun acc coeff data => fmadd coeff data acc) taps ntaps input)
    (firFffTurn taps ntaps input)

/-- `sse42_fir_fff`. -/
def sse42FirFff (taps : ℤ → R) (ntaps : ℤ) (input : ℤ → R) (n : ℤ) : Run R Unit :=
  blockLoop 3 n (firBlock 1 4 (fun acc coeff data => add acc (mul coeff data)) taps ntaps input)
    (firFffTurn taps ntaps input)

/-- `neon_fir_fff`. -/
def neonFirFff (taps : ℤ → R) (ntaps : ℤ) (input : ℤ → R) (n : ℤ) : Run R Unit :=
  blockLoop 3 n (firBlock 1 4 vfmaq taps ntaps input) (firFffTurn taps ntaps input)

/-! ## Decimating filters -/

/-- The scalar tail of a decimating filter, from tap `k` on, and the stores behind it; `p` is the
first float of the input. -/
def firDecTail (taps : ℤ → R) (ntaps : ℤ) (input : ℤ → R) (p : ℤ) (i k : ℕ) (acc : R × R) : Run R Unit := do
  let (_, accRe, accIm) ← forLoop 0 ntaps (fun k (accRe, accIm) => do
    let accRe := accRe + (← load .taps taps k) * (← load .input input (p + k * 2))
    let accIm := accIm + (← load .taps taps k) * (← load .input input (p + k * 2 + 1))
    pure (accRe, accIm)) k acc
  store (i * 2) accRe
  store (i * 2 + 1) accIm

/-- Output `i` of `avx2_fir_ccf_dec`. -/
def avx2FirDecTurn (taps : ℤ → R) (ntaps : ℤ) (input : ℤ → R) (p : ℤ) (i : ℕ) : Run R Unit := do
  let (k, acc) ← forLoop 3 ntaps (fun k (acc : Fin 8 → R) => do
    let data ← loadLanes 8 .input input (p + k * 2)
    let t4 ← loadLanes 4 .taps taps k
    let coeff := setM128 (unpackhi t4 t4) (unpacklo t4 t4)
    pure (fmadd coeff data acc)) 0 (set1 0)
  let sum := add (castps128 acc) (extractf128 acc)
  let result := add sum (shuffle sum sum (mmShuffle 3 2 3 2))
  firDecTail taps ntaps input p i k (cvtss result, cvtss (shuffle result result 1))

/-- `avx2_fir_ccf_dec`. -/
def avx2FirCcfDec (taps : ℤ → R) (ntaps : ℤ) (input : ℤ → R) (nOut decimation : ℤ) : Run R Unit :=
  plainLoop nOut fun i => avx2FirDecTurn taps ntaps input (i * decimation * 2) i

/-- Output `i` of `sse42_fir_ccf_dec`. -/
def sse42FirDecTurn (taps : ℤ → R) (ntaps : ℤ) (input : ℤ → R) (p : ℤ) (i : ℕ) : Run R Unit := do
  let (k, acc) ← forLoop 1 ntaps (fun k (acc : Fin 4 → R) => do
    let data ← loadLanes 4 .input input (p + k * 2)
    let t2 := mmSetPs (← load .taps taps (k + 1)) (← load .taps taps (k + 1)) (← load .taps taps k)
      (← load .taps taps k)
    pure (add acc (mul t2 data))) 0 (set1 0)
  let result := add acc (shuffle acc acc (mmShuffle 3 2 3 2))
  firDecTail taps ntaps input p i k (cvtss result, cvtss (shuffle result result 1))

/-- `sse42_fir_ccf_dec`. -/
def sse42FirCcfDec (taps : ℤ → R) (ntaps : ℤ) (input : ℤ → R) (nOut decimation : ℤ) : Run R Unit :=
  plainLoop nOut fun i => sse42FirDecTurn taps ntaps input (i * decimation * 2) i

/-- The registers of `neon_fir_ccf_dec`: `acc_re0`, `acc_im0`, `acc_re1` and `acc_im1`. -/
abbrev NeonAcc (R : Type) := (Fin 4 → R) × (Fin 4 → R) × (Fin 4 → R) × (Fin 4 → R)

/-- Output `i` of `neon_fir_ccf_dec`. -/
def neonFirDecTurn (taps : ℤ → R) (ntaps : ℤ) (input : ℤ → R) (p : ℤ) (i : ℕ) : Run R Unit := do
  let (k, accRe0, accIm0, accRe1, accIm1) ← forLoop 7 ntaps (fun k ((accRe0, accIm0, accRe1, accIm1) : NeonAcc R) => do
    let d0 ← vld2q .input input (p + k * 2)
    let d1 ← vld2q .input input (p + (k + 4) * 2)
    let t0 ← loadLanes 4 .taps taps k
    let t1 ← loadLanes 4 .taps taps (k + 4)
    pure (vfmaq accRe0 d0.1 t0, vfmaq accIm0 d0.2 t0, vfmaq accRe1 d1.1 t1, vfmaq accIm1 d1.2 t1)) 0
    (set1 0, set1 0, set1 0, set1 0)
  let (k, accRe0, accIm0) ← forLoop 3 ntaps (fun k (accRe0, accIm0) => do
    let dx ← vld2q .input input (p + k * 2)
    let tx ← loadLanes 4 .taps taps k
    pure (vfmaq accRe0 dx.1 tx, vfmaq accIm0 dx.2 tx)) k (accRe0, accIm0)
  firDecTail taps ntaps input p i k (vaddvq (add accRe0 accRe1), vaddvq (add accIm0 accIm1))

/-- `neon_fir_ccf_dec`. -/
def neonFirCcfDec (taps : ℤ → R) (ntaps : ℤ) (input : ℤ → R) (nOut decimation : ℤ) : Run R Unit :=
  plainLoop nOut fun i => neonFirDecTurn taps ntaps input (i * decimation * 2) i

/-! ## Windows -/

/-- A block of `avx2_window_cf`. -/
def avx2WindowBlock (samples window : ℤ → R) (i : ℕ) : Run R Unit := do
  let data ← loadLanes 8 .samples samples (i * 2)
  let w4 ← loadLanes 4 .window window i
  let coeff := setM128 (unpackhi w4 w4) (unpacklo w4 w4)
  storeLanes (i * 2) (mul data coeff)

/-- `avx2_window_cf`. -/
def avx2WindowCf (samples window : ℤ → R) (n : ℤ) : Run R Unit :=
  blockLoop 3 n (avx2WindowBlock samples window) (windowCfTurn samples window)

/-- A block of `sse42_window_cf`. -/
def sse42WindowBlock (samples window : ℤ → R) (i : ℕ) : Run R Unit := do
  let data ← loadLanes 4 .samples samples (i * 2)
  let w2 := mmSetPs (← load .window window (i + 1)) (← load .window window (i + 1)) (← load .window window i)
    (← load .window window i)
  storeLanes (i * 2) (mul data w2)

/-- `sse42_window_cf`. -/
def sse42WindowCf (samples window : ℤ → R) (n : ℤ) : Run R Unit :=
  blockLoop 1 n (sse42WindowBlock samples window) (windowCfTurn samples window)

/-- A block of `neon_window_cf`. -/
def neonWindowBlock (samples window : ℤ → R) (i : ℕ) : Run R Unit := do
  let a ← loadLanes 4 .samples samples (i * 2)
  let b ← loadLanes 4 .samples samples (i * 2 + 4)
  let w ← loadLanes 4 .window window i
  storeLanes (i * 2) (mul a (unpacklo w w))
  storeLanes (i * 2 + 4) (mul b (unpackhi w w))

/-- `neon_window_cf`. -/
def neonWindowCf (samples window : ℤ → R) (n : ℤ) : Run R Unit :=
  blockLoop 3 n (neonWindowBlock samples window) (windowCfTurn samples window)

/-! ## Shifted magnitudes -/

/-- A block of the shifted magnitudes: those of the upper half in front, those of the lower half behind;
`mag base` computes `w` of them from element `base` on. -/
def fftshiftBlock {w : ℕ} (mag : ℤ → Run R (Fin w → R)) (half : ℤ) (i : ℕ) : Run R Unit := do
  storeLanes i (← mag (half + i))
  storeLanes (half + i) (← mag i)

/-- Four magnitudes of `avx2_fftshift_mag`. -/
def avx2Mag (fftOut : ℤ → R) (base : ℤ) : Run R (Fin 4 → R) := do
  let v ← loadLanes 8 .fftOut fftOut (base * 2)
  let deint := permutevar8x32 v (setrEpi32 0 2 4 6 1 3 5 7)
  let re := castps128 deint
  let im := extractf128 deint
  pure (fmadd re re (mul im im))

/-- `avx2_fftshift_mag`. -/
def avx2FftshiftMag (fftOut : ℤ → R) (fftSize : ℤ) : Run R Unit :=
  let half := fftSize.tdiv 2
  blockLoop 3 half (fftshiftBlock (avx2Mag fftOut) half) (fftshiftMagTurn fftOut half)

/-- Two magnitudes of `sse42_fftshift_mag`. -/
def sse42Mag (fftOut : ℤ → R) (base : ℤ) : Run R (Fin 2 → R) := do
  let v ← loadLanes 4 .fftOut fftOut (base * 2)
  let re := shuffle v v (mmShuffle 2 0 2 0)
  let im := shuffle v v (mmShuffle 3 1 3 1)
  pure (lowPair (add (mul re re) (mul im im)))

/-- `sse42_fftshift_mag`. -/
def sse42FftshiftMag (fftOut : ℤ → R) (fftSize : ℤ) : Run R Unit :=
  let half := fftSize.tdiv 2
  blockLoop 1 half (fftshiftBlock (sse42Mag fftOut) half) (fftshiftMagTurn fftOut half)

/-- Four magnitudes of `neon_fftshift_mag`. -/
def neonMag (fftOut : ℤ → R) (base : ℤ) : Run R (Fin 4 → R) := do
  let a ← loadLanes 4 .fftOut fftOut (base * 2)
  let b ← loadLanes 4 .fftOut fftOut ((base + 2) * 2)
  let re := uzp1 a b
  let im := uzp2 a b
  pure (vfmaq (mul re re) im im)

/-- `neon_fftshift_mag`. -/
def neonFftshiftMag (fftOut : ℤ → R) (fftSize : ℤ) : Run R Unit :=
  let half := fftSize.tdiv 2
  blockLoop 3 half (fftshiftBlock (neonMag fftOut) half) (fftshiftMagTurn fftOut half)

/-! ## Conversion -/

/-- Bytes as lanes. -/
def loadLanesI8 (w : ℕ) (iq : ℤ → Int8) (i : ℤ) : Run R (Fin w → ℤ) := do
  let v ← loadLanes w .iq iq i
  pure fun l => (v l).toInt

/-- Float `j` of the converted bytes. -/
def converted (iq : ℤ → Int8) (j : ℤ) : R := ((iq j).toInt : R) / 128

/-- Integers as floats, times `1 / 128`. -/
def scaled {w : ℕ} (v : Fin w → ℤ) : Fin w → R := mul (cvtepi32 v) (set1 (1 / 128))

/-- The scalar tails. -/
def convertI8CfTail (iq : ℤ → Int8) (i : ℕ) : Run R Unit := do
  store (i * 2) ((← loadI8 iq (2 * i)) / 128)
  store (i * 2 + 1) ((← loadI8 iq (2 * i + 1)) / 128)

/-- A block of `avx2_convert_i8_cf`. -/
def avx2ConvertBlock (iq : ℤ → Int8) (i : ℕ) : Run R Unit := do
  let bytes ← loadLanesI8 16 iq (i * 2)
  let lo32 : Fin 8 → ℤ := low (by decide) bytes
  storeLanes (i * 2) (scaled lo32)
  let hi32 : Fin 8 → ℤ := low (by decide) (srli 8 bytes)
  storeLanes ((i + 4) * 2) (scaled hi32)

/-- `avx2_convert_i8_cf`. -/
def avx2ConvertI8Cf (iq : ℤ → Int8) (n : ℕ) : Run R Unit :=
  blockLoop 7 n (avx2ConvertBlock iq) (convertI8CfTail iq)

/-- A block of `sse42_convert_i8_cf`; `_mm_loadl_epi64` loads eight bytes, which become eight `int16`. -/
def sse42ConvertBlock (iq : ℤ → Int8) (i : ℕ) : Run R Unit := do
  let i16 ← loadLanesI8 8 iq (i * 2)
  let lo32 : Fin 4 → ℤ := low (by decide) i16
  let hi32 : Fin 4 → ℤ := low (by decide) (srli 4 i16)
  storeLanes (i * 2) (scaled lo32)
  storeLanes ((i + 2) * 2) (scaled hi32)

/-- `sse42_convert_i8_cf`. -/
def sse42ConvertI8Cf (iq : ℤ → Int8) (n : ℕ) : Run R Unit :=
  blockLoop 3 n (sse42ConvertBlock iq) (convertI8CfTail iq)

/-- A block of `neon_convert_i8_cf`. -/
def neonConvertBlock (iq : ℤ → Int8) (i : ℕ) : Run R Unit := do
  let bytes ← loadLanesI8 16 iq (i * 2)
  let lo16 : Fin 8 → ℤ := low (by decide) bytes
  let hi16 : Fin 8 → ℤ := high (by decide) bytes
  let i32x0 : Fin 4 → ℤ := low (by decide) lo16
  let i32x1 : Fin 4 → ℤ := high (by decide) lo16
  let i32x2 : Fin 4 → ℤ := low (by decide) hi16
  let i32x3 : Fin 4 → ℤ := high (by decide) hi16
  storeLanes (i * 2) (scaled i32x0)
  storeLanes (i * 2 + 4) (scaled i32x1)
  storeLanes (i * 2 + 8) (scaled i32x2)
  storeLanes (i * 2 + 12) (scaled i32x3)

/-- `neon_convert_i8_cf`. -/
def neonConvertI8Cf (iq : ℤ → Int8) (n : ℕ) : Run R Unit :=
  blockLoop 7 n (neonConvertBlock iq) (convertI8CfTail iq)

/-! ## Back ends -/

/-- The back ends of `simd_init`, but for the scalar one. -/
inductive SimdMode where
  | avx2
  | sse42
  | neon
  deriving DecidableEq

/-- `simd_fir_ccf`. -/
def simdFirCcf : SimdMode → (ℤ → R) → ℤ → (ℤ → R) → ℤ → Run R Unit
  | .avx2 => avx2FirCcf
  | .sse42 => sse42FirCcf
  | .neon => neonFirCcf

/-- `simd_fir_ccf_dec`. -/
def simdFirCcfDec : SimdMode → (ℤ → R) → ℤ → (ℤ → R) → ℤ → ℤ → Run R Unit
  | .avx2 => avx2FirCcfDec
  | .sse42 => sse42FirCcfDec
  | .neon => neonFirCcfDec

/-- `simd_fir_fff`. -/
def simdFirFff : SimdMode → (ℤ → R) → ℤ → (ℤ → R) → ℤ → Run R Unit
  | .avx2 => avx2FirFff
  | .sse42 => sse42FirFff
  | .neon => neonFirFff

/-- `simd_window_cf`. -/
def simdWindowCf : SimdMode → (ℤ → R) → (ℤ → R) → ℤ → Run R Unit
  | .avx2 => avx2WindowCf
  | .sse42 => sse42WindowCf
  | .neon => neonWindowCf

/-- `simd_fftshift_mag`. -/
def simdFftshiftMag : SimdMode → (ℤ → R) → ℤ → Run R Unit
  | .avx2 => avx2FftshiftMag
  | .sse42 => sse42FftshiftMag
  | .neon => neonFftshiftMag

/-- `simd_convert_i8_cf`. -/
def simdConvertI8Cf : SimdMode → (ℤ → Int8) → ℕ → Run R Unit
  | .avx2 => avx2ConvertI8Cf
  | .sse42 => sse42ConvertI8Cf
  | .neon => neonConvertI8Cf

end InmarsatSniffer.Simd
