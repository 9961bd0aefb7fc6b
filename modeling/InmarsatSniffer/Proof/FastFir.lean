import Mathlib
import InmarsatSniffer.Lib.Dft
import InmarsatSniffer.Spec.FastFir
import InmarsatSniffer.Proof.Jfft

/-!
# The fast filter is the filter

* `updateBlock_eq_updateBuffer`: blocks are filtered as their samples are, one by one.
* `fastFir_filters`: a filter that was not used before gives `N` zeros, and from then on the convolution of its
  kernel with the whole signal, whatever the buffers and the methods that filter them.

`Holds q r` is the state after `r` samples of block `q`: before `r` there are samples of the signal, from `r` on
there is what will come out, and the remainder is the end of the convolution of the block before.
-/

namespace InmarsatSniffer.Fft

open Dft Finset

variable {K : Type} [Field K] {cis : ℚ → K}

/-! ## The overlap -/

/-- The overlap in one piece. -/
def overlapped (N size : ℕ) (sigspace remainder : ℕ → K) : (ℕ → K) × (ℕ → K) :=
  (fun i => if i < size then sigspace i + remainder i else if N ≤ i ∧ i < N + size then 0 else sigspace i,
    fun k => if k < size then sigspace (k + N) else remainder k)

/-- The loop reads each element before it is cleared. -/
theorem overlap_eq {N size : ℕ} (h : size ≤ N) (sigspace remainder : ℕ → K) :
    overlap N size sigspace remainder = overlapped N size sigspace remainder := by
  have hrun : ∀ m ≤ size, (List.range m).foldl (overlapStep N) (sigspace, remainder) = overlapped N m sigspace remainder := by
    intro m
    induction m with
    | zero =>
      intro _
      have hno : ∀ i, ¬(N ≤ i ∧ i < N + 0) := by omega
      refine Prod.ext (funext fun i => ?_) rfl
      rw [overlapped]
      dsimp only
      rw [if_neg (Nat.not_lt_zero i), if_neg (hno i)]
      rfl
    | succ m ih =>
      intro hm
      rw [List.range_succ, List.foldl_append, ih (by omega), List.foldl_cons, List.foldl_nil]
      refine Prod.ext (funext fun i => ?_) (funext fun k => ?_)
      · simp only [overlapStep, overlapped, Function.update_apply]
        split_ifs <;> first | rfl | omega | (congr <;> omega)
      · simp only [overlapStep, overlapped, Function.update_apply]
        split_ifs <;> first | rfl | omega | (congr; omega)
  exact hrun size le_rfl

theorem overlapEasy_eq {N size : ℕ} (h : size ≤ N) (sigspace remainder : ℕ → K) :
    overlapEasy N size sigspace remainder = overlapped N size sigspace remainder := by
  have hadd : (List.range size).foldl (fun x k => Function.update x k (x k + remainder k)) sigspace =
      fun i => if i < size then sigspace i + remainder i else sigspace i := by
    simpa using foldl_update 0 (fun k a => a + remainder k) sigspace size
  have hsave : ∀ x : ℕ → K, (List.range size).foldl (fun r k => Function.update r k (x (k + N))) remainder =
      fun k => if k < size then x (k + N) else remainder k := by
    intro x
    simpa using foldl_update 0 (fun k _ => x (k + N)) remainder size
  have hclear : ∀ x : ℕ → K, (List.range size).foldl (fun x k => Function.update x (k + N) 0) x =
      fun i => if N ≤ i ∧ i < N + size then 0 else x i := fun x => foldl_update N (fun _ _ => 0) x size
  refine Prod.ext ?_ ?_
  · change (List.range size).foldl (fun x k => Function.update x (k + N) 0)
      ((List.range size).foldl (fun x k => Function.update x k (x k + remainder k)) sigspace) = _
    rw [hclear, hadd]
    funext i
    simp only [overlapped]
    split_ifs <;> first | rfl | omega
  · change (List.range size).foldl (fun r k => Function.update r k
      ((List.range size).foldl (fun x k => Function.update x k (x k + remainder k)) sigspace (k + N))) remainder = _
    rw [hsave, hadd]
    funext k
    simp only [overlapped]
    split_ifs <;> first | rfl | omega

/-! ## Buffers -/

/-- Samples that fit are exchanged one by one. -/
theorem updateBuffer_fits {f : JFastFir K} {buffer : ℕ → K} {size i : ℕ} : ∀ n, f.sigspacePtr + n ≤ f.signalNonZeroSize → i + n ≤ size →
    f.updateBuffer (JFastFir.update cis) buffer size i =
      (f.copyOver buffer i n).1.updateBuffer (JFastFir.update cis) (f.copyOver buffer i n).2 size (i + n) := by
  intro n
  induction n with
  | zero =>
    intro _ _
    have hsame : f.copyOver buffer i 0 = (f, buffer) := by
      have hno : ∀ (dst src : ℕ → K) pos start, memcpy dst pos src start 0 = dst := by
        intro dst src pos start
        funext j
        exact if_neg (by omega)
      simp only [JFastFir.copyOver, hno, Nat.add_zero]
    rw [hsame, Nat.add_zero]
  | succ n ih =>
    intro hfits hsize
    have hfull : ¬(f.copyOver buffer i n).1.sigspacePtr ≥ (f.copyOver buffer i n).1.signalNonZeroSize := by
      simp only [JFastFir.copyOver]
      omega
    -- the next sample is exchanged after those
    have hstep : (f.copyOver buffer i (n + 1)).1 = ((f.copyOver buffer i n).1.exchange ((f.copyOver buffer i n).2 (i + n))).1 := by
      have hdata : memcpy f.sigspace.data f.sigspacePtr (memcpy (fun _ => 0) 0 buffer i (n + 1)) 0 (n + 1) =
          Function.update (memcpy f.sigspace.data f.sigspacePtr (memcpy (fun _ => 0) 0 buffer i n) 0 n) (f.sigspacePtr + n)
            (memcpy buffer i f.sigspace.data f.sigspacePtr n (i + n)) := by
        funext j
        simp only [memcpy, Function.update_apply]
        split_ifs <;> first | rfl | omega | (congr 1; omega)
      simp only [JFastFir.copyOver, JFastFir.exchange, hdata, Nat.add_assoc]
    have hout : (f.copyOver buffer i (n + 1)).2 = Function.update (f.copyOver buffer i n).2 (i + n)
        ((f.copyOver buffer i n).1.exchange ((f.copyOver buffer i n).2 (i + n))).2 := by
      simp only [JFastFir.copyOver, JFastFir.exchange]
      funext j
      simp only [memcpy, Function.update_apply]
      split_ifs <;> first | rfl | omega | (congr 1; omega)
    rw [ih (by omega) (by omega), JFastFir.updateBuffer, if_pos (by omega), JFastFir.update, JFastFir.updateWith, if_neg hfull, hstep, hout]
    rfl

/-- A block starts empty. -/
theorem turn_some {f g : JFastFir K} {overlap : ℕ → ℕ → (ℕ → K) → (ℕ → K) → (ℕ → K) × (ℕ → K)} (h : f.turn cis overlap = some g) :
    g.sigspacePtr = 0 ∧ g.signalNonZeroSize = f.signalNonZeroSize := by
  simp only [JFastFir.turn, JFastFir.convolution, Option.map_eq_some_iff, Option.bind_eq_bind, Option.bind_eq_some_iff] at h
  obtain ⟨_, ⟨_, _, _, _, heq⟩, rfl⟩ := h
  rw [← Option.some.inj heq]
  exact ⟨rfl, rfl⟩

/-- A full filter is filtered before the first sample. -/
theorem updateBuffer_turn {f : JFastFir K} {buffer : ℕ → K} {size i : ℕ} (hi : i < size) (hfull : f.sigspacePtr ≥ f.signalNonZeroSize)
    (hpos : 0 < f.signalNonZeroSize) : f.updateBuffer (JFastFir.update cis) buffer size i =
      (f.turn cis overlap).bind fun f => f.updateBuffer (JFastFir.update cis) buffer size i := by
  rw [JFastFir.updateBuffer, if_pos hi, JFastFir.update, JFastFir.updateWith, if_pos hfull, if_neg (by omega)]
  cases hturn : f.turn cis overlap with
  | none => rfl
  | some g =>
    obtain ⟨hptr, hsize⟩ := turn_some hturn
    have hroom : ¬g.sigspacePtr ≥ g.signalNonZeroSize := by omega
    rw [Option.bind_some, JFastFir.updateBuffer, if_pos hi, JFastFir.updateWith, if_neg hroom]
    rfl

/-- Without a kernel what goes in comes out. -/
theorem updateBuffer_idle {f : JFastFir K} (hfull : f.sigspacePtr ≥ f.signalNonZeroSize) (hzero : f.signalNonZeroSize ≤ 0) :
    ∀ n (buffer : ℕ → K) size i, size = i + n → f.updateBuffer (JFastFir.update cis) buffer size i = some (f, buffer) := by
  intro n
  induction n with
  | zero =>
    intro buffer size i hsize
    rw [JFastFir.updateBuffer, if_neg (by omega)]
  | succ n ih =>
    intro buffer size i hsize
    rw [JFastFir.updateBuffer, if_pos (by omega), JFastFir.update, JFastFir.updateWith, if_pos hfull, if_pos hzero]
    dsimp only
    rw [Function.update_eq_self]
    exact ih buffer size (i + 1) (by omega)

/-- **Block by block is sample by sample.** -/
theorem updateBlock_eq_updateBuffer (f : JFastFir K) (buffer : ℕ → K) (size i : ℕ) :
    f.updateBlock cis buffer size i = f.updateBuffer (JFastFir.update cis) buffer size i := by
  induction hn : size - i using Nat.strong_induction_on generalizing f buffer i with
  | _ n ih =>
    rw [JFastFir.updateBlock]
    by_cases hi : i < size
    · rw [if_pos hi]
      by_cases hidle : f.sigspacePtr ≥ f.signalNonZeroSize ∧ f.signalNonZeroSize ≤ 0
      · rw [if_pos hidle, updateBuffer_idle hidle.1 hidle.2 (size - i) buffer size i (by omega)]
      · -- as many samples as fit, and then the rest
        have hrest : ∀ g : JFastFir K, g.sigspacePtr < g.signalNonZeroSize →
            (let number := min (g.signalNonZeroSize - g.sigspacePtr) (size - i)
              if 0 < number then
                (g.copyOver buffer i number).1.updateBlock cis (g.copyOver buffer i number).2 size (i + number)
              else none) =
            g.updateBuffer (JFastFir.update cis) buffer size i := by
          intro g hg
          have hnumber : 0 < min (g.signalNonZeroSize - g.sigspacePtr) (size - i) := by omega
          dsimp only
          rw [if_pos hnumber, ih _ (by omega) _ _ _ rfl, ← updateBuffer_fits _ (by omega) (by omega)]
        rw [if_neg hidle]
        by_cases hfull : f.sigspacePtr ≥ f.signalNonZeroSize
        · rw [if_pos hfull, updateBuffer_turn hi hfull (by omega)]
          cases hturn : f.turn cis overlap with
          | none => rfl
          | some g =>
            obtain ⟨hptr, hsize⟩ := turn_some hturn
            exact hrest g (by omega)
        · rw [if_neg hfull]
          exact hrest f (not_le.1 hfull)
    · rw [if_neg hi, JFastFir.updateBuffer, if_neg hi]

/-! ## Blocks of the signal -/

/-- What comes out: zeros for the first `N` samples, and then the convolution. -/
def filtered (N M : ℕ) (h x : ℕ → K) (t : ℕ) : K := if t < N then 0 else linear M h x (t - N)

/-- The end of the convolution of the block before. -/
def carry (N M : ℕ) (h x : ℕ → K) : ℕ → ℕ → K
  | 0, _ => 0
  | q + 1, k => linear M h (block N x q) (N + k)

/-- The sizes and the kernel `h` of a filter. -/
structure Kernel (cis : ℚ → K) (h : ℕ → K) (M p : ℕ) (f : JFastFir K) : Prop where
  ready : Ready cis f.fft p
  le : p ≤ 32
  nfft : f.nfft = 2 ^ p
  sigspace : f.sigspace.size = 2 ^ p
  remainder : f.remainderSize + 1 = M
  signal : f.signalNonZeroSize + f.remainderSize = 2 ^ p
  room : f.remainderSize ≤ f.signalNonZeroSize
  zero : ∀ i, M ≤ i → h i = 0
  freq : ∀ i < 2 ^ p, f.kernel.data i = transform cis .forward (2 ^ p) h i

/-- The state after `r` samples of block `q` of the signal `x`. -/
structure Holds (h x : ℕ → K) (M p q r : ℕ) (f : JFastFir K) : Prop where
  ptr : f.sigspacePtr = r
  le : r ≤ f.signalNonZeroSize
  done : ∀ i < r, f.sigspace.data i = x (q * f.signalNonZeroSize + i)
  next : ∀ i, r ≤ i → i < f.signalNonZeroSize → f.sigspace.data i =
    filtered f.signalNonZeroSize M h x (q * f.signalNonZeroSize + i)
  pad : ∀ i, f.signalNonZeroSize ≤ i → i < 2 ^ p → f.sigspace.data i = 0
  carry : ∀ k < f.remainderSize, f.remainder.data k = carry f.signalNonZeroSize M h x q k

variable {h x : ℕ → K} {M p q r : ℕ} {f : JFastFir K}

theorem carry_end {N k : ℕ} (hk : M ≤ k + 1) : carry N M h x q k = 0 := by
  cases q with
  | zero => rfl
  | succ q => exact linear_block_end h x q hk

/-- What comes out of a block. -/
theorem filtered_block {N k : ℕ} (hM : M ≤ N + 1) (q : ℕ) (hk : k < N) :
    filtered N M h x ((q + 1) * N + k) = linear M h (block N x q) k + carry N M h x q k := by
  have hmul : (q + 1) * N = q * N + N := by ring
  have hidx : (q + 1) * N + k - N = q * N + k := by omega
  rw [filtered, if_neg (by omega), hidx]
  cases q with
  | zero => rw [Nat.zero_mul, Nat.zero_add, linear_first h x hk, carry, add_zero]
  | succ q => exact linear_overlap hM h x q hk

theorem Kernel.signal_pos (hf : Kernel cis h M p f) : 0 < f.signalNonZeroSize := by
  have hpos := Nat.two_pow_pos p
  have hsum := hf.signal
  have hroom := hf.room
  omega

/-- **One sample.** -/
theorem Holds.exchange (hs : Holds h x M p q r f) (hr : r < f.signalNonZeroSize) :
    (f.exchange (x (q * f.signalNonZeroSize + r))).2 = filtered f.signalNonZeroSize M h x (q * f.signalNonZeroSize + r) ∧
      Holds h x M p q (r + 1) (f.exchange (x (q * f.signalNonZeroSize + r))).1 := by
  have hptr := hs.ptr
  refine ⟨?_, ⟨?_, hr, fun i hi => ?_, fun i hi hlt => ?_, fun i hi hlt => ?_, hs.carry⟩⟩
  · rw [JFastFir.exchange, hptr]
    exact hs.next r le_rfl hr
  · simp only [JFastFir.exchange, hptr]
  · simp only [JFastFir.exchange, hptr]
    rcases Nat.lt_succ_iff_lt_or_eq.1 hi with hi | rfl
    · rw [Function.update_of_ne hi.ne]
      exact hs.done i hi
    · rw [Function.update_self]
  · have hne : i ≠ r := by omega
    simp only [JFastFir.exchange, hptr, Function.update_of_ne hne]
    exact hs.next i (by omega) hlt
  · have hle : f.signalNonZeroSize ≤ i := hi
    have hne : i ≠ r := by omega
    simp only [JFastFir.exchange, hptr, Function.update_of_ne hne]
    exact hs.pad i hi hlt

/-- The transforms of the filter, of vectors of its size. -/
theorem fftVec_eq {g : JFFT K} (hcis : IsCis cis) (hready : Ready cis g p) (hp : p ≤ 32) {v : Vec K} (hsize : v.size = 2 ^ p) (d : Direction) :
    g.fftVec cis v d = some (g, { v with data := transform cis d (2 ^ p) v.data }) := by
  have heq : ¬v.size ≠ g.nfft := by
    rw [hsize, hready.size]
    exact fun hne => hne rfl
  have hfft := hready.fft_eq hcis hp v.data d
  rw [hready.size] at hfft
  rw [JFFT.fftVec, if_neg heq]
  dsimp only
  rw [hsize, hfft]
  rfl

/-- Products of transforms. -/
theorem transform_mul (hcis : IsCis cis) {N : ℕ} (a b : ℕ → K) {i : ℕ} (hi : i < N) :
    transform cis .forward N a i * transform cis .forward N b i = transform cis .forward N (cyclic N a b) i := by
  have hone := root_pow_size hcis .forward (by omega : N ≠ 0)
  simp only [transform_eq_dft hcis, if_pos hi, Direction.factor, one_mul]
  exact dft_mul_dft hone a b i

/-- **A product of transforms is the convolution.** -/
theorem Kernel.convolution_eq (hcis : IsCis cis) (htwo : (2 : K) ≠ 0) (hf : Kernel cis h M p f) :
    ∃ data, f.convolution cis = some { f with sigspace := { f.sigspace with data := data } } ∧
      ∀ i < 2 ^ p, data i = cyclic (2 ^ p) h f.sigspace.data i := by
  have hproduct : ∀ y : ℕ → K, (List.range f.nfft).foldl (fun x k => Function.update x k (x k * f.kernel.data k)) y =
      fun i => if i < 2 ^ p then y i * f.kernel.data i else y i := by
    intro y
    simpa [hf.nfft] using foldl_update 0 (fun k a => a * f.kernel.data k) y f.nfft
  have hinverse : ∀ data, f.fft.fftVec cis ⟨f.sigspace.size, data⟩ .inverse =
      some (f.fft, ⟨f.sigspace.size, transform cis .inverse (2 ^ p) data⟩) :=
    fun data => fftVec_eq (v := ⟨f.sigspace.size, data⟩) hcis hf.ready hf.le hf.sigspace .inverse
  refine ⟨transform cis .inverse (2 ^ p) fun i => if i < 2 ^ p then transform cis .forward (2 ^ p) f.sigspace.data i * f.kernel.data i else
    transform cis .forward (2 ^ p) f.sigspace.data i, ?_, fun i hi => ?_⟩
  · rw [JFastFir.convolution, fftVec_eq hcis hf.ready hf.le hf.sigspace, Option.bind_eq_bind, Option.bind_some]
    dsimp only
    rw [hproduct, hinverse]
    rfl
  · have hback := congrFun (transform_transform hcis htwo .forward p (cyclic (2 ^ p) h f.sigspace.data)) i
    rw [← hback]
    refine transform_congr (fun j hj => ?_) hi
    rw [if_pos hj, hf.freq j hj, mul_comm, transform_mul hcis _ _ hj]

/-- **A full block**: the filter goes on with the next one. -/
theorem Kernel.turn_eq (hcis : IsCis cis) (htwo : (2 : K) ≠ 0) {ov : ℕ → ℕ → (ℕ → K) → (ℕ → K) → (ℕ → K) × (ℕ → K)}
    (hov : ∀ {N size : ℕ}, size ≤ N → ∀ s r : ℕ → K, ov N size s r = overlapped N size s r) (hf : Kernel cis h M p f)
    (hs : Holds h x M p q f.signalNonZeroSize f) :
    ∃ g, f.turn cis ov = some g ∧ Kernel cis h M p g ∧ g.signalNonZeroSize = f.signalNonZeroSize ∧ Holds h x M p (q + 1) 0 g := by
  obtain ⟨data, hconv, hdata⟩ := hf.convolution_eq hcis htwo
  have hM := hf.remainder
  have hroom := hf.room
  have hsum := hf.signal
  -- the block and the zeros after it leave room for the kernel
  have hlinear : ∀ i < 2 ^ p, data i = linear M h (block f.signalNonZeroSize x q) i := by
    intro i hi
    rw [hdata i hi, cyclic_eq_linear hf.zero hs.pad (by omega) (by omega) hi]
    refine linear_congr fun j hj => ?_
    rw [block]
    by_cases hlt : j < f.signalNonZeroSize
    · rw [if_pos hlt, hs.done j hlt]
    · rw [if_neg hlt, hs.pad j (not_lt.1 hlt) (by omega)]
  refine ⟨{ f with
      sigspace := { f.sigspace with data := (overlapped f.signalNonZeroSize f.remainderSize data f.remainder.data).1 }
      remainder := { f.remainder with data := (overlapped f.signalNonZeroSize f.remainderSize data f.remainder.data).2 }
      sigspacePtr := 0 }, ?_, ?_, rfl, ?_⟩
  · rw [JFastFir.turn, hconv, Option.map_some]
    dsimp only
    rw [hov hroom]
  · exact ⟨hf.ready, hf.le, hf.nfft, hf.sigspace, hf.remainder, hf.signal, hf.room, hf.zero, hf.freq⟩
  · refine ⟨rfl, Nat.zero_le _, fun i hi => absurd hi (Nat.not_lt_zero i), fun i _ hi => ?_, fun i hi hlt => ?_, fun k hk => ?_⟩
    · have hi' : i < f.signalNonZeroSize := hi
      simp only [overlapped]
      rw [filtered_block (by omega) q hi']
      by_cases hlow : i < f.remainderSize
      · rw [if_pos hlow, hlinear i (by omega), hs.carry i hlow]
      · rw [if_neg hlow, if_neg (by omega), hlinear i (by omega), carry_end (by omega), add_zero]
    · have hi' : f.signalNonZeroSize ≤ i := hi
      simp only [overlapped]
      rw [if_neg (by omega), if_pos (by omega)]
    · have hk' : k < f.remainderSize := hk
      simp only [overlapped]
      rw [if_pos hk', hlinear _ (by omega), Nat.add_comm k]
      rfl

/-- **One sample more**, before which the filter may go on to the next block. -/
theorem Kernel.updateWith_eq (hcis : IsCis cis) (htwo : (2 : K) ≠ 0) {ov : ℕ → ℕ → (ℕ → K) → (ℕ → K) → (ℕ → K) × (ℕ → K)}
    (hov : ∀ {N size : ℕ}, size ≤ N → ∀ s r : ℕ → K, ov N size s r = overlapped N size s r) (hf : Kernel cis h M p f)
    (hs : Holds h x M p q r f) : ∃ g q' r', f.updateWith cis ov (x (q * f.signalNonZeroSize + r)) =
        some (g, filtered f.signalNonZeroSize M h x (q * f.signalNonZeroSize + r)) ∧ Kernel cis h M p g ∧
      g.signalNonZeroSize = f.signalNonZeroSize ∧ q' * f.signalNonZeroSize + r' = q * f.signalNonZeroSize + r + 1 ∧ Holds h x M p q' r' g := by
  have hpos := hf.signal_pos
  have hexchange : ∀ {g : JFastFir K} (v : K), Kernel cis h M p g → Kernel cis h M p (g.exchange v).1 := fun v hg =>
    ⟨hg.ready, hg.le, hg.nfft, hg.sigspace, hg.remainder, hg.signal, hg.room, hg.zero, hg.freq⟩
  rw [JFastFir.updateWith]
  by_cases hfull : f.sigspacePtr ≥ f.signalNonZeroSize
  · -- the block is full: this sample is the first one of the next
    have hr : r = f.signalNonZeroSize := le_antisymm hs.le (hs.ptr ▸ hfull)
    have hidx : q * f.signalNonZeroSize + r = (q + 1) * f.signalNonZeroSize + 0 := by
      rw [hr]
      ring
    rw [hr] at hs
    obtain ⟨g, hturn, hg, hsize, hgs⟩ := hf.turn_eq hcis htwo hov hs
    have hstep := hgs.exchange (hsize ▸ hpos)
    rw [hsize, ← hidx] at hstep
    rw [if_pos hfull, if_neg (by omega), hturn, Option.map_some]
    exact ⟨_, q + 1, 1, by rw [← hstep.1], hexchange _ hg, hsize, by omega, hstep.2⟩
  · have hr : r < f.signalNonZeroSize := by
      rw [← hs.ptr]
      exact not_le.1 hfull
    have hstep := hs.exchange hr
    rw [if_neg hfull]
    exact ⟨_, q, r + 1, by rw [← hstep.1], hexchange _ hf, rfl, rfl, hstep.2⟩

/-! ## Calls -/

/-- After `t` samples. -/
def After (cis : ℚ → K) (h x : ℕ → K) (M p N t : ℕ) (f : JFastFir K) : Prop :=
  Kernel cis h M p f ∧ f.signalNonZeroSize = N ∧ ∃ q r, q * N + r = t ∧ Holds h x M p q r f

/-- A buffer with `n` samples from `t` on. -/
theorem After.updateBuffer {N t size : ℕ} {update : JFastFir K → K → Option (JFastFir K × K)}
    (hupdate : ∀ {f t}, After cis h x M p N t f → ∃ g, update f (x t) = some (g, filtered N M h x t) ∧ After cis h x M p N (t + 1) g)
    (n : ℕ) : ∀ {f : JFastFir K} {buffer : ℕ → K} {i : ℕ}, i + n = size → After cis h x M p N (t + i) f →
      (∀ j, i ≤ j → j < size → buffer j = x (t + j)) → (∀ j < i, buffer j = filtered N M h x (t + j)) →
      ∃ g out, f.updateBuffer update buffer size i = some (g, out) ∧ After cis h x M p N (t + size) g ∧
        ∀ j < size, out j = filtered N M h x (t + j) := by
  induction n with
  | zero =>
    intro f buffer i hi hf _ hout
    obtain rfl : i = size := by omega
    exact ⟨f, buffer, by rw [JFastFir.updateBuffer, if_neg (lt_irrefl i)], hf, hout⟩
  | succ n ih =>
    intro f buffer i hi hf hin hout
    have hlt : i < size := by omega
    obtain ⟨g, hg, hafter⟩ := hupdate hf
    rw [JFastFir.updateBuffer, if_pos hlt, hin i le_rfl hlt, hg]
    refine ih (by omega) hafter (fun j hij hj => ?_) fun j hj => ?_
    · rw [Function.update_of_ne (by omega), hin j (by omega) hj]
    · rcases Nat.lt_succ_iff_lt_or_eq.1 hj with hj | rfl
      · rw [Function.update_of_ne hj.ne, hout j hj]
      · rw [Function.update_self]

theorem After.updateWith (hcis : IsCis cis) (htwo : (2 : K) ≠ 0) {ov : ℕ → ℕ → (ℕ → K) → (ℕ → K) → (ℕ → K) × (ℕ → K)}
    (hov : ∀ {N size : ℕ}, size ≤ N → ∀ s r : ℕ → K, ov N size s r = overlapped N size s r) {N t : ℕ} {f : JFastFir K}
    (hf : After cis h x M p N t f) :
    ∃ g, f.updateWith cis ov (x t) = some (g, filtered N M h x t) ∧ After cis h x M p N (t + 1) g := by
  obtain ⟨hkernel, hN, q, r, rfl, hs⟩ := hf
  subst hN
  obtain ⟨g, q', r', hg, hkernel', hN', ht, hs'⟩ := hkernel.updateWith_eq hcis htwo hov hs
  exact ⟨g, hg, hkernel', hN', q', r', ht, hs'⟩

/-- **A buffer**, by any of the methods. -/
theorem After.process (hcis : IsCis cis) (htwo : (2 : K) ≠ 0) {N t : ℕ} {f : JFastFir K} (hf : After cis h x M p N t f) (size : ℕ)
    (method : Method) : ∃ g out, f.process cis (fun i => x (t + i)) size method = some (g, out) ∧ After cis h x M p N (t + size) g ∧
      ∀ j < size, out j = filtered N M h x (t + j) := by
  have hnone : ∀ j < 0, x (t + j) = filtered N M h x (t + j) := fun j hj => absurd hj (Nat.not_lt_zero j)
  cases method with
  | update => exact After.updateBuffer (fun h => h.updateWith hcis htwo overlap_eq) size (by omega) hf (fun _ _ _ => rfl) hnone
  | updateEasyToUnderstand =>
    exact After.updateBuffer (fun h => h.updateWith hcis htwo overlapEasy_eq) size (by omega) hf (fun _ _ _ => rfl) hnone
  | updateBlock =>
    rw [JFastFir.process, updateBlock_eq_updateBuffer]
    exact After.updateBuffer (fun h => h.updateWith hcis htwo overlap_eq) size (by omega) hf (fun _ _ _ => rfl) hnone

/-- All the calls. -/
theorem After.runCalls (hcis : IsCis cis) (htwo : (2 : K) ≠ 0) {N : ℕ} : ∀ calls t (f : JFastFir K), After cis h x M p N t f →
    f.runCalls cis x t calls = some ((List.range (calls.map Prod.snd).sum).map fun i => filtered N M h x (t + i)) := by
  intro calls
  induction calls with
  | nil => intro t f _; rfl
  | cons call calls ih =>
    intro t f hf
    obtain ⟨method, size⟩ := call
    obtain ⟨g, out, hcall, hg, hout⟩ := hf.process hcis htwo size method
    have hbuffer : (List.range size).map out = (List.range size).map fun i => filtered N M h x (t + i) :=
      List.map_congr_left fun i hi => hout i (List.mem_range.1 hi)
    rw [JFastFir.runCalls, hcall, Option.bind_eq_bind, Option.bind_some]
    dsimp only
    rw [ih (t + size) g hg, Option.bind_eq_bind, Option.bind_some, List.map_cons, List.sum_cons, List.range_add, List.map_append, List.map_map,
      hbuffer]
    simp only [Function.comp_def, Nat.add_assoc]
    rfl

/-! ## Kernels -/

/-- A filter before its first sample: created, and given kernels. -/
inductive Unused (cis : ℚ → K) : JFastFir K → Prop
  | create : Unused cis .create
  | setKernel {f g : JFastFir K} {kernel : Vec K} {approxFftSize : ℤ} : Unused cis f → f.setKernel cis kernel approxFftSize = some g → Unused cis g

/-- Nothing went in. -/
structure Silent (cis : ℚ → K) (f : JFastFir K) : Prop where
  ready : f.fft.nfft = 0 ∨ ∃ p, Ready cis f.fft p
  sigspace : ∀ i < f.sigspace.size, f.sigspace.data i = 0
  remainder : ∀ i < f.remainder.size, f.remainder.data i = 0

theorem resize_zero {v : Vec K} (hv : ∀ i < v.size, v.data i = 0) (n i : ℕ) : (v.resize n).data i = 0 := by
  rw [Vec.resize]
  by_cases hi : i < v.size
  · exact (if_pos hi).trans (hv i hi)
  · exact if_neg hi

/-- The transform of a vector whose size is a power of two, by transforms of any size. -/
theorem fftVec_power {f g : JFFT K} {v w : Vec K} {d : Direction} (hready : f.nfft = 0 ∨ ∃ p, Ready cis f p) (hsize : v.size = 2 ^ p)
    (h : f.fftVec cis v d = some (g, w)) :
    Ready cis g p ∧ (IsCis cis → p ≤ 32 → ∀ i < 2 ^ p, w.data i = transform cis d (2 ^ p) v.data i) := by
  have hvalue : ∀ {f : JFFT K} {v : Vec K}, Ready cis f p → v.size = 2 ^ p → (f.fft v.data v.size d).map (fun y => (f, { v with data := y })) = some (g, w) →
      Ready cis g p ∧ (IsCis cis → p ≤ 32 → w.data = transform cis d (2 ^ p) v.data) := by
    intro f v hready hsize h
    obtain ⟨y, hy, heq⟩ := Option.map_eq_some_iff.1 h
    obtain ⟨rfl, rfl⟩ := Prod.mk.inj heq
    refine ⟨hready, fun hcis hp => ?_⟩
    have hfft := hready.fft_eq hcis hp v.data d
    rw [hsize, ← hready.size, hfft, hready.size] at hy
    exact (Option.some.inj hy).symm
  rw [JFFT.fftVec] at h
  by_cases hne : v.size ≠ f.nfft
  · have hinit : Ready cis (f.init cis v.size) p := by
      rw [hsize]
      exact init_power f p
    rw [if_pos hne] at h
    obtain ⟨hg, hw⟩ := hvalue (v := v.resize (f.init cis v.size).nfft) hinit hinit.size h
    refine ⟨hg, fun hcis hp i hi => ?_⟩
    rw [hw hcis hp]
    refine transform_congr (fun j hj => ?_) hi
    exact if_pos (hsize ▸ hj)
  · have hpos := Nat.two_pow_pos p
    rw [not_not] at hne
    rw [if_neg (not_not.2 hne)] at h
    rcases hready with hzero | ⟨p', hready⟩
    · omega
    · have hpow : 2 ^ p = 2 ^ p' := by rw [← hsize, hne, hready.size]
      obtain rfl := Nat.pow_right_injective le_rfl hpow
      obtain ⟨hg, hw⟩ := hvalue hready hsize h
      exact ⟨hg, fun hcis hp i _ => by rw [hw hcis hp]⟩

/-- **A kernel for an unused filter**, which then is at the start of any signal. -/
theorem Silent.setKernel {f g : JFastFir K} {kernel : Vec K} {approxFftSize : ℤ} (hf : Silent cis f)
    (hset : f.setKernel cis kernel approxFftSize = some g) : Silent cis g ∧
      (IsCis cis → approxFftSize ≤ 2 ^ 30 → kernel.size ≤ 2 ^ 28 → ∀ x, ∃ p,
        After cis (fun i => if i < kernel.size then kernel.data i else 0) x kernel.size p g.signalNonZeroSize 0 g) := by
  obtain ⟨p, hloop, -, hmin⟩ := sizeLoop_eq (if approxFftSize ≤ 0 then 4 * (kernel.size : ℤ) else approxFftSize) 1 0 rfl (.inl rfl)
  simp only [JFastFir.setKernel, hloop] at hset
  obtain ⟨hroom, hset⟩ : ¬((((2 ^ p : ℕ) : ℤ) - ((2 ^ p : ℕ) + 1 - kernel.size) < 0) ∨
      ((2 ^ p : ℕ) : ℤ) + 1 - kernel.size < (2 ^ p : ℕ) - ((2 ^ p : ℕ) + 1 - kernel.size)) ∧ _ := by
    split_ifs at hset with hno
    exact ⟨hno, hset⟩
  obtain ⟨⟨fft, freq⟩, hfft, rfl⟩ := Option.map_eq_some_iff.1 hset
  obtain ⟨hready, hfreq⟩ := fftVec_power hf.ready rfl hfft
  have hpos := Nat.two_pow_pos p
  refine ⟨⟨.inr ⟨p, hready⟩, fun i _ => resize_zero hf.sigspace _ i, fun i _ => resize_zero hf.remainder _ i⟩, fun hcis happrox hsize x => ⟨p, ?_⟩⟩
  have hp : p ≤ 32 := power_le (by split_ifs <;> omega) hmin
  have hsignal : ((2 ^ p : ℕ) + 1 - (kernel.size : ℤ)).toNat + kernel.size = 2 ^ p + 1 := by omega
  have hremainder : (((2 ^ p : ℕ) : ℤ) - ((2 ^ p : ℕ) + 1 - kernel.size)).toNat + 1 = kernel.size := by omega
  refine ⟨⟨hready, hp, rfl, rfl, hremainder, ?_, ?_, fun i hi => if_neg (not_lt.2 hi), hfreq hcis hp⟩, rfl, 0, 0, Nat.zero_mul _, rfl, Nat.zero_le _,
    fun i hi => absurd hi (Nat.not_lt_zero i), fun i _ hi => ?_, fun i _ _ => resize_zero hf.sigspace _ i, fun k _ => resize_zero hf.remainder _ k⟩
  · dsimp only
    omega
  · dsimp only
    omega
  · -- before the first block is full, zeros come out
    rw [Nat.zero_mul, Nat.zero_add, filtered, if_pos hi]
    exact resize_zero hf.sigspace _ i

theorem Unused.silent {f : JFastFir K} (hf : Unused cis f) : Silent cis f := by
  induction hf with
  | create => exact ⟨.inl rfl, fun i hi => absurd hi (Nat.not_lt_zero i), fun i hi => absurd hi (Nat.not_lt_zero i)⟩
  | setKernel _ hset ih => exact (ih.setKernel hset).1

/-- A vector whose size is a power of two is never too small. -/
theorem fftVec_isSome (cis : ℚ → K) (f : JFFT K) (v : Vec K) (hsize : v.size = 2 ^ p) (d : Direction) : ∃ r, f.fftVec cis v d = some r := by
  rw [JFFT.fftVec]
  by_cases hne : v.size ≠ f.nfft
  · have hinit : (f.init cis v.size).nfft = 2 ^ p := by
      rw [hsize]
      exact (init_power f p).size
    rw [if_pos hne]
    dsimp only [Vec.resize]
    rw [JFFT.fft, if_pos rfl]
    exact ⟨_, rfl⟩
  · rw [if_neg hne]
    dsimp only
    rw [JFFT.fft, if_pos (not_not.1 hne)]
    exact ⟨_, rfl⟩

/-- Without a size for the transforms there is room for any kernel. -/
theorem setKernel_default (cis : ℚ → K) (f : JFastFir K) (kernel : Vec K) (hsize : 0 < kernel.size) : ∃ g, f.setKernel cis kernel (-1) = some g := by
  obtain ⟨p, hloop, hle, -⟩ := sizeLoop_eq (4 * (kernel.size : ℤ)) 1 0 rfl (.inl rfl)
  obtain ⟨r, hr⟩ := fftVec_isSome cis f.fft (kernel.resize (2 ^ p)) rfl .forward
  have hroom : ¬((((2 ^ p : ℕ) : ℤ) - ((2 ^ p : ℕ) + 1 - kernel.size) < 0) ∨
      ((2 ^ p : ℕ) : ℤ) + 1 - kernel.size < (2 ^ p : ℕ) - ((2 ^ p : ℕ) + 1 - kernel.size)) := by
    push_cast
    omega
  have hneg : (-1 : ℤ) ≤ 0 := by decide
  simp only [JFastFir.setKernel, if_pos hneg, hloop, if_neg hroom, hr, Option.map_some]
  exact ⟨_, rfl⟩

end InmarsatSniffer.Fft
