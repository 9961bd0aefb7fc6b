import Mathlib.Tactic

/-!
# Rings with free-running counters

The items of a queue at positions `lo .. hi - 1`, counted from its start, are in the cells
`i % C` of a ring (`Window`). The counters are kept modulo `2 ^ 32`; their difference is
the number of items as long as it fits.
-/

namespace RingWindow

variable {α : Type*} {C lo lo' hi k : ℕ} {ring : ℕ → α} {xs ys : List α}

/-- Two positions less than a ring apart have different cells. -/
theorem cell_ne {i j : ℕ} (h : i < j) (hc : j < i + C) : i % C ≠ j % C := by
  intro he
  have hdvd : C ∣ j - i := (Nat.modEq_iff_dvd' h.le).1 he
  have := Nat.le_of_dvd (by omega) hdvd
  omega

/-- The distance of two counters. -/
theorem distance (lo hi : ℕ) (hle : lo ≤ hi) (hlt : hi - lo < 2 ^ 32) : (UInt32.ofNat hi - UInt32.ofNat lo).toNat = hi - lo := by
  rw [UInt32.toNat_sub, UInt32.toNat_ofNat', UInt32.toNat_ofNat']
  omega

/-- The items at positions `lo .. hi - 1` are in their cells. -/
def Window (C : ℕ) (ring : ℕ → α) (xs : List α) (lo hi : ℕ) : Prop :=
  ∀ i, lo ≤ i → i < hi → xs[i]? = some (ring (i % C))

theorem Window.mono (h : Window C ring xs lo hi) (hlo : lo ≤ lo') : Window C ring xs lo' hi :=
  fun i h1 h2 => h i (hlo.trans h1) h2

/-- A cell behind the window is free to be written. -/
theorem Window.write (h : Window C ring xs lo hi) (hk : hi ≤ k) (hc : k < lo + C) (x : α) :
    Window C (Function.update ring (k % C) x) xs lo hi := by
  intro i h1 h2
  rw [Function.update_of_ne (cell_ne (by omega) (by omega)), h i h1 h2]

/-- Items that have been written behind the window. -/
theorem Window.append (h : Window C ring xs lo hi) (hlen : xs.length = hi)
    (hys : ∀ j, j < ys.length → ys[j]? = some (ring ((hi + j) % C))) :
    Window C ring (xs ++ ys) lo (hi + ys.length) := by
  intro i h1 h2
  by_cases hi' : i < hi
  · rw [List.getElem?_append_left (by omega), h i h1 hi']
  · rw [List.getElem?_append_right (by omega), hlen, hys _ (by omega), Nat.add_sub_cancel' (by omega)]

/-- What is read from a window. -/
theorem Window.read (h : Window C ring xs lo hi) (hlen : xs.length = hi) :
    xs.drop lo = (List.range (hi - lo)).map fun i => ring ((lo + i) % C) := by
  apply List.ext_getElem?
  intro i
  rw [List.getElem?_drop, List.getElem?_map]
  by_cases hi' : i < hi - lo
  · rw [h _ (by omega) (by omega), List.getElem?_range hi']
    rfl
  · rw [List.getElem?_eq_none (by omega), List.getElem?_eq_none (by rw [List.length_range]; omega)]
    rfl

end RingWindow
