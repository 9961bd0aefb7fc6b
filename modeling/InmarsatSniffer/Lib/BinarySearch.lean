import Mathlib.Tactic

/-!
# Binary search

`bsearch` finds an entry for which a comparison with the key gives `eq`, in a list in which
the comparisons go down: first `gt`, then `eq`, then `lt`.

* `bsearch_mem`: what it finds is such an entry.
* `bsearch_none`: it misses none.

`closedSearch` is the search between two bounds that are both inside of the range, with the
entry on the left of the comparison: `closedSearch_mem`, `closedSearch_none`.
-/

namespace BinarySearch

/-- `bsearch` among the entries from `l` on and below `u`, at most `fuel` of them. -/
def bsearch {α : Type*} (cmp : α → Ordering) (es : List α) : ℕ → ℕ → ℕ → Option α
  | 0, _, _ => none
  | fuel + 1, l, u =>
    if l < u then
      let idx := (l + u) / 2
      es[idx]?.bind fun e =>
        match cmp e with
        | .lt => bsearch cmp es fuel l idx
        | .gt => bsearch cmp es fuel (idx + 1) u
        | .eq => some e
    else none

variable {α : Type*} {cmp : α → Ordering} {es : List α} {fuel l u : ℕ} {e : α}

theorem bsearch_mem (h : bsearch cmp es fuel l u = some e) : e ∈ es ∧ cmp e = .eq := by
  induction fuel generalizing l u with
  | zero => exact absurd h (by simp [bsearch])
  | succ fuel ih =>
    unfold bsearch at h
    split at h
    · obtain ⟨e', he', hcmp⟩ := Option.bind_eq_some_iff.1 h
      split at hcmp
      · exact ih hcmp
      · exact ih hcmp
      · next heq =>
        obtain rfl := Option.some.inj hcmp
        exact ⟨List.mem_of_getElem? he', heq⟩
    · exact absurd h (by simp)

/-- The comparisons of the list go down. -/
def Descending (cmp : α → Ordering) (es : List α) : Prop :=
  es.Pairwise fun a b => (cmp a = .lt → cmp b = .lt) ∧ (cmp b = .gt → cmp a = .gt)

theorem Descending.lt (h : Descending cmp es) {i j : ℕ} {a b : α} (ha : es[i]? = some a) (hb : es[j]? = some b)
    (hij : i ≤ j) (hlt : cmp a = .lt) : cmp b = .lt := by
  rcases Nat.eq_or_lt_of_le hij with rfl | hlt'
  · rwa [← Option.some.inj (ha.symm.trans hb)]
  · obtain ⟨hi, rfl⟩ := List.getElem?_eq_some_iff.1 ha
    obtain ⟨hj, rfl⟩ := List.getElem?_eq_some_iff.1 hb
    exact (List.pairwise_iff_getElem.1 h i j hi hj hlt').1 hlt

theorem Descending.gt (h : Descending cmp es) {i j : ℕ} {a b : α} (ha : es[i]? = some a) (hb : es[j]? = some b)
    (hij : i ≤ j) (hgt : cmp b = .gt) : cmp a = .gt := by
  rcases Nat.eq_or_lt_of_le hij with rfl | hlt'
  · rwa [Option.some.inj (ha.symm.trans hb)]
  · obtain ⟨hi, rfl⟩ := List.getElem?_eq_some_iff.1 ha
    obtain ⟨hj, rfl⟩ := List.getElem?_eq_some_iff.1 hb
    exact (List.pairwise_iff_getElem.1 h i j hi hj hlt').2 hgt

/-- The order of a part of the entries. -/
theorem transCmp_on {β : Type*} {c : β → β → Ordering} [Std.TransCmp c] (f : α → β) :
    Std.TransCmp fun a b => c (f a) (f b) where
  eq_swap := Std.OrientedCmp.eq_swap
  isLE_trans := Std.TransCmp.isLE_trans

/-- The comparisons with a key go down in a list that is sorted by a part of its entries. -/
theorem descending_of_sorted {β : Type*} {c : β → β → Ordering} [Std.TransCmp c] {f : α → β} (key : β)
    (h : es.Pairwise fun a b => c (f a) (f b) ≠ .gt) : Descending (fun a => c key (f a)) es := by
  refine h.imp fun {a b} hab => ?_
  have hle : (c (f a) (f b)).isLE := by
    cases h : c (f a) (f b) with
    | lt => rfl
    | eq => rfl
    | gt => exact absurd h hab
  exact ⟨fun hlt => Std.TransCmp.lt_of_lt_of_isLE hlt hle,
    fun hgt => Std.TransCmp.gt_of_gt_of_isGE hgt (Std.OrientedCmp.isGE_of_isLE hle)⟩

/-- **The search misses no entry**: what lies outside of its range compares unequal. -/
theorem bsearch_none (h : Descending cmp es) (hu : u ≤ es.length) (hfuel : u - l ≤ fuel)
    (hlow : ∀ i a, es[i]? = some a → i < l → cmp a = .gt) (hhigh : ∀ i a, es[i]? = some a → u ≤ i → cmp a = .lt)
    (hnone : bsearch cmp es fuel l u = none) : ∀ a ∈ es, cmp a ≠ .eq := by
  induction fuel generalizing l u with
  | zero =>
    intro a ha
    obtain ⟨i, hi⟩ := List.getElem?_of_mem ha
    rcases Nat.lt_or_ge i l with hil | hil
    · rw [hlow i a hi hil]
      exact Ordering.noConfusion
    · rw [hhigh i a hi (by omega)]
      exact Ordering.noConfusion
  | succ fuel ih =>
    unfold bsearch at hnone
    by_cases hlu : l < u
    · rw [if_pos hlu] at hnone
      have hidx : (l + u) / 2 < es.length := by omega
      dsimp only at hnone
      have hmid := List.getElem?_eq_getElem hidx
      rw [hmid, Option.bind_some] at hnone
      cases hcmp : cmp es[(l + u) / 2] with
      | lt =>
        rw [hcmp] at hnone
        exact ih (by omega) (by omega) hlow (fun i a ha hi => h.lt hmid ha hi hcmp) hnone
      | gt =>
        rw [hcmp] at hnone
        exact ih hu (by omega) (fun i a ha hi => h.gt ha hmid (Nat.le_of_lt_succ hi) hcmp) hhigh hnone
      | eq =>
        rw [hcmp] at hnone
        exact absurd hnone (by simp)
    · intro a ha
      obtain ⟨i, hi⟩ := List.getElem?_of_mem ha
      rcases Nat.lt_or_ge i l with hil | hil
      · rw [hlow i a hi hil]
        exact Ordering.noConfusion
      · rw [hhigh i a hi (by omega)]
        exact Ordering.noConfusion

/-! ## Bounds that belong to the range -/

/-- The search among the entries from `lo` to `hi`, at most `fuel` of them. -/
def closedSearch {α : Type*} (cmp : α → Ordering) (es : List α) : ℕ → ℤ → ℤ → Option α
  | 0, _, _ => none
  | fuel + 1, lo, hi =>
    if lo ≤ hi then
      let mid := (lo + hi) / 2
      es[mid.toNat]?.bind fun e =>
        match cmp e with
        | .eq => some e
        | .lt => closedSearch cmp es fuel (mid + 1) hi
        | .gt => closedSearch cmp es fuel lo (mid - 1)
    else none

theorem closedSearch_mem {lo hi : ℤ} (h : closedSearch cmp es fuel lo hi = some e) : e ∈ es ∧ cmp e = .eq := by
  induction fuel generalizing lo hi with
  | zero => exact absurd h (by simp [closedSearch])
  | succ fuel ih =>
    unfold closedSearch at h
    split at h
    · obtain ⟨e', he', hcmp⟩ := Option.bind_eq_some_iff.1 h
      split at hcmp
      · next heq =>
        obtain rfl := Option.some.inj hcmp
        exact ⟨List.mem_of_getElem? he', heq⟩
      · exact ih hcmp
      · exact ih hcmp
    · exact absurd h (by simp)

/-- Entries on both sides of an empty range compare unequal. -/
theorem ne_eq_of_sides {lo hi : ℤ} (hlow : ∀ (i : ℕ) a, es[i]? = some a → (i : ℤ) < lo → cmp a = .lt)
    (hhigh : ∀ (i : ℕ) a, es[i]? = some a → hi < (i : ℤ) → cmp a = .gt) (hlt : hi < lo) : ∀ a ∈ es, cmp a ≠ .eq := by
  intro a ha
  obtain ⟨i, hi'⟩ := List.getElem?_of_mem ha
  rcases lt_or_ge (i : ℤ) lo with hil | hil
  · rw [hlow i a hi' hil]
    exact Ordering.noConfusion
  · rw [hhigh i a hi' (by omega)]
    exact Ordering.noConfusion

/-- **The closed search misses no entry**: what lies outside of its range compares unequal. -/
theorem closedSearch_none {lo hi : ℤ} (h : Descending (fun e => (cmp e).swap) es) (hlo : 0 ≤ lo)
    (hhi : hi < es.length) (hfuel : (hi - lo + 1).toNat ≤ fuel)
    (hlow : ∀ (i : ℕ) a, es[i]? = some a → (i : ℤ) < lo → cmp a = .lt)
    (hhigh : ∀ (i : ℕ) a, es[i]? = some a → hi < (i : ℤ) → cmp a = .gt)
    (hnone : closedSearch cmp es fuel lo hi = none) : ∀ a ∈ es, cmp a ≠ .eq := by
  induction fuel generalizing lo hi with
  | zero => exact ne_eq_of_sides hlow hhigh (by omega)
  | succ fuel ih =>
    unfold closedSearch at hnone
    by_cases hle : lo ≤ hi
    · rw [if_pos hle] at hnone
      have hidx : ((lo + hi) / 2).toNat < es.length := by omega
      dsimp only at hnone
      have hmid := List.getElem?_eq_getElem hidx
      rw [hmid, Option.bind_some] at hnone
      cases hcmp : cmp es[((lo + hi) / 2).toNat] with
      | eq =>
        rw [hcmp] at hnone
        exact absurd hnone (by simp)
      | lt =>
        -- all up to the middle are on the left of the key
        rw [hcmp] at hnone
        refine ih (by omega) hhi (by omega) ?_ hhigh hnone
        intro i a ha hi'
        have hgt := h.gt ha hmid (by omega) (by rw [hcmp]; rfl)
        exact Ordering.swap_eq_gt.1 hgt
      | gt =>
        -- all from the middle on are on its right
        rw [hcmp] at hnone
        refine ih hlo (by omega) (by omega) hlow ?_ hnone
        intro i a ha hi'
        have hlt := h.lt hmid ha (by omega) (by rw [hcmp]; rfl)
        exact Ordering.swap_eq_lt.1 hlt
    · exact ne_eq_of_sides hlow hhigh (by omega)

end BinarySearch
