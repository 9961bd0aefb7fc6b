import Mathlib.Tactic

/-!
# The first match in a list

A table kept in a list is searched from its start and updated at the first match. Seen
through a filter `q` (the entries of one party) such an update is the same update of the
filtered list, if `q` keeps what the search selects, and nothing if it drops it.
-/

namespace FirstMatch

variable {α : Type*} {p q : α → Bool} {f : α → α} {l pre post : List α} {a : α} {idx : ℕ}

/-- The list with its first match replaced. -/
def updateFirst (p : α → Bool) (f : α → α) : List α → List α
  | [] => []
  | a :: l => if p a then f a :: l else a :: updateFirst p f l

theorem updateFirst_none (h : l.find? p = none) : updateFirst p f l = l := by
  induction l with
  | nil => rfl
  | cons a l ih =>
    have hall := List.find?_eq_none.1 h
    rw [updateFirst, if_neg (hall a (by simp)), ih (List.find?_eq_none.2 fun x hx => hall x (by simp [hx]))]

/-- An update through the index of the first match. -/
theorem updateFirst_findIdx (h : l.findIdx? p = some idx) (d : α) :
    l.find? p = some (l.getD idx d) ∧ l.set idx (f (l.getD idx d)) = updateFirst p f l := by
  induction l generalizing idx with
  | nil => simp at h
  | cons a l ih =>
    rw [List.findIdx?_cons] at h
    by_cases ha : p a
    · rw [if_pos ha, Option.some.injEq] at h
      subst h
      exact ⟨List.find?_cons_of_pos ha, by rw [updateFirst, if_pos ha]; rfl⟩
    · rw [if_neg ha, Option.map_eq_some_iff] at h
      obtain ⟨i, hi, rfl⟩ := h
      obtain ⟨h1, h2⟩ := ih hi
      rw [List.find?_cons_of_neg ha, updateFirst, if_neg ha, List.getD_cons_succ, List.set_cons_succ, h1, h2]
      exact ⟨rfl, rfl⟩

theorem find?_of_findIdx? (h : l.findIdx? p = none) : l.find? p = none := by
  rw [List.findIdx?_eq_none_iff] at h
  exact List.find?_eq_none.2 fun x hx => by simp [h x hx]

theorem find?_split (hpre : ∀ x ∈ pre, p x = false) (ha : p a = true) : (pre ++ a :: post).find? p = some a := by
  rw [List.find?_append, List.find?_eq_none.2 fun x hx => by simp [hpre x hx], Option.none_or, List.find?_cons_of_pos ha]

theorem updateFirst_split (hpre : ∀ x ∈ pre, p x = false) (ha : p a = true) :
    updateFirst p f (pre ++ a :: post) = pre ++ f a :: post := by
  induction pre with
  | nil => rw [List.nil_append, updateFirst, if_pos ha, List.nil_append]
  | cons x pre ih =>
    rw [List.cons_append, updateFirst, if_neg (by simp [hpre x (by simp)]), ih fun y hy => hpre y (by simp [hy])]
    rfl

/-- A search sees the entries that it can select. -/
theorem find?_filter (h : ∀ x, p x = true → q x = true) : (l.filter q).find? p = l.find? p := by
  rw [List.find?_filter]
  congr 1
  funext x
  by_cases hx : p x
  · simp [hx, h x hx]
  · simp [hx]

/-- What an update selects is not of the other parties. -/
theorem filter_updateFirst_other (h : ∀ x, p x = true → q x = false ∧ q (f x) = false) :
    (updateFirst p f l).filter q = l.filter q := by
  induction l with
  | nil => rfl
  | cons a l ih =>
    rw [updateFirst]
    split
    · next ha => rw [List.filter_cons_of_neg (by simp [h a ha]), List.filter_cons_of_neg (by simp [h a ha])]
    · rw [List.filter_cons, List.filter_cons, ih]

/-- The update of the entries of one party. -/
theorem filter_updateFirst_own (h : ∀ x, p x = true → q x = true ∧ q (f x) = true) :
    (updateFirst p f l).filter q = updateFirst p f (l.filter q) := by
  induction l with
  | nil => rfl
  | cons a l ih =>
    rw [updateFirst]
    by_cases ha : p a
    · rw [if_pos ha, List.filter_cons_of_pos (h a ha).2, List.filter_cons_of_pos (h a ha).1, updateFirst, if_pos ha]
    · rw [if_neg ha]
      by_cases hq : q a
      · rw [List.filter_cons_of_pos hq, List.filter_cons_of_pos hq, updateFirst, if_neg ha, ih]
      · rw [List.filter_cons_of_neg hq, List.filter_cons_of_neg hq, ih]

/-- An update keeps what it does not change in an entry. -/
theorem map_updateFirst {β : Type*} {g : α → β} (h : ∀ x, g (f x) = g x) : (updateFirst p f l).map g = l.map g := by
  induction l with
  | nil => rfl
  | cons a l ih =>
    rw [updateFirst]
    split
    · rw [List.map_cons, List.map_cons, h]
    · rw [List.map_cons, List.map_cons, ih]

end FirstMatch
