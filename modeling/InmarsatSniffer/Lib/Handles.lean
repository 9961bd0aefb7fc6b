import Mathlib.Tactic

/-!
# Handles

A trace of what is done with handles, which are opened, used and closed, and whose values
may be given out again.

* `Orderly`: only handles that are open are used or closed, and only others are opened.
* `Orderly.notUsedClosed`: none is used behind its close.
* `Orderly.closedOnce`: if none is open at the end, each was closed once for every time it
  was opened. `not_closedOnce`: a close more than that.
* `Orderly.useAll`, `Orderly.closeAll`: the same done to several handles.
-/

namespace Handles

variable {H : Type*} [DecidableEq H]

/-- What is done with a handle. -/
inductive Ev (H : Type*) where
  | opened (h : H)
  | used (h : H)
  | closed (h : H)
  deriving DecidableEq

/-- What an event makes of the state of a handle. -/
def isOpenStep (h : H) (o : Bool) : Ev H → Bool
  | .opened h' => o || h' == h
  | .used _ => o
  | .closed h' => o && h' != h

/-- A handle is open behind a trace. -/
def isOpen (h : H) (trace : List (Ev H)) : Bool := trace.foldl (isOpenStep h) false

/-- What may be done behind a trace. -/
def Allowed (trace : List (Ev H)) : Ev H → Prop
  | .opened h => isOpen h trace = false
  | .used h => isOpen h trace = true
  | .closed h => isOpen h trace = true

/-- **An orderly trace.** -/
inductive Orderly : List (Ev H) → Prop where
  | nil : Orderly []
  | snoc {trace : List (Ev H)} {e : Ev H} (ht : Orderly trace) (he : Allowed trace e) : Orderly (trace ++ [e])

/-- What is done from the time that a handle is opened on, until its value is given out again. -/
def life (h : H) : List (Ev H) → List (Ev H)
  | [] => []
  | e :: post => if e = .opened h then [] else e :: life h post

/-- **Each handle is closed once** for every time it was opened. -/
def ClosedOnce (trace : List (Ev H)) : Prop :=
  ∀ pre h post, trace = pre ++ .opened h :: post → (life h post).count (.closed h) = 1

/-- **No handle is used behind its close.** -/
def NotUsedClosed (trace : List (Ev H)) : Prop :=
  ∀ pre h post, trace = pre ++ .opened h :: post →
    ∀ a b, life h post = a ++ .closed h :: b → .used h ∉ b

variable {h : H} {trace pre post : List (Ev H)} {e : Ev H}

theorem isOpen_snoc (h : H) (trace : List (Ev H)) (e : Ev H) :
    isOpen h (trace ++ [e]) = isOpenStep h (isOpen h trace) e := by
  rw [isOpen, List.foldl_append]
  rfl

@[simp] theorem isOpen_opened (h h' : H) (trace : List (Ev H)) :
    isOpen h (trace ++ [.opened h']) = (isOpen h trace || h' == h) := isOpen_snoc _ _ _

@[simp] theorem isOpen_used (h h' : H) (trace : List (Ev H)) : isOpen h (trace ++ [.used h']) = isOpen h trace :=
  isOpen_snoc _ _ _

@[simp] theorem isOpen_closed (h h' : H) (trace : List (Ev H)) :
    isOpen h (trace ++ [.closed h']) = (isOpen h trace && h' != h) := isOpen_snoc _ _ _

/-- Behind its last opening a handle is open until it is closed. -/
theorem isOpen_iff (pre : List (Ev H)) (hpost : .opened h ∉ post) :
    isOpen h (pre ++ .opened h :: post) = true ↔ .closed h ∉ post := by
  induction post using List.reverseRecOn with
  | nil => simp [isOpen_snoc, isOpenStep]
  | append_singleton post e ih =>
    rw [List.mem_append, not_or, List.mem_singleton] at hpost
    have hih := ih hpost.1
    rw [← List.cons_append, ← List.append_assoc, isOpen_snoc, List.mem_append, List.mem_singleton, not_or]
    cases e with
    | opened h' =>
      have hne : h' ≠ h := fun heq => hpost.2 (heq ▸ rfl)
      simp [isOpenStep, hne, hih]
    | used h' => simp [isOpenStep, hih]
    | closed h' =>
      by_cases heq : h' = h
      · simp [isOpenStep, heq]
      · simp [isOpenStep, heq, Ne.symm heq, hih]

/-- A handle that is open was opened. -/
theorem exists_opened (ho : isOpen h trace = true) : ∃ pre post, trace = pre ++ .opened h :: post ∧ .opened h ∉ post := by
  induction trace using List.reverseRecOn with
  | nil => cases ho
  | append_singleton trace e ih =>
    by_cases he : e = .opened h
    · subst he
      exact ⟨trace, [], rfl, List.not_mem_nil⟩
    · have hbefore : isOpen h trace = true := by
        rw [isOpen_snoc] at ho
        cases e with
        | opened h' =>
          have hne : h' ≠ h := fun heq => he (heq ▸ rfl)
          simpa [isOpenStep, hne] using ho
        | used h' => exact ho
        | closed h' =>
          rw [isOpenStep, Bool.and_eq_true] at ho
          exact ho.1
      obtain ⟨pre, post, rfl, hpost⟩ := ih hbefore
      refine ⟨pre, post ++ [e], by simp, ?_⟩
      rw [List.mem_append, List.mem_singleton, not_or]
      exact ⟨hpost, fun heq => he heq.symm⟩

theorem life_eq (hpost : .opened h ∉ post) : life h post = post := by
  induction post with
  | nil => rfl
  | cons e post ih =>
    rw [List.mem_cons, not_or] at hpost
    rw [life, if_neg (Ne.symm hpost.1), ih hpost.2]

/-- A life that has ended goes on with nothing. -/
theorem life_append (hpost : .opened h ∈ post) (post' : List (Ev H)) : life h (post ++ post') = life h post := by
  induction post with
  | nil => exact absurd hpost List.not_mem_nil
  | cons e post ih =>
    rw [List.cons_append, life, life]
    split
    · rfl
    · rename_i hne
      rw [ih ((List.mem_cons.1 hpost).resolve_left (Ne.symm hne))]

/-- A value that is given out again ends a life. -/
theorem life_opened (hpost : .opened h ∉ post) : life h (post ++ [.opened h]) = life h post := by
  induction post with
  | nil => exact if_pos rfl
  | cons e post ih =>
    rw [List.mem_cons, not_or] at hpost
    rw [List.cons_append, life, life, if_neg (Ne.symm hpost.1), if_neg (Ne.symm hpost.1), ih hpost.2]

omit [DecidableEq H] in
/-- One event more is at the end of a trace, or it is the opening itself. -/
theorem split_snoc (heq : trace ++ [e] = pre ++ .opened h :: post) :
    post = [] ∧ e = .opened h ∧ trace = pre ∨ ∃ post', post = post' ++ [e] ∧ trace = pre ++ .opened h :: post' := by
  rcases List.eq_nil_or_concat post with rfl | ⟨post', e', rfl⟩
  · obtain ⟨rfl, he⟩ := List.append_inj' heq rfl
    exact Or.inl ⟨rfl, List.singleton_inj.1 he, rfl⟩
  · rw [List.concat_eq_append, ← List.cons_append, ← List.append_assoc] at heq
    obtain ⟨rfl, he⟩ := List.append_inj' heq rfl
    rw [List.singleton_inj.1 he]
    exact Or.inr ⟨post', List.concat_eq_append, rfl⟩

/-- **The life of a handle**: closed once if it has ended or is not open any more, never if
it is open, and not used behind that. -/
structure Lived (trace : List (Ev H)) (h : H) (post : List (Ev H)) : Prop where
  ended : .opened h ∈ post ∨ isOpen h trace = false → (life h post).count (.closed h) = 1
  goesOn : .opened h ∉ post → isOpen h trace = true → (life h post).count (.closed h) = 0
  last : ∀ a b, life h post = a ++ .closed h :: b → .used h ∉ b

theorem Orderly.lived (ho : Orderly trace) : ∀ pre h post, trace = pre ++ .opened h :: post → Lived trace h post := by
  induction ho with
  | nil =>
    intro pre h post heq
    simp at heq
  | @snoc trace e ht he ih =>
    intro pre h post heq
    rcases split_snoc heq with ⟨rfl, rfl, rfl⟩ | ⟨post', rfl, heq'⟩
    · -- it has just been opened
      refine ⟨fun hend => ?_, fun _ _ => rfl, fun a b hab => by simp [life] at hab⟩
      rcases hend with hend | hend
      · exact absurd hend List.not_mem_nil
      · simp at hend
    obtain ⟨hended, hgoesOn, hlast⟩ := ih pre h post' heq'
    by_cases hmem : .opened h ∈ post'
    · -- its life had ended before
      have hlife := life_append hmem [e]
      refine ⟨fun _ => hlife ▸ hended (Or.inl hmem), fun hnot => ?_, hlife ▸ hlast⟩
      exact absurd (List.mem_append_left _ hmem) hnot
    by_cases hopened : e = .opened h
    · -- its value is given out again
      subst hopened
      have hlife := life_opened hmem
      refine ⟨fun _ => hlife ▸ hended (Or.inr he), fun hnot => ?_, hlife ▸ hlast⟩
      exact absurd (List.mem_append_right _ (List.mem_singleton_self _)) hnot
    -- its life goes on with the event
    have hmem' : .opened h ∉ post' ++ [e] := by
      rw [List.mem_append, List.mem_singleton, not_or]
      exact ⟨hmem, Ne.symm hopened⟩
    rw [life_eq hmem] at hended hgoesOn hlast
    have hopen := isOpen_iff pre hmem
    rw [← heq'] at hopen
    refine ⟨fun hend => ?_, fun _ hstill => ?_, fun a b hab => ?_⟩
    · have hend := hend.resolve_left hmem'
      rw [life_eq hmem', List.count_append]
      cases e with
      | opened h' =>
        have hne : h' ≠ h := fun h => hopened (h ▸ rfl)
        simp only [isOpen_opened, beq_eq_false_iff_ne.2 hne, Bool.or_false] at hend
        rw [hended (Or.inr hend)]
        rfl
      | used h' =>
        rw [isOpen_used] at hend
        rw [hended (Or.inr hend)]
        rfl
      | closed h' =>
        by_cases hh : h' = h
        · -- this is its close
          subst hh
          rw [hgoesOn hmem he]
          simp
        · rw [isOpen_closed, bne_iff_ne.2 hh, Bool.and_true] at hend
          rw [hended (Or.inr hend)]
          simp [hh]
    · rw [life_eq hmem', List.count_append]
      cases e with
      | opened h' =>
        have hne : h' ≠ h := fun h => hopened (h ▸ rfl)
        simp only [isOpen_opened, beq_eq_false_iff_ne.2 hne, Bool.or_false] at hstill
        rw [hgoesOn hmem hstill]
        rfl
      | used h' =>
        rw [isOpen_used] at hstill
        rw [hgoesOn hmem hstill]
        rfl
      | closed h' =>
        rw [isOpen_closed, Bool.and_eq_true] at hstill
        rw [hgoesOn hmem hstill.1]
        simp [bne_iff_ne.1 hstill.2]
    · rw [life_eq hmem'] at hab
      rcases List.eq_nil_or_concat b with rfl | ⟨b', e', rfl⟩
      · exact List.not_mem_nil
      · rw [List.concat_eq_append, ← List.cons_append, ← List.append_assoc] at hab
        obtain ⟨hpost, he'⟩ := List.append_inj' hab rfl
        obtain rfl := List.singleton_inj.1 he'
        rw [List.concat_eq_append, List.mem_append, List.mem_singleton, not_or]
        refine ⟨hlast a b' hpost, fun hused => ?_⟩
        -- a use needs the handle open, but its close is in the past
        subst hused
        refine hopen.1 he ?_
        rw [hpost]
        exact List.mem_append_right _ List.mem_cons_self

/-- **None is used behind its close.** -/
theorem Orderly.notUsedClosed (ho : Orderly trace) : NotUsedClosed trace := fun pre h post heq =>
  (ho.lived pre h post heq).last

/-- **Each handle was closed once**, if none is open any more. -/
theorem Orderly.closedOnce (ho : Orderly trace) (hend : ∀ h, isOpen h trace = false) : ClosedOnce trace :=
  fun pre h post heq => (ho.lived pre h post heq).ended (Or.inr (hend h))

/-! ## Several handles at once -/

@[simp] theorem isOpen_useAll (h : H) (trace : List (Ev H)) (hs : List H) :
    isOpen h (trace ++ hs.map .used) = isOpen h trace := by
  induction hs generalizing trace with
  | nil => rw [List.map_nil, List.append_nil]
  | cons h' hs ih => rw [List.map_cons, List.append_cons, ih, isOpen_used]

@[simp] theorem isOpen_closeAll (h : H) (trace : List (Ev H)) (hs : List H) :
    isOpen h (trace ++ hs.map .closed) = (isOpen h trace && decide (h ∉ hs)) := by
  induction hs generalizing trace with
  | nil => simp
  | cons h' hs ih =>
    rw [List.map_cons, List.append_cons, ih, isOpen_closed, Bool.and_assoc]
    by_cases hh : h' = h
    · simp [hh]
    · rw [bne_iff_ne.2 hh, Bool.true_and]
      simp [Ne.symm hh]

/-- Open handles are used. -/
theorem Orderly.useAll (ho : Orderly trace) {hs : List H} (hopen : ∀ h ∈ hs, isOpen h trace = true) :
    Orderly (trace ++ hs.map .used) := by
  induction hs generalizing trace with
  | nil => rwa [List.map_nil, List.append_nil]
  | cons h hs ih =>
    rw [List.map_cons, List.append_cons]
    refine ih (ho.snoc (hopen h List.mem_cons_self)) fun h' hh' => ?_
    rw [isOpen_used]
    exact hopen h' (List.mem_cons_of_mem _ hh')

/-- Open handles are closed, each once. -/
theorem Orderly.closeAll (ho : Orderly trace) {hs : List H} (hnodup : hs.Nodup)
    (hopen : ∀ h ∈ hs, isOpen h trace = true) : Orderly (trace ++ hs.map .closed) := by
  induction hs generalizing trace with
  | nil => rwa [List.map_nil, List.append_nil]
  | cons h hs ih =>
    obtain ⟨hnot, hnodup⟩ := List.nodup_cons.1 hnodup
    rw [List.map_cons, List.append_cons]
    refine ih (ho.snoc (hopen h List.mem_cons_self)) hnodup fun h' hh' => ?_
    have hne : h ≠ h' := fun heq => hnot (heq ▸ hh')
    rw [isOpen_closed, bne_iff_ne.2 hne, Bool.and_true]
    exact hopen h' (List.mem_cons_of_mem _ hh')

/-- Closes, orderly or not, are not uses. -/
theorem NotUsedClosed.closeAll (hn : NotUsedClosed trace) (hs : List H) : NotUsedClosed (trace ++ hs.map .closed) := by
  induction hs generalizing trace with
  | nil => rwa [List.map_nil, List.append_nil]
  | cons h' hs ih =>
    rw [List.map_cons, List.append_cons]
    refine ih fun pre h post heq a b hab => ?_
    rcases split_snoc heq with ⟨rfl, he, -⟩ | ⟨post', rfl, heq'⟩
    · cases he
    have hlast := hn pre h post' heq'
    by_cases hmem : .opened h ∈ post'
    · rw [life_append hmem] at hab
      exact hlast a b hab
    rw [life_eq (by simpa using hmem)] at hab
    rw [life_eq hmem] at hlast
    rcases List.eq_nil_or_concat b with rfl | ⟨b', e', rfl⟩
    · exact List.not_mem_nil
    rw [List.concat_eq_append, ← List.cons_append, ← List.append_assoc] at hab
    obtain ⟨hpost, he'⟩ := List.append_inj' hab rfl
    obtain rfl := List.singleton_inj.1 he'
    rw [List.concat_eq_append, List.mem_append, List.mem_singleton, not_or]
    exact ⟨hlast a b' hpost, fun hused => by cases hused⟩

/-- A handle that is closed twice in a row. -/
theorem not_closedOnce (hopen : isOpen h trace = true) : ¬ClosedOnce (trace ++ [.closed h, .closed h]) := by
  intro honce
  obtain ⟨pre, post, rfl, hpost⟩ := exists_opened hopen
  have hlife := honce pre h (post ++ [.closed h, .closed h]) (by simp)
  have hnot : .opened h ∉ post ++ [.closed h, .closed h] := by simpa using hpost
  rw [life_eq hnot, List.count_append] at hlife
  simp at hlife

end Handles
