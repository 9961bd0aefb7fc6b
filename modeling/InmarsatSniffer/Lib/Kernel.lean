import Mathlib
import InmarsatSniffer.Lib.Logged

/-!
# Kernels over arrays

A kernel reads arrays that nothing writes and writes one array that it does not read: what it
does is the list of its accesses (`Event`). One kernel refines another if it leaves the same
output and touches nothing that the other does not touch (`Refines`).

* `forLoop`: `for (; i + last < n; i += last + 1)` with a state, in closed form (`forLoop_eq`).
* `blocks_refine`: **a loop over blocks with a loop over the rest refines the loop over all**
  if each block refines the turns that it stands for.
* `block_refines`: blocks that write index after index.
-/

namespace Kernel

/-- Element `i` of an array is read, or element `i` of the output is written. -/
inductive Event (A R : Type) where
  | read (a : A) (i : ℤ)
  | write (i : ℤ) (v : R)
  deriving DecidableEq

section Accesses

variable {A R S : Type}

/-- `a[i]`. -/
def load (a : A) (mem : ℤ → S) (i : ℤ) : Logged (Event A R) S := ⟨mem i, [.read a i]⟩

/-- `out[i] = v`. -/
def store (i : ℤ) (v : R) : Logged (Event A R) Unit := ⟨(), [.write i v]⟩

/-- `w` elements from `a[i]` on. -/
def loadLanes (w : ℕ) (a : A) (mem : ℤ → S) (i : ℤ) : Logged (Event A R) (Fin w → S) :=
  ⟨fun l => mem (i + (l : ℕ)), (List.range w).map fun l : ℕ => .read a (i + l)⟩

/-- `w` elements to `out[i]` on. -/
def storeLanes {w : ℕ} (i : ℤ) (v : Fin w → R) : Logged (Event A R) Unit :=
  ⟨(), (List.finRange w).map fun l : Fin w => .write (i + (l : ℕ)) (v l)⟩

end Accesses

/-! ## Loops -/

section Loops

variable {ε σ M : Type}

/-- `for (; i + last < n; i += last + 1)`; the result is the counter behind the loop, and the state. -/
def forLoop (last : ℕ) (n : ℤ) (body : ℕ → σ → Logged ε σ) (i : ℕ) (s : σ) : Logged ε (ℕ × σ) :=
  if (i + last : ℤ) < n then do
    let s ← body i s
    forLoop last n body (i + (last + 1)) s
  else pure (i, s)
termination_by (n - i).toNat

/-- How many turns the loop takes. -/
def trips (last : ℕ) (n : ℤ) (i : ℕ) : ℕ := (n - i).toNat / (last + 1)

variable {last i : ℕ} {n : ℤ}

theorem trips_succ (h : (i + last : ℤ) < n) : trips last n i = trips last n (i + (last + 1)) + 1 := by
  have hsub : (n - i).toNat = (n - (i + (last + 1) : ℕ)).toNat + (last + 1) := by omega
  rw [trips, hsub, Nat.add_div_right _ (Nat.succ_pos last)]
  rfl

theorem trips_zero (h : ¬(i + last : ℤ) < n) : trips last n i = 0 := Nat.div_eq_of_lt (by omega)

/-- **The rule of the loop**: an invariant `I` of the counter and the state, the accesses `P` of a turn, and
what is left to do behind the loop, where the counter has run out. -/
theorem forLoop_rule {α : Type} {body : ℕ → σ → Logged ε σ} {f : ℕ × σ → Logged ε α} {s : σ} {Q : List ε → Prop}
    (I : ℕ → σ → Prop) {P : ε → Prop} (h : I i s)
    (turn : ∀ (k : ℕ) s, (k + last : ℤ) < n → I k s → I (k + (last + 1)) (body k s).val ∧ (body k s).All P)
    (done : ∀ (k : ℕ) s es, n ≤ k + last → I k s → (∀ e ∈ es, P e) → Q (es ++ (f (k, s)).log)) :
    Q (forLoop last n body i s >>= f).log := by
  induction hm : trips last n i generalizing i s Q with
  | zero =>
    have hstop : ¬(i + last : ℤ) < n := by
      intro hlt
      rw [trips_succ hlt] at hm
      exact Nat.succ_ne_zero _ hm
    rw [forLoop, if_neg hstop]
    exact done i s [] (not_lt.1 hstop) h fun e he => absurd he List.not_mem_nil
  | succ m ih =>
    have hgo : (i + last : ℤ) < n := by
      by_contra hstop
      rw [trips_zero hstop] at hm
      exact absurd hm (by omega)
    have hm' : trips last n (i + (last + 1)) = m := by
      rw [trips_succ hgo] at hm
      exact Nat.succ.inj hm
    obtain ⟨hI, hP⟩ := turn i s hgo h
    rw [forLoop, if_pos hgo]
    -- what the first turn touched stands in front of what the other turns do
    have hrest : Q ((body i s).log ++ (forLoop last n body (i + (last + 1)) (body i s).val >>= f).log) := by
      refine ih (Q := fun es => Q ((body i s).log ++ es)) hI (fun k s' es hk hs hes => ?_) hm'
      rw [← List.append_assoc]
      exact done k s' _ hk hs (List.forall_mem_append.2 ⟨hP, hes⟩)
    simpa [List.append_assoc] using hrest

/-- **A loop that adds up**, in closed form. -/
theorem forLoop_eq [AddCommMonoid M] {body : ℕ → M → Logged ε M} {acc : M} (f : ℕ → M) (es : ℕ → List ε)
    (hval : ∀ k acc, (body k acc).val = acc + f k) (hlog : ∀ k acc, (body k acc).log = es k) : forLoop last n body i acc =
      ⟨(i + (last + 1) * trips last n i, acc + ∑ j ∈ Finset.range (trips last n i), f (i + (last + 1) * j)),
        (List.range (trips last n i)).flatMap fun j => es (i + (last + 1) * j)⟩ := by
  induction hm : trips last n i generalizing i acc with
  | zero =>
    have hstop : ¬(i + last : ℤ) < n := by
      intro hlt
      rw [trips_succ hlt] at hm
      exact Nat.succ_ne_zero _ hm
    rw [forLoop, if_neg hstop]
    simp
    rfl
  | succ m ih =>
    have hgo : (i + last : ℤ) < n := by
      by_contra hstop
      rw [trips_zero hstop] at hm
      exact absurd hm (by omega)
    have hm' : trips last n (i + (last + 1)) = m := by
      rw [trips_succ hgo] at hm
      exact Nat.succ.inj hm
    have hstep : ∀ j, i + (last + 1) + (last + 1) * j = i + (last + 1) * (j + 1) := fun j => by ring
    rw [forLoop, if_pos hgo]
    simp only [bind, hval, hlog, ih hm', hstep]
    rw [Finset.sum_range_succ', List.range_succ_eq_map, List.flatMap_cons, List.flatMap_map]
    simp only [Nat.mul_zero, Nat.add_zero]
    rw [add_assoc acc, add_comm (f i)]

/-- The loop over all indices. -/
theorem forLoop_all [AddCommMonoid M] {body : ℕ → M → Logged ε M} {acc : M} (f : ℕ → M) (es : ℕ → List ε)
    (hval : ∀ k acc, (body k acc).val = acc + f k) (hlog : ∀ k acc, (body k acc).log = es k) : forLoop 0 n body 0 acc =
      ⟨(n.toNat, acc + ∑ k ∈ Finset.range n.toNat, f k), (List.range n.toNat).flatMap es⟩ := by
  have htrips : trips 0 n 0 = n.toNat := by
    unfold trips
    rw [Nat.cast_zero, sub_zero, Nat.zero_add, Nat.div_one]
  rw [forLoop_eq f es hval hlog, htrips]
  simp only [Nat.zero_add, Nat.one_mul]

/-- A loop without a state does its turns one after the other. -/
theorem forLoop_unit (body : ℕ → Logged ε Unit) : forLoop last n (fun i _ => body i) i () =
    ⟨(i + (last + 1) * trips last n i, ()),
      (List.range (trips last n i)).flatMap fun j => (body (i + (last + 1) * j)).log⟩ :=
  forLoop_eq (fun _ => ()) (fun i => (body i).log) (fun _ _ => rfl) fun _ _ => rfl

end Loops

/-! ## Refinement -/

section Refines

variable {A R : Type} {es es' ds ds' : List (Event A R)} {i : ℤ} {n : ℕ}

/-- The writes of a list of accesses. -/
def writesOf (es : List (Event A R)) : List (ℤ × R) :=
  es.filterMap fun e => match e with
    | .read _ _ => none
    | .write i v => some (i, v)

/-- The output array after the writes. -/
def after (ws : List (ℤ × R)) (mem : ℤ → R) : ℤ → R := ws.foldl (fun m w => Function.update m w.1 w.2) mem

/-- The accesses `es` leave the output that `es'` leave, and touch nothing that these do not touch. -/
structure Refines (es es' : List (Event A R)) : Prop where
  output : ∀ mem, after (writesOf es) mem = after (writesOf es') mem
  reads : ∀ a i, .read a i ∈ es → .read a i ∈ es'
  writes : ∀ w ∈ writesOf es, ∃ w' ∈ writesOf es', w'.1 = w.1

theorem writesOf_append (es ds : List (Event A R)) : writesOf (es ++ ds) = writesOf es ++ writesOf ds :=
  List.filterMap_append

theorem writesOf_flatMap {α : Type} (l : List α) (f : α → List (Event A R)) :
    writesOf (l.flatMap f) = l.flatMap fun x => writesOf (f x) := List.filterMap_flatMap

theorem writesOf_bind {α β : Type} (c : Logged (Event A R) α) (f : α → Logged (Event A R) β) :
    writesOf (c >>= f).log = writesOf c.log ++ writesOf (f c.val).log := writesOf_append _ _

@[simp] theorem writesOf_load {S : Type} (a : A) (mem : ℤ → S) (i : ℤ) :
    writesOf (load a mem i : Logged (Event A R) S).log = [] := rfl

@[simp] theorem writesOf_loadLanes {S : Type} (w : ℕ) (a : A) (mem : ℤ → S) (i : ℤ) :
    writesOf (loadLanes w a mem i : Logged (Event A R) (Fin w → S)).log = [] := by
  simp [writesOf, loadLanes, List.filterMap_map]

theorem after_append (ws ws' : List (ℤ × R)) (mem : ℤ → R) : after (ws ++ ws') mem = after ws' (after ws mem) :=
  List.foldl_append

theorem Refines.append (h : Refines es es') (h' : Refines ds ds') : Refines (es ++ ds) (es' ++ ds') where
  output mem := by rw [writesOf_append, writesOf_append, after_append, after_append, h.output, h'.output]
  reads a i hmem := by
    rw [List.mem_append] at hmem ⊢
    exact hmem.imp (h.reads a i) (h'.reads a i)
  writes w hw := by
    rw [writesOf_append, List.mem_append] at hw
    rcases hw with hw | hw
    · obtain ⟨w', hw', heq⟩ := h.writes w hw
      exact ⟨w', by rw [writesOf_append]; exact List.mem_append_left _ hw', heq⟩
    · obtain ⟨w', hw', heq⟩ := h'.writes w hw
      exact ⟨w', by rw [writesOf_append]; exact List.mem_append_right _ hw', heq⟩

theorem Refines.refl (es : List (Event A R)) : Refines es es where
  output _ := rfl
  reads _ _ h := h
  writes w hw := ⟨w, hw, rfl⟩

theorem Refines.flatMap {α : Type} {l : List α} {f g : α → List (Event A R)} (h : ∀ x ∈ l, Refines (f x) (g x)) :
    Refines (l.flatMap f) (l.flatMap g) := by
  induction l with
  | nil => exact .refl []
  | cons x l ih =>
    obtain ⟨hx, hl⟩ := List.forall_mem_cons.1 h
    exact hx.append (ih hl)

/-- Writes in another order, none of them at the index of another one. -/
theorem Refines.of_perm (hperm : (writesOf es).Perm (writesOf es')) (hnodup : ((writesOf es).map Prod.fst).Nodup)
    (hreads : ∀ a i, .read a i ∈ es → .read a i ∈ es') : Refines es es' where
  output mem := by
    refine hperm.foldl_eq' (fun w hw w' hw' m => ?_) mem
    by_cases hidx : w.1 = w'.1
    · rw [List.inj_on_of_nodup_map hnodup hw hw' hidx]
    · exact Function.update_comm hidx _ _ _
  reads := hreads
  writes w hw := ⟨w, hperm.mem_iff.1 hw, rfl⟩

/-- The same writes. -/
theorem Refines.of_eq (heq : writesOf es = writesOf es') (hreads : ∀ a i, .read a i ∈ es → .read a i ∈ es') :
    Refines es es' where
  output mem := by rw [heq]
  reads := hreads
  writes w hw := ⟨w, heq ▸ hw, rfl⟩

/-- The turns of a loop, in blocks of `w` and a rest. -/
theorem range_blocks {α : Type} (w m r : ℕ) (f : ℕ → List α) : (List.range (w * m + r)).flatMap f =
    ((List.range m).flatMap fun j => (List.range w).flatMap fun l => f (w * j + l)) ++
      (List.range r).flatMap fun j => f (w * m + j) := by
  rw [List.range_add, List.flatMap_append, List.flatMap_map]
  congr 1
  induction m with
  | zero => simp
  | succ m ih => rw [Nat.mul_succ, List.range_add, List.flatMap_append, ih, List.range_succ, List.flatMap_append,
      List.flatMap_map, List.flatMap_singleton]

variable {last : ℕ} {N : ℤ} {block tail body : ℕ → Logged (Event A R) Unit}

/-- The loop over blocks, and behind it the loop over the rest. -/
def blockLoop (last : ℕ) (N : ℤ) (block tail : ℕ → Logged (Event A R) Unit) : Logged (Event A R) Unit := do
  let (i, _) ← forLoop last N (fun i _ => block i) 0 ()
  let _ ← forLoop 0 N (fun i _ => tail i) i ()
  pure ()

/-- The loop over all. -/
def plainLoop (N : ℤ) (body : ℕ → Logged (Event A R) Unit) : Logged (Event A R) Unit := do
  let _ ← forLoop 0 N (fun i _ => body i) 0 ()
  pure ()

theorem log_plainLoop : (plainLoop N body).log = (List.range N.toNat).flatMap fun j => (body j).log := by
  have htrips : trips 0 N 0 = N.toNat := by
    unfold trips
    rw [Nat.cast_zero, sub_zero, Nat.zero_add, Nat.div_one]
  rw [plainLoop, Logged.log_bind, forLoop_unit, htrips]
  simp

theorem log_blockLoop : (blockLoop last N block tail).log =
    ((List.range (N.toNat / (last + 1))).flatMap fun j => (block ((last + 1) * j)).log) ++
      (List.range (N.toNat % (last + 1))).flatMap fun j => (tail ((last + 1) * (N.toNat / (last + 1)) + j)).log := by
  have htrips : trips last N 0 = N.toNat / (last + 1) := by
    unfold trips
    rw [Nat.cast_zero, sub_zero]
  have hrest : trips 0 N ((last + 1) * (N.toNat / (last + 1))) = N.toNat % (last + 1) := by
    have hdiv := Nat.div_add_mod N.toNat (last + 1)
    unfold trips
    rw [Nat.zero_add, Nat.div_one]
    omega
  rw [blockLoop, Logged.log_bind, forLoop_unit, htrips]
  dsimp only
  rw [Logged.log_bind, Nat.zero_add, forLoop_unit, hrest]
  simp

/-- **A loop over blocks refines the loop over all** if each block refines the turns that it stands for. -/
theorem blocks_refine (hblock : ∀ i : ℕ, (i + last : ℤ) < N →
      Refines (block i).log ((List.range (last + 1)).flatMap fun l => (body (i + l)).log))
    (htail : ∀ i : ℕ, (i : ℤ) < N → Refines (tail i).log (body i).log) :
    Refines (blockLoop last N block tail).log (plainLoop N body).log := by
  have hdiv := Nat.div_add_mod N.toNat (last + 1)
  rw [log_blockLoop, log_plainLoop, ← hdiv, range_blocks, hdiv]
  refine Refines.append (.flatMap fun j hj => hblock _ ?_) (.flatMap fun j hj => htail _ ?_)
  · have hlt := Nat.mul_le_mul_left (last + 1) (Nat.succ_le_of_lt (List.mem_range.1 hj))
    have hle := Nat.mul_div_le N.toNat (last + 1)
    rw [Nat.mul_succ] at hlt
    omega
  · have hlt := List.mem_range.1 hj
    omega

/-- Loops with the same turns. -/
theorem turns_refine {body' : ℕ → Logged (Event A R) Unit} (h : ∀ i : ℕ, (i : ℤ) < N → Refines (body' i).log (body i).log) :
    Refines (plainLoop N body').log (plainLoop N body).log := by
  rw [log_plainLoop, log_plainLoop]
  refine .flatMap fun j hj => h j ?_
  have hlt := List.mem_range.1 hj
  omega

/-! ### Index after index -/

/-- The writes of `g` at `count` indices from `i` on. -/
def run (g : ℤ → R) (i : ℤ) (count : ℕ) : List (ℤ × R) := (List.range count).map fun l : ℕ => (i + l, g (i + l))

variable {g : ℤ → R} {w : ℕ}

theorem run_add (g : ℤ → R) (i : ℤ) (a b : ℕ) : run g i (a + b) = run g i a ++ run g (i + a) b := by
  simp [run, List.range_add, add_assoc]

theorem run_flatMap (g : ℤ → R) (i : ℤ) (c w : ℕ) :
    ((List.range w).flatMap fun l => run g (i + (c * l : ℕ)) c) = run g i (c * w) := by
  induction w with
  | zero => rfl
  | succ w ih => rw [List.range_succ, List.flatMap_append, ih, List.flatMap_singleton, Nat.mul_succ, run_add]

theorem writesOf_storeLanes {v : Fin w → R} (h : ∀ l : Fin w, v l = g (i + (l : ℕ))) :
    writesOf (storeLanes i v : Logged (Event A R) Unit).log = run g i w := by
  have hrange : List.range w = (List.finRange w).map Fin.val := by simp
  rw [run, hrange, List.map_map, storeLanes, writesOf, List.filterMap_map]
  refine (List.filterMap_eq_map (f := fun l : Fin w => (i + (l : ℕ), g (i + (l : ℕ))))) ▸ ?_
  refine List.filterMap_congr fun l _ => ?_
  simp [h l]

/-- Accesses that only read. -/
def ReadsOnly (es : List (Event A R)) : Prop := ∀ e ∈ es, ∃ a j, e = .read a j

theorem ReadsOnly.writesOf (h : ReadsOnly es) : writesOf es = [] := by
  rw [Kernel.writesOf, List.filterMap_eq_nil_iff]
  intro e he
  obtain ⟨a, j, rfl⟩ := h e he
  rfl

/-- Accesses that only read in front of writes. -/
theorem ReadsOnly.writesOf_append (h : ReadsOnly es) (ds : List (Event A R)) : Kernel.writesOf (es ++ ds) = Kernel.writesOf ds := by
  rw [Kernel.writesOf_append, h.writesOf, List.nil_append]

theorem ReadsOnly.append (h : ReadsOnly es) (h' : ReadsOnly ds) : ReadsOnly (es ++ ds) :=
  List.forall_mem_append.2 ⟨h, h'⟩

theorem ReadsOnly.flatMap {α : Type} {l : List α} {f : α → List (Event A R)} (h : ∀ x, ReadsOnly (f x)) :
    ReadsOnly (l.flatMap f) := by
  intro e he
  obtain ⟨x, -, hx⟩ := List.mem_flatMap.1 he
  exact h x e hx

/-- An access that is not a read, or one of the reads of `es`. -/
def Within (es : List (Event A R)) : Event A R → Prop
  | .read a i => .read a i ∈ es
  | .write _ _ => True

theorem within_loadLanes {S : Type} {a : A} {mem : ℤ → S} (h : ∀ l < w, .read a (i + (l : ℕ)) ∈ es) :
    (loadLanes w a mem i).All (Within es) := by
  intro e he
  obtain ⟨l, hl, rfl⟩ := List.mem_map.1 he
  exact h l (List.mem_range.1 hl)

theorem within_load {S : Type} {a : A} {mem : ℤ → S} (h : .read a i ∈ es) : (load a mem i).All (Within es) := by
  intro e he
  obtain rfl := List.mem_singleton.1 he
  exact h

theorem within_storeLanes {v : Fin w → R} : (storeLanes i v).All (Within es) := by
  intro e he
  obtain ⟨l, -, rfl⟩ := List.mem_map.1 he
  trivial

theorem mem_turns {i l : ℕ} {e : Event A R} (hl : l ≤ last) (h : e ∈ (body (i + l)).log) :
    e ∈ (List.range (last + 1)).flatMap fun l => (body (i + l)).log :=
  List.mem_flatMap.2 ⟨l, List.mem_range.2 (Nat.lt_succ_of_le hl), h⟩

/-- **A block that writes index after index refines the turns that do.** -/
theorem block_refines {c : ℕ} {i : ℕ} (hblock : writesOf (block i).log = run g (c * i : ℕ) (c * (last + 1)))
    (hbody : ∀ j, writesOf (body j).log = run g (c * j : ℕ) c)
    (hreads : (block i).All (Within ((List.range (last + 1)).flatMap fun l => (body (i + l)).log))) :
    Refines (block i).log ((List.range (last + 1)).flatMap fun l => (body (i + l)).log) := by
  refine .of_eq ?_ fun a j hmem => hreads _ hmem
  rw [hblock, writesOf_flatMap, ← run_flatMap]
  refine congrArg₂ List.flatMap (funext fun l => ?_) rfl
  rw [hbody, Nat.mul_add, Nat.cast_add]

end Refines

end Kernel
