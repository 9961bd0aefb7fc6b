import InmarsatSniffer.Proof.FairLock
import InmarsatSniffer.Spec.CondQueue

/-!
# The list of the fair lock is a list

* `Holds`: the entries that wait, those in the pool and those still in use are three lists without a common entry.
* `cond_queue_refines`: the pointers do what the lists do, and no null pointer is followed.
-/

namespace InmarsatSniffer.Fair

open LinkedCells

variable {P T : Type} [DecidableEq P] {s s' : CondState P T} {lock : FairLock T} {es ps : List P} {entry : P}

/-- **What is in memory**: `es` wait, and `ps` are in the pool. -/
structure Holds (s : CondState P T) (lock : FairLock T) (es ps : List P) : Prop where
  front : s.q.condQueueFront = es.head?
  rear : s.q.condQueueRear = es.getLast?
  linked : Linked s.q.next es
  pool : s.q.condPool = ps.head?
  poolLinked : Linked s.q.next ps
  nodup : (es ++ (ps ++ s.used)).Nodup
  allocated : ∀ p ∈ es ++ (ps ++ s.used), p ∈ s.allocated
  entries : lock.condQueue = es.map fun e => ⟨s.owner e, s.q.weak e⟩
  waiting : s.q.waitingThreads = lock.waitingThreads
  strong : ∀ e ∈ es, s.q.abandoned e = false

omit [DecidableEq P] in
theorem init_holds (next : P → Option P) (weak abandoned : P → Bool) (owner : P → T) :
    Holds (CondState.init next weak abandoned owner) .init [] [] :=
  ⟨rfl, rfl, trivial, rfl, trivial, List.nodup_nil, fun _ hp => (List.not_mem_nil hp).elim, rfl, rfl,
    fun _ he => (List.not_mem_nil he).elim⟩

/-- There is an entry in the pool. -/
theorem Holds.fill (h : Holds s lock es ps) {memory : P} (hmemory : memory ∉ s.allocated) :
    ∃ entry rest, Holds { s with q := s.q.fill memory, allocated := memory :: s.allocated } lock es (entry :: rest) := by
  have hpool := h.pool
  unfold CondQueue.fill
  cases ps with
  | cons entry rest =>
    refine ⟨entry, rest, ?_⟩
    rw [hpool]
    exact ⟨h.front, h.rear, h.linked, hpool, h.poolLinked, h.nodup,
      fun p hp => List.mem_cons_of_mem _ (h.allocated p hp), h.entries, h.waiting, h.strong⟩
  | nil =>
    refine ⟨memory, [], ?_⟩
    have hnot : memory ∉ es ++ ([] ++ s.used) := fun hmem => hmemory (h.allocated memory hmem)
    have hnodup : (es ++ (memory :: s.used)).Nodup := List.nodup_middle.2 (List.nodup_cons.2 ⟨hnot, h.nodup⟩)
    rw [hpool]
    refine ⟨h.front, h.rear, h.linked.update (fun hmem => hnot (List.mem_append_left _ hmem)) none, rfl,
      ⟨Function.update_self .., trivial⟩, hnodup, fun p hp => ?_, h.entries, h.waiting, h.strong⟩
    rcases List.mem_append.1 hp with hp | hp
    · exact List.mem_cons_of_mem _ (h.allocated p (List.mem_append_left _ hp))
    · rcases List.mem_cons.1 hp with rfl | hp
      · exact List.mem_cons_self
      · exact List.mem_cons_of_mem _ (h.allocated p (List.mem_append_right _ hp))

/-- The state behind `enqueue_cond_queue_entry`, with an entry in the pool. -/
theorem Holds.link (h : Holds s lock es (entry :: ps)) (thread : T) (weak : Bool) :
    Holds
      { s with
        q := { s.q with
          weak := Function.update s.q.weak entry weak
          abandoned := Function.update s.q.abandoned entry false
          condQueueFront := (es ++ [entry]).head?
          condQueueRear := some entry
          condPool := relink s.q.next es.getLast? (some entry) entry
          next := Function.update (relink s.q.next es.getLast? (some entry)) entry none }
        owner := Function.update s.owner entry thread }
      (lock.enqueueCondQueueEntry thread weak) (es ++ [entry]) ps := by
  obtain ⟨hnot, hnodup⟩ := List.nodup_cons.1 (List.nodup_middle.1 h.nodup)
  have hes : entry ∉ es := fun hmem => hnot (List.mem_append_left _ hmem)
  have hps : entry ∉ ps := fun hmem => hnot (List.mem_append_right _ (List.mem_append_left _ hmem))
  have hnodup' : (es ++ [entry]).Nodup :=
    List.nodup_append.2 ⟨(List.nodup_append.1 hnodup).1, List.nodup_singleton _, fun a ha b hb hab => by
      rw [List.mem_singleton.1 hb] at hab
      exact hes (hab ▸ ha)⟩
  have hne : ∀ e ∈ es, e ≠ entry := fun e he heq => hes (heq ▸ he)
  refine ⟨rfl, ?_, h.linked.snoc hnodup', ?_, ?_, ?_, fun p hp => h.allocated p ?_, ?_, h.waiting, fun e he => ?_⟩
  · rw [List.getLast?_append_cons]
    rfl
  · show relink s.q.next es.getLast? (some entry) entry = _
    rw [relink_of_notMem hes]
    exact h.poolLinked.1
  · -- the pool is as it was
    refine h.poolLinked.2.congr fun p hp => ?_
    have hpe : p ≠ entry := fun heq => hps (heq ▸ hp)
    have hpes : p ∉ es := fun hmem => (List.nodup_append.1 hnodup).2.2 p hmem p (List.mem_append_left _ hp) rfl
    show Function.update (relink s.q.next es.getLast? (some entry)) entry none p = s.q.next p
    rw [Function.update_of_ne hpe, relink_of_notMem hpes]
  · rw [List.append_assoc]
    exact h.nodup
  · rw [List.append_assoc] at hp
    exact hp
  · show lock.condQueue ++ [_] = _
    rw [h.entries, List.map_append]
    congr 1
    · refine List.map_congr_left fun e he => ?_
      dsimp only
      rw [Function.update_of_ne (hne e he), Function.update_of_ne (hne e he)]
    · rw [List.map_singleton]
      dsimp only
      rw [Function.update_self, Function.update_self]
  · show Function.update s.q.abandoned entry false e = false
    rcases List.mem_append.1 he with he | he
    · rw [Function.update_of_ne (hne e he)]
      exact h.strong e he
    · rw [List.mem_singleton.1 he, Function.update_self]

/-- An entry goes behind the others, and no null pointer is followed. -/
theorem Holds.enqueue (h : Holds s lock es ps) {memory : P} (hmemory : memory ∉ s.allocated) (thread : T) (weak : Bool) :
    ∃ q entry, s.q.enqueueCondQueueEntry memory weak = some (q, entry) ∧ ∃ ps',
      Holds { s with q := q, owner := Function.update s.owner entry thread, allocated := memory :: s.allocated }
        (lock.enqueueCondQueueEntry thread weak) (es ++ [entry]) ps' := by
  obtain ⟨entry, rest, hfill⟩ := h.fill hmemory
  have hlink := hfill.link thread weak
  have hpool := hfill.pool
  have hfront := hfill.front
  have hrear := hfill.rear
  unfold CondQueue.enqueueCondQueueEntry
  dsimp only at hpool hfront hrear hlink ⊢
  generalize s.q.fill memory = q at hpool hfront hrear hlink
  cases es with
  | nil =>
    refine ⟨_, entry, ?_, rest, hlink⟩
    simp [hpool, hfront, relink]
  | cons x xs =>
    obtain ⟨l, hl⟩ : ∃ l, (x :: xs).getLast? = some l := ⟨_, List.getLast?_eq_some_getLast (List.cons_ne_nil _ _)⟩
    rw [hl] at hlink hrear
    refine ⟨_, entry, ?_, rest, hlink⟩
    simp [hpool, hfront, hrear, relink]

/-- The first entry is taken out of the list, for the thread that waits for it. -/
theorem Holds.dequeue (h : Holds s lock es ps) :
    s.q.dequeueCondQueueEntry.2 = es.head? ∧
      Holds { s with q := s.q.dequeueCondQueueEntry.1, used := s.q.dequeueCondQueueEntry.2.toList ++ s.used }
        lock.dequeueCondQueueEntry.1 es.tail ps := by
  have hentries := h.entries
  unfold CondQueue.dequeueCondQueueEntry FairLock.dequeueCondQueueEntry
  rw [h.front]
  cases es with
  | nil =>
    rw [hentries]
    exact ⟨rfl, h⟩
  | cons e es =>
    have hperm : (es ++ (ps ++ e :: s.used)).Perm (e :: es ++ (ps ++ s.used)) := by
      rw [← List.append_assoc, ← List.append_assoc]
      exact List.perm_middle
    have hnodup := hperm.nodup_iff.2 h.nodup
    rw [hentries]
    refine ⟨rfl, h.linked.1, ?_, h.linked.2, h.pool, h.poolLinked, hnodup, fun p hp => h.allocated p (hperm.mem_iff.1 hp),
      rfl, h.waiting, fun e he => h.strong e (List.mem_cons_of_mem _ he)⟩
    -- the rear is forgotten with the last entry
    have hnot : e ∉ es := fun hmem => (List.nodup_cons.1 h.nodup).1 (List.mem_append_left _ hmem)
    show (if s.q.condQueueRear = some e then none else s.q.condQueueRear) = es.getLast?
    rw [h.rear]
    cases es with
    | nil => exact if_pos rfl
    | cons e' es =>
      rw [List.getLast?_cons_cons, if_neg fun hlast => hnot (List.mem_of_getLast? hlast)]

/-- An entry goes back to the pool. -/
theorem Holds.release (h : Holds s lock es ps) (hused : entry ∈ s.used) :
    Holds { s with q := s.q.releaseCondQueueEntry entry, used := s.used.erase entry } lock es (entry :: ps) := by
  have hperm : (es ++ (entry :: ps ++ s.used.erase entry)).Perm (es ++ (ps ++ s.used)) := by
    refine List.Perm.append_left es ?_
    exact (List.perm_middle.symm).trans (List.Perm.append_left ps (List.perm_cons_erase hused).symm)
  have hdisjoint := List.nodup_append.1 h.nodup
  have hes : entry ∉ es := fun hmem => hdisjoint.2.2 entry hmem entry (List.mem_append_right _ hused) rfl
  have hps : entry ∉ ps := fun hmem => (List.nodup_append.1 hdisjoint.2.1).2.2 entry hmem entry hused rfl
  exact
    { front := h.front
      rear := h.rear
      linked := h.linked.update hes _
      pool := rfl
      poolLinked := ⟨(Function.update_self ..).trans h.pool, h.poolLinked.update hps _⟩
      nodup := hperm.nodup_iff.2 h.nodup
      allocated := fun p hp => h.allocated p (hperm.mem_iff.1 hp)
      entries := h.entries
      waiting := h.waiting
      strong := h.strong }

/-! ## Weak entries -/

/-- **The loop**: `strong` are linked already, in front of the rest. -/
theorem abandoneLoop_spec (q₀ : CondQueue P) (rest : List P) :
    ∀ (fuel : ℕ) (q : CondQueue P) (strong signalled : List P),
    rest.length < fuel → q.weak = q₀.weak → Linked q.next (strong ++ rest) → (strong ++ rest).Nodup →
    ∃ q', CondQueue.abandoneLoop fuel q rest.head? strong.head? strong.getLast? signalled =
        some (q', signalled ++ rest.filter q₀.weak) ∧
      q'.condQueueFront = (strong ++ rest.filter fun e => !q₀.weak e).head? ∧
      q'.condQueueRear = (strong ++ rest.filter fun e => !q₀.weak e).getLast? ∧
      Linked q'.next (strong ++ rest.filter fun e => !q₀.weak e) ∧ q'.weak = q₀.weak ∧ q'.condPool = q.condPool ∧
      q'.waitingThreads = q.waitingThreads - rest.countP q₀.weak ∧
      (∀ p, p ∉ strong ++ rest → q'.next p = q.next p) ∧
      (∀ p, p ∉ rest.filter q₀.weak → q'.abandoned p = q.abandoned p) := by
  induction rest with
  | nil =>
    intro fuel q strong signalled hfuel hweak hlinked hnodup
    obtain ⟨fuel, rfl⟩ : ∃ n, fuel = n + 1 := ⟨fuel - 1, by omega⟩
    rw [List.append_nil] at hlinked
    refine ⟨{ q with condQueueFront := strong.head?, condQueueRear := strong.getLast? }, ?_⟩
    simp [CondQueue.abandoneLoop, hlinked, hweak]
  | cons e rest ih =>
    intro fuel q strong signalled hfuel hweak hlinked hnodup
    rw [List.length_cons] at hfuel
    obtain ⟨fuel, rfl⟩ : ∃ n, fuel = n + 1 := ⟨fuel - 1, by omega⟩
    have hstrong : e ∉ strong := fun hmem => (List.nodup_append.1 hnodup).2.2 e hmem e List.mem_cons_self rfl
    have hnext : q.next e = rest.head? := by
      have hsuffix : ∀ xs : List P, Linked q.next (xs ++ e :: rest) → q.next e = rest.head? := by
        intro xs
        induction xs with
        | nil => exact fun h => h.1
        | cons x xs ihx => exact fun h => ihx h.2
      exact hsuffix strong hlinked
    rw [List.head?_cons, CondQueue.abandoneLoop]
    cases hw : q₀.weak e with
    | true =>
      -- a weak entry is taken out behind the last strong one
      have hnodup' : (strong ++ rest).Nodup :=
        hnodup.sublist (List.Sublist.append_left (List.sublist_cons_self e rest) strong)
      rw [if_pos (by rw [hweak, hw])]
      dsimp only
      rw [relink_of_notMem hstrong, hnext]
      obtain ⟨q', hq', hfront, hrear, hlinked', hweak', hpool', hwaiting', hframe, habandoned⟩ :=
        ih fuel { q with
          next := relink q.next strong.getLast? rest.head?
          abandoned := Function.update q.abandoned e true
          waitingThreads := q.waitingThreads - 1 } strong (signalled ++ [e]) (by omega) hweak
          (hnext ▸ hlinked.remove hnodup) hnodup'
      rw [List.filter_cons_of_pos hw, List.filter_cons_of_neg (by rw [hw]; exact Bool.false_ne_true),
        List.countP_cons_of_pos hw]
      refine ⟨q', ?_, hfront, hrear, hlinked', hweak', hpool', ?_, fun p hp => ?_, fun p hp => ?_⟩
      · rw [hq', List.append_assoc]
        rfl
      · rw [hwaiting', Nat.cast_add, Nat.cast_one]
        dsimp only
        omega
      · have hp' : p ∉ strong ++ rest := fun hmem => hp (by
          rcases List.mem_append.1 hmem with hmem | hmem
          · exact List.mem_append_left _ hmem
          · exact List.mem_append_right _ (List.mem_cons_of_mem _ hmem))
        rw [hframe p hp']
        exact relink_of_notMem (fun hmem => hp' (List.mem_append_left _ hmem)) _
      · obtain ⟨hpe, hp'⟩ := not_or.1 fun hor => hp (List.mem_cons.2 hor)
        rw [habandoned p hp']
        exact Function.update_of_ne hpe _ _
    | false =>
      rw [if_neg (by rw [hweak, hw]; exact Bool.false_ne_true), hnext]
      have hhead : strong.head?.or (some e) = (strong ++ [e]).head? := by
        cases strong <;> rfl
      have hlast : some e = (strong ++ [e]).getLast? := by
        rw [List.getLast?_append_cons]
        rfl
      have happend : strong ++ e :: rest = strong ++ [e] ++ rest := by
        rw [List.append_assoc]
        rfl
      rw [hhead, hlast, happend, List.filter_cons_of_neg (by rw [hw]; exact Bool.false_ne_true),
        List.filter_cons_of_pos (by rw [hw]; rfl), List.countP_cons_of_neg (by rw [hw]; exact Bool.false_ne_true)]
      rw [happend] at hlinked hnodup
      obtain ⟨q', hq', hfront, hrear, hlinked', hrest⟩ :=
        ih fuel q (strong ++ [e]) signalled (by omega) hweak hlinked hnodup
      rw [List.append_assoc] at hfront hrear hlinked'
      exact ⟨q', hq', hfront, hrear, hlinked', hrest⟩

/-- More fuel changes nothing. -/
theorem abandoneLoop_mono {fuel : ℕ} : ∀ {fuel' : ℕ} {q : CondQueue P} {current first last : Option P}
    {signalled : List P} {r : CondQueue P × List P}, fuel ≤ fuel' →
    CondQueue.abandoneLoop fuel q current first last signalled = some r →
    CondQueue.abandoneLoop fuel' q current first last signalled = some r := by
  induction fuel with
  | zero => exact fun _ h => by cases h
  | succ fuel ih =>
    intro fuel' q current first last signalled r hle h
    obtain ⟨fuel', rfl⟩ : ∃ n, fuel' = n + 1 := ⟨fuel' - 1, by omega⟩
    cases current with
    | none => exact h
    | some current =>
      rw [CondQueue.abandoneLoop] at h ⊢
      split at h
      · next hweak =>
        rw [if_pos hweak]
        exact ih (by omega) h
      · next hweak =>
        rw [if_neg hweak]
        exact ih (by omega) h

/-- The weak entries are taken out, for the threads that wait for them. -/
theorem Holds.abandone (h : Holds s lock es ps) {fuel : ℕ} (hfuel : es.length < fuel) :
    ∃ q signalled, s.q.abandoneWeakLocks fuel = some (q, signalled) ∧
      signalled.map s.owner = lock.abandoneWeakLocks.2 ∧
      Holds { s with q := q, used := signalled ++ s.used } lock.abandoneWeakLocks.1
        (es.filter fun e => !s.q.weak e) ps := by
  obtain ⟨q, hq, hfront, hrear, hlinked, hweak, hpool, hwaiting, hframe, habandoned⟩ :=
    abandoneLoop_spec s.q es fuel s.q [] [] hfuel rfl h.linked (List.nodup_append.1 h.nodup).1
  rw [List.nil_append] at hq hfront hrear hlinked hframe
  rw [← h.front] at hq
  have hperm : ((es.filter fun e => !s.q.weak e) ++ (ps ++ (es.filter s.q.weak ++ s.used))).Perm
      (es ++ (ps ++ s.used)) := by
    have hsplit : (es.filter s.q.weak ++ es.filter fun e => !s.q.weak e).Perm es := List.filter_append_perm _ es
    have hmiddle : (ps ++ (es.filter s.q.weak ++ s.used)).Perm (es.filter s.q.weak ++ (ps ++ s.used)) := by
      rw [← List.append_assoc, ← List.append_assoc]
      exact List.Perm.append_right _ List.perm_append_comm
    refine (List.Perm.append_left _ hmiddle).trans ?_
    rw [← List.append_assoc]
    exact List.Perm.append_right _ (List.perm_append_comm.trans hsplit)
  have hps : ∀ p ∈ ps, q.next p = s.q.next p := fun p hp =>
    hframe p fun hmem => (List.nodup_append.1 h.nodup).2.2 p hmem p (List.mem_append_left _ hp) rfl
  refine ⟨q, es.filter s.q.weak, hq, ?_, ?_⟩
  · rw [abandoneWeakLocks_eq]
    show (es.filter s.q.weak).map s.owner = (lock.condQueue.filter fun e => e.weak).map fun e => e.thread
    rw [h.entries, List.filter_map, List.map_map]
    rfl
  · refine ⟨hfront, hrear, hlinked, hpool.trans h.pool, h.poolLinked.congr hps, hperm.nodup_iff.2 h.nodup,
      fun p hp => h.allocated p (hperm.mem_iff.1 hp), ?_, ?_, fun e he => ?_⟩
    · rw [abandoneWeakLocks_eq, h.entries, List.filter_map]
      dsimp only
      rw [hweak]
      rfl
    · rw [abandoneWeakLocks_eq, h.entries, List.countP_map]
      dsimp only
      rw [hwaiting, h.waiting]
      rfl
    · obtain ⟨hmem, hw⟩ := List.mem_filter.1 he
      dsimp only
      rw [habandoned e fun hin => ?_]
      · exact h.strong e hmem
      · rw [(List.mem_filter.1 hin).2] at hw
        cases hw

/-! ## Runs -/

/-- **A call of the pointers' list is the same call of the list.** -/
theorem CondStep.holds {op : Op P T} {signalled : List T} (h : Holds s lock es ps) (hstep : CondStep s op signalled s') :
    signalled = (lock.call op).2 ∧ ∃ es' ps', Holds s' (lock.call op).1 es' ps' := by
  cases hstep with
  | @enqueue q memory entry thread weak hmemory hq =>
    obtain ⟨q', entry', hq', ps', hholds⟩ := h.enqueue hmemory thread weak
    rw [hq] at hq'
    cases hq'
    exact ⟨rfl, _, _, hholds⟩
  | dequeue =>
    obtain ⟨htarget, hholds⟩ := h.dequeue
    refine ⟨?_, _, _, hholds⟩
    have hentries := h.entries
    show s.q.dequeueCondQueueEntry.2.toList.map s.owner = lock.dequeueCondQueueEntry.2.toList.map _
    rw [htarget, FairLock.dequeueCondQueueEntry, hentries]
    cases es <;> rfl
  | release entry hused => exact ⟨rfl, _, _, h.release hused⟩
  | @abandone q signalled fuel hq =>
    -- with more fuel, the loop ends in the same way
    obtain ⟨q', signalled', hq', hmap, hholds⟩ := h.abandone (Nat.lt_succ_of_le (Nat.le_max_right fuel es.length))
    have hmore := abandoneLoop_mono (Nat.le_succ_of_le (Nat.le_max_left fuel es.length)) hq
    rw [CondQueue.abandoneWeakLocks, hmore] at hq'
    cases hq'
    exact ⟨hmap, _, _, hholds⟩

theorem CondRun.holds {s₀ : CondState P T} {calls : List (Op P T × List T)} (hrun : CondRun s₀ calls s)
    (h : Holds s₀ .init [] []) : ∃ lock, ListRun calls lock ∧ ∃ es ps, Holds s lock es ps := by
  induction hrun with
  | nil => exact ⟨_, .nil, _, _, h⟩
  | snoc hrun hstep ih =>
    obtain ⟨lock, hlist, es, ps, hholds⟩ := ih
    obtain ⟨rfl, es', ps', hholds'⟩ := hstep.holds hholds
    exact ⟨_, hlist.snoc, es', ps', hholds'⟩

/-- **The pointers are a list.** In any order of the calls, those that wait and those that are signalled are the ones of
the list; the entries are linked from the front to the rear; and no null pointer is followed. -/
theorem cond_queue_refines {next : P → Option P} {weak abandoned : P → Bool} {owner : P → T}
    {calls : List (Op P T × List T)} (hrun : CondRun (CondState.init next weak abandoned owner) calls s) :
    (∃ (lock : FairLock T) (es : List P), ListRun calls lock ∧ Linked s.q.next es ∧ s.q.condQueueFront = es.head? ∧
        s.q.condQueueRear = es.getLast? ∧ lock.condQueue = es.map fun e => ⟨s.owner e, s.q.weak e⟩) ∧
      (∀ memory weak, memory ∉ s.allocated → (s.q.enqueueCondQueueEntry memory weak).isSome = true) ∧
      ∃ fuel, (s.q.abandoneWeakLocks fuel).isSome = true := by
  obtain ⟨lock, hlist, es, ps, h⟩ := hrun.holds (init_holds next weak abandoned owner)
  refine ⟨⟨lock, es, hlist, h.linked, h.front, h.rear, h.entries⟩, fun memory weak hmemory => ?_, es.length + 1, ?_⟩
  · obtain ⟨q, entry, hq, -⟩ := h.enqueue hmemory (s.owner memory) weak
    rw [hq]
    rfl
  · obtain ⟨q, signalled, hq, -⟩ := h.abandone (Nat.lt_succ_self es.length)
    rw [hq]
    rfl

theorem cond_queue_refines_weak : ∃ (calls : List (Op ℕ ℕ × List ℕ)) (lock : FairLock ℕ),
    calls.map (fun c => c.2) = [[], [], [], [5], [4]] ∧ ListRun calls lock := by
  have hinit : CondRun (CondState.init (fun _ : ℕ => none) (fun _ => false) (fun _ => false) fun _ => 0) [] _ := .nil
  have hrun := (((hinit.snoc (@CondStep.enqueue ℕ ℕ _ _ _ 10 _ 4 false nofun rfl)).snoc
    (.enqueue 5 true (show 11 ∉ [10] by decide) rfl)).snoc
    (.enqueue 6 false (show 12 ∉ [11, 10] by decide) rfl)).snoc (.abandone 4 rfl)
  obtain ⟨lock, es, hlist, -⟩ := (cond_queue_refines (hrun.snoc .dequeue)).1
  exact ⟨_, lock, rfl, hlist⟩

end InmarsatSniffer.Fair
