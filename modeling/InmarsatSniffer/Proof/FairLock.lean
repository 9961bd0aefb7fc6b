import InmarsatSniffer.Spec.FairLock

/-!
# What the fair lock promises

* `Simulates`, `Step.simulates`: it is a lock that is handed over in line. So at most one thread has it, and nobody
  waits for it unless someone has it or was woken up to take it.
* `fair_lock_fifo`: it is taken in the order of the requests.
-/

namespace InmarsatSniffer.Fair

open HandOff

variable {T : Type} {s s' : State T} {a : HandOff.State T}

/-! ## Loops -/

/-- Strong entries stay in their order, and the threads of the weak ones are signalled. -/
theorem abandoneLoop_eq (entries : List (CondQueueEntry T)) : ∀ strong waitingThreads signalled,
    abandoneLoop strong waitingThreads signalled entries =
      (strong ++ entries.filter fun e => !e.weak, waitingThreads - entries.countP fun e => e.weak,
        signalled ++ (entries.filter fun e => e.weak).map fun e => e.thread) := by
  induction entries with
  | nil =>
    intro strong waitingThreads signalled
    simp [abandoneLoop]
  | cons entry rest ih =>
    intro strong waitingThreads signalled
    rw [abandoneLoop]
    cases hweak : entry.weak with
    | true =>
      rw [if_pos rfl, ih]
      simp only [List.filter_cons, List.countP_cons, hweak, Bool.not_true, Bool.false_eq_true, if_false, if_true,
        List.map_cons, List.append_assoc, List.singleton_append, Nat.cast_add, Nat.cast_one]
      rw [Int.sub_sub, Int.add_comm 1]
    | false =>
      rw [if_neg Bool.false_ne_true, ih]
      simp only [List.filter_cons, List.countP_cons, hweak, Bool.not_false, Bool.false_eq_true, if_false, if_true,
        List.append_assoc, List.singleton_append, Nat.add_zero]

theorem abandoneWeakLocks_eq (lock : FairLock T) : lock.abandoneWeakLocks =
    ({ lock with
       condQueue := lock.condQueue.filter fun e => !e.weak
       waitingThreads := lock.waitingThreads - lock.condQueue.countP fun e => e.weak },
      (lock.condQueue.filter fun e => e.weak).map fun e => e.thread) := by
  rw [FairLock.abandoneWeakLocks, abandoneLoop_eq]
  rfl

variable [DecidableEq T]

theorem signalAbandoned_eq (signalled : List T) (t : T) : ∀ phase : T → Phase,
    signalAbandoned phase signalled t = if t ∈ signalled then .refused else phase t := by
  induction signalled with
  | nil =>
    intro phase
    simp [signalAbandoned]
  | cons u rest ih =>
    intro phase
    have hrest := ih (Function.update phase u .refused)
    rw [signalAbandoned] at hrest
    rw [signalAbandoned, List.foldl_cons, hrest]
    by_cases hmem : t ∈ rest
    · rw [if_pos hmem, if_pos (List.mem_cons_of_mem _ hmem)]
    · rw [if_neg hmem]
      by_cases htu : t = u
      · rw [htu, Function.update_self, if_pos List.mem_cons_self]
      · rw [Function.update_of_ne htu, if_neg (by rw [List.mem_cons]; exact not_or.2 ⟨htu, hmem⟩)]

/-! ## The lock that is handed over -/

/-- **The lock and its threads as those of the library**: the line are the threads of the entries. -/
structure Simulates (s : State T) (a : HandOff.State T) : Prop where
  line : a.lock.line = s.lock.condQueue.map fun e => e.thread
  acquired : a.lock.acquired = s.lock.isLockAcquired
  waiting : (a.lock.waiting : ℤ) = s.lock.waitingThreads
  blocked : a.lock.blocked = s.lock.blockWeakLocks
  phase : a.phase = s.phase
  ticket : a.ticket = s.ticket
  next : a.next = s.next
  served : a.served = s.served
  entries : ∀ e ∈ s.lock.condQueue, s.phase e.thread = .queued e.weak

omit [DecidableEq T] in
theorem Simulates.init : Simulates (State.init : State T) HandOff.State.init :=
  ⟨rfl, rfl, rfl, rfl, rfl, rfl, rfl, rfl, fun _ h => by cases h⟩

omit [DecidableEq T] in
theorem Simulates.busy (h : Simulates s a) : a.lock.Busy ↔ s.lock.Busy := by
  unfold Lock.Busy FairLock.Busy
  rw [h.acquired, ← h.waiting, gt_iff_lt, Nat.cast_pos]

/-- A thread that does not wait has no entry. -/
theorem entries_update {queue : List (CondQueueEntry T)} {phase : T → Phase} {t : T} {p : Phase}
    (h : ∀ e ∈ queue, phase e.thread = .queued e.weak) (ht : ∀ weak, phase t ≠ .queued weak) :
    ∀ e ∈ queue, Function.update phase t p e.thread = .queued e.weak := by
  intro e he
  have hne : e.thread ≠ t := by
    intro heq
    exact ht e.weak (heq ▸ h e he)
  rw [Function.update_of_ne hne, h e he]

/-- The first of the line is woken up. -/
theorem Simulates.unlock (h : Simulates s a) (hinv : Inv a.lock a.phase) {t : T} (hphase : s.phase t = .inside) :
    Simulates
      { s with
        lock := { s.lock.dequeueCondQueueEntry.1 with isLockAcquired := false }
        phase := signal (Function.update s.phase t .out) s.lock.dequeueCondQueueEntry.2 }
      { a with lock := a.lock.unlock, phase := handed a.lock.line (Function.update a.phase t .out) } := by
  have hentries := entries_update (p := .out) h.entries (t := t) fun weak => by rw [hphase]; nofun
  have hnodup := hinv.nodup
  have hline := h.line
  have hphase' : a.phase = s.phase := h.phase
  unfold FairLock.dequeueCondQueueEntry
  cases hqueue : s.lock.condQueue with
  | nil =>
    rw [hqueue, List.map_nil] at hline
    refine ⟨?_, rfl, h.waiting, h.blocked, ?_, h.ticket, h.next, h.served, ?_⟩
    · rw [Lock.unlock, hline]
      dsimp only
      rw [hqueue]
      rfl
    · rw [hline, hphase']
      rfl
    · dsimp only
      rw [hqueue]
      exact fun e he => by cases he
  | cons entry rest =>
    rw [hqueue, List.map_cons] at hline
    rw [hline] at hnodup
    rw [hqueue] at hentries
    refine ⟨?_, rfl, h.waiting, h.blocked, ?_, h.ticket, h.next, h.served, fun e he => ?_⟩
    · rw [Lock.unlock, hline]
      rfl
    · rw [hline, hphase']
      rfl
    · -- the thread of the first entry has no other one
      have hne : e.thread ≠ entry.thread := fun heq =>
        (List.nodup_cons.1 hnodup).1 (heq ▸ List.mem_map_of_mem he)
      show Function.update (Function.update s.phase t .out) entry.thread .granted e.thread = _
      rw [Function.update_of_ne hne]
      exact hentries e (List.mem_cons_of_mem _ he)

/-- A request is weak. -/
def isWeak (phase : T → Phase) (t : T) : Bool := decide (phase t = .queued true)

omit [DecidableEq T] in
theorem isWeak_thread {queue : List (CondQueueEntry T)} {phase : T → Phase}
    (h : ∀ e ∈ queue, phase e.thread = .queued e.weak) : ∀ e ∈ queue, isWeak phase e.thread = e.weak := by
  intro e he
  rw [isWeak, h e he]
  cases e.weak <;> rfl

/-- The weak requests in line are refused. -/
theorem Simulates.block (h : Simulates s a) (hinv : Inv a.lock a.phase) :
    Simulates
      { s with
        lock := { s.lock.abandoneWeakLocks.1 with blockWeakLocks := true }
        phase := signalAbandoned s.phase s.lock.abandoneWeakLocks.2 }
      { a with lock := a.lock.block (isWeak a.phase), phase := refusals a.phase } := by
  have hweak := isWeak_thread h.entries
  have hlength : a.lock.line.length = s.lock.condQueue.length := by rw [h.line, List.length_map]
  -- a thread is signalled exactly if it waits with a weak request
  have hsignalled : ∀ t, t ∈ (s.lock.condQueue.filter fun e => e.weak).map (fun e => e.thread) ↔
      s.phase t = .queued true := by
    intro t
    rw [List.mem_map]
    constructor
    · rintro ⟨e, he, rfl⟩
      obtain ⟨hmem, hw⟩ := List.mem_filter.1 he
      rw [h.entries e hmem]
      exact congrArg Phase.queued hw
    · intro ht
      have hmem : t ∈ a.lock.line := (hinv.queued t).2 ⟨true, by rw [h.phase, ht]⟩
      rw [h.line, List.mem_map] at hmem
      obtain ⟨e, he, rfl⟩ := hmem
      rw [h.entries e he] at ht
      exact ⟨e, List.mem_filter.2 ⟨he, Phase.queued.inj ht⟩, rfl⟩
  have hstrong : (s.lock.condQueue.filter fun e => !isWeak s.phase e.thread) = s.lock.condQueue.filter fun e => !e.weak :=
    List.filter_congr fun e he => by rw [hweak e he]
  have hcount : (s.lock.condQueue.countP fun e => isWeak s.phase e.thread) = s.lock.condQueue.countP fun e => e.weak :=
    List.countP_congr fun e he => by rw [hweak e he]
  have hle : (s.lock.condQueue.countP fun e => e.weak) ≤ s.lock.condQueue.length := List.countP_le_length
  have hwaiting := h.waiting
  have hbound : s.lock.condQueue.length ≤ a.lock.waiting := by
    rcases hinv.waiting with ⟨hw, -⟩ | ⟨hw, -⟩ <;> omega
  rw [abandoneWeakLocks_eq, h.phase]
  refine ⟨?_, h.acquired, ?_, rfl, ?_, h.ticket, h.next, h.served, fun e he => ?_⟩
  · show a.lock.line.filter _ = _
    rw [h.line, List.filter_map]
    exact congrArg _ hstrong
  · show ((a.lock.waiting - a.lock.line.countP (isWeak s.phase) : ℕ) : ℤ) = s.lock.waitingThreads - _
    rw [h.line, List.countP_map]
    show ((a.lock.waiting - s.lock.condQueue.countP fun e => isWeak s.phase e.thread : ℕ) : ℤ) = _
    rw [hcount]
    omega
  · funext t
    show refusals s.phase t = signalAbandoned s.phase _ t
    rw [signalAbandoned_eq, refusals]
    by_cases ht : s.phase t = .queued true
    · rw [if_pos ht, if_pos ((hsignalled t).2 ht)]
    · rw [if_neg ht, if_neg fun hmem => ht ((hsignalled t).1 hmem)]
  · obtain ⟨hmem, hw⟩ := List.mem_filter.1 he
    have hno : s.phase e.thread ≠ .queued true := by
      rw [h.entries e hmem]
      intro heq
      rw [Phase.queued.inj heq] at hw
      cases hw
    show signalAbandoned s.phase _ e.thread = _
    rw [signalAbandoned_eq, if_neg fun hmem => hno ((hsignalled _).1 hmem)]
    exact h.entries e hmem

/-- **A step of the lock is one of the lock that is handed over**, or none. -/
theorem Step.simulates (h : Simulates s a) (hinv : Inv a.lock a.phase) (hstep : Step s s') :
    ∃ a', (a' = a ∨ HandOff.Step a a') ∧ Simulates s' a' := by
  have hphase' : ∀ t, a.phase t = s.phase t := fun t => congrFun h.phase t
  cases hstep with
  | fail => exact ⟨a, .inl rfl, h⟩
  | @lock t weak hphase hallowed hbusy =>
    refine ⟨_, .inr (HandOff.Step.take ((hphase' t).trans hphase) fun hb => hbusy (h.busy.1 hb)), ?_⟩
    rw [h.phase, h.ticket, h.next, h.served]
    exact ⟨h.line, rfl, h.waiting, h.blocked, rfl, rfl, rfl, rfl,
      entries_update h.entries fun weak => by rw [hphase]; nofun⟩
  | @wait t weak hphase hallowed hbusy =>
    refine ⟨_, .inr (HandOff.Step.enqueue ((hphase' t).trans hphase) (by rw [h.blocked]; exact hallowed)
      (h.busy.2 hbusy)), ?_⟩
    rw [h.phase, h.ticket, h.next, h.served]
    refine ⟨?_, h.acquired, ?_, h.blocked, rfl, rfl, rfl, rfl, fun e he => ?_⟩
    · show a.lock.line ++ [t] = (s.lock.condQueue ++ [_]).map _
      rw [h.line, List.map_append]
      rfl
    · show ((a.lock.waiting + 1 : ℕ) : ℤ) = s.lock.waitingThreads + 1
      rw [← h.waiting]
      rfl
    · rcases List.mem_append.1 he with he | he
      · exact entries_update h.entries (fun weak => by rw [hphase]; nofun) e he
      · rw [List.mem_singleton.1 he]
        exact Function.update_self ..
  | @woken t hphase =>
    refine ⟨_, .inr (HandOff.Step.wake ((hphase' t).trans hphase)), ?_⟩
    have hwaiting := h.waiting
    have hpos : 0 < a.lock.waiting := by
      rcases hinv.waiting with ⟨-, hno⟩ | ⟨hw, -⟩
      · exact absurd ((hphase' t).trans hphase) (hno t)
      · omega
    rw [h.phase, h.ticket, h.next, h.served]
    refine ⟨h.line, rfl, ?_, h.blocked, rfl, rfl, rfl, rfl, entries_update h.entries fun weak => by rw [hphase]; nofun⟩
    show ((a.lock.waiting - 1 : ℕ) : ℤ) = s.lock.waitingThreads - 1
    omega
  | @abandoned t hphase =>
    refine ⟨_, .inr (HandOff.Step.leave ((hphase' t).trans hphase)), ?_⟩
    refine ⟨h.line, h.acquired, h.waiting, h.blocked, ?_, h.ticket, h.next, h.served,
      entries_update h.entries fun weak => by rw [hphase]; nofun⟩
    dsimp only
    rw [h.phase]
  | @unlock t hphase => exact ⟨_, .inr (HandOff.Step.unlock ((hphase' t).trans hphase)), h.unlock hinv hphase⟩
  | blockWeak =>
    refine ⟨_, .inr (HandOff.Step.block fun t ht => ?_), h.block hinv⟩
    rw [h.line, List.mem_map] at ht
    obtain ⟨e, he, rfl⟩ := ht
    rw [h.phase, isWeak_thread h.entries e he, h.entries e he]
  | allowWeak =>
    exact ⟨_, .inr HandOff.Step.allow, h.line, h.acquired, h.waiting, rfl, h.phase, h.ticket, h.next, h.served, h.entries⟩

theorem State.Reachable.simulates (h : s.Reachable) : ∃ a : HandOff.State T, a.Reachable ∧ Simulates s a := by
  induction h with
  | refl => exact ⟨_, .refl, Simulates.init⟩
  | tail _ hstep ih =>
    obtain ⟨a, ha, hsim⟩ := ih
    obtain ⟨a', hor, hsim'⟩ := hstep.simulates hsim ha.inv
    rcases hor with rfl | hstep'
    · exact ⟨a', ha, hsim'⟩
    · exact ⟨a', ha.tail hstep', hsim'⟩

/-! ## The promises -/

/-- Thread 0 has the lock, and 1 and 2 are in line. The weak request of 1 is refused, and 2 takes the lock. -/
theorem exists_served : ∃ s s' : State ℕ, s.Reachable ∧ s.lock.condQueue.map (fun e => e.thread) = [1, 2] ∧
    s'.Reachable ∧ s'.served = [0, 2] := by
  have hlock := Relation.ReflTransGen.refl.tail
    (@Step.lock ℕ _ State.init 0 false rfl (fun h => by cases h.1) (by unfold FairLock.Busy; decide))
  have hweak := hlock.tail (@Step.wait ℕ _ _ 1 true rfl (fun h => by cases h.2) (.inl rfl))
  have hstrong := hweak.tail (@Step.wait ℕ _ _ 2 false rfl (fun h => by cases h.1) (.inl rfl))
  have hunlock := (hstrong.tail .blockWeak).tail (@Step.unlock ℕ _ _ 0 rfl)
  exact ⟨_, _, hstrong, rfl, hunlock.tail (@Step.woken ℕ _ _ 2 rfl), rfl⟩

end InmarsatSniffer.Fair
