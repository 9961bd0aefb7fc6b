import InmarsatSniffer.Spec.FeedWriter

/-!
# What becomes of the lines of the feed

* `FeedOut.Inv`, `FStep.inv`: a line that was handed over is written, in the hands of the
  writer, in the queue, or dropped and counted, in every interleaving.
* `closed_keeps`: what is in the queue when it is closed stays there.
* `shutdown_accounts_iff`: **`feed_shutdown` accounts for every line exactly if the queue is
  empty when it is closed**.
-/

namespace InmarsatSniffer.Feed

open ClosableQueue

variable {s s' : FeedOut} {line m : Line}

/-- The line that the writer has not written yet. -/
def WriterPlace.held : WriterPlace → List Line
  | .holds m => [m]
  | _ => []

/-- The line that the writer has written and not freed yet. -/
def WriterPlace.beingFreed : WriterPlace → List Line
  | .wrote m => [m]
  | _ => []

/-- **The invariant of the feed.** -/
structure FeedOut.Inv (s : FeedOut) : Prop where
  order : (s.written ++ s.writer.held ++ s.queue.items).Sublist s.handed
  account : s.handed.Perm (s.written ++ s.writer.held ++ s.queue.items ++ s.dropped)
  freed : (s.freed ++ s.writer.beingFreed).Perm (s.written ++ s.dropped)
  stdout : s.stdout = s.written.flatMap fun l => l.val ++ [0x0A]
  drops : s.drops = UInt64.ofNat (s.dropped.length + s.noMemory)
  closed : s.queue.closed = true ↔ s.phase ≠ .alive
  joined : s.phase = .draining ∨ s.phase = .returned → s.writer = .left

theorem init_inv : FeedOut.init.Inv :=
  ⟨List.Sublist.refl [], List.Perm.refl [], List.Perm.refl [], rfl, rfl, ⟨nofun, fun h => absurd rfl h⟩, fun h => by
    rcases h with h | h <;> cases h⟩

theorem drops_succ {n : ℕ} {drops : UInt64} (h : drops = UInt64.ofNat n) : drops + 1 = UInt64.ofNat (n + 1) := by
  rw [h, UInt64.ofNat_add]
  rfl

/-- A line that is dropped is counted and freed. -/
theorem FeedOut.Inv.drop (h : s.Inv) (line : Line) : (s.drop line).Inv where
  order := h.order.trans (List.sublist_append_left _ _)
  account := by
    show (s.handed ++ [line]).Perm _
    rw [FeedOut.drop, ← List.append_assoc]
    exact h.account.append_right [line]
  freed := by
    show (s.freed ++ [line] ++ s.writer.beingFreed).Perm (s.written ++ (s.dropped ++ [line]))
    rw [← List.append_assoc]
    refine List.Perm.trans ?_ (h.freed.append_right [line])
    rw [List.append_assoc, List.append_assoc]
    exact List.Perm.append_left _ List.perm_append_comm
  stdout := h.stdout
  drops := by
    show s.drops + 1 = UInt64.ofNat ((s.dropped ++ [line]).length + s.noMemory)
    rw [drops_succ h.drops, List.length_append, List.length_singleton]
    congr 1
    omega
  closed := h.closed
  joined := h.joined

/-- A line that is sent goes into the queue or is dropped. -/
theorem FeedOut.Inv.send (h : s.Inv) (line : Line) : (s.send line).Inv := by
  unfold FeedOut.send
  rcases add_cases s.queue line with ⟨hopen, hok, hitems, hclosed⟩ | ⟨hno, -⟩
  · rw [hok]
    refine ⟨?_, ?_, h.freed, h.stdout, h.drops, ?_, h.joined⟩
    · dsimp only
      rw [hitems, ← List.append_assoc]
      exact h.order.append (List.Sublist.refl _)
    · dsimp only
      rw [hitems, ← List.append_assoc]
      refine (h.account.append_right [line]).trans ?_
      rw [List.append_assoc, List.append_assoc _ [line]]
      exact List.Perm.append_left _ List.perm_append_comm
    · dsimp only
      rw [hclosed, ← h.closed, hopen]
  · split
    · next heq => exact absurd heq (hno _)
    · exact h.drop line

/-- **A step** of one of the threads. -/
theorem FStep.inv (hstep : FStep s s') (h : s.Inv) : s'.Inv := by
  cases hstep with
  | noMemory =>
    refine ⟨h.order, h.account, h.freed, h.stdout, ?_, h.closed, h.joined⟩
    dsimp only
    rw [drops_succ h.drops, Nat.add_assoc]
  | send line => exact h.send line
  | sendError line => exact h.drop line
  | @take m hwriter hm =>
    obtain ⟨hopen, hitems, hclosed⟩ := poll_ok hm
    have horder := h.order
    have haccount := h.account
    have hfreed := h.freed
    rw [hwriter, hitems] at horder haccount
    rw [hwriter] at hfreed
    refine ⟨?_, ?_, hfreed, h.stdout, h.drops, ?_, fun hj => ?_⟩
    · simpa [WriterPlace.held] using horder
    · simpa [WriterPlace.held] using haccount
    · dsimp only
      rw [hclosed, ← h.closed, hopen]
    · rw [h.joined hj] at hwriter
      cases hwriter
  | takeClosed hwriter hclosed =>
    have horder := h.order
    have haccount := h.account
    have hfreed := h.freed
    rw [hwriter] at horder haccount hfreed
    exact ⟨horder, haccount, hfreed, h.stdout, h.drops, h.closed, fun _ => rfl⟩
  | @write m hwriter =>
    have horder := h.order
    have haccount := h.account
    have hfreed := h.freed
    rw [hwriter] at horder haccount hfreed
    refine ⟨?_, ?_, ?_, ?_, h.drops, h.closed, fun hj => ?_⟩
    · simpa [WriterPlace.held] using horder
    · simpa [WriterPlace.held] using haccount
    · simp only [WriterPlace.beingFreed, List.append_nil] at hfreed ⊢
      refine (hfreed.append_right [m]).trans ?_
      rw [List.append_assoc, List.append_assoc]
      exact List.Perm.append_left _ List.perm_append_comm
    · dsimp only
      rw [h.stdout, List.flatMap_append, List.flatMap_singleton, List.append_assoc]
    · rw [h.joined hj] at hwriter
      cases hwriter
  | @free m hwriter =>
    have horder := h.order
    have haccount := h.account
    have hfreed := h.freed
    rw [hwriter] at horder haccount hfreed
    refine ⟨horder, haccount, ?_, h.stdout, h.drops, h.closed, fun hj => ?_⟩
    · simpa [WriterPlace.beingFreed] using hfreed
    · rw [h.joined hj] at hwriter
      cases hwriter
  | close =>
    refine ⟨h.order, h.account, h.freed, h.stdout, h.drops, ⟨fun _ => nofun, fun _ => rfl⟩, fun hj => ?_⟩
    rcases hj with hj | hj <;> cases hj
  | join hphase hwriter =>
    refine ⟨h.order, h.account, h.freed, h.stdout, h.drops, ⟨fun _ => nofun, fun _ => ?_⟩, fun _ => hwriter⟩
    rw [h.closed, hphase]
    decide
  | drain hphase hm =>
    -- the queue is closed, so the drain loop gets nothing
    have hclosed : s.queue.closed = true := h.closed.2 (by rw [hphase]; decide)
    rw [(poll_ok hm).1] at hclosed
    cases hclosed
  | drained hphase =>
    refine ⟨h.order, h.account, h.freed, h.stdout, h.drops, ⟨fun _ => nofun, fun _ => ?_⟩,
      fun _ => h.joined (Or.inl hphase)⟩
    rw [h.closed, hphase]
    decide

theorem FeedOut.Reachable.inv (h : s.Reachable) : s.Inv := by
  induction h with
  | refl => exact init_inv
  | tail _ hstep ih => exact hstep.inv ih

/-! ## Behind the close -/

/-- **A closed queue** keeps its lines. -/
theorem closed_keeps (hstep : FStep s s') (hclosed : s.queue.closed = true) :
    s'.queue.closed = true ∧ s'.queue.items = s.queue.items := by
  cases hstep with
  | send line =>
    unfold FeedOut.send
    rw [add_closed hclosed]
    exact ⟨hclosed, rfl⟩
  | take _ hm | drain _ hm =>
    rw [(poll_ok hm).1] at hclosed
    cases hclosed
  | close => exact ⟨rfl, rfl⟩
  | noMemory | sendError | takeClosed | write | free | join | drained => exact ⟨hclosed, rfl⟩

theorem closed_keeps_all (hsteps : Relation.ReflTransGen FStep s s') (hclosed : s.queue.closed = true) :
    s'.queue.closed = true ∧ s'.queue.items = s.queue.items := by
  induction hsteps with
  | refl => exact ⟨hclosed, rfl⟩
  | tail _ hstep ih =>
    obtain ⟨hc, hitems⟩ := closed_keeps hstep ih.1
    exact ⟨hc, hitems.trans ih.2⟩

/-- The step that closes the queue leaves its lines in it. -/
theorem closes_keeps (hstep : FStep s s') (hopen : s.queue.closed = false) (hclosed : s'.queue.closed = true) :
    s'.queue.items = s.queue.items := by
  cases hstep with
  | send line =>
    unfold FeedOut.send at hclosed
    rcases add_cases s.queue line with ⟨-, hok, -, hc⟩ | ⟨hno, -⟩
    · rw [hok] at hclosed
      exact absurd (hc.symm.trans hclosed) Bool.false_ne_true
    · split at hclosed
      · next heq => exact absurd heq (hno _)
      · exact absurd (hopen.symm.trans hclosed) Bool.false_ne_true
  | take _ hm | drain _ hm => exact absurd ((poll_ok hm).2.2.symm.trans hclosed) Bool.false_ne_true
  | close => rfl
  | noMemory | sendError | takeClosed | write | free | join | drained =>
    exact absurd (hopen.symm.trans hclosed) Bool.false_ne_true

/-- **Every line is accounted for**: stdout has the written lines, whole and in the order in
which they were handed over; each line was written or dropped, and is freed; and the
dropped ones are counted. -/
structure Accounted (s : FeedOut) : Prop where
  order : s.written.Sublist s.handed
  whole : s.stdout = s.written.flatMap fun l => l.val ++ [0x0A]
  each : s.handed.Perm (s.written ++ s.dropped)
  freed : s.freed.Perm s.handed
  counted : s.drops = UInt64.ofNat (s.dropped.length + s.noMemory)

/-- When `feed_shutdown` returns, the lines in the queue are the ones not accounted for. -/
theorem accounted_iff (h : s.Inv) (hend : s.phase = .returned) : Accounted s ↔ s.queue.items = [] := by
  have horder := h.order
  have haccount := h.account
  have hfreed := h.freed
  rw [h.joined (Or.inr hend)] at horder haccount hfreed
  simp only [WriterPlace.held, WriterPlace.beingFreed, List.append_nil] at horder haccount hfreed
  constructor
  · intro hall
    have hlen := (haccount.symm.trans hall.each).length_eq
    simp only [List.length_append] at hlen
    exact List.length_eq_zero_iff.1 (by omega)
  · intro hnil
    rw [hnil, List.append_nil] at horder haccount
    exact ⟨horder, h.stdout, haccount, hfreed.trans haccount.symm, h.drops⟩

/-- **The shutdown of the feed.** For every sequence of lines and every interleaving of
`send_json`, the writer and `feed_shutdown`: when it returns, every line that was handed to
the queue is accounted for, if and only if the queue was empty when it was closed. -/
theorem shutdown_accounts_iff (s s₁ s' : FeedOut) (h : s.Reachable) (hclose : FStep s s₁)
    (hopen : s.queue.closed = false) (hclosed : s₁.queue.closed = true) (hrest : Relation.ReflTransGen FStep s₁ s')
    (hend : s'.phase = .returned) : Accounted s' ↔ s.queue.items = [] := by
  have hreach : s'.Reachable := (h.tail hclose).trans hrest
  rw [accounted_iff hreach.inv hend, (closed_keeps_all hrest hclosed).2, closes_keeps hclose hopen hclosed]

/-! ## Two shutdowns -/

/-- The line of an empty object. -/
def braces : Line := ⟨[0x7B, 0x7D], by decide⟩

/-- `send_json` has handed over one line. -/
def oneSent : FeedOut := FeedOut.init.send braces

/-- The writer has written and freed the line. -/
def oneWritten : FeedOut :=
  { oneSent with
    queue := oneSent.queue.poll.1, stdout := [0x7B, 0x7D, 0x0A], written := [braces], freed := [braces] }

/-- The rest of a shutdown: the writer leaves and is joined, and the drain loop ends. -/
def shutDown (s : FeedOut) : FeedOut :=
  { s with queue := s.queue.close, writer := .left, running := false, phase := .returned }

theorem oneSent_reachable : oneSent.Reachable := Relation.ReflTransGen.single (.send braces rfl)

theorem oneWritten_reachable : oneWritten.Reachable :=
  ((oneSent_reachable.tail (.take (m := braces) rfl rfl)).tail (.write rfl)).tail (.free rfl)

/-- The writer finds the queue closed, and the drain loop as well. -/
theorem shutDown_steps (hwriter : s.writer = .taking) :
    Relation.ReflTransGen FStep { s with queue := s.queue.close, phase := .joining } (shutDown s) := by
  refine (((Relation.ReflTransGen.refl.tail (.takeClosed hwriter rfl)).tail (.join rfl rfl)).tail (.drained rfl ?_))
  intro m
  rw [poll_closed rfl]
  nofun

/-- **A line in time** is written. -/
theorem braces_accounted : oneWritten.Reachable ∧ Accounted (shutDown oneWritten) ∧
    (shutDown oneWritten).stdout = [0x7B, 0x7D, 0x0A] :=
  ⟨oneWritten_reachable,
    (shutdown_accounts_iff oneWritten _ _ oneWritten_reachable (.close rfl) rfl rfl (shutDown_steps rfl) rfl).2 rfl, rfl⟩

/-- **A line that is still in the queue** when it is closed: it is handed over, and it is neither
written nor counted nor freed. -/
theorem leftover_lost : ¬ (∀ s : FeedOut, s.Reachable → s.phase = .returned → Accounted s) ∧
    (shutDown oneSent).handed = [braces] ∧ (shutDown oneSent).stdout = [] ∧ (shutDown oneSent).drops = 0 ∧
      (shutDown oneSent).freed = [] := by
  refine ⟨fun hall => ?_, rfl, rfl, rfl, rfl⟩
  have hreach : (shutDown oneSent).Reachable := (oneSent_reachable.tail (.close rfl)).trans (shutDown_steps rfl)
  have heach := (hall _ hreach rfl).each.length_eq
  exact absurd heach (by decide)

end InmarsatSniffer.Feed
