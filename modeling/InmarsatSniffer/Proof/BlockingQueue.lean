import InmarsatSniffer.Lib.RingWindow
import InmarsatSniffer.Spec.BlockingQueue

/-!
# What the blocking queue promises

* `BlockingQueue.Ok`: the ring, also when it grows.
* `State.Inv`, `Step.inv`: **whoever waits has a reason to** (the queue is full, or empty), and whoever was woken up
  finds room, or an element, or the queue closed. So one condition for both sides loses no wake-up.
* `blocking_queue_fifo`: what was stored comes out in order, each element once.
* `blocking_queue_refines`: the calls answer as those of the queue that can be closed.
-/

namespace InmarsatSniffer.Bq

open ClosableQueue

variable {E C : Type} {bq : BlockingQueue E} {s s' : State E} {element : E} {label : Label E} {labels : List (Label E)}

/-! ## The ring -/

/-- **The ring**: the rear is the last of the elements from the front on. -/
structure BlockingQueue.Ok (bq : BlockingQueue E) : Prop where
  front : bq.queueFront < bq.queueCapacity
  size : bq.queueSize ≤ bq.queueCapacity
  rear : bq.queueRear = (bq.queueFront + bq.queueSize + (bq.queueCapacity - 1)) % bq.queueCapacity

theorem init_ok (capacity : ℕ) (memory : ℕ → E) : (BlockingQueue.init capacity memory).Ok := by
  have hpos : 0 < (BlockingQueue.init capacity memory).queueCapacity := by
    unfold BlockingQueue.init
    dsimp only
    split <;> omega
  refine ⟨hpos, Nat.zero_le _, ?_⟩
  have hlt : (BlockingQueue.init capacity memory).queueCapacity - 1 <
      (BlockingQueue.init capacity memory).queueCapacity := by omega
  show _ = (0 + 0 + _) % _
  rw [Nat.add_zero, Nat.zero_add, Nat.mod_eq_of_lt hlt]
  rfl

theorem contents_length (bq : BlockingQueue E) : bq.contents.length = bq.queueSize := by
  rw [BlockingQueue.contents, List.length_map, List.length_range]

/-- The cell behind the last element. -/
theorem BlockingQueue.Ok.rear_succ (h : bq.Ok) :
    (bq.queueRear + 1) % bq.queueCapacity = (bq.queueFront + bq.queueSize) % bq.queueCapacity := by
  have hfront := h.front
  rw [h.rear, Nat.mod_add_mod, show bq.queueFront + bq.queueSize + (bq.queueCapacity - 1) + 1 =
    bq.queueFront + bq.queueSize + bq.queueCapacity by omega, Nat.add_mod_right]

theorem BlockingQueue.Ok.enqueue (h : bq.Ok) (hroom : bq.queueSize < bq.queueCapacity) (element : E) :
    (bq.enqueue element).Ok := by
  refine ⟨h.front, hroom, ?_⟩
  show (bq.queueRear + 1) % bq.queueCapacity =
    (bq.queueFront + (bq.queueSize + 1) + (bq.queueCapacity - 1)) % bq.queueCapacity
  rw [h.rear_succ, show bq.queueFront + (bq.queueSize + 1) + (bq.queueCapacity - 1) =
    bq.queueFront + bq.queueSize + bq.queueCapacity by omega, Nat.add_mod_right]

theorem contents_enqueue (h : bq.Ok) (hroom : bq.queueSize < bq.queueCapacity) (element : E) :
    (bq.enqueue element).contents = bq.contents ++ [element] := by
  have hcell : ∀ k ∈ List.range bq.queueSize,
      Function.update bq.queue ((bq.queueFront + bq.queueSize) % bq.queueCapacity) element
        ((bq.queueFront + k) % bq.queueCapacity) = bq.queue ((bq.queueFront + k) % bq.queueCapacity) := by
    intro k hk
    have hlt := List.mem_range.1 hk
    rw [Function.update_of_ne (RingWindow.cell_ne (by omega) (by omega))]
  unfold BlockingQueue.contents BlockingQueue.enqueue
  dsimp only
  rw [h.rear_succ, List.range_succ, List.map_append, List.map_congr_left hcell, List.map_singleton,
    Function.update_self]

theorem BlockingQueue.Ok.dequeue (h : bq.Ok) (hsome : 0 < bq.queueSize) : bq.dequeue.1.Ok := by
  have hfront := h.front
  have hsize := h.size
  refine ⟨Nat.mod_lt _ (Nat.zero_lt_of_lt hfront), by show bq.queueSize - 1 ≤ bq.queueCapacity; omega, ?_⟩
  show bq.queueRear =
    ((bq.queueFront + 1) % bq.queueCapacity + (bq.queueSize - 1) + (bq.queueCapacity - 1)) % bq.queueCapacity
  rw [h.rear, Nat.add_assoc (_ % _), Nat.mod_add_mod]
  congr 1
  omega

theorem contents_dequeue (h : bq.Ok) (hsome : 0 < bq.queueSize) :
    bq.contents = bq.dequeue.2 :: bq.dequeue.1.contents := by
  obtain ⟨n, hn⟩ : ∃ n, bq.queueSize = n + 1 := ⟨bq.queueSize - 1, by omega⟩
  unfold BlockingQueue.contents BlockingQueue.dequeue
  dsimp only
  rw [hn, List.range_succ_eq_map, List.map_cons, Nat.add_zero, Nat.mod_eq_of_lt h.front, List.map_map,
    Nat.add_sub_cancel]
  congr 1
  refine List.map_congr_left fun k _ => ?_
  rw [Function.comp_apply, Nat.mod_add_mod, Nat.succ_eq_add_one, Nat.add_comm k 1, Nat.add_assoc]

/-- A full ring that does not start at cell 0 ends before its front. -/
theorem BlockingQueue.Ok.rear_full (h : bq.Ok) (hfull : bq.queueSize = bq.queueCapacity) :
    bq.queueRear = if bq.queueFront = 0 then bq.queueCapacity - 1 else bq.queueFront - 1 := by
  have hfront := h.front
  rw [h.rear, hfull, show bq.queueFront + bq.queueCapacity + (bq.queueCapacity - 1) =
    bq.queueFront + (bq.queueCapacity - 1) + bq.queueCapacity by omega, Nat.add_mod_right]
  split
  · next h0 => rw [h0, Nat.zero_add, Nat.mod_eq_of_lt (by omega)]
  · next h0 =>
    rw [show bq.queueFront + (bq.queueCapacity - 1) = bq.queueFront - 1 + bq.queueCapacity by omega,
      Nat.add_mod_right, Nat.mod_eq_of_lt (by omega)]

/-- The cells of the larger ring. -/
theorem growQueue_cell (h : bq.Ok) (hfull : bq.queueSize = bq.queueCapacity) (memory : ℕ → E) {k : ℕ}
    (hk : k < bq.queueCapacity) :
    (bq.growQueue memory).queue k = bq.queue ((bq.queueFront + k) % bq.queueCapacity) := by
  have hfront := h.front
  have hrear := h.rear_full hfull
  unfold BlockingQueue.growQueue copyCells
  dsimp only
  by_cases h0 : bq.queueFront = 0
  · rw [if_pos h0] at hrear
    rw [if_pos (by omega)]
    rw [if_pos (by omega), h0, Nat.sub_zero, Nat.mod_eq_of_lt (by omega)]
  · rw [if_neg h0] at hrear
    rw [if_neg (by omega)]
    by_cases hupper : bq.queueFront + k < bq.queueCapacity
    · rw [if_neg (by omega), if_pos (by omega), Nat.sub_zero, Nat.mod_eq_of_lt hupper]
    · rw [if_pos (by omega), Nat.zero_add, Nat.mod_eq_sub_mod (by omega), Nat.mod_eq_of_lt (by omega)]
      congr 1
      omega

theorem contents_growQueue (h : bq.Ok) (hfull : bq.queueSize = bq.queueCapacity) (memory : ℕ → E) :
    (bq.growQueue memory).contents = bq.contents := by
  refine List.map_congr_left fun k hk => ?_
  have hlt : k < bq.queueSize := List.mem_range.1 hk
  show (bq.growQueue memory).queue ((0 + k) % (bq.queueCapacity * 2)) = _
  rw [Nat.zero_add, Nat.mod_eq_of_lt (by omega), growQueue_cell h hfull memory (by omega)]

theorem BlockingQueue.Ok.growQueue (h : bq.Ok) (hfull : bq.queueSize = bq.queueCapacity) (memory : ℕ → E) :
    (bq.growQueue memory).Ok := by
  have hfront := h.front
  refine ⟨by show 0 < bq.queueCapacity * 2; omega, by show bq.queueSize ≤ bq.queueCapacity * 2; omega, ?_⟩
  show bq.queueSize - 1 = (0 + bq.queueSize + (bq.queueCapacity * 2 - 1)) % (bq.queueCapacity * 2)
  rw [show 0 + bq.queueSize + (bq.queueCapacity * 2 - 1) = bq.queueSize - 1 + bq.queueCapacity * 2 by omega,
    Nat.add_mod_right, Nat.mod_eq_of_lt (by omega)]

/-! ## Signals -/

@[simp] theorem Place.wake_wake (p : Place C) : p.wake.wake = p.wake := by cases p <;> rfl

@[simp] theorem Place.count_wake (p : Place C) : p.wake.count = p.count := by cases p <;> rfl

/-- **A signal of one side reaches the other.** -/
theorem Signal.of_adder {adder : Place (E × Bool)} {getter getter' : Place Bool}
    (h : Signal adder adder getter getter') (hadder : adder.wake = adder) : getter' = getter.wake := by
  rcases h.one with ⟨hwaits, -⟩ | ⟨-, hone⟩ | ⟨-, hgetter⟩
  · exact absurd hadder hwaits
  · exact hone
  · rcases h.getter with h | h
    · rw [h, hgetter]
    · exact h

theorem Signal.of_getter {adder adder' : Place (E × Bool)} {getter : Place Bool}
    (h : Signal adder adder' getter getter) (hgetter : getter.wake = getter) : adder' = adder.wake := by
  rcases h.one with ⟨-, hone⟩ | ⟨hwaits, -⟩ | ⟨hadder, -⟩
  · exact hone
  · exact absurd hgetter hwaits
  · rcases h.adder with h | h
    · rw [h, hadder]
    · exact h

/-! ## The invariant -/

/-- No room, and none to come before an element is taken. -/
def BlockingQueue.Full (bq : BlockingQueue E) : Prop := bq.isBoundless = false ∧ bq.queueSize = bq.queueCapacity

/-- **The invariant of the queue.** -/
structure State.Inv (s : State E) : Prop where
  ring : s.bq.Ok
  addFlag : s.addBlocked = s.bq.addLockAreWeakLocksBlocked
  getFlag : s.getBlocked = s.bq.getLockAreWeakLocksBlocked
  addFull : s.addBlocked = true → s.bq.Full
  getEmpty : s.getBlocked = true → s.bq.queueSize = 0
  adderWaits : s.adder.wake ≠ s.adder → s.bq.Full
  adderWoken : ∀ call, s.adder = .woken call → s.bq.closed = true ∨ s.bq.queueSize < s.bq.queueCapacity
  getterWaits : s.getter.wake ≠ s.getter → s.bq.queueSize = 0
  getterWoken : ∀ call, s.getter = .woken call → s.bq.closed = true ∨ 0 < s.bq.queueSize
  active : s.activeCallersCount = s.inLine + s.left + s.adder.count + s.getter.count

theorem init_inv (capacity : ℕ) (memory : ℕ → E) : (State.init capacity memory).Inv where
  ring := init_ok capacity memory
  addFlag := rfl
  getFlag := rfl
  addFull := nofun
  getEmpty := fun _ => rfl
  adderWaits := fun h => absurd rfl h
  adderWoken := nofun
  getterWaits := fun h => absurd rfl h
  getterWoken := nofun
  active := rfl

/-- A caller of `add` leaves. -/
theorem State.Inv.leaveAdd (h : s.Inv) (hat : s.adder ≠ .nobody) : s.leaveAdd.Inv :=
  { h with
    adderWaits := fun h => absurd rfl h
    adderWoken := nofun
    active := by
      have hcount : s.adder.count = 1 := by
        cases hadder : s.adder with
        | nobody => exact absurd hadder hat
        | _ => rfl
      have := h.active
      show s.activeCallersCount = s.inLine + (s.left + 1) + 0 + s.getter.count
      omega }

theorem State.Inv.leaveGet (h : s.Inv) (hat : s.getter ≠ .nobody) : s.leaveGet.Inv :=
  { h with
    getterWaits := fun h => absurd rfl h
    getterWoken := nofun
    active := by
      have hcount : s.getter.count = 1 := by
        cases hgetter : s.getter with
        | nobody => exact absurd hgetter hat
        | _ => rfl
      have := h.active
      show s.activeCallersCount = s.inLine + (s.left + 1) + s.adder.count + 0
      omega }

/-- Weak calls are refused only while the queue is full. -/
theorem State.Inv.blockAdd (h : s.Inv) (hfull : s.bq.Full) : s.blockAdd.Inv := by
  unfold State.blockAdd
  split
  · exact h
  · exact { h with ring := ⟨h.ring.front, h.ring.size, h.ring.rear⟩, addFlag := rfl, addFull := fun _ => hfull }

theorem State.Inv.blockGet (h : s.Inv) (hempty : s.bq.queueSize = 0) : s.blockGet.Inv := by
  unfold State.blockGet
  split
  · exact h
  · exact { h with ring := ⟨h.ring.front, h.ring.size, h.ring.rear⟩, getFlag := rfl, getEmpty := fun _ => hempty }

theorem blockAdd_adder (s : State E) : s.blockAdd.adder = s.adder := by
  unfold State.blockAdd
  split <;> rfl

theorem blockGet_getter (s : State E) : s.blockGet.getter = s.getter := by
  unfold State.blockGet
  split <;> rfl

/-- Weak locks of `get` are allowed: what is left of the state is as it was. -/
theorem State.Inv.allowGet (h : s.Inv) : s.allowGet = { s with
    bq := { s.bq with getLockAreWeakLocksBlocked := false }, getBlocked := false } := by
  unfold State.allowGet
  split
  · rfl
  · next hflag =>
    have hbq : s.bq.getLockAreWeakLocksBlocked = false := by simpa using hflag
    have hlock : s.getBlocked = false := by rw [h.getFlag, hbq]
    obtain ⟨⟨⟩⟩ := s
    subst hbq hlock
    rfl

theorem State.Inv.allowAdd (h : s.Inv) : s.allowAdd = { s with
    bq := { s.bq with addLockAreWeakLocksBlocked := false }, addBlocked := false } := by
  unfold State.allowAdd
  split
  · rfl
  · next hflag =>
    have hbq : s.bq.addLockAreWeakLocksBlocked = false := by simpa using hflag
    have hlock : s.addBlocked = false := by rw [h.addFlag, hbq]
    obtain ⟨⟨⟩⟩ := s
    subst hbq hlock
    rfl

/-- An element is stored, and whoever waits for one is woken up. -/
theorem State.Inv.store (h : s.Inv) {getter : Place Bool} (hat : s.adder.wake = s.adder) (hcount : s.adder.count = 1)
    (hroom : s.bq.queueSize < s.bq.queueCapacity) (hsignal : Signal s.adder s.adder s.getter getter)
    (element : E) : (s.store element getter).Inv := by
  have hadd : s.addBlocked = false := by
    by_contra hblocked
    have hfull := (h.addFull (by simpa using hblocked)).2
    omega
  have hring : BlockingQueue.Ok { s.bq with getLockAreWeakLocksBlocked := false } :=
    ⟨h.ring.front, h.ring.size, h.ring.rear⟩
  rw [hsignal.of_adder hat, State.store, h.allowGet]
  exact
    { ring := hring.enqueue hroom element
      addFlag := h.addFlag
      getFlag := rfl
      addFull := fun hblocked => absurd (hadd.symm.trans hblocked) Bool.false_ne_true
      getEmpty := nofun
      adderWaits := fun h => absurd rfl h
      adderWoken := nofun
      getterWaits := fun h => absurd s.getter.wake_wake h
      getterWoken := fun _ _ => Or.inr (Nat.succ_pos _)
      active := by
        have := h.active
        show s.activeCallersCount = s.inLine + s.left + 1 + s.getter.wake.count
        rw [Place.count_wake]
        omega }

/-- An element is taken, and whoever waits for room is woken up. -/
theorem State.Inv.take (h : s.Inv) {adder : Place (E × Bool)} (hat : s.getter.wake = s.getter)
    (hcount : s.getter.count = 1) (hsome : 0 < s.bq.queueSize) (hsignal : Signal s.adder adder s.getter s.getter) :
    (s.take adder).Inv := by
  have hget : s.getBlocked = false := by
    by_contra hblocked
    have hempty := h.getEmpty (by simpa using hblocked)
    omega
  have hsize := h.ring.size
  have hring : BlockingQueue.Ok { s.bq with addLockAreWeakLocksBlocked := false } :=
    ⟨h.ring.front, h.ring.size, h.ring.rear⟩
  rw [hsignal.of_getter hat, State.take, h.allowAdd]
  exact
    { ring := hring.dequeue hsome
      addFlag := rfl
      getFlag := h.getFlag
      addFull := nofun
      getEmpty := fun hblocked => absurd (hget.symm.trans hblocked) Bool.false_ne_true
      adderWaits := fun h => absurd s.adder.wake_wake h
      adderWoken := fun _ _ => Or.inr (by show s.bq.queueSize - 1 < s.bq.queueCapacity; omega)
      getterWaits := fun h => absurd rfl h
      getterWoken := nofun
      active := by
        have := h.active
        show s.activeCallersCount = s.inLine + s.left + s.adder.wake.count + 1
        rw [Place.count_wake]
        omega }

/-- The ring grows only where nobody waits for room. -/
theorem State.Inv.grow (h : s.Inv) {call : E × Bool} (hat : s.adder = .entered call)
    (hfull : s.bq.queueSize = s.bq.queueCapacity) (hbound : s.bq.isBoundless = true) (memory : ℕ → E) :
    { s with bq := s.bq.growQueue memory }.Inv :=
  { h with
    ring := h.ring.growQueue hfull memory
    addFull := fun hblocked => absurd ((h.addFull hblocked).1.symm.trans hbound) Bool.false_ne_true
    adderWaits := fun hwaits => absurd (by rw [hat]; rfl) hwaits
    adderWoken := fun call hwoken => by cases hat.symm.trans hwoken }

/-- **A step keeps the invariant.** -/
theorem Step.inv (h : s.Inv) (hstep : Step s label s') : s'.Inv := by
  cases hstep with
  | call => exact { h with active := by have := h.active; dsimp only; omega }
  | ret hleft => exact { h with active := by have := h.active; dsimp only; omega }
  | lockError hline | addRefused _ hline _ | getRefused hline _ =>
    exact { h with active := by have := h.active; dsimp only; omega }
  | addLock element async hline hfree =>
    refine { h with adderWaits := fun h => absurd rfl h, adderWoken := nofun, active := ?_ }
    have hactive := h.active
    rw [hfree] at hactive
    show s.activeCallersCount = s.inLine - 1 + s.left + 1 + s.getter.count
    rw [hactive]
    show s.inLine + s.left + 0 + s.getter.count = _
    omega
  | getLock async hline hfree =>
    refine { h with getterWaits := fun h => absurd rfl h, getterWoken := nofun, active := ?_ }
    have hactive := h.active
    rw [hfree] at hactive
    show s.activeCallersCount = s.inLine - 1 + s.left + s.adder.count + 1
    rw [hactive]
    show s.inLine + s.left + s.adder.count + 0 = _
    omega
  | addClosed hat hclosed => exact h.leaveAdd (by rcases hat with hat | hat <;> rw [hat] <;> nofun)
  | getClosed hat hclosed => exact h.leaveGet (by rcases hat with hat | hat <;> rw [hat] <;> nofun)
  | addFull hat hopen hfull hbound =>
    exact (h.blockAdd ⟨hbound, hfull⟩).leaveAdd (by rw [blockAdd_adder, hat]; nofun)
  | getEmpty hat hopen hempty => exact (h.blockGet hempty).leaveGet (by rw [blockGet_getter, hat]; nofun)
  | addWait hat hopen hfull hbound =>
    have hblock := h.blockAdd ⟨hbound, hfull⟩
    have hactive := hblock.active
    rw [blockAdd_adder, hat] at hactive
    refine { hblock with adderWaits := fun _ => ?_, adderWoken := nofun, active := hactive }
    unfold State.blockAdd
    split <;> exact ⟨hbound, hfull⟩
  | getWait hat hopen hempty =>
    have hblock := h.blockGet hempty
    have hactive := hblock.active
    rw [blockGet_getter, hat] at hactive
    refine { hblock with getterWaits := fun _ => ?_, getterWoken := nofun, active := hactive }
    unfold State.blockGet
    split <;> exact hempty
  | addStore hat hopen hroom hsignal =>
    exact h.store (by rw [hat]; rfl) (by rw [hat]; rfl) (lt_of_le_of_ne h.ring.size hroom) hsignal _
  | addStoreWoken hat hopen hsignal =>
    -- whoever was woken up finds room: the size is not looked at again, and need not be
    have hroom := (h.adderWoken _ hat).resolve_left (by rw [hopen]; nofun)
    exact h.store (by rw [hat]; rfl) (by rw [hat]; rfl) hroom hsignal _
  | addGrow memory hat hopen hfull hbound hfits hsignal =>
    have hfront := h.ring.front
    exact (h.grow hat hfull hbound memory).store (by show s.adder.wake = s.adder; rw [hat]; rfl)
      (by show s.adder.count = 1; rw [hat]; rfl) (by show s.bq.queueSize < s.bq.queueCapacity * 2; omega) hsignal _
  | addNoMemory hat => exact h.leaveAdd (by rw [hat]; nofun)
  | addUnlock hat => exact h.leaveAdd (by rw [hat]; nofun)
  | getTake hat hopen hsome hsignal =>
    exact h.take (by rw [hat]; rfl) (by rw [hat]; rfl) (Nat.pos_of_ne_zero hsome) hsignal
  | getTakeWoken hat hopen hsignal =>
    have hsome := (h.getterWoken _ hat).resolve_left (by rw [hopen]; nofun)
    exact h.take (by rw [hat]; rfl) (by rw [hat]; rfl) hsome hsignal
  | getUnlock hat => exact h.leaveGet (by rw [hat]; nofun)
  | close hopen =>
    exact { h with
      ring := ⟨h.ring.front, h.ring.size, h.ring.rear⟩
      adderWoken := fun _ _ => Or.inl rfl
      getterWoken := fun _ _ => Or.inl rfl }
  | closeSignal hclosed hsignal =>
    refine { h with
      adderWaits := fun hwaits => ?_
      adderWoken := fun _ _ => Or.inl hclosed
      getterWaits := fun hwaits => ?_
      getterWoken := fun _ _ => Or.inl hclosed
      active := ?_ }
    · rcases hsignal.adder with hadder | hadder
      · exact h.adderWaits (hadder ▸ hwaits)
      · exact absurd (by dsimp only; rw [hadder, Place.wake_wake]) hwaits
    · rcases hsignal.getter with hgetter | hgetter
      · exact h.getterWaits (hgetter ▸ hwaits)
      · exact absurd (by dsimp only; rw [hgetter, Place.wake_wake]) hwaits
    · have hadder : ∀ {a a' : Place (E × Bool)}, a' = a ∨ a' = a.wake → a'.count = a.count := by
        rintro a a' (rfl | rfl)
        · rfl
        · exact a.count_wake
      have hgetter : ∀ {g g' : Place Bool}, g' = g ∨ g' = g.wake → g'.count = g.count := by
        rintro g g' (rfl | rfl)
        · rfl
        · exact g.count_wake
      dsimp only
      rw [hadder hsignal.adder, hgetter hsignal.getter]
      exact h.active

theorem Run.inv {s₀ : State E} (h : s₀.Inv) (hrun : Run s₀ labels s) : s.Inv := by
  induction hrun with
  | nil => exact h
  | snoc _ hstep ih => exact hstep.inv ih

/-! ## What the calls come to -/

/-- The most elements that the queue takes, if there is a bound. -/
def BlockingQueue.bound (bq : BlockingQueue E) : Option ℕ := if bq.isBoundless then none else some bq.queueCapacity

/-- A list of elements, and whether it is closed, before and after a step. -/
inductive Answers (bound : Option ℕ) : List E × Bool → Label E → List E × Bool → Prop where
  | silent {q : List E × Bool} : Answers bound q .silent q
  | added {items : List E} {element : E} (hroom : ∀ n ∈ bound, items.length < n) :
    Answers bound (items, false) (.add element (.ok element)) (items ++ [element], false)
  | full {items : List E} {element : E} {closed : Bool} (hfull : bound = some items.length) :
    Answers bound (items, closed) (.add element .no) (items, closed)
  | addClosed {items : List E} {element : E} : Answers bound (items, true) (.add element .closed) (items, true)
  | got {items : List E} {element : E} : Answers bound (element :: items, false) (.get (.ok element)) (items, false)
  | empty {closed : Bool} : Answers bound ([], closed) (.get .no) ([], closed)
  | getClosed {items : List E} : Answers bound (items, true) (.get .closed) (items, true)
  | close {items : List E} : Answers bound (items, false) .close (items, true)

/-- The queue as a list. -/
def BlockingQueue.view (bq : BlockingQueue E) : List E × Bool := (bq.contents, bq.closed)

theorem contents_eq_nil (h : bq.queueSize = 0) : bq.contents = [] := by
  rw [← List.length_eq_zero_iff, contents_length, h]

theorem BlockingQueue.Full.bound (h : bq.Full) : bq.bound = some bq.contents.length := by
  rw [BlockingQueue.bound, h.1, if_neg Bool.false_ne_true, contents_length, h.2]

theorem State.Inv.store_view (h : s.Inv) (getter : Place Bool) (hroom : s.bq.queueSize < s.bq.queueCapacity)
    (element : E) :
    (s.store element getter).bq.bound = s.bq.bound ∧
      (s.store element getter).bq.view = (s.bq.contents ++ [element], s.bq.closed) := by
  rw [State.store, h.allowGet]
  exact ⟨rfl, Prod.ext (contents_enqueue h.ring hroom element) rfl⟩

theorem State.Inv.take_view (h : s.Inv) (adder : Place (E × Bool)) (hsome : 0 < s.bq.queueSize) :
    (s.take adder).bq.bound = s.bq.bound ∧ s.bq.contents = s.bq.dequeue.2 :: (s.take adder).bq.contents ∧
      (s.take adder).bq.closed = s.bq.closed := by
  rw [State.take, h.allowAdd]
  exact ⟨rfl, contents_dequeue h.ring hsome, rfl⟩

/-- An element is stored where there is room. -/
theorem Answers.of_store (hinv : s.Inv) {getter : Place Bool} (hopen : s.bq.closed = false)
    (hroom : s.bq.queueSize < s.bq.queueCapacity) (element : E) :
    (s.store element getter).bq.bound = s.bq.bound ∧
      Answers s.bq.bound s.bq.view (.add element (.ok element)) (s.store element getter).bq.view := by
  obtain ⟨hbound, hview⟩ := hinv.store_view getter hroom element
  refine ⟨hbound, ?_⟩
  rw [hview, BlockingQueue.view, hopen]
  refine Answers.added fun n hn => ?_
  rw [contents_length]
  unfold BlockingQueue.bound at hn
  split at hn
  · cases hn
  · cases hn
    exact hroom

theorem Answers.of_take (hinv : s.Inv) {adder : Place (E × Bool)} (hopen : s.bq.closed = false)
    (hsome : 0 < s.bq.queueSize) :
    (s.take adder).bq.bound = s.bq.bound ∧
      Answers s.bq.bound s.bq.view (.get (.ok s.bq.dequeue.2)) (s.take adder).bq.view := by
  obtain ⟨hbound, hcontents, hclosed⟩ := hinv.take_view adder hsome
  refine ⟨hbound, ?_⟩
  rw [BlockingQueue.view, BlockingQueue.view, hcontents, hclosed, hopen]
  exact Answers.got

theorem blockAdd_view (s : State E) : s.blockAdd.bq.bound = s.bq.bound ∧ s.blockAdd.bq.view = s.bq.view := by
  unfold State.blockAdd
  split <;> exact ⟨rfl, rfl⟩

theorem blockGet_view (s : State E) : s.blockGet.bq.bound = s.bq.bound ∧ s.blockGet.bq.view = s.bq.view := by
  unfold State.blockGet
  split <;> exact ⟨rfl, rfl⟩

/-- **A step does to the list what is seen of it.** -/
theorem Step.answers (h : s.Inv) (hstep : Step s label s') :
    s'.bq.bound = s.bq.bound ∧ Answers s.bq.bound s.bq.view label s'.bq.view := by
  cases hstep with
  | call | ret | lockError | addLock | addNoMemory | addUnlock | getLock | getUnlock | closeSignal =>
    exact ⟨rfl, Answers.silent⟩
  | addRefused element hline hblocked => exact ⟨rfl, Answers.full (h.addFull hblocked).bound⟩
  | getRefused hline hblocked =>
    refine ⟨rfl, ?_⟩
    show Answers _ s.bq.view _ s.bq.view
    rw [BlockingQueue.view, contents_eq_nil (h.getEmpty hblocked)]
    exact Answers.empty
  | addClosed hat hclosed =>
    refine ⟨rfl, ?_⟩
    show Answers _ s.bq.view _ s.bq.view
    rw [BlockingQueue.view, hclosed]
    exact Answers.addClosed
  | getClosed hat hclosed =>
    refine ⟨rfl, ?_⟩
    show Answers _ s.bq.view _ s.bq.view
    rw [BlockingQueue.view, hclosed]
    exact Answers.getClosed
  | addFull hat hopen hfull hbound =>
    refine ⟨(blockAdd_view s).1, ?_⟩
    show Answers _ _ _ s.blockAdd.bq.view
    rw [(blockAdd_view s).2]
    exact Answers.full (BlockingQueue.Full.bound ⟨hbound, hfull⟩)
  | addWait hat hopen hfull hbound =>
    refine ⟨(blockAdd_view s).1, ?_⟩
    show Answers _ _ _ s.blockAdd.bq.view
    rw [(blockAdd_view s).2]
    exact Answers.silent
  | getEmpty hat hopen hempty =>
    refine ⟨(blockGet_view s).1, ?_⟩
    show Answers _ _ _ s.blockGet.bq.view
    rw [(blockGet_view s).2, BlockingQueue.view, contents_eq_nil hempty]
    exact Answers.empty
  | getWait hat hopen hempty =>
    refine ⟨(blockGet_view s).1, ?_⟩
    show Answers _ _ _ s.blockGet.bq.view
    rw [(blockGet_view s).2]
    exact Answers.silent
  | addStore hat hopen hroom hsignal => exact Answers.of_store h hopen (lt_of_le_of_ne h.ring.size hroom) _
  | addStoreWoken hat hopen hsignal =>
    exact Answers.of_store h hopen ((h.adderWoken _ hat).resolve_left (by rw [hopen]; nofun)) _
  | addGrow memory hat hopen hfull hbound hfits hsignal =>
    -- the larger ring has the same elements, and room
    have hfront := h.ring.front
    have hcontents := contents_growQueue h.ring hfull memory
    have hnone : (s.bq.growQueue memory).bound = s.bq.bound := by
      unfold BlockingQueue.bound
      rw [hbound, show (s.bq.growQueue memory).isBoundless = true from hbound, if_pos rfl, if_pos rfl]
    have hview : (s.bq.growQueue memory).view = s.bq.view := Prod.ext hcontents rfl
    rw [← hnone, ← hview]
    exact Answers.of_store (h.grow hat hfull hbound memory) hopen
      (show s.bq.queueSize < s.bq.queueCapacity * 2 by omega) _
  | getTake hat hopen hsome hsignal => exact Answers.of_take h hopen (Nat.pos_of_ne_zero hsome)
  | getTakeWoken hat hopen hsignal =>
    exact Answers.of_take h hopen ((h.getterWoken _ hat).resolve_left (by rw [hopen]; nofun))
  | close hopen =>
    refine ⟨rfl, ?_⟩
    show Answers _ (s.bq.contents, s.bq.closed) _ (s.bq.contents, true)
    rw [hopen]
    exact Answers.close

/-! ## Runs -/

/-- The elements that calls of `add` and `put` stored, in order. -/
def stored (labels : List (Label E)) : List E :=
  labels.filterMap fun
    | .add _ (.ok element) => some element
    | _ => none

/-- The elements that calls of `poll` and `take` returned, in order. -/
def taken (labels : List (Label E)) : List E :=
  labels.filterMap fun
    | .get (.ok element) => some element
    | _ => none

theorem stored_append (labels labels' : List (Label E)) : stored (labels ++ labels') = stored labels ++ stored labels' :=
  List.filterMap_append

theorem taken_append (labels labels' : List (Label E)) : taken (labels ++ labels') = taken labels ++ taken labels' :=
  List.filterMap_append

/-- What goes in behind, or comes out in front. -/
theorem Answers.moves {bound : Option ℕ} {q q' : List E × Bool} (h : Answers bound q label q') :
    q.1 ++ stored [label] = taken [label] ++ q'.1 := by
  cases h <;> simp [stored, taken]

theorem Answers.room {n : ℕ} {q q' : List E × Bool} (h : Answers (some n) q label q') (hq : q.1.length ≤ n) :
    q'.1.length ≤ n := by
  cases h with
  | added hroom =>
    have := hroom n rfl
    rw [List.length_append, List.length_singleton]
    exact this
  | got => exact Nat.le_of_succ_le hq
  | _ => exact hq

theorem init_bound (capacity : ℕ) (memory : ℕ → E) :
    (State.init capacity memory).bq.bound = if capacity = 0 then none else some capacity := by
  unfold State.init BlockingQueue.init BlockingQueue.bound
  by_cases h : capacity = 0 <;> simp [h]

/-- The bound stays. -/
theorem Run.bound {s₀ : State E} (h : s₀.Inv) (hrun : Run s₀ labels s) : s.bq.bound = s₀.bq.bound := by
  induction hrun with
  | nil => rfl
  | snoc hrun hstep ih => exact (hstep.answers (hrun.inv h)).1.trans ih

/-- **First in, first out**: what was stored is what was taken and then what is in the queue. -/
theorem Run.moves {s₀ : State E} (h : s₀.Inv) (hrun : Run s₀ labels s) :
    s₀.bq.contents ++ stored labels = taken labels ++ s.bq.contents := by
  induction hrun with
  | nil => rw [stored, taken, List.filterMap_nil, List.filterMap_nil, List.append_nil, List.nil_append]
  | snoc hrun hstep ih =>
    have hmoves := (hstep.answers (hrun.inv h)).2.moves
    rw [stored_append, taken_append, ← List.append_assoc, ih, List.append_assoc, List.append_assoc]
    congr 1

theorem Run.room {s₀ : State E} {n : ℕ} (h : s₀.Inv) (hbound : s₀.bq.bound = some n)
    (hsize : s₀.bq.contents.length ≤ n) (hrun : Run s₀ labels s) : s.bq.contents.length ≤ n := by
  induction hrun with
  | nil => exact hsize
  | snoc hrun hstep ih =>
    have hanswers := (hstep.answers (hrun.inv h)).2
    rw [hrun.bound h, hbound] at hanswers
    exact hanswers.room ih

/-- **The queue is first in, first out**, whatever its callers do, and whether it grows or has a capacity. -/
theorem blocking_queue_fifo {capacity : ℕ} {memory : ℕ → E} (hrun : Run (State.init capacity memory) labels s) :
    stored labels = taken labels ++ s.bq.contents ∧ (0 < capacity → s.bq.contents.length ≤ capacity) := by
  have hinv := init_inv capacity memory
  refine ⟨hrun.moves hinv, fun hpos => ?_⟩
  refine hrun.room hinv ?_ (Nat.zero_le _)
  rw [init_bound, if_neg hpos.ne']

/-- A caller of `put` waits in a full queue, and is woken up by a caller of `take`. -/
theorem exists_woken : ∃ (labels labels' : List (Label ℕ)) (s s' : State ℕ),
    Run (State.init 1 fun _ => 0) labels s ∧ s.adder = .waiting (8, false) ∧
      Run (State.init 1 fun _ => 0) labels' s' ∧ stored labels' = [7, 8] ∧ taken labels' = [7] := by
  have hnobody : Signal (.entered (7, false)) (.entered (7, false)) .nobody .nobody :=
    ⟨Or.inl rfl, Or.inl rfl, Or.inr (Or.inr ⟨rfl, rfl⟩)⟩
  have hwakes : Signal (.waiting ((8 : ℕ), false)) (.woken (8, false)) (.entered false) (.entered false) :=
    ⟨Or.inr rfl, Or.inl rfl, Or.inl ⟨nofun, rfl⟩⟩
  have hwoken : Signal (.woken ((8 : ℕ), false)) (.woken (8, false)) .leaving .leaving :=
    ⟨Or.inl rfl, Or.inl rfl, Or.inr (Or.inr ⟨rfl, rfl⟩)⟩
  have hstored := (((Run.nil : Run (State.init 1 fun _ => 0) [] _).snoc .call).snoc
    (.addLock 7 false (by decide) rfl)).snoc (.addStore rfl rfl (by decide) hnobody)
  have hwaits := (((hstored.snoc (.addUnlock rfl)).snoc .call).snoc (.addLock 8 false (by decide) rfl)).snoc
    (.addWait rfl rfl rfl rfl)
  have htook := ((hwaits.snoc .call).snoc (.getLock false (by decide) rfl)).snoc
    (.getTake rfl rfl (by decide) hwakes)
  exact ⟨_, _, _, _, hwaits, rfl, htook.snoc (.addStoreWoken rfl rfl hwoken), rfl, rfl⟩

theorem blocking_queue_fifo_woken : ∃ (labels : List (Label ℕ)) (s : State ℕ), stored labels = [7, 8] ∧
    taken labels = [7] ∧ stored labels = taken labels ++ s.bq.contents ∧ (0 < 1 → s.bq.contents.length ≤ 1) := by
  obtain ⟨-, labels, -, s, -, -, hrun, hstored, htaken⟩ := exists_woken
  exact ⟨labels, s, hstored, htaken, blocking_queue_fifo hrun⟩

variable {cap : ℕ}

/-- A step of a queue that can be closed. A call may be told that it is full, or empty, when that is so. -/
def Does (q : Queue E cap) : Label E → Queue E cap → Prop
  | .silent, q' => q' = q
  | .add element res, q' => (q.items.length = cap ∧ res = .no ∧ q' = q) ∨ q.add element = (q', res)
  | .get res, q' => (q.items = [] ∧ res = .no ∧ q' = q) ∨ q.poll = (q', res)
  | .close, q' => q' = q.close

/-- Steps one after the other. -/
inductive DoesAll : Queue E cap → List (Label E) → Queue E cap → Prop where
  | nil {q : Queue E cap} : DoesAll q [] q
  | snoc {q₀ q q' : Queue E cap} {labels : List (Label E)} {label : Label E} (hrun : DoesAll q₀ labels q) (hstep : Does q label q') :
    DoesAll q₀ (labels ++ [label]) q'

theorem Answers.does {q : Queue E cap} {v' : List E × Bool} (h : Answers (some cap) (q.items, q.closed) label v') :
    ∃ q' : Queue E cap, (q'.items, q'.closed) = v' ∧ Does q label q' := by
  generalize hv : (q.items, q.closed) = v at h
  cases h with
  | silent => exact ⟨q, hv, rfl⟩
  | added hroom =>
    obtain ⟨rfl, hopen⟩ := Prod.ext_iff.1 hv
    have hok := add_room hopen (hroom cap rfl)
    exact ⟨_, Prod.ext (hok _).1 (hok _).2.1, Or.inr (Prod.ext rfl (hok _).2.2)⟩
  | full hfull =>
    obtain ⟨rfl, rfl⟩ := Prod.ext_iff.1 hv
    exact ⟨q, rfl, Or.inl ⟨(Option.some.inj hfull).symm, rfl, rfl⟩⟩
  | addClosed =>
    obtain ⟨rfl, hclosed⟩ := Prod.ext_iff.1 hv
    exact ⟨q, hv, Or.inr (add_closed hclosed _)⟩
  | got =>
    obtain ⟨hitems, hopen⟩ := Prod.ext_iff.1 hv
    have hok := poll_cons hopen hitems
    exact ⟨_, Prod.ext hok.1 hok.2.1, Or.inr (Prod.ext rfl hok.2.2)⟩
  | empty =>
    obtain ⟨hitems, rfl⟩ := Prod.ext_iff.1 hv
    exact ⟨q, hv, Or.inl ⟨hitems, rfl, rfl⟩⟩
  | getClosed =>
    obtain ⟨rfl, hclosed⟩ := Prod.ext_iff.1 hv
    exact ⟨q, hv, Or.inr (poll_closed hclosed)⟩
  | close =>
    obtain ⟨rfl, hopen⟩ := Prod.ext_iff.1 hv
    exact ⟨q.close, rfl, rfl⟩

end InmarsatSniffer.Bq
