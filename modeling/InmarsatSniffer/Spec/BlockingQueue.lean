import Mathlib
import InmarsatSniffer.Lib.ClosableQueue

/-!
# The blocking queue

`blocking_queue.h`: a ring of elements behind a mutex, a condition that both sides wait on, and for each side a lock
that is given to one caller at a time. A step is what happens while `mutex` is held, or one access to one of the
locks. `pthread_cond_wait` returns only after a signal.
-/

namespace InmarsatSniffer.Bq

open ClosableQueue

variable {E : Type}

/-- The fields of `Blocking_Queue` that `mutex` guards. -/
structure BlockingQueue (E : Type) where
  queue : ℕ → E
  queueCapacity : ℕ
  queueSize : ℕ
  queueFront : ℕ
  queueRear : ℕ
  isBoundless : Bool
  closed : Bool
  addLockAreWeakLocksBlocked : Bool
  getLockAreWeakLocksBlocked : Bool

/-- `blocking_queue_init`; `memory` is what `malloc` returns. -/
def BlockingQueue.init (capacity : ℕ) (memory : ℕ → E) : BlockingQueue E :=
  let queueCapacity := if capacity ≤ 0 then 1 else capacity
  { queue := memory
    queueCapacity := queueCapacity
    queueSize := 0
    queueFront := 0
    queueRear := queueCapacity - 1
    isBoundless := decide (capacity ≤ 0)
    closed := false
    addLockAreWeakLocksBlocked := false
    getLockAreWeakLocksBlocked := false }

/-- `enqueue`. -/
def BlockingQueue.enqueue (bq : BlockingQueue E) (element : E) : BlockingQueue E :=
  let queueRear := (bq.queueRear + 1) % bq.queueCapacity
  { bq with
    queueRear := queueRear
    queue := Function.update bq.queue queueRear element
    queueSize := bq.queueSize + 1 }

/-- `dequeue`. -/
def BlockingQueue.dequeue (bq : BlockingQueue E) : BlockingQueue E × E :=
  ({ bq with
     queueFront := (bq.queueFront + 1) % bq.queueCapacity
     queueSize := bq.queueSize - 1 }, bq.queue bq.queueFront)

/-- `memcpy` of `n` elements from `src + i` to `dst + j`. -/
def copyCells (dst : ℕ → E) (j : ℕ) (src : ℕ → E) (i n : ℕ) : ℕ → E :=
  fun k => if j ≤ k ∧ k < j + n then src (i + (k - j)) else dst k

/-- `grow_queue`, when `malloc` returns `memory`. -/
def BlockingQueue.growQueue (bq : BlockingQueue E) (memory : ℕ → E) : BlockingQueue E :=
  let newQueue :=
    if bq.queueRear ≥ bq.queueFront then copyCells memory 0 bq.queue bq.queueFront bq.queueSize
    else
      copyCells (copyCells memory 0 bq.queue bq.queueFront (bq.queueCapacity - bq.queueFront))
        (bq.queueCapacity - bq.queueFront) bq.queue 0 (bq.queueRear + 1)
  { bq with
    queue := newQueue
    queueCapacity := bq.queueCapacity * 2
    queueFront := 0
    queueRear := bq.queueSize - 1 }

/-- The elements in the queue, from the front on. -/
def BlockingQueue.contents (bq : BlockingQueue E) : List E :=
  (List.range bq.queueSize).map fun k => bq.queue ((bq.queueFront + k) % bq.queueCapacity)

/-! ## Callers -/

/-- Where the caller is that has the lock of its side. -/
inductive Place (C : Type) where
  | nobody
  /-- Before `mutex`. -/
  | entered (call : C)
  /-- In `pthread_cond_wait`. -/
  | waiting (call : C)
  /-- Signalled, and before `mutex` again. -/
  | woken (call : C)
  /-- Behind `mutex`, with the lock still to be given back. -/
  | leaving

variable {C : Type}

/-- After a signal that wakes it up. -/
def Place.wake : Place C → Place C
  | .waiting call => .woken call
  | p => p

/-- The callers at a place: one, or none. -/
def Place.count : Place C → ℕ
  | .nobody => 0
  | _ => 1

/-- `pthread_cond_signal` wakes up at least one of those who wait. -/
structure Signal (a a' : Place (E × Bool)) (g g' : Place Bool) : Prop where
  adder : a' = a ∨ a' = a.wake
  getter : g' = g ∨ g' = g.wake
  one : (a.wake ≠ a ∧ a' = a.wake) ∨ (g.wake ≠ g ∧ g' = g.wake) ∨ (a.wake = a ∧ g.wake = g)

/-- The queue and its callers. A caller of `blocking_queue_add_internal` is given by its element and `async`, one of
`blocking_queue_get_internal` by `async`. `inLine` callers are before a lock, and `left` callers are behind it with
their result, before `decrease_active_callers_count`. `addBlocked` and `getBlocked` are `block_weak_locks` of the
locks. -/
structure State (E : Type) where
  bq : BlockingQueue E
  adder : Place (E × Bool)
  getter : Place Bool
  addBlocked : Bool
  getBlocked : Bool
  inLine : ℕ
  left : ℕ
  activeCallersCount : ℕ

/-- Behind `blocking_queue_init`. -/
def State.init (capacity : ℕ) (memory : ℕ → E) : State E :=
  ⟨.init capacity memory, .nobody, .nobody, false, false, 0, 0, 0⟩

/-- What is seen of a step: a call that comes to its result, or `blocking_queue_close`. A call that fails with
`BQ_ERROR` is not seen. -/
inductive Label (E : Type) where
  | silent
  | add (element : E) (result : Res E)
  | get (result : Res E)
  | close

/-- `fair_lock_block_weak_locks(&bq->add_lock)`, unless it is done. -/
def State.blockAdd (s : State E) : State E :=
  if s.bq.addLockAreWeakLocksBlocked then s
  else { s with bq := { s.bq with addLockAreWeakLocksBlocked := true }, addBlocked := true }

/-- The same for `get_lock`. -/
def State.blockGet (s : State E) : State E :=
  if s.bq.getLockAreWeakLocksBlocked then s
  else { s with bq := { s.bq with getLockAreWeakLocksBlocked := true }, getBlocked := true }

/-- `fair_lock_allow_weak_locks(&bq->add_lock)`, if they are blocked. -/
def State.allowAdd (s : State E) : State E :=
  if s.bq.addLockAreWeakLocksBlocked then
    { s with bq := { s.bq with addLockAreWeakLocksBlocked := false }, addBlocked := false }
  else s

/-- The same for `get_lock`. -/
def State.allowGet (s : State E) : State E :=
  if s.bq.getLockAreWeakLocksBlocked then
    { s with bq := { s.bq with getLockAreWeakLocksBlocked := false }, getBlocked := false }
  else s

/-- The caller gives `add_lock` back, and has its result. -/
def State.leaveAdd (s : State E) : State E := { s with adder := .nobody, left := s.left + 1 }

/-- The same for `get_lock`. -/
def State.leaveGet (s : State E) : State E := { s with getter := .nobody, left := s.left + 1 }

/-- The end of `blocking_queue_add_internal` up to the release of `mutex`; `getter` is as the signal leaves it. -/
def State.store (s : State E) (element : E) (getter : Place Bool) : State E :=
  { s.allowGet with bq := s.allowGet.bq.enqueue element, adder := .leaving, getter := getter }

/-- The end of `blocking_queue_get_internal`. -/
def State.take (s : State E) (adder : Place (E × Bool)) : State E :=
  { s.allowAdd with bq := s.allowAdd.bq.dequeue.1, adder := adder, getter := .leaving }

/-- A step of one of the callers. A lock may be given to a call that is weak at any time. -/
inductive Step : State E → Label E → State E → Prop where
  | call {s : State E} :
    Step s .silent { s with inLine := s.inLine + 1, activeCallersCount := s.activeCallersCount + 1 }
  | ret {s : State E} (hleft : 0 < s.left) :
    Step s .silent { s with left := s.left - 1, activeCallersCount := s.activeCallersCount - 1 }
  /-- `FL_ERROR`. -/
  | lockError {s : State E} (hline : 0 < s.inLine) :
    Step s .silent { s with inLine := s.inLine - 1, left := s.left + 1 }
  /-- `FL_ABANDONED`. -/
  | addRefused {s : State E} (element : E) (hline : 0 < s.inLine) (hblocked : s.addBlocked = true) :
    Step s (.add element .no) { s with inLine := s.inLine - 1, left := s.left + 1 }
  | addLock {s : State E} (element : E) (async : Bool) (hline : 0 < s.inLine) (hfree : s.adder = .nobody) :
    Step s .silent { s with inLine := s.inLine - 1, adder := .entered (element, async) }
  | addClosed {s : State E} {element : E} {async : Bool}
    (hat : s.adder = .entered (element, async) ∨ s.adder = .woken (element, async)) (hclosed : s.bq.closed = true) :
    Step s (.add element .closed) s.leaveAdd
  | addFull {s : State E} {element : E} (hat : s.adder = .entered (element, true)) (hopen : s.bq.closed = false)
    (hfull : s.bq.queueSize = s.bq.queueCapacity) (hbound : s.bq.isBoundless = false) :
    Step s (.add element .no) s.blockAdd.leaveAdd
  | addWait {s : State E} {element : E} (hat : s.adder = .entered (element, false)) (hopen : s.bq.closed = false)
    (hfull : s.bq.queueSize = s.bq.queueCapacity) (hbound : s.bq.isBoundless = false) :
    Step s .silent { s.blockAdd with adder := .waiting (element, false) }
  | addStore {s : State E} {element : E} {async : Bool} {getter : Place Bool}
    (hat : s.adder = .entered (element, async)) (hopen : s.bq.closed = false)
    (hroom : s.bq.queueSize ≠ s.bq.queueCapacity) (hsignal : Signal s.adder s.adder s.getter getter) :
    Step s (.add element (.ok element)) (s.store element getter)
  /-- Behind the wait, the size is not looked at again. -/
  | addStoreWoken {s : State E} {element : E} {async : Bool} {getter : Place Bool}
    (hat : s.adder = .woken (element, async)) (hopen : s.bq.closed = false)
    (hsignal : Signal s.adder s.adder s.getter getter) :
    Step s (.add element (.ok element)) (s.store element getter)
  /-- `grow_queue`. `unsigned` does not overflow. -/
  | addGrow {s : State E} {element : E} {async : Bool} {getter : Place Bool} (memory : ℕ → E)
    (hat : s.adder = .entered (element, async)) (hopen : s.bq.closed = false)
    (hfull : s.bq.queueSize = s.bq.queueCapacity) (hbound : s.bq.isBoundless = true)
    (hfits : s.bq.queueCapacity * 2 < 2 ^ 32) (hsignal : Signal s.adder s.adder s.getter getter) :
    Step s (.add element (.ok element)) ({ s with bq := s.bq.growQueue memory }.store element getter)
  | addNoMemory {s : State E} {element : E} {async : Bool} (hat : s.adder = .entered (element, async))
    (hopen : s.bq.closed = false) (hfull : s.bq.queueSize = s.bq.queueCapacity) (hbound : s.bq.isBoundless = true) :
    Step s .silent s.leaveAdd
  | addUnlock {s : State E} (hat : s.adder = .leaving) : Step s .silent s.leaveAdd
  | getRefused {s : State E} (hline : 0 < s.inLine) (hblocked : s.getBlocked = true) :
    Step s (.get .no) { s with inLine := s.inLine - 1, left := s.left + 1 }
  | getLock {s : State E} (async : Bool) (hline : 0 < s.inLine) (hfree : s.getter = .nobody) :
    Step s .silent { s with inLine := s.inLine - 1, getter := .entered async }
  | getClosed {s : State E} {async : Bool} (hat : s.getter = .entered async ∨ s.getter = .woken async)
    (hclosed : s.bq.closed = true) : Step s (.get .closed) s.leaveGet
  | getEmpty {s : State E} (hat : s.getter = .entered true) (hopen : s.bq.closed = false) (hempty : s.bq.queueSize = 0) :
    Step s (.get .no) s.blockGet.leaveGet
  | getWait {s : State E} (hat : s.getter = .entered false) (hopen : s.bq.closed = false) (hempty : s.bq.queueSize = 0) :
    Step s .silent { s.blockGet with getter := .waiting false }
  | getTake {s : State E} {async : Bool} {adder : Place (E × Bool)} (hat : s.getter = .entered async)
    (hopen : s.bq.closed = false) (hsome : s.bq.queueSize ≠ 0) (hsignal : Signal s.adder adder s.getter s.getter) :
    Step s (.get (.ok s.bq.dequeue.2)) (s.take adder)
  | getTakeWoken {s : State E} {async : Bool} {adder : Place (E × Bool)} (hat : s.getter = .woken async)
    (hopen : s.bq.closed = false) (hsignal : Signal s.adder adder s.getter s.getter) :
    Step s (.get (.ok s.bq.dequeue.2)) (s.take adder)
  | getUnlock {s : State E} (hat : s.getter = .leaving) : Step s .silent s.leaveGet
  | close {s : State E} (hopen : s.bq.closed = false) :
    Step s .close { s with bq := { s.bq with closed := true } }
  /-- The loop of `blocking_queue_close`. -/
  | closeSignal {s : State E} {adder : Place (E × Bool)} {getter : Place Bool} (hclosed : s.bq.closed = true)
    (hsignal : Signal s.adder adder s.getter getter) : Step s .silent { s with adder := adder, getter := getter }

/-- Steps one after the other, with what is seen of each. -/
inductive Run : State E → List (Label E) → State E → Prop where
  | nil {s : State E} : Run s [] s
  | snoc {s₀ s s' : State E} {labels : List (Label E)} {label : Label E} (hrun : Run s₀ labels s)
    (hstep : Step s label s') : Run s₀ (labels ++ [label]) s'

end InmarsatSniffer.Bq
