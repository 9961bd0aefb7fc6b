import Mathlib
import InmarsatSniffer.Lib.LinkedCells
import InmarsatSniffer.Spec.FairLock

/-!
# The list of the fair lock

The entries of `fair_lock.h` in memory: `cond_queue_front`, `cond_queue_rear` and `next`, and the pool of those that
nobody waits for. `P` are pointers, and a function that would follow a null pointer returns `none`.
-/

namespace InmarsatSniffer.Fair

open LinkedCells

variable {P T : Type}

/-- The fields of `Fair_Lock` that the list is made of, and those of the entries. -/
structure CondQueue (P : Type) where
  next : P → Option P
  weak : P → Bool
  abandoned : P → Bool
  condQueueFront : Option P
  condQueueRear : Option P
  condPool : Option P
  waitingThreads : ℤ

variable [DecidableEq P]

/-- The start of `enqueue_cond_queue_entry`: an entry in the pool, from `malloc` if there is none. -/
def CondQueue.fill (q : CondQueue P) (memory : P) : CondQueue P :=
  match q.condPool with
  | some _ => q
  | none => { q with condPool := some memory, next := Function.update q.next memory none }

/-- `enqueue_cond_queue_entry`, when `malloc` returns `memory`. -/
def CondQueue.enqueueCondQueueEntry (q : CondQueue P) (memory : P) (weak : Bool) : Option (CondQueue P × P) := do
  let q := q.fill memory
  let entry ← q.condPool
  let q := { q with weak := Function.update q.weak entry weak, abandoned := Function.update q.abandoned entry false }
  let q ← match q.condQueueFront with
    | some _ => do
      let rear ← q.condQueueRear
      some { q with next := Function.update q.next rear (some entry), condQueueRear := some entry }
    | none => some { q with condQueueFront := some entry, condQueueRear := some entry }
  let q := { q with condPool := q.next entry }
  some ({ q with next := Function.update q.next entry none }, entry)

/-- `dequeue_cond_queue_entry`. -/
def CondQueue.dequeueCondQueueEntry (q : CondQueue P) : CondQueue P × Option P :=
  match q.condQueueFront with
  | none => (q, none)
  | some target =>
    let rear := if q.condQueueRear = some target then none else q.condQueueRear
    ({ q with condQueueRear := rear, condQueueFront := q.next target }, some target)

/-- `release_cond_queue_entry`. -/
def CondQueue.releaseCondQueueEntry (q : CondQueue P) (entry : P) : CondQueue P :=
  { q with next := Function.update q.next entry q.condPool, condPool := some entry }

/-- The loop of `abandone_weak_locks`, for a list of less than `fuel` entries: `signalled` are those so far. -/
def CondQueue.abandoneLoop : ℕ → CondQueue P → Option P → Option P → Option P → List P → Option (CondQueue P × List P)
  | 0, _, _, _, _, _ => none
  | _ + 1, q, none, first, last, signalled => some ({ q with condQueueFront := first, condQueueRear := last }, signalled)
  | fuel + 1, q, some current, first, last, signalled =>
    if q.weak current then
      let q := { q with next := relink q.next last (q.next current) }
      let q := { q with abandoned := Function.update q.abandoned current true, waitingThreads := q.waitingThreads - 1 }
      abandoneLoop fuel q (q.next current) first last (signalled ++ [current])
    else abandoneLoop fuel q (q.next current) (first.or (some current)) (some current) signalled

/-- `abandone_weak_locks`, with the entries that are signalled. -/
def CondQueue.abandoneWeakLocks (fuel : ℕ) (q : CondQueue P) : Option (CondQueue P × List P) :=
  CondQueue.abandoneLoop fuel q q.condQueueFront none none []

/-! ## Calls one after the other -/

/-- A call of one of the functions for the list, by what it is given. -/
inductive Op (P T : Type) where
  | enqueue (thread : T) (weak : Bool)
  | dequeue
  | release (entry : P)
  | abandone

/-- The list, with the thread of each entry. `used` are the entries whose threads were signalled and have not released
them yet, and `allocated` is all that `malloc` has returned. -/
structure CondState (P T : Type) where
  q : CondQueue P
  owner : P → T
  used : List P
  allocated : List P

/-- Behind `fair_lock_init`; what is in memory before an entry is made does not matter. -/
def CondState.init (next : P → Option P) (weak abandoned : P → Bool) (owner : P → T) : CondState P T :=
  ⟨⟨next, weak, abandoned, none, none, none, 0⟩, owner, [], []⟩

/-- A call, and the threads that are signalled. -/
inductive CondStep : CondState P T → Op P T → List T → CondState P T → Prop where
  | enqueue {s : CondState P T} {q : CondQueue P} {memory entry : P} (thread : T) (weak : Bool)
    (hmemory : memory ∉ s.allocated) (hq : s.q.enqueueCondQueueEntry memory weak = some (q, entry)) :
    CondStep s (.enqueue thread weak) []
      { s with q := q, owner := Function.update s.owner entry thread, allocated := memory :: s.allocated }
  | dequeue {s : CondState P T} :
    CondStep s .dequeue (s.q.dequeueCondQueueEntry.2.toList.map s.owner)
      { s with q := s.q.dequeueCondQueueEntry.1, used := s.q.dequeueCondQueueEntry.2.toList ++ s.used }
  | release {s : CondState P T} (entry : P) (hused : entry ∈ s.used) :
    CondStep s (.release entry) [] { s with q := s.q.releaseCondQueueEntry entry, used := s.used.erase entry }
  | abandone {s : CondState P T} {q : CondQueue P} {signalled : List P} (fuel : ℕ)
    (hq : s.q.abandoneWeakLocks fuel = some (q, signalled)) :
    CondStep s .abandone (signalled.map s.owner) { s with q := q, used := signalled ++ s.used }

/-- Calls from a state on, each with the threads that it signals. -/
inductive CondRun (s₀ : CondState P T) : List (Op P T × List T) → CondState P T → Prop where
  | nil : CondRun s₀ [] s₀
  | snoc {s s' : CondState P T} {calls : List (Op P T × List T)} {op : Op P T} {signalled : List T}
    (hrun : CondRun s₀ calls s) (hstep : CondStep s op signalled s') : CondRun s₀ (calls ++ [(op, signalled)]) s'

/-- The same call of the lock whose list is a list. -/
def FairLock.call (lock : FairLock T) : Op P T → FairLock T × List T
  | .enqueue thread weak => (lock.enqueueCondQueueEntry thread weak, [])
  | .dequeue => (lock.dequeueCondQueueEntry.1, lock.dequeueCondQueueEntry.2.toList.map fun e => e.thread)
  | .release _ => (lock, [])
  | .abandone => lock.abandoneWeakLocks

/-- Its calls one after the other. -/
inductive ListRun : List (Op P T × List T) → FairLock T → Prop where
  | nil : ListRun [] .init
  | snoc {lock : FairLock T} {calls : List (Op P T × List T)} {op : Op P T} (hrun : ListRun calls lock) :
    ListRun (calls ++ [(op, (lock.call op).2)]) (lock.call op).1

end InmarsatSniffer.Fair
