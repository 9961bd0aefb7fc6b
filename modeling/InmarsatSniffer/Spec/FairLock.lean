import Mathlib
import InmarsatSniffer.Lib.HandOff

/-!
# The fair lock

`fair_lock.h`, on which the blocking queue puts those in line who add, and those who get. A step is what a thread does
while it holds `mutex`. `pthread_cond_wait` returns only after a signal.
-/

namespace InmarsatSniffer.Fair

open HandOff (Phase)

variable {T : Type}

/-- `Cond_Queue_Entry`, with the thread that waits for its `cond`. -/
structure CondQueueEntry (T : Type) where
  thread : T
  weak : Bool

/-- `Fair_Lock`; `condQueue` are the entries from `cond_queue_front` to `cond_queue_rear`. -/
structure FairLock (T : Type) where
  condQueue : List (CondQueueEntry T)
  isLockAcquired : Bool
  waitingThreads : ℤ
  blockWeakLocks : Bool

/-- `fair_lock_init`. -/
def FairLock.init : FairLock T := ⟨[], false, 0, false⟩

/-- `enqueue_cond_queue_entry`, if there is an entry. -/
def FairLock.enqueueCondQueueEntry (lock : FairLock T) (thread : T) (weak : Bool) : FairLock T :=
  { lock with condQueue := lock.condQueue ++ [⟨thread, weak⟩] }

/-- `dequeue_cond_queue_entry`. -/
def FairLock.dequeueCondQueueEntry (lock : FairLock T) : FairLock T × Option (CondQueueEntry T) :=
  match lock.condQueue with
  | [] => (lock, none)
  | entry :: rest => ({ lock with condQueue := rest }, some entry)

/-- The loop of `abandone_weak_locks`: the strong entries so far, which stay linked, `waiting_threads`, and the threads
that were signalled so far. -/
def abandoneLoop (strong : List (CondQueueEntry T)) (waitingThreads : ℤ) (signalled : List T) :
    List (CondQueueEntry T) → List (CondQueueEntry T) × ℤ × List T
  | [] => (strong, waitingThreads, signalled)
  | entry :: rest =>
    if entry.weak then abandoneLoop strong (waitingThreads - 1) (signalled ++ [entry.thread]) rest
    else abandoneLoop (strong ++ [entry]) waitingThreads signalled rest

/-- `abandone_weak_locks`: the lock, and the threads that are signalled. -/
def FairLock.abandoneWeakLocks (lock : FairLock T) : FairLock T × List T :=
  let (strong, waitingThreads, signalled) := abandoneLoop [] lock.waitingThreads [] lock.condQueue
  ({ lock with condQueue := strong, waitingThreads := waitingThreads }, signalled)

/-- The test of `_fair_lock_lock`. -/
def FairLock.Busy (lock : FairLock T) : Prop := lock.isLockAcquired = true ∨ lock.waitingThreads > 0

/-- The lock and its threads: one in `pthread_cond_wait` is `queued`, and one that was signalled is `granted` the lock,
or `refused` if its entry is `abandoned`. `ticket` numbers the requests that were not refused at once, and `served`
are the numbers of those that have taken the lock, in the order of time. -/
structure State (T : Type) where
  lock : FairLock T
  phase : T → Phase
  ticket : T → ℕ
  next : ℕ
  served : List ℕ

/-- Behind `fair_lock_init`. -/
def State.init : State T := ⟨.init, fun _ => .out, fun _ => 0, 0, []⟩

variable [DecidableEq T]

/-- The threads behind a signal for the lock. -/
def signal (phase : T → Phase) : Option (CondQueueEntry T) → T → Phase
  | none => phase
  | some entry => Function.update phase entry.thread .granted

/-- The threads behind the signals of `abandone_weak_locks`. -/
def signalAbandoned (phase : T → Phase) (signalled : List T) : T → Phase :=
  signalled.foldl (fun phase thread => Function.update phase thread .refused) phase

/-- A step of one of the threads. -/
inductive Step : State T → State T → Prop where
  /-- `FL_ABANDONED` at once, or `FL_ERROR`. -/
  | fail {s : State T} : Step s s
  | lock {s : State T} {thread : T} {weak : Bool} (hphase : s.phase thread = .out)
    (hallowed : ¬(weak = true ∧ s.lock.blockWeakLocks = true)) (hbusy : ¬s.lock.Busy) :
    Step s
      { lock := { s.lock with isLockAcquired := true }
        phase := Function.update s.phase thread .inside
        ticket := Function.update s.ticket thread s.next
        next := s.next + 1
        served := s.served ++ [s.next] }
  | wait {s : State T} {thread : T} {weak : Bool} (hphase : s.phase thread = .out)
    (hallowed : ¬(weak = true ∧ s.lock.blockWeakLocks = true)) (hbusy : s.lock.Busy) :
    Step s
      { lock := { s.lock with waitingThreads := s.lock.waitingThreads + 1 }.enqueueCondQueueEntry thread weak
        phase := Function.update s.phase thread (.queued weak)
        ticket := Function.update s.ticket thread s.next
        next := s.next + 1
        served := s.served }
  | woken {s : State T} {thread : T} (hphase : s.phase thread = .granted) :
    Step s
      { s with
        lock := { s.lock with waitingThreads := s.lock.waitingThreads - 1, isLockAcquired := true }
        phase := Function.update s.phase thread .inside
        served := s.served ++ [s.ticket thread] }
  | abandoned {s : State T} {thread : T} (hphase : s.phase thread = .refused) :
    Step s { s with phase := Function.update s.phase thread .out }
  | unlock {s : State T} {thread : T} (hphase : s.phase thread = .inside) :
    Step s
      { s with
        lock := { s.lock.dequeueCondQueueEntry.1 with isLockAcquired := false }
        phase := signal (Function.update s.phase thread .out) s.lock.dequeueCondQueueEntry.2 }
  | blockWeak {s : State T} :
    Step s
      { s with
        lock := { s.lock.abandoneWeakLocks.1 with blockWeakLocks := true }
        phase := signalAbandoned s.phase s.lock.abandoneWeakLocks.2 }
  | allowWeak {s : State T} : Step s { s with lock := { s.lock with blockWeakLocks := false } }

/-- The states that the threads can come to. -/
def State.Reachable (s : State T) : Prop := Relation.ReflTransGen Step State.init s

end InmarsatSniffer.Fair
