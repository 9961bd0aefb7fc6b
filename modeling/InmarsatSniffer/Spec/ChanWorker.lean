import Mathlib
import InmarsatSniffer.Spec.ChanRing

/-!
# The end of a channel worker

`chan_worker_fn` runs until `thread_run` is cleared, which it tests at the top of its loop.
`main` clears it and joins the thread. The turns of the producer, of the worker and of
`main` come in any order.
-/

namespace InmarsatSniffer.Chan

variable {α : Type*}

/-- Where the worker is. -/
inductive WorkerPlace where
  /-- At the test of `thread_run`. -/
  | test
  /-- In the body of the loop, where `Consumer` says. -/
  | body
  | left
  deriving DecidableEq

/-- The state of the consumer between two turns of the loop. -/
def Consumer.isIdle : Consumer α → Bool
  | .idle => true
  | _ => false

/-- A channel with its thread. `before` are the calls of `chan_push` that had returned when
`thread_run` was cleared. -/
structure Channel (α : Type*) where
  jc : JaeroChan α
  threadRun : Bool
  place : WorkerPlace
  joined : Bool
  before : Option (List (Push α))

/-- The channel behind `chan_init_thread`. -/
def Channel.init (ring : ℕ → α) : Channel α := ⟨.init ring, true, .test, false, none⟩

/-- The next step in the body of the loop; behind its end is the test. -/
def Channel.work (c : Channel α) : Channel α :=
  let jc := c.jc.consume
  { c with jc := jc, place := if jc.consumer.isIdle then .test else .body }

/-- A turn of one of the threads. -/
inductive CStep : Channel α → Channel α → Prop where
  | push {c : Channel α} (samples : Block α) : CStep c { c with jc := c.jc.produce samples }
  | enter {c : Channel α} (hplace : c.place = .test) (hrun : c.threadRun = true) : CStep c { c with place := .body }
  | leave {c : Channel α} (hplace : c.place = .test) (hrun : c.threadRun = false) : CStep c { c with place := .left }
  | work {c : Channel α} (hplace : c.place = .body) : CStep c c.work
  | clear {c : Channel α} (hrun : c.threadRun = true) :
    CStep c { c with threadRun := false, before := some c.jc.pushes }
  | join {c : Channel α} (hplace : c.place = .left) (hrun : c.threadRun = false) : CStep c { c with joined := true }

/-- The states that a channel can come to, with any contents of the fresh ring. -/
def Channel.Reachable (c : Channel α) : Prop := ∃ ring, Relation.ReflTransGen CStep (Channel.init ring) c

end InmarsatSniffer.Chan
