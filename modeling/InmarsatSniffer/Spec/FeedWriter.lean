import Mathlib
import InmarsatSniffer.Lib.ClosableQueue

/-!
# The writer of stdout

`send_json` puts a copy of each line into a queue, from which `feed_writer_fn` writes it to
stdout; `feed_shutdown` closes the queue, joins the writer and drains what is left. The
queue does what its header says: a closed one gives and takes nothing any more.
-/

namespace InmarsatSniffer.Feed

open ClosableQueue

/-- `FEED_QUEUE_CAPACITY`. -/
abbrev feedQueueCapacity : ℕ := 256

/-- A line that is handed over; it has at least its braces. -/
abbrev Line := {line : List UInt8 // line ≠ []}

/-- Where the writer is. -/
inductive WriterPlace where
  | taking
  | holds (m : Line)
  /-- The line is written, and its memory is not freed yet. -/
  | wrote (m : Line)
  | left

/-- How far `feed_shutdown` is. -/
inductive ShutdownPhase where
  | alive
  | joining
  | draining
  | returned
  deriving DecidableEq

/-- The queue, its threads and `stat_feed_drops`. In the order of time: `handed` are the
lines of all calls of `blocking_queue_add`, `written` those written, `dropped` those
counted as dropped and `freed` those whose memory is freed; `noMemory` counts the calls of
`send_json` that got no memory for a copy. -/
structure FeedOut where
  queue : Queue Line feedQueueCapacity
  running : Bool
  drops : UInt64
  writer : WriterPlace
  phase : ShutdownPhase
  stdout : List UInt8
  handed : List Line
  written : List Line
  dropped : List Line
  freed : List Line
  noMemory : ℕ

/-- Behind `feed_init`, with the writer started. -/
def FeedOut.init : FeedOut := ⟨.empty, true, 0, .taking, .alive, [], [], [], [], [], 0⟩

/-- `blocking_queue_add` has not taken the line: it is counted and freed. -/
def FeedOut.drop (s : FeedOut) (line : Line) : FeedOut :=
  { s with
    drops := s.drops + 1, handed := s.handed ++ [line], dropped := s.dropped ++ [line], freed := s.freed ++ [line] }

/-- `send_json` with a copy of a line. A refused call leaves the queue alone, so it is one step,
at the point where it counts the line. -/
def FeedOut.send (s : FeedOut) (line : Line) : FeedOut :=
  match (s.queue.add line).2 with
  | .ok _ => { s with queue := (s.queue.add line).1, handed := s.handed ++ [line] }
  | _ => s.drop line

/-- A step of one of the threads. The test of `feed_writer_running` in `send_json` and the
call of `blocking_queue_add` are one step: the flag stays set until the queue is destroyed. -/
inductive FStep : FeedOut → FeedOut → Prop where
  | noMemory {s : FeedOut} (hrun : s.running = true) :
    FStep s { s with drops := s.drops + 1, noMemory := s.noMemory + 1 }
  | send {s : FeedOut} (line : Line) (hrun : s.running = true) : FStep s (s.send line)
  /-- `BQ_ERROR`. -/
  | sendError {s : FeedOut} (line : Line) (hrun : s.running = true) : FStep s (s.drop line)
  | take {s : FeedOut} {m : Line} (hwriter : s.writer = .taking) (hm : s.queue.poll.2 = .ok m) :
    FStep s { s with queue := s.queue.poll.1, writer := .holds m }
  | takeClosed {s : FeedOut} (hwriter : s.writer = .taking) (hclosed : s.queue.closed = true) :
    FStep s { s with writer := .left }
  | write {s : FeedOut} {m : Line} (hwriter : s.writer = .holds m) :
    FStep s { s with stdout := s.stdout ++ m.val ++ [0x0A], written := s.written ++ [m], writer := .wrote m }
  | free {s : FeedOut} {m : Line} (hwriter : s.writer = .wrote m) :
    FStep s { s with freed := s.freed ++ [m], writer := .taking }
  | close {s : FeedOut} (hphase : s.phase = .alive) : FStep s { s with queue := s.queue.close, phase := .joining }
  | join {s : FeedOut} (hphase : s.phase = .joining) (hwriter : s.writer = .left) :
    FStep s { s with phase := .draining }
  /-- The drain loop frees an entry, and does not count it. -/
  | drain {s : FeedOut} {m : Line} (hphase : s.phase = .draining) (hm : s.queue.poll.2 = .ok m) :
    FStep s { s with queue := s.queue.poll.1, freed := s.freed ++ [m] }
  /-- It ends, and the queue is destroyed. -/
  | drained {s : FeedOut} (hphase : s.phase = .draining) (hno : ∀ m, s.queue.poll.2 ≠ .ok m) :
    FStep s { s with running := false, phase := .returned }

/-- The states that the feed can come to. -/
def FeedOut.Reachable (s : FeedOut) : Prop := Relation.ReflTransGen FStep FeedOut.init s

end InmarsatSniffer.Feed
