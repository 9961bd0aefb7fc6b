import Mathlib

/-!
# The sample ring of a channel

`chan_push` copies blocks of samples into a ring and `chan_worker_fn`, in a thread of its
own, copies them out in batches for the demodulator. A turn of either thread is one access
to shared memory: a load, a store or an addition of an atomic, or the copy of one sample.
-/

namespace InmarsatSniffer.Chan

/-- `CHAN_RING_SIZE`. -/
abbrev chanRingSize : ℕ := 2 ^ 18

/-- `BATCH`. -/
abbrev batchSize : ℕ := 4096

variable {α : Type*}

/-- The samples of a call of `chan_push`: `n` is an `int`. -/
abbrev Block (α : Type*) := {samples : List α // samples.length < 2 ^ 31}

/-- Where the producer is in `chan_push`. -/
inductive Producer (α : Type*) where
  | idle
  | entered (samples : List α)
  | hasHead (samples : List α) (head : UInt32)
  | hasTail (samples : List α) (head tail : UInt32)
  | copying (samples : List α) (head free : UInt32) (n i : ℕ)

/-- Where the consumer is in the loop of `chan_worker_fn`. -/
inductive Consumer (α : Type*) where
  | idle
  | hasHead (head : UInt32)
  | hasTail (head tail : UInt32)
  | copying (tail : UInt32) (take : ℕ) (batch : List α)
  | feeding (batch : List α)

/-- A call of `chan_push` that has returned, with the room it saw. -/
structure Push (α : Type*) where
  samples : List α
  free : ℕ

/-- The samples it put into the ring. -/
def Push.accepted (p : Push α) : List α := p.samples.take p.free

/-- The block did not fit. -/
def Push.dropped (p : Push α) : Bool := p.free < p.samples.length

/-- `jaero_chan_t`, both threads, the calls that have returned and the samples that the
demodulator was fed. -/
structure JaeroChan (α : Type*) where
  ring : ℕ → α
  ringHead : UInt32
  ringTail : UInt32
  drops : UInt64
  producer : Producer α
  consumer : Consumer α
  pushes : List (Push α)
  fed : List α

/-- `chan_init_thread`: the ring is not initialised. -/
def JaeroChan.init (ring : ℕ → α) : JaeroChan α := ⟨ring, 0, 0, 0, .idle, .idle, [], []⟩

/-- The cell of sample `i` of `n` from position `pos` on, over the end of the ring to its start. -/
def ringCell (pos : UInt32) (n i : ℕ) : ℕ :=
  let mod := (pos &&& UInt32.ofNat (chanRingSize - 1)).toNat
  let first := min (chanRingSize - mod) n
  if i < first then mod + i else i - first

/-- The next step of `chan_push`; an idle producer is called with `samples`. -/
def JaeroChan.produce (samples : Block α) (jc : JaeroChan α) : JaeroChan α :=
  match jc.producer with
  | .idle => { jc with producer := .entered samples.val }
  | .entered samples => { jc with producer := .hasHead samples jc.ringHead }
  | .hasHead samples head => { jc with producer := .hasTail samples head jc.ringTail }
  | .hasTail samples head tail =>
    let free := UInt32.ofNat chanRingSize - (head - tail)
    if samples.length > free.toNat then
      if free = 0 then
        { jc with drops := jc.drops + 1, producer := .idle, pushes := jc.pushes ++ [⟨samples, 0⟩] }
      else { jc with drops := jc.drops + 1, producer := .copying samples head free free.toNat 0 }
    else { jc with producer := .copying samples head free samples.length 0 }
  | .copying samples head free n i =>
    if h : i < n ∧ i < samples.length then
      { jc with ring := Function.update jc.ring (ringCell head n i) (samples.get ⟨i, h.2⟩)
                producer := .copying samples head free n (i + 1) }
    else
      { jc with ringHead := head + UInt32.ofNat n, producer := .idle, pushes := jc.pushes ++ [⟨samples, free.toNat⟩] }

/-- The next step of `chan_worker_fn`. -/
def JaeroChan.consume (jc : JaeroChan α) : JaeroChan α :=
  match jc.consumer with
  | .idle => { jc with consumer := .hasHead jc.ringHead }
  | .hasHead head => { jc with consumer := .hasTail head jc.ringTail }
  | .hasTail head tail =>
    let avail := head - tail
    if avail = 0 then { jc with consumer := .idle }
    else { jc with consumer := .copying tail (min avail.toNat batchSize) [] }
  | .copying tail take batch =>
    if batch.length < take then
      { jc with consumer := .copying tail take (batch ++ [jc.ring (ringCell tail take batch.length)]) }
    else { jc with ringTail := tail + UInt32.ofNat take, consumer := .feeding batch }
  | .feeding batch => { jc with fed := jc.fed ++ batch, consumer := .idle }

/-- A turn of one of the threads. -/
inductive Turn (α : Type*) where
  | producer (samples : Block α)
  | consumer

/-- One turn. -/
def JaeroChan.turn (jc : JaeroChan α) : Turn α → JaeroChan α
  | .producer samples => jc.produce samples
  | .consumer => jc.consume

/-- The turns of a run, in any order. -/
def JaeroChan.run (jc : JaeroChan α) (turns : List (Turn α)) : JaeroChan α := turns.foldl JaeroChan.turn jc

end InmarsatSniffer.Chan
