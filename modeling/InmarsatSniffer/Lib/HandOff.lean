import Mathlib

/-!
# A lock that is handed over in line

A request goes to the end of a line while the lock is taken or anyone waits. Whoever releases the lock wakes the first
of the line, who takes the lock some time later; until then nobody else can. Weak requests can be refused, those in
the line included.

* `Inv`: at most one is inside or woken up, and **while anyone is in line someone is** (`Inv.line`), so no wake-up
  is lost. One lemma for each operation, on the phases of all the threads.
* `State.Reachable.fifo`: the lock is taken in the order of the requests.
-/

namespace HandOff

/-- Where a thread is with the lock. -/
inductive Phase where
  | out
  | queued (weak : Bool)
  /-- Woken up to take the lock. -/
  | granted
  /-- Woken up without it. -/
  | refused
  | inside
  deriving DecidableEq

/-- `waiting` counts the line and who is woken up to take the lock. -/
structure Lock (T : Type*) where
  line : List T
  acquired : Bool
  waiting : ℕ
  blocked : Bool

variable {T : Type*} [DecidableEq T]

/-- Inside, or to be inside next. -/
def Phase.owns : Phase → Bool
  | .granted | .inside => true
  | _ => false

namespace Lock

def init : Lock T := ⟨[], false, 0, false⟩

/-- A request has to wait. -/
def Busy (l : Lock T) : Prop := l.acquired = true ∨ 0 < l.waiting

def take (l : Lock T) : Lock T := { l with acquired := true }

def enqueue (l : Lock T) (t : T) : Lock T := { l with line := l.line ++ [t], waiting := l.waiting + 1 }

def wake (l : Lock T) : Lock T := { l with acquired := true, waiting := l.waiting - 1 }

def unlock (l : Lock T) : Lock T := { l with line := l.line.tail, acquired := false }

def block (l : Lock T) (weak : T → Bool) : Lock T :=
  { l with line := l.line.filter fun t => !weak t, waiting := l.waiting - l.line.countP weak, blocked := true }

def allow (l : Lock T) : Lock T := { l with blocked := false }

end Lock

/-- The phases after an unlock: the first of the line is woken up. -/
def handed (line : List T) (phase : T → Phase) : T → Phase :=
  match line with
  | [] => phase
  | t :: _ => Function.update phase t .granted

@[simp] theorem handed_nil (phase : T → Phase) : handed [] phase = phase := rfl

@[simp] theorem handed_cons (t : T) (line : List T) (phase : T → Phase) :
    handed (t :: line) phase = Function.update phase t .granted := rfl

/-- The phases after weak requests are refused. -/
def refusals (phase : T → Phase) : T → Phase := fun t => if phase t = .queued true then .refused else phase t

/-- **The invariant of the lock.** -/
structure Inv (l : Lock T) (phase : T → Phase) : Prop where
  queued : ∀ t, t ∈ l.line ↔ ∃ weak, phase t = .queued weak
  nodup : l.line.Nodup
  acquired : l.acquired = true ↔ ∃ t, phase t = .inside
  one : ∀ t u, (phase t).owns = true → (phase u).owns = true → t = u
  waiting : (l.waiting = l.line.length ∧ ∀ t, phase t ≠ .granted) ∨ (l.waiting = l.line.length + 1 ∧ ∃ t, phase t = .granted)
  line : l.line ≠ [] → ∃ t, (phase t).owns = true
  weak : l.blocked = true → ∀ t, phase t ≠ .queued true

variable {l : Lock T} {phase : T → Phase} {t : T}

omit [DecidableEq T] in
theorem Inv.init : Inv (Lock.init : Lock T) fun _ => .out := by
  refine ⟨fun t => ?_, List.nodup_nil, ?_, fun t u ht => ?_, .inl ⟨rfl, fun t => nofun⟩, fun h => absurd rfl h, fun h => ?_⟩
  · simp [Lock.init]
  · simp [Lock.init]
  · cases ht
  · cases h

omit [DecidableEq T] in
/-- Nobody owns a lock that is not busy. -/
theorem Inv.free (h : Inv l phase) (hbusy : ¬l.Busy) (u : T) : (phase u).owns = false := by
  unfold Lock.Busy at hbusy
  rw [not_or] at hbusy
  rcases h.waiting with ⟨-, hgranted⟩ | ⟨hwaiting, -⟩
  · cases hu : phase u with
    | granted => exact absurd hu (hgranted u)
    | inside => exact absurd (h.acquired.2 ⟨u, hu⟩) hbusy.1
    | out | queued | refused => rfl
  · omega

/-- A thread that neither was in line nor is. -/
theorem Inv.queued_update (h : Inv l phase) {p : Phase} (ht : ∀ weak, phase t ≠ .queued weak)
    (hp : ∀ weak, p ≠ .queued weak) (u : T) : u ∈ l.line ↔ ∃ weak, Function.update phase t p u = .queued weak := by
  by_cases hu : u = t
  · subst hu
    rw [h.queued, Function.update_self]
    exact ⟨fun ⟨weak, hq⟩ => absurd hq (ht weak), fun ⟨weak, hq⟩ => absurd hq (hp weak)⟩
  · rw [h.queued, Function.update_of_ne hu]

/-- No weak request more. -/
theorem Inv.weak_update (h : Inv l phase) {p : Phase} (hp : p ≠ .queued true) (hb : l.blocked = true) (u : T) :
    Function.update phase t p u ≠ .queued true := by
  by_cases hu : u = t
  · rw [hu, Function.update_self]
    exact hp
  · rw [Function.update_of_ne hu]
    exact h.weak hb u

/-- Who owns the lock stays the same when a thread goes from one place outside to another. -/
theorem update_owner {p q : Phase} (ht : (phase t).owns = false) (hp : p.owns = false) (hq : q.owns = true) (u : T) :
    Function.update phase t p u = q ↔ phase u = q := by
  by_cases hu : u = t
  · rw [hu, Function.update_self]
    constructor
    · rintro rfl
      exact absurd (hp.symm.trans hq) Bool.false_ne_true
    · rintro rfl
      exact absurd (ht.symm.trans hq) Bool.false_ne_true
  · rw [Function.update_of_ne hu]

theorem update_owns {p : Phase} (ht : (phase t).owns = false) (hp : p.owns = false) (u : T) :
    (Function.update phase t p u).owns = (phase u).owns := by
  by_cases hu : u = t
  · rw [hu, Function.update_self, ht, hp]
  · rw [Function.update_of_ne hu]

omit [DecidableEq T] in
theorem Inv.not_mem (h : Inv l phase) (ht : ∀ weak, phase t ≠ .queued weak) : t ∉ l.line := by
  intro hmem
  obtain ⟨weak, hq⟩ := (h.queued t).1 hmem
  exact ht weak hq

/-- The lock is free, and taken at once. -/
theorem Inv.take (h : Inv l phase) (ht : phase t = .out) (hbusy : ¬l.Busy) :
    Inv l.take (Function.update phase t .inside) := by
  have hfree := h.free hbusy
  have hout : ∀ weak, phase t ≠ .queued weak := fun weak => by rw [ht]; nofun
  have howner : ∀ u, (Function.update phase t .inside u).owns = true → u = t := by
    intro u hu
    by_contra hne
    rw [Function.update_of_ne hne, hfree u] at hu
    cases hu
  refine ⟨h.queued_update hout nofun, h.nodup, ⟨fun _ => ⟨t, Function.update_self ..⟩, fun _ => rfl⟩, fun u v hu hv => ?_, ?_,
    fun _ => ⟨t, by rw [Function.update_self]; rfl⟩, fun hb u => ?_⟩
  · rw [howner u hu, howner v hv]
  · rcases h.waiting with ⟨hwaiting, -⟩ | ⟨-, u, hu⟩
    · refine .inl ⟨hwaiting, fun u hu => ?_⟩
      obtain rfl := howner u (by rw [hu]; rfl)
      rw [Function.update_self] at hu
      cases hu
    · have hno := hfree u
      rw [hu] at hno
      cases hno
  · exact h.weak_update (by nofun) hb u

/-- The end of the line. -/
theorem Inv.enqueue (h : Inv l phase) (ht : phase t = .out) (hbusy : l.Busy) {weak : Bool}
    (hweak : ¬(weak = true ∧ l.blocked = true)) : Inv (l.enqueue t) (Function.update phase t (.queued weak)) := by
  have hnot : t ∉ l.line := h.not_mem fun weak => by rw [ht]; nofun
  -- the owners are the same ones
  have hout : (phase t).owns = false := by rw [ht]; rfl
  have howns : ∀ u, (Function.update phase t (.queued weak) u).owns = (phase u).owns := update_owns hout rfl
  have hsame : ∀ {p : Phase} u, p.owns = true → (Function.update phase t (.queued weak) u = p ↔ phase u = p) :=
    fun u hp => update_owner hout rfl hp u
  refine ⟨fun u => ?_, ?_, ?_, fun u v hu hv => ?_, ?_, fun _ => ?_, fun hb u => ?_⟩
  · rw [Lock.enqueue, List.mem_append, List.mem_singleton]
    by_cases hu : u = t
    · subst hu
      rw [Function.update_self]
      exact ⟨fun _ => ⟨weak, rfl⟩, fun _ => .inr rfl⟩
    · rw [Function.update_of_ne hu, h.queued]
      exact or_iff_left hu
  · rw [Lock.enqueue, List.nodup_append]
    refine ⟨h.nodup, List.nodup_singleton t, fun a ha b hb hab => ?_⟩
    rw [List.mem_singleton] at hb
    subst hab hb
    exact hnot ha
  · rw [Lock.enqueue, h.acquired]
    exact exists_congr fun u => (hsame u rfl).symm
  · rw [howns] at hu hv
    exact h.one u v hu hv
  · have hlength : (l.enqueue t).line.length = l.line.length + 1 := by
      rw [Lock.enqueue, List.length_append, List.length_singleton]
    rw [hlength]
    refine h.waiting.imp (fun ⟨hw, hg⟩ => ⟨congrArg (· + 1) hw, fun u hu => hg u ((hsame u rfl).1 hu)⟩)
      fun ⟨hw, u, hu⟩ => ⟨congrArg (· + 1) hw, u, (hsame u rfl).2 hu⟩
  · -- the lock was busy: someone owns it
    have howner : ∃ u, (phase u).owns = true := by
      rcases hbusy with hacquired | hwaiting
      · obtain ⟨u, hu⟩ := h.acquired.1 hacquired
        exact ⟨u, by rw [hu]; rfl⟩
      · rcases h.waiting with ⟨hw, -⟩ | ⟨-, u, hu⟩
        · exact h.line (List.ne_nil_of_length_pos (hw ▸ hwaiting))
        · exact ⟨u, by rw [hu]; rfl⟩
    obtain ⟨u, hu⟩ := howner
    exact ⟨u, by rw [howns]; exact hu⟩
  · by_cases hu : u = t
    · rw [hu, Function.update_self]
      intro heq
      exact hweak ⟨(Phase.queued.inj heq), hb⟩
    · rw [Function.update_of_ne hu]
      exact h.weak hb u

/-- The lock is taken by who was woken up for it. -/
theorem Inv.wake (h : Inv l phase) (ht : phase t = .granted) : Inv l.wake (Function.update phase t .inside) := by
  have hout : ∀ weak, phase t ≠ .queued weak := fun weak => by rw [ht]; nofun
  have howner : ∀ u, (Function.update phase t .inside u).owns = true → u = t := by
    intro u hu
    by_contra hne
    rw [Function.update_of_ne hne] at hu
    exact hne (h.one u t hu (by rw [ht]; rfl))
  refine ⟨h.queued_update hout nofun, h.nodup, ⟨fun _ => ⟨t, Function.update_self ..⟩, fun _ => rfl⟩, fun u v hu hv => ?_, ?_,
    fun _ => ⟨t, by rw [Function.update_self]; rfl⟩, fun hb u => ?_⟩
  · rw [howner u hu, howner v hv]
  · rcases h.waiting with ⟨-, hno⟩ | ⟨hwaiting, -⟩
    · exact absurd ht (hno t)
    · refine .inl ⟨by rw [Lock.wake, hwaiting, Nat.add_sub_cancel], fun u hu => ?_⟩
      obtain rfl := howner u (by rw [hu]; rfl)
      rw [Function.update_self] at hu
      cases hu
  · exact h.weak_update (by nofun) hb u

/-- Whoever was refused goes. -/
theorem Inv.leave (h : Inv l phase) (ht : phase t = .refused) : Inv l (Function.update phase t .out) := by
  have hout : ∀ weak, phase t ≠ .queued weak := fun weak => by rw [ht]; nofun
  have hrefused : (phase t).owns = false := by rw [ht]; rfl
  have hsame : ∀ {p : Phase} u, p.owns = true → (Function.update phase t .out u = p ↔ phase u = p) :=
    fun u hp => update_owner hrefused rfl hp u
  have howns : ∀ u, (Function.update phase t .out u).owns = (phase u).owns := update_owns hrefused rfl
  refine ⟨h.queued_update hout nofun, h.nodup, ?_, fun u v hu hv => ?_, ?_, fun hne => ?_, fun hb u => ?_⟩
  · rw [h.acquired]
    exact exists_congr fun u => (hsame u rfl).symm
  · rw [howns] at hu hv
    exact h.one u v hu hv
  · exact h.waiting.imp (fun ⟨hw, hg⟩ => ⟨hw, fun u hu => hg u ((hsame u rfl).1 hu)⟩)
      fun ⟨hw, u, hu⟩ => ⟨hw, u, (hsame u rfl).2 hu⟩
  · obtain ⟨u, hu⟩ := h.line hne
    exact ⟨u, by rw [howns]; exact hu⟩
  · exact h.weak_update (by nofun) hb u

/-- The lock is released, and the first of the line woken up. -/
theorem Inv.unlock (h : Inv l phase) (ht : phase t = .inside) :
    Inv l.unlock (handed l.line (Function.update phase t .out)) := by
  have hout : ∀ weak, phase t ≠ .queued weak := fun weak => by rw [ht]; nofun
  have hnone : ∀ u, (Function.update phase t .out u).owns = false := by
    intro u
    by_cases hu : u = t
    · rw [hu, Function.update_self]
      rfl
    · rw [Function.update_of_ne hu, Bool.eq_false_iff]
      exact fun howns => hu (h.one u t howns (by rw [ht]; rfl))
  have hwaiting : l.waiting = l.line.length := by
    rcases h.waiting with ⟨hw, -⟩ | ⟨-, u, hu⟩
    · exact hw
    · have heq := h.one u t (by rw [hu]; rfl) (by rw [ht]; rfl)
      rw [heq, ht] at hu
      cases hu
  have hqueued := h.queued_update hout (p := .out) nofun
  have hnodup := h.nodup
  have hweak : l.blocked = true → ∀ u, Function.update phase t .out u ≠ .queued true :=
    h.weak_update nofun
  generalize Function.update phase t .out = phase' at hnone hqueued hweak
  unfold Lock.unlock
  cases hline : l.line with
  | nil =>
    rw [hline] at hwaiting hqueued
    rw [handed_nil]
    refine ⟨hqueued, List.nodup_nil, ⟨nofun, fun ⟨u, hu⟩ => ?_⟩, fun u v hu => ?_, .inl ⟨hwaiting, fun u hu => ?_⟩,
      fun hne => absurd rfl hne, hweak⟩
    · have hno := hnone u
      rw [hu] at hno
      cases hno
    · rw [hnone u] at hu
      cases hu
    · have hno := hnone u
      rw [hu] at hno
      cases hno
  | cons v rest =>
    rw [hline] at hwaiting hqueued hnodup
    obtain ⟨hnot, hrest⟩ := List.nodup_cons.1 hnodup
    rw [handed_cons]
    have howner : ∀ u, (Function.update phase' v .granted u).owns = true → u = v := by
      intro u hu
      by_contra hne
      rw [Function.update_of_ne hne, hnone u] at hu
      cases hu
    refine ⟨fun u => ?_, hrest, ⟨nofun, fun ⟨u, hu⟩ => ?_⟩, fun u w hu hw => ?_, .inr ⟨hwaiting, v, Function.update_self ..⟩,
      fun _ => ⟨v, by rw [Function.update_self]; rfl⟩, fun hb u => ?_⟩
    · by_cases hu : u = v
      · subst hu
        rw [Function.update_self]
        exact ⟨fun hmem => absurd hmem hnot, fun ⟨_, hq⟩ => by cases hq⟩
      · rw [Function.update_of_ne hu, ← hqueued, List.mem_cons, or_iff_right hu]
        rfl
    · obtain rfl := howner u (by rw [hu]; rfl)
      rw [Function.update_self] at hu
      cases hu
    · rw [howner u hu, howner w hw]
    · by_cases hu : u = v
      · rw [hu, Function.update_self]
        nofun
      · rw [Function.update_of_ne hu]
        exact hweak hb u

/-- Weak requests are refused. -/
theorem Inv.block (h : Inv l phase) {weak : T → Bool} (hweak : ∀ t ∈ l.line, phase t = .queued (weak t)) :
    Inv (l.block weak) (refusals phase) := by
  have hsame : ∀ {p : Phase} u, p.owns = true → (refusals phase u = p ↔ phase u = p) := by
    intro p u hp
    rw [refusals]
    split_ifs with hq
    · rw [hq]
      constructor <;> rintro rfl <;> cases hp
    · rfl
  have howns : ∀ u, (refusals phase u).owns = (phase u).owns := by
    intro u
    rw [refusals]
    split_ifs with hq
    · rw [hq]
      rfl
    · rfl
  have hlength : l.line.length = (l.line.filter fun t => !weak t).length + l.line.countP weak := by
    rw [List.length_eq_countP_add_countP weak, ← List.countP_eq_length_filter, Nat.add_comm]
    simp
  refine ⟨fun u => ?_, h.nodup.filter _, ?_, fun u v hu hv => ?_, ?_, fun hne => ?_, fun _ u hu => ?_⟩
  · rw [Lock.block, List.mem_filter]
    by_cases hmem : u ∈ l.line
    · have hphase := hweak u hmem
      rw [refusals]
      cases hw : weak u with
      | true =>
        rw [hphase, hw, if_pos rfl]
        refine ⟨fun hin => ?_, fun ⟨_, hq⟩ => by cases hq⟩
        cases hin.2
      | false =>
        rw [hphase, hw, if_neg nofun]
        exact ⟨fun _ => ⟨false, rfl⟩, fun _ => ⟨hmem, rfl⟩⟩
    · have hno : ∀ w, phase u ≠ .queued w := fun w hq => hmem ((h.queued u).2 ⟨w, hq⟩)
      rw [refusals, if_neg (hno true)]
      exact ⟨fun hin => absurd hin.1 hmem, fun ⟨w, hq⟩ => absurd hq (hno w)⟩
  · rw [Lock.block, h.acquired]
    exact exists_congr fun u => (hsame u rfl).symm
  · rw [howns] at hu hv
    exact h.one u v hu hv
  · rw [Lock.block]
    dsimp only
    refine h.waiting.imp (fun ⟨hw, hg⟩ => ⟨by omega, fun u hu => hg u ((hsame u rfl).1 hu)⟩)
      fun ⟨hw, u, hu⟩ => ⟨by omega, u, (hsame u rfl).2 hu⟩
  · have hne' : l.line ≠ [] := by
      intro hnil
      rw [Lock.block, hnil] at hne
      exact hne rfl
    obtain ⟨u, hu⟩ := h.line hne'
    exact ⟨u, by rw [howns]; exact hu⟩
  · rw [refusals] at hu
    split_ifs at hu with hq
    exact hq hu

omit [DecidableEq T] in
theorem Inv.allow (h : Inv l phase) : Inv l.allow phase :=
  ⟨h.queued, h.nodup, h.acquired, h.one, h.waiting, h.line, nofun⟩

/-! ## Runs -/

/-- A lock and its threads. `ticket` numbers the requests, `served` are those that took the lock, in the order of time. -/
structure State (T : Type*) where
  lock : Lock T
  phase : T → Phase
  ticket : T → ℕ
  next : ℕ
  served : List ℕ

omit [DecidableEq T] in
def State.init : State T := ⟨.init, fun _ => .out, fun _ => 0, 0, []⟩

/-- A step of one of the threads. -/
inductive Step : State T → State T → Prop where
  | take {s : State T} {t : T} (hphase : s.phase t = .out) (hbusy : ¬s.lock.Busy) :
    Step s ⟨s.lock.take, Function.update s.phase t .inside, Function.update s.ticket t s.next, s.next + 1, s.served ++ [s.next]⟩
  | enqueue {s : State T} {t : T} {weak : Bool} (hphase : s.phase t = .out) (hweak : ¬(weak = true ∧ s.lock.blocked = true))
      (hbusy : s.lock.Busy) :
    Step s ⟨s.lock.enqueue t, Function.update s.phase t (.queued weak), Function.update s.ticket t s.next, s.next + 1, s.served⟩
  | wake {s : State T} {t : T} (hphase : s.phase t = .granted) :
    Step s ⟨s.lock.wake, Function.update s.phase t .inside, s.ticket, s.next, s.served ++ [s.ticket t]⟩
  | leave {s : State T} {t : T} (hphase : s.phase t = .refused) : Step s { s with phase := Function.update s.phase t .out }
  | unlock {s : State T} {t : T} (hphase : s.phase t = .inside) :
    Step s { s with lock := s.lock.unlock, phase := handed s.lock.line (Function.update s.phase t .out) }
  | block {s : State T} {weak : T → Bool} (hweak : ∀ t ∈ s.lock.line, s.phase t = .queued (weak t)) :
    Step s { s with lock := s.lock.block weak, phase := refusals s.phase }
  | allow {s : State T} : Step s { s with lock := s.lock.allow }

/-- The states that the threads can come to. -/
def State.Reachable (s : State T) : Prop := Relation.ReflTransGen Step State.init s

variable {s s' : State T}

theorem Step.inv (hstep : Step s s') (h : Inv s.lock s.phase) : Inv s'.lock s'.phase := by
  cases hstep with
  | take hphase hbusy => exact h.take hphase hbusy
  | enqueue hphase hweak hbusy => exact h.enqueue hphase hbusy hweak
  | wake hphase => exact h.wake hphase
  | leave hphase => exact h.leave hphase
  | unlock hphase => exact h.unlock hphase
  | block hweak => exact h.block hweak
  | allow => exact h.allow

theorem State.Reachable.inv (h : s.Reachable) : Inv s.lock s.phase := by
  induction h with
  | refl => exact Inv.init
  | tail _ hstep ih => exact hstep.inv ih

/-! ## In line -/

/-- **The requests are served in the order in which they came.** -/
structure Fifo (s : State T) : Prop where
  served : s.served.Pairwise (· < ·)
  line : s.lock.line.Pairwise fun t u => s.ticket t < s.ticket u
  granted : ∀ t, s.phase t = .granted → ∀ u ∈ s.lock.line, s.ticket t < s.ticket u
  after : ∀ t, t ∈ s.lock.line ∨ s.phase t = .granted → ∀ n ∈ s.served, n < s.ticket t
  ticket : ∀ t, t ∈ s.lock.line ∨ s.phase t = .granted → s.ticket t < s.next
  next : ∀ n ∈ s.served, n < s.next

omit [DecidableEq T] in
theorem Fifo.init : Fifo (State.init : State T) := by
  refine ⟨List.Pairwise.nil, List.Pairwise.nil, fun t => nofun, fun t _ n hn => ?_, fun t ht => ?_, fun n hn => ?_⟩
  · cases hn
  · rcases ht with ht | ht <;> cases ht
  · cases hn

/-- When the owner goes somewhere else, nobody is woken up any more. -/
theorem Inv.not_granted (h : Inv l phase) {p : Phase} (ht : (phase t).owns = true) (hp : p ≠ .granted) (u : T) :
    Function.update phase t p u ≠ .granted := by
  intro hu
  by_cases hut : u = t
  · rw [hut, Function.update_self] at hu
    exact hp hu
  · rw [Function.update_of_ne hut] at hu
    exact hut (h.one u t (by rw [hu]; rfl) ht)

omit [DecidableEq T] in
/-- Fewer requests wait. -/
theorem Fifo.sub (h : Fifo s) {lock : Lock T} {phase : T → Phase} (hline : lock.line.Sublist s.lock.line)
    (hgranted : ∀ t, phase t = .granted → s.phase t = .granted) : Fifo { s with lock := lock, phase := phase } where
  served := h.served
  line := h.line.sublist hline
  granted t ht u hu := h.granted t (hgranted t ht) u (hline.subset hu)
  after t ht := h.after t (ht.imp (fun hmem => hline.subset hmem) (hgranted t))
  ticket t ht := h.ticket t (ht.imp (fun hmem => hline.subset hmem) (hgranted t))
  next := h.next

theorem Fifo.take (h : Fifo s) (hinv : Inv s.lock s.phase) {t : T} (hbusy : ¬s.lock.Busy) :
    Fifo ⟨s.lock.take, Function.update s.phase t .inside, Function.update s.ticket t s.next, s.next + 1,
      s.served ++ [s.next]⟩ := by
  have hline : s.lock.line = [] := by
    rw [← List.length_eq_zero_iff]
    unfold Lock.Busy at hbusy
    rcases hinv.waiting with ⟨hwaiting, -⟩ | ⟨hwaiting, -⟩ <;> omega
  have hno : ∀ u, Function.update s.phase t .inside u ≠ .granted := by
    intro u hu
    by_cases hut : u = t
    · rw [hut, Function.update_self] at hu
      cases hu
    · rw [Function.update_of_ne hut] at hu
      have hfree := hinv.free hbusy u
      rw [hu] at hfree
      cases hfree
  -- nobody waits
  have hnone : ∀ u, ¬(u ∈ s.lock.line ∨ Function.update s.phase t .inside u = .granted) := by
    rintro u (hu | hu)
    · rw [hline] at hu
      cases hu
    · exact hno u hu
  refine ⟨?_, ?_, fun u hu => absurd hu (hno u), fun u hu => absurd hu (hnone u), fun u hu => absurd hu (hnone u), ?_⟩
  · refine List.pairwise_append.2 ⟨h.served, List.pairwise_singleton _ _, fun n hn m hm => ?_⟩
    rw [List.mem_singleton.1 hm]
    exact h.next n hn
  · show s.lock.line.Pairwise _
    rw [hline]
    exact List.Pairwise.nil
  · intro n hn
    rcases List.mem_append.1 hn with hn | hn
    · exact Nat.lt_succ_of_lt (h.next n hn)
    · rw [List.mem_singleton.1 hn]
      exact Nat.lt_succ_self _

theorem Fifo.enqueue (h : Fifo s) (hinv : Inv s.lock s.phase) {t : T} {weak : Bool} (hphase : s.phase t = .out) :
    Fifo ⟨s.lock.enqueue t, Function.update s.phase t (.queued weak), Function.update s.ticket t s.next, s.next + 1,
      s.served⟩ := by
  have hnot : t ∉ s.lock.line := hinv.not_mem fun weak => by rw [hphase]; nofun
  have hgranted : ∀ u, Function.update s.phase t (.queued weak) u = .granted → u ≠ t ∧ s.phase u = .granted := by
    intro u hu
    by_cases hut : u = t
    · rw [hut, Function.update_self] at hu
      cases hu
    · rw [Function.update_of_ne hut] at hu
      exact ⟨hut, hu⟩
  have hold : ∀ u ∈ s.lock.line, Function.update s.ticket t s.next u = s.ticket u :=
    fun u hu => Function.update_of_ne (by rintro rfl; exact hnot hu) _ _
  -- the new one has the last number
  have hcases : ∀ u, u ∈ s.lock.line ++ [t] ∨ Function.update s.phase t (.queued weak) u = .granted →
      (u = t ∧ Function.update s.ticket t s.next u = s.next) ∨
        (u ∈ s.lock.line ∨ s.phase u = .granted) ∧ Function.update s.ticket t s.next u = s.ticket u := by
    rintro u (hu | hu)
    · rcases List.mem_append.1 hu with hu | hu
      · exact .inr ⟨.inl hu, hold u hu⟩
      · rw [List.mem_singleton.1 hu]
        exact .inl ⟨rfl, Function.update_self ..⟩
    · obtain ⟨hut, hu⟩ := hgranted u hu
      exact .inr ⟨.inr hu, Function.update_of_ne hut _ _⟩
  refine ⟨h.served, ?_, fun u hu v hv => ?_, fun u hu n hn => ?_, fun u hu => ?_, fun n hn => Nat.lt_succ_of_lt (h.next n hn)⟩
  · refine List.pairwise_append.2 ⟨?_, List.pairwise_singleton _ _, fun u hu v hv => ?_⟩
    · refine h.line.imp_of_mem fun hu hv hlt => ?_
      dsimp only
      rw [hold _ hu, hold _ hv]
      exact hlt
    · dsimp only
      rw [hold u hu, List.mem_singleton.1 hv, Function.update_self]
      exact h.ticket u (.inl hu)
  · obtain ⟨hut, hu⟩ := hgranted u hu
    dsimp only
    rw [Function.update_of_ne hut]
    rcases List.mem_append.1 hv with hv | hv
    · rw [hold v hv]
      exact h.granted u hu v hv
    · rw [List.mem_singleton.1 hv, Function.update_self]
      exact h.ticket u (.inr hu)
  · dsimp only
    rcases hcases u hu with ⟨-, heq⟩ | ⟨hu, heq⟩
    · rw [heq]
      exact h.next n hn
    · rw [heq]
      exact h.after u hu n hn
  · dsimp only
    rcases hcases u hu with ⟨-, heq⟩ | ⟨hu, heq⟩
    · rw [heq]
      exact Nat.lt_succ_self _
    · rw [heq]
      exact Nat.lt_succ_of_lt (h.ticket u hu)

theorem Fifo.wake (h : Fifo s) (hinv : Inv s.lock s.phase) {t : T} (hphase : s.phase t = .granted) :
    Fifo ⟨s.lock.wake, Function.update s.phase t .inside, s.ticket, s.next, s.served ++ [s.ticket t]⟩ := by
  have hno : ∀ u, Function.update s.phase t .inside u ≠ .granted :=
    hinv.not_granted (by rw [hphase]; rfl) nofun
  refine ⟨?_, h.line, fun u hu => absurd hu (hno u), fun u hu n hn => ?_, fun u hu => ?_, fun n hn => ?_⟩
  · refine List.pairwise_append.2 ⟨h.served, List.pairwise_singleton _ _, fun n hn m hm => ?_⟩
    rw [List.mem_singleton.1 hm]
    exact h.after t (.inr hphase) n hn
  · have hmem : u ∈ s.lock.line := hu.resolve_right (hno u)
    rcases List.mem_append.1 hn with hn | hn
    · exact h.after u (.inl hmem) n hn
    · rw [List.mem_singleton.1 hn]
      exact h.granted t hphase u hmem
  · exact h.ticket u (.inl (hu.resolve_right (hno u)))
  · rcases List.mem_append.1 hn with hn | hn
    · exact h.next n hn
    · rw [List.mem_singleton.1 hn]
      exact h.ticket t (.inr hphase)

theorem Fifo.unlock (h : Fifo s) (hinv : Inv s.lock s.phase) {t : T} (hphase : s.phase t = .inside) :
    Fifo { s with lock := s.lock.unlock, phase := handed s.lock.line (Function.update s.phase t .out) } := by
  have hno : ∀ u, Function.update s.phase t .out u ≠ .granted :=
    hinv.not_granted (by rw [hphase]; rfl) nofun
  -- whoever is woken up is the first of the line
  have hfirst : ∀ u, handed s.lock.line (Function.update s.phase t .out) u = .granted → s.lock.line.head? = some u := by
    intro u hu
    cases hline : s.lock.line with
    | nil =>
      rw [hline, handed_nil] at hu
      exact absurd hu (hno u)
    | cons v rest =>
      rw [hline, handed_cons] at hu
      by_cases huv : u = v
      · rw [huv]
        rfl
      · rw [Function.update_of_ne huv] at hu
        exact absurd hu (hno u)
  have hmem : ∀ u, u ∈ s.lock.line.tail ∨ handed s.lock.line (Function.update s.phase t .out) u = .granted →
      u ∈ s.lock.line :=
    fun u hu => hu.elim List.mem_of_mem_tail fun hu => List.mem_of_head? (hfirst u hu)
  refine ⟨h.served, h.line.sublist (List.tail_sublist _), fun u hu v hv => ?_, fun u hu => h.after u (.inl (hmem u hu)),
    fun u hu => h.ticket u (.inl (hmem u hu)), h.next⟩
  have hhead := hfirst u hu
  have hpairwise := h.line
  change v ∈ s.lock.line.tail at hv
  cases hline : s.lock.line with
  | nil =>
    rw [hline] at hhead
    cases hhead
  | cons w rest =>
    rw [hline] at hhead hv hpairwise
    cases hhead
    exact (List.pairwise_cons.1 hpairwise).1 v hv

theorem Step.fifo (hstep : Step s s') (hinv : Inv s.lock s.phase) (h : Fifo s) : Fifo s' := by
  cases hstep with
  | take hphase hbusy => exact h.take hinv hbusy
  | enqueue hphase hweak hbusy => exact h.enqueue hinv hphase
  | wake hphase => exact h.wake hinv hphase
  | @leave t hphase =>
    refine h.sub (List.Sublist.refl _) fun u hu => ?_
    by_cases hut : u = t
    · rw [hut, Function.update_self] at hu
      cases hu
    · rwa [Function.update_of_ne hut] at hu
  | unlock hphase => exact h.unlock hinv hphase
  | block hweak =>
    refine h.sub List.filter_sublist fun u hu => ?_
    rw [refusals] at hu
    split_ifs at hu
    exact hu
  | allow => exact h.sub (List.Sublist.refl _) fun u hu => hu

theorem State.Reachable.fifo (h : s.Reachable) : Fifo s := by
  induction h with
  | refl => exact Fifo.init
  | tail hsteps hstep ih => exact hstep.fifo (State.Reachable.inv hsteps) ih

end HandOff
