import InmarsatSniffer.Spec.Lifetime
import InmarsatSniffer.Proof.Delivery

/-!
# Every client descriptor is closed, but not always once

* `Life.Inv`, `LStep.inv`, `Reachable.inv`: a descriptor is open exactly if it is in the
  table or in the hands of the thread for new connections, in every run.
* `Reachable.notUsedClosed`: no descriptor is written to behind its close.
* `closed_once_iff`: behind `basestation_destroy` each descriptor was closed once, unless in
  client mode the connection was still up. Then it is in the table and in `bs_client_fd`,
  and is closed under both names.
-/

namespace InmarsatSniffer.Bs

open Handles

variable {s : Station} {l l' : Life} {line : List UInt8} {res : Fd → WriteResult}

/-! ## The table while the feed is shut down -/

/-- The feed as it is while `bs_active` is set; the table does not depend on that. -/
def Station.armed (s : Station) : Station := { s with active := true }

@[simp] theorem armed_clients (s : Station) : s.armed.clients = s.clients := rfl

@[simp] theorem armed_clientFd (s : Station) : s.armed.clientFd = s.clientFd := rfl

@[simp] theorem armed_mode (s : Station) : s.armed.mode = s.mode := rfl

theorem armed_dropped (s : Station) (i : ℕ) : s.armed.dropped i = (s.dropped i).armed := by
  rcases s with ⟨active, mode, clients, clientFd, writes⟩
  cases mode <;> rfl

theorem armed_accept (s : Station) (fd : Fd) : s.armed.accept fd = (s.accept fd).armed := by
  unfold Station.accept
  rw [armed_clients]
  split <;> rfl

/-- What the loop over the table does. -/
theorem sendLoop_cases (hok : s.armed.Ok) (line : List UInt8) (res : Fd → WriteResult) :
    s.sendLoop line res 0 = (s, s.clients.map fun fd => .write fd line (res fd)) ∨
      ∃ pre fd post, s.clients = pre ++ fd :: post ∧ (s.dropped pre.length).armed.Ok ∧
        (s.dropped pre.length).clients.Perm (pre ++ post) ∧
        s.sendLoop line res 0 = (s.dropped pre.length,
          (pre.map fun x => .write x line (res x)) ++ [.write fd line .failed, .close fd]) := by
  by_cases hall : ∀ fd ∈ s.clients, res fd ≠ .failed
  · left
    rw [sendLoop_all line 0 (by rwa [List.drop_zero]), List.drop_zero]
  · right
    obtain ⟨pre, fd, post, hcl, hpre, hfd⟩ := first_failed res s.clients hall
    have hdrop := hok.dropped (s := s.armed) hcl
    rw [armed_dropped] at hdrop
    refine ⟨pre, fd, post, hcl, hdrop.1, hdrop.2, ?_⟩
    rw [sendLoop_failed line hcl hpre hfd 0 (Nat.zero_le _), List.drop_zero]

/-! ## The invariant -/

/-- **What holds until the descriptors are closed.** -/
structure Life.Inv (l : Life) : Prop where
  table : l.station.armed.Ok
  server : l.station.mode = .server → l.station.clientFd = none
  orderly : Orderly l.trace
  opened : ∀ fd, isOpen fd l.trace = true ↔ fd ∈ l.station.clients ∨ l.thread = .holds fd
  held : ∀ fd, l.thread = .holds fd → fd ∉ l.station.clients
  waiting : l.thread = .waiting → l.station.mode = .client → l.station.clientFd = none
  holding : ∀ fd, l.thread = .holds fd → l.station.mode = .client → l.station.clientFd = none
  joined : l.phase = .joined → l.thread = .finished

theorem init_opened (mode : Mode) (conn : Option Fd) (fd : Fd) :
    isOpen fd (Life.init mode conn).trace = true ↔ fd ∈ (Life.init mode conn).station.clients := by
  cases mode with
  | server => simp [Life.init, Station.init, isOpen]
  | client =>
    cases conn with
    | none => simp [Life.init, Station.init, isOpen]
    | some fd' =>
      change isOpen fd ([] ++ [.opened fd']) = true ↔ fd ∈ [fd']
      rw [isOpen_opened, Bool.or_eq_true, beq_iff_eq, List.mem_singleton, @eq_comm _ fd fd']
      simp [isOpen]

theorem init_inv (mode : Mode) (conn : Option Fd) : (Life.init mode conn).Inv := by
  obtain ⟨hthread, hphase⟩ : (Life.init mode conn).thread = .top ∧ (Life.init mode conn).phase = .alive := by
    cases mode with
    | server => exact ⟨rfl, rfl⟩
    | client => cases conn with
      | none | some => exact ⟨rfl, rfl⟩
  have hheld : ∀ fd, (Life.init mode conn).thread ≠ .holds fd := fun fd h => by
    rw [hthread] at h
    cases h
  refine ⟨?_, ?_, ?_, fun fd => ?_, fun fd h => absurd h (hheld fd), fun h => ?_, fun fd h => absurd h (hheld fd),
    fun h => ?_⟩
  · cases mode with
    | server => exact init_ok .server
    | client =>
      cases conn with
      | none => exact init_ok .client
      | some fd => exact (init_ok .client).reconnect fd
  · cases mode with
    | server => exact fun _ => rfl
    | client =>
      intro h
      have hmode : Mode.client = Mode.server := by
        cases conn with
        | none | some => exact h
      cases hmode
  · cases mode with
    | server => exact .nil
    | client =>
      cases conn with
      | none => exact .nil
      | some fd => exact .snoc .nil rfl
  · rw [init_opened, or_iff_left (hheld fd)]
  · rw [hthread] at h
    cases h
  · rw [hphase] at h
    cases h

/-- **A new descriptor** goes into the table or is closed. -/
theorem Life.Inv.install (h : l.Inv) {fd : Fd} (hthread : l.thread = .holds fd) : (l.install fd).Inv := by
  have hopen : isOpen fd l.trace = true := (h.opened fd).2 (Or.inr hthread)
  have hnot := h.held fd hthread
  have hphase : l.phase ≠ .joined := fun hj => by
    rw [h.joined hj] at hthread
    cases hthread
  -- what was open before is in the table or is `fd`
  have hbefore : ∀ fd', isOpen fd' l.trace = true ↔ fd' ∈ l.station.clients ∨ fd' = fd := fun fd' => by
    rw [h.opened fd', hthread, Thread.holds.injEq, eq_comm]
  unfold Life.install
  cases hmode : l.station.mode with
  | server =>
    dsimp only
    split
    · rename_i hroom
      have htable : (l.station.accept fd).armed.Ok := by
        rw [← armed_accept]
        exact h.table.accept hmode hnot
      have hclients : (l.station.accept fd).clients = l.station.clients ++ [fd] := by
        rw [Station.accept, if_pos hroom]
      have hfd : (l.station.accept fd).clientFd = l.station.clientFd := by
        rw [Station.accept, if_pos hroom]
      refine ⟨htable, fun _ => hfd.trans (h.server hmode), h.orderly, fun fd' => ?_, nofun,
        nofun, nofun, fun hj => absurd hj hphase⟩
      rw [hbefore fd']
      simp [hclients]
    · -- no room: the descriptor is closed at once
      refine ⟨h.table, h.server, h.orderly.snoc hopen, fun fd' => ?_, nofun,
        nofun, nofun, fun hj => absurd hj hphase⟩
      rw [isOpen_closed, Bool.and_eq_true, hbefore fd', bne_iff_ne]
      constructor
      · rintro ⟨hin | heq, hne⟩
        · exact Or.inl hin
        · exact absurd heq.symm hne
      · rintro (hin | heq)
        · exact ⟨Or.inl hin, fun heq => hnot (heq ▸ hin)⟩
        · cases heq
  | client =>
    have hclients : l.station.clients = [] := by
      have hsingle := h.table.single hmode
      rwa [armed_clients, armed_clientFd, h.holding fd hthread hmode] at hsingle
    refine ⟨h.table.reconnect fd, fun hs => ?_, h.orderly, fun fd' => ?_, nofun,
      nofun, nofun, fun hj => absurd hj hphase⟩
    · have hs : l.station.mode = .server := hs
      rw [hmode] at hs
      cases hs
    · rw [hbefore fd', hclients]
      simp [Station.reconnect]

/-- **A line is written** to open descriptors, and the one that fails is closed and leaves
the table. -/
theorem Life.Inv.sendLocked (h : l.Inv) (line : List UInt8) (res : Fd → WriteResult) : (l.sendLocked line res).Inv := by
  have hin : ∀ fd ∈ l.station.clients, isOpen fd l.trace = true := fun fd hfd => (h.opened fd).2 (Or.inl hfd)
  unfold Life.sendLocked
  rcases sendLoop_cases h.table line res with hloop | ⟨pre, fd, post, hcl, htable, hperm, hloop⟩
  · rw [hloop]
    dsimp only
    have hevents : (l.station.clients.map fun fd => Syscall.write fd line (res fd)).map Syscall.event =
        l.station.clients.map .used := by
      rw [List.map_map]
      rfl
    rw [hevents]
    exact ⟨h.table, h.server, h.orderly.useAll hin, fun fd => by rw [isOpen_useAll]; exact h.opened fd,
      h.held, h.waiting, h.holding, h.joined⟩
  · rw [hloop]
    dsimp only
    have hevents : ((pre.map fun x => Syscall.write x line (res x)) ++
        [Syscall.write fd line .failed, Syscall.close fd]).map Syscall.event = (pre ++ [fd]).map .used ++ [.closed fd] := by
      simp only [List.map_append, List.map_map, List.map_cons, List.map_nil, List.append_assoc]
      rfl
    rw [hevents, ← List.append_assoc]
    have hused : ∀ x ∈ pre ++ [fd], isOpen x l.trace = true := fun x hx => hin x <| by
      rw [hcl]
      rcases List.mem_append.1 hx with hx | hx
      · exact List.mem_append_left _ hx
      · rw [List.mem_singleton.1 hx]
        exact List.mem_append_right _ List.mem_cons_self
    have hmode : (l.station.dropped pre.length).mode = l.station.mode := by
      unfold Station.dropped
      split <;> rfl
    have hnone : l.station.clientFd = none → (l.station.dropped pre.length).clientFd = none := fun hnone => by
      unfold Station.dropped
      split
      · rfl
      · exact hnone
    have hnot : fd ∉ (l.station.dropped pre.length).clients := fun hfd => by
      have hnodup := h.table.nodup
      rw [armed_clients, hcl, List.nodup_middle] at hnodup
      exact (List.nodup_cons.1 hnodup).1 (hperm.mem_iff.1 hfd)
    have hleft : ∀ x, x ∈ l.station.clients ↔ x = fd ∨ x ∈ (l.station.dropped pre.length).clients := fun x => by
      rw [hperm.mem_iff, hcl, List.perm_middle.mem_iff, List.mem_cons]
    refine ⟨htable, fun hs => hnone (h.server (hmode ▸ hs)),
      (h.orderly.useAll hused).snoc (by rw [Allowed, isOpen_useAll]; exact hused fd (by simp)), fun x => ?_,
      fun x hx hin => ?_, fun hw hc => hnone (h.waiting hw (hmode ▸ hc)),
      fun x hx hc => hnone (h.holding x hx (hmode ▸ hc)), h.joined⟩
    · rw [isOpen_closed, isOpen_useAll, Bool.and_eq_true, bne_iff_ne, h.opened x, hleft x]
      constructor
      · rintro ⟨(heq | hx) | hx, hne⟩
        · exact absurd heq.symm hne
        · exact Or.inl hx
        · exact Or.inr hx
      · rintro (hx | hx)
        · exact ⟨Or.inl (Or.inr hx), fun heq => hnot (heq ▸ hx)⟩
        · refine ⟨Or.inr hx, fun heq => h.held x hx ?_⟩
          rw [← heq, hcl]
          exact List.mem_append_right _ List.mem_cons_self
    · exact h.held x hx ((hleft x).2 (Or.inr hin))

/-- **A step** keeps the invariant, as long as the descriptors are not closed. -/
theorem LStep.inv (hstep : LStep l l') (h : l.Inv) (hphase : l'.phase ≠ .done) : l'.Inv := by
  cases hstep with
  | stop => exact ⟨h.table, h.server, h.orderly, h.opened, h.held, h.waiting, h.holding, h.joined⟩
  | wait hthread hrun hneed =>
    refine ⟨h.table, h.server, h.orderly, fun fd => ?_, nofun, fun _ => hneed, nofun,
      fun hj => ?_⟩
    · rw [h.opened fd, hthread]
      simp
    · rw [h.joined hj] at hthread
      cases hthread
  | nothing hthread =>
    refine ⟨h.table, h.server, h.orderly, fun fd => ?_, nofun, nofun, nofun,
      fun hj => ?_⟩
    · rw [h.opened fd, hthread]
      simp
    · rw [h.joined hj] at hthread
      cases hthread
  | @connected fd hthread hfd =>
    refine ⟨h.table, h.server, h.orderly.snoc hfd, fun fd' => ?_, fun fd' heq hin => ?_, nofun,
      fun _ _ => h.waiting hthread, fun hj => ?_⟩
    · rw [isOpen_opened, Bool.or_eq_true, h.opened fd', hthread, beq_iff_eq]
      simp
    · obtain rfl : fd = fd' := by cases heq; rfl
      have hopen := (h.opened fd).2 (Or.inl hin)
      rw [hfd] at hopen
      cases hopen
    · rw [h.joined hj] at hthread
      cases hthread
  | install hthread => exact h.install hthread
  | finish hthread hrun =>
    refine ⟨h.table, h.server, h.orderly, fun fd => ?_, nofun, nofun, nofun,
      fun _ => rfl⟩
    rw [h.opened fd, hthread]
    simp
  | sendBegin => exact ⟨h.table, h.server, h.orderly, h.opened, h.held, h.waiting, h.holding, h.joined⟩
  | sendLocked => exact h.sendLocked _ _
  | deactivate =>
    exact ⟨h.table, h.server, h.orderly, h.opened, h.held, h.waiting, h.holding, nofun⟩
  | join _ hthread =>
    exact ⟨h.table, h.server, h.orderly, h.opened, h.held, h.waiting, h.holding, fun _ => hthread⟩
  | closeAll => exact absurd rfl hphase

/-! ## Behind the closes -/

/-- The feed when `basestation_destroy` has returned. -/
structure Life.Quiet (l : Life) : Prop where
  phase : l.phase = .done
  thread : l.thread = .finished
  clients : l.station.clients = []

/-- Nothing is done with a descriptor any more. -/
theorem LStep.quiet (hstep : LStep l l') (h : l.Quiet) : l'.Quiet ∧ l'.trace = l.trace := by
  have hthread := h.thread
  have hphase := h.phase
  cases hstep with
  | stop => exact ⟨⟨hphase, hthread, h.clients⟩, rfl⟩
  | wait ht | nothing ht | connected ht | install ht | finish ht =>
    rw [hthread] at ht
    cases ht
  | sendBegin => exact ⟨⟨hphase, hthread, h.clients⟩, rfl⟩
  | @sendLocked line res =>
    have hall : ∀ fd ∈ l.station.clients.drop 0, res fd ≠ .failed := by simp [h.clients]
    unfold Life.sendLocked
    rw [sendLoop_all line 0 hall, h.clients, List.drop_nil, List.map_nil]
    exact ⟨⟨hphase, hthread, h.clients⟩, List.append_nil _⟩
  | deactivate hp | join hp | closeAll hp =>
    rw [hphase] at hp
    cases hp

theorem Life.closeAll_quiet (h : l.Inv) (hphase : l.phase = .joined) : l.closeAll.Quiet :=
  ⟨rfl, h.joined hphase, rfl⟩

theorem Life.Quiet.steps (h : l.Quiet) (hsteps : Relation.ReflTransGen LStep l l') : l'.Quiet ∧ l'.trace = l.trace := by
  induction hsteps with
  | refl => exact ⟨h, rfl⟩
  | tail _ hstep ih =>
    obtain ⟨hq, heq⟩ := hstep.quiet ih.1
    exact ⟨hq, heq.trans ih.2⟩

/-- **In every run**: until the descriptors are closed the invariant holds, and behind that
nothing is done any more. -/
theorem Reachable.inv (h : Reachable l) :
    l.phase ≠ .done ∧ l.Inv ∨ ∃ l₀ : Life, l₀.Inv ∧ l₀.phase = .joined ∧ l.Quiet ∧ l.trace = l₀.closeAll.trace := by
  induction h with
  | @init mode conn =>
    refine Or.inl ⟨?_, init_inv mode conn⟩
    cases mode <;> cases conn <;> exact fun h => by cases h
  | @step l l' _ hstep ih =>
    rcases ih with ⟨hphase, hinv⟩ | ⟨l₀, hinv, hjoined, hquiet, heq⟩
    · by_cases hdone : l'.phase = .done
      · -- only the closes lead there
        cases hstep with
        | closeAll hjoined => exact Or.inr ⟨l, hinv, hjoined, Life.closeAll_quiet hinv hjoined, rfl⟩
        | deactivate | join => cases hdone
        | @install fd =>
          refine absurd hdone ?_
          unfold Life.install
          split
          · split <;> exact hphase
          · exact hphase
        | _ => exact absurd hdone hphase
      · exact Or.inl ⟨hdone, hstep.inv hinv hdone⟩
    · obtain ⟨hq, htrace⟩ := hstep.quiet hquiet
      exact Or.inr ⟨l₀, hinv, hjoined, hq, htrace.trans heq⟩

/-! ## The closes -/

/-- **No descriptor is written to behind its close**, in any run. -/
theorem Reachable.notUsedClosed (h : Reachable l) : NotUsedClosed l.trace := by
  rcases h.inv with ⟨-, hinv⟩ | ⟨l₀, hinv, -, -, heq⟩
  · exact hinv.orderly.notUsedClosed
  · rw [heq]
    exact (hinv.orderly.notUsedClosed.closeAll _).closeAll _

/-- Every descriptor is known under one name. -/
theorem Life.Inv.closeAll_once (h : l.Inv) (hphase : l.phase = .joined) (hone : l.station.clientFd = none) :
    ClosedOnce l.closeAll.trace := by
  have hthread := h.joined hphase
  have hopen : ∀ fd, isOpen fd l.trace = true ↔ fd ∈ l.station.clients := fun fd => by
    rw [h.opened fd, hthread]
    simp
  have htrace : l.closeAll.trace = l.trace ++ l.station.clients.map .closed := by
    rw [Life.closeAll, hone]
    exact List.append_nil _
  rw [htrace]
  refine (h.orderly.closeAll h.table.nodup fun fd hfd => (hopen fd).2 hfd).closedOnce fun fd => ?_
  rw [isOpen_closeAll, Bool.and_eq_false_iff]
  by_cases hfd : fd ∈ l.station.clients
  · exact Or.inr (decide_eq_false (not_not.2 hfd))
  · exact Or.inl (Bool.eq_false_iff.2 fun ho => hfd ((hopen fd).1 ho))

/-- A connection of the client mode is known under two. -/
theorem Life.Inv.closeAll_twice (h : l.Inv) (hmode : l.station.mode = .client) {fd : Fd}
    (htwo : l.station.clientFd = some fd) : ¬ClosedOnce l.closeAll.trace := by
  have hclients : l.station.clients = [fd] := by
    have hsingle := h.table.single hmode
    rwa [armed_clients, armed_clientFd, htwo] at hsingle
  have hopen : isOpen fd l.trace = true := (h.opened fd).2 (Or.inl (by rw [hclients]; exact List.mem_cons_self))
  have htrace : l.closeAll.trace = l.trace ++ [.closed fd, .closed fd] := by
    rw [Life.closeAll, hclients, htwo]
    exact List.append_assoc _ _ _
  rw [htrace]
  exact not_closedOnce hopen

/-- **The closes of `basestation_destroy`**: each descriptor is closed once, and none is
written to behind that, exactly if no connection of the client mode is up. -/
theorem closed_once_iff (l l' : Life) (h : Reachable l) (hphase : l.phase = .joined)
    (hrest : Relation.ReflTransGen LStep l.closeAll l') :
    ClosedOnce l'.trace ∧ NotUsedClosed l'.trace ↔ l.station.mode = .server ∨ l.station.clientFd = none := by
  obtain ⟨-, hinv⟩ := h.inv.resolve_right fun ⟨_, _, _, hq, _⟩ => by
    rw [hq.phase] at hphase
    cases hphase
  have htrace := ((Life.closeAll_quiet hinv hphase).steps hrest).2
  have hnot : NotUsedClosed l.closeAll.trace := (h.step (.closeAll hphase)).notUsedClosed
  rw [htrace]
  constructor
  · rintro ⟨honce, -⟩
    cases hmode : l.station.mode with
    | server => exact Or.inl rfl
    | client =>
      cases hfd : l.station.clientFd with
      | none => exact Or.inr rfl
      | some fd => exact absurd honce (hinv.closeAll_twice hmode hfd)
  · intro hone
    exact ⟨hinv.closeAll_once hphase (hone.elim hinv.server id), hnot⟩

/-- The feed from `running` being cleared until `basestation_destroy` takes the lock. -/
theorem Reachable.shutDown (h : Reachable l) (hthread : l.thread = .top) (hphase : l.phase = .alive) :
    Reachable { l with
      running := false, thread := .finished, station := { l.station with active := false }, phase := .joined } :=
  (((h.step .stop).step (.finish hthread rfl)).step (.deactivate hphase)).step (.join rfl rfl)

/-- The client of a server is closed once. -/
theorem server_closed_once : ∃ l, Reachable l ∧ l.station.clients = [5] ∧ l.phase = .joined ∧
    ClosedOnce l.closeAll.trace ∧ NotUsedClosed l.closeAll.trace :=
  have hinit : Reachable (Life.init .server none) := .init
  have hconn := ((hinit.step (.wait rfl rfl nofun)).step (@LStep.connected _ 5 rfl rfl)).step (@LStep.install _ 5 rfl)
  have hdown := hconn.shutDown rfl rfl
  ⟨_, hdown, rfl, rfl, (closed_once_iff _ _ hdown rfl .refl).2 (Or.inl rfl)⟩

/-- The connection to a remote host, up at the end, is closed twice. -/
theorem client_closed_twice :
    ¬∀ l l' : Life, Reachable l → l.phase = .joined → Relation.ReflTransGen LStep l.closeAll l' →
      ClosedOnce l'.trace ∧ NotUsedClosed l'.trace := by
  intro h
  have hdown := (@Reachable.init .client (some 5)).shutDown rfl rfl
  have htwice := (h _ _ hdown rfl .refl).1 [] 5 [.closed 5, .closed 5] rfl
  exact absurd htwice (by decide)

end InmarsatSniffer.Bs
