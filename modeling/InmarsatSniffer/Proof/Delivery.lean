import InmarsatSniffer.Spec.Basestation

/-!
# Who gets a line of the BaseStation feed

* `Station.Ok`, `Run.ok`: the table has no descriptor twice, in any run.
* `send_cases`: what a call does, when no write fails and when one does.
* `send_delivers_iff`: the line gets to every client, or its own write is in the way,
  exactly if no client but the last one in the table has a write that fails. Otherwise the
  loop is left with clients behind the failed one that were not served.
-/

namespace InmarsatSniffer.Bs

variable {s s' : Station} {line : List UInt8} {res : Fd → WriteResult}

/-! ## The table -/

/-- **The invariant of the table.** -/
structure Station.Ok (s : Station) : Prop where
  active : s.active = true
  nodup : s.clients.Nodup
  bound : s.clients.length ≤ bsMaxClients
  single : s.mode = .client → s.clients = s.clientFd.toList

theorem init_ok (mode : Mode) : (Station.init mode).Ok where
  active := rfl
  nodup := List.nodup_nil
  bound := Nat.zero_le _
  single := fun _ => rfl

/-- The entry that is removed is not the last one: the last one takes its place. -/
theorem swapRemove_append (pre post : List Fd) (fd last : Fd) :
    swapRemove (pre ++ fd :: (post ++ [last])) pre.length = pre ++ last :: post := by
  have hlast : (pre ++ fd :: (post ++ [last])).getLastD 0 = last := by
    rw [← List.cons_append, ← List.append_assoc, List.getLastD_concat]
  unfold swapRemove
  rw [hlast, List.set_append_right _ _ le_rfl, Nat.sub_self, List.set_cons_zero, ← List.cons_append,
    ← List.append_assoc, List.dropLast_concat]

/-- The entry that is removed is the last one. -/
theorem swapRemove_last (pre : List Fd) (fd : Fd) : swapRemove (pre ++ [fd]) pre.length = pre := by
  unfold swapRemove
  rw [List.getLastD_concat, List.set_append_right _ _ le_rfl, Nat.sub_self, List.set_cons_zero,
    List.dropLast_concat]

/-- **A removal** takes one entry out of the table and keeps the others. -/
theorem swapRemove_perm (pre post : List Fd) (fd : Fd) :
    (swapRemove (pre ++ fd :: post) pre.length).Perm (pre ++ post) := by
  rcases List.eq_nil_or_concat post with rfl | ⟨post', last, rfl⟩
  · rw [swapRemove_last, List.append_nil]
  · rw [List.concat_eq_append, swapRemove_append]
    exact List.Perm.append_left pre (List.perm_append_singleton last post').symm

theorem Station.Ok.accept (h : s.Ok) {fd : Fd} (hmode : s.mode = .server) (hfd : fd ∉ s.clients) :
    (s.accept fd).Ok := by
  unfold Station.accept
  split
  · rename_i hroom
    refine ⟨h.active, ?_, ?_, fun hc => ?_⟩
    · rw [List.nodup_append_comm]
      exact List.nodup_cons.2 ⟨hfd, h.nodup⟩
    · rw [List.length_append, List.length_singleton]
      exact hroom
    · rw [hmode] at hc
      cases hc
  · exact h

theorem Station.Ok.reconnect (h : s.Ok) (fd : Fd) : (s.reconnect fd).Ok where
  active := h.active
  nodup := List.nodup_singleton fd
  bound := show 1 ≤ bsMaxClients by decide
  single := fun _ => rfl

/-- The clients that are left, with the failed one out. -/
theorem Station.Ok.dropped (h : s.Ok) {pre post : List Fd} {fd : Fd} (hcl : s.clients = pre ++ fd :: post) :
    (s.dropped pre.length).Ok ∧ (s.dropped pre.length).clients.Perm (pre ++ post) := by
  cases hmode : s.mode with
  | client =>
    have hone := h.single hmode
    -- the only entry is the descriptor of the remote host
    have hnil : pre = [] ∧ post = [] := by
      rw [hcl] at hone
      cases hfd : s.clientFd with
      | none => rw [hfd] at hone; simp at hone
      | some fd' =>
        rw [hfd] at hone
        have := congrArg List.length hone
        simp only [List.length_append, List.length_cons, Option.toList_some, List.length_nil] at this
        exact ⟨List.length_eq_zero_iff.1 (by omega), List.length_eq_zero_iff.1 (by omega)⟩
    unfold Station.dropped
    rw [hmode, hnil.1, hnil.2]
    exact ⟨⟨h.active, List.nodup_nil, Nat.zero_le _, fun _ => rfl⟩, List.Perm.nil⟩
  | server =>
    have hperm := swapRemove_perm pre post fd
    have hnodup : (pre ++ post).Nodup := by
      have := h.nodup
      rw [hcl] at this
      exact this.sublist (List.Sublist.append_left (List.sublist_cons_self fd post) pre)
    have hlen : pre.length + post.length + 1 ≤ bsMaxClients := by
      have := h.bound
      rw [hcl, List.length_append, List.length_cons] at this
      omega
    have heq : s.dropped pre.length = { s with clients := swapRemove (pre ++ fd :: post) pre.length } := by
      unfold Station.dropped
      rw [hmode, hcl]
    rw [heq]
    refine ⟨⟨h.active, hperm.nodup_iff.2 hnodup, ?_, fun hc => ?_⟩, hperm⟩
    · rw [hperm.length_eq, List.length_append]
      omega
    · rw [hmode] at hc
      cases hc

/-! ## The loop -/

/-- The loop when no write fails any more. -/
theorem sendLoop_all (line : List UInt8) (i : ℕ) (hres : ∀ fd ∈ s.clients.drop i, res fd ≠ .failed) :
    s.sendLoop line res i = (s, (s.clients.drop i).map fun fd => .write fd line (res fd)) := by
  induction hn : s.clients.length - i generalizing i with
  | zero =>
    rw [Station.sendLoop, dif_neg (by omega), List.drop_eq_nil_of_le (by omega), List.map_nil]
  | succ n ih =>
    have hi : i < s.clients.length := by omega
    rw [List.drop_eq_getElem_cons hi] at hres ⊢
    rw [Station.sendLoop, dif_pos hi]
    dsimp only [List.get_eq_getElem]
    rw [if_neg (hres _ List.mem_cons_self), ih (i + 1) (fun fd hfd => hres fd (List.mem_cons_of_mem _ hfd)) (by omega),
      List.map_cons]

/-- The loop up to the first write that fails. -/
theorem sendLoop_failed (line : List UInt8) {pre post : List Fd} {fd : Fd} (hcl : s.clients = pre ++ fd :: post)
    (hpre : ∀ x ∈ pre, res x ≠ .failed) (hfd : res fd = .failed) (i : ℕ) (hi : i ≤ pre.length) :
    s.sendLoop line res i =
      (s.dropped pre.length, ((pre.drop i).map fun x => .write x line (res x)) ++ [.write fd line .failed, .close fd]) := by
  have hlen : s.clients.length = pre.length + post.length + 1 := by
    rw [hcl, List.length_append, List.length_cons]
    omega
  induction hn : pre.length - i generalizing i with
  | zero =>
    obtain rfl : i = pre.length := by omega
    have hget : s.clients.get ⟨pre.length, by omega⟩ = fd := by
      simp [hcl]
    rw [Station.sendLoop, dif_pos (by omega), List.drop_length, List.map_nil, List.nil_append]
    rw [hget, if_pos hfd, hfd]
  | succ n ih =>
    have hi' : i < pre.length := by omega
    have hget : s.clients.get ⟨i, by omega⟩ = pre[i] := by
      simp [hcl, List.getElem_append_left hi']
    rw [Station.sendLoop, dif_pos (by omega), List.drop_eq_getElem_cons hi', List.map_cons]
    rw [hget, if_neg (hpre _ (List.getElem_mem hi')), ih (i + 1) hi' (by omega), List.cons_append]

/-- The first entry of a list with a write that fails. -/
theorem first_failed (res : Fd → WriteResult) (l : List Fd) (h : ¬∀ fd ∈ l, res fd ≠ .failed) :
    ∃ pre fd post, l = pre ++ fd :: post ∧ (∀ x ∈ pre, res x ≠ .failed) ∧ res fd = .failed := by
  induction l with
  | nil => exact absurd (fun fd hfd => absurd hfd List.not_mem_nil) h
  | cons a l ih =>
    by_cases ha : res a = .failed
    · exact ⟨[], a, l, rfl, fun x hx => absurd hx List.not_mem_nil, ha⟩
    · obtain ⟨pre, fd, post, rfl, hpre, hfd⟩ := ih fun hl => h fun fd hfd => by
        rcases List.mem_cons.1 hfd with rfl | hfd
        · exact ha
        · exact hl fd hfd
      refine ⟨a :: pre, fd, post, rfl, fun x hx => ?_, hfd⟩
      rcases List.mem_cons.1 hx with rfl | hx
      · exact ha
      · exact hpre x hx

/-- A line that is written at all. -/
def Fits (line : List UInt8) : Prop := 0 < line.length ∧ line.length < msgSize

/-- **What a call does.** -/
theorem send_cases (hact : s.active = true) (hline : Fits line) (res : Fd → WriteResult) :
    ((∀ fd ∈ s.clients, res fd ≠ .failed) ∧ (s.send line res).1.clients = s.clients ∧
        (s.send line res).2 = s.clients.map fun fd => .write fd line (res fd)) ∨
      ∃ pre fd post, s.clients = pre ++ fd :: post ∧ (∀ x ∈ pre, res x ≠ .failed) ∧ res fd = .failed ∧
        (s.send line res).1.clients = (s.dropped pre.length).clients ∧
        (s.send line res).2 =
          (pre.map fun x => .write x line (res x)) ++ [.write fd line .failed, .close fd] := by
  have hguard : (!s.active || decide (line.length = 0) || decide (line.length ≥ msgSize)) = false := by
    obtain ⟨h0, h1⟩ := hline
    simp only [hact, Bool.not_true, Bool.false_or, Bool.or_eq_false_iff, decide_eq_false_iff_not]
    omega
  unfold Station.send
  rw [hguard, if_neg (by decide)]
  dsimp only
  by_cases hall : ∀ fd ∈ s.clients, res fd ≠ .failed
  · left
    rw [sendLoop_all line 0 (by rwa [List.drop_zero]), List.drop_zero]
    exact ⟨hall, rfl, rfl⟩
  · right
    obtain ⟨pre, fd, post, hcl, hpre, hfd⟩ := first_failed res s.clients hall
    refine ⟨pre, fd, post, hcl, hpre, hfd, ?_⟩
    rw [sendLoop_failed line hcl hpre hfd 0 (Nat.zero_le _), List.drop_zero]
    exact ⟨rfl, rfl⟩

theorem send_unfit (hline : ¬Fits line) (res : Fd → WriteResult) : s.send line res = (s, []) := by
  have hguard : (!s.active || decide (line.length = 0) || decide (line.length ≥ msgSize)) = true := by
    unfold Fits at hline
    rw [Bool.or_assoc, Bool.or_eq_true, Bool.or_eq_true, decide_eq_true_eq, decide_eq_true_eq]
    omega
  unfold Station.send
  rw [hguard, if_pos rfl]

/-- The table behind a call. -/
theorem Station.Ok.send (h : s.Ok) (line : List UInt8) (res : Fd → WriteResult) : (s.send line res).1.Ok := by
  by_cases hline : Fits line
  swap
  · rwa [send_unfit hline]
  obtain ⟨h0, h1⟩ := hline
  unfold Station.send
  split
  · exact h
  dsimp only
  -- `writes` is not part of the invariant
  suffices hloop : (s.sendLoop line res 0).1.Ok from ⟨hloop.active, hloop.nodup, hloop.bound, hloop.single⟩
  by_cases hall : ∀ fd ∈ s.clients, res fd ≠ .failed
  · rwa [sendLoop_all line 0 (by rwa [List.drop_zero])]
  · obtain ⟨pre, fd, post, hcl, hpre, hfd⟩ := first_failed res s.clients hall
    rw [sendLoop_failed line hcl hpre hfd 0 (Nat.zero_le _)]
    exact (h.dropped hcl).1

theorem Step.ok {act : Action} (hstep : Step s act s') (h : s.Ok) : s'.Ok := by
  cases hstep with
  | accept hmode hfd => exact h.accept hmode hfd
  | reconnect hmode hfd => exact h.reconnect _
  | send => exact h.send _ _

/-- **The table has no descriptor twice**, in any run. -/
theorem Run.ok {acts : List Action} (hrun : Run s acts s') (h : s.Ok) : s'.Ok := by
  induction hrun with
  | nil => exact h
  | snoc _ hstep ih => exact hstep.ok ih

/-! ## Delivery -/

/-- A call has done what it is for: each client had the line written to it, or would have
blocked, or is closed and removed; the clients that are left are those whose write did not
fail, each once. -/
structure Delivered (s : Station) (line : List UInt8) (res : Fd → WriteResult) : Prop where
  each : ∀ fd ∈ s.clients,
    .write fd line (.wrote line.length) ∈ (s.send line res).2 ∨
      .write fd line .wouldBlock ∈ (s.send line res).2 ∨
        .write fd line .failed ∈ (s.send line res).2 ∧ .close fd ∈ (s.send line res).2 ∧
          fd ∉ (s.send line res).1.clients
  survivors : (s.send line res).1.clients.Perm (s.clients.filter fun fd => res fd ≠ .failed)
  once : (s.send line res).1.clients.Nodup

/-- Only the last write fails, if any. -/
theorem delivered_of_last (h : s.Ok) (hline : Fits line)
    (hres : ∀ fd ∈ s.clients, res fd = .wrote line.length ∨ res fd = .wouldBlock ∨ res fd = .failed)
    (hlast : ∀ fd ∈ s.clients.dropLast, res fd ≠ .failed) : Delivered s line res := by
  have hok := h.send line res
  rcases send_cases h.active hline res with ⟨hall, htable, hlog⟩ | ⟨pre, fd, post, hcl, hpre, hfd, htable, hlog⟩
  · refine ⟨fun fd hfd => ?_, ?_, hok.nodup⟩
    · have hmem : .write fd line (res fd) ∈ (s.send line res).2 := by
        rw [hlog]
        exact List.mem_map.2 ⟨fd, hfd, rfl⟩
      rcases hres fd hfd with hr | hr | hr
      · exact Or.inl (hr ▸ hmem)
      · exact Or.inr (Or.inl (hr ▸ hmem))
      · exact absurd hr (hall fd hfd)
    · rw [htable, List.filter_eq_self.2 (by simpa using hall)]
  -- the client that failed is the last one, so the loop had served all others
  · have hpost : post = [] := by
      rcases List.eq_nil_or_concat post with hpost | ⟨post', last, rfl⟩
      · exact hpost
      · refine absurd hfd (hlast fd ?_)
        rw [hcl, List.concat_eq_append, ← List.cons_append, ← List.append_assoc, List.dropLast_concat]
        exact List.mem_append_right _ List.mem_cons_self
    subst hpost
    have hperm := (h.dropped hcl).2
    rw [← htable, List.append_nil] at hperm
    have hnot : fd ∉ pre := by
      have := h.nodup
      rw [hcl, List.nodup_append_comm] at this
      exact (List.nodup_cons.1 this).1
    refine ⟨fun x hx => ?_, ?_, hok.nodup⟩
    · rw [hcl, List.mem_append, List.mem_singleton] at hx
      rcases hx with hx | rfl
      · have hmem : .write x line (res x) ∈ (s.send line res).2 := by
          rw [hlog]
          exact List.mem_append_left _ (List.mem_map.2 ⟨x, hx, rfl⟩)
        rcases hres x (by rw [hcl]; exact List.mem_append_left _ hx) with hr | hr | hr
        · exact Or.inl (hr ▸ hmem)
        · exact Or.inr (Or.inl (hr ▸ hmem))
        · exact absurd hr (hpre x hx)
      · refine Or.inr (Or.inr ⟨?_, ?_, fun hin => hnot (hperm.mem_iff.1 hin)⟩)
        · rw [hlog]
          exact List.mem_append_right _ List.mem_cons_self
        · rw [hlog]
          exact List.mem_append_right _ (List.mem_cons_of_mem _ List.mem_cons_self)
    · rw [hcl, List.filter_append, List.filter_eq_self.2 (by simpa using hpre)]
      simpa [hfd] using hperm

/-- A write fails with another client behind it: that one is never served. -/
theorem not_delivered_of_failed (h : s.Ok) (hline : Fits line) {fd : Fd} (hin : fd ∈ s.clients.dropLast)
    (hfd : res fd = .failed) : ¬Delivered s line res := by
  intro hdel
  rcases send_cases h.active hline res with ⟨hall, -, -⟩ | ⟨pre, x, post, hcl, hpre, hx, -, hlog⟩
  · exact hall fd (List.mem_of_mem_dropLast hin) hfd
  have hpost : post ≠ [] := by
    rintro rfl
    rw [hcl, List.dropLast_concat] at hin
    exact hpre fd hin hfd
  obtain ⟨last, hlast⟩ := List.exists_mem_of_ne_nil post hpost
  have hnodup := h.nodup
  rw [hcl, List.nodup_append'] at hnodup
  have hne : x ≠ last := fun heq => (List.nodup_cons.1 hnodup.2.1).1 (heq ▸ hlast)
  have hnot : last ∉ pre := fun hp => List.disjoint_left.1 hnodup.2.2 hp (List.mem_cons_of_mem _ hlast)
  -- no write to `last` is in the log
  have hno : ∀ r, .write last line r ∉ (s.send line res).2 := by
    intro r hr
    rw [hlog, List.mem_append, List.mem_map] at hr
    rcases hr with ⟨y, hy, heq⟩ | hr
    · cases heq
      exact hnot hy
    · rcases List.mem_cons.1 hr with heq | hr
      · cases heq
        exact hne rfl
      · cases List.mem_singleton.1 hr
  rcases hdel.each last (by rw [hcl]; exact List.mem_append_right _ (List.mem_cons_of_mem _ hlast)) with hr | hr | hr
  · exact hno _ hr
  · exact hno _ hr
  · exact hno _ hr.1

/-- **A line is delivered** exactly if no client but the last one has a write that fails. -/
theorem send_delivers_iff (s : Station) (h : s.Ok) (line : List UInt8) (hline : Fits line) (res : Fd → WriteResult)
    (hres : ∀ fd ∈ s.clients, res fd = .wrote line.length ∨ res fd = .wouldBlock ∨ res fd = .failed) :
    Delivered s line res ↔ ∀ fd ∈ s.clients.dropLast, res fd ≠ .failed :=
  ⟨fun hdel _ hin hfd => not_delivered_of_failed h hline hin hfd hdel, fun hlast => delivered_of_last h hline hres hlast⟩

/-! ## Two clients -/

/-- The line of an aircraft, with its altitude. -/
def exampleLine : List UInt8 :=
  [77, 83, 71, 44, 51, 44, 49, 44, 49, 44, 65, 49, 66, 50, 67, 51, 44, 49, 44, 50, 48, 50, 54, 47, 48, 49, 47,
    48, 49, 44, 48, 48, 58, 48, 48, 58, 48, 48, 46, 48, 48, 48, 44, 50, 48, 50, 54, 47, 48, 49, 47, 48, 49,
    44, 48, 48, 58, 48, 48, 58, 48, 48, 46, 48, 48, 48, 44, 85, 65, 76, 49, 44, 51, 53, 48, 48, 48, 44, 44,
    44, 49, 46, 48, 48, 48, 48, 48, 48, 44, 50, 46, 48, 48, 48, 48, 48, 48, 44, 44, 44, 44, 44, 44, 48, 13, 10]

/-- A server with two clients. -/
def twoClients : Station := ((Station.init .server).accept 4).accept 5

theorem twoClients_run : Run (Station.init .server) [.accept 4, .accept 5] twoClients :=
  .snoc (.snoc .nil (.accept rfl (by decide))) (.accept rfl (by decide))

theorem exampleLine_fits : Fits exampleLine := ⟨by decide +kernel, by decide +kernel⟩

/-- The second client is gone, and the first one has the line. -/
theorem lastGone_delivered : Delivered twoClients exampleLine
    (fun fd => if fd = 5 then .failed else .wrote exampleLine.length) :=
  (send_delivers_iff twoClients (twoClients_run.ok (init_ok .server)) exampleLine exampleLine_fits
    (fun fd => if fd = 5 then .failed else .wrote exampleLine.length)
    (fun fd _ => by by_cases h : fd = 5 <;> simp [h])).2 (by decide +kernel)

/-- The first client is gone, and the second one never gets the line. -/
theorem firstGone_not_delivered :
    ¬∀ (s : Station) (acts : List Action) (line : List UInt8) (res : Fd → WriteResult),
      Run (Station.init .server) acts s → Fits line →
        (∀ fd ∈ s.clients, res fd = .wrote line.length ∨ res fd = .wouldBlock ∨ res fd = .failed) →
          Delivered s line res := by
  intro h
  have hok := twoClients_run.ok (init_ok .server)
  have hin : 4 ∈ twoClients.clients.dropLast := by decide
  refine not_delivered_of_failed hok exampleLine_fits hin rfl
    (h twoClients _ exampleLine (fun fd => if fd = 4 then .failed else .wrote exampleLine.length) twoClients_run
      exampleLine_fits fun fd _ => ?_)
  by_cases hfd : fd = 4 <;> simp [hfd]

end InmarsatSniffer.Bs
