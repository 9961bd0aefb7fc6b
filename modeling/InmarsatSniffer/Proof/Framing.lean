import InmarsatSniffer.Proof.Delivery

/-!
# The bytes that a client of the BaseStation feed accepts

* `writes_send`: a call writes at most once on a connection.
* `Station.Torn`: a write has taken a part of a line. The rest is never sent.
* `framed_of_calm`: as long as no later write on a torn connection takes a byte, every
  connection has accepted whole lines and perhaps the beginning of one.
-/

namespace InmarsatSniffer.Bs

variable {s s' : Station} {line : List UInt8} {res : Fd → WriteResult} {fd : Fd}

/-! ## The writes of a call -/

/-- One write on each descriptor of a list without repetitions. -/
theorem filterMap_writeTo {l : List Fd} (hl : l.Nodup) (line : List UInt8) (res : Fd → WriteResult) (fd : Fd) :
    (l.map fun x => Syscall.write x line (res x)).filterMap (Syscall.writeTo fd) =
      if fd ∈ l then [(line, res fd)] else [] := by
  induction l with
  | nil => rfl
  | cons a l ih =>
    obtain ⟨ha, hl⟩ := List.nodup_cons.1 hl
    rw [List.map_cons, List.filterMap_cons, ih hl]
    by_cases hfd : a = fd
    · subst hfd
      simp [Syscall.writeTo, ha]
    · have hfd' : fd ≠ a := fun h => hfd h.symm
      simp [Syscall.writeTo, hfd, hfd']

theorem writes_send_eq (s : Station) (line : List UInt8) (res : Fd → WriteResult) (fd : Fd) :
    (s.send line res).1.writes fd = s.writes fd ++ (s.send line res).2.filterMap (Syscall.writeTo fd) := by
  unfold Station.send
  split
  · simp
  · rfl

/-- The clients that a call reaches, but for the one whose write fails. -/
def reached (s : Station) (res : Fd → WriteResult) : List Fd := s.clients.takeWhile fun fd => res fd ≠ .failed

theorem reached_eq {pre post : List Fd} (hcl : s.clients = pre ++ fd :: post) (hpre : ∀ x ∈ pre, res x ≠ .failed)
    (hfd : res fd = .failed) : reached s res = pre := by
  unfold reached
  rw [hcl, List.takeWhile_append_of_pos (by simpa using hpre), List.takeWhile_cons_of_neg (by simp [hfd]),
    List.append_nil]

/-- **What a call writes on a connection**: the line, once, or nothing. -/
theorem writes_send (h : s.Ok) (hline : Fits line) (res : Fd → WriteResult) (fd : Fd) :
    (s.send line res).1.writes fd = s.writes fd ∨
      (s.send line res).1.writes fd = s.writes fd ++ [(line, res fd)] ∧ (fd ∈ reached s res ∨ res fd = .failed) := by
  rw [writes_send_eq]
  rcases send_cases h.active hline res with ⟨hall, -, hlog⟩ | ⟨pre, x, post, hcl, hpre, hx, -, hlog⟩
  · have hreached : reached s res = s.clients := List.takeWhile_eq_self_iff.2 (by simpa using hall)
    rw [hlog, filterMap_writeTo h.nodup, hreached]
    by_cases hfd : fd ∈ s.clients
    · exact Or.inr ⟨by rw [if_pos hfd], Or.inl hfd⟩
    · exact Or.inl (by rw [if_neg hfd, List.append_nil])
  · have hnodup := h.nodup
    rw [hcl, List.nodup_append'] at hnodup
    have hx' : x ∉ pre := fun hp => List.disjoint_left.1 hnodup.2.2 hp List.mem_cons_self
    rw [hlog, List.filterMap_append, filterMap_writeTo hnodup.1, reached_eq hcl hpre hx]
    by_cases hfd : fd ∈ pre
    · have hne : x ≠ fd := fun heq => hx' (heq ▸ hfd)
      exact Or.inr ⟨by simp [Syscall.writeTo, hfd, hne], Or.inl hfd⟩
    · by_cases heq : x = fd
      · subst heq
        exact Or.inr ⟨by simp [Syscall.writeTo, hfd, hx], Or.inr hx⟩
      · exact Or.inl (by simp [Syscall.writeTo, hfd, heq])

/-! ## Whole lines -/

/-- The lines that were written on a connection, whatever became of them. -/
def Station.lines (s : Station) (fd : Fd) : List (List UInt8) := (s.writes fd).map Prod.fst

/-- **The bytes that a connection has accepted** are whole lines, and perhaps the beginning
of one. -/
def Station.Framed (s : Station) (fd : Fd) : Prop :=
  ∃ (whole : List (List UInt8)) (beginning : List UInt8), (∀ l ∈ whole, l ∈ s.lines fd) ∧ (beginning = [] ∨ ∃ l ∈ s.lines fd, beginning <+: l) ∧
    s.stream fd = whole.flatten ++ beginning

/-- A write took some of the bytes of its line, and not all of them. -/
def Station.Torn (s : Station) (fd : Fd) : Prop :=
  ∃ w ∈ s.writes fd, w.2.taken w.1 ≠ [] ∧ (w.2.taken w.1).length < w.1.length

theorem taken_front (line : List UInt8) (r : WriteResult) : r.taken line <+: line := by
  cases r with
  | wrote n => exact List.take_prefix n line
  | wouldBlock => exact List.nil_prefix
  | failed => exact List.nil_prefix

/-- Every write took its whole line or nothing. -/
theorem whole_of_writes (writes : List Write)
    (h : ∀ w ∈ writes, w.2.taken w.1 = [] ∨ w.2.taken w.1 = w.1) :
    ∃ whole : List (List UInt8), (∀ l ∈ whole, l ∈ writes.map Prod.fst) ∧
      writes.flatMap (fun w => w.2.taken w.1) = whole.flatten := by
  induction writes with
  | nil => exact ⟨[], fun l hl => absurd hl List.not_mem_nil, rfl⟩
  | cons w writes ih =>
    obtain ⟨whole, hmem, heq⟩ := ih fun w hw => h w (List.mem_cons_of_mem _ hw)
    have hmem' : ∀ l ∈ whole, l ∈ (w :: writes).map Prod.fst := fun l hl => List.mem_cons_of_mem _ (hmem l hl)
    rcases h w List.mem_cons_self with hw | hw
    · exact ⟨whole, hmem', by rw [List.flatMap_cons, hw, List.nil_append, heq]⟩
    · refine ⟨w.1 :: whole, fun l hl => ?_, by rw [List.flatMap_cons, hw, heq, List.flatten_cons]⟩
      rcases List.mem_cons.1 hl with rfl | hl
      · exact List.mem_cons_self
      · exact hmem' l hl

/-- A connection that is not torn has accepted whole lines only. -/
theorem whole_of_not_torn (h : ¬s.Torn fd) :
    ∃ whole : List (List UInt8), (∀ l ∈ whole, l ∈ s.lines fd) ∧ s.stream fd = whole.flatten := by
  refine whole_of_writes (s.writes fd) fun w hw => ?_
  by_contra hne
  rw [not_or] at hne
  refine h ⟨w, hw, hne.1, lt_of_le_of_ne (taken_front w.1 w.2).length_le fun hlen => hne.2 ?_⟩
  exact (taken_front w.1 w.2).eq_of_length hlen

/-- **One more write** on a connection that is not torn, or that takes no byte. -/
theorem Station.Framed.write (h : s.Framed fd) {r : WriteResult}
    (hw : s'.writes fd = s.writes fd ++ [(line, r)]) (hcalm : s.Torn fd → r.taken line = []) : s'.Framed fd := by
  have hlines : s'.lines fd = s.lines fd ++ [line] := by
    unfold Station.lines
    rw [hw, List.map_append, List.map_singleton]
  have hstream : s'.stream fd = s.stream fd ++ r.taken line := by
    unfold Station.stream
    rw [hw, List.flatMap_append, List.flatMap_singleton]
  have hmem : ∀ l ∈ s.lines fd, l ∈ s'.lines fd := fun l hl => by
    rw [hlines]
    exact List.mem_append_left _ hl
  by_cases htaken : r.taken line = []
  · obtain ⟨whole, beginning, hwhole, hb, heq⟩ := h
    refine ⟨whole, beginning, fun l hl => hmem l (hwhole l hl), ?_, by rw [hstream, htaken, List.append_nil, heq]⟩
    rcases hb with rfl | ⟨l, hl, hp⟩
    · exact Or.inl rfl
    · exact Or.inr ⟨l, hmem l hl, hp⟩
  · obtain ⟨whole, hwhole, heq⟩ := whole_of_not_torn fun ht => htaken (hcalm ht)
    refine ⟨whole, r.taken line, fun l hl => hmem l (hwhole l hl), Or.inr ⟨line, ?_, taken_front line r⟩, ?_⟩
    · rw [hlines]
      exact List.mem_append_right _ List.mem_cons_self
    · rw [hstream, heq]

theorem Station.Framed.congr (h : s.Framed fd) (hw : s'.writes fd = s.writes fd) : s'.Framed fd := by
  unfold Station.Framed Station.lines Station.stream at h ⊢
  rwa [hw]

theorem framed_of_nil (h : s.writes fd = []) : s.Framed fd := by
  refine ⟨[], [], fun l hl => absurd hl List.not_mem_nil, Or.inl rfl, ?_⟩
  unfold Station.stream
  rw [h, List.flatMap_nil, List.flatten_nil, List.nil_append]

/-! ## Runs -/

/-- A step in which no torn connection takes a byte of another line. -/
def Calm (s : Station) : Action → Prop
  | .accept _ => True
  | .reconnect _ => True
  | .send line res => Fits line → ∀ fd ∈ reached s res, s.Torn fd → (res fd).taken line = []

/-- A new connection has accepted nothing, and the others what they had. -/
theorem framed_connected (h : ∀ fd, s.Framed fd) (new : Fd)
    (hw : s'.writes = Function.update s.writes new []) (fd : Fd) : s'.Framed fd := by
  by_cases hfd : fd = new
  · subst hfd
    exact framed_of_nil (by rw [hw, Function.update_self])
  · exact (h fd).congr (by rw [hw, Function.update_of_ne hfd])

/-- **A calm step** keeps the lines whole. -/
theorem Step.framed {act : Action} (hstep : Step s act s') (hok : s.Ok) (hcalm : Calm s act)
    (h : ∀ fd, s.Framed fd) (fd : Fd) : s'.Framed fd := by
  cases hstep with
  | @accept new hmode hfd =>
    unfold Station.accept
    split
    · exact framed_connected h new rfl fd
    · exact h fd
  | @reconnect new hmode hfd => exact framed_connected h new rfl fd
  | @send line res =>
    by_cases hline : Fits line
    swap
    · rw [send_unfit hline]
      exact h fd
    rcases writes_send hok hline res fd with hw | ⟨hw, hr⟩
    · exact (h fd).congr hw
    · refine (h fd).write hw fun ht => ?_
      rcases hr with hr | hr
      · exact hcalm hline fd hr ht
      · rw [hr]
        rfl

/-- Every step of a run is calm. -/
def CalmRun (s : Station) (acts : List Action) : Prop :=
  ∀ before act after s', acts = before ++ act :: after → Run s before s' → Calm s' act

theorem Run.framed {acts : List Action} (hrun : Run s acts s') (hok : s.Ok) (h : ∀ fd, s.Framed fd)
    (hcalm : CalmRun s acts) : ∀ fd, s'.Framed fd := by
  induction hrun with
  | nil => exact h
  | snoc hrun hstep ih =>
    refine hstep.framed (hrun.ok hok) (hcalm _ _ [] _ rfl hrun) (ih fun before act after s'' hacts hbefore => ?_)
    exact hcalm before act (after ++ [_]) s'' (by rw [hacts, List.append_assoc, List.cons_append]) hbefore

/-- **In every run of calm steps** each connection has accepted whole lines, and perhaps the
beginning of one. -/
theorem framed_of_calm (mode : Mode) (acts : List Action) (s : Station) (hrun : Run (Station.init mode) acts s)
    (hcalm : CalmRun (Station.init mode) acts) (fd : Fd) : s.Framed fd :=
  hrun.framed (init_ok mode) (fun _ => framed_of_nil rfl) hcalm fd

/-! ## A line that is torn -/

/-- One client, and two calls with a line. -/
def twoLines (res res' : WriteResult) : Station :=
  ((((Station.init .server).accept 4).send exampleLine fun _ => res).1.send exampleLine fun _ => res').1

theorem twoLines_run (res res' : WriteResult) : Run (Station.init .server)
    [.accept 4, .send exampleLine fun _ => res, .send exampleLine fun _ => res'] (twoLines res res') :=
  .snoc (.snoc (.snoc .nil (.accept rfl (by decide))) .send) .send

/-- A write that does not fail, to a client without others. -/
theorem send_one (hok : s.Ok) (hcl : s.clients = [fd]) (hline : Fits line) (res : Fd → WriteResult)
    (hres : res fd ≠ .failed) : (s.send line res).1.clients = [fd] ∧
      (s.send line res).1.writes fd = s.writes fd ++ [(line, res fd)] := by
  rcases send_cases hok.active hline res with ⟨-, htable, hlog⟩ | ⟨pre, x, post, heq, -, hx, -, -⟩
  · refine ⟨by rw [htable, hcl], ?_⟩
    rw [writes_send_eq, hlog, hcl]
    simp [Syscall.writeTo]
  · have hmem : x ∈ s.clients := by
      rw [heq]
      exact List.mem_append_right _ List.mem_cons_self
    rw [hcl, List.mem_singleton] at hmem
    exact absurd (hmem ▸ hx) hres

theorem twoLines_writes {r r' : WriteResult} (hr : r ≠ .failed) (hr' : r' ≠ .failed) :
    (twoLines r r').clients = [4] ∧ (twoLines r r').writes 4 = [(exampleLine, r), (exampleLine, r')] := by
  have hok := Run.ok (.snoc .nil (.accept rfl (by decide : 4 ∉ (Station.init .server).clients))) (init_ok .server)
  obtain ⟨hcl, hw⟩ := send_one hok rfl exampleLine_fits (fun _ => r) hr
  obtain ⟨hcl', hw'⟩ := send_one (hok.send _ _) hcl exampleLine_fits (fun _ => r') hr'
  exact ⟨hcl', by unfold twoLines; rw [hw', hw]; rfl⟩

theorem Run.last {acts : List Action} {act : Action} (h : Run s (acts ++ [act]) s') :
    ∃ t, Run s acts t ∧ Step t act s' := by
  generalize hacts : acts ++ [act] = all at h
  cases h with
  | nil => simp at hacts
  | snoc hrun hstep =>
    obtain ⟨rfl, hact⟩ := List.append_inj' hacts rfl
    cases hact
    exact ⟨_, hrun, hstep⟩

/-- The first write takes a part of the line, and the second one would block: both steps are calm. -/
theorem blocked_calm (n : ℕ) : CalmRun (Station.init .server)
    [.accept 4, .send exampleLine fun _ => .wrote n, .send exampleLine fun _ => .wouldBlock] := by
  intro before act after s' hacts hrun
  rcases before with _ | ⟨a, _ | ⟨b, _ | ⟨c, before⟩⟩⟩
  · simp only [List.nil_append, List.cons.injEq] at hacts
    rw [← hacts.1]
    trivial
  · simp only [List.cons_append, List.nil_append, List.cons.injEq] at hacts
    obtain ⟨rfl, rfl, -⟩ := hacts
    -- nothing has been written yet
    obtain ⟨t, ht, hstep⟩ := Run.last (show Run _ ([] ++ [.accept 4]) s' from hrun)
    cases hstep
    have hnil : (t.accept 4).writes = Function.update (Station.init .server).writes 4 [] := by
      generalize hacts : ([] : List Action) = acts at ht
      cases ht with
      | nil => rfl
      | snoc => simp at hacts
    intro _ fd _ ⟨w, hw, _⟩
    have : (t.accept 4).writes fd = [] := by
      rw [hnil]
      by_cases hfd : fd = 4 <;> simp [hfd, Station.init]
    rw [this] at hw
    exact absurd hw List.not_mem_nil
  · simp only [List.cons_append, List.nil_append, List.cons.injEq] at hacts
    rw [← hacts.2.2.1]
    exact fun _ _ _ _ => rfl
  · simp at hacts

/-- A client that has taken the beginning of a line and then nothing more. -/
theorem blocked_framed : (twoLines (.wrote 50) .wouldBlock).Framed 4 :=
  framed_of_calm .server _ _ (twoLines_run _ _) (blocked_calm 50) 4

/-- A client that has taken the beginning of a line and then a whole line: the rest of the
first one is lost. -/
theorem torn_not_framed : ¬∀ (mode : Mode) (acts : List Action) (s : Station) (fd : Fd),
    Run (Station.init mode) acts s → fd ∈ s.clients → s.Framed fd := by
  intro h
  obtain ⟨hcl, hw⟩ := twoLines_writes (show .wrote 50 ≠ WriteResult.failed by decide)
    (show .wrote 106 ≠ WriteResult.failed by decide)
  obtain ⟨whole, beginning, hwhole, hb, heq⟩ := h .server _ _ 4 (twoLines_run (.wrote 50) (.wrote 106))
    (by rw [hcl]; exact List.mem_cons_self)
  have hline : ∀ l ∈ (twoLines (.wrote 50) (.wrote 106)).lines 4, l = exampleLine := by
    intro l hl
    unfold Station.lines at hl
    rw [hw] at hl
    simpa using hl
  have hstream : (twoLines (.wrote 50) (.wrote 106)).stream 4 = exampleLine.take 50 ++ exampleLine := by
    unfold Station.stream
    rw [hw]
    decide +kernel
  rw [hstream] at heq
  rcases whole with _ | ⟨l, whole⟩
  · -- the beginning of a line is not that long
    have hlen : beginning.length ≤ exampleLine.length := by
      rcases hb with rfl | ⟨l, hl, hp⟩
      · exact Nat.zero_le _
      · rw [← hline l hl]
        exact hp.length_le
    rw [List.flatten_nil, List.nil_append] at heq
    rw [← heq] at hlen
    exact absurd hlen (by decide +kernel)
  · -- the second line starts within the first one
    have hl := hline l (hwhole l List.mem_cons_self)
    rw [List.flatten_cons, hl, List.append_assoc] at heq
    have hlen : exampleLine.length = 106 := by decide +kernel
    have htake := congrArg (List.take 106) heq
    rw [← hlen, List.take_left, hlen] at htake
    exact absurd htake (by decide +kernel)

end InmarsatSniffer.Bs
