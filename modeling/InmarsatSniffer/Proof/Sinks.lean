import InmarsatSniffer.Spec.Feed

/-!
# The sinks of the feed

* `received_sendJson`: `send_json` offers its line once to every JSON sink that is enabled.
* `received_eq`: what a sink receives over a sequence of messages is up to that sink and
  the messages only, if the early return is not in the way.
* `sinks_independent`: the early return, which asks for `--feed` and `--udp` only, is not in
  the way exactly if one of them is given or no message has another sink to go to.
-/

namespace InmarsatSniffer.Feed

variable {f f' : FeedState} {msgs : List Message} {sink : Sink}

/-- The sink is enabled: the option is given, and the system has what it takes. -/
def FeedState.enabled (f : FeedState) : Sink → Bool
  | .stdout => f.options.feedEnabled && f.feedWriterRunning
  | .udp i => (f.udpSockets.getD i none).isSome
  | .mqtt => f.options.haveMqtt && f.options.mqttEnabled
  | .jaero => f.options.jaeroFormatEnabled

theorem enabled_udp (f : FeedState) (i : ℕ) : f.enabled (.udp i) = (f.udpSockets.getD i none).isSome := rfl

/-- The JSON line of a message. -/
def FeedState.json (f : FeedState) : Message → List UInt8
  | .stdc msg clock => stdcLine f.options.satelliteName msg clock
  | .aero msg clock => aeroLine f.options.stationId msg clock

/-- The line of a message for a sink, if there is one. -/
def FeedState.lineFor (f : FeedState) : Sink → Message → Option (List UInt8)
  | .jaero, .stdc _ _ => none
  | .jaero, .aero msg clock => some (jaeroLine msg clock)
  | .stdout, msg => some (f.json msg)
  | .udp _, msg => some (f.json msg)
  | .mqtt, msg => some (f.json msg)

/-- The lines that are offered to a sink. -/
def receivedBy (sink : Sink) (offers : List Offer) : List (List UInt8) :=
  (offers.filter fun o => o.sink = sink).map Offer.line

theorem receivedBy_append (sink : Sink) (a b : List Offer) :
    receivedBy sink (a ++ b) = receivedBy sink a ++ receivedBy sink b := by
  unfold receivedBy
  rw [List.filter_append, List.map_append]

theorem receivedBy_flatMap {α : Type*} (sink : Sink) (l : List α) (g : α → List Offer) :
    receivedBy sink (l.flatMap g) = l.flatMap fun a => receivedBy sink (g a) := by
  induction l with
  | nil => rfl
  | cons a l ih => rw [List.flatMap_cons, receivedBy_append, ih, List.flatMap_cons]

/-- An offer to one sink. -/
theorem receivedBy_single (sink sink' : Sink) (line : List UInt8) (b : Bool) :
    receivedBy sink (if b then [⟨sink', line⟩] else []) = if sink' = sink ∧ b then [line] else [] := by
  unfold receivedBy
  cases b with
  | false => simp
  | true => by_cases h : sink' = sink <;> simp [h]

/-- Offers to UDP destinations. -/
theorem receivedBy_udp (line : List UInt8) (p : ℕ → Bool) (n : ℕ) :
    receivedBy sink (((List.range n).filter p).map fun i => ⟨.udp i, line⟩) =
      if ∃ i < n, sink = .udp i ∧ p i then [line] else [] := by
  induction n with
  | zero => simp [receivedBy]
  | succ n ih =>
    have hsplit : (∃ i < n + 1, sink = .udp i ∧ p i) ↔ (∃ i < n, sink = .udp i ∧ p i) ∨ (sink = .udp n ∧ p n) := by
      constructor
      · rintro ⟨i, hi, h⟩
        rcases Nat.lt_succ_iff_lt_or_eq.1 hi with hlt | rfl
        · exact Or.inl ⟨i, hlt, h⟩
        · exact Or.inr h
      · rintro (⟨i, hi, h⟩ | h)
        · exact ⟨i, by omega, h⟩
        · exact ⟨n, by omega, h⟩
    -- a sink is one destination only
    have hone : (∃ i < n, sink = .udp i ∧ p i) → sink ≠ .udp n := by
      rintro ⟨i, hi, rfl, -⟩ heq
      cases heq
      omega
    rw [List.range_succ, List.filter_append, List.map_append, receivedBy_append, ih]
    by_cases hlast : sink = .udp n ∧ p n
    · rw [if_neg fun h => hone h hlast.1, if_pos (hsplit.2 (Or.inr hlast))]
      simp [receivedBy, hlast.1, hlast.2]
    · have hnil : receivedBy sink (([n].filter p).map fun i => ⟨.udp i, line⟩) = [] := by
        by_cases hp : p n
        · have hne : ¬Sink.udp n = sink := fun h => hlast ⟨h.symm, hp⟩
          simp [receivedBy, hp, hne]
        · simp [receivedBy, hp]
      rw [hnil, List.append_nil]
      simp only [hsplit, or_iff_left hlast]

/-- **`send_json`** offers its line once to each JSON sink that is enabled. -/
theorem received_sendJson (f : FeedState) (json : List UInt8) (sink : Sink) :
    receivedBy sink (sendJson f json) = if sink ≠ .jaero ∧ f.enabled sink then [json] else [] := by
  unfold sendJson
  rw [receivedBy_append, receivedBy_append, receivedBy_single, receivedBy_single, receivedBy_udp]
  cases sink with
  | stdout => simp [FeedState.enabled]
  | udp i =>
    have hex : (∃ j < f.udpSockets.length, Sink.udp i = .udp j ∧ (f.udpSockets.getD j none).isSome) ↔
        Sink.udp i ≠ .jaero ∧ f.enabled (.udp i) := by
      constructor
      · rintro ⟨j, -, heq, h⟩
        cases heq
        exact ⟨Sink.noConfusion, h⟩
      · rintro ⟨-, h⟩
        refine ⟨i, ?_, rfl, h⟩
        by_contra hlt
        rw [enabled_udp, List.getD_eq_default _ _ (not_lt.1 hlt)] at h
        cases h
    have hout : ¬(Sink.stdout = .udp i ∧ (f.options.feedEnabled && f.feedWriterRunning) = true) := fun h => nomatch h.1
    have hmqtt : ¬(Sink.mqtt = .udp i ∧ (f.options.haveMqtt && f.options.mqttEnabled) = true) := fun h => nomatch h.1
    rw [if_neg hout, if_neg hmqtt, List.nil_append, List.append_nil]
    exact if_congr hex rfl rfl
  | mqtt => simp [FeedState.enabled]
  | jaero => simp

/-! ## Messages -/

/-- The JSON line of a message fits into the buffer. -/
def Fits (f : FeedState) (msg : Message) : Prop := (f.json msg).length < bufSize

/-- What the early return leaves out: without `--feed` and `--udp`, nothing is there for
MQTT, and no Aero message for JAERO's format. -/
def NotCutOff (f : FeedState) (msgs : List Message) : Prop :=
  f.nothingToDo = true → ∀ msg ∈ msgs,
    (f.options.haveMqtt && f.options.mqttEnabled) = false ∧
      (f.options.jaeroFormatEnabled = true → ∃ m clock, msg = .stdc m clock)

/-- **What a sink receives** for a message. -/
theorem received_message (hinit : f.initialized = true) {msg : Message} (hfits : Fits f msg)
    (hgate : f.nothingToDo = false) (sink : Sink) :
    receivedBy sink (feedMessage f msg) = if f.enabled sink then (f.lineFor sink msg).toList else [] := by
  cases msg with
  | stdc m clock =>
    have hlt : (stdcLine f.options.satelliteName m clock).length < bufSize := hfits
    unfold feedMessage feedStdcMessage
    rw [hinit, hgate]
    simp only [Bool.not_true, Bool.false_eq_true, if_false]
    rw [if_pos hlt, received_sendJson]
    cases sink <;> simp [FeedState.lineFor, FeedState.json]
  | aero m clock =>
    have hlt : (aeroLine f.options.stationId m clock).length < bufSize := hfits
    unfold feedMessage feedAeroMessage
    rw [hinit, hgate]
    simp only [Bool.not_true, Bool.false_eq_true, if_false]
    rw [if_pos hlt, receivedBy_append, received_sendJson, receivedBy_single]
    cases sink <;> simp [FeedState.lineFor, FeedState.json, FeedState.enabled]
    rfl

/-- Without `--feed` and `--udp` the functions return at once. -/
theorem message_cut (hgate : f.nothingToDo = true) (msg : Message) : feedMessage f msg = [] := by
  cases msg <;> simp [feedMessage, feedStdcMessage, feedAeroMessage, hgate]

/-- The state behind `feed_init`. -/
structure SetUp (f : FeedState) : Prop where
  initialized : f.initialized = true
  sockets : f.udpSockets.length = f.options.udpHosts.length

theorem feedInit_setUp (options : Options) (sys : System) : SetUp (feedInit options sys) :=
  ⟨rfl, List.length_mapIdx⟩

/-- Without `--feed` and `--udp`, only MQTT and JAERO's format can be enabled. -/
theorem enabled_of_nothingToDo (h : SetUp f) (hgate : f.nothingToDo = true) (hen : f.enabled sink = true) :
    sink = .mqtt ∨ sink = .jaero := by
  unfold FeedState.nothingToDo at hgate
  rw [Bool.and_eq_true, Bool.not_eq_true', beq_iff_eq] at hgate
  cases sink with
  | stdout => simp [FeedState.enabled, hgate.1] at hen
  | udp i =>
    rw [enabled_udp, List.getD_eq_default _ _ (by rw [h.sockets, hgate.2]; exact Nat.zero_le i)] at hen
    cases hen
  | mqtt => exact Or.inl rfl
  | jaero => exact Or.inr rfl

/-- **What a sink receives over a sequence of messages.** -/
theorem received_eq (h : SetUp f) (hfits : ∀ msg ∈ msgs, Fits f msg) (hcut : NotCutOff f msgs) (sink : Sink) :
    receivedBy sink (feedMessages f msgs) = if f.enabled sink then msgs.filterMap (f.lineFor sink) else [] := by
  have hmsg : ∀ msg ∈ msgs, receivedBy sink (feedMessage f msg) =
      if f.enabled sink then (f.lineFor sink msg).toList else [] := by
    intro msg hmem
    cases hgate : f.nothingToDo with
    | false => exact received_message h.initialized (hfits msg hmem) hgate sink
    | true =>
      obtain ⟨hmqtt, hjaero⟩ := hcut hgate msg hmem
      rw [message_cut hgate]
      by_cases hen : f.enabled sink = true
      · -- the message has no line for the sink
        rcases enabled_of_nothingToDo h hgate hen with rfl | rfl
        · rw [show f.enabled .mqtt = false from hmqtt] at hen
          cases hen
        · obtain ⟨m, clock, rfl⟩ := hjaero hen
          rw [if_pos hen]
          rfl
      · rw [if_neg hen]
        rfl
  unfold feedMessages
  rw [receivedBy_flatMap, List.flatMap_congr hmsg]
  split
  · induction msgs with
    | nil => rfl
    | cons msg msgs ih =>
      have ih := ih (fun m hm => hfits m (List.mem_cons_of_mem _ hm))
        (fun hg m hm => hcut hg m (List.mem_cons_of_mem _ hm)) (fun m hm => hmsg m (List.mem_cons_of_mem _ hm))
      rw [List.flatMap_cons, ih, List.filterMap_cons]
      cases f.lineFor sink msg <;> rfl
  · simp

/-! ## Independence -/

/-- Every message is offered to every enabled sink that there is a line for. -/
def Offered (f : FeedState) (msgs : List Message) : Prop :=
  ∀ msg ∈ msgs, ∀ sink, f.enabled sink = true → ∀ line, f.lineFor sink msg = some line →
    ⟨sink, line⟩ ∈ feedMessage f msg

theorem mem_receivedBy {offers : List Offer} {line : List UInt8} :
    line ∈ receivedBy sink offers ↔ ⟨sink, line⟩ ∈ offers := by
  unfold receivedBy
  rw [List.mem_map]
  constructor
  · rintro ⟨o, ho, rfl⟩
    obtain ⟨hmem, hsink⟩ := List.mem_filter.1 ho
    rw [← of_decide_eq_true hsink]
    exact hmem
  · exact fun hmem => ⟨_, List.mem_filter.2 ⟨hmem, decide_eq_true rfl⟩, rfl⟩

/-- **The early return is not in the way** exactly if every message gets where it should. -/
theorem offered_iff (h : SetUp f) (hfits : ∀ msg ∈ msgs, Fits f msg) : Offered f msgs ↔ NotCutOff f msgs := by
  constructor
  · intro hoff hgate msg hmem
    have hno : ∀ sink, f.enabled sink = true → f.lineFor sink msg = none := by
      intro sink hen
      cases hline : f.lineFor sink msg with
      | none => rfl
      | some line =>
        have := hoff msg hmem sink hen line hline
        rw [message_cut hgate] at this
        exact absurd this List.not_mem_nil
    constructor
    · by_contra hmqtt
      rw [Bool.not_eq_false] at hmqtt
      cases hno .mqtt hmqtt
    · intro hjaero
      cases msg with
      | stdc m clock => exact ⟨m, clock, rfl⟩
      | aero m clock => cases hno .jaero hjaero
  · intro hcut msg hmem sink hen line hline
    have hone : receivedBy sink (feedMessages f [msg]) = _ :=
      received_eq h (fun m hm => hfits m (List.mem_singleton.1 hm ▸ hmem))
        (fun hg m hm => hcut hg m (List.mem_singleton.1 hm ▸ hmem)) sink
    unfold feedMessages at hone
    rw [List.flatMap_singleton, if_pos hen, List.filterMap_cons, hline] at hone
    rw [← mem_receivedBy, hone]
    exact List.mem_cons_self

/-- Two states with the same sinks, but for one. -/
structure AgreeOff (sink : Sink) (f f' : FeedState) : Prop where
  satelliteName : f.options.satelliteName = f'.options.satelliteName
  stationId : f.options.stationId = f'.options.stationId
  enabled : ∀ other, other ≠ sink → f.enabled other = f'.enabled other

theorem AgreeOff.json (h : AgreeOff sink f f') (msg : Message) : f.json msg = f'.json msg := by
  cases msg with
  | stdc m clock => exact congrArg (stdcLine · m clock) h.satelliteName
  | aero m clock => exact congrArg (aeroLine · m clock) h.stationId

theorem AgreeOff.lineFor (h : AgreeOff sink f f') (other : Sink) (msg : Message) :
    f.lineFor other msg = f'.lineFor other msg := by
  cases other <;> cases msg <;> simp only [FeedState.lineFor, h.json]

/-- **Message sinks are independent** exactly if neither set of options has `--mqtt` or
`--jaero-format` cut off. -/
theorem sinks_independent (options options' : Options) (sys sys' : System) (msgs : List Message) (sink : Sink)
    (hagree : AgreeOff sink (feedInit options sys) (feedInit options' sys'))
    (hfits : ∀ msg ∈ msgs, Fits (feedInit options sys) msg) :
    (Offered (feedInit options sys) msgs ∧ Offered (feedInit options' sys') msgs ∧
        ∀ other, other ≠ sink →
          receivedBy other (feedMessages (feedInit options sys) msgs) =
            receivedBy other (feedMessages (feedInit options' sys') msgs)) ↔
      NotCutOff (feedInit options sys) msgs ∧ NotCutOff (feedInit options' sys') msgs := by
  have hset := feedInit_setUp options sys
  have hset' := feedInit_setUp options' sys'
  have hfits' : ∀ msg ∈ msgs, Fits (feedInit options' sys') msg := by
    intro msg hmem
    have := hfits msg hmem
    unfold Fits at this ⊢
    rwa [← hagree.json]
  rw [offered_iff hset hfits, offered_iff hset' hfits']
  constructor
  · exact fun h => ⟨h.1, h.2.1⟩
  · rintro ⟨hcut, hcut'⟩
    refine ⟨hcut, hcut', fun other hne => ?_⟩
    rw [received_eq hset hfits hcut, received_eq hset' hfits' hcut', hagree.enabled other hne,
      funext (hagree.lineFor other)]

/-! ## Options from the examples -/

/-- `--feed`, `--mqtt` and `--jaero-format`, if given. -/
def exampleOptions (feed mqtt jaero : Bool) : Options where
  feedEnabled := feed
  udpHosts := []
  haveMqtt := true
  mqttEnabled := mqtt
  jaeroFormatEnabled := jaero
  jaeroFormatHost := none
  satelliteName := []
  stationId := []
  udpCount_le := Nat.zero_le _

/-- A system that has everything. -/
def exampleSystem : System := ⟨fun i => some (i + 3), some 9, fun _ => true, true⟩

/-- A message from an aircraft. -/
def exampleAero : Message := .aero
  { reg := ⟨Stdc.ascii ".N12345", by decide⟩
    flight := ⟨Stdc.ascii "UA1234", by decide⟩
    label := ⟨Stdc.ascii "H1", by decide⟩
    mode := 0x32
    blockId := 0x33
    ack := 0x15
    text := Stdc.ascii "POSN39W104"
    channelId := 1
    aesId := 0xA1B2C3
    gesId := 0x44
    qno := 1
    refno := 2
    downlink := true
    arinc622Json := none
    position := none
    altFt := 0 }
  ⟨1767225600, 0, 0, 0, 0, 1, 0, 126⟩

theorem exampleAero_fits (feed mqtt jaero : Bool) :
    Fits (feedInit (exampleOptions feed mqtt jaero) exampleSystem) exampleAero := by
  show (aeroLine [] _ _).length < bufSize
  decide +kernel

/-- Turning MQTT on with `--feed` leaves stdout and JAERO's format what they had. -/
theorem mqtt_with_feed :
    receivedBy .stdout (feedMessages (feedInit (exampleOptions true false true) exampleSystem) [exampleAero]) =
      receivedBy .stdout (feedMessages (feedInit (exampleOptions true true true) exampleSystem) [exampleAero]) ∧
    receivedBy .jaero (feedMessages (feedInit (exampleOptions true false true) exampleSystem) [exampleAero]) =
      receivedBy .jaero (feedMessages (feedInit (exampleOptions true true true) exampleSystem) [exampleAero]) := by
  have hagree : AgreeOff .mqtt (feedInit (exampleOptions true false true) exampleSystem)
      (feedInit (exampleOptions true true true) exampleSystem) := by
    refine ⟨rfl, rfl, fun other hne => ?_⟩
    cases other <;> first | rfl | exact absurd rfl hne
  have hother := ((sinks_independent (exampleOptions true false true) (exampleOptions true true true) exampleSystem
    exampleSystem [exampleAero] .mqtt hagree fun msg hmem => by
      rw [List.mem_singleton.1 hmem]
      exact exampleAero_fits true false true).2
    ⟨fun hgate => absurd hgate (by decide), fun hgate => absurd hgate (by decide)⟩).2.2
  exact ⟨hother .stdout (by decide), hother .jaero (by decide)⟩

/-- With `--jaero-format` alone, an Aero message is not written anywhere. -/
theorem jaero_alone_cut : ¬∀ (options : Options) (sys : System) (msgs : List Message),
    (∀ msg ∈ msgs, Fits (feedInit options sys) msg) → Offered (feedInit options sys) msgs := by
  intro h
  have hoff := h (exampleOptions false false true) exampleSystem [exampleAero] fun msg hmem => by
    rw [List.mem_singleton.1 hmem]
    exact exampleAero_fits false false true
  have := hoff exampleAero List.mem_cons_self .jaero rfl _ rfl
  exact absurd this List.not_mem_nil

end InmarsatSniffer.Feed
