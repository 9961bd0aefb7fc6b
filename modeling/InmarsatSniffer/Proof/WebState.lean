import Mathlib
import InmarsatSniffer.Lib.RingWindow
import InmarsatSniffer.Spec.WebState

/-!
# The state behind the web page over a run

The ring of the messages is a window of all messages so far (`RingWindow`). An entry of the table is known by
the call that made it: it was not listed before, has been listed since, and has the last fixes from there on.

* `webAddAero_cases`: what a call does to the table.
* `oldestLoop_least`: the entry that makes room was seen before all others.
* `web_run`: **the table and the list of messages are what the calls so far make them**.
* `farFuture_evicts`: from 10^18 seconds on the loop does not look for the oldest entry.
-/

namespace InmarsatSniffer.Web

open Feed RingWindow

variable {calls before after : List (ℚ × Call)} {call : ℚ × Call} {s : WebState} {ac : AircraftEntry} {reg : CString 16}
  {table : List AircraftEntry} {msg : AeroMessage} {now t : ℚ}

theorem run_append (calls : List (ℚ × Call)) (call : ℚ × Call) : run (calls ++ [call]) = (run calls).step call := by
  unfold run
  rw [List.foldl_append]
  rfl

/-! ## The ring of messages -/

/-- The entries of the messages among calls. -/
def stdcOf (calls : List (ℚ × Call)) : List StdcEntry :=
  calls.filterMap fun call => match call.2 with
    | .stdc msg => some (.new msg call.1)
    | .aero _ => none

/-- **The ring behind `n` messages.** -/
structure RingOk (s : WebState) (entries : List StdcEntry) : Prop where
  head : s.stdcHead = entries.length % maxStdcMsgs
  count : s.stdcCount = min entries.length maxStdcMsgs
  window : Window maxStdcMsgs s.stdc entries (entries.length - maxStdcMsgs) entries.length

theorem ringOk_init : RingOk .init [] where
  head := rfl
  count := rfl
  window := fun _ _ h => absurd h (Nat.not_lt_zero _)

theorem ringOk_addStdc {entries : List StdcEntry} (h : RingOk s entries) (msg : StdcMessage) (now : ℚ) :
    RingOk (s.addStdc msg now) (entries ++ [.new msg now]) := by
  have hlen : (entries ++ [StdcEntry.new msg now]).length = entries.length + 1 := List.length_append
  refine ⟨?_, ?_, ?_⟩
  · rw [hlen]
    unfold WebState.addStdc
    dsimp only
    rw [h.head, Nat.mod_add_mod]
  · rw [hlen]
    unfold WebState.addStdc
    dsimp only
    rw [h.count]
    split <;> omega
  · rw [hlen]
    -- the entry goes into the cell that leaves the window
    have hlo : entries.length - maxStdcMsgs ≤ entries.length + 1 - maxStdcMsgs := by omega
    have hwrite := (h.window.mono hlo).write le_rfl (by omega) (StdcEntry.new msg now)
    have hcells : (s.addStdc msg now).stdc = Function.update s.stdc (entries.length % maxStdcMsgs) (.new msg now) := by
      unfold WebState.addStdc
      dsimp only
      rw [h.head]
    rw [hcells]
    refine hwrite.append rfl fun j hj => ?_
    obtain rfl : j = 0 := Nat.lt_one_iff.1 hj
    rw [Nat.add_zero, Function.update_self]
    rfl

theorem ringOk_run (calls : List (ℚ × Call)) : RingOk (run calls) (stdcOf calls) := by
  induction calls using List.reverseRecOn with
  | nil => exact ringOk_init
  | append_singleton calls call ih =>
    obtain ⟨t, call⟩ := call
    rw [run_append, stdcOf, List.filterMap_append]
    cases call with
    | stdc msg => exact ringOk_addStdc ih msg t
    | aero msg =>
      rw [show List.filterMap _ [(t, Call.aero msg)] = [] from rfl, List.append_nil]
      exact ⟨ih.head, ih.count, ih.window⟩

/-- **The entries that `build_json` goes through** are the last ones, from the oldest on. -/
theorem stdcEntries_run (calls : List (ℚ × Call)) : (run calls).stdcEntries = (stdcOf calls).rtake maxStdcMsgs := by
  have h := ringOk_run calls
  rw [List.rtake, h.window.read rfl, WebState.stdcEntries, h.count]
  have hcount : (stdcOf calls).length - ((stdcOf calls).length - maxStdcMsgs) = min (stdcOf calls).length maxStdcMsgs := by
    omega
  rw [hcount]
  apply List.map_congr_left
  intro i hi
  rw [List.mem_range] at hi
  have hidx : (run calls).stdcIdx i = ((stdcOf calls).length - maxStdcMsgs + i) % maxStdcMsgs := by
    unfold WebState.stdcIdx
    rw [h.head, h.count]
    dsimp only [maxStdcMsgs] at hi ⊢
    omega
  rw [hidx]

/-! ## The table of aircraft -/

/-- The entry of an aircraft that was not listed. -/
def freshEntry (msg : AeroMessage) (now : ℚ) : AircraftEntry := (AircraftEntry.new msg.reg).update msg now

/-- The registration is in the table. -/
def Listed (table : List AircraftEntry) (reg : CString 16) : Prop := ∃ ac ∈ table, ac.reg = reg

/-- **The loop for the oldest entry**: there is none before `oldestT`, or it is the first of those that were seen
before all others. -/
theorem oldestLoop_spec (i : ℕ) (oldestT : ℚ) (oldestI : ℕ) (table : List AircraftEntry) :
    (oldestLoop i oldestT oldestI table = oldestI ∧ ∀ ac ∈ table, oldestT ≤ ac.lastSeen) ∨
      ∃ pre ac post, table = pre ++ ac :: post ∧ oldestLoop i oldestT oldestI table = i + pre.length ∧
        ac.lastSeen < oldestT ∧ ∀ ac' ∈ table, ac.lastSeen ≤ ac'.lastSeen := by
  induction table generalizing i oldestT oldestI with
  | nil => exact Or.inl ⟨rfl, fun _ h => absurd h List.not_mem_nil⟩
  | cons ac table ih =>
    rw [oldestLoop]
    split
    · rename_i hlt
      right
      rcases ih (i + 1) ac.lastSeen i with ⟨heq, hall⟩ | ⟨pre, ac', post, rfl, heq, hlt', hall⟩
      · exact ⟨[], ac, table, rfl, heq, hlt, List.forall_mem_cons.2 ⟨le_rfl, hall⟩⟩
      · refine ⟨ac :: pre, ac', post, rfl, ?_, hlt'.trans hlt, List.forall_mem_cons.2 ⟨hlt'.le, hall⟩⟩
        rw [heq, List.length_cons]
        omega
    · rename_i hge
      rcases ih (i + 1) oldestT oldestI with ⟨heq, hall⟩ | ⟨pre, ac', post, rfl, heq, hlt', hall⟩
      · exact Or.inl ⟨heq, List.forall_mem_cons.2 ⟨not_lt.1 hge, hall⟩⟩
      · refine Or.inr ⟨ac :: pre, ac', post, rfl, ?_, hlt', List.forall_mem_cons.2 ⟨hlt'.le.trans (not_lt.1 hge), hall⟩⟩
        rw [heq, List.length_cons]
        omega

/-- An entry and what is before and behind it. -/
theorem split_at (table : List AircraftEntry) {i : ℕ} (hi : i < table.length) :
    table = table.take i ++ table[i] :: table.drop (i + 1) := by
  rw [List.getElem_cons_drop, List.take_append_drop]

/-- **What a call does to the table.** -/
theorem webAddAero_cases (table : Aircraft) (msg : AeroMessage) (now : ℚ) :
    (∃ pre ac post, table.1 = pre ++ ac :: post ∧ ac.reg = msg.reg ∧
        (webAddAero table msg now).1 = pre ++ ac.update msg now :: post) ∨
      (¬Listed table.1 msg.reg ∧ table.1.length < maxAircraft ∧
        (webAddAero table msg now).1 = table.1 ++ [freshEntry msg now]) ∨
      (¬Listed table.1 msg.reg ∧ table.1.length = maxAircraft ∧ ∃ pre old post, table.1 = pre ++ old :: post ∧
        pre.length = oldestLoop 0 (10 ^ 18) 0 table.1 ∧ (webAddAero table msg now).1 = pre ++ freshEntry msg now :: post) := by
  unfold webAddAero
  split
  · rename_i i hfind
    obtain ⟨hi, hreg, -⟩ := List.findIdx?_eq_some_iff_getElem.1 hfind
    exact Or.inl ⟨_, _, _, split_at table.1 hi, of_decide_eq_true hreg, List.modify_eq_take_cons_drop hi⟩
  · rename_i hfind
    have hnew : ¬Listed table.1 msg.reg := fun ⟨ac, hac, hreg⟩ =>
      of_decide_eq_false (List.findIdx?_eq_none_iff.1 hfind ac hac) hreg
    right
    dsimp only
    split
    · rename_i hroom
      exact Or.inl ⟨hnew, hroom, rfl⟩
    · rename_i hfull
      have hlen : table.1.length = maxAircraft := le_antisymm table.2 (not_lt.1 hfull)
      have hold : oldestLoop 0 (10 ^ 18) 0 table.1 < table.1.length := by
        rcases oldestLoop_spec 0 (10 ^ 18) 0 table.1 with ⟨heq, -⟩ | ⟨pre, ac, post, htable, heq, -⟩
        · rw [heq, hlen]
          decide
        · rw [heq, htable, List.length_append, List.length_cons]
          omega
      refine Or.inr ⟨hnew, hlen, _, _, _, split_at table.1 hold, ?_, List.set_eq_take_cons_drop _ hold⟩
      rw [List.length_take]
      omega

/-! ## Histories -/

/-- The message of a call and its time, if it has a registration. -/
def heard (reg : CString 16) (call : ℚ × Call) : Option (ℚ × AeroMessage) :=
  match call.2 with
  | .stdc _ => none
  | .aero msg => if msg.reg = reg then some (call.1, msg) else none

/-- The messages with a registration among calls, and their times. -/
def heardOf (reg : CString 16) (calls : List (ℚ × Call)) : List (ℚ × AeroMessage) := calls.filterMap (heard reg)

/-- The fix of a message, if it has a position. -/
def fixOf (m : ℚ × AeroMessage) : Option Fix := m.2.position.map fun p => ⟨p.1, p.2, m.2.altFt, m.1⟩

/-- The fixes of an aircraft among calls. -/
def fixesOf (reg : CString 16) (calls : List (ℚ × Call)) : List Fix := (heardOf reg calls).filterMap fixOf

/-- When an aircraft was heard last. -/
def lastHeard (reg : CString 16) (calls : List (ℚ × Call)) : Option ℚ := (heardOf reg calls).getLast?.map Prod.fst

/-- **An entry and the call that made it**: it was not listed before, it has been listed since, and it holds the
last fixes from there on. -/
def Tracked (calls : List (ℚ × Call)) (ac : AircraftEntry) : Prop :=
  ∃ before t msg after, calls = before ++ (t, .aero msg) :: after ∧ msg.reg = ac.reg ∧
    ¬Listed (run before).aircraft.1 ac.reg ∧
    (∀ mid rest, after = mid ++ rest → Listed (run (before ++ (t, .aero msg) :: mid)).aircraft.1 ac.reg) ∧
    ac.fixes = (fixesOf ac.reg ((t, .aero msg) :: after)).rtake maxFixes

theorem fixesOf_append (reg : CString 16) (calls calls' : List (ℚ × Call)) :
    fixesOf reg (calls ++ calls') = fixesOf reg calls ++ fixesOf reg calls' := by
  unfold fixesOf heardOf
  rw [List.filterMap_append, List.filterMap_append]

theorem heardOf_own (t : ℚ) (msg : AeroMessage) : heardOf msg.reg [(t, .aero msg)] = [(t, msg)] := by
  have hmsg : heard msg.reg (t, .aero msg) = some (t, msg) := if_pos rfl
  rw [heardOf, List.filterMap_cons_some hmsg, List.filterMap_nil]

theorem heardOf_other (h : msg.reg ≠ reg) (t : ℚ) : heardOf reg [(t, .aero msg)] = [] := by
  have hmsg : heard reg (t, .aero msg) = none := if_neg h
  rw [heardOf, List.filterMap_cons_none hmsg, List.filterMap_nil]

theorem rtake_append (l l' : List Fix) (n : ℕ) : (l.rtake n ++ l').rtake n = (l ++ l').rtake n := by
  unfold List.rtake
  rw [List.length_append, List.length_append, List.length_drop, List.drop_append, List.drop_append, List.drop_drop,
    List.length_drop]
  congr 2 <;> omega

theorem rtake_self {l : List Fix} {n : ℕ} (h : l.length ≤ n) : l.rtake n = l := by
  rw [List.rtake, Nat.sub_eq_zero_of_le h, List.drop_zero]

/-- **The shifted arrays** hold the last fixes. -/
theorem pushFix_eq {fixes : List Fix} (h : fixes.length ≤ maxFixes) (fix : Fix) :
    pushFix fixes fix = (fixes ++ [fix]).rtake maxFixes := by
  unfold pushFix List.rtake
  rw [List.length_append, List.length_singleton]
  split
  · rename_i hfull
    have hlen : fixes.length + 1 - maxFixes = 1 := by omega
    rw [hlen, ← List.drop_one, List.drop_append_of_le_length (le_trans (by decide) hfull)]
  · rename_i hroom
    have hlen : fixes.length + 1 - maxFixes = 0 := by omega
    rw [hlen, List.drop_zero]

/-- The fixes behind a message. -/
theorem update_fixes (ac : AircraftEntry) (msg : AeroMessage) (t : ℚ) :
    (ac.update msg t).fixes = (ac.fixes ++ fixesOf msg.reg [(t, .aero msg)]).rtake maxFixes := by
  have hfix : fixesOf msg.reg [(t, .aero msg)] = (fixOf (t, msg)).toList := by
    unfold fixesOf
    rw [heardOf_own]
    cases h : fixOf (t, msg) with
    | none => exact List.filterMap_cons_none h
    | some fix => exact List.filterMap_cons_some h
  rw [hfix]
  unfold AircraftEntry.update fixOf
  dsimp only
  cases msg.position with
  | none => exact ((congrArg (List.rtake · maxFixes) (List.append_nil ac.fixes)).trans (rtake_self ac.fixes_le)).symm
  | some p => exact pushFix_eq ac.fixes_le _

/-- **An entry that stays in the table** behind one more call. -/
theorem Tracked.extend (h : Tracked calls ac) {ac' : AircraftEntry} (hreg : ac'.reg = ac.reg)
    (hlisted : Listed (run (calls ++ [call])).aircraft.1 ac.reg)
    (hfix : ac'.fixes = (ac.fixes ++ fixesOf ac.reg [call]).rtake maxFixes) : Tracked (calls ++ [call]) ac' := by
  obtain ⟨before, t, msg, after, rfl, hmsg, hnew, hall, hfixes⟩ := h
  refine ⟨before, t, msg, after ++ [call], ?_, hmsg.trans hreg.symm, by rwa [hreg], fun mid rest hsplit => ?_, ?_⟩
  · rw [List.append_assoc, List.cons_append]
  · rw [hreg]
    -- the last call is in the part that is left, or is the last of the calls since
    rcases List.eq_nil_or_concat rest with rfl | ⟨rest', call', rfl⟩
    · rw [List.append_nil] at hsplit
      rw [← hsplit]
      rwa [List.append_assoc, List.cons_append] at hlisted
    · rw [List.concat_eq_append, ← List.append_assoc] at hsplit
      exact hall mid rest' (List.append_inj_left' hsplit rfl)
  · rw [hfix, hfixes, rtake_append, ← fixesOf_append, hreg]
    rfl

/-- **A new entry.** -/
theorem tracked_fresh (h : ¬Listed (run calls).aircraft.1 msg.reg)
    (hlisted : Listed (run (calls ++ [(t, .aero msg)])).aircraft.1 msg.reg) :
    Tracked (calls ++ [(t, .aero msg)]) (freshEntry msg t) := by
  refine ⟨calls, t, msg, [], rfl, rfl, h, fun mid rest hsplit => ?_, update_fixes _ msg t⟩
  rw [(List.append_eq_nil_iff.1 hsplit.symm).1]
  exact hlisted

/-! ## The invariant -/

/-- **The table behind calls.** -/
structure TableOk (calls : List (ℚ × Call)) : Prop where
  unique : ((run calls).aircraft.1.map AircraftEntry.reg).Nodup
  tracked : ∀ ac ∈ (run calls).aircraft.1, Tracked calls ac
  seen : ∀ ac ∈ (run calls).aircraft.1, lastHeard ac.reg calls = some ac.lastSeen

theorem lastHeard_own (calls : List (ℚ × Call)) (t : ℚ) (msg : AeroMessage) :
    lastHeard msg.reg (calls ++ [(t, .aero msg)]) = some t := by
  have happend : heardOf msg.reg (calls ++ [(t, .aero msg)]) = heardOf msg.reg calls ++ [(t, msg)] := by
    rw [← heardOf_own]
    exact List.filterMap_append
  rw [lastHeard, happend, List.getLast?_concat]
  rfl

theorem lastHeard_other (h : heardOf reg [call] = []) (calls : List (ℚ × Call)) :
    lastHeard reg (calls ++ [call]) = lastHeard reg calls := by
  have happend : heardOf reg (calls ++ [call]) = heardOf reg calls ++ heardOf reg [call] := List.filterMap_append
  rw [lastHeard, happend, h, List.append_nil, lastHeard]

/-- An entry of another aircraft. -/
theorem TableOk.other (h : TableOk calls) (hac : ac ∈ (run calls).aircraft.1) (hheard : heardOf ac.reg [call] = [])
    (hac' : ac ∈ (run (calls ++ [call])).aircraft.1) :
    Tracked (calls ++ [call]) ac ∧ lastHeard ac.reg (calls ++ [call]) = some ac.lastSeen := by
  refine ⟨(h.tracked ac hac).extend rfl ⟨ac, hac', rfl⟩ ?_, ?_⟩
  · rw [fixesOf, hheard, List.filterMap_nil, List.append_nil, rtake_self ac.fixes_le]
  · rw [lastHeard_other hheard, h.seen ac hac]

/-- **A message** whose entry goes between those of other aircraft. -/
theorem TableOk.insert (h : TableOk calls) {pre post : List AircraftEntry} {new : AircraftEntry}
    (htable : (run (calls ++ [(t, .aero msg)])).aircraft.1 = pre ++ new :: post)
    (hsub : (pre ++ post).Sublist (run calls).aircraft.1) (hother : ∀ ac ∈ pre ++ post, ac.reg ≠ msg.reg)
    (hreg : new.reg = msg.reg) (hseen : new.lastSeen = t)
    (htracked : Listed (run (calls ++ [(t, .aero msg)])).aircraft.1 msg.reg → Tracked (calls ++ [(t, .aero msg)]) new) :
    TableOk (calls ++ [(t, .aero msg)]) := by
  have hmem : ∀ ac, ac ∈ (run (calls ++ [(t, .aero msg)])).aircraft.1 ↔ ac = new ∨ ac ∈ pre ++ post := fun ac => by
    rw [htable, List.mem_append, List.mem_cons, List.mem_append]
    tauto
  have hcases : ∀ ac ∈ (run (calls ++ [(t, .aero msg)])).aircraft.1, Tracked (calls ++ [(t, .aero msg)]) ac ∧
      lastHeard ac.reg (calls ++ [(t, .aero msg)]) = some ac.lastSeen := by
    intro ac hac
    rcases (hmem ac).1 hac with rfl | hold
    · exact ⟨htracked ⟨ac, hac, hreg⟩, by rw [hreg, hseen, lastHeard_own]⟩
    · exact h.other (hsub.subset hold) (heardOf_other (hother ac hold).symm t) hac
  refine ⟨?_, fun ac hac => (hcases ac hac).1, fun ac hac => (hcases ac hac).2⟩
  rw [htable, List.map_append, List.map_cons, List.nodup_middle, List.nodup_cons, ← List.map_append]
  refine ⟨fun hin => ?_, h.unique.sublist (hsub.map _)⟩
  obtain ⟨ac, hac, heq⟩ := List.mem_map.1 hin
  exact hother ac hac (heq.trans hreg)

theorem run_aero (calls : List (ℚ × Call)) (t : ℚ) (msg : AeroMessage) :
    (run (calls ++ [(t, .aero msg)])).aircraft = webAddAero (run calls).aircraft msg t := by
  rw [run_append]
  rfl

/-- **One message** to the table. -/
theorem TableOk.aero (h : TableOk calls) (t : ℚ) (msg : AeroMessage) : TableOk (calls ++ [(t, .aero msg)]) := by
  have hrun := run_aero calls t msg
  rcases webAddAero_cases (run calls).aircraft msg t with ⟨pre, ac, post, htable, hreg, hnext⟩ | ⟨hnew, -, hnext⟩ |
    ⟨hnew, -, pre, old, post, htable, -, hnext⟩
  · -- the aircraft is known
    rw [← hrun] at hnext
    have hunique := h.unique
    rw [htable, List.map_append, List.map_cons, List.nodup_middle, List.nodup_cons, ← List.map_append] at hunique
    refine h.insert hnext (htable ▸ (List.sublist_cons_self ac post).append_left pre) (fun ac' hac' heq => ?_) hreg rfl
      fun hlisted => ?_
    · exact hunique.1 (List.mem_map.2 ⟨ac', hac', heq.trans hreg.symm⟩)
    · have hac : ac ∈ (run calls).aircraft.1 := by
        rw [htable]
        exact List.mem_append_right _ List.mem_cons_self
      refine (h.tracked ac hac).extend rfl (by rwa [hreg]) ?_
      rw [update_fixes, hreg]
  · -- there is room for a new one
    rw [← hrun] at hnext
    refine h.insert hnext (by rw [List.append_nil]) (fun ac hac heq => ?_) rfl rfl
      (tracked_fresh hnew)
    exact hnew ⟨ac, by rwa [List.append_nil] at hac, heq⟩
  · -- the oldest entry makes room
    rw [← hrun] at hnext
    have hsub : (pre ++ post).Sublist (run calls).aircraft.1 := htable ▸ (List.sublist_cons_self old post).append_left pre
    exact h.insert hnext hsub (fun ac hac heq => hnew ⟨ac, hsub.subset hac, heq⟩) rfl rfl (tracked_fresh hnew)

theorem tableOk_run (calls : List (ℚ × Call)) : TableOk calls := by
  induction calls using List.reverseRecOn with
  | nil =>
    exact ⟨List.nodup_nil, fun _ h => absurd h List.not_mem_nil, fun _ h => absurd h List.not_mem_nil⟩
  | append_singleton calls call ih =>
    obtain ⟨t, call⟩ := call
    cases call with
    | aero msg => exact ih.aero t msg
    | stdc msg =>
      have htable : (run (calls ++ [(t, .stdc msg)])).aircraft = (run calls).aircraft := by
        rw [run_append]
        rfl
      refine ⟨by rw [htable]; exact ih.unique, fun ac hac => ?_, fun ac hac => ?_⟩
      · exact (ih.other (by rwa [htable] at hac) rfl hac).1
      · exact (ih.other (by rwa [htable] at hac) rfl hac).2

/-! ## Evictions -/

/-- The time of an entry is that of a call. -/
theorem seen_mem {x : ℚ} (h : lastHeard reg calls = some x) : ∃ msg, (x, Call.aero msg) ∈ calls ∧ msg.reg = reg := by
  obtain ⟨⟨x', msg⟩, hlast, rfl⟩ := Option.map_eq_some_iff.1 h
  obtain ⟨⟨t, call⟩, hcall, hheard⟩ := List.mem_filterMap.1 (List.mem_of_getLast? hlast)
  cases call with
  | stdc _ => exact absurd hheard (Option.some_ne_none _).symm
  | aero msg' =>
    have hif : (if msg'.reg = reg then some (t, msg') else none) = some (x', msg) := hheard
    split at hif
    · rename_i hreg
      injection hif with hif
      injection hif with ht hmsg
      exact ⟨msg', ht ▸ hcall, hreg⟩
    · cases hif

/-- **The entry that makes room** was seen before all others, at times that increase and are not beyond the start
value of the loop. -/
theorem evict_least (hinc : calls.Pairwise fun a b => a.1 < b.1) (hlt : ∀ call ∈ calls, call.1 < 10 ^ 18)
    {pre post : List AircraftEntry} {old : AircraftEntry} (htable : (run calls).aircraft.1 = pre ++ old :: post)
    (hlen : pre.length = oldestLoop 0 (10 ^ 18) 0 (run calls).aircraft.1) : ∀ ac ∈ pre ++ post, old.lastSeen < ac.lastSeen := by
  have hok := tableOk_run calls
  have hmem : ∀ ac, ac = old ∨ ac ∈ pre ++ post → ac ∈ (run calls).aircraft.1 := fun ac h => by
    rw [htable, List.mem_append, List.mem_cons]
    rw [List.mem_append] at h
    tauto
  -- the loop found an entry, since all of them were seen in time
  have hle : ∀ ac ∈ (run calls).aircraft.1, old.lastSeen ≤ ac.lastSeen := by
    rcases oldestLoop_spec 0 (10 ^ 18) 0 (run calls).aircraft.1 with ⟨-, hall⟩ | ⟨pre', old', post', htable', heq, -, hall⟩
    · obtain ⟨msg, hcall, -⟩ := seen_mem (hok.seen old (hmem old (Or.inl rfl)))
      exact absurd (hall old (hmem old (Or.inl rfl))) (not_le.2 (hlt _ hcall))
    · have hsame := htable.symm.trans htable'
      have hpre : pre = pre' := List.append_inj_left hsame (by omega)
      rw [hpre] at hsame
      rw [(List.cons.inj (List.append_cancel_left hsame)).1]
      exact hall
  intro ac hac
  refine lt_of_le_of_ne (hle ac (hmem ac (Or.inr hac))) fun heq => ?_
  -- two entries of one time would be of one call
  obtain ⟨msg, hcall, hreg⟩ := seen_mem (hok.seen old (hmem old (Or.inl rfl)))
  obtain ⟨msg', hcall', hreg'⟩ := seen_mem (hok.seen ac (hmem ac (Or.inr hac)))
  have hnodup : (calls.map Prod.fst).Nodup := (List.pairwise_map.2 hinc).imp fun h => ne_of_lt h
  have hone := List.inj_on_of_nodup_map hnodup hcall hcall' heq
  injection hone with _ hone
  injection hone with hone
  have hunique := hok.unique
  rw [htable, List.map_append, List.map_cons, List.nodup_middle, List.nodup_cons, ← List.map_append] at hunique
  exact hunique.1 (List.mem_map.2 ⟨ac, hac, by rw [← hreg', ← hone, hreg]⟩)

/-! ## Runs -/

/-- **What is asked of the state behind calls.** -/
structure WebOk (calls : List (ℚ × Call)) : Prop where
  unique : ((run calls).aircraft.1.map AircraftEntry.reg).Nodup
  bound : (run calls).aircraft.1.length ≤ 256
  /-- An entry has the time of the last message of its aircraft. -/
  seen : ∀ ac ∈ (run calls).aircraft.1, lastHeard ac.reg calls = some ac.lastSeen
  /-- A message of a new aircraft when the table is full: the aircraft that was seen before all others is
  replaced, by an entry that has only the data of the message. -/
  evicts : ∀ before t msg after, calls = before ++ (t, .aero msg) :: after → (run before).aircraft.1.length = 256 →
    ¬Listed (run before).aircraft.1 msg.reg → ∃ pre old post, (run before).aircraft.1 = pre ++ old :: post ∧
      (run (before ++ [(t, .aero msg)])).aircraft.1 = pre ++ freshEntry msg t :: post ∧
      ∀ ac ∈ pre ++ post, old.lastSeen < ac.lastSeen
  /-- The fixes of an entry are the last ones since the call that made it. -/
  tracked : ∀ ac ∈ (run calls).aircraft.1, Tracked calls ac
  stdc : (run calls).stdcEntries = (stdcOf calls).rtake 200

/-- **The table and the list of messages** are what the calls so far make them. -/
theorem web_run (calls : List (ℚ × Call)) (hinc : calls.Pairwise fun a b => a.1 < b.1)
    (hlt : ∀ call ∈ calls, call.1 < 10 ^ 18) : WebOk calls where
  unique := (tableOk_run calls).unique
  bound := (run calls).aircraft.2
  seen := (tableOk_run calls).seen
  evicts before t msg after hcalls hfull hnew := by
    have hsub : before.Sublist calls := hcalls ▸ List.sublist_append_left _ _
    rcases webAddAero_cases (run before).aircraft msg t with ⟨pre, ac, post, htable, hreg, -⟩ | ⟨-, hroom, -⟩ |
      ⟨-, -, pre, old, post, htable, hlen, hnext⟩
    · exact absurd ⟨ac, htable ▸ List.mem_append_right _ List.mem_cons_self, hreg⟩ hnew
    · exact absurd hfull hroom.ne
    · refine ⟨pre, old, post, htable, by rw [run_aero]; exact hnext, ?_⟩
      exact evict_least (hinc.sublist hsub) (fun call hcall => hlt call (hsub.subset hcall)) htable hlen
  tracked := (tableOk_run calls).tracked
  stdc := stdcEntries_run calls

/-! ## The far future -/

/-- A message of aircraft `k`, without a position. -/
def blankMessage (k : ℕ) : AeroMessage where
  reg := copyText 15 [UInt8.ofNat (0x41 + k / 16), UInt8.ofNat (0x41 + k % 16)]
  flight := copyText 15 []
  label := copyText 3 []
  mode := 0
  blockId := 0
  ack := 0
  text := []
  channelId := 0
  aesId := 0
  gesId := 0
  qno := 0
  refno := 0
  downlink := true
  arinc622Json := none
  position := none
  altFt := 0

/-- Two messages of one aircraft, and one of another. -/
theorem twoAircraft_ok : WebOk [(0, .aero (blankMessage 0)), (1, .aero (blankMessage 1)), (2, .aero (blankMessage 0))] :=
  web_run _ (by decide) (by decide)

/-- One aircraft after the other is heard, from 10^18 seconds on. -/
def farCall (k : ℕ) : ℚ × Call := (10 ^ 18 + 128 * (k : ℚ), .aero (blankMessage k))

def farCalls (n : ℕ) : List (ℚ × Call) := (List.range n).map farCall

theorem blankMessage_inj {i j : ℕ} (hi : i < 258) (hj : j < 258) (h : (blankMessage i).reg = (blankMessage j).reg) : i = j := by
  have hreg : ∀ k < 258, (blankMessage k).reg.1.map UInt8.toNat = [0x41 + k / 16, 0x41 + k % 16] := by decide +kernel
  have hmap : (blankMessage i).reg.1.map UInt8.toNat = (blankMessage j).reg.1.map UInt8.toNat := by rw [h]
  rw [hreg i hi, hreg j hj] at hmap
  injection hmap with hdiv hmod
  injection hmod with hmod
  omega

theorem farCalls_succ (n : ℕ) : farCalls (n + 1) = farCalls n ++ [farCall n] := by
  unfold farCalls
  rw [List.range_succ, List.map_append, List.map_singleton]

/-- Nothing is found before the start value of the loop, so the first entry makes room. -/
theorem evict_far (msg : AeroMessage) (t : ℚ) (hfar : ∀ call ∈ calls, 10 ^ 18 ≤ call.1) (hfull : (run calls).aircraft.1.length = 256)
    (hnew : ¬Listed (run calls).aircraft.1 msg.reg) : ∃ old post, (run calls).aircraft.1 = old :: post ∧
      (run (calls ++ [(t, .aero msg)])).aircraft.1 = freshEntry msg t :: post := by
  have hzero : oldestLoop 0 (10 ^ 18) 0 (run calls).aircraft.1 = 0 := by
    rcases oldestLoop_spec 0 (10 ^ 18) 0 (run calls).aircraft.1 with ⟨h0, -⟩ | ⟨pre, ac, post, htable, -, hlt, -⟩
    · exact h0
    · have hac : ac ∈ (run calls).aircraft.1 := htable ▸ List.mem_append_right _ List.mem_cons_self
      obtain ⟨msg, hcall, -⟩ := seen_mem ((tableOk_run calls).seen ac hac)
      exact absurd (hfar _ hcall) (not_le.2 hlt)
  rcases webAddAero_cases (run calls).aircraft msg t with ⟨pre, ac, post, htable, hreg, -⟩ | ⟨-, hroom, -⟩ |
    ⟨-, -, pre, old, post, htable, hlen, hnext⟩
  · exact absurd ⟨ac, htable ▸ List.mem_append_right _ List.mem_cons_self, hreg⟩ hnew
  · exact absurd hfull hroom.ne
  · rw [hzero] at hlen
    rw [List.eq_nil_of_length_eq_zero hlen] at htable hnext
    exact ⟨old, post, htable, by rw [run_aero]; exact hnext⟩

/-- The table of the first aircraft. -/
theorem farTable (n : ℕ) (hn : n ≤ 256) :
    (run (farCalls n)).aircraft.1 = (List.range n).map fun k => freshEntry (blankMessage k) (farCall k).1 := by
  induction n with
  | zero => rfl
  | succ n ih =>
    have htable := ih (by omega)
    have hnew : ¬Listed (run (farCalls n)).aircraft.1 (blankMessage n).reg := by
      rintro ⟨ac, hac, hreg⟩
      rw [htable] at hac
      obtain ⟨k, hk, rfl⟩ := List.mem_map.1 hac
      rw [List.mem_range] at hk
      have := blankMessage_inj (by omega) (by omega) hreg
      omega
    have hlen : (run (farCalls n)).aircraft.1.length = n := by rw [htable, List.length_map, List.length_range]
    rw [farCalls_succ, farCall, run_aero]
    rcases webAddAero_cases (run (farCalls n)).aircraft (blankMessage n) (farCall n).1 with
      ⟨pre, ac, post, hsplit, hreg, -⟩ | ⟨-, -, hnext⟩ | ⟨-, hfull, -⟩
    · exact absurd ⟨ac, hsplit ▸ List.mem_append_right _ List.mem_cons_self, hreg⟩ hnew
    · refine hnext.trans ?_
      rw [htable, List.range_succ, List.map_append, List.map_singleton]
    · rw [hlen] at hfull
      have hmax : maxAircraft = 256 := rfl
      omega

theorem farCalls_far (n : ℕ) : ∀ call ∈ farCalls n, 10 ^ 18 ≤ call.1 := by
  intro call hcall
  obtain ⟨k, -, rfl⟩ := List.mem_map.1 hcall
  exact le_add_of_nonneg_right (by positivity)

theorem farCalls_increasing (n : ℕ) : (farCalls n).Pairwise fun a b => a.1 < b.1 := by
  unfold farCalls
  rw [List.pairwise_map]
  refine List.pairwise_lt_range.imp fun {i j} hij => ?_
  have hcast : (i : ℚ) < j := Nat.cast_lt.2 hij
  unfold farCall
  linarith

/-- **From 10^18 seconds on** the aircraft that was heard last is replaced, and not the one that was heard first. -/
theorem farFuture_evicts : ¬∀ calls : List (ℚ × Call), (calls.Pairwise fun a b => a.1 < b.1) → WebOk calls := by
  intro h
  -- the table is full of the first aircraft, and one of them makes room
  have htable := farTable 256 le_rfl
  have hlisted : ∀ j, 256 ≤ j → j < 258 → ∀ ac ∈ (run (farCalls 256)).aircraft.1, ac.reg ≠ (blankMessage j).reg := by
    intro j hj hj' ac hac hreg
    rw [htable] at hac
    obtain ⟨k, hk, rfl⟩ := List.mem_map.1 hac
    rw [List.mem_range] at hk
    have := blankMessage_inj (by omega) hj' hreg
    omega
  obtain ⟨old, post, hold, hnext⟩ := evict_far (blankMessage 256) (farCall 256).1 (farCalls_far 256)
    (by rw [htable, List.length_map, List.length_range])
    fun ⟨ac, hac, hreg⟩ => hlisted 256 le_rfl (by decide) ac hac hreg
  have hrun : farCalls 256 ++ [((farCall 256).1, .aero (blankMessage 256))] = farCalls 257 := (farCalls_succ 256).symm
  rw [hrun] at hnext
  have hpost : ∀ ac ∈ post, ac ∈ (run (farCalls 256)).aircraft.1 := fun ac hac => hold ▸ List.mem_cons_of_mem old hac
  have hsecond : freshEntry (blankMessage 1) (farCall 1).1 ∈ post := by
    have hhead : old = freshEntry (blankMessage 0) (farCall 0).1 := by
      have hhead? := congrArg List.head? (hold.symm.trans htable)
      exact Option.some.inj hhead?
    have hmem : freshEntry (blankMessage 1) (farCall 1).1 ∈ (run (farCalls 256)).aircraft.1 := by
      rw [htable]
      exact List.mem_map.2 ⟨1, List.mem_range.2 (by decide), rfl⟩
    rw [hold, List.mem_cons] at hmem
    refine hmem.resolve_left fun heq => ?_
    have hreg : (blankMessage 1).reg = (blankMessage 0).reg := congrArg AircraftEntry.reg (heq.trans hhead)
    exact absurd (blankMessage_inj (by decide) (by decide) hreg) (by decide)
  -- the next one replaces the aircraft that was heard just before
  have hfull : (run (farCalls 257)).aircraft.1.length = 256 := by
    have hlen := congrArg List.length hold
    rw [htable, List.length_map, List.length_range, List.length_cons] at hlen
    rw [hnext, List.length_cons]
    omega
  have hnew : ¬Listed (run (farCalls 257)).aircraft.1 (blankMessage 257).reg := by
    rintro ⟨ac, hac, hreg⟩
    rw [hnext, List.mem_cons] at hac
    rcases hac with rfl | hac
    · exact absurd (blankMessage_inj (by decide) (by decide) hreg) (by decide)
    · exact hlisted 257 (by decide) (by decide) ac (hpost ac hac) hreg
  obtain ⟨old', post', hold', hnext'⟩ := evict_far (blankMessage 257) (farCall 257).1 (farCalls_far 257) hfull hnew
  obtain ⟨pre, least, rest, hsplit, hresult, hleast⟩ := (h (farCalls 258) (farCalls_increasing 258)).evicts (farCalls 257)
    (farCall 257).1 (blankMessage 257) [] (farCalls_succ 257) hfull hnew
  rw [hnext'] at hresult
  rw [hnext] at hsplit
  cases pre with
  | nil =>
    obtain ⟨hfirst, hrest⟩ := List.cons.inj hsplit
    have hlt := hleast _ (by rw [List.nil_append, ← hrest]; exact hsecond)
    rw [← hfirst] at hlt
    have htimes : (10 : ℚ) ^ 18 + 128 * (256 : ℕ) < 10 ^ 18 + 128 * (1 : ℕ) := hlt
    norm_num at htimes
  | cons x pre =>
    -- then the new entry would have been in the table
    have hx := (List.cons.inj hresult).1
    have hx' := (List.cons.inj hsplit).1
    have hreg : (blankMessage 257).reg = (blankMessage 256).reg := congrArg AircraftEntry.reg (hx.trans hx'.symm)
    exact absurd (blankMessage_inj (by decide) (by decide) hreg) (by decide)

end InmarsatSniffer.Web
