import DistCache.Lib.Machine
import DistCache.Network.Concurrency

/-!
# What becomes of every client's commands

Whatever the schedule, the log is an interleaving of what the clients write: restricted to one
client, the commands that are logged, the one in flight and those still to be sent are the writes of
this client, in its own order (`pending_step`, `replay_run_start`). Nothing is lost, logged twice,
or moved past another command of its client. `Concurrency` shows what may still go wrong, the order
*between* clients.
-/

namespace DistCache

/-- The command leaves something in the log. -/
def Command.isWrite (c : Command) : Bool := !c.records.isEmpty

/-- The log of well-formed commands is read back as their records. -/
theorem replayText_records {commands : List Command} (h : ∀ c ∈ commands, c.WellFormed) :
    replayText (WAL.textOf (commands.flatMap Command.records)) =
      commands.flatMap Command.records := by
  refine replayText_textOf_of_roundTrips fun r hr ↦ ?_
  obtain ⟨c, hc, hr⟩ := List.mem_flatMap.1 hr
  exact ((h c hc).records r hr).roundTrips

namespace System

variable {ι : Type*} [DecidableEq ι]

/-- What concerns client `i`. -/
def ofClient {γ : Type*} (i : ι) (l : List (ι × γ)) : List γ :=
  (l.filter fun p ↦ p.1 = i).map Prod.snd

section OfClient

variable {γ : Type*} (i j : ι)

@[simp] theorem ofClient_nil : ofClient i ([] : List (ι × γ)) = [] := rfl

theorem ofClient_append (l l' : List (ι × γ)) :
    ofClient i (l ++ l') = ofClient i l ++ ofClient i l' := by
  rw [ofClient, List.filter_append, List.map_append, ofClient, ofClient]

@[simp] theorem ofClient_singleton_self (c : γ) : ofClient i [(i, c)] = [c] := by
  simp [ofClient]

variable {i j}

theorem ofClient_singleton_of_ne (h : j ≠ i) (c : γ) : ofClient i [(j, c)] = [] := by
  simp [ofClient, h]

theorem mem_ofClient {l : List (ι × γ)} {p : ι × γ} (h : p ∈ l) : p.2 ∈ ofClient p.1 l :=
  List.mem_map_of_mem (List.mem_filter.2 ⟨h, by simp⟩)

theorem ofClient_eq_nil {l : List (ι × γ)} : ofClient i l = [] ↔ ∀ p ∈ l, p.1 ≠ i := by
  simp [ofClient, List.filter_eq_nil_iff]

end OfClient

/-- The command a step logs, with its client. -/
def logs (s : System ι) (t : Turn ι) : List (ι × Command) :=
  match s.move t.client with
  | .log c => [(t.client, c)]
  | _ => []

/-- The commands a schedule logs, in the order of the log. -/
def logged (s : System ι) (schedule : List (Turn ι)) : List (ι × Command) :=
  Machine.outputs step logs s schedule

/-- What client `i` still has to log. -/
def pending (s : System ι) (i : ι) : List Command :=
  ofClient i s.inFlight ++ (s.todo i).filter Command.isWrite

/-! ### One step -/

/-- A client that takes a command to the cache has nothing in flight. -/
theorem move_eq_enter_iff {s : System ι} {i : ι} {c : Command} :
    s.move i = .enter c ↔ ofClient i s.inFlight = [] ∧ ∃ rest, s.todo i = c :: rest := by
  rw [ofClient_eq_nil, move]
  rcases hf : s.inFlight.find? (fun p ↦ p.1 = i) with - | p
  · have hnone : ∀ p ∈ s.inFlight, p.1 ≠ i := by simpa using List.find?_eq_none.1 hf
    rw [hf, and_iff_right hnone]
    rcases s.todo i with - | ⟨c', rest⟩ <;> simp
  · have hp : p.1 = i := by simpa using List.find?_some hf
    rw [hf]
    exact iff_of_false (by simp) fun h ↦ h.1 p (List.mem_of_find?_eq_some hf) hp

/-- The client of a step takes `c` from the front of its commands. -/
theorem todo_enter {s : System ι} {t : Turn ι} {c : Command} (h : s.move t.client = .enter c)
    (i : ι) : s.todo i = (if i = t.client then [c] else []) ++ (s.step t).todo i := by
  obtain ⟨-, rest, htodo⟩ := move_eq_enter_iff.1 h
  rw [step_of_enter h]
  show s.todo i = _ ++ Function.update s.todo t.client (s.todo t.client).tail i
  rcases eq_or_ne i t.client with rfl | hi
  · rw [Function.update_self, htodo, if_pos rfl]
    rfl
  · rw [Function.update_of_ne hi, if_neg hi, List.nil_append]

/-- What a step leaves in flight for a client, when it takes `c` to the cache. -/
theorem ofClient_enter {s : System ι} {t : Turn ι} {c : Command}
    (h : s.move t.client = .enter c) (i : ι) :
    ofClient i (s.step t).inFlight =
      ofClient i s.inFlight ++ if i = t.client ∧ c.isWrite = true then [c] else [] := by
  rw [step_of_enter h]
  rcases hnil : c.records.isEmpty with - | -
  · have hwrite : c.isWrite = true := by simp [Command.isWrite, hnil]
    rw [if_neg (by simp), ofClient_append]
    rcases eq_or_ne i t.client with rfl | hi
    · simp [hwrite]
    · simp [hi, ofClient_singleton_of_ne (Ne.symm hi)]
  · have hread : ¬ (i = t.client ∧ c.isWrite = true) := by simp [Command.isWrite, hnil]
    rw [if_pos rfl, if_neg hread, List.append_nil]

/-- The client of a step logs the first command it has in flight. -/
theorem ofClient_log {s : System ι} {t : Turn ι} {c : Command} (h : s.move t.client = .log c)
    (i : ι) : ofClient i s.inFlight =
      (if i = t.client then [c] else []) ++ ofClient i (s.step t).inFlight := by
  obtain ⟨earlier, later, hsplit, htake, herase⟩ := move_eq_log h
  have hearlier : ofClient t.client earlier = [] :=
    ofClient_eq_nil.2 fun p hp ↦ by
      rw [← htake] at hp
      simpa using List.mem_takeWhile_imp hp
  have hcons : (t.client, c) :: later = [(t.client, c)] ++ later := rfl
  rw [step_of_log h, herase, hsplit, hcons]
  simp only [ofClient_append]
  rcases eq_or_ne i t.client with rfl | hi
  · rw [hearlier, ofClient_singleton_self, if_pos rfl, List.nil_append, List.nil_append]
  · rw [ofClient_singleton_of_ne (Ne.symm hi), if_neg hi, List.nil_append, List.nil_append]

/-- **One step** logs the first of what its client still has to log, or nothing. -/
theorem pending_step (i : ι) (s : System ι) (t : Turn ι) :
    ofClient i (s.logs t) ++ (s.step t).pending i = s.pending i := by
  rcases hmove : s.move t.client with - | c | c
  · rw [logs, step, hmove]
    rfl
  · -- the command moves from the front of `todo` to the end of what is in flight
    have hlogs : s.logs t = [] := by rw [logs, hmove]
    rw [hlogs, ofClient_nil, List.nil_append, pending, ofClient_enter hmove, pending,
      todo_enter hmove i]
    rcases eq_or_ne i t.client with rfl | hi
    · rw [(move_eq_enter_iff.1 hmove).1, List.nil_append, List.nil_append, if_pos rfl,
        List.filter_append]
      by_cases hwrite : c.isWrite = true <;> simp [hwrite]
    · simp [hi]
  · have hlogs : s.logs t = [(t.client, c)] := by rw [logs, hmove]
    have htodo : (s.step t).todo i = s.todo i := by rw [step_of_log hmove]
    rw [hlogs, pending, pending, htodo, ofClient_log hmove i, List.append_assoc]
    rcases eq_or_ne i t.client with rfl | hi
    · rw [ofClient_singleton_self, if_pos rfl]
    · rw [ofClient_singleton_of_ne (Ne.symm hi), if_neg hi]

/-- A step leaves at most one command of each client in flight. -/
theorem length_ofClient_inFlight_step {s : System ι} {i : ι}
    (h : (ofClient i s.inFlight).length ≤ 1) (t : Turn ι) :
    (ofClient i (s.step t).inFlight).length ≤ 1 := by
  rcases hmove : s.move t.client with - | c | c
  · rwa [step, hmove]
  · rw [ofClient_enter hmove]
    split_ifs with hi
    · obtain ⟨rfl, -⟩ := hi
      rw [(move_eq_enter_iff.1 hmove).1]
      exact le_rfl
    · rwa [List.append_nil]
  · obtain ⟨earlier, later, hsplit, -, herase⟩ := move_eq_log hmove
    rw [step_of_log hmove, herase]
    refine le_trans (List.Sublist.length_le ?_) h
    rw [hsplit]
    exact ((List.Sublist.refl earlier).append (List.sublist_cons_self _ later)).filter _ |>.map _

/-! ### A run -/

/-- **A run** logs what its clients have to log, in their order, and leaves the rest. -/
theorem pending_run (s : System ι) (schedule : List (Turn ι)) (i : ι) :
    ofClient i (s.logged schedule) ++ (s.run schedule).pending i = s.pending i :=
  Machine.outputs_append_stock (ofClient i) (ofClient_nil i) (ofClient_append i)
    (fun s ↦ s.pending i) (pending_step i) s schedule

theorem length_ofClient_inFlight_run {s : System ι} {i : ι}
    (h : (ofClient i s.inFlight).length ≤ 1) (schedule : List (Turn ι)) :
    (ofClient i (s.run schedule).inFlight).length ≤ 1 := by
  induction schedule generalizing s with
  | nil => exact h
  | cons t schedule ih => exact ih (length_ofClient_inFlight_step h t)

/-! ### From the start -/

/-- What a step logs is added to what the log holds. -/
theorem Logs.step {s : System ι} {commands : List Command} (h : Logs s commands) (t : Turn ι) :
    Logs (s.step t) (commands ++ (s.logs t).map Prod.snd) := by
  rcases hmove : s.move t.client with - | c | c
  · have hlogs : s.logs t = [] := by rw [logs, hmove]
    rw [hlogs, List.map_nil, List.append_nil, System.step, hmove]
    exact h
  · have hlogs : s.logs t = [] := by rw [logs, hmove]
    rw [hlogs, List.map_nil, List.append_nil]
    exact h.enter hmove
  · have hlogs : s.logs t = [(t.client, c)] := by rw [logs, hmove]
    rw [hlogs]
    exact h.log hmove

/-- What is logged is what the log holds. -/
theorem logs_run {s : System ι} {commands : List Command} (h : Logs s commands)
    (schedule : List (Turn ι)) :
    Logs (s.run schedule) (commands ++ (s.logged schedule).map Prod.snd) := by
  induction schedule generalizing s commands with
  | nil =>
    rw [logged, Machine.outputs, List.map_nil, List.append_nil]
    exact h
  | cons t schedule ih =>
    have hlogged : s.logged (t :: schedule) = s.logs t ++ (s.step t).logged schedule := rfl
    rw [hlogged, List.map_append, ← List.append_assoc]
    exact ih (h.step t)

omit [DecidableEq ι] in
theorem Logs.replay_eq {s : System ι} {commands : List Command} (h : Logs s commands) :
    s.wal.replay = commands.flatMap Command.records := by
  rw [WAL.replay, h.file]
  exact replayText_records h.logged_wellFormed

/-- **The log is an interleaving of the clients' writes.** In every state of every schedule, the log
reads back as the commands logged so far, and for each client these, the at most one it has in
flight and those it has not sent yet are its writes, in its order. -/
theorem replay_run_start (capacity : ℕ) (filename : Bytes) (todo : ι → List Command)
    (schedule : List (Turn ι)) (hwf : ∀ i, ∀ c ∈ todo i, c.WellFormed) :
    let s := (start capacity filename todo).run schedule
    let logged := (start capacity filename todo).logged schedule
    s.wal.replay = (logged.map Prod.snd).flatMap Command.records ∧
      ∀ i, (ofClient i s.inFlight).length ≤ 1 ∧
        ofClient i logged ++ ofClient i s.inFlight ++ (s.todo i).filter Command.isWrite =
          (todo i).filter Command.isWrite := by
  intro s logged
  refine ⟨?_, fun i ↦ ⟨?_, ?_⟩⟩
  · have hlogs := logs_run (logs_start capacity filename hwf) schedule
    rw [List.nil_append] at hlogs
    exact hlogs.replay_eq
  · have hnone : (ofClient i (start capacity filename todo).inFlight).length ≤ 1 := Nat.zero_le 1
    exact length_ofClient_inFlight_run hnone schedule
  · rw [List.append_assoc]
    exact pending_run _ schedule i

/-- Two clients, cut off when one has a command in flight and the other is done. -/
theorem replay_run_start_two :
    let todo : Bool → List Command := fun i ↦
      if i then [.set [107] [1], .get [108]] else [.del [107], .set [108] [2]]
    let s := (start 4 [] todo).run
      [⟨false, 0, 0⟩, ⟨true, 1, 1⟩, ⟨true, 2, 2⟩, ⟨true, 3, 3⟩, ⟨false, 4, 4⟩, ⟨false, 5, 5⟩]
    s.wal.replay = [⟨setCmd, [107], [1]⟩, ⟨delCmd, [107], []⟩] ∧
      ofClient false s.inFlight = [.set [108] [2]] := by
  intro todo s
  have h := replay_run_start 4 [] todo [⟨false, 0, 0⟩, ⟨true, 1, 1⟩, ⟨true, 2, 2⟩, ⟨true, 3, 3⟩,
    ⟨false, 4, 4⟩, ⟨false, 5, 5⟩] (by decide)
  exact ⟨h.1.trans (by decide), by decide⟩

end System

end DistCache
