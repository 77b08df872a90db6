import DistCache.Lib.Machine
import DistCache.Recovery
import Mathlib.Logic.Function.Basic

/-!
# Clients of one server, interleaved

`process_command` takes the lock of the cache and the lock of the log one after the other, so
between its two steps other clients may act. The model keeps the commands that are in between
(`inFlight`), in the order in which they reached the cache; a schedule says which client moves next,
and nothing else is synchronised. Two moves of one client in a row are a call of `process_command`
(`step_step`).

At every moment the log, followed by the commands in flight, says what is in the cache
(`Tracks`). An append keeps this up when the command may as well be logged first, that is, when no
command on the same key reached the cache earlier and still waits, unless it is the same write
(`InOrder`). Under this condition log and cache agree whenever nothing is in flight
(`recover_eq_of_inOrder`). Nothing in the server enforces it: `recover_ne_of_overtaking` shows two
clients whose writes to one key reach the cache in one order and the log in the other.
-/

namespace DistCache

open Recency (HasRoom Roomy applyAll overwrite)

/-- A server and its clients: what is left for each client to send, and the commands that have
changed the cache but are not logged yet, in the order in which they did. -/
structure System (ι : Type*) where
  cache : SafeCache
  wal : WAL
  todo : ι → List Command
  inFlight : List (ι × Command)

/-- A move of a client, with the readings of the cache call, if it makes one. -/
structure Turn (ι : Type*) where
  client : ι
  now : Time
  access : Time

/-- What a client does next. -/
inductive Move where
  | idle
  | enter (c : Command)
  | log (c : Command)
  deriving DecidableEq, Repr

theorem Command.key_of_mem_writes {c : Command} {w : Recency.Write Bytes Bytes}
    (h : w ∈ c.writes) : w.key = c.key := by
  cases c with
  | set key value => rw [List.mem_singleton.1 h]; rfl
  | get key => exact absurd h List.not_mem_nil
  | del key => rw [List.mem_singleton.1 h]; rfl

/-- A command that is logged leaves one record and makes one write. -/
theorem Command.of_records_ne_nil {c : Command} (h : c.records ≠ []) :
    c.records = [⟨c.cmd, c.key, c.value⟩] ∧ ∃ w, c.writes = [w] := by
  cases c with
  | set key value => exact ⟨rfl, _, rfl⟩
  | get key => exact absurd rfl h
  | del key => exact ⟨rfl, _, rfl⟩

namespace System

variable {ι : Type*} [DecidableEq ι]

/-- A client with a command in flight logs it; else it takes its next command to the cache. -/
def move (s : System ι) (i : ι) : Move :=
  match s.inFlight.find? fun p ↦ p.1 = i with
  | some p => .log p.2
  | none =>
    match s.todo i with
    | [] => .idle
    | c :: _ => .enter c

/-- One atomic step: the locked part of `cache_.set`, `cache_.get` or `cache_.del`, or of
`wal_.append` with the end of the command. -/
def step (s : System ι) (t : Turn ι) : System ι :=
  match s.move t.client with
  | .idle => s
  | .enter c => { s with
      cache := s.cache.step (c.call t.now t.access)
      todo := Function.update s.todo t.client (s.todo t.client).tail
      inFlight := if c.records.isEmpty then s.inFlight else s.inFlight ++ [(t.client, c)] }
  | .log c => { s with
      wal := (TCPServer.logWrite ⟨s.cache, s.wal⟩ c.cmd c.key c.value).1.wal
      inFlight := s.inFlight.eraseP fun p ↦ p.1 = t.client }

/-- The state after a schedule. -/
def run (s : System ι) (schedule : List (Turn ι)) : System ι := schedule.foldl step s

/-- The start: an empty cache, an empty log, and clients with their commands. -/
def start (capacity : ℕ) (filename : Bytes) (todo : ι → List Command) : System ι where
  cache := SafeCache.new capacity
  wal := { filename, file := [], isOpen := true, openable := true }
  todo
  inFlight := []

/-- A condition on every step of a schedule, in the state before it. -/
def Always (P : System ι → ι → Prop) (s : System ι) (schedule : List (Turn ι)) : Prop :=
  Machine.Along step (fun s t ↦ P s t.client) s schedule

instance (P : System ι → ι → Prop) [∀ s i, Decidable (P s i)] (s : System ι)
    (schedule : List (Turn ι)) : Decidable (Always P s schedule) :=
  Machine.decidableAlong step (fun s t ↦ P s t.client) s schedule

/-- The step evicts nothing from the cache. -/
def EvictsNothing (s : System ι) (i : ι) : Prop :=
  match s.move i with
  | .enter c => Roomy s.cache.capacity s.cache.data c.writes
  | _ => True

/-- The step does not log a command ahead of a different write to the same key that reached the
cache earlier. -/
def InOrder (s : System ι) (i : ι) : Prop :=
  match s.move i with
  | .log c => ∀ p ∈ s.inFlight.takeWhile fun p ↦ p.1 ≠ i, p.2.key = c.key → p.2.writes = c.writes
  | _ => True

instance (s : System ι) (i : ι) : Decidable (EvictsNothing s i) := by
  unfold EvictsNothing
  split <;> infer_instance

instance (s : System ι) (i : ι) : Decidable (InOrder s i) := by
  unfold InOrder
  split <;> infer_instance

/-! ### What a step does -/

/-- The command a client logs is the one it has in flight; `earlier` reached the cache before. -/
theorem move_eq_log {s : System ι} {i : ι} {c : Command} (h : s.move i = .log c) :
    ∃ earlier later, s.inFlight = earlier ++ (i, c) :: later ∧
      (s.inFlight.takeWhile fun p ↦ p.1 ≠ i) = earlier ∧
      (s.inFlight.eraseP fun p ↦ p.1 = i) = earlier ++ later := by
  rw [move] at h
  rcases hf : s.inFlight.find? (fun p ↦ p.1 = i) with - | ⟨j, c'⟩
  · rw [hf] at h
    cases ht : s.todo i <;> simp [ht] at h
  · rw [hf] at h
    obtain rfl : c' = c := Move.log.inj h
    obtain ⟨hj, earlier, later, hsplit, hne⟩ := List.find?_eq_some_iff_append.1 hf
    obtain rfl : j = i := by simpa using hj
    refine ⟨earlier, later, hsplit, ?_, ?_⟩
    · rw [hsplit, List.takeWhile_append_of_pos (by simpa using hne),
        List.takeWhile_cons_of_neg (by simp), List.append_nil]
    · rw [hsplit, List.eraseP_append_right _ (by simpa using hne),
        List.eraseP_cons_of_pos (by simp)]

theorem move_eq_enter {s : System ι} {i : ι} {c : Command} (h : s.move i = .enter c) :
    c ∈ s.todo i := by
  rw [move] at h
  rcases hf : s.inFlight.find? (fun p ↦ p.1 = i) with - | p
  · rw [hf] at h
    cases ht : s.todo i with
    | nil => simp [ht] at h
    | cons c' rest =>
      simp only [ht, Move.enter.injEq] at h
      exact h ▸ List.mem_cons_self
  · rw [hf] at h
    exact absurd h (by simp)

theorem step_of_enter {s : System ι} {t : Turn ι} {c : Command}
    (h : s.move t.client = .enter c) : s.step t = { s with
      cache := s.cache.step (c.call t.now t.access)
      todo := Function.update s.todo t.client (s.todo t.client).tail
      inFlight := if c.records.isEmpty then s.inFlight else s.inFlight ++ [(t.client, c)] } := by
  rw [step, h]

theorem step_of_log {s : System ι} {t : Turn ι} {c : Command} (h : s.move t.client = .log c) :
    s.step t = { s with
      wal := (TCPServer.logWrite ⟨s.cache, s.wal⟩ c.cmd c.key c.value).1.wal
      inFlight := s.inFlight.eraseP fun p ↦ p.1 = t.client } := by
  rw [step, h]

/-- **Alone, a client runs `process_command`**: its step at the cache and its step at the log, one
after the other, do what a call does. -/
theorem step_step {s : System ι} {t t' : Turn ι} {c : Command} (hmove : s.move t.client = .enter c)
    (hc : c.records ≠ []) (ht' : t'.client = t.client) :
    let s' := (s.step t).step t'
    (⟨s'.cache, s'.wal⟩ : TCPServer) =
      (TCPServer.serve ⟨s.cache, s.wal⟩ ⟨c, t.now, t.access⟩).1 := by
  -- the client had nothing in flight, so what it logs next is what it just took to the cache
  have hidle : s.inFlight.find? (fun p ↦ p.1 = t.client) = none := by
    rcases hf : s.inFlight.find? (fun p ↦ p.1 = t.client) with - | p
    · exact hf
    · rw [move, hf] at hmove
      simp at hmove
  have hcache : s.step t = { s with
      cache := s.cache.step (c.call t.now t.access)
      todo := Function.update s.todo t.client (s.todo t.client).tail
      inFlight := s.inFlight ++ [(t.client, c)] } := by
    rw [step_of_enter hmove, if_neg (by simpa using hc)]
  have hmove' : (s.step t).move t'.client = .log c := by
    rw [move, hcache, ht', List.find?_append, hidle]
    simp
  intro s'
  have hs' : (⟨s'.cache, s'.wal⟩ : TCPServer) = ⟨s.cache.step (c.call t.now t.access),
      (TCPServer.logWrite ⟨s.cache.step (c.call t.now t.access), s.wal⟩ c.cmd c.key
        c.value).1.wal⟩ := by
    show (⟨((s.step t).step t').cache, ((s.step t).step t').wal⟩ : TCPServer) = _
    rw [step_of_log hmove', hcache]
  rw [hs']
  cases c with
  | set key value => exact TCPServer.logWrite_eta _ _ _ _ _
  | get key => exact absurd rfl hc
  | del key => exact TCPServer.logWrite_eta _ _ _ _ _

/-! ### The log and the commands in flight -/

omit [DecidableEq ι] in
/-- The writes of commands in flight. -/
theorem mem_writes_inFlight {l : List (ι × Command)} {w : Recency.Write Bytes Bytes}
    (h : w ∈ (l.map Prod.snd).flatMap Command.writes) : ∃ p ∈ l, w ∈ p.2.writes := by
  obtain ⟨c, hc, hw⟩ := List.mem_flatMap.1 h
  obtain ⟨p, hp, rfl⟩ := List.mem_map.1 hc
  exact ⟨p, hp, hw⟩

/-- The log holds the records of `logged`, and whatever may still be logged is well formed. -/
structure Logs (s : System ι) (logged : List Command) : Prop where
  isOpen : s.wal.isOpen = true
  file : s.wal.file = WAL.textOf (logged.flatMap Command.records)
  logged_wellFormed : ∀ c ∈ logged, c.WellFormed
  todo_wellFormed : ∀ i, ∀ c ∈ s.todo i, c.WellFormed
  /-- What is in flight is well formed, and is going to be logged. -/
  inFlight_wellFormed : ∀ p ∈ s.inFlight, p.2.WellFormed ∧ p.2.records ≠ []

omit [DecidableEq ι] in
theorem logs_start (capacity : ℕ) (filename : Bytes) {todo : ι → List Command}
    (h : ∀ i, ∀ c ∈ todo i, c.WellFormed) : Logs (start capacity filename todo) [] where
  isOpen := rfl
  file := rfl
  logged_wellFormed := fun _ hc ↦ absurd hc List.not_mem_nil
  todo_wellFormed := h
  inFlight_wellFormed := fun _ hp ↦ absurd hp List.not_mem_nil

/-- **A step at the cache** logs nothing. -/
theorem Logs.enter {s : System ι} {logged : List Command} (h : Logs s logged) {t : Turn ι}
    {c : Command} (hmove : s.move t.client = .enter c) : Logs (s.step t) logged := by
  have hc := h.todo_wellFormed t.client c (move_eq_enter hmove)
  rw [step_of_enter hmove]
  refine ⟨h.isOpen, h.file, h.logged_wellFormed, fun i c' hc' ↦ ?_, fun p hp ↦ ?_⟩
  · rcases eq_or_ne i t.client with rfl | hi
    · simp only [Function.update_self] at hc'
      exact h.todo_wellFormed _ c' (List.mem_of_mem_tail hc')
    · simp only [Function.update_of_ne hi] at hc'
      exact h.todo_wellFormed i c' hc'
  · rcases eq_or_ne c.records [] with hnil | hne
    · rw [if_pos (by simpa using hnil)] at hp
      exact h.inFlight_wellFormed p hp
    · rw [if_neg (by simpa using hne)] at hp
      rcases List.mem_append.1 hp with hp | hp
      · exact h.inFlight_wellFormed p hp
      · rw [List.mem_singleton.1 hp]
        exact ⟨hc, hne⟩

/-- **A step at the log** logs the command. -/
theorem Logs.log {s : System ι} {logged : List Command} (h : Logs s logged) {t : Turn ι}
    {c : Command} (hmove : s.move t.client = .log c) : Logs (s.step t) (logged ++ [c]) := by
  obtain ⟨earlier, later, hsplit, -, herase⟩ := move_eq_log hmove
  obtain ⟨hc, hlogged⟩ := h.inFlight_wellFormed (t.client, c) (by rw [hsplit]; simp)
  obtain ⟨hrecords, -⟩ := Command.of_records_ne_nil hlogged
  rw [step_of_log hmove, TCPServer.logWrite_of_isOpen _ h.isOpen, herase]
  refine ⟨h.isOpen, ?_, fun c' hc' ↦ ?_, h.todo_wellFormed, fun p hp ↦ ?_⟩
  · show s.wal.file ++ WAL.textOf [⟨c.cmd, c.key, c.value⟩] = _
    rw [h.file, List.flatMap_append, WAL.textOf_append, List.flatMap_singleton, hrecords]
  · rcases List.mem_append.1 hc' with hc' | hc'
    · exact h.logged_wellFormed c' hc'
    · rwa [List.mem_singleton.1 hc']
  · refine h.inFlight_wellFormed p ?_
    rw [hsplit]
    rcases List.mem_append.1 hp with hp | hp
    · exact List.mem_append_left _ hp
    · exact List.mem_append_right _ (List.mem_cons_of_mem _ hp)

/-- The log holds the records of `logged`, and these commands, followed by those in flight, say what
is in the cache. -/
structure Tracks (s : System ι) (logged : List Command) : Prop extends Logs s logged where
  value : ∀ k, s.cache.value? k =
    overwrite k none ((logged ++ s.inFlight.map Prod.snd).flatMap Command.writes)

omit [DecidableEq ι] in
theorem tracks_start (capacity : ℕ) (filename : Bytes) {todo : ι → List Command}
    (h : ∀ i, ∀ c ∈ todo i, c.WellFormed) : Tracks (start capacity filename todo) [] where
  toLogs := logs_start capacity filename h
  value := fun k ↦ by
    rw [← SafeCache.lookup_data, start, SafeCache.data_new]
    rfl

variable {s : System ι} {logged : List Command}

/-- **A step at the cache.** -/
theorem Tracks.enter (h : Tracks s logged) {t : Turn ι} {c : Command}
    (hmove : s.move t.client = .enter c) (hroom : EvictsNothing s t.client) :
    Tracks (s.step t) logged := by
  rw [EvictsNothing, hmove] at hroom
  have hvalue : ∀ k, (s.cache.step (c.call t.now t.access)).value? k = overwrite k none
      ((logged ++ s.inFlight.map Prod.snd).flatMap Command.writes ++ c.writes) := by
    intro k
    rw [← SafeCache.lookup_data, TCPServer.data_step_command,
      Recency.lookup_applyAll s.cache.length_data_le hroom, SafeCache.lookup_data, h.value k,
      Recency.overwrite_append]
  refine ⟨h.toLogs.enter hmove, fun k ↦ ?_⟩
  rw [step_of_enter hmove]
  refine (hvalue k).trans (congrArg (overwrite k none) ?_)
  rcases eq_or_ne c.records [] with hnil | hne
  · -- a command that is not logged writes nothing either
    have hwrites : c.writes = [] := by
      cases c with
      | set key value => simp [Command.records] at hnil
      | get key => rfl
      | del key => simp [Command.records] at hnil
    simp [hnil, hwrites]
  · simp [hne]

/-- **A step at the log.** -/
theorem Tracks.log (h : Tracks s logged) {t : Turn ι} {c : Command}
    (hmove : s.move t.client = .log c) (horder : InOrder s t.client) :
    Tracks (s.step t) (logged ++ [c]) := by
  obtain ⟨earlier, later, hsplit, htake, herase⟩ := move_eq_log hmove
  rw [InOrder, hmove] at horder
  obtain ⟨-, hlogged⟩ := h.inFlight_wellFormed (t.client, c) (by rw [hsplit]; simp)
  obtain ⟨-, w, hw⟩ := Command.of_records_ne_nil hlogged
  have hswap : ∀ w' ∈ (earlier.map Prod.snd).flatMap Command.writes, w'.key = w.key → w' = w := by
    intro w' hw' hkey
    obtain ⟨p, hp, hw'⟩ := mem_writes_inFlight hw'
    have hkeys : p.2.key = c.key := by
      rw [← Command.key_of_mem_writes hw', hkey]
      exact Command.key_of_mem_writes (by rw [hw]; exact List.mem_singleton_self w)
    rw [horder p (htake ▸ hp) hkeys, hw] at hw'
    exact List.mem_singleton.1 hw'
  refine ⟨h.toLogs.log hmove, fun k ↦ ?_⟩
  rw [step_of_log hmove, herase]
  -- logging `c` before what reached the cache earlier makes no difference
  have hbefore : (s.inFlight.map Prod.snd).flatMap Command.writes =
      ((earlier.map Prod.snd).flatMap Command.writes ++ [w]) ++
        (later.map Prod.snd).flatMap Command.writes := by
    simp [hsplit, hw]
  have hafter : ((logged ++ [c]) ++ (earlier ++ later).map Prod.snd).flatMap Command.writes =
      logged.flatMap Command.writes ++ (w :: (earlier.map Prod.snd).flatMap Command.writes ++
        (later.map Prod.snd).flatMap Command.writes) := by
    simp [hw]
  show s.cache.value? k = _
  rw [h.value k, List.flatMap_append, hbefore, hafter]
  exact (Recency.overwrite_advance hswap none _ _).symm

/-- **One step.** -/
theorem Tracks.step (h : Tracks s logged) (t : Turn ι) (hroom : EvictsNothing s t.client)
    (horder : InOrder s t.client) : ∃ logged', Tracks (s.step t) logged' := by
  rcases hmove : s.move t.client with - | c | c
  · -- a client that is done
    refine ⟨logged, ?_⟩
    rw [System.step, hmove]
    exact h
  · exact ⟨logged, h.enter hmove hroom⟩
  · exact ⟨logged ++ [c], h.log hmove horder⟩

/-- **A schedule.** -/
theorem Tracks.run (h : Tracks s logged) (schedule : List (Turn ι))
    (hroom : Always EvictsNothing s schedule) (horder : Always InOrder s schedule) :
    ∃ logged', Tracks (s.run schedule) logged' := by
  induction schedule generalizing s logged with
  | nil => exact ⟨logged, h⟩
  | cons t schedule ih =>
    obtain ⟨logged', h'⟩ := h.step t hroom.1 horder.1
    exact ih h' hroom.2 horder.2

/-- **Log and cache agree at rest**, in every run in which no command is logged ahead of a different
write to its key that reached the cache earlier: when nothing is in flight, replaying the log into
an empty cache gives every key the value it has in the live cache. -/
theorem recover_eq_of_inOrder (capacity : ℕ) (filename : Bytes) (todo : ι → List Command)
    (schedule : List (Turn ι)) (hwf : ∀ i, ∀ c ∈ todo i, c.WellFormed)
    (hroom : Always EvictsNothing (start capacity filename todo) schedule)
    (horder : Always InOrder (start capacity filename todo) schedule)
    (hrest : ((start capacity filename todo).run schedule).inFlight = [])
    (hreplay : Roomy capacity ∅
      (((start capacity filename todo).run schedule).wal.replay.flatMap Record.writes))
    (clock : ℕ → Time) (k : Bytes) :
    (recover capacity ∅ ((start capacity filename todo).run schedule).wal clock clock).value? k =
      ((start capacity filename todo).run schedule).cache.value? k := by
  obtain ⟨logged, h⟩ := (tracks_start capacity filename hwf).run schedule hroom horder
  have hlog : ((start capacity filename todo).run schedule).wal.replay.flatMap Record.writes =
      logged.flatMap Command.writes := by
    rw [WAL.replay, h.file]
    exact writes_replayText h.logged_wellFormed
  rw [hlog] at hreplay
  rw [← SafeCache.lookup_data, data_recover, hlog, h.value k, hrest, List.map_nil, List.append_nil]
  exact Recency.lookup_applyAll (Nat.zero_le _) hreplay k

/-- Two clients set the same key, the second while the first is in flight, and log in that order. -/
theorem recover_eq_of_inOrder_two :
    let todo : Bool → List Command := fun i ↦ if i then [.set [107] [1]] else [.set [107] [2]]
    let schedule : List (Turn Bool) := [⟨true, 0, 0⟩, ⟨false, 1, 1⟩, ⟨true, 2, 2⟩, ⟨false, 3, 3⟩]
    (recover 4 ∅ ((start 4 [] todo).run schedule).wal (fun _ ↦ 9) (fun _ ↦ 9)).value? [107] =
      ((start 4 [] todo).run schedule).cache.value? [107] := by
  exact recover_eq_of_inOrder 4 [] _ _ (by decide) (by decide) (by decide) (by decide) (by decide)
    (fun _ ↦ 9) [107]

/-- **Overtaking.** Two clients set the same key; the second overtakes the first on the way to the
log. At rest the cache holds the second value, and a replay restores the first. -/
theorem recover_ne_of_overtaking :
    let todo : Bool → List Command := fun i ↦ if i then [.set [107] [1]] else [.set [107] [2]]
    let schedule : List (Turn Bool) := [⟨true, 0, 0⟩, ⟨false, 1, 1⟩, ⟨false, 2, 2⟩, ⟨true, 3, 3⟩]
    let s := (start 4 [] todo).run schedule
    (∀ i, ∀ c ∈ todo i, c.WellFormed) ∧ Always EvictsNothing (start 4 [] todo) schedule ∧
      s.inFlight = [] ∧ Roomy 4 ∅ (s.wal.replay.flatMap Record.writes) ∧
      s.cache.value? [107] = some [2] ∧
      (recover 4 ∅ s.wal (fun _ ↦ 9) (fun _ ↦ 9)).value? [107] = some [1] := by
  refine ⟨by decide, by decide, by decide, by decide, by decide, by decide⟩

end System

end DistCache
