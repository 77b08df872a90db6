import DistCache.Network.Atomicity
import DistCache.Network.Salvage
import DistCache.Restarts

/-!
# Processes that are killed

A process of many threads may be killed at any slice: between the change of the cache and the
record, inside a record, behind its last byte but before the client has its `OK`, while threads wait
for a lock. Only the file is left, and `main` starts the next process on it (`Process.live`), any
number of times (`lives`).

What a process leaves in the file are some complete records and possibly a torn one (`Epoch`). The
complete ones are, for each client, the writes that were acknowledged and at most one more, an
initial part of what the client writes in its own order (`Epoch.Of`). The torn one is the beginning
of the next write of some client, and the next process appends to it. So the reader sees one line
for each complete record (`salvage`), but a line that stands behind torn bytes is not what was
written: every death inside an append costs at most one record, which may be one that was
acknowledged (`Salvaged`). All of it together is `recovered_of_lives`.

Of the cache only what the log tells comes back. Within one process a `GET` finds what the last
write left, counted from what was read back at its start, or nothing (`get_of_lives`).
-/

namespace DistCache

open DistCache.System (ofClient)
open Recency (applyAll overwrite)

namespace System

variable {ι : Type*} [DecidableEq ι]

/-- The command that an action logs. -/
def actLogs (s : System ι) : Action ι → List (ι × Command)
  | .turn t => s.logs t
  | .sweep _ => []

/-- The commands that some actions log. -/
def actLogged (s : System ι) (actions : List (Action ι)) : List (ι × Command) :=
  Machine.outputs act actLogs s actions

theorem pending_acts (s : System ι) (actions : List (Action ι)) (i : ι) :
    ofClient i (s.actLogged actions) ++ (s.acts actions).pending i = s.pending i := by
  refine Machine.outputs_append_stock (ofClient i) (ofClient_nil i) (ofClient_append i)
    (fun s ↦ s.pending i) (fun s x ↦ ?_) s actions
  cases x with
  | turn t => exact pending_step i s t
  | sweep now => rfl

/-- **An action** adds the records of what it logs. -/
theorem wal_act {s : System ι} (h : s.wal.isOpen = true) (x : Action ι) :
    (s.act x).wal = { s.wal with
      file := s.wal.file ++ WAL.textOf ((s.actLogs x).map fun p ↦ p.2.record) } := by
  have hnone : s.wal = { s.wal with file := s.wal.file ++ WAL.textOf [] } := by
    rw [WAL.textOf_nil, List.append_nil]
  cases x with
  | turn t =>
    rcases hmove : s.move t.client with - | c | c
    · have hlogs : s.actLogs (.turn t) = [] := by rw [actLogs, logs, hmove]
      have hstep : s.act (.turn t) = s := by rw [act, step, hmove]
      rw [hlogs, hstep]
      exact hnone
    · have hlogs : s.actLogs (.turn t) = [] := by rw [actLogs, logs, hmove]
      have hstep : (s.act (.turn t)).wal = s.wal := by rw [act, step_of_enter hmove]
      rw [hlogs, hstep]
      exact hnone
    · have hlogs : s.actLogs (.turn t) = [(t.client, c)] := by rw [actLogs, logs, hmove]
      rw [hlogs, act, step_of_log hmove, TCPServer.logWrite_of_isOpen _ h]
      rfl
  | sweep now => exact hnone

/-- **Some actions** add the records of what they log. -/
theorem wal_acts {s : System ι} (h : s.wal.isOpen = true) (actions : List (Action ι)) :
    (s.acts actions).wal = { s.wal with
      file := s.wal.file ++ WAL.textOf ((s.actLogged actions).map fun p ↦ p.2.record) } := by
  induction actions generalizing s with
  | nil =>
    show s.wal = { s.wal with file := s.wal.file ++ WAL.textOf [] }
    rw [WAL.textOf_nil, List.append_nil]
  | cons x actions ih =>
    have hlogged : s.actLogged (x :: actions) = s.actLogs x ++ (s.act x).actLogged actions := rfl
    have hwal := wal_act h x
    show ((s.act x).acts actions).wal = _
    rw [ih (hwal ▸ h), hwal, hlogged, List.map_append, WAL.textOf_append, List.append_assoc]

end System

/-- The write whose record is complete, as long as its reply is not given. -/
def Phase.unacked : Phase → List Command
  | writes c n => if n < c.logText.length then [] else [c]
  | answers c reply => if c.isWrite = true ∧ reply.success = true then [c] else []
  | _ => []

theorem Phase.length_unacked_le (p : Phase) : p.unacked.length ≤ 1 := by
  cases p with
  | writes c n | answers c reply =>
    simp only [unacked]
    split_ifs <;> simp
  | idle | reads key | found key reply | alters t | altering t seen | altered t | logs c =>
    exact Nat.zero_le 1

namespace LockedServer

variable {ι : Type*}

/-- The command whose record gets complete at a slice. -/
def completes (s : LockedServer ι) (x : Slice ι) : List (ι × Command) :=
  match s.phase x.client with
  | .writes c n =>
    if n < c.logText.length ∧ c.logText.length ≤ n + (x.chunk + 1) then [(x.client, c)] else []
  | _ => []

/-- The write that is acknowledged at a slice. -/
def acks (s : LockedServer ι) (x : Slice ι) : List (ι × Command) :=
  match s.phase x.client with
  | .answers c reply => if c.isWrite = true ∧ reply.success = true then [(x.client, c)] else []
  | _ => []

/-- The command that changes the cache at a slice. -/
def changes (s : LockedServer ι) (x : Slice ι) : List Command :=
  match s.phase x.client with
  | .altering t _ => t.commands
  | _ => []

variable [DecidableEq ι]

/-- The commands whose records get complete in some slices, in the order of the file. -/
def completed (s : LockedServer ι) (slices : List (Slice ι)) : List (ι × Command) :=
  Machine.outputs step completes s slices

/-- The writes that are acknowledged in some slices. -/
def acked (s : LockedServer ι) (slices : List (Slice ι)) : List (ι × Command) :=
  Machine.outputs step acks s slices

/-- The commands that change the cache in some slices, in their order. -/
def changed (s : LockedServer ι) (slices : List (Slice ι)) : List Command :=
  Machine.outputs step changes s slices

/-! ### One slice -/

section Slices

variable {s s' : LockedServer ι} {a : System ι} {x : Slice ι}

omit [DecidableEq ι] in
theorem completes_of_ne [DecidableEq ι] {j : ι} (hj : j ≠ x.client) :
    ofClient j (s.completes x) = [] := by
  rw [completes]
  split
  · split_ifs
    · exact System.ofClient_singleton_of_ne (Ne.symm hj) _
    · rfl
  · rfl

omit [DecidableEq ι] in
theorem acks_of_ne [DecidableEq ι] {j : ι} (hj : j ≠ x.client) : ofClient j (s.acks x) = [] := by
  rw [acks]
  split
  · split_ifs
    · exact System.ofClient_singleton_of_ne (Ne.symm hj) _
    · rfl
  · rfl

/-- A record gets complete at the slice at which the atomic step at the log takes effect. -/
theorem Refines.completes_eq (h : Refines s a) (x : Slice ι) :
    s.completes x = a.actLogged (s.atomic x) := by
  have hturn : a.actLogged [.turn x.toTurn] = a.logs x.toTurn := List.append_nil _
  have henter : ∀ c, a.move x.client = .enter c → a.logs x.toTurn = [] := by
    intro c hmove
    rw [System.logs, hmove]
  rcases hphase : s.phase x.client with - | key | ⟨key, reply⟩ | t | ⟨t, seen⟩ | t | c | ⟨c, n⟩ |
    ⟨c, reply⟩ <;> rw [completes, atomic, hphase]
  case reads =>
    rw [hturn]
    exact (henter _ (h.move_enter (by rw [hphase]; rfl) (by rw [hphase]; rfl))).symm
  case altering =>
    cases t with
    | command c =>
      simp only
      rw [hturn]
      exact (henter c (h.move_enter (by rw [hphase]; rfl) (by rw [hphase]; rfl))).symm
    | sweep => rfl
  case writes =>
    simp only
    split_ifs with hlast
    · have hmove : a.move x.client = .log c :=
        h.move_log (by rw [hphase]; exact if_pos hlast.1)
      rw [hturn, System.logs, hmove]
    · rfl
  all_goals rfl

/-- **One slice** acknowledges what is complete, and completes one record. -/
theorem Refines.unacked_next (h : Refines s a) (ho : Owned s) (hnext : s.next x = some s')
    (i : ι) : ofClient i (s.acks x) ++ (s'.phase i).unacked =
      (s.phase i).unacked ++ ofClient i (s.completes x) := by
  rcases eq_or_ne i x.client with rfl | hi
  swap
  · rw [acks_of_ne hi, completes_of_ne hi, phase_next_of_ne hnext hi, List.append_nil,
      List.nil_append]
  have hproper := ho.proper x.client
  cases moves_of_next hnext with
  | @unlockShared key reply hphase =>
    -- a read is not acknowledged
    have hacks : s.acks x = [] := by rw [acks, hphase]
    have hcompletes : s.completes x = [] := by rw [completes, hphase]
    have hread : (Phase.answers (.get key) reply).unacked = [] := by
      simp [Phase.unacked, Command.isWrite, Command.records]
    rw [hacks, hcompletes, phase_goto_self, hphase, hread]
    rfl
  | @opens c wal hphase hfree hensure =>
    have hacks : s.acks x = [] := by rw [acks, hphase]
    have hcompletes : s.completes x = [] := by rw [completes, hphase]
    rw [hacks, hcompletes, phase_goto_self, hphase]
    exact if_pos c.logText_length_pos
  | throws hphase hfree hensure =>
    rw [h.ensureFileOpen] at hensure
    exact absurd hensure (by simp)
  | @put c n hphase hn =>
    have hacks : s.acks x = [] := by rw [acks, hphase]
    have hunacked : (Phase.writes c n).unacked = [] := if_pos hn
    rw [hacks, phase_goto_self, hphase, hunacked, completes, hphase]
    simp only [Phase.unacked]
    rcases Nat.lt_or_ge (n + (x.chunk + 1)) c.logText.length with hless | hall
    · rw [if_pos hless, if_neg fun hboth ↦ absurd hboth.2 (Nat.not_le_of_lt hless)]
      rfl
    · rw [if_neg (Nat.not_lt.2 hall), if_pos ⟨hn, hall⟩, System.ofClient_singleton_self]
      rfl
  | @closes c n hphase hn =>
    rw [hphase] at hproper
    have hacks : s.acks x = [] := by rw [acks, hphase]
    have hcompletes : s.completes x = [] := by
      rw [completes, hphase]
      exact if_neg fun hboth ↦ absurd hboth.1 (Nat.not_lt.2 hn)
    have hunacked : (Phase.writes c n).unacked = [c] := if_neg (Nat.not_lt.2 hn)
    rw [hacks, hcompletes, phase_goto_self, hphase, hunacked]
    exact if_pos ⟨hproper, rfl⟩
  | @answer c reply hphase =>
    have hcompletes : s.completes x = [] := by rw [completes, hphase]
    rw [hcompletes, phase_goto_self, hphase, acks, hphase]
    simp only [Phase.unacked]
    split_ifs
    · rw [System.ofClient_singleton_self]
      rfl
    · rfl
  | @unlock t hphase =>
    have hacks : s.acks x = [] := by rw [acks, hphase]
    have hcompletes : s.completes x = [] := by rw [completes, hphase]
    rw [hacks, hcompletes, phase_goto_self, hphase]
    cases t <;> rfl
  | lockShared hphase | lock hphase | get hphase | look hphase | change hphase =>
    have hacks : s.acks x = [] := by rw [acks, hphase]
    have hcompletes : s.completes x = [] := by rw [completes, hphase]
    rw [hacks, hcompletes, phase_goto_self, hphase]
    rfl

/-- **One slice**, and what the cache can tell. -/
theorem recalls_next {persistence : MMapPersistence} {writes : List (Recency.Write Bytes Bytes)}
    (h : TCPServer.Recalls persistence writes s.cache) (ho : Owned s) (hopen : s.wal.isOpen = true)
    (hnext : s.next x = some s') :
    TCPServer.Recalls persistence (writes ++ (s.changes x).flatMap Command.writes) s'.cache := by
  cases moves_of_next hnext with
  | @get key hphase =>
    have hchanges : s.changes x = [] := by rw [changes, hphase]
    have hserve := TCPServer.serve_eq (s := ⟨s.cache, s.wal⟩) hopen ⟨.get key, x.now, x.access⟩
    rw [hchanges, hserve]
    exact h.command (.get key) x.now x.access
  | @change t seen hphase =>
    obtain rfl := ho.seen x.client t seen hphase
    have hchanges : s.changes x = t.commands := by rw [changes, hphase]
    rw [hchanges]
    cases t with
    | command c =>
      rw [Task.commands, List.flatMap_singleton]
      exact h.command c x.now x.access
    | sweep =>
      rw [Task.commands, List.flatMap_nil, List.append_nil]
      exact h.cleanup x.now
  | lockShared hphase | lock hphase | unlockShared hphase | look hphase | unlock hphase
  | opens hphase | throws hphase | put hphase | closes hphase | answer hphase =>
    have hchanges : s.changes x = [] := by rw [changes, hphase]
    rw [hchanges, List.flatMap_nil, List.append_nil]
    exact h

/-- A slice that is blocked shows nothing. -/
theorem silent_of_next (hnext : s.next x = none) :
    s.completes x = [] ∧ s.acks x = [] ∧ s.changes x = [] := by
  rw [LockedServer.next] at hnext
  rw [completes, acks, changes]
  rcases hphase : s.phase x.client with - | key | ⟨key, reply⟩ | t | ⟨t, seen⟩ | t | c | ⟨c, n⟩ |
    ⟨c, reply⟩ <;> rw [hphase] at hnext
  case writes =>
    simp only at hnext
    split_ifs at hnext
  all_goals first | exact ⟨rfl, rfl, rfl⟩ | exact absurd hnext (by simp)

end Slices

/-! ### A process -/

section Run

variable {s : LockedServer ι} {a : System ι}

/-- **A run** completes the records that the atomic steps log. -/
theorem Refines.completed_eq (h : Refines s a) (ho : Owned s) (slices : List (Slice ι)) :
    s.completed slices = a.actLogged (s.actions slices) := by
  induction slices generalizing s a with
  | nil => rfl
  | cons x slices ih =>
    show s.completes x ++ (s.step x).completed slices = _
    have hactions : s.actions (x :: slices) = s.atomic x ++ (s.step x).actions slices := rfl
    rw [ih (h.step ho x).1 (ho.step x), h.completes_eq x, hactions, System.actLogged,
      System.actLogged, System.actLogged, Machine.outputs_append]
    rfl

/-- **A run** acknowledges what is complete, but for the reply that is not given. -/
theorem Refines.unacked_run (h : Refines s a) (ho : Owned s) (slices : List (Slice ι)) (i : ι) :
    ofClient i (s.acked slices) ++ ((s.run slices).phase i).unacked =
      (s.phase i).unacked ++ ofClient i (s.completed slices) := by
  induction slices generalizing s a with
  | nil => exact (List.append_nil _).symm
  | cons x slices ih =>
    have hfirst : ofClient i (s.acks x) ++ ((s.step x).phase i).unacked =
        (s.phase i).unacked ++ ofClient i (s.completes x) := by
      rcases hnext : s.next x with - | s'
      · obtain ⟨hcompletes, hacks, -⟩ := silent_of_next hnext
        have hstep : s.step x = s := Progress.attempt_of_none hnext
        rw [hcompletes, hacks, hstep]
        exact (List.append_nil _).symm
      · have hstep : s.step x = s' := Progress.attempt_of_some hnext
        rw [hstep]
        exact h.unacked_next ho hnext i
    have hacked : s.acked (x :: slices) = s.acks x ++ (s.step x).acked slices := rfl
    have hcompleted : s.completed (x :: slices) = s.completes x ++ (s.step x).completed slices :=
      rfl
    have hrun : s.run (x :: slices) = (s.step x).run slices := rfl
    rw [hacked, hcompleted, hrun, System.ofClient_append, System.ofClient_append,
      List.append_assoc, ih (h.step ho x).1 (ho.step x), ← List.append_assoc, hfirst,
      List.append_assoc]

/-- **A run**, and what the cache can tell. -/
theorem Refines.recalls_run (h : Refines s a) (ho : Owned s) {persistence : MMapPersistence}
    {writes : List (Recency.Write Bytes Bytes)}
    (hcache : TCPServer.Recalls persistence writes s.cache) (slices : List (Slice ι)) :
    TCPServer.Recalls persistence (writes ++ (s.changed slices).flatMap Command.writes)
      (s.run slices).cache := by
  induction slices generalizing s a writes with
  | nil =>
    show TCPServer.Recalls persistence (writes ++ []) s.cache
    rwa [List.append_nil]
  | cons x slices ih =>
    have hfirst : TCPServer.Recalls persistence
        (writes ++ (s.changes x).flatMap Command.writes) (s.step x).cache := by
      rcases hnext : s.next x with - | s'
      · obtain ⟨-, -, hchanges⟩ := silent_of_next hnext
        have hstep : s.step x = s := Progress.attempt_of_none hnext
        rw [hchanges, hstep, List.flatMap_nil, List.append_nil]
        exact hcache
      · have hstep : s.step x = s' := Progress.attempt_of_some hnext
        rw [hstep]
        exact recalls_next hcache ho h.isOpen_wal hnext
    have hchanged : s.changed (x :: slices) = s.changes x ++ (s.step x).changed slices := rfl
    rw [hchanged, List.flatMap_append, ← List.append_assoc]
    exact ih (h.step ho x).1 (ho.step x) hfirst

omit [DecidableEq ι] in
/-- Torn bytes are the beginning of a record whose command is in flight. -/
theorem exists_of_torn (h : s.torn ≠ []) :
    ∃ i c, (s.phase i).inFlight = [c] ∧ s.torn <+: c.record.line := by
  rcases hmutex : s.walMutex with - | i
  · exact absurd (by rw [torn, hmutex]) h
  · rw [torn_of_walMutex hmutex] at h ⊢
    rcases hphase : s.phase i with - | key | ⟨key, reply⟩ | t | ⟨t, seen⟩ | t | c | ⟨c, n⟩ |
      ⟨c, reply⟩ <;> rw [hphase] at h
    case writes =>
      by_cases hn : n < c.logText.length
      · refine ⟨i, c, by rw [hphase]; exact if_pos hn, ?_⟩
        have htake : (Phase.writes c n).torn = c.record.line.take n := by
          refine (if_pos hn).trans (List.take_append_of_le_length ?_)
          rw [Command.logText, Record.text, List.length_append, List.length_singleton] at hn
          exact Nat.le_of_lt_succ hn
        rw [htake]
        exact List.take_prefix n _
      · exact absurd (if_neg hn) h
    all_goals exact absurd rfl h

end Run

end LockedServer

/-! ### Process after process -/

/-- A process: what its threads have to do, the readings of the clock at its start, and the slices
that its threads get before it is killed. -/
structure Process (ι : Type*) where
  todo : ι → List Task
  loadClock : ℕ → Time
  replayClock : ℕ → Time
  slices : List (Slice ι)

namespace Process

variable {ι : Type*}

/-- The writes of client `i`. -/
def writes (p : Process ι) (i : ι) : List Command :=
  ((p.todo i).flatMap Task.commands).filter Command.isWrite

/-- The clients send well-formed commands. -/
def WellFormed (p : Process ι) : Prop := ∀ i, ∀ c ∈ (p.todo i).flatMap Task.commands, c.WellFormed

instance [Fintype ι] (p : Process ι) : Decidable p.WellFormed :=
  inferInstanceAs (Decidable (∀ i, ∀ c ∈ (p.todo i).flatMap Task.commands, c.WellFormed))

/-- `main` up to the start of the threads, on the log that is there. -/
def start (capacity : ℕ) (persistence : MMapPersistence) (filename file : Bytes) (p : Process ι) :
    Except Bytes (LockedServer ι) :=
  (TCPServer.boot capacity persistence filename file true p.loadClock p.replayClock).map
    fun b ↦ .ofServer b p.todo

variable [DecidableEq ι]

/-- A process, from its start to its end: the file that is left, and what the process did to it. -/
def live (capacity : ℕ) (persistence : MMapPersistence) (filename file : Bytes) (p : Process ι) :
    Except Bytes (Bytes × Epoch ι) := do
  let s ← p.start capacity persistence filename file
  .ok ((s.run p.slices).wal.file,
    ⟨s.completed p.slices, s.acked p.slices, (s.run p.slices).torn⟩)

end Process

variable {ι : Type*} [DecidableEq ι]

/-- One process after the other. -/
def lives (capacity : ℕ) (persistence : MMapPersistence) (filename : Bytes) :
    Bytes → List (Process ι) → Except Bytes (Bytes × List (Epoch ι))
  | file, [] => .ok (file, [])
  | file, p :: processes => do
    let r ← p.live capacity persistence filename file
    let rest ← lives capacity persistence filename r.1 processes
    .ok (rest.1, r.2 :: rest.2)

/-- What a process can have done to the log. -/
structure Epoch.Of (p : Process ι) (e : Epoch ι) : Prop where
  /-- The complete records of a client are its first writes. -/
  lines : ∀ i, ofClient i e.lines <+: p.writes i
  /-- All of them are acknowledged but the last one, perhaps. -/
  acked : ∀ i, ∃ last, ofClient i e.lines = ofClient i e.acked ++ last ∧ last.length ≤ 1
  /-- The torn one is the next write of its client. -/
  torn : e.torn = [] ∨
    ∃ i c, ofClient i e.lines ++ [c] <+: p.writes i ∧ e.torn <+: c.record.line

theorem Epoch.Of.clean {p : Process ι} {e : Epoch ι} (h : e.Of p) (hp : p.WellFormed) :
    e.Clean := by
  have hwf : ∀ i, ∀ c ∈ p.writes i, c.WellFormed := fun i c hc ↦
    hp i c (List.mem_of_mem_filter hc)
  refine ⟨fun c hc ↦ ?_, ?_⟩
  · obtain ⟨⟨i, c'⟩, hmem, rfl⟩ := List.mem_map.1 hc
    exact hwf i c' ((h.lines i).subset (System.mem_ofClient hmem))
  · rcases h.torn with hnil | ⟨i, c, hc, htorn⟩
    · rw [hnil]
      exact List.not_mem_nil
    · exact newline_notMem_torn (hwf i c (hc.subset (by simp))).record htorn

theorem clean_of_forall₂ {processes : List (Process ι)} {epochs : List (Epoch ι)}
    (h : List.Forall₂ (fun p e ↦ Epoch.Of p e) processes epochs)
    (hwf : ∀ p ∈ processes, p.WellFormed) : ∀ e ∈ epochs, e.Clean := by
  induction h with
  | nil => exact fun _ he ↦ absurd he List.not_mem_nil
  | cons he _ ih =>
    rw [List.forall_mem_cons] at hwf ⊢
    exact ⟨he.clean hwf.1, ih hwf.2⟩

section Lives

variable (capacity : ℕ) (persistence : MMapPersistence) (filename : Bytes)

/-- **One process**, on any log. -/
theorem Process.exists_live (file : Bytes) (p : Process ι) :
    ∃ e, p.live capacity persistence filename file = .ok (file ++ e.text, e) ∧ e.Of p := by
  obtain ⟨b, hboot, hopen, hfile⟩ : ∃ b, TCPServer.boot capacity persistence filename file true
      p.loadClock p.replayClock = .ok b ∧ b.wal.isOpen = true ∧ b.wal.file = file :=
    ⟨_, rfl, rfl, rfl⟩
  set first : LockedServer ι := .ofServer b p.todo with hfirst
  set first' : System ι := .ofServer b fun i ↦ (p.todo i).flatMap Task.commands with hfirst'
  have hrefines : LockedServer.Refines first first' := LockedServer.refines_ofServer hopen p.todo
  have howned : first.Owned := LockedServer.owned_ofServer b p.todo
  obtain ⟨-, hlast, -⟩ := hrefines.run howned p.slices
  have hcompleted := hrefines.completed_eq howned p.slices
  -- what is complete, in flight and still to be sent are the writes of the client
  have hpending : ∀ i, ofClient i (first.completed p.slices) ++
      (((first.run p.slices).phase i).inFlight ++
        ((first'.acts (first.actions p.slices)).todo i).filter Command.isWrite) =
          p.writes i := by
    intro i
    have hstock := System.pending_acts first' (first.actions p.slices) i
    rw [← hcompleted, System.pending, (hlast.stands i).inFlight] at hstock
    exact hstock
  refine ⟨⟨first.completed p.slices, first.acked p.slices, (first.run p.slices).torn⟩, ?_, ?_⟩
  · have hwal : (first.run p.slices).wal.file = file ++
        (WAL.textOf ((first.completed p.slices).map fun q ↦ q.2.record) ++
          (first.run p.slices).torn) := by
      rw [hlast.wal, System.wal_acts hopen, ← hcompleted, ← List.append_assoc, ← hfile]
      rfl
    have hlive : p.live capacity persistence filename file = .ok ((first.run p.slices).wal.file,
        ⟨first.completed p.slices, first.acked p.slices, (first.run p.slices).torn⟩) := by
      rw [Process.live, Process.start, hboot]
      rfl
    rw [hlive, hwal, Epoch.text, Epoch.commands, List.map_map]
    rfl
  · refine ⟨fun i ↦ ⟨_, hpending i⟩, fun i ↦ ⟨((first.run p.slices).phase i).unacked, ?_,
      Phase.length_unacked_le _⟩, ?_⟩
    · exact (hrefines.unacked_run howned p.slices i).symm
    · rcases eq_or_ne (first.run p.slices).torn [] with hnil | hne
      · exact Or.inl hnil
      · obtain ⟨i, c, hc, htorn⟩ := LockedServer.exists_of_torn hne
        refine Or.inr ⟨i, c, ?_, htorn⟩
        rw [← hpending i, hc, ← List.append_assoc]
        exact List.prefix_append _ _

/-- **Any number of processes**, from any log on. -/
theorem exists_lives (file : Bytes) (processes : List (Process ι)) :
    ∃ epochs, lives capacity persistence filename file processes =
        .ok (file ++ epochs.flatMap Epoch.text, epochs) ∧
      List.Forall₂ (fun p e ↦ Epoch.Of p e) processes epochs := by
  induction processes generalizing file with
  | nil => exact ⟨[], by rw [List.flatMap_nil, List.append_nil]; rfl, .nil⟩
  | cons p processes ih =>
    obtain ⟨e, hlive, he⟩ := p.exists_live capacity persistence filename file
    obtain ⟨epochs, hlives, hepochs⟩ := ih (file ++ e.text)
    refine ⟨e :: epochs, ?_, .cons he hepochs⟩
    rw [lives, hlive]
    show (lives capacity persistence filename (file ++ e.text) processes).bind
      (fun rest ↦ .ok (rest.1, e :: rest.2)) = _
    rw [hlives, List.flatMap_cons, ← List.append_assoc]
    rfl

/-- What the next process reads of the log. -/
theorem exists_lives_salvaged {processes : List (Process ι)}
    (hwf : ∀ p ∈ processes, p.WellFormed) :
    ∃ file epochs, lives capacity persistence filename [] processes = .ok (file, epochs) ∧
      List.Forall₂ (fun p e ↦ Epoch.Of p e) processes epochs ∧
      replayText file = salvage [] epochs ∧
      Salvaged (epochs.flatMap Epoch.commands) (tears epochs) (salvage [] epochs) ∧
      ((∀ e ∈ epochs, e.torn = []) → (salvage [] epochs).flatMap Record.writes =
        (epochs.flatMap Epoch.commands).flatMap Command.writes) := by
  obtain ⟨epochs, hlives, hepochs⟩ := exists_lives capacity persistence filename [] processes
  have hclean := clean_of_forall₂ hepochs hwf
  refine ⟨_, epochs, hlives, hepochs, replayText_epochs List.not_mem_nil hclean, ?_,
    fun hwhole ↦ ?_⟩
  · have hsalvaged := salvaged_epochs [] hclean
    rwa [if_pos rfl, Nat.zero_add] at hsalvaged
  · rw [salvage_of_whole hclean hwhole, flatMap_writes_record]

/-- **No stale reads.** After any number of processes that were killed at any slice, a `GET` of the
present one finds what the last of these writes left: those of the records that were read back at
its start, and then those that have changed its cache since; or it finds nothing. -/
theorem get_of_lives (processes : List (Process ι)) (hwf : ∀ p ∈ processes, p.WellFormed)
    (p : Process ι) (x : Slice ι) (key : Bytes) :
    ∃ file epochs s, lives capacity persistence filename [] processes = .ok (file, epochs) ∧
      p.start capacity persistence filename file = .ok s ∧
      Salvaged (epochs.flatMap Epoch.commands) (tears epochs) (salvage [] epochs) ∧
      ((∀ e ∈ epochs, e.torn = []) → (salvage [] epochs).flatMap Record.writes =
        (epochs.flatMap Epoch.commands).flatMap Command.writes) ∧
      ((s.run p.slices).phase x.client = .reads key →
        ∃ reply, ((s.run p.slices).step x).phase x.client = .found key reply ∧
          (reply = foundReply (overwrite key (persistence.load.lookup key)
              ((salvage [] epochs).flatMap Record.writes ++
                (s.changed p.slices).flatMap Command.writes)) ∨
            reply = foundReply none)) := by
  obtain ⟨file, epochs, hlives, -, hread, hsalvaged, hwhole⟩ :=
    exists_lives_salvaged capacity persistence filename hwf
  obtain ⟨b, hboot, hopen, hdata⟩ : ∃ b, TCPServer.boot capacity persistence filename file true
      p.loadClock p.replayClock = .ok b ∧ b.wal.isOpen = true ∧
        b.cache.data = (TCPServer.loaded capacity persistence).applyAll capacity
          ((salvage [] epochs).flatMap Record.writes) := by
    refine ⟨_, rfl, rfl, ?_⟩
    show (recover _ _ ⟨filename, file, true, true⟩ _ _).data = _
    rw [data_recover, WAL.replay, hread]
    rfl
  have hrefines := LockedServer.refines_ofServer hopen p.todo
  have howned := LockedServer.owned_ofServer b p.todo
  have hstart : p.start capacity persistence filename file = .ok (.ofServer b p.todo) := by
    rw [Process.start, hboot]
    rfl
  refine ⟨file, epochs, .ofServer b p.todo, hlives, hstart, hsalvaged, hwhole, fun hphase ↦ ?_⟩
  set s := (LockedServer.ofServer b p.todo).run p.slices
  have hrecalls := hrefines.recalls_run howned (TCPServer.recalls_of_data hdata) p.slices
  have hlast := (hrefines.run howned p.slices).2.1
  have hopen' : s.wal.isOpen = true := by
    rw [hlast.wal]
    exact hlast.isOpen
  have hnext : s.next x = some (LockedServer.goto { s with
      cache := (TCPServer.serve ⟨s.cache, s.wal⟩ ⟨.get key, x.now, x.access⟩).1.cache } x.client
      (.found key (TCPServer.serve ⟨s.cache, s.wal⟩ ⟨.get key, x.now, x.access⟩).2)) := by
    rw [LockedServer.next, hphase]
  refine ⟨(TCPServer.serve ⟨s.cache, s.wal⟩ ⟨.get key, x.now, x.access⟩).2, ?_, ?_⟩
  · rw [LockedServer.step, Progress.attempt_of_some hnext]
    exact LockedServer.phase_goto_self _ _
  · have hserve := TCPServer.serve_snd (s := ⟨s.cache, s.wal⟩) hopen' ⟨.get key, x.now, x.access⟩
    simp only [← SafeCache.get_snd s.cache key x.now x.access] at hserve
    rw [hserve]
    exact (hrecalls.get_snd key x.now x.access).imp (congrArg foundReply) (congrArg foundReply)

/-- A value that an earlier process has set. -/
theorem get_of_lives_two :
    let slice : ℕ → Slice Unit := fun chunk ↦ ⟨⟨(), 0, 0⟩, chunk⟩
    let p : Process Unit := ⟨fun _ ↦ [.command (.set [107] [1])], fun _ ↦ 0, fun _ ↦ 0,
      [0, 0, 0, 0, 0, 9].map slice⟩
    let q : Process Unit := ⟨fun _ ↦ [.command (.get [107])], fun _ ↦ 0, fun _ ↦ 0, [slice 0]⟩
    ∃ file epochs s, lives 2 ⟨[], [], true⟩ [] [] [p] = .ok (file, epochs) ∧
      q.start 2 ⟨[], [], true⟩ [] file = .ok s ∧
      ∃ reply, ((s.run q.slices).step (slice 0)).phase () = .found [107] reply ∧
        (reply = foundReply (some [1]) ∨ reply = foundReply none) := by
  intro slice p q
  obtain ⟨file, epochs, s, hlives, hstart, -, -, hget⟩ :=
    get_of_lives 2 ⟨[], [], true⟩ [] [p] (by decide) q (slice 0) [107]
  have hrun : lives 2 ⟨[], [], true⟩ [] [] [p] =
      .ok (Command.logText (.set [107] [1]), [⟨[((), .set [107] [1])], [], []⟩]) := by decide
  rw [hrun, Except.ok.injEq, Prod.mk.injEq] at hlives
  obtain ⟨rfl, rfl⟩ := hlives
  obtain rfl := Except.ok.inj hstart
  exact ⟨_, _, _, hrun, rfl, hget rfl⟩

end Lives

end DistCache
