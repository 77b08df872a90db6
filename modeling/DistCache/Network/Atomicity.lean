import DistCache.Network.Locks

/-!
# Behind the locks, calls are atomic

`Concurrency` takes a locked call for one step. Whether that is right is decided by the locks: in
`Locks` a call takes many slices, the slices of other threads come in between, a writer works on
what it has seen of the cache before, and a record gets into the file piece by piece.

Still, every interleaving of slices does what an interleaving of atomic steps does (`run_atomic`).
A call takes effect at one of its own slices (`atomic`): a call of the cache when it changes the
containers, `append` when the last byte of the record is in the file. Next to the locked server runs
the one with atomic steps. It has the same cache; its log is the file without the record that is
being written (`torn`); and it has given every client the same replies, but for those that are
decided and not given yet (`Phase.due`).
-/

namespace DistCache

open DistCache.System (ofClient)

/-- What happens to a server whose calls are atomic: a step of a client, or a round of the
cleanup. -/
inductive Action (ι : Type*) where
  | turn (t : Turn ι)
  | sweep (now : Time)

namespace System

variable {ι : Type*}

/-- Clients with their commands, and a server. -/
def ofServer (b : TCPServer) (todo : ι → List Command) : System ι where
  cache := b.cache
  wal := b.wal
  todo
  inFlight := []

variable [DecidableEq ι]

/-- The state after an action. -/
def act (s : System ι) : Action ι → System ι
  | .turn t => s.step t
  | .sweep now => { s with cache := s.cache.cleanupExpired now }

/-- The state after some actions. -/
def acts (s : System ι) (actions : List (Action ι)) : System ι := actions.foldl act s

/-- The reply that an action gives. -/
def actReply (s : System ι) : Action ι → List (ι × Reply)
  | .turn t => s.reply t
  | .sweep _ => []

/-- The replies that some actions give. -/
def actReplies (s : System ι) (actions : List (Action ι)) : List (ι × Reply) :=
  Machine.outputs act actReply s actions

/-- A client with something in flight logs it next. -/
theorem move_eq_log_of_ofClient {s : System ι} {i : ι} {c : Command} {rest : List Command}
    (h : ofClient i s.inFlight = c :: rest) : s.move i = .log c := by
  rcases hmove : s.move i with - | c' | c'
  · rw [move] at hmove
    rcases hfind : s.inFlight.find? (fun p ↦ p.1 = i) with - | p
    · have hnone : ∀ p ∈ s.inFlight, p.1 ≠ i := by simpa using List.find?_eq_none.1 hfind
      rw [ofClient_eq_nil.2 hnone] at h
      exact absurd h (by simp)
    · rw [hfind] at hmove
      simp at hmove
  · rw [(move_eq_enter_iff.1 hmove).1] at h
    exact absurd h (by simp)
  · have hlog := ofClient_log (t := ⟨i, 0, 0⟩) hmove i
    rw [if_pos rfl, h] at hlog
    rw [(List.cons.inj hlog).1]

end System

/-- The commands of a task. -/
def Task.commands : Task → List Command
  | command c => [c]
  | sweep => []

namespace Phase

/-- The command that the thread has begun with, as long as it has not reached the cache. -/
def ahead : Phase → List Command
  | reads key => [.get key]
  | alters t | altering t _ => t.commands
  | _ => []

/-- The command that has changed the cache, as long as its record is not complete. -/
def inFlight : Phase → List Command
  | altered t => t.commands
  | logs c => [c]
  | writes c n => if n < c.logText.length then [c] else []
  | _ => []

/-- The reply that is decided, as long as it is not given. -/
def due : Phase → List Reply
  | found _ reply | answers _ reply => [reply]
  | writes c n => if n < c.logText.length then [] else [okReply]
  | _ => []

/-- What the file holds of a record that is not complete. -/
def torn : Phase → Bytes
  | writes c n => if n < c.logText.length then c.logText.take n else []
  | _ => []

/-- The thread is not cleaning up. -/
def NoSweep : Phase → Prop
  | alters t | altering t _ | altered t => t ≠ .sweep
  | _ => True

end Phase

theorem Command.logText_length_pos (c : Command) : 0 < c.logText.length := by
  simp [Command.logText, Record.text]

namespace LockedServer

variable {ι : Type*}

/-- The end of the file, if it is not a whole record. -/
def torn (s : LockedServer ι) : Bytes :=
  match s.walMutex with
  | none => []
  | some i => (s.phase i).torn

/-- The atomic step that takes effect at a slice. -/
def atomic (s : LockedServer ι) (x : Slice ι) : List (Action ι) :=
  match s.phase x.client with
  | .reads _ => [.turn x.toTurn]
  | .altering (.command _) _ => [.turn x.toTurn]
  | .altering .sweep _ => [.sweep x.now]
  | .writes c n =>
    if n < c.logText.length ∧ c.logText.length ≤ n + (x.chunk + 1) then [.turn x.toTurn] else []
  | _ => []

/-- The reply that is given at a slice. -/
def answer (s : LockedServer ι) (x : Slice ι) : List (ι × Reply) :=
  match s.phase x.client with
  | .answers _ reply => [(x.client, reply)]
  | _ => []

theorem atomic_of_incomplete {s : LockedServer ι} {x : Slice ι} {c : Command} {n : ℕ}
    (hphase : s.phase x.client = .writes c n) (hless : n + (x.chunk + 1) < c.logText.length) :
    s.atomic x = [] := by
  rw [atomic, hphase]
  exact if_neg fun hboth ↦ absurd hboth.2 (Nat.not_le_of_lt hless)

theorem atomic_of_lastByte {s : LockedServer ι} {x : Slice ι} {c : Command} {n : ℕ}
    (hphase : s.phase x.client = .writes c n) (hn : n < c.logText.length)
    (hall : c.logText.length ≤ n + (x.chunk + 1)) : s.atomic x = [.turn x.toTurn] := by
  rw [atomic, hphase]
  exact if_pos ⟨hn, hall⟩

theorem atomic_of_complete {s : LockedServer ι} {x : Slice ι} {c : Command} {n : ℕ}
    (hphase : s.phase x.client = .writes c n) (hn : ¬ n < c.logText.length) :
    s.atomic x = [] := by
  rw [atomic, hphase]
  exact if_neg fun hboth ↦ absurd hboth.1 hn

variable [DecidableEq ι]

/-- The atomic steps that take effect in some slices. -/
def actions (s : LockedServer ι) (slices : List (Slice ι)) : List (Action ι) :=
  Machine.outputs step atomic s slices

/-- The replies that are given in some slices. -/
def answers (s : LockedServer ι) (slices : List (Slice ι)) : List (ι × Reply) :=
  Machine.outputs step answer s slices

/-! ### Next to the server with atomic steps -/

/-- Where client `i` stands there, when the thread is in phase `p` here. -/
structure Stands (a : System ι) (i : ι) (p : Phase) (todo : List Task) : Prop where
  todo : a.todo i = p.ahead ++ todo.flatMap Task.commands
  inFlight : ofClient i a.inFlight = p.inFlight

/-- The two servers side by side. -/
structure Refines (s : LockedServer ι) (a : System ι) : Prop where
  cache : a.cache = s.cache
  wal : s.wal = { a.wal with file := a.wal.file ++ s.torn }
  isOpen : a.wal.isOpen = true
  stands : ∀ i, Stands a i (s.phase i) (s.todo i)

theorem refines_ofServer {b : TCPServer} (h : b.wal.isOpen = true) (todo : ι → List Task) :
    Refines (ofServer b todo) (System.ofServer b fun i ↦ (todo i).flatMap Task.commands) where
  cache := rfl
  wal := by
    rw [torn]
    simp [ofServer, System.ofServer]
  isOpen := h
  stands := fun _ ↦ ⟨rfl, rfl⟩

section Refines

variable {s s' : LockedServer ι} {a : System ι} {x : Slice ι}

/-- The log file stays open. -/
theorem Refines.isOpen_wal (h : Refines s a) : s.wal.isOpen = true := by
  rw [h.wal]
  exact h.isOpen

theorem Refines.ensureFileOpen (h : Refines s a) : s.wal.ensureFileOpen = .ok s.wal := by
  rw [WAL.ensureFileOpen, if_pos h.isOpen_wal]

theorem Refines.move_enter (h : Refines s a) {i : ι} {c : Command}
    (hahead : (s.phase i).ahead = [c]) (hnone : (s.phase i).inFlight = []) :
    a.move i = .enter c := by
  refine System.move_eq_enter_iff.2 ⟨(h.stands i).inFlight.trans hnone, ?_⟩
  exact ⟨_, (h.stands i).todo.trans (by rw [hahead]; rfl)⟩

theorem Refines.move_log (h : Refines s a) {i : ι} {c : Command}
    (hflight : (s.phase i).inFlight = [c]) : a.move i = .log c :=
  System.move_eq_log_of_ofClient ((h.stands i).inFlight.trans hflight)

/-- A thread that does not hold `wal_mutex_` leaves the end of the file alone. -/
theorem Owned.torn_goto (h : Owned s) {i : ι} (hi : ¬ (s.phase i).Logs) {u : LockedServer ι}
    (hphase : u.phase = s.phase) (hmutex : u.walMutex = s.walMutex) (p : Phase) :
    (u.goto i p).torn = s.torn := by
  have hlogger : s.walMutex ≠ some i := fun heq ↦ hi ((h.holds i).logs.1 heq)
  have hgoto : (u.goto i p).walMutex = s.walMutex := hmutex
  rw [torn, torn, hgoto]
  rcases hmutex' : s.walMutex with - | j
  · rfl
  · have hj : j ≠ i := fun heq ↦ hlogger (heq ▸ hmutex')
    show (Function.update u.phase i p j).torn = _
    rw [Function.update_of_ne hj, hphase]

omit [DecidableEq ι] in
/-- The end of the file is what the thread has written that holds `wal_mutex_`. -/
theorem torn_of_walMutex {i : ι} (h : s.walMutex = some i) : s.torn = (s.phase i).torn := by
  rw [torn, h]

theorem torn_goto_self {i : ι} (h : s.walMutex = some i) (p : Phase) :
    (s.goto i p).torn = p.torn := by
  have hgoto : (s.goto i p).walMutex = some i := h
  rw [torn_of_walMutex hgoto]
  exact congrArg Phase.torn (Function.update_self ..)

/-- **The frame**: thread `i` gets on, and the others stand where they stood. -/
theorem Refines.goto (h : Refines s a) {b : System ι} {i : ι} {p : Phase}
    (hphase : s'.phase = s.phase) (hcache : b.cache = s'.cache)
    (hwal : s'.wal = { b.wal with file := b.wal.file ++ (s'.goto i p).torn })
    (hopen : b.wal.isOpen = true) (hi : Stands b i p (s'.todo i))
    (hothers : ∀ j, j ≠ i → s'.todo j = s.todo j ∧ b.todo j = a.todo j ∧
      ofClient j b.inFlight = ofClient j a.inFlight) : Refines (s'.goto i p) b := by
  refine ⟨hcache, hwal, hopen, fun j ↦ ?_⟩
  show Stands b j (Function.update s'.phase i p j) (s'.todo j)
  rcases eq_or_ne j i with rfl | hj
  · rwa [Function.update_self]
  · obtain ⟨htodo, htodo', hflight⟩ := hothers j hj
    rw [Function.update_of_ne hj, hphase, htodo]
    exact ⟨htodo'.trans (h.stands j).todo, hflight.trans (h.stands j).inFlight⟩

/-- A slice at which nothing takes effect. -/
theorem Refines.goto_idle (h : Refines s a) (ho : Owned s) {p : Phase}
    (hatomic : s.atomic x = []) (hphase : s'.phase = s.phase) (hcache : s'.cache = s.cache)
    (hwal : s'.wal = s.wal) (hmutex : s'.walMutex = s.walMutex) (hi : ¬ (s.phase x.client).Logs)
    (hahead : p.ahead ++ (s'.todo x.client).flatMap Task.commands =
      (s.phase x.client).ahead ++ (s.todo x.client).flatMap Task.commands)
    (hflight : p.inFlight = (s.phase x.client).inFlight)
    (hothers : ∀ j, j ≠ x.client → s'.todo j = s.todo j) :
    Refines (s'.goto x.client p) (a.acts (s.atomic x)) := by
  rw [hatomic]
  refine h.goto hphase (h.cache.trans hcache.symm) ?_ h.isOpen ⟨?_, ?_⟩
    fun j hj ↦ ⟨hothers j hj, rfl, rfl⟩
  · rw [hwal, ho.torn_goto hi hphase hmutex]
    exact h.wal
  · rw [hahead]
    exact (h.stands x.client).todo
  · rw [hflight]
    exact (h.stands x.client).inFlight

/-- A slice at which a client changes the cache. -/
theorem Refines.goto_enter (h : Refines s a) (ho : Owned s) {c : Command} {p : Phase}
    (hahead : (s.phase x.client).ahead = [c]) (hnone : (s.phase x.client).inFlight = [])
    (hi : ¬ (s.phase x.client).Logs) (hp : p.ahead = [])
    (hflight : p.inFlight = if c.isWrite = true then [c] else []) :
    Refines (LockedServer.goto { s with cache := s.cache.step (c.call x.now x.access) } x.client p)
      (a.step x.toTurn) := by
  have hmove : a.move x.toTurn.client = .enter c := h.move_enter hahead hnone
  have hthem : ∀ j, ofClient j (a.step x.toTurn).inFlight =
      ofClient j a.inFlight ++ if j = x.client ∧ c.isWrite = true then [c] else [] :=
    System.ofClient_enter hmove
  have htodo : (a.step x.toTurn).todo =
      Function.update a.todo x.client (a.todo x.client).tail := by
    rw [System.step_of_enter hmove]
  have hwal : (a.step x.toTurn).wal = a.wal := by rw [System.step_of_enter hmove]
  have htorn := ho.torn_goto hi (u := { s with cache := s.cache.step (c.call x.now x.access) })
    rfl rfl p
  refine h.goto rfl ?_ ?_ (hwal ▸ h.isOpen) ⟨?_, ?_⟩ fun j hj ↦ ⟨rfl, ?_, ?_⟩
  · rw [System.step_of_enter hmove, ← h.cache]
  · rw [hwal, htorn]
    exact h.wal
  · rw [htodo, Function.update_self, (h.stands x.client).todo, hahead, hp]
    rfl
  · rw [hthem, (h.stands x.client).inFlight, hnone, hflight]
    simp
  · rw [htodo, Function.update_of_ne hj]
  · rw [hthem, if_neg fun hboth ↦ hj hboth.1, List.append_nil]

/-- A slice at which a thread cleans up. -/
theorem Refines.goto_sweep (h : Refines s a) (ho : Owned s) {seen : SafeCache}
    (hphase : s.phase x.client = .altering .sweep seen) :
    Refines (LockedServer.goto { s with cache := s.cache.step (Task.sweep.call x.now x.access) }
      x.client (.altered .sweep)) (a.act (.sweep x.now)) := by
  have htorn := ho.torn_goto (i := x.client) (by rw [hphase]; exact id)
    (u := { s with cache := s.cache.step (Task.sweep.call x.now x.access) }) rfl rfl
    (.altered .sweep)
  refine h.goto rfl ?_ ?_ h.isOpen ⟨?_, ?_⟩ fun _ _ ↦ ⟨rfl, rfl, rfl⟩
  · exact congrArg (fun cache : SafeCache ↦ cache.cleanupExpired x.now) h.cache
  · rw [htorn]
    exact h.wal
  · refine (h.stands x.client).todo.trans ?_
    rw [hphase]
    rfl
  · refine (h.stands x.client).inFlight.trans ?_
    rw [hphase]
    rfl

/-- A slice at which a record gets further: its last byte is in the file, or it is not. -/
theorem Refines.goto_put (h : Refines s a) (ho : Owned s) {c : Command} {n : ℕ}
    (hphase : s.phase x.client = .writes c n) (hn : n < c.logText.length) :
    Refines (LockedServer.goto { s with wal := { s.wal with
      file := s.wal.file ++ (c.logText.drop n).take (x.chunk + 1) } } x.client
      (.writes c (n + (x.chunk + 1)))) (a.acts (s.atomic x)) := by
  have hmutex : s.walMutex = some x.client := (ho.holds x.client).logs.2 (by rw [hphase]; trivial)
  have htorn : s.torn = c.logText.take n := by
    rw [torn_of_walMutex hmutex, hphase]
    exact if_pos hn
  have hfile : s.wal.file = a.wal.file ++ c.logText.take n := by
    rw [← htorn]
    exact congrArg WAL.file h.wal
  have hflight : (s.phase x.client).inFlight = [c] := by
    rw [hphase]
    exact if_pos hn
  have hahead := (h.stands x.client).todo
  rw [hphase] at hahead
  -- what the file holds of the record afterwards
  have hmore : s.wal.file ++ (c.logText.drop n).take (x.chunk + 1) =
      a.wal.file ++ c.logText.take (n + (x.chunk + 1)) := by
    rw [hfile, List.append_assoc, ← List.take_add]
  have htorn' := torn_goto_self (s := { s with wal := { s.wal with
    file := s.wal.file ++ (c.logText.drop n).take (x.chunk + 1) } }) hmutex
    (.writes c (n + (x.chunk + 1)))
  rcases Nat.lt_or_ge (n + (x.chunk + 1)) c.logText.length with hless | hall
  · -- the record is still not complete
    rw [atomic_of_incomplete hphase hless]
    refine h.goto rfl h.cache ?_ h.isOpen ⟨hahead, ?_⟩ fun _ _ ↦ ⟨rfl, rfl, rfl⟩
    · rw [htorn', Phase.torn, if_pos hless, hmore, h.wal]
      rfl
    · refine ((h.stands x.client).inFlight.trans hflight).trans ?_
      exact (if_pos hless).symm
  · -- the last byte is in the file
    have hmove : a.move x.toTurn.client = .log c := h.move_log hflight
    have hthem : ∀ j, ofClient j a.inFlight =
        (if j = x.client then [c] else []) ++ ofClient j (a.step x.toTurn).inFlight :=
      System.ofClient_log hmove
    have hwal : (a.step x.toTurn).wal = { a.wal with file := a.wal.file ++ c.logText } := by
      rw [System.step_of_log hmove, TCPServer.logWrite_of_isOpen _ h.isOpen, WAL.textOf_cons,
        WAL.textOf_nil, List.append_nil]
      rfl
    rw [atomic_of_lastByte hphase hn hall]
    refine h.goto (b := a.step x.toTurn) rfl ?_ ?_ ?_ ⟨?_, ?_⟩ fun j hj ↦ ⟨rfl, ?_, ?_⟩
    · rw [System.step_of_log hmove]
      exact h.cache
    · rw [htorn', Phase.torn, if_neg (Nat.not_lt.2 hall), hwal, List.append_nil, hmore,
        List.take_of_length_le hall, h.wal]
    · rw [hwal]
      exact h.isOpen
    · rw [System.step_of_log hmove]
      exact hahead
    · have hself := hthem x.client
      rw [(h.stands x.client).inFlight, hflight, if_pos rfl] at hself
      rw [Phase.inFlight, if_neg (Nat.not_lt.2 hall)]
      exact (List.cons.inj hself).2.symm
    · rw [System.step_of_log hmove]
    · rw [hthem j, if_neg hj, List.nil_append]

/-- **One slice**, and the atomic step that takes effect at it. -/
theorem Refines.next (h : Refines s a) (ho : Owned s) (hnext : s.next x = some s') :
    Refines s' (a.acts (s.atomic x)) := by
  have hproper := ho.proper x.client
  have hlogger := (ho.holds x.client).logs
  cases moves_of_next hnext with
  | lockShared hphase htodo hlock =>
    have hatomic : s.atomic x = [] := by rw [atomic, hphase]
    refine h.goto_idle ho hatomic rfl rfl rfl rfl (by rw [hphase]; exact id) ?_
      (by rw [hphase]; rfl) fun j hj ↦ Function.update_of_ne hj ..
    rw [hphase, htodo]
    simp [Phase.ahead, Task.commands]
  | lock hphase htodo ht hlock =>
    have hatomic : s.atomic x = [] := by rw [atomic, hphase]
    refine h.goto_idle ho hatomic rfl rfl rfl rfl (by rw [hphase]; exact id) ?_
      (by rw [hphase]; rfl) fun j hj ↦ Function.update_of_ne hj ..
    rw [hphase, htodo]
    simp [Phase.ahead]
  | @get key hphase =>
    have hatomic : s.atomic x = [.turn x.toTurn] := by rw [atomic, hphase]
    have hserve := TCPServer.serve_eq (s := ⟨s.cache, s.wal⟩) h.isOpen_wal
      ⟨.get key, x.now, x.access⟩
    rw [hatomic, hserve]
    exact h.goto_enter ho (by rw [hphase]; rfl) (by rw [hphase]; rfl) (by rw [hphase]; exact id)
      rfl rfl
  | unlockShared hphase =>
    have hatomic : s.atomic x = [] := by rw [atomic, hphase]
    exact h.goto_idle ho hatomic rfl rfl rfl rfl (by rw [hphase]; exact id) (by rw [hphase]; rfl)
      (by rw [hphase]; rfl) fun _ _ ↦ rfl
  | look hphase =>
    have hatomic : s.atomic x = [] := by rw [atomic, hphase]
    exact h.goto_idle ho hatomic rfl rfl rfl rfl (by rw [hphase]; exact id) (by rw [hphase]; rfl)
      (by rw [hphase]; rfl) fun _ _ ↦ rfl
  | @change t seen hphase =>
    -- nobody else was at the cache since the thread looked at it
    obtain rfl := ho.seen x.client t seen hphase
    rw [hphase] at hproper
    cases t with
    | command c =>
      have hatomic : s.atomic x = [.turn x.toTurn] := by rw [atomic, hphase]
      rw [hatomic]
      exact h.goto_enter ho (by rw [hphase]; rfl) (by rw [hphase]; rfl) (by rw [hphase]; exact id)
        rfl (if_pos hproper).symm
    | sweep =>
      have hatomic : s.atomic x = [.sweep x.now] := by rw [atomic, hphase]
      rw [hatomic]
      exact h.goto_sweep ho hphase
  | @unlock t hphase =>
    have hatomic : s.atomic x = [] := by rw [atomic, hphase]
    refine h.goto_idle ho hatomic rfl rfl rfl rfl (by rw [hphase]; exact id) ?_ ?_ fun _ _ ↦ rfl
    · rw [hphase]
      cases t <;> rfl
    · rw [hphase]
      cases t <;> rfl
  | @opens c wal hphase hfree hensure =>
    have hatomic : s.atomic x = [] := by rw [atomic, hphase]
    obtain rfl : s.wal = wal := Except.ok.inj (h.ensureFileOpen.symm.trans hensure)
    have htorn : s.torn = [] := by rw [torn, hfree]
    have htorn' : (LockedServer.goto { s with walMutex := some x.client } x.client
        (.writes c 0)).torn = [] := by
      rw [torn_goto_self rfl, Phase.torn, List.take_zero, ite_self]
    rw [hatomic]
    refine h.goto rfl h.cache ?_ h.isOpen ⟨?_, ?_⟩ fun _ _ ↦ ⟨rfl, rfl, rfl⟩
    · rw [htorn', ← htorn]
      exact h.wal
    · refine (h.stands x.client).todo.trans ?_
      rw [hphase]
      rfl
    · refine (h.stands x.client).inFlight.trans ?_
      rw [hphase]
      exact (if_pos c.logText_length_pos).symm
  | throws hphase hfree hensure =>
    rw [h.ensureFileOpen] at hensure
    exact absurd hensure (by simp)
  | put hphase hn => exact h.goto_put ho hphase hn
  | @closes c n hphase hn =>
    have hmutex : s.walMutex = some x.client := hlogger.2 (by rw [hphase]; trivial)
    have htorn : s.torn = [] := by
      rw [torn_of_walMutex hmutex, hphase]
      exact if_neg (Nat.not_lt.2 hn)
    rw [atomic_of_complete hphase (Nat.not_lt.2 hn)]
    refine h.goto rfl h.cache ?_ h.isOpen ⟨?_, ?_⟩ fun _ _ ↦ ⟨rfl, rfl, rfl⟩
    · have htorn' : (LockedServer.goto { s with walMutex := none } x.client
          (.answers c okReply)).torn = [] := rfl
      rw [htorn', ← htorn]
      exact h.wal
    · refine (h.stands x.client).todo.trans ?_
      rw [hphase]
      rfl
    · refine (h.stands x.client).inFlight.trans ?_
      rw [hphase]
      exact if_neg (Nat.not_lt.2 hn)
  | answer hphase =>
    have hatomic : s.atomic x = [] := by rw [atomic, hphase]
    exact h.goto_idle ho hatomic rfl rfl rfl rfl (by rw [hphase]; exact id) (by rw [hphase]; rfl)
      (by rw [hphase]; rfl) fun _ _ ↦ rfl

/-! ### The replies -/

omit [DecidableEq ι] in
theorem answer_of_ne [DecidableEq ι] {j : ι} (hj : j ≠ x.client) :
    ofClient j (s.answer x) = [] := by
  rw [answer]
  split
  · exact System.ofClient_singleton_of_ne (Ne.symm hj) _
  · rfl

theorem actReplies_of_ne {j : ι} (hj : j ≠ x.client) :
    ofClient j (a.actReplies (s.atomic x)) = [] := by
  have hreply : ofClient j (a.reply x.toTurn) = [] := by
    rw [System.reply]
    split
    · rfl
    · split_ifs
      · rfl
      · exact System.ofClient_singleton_of_ne (Ne.symm hj) _
    · exact System.ofClient_singleton_of_ne (Ne.symm hj) _
  have hturn : a.actReplies [.turn x.toTurn] = a.reply x.toTurn := List.append_nil _
  rw [atomic]
  split
  · rw [hturn, hreply]
  · rw [hturn, hreply]
  · rfl
  · split_ifs
    · rw [hturn, hreply]
    · rfl
  · rfl

/-- The other threads stand where they stood. -/
theorem phase_next_of_ne (hnext : s.next x = some s') {j : ι} (hj : j ≠ x.client) :
    s'.phase j = s.phase j := by
  cases moves_of_next hnext <;> exact Function.update_of_ne hj ..

theorem phase_goto_self (i : ι) (p : Phase) : (s.goto i p).phase i = p := Function.update_self ..

/-- **One slice** gives the reply that is due, and the atomic step decides one. -/
theorem Refines.due_next (h : Refines s a) (ho : Owned s) (hnext : s.next x = some s') (i : ι) :
    ofClient i (s.answer x) ++ (s'.phase i).due =
      (s.phase i).due ++ ofClient i (a.actReplies (s.atomic x)) := by
  rcases eq_or_ne i x.client with rfl | hi
  swap
  · rw [answer_of_ne hi, actReplies_of_ne hi, phase_next_of_ne hnext hi, List.append_nil,
      List.nil_append]
  have hproper := ho.proper x.client
  have hturn : a.actReplies [.turn x.toTurn] = a.reply x.toTurn := List.append_nil _
  cases moves_of_next hnext with
  | @get key hphase =>
    have hatomic : s.atomic x = [.turn x.toTurn] := by rw [atomic, hphase]
    have hanswer : s.answer x = [] := by rw [answer, hphase]
    have hmove : a.move x.toTurn.client = .enter (.get key) :=
      h.move_enter (by rw [hphase]; rfl) (by rw [hphase]; rfl)
    have hreply : a.reply x.toTurn =
        [(x.client, (TCPServer.serve ⟨a.cache, a.wal⟩ ⟨.get key, x.now, x.access⟩).2)] := by
      rw [System.reply, hmove]
      rfl
    have hsame : (TCPServer.serve ⟨a.cache, a.wal⟩ ⟨.get key, x.now, x.access⟩).2 =
        (TCPServer.serve ⟨s.cache, s.wal⟩ ⟨.get key, x.now, x.access⟩).2 :=
      TCPServer.serve_snd_of_not_isWrite h.cache rfl
    rw [hatomic, hturn, hreply, hanswer, phase_goto_self, hphase, System.ofClient_singleton_self,
      hsame]
    rfl
  | @change t seen hphase =>
    have hanswer : s.answer x = [] := by rw [answer, hphase]
    rw [hphase] at hproper
    rw [hanswer, phase_goto_self, hphase]
    cases t with
    | command c =>
      -- a write is not answered yet
      have hatomic : s.atomic x = [.turn x.toTurn] := by rw [atomic, hphase]
      have hmove : a.move x.toTurn.client = .enter c :=
        h.move_enter (by rw [hphase]; rfl) (by rw [hphase]; rfl)
      have hreply : a.reply x.toTurn = [] := by
        rw [System.reply, hmove]
        exact if_pos hproper
      rw [hatomic, hturn, hreply]
      rfl
    | sweep =>
      have hatomic : s.atomic x = [.sweep x.now] := by rw [atomic, hphase]
      rw [hatomic]
      rfl
  | @put c n hphase hn =>
    have hanswer : s.answer x = [] := by rw [answer, hphase]
    have hdue : (Phase.writes c n).due = [] := if_pos hn
    rw [hanswer, phase_goto_self, hphase, hdue]
    rcases Nat.lt_or_ge (n + (x.chunk + 1)) c.logText.length with hless | hall
    · rw [atomic_of_incomplete hphase hless]
      exact if_pos hless
    · have hmove : a.move x.toTurn.client = .log c :=
        h.move_log (by rw [hphase]; exact if_pos hn)
      have hreply : a.reply x.toTurn = [(x.client, okReply)] := by
        rw [System.reply, hmove]
        simp only
        rw [TCPServer.logWrite_of_isOpen _ h.isOpen]
        rfl
      rw [atomic_of_lastByte hphase hn hall, hturn, hreply, System.ofClient_singleton_self]
      exact if_neg (Nat.not_lt.2 hall)
  | @closes c n hphase hn =>
    have hanswer : s.answer x = [] := by rw [answer, hphase]
    have hdue : (Phase.writes c n).due = [okReply] := if_neg (Nat.not_lt.2 hn)
    rw [atomic_of_complete hphase (Nat.not_lt.2 hn), hanswer, phase_goto_self, hphase, hdue]
    rfl
  | answer hphase =>
    have hatomic : s.atomic x = [] := by rw [atomic, hphase]
    rw [hatomic, LockedServer.answer, phase_goto_self, hphase]
    simp only [System.ofClient_singleton_self]
    rfl
  | throws hphase hfree hensure =>
    rw [h.ensureFileOpen] at hensure
    exact absurd hensure (by simp)
  | opens hphase hfree hensure =>
    have hatomic : s.atomic x = [] := by rw [atomic, hphase]
    have hanswer : s.answer x = [] := by rw [LockedServer.answer, hphase]
    rw [hatomic, hanswer, phase_goto_self, hphase]
    exact if_pos (Command.logText_length_pos _)
  | @unlock t hphase =>
    have hatomic : s.atomic x = [] := by rw [atomic, hphase]
    have hanswer : s.answer x = [] := by rw [LockedServer.answer, hphase]
    rw [hatomic, hanswer, phase_goto_self, hphase]
    cases t <;> rfl
  | lockShared hphase | lock hphase | unlockShared hphase | look hphase =>
    have hatomic : s.atomic x = [] := by rw [atomic, hphase]
    have hanswer : s.answer x = [] := by rw [LockedServer.answer, hphase]
    rw [hatomic, hanswer, phase_goto_self, hphase]
    rfl

/-- At a slice that is blocked nothing takes effect, and no reply is given. -/
theorem blocked_of_next (hnext : s.next x = none) : s.atomic x = [] ∧ s.answer x = [] := by
  rw [LockedServer.next] at hnext
  rw [atomic, answer]
  rcases hphase : s.phase x.client with - | key | ⟨key, reply⟩ | t | ⟨t, seen⟩ | t | c | ⟨c, n⟩ |
    ⟨c, reply⟩ <;> rw [hphase] at hnext
  case writes =>
    simp only at hnext
    split_ifs at hnext
  all_goals first | exact ⟨rfl, rfl⟩ | exact absurd hnext (by simp)

/-- **Any slice.** -/
theorem Refines.step (h : Refines s a) (ho : Owned s) (x : Slice ι) :
    Refines (s.step x) (a.acts (s.atomic x)) ∧
      ∀ i, ofClient i (s.answer x) ++ ((s.step x).phase i).due =
        (s.phase i).due ++ ofClient i (a.actReplies (s.atomic x)) := by
  rcases hnext : s.next x with - | s'
  · obtain ⟨hatomic, hanswer⟩ := blocked_of_next hnext
    have hstep : s.step x = s := Progress.attempt_of_none hnext
    rw [hatomic, hanswer, hstep]
    exact ⟨h, fun _ ↦ (List.append_nil _).symm⟩
  · have hstep : s.step x = s' := Progress.attempt_of_some hnext
    rw [hstep]
    exact ⟨h.next ho hnext, h.due_next ho hnext⟩

/-! ### Threads without a cleanup -/

/-- No thread cleans up. -/
structure NoSweeps (s : LockedServer ι) : Prop where
  todo : ∀ i, Task.sweep ∉ s.todo i
  phase : ∀ i, (s.phase i).NoSweep

theorem NoSweeps.goto (h : NoSweeps s) {i : ι} {p : Phase} (hphase : s'.phase = s.phase)
    (htodo : ∀ j, s'.todo j ⊆ s.todo j) (hp : p.NoSweep) : NoSweeps (s'.goto i p) := by
  refine ⟨fun j hmem ↦ h.todo j (htodo j hmem), fun j ↦ ?_⟩
  show (Function.update s'.phase i p j).NoSweep
  rcases eq_or_ne j i with rfl | hj
  · rwa [Function.update_self]
  · rw [Function.update_of_ne hj, hphase]
    exact h.phase j

theorem NoSweeps.next (h : NoSweeps s) (hnext : s.next x = some s') : NoSweeps s' := by
  have hself : ∀ j, s.todo j ⊆ s.todo j := fun _ _ hmem ↦ hmem
  have hrest : ∀ {t : Task} {rest : List Task}, s.todo x.client = t :: rest →
      ∀ j, Function.update s.todo x.client rest j ⊆ s.todo j := by
    intro t rest htodo j
    rcases eq_or_ne j x.client with rfl | hj
    · rw [Function.update_self, htodo]
      exact List.subset_cons_self t rest
    · rw [Function.update_of_ne hj]
      exact hself j
  have hphase' := h.phase x.client
  cases moves_of_next hnext with
  | lockShared hphase htodo hlock => exact h.goto rfl (hrest htodo) trivial
  | @lock t rest mtx hphase htodo ht hlock =>
    refine h.goto rfl (hrest htodo) fun hsweep ↦ h.todo x.client ?_
    rw [htodo, ← hsweep]
    exact List.mem_cons_self
  | look hphase | change hphase =>
    rw [hphase] at hphase'
    exact h.goto rfl hself hphase'
  | @unlock t hphase =>
    cases t <;> exact h.goto rfl hself trivial
  | get hphase | unlockShared hphase | opens hphase | throws hphase | put hphase | closes hphase
  | answer hphase => exact h.goto rfl hself trivial

end Refines

/-! ### A run -/

/-- **A run** of slices is a run of atomic steps. -/
theorem Refines.run {s : LockedServer ι} {a : System ι} (h : Refines s a) (ho : Owned s)
    (slices : List (Slice ι)) : Owned (s.run slices) ∧
      Refines (s.run slices) (a.acts (s.actions slices)) ∧
      ∀ i, ofClient i (s.answers slices) ++ ((s.run slices).phase i).due =
        (s.phase i).due ++ ofClient i (a.actReplies (s.actions slices)) := by
  have hstep : ∀ (s : LockedServer ι) (a : System ι) (x : Slice ι), Owned s ∧ Refines s a →
      Owned (s.step x) ∧ Refines (s.step x) (a.acts (s.atomic x)) :=
    fun s a x h ↦ ⟨h.1.step x, (h.2.step h.1 x).1⟩
  have hrun := Machine.simulation hstep ⟨ho, h⟩ slices
  refine ⟨hrun.1, hrun.2, fun i ↦ ?_⟩
  have hreply : ∀ (s : LockedServer ι) (a : System ι) (x : Slice ι), Owned s ∧ Refines s a →
      (Owned (s.step x) ∧ Refines (s.step x) (a.acts (s.atomic x))) ∧
        ofClient i (s.answer x) ++ ((s.step x).phase i).due = (s.phase i).due ++
          ofClient i (Machine.outputs System.act System.actReply a (s.atomic x)) :=
    fun s a x h ↦ ⟨hstep s a x h, (h.2.step h.1 x).2 i⟩
  exact Machine.simulation_outputs (R := fun (s : LockedServer ι) a ↦ Owned s ∧ Refines s a)
    (ofClient i) (ofClient i) (fun s ↦ (s.phase i).due) (System.ofClient_nil i)
    (System.ofClient_nil i) (System.ofClient_append i) (System.ofClient_append i) hreply ⟨ho, h⟩
    slices

end LockedServer

end DistCache
