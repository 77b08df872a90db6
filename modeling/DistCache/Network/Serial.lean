import DistCache.Network.LogOrder

/-!
# The serial run behind an interleaving

A `GET` is answered at its only step, a write is answered with `OK` at its second one, whatever
happened in between. So as long as the log is open, the commands taken one at a time, in the order
of their steps at the cache, explain all that the clients see: the serial server ends with the same
cache, to the last access time, and gives every client the same replies (`serial_run_start`). The
order is one that every client could have sent alone. Only the log may tell the two apart, and only
by its order.
-/

namespace DistCache

/-- The reply to a write that succeeds. -/
def okReply : Reply := ⟨bytes ['O', 'K'], true⟩

namespace TCPServer

variable {ι : Type*}

/-- The replies of the server to requests that it serves one at a time, with their clients. -/
def replies (s : TCPServer) (requests : List (ι × Request)) : List (ι × Reply) :=
  Machine.outputs (fun s p ↦ (s.serve p.2).1) (fun s p ↦ [(p.1, (s.serve p.2).2)]) s requests

/-- The server after these requests. -/
def runOf (s : TCPServer) (requests : List (ι × Request)) : TCPServer :=
  s.run (requests.map fun p ↦ .request p.2)

theorem replies_append (s : TCPServer) (l l' : List (ι × Request)) :
    s.replies (l ++ l') = s.replies l ++ (s.runOf l).replies l' := by
  rw [replies, Machine.outputs_append, runOf, run, List.foldl_map]
  rfl

theorem runOf_append (s : TCPServer) (l l' : List (ι × Request)) :
    s.runOf (l ++ l') = (s.runOf l).runOf l' := by
  rw [runOf, List.map_append, run, List.foldl_append]
  rfl

/-- The reply to a write. -/
theorem serve_snd_of_isWrite {s : TCPServer} (h : s.wal.isOpen = true) {r : Request}
    (hr : r.command.isWrite = true) : (s.serve r).2 = okReply := by
  obtain ⟨c, now, access⟩ := r
  cases c with
  | set key value =>
    show (logWrite ⟨s.cache.set key value (-1) now, s.wal⟩ setCmd key value).2 = _
    rw [logWrite_of_isOpen _ h]
    rfl
  | get key => exact absurd hr (by simp [Command.isWrite, Command.records])
  | del key =>
    show (logWrite ⟨s.cache.del key, s.wal⟩ delCmd key []).2 = _
    rw [logWrite_of_isOpen _ h]
    rfl

/-- The reply to a `GET` depends on the cache only. -/
theorem serve_snd_of_not_isWrite {s q : TCPServer} (h : s.cache = q.cache) {r : Request}
    (hr : r.command.isWrite = false) : (s.serve r).2 = (q.serve r).2 := by
  obtain ⟨c, now, access⟩ := r
  have hne : ¬ getCmd = setCmd := by decide
  cases c with
  | set key value => exact absurd hr (by simp [Command.isWrite, Command.records])
  | get key =>
    rw [serve, serve, processCommand, processCommand, Command.cmd, if_neg hne, if_neg hne,
      if_pos rfl, if_pos rfl, h]
  | del key => exact absurd hr (by simp [Command.isWrite, Command.records])

end TCPServer

namespace System

variable {ι : Type*} [DecidableEq ι]

/-- The request a step takes to the cache, with its client. -/
def enters (s : System ι) (t : Turn ι) : List (ι × Request) :=
  match s.move t.client with
  | .enter c => [(t.client, ⟨c, t.now, t.access⟩)]
  | _ => []

/-- The requests of a schedule, in the order of their steps at the cache. -/
def serialOrder (s : System ι) (schedule : List (Turn ι)) : List (ι × Request) :=
  Machine.outputs step enters s schedule

/-- The reply a step sends: to a `GET` at the cache, to a write at the log. -/
def reply (s : System ι) (t : Turn ι) : List (ι × Reply) :=
  match s.move t.client with
  | .idle => []
  | .enter c =>
    if c.isWrite then []
    else [(t.client, (TCPServer.serve ⟨s.cache, s.wal⟩ ⟨c, t.now, t.access⟩).2)]
  | .log c => [(t.client, (TCPServer.logWrite ⟨s.cache, s.wal⟩ c.cmd c.key c.value).2)]

/-- The replies of a schedule, in the order in which they are sent. -/
def replies (s : System ι) (schedule : List (Turn ι)) : List (ι × Reply) :=
  Machine.outputs step reply s schedule

/-- The replies that the writes in flight are going to get, as long as the log stays open. -/
def owed (s : System ι) (i : ι) : List Reply := (ofClient i s.inFlight).map fun _ ↦ okReply

/-! ### One step -/

theorem isOpen_step {s : System ι} (h : s.wal.isOpen = true) (t : Turn ι) :
    (s.step t).wal.isOpen = true := by
  rcases hmove : s.move t.client with - | c | c
  · rwa [step, hmove]
  · rwa [step_of_enter hmove]
  · rw [step_of_log hmove, TCPServer.logWrite_of_isOpen _ h]
    exact h

/-- A step takes the first of what its client has still to send. -/
theorem todo_step (i : ι) (s : System ι) (t : Turn ι) :
    (ofClient i (s.enters t)).map Request.command ++ (s.step t).todo i = s.todo i := by
  rcases hmove : s.move t.client with - | c | c
  · rw [enters, step, hmove]
    rfl
  · have henters : s.enters t = [(t.client, ⟨c, t.now, t.access⟩)] := by rw [enters, hmove]
    rw [henters, todo_enter hmove i]
    rcases eq_or_ne i t.client with rfl | hi
    · rw [ofClient_singleton_self, if_pos rfl, List.map_singleton]
    · rw [ofClient_singleton_of_ne (Ne.symm hi), if_neg hi, List.map_nil]
  · rw [enters, hmove, step_of_log hmove]
    rfl

/-- **One step**, next to a serial server that has the same cache. -/
theorem serial_step {s : System ι} {q : TCPServer} (hs : s.wal.isOpen = true)
    (hq : q.wal.isOpen = true) (hcache : q.cache = s.cache) (t : Turn ι) :
    (q.runOf (s.enters t)).cache = (s.step t).cache ∧ (q.runOf (s.enters t)).wal.isOpen = true ∧
      ∀ i, ofClient i (s.reply t) ++ (s.step t).owed i =
        s.owed i ++ ofClient i (q.replies (s.enters t)) := by
  rcases hmove : s.move t.client with - | c | c
  · have henters : s.enters t = [] := by rw [enters, hmove]
    have hreply : s.reply t = [] := by rw [reply, hmove]
    have hstep : s.step t = s := by rw [step, hmove]
    rw [henters, hreply, hstep]
    exact ⟨hcache, hq, fun i ↦ (List.append_nil _).symm⟩
  · have henters : s.enters t = [(t.client, ⟨c, t.now, t.access⟩)] := by rw [enters, hmove]
    have hserve := TCPServer.serve_eq hq ⟨c, t.now, t.access⟩
    have hrun : q.runOf (s.enters t) = (q.serve ⟨c, t.now, t.access⟩).1 := by rw [henters]; rfl
    have hreplies : q.replies (s.enters t) = [(t.client, (q.serve ⟨c, t.now, t.access⟩).2)] := by
      rw [henters]
      rfl
    refine ⟨?_, ?_, fun i ↦ ?_⟩
    · rw [hrun, hserve, step_of_enter hmove, hcache]
      rfl
    · rw [hrun, hserve]
      exact hq
    · rw [hreplies, owed, ofClient_enter hmove, owed]
      rcases eq_or_ne i t.client with rfl | hi
      · -- the client has nothing in flight: a read is answered at once, a write is owed its `OK`
        rw [(move_eq_enter_iff.1 hmove).1, ofClient_singleton_self, List.nil_append, List.map_nil,
          List.nil_append]
        rcases hwrite : c.isWrite with - | -
        · have hreply : s.reply t =
              [(t.client, (TCPServer.serve ⟨s.cache, s.wal⟩ ⟨c, t.now, t.access⟩).2)] := by
            rw [reply, hmove]
            simp [hwrite]
          rw [hreply, ofClient_singleton_self,
            TCPServer.serve_snd_of_not_isWrite (q := q) hcache.symm hwrite]
          simp
        · have hreply : s.reply t = [] := by
            rw [reply, hmove]
            simp [hwrite]
          rw [hreply, TCPServer.serve_snd_of_isWrite hq hwrite]
          simp
      · have hreply : ofClient i (s.reply t) = [] := by
          rw [reply, hmove]
          by_cases hwrite : c.isWrite = true
          · simp [hwrite]
          · simp [hwrite, ofClient_singleton_of_ne (Ne.symm hi)]
        rw [hreply, if_neg (by simp [hi]), ofClient_singleton_of_ne (Ne.symm hi)]
        simp
  · have henters : s.enters t = [] := by rw [enters, hmove]
    have hreply : s.reply t = [(t.client, okReply)] := by
      rw [reply, hmove]
      simp only
      rw [TCPServer.logWrite_of_isOpen _ hs]
      rfl
    rw [henters, hreply]
    refine ⟨?_, hq, fun i ↦ ?_⟩
    · rw [step_of_log hmove]
      exact hcache
    · rw [owed, owed, ofClient_log hmove i]
      have hnone : ofClient i (q.replies ([] : List (ι × Request))) = [] := rfl
      rw [hnone, List.append_nil, List.map_append]
      rcases eq_or_ne i t.client with rfl | hi
      · rw [ofClient_singleton_self, if_pos rfl, List.map_singleton]
      · rw [ofClient_singleton_of_ne (Ne.symm hi), if_neg hi, List.map_nil]

/-! ### A run -/

/-- **A run**, next to a serial server that has the same cache. -/
theorem serial_run {s : System ι} {q : TCPServer} (hs : s.wal.isOpen = true)
    (hq : q.wal.isOpen = true) (hcache : q.cache = s.cache) (schedule : List (Turn ι)) :
    (q.runOf (s.serialOrder schedule)).cache = (s.run schedule).cache ∧
      ∀ i, ofClient i (s.replies schedule) ++ (s.run schedule).owed i =
        s.owed i ++ ofClient i (q.replies (s.serialOrder schedule)) := by
  induction schedule generalizing s q with
  | nil => exact ⟨hcache, fun i ↦ (List.append_nil _).symm⟩
  | cons t schedule ih =>
    have horder : s.serialOrder (t :: schedule) = s.enters t ++ (s.step t).serialOrder schedule :=
      rfl
    have hreplies : s.replies (t :: schedule) = s.reply t ++ (s.step t).replies schedule := rfl
    have hrun : s.run (t :: schedule) = (s.step t).run schedule := rfl
    obtain ⟨hcache', hq', hstep⟩ := serial_step hs hq hcache t
    obtain ⟨hfinal, hrest⟩ := ih (isOpen_step hs t) hq' hcache'
    rw [horder, TCPServer.runOf_append, TCPServer.replies_append, hreplies, hrun]
    refine ⟨hfinal, fun i ↦ ?_⟩
    rw [ofClient_append, ofClient_append, List.append_assoc, hrest i, ← List.append_assoc,
      hstep i, List.append_assoc]

/-- **A run** takes from the front of what every client has to send. -/
theorem todo_run (s : System ι) (schedule : List (Turn ι)) (i : ι) :
    (ofClient i (s.serialOrder schedule)).map Request.command ++ (s.run schedule).todo i =
      s.todo i :=
  Machine.outputs_append_stock (fun l ↦ (ofClient i l).map Request.command) rfl
    (fun l l' ↦ by rw [ofClient_append, List.map_append]) (fun s ↦ s.todo i) (todo_step i) s
    schedule

/-- **Every interleaving is explained by a serial run**: take the commands one at a time, in the
order of their steps at the cache, which is an order each client could have sent alone. Then the
cache is the same, every client is given the same replies, but for the `OK`s still owed for writes
in flight, and the log holds the same writes of every client, but for those in flight. -/
theorem serial_run_start (capacity : ℕ) (filename : Bytes) (todo : ι → List Command)
    (schedule : List (Turn ι)) :
    let first := start capacity filename todo
    let s := first.run schedule
    let order := first.serialOrder schedule
    (TCPServer.fresh capacity filename |>.runOf order).cache = s.cache ∧
      ∀ i, (ofClient i order).map Request.command ++ s.todo i = todo i ∧
        ofClient i (first.replies schedule) ++ s.owed i =
          ofClient i ((TCPServer.fresh capacity filename).replies order) ∧
        ofClient i (first.logged schedule) ++ ofClient i s.inFlight =
          ((ofClient i order).map Request.command).filter Command.isWrite := by
  intro first s order
  have hserial := serial_run (s := first) (q := TCPServer.fresh capacity filename) rfl rfl rfl
    schedule
  refine ⟨hserial.1, fun i ↦ ⟨todo_run first schedule i, hserial.2 i, ?_⟩⟩
  -- both are the writes of the client without those it has not sent yet
  have hpending : ofClient i (first.logged schedule) ++ s.pending i =
      (todo i).filter Command.isWrite := pending_run first schedule i
  have hsent : (ofClient i order).map Request.command ++ s.todo i = todo i :=
    todo_run first schedule i
  rw [pending, ← List.append_assoc, ← hsent, List.filter_append] at hpending
  exact List.append_cancel_right hpending

end System

end DistCache
