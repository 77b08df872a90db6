import DistCache.Lib.WriteLog
import DistCache.Storage.SafeCache
import DistCache.Storage.WAL

/-!
# `TCPServer::process_command`

A write goes to the cache first and to the log second; `OK` is sent when both are done. The two
parts each take their own lock, which is what `Concurrency` is about; here a command runs alone.

As long as the log stream is open, a command is a call of the cache and at most one record of the
log (`step_eq`), and a run of commands and cleanups is a run of the cache next to a growing file
(`run_eq`). Statements about runs of the server are proved from `run_eq`, without looking at
`process_command` again.

The lookup in the hash ring at the top of `process_command` only prints and is left out.
-/

namespace DistCache

/-- `"SET"`. -/
def setCmd : Bytes := bytes ['S', 'E', 'T']

/-- `"GET"`. -/
def getCmd : Bytes := bytes ['G', 'E', 'T']

/-- `"DEL"`. -/
def delCmd : Bytes := bytes ['D', 'E', 'L']

/-- The components `process_command` works on. -/
structure TCPServer where
  cache : SafeCache
  wal : WAL

/-- What `process_command` reports: the response and its return value. -/
structure Reply where
  response : Bytes
  success : Bool
  deriving DecidableEq, Repr

namespace TCPServer

/-- The `wal_.append` of a write and the `catch` around it. What the cache did before stays done. -/
def logWrite (s : TCPServer) (cmd key value : Bytes) : TCPServer × Reply :=
  match s.wal.append cmd key value with
  | .ok wal => ({ s with wal }, ⟨bytes ['O', 'K'], true⟩)
  | .error what => (s, ⟨bytes ['E', 'R', 'R', ' '] ++ what, false⟩)

/-- `TCPServer::process_command`. The readings are those of the cache call it makes. -/
def processCommand (s : TCPServer) (cmd key value : Bytes) (now access : Time) :
    TCPServer × Reply :=
  if cmd = setCmd then
    logWrite { s with cache := s.cache.set key value (-1) now } setCmd key value
  else if cmd = getCmd then
    let r := s.cache.get key now access
    ({ s with cache := r.1 }, ⟨r.2.getD (bytes ['(', 'n', 'i', 'l', ')']), true⟩)
  else if cmd = delCmd then
    logWrite { s with cache := s.cache.del key } delCmd key []
  else (s, ⟨bytes "ERR unknown command".toList, false⟩)

end TCPServer

/-! ### Commands -/

/-- The commands the server knows. -/
inductive Command where
  | set (key value : Bytes)
  | get (key : Bytes)
  | del (key : Bytes)
  deriving DecidableEq, Repr

namespace Command

/-- The command word. -/
def cmd : Command → Bytes
  | set _ _ => setCmd
  | get _ => getCmd
  | del _ => delCmd

def key : Command → Bytes
  | set key _ => key
  | get key => key
  | del key => key

/-- The value argument, which only a `SET` has. -/
def value : Command → Bytes
  | set _ value => value
  | get _ => []
  | del _ => []

/-- What the command leaves in the log. -/
def records : Command → List Record
  | set key value => [⟨setCmd, key, value⟩]
  | get _ => []
  | del key => [⟨delCmd, key, []⟩]

/-- What the command writes to the map of keys and values. -/
def writes : Command → List (Recency.Write Bytes Bytes)
  | set key value => [.put key value]
  | get _ => []
  | del key => [.erase key]

/-- The call of the cache the command makes. -/
def call (now access : Time) : Command → LRUCache.Call
  | set key value => .set key value (-1) now
  | get key => .get key now access
  | del key => .del key

end Command

/-- A command of a client, with the readings of its cache call. -/
structure Request where
  command : Command
  now : Time
  access : Time
  deriving DecidableEq, Repr

/-- The call of the cache a request makes. -/
def Request.call (r : Request) : LRUCache.Call := r.command.call r.now r.access

/-- What happens to the server: a request, or a round of the cleanup thread. -/
inductive Event where
  | request (r : Request)
  | cleanup (now : Time)
  deriving DecidableEq, Repr

namespace Event

/-- The call of the cache an event makes. -/
def call : Event → LRUCache.Call
  | request r => r.call
  | cleanup now => .cleanupExpired now

/-- What an event leaves in the log. -/
def records : Event → List Record
  | request r => r.command.records
  | cleanup _ => []

end Event

namespace TCPServer

/-- A server with an empty cache and an empty log, as `main` starts it on a missing file. -/
def fresh (capacity : ℕ) (filename : Bytes) : TCPServer where
  cache := SafeCache.new capacity
  wal := { filename, file := [], isOpen := true, openable := true }

/-- One of the known commands. -/
def serve (s : TCPServer) (r : Request) : TCPServer × Reply :=
  s.processCommand r.command.cmd r.command.key r.command.value r.now r.access

/-- The server after one event. -/
def step (s : TCPServer) : Event → TCPServer
  | .request r => (s.serve r).1
  | .cleanup now => { s with cache := s.cache.cleanupExpired now }

/-- The server after a sequence of events. -/
def run (s : TCPServer) (events : List Event) : TCPServer := events.foldl step s

/-- The record a write leaves in an open log. -/
theorem logWrite_of_isOpen (cache : SafeCache) {wal : WAL} (h : wal.isOpen = true)
    (cmd key value : Bytes) : logWrite ⟨cache, wal⟩ cmd key value =
      (⟨cache, { wal with file := wal.file ++ WAL.textOf [⟨cmd, key, value⟩] }⟩,
        ⟨bytes ['O', 'K'], true⟩) := by
  have happend := WAL.append_of_isOpen h ⟨cmd, key, value⟩
  simp only at happend
  rw [logWrite, happend, WAL.textOf_cons, WAL.textOf_nil, List.append_nil]

/-- Logging leaves the cache alone. -/
theorem logWrite_eta (cache : SafeCache) (wal : WAL) (cmd key value : Bytes) :
    (⟨cache, (logWrite ⟨cache, wal⟩ cmd key value).1.wal⟩ : TCPServer) =
      (logWrite ⟨cache, wal⟩ cmd key value).1 := by
  rw [logWrite]
  split <;> rfl

/-- **A command that runs alone**: one call of the cache, and its records at the end of the log. -/
theorem serve_eq {s : TCPServer} (h : s.wal.isOpen = true) (r : Request) :
    (s.serve r).1 =
      ⟨s.cache.step r.call,
        { s.wal with file := s.wal.file ++ WAL.textOf r.command.records }⟩ := by
  obtain ⟨c, now, access⟩ := r
  cases c with
  | set key value =>
    show (logWrite ⟨s.cache.set key value (-1) now, s.wal⟩ setCmd key value).1 = _
    rw [logWrite_of_isOpen _ h]
    rfl
  | get key =>
    have hne : ¬ getCmd = setCmd := by decide
    rw [serve, processCommand, Command.cmd, if_neg hne, if_pos rfl]
    simp [SafeCache.get, Request.call, Command.call, Command.records, Command.key]
  | del key =>
    show (logWrite ⟨s.cache.del key, s.wal⟩ delCmd key []).1 = _
    rw [logWrite_of_isOpen _ h]
    rfl

/-- **One event.** -/
theorem step_eq {s : TCPServer} (h : s.wal.isOpen = true) (e : Event) :
    s.step e = ⟨s.cache.step e.call,
      { s.wal with file := s.wal.file ++ WAL.textOf e.records }⟩ := by
  cases e with
  | request r => exact serve_eq h r
  | cleanup now => simp [step, Event.call, Event.records, SafeCache.cleanupExpired]

/-- **A run**: a run of the cache next to a growing file. -/
theorem run_eq {s : TCPServer} (h : s.wal.isOpen = true) (events : List Event) :
    s.run events = ⟨s.cache.run (events.map Event.call),
      { s.wal with file := s.wal.file ++ WAL.textOf (events.flatMap Event.records) }⟩ := by
  induction events generalizing s with
  | nil => simp [run, SafeCache.run]
  | cons e events ih =>
    show (s.step e).run events = _
    have hopen : (s.step e).wal.isOpen = true := by rw [step_eq h e]; exact h
    rw [ih hopen, step_eq h e, List.flatMap_cons, WAL.textOf_append, List.append_assoc]
    rfl

theorem run_fresh (capacity : ℕ) (filename : Bytes) (events : List Event) :
    (fresh capacity filename).run events =
      ⟨(SafeCache.new capacity).run (events.map Event.call),
        { filename, file := WAL.textOf (events.flatMap Event.records), isOpen := true,
          openable := true }⟩ :=
  run_eq rfl events

/-! ### Keys and values along a run -/

/-- A command writes its writes, and nothing else, to keys and values. -/
theorem data_step_command (cache : SafeCache) (c : Command) (now access : Time) :
    (cache.step (c.call now access)).data = cache.data.applyAll cache.capacity c.writes := by
  cases c with
  | set key value => exact cache.data_set key value (-1) now
  | get key => exact cache.data_get key now access
  | del key => exact cache.data_del key

/-- The same for a run of requests. -/
theorem data_run_requests (cache : SafeCache) (l : List Request) :
    (cache.run (l.map Request.call)).data =
      cache.data.applyAll cache.capacity (l.flatMap fun r ↦ r.command.writes) := by
  induction l generalizing cache with
  | nil => rfl
  | cons r l ih =>
    show ((cache.step r.call).run (l.map Request.call)).data = _
    rw [ih, Request.call, data_step_command, SafeCache.capacity_step, List.flatMap_cons,
      Recency.applyAll_append]

end TCPServer

end DistCache
