import DistCache.Monitoring.MetricsCollector
import DistCache.Network.RESPParser
import DistCache.Network.TCPServer
import DistCache.Patterns.BreakerOverlap
import Mathlib.Algebra.BigOperators.Group.List.Basic
import Mathlib.Algebra.GroupWithZero.Nat

/-!
# `TCPServer::start`: the client threads and the cleanup thread

A client thread asks the breaker for admission, sends a random command, records the latency and
reports the outcome, ten times over. All threads share the cache, the log, the breaker, the metrics
and the connection count, each with its own synchronisation or none, and nothing holds two of them
at once. So every load, store, `++` and every locked call is an operation of its own, and any of
them may come between any two of another thread. The cleanup thread of `main` is a routine of the
same pool.

What a running server keeps (`Running`): as long as the log is open no command fails, so nothing is
ever reported as a failure, the breaker stays closed, and no request is blocked, even though the
breaker is consulted and informed without a lock; and the request and connection counts are those of
the run (`running_start`). The threads share the breaker at the granularity of `BreakerOverlap` and
the metrics at that of `MetricsCollector`.

A locked call is one operation here, so what it means to wait for a lock is not the subject. Nor is
`counters_`: it is a `std::map` into which several threads insert without a lock, and nothing reads
it. Calls of `increment_counter` have their place in a round and no effect.
-/

namespace DistCache

namespace ClientLoop

open CircuitBreaker (Reading wrapping)
open Overlap (After Move Pool)

/-- An `int` after arithmetic that wraps. -/
def asInt (n : ℤ) : ℤ := n.bmod (2 ^ 32)

theorem asInt_asInt_add (n k : ℤ) : asInt (asInt n + k) = asInt (n + k) := Int.bmod_add_bmod

theorem wrapping_asInt (n : ℤ) : wrapping (asInt n) = asInt (n + 1) := asInt_asInt_add n 1

/-- What the threads share. -/
structure Backend (D : Type*) where
  cache : SafeCache
  wal : WAL
  breaker : CircuitBreaker
  metrics : MetricsCollector D
  connectionCount : ℤ

/-- What an operation reads from outside: the clock, the random numbers, the measured latency. -/
structure Draw (D : Type*) where
  reading : Reading
  access : Time
  cmd : Fin 3
  key : Fin 1000
  ms : D

/-- The command of the `i`-th round. -/
def clientCommand (i : ℕ) (cmd : Fin 3) (key : Fin 1000) : Command :=
  let key := bytes ['k', 'e', 'y'] ++ stdToString (key + 1)
  match cmd with
  | 0 => .set key (bytes ['v', 'a', 'l', 'u', 'e'] ++ stdToString i)
  | 1 => .get key
  | 2 => .del key

/-- The threads. -/
inductive Routine where
  | client
  | cleanup
  deriving DecidableEq, Repr

/-- Where a thread stands; `i` is the round of a client. -/
inductive Point (D : Type*) where
  /-- `connection_count_++`. -/
  | connect
  /-- In `allow_request`. -/
  | allow (i : ℕ) (p : CircuitBreaker.Point)
  /-- `increment_counter("requests_blocked")`. -/
  | block (i : ℕ)
  /-- `process_command`, at the cache. -/
  | cacheStep (i : ℕ)
  /-- `process_command`, at the log. -/
  | logStep (i : ℕ) (c : Command)
  /-- In `record_latency`. -/
  | latency (i : ℕ) (success : Bool) (p : MetricsCollector.Point D)
  /-- In `record_success` or `record_failure`. -/
  | report (i : ℕ) (success : Bool) (p : CircuitBreaker.Point)
  /-- `increment_counter("requests_success")`, or `"requests_failed"`. -/
  | outcome (i : ℕ) (success : Bool)
  /-- `connection_count_--`. -/
  | disconnect
  /-- The cleanup thread: `cleanup_expired`. -/
  | sweep
  /-- The cleanup thread: `get_connection_count`. -/
  | readConnections
  /-- The cleanup thread: `record_active_connections`. -/
  | publish (count : ℤ)

/-- What is recorded of a run: clients that come and go, and the rounds they finish. -/
inductive Mark where
  | connected
  | iterated
  | disconnected
  deriving DecidableEq, Repr

variable {D : Type*}

/-- The first operation of a thread; for the cleanup thread, of one of its rounds. -/
def Routine.entry : Routine → Point D
  | client => .connect
  | cleanup => .sweep

/-- The end of a round: the next one, or the end of the loop. -/
def next (i : ℕ) : Point D := if i + 1 < 10 then .allow (i + 1) .loadState else .disconnect

variable [Add D]

/-- **One operation** of a thread. -/
def exec (b : Backend D) : Point D → Draw D → After (Backend D) (Point D) Mark
  | .connect, _ =>
    ⟨{ b with connectionCount := wrapping b.connectionCount }, some (.allow 0 .loadState),
      [.connected]⟩
  | .allow i p, x =>
    let r := b.breaker.exec p x.reading
    ⟨{ b with breaker := r.shared },
      match r.rest with
      | some q => some (.allow i q)
      | none => if .answered true ∈ r.marks then some (.cacheStep i) else some (.block i), []⟩
  | .block i, _ => ⟨b, some (next i), [.iterated]⟩
  | .cacheStep i, x =>
    let c := clientCommand i x.cmd x.key
    ⟨{ b with cache := b.cache.step (c.call x.reading.now x.access) },
      if c.records.isEmpty then some (.latency i true (.load x.ms)) else some (.logStep i c), []⟩
  | .logStep i c, x =>
    let r := TCPServer.logWrite ⟨b.cache, b.wal⟩ c.cmd c.key c.value
    ⟨{ b with wal := r.1.wal }, some (.latency i r.2.success (.load x.ms)), []⟩
  | .latency i success p, _ =>
    let r := MetricsCollector.exec b.metrics p
    ⟨{ b with metrics := r.shared },
      match r.rest with
      | some q => some (.latency i success q)
      | none => some (.report i success (if success then .countSuccess else .countFailure)), []⟩
  | .report i success p, x =>
    let r := b.breaker.exec p x.reading
    ⟨{ b with breaker := r.shared },
      match r.rest with
      | some q => some (.report i success q)
      | none => some (.outcome i success), []⟩
  | .outcome i _, _ => ⟨b, some (next i), [.iterated]⟩
  | .disconnect, _ =>
    ⟨{ b with connectionCount := asInt (b.connectionCount - 1) }, none, [.disconnected]⟩
  | .sweep, x =>
    ⟨{ b with cache := b.cache.cleanupExpired x.reading.now }, some .readConnections, []⟩
  | .readConnections, _ => ⟨b, some (.publish b.connectionCount), []⟩
  | .publish count, _ => ⟨{ b with metrics := b.metrics.recordActiveConnections count }, none, []⟩

/-- The shared parts, and the threads that run on them. -/
abbrev Threads (D : Type*) := Pool (Backend D) (Point D)

/-- The threads after a schedule. -/
def Threads.run (s : Threads D) (schedule : List (Move Routine (Draw D))) : Threads D :=
  Overlap.run Routine.entry exec s schedule

/-- What is recorded of a schedule. -/
def Threads.trace (s : Threads D) (schedule : List (Move Routine (Draw D))) : List Mark :=
  Overlap.trace Routine.entry exec s schedule

/-- **Alone, a client runs `process_command`**: its operation at the cache and, for a write, its
operation at the log do what a call does. -/
theorem exec_serve {b : Backend D} (hopen : b.wal.isOpen = true) (i : ℕ) (x x' : Draw D) :
    let c := clientCommand i x.cmd x.key
    let b₁ := (exec b (.cacheStep i) x).shared
    let b₂ := if c.records.isEmpty then b₁ else (exec b₁ (.logStep i c) x').shared
    (⟨b₂.cache, b₂.wal⟩ : TCPServer) =
      (TCPServer.serve ⟨b.cache, b.wal⟩ ⟨c, x.reading.now, x.access⟩).1 := by
  intro c b₁ b₂
  rw [TCPServer.serve_eq (s := ⟨b.cache, b.wal⟩) hopen]
  by_cases hread : c.records = []
  · have hb : b₂ = b₁ := if_pos (by rw [hread]; rfl)
    rw [hb, hread, WAL.textOf_nil, List.append_nil]
    rfl
  · have hb : b₂ = (exec b₁ (.logStep i c) x').shared := if_neg (by simpa using hread)
    have hrecord : c.records = [⟨c.cmd, c.key, c.value⟩] := by
      cases hc : c <;> simp_all [Command.records, Command.cmd, Command.key, Command.value]
    rw [hb, hrecord]
    simp only [exec]
    rw [TCPServer.logWrite_of_isOpen b₁.cache (show b₁.wal.isOpen = true from hopen)]
    rfl

/-! ### One operation while the log is open -/

/-- Where a thread may stand while no command fails. -/
inductive Point.Sound : Point D → Prop
  | connect : Sound .connect
  | allow {i : ℕ} (h : i < 10) : Sound (.allow i .loadState)
  | cacheStep {i : ℕ} (h : i < 10) : Sound (.cacheStep i)
  | logStep {i : ℕ} (h : i < 10) (c : Command) : Sound (.logStep i c)
  | latency {i : ℕ} (h : i < 10) (p : MetricsCollector.Point D) : Sound (.latency i true p)
  | countSuccess {i : ℕ} (h : i < 10) : Sound (.report i true .countSuccess)
  | successProbes {i : ℕ} (h : i < 10) : Sound (.report i true .successProbes)
  | outcome {i : ℕ} (h : i < 10) : Sound (.outcome i true)
  | disconnect : Sound .disconnect
  | sweep : Sound .sweep
  | readConnections : Sound .readConnections
  | publish (count : ℤ) : Sound (.publish count)

omit [Add D] in
theorem Point.sound_next {i : ℕ} : (next i : Point D).Sound := by
  rw [next]
  split_ifs with h
  · exact .allow h
  · exact .disconnect

/-- The rounds a client that has connected has still to finish. -/
def Point.left : Point D → ℕ
  | allow i _ | block i | cacheStep i | logStep i _ | latency i _ _ | report i _ _ | outcome i _ =>
    10 - i
  | _ => 0

/-- The thread is a client that is connected. -/
def Point.online : Point D → ℕ
  | allow _ _ | block _ | cacheStep _ | logStep _ _ | latency _ _ _ | report _ _ _ | outcome _ _
  | disconnect => 1
  | _ => 0

/-- The client has recorded the latency of a round that it has not finished. -/
def Point.recorded : Point D → ℕ
  | report _ _ _ | outcome _ _ => 1
  | _ => 0

omit [Add D] in
theorem Point.figures_next {i : ℕ} (h : i < 10) : (next i : Point D).left + 1 = 10 - i ∧
    (next i : Point D).online = 1 ∧ (next i : Point D).recorded = 0 := by
  rw [next]
  split_ifs <;> simp [left, online, recorded] <;> omega

/-- What a server with an open log keeps: no request is blocked and no failure is reported, the
breaker stays closed, and the counts are those of the run. -/
structure Running (b : Backend D) (active : List (Point D)) (tr : List Mark) : Prop where
  isOpen : b.wal.isOpen = true
  closed : b.breaker.state = .closed
  points : ∀ p ∈ active, p.Sound
  requests : b.metrics.requestCount =
    asInt (tr.count .iterated + (active.map Point.recorded).sum)
  connections : b.connectionCount = asInt (active.map Point.online).sum
  rounds : tr.count .iterated + (active.map Point.left).sum = 10 * tr.count .connected
  clients : tr.count .connected = tr.count .disconnected + (active.map Point.online).sum

/-- What an operation has to do for the figures to stay right. -/
structure Figures (b b' : Backend D) (p : Point D) (rest : Option (Point D)) (ms : List Mark) :
    Prop where
  requests : ∀ n : ℤ, b.metrics.requestCount = asInt (n + p.recorded) →
    b'.metrics.requestCount =
      asInt (n + ms.count .iterated + (rest.toList.map Point.recorded).sum)
  connections : ∀ n : ℤ, b.connectionCount = asInt (n + p.online) →
    b'.connectionCount = asInt (n + (rest.toList.map Point.online).sum)
  rounds : ms.count .iterated + (rest.toList.map Point.left).sum = p.left + 10 * ms.count .connected
  clients : ms.count .connected + p.online =
    ms.count .disconnected + (rest.toList.map Point.online).sum

omit [Add D] in
/-- **The frame**: the other threads stand where they stood. -/
theorem Running.frame {b b' : Backend D} {before after : List (Point D)} {p : Point D}
    {rest : Option (Point D)} {tr ms : List Mark} (h : Running b (before ++ p :: after) tr)
    (hopen : b'.wal.isOpen = true) (hclosed : b'.breaker.state = .closed)
    (hrest : ∀ q ∈ rest, q.Sound) (hfigures : Figures b b' p rest ms) :
    Running b' (before ++ (rest.toList ++ after)) (tr ++ ms) := by
  have hsum (f : Point D → ℕ) (l : List (Point D)) :
      ((before ++ (l ++ after)).map f).sum =
        (before.map f).sum + ((l.map f).sum + (after.map f).sum) := by
    simp
  have hold (f : Point D → ℕ) : ((before ++ p :: after).map f).sum =
      (before.map f).sum + (f p + (after.map f).sum) := by
    simp
  refine ⟨hopen, hclosed, ?_, ?_, ?_, ?_, ?_⟩
  · have hpoints := h.points
    rw [List.forall_mem_append, List.forall_mem_cons] at hpoints
    rw [List.forall_mem_append, List.forall_mem_append]
    exact ⟨hpoints.1, by simpa using hrest, hpoints.2.2⟩
  · have hreq := h.requests
    rw [hold] at hreq
    rw [hfigures.requests (tr.count .iterated + (before.map Point.recorded).sum +
      (after.map Point.recorded).sum) (hreq.trans (congrArg asInt (by push_cast; omega))),
      List.count_append, hsum]
    exact congrArg asInt (by push_cast; omega)
  · have hconn := h.connections
    rw [hold] at hconn
    rw [hfigures.connections ((before.map Point.online).sum + (after.map Point.online).sum)
      (hconn.trans (congrArg asInt (by push_cast; omega))), hsum]
    exact congrArg asInt (by push_cast; omega)
  · have hrounds := h.rounds
    have hop := hfigures.rounds
    rw [hold] at hrounds
    rw [hsum, List.count_append, List.count_append]
    omega
  · have hclients := h.clients
    have hop := hfigures.clients
    rw [hold] at hclients
    rw [hsum, List.count_append, List.count_append]
    omega

omit [Add D] in
/-- An operation within a round that touches none of the figures. -/
theorem Figures.within {b b' : Backend D} {p q : Point D}
    (hrequests : b'.metrics.requestCount = b.metrics.requestCount)
    (hconnections : b'.connectionCount = b.connectionCount) (hleft : q.left = p.left)
    (honline : q.online = p.online) (hrecorded : q.recorded = p.recorded) :
    Figures b b' p (some q) [] where
  requests := fun n h ↦ by simpa [hrequests, hrecorded] using h
  connections := fun n h ↦ by simpa [hconnections, honline] using h
  rounds := by simp [hleft]
  clients := by simp [honline]

omit [Add D] in
/-- The operation that ends a round. -/
theorem Figures.endRound {b b' : Backend D} {i : ℕ} (hi : i < 10)
    (hrequests : b'.metrics.requestCount = b.metrics.requestCount)
    (hconnections : b'.connectionCount = b.connectionCount) :
    Figures b b' (.outcome i true) (some (next i)) [.iterated] := by
  obtain ⟨hleft, honline, hrecorded⟩ := Point.figures_next (D := D) hi
  have hleft' : (Point.outcome i true : Point D).left = 10 - i := rfl
  have honline' : (Point.outcome i true : Point D).online = 1 := rfl
  have hrecorded' : (Point.outcome i true : Point D).recorded = 1 := rfl
  refine ⟨fun n h ↦ ?_, fun n h ↦ ?_, ?_, ?_⟩
  · rw [hrequests, h]
    exact congrArg asInt (by simp [hrecorded, hrecorded'])
  · rw [hconnections, h]
    exact congrArg asInt (by simp [honline, honline'])
  · simp [hleft']
    omega
  · simp [honline, honline']

/-- **An operation** of any thread keeps the server running. -/
theorem Running.exec {b : Backend D} {before after : List (Point D)} {p : Point D}
    {tr : List Mark} (h : Running b (before ++ p :: after) tr) (x : Draw D) :
    Running (exec b p x).shared (before ++ ((exec b p x).rest.toList ++ after))
      (tr ++ (exec b p x).marks) := by
  have hopen := h.isOpen
  have hclosed := h.closed
  have hp : p.Sound := h.points p (by simp)
  cases hp with
  | connect =>
    simp only [ClientLoop.exec]
    refine h.frame hopen hclosed (by simpa using .allow (by omega)) ⟨fun n h ↦ ?_, fun n h ↦ ?_,
      rfl, rfl⟩
    · simpa [Point.recorded] using h
    · rw [h, wrapping_asInt]
      exact congrArg asInt (by simp [Point.online])
  | @allow i hi =>
    -- the breaker is closed, so the request is admitted at once
    have hexec : ClientLoop.exec b (.allow i .loadState) x = ⟨b, some (.cacheStep i), []⟩ := by
      simp [ClientLoop.exec, CircuitBreaker.exec, hclosed]
    rw [hexec]
    exact h.frame hopen hclosed (by simpa using .cacheStep hi)
      (.within rfl rfl rfl rfl rfl)
  | @cacheStep i hi =>
    simp only [ClientLoop.exec]
    split_ifs
    · exact h.frame hopen hclosed (by simpa using .latency hi _)
        (.within rfl rfl rfl rfl rfl)
    · exact h.frame hopen hclosed (by simpa using .logStep hi _)
        (.within rfl rfl rfl rfl rfl)
  | @logStep i hi c =>
    -- the log is open, so the command succeeds
    simp only [ClientLoop.exec]
    rw [TCPServer.logWrite_of_isOpen _ hopen]
    exact h.frame hopen hclosed (by simpa using .latency hi _)
      (.within rfl rfl rfl rfl rfl)
  | @latency i hi q =>
    cases q with
    | load ms =>
      simp only [ClientLoop.exec, MetricsCollector.exec]
      exact h.frame hopen hclosed (by simpa using .latency hi _)
        (.within rfl rfl rfl rfl rfl)
    | store oldVal ms =>
      simp only [ClientLoop.exec, MetricsCollector.exec]
      exact h.frame hopen hclosed (by simpa using .latency hi _)
        (.within rfl rfl rfl rfl rfl)
    | count =>
      simp only [ClientLoop.exec, MetricsCollector.exec, if_true]
      refine h.frame hopen hclosed (by simpa using .countSuccess hi) ⟨fun n h ↦ ?_,
        fun n h ↦ ?_, by simp [Point.left], rfl⟩
      · rw [h, wrapping_asInt]
        exact congrArg asInt (by simp [Point.recorded])
      · simpa [Point.online] using h
  | @countSuccess i hi =>
    simp only [ClientLoop.exec, CircuitBreaker.exec]
    exact h.frame hopen hclosed (by simpa using .successProbes hi)
      (.within rfl rfl rfl rfl rfl)
  | @successProbes i hi =>
    have hexec : ClientLoop.exec b (.report i true .successProbes) x =
        ⟨b, some (.outcome i true), []⟩ := by
      simp [ClientLoop.exec, CircuitBreaker.exec, hclosed]
    rw [hexec]
    exact h.frame hopen hclosed (by simpa using .outcome hi)
      (.within rfl rfl rfl rfl rfl)
  | @outcome i hi =>
    simp only [ClientLoop.exec]
    exact h.frame hopen hclosed (by simpa using Point.sound_next) (.endRound hi rfl rfl)
  | disconnect =>
    simp only [ClientLoop.exec]
    refine h.frame hopen hclosed (by simp) ⟨fun n h ↦ ?_, fun n h ↦ ?_, rfl, rfl⟩
    · simpa [Point.recorded] using h
    · rw [h, sub_eq_add_neg, asInt_asInt_add]
      exact congrArg asInt (by simp [Point.online])
  | sweep =>
    simp only [ClientLoop.exec]
    exact h.frame hopen hclosed (by simpa using .readConnections)
      (.within rfl rfl rfl rfl rfl)
  | readConnections =>
    simp only [ClientLoop.exec]
    exact h.frame hopen hclosed (by simpa using .publish _)
      (.within rfl rfl rfl rfl rfl)
  | publish count =>
    simp only [ClientLoop.exec]
    refine h.frame hopen hclosed (by simp) ⟨fun n h ↦ ?_, fun n h ↦ ?_, rfl, rfl⟩
    · simpa [MetricsCollector.recordActiveConnections, Point.recorded] using h
    · simpa [Point.online] using h

/-! ### A server that has just started -/

/-- What `main` hands to the server: a recovered cache, the log, a new breaker, new metrics. -/
def start [Zero D] (cache : SafeCache) (wal : WAL) (failureThreshold timeoutMs : ℤ) : Threads D :=
  ⟨⟨cache, wal, CircuitBreaker.new failureThreshold timeoutMs, MetricsCollector.new, 0⟩, []⟩

/-- Threads keep a running server running. -/
theorem Running.run {s : Threads D} {tr : List Mark} (h : Running s.shared s.active tr)
    (schedule : List (Move Routine (Draw D))) :
    Running (s.run schedule).shared (s.run schedule).active (tr ++ s.trace schedule) := by
  refine Overlap.invariant (I := Running (D := D)) Routine.entry ClientLoop.exec
    (fun b active tr k h ↦ ?_) (fun b before p after tr x h ↦ h.exec x) h schedule
  have hentry : (k.entry : Point D).Sound ∧ (k.entry : Point D).recorded = 0 ∧
      (k.entry : Point D).online = 0 ∧ (k.entry : Point D).left = 0 := by
    cases k
    · exact ⟨.connect, rfl, rfl, rfl⟩
    · exact ⟨.sweep, rfl, rfl, rfl⟩
  obtain ⟨hsound, hrecorded, honline, hleft⟩ := hentry
  refine { h with points := ?_, requests := ?_, connections := ?_, rounds := ?_, clients := ?_ }
  · exact List.forall_mem_append.2 ⟨h.points, by simpa using hsound⟩
  · rw [h.requests]
    exact congrArg asInt (by simp [hrecorded])
  · rw [h.connections]
    exact congrArg asInt (by simp [honline])
  · simpa [hleft] using h.rounds
  · simpa [honline] using h.clients

end ClientLoop

end DistCache
