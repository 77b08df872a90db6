import DistCache.Lib.Overlap
import DistCache.Patterns.CircuitBreaker
import Mathlib.Logic.Function.Iterate

/-!
# `MetricsCollector`

`record_latency` adds to an atomic by a load and a store, and calls of several clients overlap, so
an addition may be lost: a call that has loaded the total writes over what others have stored since.
What remains is at every moment the sum of some of the latencies stored so far, in their order, the
last of them among these (`recordLatency_overlapped`). `request_count_` is incremented by `++` and
loses nothing. Both are exact when calls do not overlap (`recordLatency_solo`).

A `double` is a type with an addition, of which nothing is assumed: in particular it need not be
associative. The map `counters_`, which no lock protects and nothing reads, is left out.
-/

namespace DistCache

open CircuitBreaker (wrapping)

/-- The atomic members of `MetricsCollector`. -/
structure MetricsCollector (D : Type*) where
  totalLatency : D
  requestCount : ℤ
  activeConnections : ℤ

namespace MetricsCollector

variable {D : Type*}

/-- A new `MetricsCollector`. -/
def new [Zero D] : MetricsCollector D :=
  { totalLatency := 0, requestCount := 0, activeConnections := 0 }

/-- `MetricsCollector::record_active_connections`. -/
def recordActiveConnections (m : MetricsCollector D) (count : ℤ) : MetricsCollector D :=
  { m with activeConnections := count }

/-- Where a call of `record_latency` stands. -/
inductive Point (D : Type*) where
  /-- `total_latency_.load()`. -/
  | load (ms : D)
  /-- `total_latency_.store(old_val + ms)`. -/
  | store (oldVal ms : D)
  /-- `request_count_++`. -/
  | count
  deriving DecidableEq, Repr

/-- What is recorded of a run: the latencies that are stored, and the increments. -/
inductive Mark (D : Type*) where
  | stored (ms : D)
  | counted
  deriving DecidableEq, Repr

open Overlap (After Move Pool)

variable [Add D]

/-- **One atomic operation** of `record_latency`. -/
def exec (m : MetricsCollector D) : Point D → After (MetricsCollector D) (Point D) (Mark D)
  | .load ms => ⟨m, some (.store m.totalLatency ms), []⟩
  | .store oldVal ms => ⟨{ m with totalLatency := oldVal + ms }, some .count, [.stored ms]⟩
  | .count => ⟨{ m with requestCount := wrapping m.requestCount }, none, [.counted]⟩

/-- A collector with calls of `record_latency` under way. -/
abbrev Calls (D : Type*) := Pool (MetricsCollector D) (Point D)

/-- The collector after a schedule of operations. -/
def Calls.run (s : Calls D) (schedule : List (Move D Unit)) : Calls D :=
  Overlap.run Point.load (fun m p _ ↦ exec m p) s schedule

/-- What is recorded of a schedule. -/
def Calls.trace (s : Calls D) (schedule : List (Move D Unit)) : List (Mark D) :=
  Overlap.trace Point.load (fun m p _ ↦ exec m p) s schedule

/-- The latencies among the marks. -/
def storesOf (tr : List (Mark D)) : List D :=
  tr.filterMap fun
    | .stored ms => some ms
    | .counted => none

/-- The increments among the marks. -/
def countsOf (tr : List (Mark D)) : ℕ :=
  tr.countP fun
    | .stored _ => false
    | .counted => true

/-- Latencies added up, from the left as the code does. -/
def total (start : D) (l : List D) : D := l.foldl (· + ·) start

/-- The value is the sum of some of the latencies stored so far. -/
def IsPartial (start : D) (tr : List (Mark D)) (value : D) : Prop :=
  ∃ kept, kept.Sublist (storesOf tr) ∧ value = total start kept

theorem IsPartial.append {start value : D} {tr : List (Mark D)} (h : IsPartial start tr value)
    (tr' : List (Mark D)) : IsPartial start (tr ++ tr') value := by
  obtain ⟨kept, hkept, hvalue⟩ := h
  refine ⟨kept, ?_, hvalue⟩
  rw [storesOf, List.filterMap_append]
  exact hkept.trans (List.sublist_append_left _ _)

/-- The account of a run: the total is partial and ends with the last latency stored, what the calls
under way have loaded is partial, and every increment is there. -/
structure Account (first m : MetricsCollector D) (active : List (Point D)) (tr : List (Mark D)) :
    Prop where
  total : ∃ kept, kept.Sublist (storesOf tr) ∧ kept.getLast? = (storesOf tr).getLast? ∧
    m.totalLatency = total first.totalLatency kept
  loaded : ∀ oldVal ms, .store oldVal ms ∈ active → IsPartial first.totalLatency tr oldVal
  count : m.requestCount = wrapping^[countsOf tr] first.requestCount

/-- **An operation** of a call keeps the account. -/
theorem Account.exec {first m : MetricsCollector D} {before after : List (Point D)} {p : Point D}
    {tr : List (Mark D)} (h : Account first m (before ++ p :: after) tr) :
    Account first (exec m p).shared (before ++ ((exec m p).rest.toList ++ after))
      (tr ++ (exec m p).marks) := by
  obtain ⟨⟨kept, hkept, hlast, htotal⟩, hloaded, hcount⟩ := h
  have hothers : ∀ oldVal ms, .store oldVal ms ∈ before ++ after → ∀ tr',
      IsPartial first.totalLatency (tr ++ tr') oldVal := by
    intro oldVal ms hmem tr'
    refine (hloaded oldVal ms ?_).append tr'
    rw [List.mem_append] at hmem
    exact hmem.elim (List.mem_append_left _)
      fun h ↦ List.mem_append_right _ (List.mem_cons_of_mem _ h)
  cases p with
  | load ms =>
    simp only [MetricsCollector.exec, Option.toList_some, List.append_nil]
    refine ⟨⟨kept, hkept, hlast, htotal⟩, fun oldVal ms' hmem ↦ ?_, hcount⟩
    simp only [List.mem_append, List.mem_cons, Point.store.injEq, List.not_mem_nil,
      or_false] at hmem
    rcases hmem with hmem | ⟨rfl, -⟩ | hmem
    · simpa using hothers oldVal ms' (List.mem_append_left _ hmem) []
    · exact ⟨kept, hkept, htotal⟩
    · simpa using hothers oldVal ms' (List.mem_append_right _ hmem) []
  | store oldVal ms =>
    -- the total becomes what this call has loaded, and its own latency
    obtain ⟨loaded, hsub, hold⟩ := hloaded oldVal ms (by simp)
    simp only [MetricsCollector.exec, Option.toList_some]
    refine ⟨⟨loaded ++ [ms], ?_, ?_, ?_⟩, fun oldVal' ms' hmem ↦ ?_, ?_⟩
    · simpa [storesOf] using hsub
    · simp [storesOf]
    · rw [hold, MetricsCollector.total, MetricsCollector.total, List.foldl_append]
      rfl
    · refine hothers oldVal' ms' ?_ _
      simpa using hmem
    · simpa [countsOf] using hcount
  | count =>
    simp only [MetricsCollector.exec, Option.toList_none, List.nil_append]
    refine ⟨⟨kept, ?_, ?_, htotal⟩, fun oldVal ms hmem ↦ hothers oldVal ms hmem _, ?_⟩
    · simpa [storesOf] using hkept
    · simpa [storesOf] using hlast
    · have hone : countsOf (tr ++ [.counted]) = countsOf tr + 1 := by simp [countsOf]
      rw [hone, Function.iterate_succ_apply', ← hcount]

/-- **What overlapping calls leave**: the total is the sum of some of the latencies stored, in their
order, up to the last one; every finished call is counted. -/
theorem recordLatency_overlapped (m : MetricsCollector D) (schedule : List (Move D Unit)) :
    let s := Calls.run ⟨m, []⟩ schedule
    let tr := Calls.trace ⟨m, []⟩ schedule
    (∃ kept, kept.Sublist (storesOf tr) ∧ kept.getLast? = (storesOf tr).getLast? ∧
        s.shared.totalLatency = total m.totalLatency kept) ∧
      s.shared.requestCount = wrapping^[countsOf tr] m.requestCount := by
  intro s tr
  have h := Overlap.invariant (I := Account m) Point.load (fun m p (_ : Unit) ↦ exec m p)
    (fun m' active tr ms h ↦ ?_) (fun m' before p after tr _ h ↦ h.exec) (s := ⟨m, []⟩) (t := [])
    ?_ schedule
  · exact ⟨h.total, h.count⟩
  · refine ⟨h.total, fun oldVal ms' hmem ↦ h.loaded oldVal ms' ?_, h.count⟩
    simpa using hmem
  · exact ⟨⟨[], List.Sublist.refl _, rfl, rfl⟩, fun _ _ hmem ↦ absurd hmem List.not_mem_nil, rfl⟩

/-- The schedule that makes the calls one at a time. -/
def solo (latencies : List D) : List (Move D Unit) :=
  latencies.flatMap fun ms ↦ [.call ms, .advance 0 (), .advance 0 (), .advance 0 ()]

/-- **What calls one at a time leave**: all of it. -/
theorem recordLatency_solo (m : MetricsCollector D) (latencies : List D) :
    Calls.run ⟨m, []⟩ (solo latencies) = ⟨{ m with
      totalLatency := total m.totalLatency latencies
      requestCount := wrapping^[latencies.length] m.requestCount }, []⟩ := by
  induction latencies generalizing m with
  | nil => rfl
  | cons ms latencies ih =>
    rw [solo, List.flatMap_cons, Calls.run, Overlap.run_append]
    exact ih { m with
      totalLatency := m.totalLatency + ms, requestCount := wrapping m.requestCount }

end MetricsCollector

end DistCache
