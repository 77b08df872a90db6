import DistCache.Lib.Overlap
import DistCache.Patterns.CircuitBreaker

/-!
# Overlapping calls of the breaker

The breaker has no lock. Its members are atomics, so a call is not one step but several, and calls
of different threads overlap. Here each load, store and `++` is an operation of its own; what a
thread still has to do is the point it has reached in the code (`Point`).

`last_failure_time_` is no atomic, so what `is_timeout_expired` answers while calls overlap is left
open: the answer is an input of the operation (`Reading.expired`).

Called one at a time, the breaker is the machine of `CircuitBreaker` (`run_solo`). Overlapping calls
can do more: a store decided on earlier may come late, and leave `OPEN` for `CLOSED` or `CLOSED` for
`HALF_OPEN`. What is kept is stated here. No increment is lost (`counter_run`), and the breaker
still trips at the threshold: not before that many failures have been counted, and no later than
when that many reports have returned (`trips_overlapped`).
-/

namespace DistCache

namespace CircuitBreaker

/-- Where a call stands: the operation it does next. -/
inductive Point where
  /-- `allow_request`: `state_.load()`. -/
  | loadState
  /-- `allow_request` has loaded `OPEN`: `is_timeout_expired`. -/
  | checkTimeout
  /-- `transition_to_half_open`: `state_ = HALF_OPEN`. -/
  | storeHalfOpen
  /-- `record_success`: `success_count_++`. -/
  | countSuccess
  /-- `record_success`: `state_ == HALF_OPEN`. -/
  | successProbes
  /-- `transition_to_closed`: `state_ = CLOSED`. -/
  | storeClosed
  /-- `transition_to_closed`: `failure_count_ = 0`. -/
  | resetCount
  /-- `record_failure`: `failure_count_++`. -/
  | countFailure
  /-- `record_failure`: `last_failure_time_ = now`. -/
  | stampFailure
  /-- `record_failure`: `state_ == CLOSED`. -/
  | failureWhileClosed
  /-- `record_failure`: `failure_count_ >= failure_threshold_`. -/
  | compareCount
  /-- `record_failure`: `state_ == HALF_OPEN`. -/
  | failureWhileHalfOpen
  /-- `transition_to_open`: `state_ = OPEN`. -/
  | storeOpen
  deriving DecidableEq, Repr

/-- The calls, without their clock readings. -/
inductive Routine where
  | allowRequest
  | recordSuccess
  | recordFailure
  deriving DecidableEq, Repr

/-- The first operation of a call. -/
def Routine.entry : Routine → Point
  | allowRequest => .loadState
  | recordSuccess => .countSuccess
  | recordFailure => .countFailure

/-- What an operation reads from outside: the clock, and the answer of `is_timeout_expired`. -/
structure Reading where
  now : Time
  expired : Bool
  deriving DecidableEq, Repr

/-- What is recorded of a run: increments and resets of `failure_count_`, stores of `CLOSED`,
returns of `record_failure`, and the answers of `allow_request`. -/
inductive Mark where
  | counted
  | reset
  | stored
  | reported
  | answered (allowed : Bool)
  deriving DecidableEq, Repr

open Overlap (After Move Pool)

/-- **One atomic operation**, at each point of the code. -/
def exec (b : CircuitBreaker) : Point → Reading → After CircuitBreaker Point Mark
  | .loadState, _ =>
    match b.state with
    | .closed => ⟨b, none, [.answered true]⟩
    | .opened => ⟨b, some .checkTimeout, []⟩
    | .halfOpen => ⟨b, none, [.answered true]⟩
  | .checkTimeout, x =>
    if x.expired then ⟨b, some .storeHalfOpen, []⟩ else ⟨b, none, [.answered false]⟩
  | .storeHalfOpen, _ => ⟨b.transitionToHalfOpen, none, [.answered true]⟩
  | .countSuccess, _ =>
    ⟨{ b with successCount := wrapping b.successCount }, some .successProbes, []⟩
  | .successProbes, _ => if b.state = .halfOpen then ⟨b, some .storeClosed, []⟩ else ⟨b, none, []⟩
  | .storeClosed, _ => ⟨{ b with state := .closed }, some .resetCount, [.stored]⟩
  | .resetCount, _ => ⟨{ b with failureCount := 0 }, none, [.reset]⟩
  | .countFailure, _ =>
    ⟨{ b with failureCount := wrapping b.failureCount }, some .stampFailure, [.counted]⟩
  | .stampFailure, x => ⟨{ b with lastFailureTime := x.now }, some .failureWhileClosed, []⟩
  | .failureWhileClosed, _ =>
    if b.state = .closed then ⟨b, some .compareCount, []⟩ else ⟨b, some .failureWhileHalfOpen, []⟩
  | .compareCount, _ =>
    if b.failureThreshold ≤ b.failureCount then ⟨b, some .storeOpen, []⟩
    else ⟨b, some .failureWhileHalfOpen, []⟩
  | .failureWhileHalfOpen, _ =>
    if b.state = .halfOpen then ⟨b, some .storeOpen, []⟩ else ⟨b, none, [.reported]⟩
  | .storeOpen, _ => ⟨b.transitionToOpen, none, [.reported]⟩

/-- A breaker with calls under way. -/
abbrev Calls := Pool CircuitBreaker Point

/-- The breaker after a schedule of operations. -/
def Calls.run (s : Calls) (schedule : List (Move Routine Reading)) : Calls :=
  Overlap.run Routine.entry exec s schedule

/-- What is recorded of a schedule. -/
def Calls.trace (s : Calls) (schedule : List (Move Routine Reading)) : List Mark :=
  Overlap.trace Routine.entry exec s schedule

/-! ### One call at a time -/

/-- The routine of a call. -/
def Call.routine : Call → Routine
  | .allowRequest _ => .allowRequest
  | .recordSuccess => .recordSuccess
  | .recordFailure _ => .recordFailure

/-- What the operations of a call read when no other call comes in between. -/
def Call.reading (b : CircuitBreaker) : Call → Reading
  | .allowRequest now => ⟨now, b.isTimeoutExpired now⟩
  | .recordSuccess => ⟨0, false⟩
  | .recordFailure now => ⟨now, false⟩

/-- The operations of a call, one after the other; no call has more than six. -/
def soloCall (b : CircuitBreaker) (c : Call) : List (Move Routine Reading) :=
  .call c.routine :: List.replicate 6 (.advance 0 (c.reading b))

/-- The schedule that makes the calls one at a time. -/
def solo (b : CircuitBreaker) : List Call → List (Move Routine Reading)
  | [] => []
  | c :: calls => b.soloCall c ++ (b.step wrapping c).solo calls

/-- The answers among the marks. -/
def answersOf (tr : List Mark) : List Bool :=
  tr.filterMap fun
    | .answered allowed => some allowed
    | _ => none

/-- **A call that is alone** is one step of the machine. -/
theorem run_soloCall (b : CircuitBreaker) (c : Call) :
    Calls.run ⟨b, []⟩ (b.soloCall c) = ⟨b.step wrapping c, []⟩ ∧
      answersOf (Calls.trace ⟨b, []⟩ (b.soloCall c)) = b.answer c := by
  have hreplicate : ∀ x, List.replicate 6 (Move.advance 0 x : Move Routine Reading) =
      [.advance 0 x, .advance 0 x, .advance 0 x, .advance 0 x, .advance 0 x, .advance 0 x] :=
    fun _ ↦ rfl
  simp only [Calls.run, Calls.trace, Overlap.run, Overlap.trace, Machine.outputs, soloCall,
    hreplicate, List.foldl_cons, List.foldl_nil, Overlap.step_call_nil, Overlap.marks_call,
    Overlap.step_advance_single, Overlap.marks_advance_single]
  cases c with
  | allowRequest now =>
    rcases hstate : b.state with - | - | -
    · simp [exec, Call.routine, Routine.entry, hstate, step, answer, allowRequest, answersOf]
    · by_cases hexp : b.isTimeoutExpired now = true
      · simp [exec, Call.routine, Call.reading, Routine.entry, hstate, hexp, step, answer,
          allowRequest, answersOf]
      · simp [exec, Call.routine, Call.reading, Routine.entry, hstate, hexp, step, answer,
          allowRequest, answersOf]
    · simp [exec, Call.routine, Routine.entry, hstate, step, answer, allowRequest, answersOf]
  | recordSuccess =>
    by_cases hhalf : b.state = .halfOpen
    · simp [exec, Call.routine, Routine.entry, hhalf, step, answer, recordSuccess, answersOf,
        transitionToClosed]
    · simp [exec, Call.routine, Routine.entry, hhalf, step, answer, recordSuccess, answersOf]
  | recordFailure now =>
    rcases hstate : b.state with - | - | -
    · by_cases hreach : b.failureThreshold ≤ wrapping b.failureCount
      · simp [exec, Call.routine, Call.reading, Routine.entry, hstate, hreach, step, answer,
          recordFailure, answersOf]
      · simp [exec, Call.routine, Call.reading, Routine.entry, hstate, hreach, step, answer,
          recordFailure, answersOf]
    · simp [exec, Call.routine, Call.reading, Routine.entry, hstate, step, answer, recordFailure,
        answersOf]
    · simp [exec, Call.routine, Call.reading, Routine.entry, hstate, step, answer, recordFailure,
        answersOf]

/-- **Called one at a time**, the operations make up the machine, with its answers. -/
theorem run_solo (b : CircuitBreaker) (calls : List Call) :
    Calls.run ⟨b, []⟩ (b.solo calls) = ⟨b.run wrapping calls, []⟩ ∧
      answersOf (Calls.trace ⟨b, []⟩ (b.solo calls)) = b.answers wrapping calls := by
  induction calls generalizing b with
  | nil => exact ⟨rfl, rfl⟩
  | cons c calls ih =>
    obtain ⟨hrun, hanswers⟩ := run_soloCall b c
    have hrun' := (Overlap.run_append Routine.entry exec ⟨b, []⟩ (b.soloCall c)
      ((b.step wrapping c).solo calls))
    have htrace := (Overlap.trace_append Routine.entry exec ⟨b, []⟩ (b.soloCall c)
      ((b.step wrapping c).solo calls))
    rw [Calls.run] at hrun
    rw [hrun] at hrun' htrace
    rw [solo, Calls.run, Calls.trace, hrun', htrace, answersOf, List.filterMap_append, answers_cons,
      ← hanswers, ← (ih _).2]
    exact ⟨(ih _).1, rfl⟩

/-! ### The failure counter -/

/-- What a mark says of the counter. -/
def Mark.recount (count : ℤ) : Mark → ℤ
  | counted => wrapping count
  | reset => 0
  | stored | reported | answered _ => count

/-- What the marks of a run say of the counter. -/
def tally (count : ℤ) (tr : List Mark) : ℤ := tr.foldl Mark.recount count

theorem tally_append (count : ℤ) (tr tr' : List Mark) :
    tally count (tr ++ tr') = tally (tally count tr) tr' := List.foldl_append

/-- Without a reset, and as long as an `int` holds it, the counter counts. -/
theorem tally_eq {count : ℤ} {tr : List Mark} (hcount : 0 ≤ count)
    (hmax : count + tr.count .counted < 2 ^ 31) (hreset : .reset ∉ tr) :
    tally count tr = count + tr.count .counted := by
  induction tr generalizing count with
  | nil => simp [tally]
  | cons m tr ih =>
    rw [List.mem_cons, not_or] at hreset
    show tally (m.recount count) tr = _
    cases m with
    | counted =>
      have hinc : Counts wrapping (2 ^ 31 - 1) := counts_wrapping (by decide)
      rw [List.count_cons_self] at hmax ⊢
      push_cast at hmax ⊢
      rw [Mark.recount, hinc count hcount (by omega), ih (by omega) (by omega) hreset.2]
      omega
    | reset => exact absurd rfl hreset.1
    | stored | reported | answered =>
      rw [List.count_cons_of_ne (by simp)] at hmax ⊢
      exact ih hcount hmax hreset.2

/-- **An operation** increments the counter, resets it, or leaves it alone. -/
theorem exec_counter (b : CircuitBreaker) (p : Point) (x : Reading) :
    (exec b p x).shared.failureThreshold = b.failureThreshold ∧
      (exec b p x).shared.failureCount = tally b.failureCount (exec b p x).marks := by
  fun_cases exec b p x <;> exact ⟨rfl, rfl⟩

/-! ### Not before the threshold -/

/-- The point is reached while the breaker has always been closed. -/
def Point.Calm : Point → Prop
  | checkTimeout | storeHalfOpen | storeClosed | resetCount | storeOpen => False
  | _ => True

/-- The mark is left while the breaker has always been closed. -/
def Mark.Calm : Mark → Prop
  | counted | reported | answered true => True
  | _ => False

/-- Nothing has happened that depends on the breaker having been open. -/
structure AllCalm (b : CircuitBreaker) (active : List Point) (tr : List Mark) : Prop where
  state : b.state = .closed
  active : ∀ p ∈ active, p.Calm
  marks : ∀ m ∈ tr, m.Calm

/-- **An operation** of a calm breaker, whose counter is below the threshold. -/
theorem AllCalm.exec {b : CircuitBreaker} {before after : List Point} {p : Point} {tr : List Mark}
    (h : AllCalm b (before ++ p :: after) tr) (hlt : b.failureCount < b.failureThreshold)
    (x : Reading) :
    AllCalm (exec b p x).shared (before ++ ((exec b p x).rest.toList ++ after))
      (tr ++ (exec b p x).marks) := by
  obtain ⟨state, hactive, hmarks⟩ := h
  rw [List.forall_mem_append, List.forall_mem_cons] at hactive
  obtain ⟨hbefore, hp, hafter⟩ := hactive
  have hnext : ∀ (b' : CircuitBreaker) (rest : Option Point) (ms : List Mark),
      b'.state = .closed → (∀ q ∈ rest, q.Calm) → (∀ m ∈ ms, m.Calm) →
      AllCalm b' (before ++ (rest.toList ++ after)) (tr ++ ms) := by
    intro b' rest ms hb' hrest hms
    refine ⟨hb', ?_, List.forall_mem_append.2 ⟨hmarks, hms⟩⟩
    rw [List.forall_mem_append, List.forall_mem_append]
    exact ⟨hbefore, by simpa using hrest, hafter⟩
  cases p with
  | loadState =>
    simp only [CircuitBreaker.exec, state]
    exact hnext _ _ _ state (by simp) (by simp [Mark.Calm])
  | countSuccess =>
    simp only [CircuitBreaker.exec]
    exact hnext _ _ _ state (by simp [Point.Calm]) (by simp)
  | successProbes =>
    simp only [CircuitBreaker.exec, state, reduceCtorEq, if_false]
    exact hnext _ _ _ state (by simp) (by simp)
  | countFailure =>
    simp only [CircuitBreaker.exec]
    exact hnext _ _ _ state (by simp [Point.Calm]) (by simp [Mark.Calm])
  | stampFailure =>
    simp only [CircuitBreaker.exec]
    exact hnext _ _ _ state (by simp [Point.Calm]) (by simp)
  | failureWhileClosed =>
    simp only [CircuitBreaker.exec, state, if_true]
    exact hnext _ _ _ state (by simp [Point.Calm]) (by simp)
  | compareCount =>
    simp only [CircuitBreaker.exec, if_neg (not_le.2 hlt)]
    exact hnext _ _ _ state (by simp [Point.Calm]) (by simp)
  | failureWhileHalfOpen =>
    simp only [CircuitBreaker.exec, state, reduceCtorEq, if_false]
    exact hnext _ _ _ state (by simp) (by simp [Mark.Calm])
  | checkTimeout | storeHalfOpen | storeClosed | resetCount | storeOpen => exact hp.elim

/-! ### No later than the threshold -/

/-- The call is a report that has been counted. -/
def Point.InReport : Point → Bool
  | stampFailure | failureWhileClosed | compareCount | failureWhileHalfOpen | storeOpen => true
  | _ => false

/-- The call is a report that has found the counter below the threshold, or the breaker not
closed. -/
def Point.Passed : Point → Bool
  | failureWhileHalfOpen => true
  | _ => false

/-- **An operation** keeps account of the reports: they are counted when they start. -/
theorem exec_reports (b : CircuitBreaker) (p : Point) (x : Reading) :
    (exec b p x).marks.count .counted + [p].countP Point.InReport =
      (exec b p x).marks.count .reported + (exec b p x).rest.toList.countP Point.InReport := by
  fun_cases exec b p x <;> rfl

/-- Only `transition_to_closed` closes the breaker. -/
theorem state_of_exec_eq_closed {b : CircuitBreaker} {p : Point} {x : Reading}
    (h : (exec b p x).shared.state = .closed) :
    b.state = .closed ∨ .stored ∈ (exec b p x).marks := by
  revert h
  fun_cases exec b p x <;> simp_all [transitionToHalfOpen, transitionToOpen]

/-- What is reset has been closed. -/
theorem reset_of_exec {b : CircuitBreaker} {p : Point} {x : Reading} :
    (.reset ∈ (exec b p x).marks → p = .resetCount) ∧
      ((exec b p x).rest = some .resetCount → .stored ∈ (exec b p x).marks) := by
  fun_cases exec b p x <;> simp_all

/-- A report passes the comparison only with the counter below the threshold. -/
theorem exec_passed {b : CircuitBreaker} {p : Point} {x : Reading} (hclosed : b.state = .closed)
    (hstill : (exec b p x).shared.state = .closed)
    (hp : p = .compareCount → b.failureThreshold ≤ b.failureCount) :
    (exec b p x).marks.count .reported + (exec b p x).rest.toList.countP Point.Passed =
      [p].countP Point.Passed := by
  revert hstill hp
  fun_cases exec b p x <;> simp_all [Point.Passed, transitionToOpen]

/-- The account of a run: reports, resets, and, as long as the breaker is closed and has not been
closed again, fewer reports behind the comparison than the threshold. -/
structure Account (count limit : ℤ) (b : CircuitBreaker) (active : List Point)
    (tr : List Mark) : Prop where
  threshold : b.failureThreshold = limit
  counter : b.failureCount = tally count tr
  reports : tr.count .counted = tr.count .reported + active.countP Point.InReport
  unreset : .stored ∉ tr → .reset ∉ tr ∧ .resetCount ∉ active
  few : .stored ∉ tr → count + tr.count .counted < 2 ^ 31 → b.state = .closed →
    count + tr.count .reported + active.countP Point.Passed < limit

/-- **An operation** of a call keeps the account. -/
theorem Account.exec {count limit : ℤ} {b : CircuitBreaker} {before after : List Point}
    {p : Point} {tr : List Mark} (hcount : 0 ≤ count)
    (h : Account count limit b (before ++ p :: after) tr) (x : Reading) :
    Account count limit (exec b p x).shared
      (before ++ ((exec b p x).rest.toList ++ after)) (tr ++ (exec b p x).marks) := by
  obtain ⟨hthreshold, hcounter, hreports, hunreset, hfew⟩ := h
  obtain ⟨hkeep, htally⟩ := exec_counter b p x
  have hsplit : ∀ q : Point → Bool, (before ++ p :: after).countP q =
      before.countP q + ([p].countP q + after.countP q) := fun q ↦ by
    rw [List.countP_append, ← List.singleton_append (x := p), List.countP_append]
  refine ⟨hkeep.trans hthreshold, ?_, ?_, fun hstored ↦ ?_, fun hstored hmax hclosed ↦ ?_⟩
  · rw [htally, hcounter, tally_append]
  · have hop := exec_reports b p x
    rw [hsplit] at hreports
    simp only [List.count_append, List.countP_append]
    omega
  · rw [List.mem_append, not_or] at hstored
    obtain ⟨hno, hactive⟩ := hunreset hstored.1
    obtain ⟨hreset, hrest⟩ := reset_of_exec (b := b) (p := p) (x := x)
    simp only [List.mem_append, List.mem_cons, not_or] at hactive ⊢
    refine ⟨⟨hno, fun hmem ↦ hactive.2.1 (hreset hmem).symm⟩, hactive.1, fun hmem ↦ ?_, hactive.2.2⟩
    exact hstored.2 (hrest (by simpa using hmem))
  · rw [List.mem_append, not_or] at hstored
    rw [List.count_append] at hmax
    push_cast at hmax
    have hwas : b.state = .closed := (state_of_exec_eq_closed hclosed).resolve_right hstored.2
    have hbefore := hfew hstored.1 (by omega) hwas
    rw [hsplit] at hbefore
    simp only [List.count_append, List.countP_append]
    by_cases hcompare : p = .compareCount → b.failureThreshold ≤ b.failureCount
    · have hop := exec_passed hwas hclosed hcompare
      omega
    · -- the report is counted, and so are the others behind the comparison
      rw [Classical.not_imp, not_le] at hcompare
      obtain ⟨rfl, hlt⟩ := hcompare
      have hexact := tally_eq hcount (by omega) (hunreset hstored.1).1
      have hle : ∀ l : List Point, l.countP Point.Passed ≤ l.countP Point.InReport := fun l ↦
        List.countP_mono_left fun q _ hq ↦ by cases q <;> simp_all [Point.Passed, Point.InReport]
      have hbefore := hle before
      have hafter := hle after
      rw [hsplit] at hreports
      have hself : [Point.compareCount].countP Point.InReport = 1 := rfl
      have hmarks : (CircuitBreaker.exec b .compareCount x).marks = [] ∧
          (CircuitBreaker.exec b .compareCount x).rest = some .failureWhileHalfOpen := by
        simp only [CircuitBreaker.exec, if_neg (not_le.2 hlt), and_self]
      have hone : [Point.failureWhileHalfOpen].countP Point.Passed = 1 := rfl
      rw [hmarks.1, hmarks.2, Option.toList_some, hone, List.count_nil]
      rw [hcounter, hexact, hthreshold] at hlt
      push_cast
      omega

/-! ### Any schedule -/

section Run

variable {b : CircuitBreaker} (schedule : List (Move Routine Reading))

/-- **No increment is lost**: the counter is what the increments and resets make of it. -/
theorem counter_run (b : CircuitBreaker) :
    (Calls.run ⟨b, []⟩ schedule).shared.failureThreshold = b.failureThreshold ∧
      (Calls.run ⟨b, []⟩ schedule).shared.failureCount =
        tally b.failureCount (Calls.trace ⟨b, []⟩ schedule) := by
  refine Overlap.invariant (I := fun b' _ tr ↦ b'.failureThreshold = b.failureThreshold ∧
    b'.failureCount = tally b.failureCount tr) Routine.entry exec (fun _ _ _ _ h ↦ h)
    (fun b' before p after tr x h ↦ ?_) (s := ⟨b, []⟩) (t := []) ⟨rfl, rfl⟩ schedule
  obtain ⟨hkeep, htally⟩ := exec_counter b' p x
  exact ⟨hkeep.trans h.1, by rw [htally, h.2, tally_append]⟩

theorem account_run (hcount : 0 ≤ b.failureCount) (hlt : b.failureCount < b.failureThreshold) :
    Account b.failureCount b.failureThreshold (Calls.run ⟨b, []⟩ schedule).shared
      (Calls.run ⟨b, []⟩ schedule).active (Calls.trace ⟨b, []⟩ schedule) := by
  refine Overlap.invariant (I := Account b.failureCount b.failureThreshold) Routine.entry exec
    (fun b' active tr k h ↦ ?_) (fun b' before p after tr x h ↦ h.exec hcount x)
    (s := ⟨b, []⟩) (t := []) ?_ schedule
  · have hentry : k.entry.InReport = false ∧ k.entry.Passed = false ∧ k.entry ≠ .resetCount := by
      cases k <;> decide
    obtain ⟨hthreshold, hcounter, hreports, hunreset, hfew⟩ := h
    refine ⟨hthreshold, hcounter, ?_, fun hstored ↦ ?_, fun hstored hmax hclosed ↦ ?_⟩
    · simp [hreports, hentry.1]
    · simpa [hentry.2.2.symm] using hunreset hstored
    · simpa [hentry.2.1] using hfew hstored hmax hclosed
  · exact ⟨rfl, rfl, rfl, fun _ ↦ ⟨List.not_mem_nil, List.not_mem_nil⟩,
      fun _ _ _ ↦ by simpa using hlt⟩

theorem allCalm_run (hclosed : b.state = .closed) (hcount : 0 ≤ b.failureCount)
    (hmax : b.failureThreshold < 2 ^ 31)
    (hlt : b.failureCount + (Calls.trace ⟨b, []⟩ schedule).count .counted < b.failureThreshold) :
    AllCalm (Calls.run ⟨b, []⟩ schedule).shared (Calls.run ⟨b, []⟩ schedule).active
      (Calls.trace ⟨b, []⟩ schedule) := by
  have hrun := Overlap.invariant (I := fun b' active tr ↦
    (b'.failureThreshold = b.failureThreshold ∧ b'.failureCount = tally b.failureCount tr) ∧
      (b.failureCount + tr.count .counted < b.failureThreshold → AllCalm b' active tr))
    Routine.entry exec (fun b' active tr k h ↦ ⟨h.1, fun hlt ↦ ?_⟩)
    (fun b' before p after tr x h ↦ ⟨?_, fun hlt ↦ ?_⟩) (s := ⟨b, []⟩) (t := [])
    ⟨⟨rfl, rfl⟩, fun _ ↦ ⟨hclosed, by simp, by simp⟩⟩ schedule
  · exact hrun.2 hlt
  · obtain ⟨state, hactive, hmarks⟩ := h.2 hlt
    refine ⟨state, List.forall_mem_append.2 ⟨hactive, ?_⟩, hmarks⟩
    cases k <;> simp [Routine.entry, Point.Calm]
  · obtain ⟨hkeep, htally⟩ := exec_counter b' p x
    exact ⟨hkeep.trans h.1.1, by rw [htally, h.1.2, tally_append]⟩
  · -- the counter is exact, since nothing has been reset
    rw [List.count_append] at hlt
    push_cast at hlt
    have hcalm := h.2 (by omega)
    have hreset : .reset ∉ tr := fun hmem ↦ hcalm.marks _ hmem
    refine hcalm.exec ?_ x
    rw [h.1.1, h.1.2, tally_eq hcount (by omega) hreset]
    omega

end Run

/-- **The breaker trips at the threshold, however calls overlap.** From a closed breaker that no
call is under way on: as long as the failures counted stay below the threshold the breaker is closed
and admits every request; and once as many reports have returned as are missing to the threshold it
is not closed, unless some `record_success` has closed it since. -/
theorem trips_overlapped {b : CircuitBreaker} (hclosed : b.state = .closed)
    (hcount : 0 ≤ b.failureCount) (hlt : b.failureCount < b.failureThreshold)
    (hmax : b.failureThreshold < 2 ^ 31) (schedule : List (Move Routine Reading)) :
    let s := Calls.run ⟨b, []⟩ schedule
    let tr := Calls.trace ⟨b, []⟩ schedule
    (b.failureCount + tr.count .counted < b.failureThreshold →
        s.shared.state = .closed ∧ .answered false ∉ tr) ∧
      (b.failureCount + tr.count .counted < 2 ^ 31 → .stored ∉ tr →
        b.failureThreshold ≤ b.failureCount + tr.count .reported → s.shared.state ≠ .closed) := by
  intro s tr
  refine ⟨fun hbelow ↦ ?_, fun hexact hstored hreach hstill ↦ ?_⟩
  · have hcalm := allCalm_run schedule hclosed hcount hmax hbelow
    exact ⟨hcalm.state, fun hmem ↦ hcalm.marks _ hmem⟩
  · have hfew := (account_run schedule hcount hlt).few hstored hexact hstill
    have hnonneg := Int.natCast_nonneg (s.active.countP Point.Passed)
    have hsum : b.failureCount + tr.count .reported + s.active.countP Point.Passed <
        b.failureThreshold := hfew
    omega

/-- Two reports overlap, and both have been counted before either compares the counter. -/
theorem trips_overlapped_two :
    (Calls.run ⟨new 2 1000, []⟩ ([.call .recordFailure, .call .recordFailure,
      .advance 0 ⟨5, false⟩, .advance 1 ⟨6, false⟩] ++ List.replicate 4 (.advance 1 ⟨7, false⟩) ++
        List.replicate 5 (.advance 0 ⟨8, false⟩))).shared.state ≠ .closed :=
  (trips_overlapped rfl (by decide) (by decide) (by decide) _).2 (by decide) (by decide) (by decide)

end CircuitBreaker

end DistCache
