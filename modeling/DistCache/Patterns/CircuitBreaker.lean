import DistCache.Basic
import DistCache.Lib.Machine
import Mathlib.Algebra.Order.Ring.Int
import Mathlib.Data.List.Basic

/-!
# `CircuitBreaker`

Three states, two counters and the time of the last failure. The counters are `int`s that wrap;
how they are incremented is a parameter `inc` of the model, so that the machine with counters that
never wrap is the same definition (`wrapping`, `unbounded`).

Only `CLOSED` looks at the failure counter, and only closing resets it. What keeps this sound is
that the counter is exact as long as the breaker is closed: it is then the number of failures since
the breaker last closed, and below the threshold (`Counted`). While the breaker is open or half-open
the counter may wrap as often as it likes.
-/

namespace DistCache

/-- `std::chrono::milliseconds(n)`. -/
def milliseconds (n : ℤ) : Time := n * 1000000

/-- `CircuitBreaker::State`. -/
inductive CircuitBreaker.State where
  | closed
  | opened
  | halfOpen
  deriving DecidableEq, Repr

/-- The members of `CircuitBreaker`. -/
structure CircuitBreaker where
  state : CircuitBreaker.State
  failureCount : ℤ
  successCount : ℤ
  failureThreshold : ℤ
  timeoutMs : ℤ
  lastFailureTime : Time
  deriving DecidableEq, Repr

namespace CircuitBreaker

/-- `++` on an `int` that wraps. -/
def wrapping (n : ℤ) : ℤ := (n + 1).bmod (2 ^ 32)

/-- `++` on a counter of any size. -/
def unbounded (n : ℤ) : ℤ := n + 1

/-- `CircuitBreaker::CircuitBreaker`. The time of the last failure is the epoch. -/
def new (failureThreshold timeoutMs : ℤ) : CircuitBreaker :=
  { state := .closed, failureCount := 0, successCount := 0, failureThreshold, timeoutMs,
    lastFailureTime := 0 }

/-- `is_timeout_expired`: the elapsed time is cut to milliseconds, towards zero. -/
def isTimeoutExpired (b : CircuitBreaker) (now : Time) : Bool :=
  decide (b.timeoutMs ≤ (now - b.lastFailureTime).tdiv 1000000)

/-- `transition_to_open`. -/
def transitionToOpen (b : CircuitBreaker) : CircuitBreaker := { b with state := .opened }

/-- `transition_to_half_open`. -/
def transitionToHalfOpen (b : CircuitBreaker) : CircuitBreaker := { b with state := .halfOpen }

/-- `transition_to_closed`. -/
def transitionToClosed (b : CircuitBreaker) : CircuitBreaker :=
  { b with state := .closed, failureCount := 0 }

/-- `CircuitBreaker::allow_request`. -/
def allowRequest (b : CircuitBreaker) (now : Time) : CircuitBreaker × Bool :=
  match b.state with
  | .closed => (b, true)
  | .opened => if b.isTimeoutExpired now then (b.transitionToHalfOpen, true) else (b, false)
  | .halfOpen => (b, true)

variable (inc : ℤ → ℤ)

/-- `CircuitBreaker::record_success`. -/
def recordSuccess (b : CircuitBreaker) : CircuitBreaker :=
  let b := { b with successCount := inc b.successCount }
  if b.state = .halfOpen then b.transitionToClosed else b

/-- `CircuitBreaker::record_failure`. -/
def recordFailure (b : CircuitBreaker) (now : Time) : CircuitBreaker :=
  let b := { b with failureCount := inc b.failureCount, lastFailureTime := now }
  if b.state = .closed ∧ b.failureThreshold ≤ b.failureCount then b.transitionToOpen
  else if b.state = .halfOpen then b.transitionToOpen
  else b

/-- A call of a client of the breaker, with the clock reading it makes. -/
inductive Call where
  | allowRequest (now : Time)
  | recordSuccess
  | recordFailure (now : Time)
  deriving DecidableEq, Repr

/-- The breaker after one call. -/
def step (b : CircuitBreaker) : Call → CircuitBreaker
  | .allowRequest now => (b.allowRequest now).1
  | .recordSuccess => b.recordSuccess inc
  | .recordFailure now => b.recordFailure inc now

/-- The breaker after a sequence of calls. -/
def run (b : CircuitBreaker) (calls : List Call) : CircuitBreaker := calls.foldl (step inc) b

/-- What a call answers, if it is an `allow_request`. -/
def answer (b : CircuitBreaker) : Call → List Bool
  | .allowRequest now => [(b.allowRequest now).2]
  | _ => []

/-- The answers of the `allow_request` calls of a sequence, in order. -/
def answers (b : CircuitBreaker) (calls : List Call) : List Bool :=
  Machine.outputs (step inc) answer b calls

@[simp] theorem run_nil (b : CircuitBreaker) : b.run inc [] = b := rfl

@[simp] theorem run_cons (b : CircuitBreaker) (c : Call) (calls : List Call) :
    b.run inc (c :: calls) = (b.step inc c).run inc calls := rfl

@[simp] theorem answers_cons (b : CircuitBreaker) (c : Call) (calls : List Call) :
    b.answers inc (c :: calls) = b.answer c ++ (b.step inc c).answers inc calls := rfl

theorem run_append (b : CircuitBreaker) (calls calls' : List Call) :
    b.run inc (calls ++ calls') = (b.run inc calls).run inc calls' := List.foldl_append

/-! ### What a call does -/

section Step

variable (b : CircuitBreaker)

/-- **`allow_request`** moves an open breaker to half-open, once the timeout has expired. -/
theorem allowRequest_fst (now : Time) : (b.allowRequest now).1 = { b with
    state := if b.state = .opened ∧ b.isTimeoutExpired now then .halfOpen else b.state } := by
  obtain ⟨state, failureCount, successCount, failureThreshold, timeoutMs, lastFailureTime⟩ := b
  cases state with
  | closed => rfl
  | opened =>
    simp only [allowRequest, true_and]
    split_ifs <;> rfl
  | halfOpen => rfl

/-- An answer is `false` only while the breaker is open and the timeout has not expired. -/
theorem allowRequest_snd_eq_false_iff (now : Time) : (b.allowRequest now).2 = false ↔
    b.state = .opened ∧ b.isTimeoutExpired now = false := by
  rw [allowRequest]
  rcases b.state with - | - | -
  · simp
  · split_ifs with hexp <;> simp [hexp]
  · simp

/-- **`record_success`** closes a half-open breaker, and resets the failure counter then only. -/
theorem recordSuccess_eq : b.recordSuccess inc = { b with
    state := if b.state = .halfOpen then .closed else b.state
    failureCount := if b.state = .halfOpen then 0 else b.failureCount
    successCount := inc b.successCount } := by
  rw [recordSuccess]
  by_cases h : b.state = .halfOpen <;> simp [h, transitionToClosed]

/-- **`record_failure`** opens a half-open breaker, and a closed one at the threshold. -/
theorem recordFailure_eq (now : Time) : b.recordFailure inc now = { b with
    state := if b.state = .closed ∧ b.failureThreshold ≤ inc b.failureCount ∨ b.state = .halfOpen
      then .opened else b.state
    failureCount := inc b.failureCount
    lastFailureTime := now } := by
  rw [recordFailure]
  by_cases hclosed : b.state = .closed ∧ b.failureThreshold ≤ inc b.failureCount
  · simp [hclosed, transitionToOpen]
  · by_cases hhalf : b.state = .halfOpen <;> simp [hclosed, hhalf, transitionToOpen]

@[simp] theorem failureThreshold_step (c : Call) :
    (b.step inc c).failureThreshold = b.failureThreshold := by
  cases c <;> simp only [step, allowRequest_fst, recordSuccess_eq, recordFailure_eq]

@[simp] theorem timeoutMs_step (c : Call) : (b.step inc c).timeoutMs = b.timeoutMs := by
  cases c <;> simp only [step, allowRequest_fst, recordSuccess_eq, recordFailure_eq]

@[simp] theorem failureThreshold_run (calls : List Call) :
    (b.run inc calls).failureThreshold = b.failureThreshold := by
  induction calls generalizing b with
  | nil => rfl
  | cons c calls ih => rw [run_cons, ih, failureThreshold_step]

@[simp] theorem timeoutMs_run (calls : List Call) : (b.run inc calls).timeoutMs = b.timeoutMs := by
  induction calls generalizing b with
  | nil => rfl
  | cons c calls ih => rw [run_cons, ih, timeoutMs_step]

end Step

/-! ### Counting failures -/

/-- The call is a `record_failure`. -/
def Call.isFailure : Call → Bool
  | .recordFailure _ => true
  | _ => false

/-- The call takes the breaker from `CLOSED` to `OPEN`. -/
def Trips (b : CircuitBreaker) (c : Call) : Prop :=
  b.state = .closed ∧ (b.step inc c).state = .opened

/-- The call takes the breaker from `HALF_OPEN` to `CLOSED`. -/
def Closes (b : CircuitBreaker) (c : Call) : Prop :=
  b.state = .halfOpen ∧ (b.step inc c).state = .closed

instance (b : CircuitBreaker) (c : Call) : Decidable (b.Trips inc c) :=
  inferInstanceAs (Decidable (_ ∧ _))

instance (b : CircuitBreaker) (c : Call) : Decidable (b.Closes inc c) :=
  inferInstanceAs (Decidable (_ ∧ _))

/-- Only a success closes the breaker. -/
theorem closes_iff (b : CircuitBreaker) (c : Call) :
    b.Closes inc c ↔ c = .recordSuccess ∧ b.state = .halfOpen := by
  cases c with
  | allowRequest now =>
    simp only [Closes, step, allowRequest_fst, reduceCtorEq, false_and, iff_false]
    rintro ⟨hhalf, hclosed⟩
    simp [hhalf] at hclosed
  | recordSuccess => simp +contextual [Closes, step, recordSuccess_eq]
  | recordFailure now =>
    simp only [Closes, step, recordFailure_eq, reduceCtorEq, false_and, iff_false]
    rintro ⟨hhalf, hclosed⟩
    simp [hhalf] at hclosed

/-- The calls of a history since the breaker last went from `HALF_OPEN` to `CLOSED`; when it never
did, all of them, after those in `recent`. -/
def sinceClosed (b : CircuitBreaker) (recent : List Call) : List Call → List Call
  | [] => recent
  | c :: calls =>
    (b.step inc c).sinceClosed (if b.Closes inc c then [] else recent ++ [c]) calls

/-- The number of failures in a history since the breaker last closed. -/
def failuresSinceClosed (b : CircuitBreaker) (calls : List Call) : ℕ :=
  (b.sinceClosed inc [] calls).countP Call.isFailure

/-- The increment is exact on the counts a closed breaker reaches. -/
def Counts (failureThreshold : ℤ) : Prop := ∀ n, 0 ≤ n → n < failureThreshold → inc n = n + 1

theorem counts_unbounded (failureThreshold : ℤ) : Counts unbounded failureThreshold :=
  fun _ _ _ ↦ rfl

theorem counts_wrapping {failureThreshold : ℤ} (h : failureThreshold < 2 ^ 31) :
    Counts wrapping failureThreshold := by
  intro n h0 hn
  rw [wrapping, Int.bmod_def]
  omega

/-- While the breaker is closed the counter is exact and below the threshold; as long as it is not,
there have been at least as many failures as the threshold. -/
structure Counted (b : CircuitBreaker) (failures : ℕ) : Prop where
  closed : b.state = .closed → b.failureCount = failures ∧ (failures : ℤ) < b.failureThreshold
  tripped : b.state ≠ .closed → b.failureThreshold ≤ failures

theorem counted_new {failureThreshold : ℤ} (h : 1 ≤ failureThreshold) (timeoutMs : ℤ) :
    Counted (new failureThreshold timeoutMs) 0 :=
  ⟨fun _ ↦ ⟨rfl, h⟩, fun hne ↦ absurd rfl hne⟩

variable {inc} {b : CircuitBreaker} {failures : ℕ}

/-- While the breaker is closed, its counter is incremented exactly. -/
theorem Counted.inc_failureCount (h : Counted b failures) (hinc : Counts inc b.failureThreshold)
    (hclosed : b.state = .closed) : inc b.failureCount = failures + 1 := by
  obtain ⟨hcount, hlt⟩ := h.closed hclosed
  rw [hinc _ (by omega) (hcount ▸ hlt), hcount]

/-- **When a closed breaker trips.** -/
theorem Counted.trips_iff (h : Counted b failures) (hinc : Counts inc b.failureThreshold)
    (c : Call) :
    b.Trips inc c ↔ c.isFailure ∧ (failures : ℤ) + 1 = b.failureThreshold := by
  cases c with
  | allowRequest now =>
    simp only [Trips, step, allowRequest_fst, Call.isFailure]
    split_ifs with hopen <;> simp_all
  | recordSuccess =>
    simp only [Trips, step, recordSuccess_eq, Call.isFailure]
    split_ifs with hopen <;> simp_all
  | recordFailure now =>
    simp only [Trips, step, recordFailure_eq, Call.isFailure, true_and]
    by_cases hclosed : b.state = .closed
    · have hlt := (h.closed hclosed).2
      simp only [h.inc_failureCount hinc hclosed, hclosed, true_and, reduceCtorEq, or_false]
      split_ifs <;> simp <;> omega
    · have := h.tripped hclosed
      simp only [hclosed, false_and, false_iff]
      omega

/-- Closing and the failure counter are all that counts. -/
theorem Counted.congr (h : Counted b failures) {b' : CircuitBreaker}
    (hstate : b'.state = .closed ↔ b.state = .closed) (hcount : b'.failureCount = b.failureCount)
    (hthreshold : b'.failureThreshold = b.failureThreshold) : Counted b' failures :=
  ⟨fun hclosed ↦ by rw [hcount, hthreshold]; exact h.closed (hstate.1 hclosed),
    fun hne ↦ by rw [hthreshold]; exact h.tripped (mt hstate.2 hne)⟩

theorem Counted.recordSuccess (h : Counted b failures) (hpos : 1 ≤ b.failureThreshold) :
    Counted (b.recordSuccess inc) (if b.state = .halfOpen then 0 else failures) := by
  rw [recordSuccess_eq]
  split_ifs with hhalf
  · exact ⟨fun _ ↦ ⟨rfl, hpos⟩, fun hne ↦ absurd rfl hne⟩
  · exact h.congr Iff.rfl rfl rfl

theorem Counted.recordFailure (h : Counted b failures) (hinc : Counts inc b.failureThreshold)
    (now : Time) : Counted (b.recordFailure inc now) (failures + 1) := by
  rw [recordFailure_eq]
  rcases eq_or_ne b.state .closed with hclosed | hne
  · rw [h.inc_failureCount hinc hclosed]
    by_cases hreach : b.failureThreshold ≤ (failures : ℤ) + 1
    · exact ⟨fun hstill ↦ by simp [hclosed, hreach] at hstill, fun _ ↦ by simpa using hreach⟩
    · refine ⟨fun _ ↦ ⟨by simp, by push_cast; omega⟩, fun hleft ↦ ?_⟩
      simp [hclosed, hreach] at hleft
  · -- at least as many failures as before, and not closed by one
    have htripped := h.tripped hne
    refine ⟨fun hstill ↦ absurd hstill ?_, fun _ ↦ by push_cast; omega⟩
    show ¬ (if _ then _ else _) = State.closed
    split_ifs
    · simp
    · exact hne

/-- **One call.** -/
theorem Counted.step (h : Counted b failures) (hinc : Counts inc b.failureThreshold)
    (hpos : 1 ≤ b.failureThreshold) (c : Call) : Counted (b.step inc c)
      (if b.Closes inc c then 0 else if c.isFailure then failures + 1 else failures) := by
  simp only [closes_iff]
  cases c with
  | allowRequest now =>
    have hstate : (b.allowRequest now).1.state = .closed ↔ b.state = .closed := by
      rw [allowRequest_fst]
      split_ifs with hopen <;> simp [hopen]
    rw [if_neg (by simp), if_neg (by simp [Call.isFailure])]
    exact h.congr hstate (by simp [CircuitBreaker.step, allowRequest_fst])
      (failureThreshold_step inc b _)
  | recordSuccess =>
    show Counted (b.recordSuccess inc) _
    simpa [Call.isFailure] using h.recordSuccess hpos
  | recordFailure now =>
    show Counted (b.recordFailure inc now) _
    simpa [Call.isFailure] using h.recordFailure hinc now

/-- **A run.** -/
theorem Counted.run (h : Counted b failures) (hinc : Counts inc b.failureThreshold)
    (hpos : 1 ≤ b.failureThreshold) {recent : List Call}
    (hrecent : recent.countP Call.isFailure = failures) (calls : List Call) :
    Counted (b.run inc calls) ((b.sinceClosed inc recent calls).countP Call.isFailure) := by
  induction calls generalizing b failures recent with
  | nil => exact hrecent ▸ h
  | cons c calls ih =>
    refine ih (h.step hinc hpos c) (by rwa [failureThreshold_step])
      (by rwa [failureThreshold_step]) ?_
    split_ifs with hcloses hfailure
    · rfl
    · rw [List.countP_append, hrecent, List.countP_singleton, if_pos hfailure]
    · rw [List.countP_append, hrecent, List.countP_singleton, if_neg hfailure, Nat.add_zero]

/-! ### Two ways of counting -/

/-- Two breakers no call can tell apart, though their counters may differ. -/
structure Agree (b b' : CircuitBreaker) : Prop where
  state : b.state = b'.state
  lastFailureTime : b.lastFailureTime = b'.lastFailureTime
  failureThreshold : b.failureThreshold = b'.failureThreshold
  timeoutMs : b.timeoutMs = b'.timeoutMs
  counted : ∃ failures, Counted b failures ∧ Counted b' failures

namespace Agree

variable {inc' : ℤ → ℤ} {b' : CircuitBreaker}

/-- **One call** on both sides. -/
theorem step (h : Agree b b') (hinc : Counts inc b.failureThreshold)
    (hinc' : Counts inc' b.failureThreshold) (hpos : 1 ≤ b.failureThreshold) (c : Call) :
    Agree (b.step inc c) (b'.step inc' c) := by
  obtain ⟨failures, hb, hb'⟩ := h.counted
  have hcounts : Counts inc' b'.failureThreshold := h.failureThreshold ▸ hinc'
  have hcounted : ∃ n, Counted (b.step inc c) n ∧ Counted (b'.step inc' c) n := by
    refine ⟨_, hb.step hinc hpos c, ?_⟩
    simpa only [closes_iff, h.state] using hb'.step hcounts (h.failureThreshold ▸ hpos) c
  have hthreshold : (b.step inc c).failureThreshold = (b'.step inc' c).failureThreshold := by
    rw [failureThreshold_step, failureThreshold_step, h.failureThreshold]
  have htimeout : (b.step inc c).timeoutMs = (b'.step inc' c).timeoutMs := by
    rw [timeoutMs_step, timeoutMs_step, h.timeoutMs]
  have hexpired : ∀ now, b.isTimeoutExpired now = b'.isTimeoutExpired now := fun now ↦ by
    rw [isTimeoutExpired, isTimeoutExpired, h.timeoutMs, h.lastFailureTime]
  refine ⟨?_, ?_, hthreshold, htimeout, hcounted⟩
  · -- only a failure in `CLOSED` reads a counter, and there both are exact
    have hreach : b.state = .closed → (b.failureThreshold ≤ inc b.failureCount ↔
        b'.failureThreshold ≤ inc' b'.failureCount) := fun hclosed ↦ by
      rw [hb.inc_failureCount hinc hclosed, hb'.inc_failureCount hcounts (h.state ▸ hclosed),
        h.failureThreshold]
    cases c with
    | allowRequest now =>
      simp only [CircuitBreaker.step, allowRequest_fst, h.state, hexpired]
    | recordSuccess => simp only [CircuitBreaker.step, recordSuccess_eq, h.state]
    | recordFailure now =>
      simp only [CircuitBreaker.step, recordFailure_eq, and_congr_right hreach]
      rw [h.state]
  · cases c with
    | allowRequest now =>
      simpa only [CircuitBreaker.step, allowRequest_fst] using h.lastFailureTime
    | recordSuccess => simpa only [CircuitBreaker.step, recordSuccess_eq] using h.lastFailureTime
    | recordFailure now => simp only [CircuitBreaker.step, recordFailure_eq]

theorem answer_eq (h : Agree b b') (c : Call) : b.answer c = b'.answer c := by
  cases c with
  | allowRequest now =>
    have hiff : (b.allowRequest now).2 = false ↔ (b'.allowRequest now).2 = false := by
      rw [allowRequest_snd_eq_false_iff, allowRequest_snd_eq_false_iff, isTimeoutExpired,
        isTimeoutExpired, h.state, h.timeoutMs, h.lastFailureTime]
    have hanswer : (b.allowRequest now).2 = (b'.allowRequest now).2 :=
      Bool.eq_iff_iff.2 (by simpa using not_congr hiff)
    rw [answer, answer, hanswer]
  | recordSuccess => rfl
  | recordFailure now => rfl

/-- **A run** on both sides. -/
theorem run (h : Agree b b') (hinc : Counts inc b.failureThreshold)
    (hinc' : Counts inc' b.failureThreshold) (hpos : 1 ≤ b.failureThreshold) (calls : List Call) :
    (b.run inc calls).state = (b'.run inc' calls).state ∧
      b.answers inc calls = b'.answers inc' calls := by
  induction calls generalizing b b' with
  | nil => exact ⟨h.state, rfl⟩
  | cons c calls ih =>
    obtain ⟨hstate, hanswers⟩ := ih (h.step hinc hinc' hpos c) (by rwa [failureThreshold_step])
      (by rwa [failureThreshold_step]) (by rwa [failureThreshold_step])
    exact ⟨hstate, by rw [answers_cons, answers_cons, h.answer_eq c, hanswers]⟩

end Agree

/-- **The threshold, for ever.** After any history, a call takes the breaker from `CLOSED` to `OPEN`
exactly if it is a failure and, with it, there have been `failureThreshold` failures since the start
or since the breaker last closed; and no state and no answer betrays that the counters wrap. -/
theorem trips_at_threshold (failureThreshold timeoutMs : ℤ) (h₁ : 1 ≤ failureThreshold)
    (h₂ : failureThreshold < 2 ^ 31) (calls : List Call) :
    let b := new failureThreshold timeoutMs
    (∀ c, (b.run wrapping calls).Trips wrapping c ↔ c.isFailure ∧
        (b.failuresSinceClosed wrapping calls : ℤ) + 1 = failureThreshold) ∧
      (b.run wrapping calls).state = (b.run unbounded calls).state ∧
      b.answers wrapping calls = b.answers unbounded calls := by
  intro b
  have hstart : Counted b 0 := counted_new h₁ timeoutMs
  have hcounts : Counts wrapping b.failureThreshold := counts_wrapping h₂
  refine ⟨fun c ↦ ?_, ?_⟩
  · have hrun : Counted (b.run wrapping calls) (b.failuresSinceClosed wrapping calls) :=
      hstart.run hcounts h₁ List.countP_nil calls
    rw [hrun.trips_iff (by rwa [failureThreshold_run]) c, failureThreshold_run]
    rfl
  · have hagree : Agree b b := ⟨rfl, rfl, rfl, rfl, 0, hstart, hstart⟩
    exact hagree.run hcounts (counts_unbounded _) h₁ calls

/-- With threshold two, the second failure trips the breaker, a success in between
notwithstanding. -/
theorem trips_at_threshold_two :
    ((new 2 100).run wrapping [.recordFailure 0, .recordSuccess]).Trips wrapping
      (.recordFailure 5) :=
  ((trips_at_threshold 2 100 (by decide) (by decide) [.recordFailure 0, .recordSuccess]).1 _).2
    ⟨rfl, by decide⟩

end CircuitBreaker

end DistCache
