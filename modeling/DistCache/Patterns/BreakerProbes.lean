import DistCache.Patterns.CircuitBreaker
import Mathlib.Logic.Function.Basic
import Mathlib.Data.List.Induction

/-!
# Whose success closes the breaker

Clients share one breaker: each asks for admission, and an admitted request is reported later, once,
as a success or as a failure. The breaker is told the outcome and nothing else, so it cannot know
which admission the outcome belongs to. In `HALF_OPEN` the first success decides, and it may be that
of a request admitted long before the breaker opened (`closes_on_late_success`).

The model adds two records that the code does not keep: for every unreported request the number of
the step that admitted it, and the number of the last step from `OPEN` to `HALF_OPEN`. With these,
`closes_on_probe_or_outstanding` says who can close the breaker: a request admitted at that step or
later, or one that was on its way already then.
-/

namespace DistCache

/-- A breaker and its clients. -/
structure BreakerClients (ι : Type*) where
  breaker : CircuitBreaker
  /-- The step that admitted the unreported request of a client, if it has one. -/
  admittedAt : ι → Option ℕ
  /-- The last step from `OPEN` to `HALF_OPEN`. -/
  halfOpenedAt : Option ℕ
  /-- The number of steps so far. -/
  steps : ℕ

namespace BreakerClients

open CircuitBreaker (wrapping Call)

/-- A client takes its turn; `success` is the outcome of its request, if it reports one. -/
structure Turn (ι : Type*) where
  client : ι
  now : Time
  success : Bool

variable {ι : Type*} [DecidableEq ι]

/-- The call a client makes: it reports its request if it has one, else it asks for admission. -/
def call (s : BreakerClients ι) (t : Turn ι) : Call :=
  match s.admittedAt t.client with
  | some _ => if t.success then .recordSuccess else .recordFailure t.now
  | none => .allowRequest t.now

/-- One atomic call of a client. -/
def step (s : BreakerClients ι) (t : Turn ι) : BreakerClients ι :=
  let breaker := s.breaker.step wrapping (s.call t)
  { breaker
    admittedAt := Function.update s.admittedAt t.client <|
      match s.admittedAt t.client with
      | some _ => none
      | none => if (s.breaker.allowRequest t.now).2 then some s.steps else none
    halfOpenedAt := if s.breaker.state = .opened ∧ breaker.state = .halfOpen then some s.steps
      else s.halfOpenedAt
    steps := s.steps + 1 }

/-- The clients after a schedule. -/
def run (s : BreakerClients ι) (schedule : List (Turn ι)) : BreakerClients ι :=
  schedule.foldl step s

/-- The start: a new breaker, and no requests. -/
def start (ι : Type*) (failureThreshold timeoutMs : ℤ) : BreakerClients ι where
  breaker := CircuitBreaker.new failureThreshold timeoutMs
  admittedAt := fun _ ↦ none
  halfOpenedAt := none
  steps := 0

/-- The turn takes the breaker from `HALF_OPEN` to `CLOSED`. -/
def Closes (s : BreakerClients ι) (t : Turn ι) : Prop :=
  s.breaker.state = .halfOpen ∧ (s.step t).breaker.state = .closed

/-- The turn reports a request that was admitted at the last step from `OPEN` to `HALF_OPEN`, or
since. -/
def ReportsProbe (s : BreakerClients ι) (t : Turn ι) : Prop :=
  ∃ m n, s.halfOpenedAt = some m ∧ s.admittedAt t.client = some n ∧ m ≤ n

/-- **When the breaker closes**: on the success of any request that is reported while it is
half-open. -/
theorem closes_iff (s : BreakerClients ι) (t : Turn ι) : s.Closes t ↔
    s.breaker.state = .halfOpen ∧ t.success ∧ ∃ n, s.admittedAt t.client = some n := by
  have hcall : s.Closes t ↔ s.call t = .recordSuccess ∧ s.breaker.state = .halfOpen :=
    CircuitBreaker.closes_iff wrapping s.breaker (s.call t)
  rw [hcall, and_comm, call]
  refine and_congr_right fun _ ↦ ?_
  rcases s.admittedAt t.client with - | n
  · simp
  · cases t.success <;> simp

theorem run_append (s : BreakerClients ι) (schedule schedule' : List (Turn ι)) :
    s.run (schedule ++ schedule') = (s.run schedule).run schedule' := List.foldl_append

theorem run_snoc (s : BreakerClients ι) (schedule : List (Turn ι)) (t : Turn ι) :
    s.run (schedule ++ [t]) = (s.run schedule).step t := run_append s schedule [t]

/-- The half-open state is entered from `OPEN` only. -/
theorem state_of_step_eq_halfOpen {s : BreakerClients ι} {t : Turn ι}
    (h : (s.step t).breaker.state = .halfOpen) :
    s.breaker.state = .halfOpen ∨ s.breaker.state = .opened := by
  have hstep : (s.breaker.step wrapping (s.call t)).state = .halfOpen := h
  rcases hc : s.call t with now | - | now
  · rw [hc, CircuitBreaker.step, CircuitBreaker.allowRequest_fst] at hstep
    split_ifs at hstep with hopen
    · exact Or.inr hopen.1
    · exact Or.inl hstep
  · rw [hc, CircuitBreaker.step, CircuitBreaker.recordSuccess_eq] at hstep
    split_ifs at hstep with hhalf
    exact absurd hstep hhalf
  · rw [hc, CircuitBreaker.step, CircuitBreaker.recordFailure_eq] at hstep
    split_ifs at hstep with hopens
    exact Or.inl hstep

/-- A recorded step is the present one, or was recorded before. -/
theorem halfOpenedAt_step {s : BreakerClients ι} {t : Turn ι} {m : ℕ}
    (h : (s.step t).halfOpenedAt = some m) :
    m = s.steps ∧ s.breaker.state = .opened ∧ (s.step t).breaker.state = .halfOpen ∨
      s.halfOpenedAt = some m := by
  by_cases htrans : s.breaker.state = .opened ∧ (s.step t).breaker.state = .halfOpen
  · have hnow : (s.step t).halfOpenedAt = some s.steps := if_pos htrans
    exact Or.inl ⟨Option.some.inj (h.symm.trans hnow), htrans⟩
  · have hbefore : (s.step t).halfOpenedAt = s.halfOpenedAt := if_neg htrans
    exact Or.inr (hbefore ▸ h)

/-- The step to `HALF_OPEN` is recorded. -/
theorem exists_halfOpenedAt_step {s : BreakerClients ι}
    (hs : s.breaker.state = .halfOpen → ∃ m, s.halfOpenedAt = some m) {t : Turn ι}
    (h : (s.step t).breaker.state = .halfOpen) : ∃ m, (s.step t).halfOpenedAt = some m := by
  by_cases hopen : s.breaker.state = .opened
  · exact ⟨s.steps, if_pos ⟨hopen, h⟩⟩
  · have hbefore : (s.step t).halfOpenedAt = s.halfOpenedAt := if_neg fun hc ↦ hopen hc.1
    rw [hbefore]
    exact hs ((state_of_step_eq_halfOpen h).resolve_right hopen)

/-- A request is admitted by the present step or was there before. -/
theorem admittedAt_step {s : BreakerClients ι} {t : Turn ι} {i : ι} {n : ℕ}
    (h : (s.step t).admittedAt i = some n) :
    n = s.steps ∧ i = t.client ∨ s.admittedAt i = some n := by
  rcases eq_or_ne i t.client with rfl | hi
  · left
    simp only [step, Function.update_self] at h
    rcases hadm : s.admittedAt t.client with - | n'
    · simp only [hadm] at h
      split_ifs at h with hallow
      exact ⟨(Option.some.inj h).symm, rfl⟩
    · simp [hadm] at h
  · right
    simpa [step, Function.update_of_ne hi] using h

/-- What the records say about the schedule that led to them. -/
structure Recorded (s : BreakerClients ι) (schedule : List (Turn ι)) : Prop where
  steps : (s.run schedule).steps = schedule.length
  admitted_lt : ∀ i n, (s.run schedule).admittedAt i = some n → n < schedule.length
  /-- A half-open breaker has been half-opened. -/
  halfOpened : (s.run schedule).breaker.state = .halfOpen →
    ∃ m, (s.run schedule).halfOpenedAt = some m
  /-- The recorded step is one from `OPEN` to `HALF_OPEN`. -/
  transition : ∀ m, (s.run schedule).halfOpenedAt = some m → m < schedule.length ∧
    (s.run (schedule.take m)).breaker.state = .opened ∧
    (s.run (schedule.take (m + 1))).breaker.state = .halfOpen
  /-- A request admitted before that step was unreported then. -/
  outstanding : ∀ m i n, (s.run schedule).halfOpenedAt = some m →
    (s.run schedule).admittedAt i = some n → n < m →
    (s.run (schedule.take m)).admittedAt i = some n

/-- **One turn.** -/
theorem Recorded.step {s : BreakerClients ι} {schedule : List (Turn ι)} (h : Recorded s schedule)
    (t : Turn ι) : Recorded s (schedule ++ [t]) := by
  have hadmitted : ∀ i n, (s.run (schedule ++ [t])).admittedAt i = some n →
      n = schedule.length ∨ (s.run schedule).admittedAt i = some n := by
    intro i n hi
    rw [run_snoc] at hi
    rw [← h.steps]
    exact (admittedAt_step hi).imp_left And.left
  -- a recorded step is either the present one or lies in the schedule so far
  have hcases : ∀ m, (s.run (schedule ++ [t])).halfOpenedAt = some m →
      m = schedule.length ∧ (s.run schedule).breaker.state = .opened ∧
        (s.run (schedule ++ [t])).breaker.state = .halfOpen ∨
      (s.run schedule).halfOpenedAt = some m := by
    intro m hm
    rw [run_snoc] at hm ⊢
    rw [← h.steps]
    exact halfOpenedAt_step hm
  constructor
  · rw [run_snoc, List.length_append, List.length_singleton, ← h.steps]
    rfl
  · intro i n hi
    rw [List.length_append, List.length_singleton]
    rcases hadmitted i n hi with rfl | hold
    · omega
    · have hlt := h.admitted_lt i n hold
      omega
  · rw [run_snoc]
    exact exists_halfOpenedAt_step h.halfOpened
  · intro m hm
    rw [List.length_append, List.length_singleton]
    rcases hcases m hm with ⟨rfl, hopen, hhalf⟩ | hold
    · refine ⟨by omega, ?_, ?_⟩
      · rwa [List.take_left]
      · rwa [List.take_of_length_le (by simp)]
    · obtain ⟨hlt, hopen, hhalf⟩ := h.transition m hold
      rw [List.take_append_of_le_length (Nat.le_of_lt hlt), List.take_append_of_le_length hlt]
      exact ⟨by omega, hopen, hhalf⟩
  · intro m i n hm hi hlt
    rcases hcases m hm with ⟨rfl, -, -⟩ | hold
    · rw [List.take_left]
      exact (hadmitted i n hi).resolve_left (by omega)
    · have hm' := (h.transition m hold).1
      rw [List.take_append_of_le_length (Nat.le_of_lt hm')]
      exact h.outstanding m i n hold ((hadmitted i n hi).resolve_left (by omega)) hlt

/-- **A schedule.** -/
theorem recorded (failureThreshold timeoutMs : ℤ) (schedule : List (Turn ι)) :
    Recorded (start ι failureThreshold timeoutMs) schedule := by
  induction schedule using List.reverseRecOn with
  | nil =>
    refine ⟨rfl, fun i n h ↦ ?_, fun h ↦ ?_, fun m h ↦ ?_, fun m i n h ↦ ?_⟩
    all_goals simp [run, start, CircuitBreaker.new] at h
  | append_singleton schedule t ih => exact ih.step t

/-- **Who closes the breaker.** It goes from `HALF_OPEN` to `CLOSED` exactly when the success of an
admitted request is reported in `HALF_OPEN`. The request was then admitted at the last step from
`OPEN` to `HALF_OPEN` or since, or it had been admitted before and was unreported at that step; so
only a probe closes the breaker if at that step no request was unreported. -/
theorem closes_on_probe_or_outstanding (failureThreshold timeoutMs : ℤ)
    (schedule : List (Turn ι)) (t : Turn ι) :
    let s := (start ι failureThreshold timeoutMs).run schedule
    (s.Closes t ↔ s.breaker.state = .halfOpen ∧ t.success ∧ ∃ n, s.admittedAt t.client = some n) ∧
      (s.Closes t → ∃ m, s.halfOpenedAt = some m ∧
        let before := (start ι failureThreshold timeoutMs).run (schedule.take m)
        (s.ReportsProbe t ∨ ∃ n < m, before.admittedAt t.client = some n ∧
            s.admittedAt t.client = some n) ∧
          ((∀ i, before.admittedAt i = none) → s.ReportsProbe t)) := by
  intro s
  have hrecorded := recorded failureThreshold timeoutMs schedule
  refine ⟨closes_iff s t, fun hcloses ↦ ?_⟩
  obtain ⟨hhalf, -, n, hn⟩ := (closes_iff s t).1 hcloses
  obtain ⟨m, hm⟩ := hrecorded.halfOpened hhalf
  have hcases : s.ReportsProbe t ∨ ∃ n < m,
      ((start ι failureThreshold timeoutMs).run (schedule.take m)).admittedAt t.client = some n ∧
        s.admittedAt t.client = some n := by
    rcases Nat.lt_or_ge n m with hlt | hle
    · exact Or.inr ⟨n, hlt, hrecorded.outstanding m t.client n hm hn hlt, hn⟩
    · exact Or.inl ⟨m, n, hm, hn, hle⟩
  refine ⟨m, hm, hcases, fun hnone ↦ hcases.resolve_right ?_⟩
  rintro ⟨n', -, hout, -⟩
  rw [hnone] at hout
  exact absurd hout (by simp)

/-- **A late success.** Two requests are admitted; the failure of the second opens the breaker,
which is half-open 200 ms later; then the success of the first one closes it. -/
theorem closes_on_late_success :
    let s := (start Bool 1 100).run [⟨true, 0, true⟩, ⟨false, 0, true⟩, ⟨false, 1, false⟩,
      ⟨false, 200000000, true⟩]
    let t : Turn Bool := ⟨true, 200000001, true⟩
    s.Closes t ∧ s.halfOpenedAt = some 3 ∧ s.admittedAt true = some 0 ∧ ¬ s.ReportsProbe t := by
  intro s t
  refine ⟨⟨by decide, by decide⟩, by decide, by decide, ?_⟩
  rintro ⟨m, n, hm, hn, hle⟩
  have hm' : m = 3 := Option.some.inj (hm.symm.trans (by decide))
  have hn' : n = 0 := Option.some.inj (hn.symm.trans (by decide))
  omega

end BreakerClients

end DistCache
