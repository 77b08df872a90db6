import DistCache.Patterns.CircuitBreaker
import Mathlib.Algebra.Order.Group.Int
import Mathlib.Algebra.Order.Group.Unbundled.Basic
import Mathlib.Data.List.Induction

/-!
# When the breaker rejects

Seen from outside, an `allow_request` is rejected inside a window: it begins when a failure opens
the breaker, ends when a request is admitted, and lasts `timeout_ms` from the last failure of all,
late ones included (`rejection_window`). The state the breaker keeps is a summary of this: it is
open exactly while the window is (`state_run_eq_opened_iff`).

Inside the window nothing but the times of the failures and of the requests matters
(`notMem_answers_iff`), so successes may be reported there in any number and in any order
(`allowRequest_of_dropSuccesses_eq`).
-/

namespace DistCache

namespace CircuitBreaker

/-- The clock reading of a call, if it makes one. -/
def Call.readings : Call → List Time
  | .allowRequest now => [now]
  | .recordSuccess => []
  | .recordFailure now => [now]

/-- The clock never goes back along the history. -/
def Clocked (calls : List Call) : Prop := (calls.flatMap Call.readings).Pairwise (· ≤ ·)

instance (calls : List Call) : Decidable (Clocked calls) :=
  inferInstanceAs (Decidable (List.Pairwise _ _))

/-- The time of a `record_failure`. -/
def Call.failureTime : Call → Option Time
  | .recordFailure now => some now
  | _ => none

/-- The time of the last `record_failure` of a history. -/
def lastFailure (calls : List Call) : Option Time := (calls.filterMap Call.failureTime).getLast?

variable (inc : ℤ → ℤ)

/-- The call is a failure that trips the breaker, in `CLOSED` at the threshold, or re-trips it, in
`HALF_OPEN`. -/
def Opens (b : CircuitBreaker) (c : Call) : Prop :=
  c.isFailure ∧ (b.state = .closed ∧ b.failureThreshold ≤ inc b.failureCount ∨ b.state = .halfOpen)

instance (b : CircuitBreaker) (c : Call) : Decidable (b.Opens inc c) :=
  inferInstanceAs (Decidable (_ ∧ _))

/-! ### The window and the state -/

/-- **Open after a call**: it has just opened, or it was open and nothing was admitted. -/
theorem state_step_eq_opened_iff (b : CircuitBreaker) (c : Call) :
    (b.step inc c).state = .opened ↔ b.Opens inc c ∨ b.state = .opened ∧ true ∉ b.answer c := by
  cases c with
  | allowRequest now =>
    have hanswer : true ∉ b.answer (.allowRequest now) ↔ (b.allowRequest now).2 = false := by
      simp [answer]
    rw [hanswer, allowRequest_snd_eq_false_iff]
    simp only [step, allowRequest_fst, Opens, Call.isFailure]
    split_ifs with hopen <;> simp_all
  | recordSuccess =>
    simp only [step, recordSuccess_eq, Opens, Call.isFailure, answer]
    split_ifs with hhalf <;> simp_all
  | recordFailure now =>
    simp only [step, recordFailure_eq, Opens, Call.isFailure, answer]
    split_ifs with hopens <;> simp_all

/-- An open breaker stays open while nothing is admitted. -/
theorem state_run_of_opened {b : CircuitBreaker} (h : b.state = .opened) {calls : List Call}
    (hcalls : true ∉ b.answers inc calls) : (b.run inc calls).state = .opened := by
  induction calls generalizing b with
  | nil => exact h
  | cons c calls ih =>
    rw [answers_cons, List.mem_append, not_or] at hcalls
    exact ih ((state_step_eq_opened_iff inc b c).2 (Or.inr ⟨h, hcalls.1⟩)) hcalls.2

theorem answers_append (b : CircuitBreaker) (calls calls' : List Call) :
    b.answers inc (calls ++ calls') = b.answers inc calls ++ (b.run inc calls).answers inc calls' :=
  Machine.outputs_append answer b calls calls'

/-- **The state is a summary of the history**: the breaker is open exactly if some failure opened it
and nothing was admitted since. -/
theorem state_run_eq_opened_iff {b : CircuitBreaker} (hb : b.state ≠ .opened)
    (calls : List Call) : (b.run inc calls).state = .opened ↔
      ∃ before c after, calls = before ++ c :: after ∧ (b.run inc before).Opens inc c ∧
        true ∉ ((b.run inc before).step inc c).answers inc after := by
  constructor
  · induction calls using List.reverseRecOn with
    | nil => exact fun h ↦ absurd h hb
    | append_singleton calls c ih =>
      rw [run_append, run_cons, run_nil, state_step_eq_opened_iff]
      rintro (hopens | ⟨hopen, hc⟩)
      · exact ⟨calls, c, [], rfl, hopens, List.not_mem_nil⟩
      · -- the failure that opened it is further back, and the call admitted nothing
        obtain ⟨before, c', after, rfl, hopens, hafter⟩ := ih hopen
        refine ⟨before, c', after ++ [c], by simp, hopens, ?_⟩
        rw [run_append, run_cons] at hc
        rw [answers_append, List.mem_append, not_or]
        exact ⟨hafter, by simpa [answers, Machine.outputs] using hc⟩
  · rintro ⟨before, c, after, rfl, hopens, hafter⟩
    rw [run_append, run_cons]
    exact state_run_of_opened inc ((state_step_eq_opened_iff inc _ c).2 (Or.inl hopens)) hafter

/-! ### Times -/

theorem lastFailureTime_step (b : CircuitBreaker) (c : Call) :
    (b.step inc c).lastFailureTime = c.failureTime.getD b.lastFailureTime := by
  cases c with
  | allowRequest now => rw [step, allowRequest_fst]; rfl
  | recordSuccess => rw [step, recordSuccess_eq]; rfl
  | recordFailure now => rw [step, recordFailure_eq]; rfl

theorem lastFailureTime_run (b : CircuitBreaker) (calls : List Call) :
    (b.run inc calls).lastFailureTime = (lastFailure calls).getD b.lastFailureTime := by
  induction calls using List.reverseRecOn with
  | nil => rfl
  | append_singleton calls c ih =>
    rw [run_append, run_cons, run_nil, lastFailureTime_step, ih, lastFailure, lastFailure,
      List.filterMap_append, List.getLast?_append]
    cases c <;> rfl

/-- The cut to milliseconds is invisible as long as the clock does not go back. -/
theorem isTimeoutExpired_eq_false_iff {b : CircuitBreaker} {now : Time}
    (h : b.lastFailureTime ≤ now) : b.isTimeoutExpired now = false ↔
      now < b.lastFailureTime + milliseconds b.timeoutMs := by
  rw [isTimeoutExpired, decide_eq_false_iff_not, Int.tdiv_eq_ediv_of_nonneg (sub_nonneg.2 h),
    Int.le_ediv_iff_mul_le (by decide), not_le, sub_lt_iff_lt_add', milliseconds]

/-- The last failure of a clocked history lies before what follows it. -/
theorem le_of_lastFailure {calls : List Call} {now t : Time}
    (hclock : Clocked (calls ++ [.allowRequest now])) (ht : lastFailure calls = some t) :
    t ≤ now := by
  obtain ⟨c, hc, hct⟩ := List.mem_filterMap.1 (List.mem_of_getLast? ht)
  rw [Clocked, List.flatMap_append, List.pairwise_append] at hclock
  refine hclock.2.2 t (List.mem_flatMap.2 ⟨c, hc, ?_⟩) now (by simp [Call.readings])
  cases c with
  | recordFailure t' => simpa [Call.failureTime, Call.readings, eq_comm] using hct
  | allowRequest t' => simp [Call.failureTime] at hct
  | recordSuccess => simp [Call.failureTime] at hct

/-- A history with a failure has a last one. -/
theorem exists_lastFailure {calls : List Call} {c : Call} (hc : c ∈ calls) (h : c.isFailure) :
    ∃ t, lastFailure calls = some t := by
  cases c with
  | recordFailure t =>
    have hmem : t ∈ calls.filterMap Call.failureTime := List.mem_filterMap.2 ⟨_, hc, rfl⟩
    exact ⟨_, List.getLast?_eq_some_getLast (List.ne_nil_of_mem hmem)⟩
  | allowRequest t => simp [Call.isFailure] at h
  | recordSuccess => simp [Call.isFailure] at h

/-! ### Inside the window -/

/-- Every request among the calls comes within the timeout after the last failure before it; `last`
is the time of the last failure so far. -/
def Within (timeoutMs : ℤ) (last : Time) : List Call → Prop
  | [] => True
  | .allowRequest now :: calls =>
    (now - last).tdiv 1000000 < timeoutMs ∧ Within timeoutMs last calls
  | .recordSuccess :: calls => Within timeoutMs last calls
  | .recordFailure now :: calls => Within timeoutMs now calls

/-- **Inside the window** only the times of failures and requests matter. -/
theorem notMem_answers_iff {b : CircuitBreaker} (h : b.state = .opened) (calls : List Call) :
    true ∉ b.answers inc calls ↔ Within b.timeoutMs b.lastFailureTime calls := by
  induction calls generalizing b with
  | nil => exact iff_of_true List.not_mem_nil trivial
  | cons c calls ih =>
    have hnext : true ∉ b.answer c → (true ∉ (b.step inc c).answers inc calls ↔
        Within b.timeoutMs (c.failureTime.getD b.lastFailureTime) calls) := by
      intro hc
      rw [ih ((state_step_eq_opened_iff inc b c).2 (Or.inr ⟨h, hc⟩)), timeoutMs_step,
        lastFailureTime_step]
    rw [answers_cons, List.mem_append, not_or, and_congr_right hnext]
    cases c with
    | allowRequest now =>
      refine and_congr_left fun _ ↦ ?_
      have hanswer : true ∉ b.answer (.allowRequest now) ↔ (b.allowRequest now).2 = false := by
        simp [answer]
      rw [hanswer, allowRequest_snd_eq_false_iff, isTimeoutExpired, decide_eq_false_iff_not, not_le]
      exact and_iff_right h
    | recordSuccess => exact and_iff_right List.not_mem_nil
    | recordFailure now => exact and_iff_right List.not_mem_nil

/-- The calls other than `record_success`. -/
def dropSuccesses (calls : List Call) : List Call := calls.filter (· ≠ .recordSuccess)

theorem within_dropSuccesses (timeoutMs : ℤ) (last : Time) (calls : List Call) :
    Within timeoutMs last (dropSuccesses calls) ↔ Within timeoutMs last calls := by
  induction calls generalizing last with
  | nil => rfl
  | cons c calls ih =>
    cases c with
    | allowRequest now => exact and_congr_right fun _ ↦ ih last
    | recordSuccess => exact ih last
    | recordFailure now => exact ih now

theorem lastFailure_dropSuccesses (calls : List Call) :
    lastFailure (dropSuccesses calls) = lastFailure calls := by
  have hfilter : (dropSuccesses calls).filterMap Call.failureTime =
      calls.filterMap Call.failureTime := by
    rw [dropSuccesses, List.filterMap_filter]
    refine List.filterMap_congr fun c _ ↦ ?_
    cases c <;> rfl
  rw [lastFailure, hfilter, lastFailure]

/-- When a request is rejected. -/
theorem rejected_iff (failureThreshold timeoutMs : ℤ) (calls : List Call) (now : Time)
    (hclock : Clocked (calls ++ [.allowRequest now])) :
    let b := new failureThreshold timeoutMs
    ((b.run inc calls).allowRequest now).2 = false ↔
      (∃ before c after, calls = before ++ c :: after ∧ (b.run inc before).Opens inc c ∧
        true ∉ ((b.run inc before).step inc c).answers inc after) ∧
      ∃ t, lastFailure calls = some t ∧ now < t + milliseconds timeoutMs := by
  intro b
  rw [allowRequest_snd_eq_false_iff, state_run_eq_opened_iff inc (by simp [b, new])]
  refine and_congr_right ?_
  rintro ⟨before, c, after, hsplit, hopens, -⟩
  obtain ⟨t, ht⟩ := exists_lastFailure (hsplit ▸ by simp : c ∈ calls) hopens.1
  have hlast : (b.run inc calls).lastFailureTime = t := by rw [lastFailureTime_run, ht]; rfl
  rw [isTimeoutExpired_eq_false_iff (hlast ▸ le_of_lastFailure hclock ht), hlast, timeoutMs_run]
  constructor
  · exact fun hnow ↦ ⟨t, ht, hnow⟩
  · rintro ⟨t', ht', hnow⟩
    rwa [Option.some.inj (ht.symm.trans ht')]

/-- While nothing has been admitted since the breaker opened, a request is answered the same when
successes are added, dropped or moved. -/
theorem allowRequest_of_dropSuccesses_eq {b : CircuitBreaker} (hb : b.state = .opened)
    {calls calls' : List Call} (h : dropSuccesses calls = dropSuccesses calls')
    (hcalls : true ∉ b.answers inc calls) (now : Time) :
    ((b.run inc calls').allowRequest now).2 = ((b.run inc calls).allowRequest now).2 := by
  have hcalls' : true ∉ b.answers inc calls' := by
    rw [notMem_answers_iff inc hb, ← within_dropSuccesses] at hcalls ⊢
    rwa [← h]
  have hlast : lastFailure calls' = lastFailure calls := by
    rw [← lastFailure_dropSuccesses, ← h, lastFailure_dropSuccesses]
  have hiff : ((b.run inc calls').allowRequest now).2 = false ↔
      ((b.run inc calls).allowRequest now).2 = false := by
    rw [allowRequest_snd_eq_false_iff, allowRequest_snd_eq_false_iff,
      state_run_of_opened inc hb hcalls, state_run_of_opened inc hb hcalls', isTimeoutExpired,
      isTimeoutExpired, timeoutMs_run, timeoutMs_run, lastFailureTime_run, lastFailureTime_run,
      hlast]
  exact Bool.eq_iff_iff.2 (by simpa using not_congr hiff)

/-- **The rejection window.** A request is rejected exactly if some failure tripped or re-tripped
the breaker, no request was admitted since, and fewer than `timeout_ms` have passed since the last
failure of the whole history. In between, successes may be added, dropped or moved without any
effect on the answer. -/
theorem rejection_window (failureThreshold timeoutMs : ℤ) (calls : List Call) (now : Time)
    (hclock : Clocked (calls ++ [.allowRequest now])) :
    let b := new failureThreshold timeoutMs
    (((b.run inc calls).allowRequest now).2 = false ↔
      (∃ before c after, calls = before ++ c :: after ∧ (b.run inc before).Opens inc c ∧
        true ∉ ((b.run inc before).step inc c).answers inc after) ∧
      ∃ t, lastFailure calls = some t ∧ now < t + milliseconds timeoutMs) ∧
    ∀ before c after after', calls = before ++ c :: after → (b.run inc before).Opens inc c →
      true ∉ ((b.run inc before).step inc c).answers inc after →
      dropSuccesses after' = dropSuccesses after →
      ((b.run inc (before ++ c :: after')).allowRequest now).2 =
        ((b.run inc calls).allowRequest now).2 := by
  intro b
  refine ⟨rejected_iff inc failureThreshold timeoutMs calls now hclock, ?_⟩
  rintro before c after after' rfl hopens hafter hdrop
  have hopen := (state_step_eq_opened_iff inc (b.run inc before) c).2 (Or.inl hopens)
  rw [run_append, run_cons, run_append, run_cons]
  exact allowRequest_of_dropSuccesses_eq inc hopen hdrop.symm hafter now

/-- A late failure moves the end of the window: with a timeout of 100 ms, a request 150 ms after the
failure that opened the breaker is rejected. -/
theorem rejection_window_late :
    (((new 1 100).run wrapping
      [.recordFailure 0, .recordSuccess, .recordFailure 60000000]).allowRequest 150000000).2 =
        false :=
  (rejection_window wrapping 1 100 _ 150000000 (by decide)).1.2
    ⟨⟨[], .recordFailure 0, [.recordSuccess, .recordFailure 60000000], rfl, by decide, by decide⟩,
      60000000, rfl, by decide⟩

end CircuitBreaker

end DistCache
