import Mathlib.Data.Nat.Find
import Mathlib.Data.Nat.Notation
import Mathlib.Order.Basic

/-!
# Machines that wait, and how they finish

A move of a machine may be blocked, because its mover waits for something that another one has. A
blocked move is not lost work: it leaves the state alone and can be tried again (`attempt`). Whoever
picks the moves, all that is asked is that every mover gets its turn again and again (`Fair`).

The rule for finishing (`exists_done`) has two parts that are about single states. A measure goes
down with every move that is not blocked. And in every state that is not done there is one mover who
is not blocked, whatever the details of its move: the machine is not deadlocked. The movers may
block each other for as long as they like in between; there is no bound on how long, only on how
many moves are made.
-/

namespace Progress

variable {σ α ι : Type*} (next : σ → α → Option σ)

/-- A move that is blocked leaves the state alone. -/
def attempt (s : σ) (a : α) : σ := (next s a).getD s

/-- The state after the first `n` moves of a schedule. -/
def after (s : σ) (schedule : ℕ → α) : ℕ → σ
  | 0 => s
  | n + 1 => attempt next (after s schedule n) (schedule n)

/-- Every mover gets its turn again and again. -/
def Fair (mover : α → ι) (schedule : ℕ → α) : Prop :=
  ∀ i n, ∃ m, n ≤ m ∧ mover (schedule m) = i

variable {next}

theorem attempt_of_some {s s' : σ} {a : α} (h : next s a = some s') : attempt next s a = s' := by
  rw [attempt, h, Option.getD_some]

theorem attempt_of_none {s : σ} {a : α} (h : next s a = none) : attempt next s a = s := by
  rw [attempt, h, Option.getD_none]

/-- **One move**, blocked or not, keeps what every move that is not blocked keeps. -/
theorem attempt_invariant {I : σ → Prop} (hnext : ∀ s a s', I s → next s a = some s' → I s')
    {s : σ} (hs : I s) (a : α) : I (attempt next s a) := by
  rcases h : next s a with - | s'
  · rwa [attempt_of_none h]
  · rw [attempt_of_some h]
    exact hnext s a s' hs h

/-- **A run** keeps it too. -/
theorem after_invariant {I : σ → Prop} (hnext : ∀ s a s', I s → next s a = some s' → I s')
    {s : σ} (hs : I s) (schedule : ℕ → α) (n : ℕ) : I (after next s schedule n) := by
  induction n with
  | zero => exact hs
  | succ n ih => exact attempt_invariant hnext ih _

theorem after_add (s : σ) (schedule : ℕ → α) (n m : ℕ) :
    after next s schedule (n + m) =
      after next (after next s schedule n) (fun k ↦ schedule (n + k)) m := by
  induction m with
  | zero => rfl
  | succ m ih => rw [← Nat.add_assoc, after, ih, after]

/-- As long as the moves are blocked, nothing changes. -/
theorem after_of_blocked {s : σ} {schedule : ℕ → α} {n : ℕ}
    (h : ∀ m < n, next s (schedule m) = none) : after next s schedule n = s := by
  induction n with
  | zero => rfl
  | succ n ih =>
    rw [after, ih fun m hm ↦ h m (Nat.lt_succ_of_lt hm)]
    exact attempt_of_none (h n (Nat.lt_succ_self n))

theorem Fair.shift {mover : α → ι} {schedule : ℕ → α} (h : Fair mover schedule) (n : ℕ) :
    Fair mover fun k ↦ schedule (n + k) := by
  intro i m
  obtain ⟨m', hle, hmover⟩ := h i (n + m)
  refine ⟨m' - n, by omega, ?_⟩
  show mover (schedule (n + (m' - n))) = i
  rwa [Nat.add_sub_cancel' (by omega)]

/-- **The rule for finishing.** -/
theorem exists_done {I Done : σ → Prop} {cost : σ → ℕ} {mover : α → ι}
    (hnext : ∀ s a s', I s → next s a = some s' → I s')
    (hcost : ∀ s a s', I s → next s a = some s' → cost s' < cost s)
    (hfree : ∀ s, I s → ¬ Done s → ∃ i, ∀ a, mover a = i → (next s a).isSome = true)
    {s : σ} (hs : I s) {schedule : ℕ → α} (hfair : Fair mover schedule) :
    ∃ n, Done (after next s schedule n) := by
  -- by induction on the cost, up to the first move that is not blocked
  induction h : cost s using Nat.strong_induction_on generalizing s schedule with
  | _ n ih =>
    subst h
    by_cases hdone : Done s
    · exact ⟨0, hdone⟩
    · obtain ⟨i, hi⟩ := hfree s hs hdone
      obtain ⟨m, -, hm⟩ := hfair i 0
      have hmoves : ∃ m, (next s (schedule m)).isSome = true := ⟨m, hi _ hm⟩
      obtain ⟨s', hs'⟩ := Option.isSome_iff_exists.1 (Nat.find_spec hmoves)
      have hblocked : after next s schedule (Nat.find hmoves) = s :=
        after_of_blocked fun k hk ↦ by simpa using Nat.find_min hmoves hk
      have hfirst : after next s schedule (Nat.find hmoves + 1) = s' := by
        rw [after, hblocked]
        exact attempt_of_some hs'
      obtain ⟨k, hk⟩ := ih (cost s') (hcost s _ s' hs hs') (hnext s _ s' hs hs')
        (hfair.shift (Nat.find hmoves + 1)) rfl
      rw [← hfirst, ← after_add] at hk
      exact ⟨_, hk⟩

/-- A machine that is done stays so, if it then has no move. -/
theorem after_of_done {Done : σ → Prop} (hstop : ∀ s a, Done s → next s a = none) {s : σ}
    {schedule : ℕ → α} {n : ℕ} (h : Done (after next s schedule n)) {m : ℕ} (hle : n ≤ m) :
    after next s schedule m = after next s schedule n := by
  obtain ⟨k, rfl⟩ := Nat.exists_eq_add_of_le hle
  rw [after_add]
  exact after_of_blocked fun j _ ↦ hstop _ _ h

end Progress
