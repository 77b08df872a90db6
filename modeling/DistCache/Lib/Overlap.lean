import DistCache.Lib.Machine

/-!
# Calls that overlap

Several threads call the routines of one shared object, and each routine is a sequence of atomic
operations. What a call still has to do is data, its *continuation* in `π`; an operation changes the
shared part, goes on to another continuation or ends the call, and may leave marks for the record
(`exec`). Any number of calls are under way at a time. A schedule starts calls and picks the one
that moves next; an operation may also depend on an input of the moment, such as a clock reading.

An invariant is a statement about the shared part, the continuations of the calls under way and the
marks so far. It holds in every schedule if it survives the start of a call and every operation of a
call, whatever the others are (`invariant`).
-/

namespace Overlap

/-- A shared object, and what the calls under way still have to do. -/
structure Pool (σ π : Type*) where
  shared : σ
  active : List π
  deriving DecidableEq, Repr

/-- What an operation does: the shared part after it, the rest of the call, and marks. -/
structure After (σ π ω : Type*) where
  shared : σ
  rest : Option π
  marks : List ω

/-- A move of a schedule: a call begins, or the `n`-th call under way moves. -/
inductive Move (κ ι : Type*) where
  | call (k : κ)
  | advance (n : ℕ) (x : ι)
  deriving DecidableEq, Repr

variable {σ π κ ι ω : Type*} (entry : κ → π) (exec : σ → π → ι → After σ π ω)

/-- The pool after one move. -/
def step (s : Pool σ π) : Move κ ι → Pool σ π
  | .call k => { s with active := s.active ++ [entry k] }
  | .advance n x =>
    match s.active[n]? with
    | none => s
    | some p =>
      let r := exec s.shared p x
      ⟨r.shared, s.active.take n ++ (r.rest.toList ++ s.active.drop (n + 1))⟩

/-- The marks of one move. -/
def marks (s : Pool σ π) : Move κ ι → List ω
  | .call _ => []
  | .advance n x =>
    match s.active[n]? with
    | none => []
    | some p => (exec s.shared p x).marks

/-- The pool after a schedule. -/
def run (s : Pool σ π) (schedule : List (Move κ ι)) : Pool σ π :=
  schedule.foldl (step entry exec) s

/-- The marks of a schedule. -/
def trace (s : Pool σ π) (schedule : List (Move κ ι)) : List ω :=
  Machine.outputs (step entry exec) (marks exec) s schedule

theorem run_append (s : Pool σ π) (schedule schedule' : List (Move κ ι)) :
    run entry exec s (schedule ++ schedule') =
      run entry exec (run entry exec s schedule) schedule' := List.foldl_append

theorem trace_append (s : Pool σ π) (schedule schedule' : List (Move κ ι)) :
    trace entry exec s (schedule ++ schedule') =
      trace entry exec s schedule ++ trace entry exec (run entry exec s schedule) schedule' :=
  Machine.outputs_append _ _ _ _

/-! ### A call that is alone -/

@[simp] theorem step_call_nil (a : σ) (k : κ) :
    step (ι := ι) entry exec ⟨a, []⟩ (.call k) = ⟨a, [entry k]⟩ := rfl

@[simp] theorem step_advance_nil (a : σ) (n : ℕ) (x : ι) :
    step (κ := κ) entry exec ⟨a, []⟩ (.advance n x) = ⟨a, []⟩ := rfl

@[simp] theorem step_advance_single (a : σ) (p : π) (x : ι) :
    step (κ := κ) entry exec ⟨a, [p]⟩ (.advance 0 x) =
      ⟨(exec a p x).shared, (exec a p x).rest.toList⟩ := by
  simp [step]

@[simp] theorem marks_call (s : Pool σ π) (k : κ) : marks exec s (.call k) = [] := rfl

@[simp] theorem marks_advance_nil (a : σ) (n : ℕ) (x : ι) :
    marks (κ := κ) exec ⟨a, []⟩ (.advance n x) = [] := rfl

@[simp] theorem marks_advance_single (a : σ) (p : π) (x : ι) :
    marks (κ := κ) exec ⟨a, [p]⟩ (.advance 0 x) = (exec a p x).marks := rfl

/-! ### Calls that overlap -/

/-- The call that moves, between the others. -/
theorem eq_append_cons_of_getElem? {active : List π} {n : ℕ} {p : π} (h : active[n]? = some p) :
    active = active.take n ++ p :: active.drop (n + 1) := by
  obtain ⟨hlt, hp⟩ := List.getElem?_eq_some_iff.1 h
  rw [← hp, ← List.drop_eq_getElem_cons hlt, List.take_append_drop]

/-- **The rule for overlapping calls.** -/
theorem invariant {I : σ → List π → List ω → Prop}
    (hcall : ∀ a active t k, I a active t → I a (active ++ [entry k]) t)
    (hexec : ∀ a before p after t x, I a (before ++ p :: after) t →
      I (exec a p x).shared (before ++ ((exec a p x).rest.toList ++ after))
        (t ++ (exec a p x).marks))
    {s : Pool σ π} {t : List ω} (h : I s.shared s.active t) (schedule : List (Move κ ι)) :
    I (run entry exec s schedule).shared (run entry exec s schedule).active
      (t ++ trace entry exec s schedule) := by
  induction schedule generalizing s t with
  | nil =>
    rw [trace, Machine.outputs, List.append_nil]
    exact h
  | cons m schedule ih =>
    have htrace : trace entry exec s (m :: schedule) =
      marks exec s m ++ trace entry exec (step entry exec s m) schedule := rfl
    rw [htrace, ← List.append_assoc]
    refine ih ?_
    cases m with
    | call k =>
      rw [marks, List.append_nil]
      exact hcall _ _ _ k h
    | advance n x =>
      rw [step, marks]
      rcases hn : s.active[n]? with - | p
      · simpa using h
      · rw [eq_append_cons_of_getElem? hn] at h
        exact hexec _ _ _ _ _ x h

end Overlap
