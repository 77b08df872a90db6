import Mathlib.Data.List.Basic

/-!
# Along the run of a machine

A deterministic machine is its step function, and its run over a list of inputs is a left fold. What
is asked about a run is often asked of every step of it, in the state before the step: whether a
condition holds there (`Along`), or what the step gives out (`outputs`). An invariant that such a
condition keeps holds at the end of the run (`Along.invariant`), and it turns one such condition
into another (`Along.of_invariant`). What the steps take from a stock, the run has taken from it in
the same order (`outputs_append_stock`). When every step of one machine is answered by some steps of
another one, a run is answered by a run (`simulation`), and what they give out is the same, up to
what one of them still owes (`simulation_outputs`). What the state remembers of the inputs is often
the last one of some kind, as long as nothing has happened since that undoes it (`Since`).
-/

namespace Machine

variable {σ α β : Type*} (step : σ → α → σ)

/-- A condition on every input, in the state before it. -/
def Along (P : σ → α → Prop) (s : σ) : List α → Prop
  | [] => True
  | a :: l => P s a ∧ Along P (step s a) l

/-- What the steps give out, one after the other. -/
def outputs (out : σ → α → List β) (s : σ) : List α → List β
  | [] => []
  | a :: l => out s a ++ outputs out (step s a) l

instance decidableAlong (P : σ → α → Prop) [∀ s a, Decidable (P s a)] (s : σ) :
    (l : List α) → Decidable (Along step P s l)
  | [] => isTrue trivial
  | a :: l =>
    have := decidableAlong P (step s a) l
    inferInstanceAs (Decidable (_ ∧ _))

variable {step}

theorem outputs_append (out : σ → α → List β) (s : σ) (l l' : List α) :
    outputs step out s (l ++ l') =
      outputs step out s l ++ outputs step out (l.foldl step s) l' := by
  induction l generalizing s with
  | nil => rfl
  | cons a l ih => rw [List.cons_append, outputs, ih, outputs, List.append_assoc, List.foldl_cons]

theorem along_of_forall {P : σ → α → Prop} (h : ∀ s a, P s a) (s : σ) (l : List α) :
    Along step P s l := by
  induction l generalizing s with
  | nil => trivial
  | cons a l ih => exact ⟨h s a, ih (step s a)⟩

/-- **Conservation.** When every step moves what it gives out from the front of a stock, what the
run has given out and what is left are the stock at the start. The part `f` that counts may be any
that goes along with `++`. -/
theorem outputs_append_stock {γ : Type*} {out : σ → α → List β} (f : List β → List γ)
    (hnil : f [] = []) (happend : ∀ l l', f (l ++ l') = f l ++ f l') (stock : σ → List γ)
    (hstep : ∀ s a, f (out s a) ++ stock (step s a) = stock s) (s : σ) (l : List α) :
    f (outputs step out s l) ++ stock (l.foldl step s) = stock s := by
  induction l generalizing s with
  | nil => rw [outputs, hnil, List.nil_append, List.foldl_nil]
  | cons a l ih => rw [outputs, happend, List.append_assoc, List.foldl_cons, ih, hstep]

/-- **An invariant** at the end of the run. -/
theorem Along.invariant {P : σ → α → Prop} {I : σ → Prop}
    (hstep : ∀ s a, I s → P s a → I (step s a)) {s : σ} (hs : I s) {l : List α}
    (h : Along step P s l) : I (l.foldl step s) := by
  induction l generalizing s with
  | nil => exact hs
  | cons a l ih => exact ih (hstep s a hs h.1) h.2

/-- **An invariant** under which one condition implies another, along the run. -/
theorem Along.of_invariant {P Q : σ → α → Prop} {I : σ → Prop}
    (hstep : ∀ s a, I s → P s a → I (step s a)) (hPQ : ∀ s a, I s → P s a → Q s a) {s : σ}
    (hs : I s) {l : List α} (h : Along step P s l) : Along step Q s l := by
  induction l generalizing s with
  | nil => trivial
  | cons a l ih => exact ⟨hPQ s a hs h.1, ih (hstep s a hs h.1) h.2⟩

/-! ### Two machines -/

section Simulation

variable {τ γ : Type*} {step' : τ → β → τ} {R : σ → τ → Prop} {reply : σ → α → List β}

/-- **A simulation**: `reply` says with which steps the second machine keeps up. -/
theorem simulation (hstep : ∀ s t a, R s t → R (step s a) ((reply s a).foldl step' t)) {s : σ}
    {t : τ} (h : R s t) (l : List α) :
    R (l.foldl step s) ((outputs step reply s l).foldl step' t) := by
  induction l generalizing s t with
  | nil => exact h
  | cons a l ih =>
    rw [outputs, List.foldl_append]
    exact ih (hstep s t a h)

/-- **What two machines give out** along a simulation: the first one owes `owed` of it, before and
after. The parts `f` and `g` that count may be any that go along with `++`. -/
theorem simulation_outputs {δ ε : Type*} {out : σ → α → List γ} {out' : τ → β → List δ}
    (f : List γ → List ε) (g : List δ → List ε) (owed : σ → List ε) (hf : f [] = [])
    (hg : g [] = []) (hfappend : ∀ l l', f (l ++ l') = f l ++ f l')
    (hgappend : ∀ l l', g (l ++ l') = g l ++ g l')
    (hstep : ∀ s t a, R s t → R (step s a) ((reply s a).foldl step' t) ∧
      f (out s a) ++ owed (step s a) = owed s ++ g (outputs step' out' t (reply s a)))
    {s : σ} {t : τ} (h : R s t) (l : List α) :
    f (outputs step out s l) ++ owed (l.foldl step s) =
      owed s ++ g (outputs step' out' t (outputs step reply s l)) := by
  induction l generalizing s t with
  | nil =>
    rw [outputs, outputs, outputs, hf, hg, List.nil_append, List.append_nil, List.foldl_nil]
  | cons a l ih =>
    obtain ⟨hR, hout⟩ := hstep s t a h
    rw [outputs, outputs, outputs_append, hfappend, hgappend, List.foldl_cons, List.append_assoc,
      ih hR, ← List.append_assoc, hout, List.append_assoc]

end Simulation

/-! ### The inputs so far -/

/-- There has been an input with `P`, and every one since has had `Q`. `P` also sees the inputs
before. -/
def Since (P : List α → α → Prop) (Q : α → Prop) (l : List α) : Prop :=
  ∃ before a after, l = before ++ a :: after ∧ P before a ∧ ∀ b ∈ after, Q b

variable {P : List α → α → Prop} {Q : α → Prop}

theorem not_since_nil : ¬ Since P Q [] := by
  rintro ⟨before, a, after, hsplit, -⟩
  simp at hsplit

/-- **One more input.** -/
theorem since_append_singleton {l : List α} {b : α} :
    Since P Q (l ++ [b]) ↔ P l b ∨ Since P Q l ∧ Q b := by
  constructor
  · rintro ⟨before, a, after, hsplit, hP, hQ⟩
    rcases List.eq_nil_or_concat after with rfl | ⟨after, b', rfl⟩
    · obtain ⟨rfl, rfl⟩ := List.append_singleton_inj.1 hsplit
      exact Or.inl hP
    · rw [List.concat_eq_append] at hsplit hQ
      rw [← List.cons_append, ← List.append_assoc] at hsplit
      obtain ⟨rfl, rfl⟩ := List.append_singleton_inj.1 hsplit
      exact Or.inr ⟨⟨before, a, after, rfl, hP, fun b hb ↦ hQ b (List.mem_append_left _ hb)⟩,
        hQ b (List.mem_append_right _ List.mem_cons_self)⟩
  · rintro (hP | ⟨⟨before, a, after, rfl, hP, hQ⟩, hb⟩)
    · exact ⟨l, b, [], rfl, hP, fun _ hmem ↦ absurd hmem List.not_mem_nil⟩
    · refine ⟨before, a, after ++ [b], by simp, hP, fun c hc ↦ ?_⟩
      rcases List.mem_append.1 hc with hc | hc
      · exact hQ c hc
      · exact List.mem_singleton.1 hc ▸ hb

end Machine
