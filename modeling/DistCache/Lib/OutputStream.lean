import Mathlib.Data.List.Basic
import Mathlib.Data.Nat.Notation

/-!
# Output streams whose operations may fail

An output stream passes what is put into it on to a file, sooner or later, and may fail at it. After
a failure it ignores whatever is put into it, until it is opened again. Whether an operation fails
is decided outside, so it is an argument: `none` when it succeeds, and `some n` when it fails after
`n` of the bytes that were due have got into the file. At least the last one has not.

The bytes that a failed operation did not get into the file are lost here. A stream may keep them in
its buffer and write them when it is closed; this is left out.

A text is put piece by piece and then flushed (`writeAll`). Either every operation succeeds and the
file has the text (`writeAll_of_none`), or some operation fails, and then the stream is bad and the
file has a proper prefix of it (`writeAll_of_some`).

`OccurIn texts l` says that the texts stand in `l`, one after the other. When all texts were written
this is so, and when one of them was cut short there is too little in the file.
-/

/-- A stream: what is in the file, what has been put but is not in the file yet, and whether an
operation has failed. -/
structure OStream (α : Type*) where
  file : List α
  pending : List α
  bad : Bool
  deriving DecidableEq, Repr

namespace OStream

variable {α : Type*}

/-- An operation that is to get `due` into the file fails: all but the first `n` are lost, also for
a later `close`. -/
def lose (s : OStream α) (due : List α) (n : ℕ) : OStream α :=
  { file := s.file ++ due.dropLast.take n, pending := [], bad := true }

/-- Put `l` into the stream. -/
def put (s : OStream α) (l : List α) (outcome : Option ℕ) : OStream α :=
  if s.bad then s
  else match outcome with
    | none => { s with pending := s.pending ++ l }
    | some n => s.lose (s.pending ++ l) n

/-- Get what was put into the file. -/
def flush (s : OStream α) (outcome : Option ℕ) : OStream α :=
  if s.bad then s
  else match outcome with
    | none => { s with file := s.file ++ s.pending, pending := [] }
    | some n => s.lose s.pending n

/-- Open the file again, at its end: the stream is good, whatever happened to it before. -/
def reopen (s : OStream α) : OStream α := { file := s.file, pending := [], bad := false }

/-- Put several pieces; `fails i` is the outcome of the `i`-th operation. -/
def putAll (s : OStream α) : List (List α) → (ℕ → Option ℕ) → OStream α
  | [], _ => s
  | l :: pieces, fails => (s.put l (fails 0)).putAll pieces fun i ↦ fails (i + 1)

/-- Put several pieces and flush. -/
def writeAll (s : OStream α) (pieces : List (List α)) (fails : ℕ → Option ℕ) : OStream α :=
  (s.putAll pieces fails).flush (fails pieces.length)

/-! ### A bad stream -/

@[simp] theorem put_of_bad {s : OStream α} (h : s.bad = true) (l : List α) (outcome : Option ℕ) :
    s.put l outcome = s := if_pos h

@[simp] theorem flush_of_bad {s : OStream α} (h : s.bad = true) (outcome : Option ℕ) :
    s.flush outcome = s := if_pos h

theorem putAll_of_bad {s : OStream α} (h : s.bad = true) (pieces : List (List α))
    (fails : ℕ → Option ℕ) : s.putAll pieces fails = s := by
  induction pieces generalizing fails with
  | nil => rfl
  | cons l pieces ih => rw [putAll, put_of_bad h, ih]

/-- **Nothing is written** to a bad stream. -/
theorem writeAll_of_bad {s : OStream α} (h : s.bad = true) (pieces : List (List α))
    (fails : ℕ → Option ℕ) : s.writeAll pieces fails = s := by
  rw [writeAll, putAll_of_bad h, flush_of_bad h]

/-! ### A good stream -/

theorem put_none {s : OStream α} (h : s.bad = false) (l : List α) :
    s.put l none = { s with pending := s.pending ++ l } := if_neg (by simp [h])

theorem put_some {s : OStream α} (h : s.bad = false) (l : List α) (n : ℕ) :
    s.put l (some n) = s.lose (s.pending ++ l) n := if_neg (by simp [h])

theorem flush_none {s : OStream α} (h : s.bad = false) :
    s.flush none = ⟨s.file ++ s.pending, [], false⟩ := by
  rw [flush, if_neg (by simp [h]), h]

theorem flush_some {s : OStream α} (h : s.bad = false) (n : ℕ) :
    s.flush (some n) = s.lose s.pending n := if_neg (by simp [h])

theorem lose_spec (s : OStream α) {due : List α} (hdue : due ≠ []) (n : ℕ) :
    ∃ part, part <+: due ∧ part.length < due.length ∧
      s.lose due n = ⟨s.file ++ part, [], true⟩ := by
  refine ⟨due.dropLast.take n, (List.take_prefix _ _).trans (List.dropLast_prefix _), ?_, rfl⟩
  have hpos : 0 < due.length := List.length_pos_iff.2 hdue
  rw [List.length_take, List.length_dropLast]
  omega

/-- With nothing waiting there is nothing to flush, and nothing to lose. -/
theorem flush_of_pending_eq_nil {s : OStream α} (h : s.pending = []) (outcome : Option ℕ) :
    (s.flush outcome).file = s.file ∧ (s.flush outcome).pending = [] := by
  rcases hbad : s.bad with - | -
  · cases outcome with
    | none => simp [flush_none hbad, h]
    | some n => simp [flush_some hbad, lose, h]
  · rw [flush_of_bad hbad]
    exact ⟨rfl, h⟩

theorem putAll_of_none {s : OStream α} (h : s.bad = false) {pieces : List (List α)}
    {fails : ℕ → Option ℕ} (hfails : ∀ i < pieces.length, fails i = none) :
    s.putAll pieces fails = { s with pending := s.pending ++ pieces.flatten } := by
  induction pieces generalizing s fails with
  | nil => simp [putAll]
  | cons l pieces ih =>
    have hrest := ih (s := { s with pending := s.pending ++ l }) h fun i hi ↦
      hfails (i + 1) (Nat.succ_lt_succ hi)
    rw [putAll, hfails 0 (Nat.zero_lt_succ _), put_none h, hrest, List.flatten_cons,
      List.append_assoc]

/-- **All goes well**: the pieces are in the file. -/
theorem writeAll_of_none {s : OStream α} (h : s.bad = false) {pieces : List (List α)}
    {fails : ℕ → Option ℕ} (hfails : ∀ i ≤ pieces.length, fails i = none) :
    s.writeAll pieces fails = ⟨s.file ++ (s.pending ++ pieces.flatten), [], false⟩ := by
  rw [writeAll, putAll_of_none h fun i hi ↦ hfails i (Nat.le_of_lt hi), hfails _ (Nat.le_refl _)]
  exact flush_none h

/-- Some piece cannot be put. -/
theorem putAll_of_some {s : OStream α} (h : s.bad = false) {pieces : List (List α)}
    {fails : ℕ → Option ℕ} (hne : s.pending ++ pieces.flatten ≠ [])
    (hfails : ∃ i < pieces.length, fails i ≠ none) :
    ∃ part, part <+: s.pending ++ pieces.flatten ∧
      part.length < (s.pending ++ pieces.flatten).length ∧
      s.putAll pieces fails = ⟨s.file ++ part, [], true⟩ := by
  induction pieces generalizing s fails with
  | nil =>
    obtain ⟨i, hi, -⟩ := hfails
    exact absurd hi (Nat.not_lt_zero i)
  | cons l pieces ih =>
    rw [List.flatten_cons, ← List.append_assoc] at hne ⊢
    rcases h0 : fails 0 with - | n
    · -- this piece is put; the failure comes later
      rw [putAll, h0, put_none h]
      obtain ⟨i, hi, hfail⟩ := hfails
      cases i with
      | zero => exact absurd h0 hfail
      | succ i =>
        exact ih (s := { s with pending := s.pending ++ l }) h hne
          ⟨i, Nat.lt_of_succ_lt_succ hi, hfail⟩
    · rw [putAll, h0, put_some h, putAll_of_bad rfl]
      rcases eq_or_ne (s.pending ++ l) [] with hnil | hdue
      · refine ⟨[], List.nil_prefix, List.length_pos_iff.2 hne, ?_⟩
        simp [lose, hnil]
      · obtain ⟨part, hpart, hlt, heq⟩ := s.lose_spec hdue n
        refine ⟨part, hpart.trans (List.prefix_append _ _), ?_, heq⟩
        rw [List.length_append]
        omega

/-- **An operation fails**: the stream is bad, and the file lacks the end of the text. -/
theorem writeAll_of_some {s : OStream α} (h : s.bad = false) {pieces : List (List α)}
    {fails : ℕ → Option ℕ} (hne : s.pending ++ pieces.flatten ≠ [])
    (hfails : ∃ i ≤ pieces.length, fails i ≠ none) :
    ∃ part, part <+: s.pending ++ pieces.flatten ∧
      part.length < (s.pending ++ pieces.flatten).length ∧
      s.writeAll pieces fails = ⟨s.file ++ part, [], true⟩ := by
  by_cases hput : ∃ i < pieces.length, fails i ≠ none
  · obtain ⟨part, hpart, hlt, heq⟩ := putAll_of_some h hne hput
    exact ⟨part, hpart, hlt, by rw [writeAll, heq, flush_of_bad rfl]⟩
  · -- so it is the flush that fails
    have hnone : ∀ i < pieces.length, fails i = none := fun i hi ↦ by
      by_contra hfail
      exact hput ⟨i, hi, hfail⟩
    obtain ⟨i, hi, hfail⟩ := hfails
    obtain rfl : i = pieces.length := by
      by_contra hne'
      exact hfail (hnone i (by omega))
    obtain ⟨n, hn⟩ := Option.ne_none_iff_exists'.1 hfail
    rw [writeAll, putAll_of_none h hnone, hn,
      flush_some (s := ⟨s.file, s.pending ++ pieces.flatten, s.bad⟩) h]
    exact lose_spec _ hne n

/-! ### Texts one after the other -/

/-- The texts stand in `l`, one after the other. -/
def OccurIn : List (List α) → List α → Prop
  | [], _ => True
  | text :: texts, l => ∃ before after, l = before ++ (text ++ after) ∧ OccurIn texts after

theorem occurIn_flatten (texts : List (List α)) : OccurIn texts texts.flatten := by
  induction texts with
  | nil => trivial
  | cons text texts ih => exact ⟨[], texts.flatten, rfl, ih⟩

/-- There is room for them. -/
theorem OccurIn.length_le {texts : List (List α)} {l : List α} (h : OccurIn texts l) :
    texts.flatten.length ≤ l.length := by
  induction texts generalizing l with
  | nil => exact Nat.zero_le _
  | cons text texts ih =>
    obtain ⟨before, after, rfl, hafter⟩ := h
    have := ih hafter
    simp only [List.flatten_cons, List.length_append]
    omega

end OStream
