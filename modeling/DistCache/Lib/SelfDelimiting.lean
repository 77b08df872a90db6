import Mathlib.Data.List.Basic
import Mathlib.Data.List.Infix
import Mathlib.Logic.Function.Basic

/-!
# Self-delimiting codes

A code is self-delimiting when a code word tells which value it stands for and where it ends,
whatever follows it on the wire. Such codes can be put one behind the other: after a tag, after a
count, or without end (`eq_of_flatMap_eq`), and what is read back is what was written.

There are two ways to be so. Either the code word ends in a mark that does not occur earlier
(`selfDelimitingOn_append_pair`), which restricts what can be encoded, or a self-delimiting length
is put in front (`SelfDelimiting.lengthPrefixed`), and then anything goes.
-/

variable {α β γ : Type*}

/-- The code words of the values with `P` tell the value and where they end. -/
def SelfDelimitingOn (P : α → Prop) (enc : α → List β) : Prop :=
  ∀ ⦃a b⦄, P a → P b → ∀ ⦃r s⦄, enc a ++ r = enc b ++ s → a = b ∧ r = s

/-- All code words tell the value and where they end. -/
abbrev SelfDelimiting (enc : α → List β) : Prop := SelfDelimitingOn (fun _ ↦ True) enc

namespace SelfDelimitingOn

theorem mono {P Q : α → Prop} {enc : α → List β} (h : SelfDelimitingOn Q enc)
    (hPQ : ∀ a, P a → Q a) : SelfDelimitingOn P enc :=
  fun _ _ ha hb _ _ heq ↦ h (hPQ _ ha) (hPQ _ hb) heq

/-- An injective translation in front of a code. -/
theorem comp {P : α → Prop} {Q : γ → Prop} {enc : γ → List β} (h : SelfDelimitingOn Q enc)
    {f : α → γ} (hf : Function.Injective f) (hPQ : ∀ a, P a → Q (f a)) :
    SelfDelimitingOn P fun a ↦ enc (f a) :=
  fun _ _ ha hb _ _ heq ↦ (h (hPQ _ ha) (hPQ _ hb) heq).imp_left fun hfab ↦ hf hfab

/-- A tag in front of every code word. -/
theorem cons {P : α → Prop} {enc : α → List β} (h : SelfDelimitingOn P enc) (tag : β) :
    SelfDelimitingOn P fun a ↦ tag :: enc a :=
  fun _ _ ha hb _ _ heq ↦ h ha hb (List.cons.inj heq).2

/-! ### One behind the other -/

variable {P : α → Prop} {enc : α → List β}

/-- As many code words on both sides. -/
theorem eq_of_flatMap_append_eq (h : SelfDelimitingOn P enc) {xs ys : List α}
    (hxs : ∀ x ∈ xs, P x) (hys : ∀ y ∈ ys, P y) (hlength : xs.length = ys.length)
    {r s : List β} (heq : xs.flatMap enc ++ r = ys.flatMap enc ++ s) : xs = ys ∧ r = s := by
  induction xs generalizing ys with
  | nil =>
    obtain rfl : ys = [] := List.length_eq_zero_iff.1 hlength.symm
    exact ⟨rfl, heq⟩
  | cons x xs ih =>
    obtain ⟨y, ys, rfl⟩ := List.exists_cons_of_length_eq_add_one hlength.symm
    rw [List.forall_mem_cons] at hxs hys
    rw [List.flatMap_cons, List.flatMap_cons, List.append_assoc, List.append_assoc] at heq
    obtain ⟨rfl, hrest⟩ := h hxs.1 hys.1 heq
    obtain ⟨rfl, hrs⟩ := ih hxs.2 hys.2 (Nat.succ.inj hlength) hrest
    exact ⟨rfl, hrs⟩

/-- **A stream** of code words has one reading. -/
theorem eq_of_flatMap_eq (h : SelfDelimitingOn P enc) (hne : ∀ a, enc a ≠ []) {xs ys : List α}
    (hxs : ∀ x ∈ xs, P x) (hys : ∀ y ∈ ys, P y) (heq : xs.flatMap enc = ys.flatMap enc) :
    xs = ys := by
  induction xs generalizing ys with
  | nil =>
    rcases ys with - | ⟨y, ys⟩
    · rfl
    · rw [List.flatMap_nil, List.flatMap_cons] at heq
      exact absurd (List.append_eq_nil_iff.1 heq.symm).1 (hne y)
  | cons x xs ih =>
    rcases ys with - | ⟨y, ys⟩
    · rw [List.flatMap_nil, List.flatMap_cons] at heq
      exact absurd (List.append_eq_nil_iff.1 heq).1 (hne x)
    · rw [List.forall_mem_cons] at hxs hys
      rw [List.flatMap_cons, List.flatMap_cons] at heq
      obtain ⟨rfl, hrest⟩ := h hxs.1 hys.1 heq
      rw [ih hxs.2 hys.2 hrest]

/-- **A list**, with its length in front. -/
theorem counted (h : SelfDelimitingOn P enc) {count : ℕ → List β} (hcount : SelfDelimiting count) :
    SelfDelimitingOn (fun xs : List α ↦ ∀ x ∈ xs, P x)
      fun xs ↦ count xs.length ++ xs.flatMap enc := by
  intro xs ys hxs hys r s heq
  simp only [List.append_assoc] at heq
  obtain ⟨hlength, hrest⟩ := hcount trivial trivial heq
  exact h.eq_of_flatMap_append_eq hxs hys hlength hrest

end SelfDelimitingOn

/-- **A string**, with its length in front and a fixed mark behind it. -/
theorem SelfDelimiting.lengthPrefixed {count : ℕ → List β} (hcount : SelfDelimiting count)
    (mark : List β) : SelfDelimiting fun w : List β ↦ count w.length ++ w ++ mark := by
  intro w w' _ _ r s heq
  simp only [List.append_assoc] at heq
  obtain ⟨hlength, hrest⟩ := hcount trivial trivial heq
  obtain ⟨rfl, hmark⟩ := List.append_inj hrest hlength
  exact ⟨rfl, List.append_cancel_left hmark⟩

/-! ### A mark at the end -/

/-- A mark of two different letters has only one first occurrence. -/
private theorem length_le_of_pair {c d : β} (hcd : c ≠ d) {w w' r s : List β}
    (hw : ¬ [c, d] <:+: w) (heq : w ++ [c, d] ++ r = w' ++ [c, d] ++ s) :
    w.length ≤ w'.length := by
  by_contra hlt
  rw [not_le] at hlt
  rw [List.append_assoc, List.append_assoc] at heq
  obtain ⟨x, rfl⟩ : w' <+: w :=
    List.prefix_of_prefix_length_le ⟨_, heq.symm⟩ ⟨_, rfl⟩ hlt.le
  rw [List.append_assoc] at heq
  have hx := List.append_cancel_left heq
  rcases x with - | ⟨c', - | ⟨d', x⟩⟩
  · simp at hlt
  · -- the mark would overlap itself
    simp only [List.cons_append, List.nil_append, List.cons.injEq] at hx
    exact hcd hx.2.1
  · simp only [List.cons_append, List.nil_append, List.cons.injEq] at hx
    obtain ⟨rfl, rfl, -⟩ := hx
    exact hw ⟨w', x, by simp⟩

/-- **A string without the mark**, with the mark behind it. -/
theorem selfDelimitingOn_append_pair {c d : β} (hcd : c ≠ d) :
    SelfDelimitingOn (fun w ↦ ¬ [c, d] <:+: w) fun w ↦ w ++ [c, d] := by
  intro w w' hw hw' r s heq
  have hlength := le_antisymm (length_le_of_pair hcd hw heq) (length_le_of_pair hcd hw' heq.symm)
  rw [List.append_assoc, List.append_assoc] at heq
  obtain ⟨rfl, hrest⟩ := List.append_inj heq hlength
  exact ⟨rfl, List.append_cancel_left hrest⟩
