import Mathlib.Data.List.TakeWhile
import Mathlib.Data.List.Basic
import Mathlib.Data.List.Induction

/-!
# Character streams

Reading text off an input stream, as the C++ library does it: `>>` skips blanks and takes a word,
`getline` takes everything up to a delimiter. Both are stated on the stream state the standard
describes (what is unread, `eofbit`, `failbit`), because a reader that mixes them depends on when
the end of the input is *noticed* and not only on what has been consumed: a word that runs up to
the end sets `eofbit`, and every later extraction fails without touching its target.

The element type and the notion of a blank are parameters; nothing here knows about bytes.

## Two levels

* `IStream.extract`, `IStream.getline` are the calls, on stream states.
* `word`, `afterWord` and `getlines` say what a fresh stream yields, as plain list functions.
  `extract_extract_getline` and `getlines_eq_getline` tie the two together, and the parsing lemmas
  below are about the list functions only.
-/

namespace CharStream

variable {α : Type*}

/-- An input stream: the unread characters and the two state bits. -/
structure IStream (α : Type*) where
  /-- What has not been read yet. -/
  rest : List α
  /-- `eofbit`: an extraction ran into the end of the input. -/
  eof : Bool
  /-- `failbit`: an extraction did not deliver. -/
  fail : Bool

namespace IStream

/-- A freshly opened stream over `l`. -/
def ofList (l : List α) : IStream α := ⟨l, false, false⟩

/-- `good()`: what the sentry of every extraction asks for. -/
def good (s : IStream α) : Bool := !s.eof && !s.fail

/-- `s >> str`: skip blanks, take the longest run of non-blanks. When the sentry finds the stream
bad, or no character is left after the blanks, `str` keeps its old value `old`. -/
def extract (blank : α → Bool) (s : IStream α) (old : List α) : IStream α × List α :=
  if s.good then
    match s.rest.dropWhile blank with
    | [] => (⟨[], true, true⟩, old)
    | c :: cs =>
      let rest := (c :: cs).dropWhile (!blank ·)
      (⟨rest, rest.isEmpty, false⟩, (c :: cs).takeWhile (!blank ·))
  else ({ s with fail := true }, old)

/-- `getline(s, str, d)`: take everything up to `d`, which is consumed and not stored. Running into
the end sets `eofbit`; it is a failure only when nothing was read. -/
def getline [DecidableEq α] (d : α) (s : IStream α) (old : List α) : IStream α × List α :=
  if s.good then
    match s.rest.dropWhile (· != d) with
    | [] => (⟨[], true, s.rest.isEmpty⟩, s.rest)
    | _ :: rest => (⟨rest, false, false⟩, s.rest.takeWhile (· != d))
  else ({ s with fail := true }, old)

end IStream

/-! ### Where a scan stops -/

theorem not_of_dropWhile_eq_cons {p : α → Bool} {l : List α} {c : α} {cs : List α}
    (h : l.dropWhile p = c :: cs) : p c = false := by
  have hhead := List.head?_dropWhile_not p l
  rw [h] at hhead
  simpa using hhead

theorem notMem_takeWhile_ne [DecidableEq α] (d : α) (l : List α) : d ∉ l.takeWhile (· != d) :=
  fun hmem ↦ by simpa using List.mem_takeWhile_imp hmem

/-- A list with a delimiter in it splits at the first one. -/
theorem eq_append_cons_of_dropWhile_ne [DecidableEq α] {d c : α} {l rest : List α}
    (h : l.dropWhile (· != d) = c :: rest) : l = l.takeWhile (· != d) ++ d :: rest := by
  obtain rfl : c = d := by simpa using not_of_dropWhile_eq_cons h
  rw [← h, List.takeWhile_append_dropWhile]

private theorem forall_bne [DecidableEq α] {d : α} {l : List α} (h : d ∉ l) :
    ∀ c ∈ l, (c != d) = true := fun c hc ↦ by
  have hne : c ≠ d := fun heq ↦ h (heq ▸ hc)
  simpa using hne

/-- Nothing stops a scan for what is not there. -/
theorem dropWhile_ne_eq_nil_iff [DecidableEq α] {d : α} {l : List α} :
    l.dropWhile (· != d) = [] ↔ d ∉ l :=
  ⟨fun h hmem ↦ by simpa using List.dropWhile_eq_nil_iff.1 h d hmem,
    fun h ↦ List.dropWhile_eq_nil_iff.2 (forall_bne h)⟩

theorem takeWhile_ne_eq_self [DecidableEq α] {d : α} {l : List α} (h : d ∉ l) :
    l.takeWhile (· != d) = l := List.takeWhile_eq_self_iff.2 (forall_bne h)

theorem takeWhile_ne_append [DecidableEq α] {d : α} {l : List α} (h : d ∉ l) (l' : List α) :
    (l ++ l').takeWhile (· != d) = l ++ l'.takeWhile (· != d) :=
  List.takeWhile_append_of_pos (forall_bne h)

theorem dropWhile_ne_append [DecidableEq α] {d : α} {l : List α} (h : d ∉ l) (l' : List α) :
    (l ++ l').dropWhile (· != d) = l'.dropWhile (· != d) :=
  List.dropWhile_append_of_pos (forall_bne h)

/-! ### Where a text is cut -/

/-- A prefix of two pieces ends in the first or in the second one. -/
theorem prefix_append_cases {p l l' : List α} (h : p <+: l ++ l') :
    p <+: l ∨ ∃ t, t <+: l' ∧ p = l ++ t := by
  rcases List.prefix_or_prefix_of_prefix h (List.prefix_append _ _) with hp | ⟨t, rfl⟩
  · exact Or.inl hp
  · exact Or.inr ⟨t, (List.prefix_append_right_inj _).1 h, rfl⟩

/-- A cut text is some whole lines, followed by nothing or by a torn one. -/
theorem prefix_flatMap_concat {β : Type*} {line : β → List α} {d : α} {l : List β} {p : List α}
    (h : p <+: l.flatMap fun b ↦ line b ++ [d]) :
    (∃ kept, kept <+: l ∧ p = kept.flatMap fun b ↦ line b ++ [d]) ∨
      ∃ kept b torn, kept ++ [b] <+: l ∧ torn <+: line b ∧ torn ≠ [] ∧
        p = (kept.flatMap fun b ↦ line b ++ [d]) ++ torn := by
  induction l generalizing p with
  | nil => exact Or.inl ⟨[], List.prefix_refl _, List.prefix_nil.1 h⟩
  | cons b l ih =>
    rw [List.flatMap_cons] at h
    rcases prefix_append_cases h with hp | ⟨p', hp', rfl⟩
    · rw [List.prefix_concat_iff] at hp
      rcases hp with rfl | hp
      · exact Or.inl ⟨[b], by simp, by simp⟩
      · rcases eq_or_ne p [] with rfl | hne
        · exact Or.inl ⟨[], List.nil_prefix, rfl⟩
        · exact Or.inr ⟨[], b, p, by simp, hp, hne, rfl⟩
    · rcases ih hp' with ⟨kept, hkept, rfl⟩ | ⟨kept, b', torn, hkept, htorn, hne, rfl⟩
      · exact Or.inl ⟨b :: kept, List.cons_prefix_cons.2 ⟨rfl, hkept⟩, rfl⟩
      · refine Or.inr ⟨b :: kept, b', torn, List.cons_prefix_cons.2 ⟨rfl, hkept⟩, htorn, hne, ?_⟩
        rw [List.flatMap_cons, List.append_assoc (line b ++ [d])]

/-- A text is some closed lines and an open one, which may be empty. -/
theorem exists_eq_append_notMem (d : α) (a : List α) :
    ∃ closed torn, a = closed ++ torn ∧ d ∉ torn ∧ (closed = [] ∨ ∃ l, closed = l ++ [d]) := by
  induction a using List.reverseRecOn with
  | nil => exact ⟨[], [], rfl, List.not_mem_nil, Or.inl rfl⟩
  | append_singleton a c ih =>
    rcases eq_or_ne c d with rfl | hc
    · exact ⟨a ++ [c], [], (List.append_nil _).symm, List.not_mem_nil, Or.inr ⟨a, rfl⟩⟩
    · obtain ⟨closed, torn, rfl, htorn, hclosed⟩ := ih
      refine ⟨closed, torn ++ [c], List.append_assoc .., ?_, hclosed⟩
      rw [List.mem_append, List.mem_singleton, not_or]
      exact ⟨htorn, hc.symm⟩

/-! ### Lines -/

section Lines

variable [DecidableEq α]

/-- The lines delivered by the loop `while (getline(in, line, d))` on a fresh stream: a final
delimiter closes the last line and opens no further one, and an unterminated last line counts. -/
def getlines (d : α) : List α → List (List α)
  | [] => []
  | c :: cs =>
    if c = d then [] :: getlines d cs
    else
      match getlines d cs with
      | [] => [[c]]
      | l :: ls => (c :: l) :: ls

@[simp] theorem getlines_nil (d : α) : getlines d [] = [] := rfl

@[simp] theorem getlines_cons_self (d : α) (cs : List α) :
    getlines d (d :: cs) = [] :: getlines d cs := by
  simp [getlines]

theorem getlines_cons_of_ne {d c : α} (h : c ≠ d) (cs : List α) :
    getlines d (c :: cs) = (c :: (getlines d cs).head?.getD []) :: (getlines d cs).tail := by
  rcases hl : getlines d cs with - | ⟨l, ls⟩ <;> simp [getlines, h, hl]

/-- A delimited line is read off first, and the reader goes on behind the delimiter. -/
theorem getlines_append_cons {d : α} {l : List α} (h : d ∉ l) (rest : List α) :
    getlines d (l ++ d :: rest) = l :: getlines d rest := by
  induction l with
  | nil => simp
  | cons c l ih =>
    rw [List.mem_cons, not_or] at h
    rw [List.cons_append, getlines_cons_of_ne (Ne.symm h.1), ih h.2]
    rfl

/-- An unterminated last line is delivered like any other. -/
theorem getlines_of_notMem {d : α} {l : List α} (h : d ∉ l) (hne : l ≠ []) :
    getlines d l = [l] := by
  induction l with
  | nil => exact absurd rfl hne
  | cons c l ih =>
    rw [List.mem_cons, not_or] at h
    rw [getlines_cons_of_ne (Ne.symm h.1)]
    rcases l with - | ⟨c', l⟩
    · rfl
    · rw [ih h.2 (by simp)]
      rfl

/-- Text behind a delimiter does not influence the lines in front of it. -/
theorem getlines_append_terminated (d : α) (a b : List α) :
    getlines d ((a ++ [d]) ++ b) = getlines d (a ++ [d]) ++ getlines d b := by
  induction a with
  | nil => simp
  | cons c a ih =>
    rcases eq_or_ne c d with rfl | hc
    · simp only [List.cons_append, getlines_cons_self]
      rw [ih]
    · have hne : getlines d (a ++ [d]) ≠ [] := by
        rcases a with - | ⟨x, a⟩
        · simp
        · rcases eq_or_ne x d with hx | hx
          · simp [hx]
          · simp [getlines_cons_of_ne hx]
      obtain ⟨l, ls, hl⟩ := List.exists_cons_of_ne_nil hne
      simp only [List.cons_append, getlines_cons_of_ne hc]
      rw [ih, hl]
      rfl

/-- A line that is still open goes on in the first line of what follows. -/
theorem getlines_append_of_notMem {d : α} {torn : List α} (h : d ∉ torn) {b : List α}
    (hb : b ≠ []) :
    getlines d (torn ++ b) = (torn ++ (getlines d b).head?.getD []) :: (getlines d b).tail := by
  induction torn with
  | nil =>
    obtain ⟨l, ls, hl⟩ : ∃ l ls, getlines d b = l :: ls := by
      obtain ⟨c, cs, rfl⟩ := List.exists_cons_of_ne_nil hb
      rcases eq_or_ne c d with rfl | hc
      · exact ⟨_, _, getlines_cons_self c cs⟩
      · exact ⟨_, _, getlines_cons_of_ne hc cs⟩
    rw [List.nil_append, hl]
    rfl
  | cons c torn ih =>
    rw [List.mem_cons, not_or] at h
    rw [List.cons_append, getlines_cons_of_ne (Ne.symm h.1), ih h.2]
    rfl

/-- **Where two texts meet** there is one line that need not be a line of either of them. -/
theorem getlines_append (d : α) (a : List α) {b : List α} (hb : b ≠ []) :
    ∃ front glued, front ⊆ getlines d a ∧
      getlines d (a ++ b) = front ++ glued :: (getlines d b).tail := by
  obtain ⟨closed, torn, rfl, htorn, hclosed⟩ := exists_eq_append_notMem d a
  have hsplit : ∀ l, getlines d (closed ++ l) = getlines d closed ++ getlines d l := by
    intro l
    rcases hclosed with rfl | ⟨a, rfl⟩
    · rfl
    · exact getlines_append_terminated d a l
  refine ⟨getlines d closed, torn ++ (getlines d b).head?.getD [], ?_, ?_⟩
  · rw [hsplit]
    exact List.subset_append_left _ _
  · rw [List.append_assoc, hsplit, getlines_append_of_notMem htorn hb]

/-- A delimiter at the very end closes the last line, or adds an empty one. -/
theorem getlines_concat (d : α) (l : List α) :
    getlines d (l ++ [d]) = getlines d l ∨ getlines d (l ++ [d]) = getlines d l ++ [[]] := by
  induction l with
  | nil => exact Or.inr (getlines_cons_self d [])
  | cons c l ih =>
    rcases eq_or_ne c d with rfl | hc
    · rw [List.cons_append, getlines_cons_self, getlines_cons_self]
      exact ih.imp (congrArg _) (congrArg _)
    · rw [List.cons_append, getlines_cons_of_ne hc, getlines_cons_of_ne hc]
      rcases ih with ih | ih
      · exact Or.inl (by rw [ih])
      · rw [ih]
        rcases getlines d l with - | ⟨x, xs⟩
        · exact Or.inl rfl
        · exact Or.inr rfl

/-- Lines written one after the other, each with its delimiter, are read back one by one. -/
theorem getlines_flatMap_append {d : α} {ls : List (List α)} (h : ∀ l ∈ ls, d ∉ l)
    (rest : List α) :
    getlines d ((ls.flatMap fun l ↦ l ++ [d]) ++ rest) = ls ++ getlines d rest := by
  induction ls with
  | nil => rfl
  | cons l ls ih =>
    rw [List.forall_mem_cons] at h
    rw [List.flatMap_cons, List.append_assoc, List.append_assoc, List.singleton_append,
      getlines_append_cons h.1, ih h.2, List.cons_append]

/-- No delivered line contains the delimiter. -/
theorem notMem_of_mem_getlines {d : α} {l line : List α} (h : line ∈ getlines d l) :
    d ∉ line := by
  induction l generalizing line with
  | nil => simp at h
  | cons c l ih =>
    rcases eq_or_ne c d with rfl | hc
    · rw [getlines_cons_self, List.mem_cons] at h
      rcases h with rfl | h
      · simp
      · exact ih h
    · rw [getlines_cons_of_ne hc, List.mem_cons] at h
      rcases h with rfl | h
      · rw [List.mem_cons, not_or]
        refine ⟨Ne.symm hc, ?_⟩
        rcases hg : getlines d l with - | ⟨l', ls⟩
        · simp
        · exact ih (by rw [hg]; simp)
      · exact ih (List.mem_of_mem_tail h)

/-- **`getlines` is the `getline` loop.** On a nonempty input one `getline` succeeds, delivers the
first line, and leaves the stream at the input of the remaining lines. -/
theorem getlines_eq_getline (d : α) {l : List α} (hne : l ≠ []) (old : List α) :
    ((IStream.ofList l).getline d old).1.fail = false ∧
      getlines d l = ((IStream.ofList l).getline d old).2 ::
        getlines d ((IStream.ofList l).getline d old).1.rest := by
  rcases hd : l.dropWhile (· != d) with - | ⟨c, rest⟩
  · have hall : d ∉ l := dropWhile_ne_eq_nil_iff.1 hd
    simp [IStream.getline, IStream.ofList, IStream.good, hd, hne, getlines_of_notMem hall hne]
  · have hsplit := eq_append_cons_of_dropWhile_ne hd
    refine ⟨by simp [IStream.getline, IStream.ofList, IStream.good, hd], ?_⟩
    calc getlines d l
        = getlines d (l.takeWhile (· != d) ++ d :: rest) := by rw [← hsplit]
      _ = l.takeWhile (· != d) :: getlines d rest :=
          getlines_append_cons (notMem_takeWhile_ne d l) rest
      _ = _ := by simp [IStream.getline, IStream.ofList, IStream.good, hd]

end Lines

/-! ### Words -/

/-- The first word of a text: blanks skipped, then everything up to the next blank. -/
def word (blank : α → Bool) (l : List α) : List α := (l.dropWhile blank).takeWhile (!blank ·)

/-- What is left behind the first word. -/
def afterWord (blank : α → Bool) (l : List α) : List α := (l.dropWhile blank).dropWhile (!blank ·)

variable {blank : α → Bool}

@[simp] theorem word_nil : word blank ([] : List α) = [] := rfl

@[simp] theorem afterWord_nil : afterWord blank ([] : List α) = [] := rfl

theorem not_blank_of_mem_word {l : List α} {c : α} (h : c ∈ word blank l) : blank c = false := by
  simpa using List.mem_takeWhile_imp h

theorem afterWord_subset (l : List α) : afterWord blank l ⊆ l := fun _ h ↦
  List.dropWhile_subset _ (List.dropWhile_subset _ h)

/-- Without a word there is nothing behind it either. -/
theorem afterWord_eq_nil_of_word_eq_nil {l : List α} (h : word blank l = []) :
    afterWord blank l = [] := by
  rcases hd : l.dropWhile blank with - | ⟨c, cs⟩
  · rw [afterWord, hd, List.dropWhile_nil]
  · have hc : blank c = false := not_of_dropWhile_eq_cons hd
    rw [word, hd, List.takeWhile_cons_of_pos (by simp [hc])] at h
    exact absurd h (by simp)

/-- Leading blanks do not matter. -/
theorem word_cons_blank {c : α} (h : blank c = true) (l : List α) :
    word blank (c :: l) = word blank l := by
  rw [word, List.dropWhile_cons_of_pos h, word]

theorem afterWord_cons_blank {c : α} (h : blank c = true) (l : List α) :
    afterWord blank (c :: l) = afterWord blank l := by
  rw [afterWord, List.dropWhile_cons_of_pos h, afterWord]

private theorem dropWhile_blank_append {w : List α} (hw : ∀ c ∈ w, blank c = false) (hne : w ≠ [])
    (rest : List α) : (w ++ rest).dropWhile blank = w ++ rest := by
  obtain ⟨c, cs, rfl⟩ := List.exists_cons_of_ne_nil hne
  rw [List.cons_append, List.dropWhile_cons_of_neg (by simp [hw c])]

/-- A run of non-blanks at the front belongs to the first word. -/
theorem word_append {w : List α} (hw : ∀ c ∈ w, blank c = false) (hne : w ≠ []) (rest : List α) :
    word blank (w ++ rest) = w ++ rest.takeWhile (!blank ·) := by
  rw [word, dropWhile_blank_append hw hne, List.takeWhile_append_of_pos (by simpa using hw)]

theorem afterWord_append {w : List α} (hw : ∀ c ∈ w, blank c = false) (hne : w ≠ [])
    (rest : List α) : afterWord blank (w ++ rest) = rest.dropWhile (!blank ·) := by
  rw [afterWord, dropWhile_blank_append hw hne, List.dropWhile_append_of_pos (by simpa using hw)]

/-- A word closed by a blank is delivered as it is. -/
theorem word_append_blank {w : List α} (hw : ∀ c ∈ w, blank c = false) (hne : w ≠ []) {b : α}
    (hb : blank b = true) (rest : List α) : word blank (w ++ b :: rest) = w := by
  rw [word_append hw hne, List.takeWhile_cons_of_neg (by simp [hb]), List.append_nil]

theorem afterWord_append_blank {w : List α} (hw : ∀ c ∈ w, blank c = false) (hne : w ≠ []) {b : α}
    (hb : blank b = true) (rest : List α) : afterWord blank (w ++ b :: rest) = b :: rest := by
  rw [afterWord_append hw hne, List.dropWhile_cons_of_neg (by simp [hb])]

/-- A word that runs up to the end of the input. -/
theorem word_self {w : List α} (hw : ∀ c ∈ w, blank c = false) (hne : w ≠ []) :
    word blank w = w := by
  simpa using word_append hw hne []

theorem afterWord_self {w : List α} (hw : ∀ c ∈ w, blank c = false) (hne : w ≠ []) :
    afterWord blank w = [] := by
  simpa using afterWord_append hw hne []

/-! ### Reading two words and the rest of the line -/

/-- One extraction off a good stream. -/
theorem extract_of_good (blank : α → Bool) {s : IStream α} (h : s.good = true) :
    s.extract blank [] =
      (⟨afterWord blank s.rest, (afterWord blank s.rest).isEmpty, (word blank s.rest).isEmpty⟩,
        word blank s.rest) := by
  rcases hd : s.rest.dropWhile blank with - | ⟨c, cs⟩
  · simp [IStream.extract, h, hd, word, afterWord]
  · have hc : blank c = false := not_of_dropWhile_eq_cons hd
    simp [IStream.extract, h, hd, word, afterWord, hc]

/-- On a bad stream an extraction leaves its target alone and the stream bad. -/
theorem extract_of_not_good (blank : α → Bool) {s : IStream α} (h : s.good = false) :
    s.extract blank [] = ({ s with fail := true }, []) := by
  simp [IStream.extract, h]

/-- What a `getline` delivers off a good stream that has no delimiter left, and off a bad one. -/
theorem getline_snd_of_notMem [DecidableEq α] {d : α} {s : IStream α} (h : d ∉ s.rest) :
    (s.getline d []).2 = if s.good then s.rest else [] := by
  have hnd : s.rest.dropWhile (· != d) = [] := dropWhile_ne_eq_nil_iff.2 h
  by_cases hg : s.good = true <;> simp [IStream.getline, hg, hnd]

/-- **The mixed reader.** Two `>>` into empty strings and a `getline` into a third, on a fresh
stream over a single line, deliver the first word, the second word, and everything behind it —
whichever of the three calls first notices the end of the line. -/
theorem extract_extract_getline [DecidableEq α] (blank : α → Bool) {d : α} {l : List α}
    (hd : d ∉ l) :
    let r₁ := (IStream.ofList l).extract blank []
    let r₂ := r₁.1.extract blank []
    (r₁.2, r₂.2, (r₂.1.getline d []).2) =
      (word blank l, word blank (afterWord blank l), afterWord blank (afterWord blank l)) := by
  have h₁ := extract_of_good blank (s := IStream.ofList l) rfl
  have hd₁ : d ∉ afterWord blank l := fun h ↦ hd (afterWord_subset _ h)
  have hd₂ : d ∉ afterWord blank (afterWord blank l) := fun h ↦ hd₁ (afterWord_subset _ h)
  simp only [h₁]
  simp only [IStream.ofList]
  by_cases hend : afterWord blank l = []
  · -- the first word already ran up to the end
    rw [extract_of_not_good blank (by simp [IStream.good, hend])]
    simp [getline_snd_of_notMem, IStream.good, hend]
  · have hword : word blank l ≠ [] := fun h ↦ hend (afterWord_eq_nil_of_word_eq_nil h)
    rw [extract_of_good blank (by simp [IStream.good, hend, hword])]
    refine Prod.ext rfl (Prod.ext rfl ?_)
    rw [getline_snd_of_notMem hd₂]
    by_cases hend₂ : afterWord blank (afterWord blank l) = []
    · simp [hend₂]
    · have hword₂ : word blank (afterWord blank l) ≠ [] := fun h ↦
        hend₂ (afterWord_eq_nil_of_word_eq_nil h)
      simp [IStream.good, hend₂, hword₂]

end CharStream
