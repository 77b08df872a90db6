import DistCache.Lib.Machine
import Mathlib.Logic.Function.Basic

/-!
# One file and several writers

Several writers put their texts into one file. Each of them opens the file once, which empties it
for all of them, and then writes its text from the front, piece by piece, at an offset of its own.
Nothing orders the writers. Who has opened the file and was overtaken by another one goes on at its
old offset, in a file that is no longer its own.

The writer that opened the file last is the one whose text the file should hold. As far as it has
written, the file agrees with its text, and the file is no longer than that text (`Held`). A write
of another one keeps this if it is `Harmless`: it stays inside that text, and where the text is
already in the file it writes the same. If all the writes of a run are, the file holds one of the
texts at its end (`file_eq_of_harmless`). Writers that wait for each other never do harm
(`harmless_of_exclusive`).
-/

/-- The file, how far every writer has come, if it has opened the file, and who opened it last. -/
structure SharedFile (ι α : Type*) where
  file : List α
  offset : ι → Option ℕ
  opener : Option ι

namespace SharedFile

variable {ι α : Type*}

/-! ### Writing at an offset -/

/-- Write `chunk` at the offset `o`. A gap in front of it is filled up, and writing nothing changes
nothing. -/
def writeAt (fill : α) (file : List α) (o : ℕ) (chunk : List α) : List α :=
  if chunk.isEmpty then file
  else
    file.take o ++ List.replicate (o - file.length) fill ++ chunk ++ file.drop (o + chunk.length)

section WriteAt

variable (fill : α) (file : List α) (o : ℕ) (chunk : List α)

theorem length_writeAt_le {b : ℕ} (hfile : file.length ≤ b)
    (hchunk : ∀ x < o + chunk.length, o ≤ x → x < b) :
    (writeAt fill file o chunk).length ≤ b := by
  unfold writeAt
  split_ifs with hnil
  · exact hfile
  · have hpos : 0 < chunk.length := List.length_pos_iff.2 fun h ↦ hnil (List.isEmpty_iff.2 h)
    have hlast := hchunk (o + chunk.length - 1) (by omega) (by omega)
    simp only [List.length_append, List.length_take, List.length_replicate, List.length_drop]
    omega

/-- What is written. -/
theorem getElem?_writeAt_of_lt {x : ℕ} (hle : o ≤ x) (hlt : x < o + chunk.length) :
    (writeAt fill file o chunk)[x]? = chunk[x - o]? := by
  have hne : ¬ chunk.isEmpty = true := fun hnil ↦ by
    rw [List.isEmpty_iff.1 hnil] at hlt
    simp at hlt
    omega
  have hfront : (file.take o ++ List.replicate (o - file.length) fill).length = o := by
    simp only [List.length_append, List.length_take, List.length_replicate]
    omega
  have hfirst : x < (file.take o ++ List.replicate (o - file.length) fill ++ chunk).length := by
    rw [List.length_append, hfront]
    exact hlt
  rw [writeAt, if_neg hne, List.getElem?_append_left hfirst,
    List.getElem?_append_right (Nat.le_trans (Nat.le_of_eq hfront) hle), hfront]

/-- What is left alone. -/
theorem getElem?_writeAt_of_not {x : ℕ} (hx : x < file.length)
    (hout : x < o ∨ o + chunk.length ≤ x) :
    (writeAt fill file o chunk)[x]? = file[x]? := by
  unfold writeAt
  split_ifs
  · rfl
  · rcases hout with hlt | hge
    · have htake : x < (file.take o).length := by
        rw [List.length_take]
        omega
      rw [List.append_assoc, List.append_assoc, List.getElem?_append_left htake,
        List.getElem?_take_of_lt hlt]
    · have hfront : (file.take o ++ List.replicate (o - file.length) fill ++ chunk).length =
          o + chunk.length := by
        simp only [List.length_append, List.length_take, List.length_replicate]
        omega
      rw [List.getElem?_append_right (by rw [hfront]; exact hge), hfront, List.getElem?_drop]
      congr 1
      omega

end WriteAt

/-- Up to the offset `o` the file holds `text`, and what is behind it is no longer than `text`. -/
structure Agrees (text file : List α) (o : ℕ) : Prop where
  le_length : o ≤ text.length
  length_le : file.length ≤ text.length
  getElem?_eq : ∀ x < o, file[x]? = text[x]?

theorem agrees_nil (text : List α) : Agrees text [] 0 :=
  ⟨Nat.zero_le _, Nat.zero_le _, fun x hx ↦ absurd hx (Nat.not_lt_zero x)⟩

/-- **A write** that stays inside the text and, up to the offset reached, writes what is there. -/
theorem Agrees.writeAt {text file chunk : List α} {o o₁ o₂ : ℕ} (fill : α)
    (h : Agrees text file o₁) (hle : o₂ ≤ text.length)
    (hreach : ∀ x < o₂, x < o₁ ∨ o ≤ x ∧ x < o + chunk.length)
    (hsame : ∀ x < o + chunk.length, o ≤ x →
      x < text.length ∧ (x < o₂ → chunk[x - o]? = text[x]?)) :
    Agrees text (SharedFile.writeAt fill file o chunk) o₂ where
  le_length := hle
  length_le := length_writeAt_le fill file o chunk h.length_le fun x hx hox ↦ (hsame x hx hox).1
  getElem?_eq x hx := by
    by_cases hin : o ≤ x ∧ x < o + chunk.length
    · rw [getElem?_writeAt_of_lt fill file o chunk hin.1 hin.2]
      exact (hsame x hin.2 hin.1).2 hx
    · have hx₁ : x < o₁ := (hreach x hx).resolve_right hin
      have hfile : x < file.length := by
        by_contra hge
        have heq := h.getElem?_eq x hx₁
        rw [List.getElem?_eq_none (Nat.not_lt.1 hge)] at heq
        have := List.getElem?_eq_none_iff.1 heq.symm
        omega
      rw [getElem?_writeAt_of_not fill file o chunk hfile (by omega)]
      exact h.getElem?_eq x hx₁

/-- The whole text. -/
theorem Agrees.eq_text {text file : List α} (h : Agrees text file text.length) : file = text := by
  refine List.ext_getElem? fun x ↦ ?_
  rcases Nat.lt_or_ge x text.length with hlt | hge
  · exact h.getElem?_eq x hlt
  · rw [List.getElem?_eq_none hge, List.getElem?_eq_none (Nat.le_trans h.length_le hge)]

/-! ### The moves of the writers -/

/-- A writer opens the file, or writes the next piece of its text. -/
inductive Move (ι : Type*) where
  | openTruncate (i : ι)
  | write (i : ι) (n : ℕ)
  deriving DecidableEq, Repr

/-- Nobody has opened the file yet. -/
def untouched (file : List α) : SharedFile ι α := ⟨file, fun _ ↦ none, none⟩

/-- The next `n` units of a text from an offset on, or what is left of it. -/
def chunk (text : List α) (o n : ℕ) : List α := (text.drop o).take n

theorem add_length_chunk_le (text : List α) {o : ℕ} (h : o ≤ text.length) (n : ℕ) :
    o + (chunk text o n).length ≤ text.length := by
  rw [chunk, List.length_take, List.length_drop]
  omega

theorem getElem?_chunk {text : List α} {o n x : ℕ} (hle : o ≤ x)
    (hlt : x < o + (chunk text o n).length) : (chunk text o n)[x - o]? = text[x]? := by
  have hn : x - o < n := by
    rw [chunk, List.length_take] at hlt
    omega
  rw [chunk, List.getElem?_take_of_lt hn, List.getElem?_drop]
  congr 1
  omega

theorem chunk_length_self (text : List α) (n : ℕ) : chunk text text.length n = [] := by
  rw [chunk, List.drop_length, List.take_nil]

/-- After one move. A writer opens the file once, and writes only when it has. -/
def step [DecidableEq ι] (fill : α) (text : ι → List α) (s : SharedFile ι α) :
    Move ι → SharedFile ι α
  | .openTruncate i =>
    match s.offset i with
    | none => ⟨[], Function.update s.offset i (some 0), some i⟩
    | some _ => s
  | .write i n =>
    match s.offset i with
    | none => s
    | some o =>
      ⟨writeAt fill s.file o (chunk (text i) o n),
        Function.update s.offset i (some (o + (chunk (text i) o n).length)), s.opener⟩

/-- **What a move can do.** -/
theorem step_cases [DecidableEq ι] (fill : α) (text : ι → List α) (s : SharedFile ι α)
    (m : Move ι) :
    s.step fill text m = s ∨
      (∃ i, m = .openTruncate i ∧ s.offset i = none ∧
        s.step fill text m = ⟨[], Function.update s.offset i (some 0), some i⟩) ∨
      ∃ i n o, m = .write i n ∧ s.offset i = some o ∧
        s.step fill text m = ⟨writeAt fill s.file o (chunk (text i) o n),
          Function.update s.offset i (some (o + (chunk (text i) o n).length)), s.opener⟩ := by
  cases m with
  | openTruncate i =>
    rcases hi : s.offset i with - | o
    · exact Or.inr (Or.inl ⟨i, rfl, hi, by simp only [step, hi]⟩)
    · exact Or.inl (by simp only [step, hi])
  | write i n =>
    rcases hi : s.offset i with - | o
    · exact Or.inl (by simp only [step, hi])
    · exact Or.inr (Or.inr ⟨i, n, o, rfl, hi, by simp only [step, hi]⟩)

variable (text : ι → List α)

/-- A write of a writer that is not the last opener of the file stays inside the text of that one,
and where this text is already in the file it writes the same. -/
def Harmless (s : SharedFile ι α) : Move ι → Prop
  | .openTruncate _ => True
  | .write i n => ∀ j ∈ s.opener, i ≠ j → ∀ o ∈ s.offset i,
      ∀ x < o + (chunk (text i) o n).length, o ≤ x →
        x < (text j).length ∧ ∀ o' ∈ s.offset j, x < o' → (text i)[x]? = (text j)[x]?

instance decidableHarmless [DecidableEq ι] [DecidableEq α] (s : SharedFile ι α) :
    (m : Move ι) → Decidable (Harmless text s m)
  | .openTruncate _ => isTrue trivial
  | .write i n => inferInstanceAs (Decidable (∀ j ∈ s.opener, i ≠ j → ∀ o ∈ s.offset i,
      ∀ x < o + (chunk (text i) o n).length, o ≤ x → _ ∧ ∀ o' ∈ s.offset j, x < o' → _))

/-- A writer opens the file only when each of the others has not begun yet or is done. -/
def Exclusive (s : SharedFile ι α) : Move ι → Prop
  | .openTruncate _ => ∀ j, s.offset j = none ∨ s.offset j = some (text j).length
  | .write _ _ => True

/-- Every writer has opened the file and written its whole text. -/
def Finished (s : SharedFile ι α) : Prop := ∀ i, s.offset i = some (text i).length

/-! ### What a run leaves in the file -/

/-- The last opener has the file: it holds that writer's text as far as it has been written, and
nothing behind that text. -/
structure Held (s : SharedFile ι α) : Prop where
  offset_eq_none : s.opener = none → ∀ i, s.offset i = none
  agrees : ∀ j, s.opener = some j → ∃ o, s.offset j = some o ∧ Agrees (text j) s.file o

theorem held_untouched (file : List α) : Held text (untouched file) :=
  ⟨fun _ _ ↦ rfl, fun _ h ↦ absurd h (by simp [untouched])⟩

variable [DecidableEq ι] {fill : α} {text} {s : SharedFile ι α}

/-- **One move.** -/
theorem Held.step (h : Held text s) (m : Move ι) (hm : Harmless text s m) :
    Held text (s.step fill text m) := by
  obtain heq | ⟨i, rfl, hi, heq⟩ | ⟨i, n, o, rfl, hi, heq⟩ := step_cases fill text s m
  · rw [heq]
    exact h
  · rw [heq]
    refine ⟨fun hnone ↦ absurd hnone (by simp), fun j hj ↦ ?_⟩
    obtain rfl : i = j := Option.some.inj hj
    exact ⟨0, Function.update_self _ _ _, agrees_nil _⟩
  · rw [heq]
    refine ⟨fun hnone ↦ absurd ((h.offset_eq_none hnone i).symm.trans hi) (by simp),
      fun j hj ↦ ?_⟩
    obtain ⟨o₁, ho₁, hagrees⟩ := h.agrees j hj
    rcases eq_or_ne i j with rfl | hij
    · -- the opener writes on
      obtain rfl : o = o₁ := Option.some.inj (hi.symm.trans ho₁)
      have hle := add_length_chunk_le (text i) hagrees.le_length n
      exact ⟨_, Function.update_self _ _ _, hagrees.writeAt fill hle (fun x hx ↦ by omega)
        fun x hx hox ↦ ⟨by omega, fun _ ↦ getElem?_chunk hox hx⟩⟩
    · refine ⟨o₁, (Function.update_of_ne hij.symm _ _).trans ho₁,
        hagrees.writeAt fill hagrees.le_length (fun x hx ↦ Or.inl hx) fun x hx hox ↦ ?_⟩
      obtain ⟨hlt, hsame⟩ := hm j hj hij o hi x hx hox
      exact ⟨hlt, fun hxo ↦ (getElem?_chunk hox hx).trans (hsame o₁ ho₁ hxo)⟩

/-- No other move than a harmless one leaves the file to its opener. -/
theorem Held.step_iff (h : Held text s) (m : Move ι) :
    Held text (s.step fill text m) ↔ Harmless text s m := by
  refine ⟨fun h' ↦ ?_, h.step m⟩
  cases m with
  | openTruncate i => trivial
  | write i n =>
    intro j hj hij o ho x hx hox
    simp only [SharedFile.step, Option.mem_def.1 ho] at h'
    obtain ⟨o', ho', hagrees⟩ := h'.agrees j hj
    have hoffset : s.offset j = some o' :=
      (Function.update_of_ne (Ne.symm hij) _ _).symm.trans ho'
    have hwritten := getElem?_writeAt_of_lt fill s.file o (chunk (text i) o n) hox hx
    refine ⟨Nat.lt_of_lt_of_le ?_ hagrees.length_le, fun o₁ ho₁ hxo ↦ ?_⟩
    · by_contra hge
      rw [List.getElem?_eq_none (Nat.not_lt.1 hge)] at hwritten
      have := List.getElem?_eq_none_iff.1 hwritten.symm
      omega
    · obtain rfl : o₁ = o' := Option.some.inj (ho₁.symm.trans hoffset)
      exact ((hwritten.trans (getElem?_chunk hox hx)).symm).trans (hagrees.getElem?_eq x hxo)

/-- **A run without harm** leaves the text of the last opener. -/
theorem file_eq_of_harmless {file : List α} {moves : List (Move ι)}
    (h : Machine.Along (step fill text) (Harmless text) (untouched file) moves) (i : ι)
    (hfin : Finished text (moves.foldl (step fill text) (untouched file))) :
    ∃ j, (moves.foldl (step fill text) (untouched file)).opener = some j ∧
      (moves.foldl (step fill text) (untouched file)).file = text j := by
  have hheld := h.invariant (I := Held text) (fun s m hs hm ↦ hs.step m hm)
    (held_untouched text file)
  rcases hopener : (moves.foldl (step fill text) (untouched file)).opener with - | j
  · exact absurd ((hheld.offset_eq_none hopener i).symm.trans (hfin i)) (by simp)
  · obtain ⟨o, ho, hagrees⟩ := hheld.agrees j hopener
    obtain rfl : o = (text j).length := Option.some.inj (ho.symm.trans (hfin j))
    exact ⟨j, rfl, hagrees.eq_text⟩

/-! ### Writers that wait for each other -/

/-- Whoever was overtaken is done. -/
def Settled (text : ι → List α) (s : SharedFile ι α) : Prop :=
  ∀ i, s.opener ≠ some i → s.offset i = none ∨ s.offset i = some (text i).length

theorem Settled.step (h : Settled text s) (m : Move ι) (hm : Exclusive text s m) :
    Settled text (s.step fill text m) := by
  obtain heq | ⟨i, rfl, hi, heq⟩ | ⟨i, n, o, rfl, hi, heq⟩ := step_cases fill text s m
  · rw [heq]
    exact h
  · rw [heq]
    intro k hk
    have hki : k ≠ i := fun heq ↦ hk (heq ▸ rfl)
    have hoffset := Function.update_of_ne hki (some 0) s.offset
    exact (hm k).imp hoffset.trans hoffset.trans
  · rw [heq]
    intro k hk
    rcases eq_or_ne k i with rfl | hki
    · obtain rfl : o = (text k).length := by
        have hdone := (h k hk).resolve_left (by simp [hi])
        exact Option.some.inj (hi.symm.trans hdone)
      exact Or.inr (by simp [chunk_length_self])
    · have hoffset := Function.update_of_ne hki (some (o + (chunk (text i) o n).length)) s.offset
      exact (h k hk).imp hoffset.trans hoffset.trans

omit [DecidableEq ι] in
theorem Settled.harmless (h : Settled text s) (m : Move ι) : Harmless text s m := by
  cases m with
  | openTruncate i => trivial
  | write i n =>
    intro j hj hij o ho x hx hox
    -- the writer was overtaken by `j`, so it is done and has nothing left to write
    have hopener : s.opener ≠ some i := fun heq ↦ hij (Option.some.inj (heq.symm.trans hj))
    rcases h i hopener with hnone | hdone
    · exact absurd (hnone.symm.trans ho) (by simp)
    · obtain rfl : o = (text i).length := Option.some.inj (Eq.symm (hdone.symm.trans ho))
      rw [chunk_length_self] at hx
      exact absurd hox (Nat.not_le.2 hx)

/-- **Who waits does no harm.** -/
theorem harmless_of_exclusive {file : List α} {moves : List (Move ι)}
    (h : Machine.Along (step fill text) (Exclusive text) (untouched file) moves) :
    Machine.Along (step fill text) (Harmless text) (untouched file) moves :=
  h.of_invariant (I := Settled text) (fun _ m hs hm ↦ hs.step m hm) (fun _ m hs _ ↦ hs.harmless m)
    fun _ _ ↦ Or.inl rfl

/-- **A single writer** does no harm. -/
theorem harmless_of_subsingleton [Subsingleton ι] (s : SharedFile ι α) (moves : List (Move ι)) :
    Machine.Along (step fill text) (Harmless text) s moves :=
  Machine.along_of_forall (fun _ m ↦ match m with
    | .openTruncate _ => trivial
    | .write i _ => fun j _ hij ↦ absurd (Subsingleton.elim i j) hij) s moves

end SharedFile
