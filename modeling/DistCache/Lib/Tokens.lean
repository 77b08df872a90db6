import DistCache.Lib.CharStream
import Mathlib.Data.List.DropRight

/-!
# Tokens

Cutting a text at a delimiter, trimming the pieces and dropping those of which nothing is left. What
is trimmed may be more than the delimiter, so the tokens are not the words of a text: blanks of the
other kinds stay where they are inside a token and disappear at its ends.

What makes this manageable is that the text can be taken apart: at a delimiter the tokens of both
sides are put one behind the other (`tokens_append_cons`), and blanks of any kind at either end do
not count (`tokens_append_left`, `tokens_append_right`). `tokens_spread` is the result for tokens
that are written with any blanks around them.
-/

namespace CharStream

variable {α : Type*} {p : α → Bool}

/-- Without the blanks at both ends. -/
def trim (p : α → Bool) (l : List α) : List α := (l.dropWhile p).rdropWhile p

/-! ### Trimming -/

@[simp] theorem trim_nil : trim p [] = [] := rfl

theorem trim_cons_of_pos {c : α} (hc : p c = true) (l : List α) : trim p (c :: l) = trim p l := by
  rw [trim, List.dropWhile_cons_of_pos hc, trim]

theorem trim_concat_of_pos {c : α} (hc : p c = true) (l : List α) :
    trim p (l ++ [c]) = trim p l := by
  rw [trim, trim, List.dropWhile_append]
  rcases hl : l.dropWhile p with - | ⟨c', l'⟩
  · simp [hc]
  · exact List.rdropWhile_concat_pos _ _ _ hc

theorem rdropWhile_eq_self {l : List α} (hl : ∀ c ∈ l.getLast?, p c = false) :
    l.rdropWhile p = l := by
  refine List.rdropWhile_eq_self_iff.2 fun hne ↦ ?_
  have hlast := hl (l.getLast hne) (List.getLast?_eq_some_getLast hne)
  simp [hlast]

/-- What is left does not end in a blank. -/
theorem not_of_mem_getLast?_rdropWhile {l : List α} {c : α}
    (hc : c ∈ (l.rdropWhile p).getLast?) : p c = false := by
  have hne : l.rdropWhile p ≠ [] := fun hnil ↦ by simp [hnil] at hc
  have hlast := List.rdropWhile_last_not p l hne
  rw [List.getLast?_eq_some_getLast hne, Option.mem_def, Option.some.injEq] at hc
  rw [hc] at hlast
  simpa using hlast

/-- Whatever stands behind a list that does not end in a blank, that list is kept. -/
theorem prefix_rdropWhile_append {l : List α} (hl : ∀ c ∈ l.getLast?, p c = false) (l' : List α) :
    l <+: (l ++ l').rdropWhile p := by
  induction l' using List.reverseRecOn with
  | nil => simp [rdropWhile_eq_self hl]
  | append_singleton l' c ih =>
    rw [← List.append_assoc, List.rdropWhile_concat]
    split_ifs
    · exact ih
    · exact ⟨l' ++ [c], by rw [List.append_assoc]⟩

/-- Trimming does not reach into a list that neither starts nor ends with a blank. -/
theorem trim_eq_self {l : List α} (hhead : ∀ c ∈ l.head?, p c = false)
    (hlast : ∀ c ∈ l.getLast?, p c = false) : trim p l = l := by
  have hdrop : l.dropWhile p = l := by
    rcases l with - | ⟨c, l⟩
    · rfl
    · exact List.dropWhile_cons_of_neg (by simp [hhead c rfl])
  rw [trim, hdrop, rdropWhile_eq_self hlast]

/-! ### Tokens -/

variable [DecidableEq α] {d : α}

/-- The non-empty ones among the trimmed pieces. -/
def tokens (p : α → Bool) (d : α) (l : List α) : List (List α) :=
  ((getlines d l).map (trim p)).filter fun token ↦ !token.isEmpty

@[simp] theorem tokens_nil : tokens p d [] = [] := rfl

/-- **At a delimiter** the text can be cut. -/
theorem tokens_append_cons (a b : List α) :
    tokens p d (a ++ d :: b) = tokens p d a ++ tokens p d b := by
  have hcut : getlines d (a ++ d :: b) = getlines d (a ++ [d]) ++ getlines d b := by
    rw [← getlines_append_terminated, List.append_assoc, List.singleton_append]
  rw [tokens, hcut, List.map_append, List.filter_append, tokens, tokens]
  rcases getlines_concat d a with h | h <;> simp [h]

theorem tokens_of_notMem {l : List α} (h : d ∉ l) :
    tokens p d l = if trim p l = [] then [] else [trim p l] := by
  rcases eq_or_ne l [] with rfl | hne
  · simp
  · rw [tokens, getlines_of_notMem h hne]
    split_ifs with htrim <;> simp [htrim]

/-- A blank in front does not count. -/
theorem tokens_cons_of_pos {c : α} (hc : p c = true) (l : List α) :
    tokens p d (c :: l) = tokens p d l := by
  rcases eq_or_ne c d with rfl | hne
  · exact tokens_append_cons [] l
  · rw [tokens, tokens, getlines_cons_of_ne hne]
    rcases getlines d l with - | ⟨l', ls⟩
    · simp [trim_cons_of_pos hc]
    · simp [trim_cons_of_pos hc]

/-- A blank behind does not count. -/
theorem tokens_concat_of_pos {c : α} (hc : p c = true) (l : List α) :
    tokens p d (l ++ [c]) = tokens p d l := by
  by_cases hd : d ∈ l
  · obtain ⟨a, b, rfl⟩ := List.append_of_mem hd
    rw [List.append_assoc, List.cons_append, tokens_append_cons, tokens_append_cons,
      tokens_concat_of_pos hc b]
  · rcases eq_or_ne c d with rfl | hne
    · rw [tokens_append_cons, tokens_nil, List.append_nil]
    · have hd' : d ∉ l ++ [c] := by simp [hd, hne.symm]
      rw [tokens_of_notMem hd', tokens_of_notMem hd, trim_concat_of_pos hc]
termination_by l.length
decreasing_by
  rename_i heq
  subst heq
  simp
  omega

theorem tokens_append_left {w : List α} (hw : ∀ c ∈ w, p c = true) (l : List α) :
    tokens p d (w ++ l) = tokens p d l := by
  induction w with
  | nil => rfl
  | cons c w ih =>
    rw [List.forall_mem_cons] at hw
    rw [List.cons_append, tokens_cons_of_pos hw.1, ih hw.2]

theorem tokens_append_right {w : List α} (hw : ∀ c ∈ w, p c = true) (l : List α) :
    tokens p d (l ++ w) = tokens p d l := by
  induction w using List.reverseRecOn with
  | nil => rw [List.append_nil]
  | append_singleton w c ih =>
    rw [← List.append_assoc, tokens_concat_of_pos (hw c (by simp)),
      ih fun c' hc' ↦ hw c' (List.mem_append_left _ hc')]

/-- Trimming the whole text first makes no difference. -/
theorem tokens_trim (l : List α) : tokens p d (trim p l) = tokens p d l := by
  have hright : ∀ l : List α, tokens p d (l.rdropWhile p) = tokens p d l := fun l ↦ by
    have hl : l.rdropWhile p ++ l.rtakeWhile p = l := List.rdropWhile_append_rtakeWhile
    conv_rhs => rw [← hl]
    exact (tokens_append_right (fun c hc ↦ List.mem_rtakeWhile_imp hc) _).symm
  have hleft : tokens p d (l.dropWhile p) = tokens p d l := by
    conv_rhs => rw [← List.takeWhile_append_dropWhile (p := p) (l := l)]
    exact (tokens_append_left (fun c hc ↦ List.mem_takeWhile_imp hc) _).symm
  rw [trim, hright, hleft]

/-- **The first token** of a text that does not start with a blank ends at the first delimiter. -/
theorem tokens_eq_cons {c : α} (hc : p c = false) (hd : p d = true) (l : List α) :
    tokens p d (c :: l) = trim p ((c :: l).takeWhile (· != d)) ::
      tokens p d ((c :: l).dropWhile (· != d)).tail := by
  have hne : c ≠ d := fun heq ↦ by simp [heq, hd] at hc
  have htake : (c :: l).takeWhile (· != d) = c :: l.takeWhile (· != d) :=
    List.takeWhile_cons_of_pos (by simpa using hne)
  have htrim : trim p ((c :: l).takeWhile (· != d)) ≠ [] := by
    have hpre : [c] <+: (c :: l.takeWhile (· != d)).rdropWhile p :=
      prefix_rdropWhile_append (l := [c]) (by simpa using hc) _
    rw [htake, trim, List.dropWhile_cons_of_neg (by simp [hc])]
    exact fun heq ↦ by simp [heq] at hpre
  rcases hrest : (c :: l).dropWhile (· != d) with - | ⟨d', rest⟩
  · have hnot : d ∉ c :: l := dropWhile_ne_eq_nil_iff.1 hrest
    rw [takeWhile_ne_eq_self hnot] at htrim ⊢
    rw [tokens_of_notMem hnot, if_neg htrim]
    rfl
  · have hsplit := eq_append_cons_of_dropWhile_ne hrest
    have hnot := notMem_takeWhile_ne d (c :: l)
    calc tokens p d (c :: l)
        = tokens p d ((c :: l).takeWhile (· != d) ++ d :: rest) := by rw [← hsplit]
      _ = trim p ((c :: l).takeWhile (· != d)) :: tokens p d rest := by
        rw [tokens_append_cons, tokens_of_notMem hnot, if_neg htrim, List.singleton_append]

/-! ### Spread tokens -/

/-- What can be a token: it is not empty, the delimiter is not in it, and it neither starts nor ends
with a blank. -/
structure IsToken (p : α → Bool) (d : α) (l : List α) : Prop where
  ne_nil : l ≠ []
  notMem : d ∉ l
  head : ∀ c ∈ l.head?, p c = false
  last : ∀ c ∈ l.getLast?, p c = false

/-- **What is cut out** of a text are tokens. -/
theorem isToken_of_mem_tokens {l token : List α} (h : token ∈ tokens p d l) :
    IsToken p d token := by
  obtain ⟨hmem, hne⟩ := List.mem_filter.1 h
  obtain ⟨piece, hpiece, rfl⟩ := List.mem_map.1 hmem
  have hne' : trim p piece ≠ [] := by simpa using hne
  have hsub : trim p piece ⊆ piece := List.Subset.trans (List.rdropWhile_prefix p _).subset
    (List.dropWhile_sublist p).subset
  refine ⟨hne', fun hd ↦ notMem_of_mem_getlines hpiece (hsub hd), fun c hc ↦ ?_,
    fun c hc ↦ not_of_mem_getLast?_rdropWhile hc⟩
  -- the trimmed piece begins as the piece does behind its first blanks
  obtain ⟨tail, htail⟩ := List.rdropWhile_prefix p (piece.dropWhile p)
  have hhead : (piece.dropWhile p).head? = some c := by
    rw [← htail]
    exact (List.head?_append_of_ne_nil _ hne').trans hc
  have hnot := List.head?_dropWhile_not p piece
  rw [hhead] at hnot
  simpa using hnot

/-- What can separate tokens: blanks, and a delimiter among them. -/
structure IsSeparator (p : α → Bool) (d : α) (l : List α) : Prop where
  blank : ∀ c ∈ l, p c = true
  mem : d ∈ l

theorem IsToken.tokens_eq {l : List α} (h : IsToken p d l) : tokens p d l = [l] := by
  rw [tokens_of_notMem h.notMem, trim_eq_self h.head h.last, if_neg h.ne_nil]

/-- **A separator** ends a token. -/
theorem IsToken.tokens_append {l sep : List α} (h : IsToken p d l) (hsep : IsSeparator p d sep)
    (b : List α) : tokens p d (l ++ (sep ++ b)) = l :: tokens p d b := by
  obtain ⟨u, v, rfl⟩ := List.append_of_mem hsep.mem
  have hu : ∀ c ∈ u, p c = true := fun c hc ↦ hsep.blank c (by simp [hc])
  have hv : ∀ c ∈ v, p c = true := fun c hc ↦ hsep.blank c (by simp [hc])
  calc tokens p d (l ++ (u ++ d :: v ++ b))
      = tokens p d ((l ++ u) ++ d :: (v ++ b)) := by simp
    _ = l :: tokens p d b := by
      rw [tokens_append_cons, tokens_append_right hu, tokens_append_left hv, h.tokens_eq,
        List.singleton_append]

/-- **Tokens written with any blanks around them** are the tokens of the text. -/
theorem tokens_spread {lead trail token : List α} {rest : List (List α × List α)}
    (hlead : ∀ c ∈ lead, p c = true) (htrail : ∀ c ∈ trail, p c = true) (h : IsToken p d token)
    (hrest : ∀ e ∈ rest, IsSeparator p d e.1 ∧ IsToken p d e.2) :
    tokens p d (lead ++ (token ++ (rest.flatMap fun e ↦ e.1 ++ e.2) ++ trail)) =
      token :: rest.map Prod.snd := by
  rw [tokens_append_left hlead, tokens_append_right htrail]
  induction rest generalizing token with
  | nil => rw [List.flatMap_nil, List.append_nil, h.tokens_eq, List.map_nil]
  | cons e rest ih =>
    rw [List.forall_mem_cons] at hrest
    rw [List.flatMap_cons, List.append_assoc, h.tokens_append hrest.1.1, ih hrest.1.2 hrest.2,
      List.map_cons]

end CharStream
