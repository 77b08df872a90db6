import DistCache.Lib.Tokens
import DistCache.Network.RESPParser

/-!
# Which commands `parse` understands

A command is cut at spaces and its pieces are trimmed of four characters, so the parser is generous
with blanks: tokens may be written with any blanks around them, as long as there is a space between
two of them (`parse_spread`).

What it returns is well formed whatever the input is: the command word and the arguments are tokens,
and the word is in upper case. Nothing else can be said of it in general, since every such command
is returned for some input (`parse_range`).

It is the same for every first byte. `parse_array` skips the `*` and reads the rest as if it had
been typed in, counts and lengths included, as its comment says it does. What `serialize_array`
writes is therefore not undone by it, for no list of items (`parse_serializeArray`).
-/

namespace DistCache

open CharStream

namespace RESPParser

theorem split_eq (str : Bytes) (delimiter : UInt8) :
    split str delimiter = tokens isTrimmed delimiter str := rfl

/-- **A command is its tokens.** Trimming the line first makes no difference. -/
theorem parseSimpleString_of_tokens {raw token : Bytes} {args : List Bytes}
    (h : tokens isTrimmed space raw = token :: args) :
    parseSimpleString raw = (toUpper token, args) := by
  have hsplit : split (trim raw) space = token :: args := by
    rw [split_eq, ← h]
    exact tokens_trim raw
  rw [parseSimpleString, hsplit]

/-- What comes first in a line that does not start with a blank is the command. -/
theorem parseSimpleString_cons {c : UInt8} (hc : isTrimmed c = false) (l : Bytes) :
    ∃ args, split (c :: l) space = trim ((c :: l).takeWhile (· != space)) :: args ∧
      parseSimpleString (c :: l) = (toUpper (trim ((c :: l).takeWhile (· != space))), args) ∧
      args = split ((c :: l).dropWhile (· != space)).tail space := by
  have htokens := tokens_eq_cons (d := space) hc (by decide) l
  exact ⟨_, htokens, parseSimpleString_of_tokens htokens, rfl⟩

/-- The `*` is skipped. -/
theorem parse_star (l : Bytes) : parse (42 :: l) = parseSimpleString l := rfl

/-- **Any spacing is accepted.** Tokens written with blanks in front and behind, and with blanks
between them of which at least one is a space, are parsed as these tokens, unless the first byte is
`*` or `$`. -/
theorem parse_spread {lead trail token : Bytes} {rest : List (Bytes × Bytes)}
    (hlead : ∀ c ∈ lead, isTrimmed c = true) (htrail : ∀ c ∈ trail, isTrimmed c = true)
    (htoken : IsToken isTrimmed space token)
    (hrest : ∀ e ∈ rest, IsSeparator isTrimmed space e.1 ∧ IsToken isTrimmed space e.2)
    (hfirst : ∀ c ∈ (lead ++ (token ++ (rest.flatMap fun e ↦ e.1 ++ e.2) ++ trail)).head?,
      c ≠ 42 ∧ c ≠ 36) :
    parse (lead ++ (token ++ (rest.flatMap fun e ↦ e.1 ++ e.2) ++ trail)) =
      (toUpper token, rest.map Prod.snd) := by
  have htokens := tokens_spread hlead htrail htoken hrest
  rw [parse]
  rcases hhead : (lead ++ (token ++ (rest.flatMap fun e ↦ e.1 ++ e.2) ++ trail)).head? with - | c
  · rw [List.head?_eq_none_iff] at hhead
    rw [hhead, tokens_nil] at htokens
    exact absurd htokens (List.cons_ne_nil _ _).symm
  · obtain ⟨hstar, hdollar⟩ := hfirst c hhead
    show (if c = 42 then _ else if c = 36 then _ else _) = _
    rw [if_neg hstar, if_neg hdollar]
    exact parseSimpleString_of_tokens htokens

/-- Tabs around and inside tokens, and a separator of three kinds. -/
theorem parse_spread_two :
    parse (bytes "\t ".toList ++ (bytes "set".toList ++
        ([(bytes "\t \r ".toList, bytes "a\tb".toList)].flatMap fun e ↦ e.1 ++ e.2) ++
          bytes "\r\n".toList)) =
      (bytes "SET".toList, [bytes "a\tb".toList]) :=
  parse_spread (List.all_eq_true.1 (by decide)) (List.all_eq_true.1 (by decide))
    ⟨by decide, by decide, by rintro c ⟨⟩; rfl, by rintro c ⟨⟩; rfl⟩
    (by
      rw [List.forall_mem_singleton]
      exact ⟨⟨List.all_eq_true.1 (by decide), by decide⟩,
        ⟨by decide, by decide, by rintro c ⟨⟩; rfl, by rintro c ⟨⟩; rfl⟩⟩)
    (by rintro c ⟨⟩; decide)

/-! ### Upper case -/

theorem isTrimmed_eq_false_of_lt {c : UInt8} (h : 32 < c) : isTrimmed c = false := by
  have hne : ∀ b : UInt8, b ≤ 32 → c ≠ b := fun b hb heq ↦
    absurd (heq ▸ h) (UInt8.not_lt.2 hb)
  simp [isTrimmed, hne 32 (by decide), hne 9 (by decide), hne 13 (by decide), hne 10 (by decide)]

/-- A letter is a letter in upper case too. -/
theorem toupper_eq_or (c : UInt8) : toupper c = c ∨ 32 < c ∧ 32 < toupper c := by
  rw [toupper]
  split_ifs with hletter
  · right
    have hlow : 97 ≤ c.toNat := UInt8.le_iff_toNat_le.1 hletter.1
    have hsub : (c - 32).toNat = c.toNat - 32 :=
      UInt8.toNat_sub_of_le c 32 (UInt8.le_iff_toNat_le.2 (by simp; omega))
    rw [UInt8.lt_iff_toNat_lt, UInt8.lt_iff_toNat_lt, hsub]
    simp
    omega
  · exact Or.inl rfl

@[simp] theorem isTrimmed_toupper (c : UInt8) : isTrimmed (toupper c) = isTrimmed c := by
  rcases toupper_eq_or c with h | ⟨hc, hupper⟩
  · rw [h]
  · rw [isTrimmed_eq_false_of_lt hc, isTrimmed_eq_false_of_lt hupper]

theorem toupper_eq_space_iff (c : UInt8) : toupper c = space ↔ c = space := by
  rcases toupper_eq_or c with h | ⟨hc, hupper⟩
  · rw [h]
  · exact iff_of_false (UInt8.ne_of_lt hupper).symm (UInt8.ne_of_lt hc).symm

theorem space_mem_toUpper_iff (str : Bytes) : space ∈ toUpper str ↔ space ∈ str := by
  rw [toUpper, List.mem_map]
  constructor
  · rintro ⟨c, hc, heq⟩
    rwa [(toupper_eq_space_iff c).1 heq] at hc
  · exact fun h ↦ ⟨space, h, by decide⟩

/-- Strings that differ in case only end alike. -/
theorem isTrimmed_getLast_of_toUpper_eq {l l' : Bytes} (h : toUpper l = toUpper l')
    (hl : ∀ b ∈ l.getLast?, isTrimmed b = false) : ∀ b ∈ l'.getLast?, isTrimmed b = false := by
  intro b hb
  have hlast : (toUpper l).getLast? = some (toupper b) := by
    rw [h, toUpper, List.getLast?_map, Option.mem_def.1 hb, Option.map_some]
  rw [toUpper, List.getLast?_map, Option.map_eq_some_iff] at hlast
  obtain ⟨b', hb', heq⟩ := hlast
  rw [← isTrimmed_toupper, ← heq, isTrimmed_toupper]
  exact hl b' hb'

theorem toUpper_toUpper (str : Bytes) : toUpper (toUpper str) = toUpper str := by
  have hidem : ∀ c, toupper (toupper c) = toupper c := fun c ↦ by
    rw [toupper, if_neg]
    rw [toupper]
    split_ifs with hletter
    · have hlow : 97 ≤ c.toNat := UInt8.le_iff_toNat_le.1 hletter.1
      have hhigh : c.toNat ≤ 122 := UInt8.le_iff_toNat_le.1 hletter.2
      have hsub : (c - 32).toNat = c.toNat - 32 :=
        UInt8.toNat_sub_of_le c 32 (UInt8.le_iff_toNat_le.2 (by simp; omega))
      rw [UInt8.le_iff_toNat_le, hsub]
      simp
      omega
    · exact hletter
  rw [toUpper, toUpper, List.map_map]
  exact List.map_congr_left fun c _ ↦ hidem c

/-- A token in upper case is a token. -/
theorem isToken_toUpper {token : Bytes} (h : IsToken isTrimmed space token) :
    IsToken isTrimmed space (toUpper token) where
  ne_nil := fun hnil ↦ h.ne_nil (List.map_eq_nil_iff.1 hnil)
  notMem := fun hmem ↦ h.notMem ((space_mem_toUpper_iff token).1 hmem)
  head := fun c hc ↦ by
    rw [toUpper, List.head?_map, Option.mem_def, Option.map_eq_some_iff] at hc
    obtain ⟨c', hc', rfl⟩ := hc
    rw [isTrimmed_toupper]
    exact h.head c' hc'
  last := isTrimmed_getLast_of_toUpper_eq (toUpper_toUpper token).symm h.last

/-! ### What `parse` returns -/

/-- A command word in upper case and its arguments, all of which are tokens; or nothing. -/
def IsCommand (cmd : Bytes) (args : List Bytes) : Prop :=
  cmd = [] ∧ args = [] ∨
    IsToken isTrimmed space cmd ∧ toUpper cmd = cmd ∧ ∀ arg ∈ args, IsToken isTrimmed space arg

theorem isCommand_parseSimpleString (raw : Bytes) :
    IsCommand (parseSimpleString raw).1 (parseSimpleString raw).2 := by
  rw [parseSimpleString]
  rcases hsplit : split (trim raw) space with - | ⟨token, args⟩
  · exact Or.inl ⟨rfl, rfl⟩
  · have htokens : ∀ t ∈ token :: args, IsToken isTrimmed space t := fun t ht ↦ by
      rw [← hsplit, split_eq] at ht
      exact isToken_of_mem_tokens ht
    rw [List.forall_mem_cons] at htokens
    exact Or.inr ⟨isToken_toUpper htokens.1, toUpper_toUpper token, htokens.2⟩

theorem isCommand_parse (raw : Bytes) : IsCommand (parse raw).1 (parse raw).2 := by
  rw [parse]
  split
  · exact Or.inl ⟨rfl, rfl⟩
  · split_ifs
    · exact isCommand_parseSimpleString _
    · exact isCommand_parseSimpleString _
    · exact isCommand_parseSimpleString _

/-- A command written with single spaces, behind a `*` so that it may start with any character. -/
def render (cmd : Bytes) (args : List Bytes) : Bytes :=
  42 :: (cmd ++ args.flatMap fun arg ↦ space :: arg)

theorem parse_render {cmd : Bytes} {args : List Bytes} (h : IsCommand cmd args) :
    parse (render cmd args) = (cmd, args) := by
  rw [render, parse_star]
  rcases h with ⟨rfl, rfl⟩ | ⟨hcmd, hupper, hargs⟩
  · rfl
  · have hblank : ∀ c ∈ ([] : Bytes), isTrimmed c = true := fun _ hc ↦ absurd hc List.not_mem_nil
    -- a single space is a separator
    have hspace : ∀ c ∈ [space], isTrimmed c = true := fun c hc ↦ by
      rw [List.mem_singleton.1 hc]
      rfl
    have hrest : ∀ e ∈ args.map fun arg ↦ ([space], arg),
        IsSeparator isTrimmed space e.1 ∧ IsToken isTrimmed space e.2 := fun e he ↦ by
      obtain ⟨arg, harg, rfl⟩ := List.mem_map.1 he
      exact ⟨⟨hspace, List.mem_singleton_self _⟩, hargs arg harg⟩
    have htokens := tokens_spread hblank hblank hcmd hrest
    rw [List.flatMap_map, List.map_map, List.nil_append, List.append_nil] at htokens
    have hparse := parseSimpleString_of_tokens htokens
    rw [hupper] at hparse
    refine hparse.trans ?_
    rw [Prod.mk.injEq]
    exact ⟨rfl, args.map_id⟩

/-- **The commands that `parse` returns**, over all inputs, are exactly the well-formed ones, and
each of them is what it returns for the command written out with single spaces behind a `*`. -/
theorem parse_range (cmd : Bytes) (args : List Bytes) :
    ((∃ raw, parse raw = (cmd, args)) ↔ IsCommand cmd args) ∧
      (parse (render cmd args) = (cmd, args) ↔ IsCommand cmd args) := by
  have hto {raw : Bytes} (h : parse raw = (cmd, args)) : IsCommand cmd args := by
    have hcommand := isCommand_parse raw
    rwa [h] at hcommand
  exact ⟨⟨fun ⟨_, h⟩ ↦ hto h, fun h ↦ ⟨_, parse_render h⟩⟩, ⟨hto, parse_render⟩⟩

/-! ### Arrays -/

/-- What `serialize_array` writes in front of the first item, without the `*`. -/
def arrayHeader (item : Bytes) (n : ℕ) : Bytes :=
  stdToString n ++ crlf ++ bytes ['$'] ++ stdToString item.length ++ crlf

theorem serializeArray_cons (item : Bytes) (items : List Bytes) :
    serializeArray (item :: items) = 42 :: (arrayHeader item (items.length + 1) ++ item ++
      (crlf ++ items.flatMap serializeBulk)) := by
  simp [serializeArray, serializeBulk, arrayHeader, bytes]

/-- The count starts with a digit. -/
theorem stdToString_natCast_eq_cons (n : ℕ) :
    ∃ c cs, stdToString n = c :: cs ∧ isTrimmed c = false := by
  rcases hdigits : Nat.toDigits 10 n with - | ⟨c, cs⟩
  · exact absurd hdigits Nat.toDigits_ne_nil
  · refine ⟨UInt8.ofNat c.toNat, bytes cs, ?_, ?_⟩
    · show bytes (Nat.toDigits 10 n) = _
      rw [hdigits]
      rfl
    · have hmem : UInt8.ofNat c.toNat ∈ bytes (Nat.toDigits 10 n) := by
        rw [hdigits]
        exact List.mem_cons_self
      exact isTrimmed_eq_false_of_lt
        (UInt8.lt_of_lt_of_le (by decide) (digit_of_mem_bytes_toDigits hmem).1)

/-- Numerals are in one piece. -/
theorem space_notMem_stdToString_natCast (n : ℕ) : space ∉ stdToString n := fun hmem ↦
  absurd (digit_of_mem_bytes_toDigits (n := n) hmem).1 (by decide)

theorem space_notMem_arrayHeader (item : Bytes) (n : ℕ) : space ∉ arrayHeader item n := by
  have h₁ := space_notMem_stdToString_natCast n
  have h₂ := space_notMem_stdToString_natCast item.length
  have h₃ : space ∉ crlf := by decide
  have h₄ : space ∉ bytes ['$'] := by decide
  simp [arrayHeader, h₁, h₂, h₃, h₄]

/-- **The first piece is no item.** It begins with the header, so it is longer than an item that
shares its last character. -/
theorem toUpper_trim_ne {header item after : Bytes} {c : UInt8} {cs : Bytes}
    (hheader : header = c :: cs) (hc : isTrimmed c = false) (hspace : space ∉ header) :
    toUpper (trim ((header ++ item ++ after).takeWhile (· != space))) ≠ toUpper item := by
  intro heq
  have hpiece : ∀ l : Bytes, trim (header ++ l) = (header ++ l).rdropWhile isTrimmed := fun l ↦ by
    rw [trim, hheader, List.cons_append, List.dropWhile_cons_of_neg (by simp [hc])]
  -- a piece has no spaces, so neither has the item, and the piece is at least header and item
  have hitem : space ∉ item := by
    rw [← space_mem_toUpper_iff, ← heq, space_mem_toUpper_iff]
    intro hmem
    have hsub : trim ((header ++ item ++ after).takeWhile (· != space)) ⊆ _ :=
      List.Subset.trans (List.rdropWhile_prefix isTrimmed _).subset
        (List.dropWhile_sublist isTrimmed).subset
    exact notMem_takeWhile_ne space _ (hsub hmem)
  have hwhole : trim ((header ++ item ++ after).takeWhile (· != space)) =
      (header ++ item ++ after.takeWhile (· != space)).rdropWhile isTrimmed := by
    have hnot : space ∉ header ++ item := List.not_mem_append hspace hitem
    rw [takeWhile_ne_append hnot, List.append_assoc, hpiece]
  rw [hwhole] at heq
  have hne : (header ++ item ++ after.takeWhile (· != space)).rdropWhile isTrimmed ≠ [] := by
    intro hnil
    have hall := List.rdropWhile_eq_nil_iff.1 hnil c (by simp [hheader])
    exact absurd (hc.symm.trans hall) Bool.false_ne_true
  -- the last characters agree up to case, so the item does not end in a blank
  have hlast : ∀ b ∈ item.getLast?, isTrimmed b = false :=
    isTrimmed_getLast_of_toUpper_eq heq fun b hb ↦ not_of_mem_getLast?_rdropWhile hb
  have hitem' : item ≠ [] := fun h ↦ by
    rw [h, toUpper, toUpper, List.map_nil, List.map_eq_nil_iff] at heq
    exact hne (h ▸ heq)
  have hlast' : ∀ b ∈ (header ++ item).getLast?, isTrimmed b = false := by
    rw [List.getLast?_append_of_ne_nil _ hitem']
    exact hlast
  have hlength := (prefix_rdropWhile_append hlast' (after.takeWhile (· != space))).length_le
  have hsame := congrArg List.length heq
  simp only [toUpper, List.length_map, List.length_append, hheader,
    List.length_cons] at hlength hsame
  omega

theorem arrayHeader_eq_cons (item : Bytes) (n : ℕ) :
    ∃ c cs, arrayHeader item n = c :: cs ∧ isTrimmed c = false := by
  obtain ⟨c, cs, hcs, hc⟩ := stdToString_natCast_eq_cons n
  exact ⟨c, _, by rw [arrayHeader, hcs, List.cons_append, List.cons_append, List.cons_append,
    List.cons_append], hc⟩

theorem space_notMem_serializeBulk {data : Bytes} (h : space ∉ data) :
    space ∉ serializeBulk data := by
  have h₁ := space_notMem_stdToString_natCast data.length
  have h₂ : space ∉ crlf := by decide
  have h₃ : space ∉ bytes ['$'] := by decide
  simp [serializeBulk, h, h₁, h₂, h₃]

/-- **An array is read like an inline command** behind its `*`: what is parsed are the pieces
between the spaces of the whole encoding, counts and lengths included. So the command is not the
first item, whatever the items are, and if there is no space in them there is nothing but a
command. -/
theorem parse_serializeArray (item : Bytes) (items : List Bytes) :
    let encoded := serializeArray (item :: items)
    (∃ token args, split encoded.tail space = token :: args ∧
        parse encoded = (toUpper token, args)) ∧
      (parse encoded).1 ≠ toUpper item ∧
      ((∀ x ∈ item :: items, space ∉ x) → parse encoded = (toUpper (trim encoded.tail), [])) := by
  intro encoded
  obtain ⟨c, cs, hheader, hc⟩ := arrayHeader_eq_cons item (items.length + 1)
  have hencoded : encoded = 42 :: (arrayHeader item (items.length + 1) ++ item ++
      (crlf ++ items.flatMap serializeBulk)) := serializeArray_cons item items
  clear_value encoded
  subst hencoded
  obtain ⟨args, hsplit, hcommand, hargs⟩ := parseSimpleString_cons hc
    (cs ++ item ++ (crlf ++ items.flatMap serializeBulk))
  have htail : c :: (cs ++ item ++ (crlf ++ items.flatMap serializeBulk)) =
      arrayHeader item (items.length + 1) ++ item ++ (crlf ++ items.flatMap serializeBulk) := by
    rw [hheader, List.cons_append, List.cons_append]
  rw [htail] at hsplit hcommand hargs
  rw [parse_star, List.tail_cons]
  refine ⟨⟨_, _, hsplit, hcommand⟩, ?_, fun hspaces ↦ ?_⟩
  · rw [hcommand]
    dsimp only
    exact toUpper_trim_ne hheader hc (space_notMem_arrayHeader item _)
  · rw [List.forall_mem_cons] at hspaces
    have hcrlf : space ∉ crlf := by decide
    have hitems : space ∉ items.flatMap serializeBulk := fun hmem ↦ by
      obtain ⟨x, hx, hmem⟩ := List.mem_flatMap.1 hmem
      exact space_notMem_serializeBulk (hspaces.2 x hx) hmem
    have hnot : space ∉ arrayHeader item (items.length + 1) ++ item ++
        (crlf ++ items.flatMap serializeBulk) :=
      List.not_mem_append
        (List.not_mem_append (space_notMem_arrayHeader item _) hspaces.1)
        (List.not_mem_append hcrlf hitems)
    rw [takeWhile_ne_eq_self hnot] at hcommand
    rw [dropWhile_ne_eq_nil_iff.2 hnot] at hargs
    obtain rfl : args = [] := hargs
    exact hcommand

/-- **An array is not decoded.** -/
theorem parse_serializeArray_ne :
    parse (serializeArray [bytes "GET".toList, bytes "k".toList]) =
        (bytes "2\r\n$3\r\nGET\r\n$1\r\nK".toList, []) ∧
      parse (serializeArray [bytes "GET".toList, bytes "k".toList]) ≠
        (toUpper (bytes "GET".toList), [bytes "k".toList]) := by
  decide

end RESPParser

end DistCache
