import DistCache.Storage.WALRoundTrip
import Mathlib.Algebra.Group.Nat.Defs

/-!
# `append_binary`, and whether `replay` understands it

There are two builds. Without `HAVE_MSGPACK` `append_binary` is `append`. With it, the record goes
to the same file as a MessagePack array of three strings, with the lengths in front and no newline
behind, and `replay` is the reader of lines it always was.

What msgpack writes is a parameter, with what its format says about a tuple of strings as a
hypothesis (`PacksTuple`). No record survives that (`word_ne_operation`): either the length of the
operation has a blank in it, and the first word of the line is cut off before the operation, or it
has none, and the first word is longer than the operation.
-/

namespace DistCache

open CharStream

/-- The format of a tuple of three strings: the header of an array of three, and the strings one
behind the other, each with a header for its length. The header of a string of less than 32 bytes is
one byte, any other has at most five. -/
structure PacksTuple (pack : Record → Bytes) (strHeader : ℕ → Bytes) : Prop where
  pack_eq : ∀ r, pack r = 0x93 :: (strHeader r.operation.length ++ r.operation ++
    strHeader r.key.length ++ r.key ++ strHeader r.value.length ++ r.value)
  short : ∀ n < 32, strHeader n = [UInt8.ofNat (0xa0 + n)]
  long : ∀ n, 32 ≤ n → (strHeader n).length ≤ 5

namespace WAL

/-- `WAL::append_binary`. -/
def appendBinary (haveMsgpack : Bool) (pack : Record → Bytes) (w : WAL)
    (operation key value : Bytes) : Except Bytes WAL :=
  if haveMsgpack then do
    let w ← w.ensureFileOpen
    .ok { w with file := w.file ++ pack ⟨operation, key, value⟩ }
  else w.append operation key value

/-- A call that writes a record. -/
inductive Write where
  | append (r : Record)
  | appendBinary (r : Record)
  deriving DecidableEq, Repr

/-- The record that is written. -/
def Write.record : Write → Record
  | .append r => r
  | .appendBinary r => r

/-- Whether the call is `append_binary`. -/
def Write.isBinary : Write → Bool
  | .append _ => false
  | .appendBinary _ => true

section Builds

variable (haveMsgpack : Bool) (pack : Record → Bytes)

/-- The log after one call. -/
def write (w : WAL) : Write → Except Bytes WAL
  | .append r => w.append r.operation r.key r.value
  | .appendBinary r => w.appendBinary haveMsgpack pack r.operation r.key r.value

/-- The log after a sequence of calls; a throwing call ends it. -/
def runWrites (w : WAL) (writes : List Write) : Except Bytes WAL :=
  writes.foldlM (write haveMsgpack pack) w

/-- What a call adds to the file. -/
def written : Write → Bytes
  | .append r => r.text
  | .appendBinary r => if haveMsgpack then pack r else r.text

/-- One call, on an open log. -/
theorem write_of_isOpen {w : WAL} (h : w.isOpen = true) (c : Write) :
    w.write haveMsgpack pack c =
      .ok { w with file := w.file ++ written haveMsgpack pack c } := by
  cases c with
  | append r => exact append_of_isOpen h r
  | appendBinary r =>
    rw [write, appendBinary, written]
    split_ifs
    · rw [ensureFileOpen, if_pos h]
      rfl
    · exact append_of_isOpen h r

/-- A sequence of calls, on an open log. -/
theorem runWrites_of_isOpen {w : WAL} (h : w.isOpen = true) (writes : List Write) :
    w.runWrites haveMsgpack pack writes =
      .ok { w with file := w.file ++ writes.flatMap (written haveMsgpack pack) } := by
  induction writes generalizing w with
  | nil => simp [runWrites, pure, Except.pure]
  | cons c writes ih =>
    rw [runWrites, List.foldlM_cons, write_of_isOpen _ _ h]
    show runWrites haveMsgpack pack { w with file := w.file ++ written haveMsgpack pack c }
      writes = _
    rw [ih (w := { w with file := w.file ++ written haveMsgpack pack c }) h, List.flatMap_cons,
      List.append_assoc]

/-- Where no call is binary, or the build has no binary format, the file is a text log. -/
theorem flatMap_written_of_text {writes : List Write}
    (h : haveMsgpack = false ∨ ∀ c ∈ writes, c.isBinary = false) :
    writes.flatMap (written haveMsgpack pack) = textOf (writes.map Write.record) := by
  rw [textOf, List.flatMap_map]
  refine List.flatMap_congr fun c hc ↦ ?_
  cases c with
  | append r => rfl
  | appendBinary r =>
    rcases h with h | h
    · rw [written, h]
      rfl
    · exact absurd (h _ hc) (by simp [Write.isBinary])

end Builds

end WAL

/-! ### The reader, on a binary record -/

theorem isSpace_eq_false_of_lt {c : UInt8} (h : 32 < c) : isSpace c = false := by
  have hlt := UInt8.lt_iff_toNat_lt.1 h
  have hne : c ≠ 32 := fun heq ↦ absurd (heq ▸ h) (by decide)
  have hle : ¬ c ≤ 13 := fun hle ↦ by
    have := UInt8.le_iff_toNat_le.1 hle
    simp at hlt this
    omega
  simp [isSpace, hne, hle]

theorem word_cons_of_not_blank {c : UInt8} (hc : isSpace c = false) (l : Bytes) :
    word isSpace (c :: l) = (c :: l).takeWhile (!isSpace ·) := by
  rw [word, List.dropWhile_cons_of_neg (by simp [hc])]

/-- A word ends at a blank or earlier. -/
theorem takeWhile_append_blank {b : UInt8} (hb : isSpace b = true) (l rest : Bytes) :
    (l ++ b :: rest).takeWhile (!isSpace ·) = l.takeWhile (!isSpace ·) := by
  have hnil : (b :: rest).takeWhile (!isSpace ·) = [] :=
    List.takeWhile_cons_of_neg (by simp [hb])
  rw [List.takeWhile_append, hnil, List.append_nil]
  split_ifs with hlength
  · exact ((List.takeWhile_prefix _).eq_of_length hlength).symm
  · rfl

/-- **The first record** of a text that starts with a word has this word as its operation. -/
theorem replayText_cons_of_not_blank {c : UInt8} (hc : isSpace c = false) (l : Bytes) :
    ∃ r records, replayText (c :: l) = r :: records ∧
      r.operation = (c :: l).takeWhile (!isSpace ·) := by
  have hne : c ≠ newline := fun heq ↦ by simp [heq] at hc
  rcases hrest : (c :: l).dropWhile (· != newline) with - | ⟨d, rest⟩
  · -- the last line
    have hnot : newline ∉ c :: l := dropWhile_ne_eq_nil_iff.1 hrest
    refine ⟨_, _, replayText_of_notMem hnot (List.cons_ne_nil c l), ?_⟩
    rw [parseLine_eq hnot]
    exact word_cons_of_not_blank hc l
  · have hline : (c :: l).takeWhile (· != newline) = c :: l.takeWhile (· != newline) :=
      List.takeWhile_cons_of_pos (by simpa using hne)
    have hsplit := eq_append_cons_of_dropWhile_ne hrest
    have hnot := notMem_takeWhile_ne newline (c :: l)
    rw [hline] at hsplit hnot
    rw [hsplit, takeWhile_append_blank isSpace_newline]
    refine ⟨_, _, replayText_line hnot (List.cons_ne_nil _ _) rest, ?_⟩
    rw [parseLine_eq hnot]
    exact word_cons_of_not_blank hc _

namespace PacksTuple

variable {pack : Record → Bytes} {strHeader : ℕ → Bytes}

/-- **No word is the operation.** -/
theorem word_ne_operation (h : PacksTuple pack strHeader) {r : Record}
    (hop : Blankless r.operation) (rest : Bytes) :
    (pack r ++ rest).takeWhile (!isSpace ·) ≠ r.operation := by
  obtain ⟨after, hafter⟩ : ∃ after, pack r ++ rest =
      (0x93 :: strHeader r.operation.length) ++ (r.operation ++ after) :=
    ⟨strHeader r.key.length ++ r.key ++ strHeader r.value.length ++ r.value ++ rest, by
      simp only [h.pack_eq, List.cons_append, List.append_assoc]⟩
  rw [hafter, List.takeWhile_append]
  split_ifs with hall
  · -- the header is in one piece with the operation
    rw [List.takeWhile_append_of_pos fun c hc ↦ by simp [hop c hc]]
    intro heq
    have hlength := congrArg List.length heq
    simp only [List.length_append, List.length_cons] at hlength
    omega
  · -- the header is cut off, so it has a blank in it and announces a long string
    intro heq
    have hlength := congrArg List.length heq
    have hle := (List.takeWhile_prefix (!isSpace ·) (l := 0x93 :: strHeader
      r.operation.length)).length_le
    rcases Nat.lt_or_ge r.operation.length 32 with hshort | hlong
    · have hblankless : isSpace (UInt8.ofNat (0xa0 + r.operation.length)) = false := by
        refine isSpace_eq_false_of_lt (UInt8.lt_iff_toNat_lt.2 ?_)
        rw [UInt8.toNat_ofNat', Nat.mod_eq_of_lt (by omega)]
        simp
        omega
      refine hall ?_
      rw [h.short _ hshort, List.takeWhile_cons_of_pos (by decide),
        List.takeWhile_cons_of_pos (by rw [hblankless]; rfl), List.takeWhile_nil]
    · have hheader := h.long _ hlong
      simp only [List.length_cons] at hle
      omega

/-- **A binary record is not read back.** -/
theorem replayText_ne (h : PacksTuple pack strHeader) {r : Record} (hop : Blankless r.operation)
    (rest : Bytes) (records : List Record) : replayText (pack r ++ rest) ≠ r :: records := by
  intro heq
  have hne := h.word_ne_operation hop rest
  rw [h.pack_eq, List.cons_append] at heq hne
  obtain ⟨r', records', heq', hr'⟩ := replayText_cons_of_not_blank (c := 0x93) (by decide) _
  rw [heq'] at heq
  rw [← hr', (List.cons.inj heq).1] at hne
  exact hne rfl

end PacksTuple

/-- A text record is read back, whatever follows it. -/
theorem replayText_text_append {r : Record} (h : r.RoundTrips) (b : Bytes) :
    replayText (r.text ++ b) = r :: replayText b := by
  rw [Record.text, replayText_append_newline, ← Record.text, replayText_text h,
    List.singleton_append]

namespace WAL

/-- If everything is read back in the build with msgpack, nothing was binary. -/
theorem isBinary_eq_false_of_replayText_eq {pack : Record → Bytes} {strHeader : ℕ → Bytes}
    (h : PacksTuple pack strHeader) {writes : List Write}
    (hwrites : ∀ c ∈ writes, c.record.WellFormed)
    (heq : replayText (writes.flatMap (written true pack)) = writes.map Write.record) :
    ∀ c ∈ writes, c.isBinary = false := by
  induction writes with
  | nil => exact fun c hc ↦ absurd hc List.not_mem_nil
  | cons c writes ih =>
    rw [List.forall_mem_cons] at hwrites ⊢
    rw [List.flatMap_cons, List.map_cons] at heq
    cases c with
    | append r =>
      have hr : r.RoundTrips := hwrites.1.roundTrips
      have hread : replayText (r.text ++ writes.flatMap (written true pack)) =
          r :: writes.map Write.record := heq
      rw [replayText_text_append hr] at hread
      exact ⟨rfl, ih hwrites.2 (List.cons.inj hread).2⟩
    | appendBinary r => exact absurd heq (h.replayText_ne hwrites.1.operation _ _)

/-- **Which log writers `replay` understands.** After any sequence of the two calls, on a log that
starts empty, the records are read back in order exactly if the build has no binary format or no
call was `append_binary`. -/
theorem replay_runWrites_iff {pack : Record → Bytes} {strHeader : ℕ → Bytes}
    (h : PacksTuple pack strHeader) (haveMsgpack : Bool) (filename : Bytes) {writes : List Write}
    (hwrites : ∀ c ∈ writes, c.record.WellFormed) :
    ∃ w₀ w, new filename [] true = .ok w₀ ∧ w₀.runWrites haveMsgpack pack writes = .ok w ∧
      (w.replay = writes.map Write.record ↔
        haveMsgpack = false ∨ ∀ c ∈ writes, c.isBinary = false) := by
  refine ⟨_, _, new_of_openable filename [], runWrites_of_isOpen _ _ rfl writes, ?_⟩
  rw [replay, List.nil_append]
  constructor
  · intro heq
    cases haveMsgpack with
    | false => exact Or.inl rfl
    | true => exact Or.inr (isBinary_eq_false_of_replayText_eq h hwrites heq)
  · intro htext
    rw [flatMap_written_of_text _ _ htext]
    refine replayText_textOf_of_roundTrips fun r hr ↦ ?_
    obtain ⟨c, hc, rfl⟩ := List.mem_map.1 hr
    exact (hwrites c hc).roundTrips

end WAL

/-! ### MessagePack -/

/-- The header of a string in MessagePack: `fixstr`, `str 8`, `str 16` or `str 32`. -/
def strHeader (n : ℕ) : Bytes :=
  if n < 32 then [UInt8.ofNat (0xa0 + n)]
  else if n < 2 ^ 8 then [0xd9, UInt8.ofNat n]
  else if n < 2 ^ 16 then [0xda, UInt8.ofNat (n / 2 ^ 8), UInt8.ofNat n]
  else [0xdb, UInt8.ofNat (n / 2 ^ 24), UInt8.ofNat (n / 2 ^ 16), UInt8.ofNat (n / 2 ^ 8),
    UInt8.ofNat n]

/-- A tuple of three strings in MessagePack. -/
def packTuple (r : Record) : Bytes := 0x93 :: (strHeader r.operation.length ++ r.operation ++
  strHeader r.key.length ++ r.key ++ strHeader r.value.length ++ r.value)

theorem packsTuple_packTuple : PacksTuple packTuple strHeader where
  pack_eq _ := rfl
  short n hn := by rw [strHeader, if_pos hn]
  long n hn := by
    rw [strHeader, if_neg (by omega)]
    split_ifs <;> simp

namespace WAL

/-- In the build without msgpack, a binary call between two text ones. -/
theorem replay_runWrites_iff_three :
    let r : Record := ⟨bytes ['S', 'E', 'T'], [107], [118]⟩
    ∃ w₀ w, new [] [] true = .ok w₀ ∧
      w₀.runWrites false packTuple [.append r, .appendBinary r, .append r] = .ok w ∧
      (w.replay = [r, r, r] ↔
        false = false ∨ ∀ c ∈ [Write.append r, .appendBinary r, .append r], c.isBinary = false) :=
  replay_runWrites_iff packsTuple_packTuple false [] (by decide)

/-- **A binary record is replayed as something else**: the whole of it as the operation, with
neither key nor value. -/
theorem replay_runWrites_binary :
    let r : Record := ⟨bytes ['S', 'E', 'T'], [107], [118]⟩
    ∃ w₀ w, new [] [] true = .ok w₀ ∧ w₀.runWrites true packTuple [.appendBinary r] = .ok w ∧
      w.replay = [⟨packTuple r, [], []⟩] ∧ w.replay ≠ [r] := by
  intro r
  exact ⟨_, _, new_of_openable [] [], runWrites_of_isOpen _ _ rfl _, by decide, by decide⟩

end WAL

end DistCache
