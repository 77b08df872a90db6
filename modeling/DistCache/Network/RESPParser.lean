import DistCache.Basic
import DistCache.Lib.CharStream
import DistCache.Lib.SelfDelimiting
import Mathlib.Data.List.DropRight

/-!
# `RESPParser`

What the server sends and what it reads. Replies are written in the five encodings of the protocol,
and arrays of strings in a sixth; commands are read by cutting the input at spaces, whatever its
first byte announces.

The encodings with a length in front are self-delimiting (`selfDelimiting_serializeBulk`,
`selfDelimiting_serializeArray`), so no content can be mistaken for the frame around it. The two
that end at the first CRLF are so only for texts without one, and nothing checks that
(`Reply.Clean`).
-/

namespace DistCache

open CharStream

/-- `"\r\n"`. -/
def crlf : Bytes := [13, 10]

/-- `std::to_string`. -/
def stdToString : ℤ → Bytes
  | .ofNat n => bytes (Nat.toDigits 10 n)
  | .negSucc n => bytes ('-' :: Nat.toDigits 10 (n + 1))

namespace RESPParser

/-! ### Utility functions -/

/-- The characters of `" \t\r\n"`. -/
def isTrimmed (c : UInt8) : Bool := c = 32 || c = 9 || c = 13 || c = 10

/-- `RESPParser::trim`: from the first character that is not trimmed to the last one. -/
def trim (str : Bytes) : Bytes := (str.dropWhile isTrimmed).rdropWhile isTrimmed

/-- `RESPParser::split`: the non-empty ones among the trimmed pieces. -/
def split (str : Bytes) (delimiter : UInt8) : List Bytes :=
  ((getlines delimiter str).map trim).filter fun token ↦ !token.isEmpty

/-- `toupper` of the C locale. -/
def toupper (c : UInt8) : UInt8 := if 97 ≤ c ∧ c ≤ 122 then c - 32 else c

/-- `RESPParser::to_upper`. -/
def toUpper (str : Bytes) : Bytes := str.map toupper

/-! ### Commands -/

/-- `RESPParser::parse_simple_string`. -/
def parseSimpleString (raw : Bytes) : Bytes × List Bytes :=
  match split (trim raw) space with
  | [] => ([], [])
  | token :: tokens => (toUpper token, tokens)

/-- `RESPParser::parse_bulk_string`: the `$` is skipped. -/
def parseBulkString (raw : Bytes) : Bytes × List Bytes := parseSimpleString (raw.drop 1)

/-- `RESPParser::parse_array`: the `*` is skipped. -/
def parseArray (raw : Bytes) : Bytes × List Bytes := parseSimpleString (raw.drop 1)

/-- `RESPParser::parse`. -/
def parse (raw : Bytes) : Bytes × List Bytes :=
  match raw.head? with
  | none => ([], [])
  | some c =>
    if c = 42 then parseArray raw
    else if c = 36 then parseBulkString raw
    else parseSimpleString raw

/-! ### Replies -/

/-- `RESPParser::serialize`. -/
def serialize (result : Bytes) : Bytes := bytes ['+'] ++ result ++ crlf

/-- `RESPParser::serialize_error`. -/
def serializeError (error : Bytes) : Bytes := bytes ['-'] ++ error ++ crlf

/-- `RESPParser::serialize_integer`. -/
def serializeInteger (value : ℤ) : Bytes := bytes [':'] ++ stdToString value ++ crlf

/-- `RESPParser::serialize_bulk`. -/
def serializeBulk (data : Bytes) : Bytes :=
  bytes ['$'] ++ stdToString data.length ++ crlf ++ data ++ crlf

/-- `RESPParser::serialize_nil`. -/
def serializeNil : Bytes := bytes ['$', '-', '1'] ++ crlf

/-- `RESPParser::serialize_array`. -/
def serializeArray (items : List Bytes) : Bytes :=
  bytes ['*'] ++ stdToString items.length ++ crlf ++ items.flatMap serializeBulk

/-- A reply, by the function that writes it. -/
inductive Reply where
  | result (text : Bytes)
  | error (text : Bytes)
  | integer (value : ℤ)
  | bulk (data : Bytes)
  | nil
  deriving DecidableEq, Repr

/-- What is sent for a reply. -/
def Reply.encode : Reply → Bytes
  | .result text => serialize text
  | .error text => serializeError text
  | .integer value => serializeInteger value
  | .bulk data => serializeBulk data
  | .nil => serializeNil

/-- A text that is sent up to the first CRLF has none. -/
def Reply.Clean : Reply → Prop
  | .result text => ¬ crlf <:+: text
  | .error text => ¬ crlf <:+: text
  | _ => True

instance (reply : Reply) : Decidable reply.Clean := by
  cases reply <;> unfold Reply.Clean <;> infer_instance

end RESPParser

/-! ### Numerals -/

/-- ASCII characters can be told from their bytes. -/
theorem bytes_injOn {cs cs' : List Char} (h : ∀ c ∈ cs, c.toNat < 256)
    (h' : ∀ c ∈ cs', c.toNat < 256) (heq : bytes cs = bytes cs') : cs = cs' := by
  have hback : ∀ cs : List Char, (∀ c ∈ cs, c.toNat < 256) →
      (bytes cs).map (fun b ↦ Char.ofNat b.toNat) = cs := by
    intro cs hcs
    rw [bytes, List.map_map]
    refine (List.map_congr_left fun c hc ↦ ?_).trans cs.map_id
    simp [Nat.mod_eq_of_lt (hcs c hc)]
  rw [← hback cs h, heq, hback cs' h']

theorem toNat_of_mem_toDigits {c : Char} {n : ℕ} (h : c ∈ Nat.toDigits 10 n) :
    48 ≤ c.toNat ∧ c.toNat ≤ 57 := by
  have hdigit := Nat.isDigit_of_mem_toDigits (by decide) (by decide) h
  rw [Char.isDigit, Bool.and_eq_true, decide_eq_true_eq, decide_eq_true_eq] at hdigit
  exact hdigit

/-- The bytes of a numeral are digits. -/
theorem digit_of_mem_bytes_toDigits {b : UInt8} {n : ℕ} (h : b ∈ bytes (Nat.toDigits 10 n)) :
    48 ≤ b ∧ b ≤ 57 := by
  obtain ⟨c, hc, rfl⟩ := List.mem_map.1 h
  obtain ⟨hlow, hhigh⟩ := toNat_of_mem_toDigits hc
  rw [UInt8.le_iff_toNat_le, UInt8.le_iff_toNat_le, UInt8.toNat_ofNat', Nat.mod_eq_of_lt (by omega)]
  exact ⟨hlow, hhigh⟩

theorem toDigits_injective : Function.Injective (Nat.toDigits 10) := fun n n' h ↦ by
  rw [← Nat.ofDigitChars_ten_toDigits (n := n), h, Nat.ofDigitChars_ten_toDigits]

/-- **Numerals are unambiguous.** -/
theorem stdToString_injective : Function.Injective stdToString := by
  have hdigits : ∀ n, ∀ c ∈ Nat.toDigits 10 n, c.toNat < 256 := fun n c hc ↦
    lt_of_le_of_lt (toNat_of_mem_toDigits hc).2 (by decide)
  have hsigned : ∀ n, ∀ c ∈ '-' :: Nat.toDigits 10 n, c.toNat < 256 := fun n c hc ↦ by
    rcases List.mem_cons.1 hc with rfl | hc
    · decide
    · exact hdigits n c hc
  -- a sign is not a digit
  have hsign : ∀ n n', Nat.toDigits 10 n ≠ '-' :: Nat.toDigits 10 n' := fun n n' heq ↦ by
    have hmem : '-' ∈ Nat.toDigits 10 n := heq ▸ List.mem_cons_self
    exact absurd (toNat_of_mem_toDigits hmem).1 (by decide)
  rintro (n | n) (n' | n') heq
  · rw [toDigits_injective (bytes_injOn (hdigits n) (hdigits n') heq)]
  · exact absurd (bytes_injOn (hdigits n) (hsigned (n' + 1)) heq) (hsign n (n' + 1))
  · exact absurd (bytes_injOn (hsigned (n + 1)) (hdigits n') heq).symm (hsign n' (n + 1))
  · have hcons := bytes_injOn (hsigned (n + 1)) (hsigned (n' + 1)) heq
    rw [Nat.succ.inj (toDigits_injective (List.cons.inj hcons).2)]

/-- A numeral has no CRLF in it. -/
theorem not_crlf_infix_stdToString (value : ℤ) : ¬ crlf <:+: stdToString value := by
  intro hinfix
  have hmem : (13 : UInt8) ∈ stdToString value := hinfix.subset List.mem_cons_self
  have hdigit : ∀ n, (13 : UInt8) ∉ bytes (Nat.toDigits 10 n) := fun n hmem ↦
    absurd (digit_of_mem_bytes_toDigits hmem).1 (by decide)
  rcases value with n | n
  · exact hdigit n hmem
  · rcases List.mem_cons.1 hmem with heq | hmem
    · exact absurd heq (by decide)
    · exact hdigit (n + 1) hmem

namespace RESPParser

/-! ### Frames -/

/-- A text up to the first CRLF. -/
theorem selfDelimitingOn_line : SelfDelimitingOn (fun text ↦ ¬ crlf <:+: text)
    fun text : Bytes ↦ text ++ crlf := selfDelimitingOn_append_pair (by decide)

/-- A numeral up to the first CRLF. -/
theorem selfDelimiting_numeral : SelfDelimiting fun value : ℤ ↦ stdToString value ++ crlf :=
  selfDelimitingOn_line.comp stdToString_injective fun value _ ↦ not_crlf_infix_stdToString value

/-- A size up to the first CRLF, behind a tag. -/
theorem selfDelimiting_size (tag : UInt8) :
    SelfDelimiting fun n : ℕ ↦ tag :: (stdToString n ++ crlf) :=
  (selfDelimiting_numeral.comp (fun _ _ h ↦ Int.ofNat.inj h) fun _ h ↦ h).cons tag

theorem serializeBulk_eq (data : Bytes) :
    serializeBulk data = 36 :: (stdToString data.length ++ crlf) ++ data ++ crlf := by
  simp [serializeBulk, bytes]

theorem serializeArray_eq (items : List Bytes) : serializeArray items =
    42 :: (stdToString items.length ++ crlf) ++ items.flatMap serializeBulk := by
  simp [serializeArray, bytes]

/-- **Bulk strings** can hold anything. -/
theorem selfDelimiting_serializeBulk : SelfDelimiting serializeBulk := by
  rw [funext serializeBulk_eq]
  exact (selfDelimiting_size 36).lengthPrefixed crlf

/-- **Arrays** can hold anything. -/
theorem selfDelimiting_serializeArray : SelfDelimiting serializeArray := by
  rw [funext serializeArray_eq]
  exact (selfDelimiting_serializeBulk.counted (selfDelimiting_size 42)).mono
    fun _ _ _ _ ↦ trivial

/-- **Array framing is unambiguous.** Whatever the items are and whatever follows the two arrays on
the wire: equal bytes are equal arrays, followed by the same. -/
theorem serializeArray_append_eq_iff (xs ys : List Bytes) (r s : Bytes) :
    serializeArray xs ++ r = serializeArray ys ++ s ↔ xs = ys ∧ r = s :=
  ⟨fun heq ↦ selfDelimiting_serializeArray trivial trivial heq, fun ⟨hxs, hr⟩ ↦ by rw [hxs, hr]⟩

/-! ### Streams of replies -/

namespace Reply

/-- The first byte. -/
def tag : Reply → UInt8
  | .result _ => 43
  | .error _ => 45
  | .integer _ => 58
  | .bulk _ => 36
  | .nil => 36

/-- What is between the first byte and the first CRLF, if the reply is clean. -/
def line : Reply → Bytes
  | .result text => text
  | .error text => text
  | .integer value => stdToString value
  | .bulk data => stdToString data.length
  | .nil => stdToString (-1)

/-- What follows that CRLF. -/
def rest : Reply → Bytes
  | .bulk data => data ++ crlf
  | _ => []

theorem encode_eq (reply : Reply) :
    reply.encode = reply.tag :: (reply.line ++ crlf) ++ reply.rest := by
  cases reply with
  | bulk data => simp [encode, tag, line, rest, serializeBulk_eq]
  | result text => simp [encode, tag, line, rest, serialize, bytes]
  | error text => simp [encode, tag, line, rest, serializeError, bytes]
  | integer value => simp [encode, tag, line, rest, serializeInteger, bytes]
  | nil => rfl

theorem Clean.not_crlf_infix_line {reply : Reply} (h : reply.Clean) : ¬ crlf <:+: reply.line := by
  cases reply with
  | result text => exact h
  | error text => exact h
  | integer value => exact not_crlf_infix_stdToString value
  | bulk data => exact not_crlf_infix_stdToString data.length
  | nil => exact not_crlf_infix_stdToString (-1)

/-- **Clean replies are self-delimiting.** -/
theorem selfDelimitingOn_encode : SelfDelimitingOn Clean encode := by
  intro a b ha hb r s heq
  rw [encode_eq, encode_eq, List.append_assoc, List.append_assoc] at heq
  obtain ⟨htag, hafter⟩ := List.cons.inj heq
  obtain ⟨hline, hrest⟩ :=
    selfDelimitingOn_line ha.not_crlf_infix_line hb.not_crlf_infix_line hafter
  cases a with
  | result text =>
    cases b with
    | result text' => exact ⟨congrArg Reply.result hline, hrest⟩
    | _ => simp [tag] at htag
  | error text =>
    cases b with
    | error text' => exact ⟨congrArg Reply.error hline, hrest⟩
    | _ => simp [tag] at htag
  | integer value =>
    cases b with
    | integer value' => exact ⟨congrArg Reply.integer (stdToString_injective hline), hrest⟩
    | _ => simp [tag] at htag
  | bulk data =>
    cases b with
    | bulk data' =>
      have hlength : data.length = data'.length := Int.ofNat.inj (stdToString_injective hline)
      rw [rest, rest, List.append_assoc, List.append_assoc] at hrest
      obtain ⟨hdata, hmark⟩ := List.append_inj hrest hlength
      exact ⟨congrArg Reply.bulk hdata, List.append_cancel_left hmark⟩
    | nil =>
      have hneg : (data.length : ℤ) = -1 := stdToString_injective hline
      omega
    | _ => simp [tag] at htag
  | nil =>
    cases b with
    | bulk data' =>
      have hneg : -1 = (data'.length : ℤ) := stdToString_injective hline
      omega
    | nil => exact ⟨rfl, hrest⟩
    | _ => simp [tag] at htag

/-- **Clean replies cannot be forged.** A stream of them has one reading. -/
theorem eq_of_flatMap_encode_eq {replies replies' : List Reply} (h : ∀ reply ∈ replies, reply.Clean)
    (h' : ∀ reply ∈ replies', reply.Clean)
    (heq : replies.flatMap encode = replies'.flatMap encode) : replies = replies' :=
  selfDelimitingOn_encode.eq_of_flatMap_eq (fun reply ↦ by simp [encode_eq]) h h' heq

/-- A bulk string may imitate a whole stream. -/
theorem eq_of_flatMap_encode_eq_two :
    [Reply.bulk (crlf ++ serializeNil), .integer (-7), .nil] =
      [.bulk (crlf ++ serializeNil), .integer (-7), .nil] :=
  eq_of_flatMap_encode_eq (by decide) (by decide) rfl

/-- **A forged reply.** A result with a CRLF in it is read as two. -/
theorem flatMap_encode_eq_of_crlf :
    let replies := [Reply.result (bytes ['a', '\r', '\n', '+', 'b'])]
    let replies' := [Reply.result (bytes ['a']), .result (bytes ['b'])]
    replies.flatMap encode = replies'.flatMap encode ∧ replies ≠ replies' := by decide

end Reply

end RESPParser

end DistCache
