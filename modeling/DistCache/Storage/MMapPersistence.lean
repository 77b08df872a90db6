import DistCache.Basic
import DistCache.Lib.CharStream
import Mathlib.Data.List.AList

/-!
# `MMapPersistence`: the snapshot file

A snapshot is one line an entry, the escaped key and the escaped value with a space between them.
Escaping keeps spaces and newlines out of both fields (`space_notMem_escapeString`,
`newline_notMem_escapeString`), so the two separators mean what the writer meant by them, and
unescaping undoes it (`unescapeString_escapeString`). Together these give `load_snapshot`: whatever
the map and the order in which it is iterated, a successful snapshot is loaded back as that map.

`snapshot` truncates the file before it writes and checks the stream once, at the end. How a write
fails is an argument, a `Failure`; the call then throws. What is left is not just the bytes that got
through: an `ofstream` keeps a buffer it could not write, and writes it once more when it is closed,
which the unwinding of the stack does.

An `unordered_map` is an `AList`: a finite map together with an iteration order.
-/

namespace DistCache

open CharStream

/-- `std::unordered_map<std::string, std::string>`. -/
abbrev Data := AList fun _ : Bytes ↦ Bytes

/-- `'\\'`. -/
def backslash : UInt8 := 92

/-- The `switch` of `escape_string`: the letter behind the backslash, for an escaped character. -/
def escapeLetter (c : UInt8) : Option UInt8 :=
  if c = space then some 115
  else if c = newline then some 110
  else if c = 13 then some 114
  else if c = 9 then some 116
  else if c = backslash then some backslash
  else none

/-- `MMapPersistence::escape_string`. -/
def escapeString : Bytes → Bytes
  | [] => []
  | c :: str =>
    match escapeLetter c with
    | some letter => backslash :: letter :: escapeString str
    | none => c :: escapeString str

/-- The `switch` of `unescape_string`: the character a letter behind a backslash stands for. -/
def unescapeLetter (letter : UInt8) : Option UInt8 :=
  if letter = 115 then some space
  else if letter = 110 then some newline
  else if letter = 114 then some 13
  else if letter = 116 then some 9
  else if letter = backslash then some backslash
  else none

/-- `MMapPersistence::unescape_string`. A backslash that is the last character, or is followed by no
letter of the table, stands for itself. -/
def unescapeString : Bytes → Bytes
  | [] => []
  | [c] => [c]
  | c :: letter :: str =>
    if c = backslash then
      match unescapeLetter letter with
      | some d => d :: unescapeString str
      | none => c :: unescapeString (letter :: str)
    else c :: unescapeString (letter :: str)

/-- `MMapPersistence`: the file and its name. -/
structure MMapPersistence where
  filename : Bytes
  file : Bytes
  openable : Bool
  deriving DecidableEq, Repr

/-- How the stream of a snapshot fails. With `written` bytes in the file, the write of the buffer
gets `torn` bytes further. `again` lists how many bytes of the same buffer get into the file each
time it is written again. -/
structure Failure where
  written : ℕ
  torn : ℕ
  again : List ℕ
  deriving DecidableEq, Repr

/-- The file that a failure leaves. -/
def Failure.leaves (f : Failure) (text : Bytes) : Bytes :=
  text.take f.written ++ (f.torn :: f.again).flatMap fun n ↦ (text.drop f.written).take n

namespace MMapPersistence

/-- The line of an entry, without its newline. -/
def entryLine (e : Σ _ : Bytes, Bytes) : Bytes := escapeString e.1 ++ [space] ++ escapeString e.2

/-- Everything `snapshot` writes. -/
def snapshotText (data : Data) : Bytes := data.entries.flatMap fun e ↦ entryLine e ++ [newline]

/-- `MMapPersistence::snapshot`: the file afterwards, when the stream is closed, and what is thrown,
if anything. -/
def snapshot (p : MMapPersistence) (data : Data) (failure : Option Failure) :
    MMapPersistence × Option Bytes :=
  if p.openable then
    match failure with
    | none => ({ p with file := snapshotText data }, none)
    | some f =>
      ({ p with file := f.leaves (snapshotText data) },
        some (bytes "Failed to write to file: ".toList ++ p.filename))
  else (p, some (bytes "Failed to open file for writing: ".toList ++ p.filename))

/-- The loop body of `load`: empty lines and lines without a space are skipped. -/
def loadLine (data : Data) (line : Bytes) : Data :=
  if line.isEmpty then data
  else
    match line.dropWhile (· != space) with
    | [] => data
    | _ :: escapedValue =>
      data.insert (unescapeString (line.takeWhile (· != space))) (unescapeString escapedValue)

/-- `MMapPersistence::load`. A missing file reads like an empty one. -/
def load (p : MMapPersistence) : Data := (getlines newline p.file).foldl loadLine ∅

end MMapPersistence

/-! ### The escape code -/

/-- The two tables are inverse to each other. -/
theorem unescapeLetter_of_escapeLetter {c letter : UInt8} (h : escapeLetter c = some letter) :
    unescapeLetter letter = some c := by
  rw [escapeLetter] at h
  split_ifs at h with h₁ h₂ h₃ h₄ h₅ <;> obtain rfl := Option.some.inj h <;> subst_vars <;> rfl

/-- No letter of the table is a separator. -/
theorem ne_of_escapeLetter {c letter : UInt8} (h : escapeLetter c = some letter) :
    letter ≠ space ∧ letter ≠ newline := by
  rw [escapeLetter] at h
  split_ifs at h <;> obtain rfl := Option.some.inj h <;> decide

/-- What is not escaped is neither a separator nor a backslash. -/
theorem ne_of_escapeLetter_eq_none {c : UInt8} (h : escapeLetter c = none) :
    c ≠ space ∧ c ≠ newline ∧ c ≠ backslash := by
  rw [escapeLetter] at h
  split_ifs at h with h₁ h₂ h₃ h₄ h₅
  exact ⟨h₁, h₂, h₅⟩

theorem unescapeString_backslash_cons {letter d : UInt8} (h : unescapeLetter letter = some d)
    (str : Bytes) : unescapeString (backslash :: letter :: str) = d :: unescapeString str := by
  rw [unescapeString, if_pos rfl, h]

theorem unescapeString_cons_of_ne {c : UInt8} (h : c ≠ backslash) (str : Bytes) :
    unescapeString (c :: str) = c :: unescapeString str := by
  cases str with
  | nil => rfl
  | cons d str => rw [unescapeString, if_neg h]

/-- **Decoding undoes encoding.** -/
theorem unescapeString_escapeString (str : Bytes) : unescapeString (escapeString str) = str := by
  induction str with
  | nil => rfl
  | cons c str ih =>
    rw [escapeString]
    rcases hc : escapeLetter c with - | letter
    · -- `c` is no backslash, so the decoder does not look ahead
      show unescapeString (c :: escapeString str) = c :: str
      rw [unescapeString_cons_of_ne (ne_of_escapeLetter_eq_none hc).2.2, ih]
    · show unescapeString (backslash :: letter :: escapeString str) = c :: str
      rw [unescapeString_backslash_cons (unescapeLetter_of_escapeLetter hc), ih]

/-- An escaped string is free of both separators. -/
theorem notMem_escapeString (str : Bytes) :
    space ∉ escapeString str ∧ newline ∉ escapeString str := by
  induction str with
  | nil => exact ⟨List.not_mem_nil, List.not_mem_nil⟩
  | cons c str ih =>
    rw [escapeString]
    rcases hc : escapeLetter c with - | letter
    · have hne := ne_of_escapeLetter_eq_none hc
      exact ⟨List.not_mem_cons_of_ne_of_not_mem hne.1.symm ih.1,
        List.not_mem_cons_of_ne_of_not_mem hne.2.1.symm ih.2⟩
    · have hne := ne_of_escapeLetter hc
      exact ⟨List.not_mem_cons_of_ne_of_not_mem (by decide)
          (List.not_mem_cons_of_ne_of_not_mem hne.1.symm ih.1),
        List.not_mem_cons_of_ne_of_not_mem (by decide)
          (List.not_mem_cons_of_ne_of_not_mem hne.2.symm ih.2)⟩

theorem space_notMem_escapeString (str : Bytes) : space ∉ escapeString str :=
  (notMem_escapeString str).1

theorem newline_notMem_escapeString (str : Bytes) : newline ∉ escapeString str :=
  (notMem_escapeString str).2

namespace MMapPersistence

/-! ### The round trip -/

theorem newline_notMem_entryLine (e : Σ _ : Bytes, Bytes) : newline ∉ entryLine e := by
  simp [entryLine, newline_notMem_escapeString]

/-- The first space is the separator, whatever follows it. -/
theorem loadLine_escapeString_append (data : Data) (key escapedValue : Bytes) :
    loadLine data (escapeString key ++ space :: escapedValue) =
      data.insert key (unescapeString escapedValue) := by
  have hkey := space_notMem_escapeString key
  have hdrop : (escapeString key ++ space :: escapedValue).dropWhile (· != space) =
      space :: escapedValue := by
    rw [dropWhile_ne_append hkey, List.dropWhile_cons_of_neg (by simp)]
  have htake : (escapeString key ++ space :: escapedValue).takeWhile (· != space) =
      escapeString key := by
    rw [takeWhile_ne_append hkey, List.takeWhile_cons_of_neg (by simp), List.append_nil]
  have hne : (escapeString key ++ space :: escapedValue).isEmpty = false := by simp
  rw [loadLine, hne, hdrop, htake, unescapeString_escapeString]
  rfl

/-- **The line of an entry is loaded as that entry.** -/
theorem loadLine_entryLine (data : Data) (e : Σ _ : Bytes, Bytes) :
    loadLine data (entryLine e) = data.insert e.1 e.2 := by
  rw [entryLine, List.append_assoc, List.singleton_append, loadLine_escapeString_append,
    unescapeString_escapeString]

/-- Assigning pairwise different keys one after the other. -/
theorem lookup_foldl_insert {l : List (Σ _ : Bytes, Bytes)} (hl : l.NodupKeys) (data : Data)
    (k : Bytes) :
    (l.foldl (fun (d : Data) e ↦ d.insert e.1 e.2) data).lookup k =
      (l.dlookup k).or (data.lookup k) := by
  induction l generalizing data with
  | nil => rfl
  | cons e l ih =>
    rw [List.nodupKeys_cons] at hl
    rw [List.foldl_cons, ih hl.2]
    rcases eq_or_ne k e.1 with rfl | hk
    · rw [List.dlookup_eq_none.2 hl.1, AList.lookup_insert, List.dlookup_cons_eq]
      rfl
    · rw [AList.lookup_insert_ne hk, List.dlookup_cons_ne _ _ hk]

/-- Pairwise different keys are all kept. -/
theorem foldl_insert_perm {l : List (Σ _ : Bytes, Bytes)} (hl : l.NodupKeys) :
    (l.foldl (fun (d : Data) e ↦ d.insert e.1 e.2) ∅).entries.Perm l := by
  refine List.lookup_ext (AList.nodupKeys _) hl fun k v ↦ ?_
  have hk : (l.foldl (fun (d : Data) e ↦ d.insert e.1 e.2) ∅).lookup k = l.dlookup k := by
    rw [lookup_foldl_insert hl, AList.lookup_empty, Option.or_none]
  rw [← hk]
  rfl

/-- Whole lines at the front of a file are read one by one. -/
theorem getlines_flatMap_entryLine (l : List (Σ _ : Bytes, Bytes)) (rest : Bytes) :
    getlines newline ((l.flatMap fun e ↦ entryLine e ++ [newline]) ++ rest) =
      l.map entryLine ++ getlines newline rest := by
  have htext : (l.flatMap fun e ↦ entryLine e ++ [newline]) =
      (l.map entryLine).flatMap (· ++ [newline]) := by rw [List.flatMap_map]
  rw [htext]
  refine getlines_flatMap_append (fun line hline ↦ ?_) rest
  obtain ⟨e, -, rfl⟩ := List.mem_map.1 hline
  exact newline_notMem_entryLine e

/-- Whole lines at the front of a file are loaded first. -/
theorem load_eq_of_file {p : MMapPersistence} {l : List (Σ _ : Bytes, Bytes)} {rest : Bytes}
    (h : p.file = (l.flatMap fun e ↦ entryLine e ++ [newline]) ++ rest) :
    p.load = (getlines newline rest).foldl loadLine (l.foldl (fun d e ↦ d.insert e.1 e.2) ∅) := by
  have hfold : l.foldl (fun d e ↦ loadLine d (entryLine e)) ∅ =
      l.foldl (fun (d : Data) e ↦ d.insert e.1 e.2) ∅ :=
    congrArg (fun f ↦ l.foldl f ∅) (funext₂ fun d e ↦ loadLine_entryLine d e)
  rw [load, h, getlines_flatMap_entryLine, List.foldl_append, List.foldl_map, hfold]

/-- The map in a file that holds a whole snapshot. -/
theorem load_snapshotText {p : MMapPersistence} {data : Data} (h : p.file = snapshotText data) :
    p.load.entries.Perm data.entries := by
  have hload : p.load = data.entries.foldl (fun d e ↦ d.insert e.1 e.2) ∅ :=
    load_eq_of_file (h.trans (List.append_nil _).symm)
  rw [hload]
  exact foldl_insert_perm data.nodupKeys

/-- **Snapshot round trip.** For every map in every iteration order, and whatever the file held
before: when `snapshot` throws nothing, `load` returns that map. -/
theorem load_snapshot (p : MMapPersistence) (data : Data) (failure : Option Failure)
    (h : (p.snapshot data failure).2 = none) :
    (p.snapshot data failure).1.load.entries.Perm data.entries := by
  refine load_snapshotText ?_
  unfold snapshot at h ⊢
  split_ifs with hopen
  · rw [if_pos hopen] at h
    cases failure with
    | none => rfl
    | some f => simp at h
  · rw [if_neg hopen] at h
    simp at h

/-- A space and a backslash in a key, a newline in a value, and an entry that is empty on both
sides. -/
theorem load_snapshot_two :
    ((⟨[], [1, 2, 3], true⟩ : MMapPersistence).snapshot
        ((∅ : Data).insert [space, backslash] [newline] |>.insert [] []) none).1.load.entries.Perm
      ((∅ : Data).insert [space, backslash] [newline] |>.insert [] []).entries :=
  load_snapshot ⟨[], [1, 2, 3], true⟩ _ none rfl

end MMapPersistence

end DistCache
