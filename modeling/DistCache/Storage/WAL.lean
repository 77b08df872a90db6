import DistCache.Basic
import DistCache.Lib.CharStream

/-!
# `WAL`: the text log

One record a line: the operation, a space, the key and, when the value is not empty, a space and
the value. Nothing is escaped and nothing is counted, so what a line means is decided by the reader
alone, which splits the file at newlines (`getlines`) and each line with the two `>>` and the
`getline` of `replay` (`parseLine`).

The log file is its bytes; `append` flushes after every record, so what has been written is in the
file. A missing file reads like an empty one. Whether the file can be opened for writing is a
property of the file system, kept in `openable`; opening an unopenable file is what `append` throws
on.

`parseLine_eq` replaces the three stream operations by the first two words of the line and what
follows them, and `replayText_append_newline` splits a replay where a record ends. Everything else
about the log is proved from these two.
-/

namespace DistCache

open CharStream

/-- `isspace` in the C locale: space, `\t`, `\n`, `\v`, `\f`, `\r`. -/
def isSpace (c : UInt8) : Bool := c = 32 || (9 ≤ c && c ≤ 13)

@[simp] theorem isSpace_space : isSpace space = true := rfl

@[simp] theorem isSpace_newline : isSpace newline = true := rfl

/-- A string without white space, which `>>` reads in one piece. -/
def Blankless (l : Bytes) : Prop := ∀ c ∈ l, isSpace c = false

instance (l : Bytes) : Decidable (Blankless l) := List.decidableBAll (isSpace · = false) l

/-- The tuple `(op, key, value)` of `replay`. -/
structure Record where
  operation : Bytes
  key : Bytes
  value : Bytes
  deriving DecidableEq, Repr

namespace Record

/-- What `append` writes in front of the newline. -/
def line (r : Record) : Bytes :=
  r.operation ++ [space] ++ r.key ++ (if r.value.isEmpty then [] else [space] ++ r.value)

/-- What `append` writes. -/
def text (r : Record) : Bytes := r.line ++ [newline]

/-- The line of a record, field by field. -/
theorem line_eq (r : Record) : r.line =
    r.operation ++ space :: (r.key ++ if r.value.isEmpty then [] else space :: r.value) := by
  simp [line]

theorem line_ne_nil (r : Record) : r.line ≠ [] := by
  simp [line]

end Record

/-- `if (!value.empty() && value[0] == ' ') value = value.substr(1);` -/
def trimSpace (value : Bytes) : Bytes := if value.head? = some space then value.tail else value

/-- What `replay` makes of a line. -/
def parseLine (line : Bytes) : Record :=
  let iss := IStream.ofList line
  let op := iss.extract isSpace []
  let key := op.1.extract isSpace []
  let value := key.1.getline newline []
  ⟨op.2, key.2, trimSpace value.2⟩

/-- The loop of `replay` over the text of the file; empty lines are skipped. -/
def replayText (text : Bytes) : List Record :=
  ((getlines newline text).filter fun line ↦ !line.isEmpty).map parseLine

/-- `WAL`: the file, its name, and the state of the output stream. -/
structure WAL where
  filename : Bytes
  file : Bytes
  isOpen : Bool
  openable : Bool
  deriving DecidableEq, Repr

namespace WAL

/-- `WAL::ensure_file_open`: nothing on an open stream, else it is opened at the end of the file. -/
def ensureFileOpen (w : WAL) : Except Bytes WAL :=
  if w.isOpen then .ok w
  else if w.openable then .ok { w with isOpen := true }
  else .error (bytes "Failed to open WAL file: ".toList ++ w.filename)

/-- `WAL::WAL` on a file that already holds `file`. -/
def new (filename file : Bytes) (openable : Bool) : Except Bytes WAL :=
  ensureFileOpen { filename, file, isOpen := false, openable }

/-- `WAL::append`. -/
def append (w : WAL) (operation key value : Bytes) : Except Bytes WAL := do
  let w ← w.ensureFileOpen
  .ok { w with file := w.file ++ Record.text ⟨operation, key, value⟩ }

/-- `WAL::sync`. The stream has nothing left to flush. -/
def sync (w : WAL) : WAL := w

/-- `WAL::truncate`. When the file cannot be opened again the stream stays closed and the file is
as it was. -/
def truncate (w : WAL) : WAL :=
  if w.openable then { w with isOpen := true, file := [] } else { w with isOpen := false }

/-- `WAL::replay`. -/
def replay (w : WAL) : List Record := replayText w.file

/-! ### Runs -/

/-- A call of a writer of the log. -/
inductive Call where
  | append (operation key value : Bytes)
  | sync
  | truncate
  deriving DecidableEq, Repr

/-- The log after one call. -/
def step (w : WAL) : Call → Except Bytes WAL
  | .append operation key value => w.append operation key value
  | .sync => .ok w.sync
  | .truncate => .ok w.truncate

/-- The log after a sequence of calls; a throwing call ends it. -/
def run (w : WAL) (calls : List Call) : Except Bytes WAL := calls.foldlM step w

/-- The calls that append `records`. -/
def appends (records : List Record) : List Call :=
  records.map fun r ↦ .append r.operation r.key r.value

/-- What `records` look like in the file. -/
def textOf (records : List Record) : Bytes := records.flatMap Record.text

@[simp] theorem textOf_nil : textOf [] = [] := rfl

@[simp] theorem textOf_cons (r : Record) (records : List Record) :
    textOf (r :: records) = r.text ++ textOf records := rfl

theorem textOf_append (records records' : List Record) :
    textOf (records ++ records') = textOf records ++ textOf records' := List.flatMap_append

theorem new_of_openable (filename file : Bytes) :
    new filename file true = .ok { filename, file, isOpen := true, openable := true } := rfl

/-- On an open stream `append` cannot throw. -/
theorem append_of_isOpen {w : WAL} (h : w.isOpen = true) (r : Record) :
    w.append r.operation r.key r.value = .ok { w with file := w.file ++ r.text } := by
  rw [append, ensureFileOpen, if_pos h]
  rfl

/-- A sequence of appends to an open stream extends the file. -/
theorem run_appends {w : WAL} (h : w.isOpen = true) (records : List Record) :
    w.run (appends records) = .ok { w with file := w.file ++ textOf records } := by
  induction records generalizing w with
  | nil => simp [run, appends, pure, Except.pure]
  | cons r records ih =>
    have hstep : w.step (.append r.operation r.key r.value) =
        .ok { w with file := w.file ++ r.text } := append_of_isOpen h r
    show (w.step (.append r.operation r.key r.value)).bind (fun w' ↦ w'.run (appends records)) = _
    rw [hstep]
    show WAL.run { w with file := w.file ++ r.text } (appends records) = _
    rw [ih (w := { w with file := w.file ++ r.text }) h, textOf_cons, List.append_assoc]

end WAL

/-! ### The reader -/

/-- **The parse of a line**: its first two words, and what follows them without one leading
space. -/
theorem parseLine_eq {line : Bytes} (h : newline ∉ line) :
    parseLine line = ⟨word isSpace line, word isSpace (afterWord isSpace line),
      trimSpace (afterWord isSpace (afterWord isSpace line))⟩ := by
  have hread := extract_extract_getline isSpace h
  simp only [Prod.mk.injEq] at hread
  rw [parseLine, Record.mk.injEq]
  exact ⟨hread.1, hread.2.1, congrArg trimSpace hread.2.2⟩

@[simp] theorem replayText_nil : replayText [] = [] := rfl

/-- Behind a newline the reader starts afresh. -/
theorem replayText_append_newline (a b : Bytes) :
    replayText ((a ++ [newline]) ++ b) = replayText (a ++ [newline]) ++ replayText b := by
  rw [replayText, getlines_append_terminated, List.filter_append, List.map_append, replayText,
    replayText]

/-- A line free of newlines is read as one record, whatever follows it. -/
theorem replayText_line {line : Bytes} (h : newline ∉ line) (hne : line ≠ []) (b : Bytes) :
    replayText (line ++ newline :: b) = parseLine line :: replayText b := by
  rw [replayText, getlines_append_cons h, List.filter_cons_of_pos (by simpa using hne),
    List.map_cons, replayText]

/-- A last line may lack its newline. -/
theorem replayText_of_notMem {line : Bytes} (h : newline ∉ line) (hne : line ≠ []) :
    replayText line = [parseLine line] := by
  simp [replayText, getlines_of_notMem h hne, hne]

/-- **A replay record by record**: what a record is read back as does not depend on the log around
it. -/
theorem replayText_textOf_append (records : List Record) (b : Bytes) :
    replayText (WAL.textOf records ++ b) =
      (records.flatMap fun r ↦ replayText r.text) ++ replayText b := by
  induction records with
  | nil => rfl
  | cons r records ih =>
    rw [WAL.textOf_cons, List.append_assoc, Record.text, replayText_append_newline, ih,
      List.flatMap_cons, List.append_assoc, Record.text]

theorem replayText_textOf (records : List Record) :
    replayText (WAL.textOf records) = records.flatMap fun r ↦ replayText r.text := by
  simpa using replayText_textOf_append records []

end DistCache
