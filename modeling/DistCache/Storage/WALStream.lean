import DistCache.Lib.OutputStream
import DistCache.Storage.WAL

/-!
# `WAL` on a stream that may fail

`WAL` takes the log file for its bytes, as if every write got there. Here the log is what the code
has, an `ofstream`, and every `<<`, every `flush` and every `open` may fail. What fails during a
call is an argument of the call (`Faults`).

`append` puts a record in five or three pieces, a newline and a `flush` (`pieces`), and looks at
none of the outcomes; only a file that cannot be opened makes it throw (`append_eq`). So an `append`
that returns has written the record if the stream is good and nothing fails, and only a part of it
otherwise (`append_spec`). A stream that has failed stays so until `truncate` opens the file anew.

As long as nothing fails the two models agree (`toWAL_append`, `toWAL_sync`, `toWAL_truncate`).

What a failed operation did not get into the file is gone (`OStream.lose`). An `ofstream` keeps its
buffer then and writes it again when it is closed, so a `truncate` that cannot open the file, and
the end of the process, may still get a part of it into the file. This is left out.
-/

namespace DistCache

/-- What goes wrong during a call: whether the file can be opened, and the outcomes of the stream
operations in the order in which the call makes them. -/
structure Faults where
  opens : Bool
  fails : ℕ → Option ℕ

/-- `WAL`: the name of the file, and the stream with what is in the file. -/
structure WALStream where
  filename : Bytes
  out : OStream UInt8
  isOpen : Bool

namespace WALStream

/-- `WAL::ensure_file_open`. Opening a file clears the state of the stream. -/
def ensureFileOpen (w : WALStream) (f : Faults) : Except Bytes WALStream :=
  if w.isOpen then .ok w
  else if f.opens then .ok { w with out := w.out.reopen, isOpen := true }
  else .error (bytes "Failed to open WAL file: ".toList ++ w.filename)

/-- What `append` puts into the stream before it flushes. -/
def pieces (operation key value : Bytes) : List Bytes :=
  [operation, [space], key] ++ (if value.isEmpty then [] else [[space], value]) ++ [[newline]]

/-- `WAL::append`. -/
def append (w : WALStream) (operation key value : Bytes) (f : Faults) : Except Bytes WALStream := do
  let w ← w.ensureFileOpen f
  .ok { w with out := w.out.writeAll (pieces operation key value) f.fails }

/-- `WAL::sync`. -/
def sync (w : WALStream) (f : Faults) : WALStream :=
  if w.isOpen then { w with out := w.out.flush (f.fails 0) } else w

/-- `WAL::truncate`: `close`, which flushes, and `open`. If the file cannot be opened the stream is
left closed and the file is as it was, but for the buffer of a failed stream, which is left out. -/
def truncate (w : WALStream) (f : Faults) : WALStream :=
  if f.opens then { w with out := ⟨[], [], false⟩, isOpen := true }
  else { w with out := { w.out.flush (f.fails 0) with bad := true }, isOpen := false }

/-- Nothing is waiting to be written. Every call leaves the log so. -/
def Idle (w : WALStream) : Prop := w.out.pending = []

/-- The stream of an open log has not failed. -/
def Good (w : WALStream) : Prop := w.isOpen = true → w.out.bad = false

instance (w : WALStream) : Decidable w.Good := inferInstanceAs (Decidable (_ → _))

/-- No operation of an `append` fails. -/
def Spared (operation key value : Bytes) (f : Faults) : Prop :=
  ∀ i ≤ (pieces operation key value).length, f.fails i = none

/-! ### What an `append` writes -/

theorem flatten_pieces (r : Record) : (pieces r.operation r.key r.value).flatten = r.text := by
  rw [pieces, Record.text, Record.line]
  split_ifs <;> simp

/-- The log after `ensure_file_open`, if that does not throw. -/
def opened (w : WALStream) : WALStream :=
  if w.isOpen then w else { w with out := w.out.reopen, isOpen := true }

/-- The file is open, or can be opened. -/
def Writable (w : WALStream) (f : Faults) : Prop := w.isOpen = true ∨ f.opens = true

instance (w : WALStream) (f : Faults) : Decidable (w.Writable f) :=
  inferInstanceAs (Decidable (_ ∨ _))

/-- When `append` throws. -/
theorem append_eq (w : WALStream) (operation key value : Bytes) (f : Faults) :
    w.append operation key value f =
      if w.Writable f then
        .ok { w.opened with out := w.opened.out.writeAll (pieces operation key value) f.fails }
      else .error (bytes "Failed to open WAL file: ".toList ++ w.filename) := by
  rw [append, ensureFileOpen, opened]
  by_cases hopen : w.isOpen = true
  · have hwritable : w.Writable f := Or.inl hopen
    rw [if_pos hopen, if_pos hopen, if_pos hwritable]
    rfl
  · rw [if_neg hopen, if_neg hopen]
    by_cases hopens : f.opens = true
    · have hwritable : w.Writable f := Or.inr hopens
      rw [if_pos hopens, if_pos hwritable]
      rfl
    · have hwritable : ¬ w.Writable f := not_or.2 ⟨hopen, hopens⟩
      rw [if_neg hopens, if_neg hwritable]
      rfl

theorem Idle.opened {w : WALStream} (h : w.Idle) : w.opened.Idle ∧
    w.opened.out.file = w.out.file ∧ (w.opened.out.bad = false ↔ w.Good) := by
  rw [WALStream.opened, Good]
  split_ifs with hopen
  · exact ⟨h, rfl, by simp [hopen]⟩
  · exact ⟨rfl, rfl, iff_of_true rfl fun h ↦ absurd h hopen⟩

/-- **What is written to an idle stream**: the whole record if the stream is good and no operation
fails, else a part of it. -/
theorem writeAll_spec {out : OStream UInt8} (hidle : out.pending = []) (r : Record)
    (f : Faults) : ∃ part bad,
      out.writeAll (pieces r.operation r.key r.value) f.fails = ⟨out.file ++ part, [], bad⟩ ∧
        part <+: r.text ∧
        (out.bad = false ∧ Spared r.operation r.key r.value f → part = r.text ∧ bad = false) ∧
        (¬ (out.bad = false ∧ Spared r.operation r.key r.value f) →
          part.length < r.text.length) := by
  have htext : out.pending ++ (pieces r.operation r.key r.value).flatten = r.text := by
    rw [hidle, flatten_pieces, List.nil_append]
  have hne : r.text ≠ [] := by simp [Record.text]
  rcases hbad : out.bad with - | -
  · by_cases hspared : Spared r.operation r.key r.value f
    · refine ⟨r.text, false, ?_, List.prefix_rfl, fun _ ↦ ⟨rfl, rfl⟩,
        fun hnot ↦ absurd ⟨rfl, hspared⟩ hnot⟩
      rw [OStream.writeAll_of_none hbad hspared, htext]
    · have hfails : ∃ i ≤ (pieces r.operation r.key r.value).length, f.fails i ≠ none := by
        simpa [Spared] using hspared
      obtain ⟨part, hpart, hlt, heq⟩ :=
        OStream.writeAll_of_some hbad (htext.symm ▸ hne) hfails
      rw [htext] at hpart hlt
      exact ⟨part, true, heq, hpart, fun hand ↦ absurd hand.2 hspared, fun _ ↦ hlt⟩
  · refine ⟨[], true, ?_, List.nil_prefix, fun hand ↦ absurd hand.1 (by simp),
      fun _ ↦ List.length_pos_iff.2 hne⟩
    rw [OStream.writeAll_of_bad hbad, List.append_nil, ← hidle, ← hbad]

/-- **An `append` that returns.** The record is complete exactly if the stream was good and no
operation failed. -/
theorem append_spec {w w' : WALStream} (h : w.Idle) {r : Record} {f : Faults}
    (hw' : w.append r.operation r.key r.value f = .ok w') : w'.Idle ∧
      ∃ part, w'.out.file = w.out.file ++ part ∧
        (w.Good ∧ Spared r.operation r.key r.value f → part = r.text) ∧
        (¬ (w.Good ∧ Spared r.operation r.key r.value f) → part.length < r.text.length) := by
  rw [append_eq] at hw'
  split_ifs at hw'
  obtain rfl := Except.ok.inj hw'
  obtain ⟨hidle, hfile, hgood⟩ := h.opened
  obtain ⟨part, bad, hwrite, -, hall, hpart⟩ := writeAll_spec hidle r f
  rw [hgood] at hall hpart
  exact ⟨congrArg OStream.pending hwrite, part,
    (congrArg OStream.file hwrite).trans (by rw [hfile]), fun hand ↦ (hall hand).1, hpart⟩

/-! ### Without failures -/

/-- The log without its stream. -/
def toWAL (w : WALStream) (openable : Bool) : WAL :=
  { filename := w.filename, file := w.out.file, isOpen := w.isOpen, openable }

/-- **`append`** is that of `WAL` when nothing fails. -/
theorem toWAL_append {w : WALStream} (hidle : w.Idle) (hgood : w.Good) {r : Record} {f : Faults}
    (hspared : Spared r.operation r.key r.value f) :
    (w.append r.operation r.key r.value f).map (fun w' ↦ w'.toWAL f.opens) =
      (w.toWAL f.opens).append r.operation r.key r.value := by
  obtain ⟨hidle', hfile, hgood'⟩ := hidle.opened
  obtain ⟨part, bad, hwrite, -, hall, -⟩ := writeAll_spec hidle' r f
  obtain ⟨rfl, -⟩ := hall ⟨hgood'.2 hgood, hspared⟩
  rw [append_eq, hwrite, hfile, WAL.append, WAL.ensureFileOpen]
  rcases hopen : w.isOpen with - | -
  · rcases hopens : f.opens with - | -
    · have hwritable : ¬ w.Writable f := by simp [Writable, hopen, hopens]
      rw [if_neg hwritable]
      simp [Except.map, toWAL, hopen, bind, Except.bind]
    · have hwritable : w.Writable f := Or.inr hopens
      rw [if_pos hwritable]
      simp [Except.map, toWAL, opened, hopen, bind, Except.bind]
  · have hwritable : w.Writable f := Or.inl hopen
    rw [if_pos hwritable]
    simp [Except.map, toWAL, opened, hopen, bind, Except.bind]

/-- **`sync`** writes nothing that was not written. -/
theorem toWAL_sync {w : WALStream} (hidle : w.Idle) (f : Faults) (openable : Bool) :
    (w.sync f).toWAL openable = (w.toWAL openable).sync := by
  rw [sync]
  split_ifs
  · simp [toWAL, WAL.sync, (OStream.flush_of_pending_eq_nil hidle (f.fails 0)).1]
  · rfl

/-- **`truncate`** is that of `WAL`, whatever fails. -/
theorem toWAL_truncate {w : WALStream} (hidle : w.Idle) (f : Faults) :
    (w.truncate f).toWAL f.opens = (w.toWAL f.opens).truncate := by
  rcases hopens : f.opens with - | -
  · simp [truncate, WAL.truncate, toWAL, hopens,
      (OStream.flush_of_pending_eq_nil hidle (f.fails 0)).1]
  · simp [truncate, WAL.truncate, toWAL, hopens]

end WALStream

end DistCache
