import DistCache.Storage.SnapshotCrash
import Mathlib.Logic.Function.Basic

/-!
# Files and their backups

Several objects may work in one directory, and a file may be the copy of a copy. What a directory is
for is said by a simpler one, which holds maps in place of bytes, each with a mark that says whether
all of it is there and how often its snapshot wrote a buffer again (`Shelf`). The directory of files
follows it step by step (`Stands.step`), so that every file can be traced back to the one snapshot
it stems from, whatever has failed on the way (`load_run`).
-/

namespace DistCache

/-- The files of a directory, and which names can be opened for writing. -/
structure Directory where
  files : Bytes → Option Bytes
  writable : Bytes → Bool

namespace Directory

open MMapPersistence (snapshotText Salvaged SalvagedBut Remains)

/-- No files. -/
def empty (writable : Bytes → Bool) : Directory := ⟨fun _ ↦ none, writable⟩

/-- The object for a file. A missing file reads like an empty one. -/
def persistence (d : Directory) (filename : Bytes) : MMapPersistence where
  filename
  file := (d.files filename).getD []
  openable := d.writable filename

/-- A file is written. -/
def write (d : Directory) (filename file : Bytes) : Directory :=
  { d with files := Function.update d.files filename (some file) }

/-- `MMapPersistence::snapshot`. Opening the file creates it. -/
def snapshot (d : Directory) (filename : Bytes) (data : Data) (failure : Option Failure) :
    Directory × Option Bytes :=
  let r := (d.persistence filename).snapshot data failure
  (if d.writable filename then d.write filename r.1.file else d, r.2)

/-- `MMapPersistence::backup_file`. `copy_file` overwrites the target, but does not copy a file onto
itself; with `failsAt = some n` it fails after `n` bytes. It copies from file to file, without a
stream that would keep a buffer. `what` is the text of its error. -/
def backupFile (d : Directory) (filename backupFilename : Bytes) (failsAt : Option ℕ)
    (what : Bytes) : Directory × Option Bytes :=
  let failed := some (bytes "Failed to create backup: ".toList ++ what)
  match d.files filename with
  | none => (d, failed)
  | some file =>
    if backupFilename = filename ∨ d.writable backupFilename = false then (d, failed)
    else
      match failsAt with
      | none => (d.write backupFilename file, none)
      | some n => (d.write backupFilename (file.take n), failed)

/-- `MMapPersistence::file_exists`. -/
def fileExists (d : Directory) (filename : Bytes) : Bool := (d.files filename).isSome

/-- `MMapPersistence::get_file_size`: `0` when the size cannot be had. -/
def getFileSize (d : Directory) (filename : Bytes) : ℕ :=
  ((d.files filename).map List.length).getD 0

/-- A call that writes, on some object. -/
inductive Call where
  | snapshot (filename : Bytes) (data : Data) (failure : Option Failure)
  | backupFile (filename backupFilename : Bytes) (failsAt : Option ℕ) (what : Bytes)

/-- The directory after one call. -/
def step (d : Directory) : Call → Directory
  | .snapshot filename data failure => (d.snapshot filename data failure).1
  | .backupFile filename backupFilename failsAt what =>
    (d.backupFile filename backupFilename failsAt what).1

/-- The directory after a sequence of calls. -/
def run (d : Directory) (calls : List Call) : Directory := calls.foldl step d

/-! ### What a directory is for -/

/-- What a file stands for: a map, how often the buffer of its snapshot was written again, and
whether nothing has failed on the way. -/
structure Content where
  data : Data
  again : ℕ
  whole : Bool

/-- What a snapshot writes. -/
def Content.ofSnapshot (data : Data) : Option Failure → Content
  | none => ⟨data, 0, true⟩
  | some f => ⟨data, f.again.length, false⟩

/-- A directory of maps. -/
abbrev Shelf := Bytes → Option Content

/-- The directory of maps after one call. -/
def Shelf.step (writable : Bytes → Bool) (shelf : Shelf) : Call → Shelf
  | .snapshot filename data failure =>
    if writable filename then
      Function.update shelf filename (some (Content.ofSnapshot data failure))
    else shelf
  | .backupFile filename backupFilename failsAt _ =>
    match shelf filename with
    | none => shelf
    | some c =>
      if backupFilename = filename ∨ writable backupFilename = false then shelf
      else Function.update shelf backupFilename (some { c with whole := c.whole && failsAt.isNone })

/-- The directory of maps after a sequence of calls. -/
def shelf (writable : Bytes → Bool) (calls : List Call) : Shelf :=
  calls.foldl (Shelf.step writable) fun _ ↦ none

/-- The bytes of a file are those of what it stands for, or what failures have left of them. -/
inductive Stands : Option Bytes → Option Content → Prop where
  | missing : Stands none none
  | holds {file : Bytes} {c : Content} (remains : Remains c.again c.data file)
      (whole : c.whole = true → file = snapshotText c.data) : Stands (some file) (some c)

theorem Stands.update {files : Bytes → Option Bytes} {shelf : Shelf}
    (h : ∀ x, Stands (files x) (shelf x)) (y : Bytes) {file : Option Bytes} {c : Option Content}
    (hy : Stands file c) (x : Bytes) :
    Stands (Function.update files y file x) (Function.update shelf y c x) := by
  rcases eq_or_ne x y with rfl | hne
  · rwa [Function.update_self, Function.update_self]
  · rw [Function.update_of_ne hne, Function.update_of_ne hne]
    exact h x

theorem writable_step (d : Directory) (c : Call) : (d.step c).writable = d.writable := by
  cases c with
  | snapshot filename data failure =>
    show (if _ then _ else _ : Directory).writable = _
    split_ifs <;> rfl
  | backupFile filename backupFilename failsAt what =>
    show (d.backupFile filename backupFilename failsAt what).1.writable = _
    rw [backupFile]
    split
    · rfl
    · split_ifs
      · rfl
      · cases failsAt <;> rfl

/-- **One call.** -/
theorem Stands.step {d : Directory} {shelf : Shelf} (h : ∀ x, Stands (d.files x) (shelf x))
    (c : Call) (x : Bytes) : Stands ((d.step c).files x) (shelf.step d.writable c x) := by
  cases c with
  | snapshot filename data failure =>
    show Stands ((if d.writable filename then _ else d : Directory).files x)
      ((if d.writable filename then _ else shelf : Shelf) x)
    split_ifs with hwritable
    · refine Stands.update h filename ?_ x
      have hopen : (d.persistence filename).openable = true := hwritable
      cases failure with
      | none =>
        rw [MMapPersistence.snapshot.eq_def, if_pos hopen]
        exact Stands.holds (Remains.of_prefix (List.prefix_refl _)) fun _ ↦ rfl
      | some f =>
        exact Stands.holds (MMapPersistence.remains_snapshot _ data hopen f)
          fun hwhole ↦ absurd hwhole (by simp [Content.ofSnapshot])
    · exact h x
  | backupFile filename backupFilename failsAt what =>
    have hsource := h filename
    show Stands ((d.backupFile filename backupFilename failsAt what).1.files x) _
    rw [backupFile, Shelf.step]
    generalize d.files filename = source, shelf filename = content at hsource
    cases hsource with
    | missing => exact h x
    | @holds file c hremains hwhole =>
      simp only
      split_ifs
      · exact h x
      · cases failsAt with
        | none =>
          have hcopy : Stands (some file) (some { c with whole := c.whole && true }) :=
            Stands.holds hremains fun hall ↦ hwhole (by simpa using hall)
          exact Stands.update h backupFilename hcopy x
        | some n =>
          have hcopy : Stands (some (file.take n)) (some { c with whole := c.whole && false }) :=
            Stands.holds (hremains.isPrefix (List.take_prefix n _)) fun hall ↦ by simp at hall
          exact Stands.update h backupFilename hcopy x

/-- **A run** of calls. -/
theorem Stands.run {d : Directory} {shelf : Shelf} (h : ∀ x, Stands (d.files x) (shelf x))
    (calls : List Call) (x : Bytes) :
    Stands ((d.run calls).files x) (calls.foldl (Shelf.step d.writable) shelf x) := by
  induction calls generalizing d shelf with
  | nil => exact h x
  | cons c calls ih =>
    have hrest := ih (Stands.step h c)
    rw [writable_step] at hrest
    exact hrest

/-- **Every file stems from one snapshot.** After any snapshots and backups, of which any may fail
and leave part of a file behind: a file that stands for nothing is missing. Any other one exists and
is loaded as keys of the map it stands for, each with its value or a torn one, and besides at most
as many keys as the buffer of its snapshot was written again. Where it was not written again, the
file is loaded as a beginning of the map, and as the whole map if no failure was on the way from the
snapshot. -/
theorem load_run (writable : Bytes → Bool) (calls : List Call) (filename : Bytes) :
    let d := (empty writable).run calls
    match shelf writable calls filename with
    | none => d.fileExists filename = false ∧ d.getFileSize filename = 0 ∧
        (d.persistence filename).load = ∅
    | some c => d.fileExists filename = true ∧
        SalvagedBut c.again c.data (d.persistence filename).load ∧
        (c.again = 0 → d.getFileSize filename ≤ (snapshotText c.data).length ∧
          Salvaged c.data (d.persistence filename).load) ∧
        (c.whole = true → d.getFileSize filename = (snapshotText c.data).length ∧
          (d.persistence filename).load.entries.Perm c.data.entries) := by
  intro d
  have hstands : Stands (d.files filename) (shelf writable calls filename) :=
    Stands.run (fun _ ↦ Stands.missing) calls filename
  generalize hfile : d.files filename = source at hstands
  generalize shelf writable calls filename = content at hstands
  cases hstands with
  | missing =>
    refine ⟨by rw [fileExists, hfile]; rfl, by rw [getFileSize, hfile]; rfl, ?_⟩
    rw [persistence, hfile]
    rfl
  | @holds file c hremains hwhole =>
    have hload : (d.persistence filename).file = file := by rw [persistence, hfile]; rfl
    have hsize : d.getFileSize filename = file.length := by rw [getFileSize, hfile]; rfl
    refine ⟨by rw [fileExists, hfile]; rfl, ?_, fun hagain ↦ ?_, fun h ↦ ?_⟩
    · exact Remains.salvagedBut (hload ▸ hremains)
    · have hbegins : file <+: snapshotText c.data := (hagain ▸ hremains).prefix_of_zero
      exact ⟨hsize ▸ hbegins.length_le, MMapPersistence.salvaged_of_prefix (hload ▸ hbegins)⟩
    · exact ⟨by rw [hsize, hwhole h], MMapPersistence.load_snapshotText (hload.trans (hwhole h))⟩

end Directory

end DistCache
