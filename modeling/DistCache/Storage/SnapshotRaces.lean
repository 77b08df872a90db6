import DistCache.Lib.SharedFile
import DistCache.Storage.MMapPersistence

/-!
# Overlapping snapshots

`async_snapshot` copies the map and calls `snapshot` on a detached thread, and `MMapPersistence` has
no lock. So any number of calls on one object may be at work on one file at a time, each through a
stream of its own: it opens the file, which truncates it, and then its buffer is written out, piece
by piece, at the offset the stream has reached. That is a `SharedFile` of the texts of the
snapshots; a gap in a file reads as zero bytes.

The file ends up mixed when a call writes over or behind what a later one has written. As long as
none does, what is loaded at the end is the map of the call that opened the file last
(`load_of_harmless`), in particular when the calls do not overlap (`load_of_exclusive`).
-/

namespace DistCache

open SharedFile

namespace MMapPersistence

variable {ι : Type*}

/-- The texts of the calls. -/
def texts (maps : ι → Data) (i : ι) : Bytes := snapshotText (maps i)

variable [DecidableEq ι]

/-- After a run of calls of `snapshot` and `async_snapshot` with the maps `maps`, step by step. A
call that cannot open the file throws and does nothing. -/
def race (p : MMapPersistence) (maps : ι → Data) (moves : List (Move ι)) : SharedFile ι UInt8 :=
  if p.openable then moves.foldl (step 0 (texts maps)) (untouched p.file) else untouched p.file

/-- What is loaded afterwards. -/
def loadAfterRace (p : MMapPersistence) (maps : ι → Data) (moves : List (Move ι)) : Data :=
  load { p with file := (p.race maps moves).file }

variable {p : MMapPersistence} {maps : ι → Data} {moves : List (Move ι)}

/-- Calls that finish have opened the file. -/
theorem openable_of_finished (call : ι) (hfin : Finished (texts maps) (p.race maps moves)) :
    p.openable = true := by
  by_contra hopen
  rw [race, if_neg hopen] at hfin
  exact absurd (hfin call) (by simp [untouched])

theorem file_race_of_harmless (call : ι)
    (h : Machine.Along (step 0 (texts maps)) (Harmless (texts maps)) (untouched p.file) moves)
    (hfin : Finished (texts maps) (p.race maps moves)) :
    ∃ i, (p.race maps moves).opener = some i ∧
      (p.race maps moves).file = snapshotText (maps i) := by
  have hopen := openable_of_finished call hfin
  rw [race, if_pos hopen] at hfin ⊢
  exact file_eq_of_harmless h call hfin

/-- **A call on its own** is `snapshot`, whatever pieces its text is cut into. -/
theorem file_race_eq_snapshot {data : Data} {moves : List (Move Unit)}
    (hfin : Finished (texts fun _ ↦ data) (p.race (fun _ ↦ data) moves)) :
    (p.race (fun _ ↦ data) moves).file = (p.snapshot data none).1.file := by
  obtain ⟨-, -, hfile⟩ := file_race_of_harmless () (harmless_of_subsingleton _ moves) hfin
  rw [hfile, snapshot, if_pos (openable_of_finished () hfin)]

/-- Calls that wait for each other. -/
theorem load_of_exclusive (call : ι)
    (h : Machine.Along (step 0 (texts maps)) (Exclusive (texts maps)) (untouched p.file) moves)
    (hfin : Finished (texts maps) (p.race maps moves)) :
    ∃ i, (p.race maps moves).opener = some i ∧
      (p.loadAfterRace maps moves).entries.Perm (maps i).entries := by
  obtain ⟨i, hopener, hfile⟩ := file_race_of_harmless call (harmless_of_exclusive h) hfin
  exact ⟨i, hopener, load_snapshotText hfile⟩

/-- **Overlapping calls without harm.** If every step of a run of calls on one object, in whatever
order, is harmless, and all of them have finished, what is loaded is the map of the call that opened
the file last. -/
theorem load_of_harmless (p : MMapPersistence) (maps : ι → Data) (moves : List (Move ι)) (call : ι)
    (h : Machine.Along (step 0 (texts maps)) (Harmless (texts maps)) (untouched p.file) moves)
    (hfin : Finished (texts maps) (p.race maps moves)) :
    ∃ i, (p.race maps moves).opener = some i ∧
      (p.loadAfterRace maps moves).entries.Perm (maps i).entries := by
  obtain ⟨i, hopener, hfile⟩ := file_race_of_harmless call h hfin
  exact ⟨i, hopener, load_snapshotText hfile⟩

/-- The second call opens the file when the first one has written one of its two lines. The other
one lands where the second call is going to write the same. -/
theorem load_of_harmless_two :
    let maps : Bool → Data := fun call ↦ ((∅ : Data).insert [99] [100]).insert
      (if call then [101] else [97]) [98]
    let moves : List (Move Bool) := [.openTruncate false, .write false 4, .openTruncate true,
      .write false 4, .write true 8]
    ∃ i, (race ⟨[], [1, 2, 3], true⟩ maps moves).opener = some i ∧
      (loadAfterRace ⟨[], [1, 2, 3], true⟩ maps moves).entries.Perm (maps i).entries :=
  load_of_harmless ⟨[], [1, 2, 3], true⟩ _ _ false (by decide) fun i ↦ by cases i <;> rfl

/-- **Two calls mixed.** Both open the file before either of them writes. The longer text is written
first, and the shorter one over its front. -/
theorem load_ne_of_overlapping :
    let maps : Bool → Data := fun call ↦
      if call then (∅ : Data).insert [101] [102]
      else ((∅ : Data).insert [99] [100]).insert [97] [98]
    let moves : List (Move Bool) := [.openTruncate false, .openTruncate true, .write false 8,
      .write true 4]
    Finished (texts maps) (race ⟨[], [], true⟩ maps moves) ∧
      (loadAfterRace ⟨[], [], true⟩ maps moves).entries = [⟨[99], [100]⟩, ⟨[101], [102]⟩] ∧
      ¬ ∃ i, (loadAfterRace ⟨[], [], true⟩ maps moves).entries.Perm (maps i).entries :=
  ⟨fun i ↦ by cases i <;> rfl, by decide, by decide⟩

end MMapPersistence

end DistCache
