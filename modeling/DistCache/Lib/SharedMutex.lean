import Mathlib.Data.Finset.Basic

/-!
# A lock for readers and writers

A lock that any number of readers may hold at a time, or one writer alone. Acquiring it gives
nothing as long as it has to be waited for. That no reader holds it beside a writer is part of what
a lock is (`SharedMutex.alone`), so no operation can break it.
-/

/-- Who holds the lock, as readers or as the writer. -/
structure SharedMutex (ι : Type*) where
  readers : Finset ι
  writer : Option ι
  alone : writer ≠ none → readers = ∅

namespace SharedMutex

variable {ι : Type*}

/-- Nobody holds the lock. -/
def free : SharedMutex ι := ⟨∅, none, fun _ ↦ rfl⟩

variable [DecidableEq ι] (m : SharedMutex ι) (i : ι)

/-- Acquire the lock as a reader. -/
def lockShared : Option (SharedMutex ι) :=
  if h : m.writer = none then some ⟨insert i m.readers, m.writer, fun hne ↦ absurd h hne⟩ else none

/-- Release the lock as a reader. -/
def unlockShared : SharedMutex ι :=
  ⟨m.readers.erase i, m.writer, fun h ↦ by rw [m.alone h, Finset.erase_empty]⟩

/-- Acquire the lock as the writer. -/
def lock : Option (SharedMutex ι) :=
  if m.writer = none ∧ m.readers = ∅ then some ⟨∅, some i, fun _ ↦ rfl⟩ else none

/-- Release the lock as the writer. -/
def unlock : SharedMutex ι := ⟨m.readers, none, fun h ↦ absurd rfl h⟩

variable {m i} {m' : SharedMutex ι}

omit [DecidableEq ι] in
theorem writer_eq_none_of_mem (h : i ∈ m.readers) : m.writer = none := by
  by_contra hne
  rw [m.alone hne] at h
  exact absurd h (Finset.notMem_empty i)

theorem lockShared_isSome : (m.lockShared i).isSome = true ↔ m.writer = none := by
  rw [lockShared]
  split_ifs with h <;> simp [h]

theorem lock_isSome : (m.lock i).isSome = true ↔ m.writer = none ∧ m.readers = ∅ := by
  rw [lock]
  split_ifs with h <;> simp [h]

theorem lockShared_eq_some (h : m.lockShared i = some m') :
    m'.readers = insert i m.readers ∧ m'.writer = none ∧ m.writer = none := by
  rw [lockShared] at h
  split_ifs at h with hnone
  obtain rfl := Option.some.inj h
  exact ⟨rfl, hnone, hnone⟩

theorem lock_eq_some (h : m.lock i = some m') :
    m'.readers = ∅ ∧ m'.writer = some i ∧ m.readers = ∅ ∧ m.writer = none := by
  rw [lock] at h
  split_ifs at h with hfree
  obtain rfl := Option.some.inj h
  exact ⟨rfl, rfl, hfree.2, hfree.1⟩

@[simp] theorem readers_unlockShared : (m.unlockShared i).readers = m.readers.erase i := rfl

omit [DecidableEq ι] in
@[simp] theorem writer_unlock : m.unlock.writer = none := rfl

end SharedMutex
