import DistCache.Network.TCPServer
import DistCache.Storage.WALStream

/-!
# `TCPServer` on a log that may fail

The same `process_command`, on a log whose file operations may fail (`WALStream`). The cache is
changed before `append` is called, so what the error message of a rejected command does not say is
that the command has been carried out in memory: `rejected_unchanged_iff` lists the few cases in
which nothing has changed.

While nothing fails the server is that of `TCPServer` (`toTCPServer_processCommand`).
-/

namespace DistCache

/-- The components `process_command` works on. -/
structure StreamServer where
  cache : SafeCache
  wal : WALStream

namespace StreamServer

open LRUCache (lifetime)

/-- The `wal_.append` of a write and the `catch` around it. -/
def logWrite (s : StreamServer) (cmd key value : Bytes) (f : Faults) : StreamServer × Reply :=
  match s.wal.append cmd key value f with
  | .ok wal => ({ s with wal }, ⟨bytes ['O', 'K'], true⟩)
  | .error what => (s, ⟨bytes ['E', 'R', 'R', ' '] ++ what, false⟩)

/-- `TCPServer::process_command`. -/
def processCommand (s : StreamServer) (cmd key value : Bytes) (now access : Time) (f : Faults) :
    StreamServer × Reply :=
  if cmd = setCmd then
    logWrite { s with cache := s.cache.set key value (-1) now } setCmd key value f
  else if cmd = getCmd then
    let r := s.cache.get key now access
    ({ s with cache := r.1 }, ⟨r.2.getD (bytes ['(', 'n', 'i', 'l', ')']), true⟩)
  else if cmd = delCmd then
    logWrite { s with cache := s.cache.del key } delCmd key [] f
  else (s, ⟨bytes "ERR unknown command".toList, false⟩)

/-! ### The commands -/

section Commands

variable (s : StreamServer) (key value : Bytes) (now access : Time) (f : Faults)

theorem processCommand_set : s.processCommand setCmd key value now access f =
    logWrite { s with cache := s.cache.set key value (-1) now } setCmd key value f := if_pos rfl

theorem processCommand_get : s.processCommand getCmd key value now access f =
    ({ s with cache := (s.cache.get key now access).1 },
      ⟨(s.cache.get key now access).2.getD (bytes ['(', 'n', 'i', 'l', ')']), true⟩) := by
  rw [processCommand, if_neg (by decide), if_pos rfl]

theorem processCommand_del : s.processCommand delCmd key value now access f =
    logWrite { s with cache := s.cache.del key } delCmd key [] f := by
  rw [processCommand, if_neg (by decide), if_neg (by decide), if_pos rfl]

theorem processCommand_unknown {cmd : Bytes} (hset : cmd ≠ setCmd) (hget : cmd ≠ getCmd)
    (hdel : cmd ≠ delCmd) : s.processCommand cmd key value now access f =
      (s, ⟨bytes "ERR unknown command".toList, false⟩) := by
  rw [processCommand, if_neg hset, if_neg hget, if_neg hdel]

end Commands

/-! ### Logging -/

/-- A write to a log that can be written. -/
theorem logWrite_of_writable {s : StreamServer} {f : Faults} (h : s.wal.Writable f)
    (cmd key value : Bytes) : ∃ wal, s.wal.append cmd key value f = .ok wal ∧
      s.logWrite cmd key value f = ({ s with wal }, ⟨bytes ['O', 'K'], true⟩) := by
  have happend := s.wal.append_eq cmd key value f
  rw [if_pos h] at happend
  exact ⟨_, happend, by rw [logWrite, happend]⟩

/-- A write to a log that cannot. -/
theorem logWrite_of_not_writable {s : StreamServer} {f : Faults} (h : ¬ s.wal.Writable f)
    (cmd key value : Bytes) : ∃ what, s.logWrite cmd key value f =
      (s, ⟨bytes ['E', 'R', 'R', ' '] ++ what, false⟩) := by
  have happend := s.wal.append_eq cmd key value f
  rw [if_neg h] at happend
  exact ⟨_, by rw [logWrite, happend]⟩

/-! ### Without failures -/

/-- The server without the stream of its log. -/
def toTCPServer (s : StreamServer) (openable : Bool) : TCPServer where
  cache := s.cache
  wal := s.wal.toWAL openable

/-- **`process_command`** is that of `TCPServer` when nothing fails. -/
theorem toTCPServer_processCommand {s : StreamServer} (hidle : s.wal.Idle) (hgood : s.wal.Good)
    {f : Faults} (hfails : ∀ i, f.fails i = none) (cmd key value : Bytes) (now access : Time) :
    ((s.processCommand cmd key value now access f).1.toTCPServer f.opens,
        (s.processCommand cmd key value now access f).2) =
      (s.toTCPServer f.opens).processCommand cmd key value now access := by
  have hlog : ∀ (cache : SafeCache) (cmd key value : Bytes),
      ((logWrite ⟨cache, s.wal⟩ cmd key value f).1.toTCPServer f.opens,
          (logWrite ⟨cache, s.wal⟩ cmd key value f).2) =
        TCPServer.logWrite ⟨cache, s.wal.toWAL f.opens⟩ cmd key value := by
    intro cache cmd key value
    have happend := WALStream.toWAL_append hidle hgood (r := ⟨cmd, key, value⟩) (f := f)
      fun i _ ↦ hfails i
    simp only at happend
    rw [logWrite, TCPServer.logWrite, ← happend]
    cases s.wal.append cmd key value f <;> rfl
  rw [processCommand, TCPServer.processCommand]
  split_ifs
  · exact hlog _ _ _ _
  · rfl
  · exact hlog _ _ _ _
  · rfl

/-! ### What a rejected command leaves behind -/

/-- Carrying out the command in memory changes neither an entry nor the order of the cache: a `SET`
finds the very entry it makes in front, or no room for any; a `DEL` does not find its key. -/
def Ineffective (cache : SafeCache) (cmd key value : Bytes) (now : Time) : Prop :=
  (cmd = setCmd → cache.capacity = 0 ∨
      cache.view.entries.head? = some ⟨key, value, now + lifetime (-1), now⟩) ∧
    (cmd = delCmd → key ∉ cache.view)

/-- A rejected write leaves the log as it was; the cache is the one it was called with. -/
theorem unchanged_iff_of_eq_logWrite {s : StreamServer} {cache : SafeCache}
    {cmd key value : Bytes} {f : Faults} {r : StreamServer × Reply}
    (hr : r = logWrite { s with cache } cmd key value f) :
    (r.2.success = false → r.1.cache.view = s.cache.view ∧ r.1.wal = s.wal) ↔
      s.wal.Writable f ∨ cache.view = s.cache.view := by
  by_cases hwritable : s.wal.Writable f
  · obtain ⟨wal, -, heq⟩ :=
      logWrite_of_writable (s := { s with cache }) hwritable cmd key value
    rw [hr, heq]
    exact iff_of_true (fun h ↦ absurd h (by simp)) (Or.inl hwritable)
  · obtain ⟨what, heq⟩ :=
      logWrite_of_not_writable (s := { s with cache }) hwritable cmd key value
    rw [hr, heq]
    simp [hwritable]

theorem view_set_eq_self_iff (cache : SafeCache) (key value : Bytes) (ttl : ℤ) (now : Time) :
    (cache.set key value ttl now).view = cache.view ↔ cache.capacity = 0 ∨
      cache.view.entries.head? = some ⟨key, value, now + lifetime ttl, now⟩ := by
  rw [SafeCache.view_set]
  exact Recency.put_eq_self_iff cache.length_view_le

theorem view_del_eq_self_iff (cache : SafeCache) (key : Bytes) :
    (cache.del key).view = cache.view ↔ key ∉ cache.view := by
  rw [SafeCache.view_del]
  exact Recency.erase_eq_self_iff

/-- **A rejected command** leaves the cache and the log as they were exactly if the log could be
written, so that the command was not rejected, or the command is ineffective. -/
theorem rejected_unchanged_iff (s : StreamServer) (cmd key value : Bytes) (now access : Time)
    (f : Faults) :
    let r := s.processCommand cmd key value now access f
    (r.2.success = false → r.1.cache.view = s.cache.view ∧ r.1.wal = s.wal) ↔
      s.wal.Writable f ∨ Ineffective s.cache cmd key value now := by
  intro r
  have hsetdel : setCmd ≠ delCmd := by decide
  rcases eq_or_ne cmd setCmd with rfl | hset
  · rw [unchanged_iff_of_eq_logWrite (processCommand_set s key value now access f),
      view_set_eq_self_iff]
    simp [Ineffective, hsetdel]
  rcases eq_or_ne cmd delCmd with rfl | hdel
  · rw [unchanged_iff_of_eq_logWrite (processCommand_del s key value now access f),
      view_del_eq_self_iff]
    simp [Ineffective, hsetdel.symm]
  -- a read is not rejected, and an unknown command does nothing
  refine iff_of_true (fun hrejected ↦ ?_) (Or.inr ⟨fun h ↦ absurd h hset, fun h ↦ absurd h hdel⟩)
  rcases eq_or_ne cmd getCmd with rfl | hget
  · have hr : r = _ := processCommand_get s key value now access f
    rw [hr] at hrejected
    exact absurd hrejected (by simp)
  · have hr : r = _ := processCommand_unknown s key value now access f hset hget hdel
    rw [hr]
    exact ⟨rfl, rfl⟩

/-- **Rejected, and done.** The log has been left closed and cannot be opened again: the `SET` is
answered with an error, and the cache has the key. -/
theorem rejected_changed :
    let f : Faults := ⟨false, fun _ ↦ none⟩
    let s : StreamServer := ⟨SafeCache.new 2, WALStream.truncate ⟨[119], ⟨[], [], false⟩, true⟩ f⟩
    let r := s.processCommand setCmd [107] [1] 0 0 f
    r.2.success = false ∧ r.1.wal.isOpen = false ∧ s.cache.value? [107] = none ∧
      r.1.cache.value? [107] = some [1] ∧ r.1.cache.view ≠ s.cache.view := by
  intro f s r
  have hvalue : s.cache.value? [107] = none ∧ r.1.cache.value? [107] = some [1] := by decide
  refine ⟨by decide, by decide, hvalue.1, hvalue.2, fun heq ↦ ?_⟩
  rw [SafeCache.value?_eq, SafeCache.value?_eq, heq, ← SafeCache.value?_eq, hvalue.1] at hvalue
  exact absurd hvalue.2 (by simp)

end StreamServer

end DistCache
