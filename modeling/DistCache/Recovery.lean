import DistCache.Network.TCPServer
import DistCache.Storage.MMapPersistence
import DistCache.Storage.WALRoundTrip

/-!
# Recovery at the start of `main`

`main` sets every pair of the snapshot into an empty cache and then replays the whole log, although
the snapshot already reflects part of it. The sets read the clock, so recovered entries live on from
the time of the restart; which keys are in the cache, in which order and with which values does not
depend on any reading (`data_recover`).

That the replay repeats what the snapshot knows, against a cache that is full of it and in some
random order, does no harm: `recover_eq_live`. The replay goes through the states of the live run,
each followed by snapshot keys not seen again yet, which are the first to be evicted.
-/

namespace DistCache

/-- The loop body of the replay in `main`. Other operations are passed over. -/
def replayRecord (cache : SafeCache) (r : Record) (now : Time) : SafeCache :=
  if r.operation = setCmd then cache.set r.key r.value (-1) now
  else if r.operation = delCmd then cache.del r.key
  else cache

/-- The replay; `clock i` is the reading at the `i`-th record. -/
def replayRecords (clock : ℕ → Time) (cache : SafeCache) : List Record → SafeCache
  | [] => cache
  | r :: records =>
    replayRecords (fun i ↦ clock (i + 1)) (replayRecord cache r (clock 0)) records

/-- The loop over the loaded snapshot, in the order of its iteration. -/
def loadPersisted (clock : ℕ → Time) (cache : SafeCache) :
    List (Σ _ : Bytes, Bytes) → SafeCache
  | [] => cache
  | e :: entries =>
    loadPersisted (fun i ↦ clock (i + 1)) (cache.set e.1 e.2 (-1) (clock 0)) entries

/-- The recovery of `main`: the snapshot first, the log second. -/
def recover (capacity : ℕ) (persisted : Data) (wal : WAL) (loadClock replayClock : ℕ → Time) :
    SafeCache :=
  replayRecords replayClock (loadPersisted loadClock (SafeCache.new capacity) persisted.entries)
    wal.replay

/-! ### What recovery does to keys and values -/

/-- What replaying a record writes. -/
def Record.writes (r : Record) : List (Recency.Write Bytes Bytes) :=
  if r.operation = setCmd then [.put r.key r.value]
  else if r.operation = delCmd then [.erase r.key]
  else []

theorem data_replayRecord (cache : SafeCache) (r : Record) (now : Time) :
    (replayRecord cache r now).data = cache.data.applyAll cache.capacity r.writes ∧
      (replayRecord cache r now).capacity = cache.capacity := by
  unfold replayRecord Record.writes
  split_ifs with hset hdel
  · exact ⟨cache.data_set _ _ _ _, cache.capacity_set _ _ _ _⟩
  · exact ⟨cache.data_del _, cache.capacity_del _⟩
  · exact ⟨rfl, rfl⟩

theorem data_replayRecords (clock : ℕ → Time) (cache : SafeCache) (records : List Record) :
    (replayRecords clock cache records).data =
      cache.data.applyAll cache.capacity (records.flatMap Record.writes) := by
  induction records generalizing clock cache with
  | nil => rfl
  | cons r records ih =>
    obtain ⟨hdata, hcap⟩ := data_replayRecord cache r (clock 0)
    rw [replayRecords, ih, hdata, hcap, List.flatMap_cons, Recency.applyAll_append]

theorem data_loadPersisted (clock : ℕ → Time) (cache : SafeCache)
    (entries : List (Σ _ : Bytes, Bytes)) :
    (loadPersisted clock cache entries).data =
        cache.data.applyAll cache.capacity (entries.map fun e ↦ .put e.1 e.2) ∧
      (loadPersisted clock cache entries).capacity = cache.capacity := by
  induction entries generalizing clock cache with
  | nil => exact ⟨rfl, rfl⟩
  | cons e entries ih =>
    obtain ⟨hdata, hcap⟩ := ih (fun i ↦ clock (i + 1)) (cache.set e.1 e.2 (-1) (clock 0))
    rw [loadPersisted, hdata, hcap, SafeCache.data_set, SafeCache.capacity_set]
    exact ⟨rfl, rfl⟩

/-- **Recovery is a replay**: of the snapshot, and then of the log. -/
theorem data_recover (capacity : ℕ) (persisted : Data) (wal : WAL)
    (loadClock replayClock : ℕ → Time) :
    (recover capacity persisted wal loadClock replayClock).data =
      (Recency.applyAll capacity ∅ (persisted.entries.map fun e ↦ .put e.1 e.2)).applyAll capacity
        (wal.replay.flatMap Record.writes) := by
  obtain ⟨hdata, hcap⟩ :=
    data_loadPersisted loadClock (SafeCache.new capacity) persisted.entries
  rw [recover, data_replayRecords, hdata, hcap, SafeCache.data_new, SafeCache.capacity_new]

/-! ### Well-formed commands -/

/-- A non-empty key without blanks, and a value without newlines. -/
structure Command.WellFormed (c : Command) : Prop where
  key_ne : c.key ≠ []
  key : Blankless c.key
  value : newline ∉ c.value

instance (c : Command) : Decidable c.WellFormed :=
  decidable_of_iff (c.key ≠ [] ∧ Blankless c.key ∧ newline ∉ c.value)
    ⟨fun ⟨h₁, h₂, h₃⟩ ↦ ⟨h₁, h₂, h₃⟩, fun ⟨h₁, h₂, h₃⟩ ↦ ⟨h₁, h₂, h₃⟩⟩

theorem setCmd_blankless : setCmd ≠ [] ∧ Blankless setCmd := by decide

theorem delCmd_blankless : delCmd ≠ [] ∧ Blankless delCmd := by decide

theorem Command.WellFormed.records {c : Command} (h : c.WellFormed) :
    ∀ r ∈ c.records, r.WellFormed := by
  intro r hr
  cases c with
  | set key value =>
    obtain rfl := List.mem_singleton.1 hr
    exact ⟨setCmd_blankless.1, setCmd_blankless.2, h.key_ne, h.key, h.value⟩
  | get key => exact absurd hr List.not_mem_nil
  | del key =>
    obtain rfl := List.mem_singleton.1 hr
    exact ⟨delCmd_blankless.1, delCmd_blankless.2, h.key_ne, h.key, List.not_mem_nil⟩

/-- A record is replayed as the command that left it. -/
theorem Command.writes_records (c : Command) : c.records.flatMap Record.writes = c.writes := by
  cases c with
  | set key value => rfl
  | get key => rfl
  | del key => rfl

/-- The log of well-formed commands is replayed as what they wrote. -/
theorem writes_replayText {commands : List Command} (h : ∀ c ∈ commands, c.WellFormed) :
    (replayText (WAL.textOf (commands.flatMap Command.records))).flatMap Record.writes =
      commands.flatMap Command.writes := by
  have hrecords : ∀ r ∈ commands.flatMap Command.records, r.RoundTrips := fun r hr ↦ by
    obtain ⟨c, hc, hr⟩ := List.mem_flatMap.1 hr
    exact ((h c hc).records r hr).roundTrips
  rw [replayText_textOf_of_roundTrips hrecords, List.flatMap_assoc]
  exact congrArg (fun f ↦ commands.flatMap f) (funext Command.writes_records)

/-! ### The live run -/

namespace TCPServer

/-- What the live cache holds after a run of requests. -/
theorem data_run_fresh (capacity : ℕ) (filename : Bytes) (l : List Request) :
    ((fresh capacity filename).run (l.map .request)).cache.data =
      Recency.applyAll capacity ∅ ((l.map Request.command).flatMap Command.writes) := by
  have hcalls : (l.map Event.request).map Event.call = l.map Request.call := by
    rw [List.map_map]
    rfl
  rw [run_fresh, hcalls, data_run_requests, SafeCache.data_new, SafeCache.capacity_new,
    List.flatMap_map]

/-- What the log of a run of requests says. -/
theorem replay_run_fresh (capacity : ℕ) (filename : Bytes) (l : List Request) :
    ((fresh capacity filename).run (l.map .request)).wal.replay =
      replayText (WAL.textOf ((l.map Request.command).flatMap Command.records)) := by
  rw [run_fresh, WAL.replay, List.flatMap_map, List.flatMap_map]
  rfl

end TCPServer

/-- **Recovery equals the live run.** After the requests `L₁`, whose contents the snapshot holds,
and then `L₂`, recovering from the snapshot, iterated in any order, and the whole log gives the keys
of the live cache, in the order of the live `lru_`, with the live values. -/
theorem recover_eq_live (capacity : ℕ) (filename : Bytes) (L₁ L₂ : List Request) (persisted : Data)
    (loadClock replayClock : ℕ → Time) (hwf : ∀ r ∈ L₁ ++ L₂, r.command.WellFormed)
    (hsnapshot : ∀ k, persisted.lookup k =
      ((TCPServer.fresh capacity filename).run (L₁.map .request)).cache.value? k) :
    let live := (TCPServer.fresh capacity filename).run ((L₁ ++ L₂).map .request)
    let recovered := recover capacity persisted live.wal loadClock replayClock
    recovered.keys = live.cache.keys ∧ ∀ k, recovered.value? k = live.cache.value? k := by
  intro live recovered
  have hlog : live.wal.replay.flatMap Record.writes =
      (L₁.map Request.command).flatMap Command.writes ++
        (L₂.map Request.command).flatMap Command.writes := by
    rw [TCPServer.replay_run_fresh, writes_replayText, List.map_append, List.flatMap_append]
    intro c hc
    obtain ⟨r, hr, rfl⟩ := List.mem_map.1 hc
    exact hwf r hr
  have hlive : live.cache.data = Recency.applyAll capacity ∅
      ((L₁.map Request.command).flatMap Command.writes ++
        (L₂.map Request.command).flatMap Command.writes) := by
    rw [TCPServer.data_run_fresh, List.map_append, List.flatMap_append]
  -- every key the recovered cache starts with is one of the live cache after `L₁`
  have hstart : ∀ k ∈ Recency.applyAll capacity ∅ (persisted.entries.map fun e ↦ .put e.1 e.2),
      k ∈ Recency.applyAll capacity ∅ ((L₁.map Request.command).flatMap Command.writes) := by
    intro k hk
    rcases Recency.mem_applyAll hk with hk | ⟨w, hw, rfl⟩
    · exact absurd hk (AList.notMem_empty k)
    · obtain ⟨e, he, rfl⟩ := List.mem_map.1 hw
      rw [← TCPServer.data_run_fresh capacity filename, ← AList.lookup_isSome,
        SafeCache.lookup_data]
      show (SafeCache.value? _ e.1).isSome = true
      rw [← hsnapshot e.1, AList.mem_lookup_iff.2 he]
      rfl
  have hdata : recovered.data = live.cache.data := by
    rw [data_recover, hlog, hlive, Recency.applyAll_append, Recency.applyAll_append,
      Recency.applyAll_of_subset hstart]
  refine ⟨?_, fun k ↦ ?_⟩
  · rw [← SafeCache.keys_data, ← SafeCache.keys_data, hdata]
  · rw [← SafeCache.lookup_data, ← SafeCache.lookup_data, hdata]

/-- With capacity two, a snapshot of two keys, and a log that deletes one of them and sets a
third. -/
theorem recover_eq_live_two :
    let L₁ : List Request := [⟨.set [97] [0], 0, 0⟩, ⟨.set [98] [1], 1, 1⟩]
    let L₂ : List Request := [⟨.get [97], 2, 2⟩, ⟨.del [98], 3, 3⟩, ⟨.set [99] [2], 4, 4⟩]
    let persisted := ((TCPServer.fresh 2 []).run (L₁.map .request)).cache.data
    let live := (TCPServer.fresh 2 []).run ((L₁ ++ L₂).map .request)
    let recovered := recover 2 persisted live.wal (fun _ ↦ 9) (fun _ ↦ 9)
    recovered.keys = live.cache.keys ∧ ∀ k, recovered.value? k = live.cache.value? k :=
  recover_eq_live 2 [] _ _ _ _ _ (by decide) fun k ↦ SafeCache.lookup_data _ k

end DistCache
