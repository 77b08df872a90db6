import DistCache.Lib.Machine
import DistCache.Network.Concurrency

/-!
# What a reader may know before the log does

The log is called write-ahead, and `process_command` writes behind: a `SET` is visible to every
client from its step at the cache on, and is in the log only after its step at the log. Between the
two a `GET` may answer with a value that a crash loses (`reads_unlogged`).

Nothing else goes wrong. In every run the value a key holds is that of a `SET` which is logged or
still in flight (`Shows`), however the clients interleave and whatever is evicted. So a `GET` that
takes its turn when no `SET` of that key and value is in flight answers with a logged value
(`readsLogged_of_settled`).
-/

namespace DistCache

namespace System

variable {ι : Type*} [DecidableEq ι]

/-- The key and the value, when the turn is that of a `GET` which hits. -/
def reads (s : System ι) (t : Turn ι) : Option (Bytes × Bytes) :=
  match s.move t.client with
  | .enter (.get key) => (s.cache.get key t.now t.access).2.map fun value ↦ (key, value)
  | _ => none

/-- When the turn is that of a `GET`, no `SET` of its key to the value that the cache has for it,
unexpired, waits for the log. -/
def Settled (s : System ι) (t : Turn ι) : Prop :=
  match s.move t.client with
  | .enter (.get key) =>
    ∀ e ∈ s.cache.view.live key t.now, Command.set key e.value ∉ s.inFlight.map Prod.snd
  | _ => True

instance (s : System ι) (t : Turn ι) : Decidable (Settled s t) := by
  unfold Settled
  split <;> infer_instance

/-- A condition on every turn of a schedule, in the state before it. -/
def EachTurn (P : System ι → Turn ι → Prop) (s : System ι) (schedule : List (Turn ι)) : Prop :=
  Machine.Along step P s schedule

instance (P : System ι → Turn ι → Prop) [∀ s t, Decidable (P s t)] (s : System ι)
    (schedule : List (Turn ι)) : Decidable (EachTurn P s schedule) :=
  Machine.decidableAlong step P s schedule

/-- What the turn reads is in the log. -/
def ReadsLogged (s : System ι) (t : Turn ι) : Prop :=
  ∀ k v, s.reads t = some (k, v) → ⟨setCmd, k, v⟩ ∈ s.wal.replay

/-- The value of every key is that of a `SET` that is logged or in flight. -/
structure Shows (s : System ι) (logged : List Command) : Prop extends Logs s logged where
  value : ∀ k v, s.cache.value? k = some v →
    .set k v ∈ logged ∨ .set k v ∈ s.inFlight.map Prod.snd

omit [DecidableEq ι] in
theorem shows_start (capacity : ℕ) (filename : Bytes) {todo : ι → List Command}
    (h : ∀ i, ∀ c ∈ todo i, c.WellFormed) : Shows (start capacity filename todo) [] where
  toLogs := logs_start capacity filename h
  value := fun k v hv ↦ by
    rw [← SafeCache.lookup_data, start, SafeCache.data_new] at hv
    simp at hv

variable {s : System ι} {logged : List Command}

/-- **A step at the cache** shows what is in flight from then on. -/
theorem Shows.enter (h : Shows s logged) {t : Turn ι} {c : Command}
    (hmove : s.move t.client = .enter c) : Shows (s.step t) logged := by
  refine ⟨h.toLogs.enter hmove, fun k v hv ↦ ?_⟩
  rw [step_of_enter hmove] at hv ⊢
  rw [← SafeCache.lookup_data, TCPServer.data_step_command] at hv
  rcases Recency.lookup_applyAll_eq_some hv with hput | hold
  · right
    obtain rfl : c = .set k v := by
      cases c with
      | set key value => simpa [Command.writes, eq_comm] using hput
      | get key => exact absurd hput List.not_mem_nil
      | del key => simp [Command.writes] at hput
    simp [Command.records]
  · rw [SafeCache.lookup_data] at hold
    refine (h.value k v hold).imp_right fun hmem ↦ ?_
    rcases eq_or_ne c.records [] with hnil | hne
    · simpa [hnil] using hmem
    · rw [if_neg (by simpa using hne), List.map_append]
      exact List.mem_append_left _ hmem

/-- **A step at the log** moves a command from one side to the other. -/
theorem Shows.log (h : Shows s logged) {t : Turn ι} {c : Command}
    (hmove : s.move t.client = .log c) : Shows (s.step t) (logged ++ [c]) := by
  refine ⟨h.toLogs.log hmove, fun k v hv ↦ ?_⟩
  obtain ⟨earlier, later, hsplit, -, herase⟩ := move_eq_log hmove
  rw [step_of_log hmove] at hv ⊢
  rcases h.value k v hv with hlogged | hflight
  · exact Or.inl (List.mem_append_left _ hlogged)
  · rw [herase]
    rw [hsplit] at hflight
    simp only [List.map_append, List.map_cons, List.mem_append, List.mem_cons] at hflight ⊢
    tauto

/-- **One step.** -/
theorem Shows.step (h : Shows s logged) (t : Turn ι) : ∃ logged', Shows (s.step t) logged' := by
  rcases hmove : s.move t.client with - | c | c
  · refine ⟨logged, ?_⟩
    rw [System.step, hmove]
    exact h
  · exact ⟨logged, h.enter hmove⟩
  · exact ⟨logged ++ [c], h.log hmove⟩

omit [DecidableEq ι] in
/-- What is logged is replayed. -/
theorem Logs.mem_replay (h : Logs s logged) {k v : Bytes} (hmem : .set k v ∈ logged) :
    ⟨setCmd, k, v⟩ ∈ s.wal.replay := by
  have hread : s.wal.replay = logged.flatMap Command.records := by
    rw [WAL.replay, h.file]
    refine replayText_textOf_of_roundTrips fun r hr ↦ ?_
    obtain ⟨c, hc, hr⟩ := List.mem_flatMap.1 hr
    exact ((h.logged_wellFormed c hc).records r hr).roundTrips
  rw [hread]
  exact List.mem_flatMap.2 ⟨_, hmem, List.mem_singleton_self _⟩

/-- **A reading turn**, while things are settled. -/
theorem Shows.readsLogged (h : Shows s logged) {t : Turn ι} (hsettled : Settled s t) :
    ReadsLogged s t := by
  intro k v hread
  rcases hmove : s.move t.client with - | c | c
  · simp [reads, hmove] at hread
  · cases c with
    | set key value => simp [reads, hmove] at hread
    | get key =>
      simp only [reads, Settled, hmove, SafeCache.get_snd] at hread hsettled
      obtain ⟨v', hv', hkv⟩ := Option.map_eq_some_iff.1 hread
      obtain ⟨e, he, rfl⟩ := Option.map_eq_some_iff.1 hv'
      obtain ⟨rfl, rfl⟩ := Prod.mk.inj hkv
      -- the `SET` of the value is logged, since it is not in flight
      have hvalue : s.cache.value? key = some e.value := by
        rw [SafeCache.value?_eq, LRUCache.Contents.lookup_of_live he, Option.map_some]
      exact h.toLogs.mem_replay ((h.value key e.value hvalue).resolve_right (hsettled e he))
    | del key => simp [reads, hmove] at hread
  · simp [reads, hmove] at hread

/-- **Reads are logged**, in every run in which no `GET` finds a value whose `SET` waits for the
log. -/
theorem readsLogged_of_settled (capacity : ℕ) (filename : Bytes) (todo : ι → List Command)
    (schedule : List (Turn ι)) (hwf : ∀ i, ∀ c ∈ todo i, c.WellFormed)
    (hsettled : EachTurn Settled (start capacity filename todo) schedule) :
    EachTurn ReadsLogged (start capacity filename todo) schedule := by
  -- the invariant: what is shown is logged or in flight
  refine Machine.Along.of_invariant (I := fun s ↦ ∃ logged, Shows s logged) ?_ ?_
    ⟨[], shows_start capacity filename hwf⟩ hsettled
  · rintro s t ⟨logged, h⟩ -
    exact h.step t
  · rintro s t ⟨logged, h⟩ ht
    exact h.readsLogged ht

/-- One client sets a key; the other reads it after the log has the record. -/
theorem readsLogged_of_settled_two :
    EachTurn ReadsLogged
      (start 4 [] fun i ↦ if i then [.set [107] [1]] else [.get [107], .get [107]])
      [⟨true, 0, 0⟩, ⟨true, 1, 1⟩, ⟨false, 2, 2⟩, ⟨false, 3, 3⟩] :=
  readsLogged_of_settled 4 [] _ _ (by decide) (by decide)

/-- **A lost read.** The second client reads the value between the two steps of the first one, and
the log is still empty. -/
theorem reads_unlogged :
    let todo : Bool → List Command := fun i ↦ if i then [.set [107] [1]] else [.get [107]]
    let s := (start 4 [] todo).run [⟨true, 0, 0⟩]
    (∀ i, ∀ c ∈ todo i, c.WellFormed) ∧ s.reads ⟨false, 1, 1⟩ = some ([107], [1]) ∧
      s.wal.replay = [] ∧
      ¬ EachTurn ReadsLogged (start 4 [] todo) [⟨true, 0, 0⟩, ⟨false, 1, 1⟩] := by
  refine ⟨by decide, by decide, by decide, fun h ↦ ?_⟩
  exact absurd (h.2.1 [107] [1] (by decide)) (by decide)

end System

end DistCache
