import DistCache.Network.Serial

/-!
# Keys with one writer

What a restart finds for a key is decided by the order in which the writes to it were logged, and
what the clients found, by the order of their steps at the cache. The two orders agree on the writes
of one client. So a key that a single client writes is recovered with the value it had, whatever the
clients do to other keys and wherever the run is cut off, provided none of the writes to it is in
flight (`recover_value_of_oneWriter`).

The condition is on the commands alone. The one that `recover_eq_of_inOrder` puts on the schedule
follows from it, but says less: there a race on one key spoils the conclusion for all.
-/

namespace DistCache

open Recency (overwrite Roomy)

theorem Command.isWrite_of_mem_writes {c : Command} {w : Recency.Write Bytes Bytes}
    (h : w ∈ c.writes) : c.isWrite = true := by
  cases c with
  | set key value => rfl
  | get key => exact absurd h List.not_mem_nil
  | del key => rfl

namespace System

variable {ι : Type*} [DecidableEq ι]

/-- What commands of clients write. -/
def writesOf (l : List (ι × Command)) : List (Recency.Write Bytes Bytes) :=
  (l.map Prod.snd).flatMap Command.writes

omit [DecidableEq ι] in
theorem writesOf_cons (p : ι × Command) (l : List (ι × Command)) :
    writesOf (p :: l) = p.2.writes ++ writesOf l := by
  rw [writesOf, List.map_cons, List.flatMap_cons, writesOf]

/-- A key is left by its writer alone. -/
theorem overwrite_writesOf {k : Bytes} {i : ι} {l : List (ι × Command)}
    (h : ∀ p ∈ l, p.1 ≠ i → p.2.isWrite = true → p.2.key ≠ k) (old : Option Bytes) :
    overwrite k old (writesOf l) = overwrite k old ((ofClient i l).flatMap Command.writes) := by
  induction l generalizing old with
  | nil => rfl
  | cons p l ih =>
    rw [List.forall_mem_cons] at h
    rw [writesOf_cons, Recency.overwrite_append, ih h.2]
    rcases eq_or_ne p.1 i with hp | hp
    · have hcons : ofClient i (p :: l) = p.2 :: ofClient i l := by simp [ofClient, hp]
      rw [hcons, List.flatMap_cons, Recency.overwrite_append]
    · have hcons : ofClient i (p :: l) = ofClient i l := by simp [ofClient, hp]
      have hothers : ∀ w ∈ p.2.writes, w.key ≠ k := fun w hw ↦ by
        rw [Command.key_of_mem_writes hw]
        exact h.1 hp (Command.isWrite_of_mem_writes hw)
      rw [hcons, Recency.overwrite_of_ne hothers]

/-- Reads write nothing. -/
theorem flatMap_writes_filter (l : List Command) :
    (l.filter Command.isWrite).flatMap Command.writes = l.flatMap Command.writes := by
  induction l with
  | nil => rfl
  | cons c l ih => cases c <;> simp [Command.isWrite, Command.records, Command.writes, ih]

omit [DecidableEq ι] in
/-- With room for every key that is set, nothing is evicted. -/
theorem lookup_applyAll_writesOf {capacity : ℕ} {keys : List Bytes}
    (hcapacity : keys.length ≤ capacity) {l : List (ι × Command)}
    (hkeys : ∀ p ∈ l, ∀ k v, p.2 = .set k v → k ∈ keys) (k : Bytes) :
    (Recency.applyAll capacity ∅ (writesOf l)).lookup k = overwrite k none (writesOf l) := by
  refine Recency.lookup_applyAll (Nat.zero_le _) ?_ k
  refine Recency.roomy_of_keys hcapacity (List.nil_subset _) fun j b hput ↦ ?_
  obtain ⟨p, hp, hw⟩ := mem_writes_inFlight hput
  refine hkeys p hp j b ?_
  cases hc : p.2 <;> simp_all [Command.writes]

/-! ### The two orders -/

/-- The commands of the requests. -/
def commandsOf (l : List (ι × Request)) : List (ι × Command) := l.map fun p ↦ (p.1, p.2.command)

theorem ofClient_commandsOf (i : ι) (l : List (ι × Request)) :
    ofClient i (commandsOf l) = (ofClient i l).map Request.command := by
  simp only [ofClient, commandsOf, List.filter_map, List.map_map]
  rfl

section Start

variable (capacity : ℕ) (filename : Bytes) (todo : ι → List Command) (schedule : List (Turn ι))

theorem mem_todo_of_mem_serialOrder {p : ι × Command}
    (h : p ∈ commandsOf ((start capacity filename todo).serialOrder schedule)) :
    p.2 ∈ todo p.1 := by
  rw [← ((serial_run_start capacity filename todo schedule).2 p.1).1, ← ofClient_commandsOf]
  exact List.mem_append_left _ (mem_ofClient h)

theorem mem_todo_of_mem_logged {p : ι × Command}
    (h : p ∈ (start capacity filename todo).logged schedule) : p.2 ∈ todo p.1 := by
  obtain ⟨hsent, -, hlogged⟩ := (serial_run_start capacity filename todo schedule).2 p.1
  have hmem := List.mem_append_left
    (ofClient p.1 ((start capacity filename todo).run schedule).inFlight) (mem_ofClient h)
  rw [hlogged] at hmem
  rw [← hsent]
  exact List.mem_append_left _ (List.mem_of_mem_filter hmem)

/-- What the cache holds is decided by the order of the steps at the cache. -/
theorem data_run_start : ((start capacity filename todo).run schedule).cache.data =
    Recency.applyAll capacity ∅
      (writesOf (commandsOf ((start capacity filename todo).serialOrder schedule))) := by
  have hrun := TCPServer.data_run_fresh capacity filename
    (((start capacity filename todo).serialOrder schedule).map Prod.snd)
  rw [List.map_map] at hrun
  rw [← (serial_run_start capacity filename todo schedule).1, writesOf, commandsOf, List.map_map]
  refine hrun.trans ?_
  rw [List.map_map]
  rfl

/-- What a restart finds is decided by the order of the log. -/
theorem data_recover_run_start (hwf : ∀ i, ∀ c ∈ todo i, c.WellFormed) (clock : ℕ → Time) :
    (recover capacity ∅ ((start capacity filename todo).run schedule).wal clock clock).data =
      Recency.applyAll capacity ∅ (writesOf ((start capacity filename todo).logged schedule)) := by
  have hlogs := logs_run (logs_start capacity filename hwf) schedule
  rw [List.nil_append] at hlogs
  rw [data_recover, WAL.replay, hlogs.file, writes_replayText hlogs.logged_wellFormed]
  rfl

end Start

/-- **A key with one writer** is recovered. Of `keys`, which contains every key that is set, there
are no more than the capacity, so that nothing is evicted; only client `i` writes `k`, and it has no
write to `k` in flight. -/
theorem recover_value_of_oneWriter (capacity : ℕ) (filename : Bytes) (todo : ι → List Command)
    (schedule : List (Turn ι)) (hwf : ∀ i, ∀ c ∈ todo i, c.WellFormed) (keys : List Bytes)
    (hcapacity : keys.length ≤ capacity) (hkeys : ∀ i k v, .set k v ∈ todo i → k ∈ keys)
    (k : Bytes) (i : ι)
    (hwriter : ∀ j, j ≠ i → ∀ c ∈ todo j, c.isWrite = true → c.key ≠ k)
    (hflight : ∀ c ∈ ofClient i ((start capacity filename todo).run schedule).inFlight, c.key ≠ k)
    (clock : ℕ → Time) :
    let s := (start capacity filename todo).run schedule
    (recover capacity ∅ s.wal clock clock).value? k = s.cache.value? k := by
  intro s
  -- either order leaves at `k` what client `i` wrote there
  have hvalue : ∀ l : List (ι × Command), (∀ p ∈ l, p.2 ∈ todo p.1) →
      (Recency.applyAll capacity ∅ (writesOf l)).lookup k =
        overwrite k none ((ofClient i l).flatMap Command.writes) := by
    intro l hl
    rw [lookup_applyAll_writesOf hcapacity fun p hp k v hset ↦ hkeys p.1 k v (hset ▸ hl p hp)]
    exact overwrite_writesOf (fun p hp hne ↦ hwriter p.1 hne p.2 (hl p hp)) none
  have hlogged := ((serial_run_start capacity filename todo schedule).2 i).2.2
  rw [← SafeCache.lookup_data, ← SafeCache.lookup_data, data_recover_run_start _ _ _ _ hwf,
    data_run_start, hvalue _ fun p ↦ mem_todo_of_mem_logged capacity filename todo schedule,
    hvalue _ fun p ↦ mem_todo_of_mem_serialOrder capacity filename todo schedule,
    ofClient_commandsOf, ← flatMap_writes_filter ((ofClient i _).map _), ← hlogged,
    List.flatMap_append, Recency.overwrite_append]
  refine (Recency.overwrite_of_ne (fun w hw ↦ ?_) _).symm
  obtain ⟨c, hc, hw⟩ := List.mem_flatMap.1 hw
  rw [Command.key_of_mem_writes hw]
  exact hflight c hc

/-- Two clients race on one key, the second is ahead at the log, and the first has a key of its own
as well. -/
theorem recover_value_of_oneWriter_two :
    let todo : Bool → List Command := fun i ↦
      if i then [.set [107] [1], .set [108] [3]] else [.set [107] [2]]
    let s := (start 2 [] todo).run [⟨true, 0, 0⟩, ⟨false, 1, 1⟩, ⟨false, 2, 2⟩, ⟨true, 3, 3⟩,
      ⟨true, 4, 4⟩, ⟨true, 5, 5⟩]
    (recover 2 ∅ s.wal (fun _ ↦ 9) (fun _ ↦ 9)).value? [108] = s.cache.value? [108] := by
  intro todo s
  have hkeys : ∀ i k v, .set k v ∈ todo i → k ∈ ([[107], [108]] : List Bytes) := by
    rintro (- | -) k v hset
    · simp_all [todo]
    · rcases (by simpa [todo] using hset : k = [107] ∧ v = [1] ∨ k = [108] ∧ v = [3]) with
        ⟨rfl, -⟩ | ⟨rfl, -⟩ <;> decide
  exact recover_value_of_oneWriter 2 [] todo _ (by decide) [[107], [108]] (by decide) hkeys [108]
    true (by decide) (by decide) (fun _ ↦ 9)

end System

end DistCache
