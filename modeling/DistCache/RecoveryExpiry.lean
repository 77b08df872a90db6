import DistCache.Recovery
import DistCache.Storage.LRUHistory

/-!
# What a restart brings back

The live cache loses a key by deletion, by eviction or by expiry. The log records deletions, and a
replay under the same capacity repeats the evictions. Expiry it neither records nor repeats: a
replayed `SET` gets a new lifetime.

A sweep of the live cache also makes room, so the live cache evicts less than the replay does:
apart from keys that had lapsed, whatever the replay holds the live cache holds too, with no more
keys ahead of it (`covers_run`, an instance of `Recency.Covers`). So the only keys a restart can
bring back are lapsed ones (`lapsed_of_mem`). Of these the replay keeps the ones that the capacity
has room for (`SetLongAgo.lookup_iff`), and it keeps them fresh (`get_recovered`). Together:
`get_recovered_of_get_live`.
-/

namespace DistCache

open LRUCache (Call Contents Clocked LastSet lifetime)
open Recency (applyAll)

/-- What a call writes to the map of keys and values. -/
def LRUCache.Call.writes : Call → List (Recency.Write Bytes Bytes)
  | .set key value _ _ => [.put key value]
  | .del key => [.erase key]
  | _ => []

namespace Recovery

/-- The last write to `k` set it with a lifetime that is over at `t`. -/
def Lapsed (calls : List Call) (t : Time) (k : Bytes) : Prop :=
  ∃ value ttlSeconds t₀ rest, LastSet calls k value ttlSeconds t₀ rest ∧
    t₀ + lifetime ttlSeconds < t

theorem Lapsed.snoc {calls : List Call} {t : Time} {k : Bytes} (h : Lapsed calls t k) {c : Call}
    (hc : c.written ≠ some k) : Lapsed (calls ++ [c]) t k := by
  obtain ⟨value, ttlSeconds, t₀, rest, hlast, ht⟩ := h
  exact ⟨value, ttlSeconds, t₀, rest ++ [c], hlast.snoc hc, ht⟩

/-- An entry whose deadline is over has lapsed. -/
theorem lapsed_of_lookup {capacity : ℕ} {calls : List Call} {t : Time} {k : Bytes} {e : Entry}
    (h : (Contents.run capacity ∅ calls).lookup k = some e) (ht : e.expireTime < t) :
    Lapsed calls t k := by
  obtain ⟨ttlSeconds, t₀, rest, hlast, hd⟩ := Contents.lookup_run h
  exact ⟨e.value, ttlSeconds, t₀, rest, hlast, hd ▸ ht⟩

/-- **One call** of the live run, next to what a replay of its writes does. -/
theorem covers_step {capacity : ℕ} {calls : List Call} {t : Time} {B : Recency Bytes Bytes}
    (h : Recency.Covers (Lapsed calls t) (Contents.run capacity ∅ calls) B) (c : Call)
    (hreadings : ∀ r ∈ c.readings, r ≤ t) :
    Recency.Covers (Lapsed (calls ++ [c]) t)
      ((Contents.run capacity ∅ calls).step capacity c) (B.applyAll capacity c.writes) := by
  cases c with
  | set key value ttlSeconds now =>
    refine (h.put capacity key _ value).mono fun k hk ↦ hk.2.snoc ?_
    simpa [Call.written] using hk.1.symm
  | get key now access =>
    exact (h.of_keys_eq (Contents.keys_touch _ _ _ _) rfl).mono fun k hk ↦
      hk.snoc (by simp [Call.written])
  | del key =>
    refine (h.erase key).mono fun k hk ↦ hk.2.snoc ?_
    simpa [Call.written] using hk.1.symm
  | exist key now => exact h.mono fun k hk ↦ hk.snoc (by simp [Call.written])
  | cleanupExpired now =>
    have hnow : now ≤ t := hreadings now (by simp [Call.readings])
    have hswept :
        Recency.Covers (Lapsed calls t) ((Contents.run capacity ∅ calls).expire now) B := by
      refine h.keep_left fun k e hlookup he ↦ ?_
      -- what the sweep removes is over at `now`, hence at `t`
      have hover : e.expireTime < now := by simpa [Entry.isExpired] using he
      exact lapsed_of_lookup hlookup (hover.trans_le hnow)
    exact hswept.mono fun k hk ↦ hk.snoc (by simp [Call.written])

/-- **The live run covers the replay**, but for what has lapsed. -/
theorem covers_run (capacity : ℕ) {calls : List Call} {t : Time}
    (hreadings : ∀ c ∈ calls, ∀ r ∈ c.readings, r ≤ t) :
    Recency.Covers (Lapsed calls t) (Contents.run capacity ∅ calls)
      (applyAll capacity ∅ (calls.flatMap Call.writes)) := by
  induction calls using List.reverseRecOn with
  | nil => exact Recency.Covers.empty
  | append_singleton calls c ih =>
    have hstep := covers_step (ih fun c' hc' ↦ hreadings c' (by simp [hc'])) c
      (hreadings c (by simp))
    rw [Contents.run_append, List.flatMap_append, Recency.applyAll_append, List.flatMap_singleton]
    exact hstep

/-- What a replay holds and the live cache does not answer with has lapsed. -/
theorem lapsed_of_mem {capacity : ℕ} {calls : List Call} {t : Time} {k : Bytes}
    (hreadings : ∀ c ∈ calls, ∀ r ∈ c.readings, r ≤ t)
    (hlive : (Contents.run capacity ∅ calls).live k t = none)
    (hk : k ∈ applyAll capacity ∅ (calls.flatMap Call.writes)) : Lapsed calls t k := by
  rcases (covers_run capacity hreadings).mem k hk with hmem | hlapsed
  · obtain ⟨e, he⟩ := Option.isSome_iff_exists.1 (AList.lookup_isSome.2 hmem)
    have hover : ¬ t ≤ e.expireTime := fun hle ↦ by
      rw [Contents.live_eq_some_iff.2 ⟨he, hle⟩] at hlive
      exact absurd hlive (by simp)
    exact lapsed_of_lookup he (not_le.1 hover)
  · exact hlapsed

end Recovery

/-! ### A server that is restarted -/

/-- The command of an event, if it is one. -/
def Event.commands : Event → List Command
  | request r => [r.command]
  | cleanup _ => []

theorem Event.writes_call (e : Event) : e.call.writes = e.commands.flatMap Command.writes := by
  rcases e with ⟨c, now, access⟩ | now
  · cases c <;> rfl
  · rfl

theorem Event.records_eq (e : Event) : e.records = e.commands.flatMap Command.records := by
  rcases e with r | now
  · exact (List.append_nil _).symm
  · rfl

/-- The last `SET` or `DEL` of `k` is a `SET` of `value` made more than 24 hours before `t`, and
`rest` is what happened since. -/
def SetLongAgo (events : List Event) (k value : Bytes) (t : Time) (rest : List Event) : Prop :=
  ∃ before now access,
    events = before ++ .request ⟨.set k value, now, access⟩ :: rest ∧
      (∀ e ∈ rest, e.call.written ≠ some k) ∧ now + hours 24 < t

/-- The server has no way to set another lifetime. -/
theorem setLongAgo_of_lapsed {events : List Event} {k : Bytes} {t : Time}
    (h : Recovery.Lapsed (events.map Event.call) t k) :
    ∃ value rest, SetLongAgo events k value t rest := by
  obtain ⟨value, ttlSeconds, t₀, rest, hlast, ht⟩ := h
  obtain ⟨before, hsplit⟩ := hlast.split
  obtain ⟨before', l, rfl, rfl, hl⟩ := List.map_eq_append_iff.1 hsplit
  obtain ⟨e, rest', rfl, he, rfl⟩ := List.map_eq_cons_iff.1 hl
  rcases e with ⟨c, now, access⟩ | now
  · cases c with
    | set key value' =>
      obtain ⟨rfl, rfl, rfl, rfl⟩ : key = k ∧ value' = value ∧ -1 = ttlSeconds ∧ now = t₀ := by
        simpa [Event.call, Request.call, Command.call] using he
      refine ⟨value', rest', before', now, access, rfl, fun e he ↦ ?_, ht⟩
      exact hlast.unwritten e.call (List.mem_map_of_mem he)
    | get key => simp [Event.call, Request.call, Command.call] at he
    | del key => simp [Event.call, Request.call, Command.call] at he
  · simp [Event.call] at he

/-- What a restart at `t` brings back: the value of a `SET` that has lapsed, unless at some point
since as many other keys as the capacity were set and not deleted again. -/
def BroughtBack (capacity : ℕ) (events : List Event) (k value : Bytes) (t : Time) : Prop :=
  ∃ rest, SetLongAgo events k value t rest ∧
    Recency.Uncrowded capacity [] (rest.flatMap fun e ↦ e.call.writes)

theorem LRUCache.Call.written_of_mem_writes {c : Call} {w : Recency.Write Bytes Bytes}
    (h : w ∈ c.writes) : c.written = some w.key := by
  cases c with
  | set key value ttlSeconds now => rw [List.mem_singleton.1 h]; rfl
  | get key now access => exact absurd h List.not_mem_nil
  | del key => rw [List.mem_singleton.1 h]; rfl
  | exist key now => exact absurd h List.not_mem_nil
  | cleanupExpired now => exact absurd h List.not_mem_nil

/-- What a replay leaves at a key whose last write was a `SET` long ago. -/
theorem SetLongAgo.lookup_iff {events : List Event} {k value : Bytes} {t : Time}
    {rest : List Event} (h : SetLongAgo events k value t rest) (capacity : ℕ) {value' : Bytes} :
    (applyAll capacity ∅ ((events.map Event.call).flatMap Call.writes)).lookup k = some value' ↔
      value = value' ∧ Recency.Uncrowded capacity [] (rest.flatMap fun e ↦ e.call.writes) := by
  obtain ⟨before, now, access, rfl, hrest, -⟩ := h
  have hwrites : ((before ++ .request ⟨.set k value, now, access⟩ :: rest).map
      Event.call).flatMap Call.writes = (before.flatMap fun e ↦ e.call.writes) ++
        .put k value :: rest.flatMap fun e ↦ e.call.writes := by
    rw [List.flatMap_map, List.flatMap_append, List.flatMap_cons]
    rfl
  rw [hwrites]
  refine Recency.lookup_applyAll_eq_some_iff fun w hw hkey ↦ ?_
  obtain ⟨e, he, hw⟩ := List.mem_flatMap.1 hw
  exact hrest e he (hkey ▸ LRUCache.Call.written_of_mem_writes hw)

/-! ### Right after a restart -/

/-- Nothing in the cache expires before `t`. -/
def LiveUntil (t : Time) (cache : SafeCache) : Prop :=
  ∀ k e, cache.view.lookup k = some e → t ≤ e.expireTime

theorem LiveUntil.step {t : Time} {cache : SafeCache} (h : LiveUntil t cache) {c : Call}
    (hc : ∀ key value ttlSeconds now, c = .set key value ttlSeconds now →
      t ≤ now + lifetime ttlSeconds) : LiveUntil t (cache.step c) := by
  intro k e he
  rw [SafeCache.view_step] at he
  rcases Contents.lookup_step he with ⟨ttlSeconds, now, rfl, hd⟩ | ⟨-, e₀, h₀, -, hd⟩
  · exact hd ▸ hc k e.value ttlSeconds now rfl
  · exact hd ▸ h k e₀ h₀

theorem LiveUntil.replayRecords {t : Time} {clock : ℕ → Time} (hclock : ∀ i, t ≤ clock i)
    {cache : SafeCache} (h : LiveUntil t cache) (records : List Record) :
    LiveUntil t (replayRecords clock cache records) := by
  induction records generalizing clock cache with
  | nil => exact h
  | cons r records ih =>
    refine ih (fun i ↦ hclock (i + 1)) ?_
    rw [replayRecord]
    split_ifs
    · refine h.step fun key value ttlSeconds now heq ↦ ?_
      obtain ⟨-, -, rfl, rfl⟩ := Call.set.inj heq
      exact (hclock 0).trans (Int.le_add_of_nonneg_right (by decide))
    · exact h.step fun key value ttlSeconds now heq ↦ by simp at heq
    · exact h

/-- A `GET` right after a restart answers with what the replay left, all of which is fresh. -/
theorem get_recovered (capacity : ℕ) (wal : WAL) (k : Bytes) (t access : Time) :
    ((recover capacity ∅ wal (fun _ ↦ t) (fun _ ↦ t)).get k t access).2 =
      (recover capacity ∅ wal (fun _ ↦ t) (fun _ ↦ t)).data.lookup k := by
  have hnew : LiveUntil t (SafeCache.new capacity) := fun k e he ↦ by
    rw [SafeCache.view_new] at he
    simp at he
  have hfresh : LiveUntil t (recover capacity ∅ wal (fun _ ↦ t) (fun _ ↦ t)) :=
    hnew.replayRecords (fun _ ↦ le_rfl) wal.replay
  rw [SafeCache.get_snd, SafeCache.lookup_data, SafeCache.value?_eq]
  rcases he : (recover capacity ∅ wal (fun _ ↦ t) (fun _ ↦ t)).view.lookup k with - | e
  · rw [Contents.live, he]
    rfl
  · rw [Contents.live_eq_some_iff.2 ⟨he, hfresh k e he⟩]

/-- What a replay of the log of a run leaves: what the run wrote. -/
theorem data_recover_run (capacity : ℕ) (filename : Bytes) {events : List Event}
    (hwf : ∀ e ∈ events, ∀ c ∈ e.commands, c.WellFormed) (loadClock replayClock : ℕ → Time) :
    (recover capacity ∅ ((TCPServer.fresh capacity filename).run events).wal loadClock
      replayClock).data = applyAll capacity ∅ ((events.map Event.call).flatMap Call.writes) := by
  have hwrites : (events.map Event.call).flatMap Call.writes =
      (events.flatMap Event.commands).flatMap Command.writes := by
    rw [List.flatMap_map, List.flatMap_assoc]
    exact congrArg (fun f ↦ events.flatMap f) (funext Event.writes_call)
  have hrecords : events.flatMap Event.records =
      (events.flatMap Event.commands).flatMap Command.records := by
    rw [List.flatMap_assoc]
    exact congrArg (fun f ↦ events.flatMap f) (funext Event.records_eq)
  rw [data_recover, TCPServer.run_fresh, WAL.replay, hrecords, writes_replayText, hwrites]
  · rfl
  · intro c hc
    obtain ⟨e, he, hc⟩ := List.mem_flatMap.1 hc
    exact hwf e he c hc

/-- **A restart brings back what has lapsed, and nothing else.** When at `t` the live cache answers
a `GET` of `k` with nothing, then so does, at `t`, a cache of the same capacity that the log was
replayed into at `t`, unless the last `SET` or `DEL` of `k` is a `SET` made more than 24 hours
before and at no point since were as many other keys set, and not deleted again, as the capacity; in
that case it answers with the value of that `SET`. -/
theorem get_recovered_of_get_live (capacity : ℕ) (filename : Bytes) (events : List Event)
    (k : Bytes) (t access : Time)
    (hwf : ∀ e ∈ events, ∀ c ∈ e.commands, c.WellFormed)
    (hclock : Clocked (events.map Event.call ++ [.get k t access]))
    (hlive : (((TCPServer.fresh capacity filename).run events).cache.get k t access).2 = none) :
    let recovered := recover capacity ∅ ((TCPServer.fresh capacity filename).run events).wal
      (fun _ ↦ t) (fun _ ↦ t)
    ((¬ ∃ value, BroughtBack capacity events k value t) →
        (recovered.get k t access).2 = none) ∧
      ∀ value, BroughtBack capacity events k value t →
        (recovered.get k t access).2 = some value := by
  intro recovered
  have hreadings : ∀ c ∈ events.map Event.call, ∀ r ∈ c.readings, r ≤ t := fun c hc r hr ↦
    hclock.le_of_mem hc hr (by simp [Call.readings])
  rw [TCPServer.run_fresh, SafeCache.get_snd, SafeCache.view_run, SafeCache.view_new,
    SafeCache.capacity_new, Option.map_eq_none_iff] at hlive
  have hget : (recovered.get k t access).2 =
      (applyAll capacity ∅ ((events.map Event.call).flatMap Call.writes)).lookup k := by
    rw [get_recovered, data_recover_run capacity filename hwf]
  rw [hget]
  constructor
  · -- a value that comes back has lapsed, and the capacity has kept it
    intro hnot
    refine Option.eq_none_iff_forall_ne_some.2 fun value hvalue ↦ hnot ?_
    have hmem : k ∈ applyAll capacity ∅ ((events.map Event.call).flatMap Call.writes) :=
      AList.lookup_isSome.1 (by rw [hvalue]; rfl)
    obtain ⟨value', rest, hset⟩ :=
      setLongAgo_of_lapsed (Recovery.lapsed_of_mem hreadings hlive hmem)
    obtain ⟨rfl, hroom⟩ := (hset.lookup_iff capacity).1 hvalue
    exact ⟨value', rest, hset, hroom⟩
  · rintro value ⟨rest, hset, hroom⟩
    exact (hset.lookup_iff capacity).2 ⟨rfl, hroom⟩

/-- Two keys that lapsed, in a cache with room for two: the one that a third key has pushed out
stays away, the other one comes back. -/
theorem get_recovered_of_get_live_two :
    let events : List Event := [.request ⟨.set [97] [0], 0, 0⟩, .request ⟨.set [98] [1], 1, 1⟩,
      .request ⟨.set [99] [2], 2, 2⟩, .cleanup (hours 24 + 2)]
    let t := hours 24 + 2
    let recovered := recover 2 ∅ ((TCPServer.fresh 2 []).run events).wal (fun _ ↦ t) (fun _ ↦ t)
    (recovered.get [97] t t).2 = none ∧ (recovered.get [98] t t).2 = some [1] := by
  intro events t recovered
  constructor
  · refine (get_recovered_of_get_live 2 [] events [97] t t (by decide) (by decide) (by decide)).1 ?_
    rintro ⟨value, rest, ⟨before, now, access, hsplit, -, -⟩, hroom⟩
    rcases before with - | ⟨e, before⟩
    · obtain rfl : rest = events.tail := (List.cons.inj hsplit).2.symm
      exact absurd hroom (by decide)
    · have htail : events.tail = before ++ .request ⟨.set [97] value, now, access⟩ :: rest :=
        (List.cons.inj hsplit).2
      have hmem : Event.request ⟨.set [97] value, now, access⟩ ∈ events.tail := by simp [htail]
      simp [events] at hmem
  · refine (get_recovered_of_get_live 2 [] events [98] t t (by decide) (by decide) (by decide)).2
      [1] ⟨events.tail.tail, ⟨[.request ⟨.set [97] [0], 0, 0⟩], 1, 1, rfl, ?_, ?_⟩, ?_⟩
    all_goals decide

/-- **A lapsed key comes back.** A key set once is gone a nanosecond after 24 hours; a restart at
that time answers with its value. -/
theorem recovered_after_expiry :
    let events : List Event := [.request ⟨.set [107] [118], 0, 0⟩]
    let t := hours 24 + 1
    let live := (TCPServer.fresh 1 []).run events
    (∀ e ∈ events, ∀ c ∈ e.commands, c.WellFormed) ∧
      Clocked (events.map Event.call ++ [.get [107] t t]) ∧
      (live.cache.get [107] t t).2 = none ∧
      ((recover 1 ∅ live.wal (fun _ ↦ t) (fun _ ↦ t)).get [107] t t).2 = some [118] := by
  refine ⟨by decide, by decide, by decide, by decide⟩

end DistCache
