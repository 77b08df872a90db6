import DistCache.Storage.LRUCache

/-!
# What `LRUCache` is for

The purpose of the component, without its containers: a recency map of entries with a lifetime.
`set` writes to the front under the capacity, `del` erases, `get` answers with a value that has not
outlived its deadline, `cleanup_expired` filters. `LRUInvariant` shows that the three containers
implement this; every statement about contents and eviction order is then proved here.

The order is that of the last *write*. A hitting `get` refreshes the access time of an entry and
leaves its place alone (`keys_touch`), so what the map evicts is the least recently written key.
-/

namespace DistCache

namespace LRUCache

/-- A map of entries in the order of `lru_`. -/
abbrev Contents := Recency Bytes Entry

namespace Contents

/-- The entry a `get` or `exists` finds alive. -/
def live (m : Contents) (key : Bytes) (now : Time) : Option Entry :=
  (m.lookup key).filter fun e ↦ !e.isExpired now

/-- The map after a `get`: on a hit the access time is refreshed. -/
def touch (m : Contents) (key : Bytes) (now access : Time) : Contents :=
  match m.live key now with
  | some e => m.replace key { e with accessTime := access }
  | none => m

/-- The map after `cleanup_expired`. -/
def expire (m : Contents) (now : Time) : Contents := m.keep fun e ↦ !e.isExpired now

/-- What a call does to the map. -/
def step (capacity : ℕ) (m : Contents) : Call → Contents
  | .set key value ttlSeconds now => m.put capacity key ⟨value, now + lifetime ttlSeconds, now⟩
  | .get key now access => m.touch key now access
  | .del key => m.erase key
  | .exist _ _ => m
  | .cleanupExpired now => m.expire now

/-- What a sequence of calls does to the map. -/
def run (capacity : ℕ) (m : Contents) (calls : List Call) : Contents :=
  calls.foldl (step capacity) m

@[simp] theorem run_nil (capacity : ℕ) (m : Contents) : m.run capacity [] = m := rfl

@[simp] theorem run_cons (capacity : ℕ) (m : Contents) (c : Call) (calls : List Call) :
    m.run capacity (c :: calls) = (m.step capacity c).run capacity calls := rfl

theorem run_append (capacity : ℕ) (m : Contents) (calls calls' : List Call) :
    m.run capacity (calls ++ calls') = (m.run capacity calls).run capacity calls' :=
  List.foldl_append

/-! ### Reading an entry -/

theorem live_eq_some_iff {m : Contents} {key : Bytes} {now : Time} {e : Entry} :
    m.live key now = some e ↔ m.lookup key = some e ∧ now ≤ e.expireTime := by
  rw [live, Option.filter_eq_some_iff]
  simp [Entry.isExpired]

theorem lookup_of_live {m : Contents} {key : Bytes} {now : Time} {e : Entry}
    (h : m.live key now = some e) : m.lookup key = some e := (live_eq_some_iff.1 h).1

/-! ### A `get` changes access times only -/

@[simp] theorem keys_touch (m : Contents) (key : Bytes) (now access : Time) :
    (m.touch key now access).keys = m.keys := by
  rw [touch]
  split
  · rw [AList.keys_replace]
  · rfl

@[simp] theorem mem_touch {m : Contents} {k key : Bytes} {now access : Time} :
    k ∈ m.touch key now access ↔ k ∈ m := by
  rw [AList.mem_keys, keys_touch, ← AList.mem_keys]

theorem lookup_touch_of_ne {m : Contents} {k key : Bytes} (h : k ≠ key) (now access : Time) :
    (m.touch key now access).lookup k = m.lookup k := by
  rw [touch]
  split
  · rw [Recency.lookup_replace_of_ne h]
  · rfl

/-- The entry of the key that was read, on a hit. -/
theorem lookup_touch_self {m : Contents} {key : Bytes} {now : Time} {e : Entry}
    (h : m.live key now = some e) (access : Time) :
    (m.touch key now access).lookup key = some { e with accessTime := access } := by
  rw [touch, h]
  exact Recency.lookup_replace_self (AList.lookup_isSome.1 (by rw [lookup_of_live h]; rfl)) _

theorem touch_of_miss {m : Contents} {key : Bytes} {now : Time} (h : m.live key now = none)
    (access : Time) : m.touch key now access = m := by
  rw [touch, h]

/-- Value and deadline of an entry are the same before and after a `get` of any key. -/
theorem lookup_touch {m : Contents} {k key : Bytes} {now access : Time} {e : Entry} :
    (m.touch key now access).lookup k = some e →
      ∃ e₀, m.lookup k = some e₀ ∧ e₀.value = e.value ∧ e₀.expireTime = e.expireTime := by
  intro h
  rcases eq_or_ne k key with rfl | hk
  · rcases hl : m.live k now with - | e₀
    · rw [touch_of_miss hl] at h
      exact ⟨e, h, rfl, rfl⟩
    · rw [lookup_touch_self hl access, Option.some.injEq] at h
      subst h
      exact ⟨e₀, lookup_of_live hl, rfl, rfl⟩
  · rw [lookup_touch_of_ne hk] at h
    exact ⟨e, h, rfl, rfl⟩

/-! ### The capacity bound -/

theorem length_keys_step_le {capacity : ℕ} {m : Contents} (h : m.keys.length ≤ capacity)
    (c : Call) : (m.step capacity c).keys.length ≤ capacity := by
  cases c with
  | set key value ttlSeconds now => exact Recency.length_keys_put_le _ _ _ _
  | get key now access => rwa [step, keys_touch]
  | del key =>
    rw [step, AList.keys_erase]
    exact List.length_erase_le.trans h
  | exist key now => exact h
  | cleanupExpired now => exact (Recency.keys_keep_sublist _ _).length_le.trans h

theorem length_keys_run_le {capacity : ℕ} {m : Contents} (h : m.keys.length ≤ capacity)
    (calls : List Call) : (m.run capacity calls).keys.length ≤ capacity := by
  induction calls generalizing m with
  | nil => exact h
  | cons c calls ih => exact ih (length_keys_step_le h c)

end Contents

end LRUCache

end DistCache
