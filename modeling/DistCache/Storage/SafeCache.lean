import DistCache.Storage.LRUInvariant

/-!
# Caches that satisfy their invariant

`SafeCache` bundles the three containers with `LRUCache.Inv`, so that the operations become total:
the invariant is the reason why no iterator dangles and every eviction loop ends, and the reason is
carried along with the value. This is the cache the server and the recovery code hold.

`view` is the recency map the containers represent. It commutes with every operation
(`view_set`, `view_del`, `view_get`, `view_cleanupExpired`, `view_run`), and answers are read off it
(`get_snd`, `exist_eq`). Later modules reason with these equations and not with the containers.
-/

namespace DistCache

/-- An `LRUCache` whose containers agree and respect the capacity. -/
structure SafeCache where
  raw : LRUCache
  inv : raw.Inv

namespace SafeCache

open LRUCache (Contents Call)

/-- `LRUCache::LRUCache`. -/
def new (capacity : ℕ) : SafeCache := ⟨LRUCache.new capacity, LRUCache.inv_new capacity⟩

/-- `capacity_`. -/
def capacity (s : SafeCache) : ℕ := s.raw.capacity

/-- The recency map of a cache: the keys of `lru_` in order, with their entries. -/
def view (s : SafeCache) : Contents where
  entries := s.raw.lru.filterMap fun n ↦ (s.raw.cache.lookup n.key).map fun e ↦ ⟨n.key, e⟩
  nodupKeys := by
    refine s.inv.keys_nodup.sublist ?_
    induction s.raw.lru with
    | nil => exact List.Sublist.refl _
    | cons n l ih =>
      rcases h : s.raw.cache.lookup n.key with - | e
      · simpa [h] using ih.cons n.key
      · simpa [h] using ih.cons_cons n.key

theorem represents_view (s : SafeCache) : s.raw.Represents s.view where
  linked := s.inv.toLinked
  keys := by
    have key : ∀ l : List Node, (∀ n ∈ l, n.key ∈ s.raw.cache) →
        (l.filterMap fun n ↦ (s.raw.cache.lookup n.key).map fun e ↦
          (⟨n.key, e⟩ : Σ _ : Bytes, Entry)).keys = l.map Node.key := by
      intro l
      induction l with
      | nil => intro _; rfl
      | cons n l ih =>
        intro hl
        rw [List.forall_mem_cons] at hl
        obtain ⟨e, he⟩ := Option.isSome_iff_exists.1 (AList.lookup_isSome.2 hl.1)
        simp [he, ih hl.2]
    exact key _ fun n hn ↦ (s.inv.mem_cache _).2 (List.mem_map_of_mem hn)
  lookup := fun k ↦ by
    rcases hk : s.raw.cache.lookup k with - | e
    · -- an entry of the view stems from one of `cache_`
      refine (AList.lookup_eq_none.2 fun hmem ↦ ?_ : s.view.lookup k = none).symm
      obtain ⟨e, he⟩ := List.mem_keys.1 (AList.mem_keys.1 hmem)
      obtain ⟨n, -, hn⟩ := List.mem_filterMap.1 he
      obtain ⟨e', he', heq⟩ := Option.map_eq_some_iff.1 hn
      obtain rfl : n.key = k := congrArg Sigma.fst heq
      rw [hk] at he'
      exact absurd he' (by simp)
    · -- a key of `cache_` has a node, which puts its entry into the view
      have hmem : k ∈ s.raw.lru.map Node.key :=
        (s.inv.mem_cache k).1 (AList.lookup_isSome.1 (by rw [hk]; rfl))
      obtain ⟨n, hn, rfl⟩ := List.mem_map.1 hmem
      have hview : (⟨n.key, e⟩ : Σ _ : Bytes, Entry) ∈ s.view.entries :=
        List.mem_filterMap.2 ⟨n, hn, by rw [hk]; rfl⟩
      exact (AList.mem_lookup_iff.2 hview).symm

/-- The keys of `lru_`, front to back. -/
def keys (s : SafeCache) : List Bytes := s.raw.lru.map Node.key

/-- The value stored for a key, expired or not. -/
def value? (s : SafeCache) (k : Bytes) : Option Bytes := (s.raw.cache.lookup k).map Entry.value

theorem keys_view (s : SafeCache) : s.view.keys = s.keys := s.represents_view.keys

theorem lookup_view (s : SafeCache) (k : Bytes) : s.view.lookup k = s.raw.cache.lookup k :=
  (s.represents_view.lookup k).symm

theorem value?_eq (s : SafeCache) (k : Bytes) : s.value? k = (s.view.lookup k).map Entry.value := by
  rw [lookup_view, value?]

theorem view_eq {s : SafeCache} {m : Contents} (h : s.raw.Represents m) : s.view = m :=
  s.represents_view.unique h

theorem length_view_le (s : SafeCache) : s.view.keys.length ≤ s.capacity := by
  rw [s.represents_view.length_keys, ← s.inv.toLinked.size_eq]
  exact s.inv.size_le

@[simp] theorem view_new (capacity : ℕ) : (new capacity).view = ∅ :=
  view_eq (LRUCache.represents_new capacity)

@[simp] theorem capacity_new (capacity : ℕ) : (new capacity).capacity = capacity := rfl

/-! ### The operations, total -/

/-- The state an operation leads to, when it is known to represent a small enough map. -/
def ofRepresents (s : SafeCache) (r : Option LRUCache) (m : Contents)
    (h : ∃ s', r = some s' ∧ s'.capacity = s.capacity ∧ s'.Represents m)
    (hm : m.keys.length ≤ s.capacity) : SafeCache where
  raw := r.get (by obtain ⟨s', rfl, -⟩ := h; rfl)
  inv := by
    obtain ⟨s', rfl, hcap, hr⟩ := h
    exact hr.inv (hcap ▸ hm)

section OfRepresents

variable {s : SafeCache} {r : Option LRUCache} {m : Contents}
  (h : ∃ s', r = some s' ∧ s'.capacity = s.capacity ∧ s'.Represents m)
  (hm : m.keys.length ≤ s.capacity)

theorem view_ofRepresents : (ofRepresents s r m h hm).view = m := by
  obtain ⟨s', rfl, -, hr⟩ := h
  exact view_eq hr

theorem capacity_ofRepresents : (ofRepresents s r m h hm).capacity = s.capacity := by
  obtain ⟨s', rfl, hcap, -⟩ := h
  exact hcap

theorem eq_some_ofRepresents : r = some (ofRepresents s r m h hm).raw := by
  obtain ⟨s', rfl, -⟩ := h
  rfl

end OfRepresents

/-- The state after one call. -/
def step (s : SafeCache) (c : Call) : SafeCache :=
  ofRepresents s (s.raw.step c) (s.view.step s.capacity c)
    (LRUCache.represents_step s.represents_view c)
    (Contents.length_keys_step_le s.length_view_le c)

/-- The state after a sequence of calls. -/
def run (s : SafeCache) (calls : List Call) : SafeCache := calls.foldl step s

/-- `LRUCache::set`. -/
def set (s : SafeCache) (key value : Bytes) (ttlSeconds : ℤ) (now : Time) : SafeCache :=
  s.step (.set key value ttlSeconds now)

/-- `LRUCache::get`: the state and the answer. -/
def get (s : SafeCache) (key : Bytes) (now access : Time) : SafeCache × Option Bytes :=
  (s.step (.get key now access), (s.raw.get key now access).2)

/-- `LRUCache::del`. -/
def del (s : SafeCache) (key : Bytes) : SafeCache := s.step (.del key)

/-- `LRUCache::exists`. -/
def exist (s : SafeCache) (key : Bytes) (now : Time) : Bool := s.raw.exist key now

/-- `LRUCache::cleanup_expired`. -/
def cleanupExpired (s : SafeCache) (now : Time) : SafeCache := s.step (.cleanupExpired now)

/-- Totality loses nothing: the containers of the next state are those the operation computes. -/
theorem raw_step (s : SafeCache) (c : Call) : s.raw.step c = some (s.step c).raw :=
  eq_some_ofRepresents _ _

theorem raw_run (s : SafeCache) (calls : List Call) : s.raw.run calls = some (s.run calls).raw := by
  induction calls generalizing s with
  | nil => rfl
  | cons c calls ih =>
    rw [LRUCache.run, List.foldlM_cons, raw_step]
    exact ih _

/-! ### The view commutes with the operations -/

@[simp] theorem view_step (s : SafeCache) (c : Call) :
    (s.step c).view = s.view.step s.capacity c := view_ofRepresents _ _

@[simp] theorem capacity_step (s : SafeCache) (c : Call) : (s.step c).capacity = s.capacity :=
  capacity_ofRepresents _ _

@[simp] theorem view_run (s : SafeCache) (calls : List Call) :
    (s.run calls).view = s.view.run s.capacity calls := by
  induction calls generalizing s with
  | nil => rfl
  | cons c calls ih =>
    show ((s.step c).run calls).view = _
    rw [ih, view_step, capacity_step]
    rfl

@[simp] theorem capacity_run (s : SafeCache) (calls : List Call) :
    (s.run calls).capacity = s.capacity := by
  induction calls generalizing s with
  | nil => rfl
  | cons c calls ih =>
    show ((s.step c).run calls).capacity = _
    rw [ih, capacity_step]

theorem view_set (s : SafeCache) (key value : Bytes) (ttlSeconds : ℤ) (now : Time) :
    (s.set key value ttlSeconds now).view =
      s.view.put s.capacity key ⟨value, now + LRUCache.lifetime ttlSeconds, now⟩ :=
  view_step _ _

theorem view_del (s : SafeCache) (key : Bytes) : (s.del key).view = s.view.erase key :=
  view_step _ _

theorem view_get (s : SafeCache) (key : Bytes) (now access : Time) :
    (s.get key now access).1.view = s.view.touch key now access := view_step _ _

theorem view_cleanupExpired (s : SafeCache) (now : Time) :
    (s.cleanupExpired now).view = s.view.expire now := view_step _ _

@[simp] theorem get_snd (s : SafeCache) (key : Bytes) (now access : Time) :
    (s.get key now access).2 = (s.view.live key now).map Entry.value :=
  (LRUCache.represents_get s.represents_view key now access).1

@[simp] theorem exist_eq (s : SafeCache) (key : Bytes) (now : Time) :
    s.exist key now = (s.view.live key now).isSome :=
  LRUCache.exist_eq s.represents_view key now

/-! ### Keys and values

What a log of the writes can restore: the keys in order and the values, without the times. -/

/-- The keys of `lru_` in order, with their values. -/
def data (s : SafeCache) : Recency Bytes Bytes := s.view.map Entry.value

@[simp] theorem keys_data (s : SafeCache) : s.data.keys = s.keys :=
  (Recency.keys_map _ _).trans s.keys_view

@[simp] theorem lookup_data (s : SafeCache) (k : Bytes) : s.data.lookup k = s.value? k := by
  rw [data, Recency.lookup_map, value?_eq]

theorem length_data_le (s : SafeCache) : s.data.keys.length ≤ s.capacity := by
  rw [keys_data, ← keys_view]
  exact s.length_view_le

@[simp] theorem data_new (capacity : ℕ) : (new capacity).data = ∅ := by
  rw [data, view_new, Recency.map_empty]

theorem data_set (s : SafeCache) (key value : Bytes) (ttlSeconds : ℤ) (now : Time) :
    (s.set key value ttlSeconds now).data = s.data.put s.capacity key value := by
  rw [data, view_set, Recency.map_put, data]

theorem data_del (s : SafeCache) (key : Bytes) : (s.del key).data = s.data.erase key := by
  rw [data, view_del, Recency.map_erase, data]

/-- Reading leaves keys, order and values alone. -/
theorem data_get (s : SafeCache) (key : Bytes) (now access : Time) :
    (s.get key now access).1.data = s.data := by
  rw [data, view_get]
  refine Recency.map_eq_of _ (by rw [Contents.keys_touch, keys_data, keys_view]) fun k ↦ ?_
  rw [lookup_data, value?_eq]
  rcases h : (s.view.touch key now access).lookup k with - | e
  · have hk : k ∉ s.view := fun hmem ↦
      AList.lookup_eq_none.1 h (Contents.mem_touch.2 hmem)
    rw [AList.lookup_eq_none.2 hk]
  · obtain ⟨e₀, h₀, hvalue, -⟩ := Contents.lookup_touch h
    rw [h₀, Option.map_some, Option.map_some, hvalue]

@[simp] theorem capacity_set (s : SafeCache) (key value : Bytes) (ttlSeconds : ℤ) (now : Time) :
    (s.set key value ttlSeconds now).capacity = s.capacity := capacity_step _ _

@[simp] theorem capacity_del (s : SafeCache) (key : Bytes) : (s.del key).capacity = s.capacity :=
  capacity_step _ _

end SafeCache

end DistCache
