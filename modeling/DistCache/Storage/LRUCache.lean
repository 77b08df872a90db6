import DistCache.Basic
import DistCache.Lib.Recency
import Mathlib.Logic.Function.Iterate

/-!
# `LRUCache`: the three containers

`LRUCache` keeps its entries in `cache_`, their order in the list `lru_`, and in `lru_map_` an
iterator into `lru_` for every key. The three are updated by hand in five places, so the model
keeps all three, with the iterators as what they are: handles of list nodes, which dangle when the
node is gone.

Two things the C++ leaves undefined or never finishes are made explicit as `none`:

* `lru_.erase(it)` on a handle that designates no node (`eraseNode`), which includes the
  value-initialised iterator that `lru_map_[key]` makes up for an absent key;
* the loop `while (cache_.size() > capacity_) evict_lru();` when it would spin for ever
  (`evictLoop`, see `evictLoop_eq_none_iff`).

That neither ever happens is a theorem about reachable states, not a property of the model.

`unordered_map` is an `AList`: a finite map together with an iteration order. The source never
relies on that order; the only loop over `cache_` is the sweep of `cleanup_expired`.

Every call that reads the clock takes its readings as arguments. `get` reads it twice, once in
`is_expired` and once for the access time.
-/

namespace DistCache

/-- `LRUCache::Entry`. -/
structure Entry where
  value : Bytes
  expireTime : Time
  accessTime : Time
  deriving DecidableEq, Repr

/-- `is_expired` at the clock reading `now`. -/
def Entry.isExpired (entry : Entry) (now : Time) : Bool := decide (entry.expireTime < now)

/-- A node of `lru_`: its handle, which is what an iterator designates, and the key it holds. -/
structure Node where
  id : ℕ
  key : Bytes
  deriving DecidableEq, Repr

/-- `lru_.erase(it)`: undefined unless `it` designates a node of the list. -/
def eraseNode (it : ℕ) (lru : List Node) : Option (List Node) :=
  if it ∈ lru.map Node.id then some (lru.eraseP fun n ↦ n.id = it) else none

/-- The members of `LRUCache`. `freshId` stands for the allocator: the handle the next list node
will get. -/
structure LRUCache where
  cache : Recency Bytes Entry
  lru : List Node
  lruMap : Recency Bytes ℕ
  capacity : ℕ
  freshId : ℕ
  hits : ℕ
  misses : ℕ

namespace LRUCache

/-- `LRUCache::LRUCache`. -/
def new (capacity : ℕ) : LRUCache :=
  { cache := ∅, lru := [], lruMap := ∅, capacity, freshId := 0, hits := 0, misses := 0 }

/-- `cache_.size()`. -/
def size (s : LRUCache) : ℕ := s.cache.keys.length

/-- `LRUCache::evict_lru`. On an empty list it returns without doing anything. -/
def evictLru (s : LRUCache) : LRUCache :=
  match s.lru.getLast? with
  | none => s
  | some old => { s with
      lru := s.lru.dropLast, cache := s.cache.erase old.key, lruMap := s.lruMap.erase old.key }

/-- `while (cache_.size() > capacity_) evict_lru();`, unrolled `fuel` times. Once `lru_` is empty
the loop body changes nothing any more, so `lru_.size()` rounds decide whether it ever ends. -/
def evictLoop : ℕ → LRUCache → Option LRUCache
  | 0, s => if s.capacity < s.size then none else some s
  | fuel + 1, s => if s.capacity < s.size then evictLoop fuel s.evictLru else some s

/-- How long an entry lives: the `ttl_seconds > 0 ? … : …` of `set`. -/
def lifetime (ttlSeconds : ℤ) : Time := if 0 < ttlSeconds then seconds ttlSeconds else hours 24

/-- The branch "Remove from LRU if exists" of `set`: the list without the old node of `key`. -/
def unlink (s : LRUCache) (key : Bytes) : Option (List Node) :=
  match s.lruMap.lookup key with
  | some it => eraseNode it s.lru
  | none => some s.lru

/-- `LRUCache::set`. -/
def set (s : LRUCache) (key value : Bytes) (ttlSeconds : ℤ) (now : Time) : Option LRUCache := do
  let entry : Entry :=
    { value, expireTime := now + lifetime ttlSeconds, accessTime := now }
  let lru ← s.unlink key
  let s : LRUCache := { s with
    cache := s.cache.insert key entry
    lru := ⟨s.freshId, key⟩ :: lru
    lruMap := s.lruMap.insert key s.freshId
    freshId := s.freshId + 1 }
  evictLoop s.lru.length s

/-- `LRUCache::get`: the value, or nothing on a miss. `now` is the reading of `is_expired`,
`access` the one stored as access time on a hit. The list is not touched. -/
def get (s : LRUCache) (key : Bytes) (now access : Time) : LRUCache × Option Bytes :=
  match s.cache.lookup key with
  | none => ({ s with misses := s.misses + 1 }, none)
  | some entry =>
    if entry.isExpired now then ({ s with misses := s.misses + 1 }, none)
    else
      ({ s with
          cache := s.cache.replace key { entry with accessTime := access }
          hits := s.hits + 1 },
        some entry.value)

/-- The three erasures that `del` and `cleanup_expired` make for a key of `cache_`. For a key
without an iterator, `lru_map_[key]` is value-initialised and erasing it is undefined. -/
def remove (s : LRUCache) (key : Bytes) : Option LRUCache := do
  let it ← s.lruMap.lookup key
  let lru ← eraseNode it s.lru
  some { s with lru, lruMap := s.lruMap.erase key, cache := s.cache.erase key }

/-- `LRUCache::del`. -/
def del (s : LRUCache) (key : Bytes) : Option LRUCache :=
  if key ∈ s.cache then s.remove key else some s

/-- `LRUCache::exists`. -/
def exist (s : LRUCache) (key : Bytes) (now : Time) : Bool :=
  match s.cache.lookup key with
  | none => false
  | some entry => !entry.isExpired now

/-- One round of the sweep of `cleanup_expired`, at the entry the iterator stands on. -/
def sweep (now : Time) (s : LRUCache) (e : Σ _ : Bytes, Entry) : Option LRUCache :=
  if e.2.expireTime < now then s.remove e.1 else some s

/-- `LRUCache::cleanup_expired`. Erasing the entry under the iterator leaves the rest of the
iteration as it was, so the sweep visits the entries `cache_` had at the start. -/
def cleanupExpired (s : LRUCache) (now : Time) : Option LRUCache :=
  s.cache.entries.foldlM (sweep now) s

/-! ### Histories of calls -/

/-- A call of a client of the cache, with the clock readings it makes. -/
inductive Call where
  | set (key value : Bytes) (ttlSeconds : ℤ) (now : Time)
  | get (key : Bytes) (now access : Time)
  | del (key : Bytes)
  | exist (key : Bytes) (now : Time)
  | cleanupExpired (now : Time)
  deriving DecidableEq, Repr

/-- The state after one call. -/
def step (s : LRUCache) : Call → Option LRUCache
  | .set key value ttlSeconds now => s.set key value ttlSeconds now
  | .get key now access => some (s.get key now access).1
  | .del key => s.del key
  | .exist _ _ => some s
  | .cleanupExpired now => s.cleanupExpired now

/-- The state after a sequence of calls; `none` once a call went wrong. -/
def run (s : LRUCache) (calls : List Call) : Option LRUCache := calls.foldlM step s

/-! ### What the loop's `none` means -/

theorem evictLru_of_nil {s : LRUCache} (h : s.lru = []) : s.evictLru = s := by
  simp [evictLru, h]

@[simp] theorem evictLru_capacity (s : LRUCache) : s.evictLru.capacity = s.capacity := by
  rw [evictLru]
  split <;> rfl

@[simp] theorem evictLru_lru (s : LRUCache) : s.evictLru.lru = s.lru.dropLast := by
  unfold evictLru
  split
  · rename_i h
    rw [List.getLast?_eq_none_iff.1 h, List.dropLast_nil]
  · rfl

/-- With `lru_.size()` rounds, `none` says precisely that the loop condition holds for ever. -/
theorem evictLoop_eq_none_iff {fuel : ℕ} {s : LRUCache} (h : s.lru.length ≤ fuel) :
    evictLoop fuel s = none ↔ ∀ n, s.capacity < (evictLru^[n] s).size := by
  induction fuel generalizing s with
  | zero =>
    have hnil : s.lru = [] := List.eq_nil_of_length_eq_zero (Nat.le_zero.1 h)
    have hfix : ∀ n, evictLru^[n] s = s := fun n ↦ Function.iterate_fixed (evictLru_of_nil hnil) n
    simp [evictLoop, hfix]
  | succ fuel ih =>
    have hlen : s.evictLru.lru.length ≤ fuel := by
      rw [evictLru_lru, List.length_dropLast]
      omega
    rw [evictLoop]
    split_ifs with hc
    · rw [ih hlen, evictLru_capacity]
      constructor
      · rintro hall (- | n)
        · exact hc
        · exact hall n
      · exact fun hall n ↦ hall (n + 1)
    · simp only [false_iff, not_forall]
      exact ⟨0, hc⟩

end LRUCache

end DistCache
