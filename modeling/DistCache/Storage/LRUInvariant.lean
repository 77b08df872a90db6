import DistCache.Storage.LRUSpec
import Mathlib.Data.List.Nodup

/-!
# The representation invariant of `LRUCache`

Two statements about a state of the three containers:

* `Linked s`: they agree — same keys, no key twice in `lru_`, and every iterator stored in
  `lru_map_` designates the node that holds its key;
* `Represents s m`: they implement the recency map `m`, whose order is that of `lru_`.

Every operation is handled once, in the form "from a state representing `m`, the operation is
defined and ends in a state representing what it should do to `m`": `represents_remove`,
`represents_evictLoop`, `represents_set`, `represents_del`, `represents_get`,
`represents_cleanupExpired`. Both the invariant (`run_new_inv`) and everything later modules say
about contents and order is read off these.

Agreement is what makes each `lru_.erase` legal; the eviction loop ends because agreement forces
`cache_.size() = lru_.size()`, so the loop body always finds a node to drop.
-/

namespace DistCache

namespace LRUCache

/-! ### Erasing a node -/

section EraseNode

variable {α β : Type*} [DecidableEq α] [DecidableEq β]

private theorem map_erase_of_nodup {f : α → β} {l : List α} (h : (l.map f).Nodup) {a : α}
    (ha : a ∈ l) : (l.erase a).map f = (l.map f).erase (f a) := by
  induction l with
  | nil => simp at ha
  | cons x l ih =>
    rw [List.map_cons, List.nodup_cons] at h
    rcases eq_or_ne x a with rfl | hxa
    · simp
    · have hal : a ∈ l := (List.mem_cons.1 ha).resolve_left (Ne.symm hxa)
      have hne : f x ≠ f a := fun he ↦ h.1 (he ▸ List.mem_map_of_mem hal)
      simp [hxa, hne, ih h.2 hal]

private theorem eraseP_eq_erase_of_nodup {f : α → β} {l : List α} (h : (l.map f).Nodup) {a : α}
    (ha : a ∈ l) : (l.eraseP fun x ↦ f x = f a) = l.erase a := by
  induction l with
  | nil => simp at ha
  | cons x l ih =>
    rw [List.map_cons, List.nodup_cons] at h
    rcases eq_or_ne x a with rfl | hxa
    · simp
    · have hal : a ∈ l := (List.mem_cons.1 ha).resolve_left (Ne.symm hxa)
      have hne : f x ≠ f a := fun he ↦ h.1 (he ▸ List.mem_map_of_mem hal)
      simp [hxa, hne, ih h.2 hal]

end EraseNode

/-- The three containers agree. -/
structure Linked (s : LRUCache) : Prop where
  /-- No key occurs twice in `lru_`. -/
  keys_nodup : (s.lru.map Node.key).Nodup
  /-- Handles designate at most one node. -/
  ids_nodup : (s.lru.map Node.id).Nodup
  /-- The allocator never hands out a handle still in use. -/
  ids_lt : ∀ n ∈ s.lru, n.id < s.freshId
  /-- `cache_` and `lru_` have the same keys. -/
  mem_cache : ∀ k, k ∈ s.cache ↔ k ∈ s.lru.map Node.key
  /-- `lru_map_` sends a key to the handle of the node that holds it, and has no other entries. -/
  lookup_lruMap : ∀ k it, s.lruMap.lookup k = some it ↔ (⟨it, k⟩ : Node) ∈ s.lru

/-- The invariant: the containers agree and the capacity is respected. -/
structure Inv (s : LRUCache) : Prop extends Linked s where
  /-- `cache_.size() <= capacity_`. -/
  size_le : s.size ≤ s.capacity

/-- The containers implement the recency map `m`. -/
structure Represents (s : LRUCache) (m : Contents) : Prop where
  linked : Linked s
  keys : m.keys = s.lru.map Node.key
  lookup : ∀ k, s.cache.lookup k = m.lookup k

namespace Linked

variable {s : LRUCache}

theorem mem_lruMap (h : Linked s) (k : Bytes) : k ∈ s.lruMap ↔ k ∈ s.lru.map Node.key := by
  rw [← AList.lookup_isSome, Option.isSome_iff_exists, List.mem_map]
  constructor
  · rintro ⟨it, hit⟩
    exact ⟨⟨it, k⟩, (h.lookup_lruMap k it).1 hit, rfl⟩
  · rintro ⟨n, hn, rfl⟩
    exact ⟨n.id, (h.lookup_lruMap _ _).2 hn⟩

/-- A key of the cache has an iterator, and it designates the key's node. -/
theorem exists_iterator (h : Linked s) {k : Bytes} (hk : k ∈ s.lru.map Node.key) :
    ∃ it, s.lruMap.lookup k = some it ∧ (⟨it, k⟩ : Node) ∈ s.lru := by
  obtain ⟨n, hn, rfl⟩ := List.mem_map.1 hk
  exact ⟨n.id, (h.lookup_lruMap _ _).2 hn, hn⟩

/-- Erasing through the iterator of a key is defined and removes exactly that key's node. -/
theorem eraseNode_eq (h : Linked s) {n : Node} (hn : n ∈ s.lru) :
    eraseNode n.id s.lru = some (s.lru.erase n) := by
  rw [eraseNode, if_pos (List.mem_map_of_mem hn), eraseP_eq_erase_of_nodup h.ids_nodup hn]

theorem map_key_erase (h : Linked s) {n : Node} (hn : n ∈ s.lru) :
    (s.lru.erase n).map Node.key = (s.lru.map Node.key).erase n.key :=
  map_erase_of_nodup h.keys_nodup hn

theorem lru_nodup (h : Linked s) : s.lru.Nodup := h.keys_nodup.of_map _

/-- `cache_` and `lru_` have the same size. -/
theorem size_eq (h : Linked s) : s.size = s.lru.length := by
  have hperm : s.cache.keys.Perm (s.lru.map Node.key) :=
    (List.perm_ext_iff_of_nodup s.cache.keys_nodup h.keys_nodup).2 h.mem_cache
  rw [size, hperm.length_eq, List.length_map]

end Linked

namespace Represents

variable {s : LRUCache} {m m' : Contents}

theorem mem_iff (h : Represents s m) (k : Bytes) : k ∈ m ↔ k ∈ s.lru.map Node.key := by
  rw [AList.mem_keys, h.keys]

/-- The represented map is determined by the containers. -/
theorem unique (h : Represents s m) (h' : Represents s m') : m = m' :=
  Recency.ext_of_keys_of_lookup (h.keys.trans h'.keys.symm) fun k ↦
    (h.lookup k).symm.trans (h'.lookup k)

theorem length_keys (h : Represents s m) : m.keys.length = s.lru.length := by
  rw [h.keys, List.length_map]

theorem inv (h : Represents s m) (hle : m.keys.length ≤ s.capacity) : Inv s :=
  { h.linked with size_le := by rw [h.linked.size_eq, ← h.length_keys]; exact hle }

end Represents

theorem represents_new (capacity : ℕ) : Represents (new capacity) ∅ where
  linked :=
    { keys_nodup := List.nodup_nil
      ids_nodup := List.nodup_nil
      ids_lt := fun n hn ↦ absurd hn List.not_mem_nil
      mem_cache := fun k ↦ by simp [new]
      lookup_lruMap := fun k it ↦ by simp [new] }
  keys := rfl
  lookup := fun _ ↦ rfl

variable {s : LRUCache} {m : Contents}

/-! ### The erasures of `del` and `cleanup_expired` -/

/-- Dropping a node together with the two map entries of its key keeps the containers linked. -/
theorem linked_drop (h : Linked s) {n : Node} (hn : n ∈ s.lru) :
    Linked { s with
      lru := s.lru.erase n, lruMap := s.lruMap.erase n.key, cache := s.cache.erase n.key } where
  keys_nodup := by rw [h.map_key_erase hn]; exact h.keys_nodup.erase _
  ids_nodup := h.ids_nodup.sublist (List.erase_sublist.map _)
  ids_lt := fun x hx ↦ h.ids_lt x (List.mem_of_mem_erase hx)
  mem_cache := fun k ↦ by
    rw [AList.mem_erase, h.map_key_erase hn, h.keys_nodup.mem_erase_iff, h.mem_cache k]
  lookup_lruMap := fun k it ↦ by
    have hmem : (⟨it, k⟩ : Node) ∈ s.lru.erase n ↔ (⟨it, k⟩ : Node) ≠ n ∧ ⟨it, k⟩ ∈ s.lru :=
      h.lru_nodup.mem_erase_iff
    rw [hmem]
    rcases eq_or_ne k n.key with rfl | hk
    · rw [AList.lookup_erase]
      refine iff_of_false (by simp) fun ⟨hne, hin⟩ ↦ hne ?_
      exact List.inj_on_of_nodup_map h.keys_nodup hin hn rfl
    · rw [AList.lookup_erase_ne hk, h.lookup_lruMap k it]
      refine ⟨fun hin ↦ ⟨?_, hin⟩, fun hin ↦ hin.2⟩
      rintro rfl
      exact hk rfl

theorem represents_drop (h : Represents s m) {n : Node} (hn : n ∈ s.lru) :
    Represents { s with
      lru := s.lru.erase n, lruMap := s.lruMap.erase n.key, cache := s.cache.erase n.key }
      (m.erase n.key) where
  linked := linked_drop h.linked hn
  keys := by rw [AList.keys_erase, h.keys, h.linked.map_key_erase hn]
  lookup := fun k ↦ by
    rcases eq_or_ne k n.key with rfl | hk
    · rw [AList.lookup_erase, AList.lookup_erase]
    · rw [AList.lookup_erase_ne hk, AList.lookup_erase_ne hk, h.lookup k]

/-- **The three erasures are legal and remove the key.** -/
theorem represents_remove (h : Represents s m) {k : Bytes} (hk : k ∈ m) :
    ∃ s', s.remove k = some s' ∧ s'.capacity = s.capacity ∧ Represents s' (m.erase k) := by
  obtain ⟨it, hit, hn⟩ := h.linked.exists_iterator ((h.mem_iff k).1 hk)
  have hdrop := represents_drop h hn
  refine ⟨_, ?_, ?_, hdrop⟩
  · have herase := h.linked.eraseNode_eq hn
    simp only at herase
    simp [remove, hit, herase]
  · rfl

theorem represents_del (h : Represents s m) (k : Bytes) :
    ∃ s', s.del k = some s' ∧ s'.capacity = s.capacity ∧ Represents s' (m.erase k) := by
  by_cases hk : k ∈ m
  · have hc : k ∈ s.cache := (h.linked.mem_cache k).2 ((h.mem_iff k).1 hk)
    rw [del, if_pos hc]
    exact represents_remove h hk
  · -- an absent key: `del` does nothing, and there is nothing to erase
    have hc : k ∉ s.cache := fun hc ↦ hk ((h.mem_iff k).2 ((h.linked.mem_cache k).1 hc))
    refine ⟨s, by rw [del, if_neg hc], rfl, ?_⟩
    have hm : m.erase k = m := AList.ext (List.kerase_of_notMem_keys (a := k) hk)
    rwa [hm]

/-! ### Eviction -/

/-- `evict_lru` drops the last entry. -/
theorem represents_evictLru (h : Represents s m) :
    Represents s.evictLru (m.cut (m.keys.length - 1)) := by
  rcases List.eq_nil_or_concat s.lru with hnil | ⟨l, n, hl⟩
  · have hlen : m.keys.length = 0 := by rw [h.length_keys, hnil, List.length_nil]
    rw [evictLru_of_nil hnil, Recency.cut_of_length_le (by omega)]
    exact h
  · have hn : n ∈ s.lru := by rw [hl]; simp
    have hnl : n ∉ l := fun hmem ↦ by
      have := h.linked.lru_nodup
      rw [hl, List.concat_eq_append, List.nodup_append] at this
      exact this.2.2 n hmem n (by simp) rfl
    have hstate : s.evictLru = { s with
        lru := s.lru.erase n, lruMap := s.lruMap.erase n.key, cache := s.cache.erase n.key } := by
      have herase : s.lru.erase n = s.lru.dropLast := by
        rw [hl, List.concat_eq_append, List.erase_append_right _ hnl]
        simp
      rw [herase]
      simp [evictLru, hl]
    have hkeys : m.keys = l.map Node.key ++ [n.key] := by rw [h.keys, hl]; simp
    rw [hstate, Recency.cut_pred_eq_erase hkeys]
    exact represents_drop h hn

/-- **The eviction loop ends**, and leaves the `capacity_` most recent entries. -/
theorem represents_evictLoop {fuel : ℕ} (h : Represents s m) (hf : s.lru.length ≤ fuel) :
    ∃ s', evictLoop fuel s = some s' ∧ s'.capacity = s.capacity ∧
      Represents s' (m.cut s.capacity) := by
  have hsize : s.size = m.keys.length := by rw [h.linked.size_eq, h.length_keys]
  induction fuel generalizing s m with
  | zero =>
    rw [h.linked.size_eq] at hsize
    refine ⟨s, ?_, rfl, ?_⟩
    · -- no node is left, so `cache_` is empty and the loop condition is false
      rw [evictLoop, if_neg (by rw [h.linked.size_eq]; omega)]
    · rw [Recency.cut_of_length_le (by omega)]
      exact h
  | succ fuel ih =>
    rw [evictLoop]
    split_ifs with hc
    · -- one entry goes, and the rest of the loop cuts what is left
      have hlen : s.evictLru.lru.length ≤ fuel := by
        rw [evictLru_lru, List.length_dropLast]
        omega
      have hrep := represents_evictLru h
      obtain ⟨s', hs', hcap, hr⟩ :=
        ih hrep hlen (by rw [hrep.linked.size_eq, hrep.length_keys])
      rw [evictLru_capacity] at hcap hr
      rw [Recency.cut_cut, Nat.min_eq_left (by omega)] at hr
      exact ⟨s', hs', hcap, hr⟩
    · refine ⟨s, rfl, rfl, ?_⟩
      rw [Recency.cut_of_length_le (by omega)]
      exact h

/-! ### The five operations -/

/-- Erasing the old node of `key`, if there is one, is legal and removes that key only. -/
theorem unlink_eq (h : Linked s) (key : Bytes) :
    ∃ lru, s.unlink key = some lru ∧ lru.Sublist s.lru ∧
      lru.map Node.key = (s.lru.map Node.key).erase key := by
  rcases hl : s.lruMap.lookup key with - | it
  · refine ⟨s.lru, by rw [unlink, hl], List.Sublist.refl _, ?_⟩
    rw [List.erase_of_not_mem]
    rw [← h.mem_lruMap, ← AList.lookup_eq_none]
    exact hl
  · have hn := (h.lookup_lruMap key it).1 hl
    refine ⟨s.lru.erase ⟨it, key⟩, ?_, List.erase_sublist, h.map_key_erase hn⟩
    rw [unlink, hl]
    exact h.eraseNode_eq hn

/-- Linking a new front node for a key whose old node is gone keeps the containers linked. -/
theorem linked_link (h : Linked s) {key : Bytes} (entry : Entry) {lru : List Node}
    (hsub : lru.Sublist s.lru) (hkeys : lru.map Node.key = (s.lru.map Node.key).erase key) :
    Linked { s with
      cache := s.cache.insert key entry
      lru := ⟨s.freshId, key⟩ :: lru
      lruMap := s.lruMap.insert key s.freshId
      freshId := s.freshId + 1 } := by
  have hnotin : key ∉ lru.map Node.key := by
    rw [hkeys]
    exact h.keys_nodup.not_mem_erase
  -- the nodes of other keys are where they were
  have hmem : ∀ {k it}, k ≠ key → ((⟨it, k⟩ : Node) ∈ lru ↔ (⟨it, k⟩ : Node) ∈ s.lru) := by
    intro k it hk
    refine ⟨fun hin ↦ hsub.subset hin, fun hin ↦ ?_⟩
    have hk' : k ∈ lru.map Node.key := by
      rw [hkeys]
      exact (List.mem_erase_of_ne hk).2 (List.mem_map_of_mem (f := Node.key) hin)
    obtain ⟨n, hn, hnk⟩ := List.mem_map.1 hk'
    rwa [List.inj_on_of_nodup_map h.keys_nodup hin (hsub.subset hn) hnk.symm]
  constructor
  · rw [List.map_cons, List.nodup_cons]
    exact ⟨hnotin, h.keys_nodup.sublist (hsub.map _)⟩
  · rw [List.map_cons, List.nodup_cons]
    refine ⟨fun hin ↦ ?_, h.ids_nodup.sublist (hsub.map _)⟩
    obtain ⟨n, hn, hid⟩ := List.mem_map.1 hin
    exact absurd (h.ids_lt n (hsub.subset hn)) (by simp [hid])
  · intro n hn
    rcases List.mem_cons.1 hn with rfl | hn
    · exact Nat.lt_succ_self _
    · exact Nat.lt_succ_of_lt (h.ids_lt n (hsub.subset hn))
  · intro k
    rw [AList.mem_insert, List.map_cons, List.mem_cons, hkeys, h.mem_cache]
    rcases eq_or_ne k key with hk | hk
    · simp [hk]
    · simp [hk, List.mem_erase_of_ne hk]
  · intro k it
    rcases eq_or_ne k key with rfl | hk
    · rw [AList.lookup_insert, List.mem_cons]
      constructor
      · rintro ⟨rfl⟩
        exact Or.inl rfl
      · rintro (heq | hin)
        · rw [Node.mk.injEq] at heq
          exact congrArg some heq.1.symm
        · exact absurd (List.mem_map_of_mem (f := Node.key) hin) hnotin
    · have hne : (⟨it, k⟩ : Node) ≠ ⟨s.freshId, key⟩ := fun he ↦ hk (Node.mk.inj he).2
      rw [AList.lookup_insert_ne hk, h.lookup_lruMap, List.mem_cons, hmem hk]
      simp [hne]

/-- Both together put the entry in front. -/
theorem represents_link (h : Represents s m) (key : Bytes) (entry : Entry) :
    ∃ lru, s.unlink key = some lru ∧
      Represents { s with
        cache := s.cache.insert key entry
        lru := ⟨s.freshId, key⟩ :: lru
        lruMap := s.lruMap.insert key s.freshId
        freshId := s.freshId + 1 } (m.insert key entry) := by
  obtain ⟨lru, hlru, hsub, hkeys⟩ := unlink_eq h.linked key
  refine ⟨lru, hlru, linked_link h.linked entry hsub hkeys, ?_, fun k ↦ ?_⟩
  · rw [AList.keys_insert, List.map_cons, hkeys, h.keys]
  · rcases eq_or_ne k key with rfl | hk
    · rw [AList.lookup_insert, AList.lookup_insert]
    · rw [AList.lookup_insert_ne hk, AList.lookup_insert_ne hk, h.lookup]

/-- **`set` writes the entry to the front and keeps the `capacity_` most recent ones.** -/
theorem represents_set (h : Represents s m) (key value : Bytes) (ttlSeconds : ℤ) (now : Time) :
    ∃ s', s.set key value ttlSeconds now = some s' ∧ s'.capacity = s.capacity ∧
      Represents s' (m.put s.capacity key ⟨value, now + lifetime ttlSeconds, now⟩) := by
  obtain ⟨lru, hlru, hrep⟩ := represents_link h key ⟨value, now + lifetime ttlSeconds, now⟩
  obtain ⟨s', hs', hcap, hr⟩ := represents_evictLoop hrep le_rfl
  refine ⟨s', ?_, hcap, hr⟩
  simp only [set, hlru, Option.bind_eq_bind, Option.bind_some]
  exact hs'

/-- **`get` answers with the live value** and, on a hit, refreshes the access time in place. -/
theorem represents_get (h : Represents s m) (key : Bytes) (now access : Time) :
    (s.get key now access).2 = (m.live key now).map Entry.value ∧
      (s.get key now access).1.capacity = s.capacity ∧
      Represents (s.get key now access).1 (m.touch key now access) := by
  rcases hl : m.live key now with - | e
  · -- a miss: nothing is found, or what is found has expired
    have hmiss : s.get key now access = ({ s with misses := s.misses + 1 }, none) := by
      rw [get, h.lookup]
      rcases hk : m.lookup key with - | e
      · rfl
      · rw [Contents.live, hk, Option.filter_eq_none_iff] at hl
        have he : e.isExpired now = true := by simpa using hl e rfl
        simp [he]
    rw [hmiss, Contents.touch_of_miss hl]
    exact ⟨rfl, rfl, ⟨⟨h.linked.1, h.linked.2, h.linked.3, h.linked.4, h.linked.5⟩, h.keys,
      h.lookup⟩⟩
  · have hk := Contents.lookup_of_live hl
    have he : e.isExpired now = false := by
      simpa [Entry.isExpired] using (Contents.live_eq_some_iff.1 hl).2
    have hhit : s.get key now access = ({ s with
        cache := s.cache.replace key { e with accessTime := access }
        hits := s.hits + 1 }, some e.value) := by
      simp [get, h.lookup, hk, he]
    have hmem : key ∈ s.cache := AList.lookup_isSome.1 (by rw [h.lookup, hk]; rfl)
    rw [hhit]
    refine ⟨rfl, rfl, ⟨h.linked.1, h.linked.2, h.linked.3, fun k ↦ ?_, h.linked.5⟩, ?_, fun k ↦ ?_⟩
    · rw [AList.mem_replace]
      exact h.linked.mem_cache k
    · rw [Contents.keys_touch]
      exact h.keys
    · rcases eq_or_ne k key with rfl | hne
      · rw [Contents.lookup_touch_self hl, Recency.lookup_replace_self hmem]
      · rw [Contents.lookup_touch_of_ne hne, Recency.lookup_replace_of_ne hne, h.lookup]

theorem exist_eq (h : Represents s m) (key : Bytes) (now : Time) :
    s.exist key now = (m.live key now).isSome := by
  rw [exist, h.lookup, Contents.live]
  rcases m.lookup key with - | e
  · rfl
  · rcases he : e.isExpired now with - | - <;> simp [Option.filter, he]

/-- The sweep over any part of the entries removes the expired ones among them. The induction is
on what the iterator still has in front of it; entries already visited are not looked at again. -/
private theorem represents_sweep (now : Time) {l : List (Σ _ : Bytes, Entry)} (h : Represents s m)
    (hnd : l.NodupKeys) (hl : ∀ e ∈ l, m.lookup e.1 = some e.2) :
    ∃ s' m', l.foldlM (sweep now) s = some s' ∧ s'.capacity = s.capacity ∧ Represents s' m' ∧
      m'.entries = m.entries.filter fun e ↦ !(decide (e.1 ∈ l.keys) && e.2.isExpired now) := by
  induction l generalizing s m with
  | nil =>
    refine ⟨s, m, rfl, rfl, h, ?_⟩
    rw [List.filter_eq_self.2]
    simp
  | cons e l ih =>
    rw [List.nodupKeys_cons] at hnd
    rw [List.forall_mem_cons] at hl
    have hself : ∀ x ∈ m.entries, x.1 = e.1 → x.2 = e.2 := fun x hx hxe ↦ by
      have := AList.mem_lookup_iff.2 hx
      rw [hxe, hl.1] at this
      exact (Option.some.inj this).symm
    rw [List.foldlM_cons]
    by_cases he : e.2.expireTime < now
    · -- the entry goes; those in front of the iterator are of other keys and stay
      have hmem : e.1 ∈ m := AList.lookup_isSome.1 (by rw [hl.1]; rfl)
      obtain ⟨s₁, hs₁, hcap, hr⟩ := represents_remove h hmem
      obtain ⟨s', m', hs', hcap', hr', hm'⟩ := ih hr hnd.2 fun x hx ↦ by
        have hxe : x.1 ≠ e.1 := fun heq ↦ hnd.1 (heq ▸ List.mem_keys_of_mem hx)
        rw [AList.lookup_erase_ne hxe]
        exact hl.2 x hx
      refine ⟨s', m', ?_, hcap'.trans hcap, hr', ?_⟩
      · rw [sweep, if_pos he, hs₁]
        exact hs'
      · rw [hm', Recency.entries_erase_eq_filter, List.filter_filter]
        refine List.filter_congr fun x hx ↦ ?_
        rcases eq_or_ne x.1 e.1 with hxe | hxe
        · simp [hxe, hself x hx hxe, Entry.isExpired, he]
        · simp [hxe]
    · obtain ⟨s', m', hs', hcap', hr', hm'⟩ := ih h hnd.2 hl.2
      refine ⟨s', m', ?_, hcap', hr', ?_⟩
      · rw [sweep, if_neg he]
        exact hs'
      · rw [hm']
        refine List.filter_congr fun x hx ↦ ?_
        rcases eq_or_ne x.1 e.1 with hxe | hxe
        · simp [hxe, hself x hx hxe, Entry.isExpired, he]
        · simp [hxe]

/-- **`cleanup_expired` drops exactly the expired entries** and keeps the order of the others. -/
theorem represents_cleanupExpired (h : Represents s m) (now : Time) :
    ∃ s', s.cleanupExpired now = some s' ∧ s'.capacity = s.capacity ∧
      Represents s' (m.expire now) := by
  obtain ⟨s', m', hs', hcap, hr, hm'⟩ := represents_sweep now h s.cache.nodupKeys
    fun e he ↦ by
      rw [← h.lookup]
      exact AList.mem_lookup_iff.2 he
  refine ⟨s', hs', hcap, ?_⟩
  have hkeep : m' = m.expire now := by
    refine AList.ext (hm'.trans (List.filter_congr fun x hx ↦ ?_))
    have hx' : x.1 ∈ s.cache :=
      (h.linked.mem_cache _).2 ((h.mem_iff _).1 (AList.mem_keys.2 (List.mem_keys_of_mem hx)))
    have hin : x.1 ∈ s.cache.entries.keys := hx'
    simp [hin]
  rwa [← hkeep]

/-! ### Runs -/

/-- **Every call is defined and does to the represented map what it should.** -/
theorem represents_step (h : Represents s m) (c : Call) :
    ∃ s', s.step c = some s' ∧ s'.capacity = s.capacity ∧
      Represents s' (m.step s.capacity c) := by
  cases c with
  | set key value ttlSeconds now => exact represents_set h key value ttlSeconds now
  | get key now access =>
    obtain ⟨-, hcap, hr⟩ := represents_get h key now access
    exact ⟨_, rfl, hcap, hr⟩
  | del key => exact represents_del h key
  | exist key now => exact ⟨s, rfl, rfl, h⟩
  | cleanupExpired now => exact represents_cleanupExpired h now

/-- The same for a sequence of calls. -/
theorem represents_run (h : Represents s m) (calls : List Call) :
    ∃ s', s.run calls = some s' ∧ s'.capacity = s.capacity ∧
      Represents s' (m.run s.capacity calls) := by
  induction calls generalizing s m with
  | nil => exact ⟨s, rfl, rfl, h⟩
  | cons c calls ih =>
    obtain ⟨s₁, hs₁, hcap₁, hr₁⟩ := represents_step h c
    obtain ⟨s', hs', hcap', hr'⟩ := ih hr₁
    refine ⟨s', ?_, hcap'.trans hcap₁, ?_⟩
    · rw [run, List.foldlM_cons, hs₁]
      exact hs'
    · rwa [hcap₁] at hr'

/-- An empty cache respects any capacity. -/
theorem inv_new (capacity : ℕ) : Inv (new capacity) :=
  (represents_new capacity).inv (Nat.zero_le _)

/-- **The representation invariant.** After any calls, at any clock readings and under any
capacity: no call went wrong — no iterator was dangling, no eviction loop ran on for ever — and the
three containers have the same keys, `lru_` without repetition, every iterator of `lru_map_`
designating the one node that holds its key, and no more entries than the capacity. -/
theorem run_new_inv (capacity : ℕ) (calls : List Call) :
    ∃ s, (new capacity).run calls = some s ∧
      (∀ k, k ∈ s.cache ↔ k ∈ s.lru.map Node.key) ∧
      (∀ k, k ∈ s.lruMap ↔ k ∈ s.lru.map Node.key) ∧
      (s.lru.map Node.key).Nodup ∧ (s.lru.map Node.id).Nodup ∧
      (∀ k it, s.lruMap.lookup k = some it → (⟨it, k⟩ : Node) ∈ s.lru) ∧
      s.size ≤ s.capacity ∧ s.capacity = capacity := by
  obtain ⟨s, hs, hcap, hr⟩ := represents_run (represents_new capacity) calls
  have hlen : (Contents.run capacity ∅ calls).keys.length ≤ s.capacity := by
    rw [hcap]
    exact Contents.length_keys_run_le (Nat.zero_le _) calls
  have hinv : Inv s := hr.inv hlen
  exact ⟨s, hs, hinv.mem_cache, hinv.toLinked.mem_lruMap, hinv.keys_nodup, hinv.ids_nodup,
    fun k it ↦ (hinv.lookup_lruMap k it).1, hinv.size_le, hcap⟩

end LRUCache

end DistCache
