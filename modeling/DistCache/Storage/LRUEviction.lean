import DistCache.Lib.Machine
import DistCache.Storage.SafeCache

/-!
# Which entry an eviction drops

An entry records its recency twice: in `access_time`, which both `set` and a hitting `get` refresh,
and in its place in `lru_`, which only `set` does. An eviction goes by the place. So the two agree
as long as no `get` should have moved an entry, that is, as long as every hit is on the entry that
is in front anyway (`FrontHits`); then the entries are sorted by access time along the whole run
(`run_descending`) and the evicted one is the oldest (`evictsOldest_of_frontHits`).

A hit elsewhere is enough to go wrong: `not_evictsOldest` reads the older of two entries, and the
next new key evicts just that one.
-/

namespace DistCache

namespace LRUCache

namespace Contents

/-- The reading that a call stores as an access time. A missing `get` takes none. -/
def stamps (m : Contents) : Call → List Time
  | .set _ _ _ now => [now]
  | .get key now access => if (m.live key now).isSome then [access] else []
  | _ => []

/-- The order of the entries is that of their access times, latest first. -/
def Descending (m : Contents) : Prop :=
  m.entries.Pairwise fun a b ↦ b.2.accessTime < a.2.accessTime

/-- Every entry was accessed before `t`. -/
def Before (m : Contents) (t : Time) : Prop := ∀ e ∈ m.entries, e.2.accessTime < t

theorem Descending.sublist {m m' : Contents} (h : m.Descending)
    (hsub : m'.entries.Sublist m.entries) : m'.Descending := List.Pairwise.sublist hsub h

theorem Before.sublist {m m' : Contents} {t : Time} (h : m.Before t)
    (hsub : m'.entries.Sublist m.entries) : m'.Before t := fun e he ↦ h e (hsub.subset he)

/-- The front entry read again stays in front, with a later stamp. -/
theorem entries_touch_front {m : Contents} {key : Bytes} {now : Time} {e : Entry}
    (hlive : m.live key now = some e) (hfront : m.keys.head? = some key) (access : Time) :
    ∃ rest, m.entries = ⟨key, e⟩ :: rest ∧
      (m.touch key now access).entries = ⟨key, { e with accessTime := access }⟩ :: rest := by
  rcases hm : m.entries with - | ⟨⟨k, e'⟩, rest⟩
  · simp [AList.keys, hm] at hfront
  · obtain rfl : k = key := by simpa [AList.keys, hm] using hfront
    have hlookup := lookup_of_live hlive
    obtain rfl : e' = e := by simpa [AList.lookup, hm] using hlookup
    refine ⟨rest, rfl, ?_⟩
    rw [touch, hlive]
    show List.kreplace k _ m.entries = _
    rw [hm]
    exact List.lookmap_cons_some _ _ (if_pos rfl)

/-- The entries of a write: the new one in front of some of the old ones. -/
theorem entries_put (capacity : ℕ) (m : Contents) (key : Bytes) (e : Entry) :
    (m.put capacity key e).entries.Sublist (⟨key, e⟩ :: m.entries) :=
  (List.take_sublist _ _).trans ((List.kerase_sublist _ _).cons_cons _)

/-- **One call** whose hit, if it is one, is in front. -/
theorem descending_step (capacity : ℕ) {m : Contents} {c : Call} (hd : m.Descending)
    (hb : ∀ t ∈ m.stamps c, m.Before t)
    (hfront : ∀ key now access, c = .get key now access → (m.live key now).isSome = true →
      m.keys.head? = some key) :
    (m.step capacity c).Descending ∧ ∀ t, m.Before t → (∀ r ∈ m.stamps c, r < t) →
      (m.step capacity c).Before t := by
  cases c with
  | set key value ttlSeconds now =>
    -- the new entry is in front and has the latest stamp
    have hsub := entries_put capacity m key ⟨value, now + lifetime ttlSeconds, now⟩
    refine ⟨List.Pairwise.sublist hsub (List.pairwise_cons.2 ⟨hb now (by simp [stamps]), hd⟩),
      fun t ht hr e he ↦ ?_⟩
    rcases List.mem_cons.1 (hsub.subset he) with rfl | he
    · exact hr now (by simp [stamps])
    · exact ht e he
  | get key now access =>
    rcases hl : m.live key now with - | e
    · rw [step, touch_of_miss hl]
      exact ⟨hd, fun t ht _ ↦ ht⟩
    · -- the entry read is in front already, and gets the latest stamp
      obtain ⟨rest, hm, htouch⟩ := entries_touch_front hl
        (hfront key now access rfl (by rw [hl]; rfl)) access
      have hacc : m.Before access := hb access (by simp [stamps, hl])
      rw [Descending, hm, List.pairwise_cons] at hd
      rw [step]
      refine ⟨?_, fun t ht hr x hx ↦ ?_⟩
      · rw [Descending, htouch, List.pairwise_cons]
        exact ⟨fun x hx ↦ hacc x (hm ▸ List.mem_cons_of_mem _ hx), hd.2⟩
      · rw [htouch, List.mem_cons] at hx
        rcases hx with rfl | hx
        · exact hr access (by simp [stamps, hl])
        · exact ht x (hm ▸ List.mem_cons_of_mem _ hx)
  | del key =>
    have hsub : AList.entries (m.erase key) |>.Sublist m.entries := List.kerase_sublist _ _
    exact ⟨hd.sublist hsub, fun t ht _ ↦ ht.sublist hsub⟩
  | exist key now => exact ⟨hd, fun t ht _ ↦ ht⟩
  | cleanupExpired now =>
    have hsub : (m.expire now).entries.Sublist m.entries := List.filter_sublist
    exact ⟨hd.sublist hsub, fun t ht _ ↦ ht.sublist hsub⟩

end Contents

end LRUCache

namespace SafeCache

open LRUCache (Call Contents lifetime)

/-- A call does not have to move an entry: a `get` that hits reads the entry in front. -/
def FrontHit (s : SafeCache) : Call → Prop
  | .get key now _ => s.exist key now = true → s.keys.head? = some key
  | _ => True

/-- Along a sequence of calls no `get` has to move an entry. -/
def FrontHits (s : SafeCache) (calls : List Call) : Prop := Machine.Along step FrontHit s calls

instance (s : SafeCache) (c : Call) : Decidable (s.FrontHit c) := by
  unfold FrontHit
  split <;> infer_instance

instance (s : SafeCache) (calls : List Call) : Decidable (s.FrontHits calls) :=
  Machine.decidableAlong step FrontHit s calls

/-- The access times that a sequence of calls stores, in order. -/
def stamps (s : SafeCache) (calls : List Call) : List Time :=
  Machine.outputs step (fun s c ↦ s.view.stamps c) s calls

/-- The clock strictly increases from one access to the next. -/
def Ticking (s : SafeCache) (calls : List Call) : Prop := (s.stamps calls).Pairwise (· < ·)

instance (s : SafeCache) (calls : List Call) : Decidable (s.Ticking calls) :=
  inferInstanceAs (Decidable (List.Pairwise _ _))

theorem stamps_append (s : SafeCache) (calls calls' : List Call) :
    s.stamps (calls ++ calls') = s.stamps calls ++ (s.run calls).stamps calls' :=
  Machine.outputs_append ..

theorem stamps_cons (s : SafeCache) (c : Call) (calls : List Call) :
    s.stamps (c :: calls) = s.view.stamps c ++ (s.step c).stamps calls := rfl

/-- The access time stored for a key. -/
def accessTime? (s : SafeCache) (k : Bytes) : Option Time :=
  (s.raw.cache.lookup k).map Entry.accessTime

/-- Of all keys in the cache, `old` is the one accessed longest ago. -/
def Oldest (s : SafeCache) (old : Bytes) : Prop :=
  ∃ t, s.accessTime? old = some t ∧
    ∀ k ∈ s.keys, k ≠ old → ∃ t', s.accessTime? k = some t' ∧ t < t'

/-- What least-recently-used means for a `set`: a new key evicts nothing but the oldest entry. -/
def EvictsOldest (s : SafeCache) (key value : Bytes) (ttlSeconds : ℤ) (now : Time) : Prop :=
  key ∉ s.keys → ∀ old ∈ s.keys, old ∉ (s.set key value ttlSeconds now).keys → s.Oldest old

/-- **Along a run without misplaced hits** the entries stay sorted by access time. -/
theorem run_descending {s : SafeCache} {calls : List Call} {t : Time} (hd : s.view.Descending)
    (hb : ∀ r ∈ s.stamps calls, s.view.Before r) (hbt : s.view.Before t)
    (hticks : s.Ticking calls) (hbefore : ∀ r ∈ s.stamps calls, r < t)
    (hhits : s.FrontHits calls) :
    (s.run calls).view.Descending ∧ (s.run calls).view.Before t := by
  induction calls generalizing s with
  | nil => exact ⟨hd, hbt⟩
  | cons c calls ih =>
    rw [Ticking, stamps_cons, List.pairwise_append] at hticks
    obtain ⟨-, hrest, hlt⟩ := hticks
    rw [stamps_cons] at hb hbefore
    obtain ⟨hd', hb'⟩ := Contents.descending_step s.capacity hd
      (fun r hr ↦ hb r (List.mem_append_left _ hr)) fun key now access hc hlive ↦ by
        rw [s.keys_view]
        subst hc
        exact hhits.1 (by rwa [exist_eq])
    rw [← view_step] at hd' hb'
    refine ih hd' (fun r hr ↦ hb' r (hb r (List.mem_append_right _ hr)) fun r' hr' ↦ ?_)
      (hb' t hbt fun r hr ↦ hbefore r (List.mem_append_left _ hr)) hrest
      (fun r hr ↦ hbefore r (List.mem_append_right _ hr)) hhits.2
    exact hlt r' hr' r hr

/-- The entry an insertion of a new key pushes out is the last one. -/
theorem eq_append_of_evicted {s : SafeCache} {key value : Bytes} {ttlSeconds : ℤ} {now : Time}
    (hnew : key ∉ s.keys) {old : Bytes} (hin : old ∈ s.keys)
    (hout : old ∉ (s.set key value ttlSeconds now).keys) (hpos : 0 < s.capacity) :
    ∃ l, s.keys = l ++ [old] := by
  have hset : (s.set key value ttlSeconds now).keys = key :: s.keys.take (s.capacity - 1) := by
    obtain ⟨c, hc⟩ := Nat.exists_eq_add_of_lt hpos
    rw [← keys_view, view_set, Recency.keys_put, keys_view, List.erase_of_not_mem hnew, hc]
    simp
  have hlen : s.keys.length ≤ s.capacity := s.keys_view ▸ s.length_view_le
  rcases List.eq_nil_or_concat s.keys with hnil | ⟨l, last, hl⟩
  · rw [hnil] at hin
    exact absurd hin List.not_mem_nil
  · rw [List.concat_eq_append] at hl
    rw [hset, List.mem_cons, not_or, hl] at hout
    rw [hl, List.length_append, List.length_singleton] at hlen
    refine ⟨l, ?_⟩
    rw [hl, List.mem_append, List.mem_singleton] at hin
    rcases hin with hin | rfl
    · refine absurd ?_ hout.2
      rw [List.take_append, List.take_of_length_le (by omega)]
      exact List.mem_append_left _ hin
    · exact hl

/-- In a sorted cache the last key is the oldest. -/
theorem oldest_of_descending {s : SafeCache} (hd : s.view.Descending) {l : List Bytes} {old : Bytes}
    (hl : s.keys = l ++ [old]) : s.Oldest old := by
  have hentry : ∀ e ∈ s.view.entries, s.accessTime? e.1 = some e.2.accessTime := fun e he ↦ by
    rw [accessTime?, ← lookup_view, AList.mem_lookup_iff.2 he, Option.map_some]
  have hkeys : s.view.entries.map Sigma.fst = l ++ [old] := s.keys_view.trans hl
  obtain ⟨es, es', hes, hl', hold⟩ := List.map_eq_append_iff.1 hkeys
  obtain ⟨e, rfl, rfl⟩ := List.map_eq_singleton_iff.1 hold
  rw [hes] at hentry
  rw [Contents.Descending, hes, List.pairwise_append] at hd
  refine ⟨e.2.accessTime, hentry e (by simp), fun k hk hne ↦ ?_⟩
  rw [hl, List.mem_append, List.mem_singleton, ← hl'] at hk
  obtain ⟨e', he', rfl⟩ := List.mem_map.1 (hk.resolve_right hne)
  exact ⟨e'.2.accessTime, hentry e' (List.mem_append_left _ he'), hd.2.2 e' he' e (by simp)⟩

/-- **Least-recently-used, as far as it goes.** In every run of a cache with room for an entry in
which no `get` has to move an entry, a `set` of a new key evicts nothing but the oldest entry. -/
theorem evictsOldest_of_frontHits {capacity : ℕ} (hpos : 0 < capacity) (calls : List Call)
    (key value : Bytes) (ttlSeconds : ℤ) (now : Time)
    (hticks : (new capacity).Ticking (calls ++ [.set key value ttlSeconds now]))
    (hhits : (new capacity).FrontHits calls) :
    ((new capacity).run calls).EvictsOldest key value ttlSeconds now := by
  intro hnew old hin hout
  rw [Ticking, stamps_append, List.pairwise_append] at hticks
  have hempty : ∀ t, (new capacity).view.Before t := fun t e he ↦ by
    rw [view_new] at he
    exact absurd he List.not_mem_nil
  have hd : ((new capacity).run calls).view.Descending := by
    refine (run_descending (t := now) ?_ (fun r _ ↦ hempty r) (hempty now) hticks.1
      (fun r hr ↦ hticks.2.2 r hr now (List.mem_singleton_self now)) hhits).1
    rw [view_new]
    exact List.Pairwise.nil
  obtain ⟨l, hl⟩ := eq_append_of_evicted hnew hin hout (by rwa [capacity_run])
  exact oldest_of_descending hd hl

/-- Reading the front entry `b` again and then pushing `a` out. -/
theorem evictsOldest_of_frontHits_two :
    ((new 2).run [.set [97] [0] (-1) 0, .set [98] [1] (-1) 1, .get [98] 2 3]).EvictsOldest
      [99] [2] (-1) 4 :=
  evictsOldest_of_frontHits (by decide) _ _ _ _ _ (by decide) (by decide)

/-- **A read entry is evicted.** With capacity two, `a` is read after `b` was written, and the next
new key evicts `a`. -/
theorem not_evictsOldest :
    (new 2).Ticking
        [.set [97] [0] (-1) 0, .set [98] [1] (-1) 1, .get [97] 2 3, .set [99] [2] (-1) 4] ∧
      ¬ ((new 2).run [.set [97] [0] (-1) 0, .set [98] [1] (-1) 1, .get [97] 2 3]).EvictsOldest
        [99] [2] (-1) 4 := by
  refine ⟨by decide, fun h ↦ ?_⟩
  obtain ⟨t, ht, hall⟩ := h (by decide) [97] (by decide) (by decide)
  obtain ⟨t', ht', hlt⟩ := hall [98] (by decide) (by decide)
  obtain rfl : t = 3 := Option.some.inj (ht.symm.trans (by decide))
  obtain rfl : t' = 1 := Option.some.inj (ht'.symm.trans (by decide))
  exact absurd hlt (by decide)

end SafeCache

end DistCache
