import DistCache.Lib.RecencyFront
import DistCache.Storage.LRUSweeps

/-!
# A larger cache never does worse

Eviction goes by the order of `lru_`, and no call but `set` moves a key in it. So two caches of
different capacity that receive the same calls order the keys they share alike, and what the smaller
one holds is at every moment what the larger one starts with (`Contents.front_run`). A `get` or
`exists` that is answered by the smaller one is answered by the larger one, and with the same value:
the anomaly known from first-in-first-out replacement cannot happen (`SafeCache.answers_capacity`).
No condition on the clock readings is needed, both caches see the same ones.

The counters behind `hit_rate` say how often each case occurred (`SafeCache.counters_run`).
-/

namespace DistCache

namespace LRUCache

namespace Contents

variable {A B : Contents}

/-- What is alive in the front part is alive in the whole, and is the same entry. -/
theorem live_of_front (h : Recency.Front A B) {k : Bytes} {now : Time} {e : Entry}
    (he : A.live k now = some e) : B.live k now = some e := by
  obtain ⟨hlookup, hnow⟩ := live_eq_some_iff.1 he
  have hk : k ∈ A := AList.lookup_isSome.1 (by rw [hlookup]; rfl)
  exact live_eq_some_iff.2 ⟨(h.lookup_eq hk).symm.trans hlookup, hnow⟩

/-- A `get` of both. -/
theorem front_touch (h : Recency.Front A B) (key : Bytes) (now access : Time) :
    Recency.Front (A.touch key now access) (B.touch key now access) := by
  by_cases hk : key ∈ A
  · -- both hold the entry, so both hit or both miss
    have hlive : B.live key now = A.live key now := by rw [live, live, h.lookup_eq hk]
    rcases hA : A.live key now with - | e
    · rw [touch_of_miss hA, touch_of_miss (hlive.trans hA)]
      exact h
    · simp only [touch, hlive, hA]
      exact h.replace hk _
  · have hA : A.live key now = none := by
      rw [live, AList.lookup_eq_none.2 hk, Option.filter_none]
    rw [touch_of_miss hA]
    rcases hB : B.live key now with - | e
    · rw [touch_of_miss hB]
      exact h
    · simp only [touch, hB]
      exact h.replace_right hk _

/-- **A call** of both. -/
theorem front_step (h : Recency.Front A B) {capacity capacity' : ℕ} (hc : capacity ≤ capacity')
    (c : Call) : Recency.Front (A.step capacity c) (B.step capacity' c) := by
  cases c with
  | set key value ttlSeconds now => exact h.put hc key _
  | get key now access => exact front_touch h key now access
  | del key => exact h.erase key
  | exist key now => exact h
  | cleanupExpired now => exact h.keep _

/-- **A run** of both. -/
theorem front_run (h : Recency.Front A B) {capacity capacity' : ℕ} (hc : capacity ≤ capacity')
    (calls : List Call) : Recency.Front (A.run capacity calls) (B.run capacity' calls) := by
  induction calls generalizing A B with
  | nil => exact h
  | cons c calls ih => exact ih (front_step h hc c)

end Contents

/-! ### Answers, counted -/

namespace Answer

/-- A `get` that found a value. -/
def isHit : Answer → Bool
  | got (some _) => true
  | _ => false

/-- A `get` that found none. -/
def isMiss : Answer → Bool
  | got none => true
  | _ => false

variable {l l' : List Answer}

/-- Answers that say no less count no fewer hits. -/
theorem countP_isHit_le (h : List.Forall₂ Kept l l') : l.countP isHit ≤ l'.countP isHit := by
  induction h with
  | nil => exact le_rfl
  | @cons a a' l l' ha _ ih =>
    have hle : (if isHit a = true then 1 else 0) ≤ if isHit a' = true then 1 else 0 := by
      cases ha with
      | @got v v' hv =>
        cases v with
        | none => exact Nat.zero_le _
        | some value =>
          obtain rfl := hv value rfl
          exact le_rfl
      | found => exact Nat.zero_le _
    rw [List.countP_cons, List.countP_cons]
    exact Nat.add_le_add ih hle

/-- The same answers in number are hits and misses. -/
theorem countP_add_countP (h : List.Forall₂ Kept l l') :
    l.countP isHit + l.countP isMiss = l'.countP isHit + l'.countP isMiss := by
  induction h with
  | nil => rfl
  | @cons a a' l l' ha _ ih =>
    simp only [List.countP_cons]
    cases ha with
    | @got v v' hv => cases v <;> cases v' <;> simp [isHit, isMiss] <;> omega
    | found => simpa [isHit, isMiss] using ih

end Answer

/-! ### `hits_` and `misses_` -/

/-- Both counters are left alone. -/
def SameCounters (s s' : LRUCache) : Prop := s'.hits = s.hits ∧ s'.misses = s.misses

theorem sameCounters_evictLoop {fuel : ℕ} {s s' : LRUCache} (h : evictLoop fuel s = some s') :
    SameCounters s s' := by
  induction fuel generalizing s with
  | zero =>
    rw [evictLoop] at h
    split_ifs at h
    cases h
    exact ⟨rfl, rfl⟩
  | succ fuel ih =>
    rw [evictLoop] at h
    split_ifs at h
    · have hevict : SameCounters s s.evictLru := by
        rw [evictLru]
        split <;> exact ⟨rfl, rfl⟩
      exact ⟨(ih h).1.trans hevict.1, (ih h).2.trans hevict.2⟩
    · cases h
      exact ⟨rfl, rfl⟩

theorem sameCounters_remove {s s' : LRUCache} {key : Bytes} (h : s.remove key = some s') :
    SameCounters s s' := by
  obtain ⟨it, -, h⟩ := Option.bind_eq_some_iff.1 h
  obtain ⟨lru, -, h⟩ := Option.bind_eq_some_iff.1 h
  cases h
  exact ⟨rfl, rfl⟩

theorem sameCounters_cleanupExpired {s s' : LRUCache} {now : Time}
    (h : s.cleanupExpired now = some s') : SameCounters s s' := by
  have key : ∀ (l : List (Σ _ : Bytes, Entry)) (s : LRUCache),
      l.foldlM (sweep now) s = some s' → SameCounters s s' := by
    intro l
    induction l with
    | nil =>
      intro s h
      cases h
      exact ⟨rfl, rfl⟩
    | cons e l ih =>
      intro s h
      rw [List.foldlM_cons] at h
      obtain ⟨s₁, hfirst, hrest⟩ := Option.bind_eq_some_iff.1 h
      have hsame : SameCounters s s₁ := by
        rw [sweep] at hfirst
        split_ifs at hfirst
        · exact sameCounters_remove hfirst
        · cases hfirst
          exact ⟨rfl, rfl⟩
      exact ⟨(ih s₁ hrest).1.trans hsame.1, (ih s₁ hrest).2.trans hsame.2⟩
  exact key _ s h

end LRUCache

open LRUCache (Answer Call Contents SameCounters)

namespace SafeCache

/-- **One call**: a `get` moves one of the counters, by its answer, and no other call does. -/
theorem counters_step (s : SafeCache) (c : Call) :
    (s.step c).raw.hits = s.raw.hits + (s.answer c).countP Answer.isHit ∧
      (s.step c).raw.misses = s.raw.misses + (s.answer c).countP Answer.isMiss := by
  have hstep := s.raw_step c
  cases c with
  | set key value ttlSeconds now =>
    obtain ⟨lru, -, hset⟩ := Option.bind_eq_some_iff.1 hstep
    have hloop := LRUCache.sameCounters_evictLoop hset
    exact hloop
  | get key now access =>
    have hget : (s.raw.get key now access).1 = (s.step (.get key now access)).raw :=
      Option.some.inj hstep
    rw [← hget, answer, SafeCache.get]
    simp only [LRUCache.get]
    split
    · exact ⟨rfl, rfl⟩
    · split_ifs <;> exact ⟨rfl, rfl⟩
  | del key =>
    have hdel : s.raw.del key = some (s.step (.del key)).raw := hstep
    rw [LRUCache.del] at hdel
    split_ifs at hdel
    · exact LRUCache.sameCounters_remove hdel
    · rw [← Option.some.inj hdel]
      exact ⟨rfl, rfl⟩
  | exist key now =>
    rw [← (Option.some.inj hstep : s.raw = _)]
    exact ⟨rfl, rfl⟩
  | cleanupExpired now => exact LRUCache.sameCounters_cleanupExpired hstep

/-- **A run**: the counters count the answers. -/
theorem counters_run (s : SafeCache) (calls : List Call) :
    (s.run calls).raw.hits = s.raw.hits + (s.answers calls).countP Answer.isHit ∧
      (s.run calls).raw.misses = s.raw.misses + (s.answers calls).countP Answer.isMiss := by
  induction calls generalizing s with
  | nil => exact ⟨rfl, rfl⟩
  | cons c calls ih =>
    have hanswers : s.answers (c :: calls) = s.answer c ++ (s.step c).answers calls := rfl
    obtain ⟨hhits, hmisses⟩ := ih (s.step c)
    obtain ⟨hhit, hmiss⟩ := s.counters_step c
    rw [hanswers, List.countP_append, List.countP_append, ← Nat.add_assoc, ← Nat.add_assoc,
      ← hhit, ← hmiss]
    exact ⟨hhits, hmisses⟩

variable {s s' : SafeCache}

/-- **One call**, to a cache and to a larger one. -/
theorem answer_kept_of_front (h : Recency.Front s.view s'.view) (c : Call) :
    List.Forall₂ Answer.Kept (s.answer c) (s'.answer c) := by
  cases c with
  | get key now access =>
    refine List.Forall₂.cons (.got fun value hv ↦ ?_) List.Forall₂.nil
    rw [get_snd] at hv ⊢
    obtain ⟨e, he, rfl⟩ := Option.map_eq_some_iff.1 hv
    rw [Contents.live_of_front h he, Option.map_some]
  | exist key now =>
    refine List.Forall₂.cons (.found fun hb ↦ ?_) List.Forall₂.nil
    rw [exist_eq] at hb ⊢
    obtain ⟨e, he⟩ := Option.isSome_iff_exists.1 hb
    rw [Contents.live_of_front h he, Option.isSome_some]
  | set key value ttlSeconds now => exact List.Forall₂.nil
  | del key => exact List.Forall₂.nil
  | cleanupExpired now => exact List.Forall₂.nil

/-- **A run**, of a cache and of a larger one. -/
theorem answers_kept_of_front (h : Recency.Front s.view s'.view) (hc : s.capacity ≤ s'.capacity)
    (calls : List Call) : List.Forall₂ Answer.Kept (s.answers calls) (s'.answers calls) := by
  induction calls generalizing s s' with
  | nil => exact List.Forall₂.nil
  | cons c calls ih =>
    refine List.rel_append (answer_kept_of_front h c) (ih ?_ ?_)
    · rw [view_step, view_step]
      exact Contents.front_step h hc c
    · rwa [capacity_step, capacity_step]

/-- **No anomaly.** Whatever the calls and their clock readings: what the smaller cache holds is the
front part of what the larger one holds, every answer it gives is given by the larger one, and the
larger one counts no fewer hits among the same number of `get`s. -/
theorem answers_capacity {capacity capacity' : ℕ} (hc : capacity ≤ capacity')
    (calls : List Call) :
    let small := (new capacity).run calls
    let large := (new capacity').run calls
    Recency.Front small.view large.view ∧
      List.Forall₂ Answer.Kept ((new capacity).answers calls) ((new capacity').answers calls) ∧
      small.raw.hits ≤ large.raw.hits ∧
      small.raw.hits + small.raw.misses = large.raw.hits + large.raw.misses := by
  intro small large
  have hstart : Recency.Front (new capacity).view (new capacity').view := by
    rw [view_new, view_new]
    exact Recency.Front.refl _
  have hkept := answers_kept_of_front hstart hc calls
  obtain ⟨hhits, hmisses⟩ := (new capacity).counters_run calls
  obtain ⟨hhits', hmisses'⟩ := (new capacity').counters_run calls
  refine ⟨?_, hkept, ?_, ?_⟩
  · rw [view_run, view_run]
    exact Contents.front_run hstart hc calls
  · rw [hhits, hhits']
    exact Nat.add_le_add_left (Answer.countP_isHit_le hkept) _
  · have htotal := Answer.countP_add_countP hkept
    have hzero (c : ℕ) : (new c).raw.hits = 0 ∧ (new c).raw.misses = 0 := ⟨rfl, rfl⟩
    rw [hhits, hmisses, hhits', hmisses', (hzero _).1, (hzero _).2, (hzero _).1, (hzero _).2]
    omega

/-- Three keys in turn, which two places do not hold and three do. -/
theorem answers_capacity_two :
    let calls : List Call := [.set [1] [10] 9 0, .set [2] [20] 9 1, .set [3] [30] 9 2,
      .get [1] 3 3, .get [3] 4 4]
    ((new 2).run calls).raw.hits ≤ ((new 3).run calls).raw.hits :=
  (answers_capacity (by decide) _).2.2.1

end SafeCache

end DistCache
