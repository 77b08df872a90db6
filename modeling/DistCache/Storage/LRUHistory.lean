import DistCache.Storage.SafeCache
import Mathlib.Data.Finset.Card

/-!
# What a `get` says about the past

A cache answers from its history: a value that `get` returns is the one of the last write to the
key, still within its lifetime (`lookup_run`), and such a value is returned as long as fewer keys
than the capacity were set since (`Held.run`). The two directions meet in `get_history`.

The second direction is where the order of the entries matters. Since every write goes to the
front, the keys ahead of `k` are among the keys set since the last write of `k`, so a full cache
that has pushed `k` out has seen that many distinct younger keys.
-/

namespace DistCache

namespace LRUCache

/-! ### Reading a history -/

/-- The clock readings of a call, in the order in which it makes them. -/
def Call.readings : Call → List Time
  | .set _ _ _ now => [now]
  | .get _ now access => [now, access]
  | .del _ => []
  | .exist _ now => [now]
  | .cleanupExpired now => [now]

/-- The clock never goes back along the history. -/
def Clocked (calls : List Call) : Prop := (calls.flatMap Call.readings).Pairwise (· ≤ ·)

instance (calls : List Call) : Decidable (Clocked calls) :=
  inferInstanceAs (Decidable (List.Pairwise _ _))

/-- The key a call sets or deletes. -/
def Call.written : Call → Option Bytes
  | .set key _ _ _ => some key
  | .del key => some key
  | _ => none

/-- The keys a call sets: one or none. -/
def Call.setKeys : Call → List Bytes
  | .set key _ _ _ => [key]
  | _ => []

/-- The keys set in the course of a history. -/
def setKeys (calls : List Call) : List Bytes := calls.flatMap Call.setKeys

/-- The last set-or-del on `key` is a `set` of `value` at the reading `now`, and `rest` is what was
called since. -/
structure LastSet (calls : List Call) (key value : Bytes) (ttlSeconds : ℤ) (now : Time)
    (rest : List Call) : Prop where
  split : ∃ before, calls = before ++ .set key value ttlSeconds now :: rest
  unwritten : ∀ c ∈ rest, c.written ≠ some key

theorem LastSet.snoc {calls : List Call} {key value : Bytes} {ttlSeconds : ℤ} {now : Time}
    {rest : List Call} (h : LastSet calls key value ttlSeconds now rest) {c : Call}
    (hc : c.written ≠ some key) :
    LastSet (calls ++ [c]) key value ttlSeconds now (rest ++ [c]) := by
  obtain ⟨before, rfl⟩ := h.split
  refine ⟨⟨before, by simp⟩, fun c' hc' ↦ ?_⟩
  rcases List.mem_append.1 hc' with hc' | hc'
  · exact h.unwritten c' hc'
  · rwa [List.mem_singleton.1 hc']

/-! ### Where an entry comes from -/

namespace Contents

/-- **One step back from an entry.** Either the call has just set it, or it was there before the
call, with the same value and the same deadline, and the call did not write its key. -/
theorem lookup_step {capacity : ℕ} {m : Contents} {c : Call} {k : Bytes} {e : Entry}
    (h : (m.step capacity c).lookup k = some e) :
    (∃ ttlSeconds now, c = .set k e.value ttlSeconds now ∧
        e.expireTime = now + lifetime ttlSeconds) ∨
      c.written ≠ some k ∧
        ∃ e₀, m.lookup k = some e₀ ∧ e₀.value = e.value ∧ e₀.expireTime = e.expireTime := by
  have hmem : k ∈ m.step capacity c := AList.lookup_isSome.1 (by rw [h]; rfl)
  cases c with
  | set key value ttlSeconds now =>
    rw [step] at h hmem
    rcases eq_or_ne key k with rfl | hne
    · left
      rw [Recency.lookup_put_self (Recency.mem_put_self.1 hmem), Option.some.injEq] at h
      subst h
      exact ⟨ttlSeconds, now, rfl, rfl⟩
    · right
      rw [Recency.lookup_put_of_ne hne hmem] at h
      exact ⟨by simpa [Call.written] using hne, e, h, rfl, rfl⟩
  | get key now access => exact Or.inr ⟨by simp [Call.written], lookup_touch h⟩
  | del key =>
    rw [step] at h hmem
    have hne : k ≠ key := (AList.mem_erase.1 hmem).1
    rw [AList.lookup_erase_ne hne] at h
    exact Or.inr ⟨by simpa [Call.written] using hne.symm, e, h, rfl, rfl⟩
  | exist key now => exact Or.inr ⟨by simp [Call.written], e, h, rfl, rfl⟩
  | cleanupExpired now =>
    rw [step, expire] at h hmem
    rw [Recency.lookup_keep hmem] at h
    exact Or.inr ⟨by simp [Call.written], e, h, rfl, rfl⟩

/-- Every entry is the trace of the last write to its key. -/
theorem lookup_run {capacity : ℕ} {calls : List Call} {k : Bytes} {e : Entry}
    (h : (run capacity ∅ calls).lookup k = some e) :
    ∃ ttlSeconds now rest, LastSet calls k e.value ttlSeconds now rest ∧
      e.expireTime = now + lifetime ttlSeconds := by
  induction calls using List.reverseRecOn generalizing e with
  | nil => simp at h
  | append_singleton calls c ih =>
    rw [run_append, run_cons, run_nil] at h
    rcases lookup_step h with ⟨ttlSeconds, now, rfl, hd⟩ | ⟨hc, e₀, h₀, hv, hd⟩
    · exact ⟨ttlSeconds, now, [], ⟨⟨calls, rfl⟩, by simp⟩, hd⟩
    · obtain ⟨ttlSeconds, now, rest, hlast, hd₀⟩ := ih h₀
      exact ⟨ttlSeconds, now, rest ++ [c], hv ▸ hlast.snoc hc, hd ▸ hd₀⟩

end Contents

/-! ### How long an entry stays -/

/-- `k` is in the map with value `v` and deadline `d`; only keys of `younger` are ahead of it. -/
structure Held (m : Contents) (k v : Bytes) (d : Time) (younger : List Bytes) : Prop where
  entry : ∃ e, m.lookup k = some e ∧ e.value = v ∧ e.expireTime = d
  ahead : m.ahead k ⊆ younger

namespace Held

variable {capacity : ℕ} {m : Contents} {k v : Bytes} {d : Time} {younger : List Bytes}

theorem mem (h : Held m k v d younger) : k ∈ m := by
  obtain ⟨e, he, -⟩ := h.entry
  exact AList.lookup_isSome.1 (by rw [he]; rfl)

/-- A map with the same keys whose entry of `k` carries the same value and deadline. -/
theorem of_keys_eq {m' : Contents} (h : Held m k v d younger) (hkeys : m'.keys = m.keys)
    (hentry : ∃ e, m'.lookup k = some e ∧ e.value = v ∧ e.expireTime = d) :
    Held m' k v d younger :=
  ⟨hentry, by
    rw [Recency.ahead, hkeys]
    exact h.ahead⟩

/-- Another key is set while there is room for `k` behind the younger keys. -/
theorem put (h : Held m k v d younger) {j : Bytes} (hne : j ≠ k) (e : Entry)
    (hroom : ((j :: younger).toFinset.erase k).card < capacity) :
    Held (m.put capacity j e) k v d (j :: younger) := by
  have hsub : j :: (m.ahead k).erase j ⊆ j :: younger :=
    List.cons_subset_cons _ fun x hx ↦ h.ahead (List.mem_of_mem_erase hx)
  have hnodup : (j :: (m.ahead k).erase j).Nodup :=
    List.nodup_cons.2 ⟨(m.ahead_nodup k).not_mem_erase, (m.ahead_nodup k).erase j⟩
  have hlen : (j :: (m.ahead k).erase j).length ≤ ((j :: younger).toFinset.erase k).card := by
    rw [← List.toFinset_card_of_nodup hnodup]
    refine Finset.card_le_card fun x hx ↦ ?_
    rw [List.mem_toFinset] at hx
    refine Finset.mem_erase.2 ⟨?_, List.mem_toFinset.2 (hsub hx)⟩
    rcases List.mem_cons.1 hx with rfl | hx
    · exact hne
    · exact Recency.ne_of_mem_ahead (List.mem_of_mem_erase hx)
  have hput : k ∈ m.put capacity j e :=
    (Recency.mem_put_of_ne hne).2 ⟨h.mem, lt_of_le_of_lt hlen hroom⟩
  refine ⟨?_, ?_⟩
  · rw [Recency.lookup_put_of_ne hne hput]
    exact h.entry
  · rw [Recency.ahead_put_of_ne hne hput]
    exact hsub

/-- **One call** that does not write `k`, made before the deadline, while there is room. -/
theorem step (h : Held m k v d younger) {c : Call} (hc : c.written ≠ some k)
    (hreadings : ∀ r ∈ c.readings, r ≤ d)
    (hroom : ((c.setKeys ++ younger).toFinset.erase k).card < capacity) :
    Held (m.step capacity c) k v d (c.setKeys ++ younger) := by
  cases c with
  | set key value ttlSeconds now =>
    exact h.put (by simpa [Call.written] using hc) _ hroom
  | get key now access =>
    refine h.of_keys_eq (Contents.keys_touch m key now access) ?_
    have hmem : k ∈ m.touch key now access := Contents.mem_touch.2 h.mem
    obtain ⟨e, he⟩ := Option.isSome_iff_exists.1 (AList.lookup_isSome.2 hmem)
    obtain ⟨e₀, h₀, hv, hd⟩ := Contents.lookup_touch he
    obtain ⟨e₁, h₁, hv₁, hd₁⟩ := h.entry
    obtain rfl : e₀ = e₁ := Option.some.inj (h₀.symm.trans h₁)
    exact ⟨e, he, hv.symm.trans hv₁, hd.symm.trans hd₁⟩
  | del key =>
    have hne : key ≠ k := by simpa [Call.written] using hc
    refine ⟨?_, ?_⟩
    · rw [Contents.step, AList.lookup_erase_ne hne.symm]
      exact h.entry
    · rw [Contents.step, Recency.ahead_erase hne]
      exact fun x hx ↦ h.ahead (List.mem_of_mem_erase hx)
  | exist key now => exact h
  | cleanupExpired now =>
    obtain ⟨e, he, hv, hd⟩ := h.entry
    have hnow : now ≤ d := hreadings now (by simp [Call.readings])
    have hmem : k ∈ m.expire now :=
      Recency.mem_keep.2 ⟨e, he, by simpa [Entry.isExpired, hd] using hnow⟩
    refine ⟨⟨e, ?_, hv, hd⟩, ?_⟩
    · rw [Contents.step, Contents.expire, Recency.lookup_keep hmem, he]
    · exact fun x hx ↦ h.ahead (Recency.ahead_subset_of_sublist (m.keys_keep_sublist _) hmem hx)

private theorem card_erase_le {l l' : List Bytes} (h : l ⊆ l') (k : Bytes) :
    (l.toFinset.erase k).card ≤ (l'.toFinset.erase k).card := by
  refine Finset.card_le_card (Finset.erase_subset_erase _ fun x hx ↦ ?_)
  exact List.mem_toFinset.2 (h (List.mem_toFinset.1 hx))

/-- **A stretch of calls** none of which writes `k`. -/
theorem run (h : Held m k v d younger) {calls : List Call}
    (hcalls : ∀ c ∈ calls, c.written ≠ some k)
    (hreadings : ∀ c ∈ calls, ∀ r ∈ c.readings, r ≤ d)
    (hroom : ((setKeys calls ++ younger).toFinset.erase k).card < capacity) :
    ∃ younger', Held (m.run capacity calls) k v d younger' := by
  induction calls generalizing m younger with
  | nil => exact ⟨younger, h⟩
  | cons c calls ih =>
    rw [List.forall_mem_cons] at hcalls hreadings
    have hsets : setKeys (c :: calls) = c.setKeys ++ setKeys calls := rfl
    -- both the call and the rest of the stretch set some of the keys of the whole stretch
    have hfirst : c.setKeys ++ younger ⊆ setKeys (c :: calls) ++ younger := by
      rw [hsets, List.append_assoc]
      exact List.append_subset.2 ⟨List.subset_append_left _ _, fun x hx ↦ by simp [hx]⟩
    have hothers : setKeys calls ++ (c.setKeys ++ younger) ⊆ setKeys (c :: calls) ++ younger := by
      rw [hsets]
      exact List.append_subset.2 ⟨fun x hx ↦ by simp [hx], hsets ▸ hfirst⟩
    exact ih (h.step hcalls.1 hreadings.1 ((card_erase_le hfirst k).trans_lt hroom)) hcalls.2
      hreadings.2 ((card_erase_le hothers k).trans_lt hroom)

end Held

/-- In a clocked history no call before another one reads a later time. -/
theorem Clocked.le_of_mem {calls : List Call} {c : Call} (h : Clocked (calls ++ [c])) {c' : Call}
    (hc' : c' ∈ calls) {r r' : Time} (hr : r ∈ c'.readings) (hr' : r' ∈ c.readings) : r ≤ r' := by
  rw [Clocked, List.flatMap_append] at h
  exact (List.pairwise_append.1 h).2.2 r (List.mem_flatMap.2 ⟨c', hc', hr⟩) r' (by simpa using hr')

end LRUCache

open LRUCache (Call Contents Clocked LastSet Held setKeys lifetime)

/-- **History semantics.** What a `get` answers after any clocked history: only the value of the
last set-or-del on the key, and only within its lifetime; and that value for certain while fewer
other keys than the capacity were set since. -/
theorem SafeCache.get_history (capacity : ℕ) (calls : List Call) (key value : Bytes)
    (now access : Time) (hclock : Clocked (calls ++ [.get key now access])) :
    ((((new capacity).run calls).get key now access).2 = some value →
        ∃ ttlSeconds t₀ rest, LastSet calls key value ttlSeconds t₀ rest ∧
          now ≤ t₀ + lifetime ttlSeconds) ∧
      ∀ ttlSeconds t₀ rest, LastSet calls key value ttlSeconds t₀ rest →
        now ≤ t₀ + lifetime ttlSeconds → ((setKeys rest).toFinset.erase key).card < capacity →
          (((new capacity).run calls).get key now access).2 = some value := by
  rw [get_snd, view_run, view_new, capacity_new]
  constructor
  · -- what is found is the trace of the last write
    intro h
    obtain ⟨e, he, rfl⟩ := Option.map_eq_some_iff.1 h
    obtain ⟨hlookup, hnow⟩ := Contents.live_eq_some_iff.1 he
    obtain ⟨ttlSeconds, t₀, rest, hlast, hd⟩ := Contents.lookup_run hlookup
    exact ⟨ttlSeconds, t₀, rest, hlast, hd ▸ hnow⟩
  · -- the write put the key in front; follow it through the calls made since
    intro ttlSeconds t₀ rest hlast hnow hroom
    obtain ⟨before, rfl⟩ := hlast.split
    rw [Contents.run_append, Contents.run_cons]
    have hpos : 0 < capacity := (Nat.zero_le _).trans_lt hroom
    have hset : Held ((Contents.run capacity ∅ before).step capacity
        (.set key value ttlSeconds t₀)) key value (t₀ + lifetime ttlSeconds) [] :=
      ⟨⟨_, Recency.lookup_put_self hpos, rfl, rfl⟩, by
        rw [Contents.step, Recency.ahead_put_self]
        exact List.nil_subset _⟩
    have hreadings : ∀ c ∈ rest, ∀ r ∈ c.readings, r ≤ t₀ + lifetime ttlSeconds :=
      fun c hc r hr ↦ (hclock.le_of_mem (by simp [hc]) hr (by simp [Call.readings])).trans hnow
    obtain ⟨younger, hheld⟩ := hset.run hlast.unwritten hreadings (by simpa using hroom)
    obtain ⟨e, he, hv, hd⟩ := hheld.entry
    rw [Contents.live_eq_some_iff.2 ⟨he, hd ▸ hnow⟩, Option.map_some, hv]

/-- With capacity two, one younger key and a sweep in between, the value is still there. -/
theorem SafeCache.get_history_two :
    (((new 2).run [.set [1] [10] 1 0, .set [2] [20] (-1) 5, .cleanupExpired 7]).get [1] 9 9).2 =
      some [10] :=
  (get_history 2 _ [1] [10] 9 9 (by decide)).2 1 0 [.set [2] [20] (-1) 5, .cleanupExpired 7]
    ⟨⟨[], rfl⟩, by decide⟩ (by decide) (by decide)

end DistCache
