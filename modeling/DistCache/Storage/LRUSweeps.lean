import DistCache.Lib.Machine
import DistCache.Storage.LRUHistory

/-!
# Sweeping more often

`main` sweeps expired entries in the background, at moments no client controls. Sweeps free room, so
a run with more of them evicts other keys, and from the first such eviction on neither of the two
caches is part of the other. What survives is a comparison in one direction: whatever the run
without the extra sweeps holds and has not outlived its deadline, the run with them holds too, and
with no more keys ahead of it (`Swept`). No answer gets lost, then (`answers_sweeps`).
-/

namespace DistCache

namespace LRUCache

/-- What a reading call answers. -/
inductive Answer where
  | got (value : Option Bytes)
  | found (alive : Bool)
  deriving DecidableEq, Repr

/-- The second answer says no less than the first: a value that was found is found again. -/
inductive Answer.Kept : Answer → Answer → Prop
  | got {v v' : Option Bytes} (h : ∀ value, v = some value → v' = some value) :
    Kept (.got v) (.got v')
  | found {b b' : Bool} (h : b = true → b' = true) : Kept (.found b) (.found b')

/-- The second sequence is the first one with sweeps inserted. -/
inductive WithSweeps : List Call → List Call → Prop
  | nil : WithSweeps [] []
  | call (c : Call) {calls calls' : List Call} (h : WithSweeps calls calls') :
    WithSweeps (c :: calls) (c :: calls')
  | sweep (now : Time) {calls calls' : List Call} (h : WithSweeps calls calls') :
    WithSweeps calls (.cleanupExpired now :: calls')

/-- `A` has been swept more often than `B`, the last time at `t`. -/
structure Swept (t : Time) (A B : Contents) : Prop where
  /-- What `A` lacks has outlived its deadline. -/
  covers : Recency.Covers (fun k ↦ ∀ e, B.lookup k = some e → e.expireTime < t) A B
  entry : ∀ k ∈ A, k ∈ B → A.lookup k = B.lookup k

namespace Swept

variable {t : Time} {A B : Contents}

theorem refl (t : Time) (A : Contents) : Swept t A A :=
  ⟨⟨fun _ hk ↦ Or.inl hk, fun _ _ _ ↦ List.Subset.refl _⟩, fun _ _ _ ↦ rfl⟩

/-- What is alive in `B` is alive in `A`, and is the same entry. -/
theorem live (h : Swept t A B) {k : Bytes} {now : Time} {e : Entry} (ht : t ≤ now)
    (he : B.live k now = some e) : A.live k now = some e := by
  obtain ⟨hlookup, hnow⟩ := Contents.live_eq_some_iff.1 he
  have hB : k ∈ B := AList.lookup_isSome.1 (by rw [hlookup]; rfl)
  rcases h.covers.mem k hB with hA | hgone
  · exact Contents.live_eq_some_iff.2 ⟨(h.entry k hA hB).trans hlookup, hnow⟩
  · exact absurd (ht.trans hnow) (not_le.2 (hgone e hlookup))

/-- **An extra sweep.** -/
theorem sweep (h : Swept t A B) {now : Time} (ht : t ≤ now) : Swept now (A.expire now) B := by
  have hcovers : Recency.Covers (fun k ↦ ∀ e, B.lookup k = some e → e.expireTime < now) A B :=
    h.covers.mono fun k hk e he ↦ (hk e he).trans_le ht
  refine ⟨hcovers.keep_left fun k a ha hexpired e he ↦ ?_, fun k hkA hkB ↦ ?_⟩
  · -- the entry that is swept is the one `B` holds
    have hentry := h.entry k (AList.lookup_isSome.1 (by rw [ha]; rfl))
      (AList.lookup_isSome.1 (by rw [he]; rfl))
    rw [ha, he, Option.some.injEq] at hentry
    subst hentry
    simpa [Entry.isExpired] using hexpired
  · rw [Contents.expire, Recency.lookup_keep hkA]
    exact h.entry k (AList.mem_keys.2 ((A.keys_keep_sublist _).subset hkA)) hkB

theorem put (h : Swept t A B) (capacity : ℕ) (j : Bytes) (e : Entry) :
    Swept t (A.put capacity j e) (B.put capacity j e) := by
  refine ⟨(h.covers.put capacity j e e).mono fun k hk e' he' ↦ ?_, fun k hkA hkB ↦ ?_⟩
  · have hkB : k ∈ B.put capacity j e := AList.lookup_isSome.1 (by rw [he']; rfl)
    rw [Recency.lookup_put_of_ne hk.1.symm hkB] at he'
    exact hk.2 e' he'
  · rcases eq_or_ne j k with rfl | hne
    · have hpos := Recency.mem_put_self.1 hkA
      rw [Recency.lookup_put_self hpos, Recency.lookup_put_self hpos]
    · rw [Recency.lookup_put_of_ne hne hkA, Recency.lookup_put_of_ne hne hkB]
      exact h.entry k ((Recency.mem_put_of_ne hne).1 hkA).1 ((Recency.mem_put_of_ne hne).1 hkB).1

theorem erase (h : Swept t A B) (j : Bytes) : Swept t (A.erase j) (B.erase j) := by
  refine ⟨(h.covers.erase j).mono fun k hk e' he' ↦ ?_, fun k hkA hkB ↦ ?_⟩
  · rw [AList.lookup_erase_ne hk.1] at he'
    exact hk.2 e' he'
  · rw [AList.mem_erase] at hkA hkB
    rw [AList.lookup_erase_ne hkA.1, AList.lookup_erase_ne hkA.1]
    exact h.entry k hkA.2 hkB.2

/-- A sweep that both runs make. -/
theorem expire (h : Swept t A B) (now : Time) : Swept t (A.expire now) (B.expire now) := by
  have hmem {m : Contents} {k : Bytes} (hk : k ∈ m.expire now) : k ∈ m :=
    AList.mem_keys.2 ((m.keys_keep_sublist _).subset hk)
  refine ⟨(h.covers.keep fun k a b ha hb ↦ ?_).mono fun k hk e he ↦ ?_, fun k hkA hkB ↦ ?_⟩
  · have hentry := h.entry k (AList.lookup_isSome.1 (by rw [ha]; rfl))
      (AList.lookup_isSome.1 (by rw [hb]; rfl))
    rw [ha, hb, Option.some.injEq] at hentry
    rw [hentry]
  · have hkB : k ∈ B.expire now := AList.lookup_isSome.1 (by rw [he]; rfl)
    rw [Contents.expire, Recency.lookup_keep hkB] at he
    exact hk e he
  · rw [Contents.expire, Contents.expire, Recency.lookup_keep hkA, Recency.lookup_keep hkB]
    exact h.entry k (hmem hkA) (hmem hkB)

theorem touch (h : Swept t A B) (key : Bytes) (now access : Time) :
    Swept t (A.touch key now access) (B.touch key now access) := by
  refine ⟨(h.covers.of_keys_eq (A.keys_touch key now access) (B.keys_touch key now access)).mono
    fun k hk e he ↦ ?_, fun k hkA hkB ↦ ?_⟩
  · obtain ⟨e₀, he₀, -, hd⟩ := Contents.lookup_touch he
    exact hd ▸ hk e₀ he₀
  · rw [Contents.mem_touch] at hkA hkB
    rcases eq_or_ne k key with rfl | hne
    · -- both sides hold the same entry, so both hit or both miss
      have hlive : A.live k now = B.live k now := by
        rw [Contents.live, Contents.live, h.entry k hkA hkB]
      rcases hB : B.live k now with - | e
      · rw [Contents.touch_of_miss (hlive.trans hB), Contents.touch_of_miss hB]
        exact h.entry k hkA hkB
      · rw [Contents.lookup_touch_self (hlive.trans hB), Contents.lookup_touch_self hB]
    · rw [Contents.lookup_touch_of_ne hne, Contents.lookup_touch_of_ne hne]
      exact h.entry k hkA hkB

/-- **A call that both runs make.** -/
theorem step (h : Swept t A B) (capacity : ℕ) (c : Call) :
    Swept t (A.step capacity c) (B.step capacity c) := by
  cases c with
  | set key value ttlSeconds now => exact h.put capacity key _
  | get key now access => exact h.touch key now access
  | del key => exact h.erase key
  | exist key now => exact h
  | cleanupExpired now => exact h.expire now

end Swept

end LRUCache

open LRUCache (Answer Call Clocked Contents Swept WithSweeps)

namespace SafeCache

/-- What a call answers, if it is a reading one. -/
def answer (s : SafeCache) : Call → List Answer
  | .get key now access => [.got (s.get key now access).2]
  | .exist key now => [.found (s.exist key now)]
  | _ => []

/-- The answers of the `get` and `exists` calls of a sequence, in order. -/
def answers (s : SafeCache) (calls : List Call) : List Answer :=
  Machine.outputs step answer s calls

variable {s s' : SafeCache} {t : Time}

/-- **One call** on both sides, not before the last sweep. -/
theorem answer_kept (h : Swept t s'.view s.view) {c : Call} (ht : ∀ r ∈ c.readings, t ≤ r) :
    List.Forall₂ Answer.Kept (s.answer c) (s'.answer c) := by
  have hlive {k : Bytes} {now : Time} (hnow : now ∈ c.readings) {e : Entry}
      (he : s.view.live k now = some e) : s'.view.live k now = some e := h.live (ht now hnow) he
  cases c with
  | get key now access =>
    refine List.Forall₂.cons (.got fun value hv ↦ ?_) List.Forall₂.nil
    rw [get_snd] at hv ⊢
    obtain ⟨e, he, rfl⟩ := Option.map_eq_some_iff.1 hv
    rw [hlive (by simp [Call.readings]) he, Option.map_some]
  | exist key now =>
    refine List.Forall₂.cons (.found fun hb ↦ ?_) List.Forall₂.nil
    rw [exist_eq] at hb ⊢
    obtain ⟨e, he⟩ := Option.isSome_iff_exists.1 hb
    rw [hlive (by simp [Call.readings]) he, Option.isSome_some]
  | set key value ttlSeconds now => exact List.Forall₂.nil
  | del key => exact List.Forall₂.nil
  | cleanupExpired now => exact List.Forall₂.nil

/-- **A run**, from two caches one of which has been swept more often. -/
theorem answers_kept (h : Swept t s'.view s.view) (hcap : s'.capacity = s.capacity)
    {calls calls' : List Call} (hsweeps : WithSweeps calls calls') (hclock : Clocked calls')
    (ht : ∀ c ∈ calls', ∀ r ∈ c.readings, t ≤ r) :
    List.Forall₂ Answer.Kept (s.answers calls) (s'.answers calls') := by
  induction hsweeps generalizing s s' t with
  | nil => exact List.Forall₂.nil
  | call c hsweeps ih =>
    rw [List.forall_mem_cons] at ht
    rw [Clocked, List.flatMap_cons, List.pairwise_append] at hclock
    refine List.rel_append (answer_kept h ht.1) (ih ?_ ?_ hclock.2.1 ht.2)
    · rw [view_step, view_step, hcap]
      exact h.step s.capacity c
    · rw [capacity_step, capacity_step, hcap]
  | sweep now hsweeps ih =>
    rw [List.forall_mem_cons] at ht
    rw [Clocked, List.flatMap_cons, List.pairwise_append] at hclock
    -- from here on `now` is the time of the last sweep
    refine ih (t := now) ?_ ?_ hclock.2.1 fun c hc r hr ↦ ?_
    · rw [view_step]
      exact h.sweep (ht.1 now (by simp [Call.readings]))
    · rw [capacity_step, hcap]
    · exact hclock.2.2 now (by simp [Call.readings]) r (List.mem_flatMap.2 ⟨c, hc, hr⟩)

/-- **Sweeps are transparent.** Inserting sweeps into a sequence of calls, at any times consistent
with its order, loses no answer: every `get` that hits without them hits with them and gives the
same value, and every `exists` that answers true still does. -/
theorem answers_sweeps (capacity : ℕ) (calls calls' : List Call)
    (hsweeps : WithSweeps calls calls') (hclock : Clocked calls') :
    List.Forall₂ Answer.Kept ((new capacity).answers calls) ((new capacity).answers calls') := by
  rcases hreadings : calls'.flatMap Call.readings with - | ⟨first, later⟩
  · refine answers_kept (t := 0) (Swept.refl 0 _) rfl hsweeps hclock fun c hc r hr ↦ ?_
    exact absurd (List.mem_flatMap.2 ⟨c, hc, hr⟩) (by simp [hreadings])
  · refine answers_kept (t := first) (Swept.refl first _) rfl hsweeps hclock fun c hc r hr ↦ ?_
    have hr' : r ∈ first :: later := hreadings ▸ List.mem_flatMap.2 ⟨c, hc, hr⟩
    rw [Clocked, hreadings, List.pairwise_cons] at hclock
    rcases List.mem_cons.1 hr' with rfl | hr'
    · exact le_rfl
    · exact hclock.1 r hr'

/-- A full cache of two: the sweep makes room, so that the set of a third key evicts nothing, and
key `1`, which the run without the sweep has lost, is found. -/
theorem answers_sweeps_two :
    List.Forall₂ Answer.Kept
      ((new 2).answers [.set [1] [10] 9 0, .set [2] [20] 1 0, .set [3] [30] 9 2000000000,
        .get [3] 2000000001 2000000001, .get [1] 2000000001 2000000001])
      ((new 2).answers [.set [1] [10] 9 0, .set [2] [20] 1 0, .cleanupExpired 2000000000,
        .set [3] [30] 9 2000000000, .get [3] 2000000001 2000000001,
        .get [1] 2000000001 2000000001]) :=
  answers_sweeps 2 _ _ (.call _ (.call _ (.sweep _ (.call _ (.call _ (.call _ .nil))))))
    (by decide)

end SafeCache

end DistCache
