import DistCache.Lib.Recency

/-!
# Logs of writes to a bounded recency map

A bounded map is determined by the writes made to it, so a log of the writes restores it. Three
questions about such a replay are answered here, for any keys and values.

*Does it matter what the replay starts from?* Not if it starts from keys the full log leaves in the
map anyway (`applyAll_of_subset`). Along the replay, the map is the one a replay from nothing would
give, followed by a remainder of the old keys (`Extends`); no eviction can tell the two apart,
because the remainder goes first. At the end nothing can be left of it.

*How long does a key stay?* As long as the log never sets as many other keys, without erasing them
again, as there is room for (`Uncrowded`). So the last put of a key is what the log leaves there, or
nothing is (`lookup_applyAll_eq_some_iff`).

*What does a key hold at the end?* As long as nothing is evicted (`Roomy`), whatever the last write
to it left there, writes to other keys notwithstanding (`lookup_applyAll`). With evictions it holds
that or nothing (`value_of_lookup_applyAll`).
-/

namespace Recency

variable {α β : Type*}

/-- A write to a map. -/
inductive Write (α β : Type*) where
  | put (k : α) (b : β)
  | erase (k : α)
  deriving DecidableEq, Repr

namespace Write

/-- The key that is written. -/
def key : Write α β → α
  | put k _ => k
  | erase k => k

/-- What the write leaves at its key. -/
def value : Write α β → Option β
  | put _ b => some b
  | erase _ => none

end Write

variable [DecidableEq α]

/-- A write to a map of capacity `c`. -/
def apply (c : ℕ) (m : Recency α β) : Write α β → Recency α β
  | .put k b => m.put c k b
  | .erase k => m.erase k

/-- A log of writes, replayed. -/
def applyAll (c : ℕ) (m : Recency α β) (ws : List (Write α β)) : Recency α β :=
  ws.foldl (apply c) m

@[simp] theorem applyAll_nil (c : ℕ) (m : Recency α β) : m.applyAll c [] = m := rfl

@[simp] theorem applyAll_cons (c : ℕ) (m : Recency α β) (w : Write α β) (ws : List (Write α β)) :
    m.applyAll c (w :: ws) = (m.apply c w).applyAll c ws := rfl

theorem applyAll_append (c : ℕ) (m : Recency α β) (ws ws' : List (Write α β)) :
    m.applyAll c (ws ++ ws') = (m.applyAll c ws).applyAll c ws' := List.foldl_append

theorem length_keys_apply_le {c : ℕ} {m : Recency α β} (h : m.keys.length ≤ c) (w : Write α β) :
    (m.apply c w).keys.length ≤ c := by
  cases w with
  | put k b => exact length_keys_put_le c k b m
  | erase k =>
    show (AList.keys (m.erase k)).length ≤ c
    rw [AList.keys_erase]
    exact List.length_erase_le.trans h

/-- No key comes from nowhere. -/
theorem mem_applyAll {c : ℕ} {m : Recency α β} {ws : List (Write α β)} {k : α}
    (h : k ∈ m.applyAll c ws) : k ∈ m ∨ ∃ w ∈ ws, w.key = k := by
  induction ws generalizing m with
  | nil => exact Or.inl h
  | cons w ws ih =>
    rcases ih h with hk | ⟨w', hw', rfl⟩
    · rcases eq_or_ne w.key k with rfl | hne
      · exact Or.inr ⟨w, List.mem_cons_self, rfl⟩
      · refine Or.inl ?_
        cases w with
        | put j b => exact ((mem_put_of_ne hne).1 hk).1
        | erase j => exact (AList.mem_erase.1 hk).2
    · exact Or.inr ⟨w', List.mem_cons_of_mem _ hw', rfl⟩

/-- No value comes from nowhere. -/
theorem lookup_applyAll_eq_some {c : ℕ} {m : Recency α β} {ws : List (Write α β)} {k : α} {b : β}
    (h : (m.applyAll c ws).lookup k = some b) : .put k b ∈ ws ∨ m.lookup k = some b := by
  induction ws generalizing m with
  | nil => exact Or.inr h
  | cons w ws ih =>
    rcases ih h with hput | hw
    · exact Or.inl (List.mem_cons_of_mem _ hput)
    · have hmem : k ∈ m.apply c w := AList.lookup_isSome.1 (by rw [hw]; rfl)
      cases w with
      | put j a =>
        rw [apply] at hw hmem
        rcases eq_or_ne j k with rfl | hne
        · rw [lookup_put_self (mem_put_self.1 hmem), Option.some.injEq] at hw
          exact Or.inl (hw ▸ List.mem_cons_self)
        · exact Or.inr (lookup_put_of_ne hne hmem ▸ hw)
      | erase j =>
        rw [apply] at hw hmem
        exact Or.inr (AList.lookup_erase_ne (AList.mem_erase.1 hmem).1 ▸ hw)

/-! ### A map followed by a remainder -/

/-- `B` is `A`, followed by some of the keys `spare`. -/
structure Extends (spare : List α) (A B : Recency α β) : Prop where
  keys : ∃ rest, B.keys = A.keys ++ rest ∧ rest ⊆ spare
  lookup : ∀ k ∈ A, B.lookup k = A.lookup k

namespace Extends

variable {spare : List α} {A B : Recency α β}

/-- Erasing a key from a list and from what follows it. -/
private theorem erase_append (l rest : List α) (k : α) :
    ∃ rest', (l ++ rest).erase k = l.erase k ++ rest' ∧ rest' ⊆ rest := by
  by_cases hk : k ∈ l
  · exact ⟨rest, List.erase_append_left _ hk, List.Subset.refl _⟩
  · exact ⟨rest.erase k, by rw [List.erase_append_right _ hk, List.erase_of_not_mem hk],
      List.erase_subset⟩

/-- **A put** evicts from the remainder first. -/
theorem put (h : Extends spare A B) (c : ℕ) (k : α) (b : β) :
    Extends spare (A.put c k b) (B.put c k b) := by
  obtain ⟨rest, hkeys, hrest⟩ := h.keys
  obtain ⟨rest', herase, hrest'⟩ := erase_append A.keys rest k
  have hkeys' : ∃ rest'', (B.put c k b).keys = (A.put c k b).keys ++ rest'' ∧ rest'' ⊆ spare := by
    refine ⟨rest'.take (c - (k :: A.keys.erase k).length), ?_, fun x hx ↦ ?_⟩
    · rw [keys_put, keys_put, hkeys, herase, ← List.cons_append, List.take_append]
    · exact hrest (hrest' (List.take_subset _ _ hx))
  refine ⟨hkeys', fun j hj ↦ ?_⟩
  have hjB : j ∈ B.put c k b := by
    obtain ⟨rest'', hk, -⟩ := hkeys'
    exact AList.mem_keys.2 (hk ▸ List.mem_append_left _ (AList.mem_keys.1 hj))
  rcases eq_or_ne k j with rfl | hne
  · rw [lookup_put_self (mem_put_self.1 hj), lookup_put_self (mem_put_self.1 hj)]
  · rw [lookup_put_of_ne hne hj, lookup_put_of_ne hne hjB, h.lookup j ((mem_put_of_ne hne).1 hj).1]

theorem erase (h : Extends spare A B) (k : α) : Extends spare (A.erase k) (B.erase k) := by
  obtain ⟨rest, hkeys, hrest⟩ := h.keys
  obtain ⟨rest', herase, hrest'⟩ := erase_append A.keys rest k
  refine ⟨⟨rest', ?_, fun x hx ↦ hrest (hrest' hx)⟩, fun j hj ↦ ?_⟩
  · rw [AList.keys_erase, AList.keys_erase, hkeys, herase]
  · rw [AList.mem_erase] at hj
    rw [AList.lookup_erase_ne hj.1, AList.lookup_erase_ne hj.1, h.lookup j hj.2]

/-- **One write** on both sides. -/
theorem apply (h : Extends spare A B) (c : ℕ) (w : Write α β) :
    Extends spare (A.apply c w) (B.apply c w) := by
  cases w with
  | put k b => exact h.put c k b
  | erase k => exact h.erase k

/-- **A log** on both sides. -/
theorem applyAll (h : Extends spare A B) (c : ℕ) (ws : List (Write α β)) :
    Extends spare (A.applyAll c ws) (B.applyAll c ws) := by
  induction ws generalizing A B with
  | nil => exact h
  | cons w ws ih => exact ih (h.apply c w)

/-- When the spare keys are all in `A`, there is no remainder. -/
theorem eq_of_subset (h : Extends spare A B) (hspare : ∀ k ∈ spare, k ∈ A) : B = A := by
  obtain ⟨rest, hkeys, hrest⟩ := h.keys
  have hnil : rest = [] := by
    rw [List.eq_nil_iff_forall_not_mem]
    intro k hk
    have hnd := B.keys_nodup
    rw [hkeys, List.nodup_append] at hnd
    exact hnd.2.2 k (AList.mem_keys.1 (hspare k (hrest hk))) k hk rfl
  rw [hnil, List.append_nil] at hkeys
  refine ext_of_keys_of_lookup hkeys fun k ↦ ?_
  by_cases hk : k ∈ A
  · exact h.lookup k hk
  · have hkB : k ∉ B := fun hB ↦ hk (AList.mem_keys.2 (hkeys ▸ AList.mem_keys.1 hB))
    rw [AList.lookup_eq_none.2 hk, AList.lookup_eq_none.2 hkB]

end Extends

/-- **A replay absorbs what it starts from**, when that consists of keys it ends with. -/
theorem applyAll_of_subset {c : ℕ} {m : Recency α β} {ws : List (Write α β)}
    (h : ∀ k ∈ m, k ∈ applyAll c ∅ ws) : m.applyAll c ws = applyAll c ∅ ws := by
  have hstart : Extends m.keys ∅ m :=
    ⟨⟨m.keys, rfl, List.Subset.refl _⟩, fun k hk ↦ absurd hk (AList.notMem_empty k)⟩
  exact (hstart.applyAll c ws).eq_of_subset fun k hk ↦ h k (AList.mem_keys.2 hk)

/-! ### How long a key stays -/

/-- The keys that are set, the last one first, when a write follows what left `l` set. -/
def Write.standing (l : List α) : Write α β → List α
  | put k _ => k :: l.erase k
  | erase k => l.erase k

/-- The keys a log leaves set, the last one first, when `l` were set before. -/
def standing (l : List α) (ws : List (Write α β)) : List α := ws.foldl Write.standing l

/-- At no point of the log are `c` keys set. -/
def Uncrowded (c : ℕ) (l : List α) (ws : List (Write α β)) : Prop :=
  ∀ ws', ws' <+: ws → (standing l ws').length < c

theorem uncrowded_nil {c : ℕ} {l : List α} :
    Uncrowded c l ([] : List (Write α β)) ↔ l.length < c := by
  simp [Uncrowded, standing]

theorem uncrowded_cons {c : ℕ} {l : List α} {w : Write α β} {ws : List (Write α β)} :
    Uncrowded c l (w :: ws) ↔ l.length < c ∧ Uncrowded c (w.standing l) ws := by
  constructor
  · exact fun h ↦ ⟨h [] List.nil_prefix, fun ws' hws' ↦
      h (w :: ws') (List.cons_prefix_cons.2 ⟨rfl, hws'⟩)⟩
  · rintro ⟨hl, h⟩ ws' hws'
    rcases List.prefix_cons_iff.1 hws' with rfl | ⟨ws'', rfl, hws''⟩
    · exact hl
    · exact h ws'' hws''

instance decidableUncrowded (c : ℕ) (l : List α) :
    (ws : List (Write α β)) → Decidable (Uncrowded c l ws)
  | [] => decidable_of_iff _ uncrowded_nil.symm
  | w :: ws =>
    have := decidableUncrowded c (w.standing l) ws
    decidable_of_iff _ uncrowded_cons.symm

theorem Uncrowded.length_lt {c : ℕ} {l : List α} {ws : List (Write α β)} (h : Uncrowded c l ws) :
    l.length < c := h [] List.nil_prefix

/-- **A write to another key**: what is then ahead of a key that stays, and whether it stays. -/
theorem mem_apply_of_ne {c : ℕ} {m : Recency α β} {k : α} (hk : k ∈ m)
    (hlen : (m.ahead k).length < c) {w : Write α β} (hw : w.key ≠ k) :
    (k ∈ m.apply c w ↔ (w.standing (m.ahead k)).length < c) ∧
      (k ∈ m.apply c w → (m.apply c w).ahead k = w.standing (m.ahead k)) := by
  cases w with
  | put j b =>
    refine ⟨?_, fun hmem ↦ ahead_put_of_ne hw hmem⟩
    exact (mem_put_of_ne hw).trans (and_iff_right hk)
  | erase j =>
    refine ⟨iff_of_true (AList.mem_erase.2 ⟨Ne.symm hw, hk⟩) ?_, fun _ ↦ ahead_erase hw m⟩
    exact List.length_erase_le.trans_lt hlen

/-- **A log that does not write a key** leaves it in the map exactly when it never sets as many
other keys as there is room for. -/
theorem mem_applyAll_of_ne {c : ℕ} {m : Recency α β} {k : α} (hk : k ∈ m)
    (hlen : (m.ahead k).length < c) {ws : List (Write α β)} (hws : ∀ w ∈ ws, w.key ≠ k) :
    k ∈ m.applyAll c ws ↔ Uncrowded c (m.ahead k) ws := by
  induction ws generalizing m with
  | nil => exact iff_of_true hk (uncrowded_nil.2 hlen)
  | cons w ws ih =>
    rw [List.forall_mem_cons] at hws
    obtain ⟨hmem, hahead⟩ := mem_apply_of_ne hk hlen hws.1
    rw [applyAll_cons, uncrowded_cons, and_iff_right hlen]
    by_cases hstay : k ∈ m.apply c w
    · rw [← hahead hstay]
      exact ih hstay (hahead hstay ▸ hmem.1 hstay) hws.2
    · -- once dropped, the key does not come back
      refine iff_of_false (fun h ↦ ?_) fun h ↦ hstay (hmem.2 h.length_lt)
      rcases mem_applyAll h with h | ⟨w', hw', rfl⟩
      · exact hstay h
      · exact hws.2 w' hw' rfl

/-- A key that a log does not write keeps its value as long as it stays. -/
theorem lookup_applyAll_of_ne {c : ℕ} {m : Recency α β} {k : α} {ws : List (Write α β)}
    (hws : ∀ w ∈ ws, w.key ≠ k) (hk : k ∈ m.applyAll c ws) :
    (m.applyAll c ws).lookup k = m.lookup k := by
  induction ws generalizing m with
  | nil => rfl
  | cons w ws ih =>
    rw [List.forall_mem_cons] at hws
    rw [applyAll_cons] at hk ⊢
    rw [ih hws.2 hk]
    have hstay : k ∈ m.apply c w := (mem_applyAll hk).resolve_right fun ⟨w', hw', heq⟩ ↦
      hws.2 w' hw' heq
    cases w with
    | put j b => exact lookup_put_of_ne hws.1 hstay
    | erase j => exact AList.lookup_erase_ne (Ne.symm hws.1)

/-- **The last put of a key** is what a log leaves there, provided the key stays. -/
theorem lookup_applyAll_eq_some_iff {c : ℕ} {m : Recency α β} {k : α} {b b' : β}
    {ws ws' : List (Write α β)} (hws' : ∀ w ∈ ws', w.key ≠ k) :
    (m.applyAll c (ws ++ .put k b :: ws')).lookup k = some b' ↔ b = b' ∧ Uncrowded c [] ws' := by
  rw [applyAll_append, applyAll_cons]
  show (((m.applyAll c ws).put c k b).applyAll c ws').lookup k = some b' ↔ _
  rcases Nat.eq_zero_or_pos c with rfl | hc
  · -- no room for any key
    have hnil : (((m.applyAll 0 ws).put 0 k b).applyAll 0 ws').lookup k = none := by
      rw [AList.lookup_eq_none]
      intro hmem
      rcases mem_applyAll hmem with hmem | ⟨w, hw, rfl⟩
      · exact absurd (mem_put_self.1 hmem) (lt_irrefl 0)
      · exact hws' w hw rfl
    rw [hnil]
    exact iff_of_false (by simp) fun h ↦ absurd h.2.length_lt (Nat.not_lt_zero _)
  · have hput : k ∈ (m.applyAll c ws).put c k b := mem_put_self.2 hc
    have hstay := mem_applyAll_of_ne hput (by rw [ahead_put_self]; exact hc) hws'
    rw [ahead_put_self] at hstay
    rw [← hstay]
    constructor
    · intro h
      have hmem : k ∈ ((m.applyAll c ws).put c k b).applyAll c ws' :=
        AList.lookup_isSome.1 (by rw [h]; rfl)
      rw [lookup_applyAll_of_ne hws' hmem, lookup_put_self hc, Option.some.injEq] at h
      exact ⟨h, hmem⟩
    · rintro ⟨rfl, hmem⟩
      rw [lookup_applyAll_of_ne hws' hmem, lookup_put_self hc]

/-! ### What a log leaves at a key -/

/-- The write evicts nothing. -/
def HasRoom (c : ℕ) (m : Recency α β) : Write α β → Prop
  | .put k _ => k ∈ m ∨ m.keys.length < c
  | .erase _ => True

/-- No write of the log evicts anything. -/
def Roomy (c : ℕ) (m : Recency α β) : List (Write α β) → Prop
  | [] => True
  | w :: ws => HasRoom c m w ∧ Roomy c (m.apply c w) ws

instance (c : ℕ) (m : Recency α β) (w : Write α β) : Decidable (HasRoom c m w) :=
  match w with
  | .put k _ => inferInstanceAs (Decidable (k ∈ m ∨ m.keys.length < c))
  | .erase _ => isTrue trivial

instance decidableRoomy (c : ℕ) (m : Recency α β) :
    (ws : List (Write α β)) → Decidable (Roomy c m ws)
  | [] => isTrue trivial
  | w :: ws =>
    have := decidableRoomy c (m.apply c w) ws
    inferInstanceAs (Decidable (_ ∧ _))

/-- What a log leaves at `k` when `old` was there before. -/
def overwrite (k : α) (old : Option β) (ws : List (Write α β)) : Option β :=
  ws.foldl (fun v w ↦ if w.key = k then w.value else v) old

theorem overwrite_append (k : α) (old : Option β) (ws ws' : List (Write α β)) :
    overwrite k old (ws ++ ws') = overwrite k (overwrite k old ws) ws' := List.foldl_append

/-- Writes to other keys leave no trace. -/
theorem overwrite_of_ne {k : α} {ws : List (Write α β)} (h : ∀ w ∈ ws, w.key ≠ k)
    (old : Option β) : overwrite k old ws = old := by
  induction ws with
  | nil => rfl
  | cons w ws ih =>
    rw [List.forall_mem_cons] at h
    show overwrite k (if w.key = k then w.value else old) ws = old
    rw [if_neg h.1, ih h.2]

/-- A log that writes `k` leaves the same there, whatever it found. -/
theorem overwrite_congr {k : α} {ws : List (Write α β)} (h : ∃ w ∈ ws, w.key = k)
    (old old' : Option β) : overwrite k old ws = overwrite k old' ws := by
  induction ws generalizing old old' with
  | nil => simp at h
  | cons w ws ih =>
    show overwrite k (if w.key = k then w.value else old) ws =
      overwrite k (if w.key = k then w.value else old') ws
    rcases eq_or_ne w.key k with hw | hw
    · rw [if_pos hw, if_pos hw]
    · obtain ⟨w', hw', hk⟩ := h
      have hmem : w' ∈ ws := (List.mem_cons.1 hw').resolve_left fun heq ↦ hw (heq ▸ hk)
      exact ih ⟨w', hmem, hk⟩ _ _

/-- **Two writes change places** in a log when they are the same write or write different keys. -/
theorem overwrite_swap {k : α} {w : Write α β} {ws : List (Write α β)}
    (h : ∀ w' ∈ ws, w'.key = w.key → w' = w) (old : Option β) :
    overwrite k old (w :: ws) = overwrite k old (ws ++ [w]) := by
  rw [overwrite_append]
  rcases eq_or_ne w.key k with hk | hk
  · -- whatever of `ws` is about `k` is `w` again
    have hself : ∀ ws : List (Write α β), (∀ w' ∈ ws, w'.key = w.key → w' = w) →
        overwrite k w.value ws = w.value := by
      intro ws
      induction ws with
      | nil => intro _; rfl
      | cons w' ws ih =>
        intro h
        rw [List.forall_mem_cons] at h
        show overwrite k (if w'.key = k then w'.value else w.value) ws = w.value
        split_ifs with hw'
        · rw [h.1 (hw'.trans hk.symm), ih h.2]
        · exact ih h.2
    show overwrite k (if w.key = k then w.value else old) ws = if w.key = k then w.value else _
    rw [if_pos hk, if_pos hk, hself ws h]
  · show overwrite k (if w.key = k then w.value else old) ws = if w.key = k then w.value else _
    rw [if_neg hk, if_neg hk]

/-- **A write is moved ahead** of writes that are the same or write other keys. -/
theorem overwrite_advance {k : α} {w : Write α β} {ws : List (Write α β)}
    (h : ∀ w' ∈ ws, w'.key = w.key → w' = w) (old : Option β) (before after : List (Write α β)) :
    overwrite k old (before ++ (w :: ws ++ after)) =
      overwrite k old (before ++ ((ws ++ [w]) ++ after)) := by
  rw [overwrite_append, overwrite_append k _ (w :: ws), overwrite_swap h, ← overwrite_append,
    ← overwrite_append]

/-- Knowing less before a log is knowing no more after it. -/
theorem overwrite_mono {k : α} {old old' : Option β} (h : ∀ b, old = some b → old' = some b)
    {ws : List (Write α β)} {b : β} (hb : overwrite k old ws = some b) :
    overwrite k old' ws = some b := by
  by_cases hk : ∃ w ∈ ws, w.key = k
  · rwa [overwrite_congr hk old' old]
  · push Not at hk
    rw [overwrite_of_ne hk] at hb ⊢
    exact h b hb

/-- What a bounded map holds at a key after a write, if it holds anything. -/
theorem value_of_lookup_apply {c : ℕ} {m : Recency α β} {w : Write α β} {k : α} {b : β}
    (h : (m.apply c w).lookup k = some b) : overwrite k (m.lookup k) [w] = some b := by
  have hmem : k ∈ m.apply c w := AList.lookup_isSome.1 (by rw [h]; rfl)
  show (if w.key = k then w.value else m.lookup k) = some b
  cases w with
  | put j a =>
    rw [apply] at h hmem
    rcases eq_or_ne j k with rfl | hne
    · rw [lookup_put_self (mem_put_self.1 hmem)] at h
      exact (if_pos rfl).trans h
    · rw [lookup_put_of_ne hne hmem] at h
      exact (if_neg hne).trans h
  | erase j =>
    rw [apply] at h hmem
    have hne : k ≠ j := (AList.mem_erase.1 hmem).1
    rw [AList.lookup_erase_ne hne] at h
    exact (if_neg hne.symm).trans h

/-- **A bounded map forgets, but does not lie**: what it holds at a key at the end of a log is what
the last write to the key left. -/
theorem value_of_lookup_applyAll {c : ℕ} {m : Recency α β} {ws : List (Write α β)} {k : α} {b : β}
    (h : (m.applyAll c ws).lookup k = some b) : overwrite k (m.lookup k) ws = some b := by
  induction ws generalizing m with
  | nil => exact h
  | cons w ws ih =>
    rw [← List.singleton_append, overwrite_append]
    exact overwrite_mono (fun b' hb' ↦ value_of_lookup_apply hb') (ih h)

/-- With room for every write there is always room. -/
theorem roomy_of_length_le {c : ℕ} {m : Recency α β} {ws : List (Write α β)}
    (h : m.keys.length + ws.length ≤ c) : Roomy c m ws := by
  induction ws generalizing m with
  | nil => trivial
  | cons w ws ih =>
    rw [List.length_cons] at h
    have hroom : HasRoom c m w := by
      cases w with
      | put k b => exact Or.inr (by omega)
      | erase k => trivial
    refine ⟨hroom, ih ?_⟩
    have hlen : (m.apply c w).keys.length ≤ m.keys.length + 1 := by
      cases w with
      | put k b =>
        show (m.put c k b).keys.length ≤ _
        have herase := List.length_erase_le (a := k) (l := m.keys)
        rw [keys_put, List.length_take, List.length_cons]
        omega
      | erase k =>
        show (AList.keys (m.erase k)).length ≤ _
        have herase := List.length_erase_le (a := k) (l := m.keys)
        rw [AList.keys_erase]
        omega
    omega

/-- With room for every key that is put there is always room. -/
theorem roomy_of_keys {c : ℕ} {m : Recency α β} {keys : List α} {ws : List (Write α β)}
    (hc : keys.length ≤ c) (hm : m.keys ⊆ keys) (hws : ∀ k b, .put k b ∈ ws → k ∈ keys) :
    Roomy c m ws := by
  induction ws generalizing m with
  | nil => trivial
  | cons w ws ih =>
    have hroom : HasRoom c m w := by
      cases w with
      | put k b =>
        by_cases hk : k ∈ m
        · exact Or.inl hk
        · -- `k` and the keys of the map are different keys of the list
          right
          have hnodup : (k :: m.keys).Nodup := List.nodup_cons.2 ⟨hk, m.keys_nodup⟩
          have hsub : k :: m.keys ⊆ keys :=
            List.cons_subset.2 ⟨hws k b List.mem_cons_self, hm⟩
          have hle := hnodup.length_le_of_subset hsub
          rw [List.length_cons] at hle
          omega
      | erase k => trivial
    refine ⟨hroom, ih (fun j hj ↦ ?_) fun k b hk ↦ hws k b (List.mem_cons_of_mem _ hk)⟩
    cases w with
    | put k b =>
      have hj' : j ∈ (k :: m.keys.erase k).take c := keys_put c k b m ▸ hj
      rcases List.mem_cons.1 (List.mem_of_mem_take hj') with rfl | hj'
      · exact hws j b List.mem_cons_self
      · exact hm (List.mem_of_mem_erase hj')
    | erase k =>
      have hj' : j ∈ m.keys.erase k := AList.keys_erase k m ▸ hj
      exact hm (List.mem_of_mem_erase hj')

/-- **One write** that evicts nothing. -/
theorem lookup_apply {c : ℕ} {m : Recency α β} (hm : m.keys.length ≤ c) {w : Write α β}
    (h : HasRoom c m w) (k : α) :
    (m.apply c w).lookup k = if w.key = k then w.value else m.lookup k := by
  cases w with
  | put j b =>
    show (m.put c j b).lookup k = if j = k then some b else m.lookup k
    rw [put_of_room hm h]
    split_ifs with hj
    · rw [← hj, AList.lookup_insert]
    · rw [AList.lookup_insert_ne (Ne.symm hj)]
  | erase j =>
    show AList.lookup k (m.erase j) = if j = k then none else m.lookup k
    split_ifs with hj
    · rw [← hj, AList.lookup_erase]
    · rw [AList.lookup_erase_ne (Ne.symm hj)]

/-- **A log** that evicts nothing. -/
theorem lookup_applyAll {c : ℕ} {m : Recency α β} (hm : m.keys.length ≤ c)
    {ws : List (Write α β)} (h : Roomy c m ws) (k : α) :
    (m.applyAll c ws).lookup k = overwrite k (m.lookup k) ws := by
  induction ws generalizing m with
  | nil => rfl
  | cons w ws ih =>
    rw [applyAll_cons, ih (length_keys_apply_le hm w) h.2, lookup_apply hm h.1]
    rfl

end Recency
