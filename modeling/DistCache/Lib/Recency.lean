import Mathlib.Data.List.AList
import Mathlib.Data.List.TakeWhile

/-!
# Bounded recency maps

A recency map is an association list whose *order carries meaning*: the first entry is the most
recently written one. Writing a key moves it to the front (`AList.insert` already does), and a
bounded map then drops what lies beyond its capacity. This is what a least-recently-written cache
is for, independently of how it stores its entries.

Everything is organised around one quantity, `ahead k m`: the keys in front of `k`. Whether `k`
survives a write depends on `m` only through the *number* of keys ahead of it (`mem_put_of_ne`),
and each operation changes `ahead k` in an obvious way. So retention questions become counting
questions, and comparing two maps that evict differently becomes comparing what is ahead of a key
in each of them (`Covers`).
-/

/-- A map whose entries are ordered by recency, most recent first. -/
abbrev Recency (α β : Type*) := AList fun _ : α ↦ β

namespace Recency

variable {α β : Type*}

/-- Restrict a map to a sublist of its entries. -/
def restrict (m : Recency α β) (l : List (Σ _ : α, β)) (h : l.Sublist m.entries) : Recency α β :=
  ⟨l, m.nodupKeys.sublist h⟩

/-- The first `c` entries. -/
def cut (c : ℕ) (m : Recency α β) : Recency α β :=
  m.restrict (m.entries.take c) (List.take_sublist _ _)

/-- The entries whose value satisfies `p`. -/
def keep (p : β → Bool) (m : Recency α β) : Recency α β :=
  m.restrict (m.entries.filter fun e ↦ p e.2) List.filter_sublist

@[simp] theorem entries_cut (c : ℕ) (m : Recency α β) : (m.cut c).entries = m.entries.take c := rfl

@[simp] theorem entries_keep (p : β → Bool) (m : Recency α β) :
    (m.keep p).entries = m.entries.filter fun e ↦ p e.2 := rfl

@[simp] theorem keys_cut (c : ℕ) (m : Recency α β) : (m.cut c).keys = m.keys.take c :=
  List.map_take

theorem keys_keep_sublist (p : β → Bool) (m : Recency α β) : (m.keep p).keys.Sublist m.keys :=
  List.filter_sublist.map _

theorem cut_cut (c d : ℕ) (m : Recency α β) : (m.cut d).cut c = m.cut (min c d) := by
  ext1
  simp [List.take_take]

theorem cut_of_length_le {c : ℕ} {m : Recency α β} (h : m.keys.length ≤ c) : m.cut c = m := by
  ext1
  rw [entries_cut, List.take_of_length_le]
  simpa [AList.keys, List.keys] using h

/-- The same keys in the same order, with `f` applied to their values. -/
def map {γ : Type*} (f : β → γ) (m : Recency α β) : Recency α γ where
  entries := m.entries.map fun e ↦ ⟨e.1, f e.2⟩
  nodupKeys := by
    show ((m.entries.map fun e ↦ (⟨e.1, f e.2⟩ : Σ _ : α, γ)).map Sigma.fst).Nodup
    rw [List.map_map]
    exact m.keys_nodup

@[simp] theorem keys_map {γ : Type*} (f : β → γ) (m : Recency α β) : (m.map f).keys = m.keys :=
  List.map_map

@[simp] theorem map_empty {γ : Type*} (f : β → γ) : map f (∅ : Recency α β) = ∅ := rfl

variable [DecidableEq α]

/-- Two maps with the same keys in the same order and the same values are equal. -/
theorem ext_of_keys_of_lookup {m m' : Recency α β} (hk : m.keys = m'.keys)
    (hl : ∀ k, m.lookup k = m'.lookup k) : m = m' := by
  have key : ∀ l l' : List (Σ _ : α, β), l.NodupKeys → l'.NodupKeys → l.keys = l'.keys →
      (∀ k, l.dlookup k = l'.dlookup k) → l = l' := by
    intro l
    induction l with
    | nil =>
      intro l' _ _ hk _
      exact (List.map_eq_nil_iff.1 hk.symm).symm
    | cons e l ih =>
      intro l' hn hn' hk hl
      rcases l' with - | ⟨e', l'⟩
      · simp [List.keys] at hk
      · obtain ⟨k, b⟩ := e
        obtain ⟨k', b'⟩ := e'
        simp only [List.keys_cons, List.cons.injEq] at hk
        obtain ⟨rfl, hk⟩ := hk
        have hb : b = b' := by simpa using hl k
        subst hb
        rw [List.nodupKeys_cons] at hn hn'
        refine congrArg _ (ih l' hn.2 hn'.2 hk fun j ↦ ?_)
        rcases eq_or_ne j k with rfl | hj
        · rw [List.dlookup_eq_none.2 hn.1, List.dlookup_eq_none.2 hn'.1]
        · simpa [hj] using hl j
  exact AList.ext (key _ _ m.nodupKeys m'.nodupKeys hk hl)

/-- A key that survives a restriction keeps its value. -/
theorem lookup_restrict {m : Recency α β} {l : List (Σ _ : α, β)} {h : l.Sublist m.entries} {k : α}
    (hk : k ∈ m.restrict l h) : (m.restrict l h).lookup k = m.lookup k := by
  obtain ⟨b, hb⟩ := Option.isSome_iff_exists.1 (AList.lookup_isSome.2 hk)
  have hmem : (⟨k, b⟩ : Σ _ : α, β) ∈ m.entries := h.subset (AList.mem_lookup_iff.1 hb)
  rw [hb, AList.mem_lookup_iff.2 hmem]

theorem lookup_cut {c : ℕ} {m : Recency α β} {k : α} (hk : k ∈ m.cut c) :
    (m.cut c).lookup k = m.lookup k := lookup_restrict hk

theorem lookup_keep {p : β → Bool} {m : Recency α β} {k : α} (hk : k ∈ m.keep p) :
    (m.keep p).lookup k = m.lookup k := lookup_restrict hk

/-- A key stays in a filtered map exactly when its value passes the filter. -/
theorem mem_keep {p : β → Bool} {m : Recency α β} {k : α} :
    k ∈ m.keep p ↔ ∃ b, m.lookup k = some b ∧ p b = true := by
  constructor
  · intro h
    obtain ⟨b, hb⟩ := List.mem_keys.1 (AList.mem_keys.1 h)
    rw [entries_keep, List.mem_filter] at hb
    exact ⟨b, AList.mem_lookup_iff.2 hb.1, hb.2⟩
  · rintro ⟨b, hb, hp⟩
    refine AList.mem_keys.2 (List.mem_keys.2 ⟨b, ?_⟩)
    rw [entries_keep, List.mem_filter]
    exact ⟨AList.mem_lookup_iff.1 hb, hp⟩

/-- Replacing the value of a key. -/
theorem lookup_replace_self {m : Recency α β} {k : α} (h : k ∈ m) (b : β) :
    (m.replace k b).lookup k = some b := by
  have key : ∀ l : List (Σ _ : α, β), k ∈ l.keys → (l.kreplace k b).dlookup k = some b := by
    intro l
    induction l with
    | nil => simp
    | cons e l ih =>
      obtain ⟨k', b'⟩ := e
      intro hk
      rcases eq_or_ne k k' with rfl | hkk
      · rw [List.kreplace, List.lookmap_cons_some _ _ (b := ⟨k, b⟩) (by simp), List.dlookup_cons_eq]
      · have hk' : k ∈ l.keys := by simpa [hkk] using hk
        have := ih hk'
        simp only [List.kreplace] at this ⊢
        rw [List.lookmap_cons_none _ _ (by simp [hkk]), List.dlookup_cons_ne _ _ hkk, this]
  exact key m.entries h

theorem lookup_replace_of_ne {m : Recency α β} {k j : α} (h : j ≠ k) (b : β) :
    (m.replace k b).lookup j = m.lookup j := by
  have key : ∀ l : List (Σ _ : α, β), (l.kreplace k b).dlookup j = l.dlookup j := by
    intro l
    induction l with
    | nil => rfl
    | cons e l ih =>
      obtain ⟨k', b'⟩ := e
      simp only [List.kreplace] at ih ⊢
      rcases eq_or_ne k k' with rfl | hkk
      · rw [List.lookmap_cons_some _ _ (b := ⟨k, b⟩) (by simp), List.dlookup_cons_ne _ _ h,
          List.dlookup_cons_ne _ _ h]
      · rw [List.lookmap_cons_none _ _ (by simp [hkk])]
        rcases eq_or_ne j k' with rfl | hj
        · simp
        · rw [List.dlookup_cons_ne _ _ hj, List.dlookup_cons_ne _ _ hj, ih]
  exact key m.entries

/-- A key that is gone has no value. -/
theorem lookup_cut_of_notMem {c : ℕ} {m : Recency α β} {k : α} (hk : k ∉ m.cut c) :
    (m.cut c).lookup k = none := AList.lookup_eq_none.2 hk

/-- Cutting off the last entry is erasing the last key. -/
theorem cut_pred_eq_erase {m : Recency α β} {l : List α} {k : α} (h : m.keys = l ++ [k]) :
    m.cut (m.keys.length - 1) = m.erase k := by
  have hkl : k ∉ l := fun hmem ↦ by
    have hnd := m.keys_nodup
    rw [h, List.nodup_append] at hnd
    exact hnd.2.2 k hmem k (by simp) rfl
  have hcut : (m.cut (m.keys.length - 1)).keys = l := by simp [h]
  have herase : AList.keys (m.erase k) = l := by
    rw [AList.keys_erase, h, List.erase_append_right _ hkl]
    simp
  refine ext_of_keys_of_lookup (hcut.trans herase.symm) fun j ↦ ?_
  by_cases hj : j ∈ l
  · have hjk : j ≠ k := by
      rintro rfl
      exact hkl hj
    rw [lookup_cut (AList.mem_keys.2 (hcut ▸ hj)), AList.lookup_erase_ne hjk]
  · rw [lookup_cut_of_notMem fun hmem ↦ hj (hcut ▸ AList.mem_keys.1 hmem),
      AList.lookup_eq_none.2 fun hmem ↦ hj (herase ▸ AList.mem_keys.1 hmem)]

/-- Erasing a key filters its entry out. -/
theorem entries_erase_eq_filter (k : α) (m : Recency α β) :
    AList.entries (m.erase k) = m.entries.filter fun e ↦ e.1 ≠ k := by
  have key : ∀ l : List (Σ _ : α, β), l.NodupKeys → l.kerase k = l.filter fun e ↦ e.1 ≠ k := by
    intro l
    induction l with
    | nil => intro _; rfl
    | cons e l ih =>
      intro hn
      rw [List.nodupKeys_cons] at hn
      rcases eq_or_ne k e.1 with he | he
      · have hl : ∀ x ∈ l, x.1 ≠ k := fun x hx hxk ↦
          hn.1 (he ▸ hxk ▸ List.mem_keys_of_mem hx)
        rw [List.kerase_cons_eq he, List.filter_cons_of_neg (by simpa using he.symm),
          List.filter_eq_self.2 (by simpa using hl)]
      · rw [List.kerase_cons_ne he, ih hn.2, List.filter_cons_of_pos (by simpa using Ne.symm he)]
  exact key m.entries m.nodupKeys

/-! ### The keys ahead of a key -/

/-- The keys written more recently than `k`. -/
def ahead (k : α) (m : Recency α β) : List α := m.keys.takeWhile (· != k)

theorem ahead_nodup (k : α) (m : Recency α β) : (m.ahead k).Nodup :=
  (List.takeWhile_sublist _).nodup m.keys_nodup

theorem ne_of_mem_ahead {k j : α} {m : Recency α β} (h : j ∈ m.ahead k) : j ≠ k := by
  simpa using List.mem_takeWhile_imp h

private theorem takeWhile_ne_erase {k j : α} (h : j ≠ k) (l : List α) :
    (l.erase j).takeWhile (· != k) = (l.takeWhile (· != k)).erase j := by
  induction l with
  | nil => rfl
  | cons x l ih =>
    rcases eq_or_ne x j with rfl | hxj
    · simp [h]
    · rcases eq_or_ne x k with rfl | hxk
      · simp [hxj]
      · simp [hxj, hxk, ih]

private theorem mem_take_iff {k : α} (c : ℕ) (l : List α) :
    k ∈ l.take c ↔ k ∈ l ∧ (l.takeWhile (· != k)).length < c := by
  induction l generalizing c with
  | nil => simp
  | cons x l ih =>
    rcases c with - | c
    · simp
    · rcases eq_or_ne x k with rfl | hxk
      · simp
      · simp [hxk, Ne.symm hxk, ih]

private theorem takeWhile_ne_take {k : α} {c : ℕ} {l : List α}
    (h : (l.takeWhile (· != k)).length < c) :
    (l.take c).takeWhile (· != k) = l.takeWhile (· != k) := by
  induction l generalizing c with
  | nil => simp
  | cons x l ih =>
    rcases c with - | c
    · simp at h
    · rcases eq_or_ne x k with rfl | hxk
      · simp
      · simp only [bne_iff_ne, ne_eq, hxk, not_false_eq_true, List.takeWhile_cons_of_pos,
          List.length_cons, Nat.add_lt_add_iff_right] at h
        simp [hxk, ih h]

/-- Dropping keys other than `k` moves nothing in front of `k`. -/
theorem ahead_subset_of_sublist {k : α} {m m' : Recency α β} (h : m'.keys.Sublist m.keys)
    (hk : k ∈ m') : m'.ahead k ⊆ m.ahead k := by
  have key : ∀ {l l' : List α}, l'.Sublist l → l.Nodup → k ∈ l' →
      l'.takeWhile (· != k) ⊆ l.takeWhile (· != k) := by
    intro l l' hsub
    induction hsub with
    | slnil => simp
    | cons x hsub ih =>
      intro hnd hk
      rw [List.nodup_cons] at hnd
      have hxk : x ≠ k := by
        rintro rfl
        exact hnd.1 (hsub.subset hk)
      rw [List.takeWhile_cons_of_pos (by simpa using hxk)]
      exact fun y hy ↦ List.mem_cons_of_mem _ (ih hnd.2 hk hy)
    | cons_cons x hsub ih =>
      intro hnd hk
      rw [List.nodup_cons] at hnd
      rcases eq_or_ne x k with rfl | hxk
      · simp
      · rw [List.takeWhile_cons_of_pos (by simpa using hxk),
          List.takeWhile_cons_of_pos (by simpa using hxk)]
        exact List.cons_subset_cons _
          (ih hnd.2 ((List.mem_cons.1 hk).resolve_left (Ne.symm hxk)))
  exact key h m.keys_nodup (AList.mem_keys.1 hk)

/-- What was in front of `k` and is not dropped is still in front of it. -/
theorem mem_ahead_of_sublist {k x : α} {m m' : Recency α β} (h : m'.keys.Sublist m.keys)
    (hx : x ∈ m.ahead k) (hx' : x ∈ m') : x ∈ m'.ahead k := by
  have key : ∀ {l l' : List α}, l'.Sublist l → l.Nodup → x ∈ l.takeWhile (· != k) → x ∈ l' →
      x ∈ l'.takeWhile (· != k) := by
    intro l l' hsub
    induction hsub with
    | slnil => simp
    | cons y hsub ih =>
      intro hnd hx hx'
      rw [List.nodup_cons] at hnd
      have hxy : x ≠ y := by
        rintro rfl
        exact hnd.1 (hsub.subset hx')
      rcases eq_or_ne y k with rfl | hyk
      · simp at hx
      · rw [List.takeWhile_cons_of_pos (by simpa using hyk)] at hx
        exact ih hnd.2 ((List.mem_cons.1 hx).resolve_left hxy) hx'
    | cons_cons y hsub ih =>
      intro hnd hx hx'
      rw [List.nodup_cons] at hnd
      rcases eq_or_ne y k with rfl | hyk
      · simp at hx
      · rw [List.takeWhile_cons_of_pos (by simpa using hyk)] at hx ⊢
        rcases eq_or_ne x y with rfl | hxy
        · exact List.mem_cons_self
        · exact List.mem_cons_of_mem _ (ih hnd.2 ((List.mem_cons.1 hx).resolve_left hxy)
            ((List.mem_cons.1 hx').resolve_left hxy))
  exact key h m.keys_nodup hx (AList.mem_keys.1 hx')

@[simp] theorem ahead_insert_self (k : α) (b : β) (m : Recency α β) :
    ahead k (m.insert k b) = [] := by
  simp [ahead]

theorem ahead_insert_of_ne {k j : α} (h : j ≠ k) (b : β) (m : Recency α β) :
    ahead k (m.insert j b) = j :: (m.ahead k).erase j := by
  rw [ahead, AList.keys_insert, List.takeWhile_cons_of_pos (by simpa using h),
    takeWhile_ne_erase h, ahead]

theorem ahead_erase {k j : α} (h : j ≠ k) (m : Recency α β) :
    ahead k (m.erase j) = (m.ahead k).erase j := by
  rw [ahead, AList.keys_erase, takeWhile_ne_erase h, ahead]

/-- **Retention is counting**: a key survives a cut exactly when fewer than `c` keys are ahead. -/
theorem mem_cut {c : ℕ} {k : α} {m : Recency α β} :
    k ∈ m.cut c ↔ k ∈ m ∧ (m.ahead k).length < c := by
  rw [AList.mem_keys, keys_cut, mem_take_iff, ← AList.mem_keys, ahead]

theorem ahead_cut {c : ℕ} {k : α} {m : Recency α β} (h : k ∈ m.cut c) :
    (m.cut c).ahead k = m.ahead k := by
  rw [ahead, keys_cut, takeWhile_ne_take (mem_cut.1 h).2, ahead]

/-! ### Writing under a capacity -/

/-- Write a key into a map of capacity `c`: to the front, dropping what lies beyond the capacity. -/
def put (c : ℕ) (k : α) (b : β) (m : Recency α β) : Recency α β := cut c (m.insert k b)

theorem keys_put (c : ℕ) (k : α) (b : β) (m : Recency α β) :
    (m.put c k b).keys = (k :: m.keys.erase k).take c := by
  rw [put, keys_cut, AList.keys_insert]

theorem length_keys_put_le (c : ℕ) (k : α) (b : β) (m : Recency α β) :
    (m.put c k b).keys.length ≤ c := by
  rw [keys_put, List.length_take]
  exact Nat.min_le_left _ _

theorem mem_put_self {c : ℕ} {k : α} {b : β} {m : Recency α β} : k ∈ m.put c k b ↔ 0 < c := by
  simp [put, mem_cut]

/-- **Who survives a write.** -/
theorem mem_put_of_ne {c : ℕ} {k j : α} (h : j ≠ k) {b : β} {m : Recency α β} :
    k ∈ m.put c j b ↔ k ∈ m ∧ ((m.ahead k).erase j).length + 1 < c := by
  rw [put, mem_cut, ahead_insert_of_ne h, AList.mem_insert]
  simp [Ne.symm h]

theorem lookup_put_self {c : ℕ} {k : α} {b : β} {m : Recency α β} (h : 0 < c) :
    (m.put c k b).lookup k = some b := by
  rw [put, lookup_cut (mem_put_self.2 h), AList.lookup_insert]

theorem lookup_put_of_ne {c : ℕ} {k j : α} (hne : j ≠ k) {b : β} {m : Recency α β}
    (h : k ∈ m.put c j b) : (m.put c j b).lookup k = m.lookup k := by
  rw [put, lookup_cut h, AList.lookup_insert_ne (Ne.symm hne)]

theorem ahead_put_of_ne {c : ℕ} {k j : α} (hne : j ≠ k) {b : β} {m : Recency α β}
    (h : k ∈ m.put c j b) : (m.put c j b).ahead k = j :: (m.ahead k).erase j := by
  rw [put, ahead_cut h, ahead_insert_of_ne hne]

theorem ahead_put_self {c : ℕ} {k : α} {b : β} {m : Recency α β} : (m.put c k b).ahead k = [] := by
  rcases Nat.eq_zero_or_pos c with rfl | h
  · simp [put, ahead]
  · rw [put, ahead_cut (mem_put_self.2 h), ahead_insert_self]

/-- With room left, a bounded write is an ordinary one. -/
theorem put_of_room {c : ℕ} {k : α} {b : β} {m : Recency α β} (hm : m.keys.length ≤ c)
    (h : k ∈ m ∨ m.keys.length < c) : m.put c k b = m.insert k b := by
  refine cut_of_length_le ?_
  rw [AList.keys_insert, List.length_cons]
  rcases h with h | h
  · rw [List.length_erase_of_mem (AList.mem_keys.1 h)]
    have : 0 < m.keys.length := List.length_pos_of_mem (AList.mem_keys.1 h)
    omega
  · exact Nat.succ_le_of_lt (Nat.lt_of_le_of_lt List.length_erase_le h)

/-- **A write that changes nothing**: no key finds room, or the entry is in front already. -/
theorem put_eq_self_iff {c : ℕ} {k : α} {b : β} {m : Recency α β} (hm : m.keys.length ≤ c) :
    m.put c k b = m ↔ c = 0 ∨ m.entries.head? = some ⟨k, b⟩ := by
  rcases Nat.eq_zero_or_pos c with rfl | hc
  · refine iff_of_true (AList.ext ?_) (Or.inl rfl)
    have hnil : m.entries = [] := by simpa [AList.keys, List.keys] using hm
    rw [put, entries_cut, List.take_zero, hnil]
  · rw [or_iff_right hc.ne']
    constructor
    · intro h
      obtain ⟨c, rfl⟩ := Nat.exists_eq_succ_of_ne_zero hc.ne'
      rw [← h, put, entries_cut, AList.entries_insert, List.take_succ_cons, List.head?_cons]
    · intro h
      obtain ⟨l, hl⟩ := List.head?_eq_some_iff.1 h
      have hrest : List.kerase k ((⟨k, b⟩ : Σ _ : α, β) :: l) = l := List.kerase_cons_eq rfl
      have hinsert : m.insert k b = m := by
        refine AList.ext ?_
        rw [AList.entries_insert, hl, hrest]
      rw [put, hinsert, cut_of_length_le hm]

theorem erase_eq_self_iff {k : α} {m : Recency α β} : AList.erase k m = m ↔ k ∉ m := by
  constructor
  · intro h hk
    rw [← h] at hk
    exact (AList.mem_erase.1 hk).1 rfl
  · intro hk
    refine AList.ext (List.kerase_of_notMem_keys ?_)
    exact fun hmem ↦ hk (AList.mem_keys.2 hmem)

/-! ### Applying a function to the values -/

section Map

variable {γ : Type*} (f : β → γ)

@[simp] theorem lookup_map (m : Recency α β) (k : α) :
    (m.map f).lookup k = (m.lookup k).map f := by
  have key : ∀ l : List (Σ _ : α, β),
      (l.map fun e ↦ (⟨e.1, f e.2⟩ : Σ _ : α, γ)).dlookup k = (l.dlookup k).map f := by
    intro l
    induction l with
    | nil => rfl
    | cons e l ih =>
      obtain ⟨j, b⟩ := e
      rw [List.map_cons]
      rcases eq_or_ne k j with rfl | hk
      · rw [List.dlookup_cons_eq, List.dlookup_cons_eq, Option.map_some]
      · rw [List.dlookup_cons_ne _ _ hk, List.dlookup_cons_ne _ _ hk, ih]
  exact key m.entries

/-- Two maps agree as soon as their keys do, in order, and their lookups. -/
theorem map_eq_of {m : Recency α β} {m' : Recency α γ} (hk : m.keys = m'.keys)
    (hl : ∀ k, (m.lookup k).map f = m'.lookup k) : m.map f = m' :=
  ext_of_keys_of_lookup ((keys_map f m).trans hk) fun k ↦ (lookup_map f m k).trans (hl k)

theorem map_erase (m : Recency α β) (k : α) : map f (m.erase k) = (m.map f).erase k := by
  refine map_eq_of f (by rw [AList.keys_erase, AList.keys_erase, keys_map]) fun j ↦ ?_
  rcases eq_or_ne j k with rfl | hj
  · rw [AList.lookup_erase, AList.lookup_erase, Option.map_none]
  · rw [AList.lookup_erase_ne hj, AList.lookup_erase_ne hj, lookup_map]

theorem map_put (c : ℕ) (m : Recency α β) (k : α) (b : β) :
    (m.put c k b).map f = (m.map f).put c k (f b) := by
  have hkeys : (m.put c k b).keys = ((m.map f).put c k (f b)).keys := by
    rw [keys_put, keys_put, keys_map]
  refine map_eq_of f hkeys fun j ↦ ?_
  by_cases hj : j ∈ m.put c k b
  · have hj' : j ∈ (m.map f).put c k (f b) := AList.mem_keys.2 (hkeys ▸ AList.mem_keys.1 hj)
    rcases eq_or_ne k j with rfl | hne
    · rw [lookup_put_self (mem_put_self.1 hj), lookup_put_self (mem_put_self.1 hj), Option.map_some]
    · rw [lookup_put_of_ne hne hj, lookup_put_of_ne hne hj', lookup_map]
  · have hj' : j ∉ (m.map f).put c k (f b) := fun h ↦
      hj (AList.mem_keys.2 (hkeys ▸ AList.mem_keys.1 h))
    rw [AList.lookup_eq_none.2 hj, AList.lookup_eq_none.2 hj', Option.map_none]

end Map

/-! ### Comparing two maps of the same capacity

`Covers gone A B` relates a map `A` that may have lost some keys early (those in `gone`) to a map
`B` that has not: everything else `B` holds, `A` holds too, and with no more keys ahead of it. The
second half is what makes the first one survive writes. The values play no role and may be of
different types. -/

/-- `A` holds whatever `B` holds, except keys in `gone`, and never puts more ahead of a key. -/
structure Covers {γ : Type*} (gone : α → Prop) (A : Recency α β) (B : Recency α γ) : Prop where
  /-- What `B` holds is held by `A`, or was given up. -/
  mem : ∀ k ∈ B, k ∈ A ∨ gone k
  /-- A key held by both has no more ahead of it in `A`. -/
  ahead : ∀ k ∈ A, k ∈ B → A.ahead k ⊆ B.ahead k

namespace Covers

variable {γ : Type*} {gone : α → Prop} {A : Recency α β} {B : Recency α γ}

theorem empty : Covers gone (∅ : Recency α β) (∅ : Recency α γ) :=
  ⟨fun k hk ↦ absurd hk (AList.notMem_empty k), fun k hk ↦ absurd hk (AList.notMem_empty k)⟩

theorem mono {gone' : α → Prop} (h : Covers gone A B) (hg : ∀ k, gone k → gone' k) :
    Covers gone' A B :=
  ⟨fun k hk ↦ (h.mem k hk).imp_right (hg k), h.ahead⟩

/-- A write to both sides; the written key is no longer given up. -/
theorem put (h : Covers gone A B) (c : ℕ) (j : α) (a : β) (b : γ) :
    Covers (fun k ↦ k ≠ j ∧ gone k) (A.put c j a) (B.put c j b) := by
  constructor
  · intro k hk
    rcases eq_or_ne j k with rfl | hjk
    · exact Or.inl (mem_put_self.2 (mem_put_self.1 hk))
    · obtain ⟨hkB, hlen⟩ := (mem_put_of_ne hjk).1 hk
      rcases h.mem k hkB with hkA | hg
      · -- no more is ahead in `A`, so `k` survives there if it does in `B`
        have hle : ((A.ahead k).erase j).length ≤ ((B.ahead k).erase j).length := by
          refine ((A.ahead_nodup k).erase j).length_le_of_subset fun x hx ↦ ?_
          rw [(A.ahead_nodup k).mem_erase_iff] at hx
          exact (B.ahead_nodup k).mem_erase_iff.2 ⟨hx.1, h.ahead k hkA hkB hx.2⟩
        exact Or.inl ((mem_put_of_ne hjk).2 ⟨hkA, by omega⟩)
      · exact Or.inr ⟨Ne.symm hjk, hg⟩
  · intro k hkA hkB
    rcases eq_or_ne j k with rfl | hjk
    · rw [ahead_put_self]
      exact List.nil_subset _
    · rw [ahead_put_of_ne hjk hkA, ahead_put_of_ne hjk hkB]
      refine List.cons_subset_cons _ fun x hx ↦ ?_
      rw [(A.ahead_nodup k).mem_erase_iff] at hx
      exact (B.ahead_nodup k).mem_erase_iff.2
        ⟨hx.1, h.ahead k ((mem_put_of_ne hjk).1 hkA).1 ((mem_put_of_ne hjk).1 hkB).1 hx.2⟩

/-- An erasure on both sides. -/
theorem erase (h : Covers gone A B) (j : α) :
    Covers (fun k ↦ k ≠ j ∧ gone k) (A.erase j) (B.erase j) := by
  constructor
  · intro k hk
    rw [AList.mem_erase] at hk
    rcases h.mem k hk.2 with hkA | hg
    · exact Or.inl (AList.mem_erase.2 ⟨hk.1, hkA⟩)
    · exact Or.inr ⟨hk.1, hg⟩
  · intro k hkA hkB
    rw [AList.mem_erase] at hkA hkB
    rw [ahead_erase (Ne.symm hkA.1), ahead_erase (Ne.symm hkA.1)]
    intro x hx
    rw [(A.ahead_nodup k).mem_erase_iff] at hx
    exact (B.ahead_nodup k).mem_erase_iff.2 ⟨hx.1, h.ahead k hkA.2 hkB.2 hx.2⟩

/-- Filtering the covering side, when what is filtered out may be given up. -/
theorem keep_left (h : Covers gone A B) {p : β → Bool}
    (hp : ∀ k a, A.lookup k = some a → p a = false → gone k) : Covers gone (A.keep p) B := by
  constructor
  · intro k hk
    rcases h.mem k hk with hkA | hg
    · obtain ⟨a, ha⟩ := Option.isSome_iff_exists.1 (AList.lookup_isSome.2 hkA)
      rcases hpa : p a with - | -
      · exact Or.inr (hp k a ha hpa)
      · exact Or.inl (mem_keep.2 ⟨a, ha, hpa⟩)
    · exact Or.inr hg
  · intro k hkA hkB
    have hk : k ∈ A := AList.mem_keys.2 ((A.keys_keep_sublist p).subset hkA)
    exact fun x hx ↦ h.ahead k hk hkB (ahead_subset_of_sublist (A.keys_keep_sublist p) hkA hx)

/-- Filtering both sides, when the filters agree on the keys they share. -/
theorem keep (h : Covers gone A B) {p : β → Bool} {q : γ → Bool}
    (hpq : ∀ k a b, A.lookup k = some a → B.lookup k = some b → p a = q b) :
    Covers gone (A.keep p) (B.keep q) := by
  have hpass : ∀ k ∈ A, k ∈ B.keep q → k ∈ A.keep p := by
    intro k hkA hk
    obtain ⟨b, hb, hqb⟩ := mem_keep.1 hk
    obtain ⟨a, ha⟩ := Option.isSome_iff_exists.1 (AList.lookup_isSome.2 hkA)
    exact mem_keep.2 ⟨a, ha, (hpq k a b ha hb).trans hqb⟩
  constructor
  · intro k hk
    have hkB : k ∈ B := AList.mem_keys.2 ((B.keys_keep_sublist q).subset hk)
    exact (h.mem k hkB).imp_left fun hkA ↦ hpass k hkA hk
  · intro k hkA hkB x hx
    have hkA' : k ∈ A := AList.mem_keys.2 ((A.keys_keep_sublist p).subset hkA)
    have hkB' : k ∈ B := AList.mem_keys.2 ((B.keys_keep_sublist q).subset hkB)
    have hxA : x ∈ A.keep p := AList.mem_keys.2 ((List.takeWhile_sublist _).subset hx)
    have hxB : x ∈ B.ahead k :=
      h.ahead k hkA' hkB' (ahead_subset_of_sublist (A.keys_keep_sublist p) hkA hx)
    -- the filters agree on `x`, so it is also ahead of `k` in what is left of `B`
    refine mem_ahead_of_sublist (B.keys_keep_sublist q) hxB ?_
    obtain ⟨a, ha, hpa⟩ := mem_keep.1 hxA
    obtain ⟨b, hb⟩ := Option.isSome_iff_exists.1
      (AList.lookup_isSome.2 (AList.mem_keys.2 ((List.takeWhile_sublist _).subset hxB)))
    exact mem_keep.2 ⟨b, hb, (hpq x a b ha hb).symm.trans hpa⟩

/-- Values play no role. -/
theorem of_keys_eq {A' : Recency α β} {B' : Recency α γ} (h : Covers gone A B)
    (hA : A'.keys = A.keys) (hB : B'.keys = B.keys) : Covers gone A' B' := by
  constructor
  · intro k hk
    rw [AList.mem_keys, hB] at hk
    rw [AList.mem_keys, hA]
    exact h.mem k hk
  · intro k hkA hkB
    rw [AList.mem_keys, hA] at hkA
    rw [AList.mem_keys, hB] at hkB
    rw [Recency.ahead, Recency.ahead, hA, hB]
    exact h.ahead k hkA hkB

end Covers

end Recency
