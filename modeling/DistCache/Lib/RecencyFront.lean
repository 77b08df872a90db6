import DistCache.Lib.Recency
import Mathlib.Data.List.Infix

/-!
# A recency map at the front of another

Two recency maps that are written alike but have different capacities need not hold the same keys.
While both only move keys to the front, drop keys from the back and forget keys they were told to
forget, the smaller one stays what the larger one starts with (`Front`): every operation keeps this
(`Front.put`, `Front.erase`, `Front.keep`, `Front.replace`), and what the smaller one holds, the
larger one holds with the same value (`Front.lookup_eq`).
-/

namespace Recency

variable {α β : Type*}

section Replace

variable [DecidableEq α] {k : α} {l : List (Σ _ : α, β)}

private theorem kreplace_append_of_mem (h : k ∈ l.keys) (b : β) (l' : List (Σ _ : α, β)) :
    List.kreplace k b (l ++ l') = List.kreplace k b l ++ l' := by
  induction l with
  | nil => simp at h
  | cons e l ih =>
    simp only [List.kreplace, List.cons_append] at ih ⊢
    rcases eq_or_ne k e.1 with rfl | he
    · rw [List.lookmap_cons_some _ _ (b := ⟨e.1, b⟩) (by simp),
        List.lookmap_cons_some _ _ (b := ⟨e.1, b⟩) (by simp), List.cons_append]
    · rw [List.lookmap_cons_none _ _ (by simp [he]), List.lookmap_cons_none _ _ (by simp [he]),
        ih ((List.mem_cons.1 h).resolve_left he), List.cons_append]

private theorem kreplace_append_of_notMem (h : k ∉ l.keys) (b : β) (l' : List (Σ _ : α, β)) :
    List.kreplace k b (l ++ l') = l ++ List.kreplace k b l' := by
  induction l with
  | nil => rfl
  | cons e l ih =>
    rw [List.keys_cons, List.mem_cons, not_or] at h
    simp only [List.kreplace, List.cons_append] at ih ⊢
    rw [List.lookmap_cons_none _ _ (by simp [h.1]), ih h.2]

end Replace

/-- The entries of `A` are the first ones of `B`. -/
def Front (A B : Recency α β) : Prop := A.entries <+: B.entries

namespace Front

variable {A B : Recency α β}

theorem refl (A : Recency α β) : Front A A := List.prefix_refl _

theorem keys (h : Front A B) : A.keys <+: B.keys := List.IsPrefix.map Sigma.fst h

/-- Cutting the front part no later than the whole. -/
theorem cut (h : Front A B) {c c' : ℕ} (hc : c ≤ c') : Front (A.cut c) (B.cut c') :=
  (List.IsPrefix.take h c).trans (List.take_prefix_take_left hc)

theorem keep (h : Front A B) (p : β → Bool) : Front (A.keep p) (B.keep p) :=
  List.IsPrefix.filter _ h

variable [DecidableEq α]

/-- What both hold has the same value. -/
theorem lookup_eq (h : Front A B) {k : α} (hk : k ∈ A) : A.lookup k = B.lookup k := by
  obtain ⟨b, hb⟩ := Option.isSome_iff_exists.1 (AList.lookup_isSome.2 hk)
  have hmem : (⟨k, b⟩ : Σ _ : α, β) ∈ B.entries :=
    List.IsPrefix.subset h (AList.mem_lookup_iff.1 hb)
  rw [hb, AList.mem_lookup_iff.2 hmem]

theorem erase (h : Front A B) (k : α) : Front (A.erase k) (B.erase k) := by
  rw [Front, entries_erase_eq_filter, entries_erase_eq_filter]
  exact List.IsPrefix.filter _ h

theorem insert (h : Front A B) (k : α) (b : β) : Front (A.insert k b) (B.insert k b) := by
  have herase : List.kerase k A.entries <+: List.kerase k B.entries := h.erase k
  rw [Front, AList.entries_insert, AList.entries_insert]
  exact (List.prefix_cons_inj _).2 herase

/-- **A write to both**, under capacities one of which is no larger. -/
theorem put (h : Front A B) {c c' : ℕ} (hc : c ≤ c') (k : α) (b : β) :
    Front (A.put c k b) (B.put c' k b) := (h.insert k b).cut hc

theorem replace (h : Front A B) {k : α} (hk : k ∈ A) (b : β) :
    Front (A.replace k b) (B.replace k b) := by
  obtain ⟨rest, hrest⟩ := h
  refine ⟨rest, ?_⟩
  show List.kreplace k b A.entries ++ rest = List.kreplace k b B.entries
  rw [← hrest, kreplace_append_of_mem (AList.mem_keys.1 hk)]

/-- A key that only the whole holds is replaced behind the front part. -/
theorem replace_right (h : Front A B) {k : α} (hk : k ∉ A) (b : β) : Front A (B.replace k b) := by
  obtain ⟨rest, hrest⟩ := h
  refine ⟨List.kreplace k b rest, ?_⟩
  show A.entries ++ _ = List.kreplace k b B.entries
  rw [← hrest, kreplace_append_of_notMem fun hmem ↦ hk (AList.mem_keys.2 hmem)]

end Front

end Recency
