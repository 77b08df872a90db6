import Mathlib.Data.List.Nodup
import Mathlib.Data.List.Perm.Basic
import Mathlib.Data.Prod.Lex
import Mathlib.Order.BooleanAlgebra.Defs

/-!
# Ordered maps, read around the end

An ordered map is the list of its entries in strictly increasing order of the keys, which is what
iterating over one yields. Beside insertion and filtering there is one query: the first entry at or
above a position, and the very first one when there is none (`ceil`). Positions are thereby arranged
in a circle, and `rank` says in which order the circle is walked from a given position, so that
`ceil` is the entry of least rank (`ceil_eq_some_iff`). Everything about `ceil` is proved from this:
an insertion moves it to the new entry or not at all, a filter that lets it pass does not move it.
The whole walk is `circuit`; `ceil` is where it begins (`head?_circuit`).
-/

/-- Entries in strictly increasing order of their keys. -/
structure OrderedMap (κ ν : Type*) [LT κ] where
  entries : List (κ × ν)
  sorted : entries.Pairwise fun e e' ↦ e.1 < e'.1

namespace OrderedMap

variable {κ ν : Type*} [LinearOrder κ]

/-- No entries. -/
def empty : OrderedMap κ ν := ⟨[], List.Pairwise.nil⟩

instance : Membership (κ × ν) (OrderedMap κ ν) := ⟨fun m e ↦ e ∈ m.entries⟩

theorem mem_def {m : OrderedMap κ ν} {e : κ × ν} : e ∈ m ↔ e ∈ m.entries := Iff.rfl

@[simp] theorem notMem_empty (e : κ × ν) : e ∉ (empty : OrderedMap κ ν) := List.not_mem_nil

theorem nodup_keys (m : OrderedMap κ ν) : (m.entries.map Prod.fst).Nodup :=
  List.pairwise_map.2 (m.sorted.imp fun h ↦ h.ne)

/-- A key has one entry. -/
theorem eq_of_mem {m : OrderedMap κ ν} {e e' : κ × ν} (he : e ∈ m) (he' : e' ∈ m)
    (hkey : e.1 = e'.1) : e = e' := List.inj_on_of_nodup_map m.nodup_keys he he' hkey

/-- A map is determined by its entries. -/
theorem ext_of_mem {m m' : OrderedMap κ ν} (h : ∀ e, e ∈ m ↔ e ∈ m') : m = m' := by
  have hperm : m.entries.Perm m'.entries :=
    (List.perm_ext_iff_of_nodup m.nodup_keys.of_map m'.nodup_keys.of_map).2 h
  have hentries : m.entries = m'.entries :=
    hperm.eq_of_pairwise (fun _ _ _ _ h₁ h₂ ↦ absurd h₂ h₁.asymm) m.sorted m'.sorted
  cases m
  cases m'
  congr

/-! ### Insertion and filtering -/

/-- Set the entry of a key. -/
def insert (k : κ) (v : ν) (m : OrderedMap κ ν) : OrderedMap κ ν where
  entries := m.entries.filter (fun e ↦ e.1 < k) ++ (k, v) :: m.entries.filter fun e ↦ k < e.1
  sorted := by
    rw [List.pairwise_append, List.pairwise_cons]
    refine ⟨m.sorted.filter _, ⟨fun e he ↦ by simpa using (List.mem_filter.1 he).2,
      m.sorted.filter _⟩, fun e he e' he' ↦ ?_⟩
    have hlt : e.1 < k := by simpa using (List.mem_filter.1 he).2
    rcases List.mem_cons.1 he' with rfl | he'
    · exact hlt
    · exact hlt.trans (by simpa using (List.mem_filter.1 he').2)

theorem mem_insert {k : κ} {v : ν} {m : OrderedMap κ ν} {e : κ × ν} :
    e ∈ m.insert k v ↔ e = (k, v) ∨ e.1 ≠ k ∧ e ∈ m := by
  simp only [mem_def, insert, List.mem_append, List.mem_cons, List.mem_filter, decide_eq_true_eq]
  rw [← lt_or_lt_iff_ne]
  tauto

/-- The entries that satisfy `p`. -/
def filter (p : κ × ν → Bool) (m : OrderedMap κ ν) : OrderedMap κ ν where
  entries := m.entries.filter p
  sorted := m.sorted.filter p

theorem mem_filter {p : κ × ν → Bool} {m : OrderedMap κ ν} {e : κ × ν} :
    e ∈ m.filter p ↔ e ∈ m ∧ p e = true := List.mem_filter

/-- The value of a key. -/
def find? (k : κ) (m : OrderedMap κ ν) : Option ν :=
  (m.entries.find? fun e ↦ e.1 = k).map Prod.snd

theorem find?_eq_some_iff {k : κ} {m : OrderedMap κ ν} {v : ν} :
    m.find? k = some v ↔ (k, v) ∈ m := by
  rw [find?, Option.map_eq_some_iff]
  constructor
  · rintro ⟨e, he, rfl⟩
    have hk : e.1 = k := by simpa using List.find?_some he
    exact hk ▸ List.mem_of_find?_eq_some he
  · intro hmem
    rcases hfind : m.entries.find? fun e ↦ e.1 = k with - | e
    · exact absurd (List.find?_eq_none.1 hfind (k, v) hmem) (by simp)
    · have hk : e.1 = k := by simpa using List.find?_some hfind
      have heq := eq_of_mem (List.mem_of_find?_eq_some hfind) hmem hk
      exact ⟨e, hfind, congrArg Prod.snd heq⟩

/-- Change the values in place. -/
def mapValues (f : κ → ν → ν) (m : OrderedMap κ ν) : OrderedMap κ ν where
  entries := m.entries.map fun e ↦ (e.1, f e.1 e.2)
  sorted := List.pairwise_map.2 m.sorted

theorem mem_mapValues {f : κ → ν → ν} {m : OrderedMap κ ν} {e : κ × ν} :
    e ∈ m.mapValues f ↔ ∃ v, (e.1, v) ∈ m ∧ e.2 = f e.1 v := by
  rw [mem_def, mapValues, List.mem_map]
  constructor
  · rintro ⟨e', he', rfl⟩
    exact ⟨e'.2, he', rfl⟩
  · rintro ⟨v, hv, heq⟩
    exact ⟨(e.1, v), hv, Prod.ext rfl heq.symm⟩

/-! ### The entry at or above a position -/

/-- The first entry at or above `x`, or the very first one. -/
def ceil (x : κ) (m : OrderedMap κ ν) : Option (κ × ν) :=
  (m.entries.find? fun e ↦ x ≤ e.1).or m.entries.head?

/-- The place of `p` in the order in which the circle is walked from `x`: what is at or above `x`
comes first. -/
def rank (x p : κ) : Bool ×ₗ κ := toLex (decide (p < x), p)

theorem rank_le_rank {x p q : κ} : rank x p ≤ rank x q ↔
    x ≤ p ∧ q < x ∨ (p < x ↔ q < x) ∧ p ≤ q := by
  rw [rank, rank, Prod.Lex.toLex_le_toLex, Bool.lt_iff, decide_eq_false_iff_not, decide_eq_true_eq,
    decide_eq_decide, not_lt]

theorem rank_injective (x : κ) : Function.Injective (rank x) :=
  fun _ _ h ↦ congrArg (fun r ↦ (ofLex r).2) h

theorem ceil_mem {x : κ} {m : OrderedMap κ ν} {e : κ × ν} (h : m.ceil x = some e) : e ∈ m := by
  rcases Option.or_eq_some_iff.1 h with hfind | ⟨-, hhead⟩
  · exact List.mem_of_find?_eq_some hfind
  · exact List.mem_of_mem_head? hhead

theorem ceil_eq_none_iff {x : κ} {m : OrderedMap κ ν} : m.ceil x = none ↔ m.entries = [] := by
  rw [ceil, Option.or_eq_none_iff, List.head?_eq_none_iff, and_iff_right_of_imp]
  rintro h
  rw [h, List.find?_nil]

/-- **Nothing is met earlier** on the way around. -/
theorem rank_ceil_le {x : κ} {m : OrderedMap κ ν} {e : κ × ν} (h : m.ceil x = some e) {e' : κ × ν}
    (he' : e' ∈ m) : rank x e.1 ≤ rank x e'.1 := by
  rw [rank_le_rank]
  rcases Option.or_eq_some_iff.1 h with hfind | ⟨hfind, hhead⟩
  · -- an entry at or above `x`; those before it are below `x`, those after it have larger keys
    obtain ⟨hx, before, after, hsplit, hbefore⟩ := List.find?_eq_some_iff_append.1 hfind
    simp only [decide_eq_true_eq] at hx
    have hsorted := m.sorted
    rw [hsplit, List.pairwise_append, List.pairwise_cons] at hsorted
    rw [mem_def, hsplit, List.mem_append, List.mem_cons] at he'
    rcases he' with he' | rfl | he'
    · exact Or.inl ⟨hx, by simpa using hbefore e' he'⟩
    · exact Or.inr ⟨Iff.rfl, le_rfl⟩
    · have hlt := hsorted.2.1.1 e' he'
      exact Or.inr ⟨iff_of_false hx.not_gt (hx.trans hlt.le).not_gt, hlt.le⟩
  · -- everything is below `x`, and the entry is the first of all
    have hbelow : ∀ e' ∈ m.entries, e'.1 < x := by simpa using hfind
    refine Or.inr ⟨iff_of_true (hbelow e (List.mem_of_mem_head? hhead)) (hbelow e' he'), ?_⟩
    obtain ⟨l, hl⟩ := List.head?_eq_some_iff.1 hhead
    have hsorted := m.sorted
    rw [hl, List.pairwise_cons] at hsorted
    rw [mem_def, hl, List.mem_cons] at he'
    rcases he' with rfl | he'
    · exact le_rfl
    · exact (hsorted.1 e' he').le

/-- **The entry of least rank.** -/
theorem ceil_eq_some_iff {x : κ} {m : OrderedMap κ ν} {e : κ × ν} :
    m.ceil x = some e ↔ e ∈ m ∧ ∀ e' ∈ m, rank x e.1 ≤ rank x e'.1 := by
  refine ⟨fun h ↦ ⟨ceil_mem h, fun e' he' ↦ rank_ceil_le h he'⟩, fun ⟨he, hleast⟩ ↦ ?_⟩
  rcases h : m.ceil x with - | e'
  · rw [mem_def, ceil_eq_none_iff.1 h] at he
    exact absurd he List.not_mem_nil
  · have hrank : rank x e'.1 = rank x e.1 :=
      le_antisymm (rank_ceil_le h he) (hleast e' (ceil_mem h))
    rw [eq_of_mem (ceil_mem h) he (rank_injective x hrank)]

/-- **An insertion** moves the query to the new entry or not at all. -/
theorem ceil_insert {x k : κ} {v : ν} {m : OrderedMap κ ν} {e : κ × ν}
    (h : (m.insert k v).ceil x = some e) : e = (k, v) ∨ m.ceil x = some e := by
  obtain ⟨he, hleast⟩ := ceil_eq_some_iff.1 h
  refine (mem_insert.1 he).imp_right fun ⟨_, hem⟩ ↦ ceil_eq_some_iff.2 ⟨hem, fun e' he' ↦ ?_⟩
  rcases eq_or_ne e'.1 k with hk | hk
  · rw [hk]
    exact hleast (k, v) (mem_insert.2 (Or.inl rfl))
  · exact hleast e' (mem_insert.2 (Or.inr ⟨hk, he'⟩))

/-- **A filter** that lets the answer pass does not move the query. -/
theorem ceil_filter {x : κ} {p : κ × ν → Bool} {m : OrderedMap κ ν} {e : κ × ν}
    (h : m.ceil x = some e) (hp : p e = true) : (m.filter p).ceil x = some e := by
  obtain ⟨he, hleast⟩ := ceil_eq_some_iff.1 h
  exact ceil_eq_some_iff.2 ⟨mem_filter.2 ⟨he, hp⟩, fun e' he' ↦ hleast e' (mem_filter.1 he').1⟩

/-! ### Walking the circle -/

/-- All entries, in the order in which the circle is walked from `x`. -/
def circuit (x : κ) (m : OrderedMap κ ν) : List (κ × ν) :=
  (m.entries.filter fun e ↦ x ≤ e.1) ++ m.entries.filter fun e ↦ e.1 < x

theorem mem_circuit {x : κ} {m : OrderedMap κ ν} {e : κ × ν} : e ∈ m.circuit x ↔ e ∈ m := by
  simp only [circuit, List.mem_append, List.mem_filter, decide_eq_true_eq, ← and_or_left,
    le_or_gt, and_true]
  rfl

/-- Every entry is met once, at its rank. -/
theorem circuit_pairwise (x : κ) (m : OrderedMap κ ν) :
    (m.circuit x).Pairwise fun e e' ↦ rank x e.1 < rank x e'.1 := by
  have hlt {p q : κ} (hpq : p < q) (hside : p < x ↔ q < x) : rank x p < rank x q :=
    lt_of_not_ge fun hle ↦ by
      rw [rank_le_rank] at hle
      rcases hle with ⟨hq, hp⟩ | ⟨-, hqp⟩
      · exact absurd (hside.1 hp) hq.not_gt
      · exact absurd hpq hqp.not_gt
  rw [circuit, List.pairwise_append]
  refine ⟨(m.sorted.filter _).imp_of_mem fun {e e'} he he' h ↦ ?_,
    (m.sorted.filter _).imp_of_mem fun {e e'} he he' h ↦ ?_, fun e he e' he' ↦ ?_⟩
  · have hx : x ≤ e.1 := by simpa using (List.mem_filter.1 he).2
    have hx' : x ≤ e'.1 := by simpa using (List.mem_filter.1 he').2
    exact hlt h (iff_of_false hx.not_gt hx'.not_gt)
  · have hx : e.1 < x := by simpa using (List.mem_filter.1 he).2
    have hx' : e'.1 < x := by simpa using (List.mem_filter.1 he').2
    exact hlt h (iff_of_true hx hx')
  · -- from the last entry at or above `x` around to those below it
    have hx : x ≤ e.1 := by simpa using (List.mem_filter.1 he).2
    have hx' : e'.1 < x := by simpa using (List.mem_filter.1 he').2
    refine lt_of_not_ge fun hle ↦ ?_
    rw [rank_le_rank] at hle
    rcases hle with ⟨h, -⟩ | ⟨hside, -⟩
    · exact absurd hx' h.not_gt
    · exact absurd (hside.1 hx') hx.not_gt

/-- The query is the first entry on the way. -/
theorem head?_circuit (x : κ) (m : OrderedMap κ ν) : (m.circuit x).head? = m.ceil x := by
  rcases h : m.circuit x with - | ⟨e, l⟩
  · refine (ceil_eq_none_iff.2 (List.eq_nil_iff_forall_not_mem.2 fun e he ↦ ?_)).symm
    have hmem : e ∈ m.circuit x := mem_circuit.2 he
    rw [h] at hmem
    exact absurd hmem List.not_mem_nil
  · have hsorted := m.circuit_pairwise x
    rw [h, List.pairwise_cons] at hsorted
    refine (ceil_eq_some_iff.2 ⟨mem_circuit.1 (h ▸ List.mem_cons_self), fun e' he' ↦ ?_⟩).symm
    have hmem : e' ∈ m.circuit x := mem_circuit.2 he'
    rw [h, List.mem_cons] at hmem
    rcases hmem with rfl | hmem
    · exact le_rfl
    · exact (hsorted.1 e' hmem).le

/-- Entries that are filtered out are passed over. -/
theorem circuit_filter (x : κ) (p : κ × ν → Bool) (m : OrderedMap κ ν) :
    (m.filter p).circuit x = (m.circuit x).filter p := by
  simp only [circuit, filter, List.filter_append, List.filter_filter, Bool.and_comm]

end OrderedMap
