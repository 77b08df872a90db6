import DistCache.Cluster.RingPlacement

/-!
# The walk around the ring

What is on the ring after any calls is read off the calls: a point belongs to the node that was
added on it last, unless that node has been removed since (`owns_run_iff`). Together with the order
in which the points are met, going up from the hash of a key and over the end of the 32-bit range,
this says which node a key belongs to (`getNode_run`), and which nodes come after it when that node
and others leave, one by one and in any order (`getNode_run_removals`): the walk from the key does
not change when nodes leave, it only gets shorter.

The order is that of the distance `h - hash key`, a subtraction of `uint32_t` that wraps around
(`sub_le_sub_iff`).
-/

namespace DistCache

namespace HashRing

/-- **Clockwise distance.** Points are met in the order of their distance from the position. -/
theorem sub_le_sub_iff (x p q : UInt32) :
    p - x ≤ q - x ↔ OrderedMap.rank x p ≤ OrderedMap.rank x q := by
  rw [OrderedMap.rank_le_rank, UInt32.le_iff_toNat_le, UInt32.toNat_sub, UInt32.toNat_sub,
    UInt32.le_iff_toNat_le, UInt32.lt_iff_toNat_lt, UInt32.lt_iff_toNat_lt, UInt32.le_iff_toNat_le]
  have hx := x.toNat_lt
  have hp := p.toNat_lt
  have hq := q.toNat_lt
  omega

variable {charSigned : Bool}

/-! ### Points and calls -/

variable (charSigned) in
/-- The node was added on the point, and since then it has not been removed and no other node has
been added on the point. -/
def Holds (calls : List Call) (n : Bytes) (h : UInt32) : Prop :=
  Machine.Since (fun _ c ↦ c = .addNode n ∧ h ∈ points charSigned n)
    (fun c ↦ c ≠ .removeNode n ∧ ∀ n', c = .addNode n' → h ∈ points charSigned n' → n' = n) calls

/-- **What is on the ring**, read off the calls. -/
theorem owns_run_iff {calls : List Call} {n : Bytes} {h : UInt32} :
    (empty.run charSigned calls).Owns n h ↔ Holds charSigned calls n h := by
  induction calls using List.reverseRecOn with
  | nil => exact iff_of_false (not_owns_empty n h) Machine.not_since_nil
  | append_singleton calls c ih =>
    rw [run_append, Holds, Machine.since_append_singleton]
    change _ ↔ _ ∨ Holds charSigned calls n h ∧ _
    rw [← ih]
    show ((empty.run charSigned calls).step charSigned c).Owns n h ↔ _
    cases c with
    | addNode n' =>
      have hother : (∀ n'', Call.addNode n' = .addNode n'' → h ∈ points charSigned n'' → n'' = n) ↔
          (h ∈ points charSigned n' → n' = n) :=
        ⟨fun hall ↦ hall n' rfl, fun hpoint n'' heq ↦ Call.addNode.inj heq ▸ hpoint⟩
      rw [step, owns_addNode, Call.addNode.injEq, hother]
      rcases eq_or_ne n' n with rfl | hne
      · simp only [ne_eq, reduceCtorEq, not_false_eq_true]
        tauto
      · simp only [ne_eq, reduceCtorEq, not_false_eq_true, hne, hne.symm]
        tauto
    | removeNode n' =>
      rw [step, owns_removeNode]
      simp [eq_comm]

/-! ### The owner of a key -/

variable (charSigned) in
/-- **The owner of a key.** Whatever calls the ring has been through, `get_node` answers with the
node that holds the point with the least clockwise distance from the hash of the key, and with
`"localhost"` when no node holds a point. -/
theorem getNode_run (calls : List Call) (key : Bytes) :
    (∃ n h, Holds charSigned calls n h ∧
        (∀ n' h', Holds charSigned calls n' h' →
          h - hash charSigned key ≤ h' - hash charSigned key) ∧
        (empty.run charSigned calls).getNode charSigned key = n) ∨
      (∀ n h, ¬ Holds charSigned calls n h) ∧
        (empty.run charSigned calls).getNode charSigned key = bytes "localhost".toList := by
  rcases hceil : (empty.run charSigned calls).ring.ceil (hash charSigned key) with - | e
  · refine Or.inr ⟨fun n h hholds ↦ ?_, by rw [getNode, hceil]⟩
    have howns : (h, n) ∈ (empty.run charSigned calls).ring := owns_run_iff.2 hholds
    rw [OrderedMap.mem_def, OrderedMap.ceil_eq_none_iff.1 hceil] at howns
    exact absurd howns List.not_mem_nil
  · obtain ⟨hmem, hleast⟩ := OrderedMap.ceil_eq_some_iff.1 hceil
    refine Or.inl ⟨e.2, e.1, owns_run_iff.1 hmem, fun n' h' hholds ↦ ?_, getNode_of_ceil hceil⟩
    exact (sub_le_sub_iff _ _ _).2 (hleast (h', n') (owns_run_iff.2 hholds))

/-! ### When nodes leave -/

/-- The points with their nodes, in the order in which they are met from a key. -/
def walk (charSigned : Bool) (r : HashRing) (key : Bytes) : List (UInt32 × Bytes) :=
  r.ring.circuit (hash charSigned key)

theorem getNode_eq_walk (r : HashRing) (key : Bytes) :
    r.getNode charSigned key =
      ((r.walk charSigned key).head?.map Prod.snd).getD (bytes "localhost".toList) := by
  rw [walk, OrderedMap.head?_circuit, getNode]
  cases r.ring.ceil (hash charSigned key) <;> rfl

/-- A node that leaves is passed over from then on. -/
theorem walk_removeNode (r : HashRing) (n key : Bytes) :
    (r.removeNode n).walk charSigned key =
      (r.walk charSigned key).filter fun e ↦ e.2 ≠ n :=
  OrderedMap.circuit_filter _ _ _

theorem walk_run_removals (r : HashRing) (gone : List Bytes) (key : Bytes) :
    (r.run charSigned (gone.map .removeNode)).walk charSigned key =
      (r.walk charSigned key).filter fun e ↦ e.2 ∉ gone := by
  induction gone generalizing r with
  | nil => simp [run]
  | cons n gone ih =>
    show ((r.removeNode n).run charSigned (gone.map .removeNode)).walk charSigned key = _
    rw [ih, walk_removeNode, List.filter_filter]
    refine List.filter_congr fun e _ ↦ ?_
    simp only [List.mem_cons, not_or, Bool.decide_and, Bool.and_comm]

variable (charSigned) in
/-- **Failover.** From every key the points that nodes hold are met in one order, that of the
clockwise distance. However many nodes leave, and in whatever order, a key goes to the first node on
this way that has not left. -/
theorem getNode_run_removals (calls : List Call) (gone : List Bytes) (key : Bytes) :
    let r := empty.run charSigned calls
    (∀ e, e ∈ r.walk charSigned key ↔ Holds charSigned calls e.2 e.1) ∧
      (r.walk charSigned key).Pairwise
        (fun e e' ↦ e.1 - hash charSigned key < e'.1 - hash charSigned key) ∧
      (empty.run charSigned (calls ++ gone.map .removeNode)).getNode charSigned key =
        (((r.walk charSigned key).find? fun e ↦ e.2 ∉ gone).map Prod.snd).getD
          (bytes "localhost".toList) := by
  intro r
  refine ⟨fun e ↦ OrderedMap.mem_circuit.trans owns_run_iff, ?_, ?_⟩
  · refine (OrderedMap.circuit_pairwise _ _).imp fun {e e'} h ↦ lt_of_not_ge fun hle ↦ ?_
    exact h.not_ge ((sub_le_sub_iff _ _ _).1 hle)
  · rw [run_append, getNode_eq_walk, walk_run_removals, List.head?_filter]

end HashRing

end DistCache
