import DistCache.Basic
import DistCache.Lib.OrderedMap

/-!
# `HashRing`

Every node puts three points on a circle of 32-bit hash values, and a key belongs to the node whose
point is met first, going up from the hash of the key and around the end. The ring is the map from
points to nodes; who is a member is nowhere stored, only which node owns which point.

Two nodes may have a point in common, and the ring keeps the last one that was added
(`owns_addNode`). Nothing of the node that had it before is remembered.

Whether `char` is signed is up to the platform and changes the hash of strings that are not ASCII,
so it is a parameter (`charSigned`).
-/

namespace DistCache

/-- Hash values are compared as numbers. -/
instance linearOrderUInt32 : LinearOrder UInt32 where
  le_refl := UInt32.le_refl
  le_trans _ _ _ := UInt32.le_trans
  lt_iff_le_not_ge a b := by
    rw [UInt32.not_le, UInt32.le_iff_toNat_le, UInt32.lt_iff_toNat_lt]
    omega
  le_antisymm _ _ := UInt32.le_antisymm
  le_total := UInt32.le_total
  toDecidableLE := inferInstance

/-- `HashRing`: the map `ring_`. -/
structure HashRing where
  ring : OrderedMap UInt32 Bytes

namespace HashRing

/-- `VIRTUAL_NODES`. -/
def virtualNodes : ℕ := 3

/-- `static_cast<uint32_t>(c)`: a signed `char` is extended by its sign. -/
def ofChar (charSigned : Bool) (c : UInt8) : UInt32 :=
  if charSigned && 128 ≤ c then c.toUInt32 ||| 0xFFFFFF00 else c.toUInt32

/-- `HashRing::hash`. -/
def hash (charSigned : Bool) (input : Bytes) : UInt32 :=
  input.foldl (fun hash c ↦ (hash ^^^ ofChar charSigned c) * 16777619) 2166136261

/-- `node_id + ":" + std::to_string(i)`. -/
def virtualNode (nodeId : Bytes) (i : ℕ) : Bytes :=
  nodeId ++ bytes [':'] ++ bytes (Nat.toDigits 10 i)

/-- A ring without points. -/
def empty : HashRing := ⟨OrderedMap.empty⟩

variable (charSigned : Bool)

/-- `HashRing::add_node`. -/
def addNode (r : HashRing) (nodeId : Bytes) : HashRing where
  ring := (List.range virtualNodes).foldl
    (fun ring i ↦ ring.insert (hash charSigned (virtualNode nodeId i)) nodeId) r.ring

/-- `HashRing::remove_node`: the loop erases every entry of the node and no other. -/
def removeNode (r : HashRing) (nodeId : Bytes) : HashRing where
  ring := r.ring.filter fun e ↦ e.2 ≠ nodeId

/-- `HashRing::get_node`: the entry at `lower_bound` of the hash, or the first one when that is the
end; `"localhost"` on an empty ring. -/
def getNode (r : HashRing) (key : Bytes) : Bytes :=
  match r.ring.ceil (hash charSigned key) with
  | some e => e.2
  | none => bytes "localhost".toList

/-- `HashRing::get_all_nodes`. -/
def getAllNodes (r : HashRing) : List Bytes :=
  r.ring.entries.foldl (fun nodes e ↦ if e.2 ∈ nodes then nodes else nodes ++ [e.2]) []

/-- A call that changes the ring. -/
inductive Call where
  | addNode (nodeId : Bytes)
  | removeNode (nodeId : Bytes)
  deriving DecidableEq, Repr

/-- The ring after one call. -/
def step (r : HashRing) : Call → HashRing
  | .addNode nodeId => r.addNode charSigned nodeId
  | .removeNode nodeId => r.removeNode nodeId

/-- The ring after a sequence of calls. -/
def run (r : HashRing) (calls : List Call) : HashRing := calls.foldl (step charSigned) r

theorem run_append (r : HashRing) (calls calls' : List Call) :
    r.run charSigned (calls ++ calls') = (r.run charSigned calls).run charSigned calls' :=
  List.foldl_append

/-! ### What is on the ring -/

/-- The points of a node. -/
def points (nodeId : Bytes) : List UInt32 :=
  (List.range virtualNodes).map fun i ↦ hash charSigned (virtualNode nodeId i)

/-- The node that a point belongs to. -/
def Owns (r : HashRing) (nodeId : Bytes) (h : UInt32) : Prop := (h, nodeId) ∈ r.ring

variable {charSigned}

theorem ext_of_owns {r r' : HashRing} (h : ∀ n p, r.Owns n p ↔ r'.Owns n p) : r = r' := by
  cases r
  cases r'
  exact congrArg HashRing.mk (OrderedMap.ext_of_mem fun e ↦ h e.2 e.1)

/-- Inserting points one after the other. -/
private theorem mem_foldl_insert (n : Bytes) (l : List ℕ) (f : ℕ → UInt32)
    (m : OrderedMap UInt32 Bytes) (e : UInt32 × Bytes) :
    e ∈ l.foldl (fun ring i ↦ ring.insert (f i) n) m ↔
      e.1 ∈ l.map f ∧ e.2 = n ∨ e.1 ∉ l.map f ∧ e ∈ m := by
  induction l generalizing m with
  | nil => simp
  | cons i l ih =>
    rw [List.foldl_cons, ih, OrderedMap.mem_insert, Prod.ext_iff, List.map_cons, List.mem_cons]
    tauto

/-- **Adding a node**: its points become its own, whoever had them. -/
theorem owns_addNode {r : HashRing} {n n' : Bytes} {h : UInt32} :
    (r.addNode charSigned n).Owns n' h ↔
      h ∈ points charSigned n ∧ n' = n ∨ h ∉ points charSigned n ∧ r.Owns n' h :=
  mem_foldl_insert n _ _ r.ring (h, n')

/-- **Removing a node** erases the points it still has. -/
theorem owns_removeNode {r : HashRing} {n n' : Bytes} {h : UInt32} :
    (r.removeNode n).Owns n' h ↔ r.Owns n' h ∧ n' ≠ n := by
  rw [Owns, removeNode, OrderedMap.mem_filter, decide_eq_true_eq, Owns]

@[simp] theorem not_owns_empty (n : Bytes) (h : UInt32) : ¬ empty.Owns n h :=
  OrderedMap.notMem_empty _

/-- One round of the loop of `get_all_nodes`. -/
private theorem collect_spec {nodes : List Bytes} (hnodes : nodes.Nodup) (node : Bytes) :
    (if node ∈ nodes then nodes else nodes ++ [node]).Nodup ∧
      ∀ n, n ∈ (if node ∈ nodes then nodes else nodes ++ [node]) ↔ n ∈ nodes ∨ n = node := by
  split_ifs with hmem
  · refine ⟨hnodes, fun n ↦ (or_iff_left_of_imp ?_).symm⟩
    rintro rfl
    exact hmem
  · refine ⟨List.nodup_append.2 ⟨hnodes, List.nodup_singleton _, ?_⟩, fun n ↦ by simp⟩
    rintro n hn n' hn' rfl
    exact hmem (List.mem_singleton.1 hn' ▸ hn)

/-- The nodes that are listed are those that own a point, each once. -/
theorem getAllNodes_spec (r : HashRing) :
    r.getAllNodes.Nodup ∧ ∀ n, n ∈ r.getAllNodes ↔ ∃ h, r.Owns n h := by
  have key : ∀ (l : List (UInt32 × Bytes)) (nodes : List Bytes), nodes.Nodup →
      (l.foldl (fun nodes e ↦ if e.2 ∈ nodes then nodes else nodes ++ [e.2]) nodes).Nodup ∧
        ∀ n, n ∈ l.foldl (fun nodes e ↦ if e.2 ∈ nodes then nodes else nodes ++ [e.2]) nodes ↔
          n ∈ nodes ∨ ∃ h, (h, n) ∈ l := by
    intro l
    induction l with
    | nil => simp
    | cons e l ih =>
      intro nodes hnodes
      obtain ⟨hnodup, hmem⟩ := collect_spec hnodes e.2
      obtain ⟨hnodup', hmem'⟩ := ih _ hnodup
      refine ⟨hnodup', fun n ↦ (hmem' n).trans ?_⟩
      simp only [hmem, List.mem_cons, Prod.ext_iff, exists_or, exists_and_right, exists_eq,
        true_and, or_assoc]
  obtain ⟨hnodup, hmem⟩ := key r.ring.entries [] List.nodup_nil
  exact ⟨hnodup, fun n ↦ (hmem n).trans (by simp [Owns, OrderedMap.mem_def])⟩

/-- The owner of a key is the node whose point is met first, going around from the key. -/
theorem getNode_of_ceil {r : HashRing} {key : Bytes} {e : UInt32 × Bytes}
    (h : r.ring.ceil (hash charSigned key) = some e) : r.getNode charSigned key = e.2 := by
  rw [getNode, h]

end HashRing

end DistCache
