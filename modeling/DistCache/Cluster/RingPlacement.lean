import DistCache.Cluster.HashRing
import DistCache.Lib.Machine
import Mathlib.Data.Finset.Basic

/-!
# Members and owners

A ring is meant to place keys on its members, the nodes added and not removed since (`members`).
Three things one expects of it are examined here.

*Changes are local* (`getNode_change`): a node that joins takes keys over and moves none between
others, a node that leaves gives up its own. This holds of every ring, shared points or not.

*Placement depends on the members only* (`getNode_eq_of_members_eq`), and *the members are listed*
(`isMembership_iff`). These two need the points of the members to be where `add_node` put them. When
a node is added on top of another one's point, the ring keeps no record of the latter: which of two
nodes owns a shared point depends on the order of the calls (`getNode_ne_of_shared_points`), and a
node whose three points have all been taken is a member that nobody knows
(`not_isMembership_of_shared_points`).
-/

namespace DistCache

namespace HashRing

variable {charSigned : Bool}

/-! ### Joining and leaving -/

private theorem ceil_foldl_insert {n : Bytes} {l : List ℕ} {f : ℕ → UInt32}
    {m : OrderedMap UInt32 Bytes} {x : UInt32} {e : UInt32 × Bytes}
    (h : (l.foldl (fun ring i ↦ ring.insert (f i) n) m).ceil x = some e) :
    e.2 = n ∨ m.ceil x = some e := by
  induction l generalizing m with
  | nil => exact Or.inr h
  | cons i l ih =>
    rcases ih h with he | he
    · exact Or.inl he
    · exact (OrderedMap.ceil_insert he).imp_left fun heq ↦ by rw [heq]

/-- A node owns its points as soon as it has been added. -/
theorem exists_owns_addNode (r : HashRing) (n : Bytes) : ∃ h, (r.addNode charSigned n).Owns n h :=
  ⟨hash charSigned (virtualNode n 0), owns_addNode.2 (Or.inl
    ⟨List.mem_map_of_mem (List.mem_range.2 (by decide)), rfl⟩)⟩

theorem exists_ceil {r : HashRing} (h : ∃ n p, r.Owns n p) (x : UInt32) :
    ∃ e, r.ring.ceil x = some e := by
  rcases hc : r.ring.ceil x with - | e
  · obtain ⟨n, p, hp⟩ := h
    rw [Owns, OrderedMap.mem_def, OrderedMap.ceil_eq_none_iff.1 hc] at hp
    exact absurd hp List.not_mem_nil
  · exact ⟨e, rfl⟩

/-- **A node joins**: a key stays where it is or goes to the new node. -/
theorem getNode_addNode (r : HashRing) (n key : Bytes) :
    (r.addNode charSigned n).getNode charSigned key = r.getNode charSigned key ∨
      (r.addNode charSigned n).getNode charSigned key = n := by
  obtain ⟨e, he⟩ := exists_ceil ⟨n, exists_owns_addNode r n⟩ (hash charSigned key)
  rw [getNode_of_ceil he]
  rcases ceil_foldl_insert he with hn | hold
  · exact Or.inr hn
  · exact Or.inl (getNode_of_ceil hold).symm

/-- **A node leaves**: the keys of others stay where they are. -/
theorem getNode_removeNode {r : HashRing} {n key : Bytes} (hr : r.ring.entries ≠ [])
    (hn : r.getNode charSigned key ≠ n) :
    (r.removeNode n).getNode charSigned key = r.getNode charSigned key := by
  rcases hc : r.ring.ceil (hash charSigned key) with - | e
  · exact absurd (OrderedMap.ceil_eq_none_iff.1 hc) hr
  · rw [getNode_of_ceil hc] at hn ⊢
    exact getNode_of_ceil (OrderedMap.ceil_filter hc (by simpa using hn))

variable (charSigned) in
/-- **Changes are local.** Whatever the ring has been through, after a node is added the owner of a
key is the old one or the new node, and after a node is removed the keys it did not own have the
same owners as before. -/
theorem getNode_change (calls : List Call) (n key : Bytes) :
    let r := empty.run charSigned calls
    ((r.addNode charSigned n).getNode charSigned key = r.getNode charSigned key ∨
        (r.addNode charSigned n).getNode charSigned key = n) ∧
      (r.ring.entries ≠ [] → r.getNode charSigned key ≠ n →
        (r.removeNode n).getNode charSigned key = r.getNode charSigned key) :=
  ⟨getNode_addNode _ n key, getNode_removeNode⟩

/-! ### Members -/

/-- What a call does to the set of members. -/
def memberStep (S : Finset Bytes) : Call → Finset Bytes
  | .addNode n => insert n S
  | .removeNode n => S.erase n

/-- The nodes that have been added and not removed since, starting from the members `S`. -/
def members (S : Finset Bytes) (calls : List Call) : Finset Bytes := calls.foldl memberStep S

/-- A condition on every call of a sequence, in the ring before it. -/
def EachCall (charSigned : Bool) (P : HashRing → Call → Prop) (r : HashRing)
    (calls : List Call) : Prop := Machine.Along (step charSigned) P r calls

instance (P : HashRing → Call → Prop) [∀ r c, Decidable (P r c)] (r : HashRing)
    (calls : List Call) : Decidable (EachCall charSigned P r calls) :=
  Machine.decidableAlong (step charSigned) P r calls

/-- The call puts no point where another node has one. -/
def TakesNoPoint (charSigned : Bool) (r : HashRing) : Call → Prop
  | .addNode n => ∀ e ∈ r.ring.entries, e.1 ∈ points charSigned n → e.2 = n
  | .removeNode _ => True

/-- The call leaves every other node on the ring at least one point. -/
def LeavesAPoint (charSigned : Bool) (r : HashRing) : Call → Prop
  | .addNode n => ∀ e ∈ r.ring.entries,
      e.2 = n ∨ ∃ e' ∈ r.ring.entries, e'.2 = e.2 ∧ e'.1 ∉ points charSigned n
  | .removeNode _ => True

instance (r : HashRing) (c : Call) : Decidable (TakesNoPoint charSigned r c) := by
  cases c <;> unfold TakesNoPoint <;> infer_instance

instance (r : HashRing) (c : Call) : Decidable (LeavesAPoint charSigned r c) := by
  cases c <;> unfold LeavesAPoint <;> infer_instance

/-! ### Placement -/

/-- The points of the members are all on the ring, and nothing else is. -/
def Complete (charSigned : Bool) (r : HashRing) (S : Finset Bytes) : Prop :=
  ∀ n h, r.Owns n h ↔ n ∈ S ∧ h ∈ points charSigned n

theorem complete_empty : Complete charSigned empty ∅ := fun n h ↦ by simp

/-- **One call** that takes no point away. -/
theorem Complete.step {r : HashRing} {S : Finset Bytes} (h : Complete charSigned r S) {c : Call}
    (hc : TakesNoPoint charSigned r c) :
    Complete charSigned (r.step charSigned c) (memberStep S c) := by
  intro n p
  cases c with
  | addNode n' =>
    rw [HashRing.step, owns_addNode, memberStep, Finset.mem_insert, h n p]
    -- a point of the new node that a member owns is a point of that same node
    have hshared : n ∈ S → p ∈ points charSigned n → p ∈ points charSigned n' → n = n' :=
      fun hn hp hp' ↦ hc (p, n) ((h n p).2 ⟨hn, hp⟩) hp'
    by_cases hp' : p ∈ points charSigned n'
    · constructor
      · rintro (⟨-, rfl⟩ | ⟨hnot, -⟩)
        · exact ⟨Or.inl rfl, hp'⟩
        · exact absurd hp' hnot
      · rintro ⟨rfl | hn, hp⟩
        · exact Or.inl ⟨hp', rfl⟩
        · exact Or.inl ⟨hp', hshared hn hp hp'⟩
    · constructor
      · rintro (⟨hp, -⟩ | ⟨-, hn, hp⟩)
        · exact absurd hp hp'
        · exact ⟨Or.inr hn, hp⟩
      · rintro ⟨rfl | hn, hp⟩
        · exact absurd hp hp'
        · exact Or.inr ⟨hp', hn, hp⟩
  | removeNode n' =>
    rw [HashRing.step, owns_removeNode, memberStep, Finset.mem_erase, h n p]
    tauto

/-- **A run** in which no call takes a point away. -/
theorem Complete.run {r : HashRing} {S : Finset Bytes} (h : Complete charSigned r S)
    {calls : List Call} (hcalls : EachCall charSigned (TakesNoPoint charSigned) r calls) :
    Complete charSigned (r.run charSigned calls) (members S calls) := by
  induction calls generalizing r S with
  | nil => exact h
  | cons c calls ih => exact ih (h.step hcalls.1) hcalls.2

theorem Complete.unique {r r' : HashRing} {S : Finset Bytes} (h : Complete charSigned r S)
    (h' : Complete charSigned r' S) : r = r' :=
  ext_of_owns fun n p ↦ (h n p).trans (h' n p).symm

/-- **A node joins and leaves again**, without having been a member: the ring is the old one exactly
if the node took no point. -/
theorem Complete.removeNode_addNode_eq_iff {r : HashRing} {S : Finset Bytes}
    (h : Complete charSigned r S) {n : Bytes} (hn : n ∉ S) :
    (r.addNode charSigned n).removeNode n = r ↔ TakesNoPoint charSigned r (.addNode n) := by
  constructor
  · intro heq e he hpoint
    have howns : ((r.addNode charSigned n).removeNode n).Owns e.2 e.1 := by rwa [heq]
    -- after the call the point is the new node's, so it would be gone
    obtain ⟨hadd, hne⟩ := owns_removeNode.1 howns
    rcases owns_addNode.1 hadd with ⟨-, heq'⟩ | ⟨hnot, -⟩
    · exact heq'
    · exact absurd hpoint hnot
  · intro htakes
    have hback :
        Complete charSigned ((r.addNode charSigned n).removeNode n) ((insert n S).erase n) :=
      (h.step htakes).step (c := .removeNode n) trivial
    rw [Finset.erase_insert hn] at hback
    exact hback.unique h

variable (charSigned) in
/-- **Placement depends on the members only**, as long as no node is added on top of a point of
another: two rings with the same members have the same owners, in whatever order these joined. A
node that joins and leaves again then leaves no trace, exactly if it is not added on top of such a
point itself. -/
theorem getNode_eq_of_members_eq (calls calls' : List Call)
    (hcalls : EachCall charSigned (TakesNoPoint charSigned) empty calls)
    (hcalls' : EachCall charSigned (TakesNoPoint charSigned) empty calls')
    (hmembers : members ∅ calls = members ∅ calls') :
    (∀ key, (empty.run charSigned calls).getNode charSigned key =
      (empty.run charSigned calls').getNode charSigned key) ∧
    ∀ n ∉ members ∅ calls,
      (empty.run charSigned (calls ++ [.addNode n, .removeNode n]) = empty.run charSigned calls ↔
        TakesNoPoint charSigned (empty.run charSigned calls) (.addNode n)) := by
  have hrun := complete_empty.run hcalls
  constructor
  · intro key
    rw [hrun.unique (hmembers ▸ complete_empty.run hcalls')]
  · intro n hn
    rw [run_append]
    exact hrun.removeNode_addNode_eq_iff hn

/-- Two servers that learn of the same two nodes in different orders. -/
theorem getNode_eq_of_members_eq_two :
    (empty.run true [.addNode [1], .addNode [2]]).getNode true [9] =
      (empty.run true [.addNode [2], .addNode [3], .addNode [1], .removeNode [3]]).getNode true
        [9] :=
  (getNode_eq_of_members_eq true _ _ (by decide) (by decide) (by decide)).1 [9]

/-- **History decides.** The hashes of these two ids coincide, and so do all their points: the node
that was added last owns every key, and when it leaves the other one owns none. -/
theorem getNode_ne_of_shared_points :
    let a := bytes "costarring".toList
    let b := bytes "liquid".toList
    let r := empty.run true
    members ∅ [.addNode a, .addNode b] = members ∅ [.addNode b, .addNode a] ∧
      (r [.addNode a, .addNode b]).getNode true [9] ≠
        (r [.addNode b, .addNode a]).getNode true [9] ∧
      members ∅ [.addNode a, .addNode b, .removeNode b] = members ∅ [.addNode a] ∧
      (r [.addNode a, .addNode b, .removeNode b]).getNode true [9] ≠
        (r [.addNode a]).getNode true [9] := by
  decide +kernel

/-! ### Membership -/

/-- The members are listed, each once, and own the keys. -/
structure IsMembership (charSigned : Bool) (r : HashRing) (S : Finset Bytes) : Prop where
  nodup : r.getAllNodes.Nodup
  mem_iff : ∀ n, n ∈ r.getAllNodes ↔ n ∈ S
  getNode_mem : S.Nonempty → ∀ key, r.getNode charSigned key ∈ S

/-- Nodes on the ring are members. -/
def OwnedBy (r : HashRing) (S : Finset Bytes) : Prop := ∀ n h, r.Owns n h → n ∈ S

/-- Members are on the ring. -/
def Present (r : HashRing) (S : Finset Bytes) : Prop := ∀ n ∈ S, ∃ h, r.Owns n h

theorem ownedBy_empty : OwnedBy empty ∅ := fun n h hn ↦ absurd hn (not_owns_empty n h)

theorem present_empty : Present empty ∅ := fun n hn ↦ absurd hn (Finset.notMem_empty n)

theorem OwnedBy.step {r : HashRing} {S : Finset Bytes} (h : OwnedBy r S) (c : Call) :
    OwnedBy (r.step charSigned c) (memberStep S c) := by
  intro n p hn
  cases c with
  | addNode n' =>
    rcases owns_addNode.1 hn with ⟨-, rfl⟩ | ⟨-, hn⟩
    · exact Finset.mem_insert_self _ _
    · exact Finset.mem_insert_of_mem (h n p hn)
  | removeNode n' =>
    obtain ⟨hn, hne⟩ := owns_removeNode.1 hn
    exact Finset.mem_erase.2 ⟨hne, h n p hn⟩

/-- **Exactly the members are on the ring** if all of them are. -/
theorem OwnedBy.isMembership_iff_present {r : HashRing} {S : Finset Bytes} (h : OwnedBy r S) :
    IsMembership charSigned r S ↔ Present r S := by
  obtain ⟨hnodup, hmem⟩ := r.getAllNodes_spec
  constructor
  · exact fun hexact n hn ↦ (hmem n).1 ((hexact.mem_iff n).2 hn)
  · intro hpresent
    refine ⟨hnodup, fun n ↦ ⟨fun hn ↦ ?_, fun hn ↦ (hmem n).2 (hpresent n hn)⟩, ?_⟩
    · obtain ⟨p, hp⟩ := (hmem n).1 hn
      exact h n p hp
    · rintro ⟨n, hn⟩ key
      obtain ⟨e, he⟩ := exists_ceil ⟨n, hpresent n hn⟩ (hash charSigned key)
      rw [getNode_of_ceil he]
      exact h e.2 e.1 (OrderedMap.ceil_mem he)

/-- **One call**: the members stay on the ring exactly if each keeps a point. -/
theorem Present.step_iff {r : HashRing} {S : Finset Bytes} (howned : OwnedBy r S)
    (h : Present r S) (c : Call) :
    Present (r.step charSigned c) (memberStep S c) ↔ LeavesAPoint charSigned r c := by
  cases c with
  | addNode n' =>
    constructor
    · intro hpresent e he
      rcases eq_or_ne e.2 n' with hn | hn
      · exact Or.inl hn
      · obtain ⟨p, hp⟩ := hpresent e.2 (Finset.mem_insert_of_mem (howned e.2 e.1 he))
        rcases owns_addNode.1 hp with ⟨-, heq⟩ | ⟨hp', hown⟩
        · exact absurd heq hn
        · exact Or.inr ⟨(p, e.2), hown, rfl, hp'⟩
    · intro hleaves n hn
      rcases eq_or_ne n n' with rfl | hne
      · exact exists_owns_addNode r n
      · obtain ⟨p, hp⟩ := h n ((Finset.mem_insert.1 hn).resolve_left hne)
        obtain ⟨e, he, rfl, hpoint⟩ := (hleaves (p, n) hp).resolve_left hne
        exact ⟨e.1, owns_addNode.2 (Or.inr ⟨hpoint, he⟩)⟩
  | removeNode n' =>
    refine iff_of_true (fun n hn ↦ ?_) trivial
    obtain ⟨hne, hn⟩ := Finset.mem_erase.1 hn
    obtain ⟨p, hp⟩ := h n hn
    exact ⟨p, owns_removeNode.2 ⟨hp, hne⟩⟩

/-- **A run**, from a ring that has its members on it. -/
theorem Present.run_iff {r : HashRing} {S : Finset Bytes} (howned : OwnedBy r S)
    (h : Present r S) (calls : List Call) :
    (∀ before, before <+: calls →
        IsMembership charSigned (r.run charSigned before) (members S before)) ↔
      EachCall charSigned (LeavesAPoint charSigned) r calls := by
  induction calls generalizing r S with
  | nil =>
    refine iff_of_true (fun before hbefore ↦ ?_) trivial
    rw [List.prefix_nil.1 hbefore]
    exact howned.isMembership_iff_present.2 h
  | cons c calls ih =>
    change _ ↔ LeavesAPoint charSigned r c ∧
      EachCall charSigned (LeavesAPoint charSigned) (r.step charSigned c) calls
    rw [← h.step_iff howned c]
    constructor
    · intro hall
      have hnext : Present (r.step charSigned c) (memberStep S c) :=
        (howned.step c).isMembership_iff_present.1
          (hall [c] (List.cons_prefix_cons.2 ⟨rfl, List.nil_prefix⟩))
      exact ⟨hnext, (ih (howned.step c) hnext).1 fun before hbefore ↦
        hall (c :: before) (List.cons_prefix_cons.2 ⟨rfl, hbefore⟩)⟩
    · rintro ⟨hnext, hrest⟩ before hbefore
      rcases List.prefix_cons_iff.1 hbefore with rfl | ⟨before', rfl, hbefore'⟩
      · exact howned.isMembership_iff_present.2 h
      · exact (ih (howned.step c) hnext).2 hrest before' hbefore'

variable (charSigned) in
/-- **When the members are known.** All along a sequence of calls, `get_all_nodes` lists the members
and `get_node` answers with one of them, exactly if every `add_node` leaves each other node on the
ring at least one of its points. -/
theorem isMembership_iff (calls : List Call) :
    (∀ before, before <+: calls →
        IsMembership charSigned (empty.run charSigned before) (members ∅ before)) ↔
      EachCall charSigned (LeavesAPoint charSigned) empty calls :=
  Present.run_iff ownedBy_empty present_empty calls

/-- **A member nobody knows.** All three points of the first node are taken by the second, which has
the same hash; when the second leaves, the ring is empty. -/
theorem not_isMembership_of_shared_points :
    let a := bytes "costarring".toList
    let b := bytes "liquid".toList
    let calls : List Call := [.addNode a, .addNode b]
    let calls' : List Call := calls ++ [.removeNode b]
    ¬ IsMembership true (empty.run true calls) (members ∅ calls) ∧
      ¬ IsMembership true (empty.run true calls') (members ∅ calls') ∧
      (empty.run true calls').getNode true [9] = bytes "localhost".toList := by
  intro a b calls calls'
  have hlisted : a ∈ members ∅ calls ∧ a ∉ (empty.run true calls).getAllNodes := by decide +kernel
  have hlisted' : a ∈ members ∅ calls' ∧ a ∉ (empty.run true calls').getAllNodes := by
    decide +kernel
  exact ⟨fun h ↦ hlisted.2 ((h.mem_iff a).2 hlisted.1),
    fun h ↦ hlisted'.2 ((h.mem_iff a).2 hlisted'.1), by decide +kernel⟩

end HashRing

end DistCache
