import DistCache.Cluster.HashRing
import DistCache.Lib.FNV1a
import Mathlib.Data.List.Induction

/-!
# The hash behind the ring

`HashRing::hash` is FNV-1a where `char` is unsigned (`toNat_hash_unsigned`). Where it is signed, a
byte from 128 on is extended by ones instead of zeros before it enters the state, and the two part
at the first such byte (`hash_eq_fnv1a_iff`). They may meet again: a later such byte can cancel an
earlier one, so of a single string nothing more can be said than that ASCII is safe.

What does not depend on the platform is that a step of the hash loses nothing. The three points of a
node come from strings that differ in their last character, so they are three (`nodup_points`), and
as nobody puts a point on the ring that is not its own, a node that has just been added has these
three and no others (`addNode_full_weight`).
-/

namespace DistCache

namespace HashRing

/-- **The hash** as an instance of hashing by exclusive or and multiplication. -/
theorem hash_eq (charSigned : Bool) (input : Bytes) : hash charSigned input =
    XorMultiply.hash 16777619 2166136261 (input.map (ofChar charSigned)) := by
  rw [XorMultiply.hash, List.foldl_map]
  rfl

/-! ### Signed and unsigned characters -/

/-- A `char` is extended by zeros exactly if it is ASCII. -/
theorem ofChar_true_eq_iff (c : UInt8) : ofChar true c = c.toUInt32 ↔ c < 128 := by
  rw [ofChar, Bool.true_and]
  split_ifs with hc
  · refine iff_of_false (fun heq ↦ ?_) (UInt8.not_lt.2 (by simpa using hc))
    have hle : 0xFFFFFF00 ≤ (c.toUInt32 ||| 0xFFFFFF00).toNat := by
      rw [UInt32.toNat_or]
      exact Nat.right_le_or
    rw [heq, UInt8.toNat_toUInt32] at hle
    exact absurd (lt_of_le_of_lt hle c.toNat_lt) (by decide)
  · exact iff_of_true rfl (by simpa using hc)

/-- **Unsigned characters**: the hash is FNV-1a. -/
theorem toNat_hash_unsigned (input : Bytes) : (hash false input).toNat = fnv1a input := by
  rw [hash_eq, ← toNat_hash_eq_fnv1a]
  rfl

/-- ASCII is hashed alike everywhere. -/
theorem hash_eq_hash_unsigned {charSigned : Bool} {input : Bytes}
    (h : charSigned = false ∨ ∀ c ∈ input, c < 128) :
    hash charSigned input = hash false input := by
  rcases h with rfl | h
  · rfl
  · cases charSigned with
    | false => rfl
    | true =>
      have hmap : input.map (ofChar true) = input.map (ofChar false) :=
        List.map_congr_left fun c hc ↦ (ofChar_true_eq_iff c).2 (h c hc)
      rw [hash_eq, hash_eq, hmap]

/-- **The first byte from 128 on** makes the difference. -/
theorem hash_signed_concat_ne {l : Bytes} (hl : ∀ c ∈ l, c < 128) {c : UInt8} (hc : ¬ c < 128) :
    hash true (l ++ [c]) ≠ hash false (l ++ [c]) := by
  have hmap : l.map (ofChar true) = l.map (ofChar false) :=
    List.map_congr_left fun c hc ↦ (ofChar_true_eq_iff c).2 (hl c hc)
  rw [hash_eq, hash_eq, List.map_append, List.map_append, hmap, List.map_singleton,
    List.map_singleton, ne_eq, XorMultiply.hash_append_cons_inj fnvPrime_mul_inverse]
  exact fun heq ↦ hc ((ofChar_true_eq_iff c).1 heq)

/-- **Where the hash is FNV-1a.** It is for a string and all that precedes each of its characters
exactly if `char` is unsigned or the string is ASCII; and then the string, as a key, has the same
owner as on a platform with unsigned characters, on every ring. -/
theorem hash_eq_fnv1a_iff (charSigned : Bool) (input : Bytes) :
    ((∀ t, t <+: input → (hash charSigned t).toNat = fnv1a t) ↔
        charSigned = false ∨ ∀ c ∈ input, c < 128) ∧
      (charSigned = false ∨ (∀ c ∈ input, c < 128) →
        ∀ r : HashRing, r.getNode charSigned input = r.getNode false input) := by
  refine ⟨⟨fun hall ↦ ?_, fun h t ht ↦ ?_⟩, fun h r ↦ ?_⟩
  · cases charSigned with
    | false => exact Or.inl rfl
    | true =>
      right
      induction input using List.reverseRecOn with
      | nil => simp
      | append_singleton l c ih =>
        have hl := ih fun t ht ↦ hall t (ht.trans (List.prefix_append l [c]))
        have heq := (hall _ List.prefix_rfl).trans (toNat_hash_unsigned (l ++ [c])).symm
        have hc : c < 128 := by
          by_contra hc
          exact hash_signed_concat_ne hl hc (UInt32.toNat_inj.1 heq)
        intro c' hc'
        rcases List.mem_append.1 hc' with hc' | hc'
        · exact hl c' hc'
        · rwa [List.mem_singleton.1 hc']
  · rw [hash_eq_hash_unsigned (h.imp_right fun h c hc ↦ h c (ht.subset hc)), toNat_hash_unsigned]
  · rw [getNode, getNode, hash_eq_hash_unsigned h]

/-- **One key, two owners.** The UTF-8 encoding of a sharp s, on a ring of three nodes. -/
theorem getNode_signed_ne :
    let key : Bytes := [0xc3, 0x9f]
    let r := empty.run true
      (["node-1", "node-2", "node-3"].map fun n ↦ Call.addNode (bytes n.toList))
    (hash true key).toNat ≠ fnv1a key ∧
      r.getNode true key = bytes "node-2".toList ∧
      r.getNode false key = bytes "node-3".toList := by
  decide +kernel

/-- The second of two bytes from 128 on cancels the first. -/
example : (hash true [0x23, 0x92, 0x80]).toNat = fnv1a [0x23, 0x92, 0x80] := by decide

/-! ### The points of a node -/

/-- The hashes of `n:0`, `n:1` and `n:2`. -/
theorem points_eq (charSigned : Bool) (n : Bytes) : points charSigned n =
    [hash charSigned (n ++ bytes [':', '0']), hash charSigned (n ++ bytes [':', '1']),
      hash charSigned (n ++ bytes [':', '2'])] := by
  have hname : ∀ i < 3, virtualNode n i = n ++ bytes [':', i.digitChar] := fun i hi ↦ by
    rw [virtualNode, Nat.toDigits_of_lt_base (by omega), List.append_assoc]
    rfl
  have hrange : List.range virtualNodes = [0, 1, 2] := rfl
  rw [points, hrange, List.map_cons, List.map_cons, List.map_singleton, hname 0 (by decide),
    hname 1 (by decide), hname 2 (by decide)]
  rfl

/-- Strings that differ in their last character have different hashes. -/
theorem hash_concat_inj {charSigned : Bool} (l : Bytes) {c c' : UInt8} :
    hash charSigned (l ++ [c]) = hash charSigned (l ++ [c']) ↔
      ofChar charSigned c = ofChar charSigned c' := by
  rw [hash_eq, hash_eq, List.map_append, List.map_append, List.map_singleton, List.map_singleton]
  exact XorMultiply.hash_append_cons_inj fnvPrime_mul_inverse _ _ _

/-- **The points of a node are three.** -/
theorem nodup_points (charSigned : Bool) (n : Bytes) : (points charSigned n).Nodup := by
  have hne : ∀ c c' : Char, ofChar charSigned (UInt8.ofNat c.toNat) ≠
      ofChar charSigned (UInt8.ofNat c'.toNat) →
        hash charSigned (n ++ bytes [':', c]) ≠ hash charSigned (n ++ bytes [':', c']) := by
    intro c c' hc heq
    have hsplit : ∀ d : Char, n ++ bytes [':', d] = (n ++ bytes [':']) ++ [UInt8.ofNat d.toNat] :=
      fun d ↦ by rw [List.append_assoc]; rfl
    rw [hsplit, hsplit, hash_concat_inj] at heq
    exact hc heq
  rw [points_eq]
  have h01 := hne '0' '1' (by cases charSigned <;> decide)
  have h02 := hne '0' '2' (by cases charSigned <;> decide)
  have h12 := hne '1' '2' (by cases charSigned <;> decide)
  simp [h01, h02, h12]

/-- Every point on the ring is one of its owner's. -/
def OwnPoints (charSigned : Bool) (r : HashRing) : Prop :=
  ∀ n h, r.Owns n h → h ∈ points charSigned n

variable {charSigned : Bool}

theorem ownPoints_empty : OwnPoints charSigned empty := fun n h hn ↦
  absurd hn (not_owns_empty n h)

/-- **One call.** -/
theorem OwnPoints.step {r : HashRing} (hr : OwnPoints charSigned r) (c : Call) :
    OwnPoints charSigned (r.step charSigned c) := by
  intro n h hn
  cases c with
  | addNode n' =>
    rcases owns_addNode.1 hn with ⟨hpoint, rfl⟩ | ⟨-, hn⟩
    · exact hpoint
    · exact hr n h hn
  | removeNode n' => exact hr n h (owns_removeNode.1 hn).1

/-- **A run.** -/
theorem OwnPoints.run {r : HashRing} (hr : OwnPoints charSigned r) (calls : List Call) :
    OwnPoints charSigned (r.run charSigned calls) := by
  induction calls generalizing r with
  | nil => exact hr
  | cons c calls ih => exact ih (hr.step c)

/-- A node that has just been added has all its points, and no others. -/
theorem OwnPoints.owns_addNode_iff {r : HashRing} (hr : OwnPoints charSigned r) {n : Bytes}
    {h : UInt32} : (r.addNode charSigned n).Owns n h ↔ h ∈ points charSigned n := by
  rw [owns_addNode]
  have hown := hr n h
  tauto

/-- Adding a node twice is adding it once. -/
theorem addNode_addNode (r : HashRing) (n : Bytes) :
    (r.addNode charSigned n).addNode charSigned n = r.addNode charSigned n := by
  refine ext_of_owns fun n' h ↦ ?_
  rw [owns_addNode, owns_addNode]
  tauto

variable (charSigned) in
/-- **Full weight.** Whatever was added and removed before: a node that has just been added owns
three points, which are its own hashes. Adding it again changes nothing, and removing it leaves no
point to it. -/
theorem addNode_full_weight (calls : List Call) (n : Bytes) :
    let r := (empty.run charSigned calls).addNode charSigned n
    let hashes := [hash charSigned (n ++ bytes [':', '0']),
      hash charSigned (n ++ bytes [':', '1']), hash charSigned (n ++ bytes [':', '2'])]
    (∀ h, r.Owns n h ↔ h ∈ hashes) ∧ hashes.Nodup ∧ hashes.length = virtualNodes ∧
      r.addNode charSigned n = r ∧ ∀ h, ¬ (r.removeNode n).Owns n h := by
  intro r hashes
  have hpoints : points charSigned n = hashes := points_eq charSigned n
  have hown := OwnPoints.run (ownPoints_empty : OwnPoints charSigned empty) calls
  refine ⟨fun h ↦ ?_, hpoints ▸ nodup_points charSigned n, rfl, addNode_addNode _ n, fun h hn ↦ ?_⟩
  · rw [← hpoints]
    exact hown.owns_addNode_iff
  · exact (owns_removeNode.1 hn).2 rfl

end HashRing

end DistCache
