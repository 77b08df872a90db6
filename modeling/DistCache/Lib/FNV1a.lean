import Mathlib.Algebra.Group.Nat.Defs
import Mathlib.Data.List.Basic
import Mathlib.Data.Nat.Notation

/-!
# Hashing by exclusive or and multiplication

A word enters the state by an exclusive or, and the state is multiplied by a fixed number. When that
number has an inverse, a step loses nothing: the state before it and the word can each be recovered
from the other and the result (`step_left_inj`, `step_right_inj`). So two inputs that differ in one
word have different hashes, wherever it stands (`hash_append_cons_inj`).

FNV-1a is the instance for octets (`fnv1a`), given here as its definition reads, in natural numbers
modulo a power of two.
-/

namespace XorMultiply

variable {multiplier : UInt32}

/-- One word. -/
def step (multiplier h c : UInt32) : UInt32 := (h ^^^ c) * multiplier

/-- The words of a list, from the state `h` on. -/
def hash (multiplier h : UInt32) (l : List UInt32) : UInt32 := l.foldl (step multiplier) h

theorem hash_append (h : UInt32) (l l' : List UInt32) :
    hash multiplier h (l ++ l') = hash multiplier (hash multiplier h l) l' := List.foldl_append

section Invertible

variable {inverse : UInt32}

/-- Multiplying by a number with an inverse. -/
theorem mul_left_inj (hinv : multiplier * inverse = 1) {a b : UInt32} :
    a * multiplier = b * multiplier ↔ a = b := by
  refine ⟨fun heq ↦ ?_, fun heq ↦ by rw [heq]⟩
  have hback := congrArg (· * inverse) heq
  simpa only [UInt32.mul_assoc, hinv, UInt32.mul_one] using hback

/-- The state is not forgotten. -/
theorem step_left_inj (hinv : multiplier * inverse = 1) {h h' c : UInt32} :
    step multiplier h c = step multiplier h' c ↔ h = h' :=
  (mul_left_inj hinv).trans (UInt32.xor_left_inj c)

/-- The word is not forgotten. -/
theorem step_right_inj (hinv : multiplier * inverse = 1) {h c c' : UInt32} :
    step multiplier h c = step multiplier h c' ↔ c = c' :=
  (mul_left_inj hinv).trans (UInt32.xor_right_inj h)

/-- **The state is not forgotten** by any number of words. -/
theorem hash_left_inj (hinv : multiplier * inverse = 1) {h h' : UInt32} (l : List UInt32) :
    hash multiplier h l = hash multiplier h' l ↔ h = h' := by
  induction l generalizing h h' with
  | nil => exact Iff.rfl
  | cons c l ih => exact ih.trans (step_left_inj hinv)

/-- **One different word** makes a different hash. -/
theorem hash_append_cons_inj (hinv : multiplier * inverse = 1) (h : UInt32) (l l' : List UInt32)
    {c c' : UInt32} :
    hash multiplier h (l ++ c :: l') = hash multiplier h (l ++ c' :: l') ↔ c = c' := by
  rw [hash_append, hash_append]
  exact (hash_left_inj hinv l').trans (step_right_inj hinv)

end Invertible

end XorMultiply

/-! ### FNV-1a -/

/-- The offset basis of the 32-bit FNV-1a hash. -/
def fnvOffsetBasis : ℕ := 2166136261

/-- The prime of the 32-bit FNV-1a hash. -/
def fnvPrime : ℕ := 16777619

/-- The 32-bit FNV-1a hash of a list of octets. -/
def fnv1a (octets : List UInt8) : ℕ :=
  octets.foldl (fun h octet ↦ (h ^^^ octet.toNat) * fnvPrime % 2 ^ 32) fnvOffsetBasis

/-- **FNV-1a by words**: the octets are extended by zeros. -/
theorem toNat_hash_eq_fnv1a (octets : List UInt8) :
    (XorMultiply.hash 16777619 2166136261 (octets.map UInt8.toUInt32)).toNat = fnv1a octets := by
  have hstep : ∀ (h : UInt32) (octet : UInt8),
      (XorMultiply.step 16777619 h octet.toUInt32).toNat =
        (h.toNat ^^^ octet.toNat) * fnvPrime % 2 ^ 32 := fun h octet ↦ by
    rw [XorMultiply.step, UInt32.toNat_mul, UInt32.toNat_xor, UInt8.toNat_toUInt32]
    rfl
  have hfold : ∀ h : UInt32,
      (XorMultiply.hash 16777619 h (octets.map UInt8.toUInt32)).toNat =
        octets.foldl (fun h octet ↦ (h ^^^ octet.toNat) * fnvPrime % 2 ^ 32) h.toNat := by
    induction octets with
    | nil => exact fun h ↦ rfl
    | cons octet octets ih =>
      intro h
      rw [List.map_cons, List.foldl_cons, ← hstep]
      exact ih _
  exact hfold 2166136261

/-- The prime is odd, so multiplying by it loses nothing. -/
theorem fnvPrime_mul_inverse : (16777619 : UInt32) * 899433627 = 1 := by decide
