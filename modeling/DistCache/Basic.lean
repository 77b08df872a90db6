import Mathlib.Data.Nat.Notation
import Mathlib.Data.Int.Notation

/-!
# Bytes and clock readings

The base types every component shares. A `std::string` is a list of bytes: keys, values and
file contents are compared and cut byte by byte and never as text in some encoding. A
`steady_clock::time_point` is a number of nanoseconds; the clock itself is not modelled, every
operation that reads it takes the reading as an argument.
-/

namespace DistCache

/-- A `std::string`. -/
abbrev Bytes := List UInt8

/-- Byte strings are compared by their decidable equality, which is what association lists use. -/
instance : BEq Bytes := instBEqOfDecidableEq

/-- A string literal of the source, spelled out. All of them are ASCII. -/
def bytes (cs : List Char) : Bytes := cs.map fun c ↦ UInt8.ofNat c.toNat

/-- `' '`. -/
def space : UInt8 := 32

/-- `'\n'`. -/
def newline : UInt8 := 10

@[simp] theorem newline_ne_space : newline ≠ space := by decide

/-- A `steady_clock::time_point`, in nanoseconds. -/
abbrev Time := ℤ

/-- `std::chrono::seconds(n)`. -/
def seconds (n : ℤ) : Time := n * 1000000000

/-- `std::chrono::hours(n)`. -/
def hours (n : ℤ) : Time := n * 3600000000000

end DistCache
