/-!
# Byte strings

Byte strings and the natural numbers they denote, most significant byte first.

## Main definitions

* `Bytes.toNat`: the number that a byte string denotes
* `Bytes.count`: how many byte strings have a given length
* `Bytes.ofNat`: the byte string of a given length that denotes a number
* `Bytes.width`: how many bytes a number takes
-/

namespace RankedKeys

/-- A string of bytes. -/
abbrev Bytes := List UInt8

namespace Bytes

/-- The number that a byte string denotes, most significant byte first. -/
def toNat (bytes : Bytes) : Nat :=
  bytes.foldl (fun n b => 256 * n + b.toNat) 0

/-- How many byte strings have a given length. -/
def count (length : Nat) : Nat :=
  Nat.pow 256 length

/-- The lowest `length` bytes of a number, most significant byte first. -/
def ofNat : (length n : Nat) → Bytes
  | 0, _ => []
  | length + 1, n => ofNat length (n / 256) ++ [UInt8.ofNat (n % 256)]

/-- How many bytes a number takes; zero takes one. -/
def width (n : Nat) : Nat :=
  n.log2 / 8 + 1

@[simp]
theorem length_ofNat (length n : Nat) : (ofNat length n).length = length := by
  induction length generalizing n with
  | zero => rfl
  | succ length ih => simp [ofNat, ih]

end Bytes

end RankedKeys
