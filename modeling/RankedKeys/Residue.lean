/-!
# Residue classes

Arithmetic modulo a number, on least representatives. When the modulus is prime this is a field,
and the inverse is taken by raising to the power that Fermat's theorem names.

## Main definitions

* `Residue m`: the residue classes modulo `m`
* `Residue.ofNat`, `Residue.ofNat?`: the class of a number, and the class that has it as its least
  representative
* `binaryDigits`, `byDoubling`: repeated doubling along the binary digits of a number
-/

namespace RankedKeys

/-- The binary digits of a number, most significant first. -/
def binaryDigits (k : Nat) : List Bool :=
  (List.range (k.log2 + 1)).reverse.map k.testBit

/-- Walks along the binary digits of `k`: doubles at each digit, and adds `a` at each one. In a
monoid this is `k` times `a`. -/
def byDoubling {α : Type} (zero : α) (double : α → α) (add : α → α) (k : Nat) : α :=
  (binaryDigits k).foldl (fun acc one => if one then add (double acc) else double acc) zero

/-- A number that has residue classes: any but zero. -/
class Modulus (m : Nat) : Prop where
  pos : 0 < m

/-- A residue class modulo `m`, by its least representative. -/
structure Residue (m : Nat) where
  val : Nat
  val_lt : val < m
  deriving DecidableEq

namespace Residue

variable {m : Nat}

/-- The class that has a given number as its least representative. -/
def ofNat? (m n : Nat) : Option (Residue m) :=
  if h : n < m then some ⟨n, h⟩ else none

theorem ofNat?_val (a : Residue m) : ofNat? m a.val = some a := by
  simp [ofNat?, a.val_lt]

theorem val_of_ofNat?_eq_some {n : Nat} {a : Residue m} (h : ofNat? m n = some a) : a.val = n := by
  unfold ofNat? at h
  split at h
  · cases h
    rfl
  · cases h

variable [Modulus m]

/-- The class of a number. -/
def ofNat (n : Nat) : Residue m :=
  ⟨n % m, Nat.mod_lt n Modulus.pos⟩

instance : NatCast (Residue m) := ⟨ofNat⟩

instance : Zero (Residue m) := ⟨ofNat 0⟩

instance : One (Residue m) := ⟨ofNat 1⟩

instance : Add (Residue m) := ⟨fun a b => ofNat (a.val + b.val)⟩

instance : Mul (Residue m) := ⟨fun a b => ofNat (a.val * b.val)⟩

instance : Neg (Residue m) := ⟨fun a => ofNat (m - a.val)⟩

instance : Sub (Residue m) := ⟨fun a b => ofNat (a.val + (m - b.val))⟩

instance : Inhabited (Residue m) := ⟨0⟩

/-- A power, by repeated squaring. -/
def pow (a : Residue m) (k : Nat) : Residue m :=
  byDoubling 1 (fun x => x * x) (· * a) k

instance : Pow (Residue m) Nat := ⟨pow⟩

/-- The inverse modulo a prime; zero has the inverse zero. -/
instance : Inv (Residue m) := ⟨fun a => if a = 0 then 0 else a.pow (m - 2)⟩

@[simp]
theorem val_ofNat (n : Nat) : (ofNat n : Residue m).val = n % m := rfl

@[simp]
theorem inv_zero_eq : (0 : Residue m)⁻¹ = 0 := if_pos rfl

theorem inv_of_ne_zero {a : Residue m} (h : a ≠ 0) : a⁻¹ = a ^ (m - 2) := if_neg h

end Residue

end RankedKeys
