import RankedKeys.Curve.Basic

/-!
# Random scalars

Random numbers come in blocks. A scalar takes the next block that is below the group order; blocks
that are not are thrown away. When the blocks have run out, the numbers 1, 2, 3, … follow.

## Main definitions

* `Entropy`: the blocks that are left
* `Entropy.scalar`, `Entropy.nonzero`, `Entropy.scalars`: draws
-/

namespace RankedKeys

/-- The blocks that are left, and the number that follows them. -/
structure Entropy where
  blocks : List Nat
  next : Nat
  deriving DecidableEq

namespace Entropy

variable {c : Curve}

/-- Some blocks, to be followed by 1, 2, 3, …. -/
def ofBlocks (blocks : List Nat) : Entropy := ⟨blocks, 1⟩

/-- Draws a scalar that satisfies a condition. -/
def drawFrom (c : Curve) (good : c.Scalar → Bool) (next : Nat) : List Nat → c.Scalar × Entropy
  | [] => ((next : c.Scalar), ⟨[], next + 1⟩)
  | block :: blocks =>
    match Residue.ofNat? c.order block with
    | some s => if good s then (s, ⟨blocks, next⟩) else drawFrom c good next blocks
    | none => drawFrom c good next blocks

/-- Draws a scalar. -/
def scalar (c : Curve) (e : Entropy) : c.Scalar × Entropy :=
  drawFrom c (fun _ => true) e.next e.blocks

/-- Draws a scalar that is not zero. -/
def nonzero (c : Curve) (e : Entropy) : c.Scalar × Entropy :=
  drawFrom c (fun s => s ≠ 0) e.next e.blocks

/-- Draws some scalars, in order. -/
def scalars (c : Curve) : Nat → Entropy → List c.Scalar
  | 0, _ => []
  | n + 1, e =>
    let (s, e) := e.scalar c
    s :: scalars c n e

end Entropy

end RankedKeys
