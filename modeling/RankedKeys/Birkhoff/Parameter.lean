import RankedKeys.Basic

/-!
# Ranked positions

A party at the position `(x, r)` holds the value at `x` of the `r`-th derivative of the shared
polynomial. A polynomial is the list of its coefficients, constant term first, so that value is
the inner product of the coefficients with a row that depends on the position alone.

## Main definitions

* `Parameter`: a coordinate and a rank
* `Parameter.row`: the row of a position, `j! / (j - r)! · x ^ (j - r)` in column `j`
* `Parameter.evaluate`: the derivative of a polynomial at a position
* `dot`: inner products
-/

namespace RankedKeys

variable {F : Type}

/-- The position of a party: where the polynomial is evaluated, and after how many
differentiations. -/
structure Parameter (F : Type) where
  x : F
  rank : UInt32
  deriving DecidableEq

/-- The inner product of two lists, over the length of the shorter. -/
def dot [Zero F] [Add F] [Mul F] (xs ys : List F) : F :=
  (List.zipWith (· * ·) xs ys).foldl (· + ·) 0

/-- The powers `a, a·x, a·x², …`, as many as asked for. -/
def geometric [Mul F] (a x : F) : Nat → List F
  | 0 => []
  | n + 1 => a :: geometric (a * x) x n

/-- The product `n · (n - 1) ⋯` of `k` factors. -/
def fallingFactorial [One F] [Mul F] [NatCast F] (n : Nat) : Nat → F
  | 0 => 1
  | k + 1 => fallingFactorial n k * ((n - k : Nat) : F)

namespace Parameter

/-- The factors with which the first `width` coefficients enter the derivative. The columns below
the rank are zero. -/
def row [Zero F] [One F] [Mul F] [NatCast F] (p : Parameter F) (width : Nat) : List F :=
  let rank := p.rank.toNat
  let columns := width - rank
  List.replicate (min rank width) 0 ++
    List.zipWith (fun k power => fallingFactorial (rank + k) rank * power)
      (List.range columns) (geometric 1 p.x columns)

/-- The value at the position of the derivative of a polynomial. -/
def evaluate [Zero F] [One F] [Add F] [Mul F] [NatCast F] (p : Parameter F)
    (coefficients : List F) : F :=
  dot (p.row coefficients.length) coefficients

end Parameter

end RankedKeys
