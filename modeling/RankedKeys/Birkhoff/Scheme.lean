import RankedKeys.Birkhoff.Echelon
import RankedKeys.Birkhoff.Parameter
import RankedKeys.Error
import RankedKeys.Sorting

/-!
# Ranked sharing schemes

A scheme of threshold `t` is a list of positions that determines every polynomial with `t`
coefficients from its derivatives at the positions. The checks say when it does; the constant term
is then a fixed linear combination of the shares, and the whole polynomial is the solution of a
linear system.

## Main definitions

* `ensureThreshold`: the thresholds that a number of parties admits
* `checkValid`: whether positions form a scheme
* `secretCoefficients`, `reconstruct`: the constant term from the shares
* `interpolate`: the polynomial from the shares
* `Singularity`: why positions do not form a scheme
-/

namespace RankedKeys

variable {F : Type}

/-- A threshold is at least two and at most the number of parties. -/
def ensureThreshold (threshold parties : Nat) : Except Error Unit :=
  if threshold < minThreshold then .error (.invalidThreshold threshold)
  else if parties < threshold then .error (.thresholdNotMet threshold parties)
  else .ok ()

/-- Why positions with distinct coordinates do not determine a polynomial. -/
inductive Singularity where
  /-- Too few positions have a rank below this one. -/
  | rankTooHigh (rank position : Nat)
  /-- The rows do not span all columns. -/
  | rankDeficient (rank threshold : Nat)
  /-- No combination of the shares gives the constant term. -/
  | inconsistent

/-- The wording of a singularity. -/
def Singularity.message : Singularity → String
  | rankTooHigh rank position => s!"rank {rank} at sorted position {position}"
  | rankDeficient rank threshold => s!"matrix rank {rank} below threshold {threshold}"
  | inconsistent => "inconsistent system"

/-- A singularity as an error. -/
def Singularity.error (s : Singularity) : Error :=
  .singularScheme s.message

/-- The ranks of some positions, least first. -/
def sortedRanks (params : List (Parameter F)) : List Nat :=
  sortBy Nat.ble (params.map (·.rank.toNat))

/-- The first place in a list where the number is greater than the place. -/
def findExcess : (place : Nat) → List Nat → Option (Nat × Nat)
  | _, [] => none
  | place, rank :: ranks =>
    if place < rank then some (rank, place) else findExcess (place + 1) ranks

/-- There has to be one share for each position. -/
def ensureAligned (shares : List F) (params : List (Parameter F)) : Except Error Unit :=
  if shares.length = params.length then .ok ()
  else .error (.invalidConfig
    s!"{shares.length} shares for {params.length} BK parameters")

section Scheme

variable [Zero F] [One F] [Sub F] [Mul F] [Inv F] [NatCast F] [DecidableEq F]

/-- The rows of all positions. -/
def birkhoffMatrix (threshold : Nat) (params : List (Parameter F)) : List (List F) :=
  params.map (·.row threshold)

/-- Whether positions form a scheme. The first fault in this order is reported: the threshold,
two equal coordinates, the ranks by counting, the matrix. -/
def checkValid (threshold : Nat) (params : List (Parameter F)) : Except Error Unit := do
  ensureThreshold threshold params.length
  if ¬ (params.map (·.x)).Nodup then
    throw .duplicateCoordinate
  -- Too many derivatives of high order leave the low coefficients open, whatever the coordinates.
  if let some (rank, place) := findExcess 0 (sortedRanks params) then
    throw (Singularity.rankTooHigh rank place).error
  let rank := (rowReduce threshold (birkhoffMatrix threshold params)).rank
  if rank ≠ threshold then
    throw (Singularity.rankDeficient rank threshold).error

/-- The equations for the factors of the shares: one for each coefficient of the polynomial, by
which the constant term counts once and the others not at all. -/
def secretEquations (threshold : Nat) (params : List (Parameter F)) : List (List F) :=
  let matrix := birkhoffMatrix threshold params
  (List.range threshold).map fun j =>
    matrix.map (entry · j) ++ [if j = 0 then 1 else 0]

/-- The factors of the shares in the constant term. A position that is not needed has the factor
zero. -/
def secretCoefficients (threshold : Nat) (params : List (Parameter F)) :
    Except Error (List F) := do
  checkValid threshold params
  let n := params.length
  let solved := rowReduce n (secretEquations threshold params)
  if solved.rest.any (entry · n ≠ 0) then
    throw Singularity.inconsistent.error
  pure ((List.range n).map fun i =>
    match solved.pivots.lookup i with
    | some row => entry row n
    -- A free column is that of a position that is not needed.
    | none => 0)

/-- The constant term of the polynomial that has the given shares at the positions. -/
def reconstruct [Add F] (threshold : Nat) (params : List (Parameter F)) (shares : List F) :
    Except Error F := do
  ensureAligned shares params
  let factors ← secretCoefficients threshold params
  pure (dot factors shares)

/-- The polynomial that has the given shares at all positions. -/
def interpolate (threshold : Nat) (params : List (Parameter F)) (shares : List F) :
    Except Error (List F) := do
  ensureAligned shares params
  checkValid threshold params
  let equations := List.zipWith (fun row share => row ++ [share])
    (birkhoffMatrix threshold params) shares
  let solved := rowReduce threshold equations
  if solved.rest.any (entry · threshold ≠ 0) then
    throw (.verificationFailed "shares do not lie on a single polynomial")
  pure (solved.pivots.map fun q => entry q.2 threshold)

end Scheme

end RankedKeys
