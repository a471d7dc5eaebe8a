import RankedKeys.Keygen.Round
import RankedKeys.Proofs.Birkhoff.Scheme
import RankedKeys.Proofs.Curve.Group

/-!
# Combinations of points

Commitments are combined as the coefficients are that they commit to: a combination of sums is the
sum of the combinations, and the factors of a scheme, which take the constant term out of the
shares, take the constant commitment out of the partial keys.

## Main results

* `combine_commitments`: combining commitments commits to the inner product
* `combine_row_commitments`: at a position they commit to the share of the polynomial
* `combine_columnSums`: combining sums of commitments sums the combinations
* `combine_secretCoefficients`: the factors of a scheme in the exponent
-/

namespace RankedKeys

open Finset

variable {c : Curve} [c.Lawful]

theorem combine_eq_sum_zipWith (factors : List c.Scalar) (points : List (Point c)) :
    combine factors points = (List.zipWith (· • ·) factors points).sum :=
  List.sum_eq_foldl.symm

theorem combine_eq_sum {n : ℕ} {factors : List c.Scalar} (h : factors.length ≤ n)
    (points : List (Point c)) :
    combine factors points = ∑ j ∈ range n, entry factors j • points.getD j 0 := by
  rw [combine_eq_sum_zipWith]
  induction factors generalizing points n with
  | nil => simp
  | cons a factors ih =>
    obtain ⟨n, rfl⟩ : ∃ k, n = k + 1 := ⟨n - 1, by simp at h; omega⟩
    rw [sum_range_succ']
    cases points with
    | nil => simp
    | cons p points =>
      simp only [List.zipWith_cons_cons, List.sum_cons, entry_cons_succ, entry_cons_zero,
        List.getD_cons_succ, List.getD_cons_zero, ih (Nat.le_of_succ_le_succ h) points]
      exact add_comm _ _

/-- **Commitments** to coefficients combine to the commitment to the inner product. -/
theorem combine_commitments (factors coefficients : List c.Scalar) :
    combine factors (coefficients.map (· • c.generator)) =
      dot factors coefficients • c.generator := by
  rw [combine_eq_sum le_rfl, dot_eq_sum le_rfl, sum_smul]
  refine sum_congr rfl fun j _ => ?_
  rw [mul_smul, entry, entry, List.getD_eq_getElem?_getD, List.getD_eq_getElem?_getD,
    List.getD_eq_getElem?_getD, List.getElem?_map]
  cases coefficients[j]? with
  | none => simp
  | some a => rfl

/-- **Commitments at a position** combine to the commitment to the share of the polynomial. -/
theorem combine_row_commitments (p : Parameter c.Scalar) (coefficients : List c.Scalar) :
    combine (p.row coefficients.length) (coefficients.map (· • c.generator)) =
      p.shareOf (polynomialOf coefficients) • c.generator := by
  rw [combine_commitments, ← p.evaluate_eq_shareOf, Parameter.evaluate]

/-- The neutral element stands for the commitment that the messages of a refresh leave out. -/
theorem Dealer.replicate_omitted_append (d : Dealer c) {coefficients : List c.Scalar}
    (constant : d.isRefresh = true → coefficients.head? = some 0) :
    List.replicate d.omitted 0 ++ (coefficients.map (· • c.generator)).drop d.omitted =
      coefficients.map (· • c.generator) := by
  unfold Dealer.omitted
  split
  · rename_i refresh
    obtain ⟨rest, rfl⟩ := List.head?_eq_some_iff.mp (constant refresh)
    simp
  · rfl

theorem combine_map_add {α : Type} (factors : List c.Scalar) (f g : α → Point c) (list : List α) :
    combine factors (list.map fun a => f a + g a) =
      combine factors (list.map f) + combine factors (list.map g) := by
  simp only [combine_eq_sum_zipWith, List.zipWith_map_right, smul_add]
  induction factors generalizing list with
  | nil => simp
  | cons a factors ih =>
    cases list with
    | nil => simp
    | cons b list =>
      simp only [List.zipWith_cons_cons, List.sum_cons, ih]
      exact add_add_add_comm _ _ _ _

/-- The shares that a party is dealt come on top of its own one. -/
theorem Round.shareSum_eq (d : Dealer c) (received : Roster c.Scalar) :
    shareSum d received = d.position.evaluate d.polynomial + received.values.sum := by
  calc shareSum d received
      = received.values.foldl (· + ·) (d.position.evaluate d.polynomial + 0) := by
        rw [add_zero]
        rfl
    _ = d.position.evaluate d.polynomial + received.values.sum := by
        rw [List.foldl_assoc, List.sum_eq_foldl]

section ColumnSums

variable {n : ℕ} {lists : List (List (Point c))}

/-- The column sums of lists, the first of which is kept apart. -/
theorem columnSums_aux (h : ∀ list ∈ lists, list.length = n) {first : List (Point c)}
    (hfirst : first.length = n) :
    (lists.foldl (List.zipWith (· + ·)) first).length = n ∧
      ∀ j, (lists.foldl (List.zipWith (· + ·)) first).getD j 0 =
        first.getD j 0 + (lists.map (·.getD j 0)).sum := by
  induction lists generalizing first with
  | nil => exact ⟨hfirst, fun j => (add_zero _).symm⟩
  | cons list lists ih =>
    obtain ⟨hlist, hrest⟩ := List.forall_mem_cons.mp h
    have hlength : (List.zipWith (· + ·) first list).length = n := by
      simp [hfirst, hlist]
    obtain ⟨hn, hsum⟩ := ih hrest hlength
    refine ⟨hn, fun j => ?_⟩
    -- The lists are of one length, so that no entry is cut off.
    have hgetD : (List.zipWith (· + ·) first list).getD j 0 = first.getD j 0 + list.getD j 0 := by
      rcases Nat.lt_or_ge j n with hj | hj
      · simp [List.getD_eq_getElem?_getD, hfirst, hlist, hj]
      · simp [List.getD_eq_getElem?_getD, hfirst, hlist, hj]
    rw [List.foldl_cons, hsum, hgetD, List.map_cons, List.sum_cons, add_assoc]

theorem length_columnSums (h : ∀ list ∈ lists, list.length = n) :
    (columnSums n lists).length = n :=
  (columnSums_aux h (by simp)).1

theorem getD_columnSums (h : ∀ list ∈ lists, list.length = n) (j : ℕ) :
    (columnSums n lists).getD j 0 = (lists.map (·.getD j 0)).sum := by
  have hzero : (List.replicate n (0 : Point c)).getD j 0 = 0 := by
    rcases Nat.lt_or_ge j n with hj | hj <;> simp [List.getD_eq_getElem?_getD, hj]
  rw [columnSums, (columnSums_aux h (by simp)).2, hzero, zero_add]

/-- **Column sums** combine to the sum of the combinations. -/
theorem combine_columnSums (h : ∀ list ∈ lists, list.length = n) {factors : List c.Scalar}
    (hfactors : factors.length = n) :
    combine factors (columnSums n lists) = (lists.map (combine factors)).sum := by
  rw [combine_eq_sum hfactors.le, sum_congr rfl fun j _ => by rw [getD_columnSums h j]]
  clear h
  induction lists with
  | nil => simp
  | cons list lists ih =>
    simp only [List.map_cons, List.sum_cons, smul_add, sum_add_distrib, ih]
    rw [combine_eq_sum hfactors.le]

end ColumnSums

/-- **The factors of a scheme** take the first of some points out of their combinations with the
rows of the positions. -/
theorem combine_secretCoefficients {threshold : ℕ} {params : List (Parameter c.Scalar)}
    {factors : List c.Scalar} (h : secretCoefficients threshold params = .ok factors)
    {points : List (Point c)} (hpoints : points.length = threshold) (hpos : 0 < threshold) :
    combine factors (params.map fun p => combine (p.row threshold) points) = points.headD 0 := by
  have hlength := length_secretCoefficients h
  rw [combine_eq_sum hlength.le]
  -- Exchange the sums over positions and coefficients: the factors single out the constant term.
  calc ∑ i ∈ range params.length, entry factors i •
        (params.map fun p => combine (p.row threshold) points).getD i 0
      = ∑ i ∈ range params.length, ∑ j ∈ range threshold,
          (entry factors i * entry (params.map fun p => entry (p.row threshold) j) i) •
            points.getD j 0 := by
        refine sum_congr rfl fun i hi => ?_
        have hi := mem_range.mp hi
        have hentry : (params.map fun p => combine (p.row threshold) points).getD i 0 =
            combine (params[i].row threshold) points := by
          simp [List.getD_eq_getElem?_getD, hi]
        rw [hentry, combine_eq_sum (params[i].length_row threshold).le, smul_sum]
        refine sum_congr rfl fun j _ => ?_
        rw [entry_map _ hi, mul_smul]
    _ = ∑ j ∈ range threshold, (if j = 0 then 1 else 0 : c.Scalar) • points.getD j 0 := by
        rw [sum_comm]
        refine sum_congr rfl fun j hj => ?_
        rw [← sum_smul, sum_secretCoefficients h (mem_range.mp hj)]
    _ = points.headD 0 := by
        obtain ⟨t, rfl⟩ : ∃ t, threshold = t + 1 := ⟨threshold - 1, by omega⟩
        cases points with
        | nil => simp at hpoints
        | cons point points =>
          rw [sum_range_succ', sum_eq_zero fun j _ => by simp]
          simp

end RankedKeys
