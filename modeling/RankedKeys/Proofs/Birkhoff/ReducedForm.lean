import Mathlib.LinearAlgebra.Finsupp.LinearCombination
import RankedKeys.Proofs.Birkhoff.Elimination
import RankedKeys.Proofs.Curve.Secp256k1

/-!
# The reduced form of a matrix

What row reduction makes of a matrix, told of the rows by their places. The pivot rows come first,
in the order of their columns; each is the only row that is not zero in its column. A free column
is the combination of the pivot columns before it that its entries in the pivot rows name, and the
rows of the matrix that was given have the same solutions, so it is a combination there as well. A
pivot column is none, since no column before it reaches into its row.

## Main definitions

* `columnOf rows j`: a column of a matrix
* `RowReduced w columns rows pivots reduced`: a matrix and its pivot columns are a reduced form of
  the first columns of another matrix

## Main results

* `Echelon.IsReduced.mem_columns_iff`: a column is a pivot column unless it is a combination of the
  columns before it
* `rowReduced_rowReduce`: row reduction finds a reduced form of every matrix
-/

namespace RankedKeys

open Finset

variable {F : Type} [Field F]

/-! ## Columns -/

/-- A column of a matrix that is given by its rows. -/
def columnOf (rows : List (List F)) (j : ℕ) : Fin rows.length → F :=
  fun i => entry rows[i] j

/-- A combination of the columns before a column, row by row. -/
theorem columnOf_mem_span_iff {rows : List (List F)} {j : ℕ} :
    columnOf rows j ∈ Submodule.span F (columnOf rows '' Set.Iio j) ↔
      ∃ v : ℕ → F, ∀ row ∈ rows, valueAt j v row = entry row j := by
  rw [← coe_range, Submodule.mem_span_image_finset_iff_exists_fun']
  refine exists_congr fun v => ?_
  have hsum : ∀ i, (∑ k ∈ range j, v k • columnOf rows k) i = valueAt j v rows[i] := by
    intro i
    simp only [Finset.sum_apply, Pi.smul_apply, smul_eq_mul, columnOf, valueAt, mul_comm]
  rw [funext_iff, List.forall_mem_iff_getElem, Fin.forall_iff]
  exact forall₂_congr fun i hi => by rw [hsum]; rfl

/-! ## Rows by their places -/

namespace Echelon

variable {w n : ℕ} {e : Echelon F}

omit [Field F] in
theorem getElem?_columns_eq_some_iff {k j : ℕ} :
    e.columns[k]? = some j ↔ ∃ row, e.pivots[k]? = some (j, row) := by
  simp [columns, Prod.exists]

omit [Field F] in
theorem length_columns (e : Echelon F) : e.columns.length = e.pivots.length :=
  List.length_map _

omit [Field F] in
/-- The pivot rows come first. -/
theorem getElem?_rows_of_pivot {k : ℕ} {q : ℕ × List F} (h : e.pivots[k]? = some q) :
    e.rows[k]? = some q.2 := by
  obtain ⟨hk, rfl⟩ := List.getElem?_eq_some_iff.mp h
  rw [rows, List.getElem?_append_left (by rwa [List.length_map]), List.getElem?_map, h]
  rfl

omit [Field F] in
theorem pivot_or_mem_rest_of_getElem?_rows {i : ℕ} {row : List F} (h : e.rows[i]? = some row) :
    (∃ q, e.pivots[i]? = some q ∧ q.2 = row) ∨ e.pivots.length ≤ i ∧ row ∈ e.rest := by
  rcases Nat.lt_or_ge i e.pivots.length with hi | hi
  · refine .inl ⟨e.pivots[i], List.getElem?_eq_getElem hi, ?_⟩
    rw [getElem?_rows_of_pivot (List.getElem?_eq_getElem hi)] at h
    exact Option.some.inj h
  · rw [rows, List.getElem?_append_right (by rwa [List.length_map])] at h
    exact .inr ⟨hi, List.mem_of_getElem? h⟩

/-- A pivot column has one row that is not zero there. -/
theorem IsReduced.entry_eq_zero_of_ne (h : e.IsReduced w n) {k i : ℕ} {q : ℕ × List F}
    {row : List F} (hq : e.pivots[k]? = some q) (hrow : e.rows[i]? = some row) (hne : i ≠ k) :
    entry row q.1 = 0 := by
  have hmem := List.mem_of_getElem? hq
  rcases pivot_or_mem_rest_of_getElem?_rows hrow with ⟨q', hq', rfl⟩ | ⟨-, hrest⟩
  · refine h.zero_pivot q' (List.mem_of_getElem? hq') q hmem fun heq => hne ?_
    -- No column is the column of two pivot rows.
    have hcolumn := getElem?_columns_eq_some_iff.mpr ⟨q.2, hq⟩
    have hcolumn' := getElem?_columns_eq_some_iff.mpr ⟨q'.2, hq'⟩
    have hlt := (List.getElem?_eq_some_iff.mp hcolumn').1
    exact (List.getElem?_inj hlt h.nodup_columns).mp (hcolumn'.trans (heq ▸ hcolumn.symm))
  · exact h.rest_zero row hrest q.1 (h.column_lt q hmem)

/-! ## Free columns -/

/-- The direction of a column is zero at the columns after it. -/
theorem IsReduced.direction_eq_zero (h : e.IsReduced w n) {j i : ℕ} (hi : j < i) :
    e.direction j i = 0 := by
  rw [direction, if_neg hi.ne']
  split
  case h_1 row hrow =>
    rw [h.zero_left _ (h.lookup_eq_some_iff.mp hrow) j hi, neg_zero]
  case h_2 => rfl

/-- A free column is a combination of the columns before it. -/
theorem IsReduced.valueAt_neg_direction (h : e.IsReduced w n) {j : ℕ} (hj : j < n)
    (hfree : j ∉ e.columns) {row : List F} (hrow : row ∈ e.rows) :
    valueAt j (fun i => -e.direction j i) row = entry row j := by
  have hzero := h.valueAt_direction hj hfree hrow
  have hsplit : valueAt n (e.direction j) row =
      valueAt j (e.direction j) row + entry row j * e.direction j j := by
    rw [valueAt, ← sum_subset (range_subset_range.mpr (Nat.succ_le_of_lt hj)), sum_range_succ,
      valueAt]
    intro i _ hi
    rw [h.direction_eq_zero (by simpa [Nat.lt_succ_iff] using hi), mul_zero]
  have hself : e.direction j j = 1 := if_pos rfl
  rw [hsplit, hself, mul_one] at hzero
  have hneg : valueAt j (fun i => -e.direction j i) row = -valueAt j (e.direction j) row := by
    simp only [valueAt, mul_neg, sum_neg_distrib]
  rw [hneg]
  exact neg_eq_of_add_eq_zero_right hzero

/-- **A column is a pivot column** unless it is a combination of the columns before it. -/
theorem IsReduced.mem_columns_iff (h : e.IsReduced w n) {j : ℕ} (hj : j < n) :
    j ∈ e.columns ↔ ¬ ∃ v : ℕ → F, ∀ row ∈ e.rows, valueAt j v row = entry row j := by
  constructor
  · rintro hmem ⟨v, hv⟩
    obtain ⟨q, hq, rfl⟩ := List.mem_map.mp hmem
    -- The pivot row is zero before its column, and one there.
    have hvalue := hv q.2 (mem_rows.mpr (.inl ⟨q, hq, rfl⟩))
    rw [h.pivot_one q hq, valueAt, sum_eq_zero] at hvalue
    · exact zero_ne_one hvalue
    · exact fun i hi => by rw [h.zero_left q hq i (mem_range.mp hi), zero_mul]
  · intro hnone
    by_contra hfree
    exact hnone ⟨_, fun row hrow => h.valueAt_neg_direction hj hfree hrow⟩

end Echelon

/-! ## Row reduction -/

/-- The first columns of a matrix, with rows of width `w`, have been brought into reduced form. -/
structure RowReduced (w columns : ℕ) (rows : List (List F)) (pivots : List ℕ)
    (reduced : List (List F)) : Prop where
  /-- The shape of the matrix stays. -/
  length : reduced.length = rows.length
  width : ∀ row ∈ reduced, row.length = w
  /-- The rows span the same space, over their whole width. -/
  space : rowSpace reduced = rowSpace rows
  /-- The same linear equations hold. -/
  equations : ∀ v : ℕ → F,
    (∀ row ∈ reduced, valueAt w v row = 0) ↔ ∀ row ∈ rows, valueAt w v row = 0
  ascending : pivots.Pairwise (· < ·)
  pivot_lt : ∀ j ∈ pivots, j < columns
  /-- The row of a pivot is one in its column and zero before it. -/
  pivot_row : ∀ k j : ℕ, pivots[k]? = some j →
    ∃ row, reduced[k]? = some row ∧ entry row j = 1 ∧ ∀ i < j, entry row i = 0
  /-- All other rows are zero in the column of a pivot. -/
  cleared : ∀ k j : ℕ, pivots[k]? = some j →
    ∀ (i : ℕ) (row : List F), reduced[i]? = some row → i ≠ k → entry row j = 0
  /-- The rows after the pivot rows are zero in the first columns. -/
  rest : ∀ (i : ℕ) (row : List F), reduced[i]? = some row → pivots.length ≤ i →
    ∀ j < columns, entry row j = 0
  /-- The other columns are combinations of the columns before them. -/
  mem_pivots_iff : ∀ j < columns,
    j ∈ pivots ↔ columnOf rows j ∉ Submodule.span F (columnOf rows '' Set.Iio j)

section RowReduce

variable [DecidableEq F] {w : ℕ} {rows : List (List F)}

/-- The pivot columns are those of the matrix that was given. -/
theorem mem_columns_rowReduce_iff (hw : ∀ row ∈ rows, row.length = w) {columns j : ℕ}
    (hj : j < columns) :
    j ∈ (rowReduce columns rows).columns ↔
      columnOf rows j ∉ Submodule.span F (columnOf rows '' Set.Iio j) := by
  have hspace := fun v => by
    simpa using forall_valueAt_iff (rowSpace_rowReduce hw columns) j v 1
  rw [(isReduced_rowReduce hw columns).mem_columns_iff hj, columnOf_mem_span_iff]
  simp only [hspace]

/-- **Row reduction is Gauss-Jordan elimination**: whatever the matrix and however many of its
columns are asked for, the rows it ends with are a reduced form of these columns, and the columns
it names are the pivot columns. -/
theorem rowReduced_rowReduce (hw : ∀ row ∈ rows, row.length = w) (columns : ℕ) :
    RowReduced w columns rows (rowReduce columns rows).columns (rowReduce columns rows).rows := by
  have hred := isReduced_rowReduce hw columns
  have hspace := rowSpace_rowReduce hw columns
  refine
    { length := length_rows_rowReduce rows columns
      width := hred.width
      space := hspace
      equations := fun v => ?equations
      ascending := hred.ascending
      pivot_lt := fun j hj => hred.lt_of_mem_columns hj
      pivot_row := fun k j hk => ?pivot_row
      cleared := fun k j hk i row hrow hne => ?cleared
      rest := fun i row hrow hi => ?rest
      mem_pivots_iff := fun j hj => mem_columns_rowReduce_iff hw hj }
  case equations =>
    have hzero := forall_valueAt_iff hspace w v 0
    simpa only [zero_mul] using hzero
  case pivot_row =>
    obtain ⟨row, hq⟩ := Echelon.getElem?_columns_eq_some_iff.mp hk
    have hmem := List.mem_of_getElem? hq
    exact ⟨row, Echelon.getElem?_rows_of_pivot hq, hred.pivot_one _ hmem, hred.zero_left _ hmem⟩
  case cleared =>
    obtain ⟨pivot, hq⟩ := Echelon.getElem?_columns_eq_some_iff.mp hk
    exact hred.entry_eq_zero_of_ne hq hrow hne
  case rest =>
    rw [Echelon.length_columns] at hi
    rcases Echelon.pivot_or_mem_rest_of_getElem?_rows hrow with ⟨q, hq, -⟩ | ⟨-, hrest⟩
    · exact absurd (List.getElem?_eq_some_iff.mp hq).1 hi.not_gt
    · exact hred.rest_zero row hrest

end RowReduce

/-- Two rows that change places: the first column is zero, the third is twice the second, and no row
is left for the last. -/
theorem rowReduced_rowReduce_secp256k1 :
    let rows : List (List Curve.secp256k1.Scalar) := [[0, 0, 0, 3, 6], [0, 2, 4, 6, 8]]
    (∀ row ∈ rows, row.length = 5) ∧
      RowReduced 5 5 rows [1, 3] [[0, 1, 2, 0, -2], [0, 0, 0, 1, 2]] := by
  intro rows
  have hw : ∀ row ∈ rows, row.length = 5 := by decide
  have hcolumns : (rowReduce 5 rows).columns = [1, 3] := by decide +kernel
  have hrows : (rowReduce 5 rows).rows = [[0, 1, 2, 0, -2], [0, 0, 0, 1, 2]] := by decide +kernel
  have hreduced := rowReduced_rowReduce hw 5
  rw [hcolumns, hrows] at hreduced
  exact ⟨hw, hreduced⟩

end RankedKeys
