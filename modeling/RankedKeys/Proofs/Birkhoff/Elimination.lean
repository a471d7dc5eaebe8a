import Mathlib.Algebra.Field.Basic
import Mathlib.Algebra.BigOperators.Ring.Finset
import Mathlib.LinearAlgebra.Pi
import Mathlib.LinearAlgebra.Span.Basic
import Mathlib.Tactic.LinearCombination
import RankedKeys.Birkhoff.Echelon
import RankedKeys.Proofs.Lists

/-!
# Row reduction is Gauss-Jordan elimination

A row is read as a vector with infinitely many entries, all zero past its length. One column of the
elimination keeps the space that the rows span, and brings one more column into reduced form;
both facts are carried along the columns by induction.

## Main definitions

* `rowSpace rows`: the span of some rows
* `Echelon.IsReduced w k e`: what the elimination has reached after the first `k` columns
* `Echelon.direction e j`: the combination of the columns that a free column `j` gives
* `Echelon.solution e n`: the solution of the augmented system that is read off column `n`

## Main results

* `rowSpace_rowReduce`: the elimination keeps the row space
* `isReduced_rowReduce`: the first columns end in reduced form
* `rank_rowReduce_eq_iff`: all columns are pivot columns exactly when they are independent
* `rest_rowReduce_eq_zero_iff`, `eq_solution_rowReduce`: when the augmented system has a solution,
  and when it is the only one
-/

namespace RankedKeys

open Finset

variable {F : Type} [Field F]

/-! ## The entries of a row under the row operations -/

theorem entry_clear {column : ℕ} {pivot row : List F} (h : row.length = pivot.length) :
    entry (clear column pivot row) = entry row - entry row column • entry pivot := by
  funext j
  simp only [entry, clear, List.getD_eq_getElem?_getD, List.getElem?_zipWith, Pi.sub_apply,
    Pi.smul_apply, smul_eq_mul]
  by_cases hj : j < row.length
  · have hj' : j < pivot.length := h ▸ hj
    simp [hj, hj']
  · have hj' : ¬ j < pivot.length := h ▸ hj
    simp [hj, hj']

theorem entry_scale (row : List F) (a : F) : entry (row.map (· * a)) = a • entry row := by
  funext j
  simp only [entry, List.getD_eq_getElem?_getD, List.getElem?_map, Pi.smul_apply, smul_eq_mul]
  cases row[j]? with
  | none => simp
  | some v => simp [mul_comm]

@[simp] theorem length_clear (column : ℕ) (pivot row : List F) :
    (clear column pivot row).length = min row.length pivot.length := by
  simp [clear]

/-! ## The row space -/

/-- The span of some rows. -/
def rowSpace (rows : List (List F)) : Submodule F (ℕ → F) :=
  Submodule.span F (entry '' {row | row ∈ rows})

theorem entry_mem_rowSpace {rows : List (List F)} {row : List F} (h : row ∈ rows) :
    entry row ∈ rowSpace rows :=
  Submodule.subset_span ⟨row, h, rfl⟩

theorem rowSpace_le_iff {rows : List (List F)} {S : Submodule F (ℕ → F)} :
    rowSpace rows ≤ S ↔ ∀ row ∈ rows, entry row ∈ S := by
  simp [rowSpace, Submodule.span_le, Set.subset_def]

/-- A linear form that vanishes on some rows vanishes on all rows of the same space. -/
theorem forall_eq_zero_of_rowSpace_eq {rows rows' : List (List F)}
    (h : rowSpace rows = rowSpace rows') (φ : (ℕ → F) →ₗ[F] F) :
    (∀ row ∈ rows, φ (entry row) = 0) ↔ ∀ row ∈ rows', φ (entry row) = 0 := by
  -- Vanishing on the rows is having their span in the kernel.
  have key : ∀ rows, rowSpace rows ≤ LinearMap.ker φ ↔ ∀ row ∈ rows, φ (entry row) = 0 :=
    fun _ => rowSpace_le_iff
  rw [← key, ← key, h]

/-! ## One column -/

section Pivot

variable [DecidableEq F]

theorem exchange_eq_none {column : ℕ} {first : List F} {rows : List (List F)} :
    exchange column first rows = none ↔ ∀ row ∈ rows, entry row column = 0 := by
  induction rows with
  | nil => simp [exchange]
  | cons row rows ih =>
    by_cases h : entry row column = 0
    · simp [exchange, h, ih]
    · simp [exchange, h]

theorem exchange_eq_some {column : ℕ} {first pivot : List F} {rows others : List (List F)}
    (h : exchange column first rows = some (pivot, others)) :
    entry pivot column ≠ 0 ∧ (first :: rows).Perm (pivot :: others) := by
  induction rows generalizing others with
  | nil => simp [exchange] at h
  | cons row rows ih =>
    by_cases hrow : entry row column = 0
    · simp only [exchange, hrow, if_true, Option.map_eq_some_iff] at h
      -- The pivot row comes later, and this row stays where it is.
      obtain ⟨⟨found, left⟩, hfound, heq⟩ := h
      cases heq
      obtain ⟨hne, hperm⟩ := ih hfound
      refine ⟨hne, (List.Perm.swap row first rows).trans ?_⟩
      exact (hperm.cons row).trans (.swap found row left)
    · simp only [exchange, hrow, if_false, Option.some.injEq, Prod.mk.injEq] at h
      obtain ⟨rfl, rfl⟩ := h
      exact ⟨hrow, .swap row first rows⟩

theorem takePivot_eq_none {column : ℕ} {rows : List (List F)} :
    takePivot column rows = none ↔ ∀ row ∈ rows, entry row column = 0 := by
  cases rows with
  | nil => simp [takePivot]
  | cons row rows =>
    by_cases h : entry row column = 0
    · simp [takePivot, h, exchange_eq_none]
    · simp [takePivot, h]

theorem takePivot_eq_some {column : ℕ} {rows others : List (List F)} {pivot : List F}
    (h : takePivot column rows = some (pivot, others)) :
    entry pivot column ≠ 0 ∧ rows.Perm (pivot :: others) := by
  cases rows with
  | nil => simp [takePivot] at h
  | cons row rows =>
    by_cases hrow : entry row column = 0
    · rw [takePivot, if_pos hrow] at h
      exact exchange_eq_some h
    · simp only [takePivot, hrow, if_false, Option.some.injEq, Prod.mk.injEq] at h
      obtain ⟨rfl, rfl⟩ := h
      exact ⟨hrow, .refl _⟩

end Pivot

namespace Echelon

/-- What the elimination has reached after the first `k` columns, on rows of width `w`. -/
structure IsReduced (w k : ℕ) (e : Echelon F) : Prop where
  width : ∀ row ∈ e.rows, row.length = w
  column_lt : ∀ q ∈ e.pivots, q.1 < k
  ascending : e.columns.Pairwise (· < ·)
  pivot_one : ∀ q ∈ e.pivots, entry q.2 q.1 = 1
  zero_left : ∀ q ∈ e.pivots, ∀ j < q.1, entry q.2 j = 0
  zero_pivot : ∀ q ∈ e.pivots, ∀ q' ∈ e.pivots, q.1 ≠ q'.1 → entry q.2 q'.1 = 0
  rest_zero : ∀ row ∈ e.rest, ∀ j < k, entry row j = 0

omit [Field F] in
theorem mem_rows {e : Echelon F} {row : List F} :
    row ∈ e.rows ↔ (∃ q ∈ e.pivots, q.2 = row) ∨ row ∈ e.rest := by
  simp [rows]

/-- A pivot row has been adjoined, and its column cleared in all other rows. -/
def adjoin (e : Echelon F) (column : ℕ) (pivot : List F) (others : List (List F)) : Echelon F where
  pivots := e.pivots.map (fun q => (q.1, clear column pivot q.2)) ++ [(column, pivot)]
  rest := others.map (clear column pivot)

theorem mem_pivots_adjoin {e : Echelon F} {column : ℕ} {pivot : List F} {others : List (List F)}
    {q : ℕ × List F} :
    q ∈ (e.adjoin column pivot others).pivots ↔
      (∃ a ∈ e.pivots, (a.1, clear column pivot a.2) = q) ∨ q = (column, pivot) := by
  simp [adjoin]

theorem mem_rest_adjoin {e : Echelon F} {column : ℕ} {pivot : List F} {others : List (List F)}
    {row : List F} :
    row ∈ (e.adjoin column pivot others).rest ↔ ∃ a ∈ others, clear column pivot a = row := by
  simp [adjoin]

section Adjoin

variable {w column : ℕ} {e : Echelon F} {found pivot : List F} {others : List (List F)} {a : F}
  (hw : ∀ row ∈ e.rows, row.length = w) (hperm : e.rest.Perm (found :: others))
  (hpivot : found.map (· * a) = pivot)

include hperm in
omit [Field F] in
theorem mem_rows_of_perm : found ∈ e.rows :=
  mem_rows.mpr (Or.inr (hperm.mem_iff.mpr List.mem_cons_self))

include hpivot in
theorem entry_pivot_eq_smul : entry pivot = a • entry found := by
  rw [← hpivot, entry_scale]

include hw hperm hpivot

theorem entry_clear_of_mem {row : List F} (hrow : row ∈ e.rows) :
    entry (clear column pivot row) = entry row - entry row column • entry pivot := by
  apply entry_clear
  rw [hw row hrow, ← hpivot, List.length_map, hw found (mem_rows_of_perm hperm)]

/-- Every new row is an old one less a multiple of the pivot row. -/
theorem rowSpace_adjoin_le : rowSpace (e.adjoin column pivot others).rows ≤ rowSpace e.rows := by
  have hp : entry pivot ∈ rowSpace e.rows := by
    rw [entry_pivot_eq_smul hpivot]
    exact Submodule.smul_mem _ _ (entry_mem_rowSpace (mem_rows_of_perm hperm))
  have hmem : ∀ row ∈ e.rows, entry (clear column pivot row) ∈ rowSpace e.rows := by
    intro row hrow
    rw [entry_clear_of_mem hw hperm hpivot hrow]
    exact Submodule.sub_mem _ (entry_mem_rowSpace hrow) (Submodule.smul_mem _ _ hp)
  refine rowSpace_le_iff.mpr ?_
  intro row hrow
  rcases mem_rows.mp hrow with ⟨q, hq, rfl⟩ | hrest
  · rcases mem_pivots_adjoin.mp hq with ⟨b, hb, rfl⟩ | rfl
    · exact hmem b.2 (mem_rows.mpr (Or.inl ⟨b, hb, rfl⟩))
    · exact hp
  · obtain ⟨b, hb, rfl⟩ := mem_rest_adjoin.mp hrest
    exact hmem b (mem_rows.mpr (Or.inr (hperm.mem_iff.mpr (List.mem_cons_of_mem _ hb))))

/-- Every old row is a new one and a multiple of the pivot row, which is among the new ones. -/
theorem le_rowSpace_adjoin (ha : a ≠ 0) :
    rowSpace e.rows ≤ rowSpace (e.adjoin column pivot others).rows := by
  set after := (e.adjoin column pivot others).rows with hafter
  have hp : entry pivot ∈ rowSpace after :=
    entry_mem_rowSpace (mem_rows.mpr (Or.inl
      ⟨(column, pivot), mem_pivots_adjoin.mpr (Or.inr rfl), rfl⟩))
  have hback : ∀ row ∈ e.rows, clear column pivot row ∈ after → entry row ∈ rowSpace after := by
    intro row hrow hin
    have hsum : entry row = entry (clear column pivot row) + entry row column • entry pivot := by
      rw [entry_clear_of_mem hw hperm hpivot hrow, sub_add_cancel]
    rw [hsum]
    exact Submodule.add_mem _ (entry_mem_rowSpace hin) (Submodule.smul_mem _ _ hp)
  refine rowSpace_le_iff.mpr ?_
  intro row hrow
  rcases mem_rows.mp hrow with ⟨q, hq, rfl⟩ | hrest
  · exact hback q.2 hrow (mem_rows.mpr (Or.inl
      ⟨_, mem_pivots_adjoin.mpr (Or.inl ⟨q, hq, rfl⟩), rfl⟩))
  · rcases List.mem_cons.mp (hperm.mem_iff.mp hrest) with rfl | hrow'
    -- The row that was taken is itself a multiple of the pivot row.
    · have hmultiple : entry row = a⁻¹ • entry pivot := by
        rw [entry_pivot_eq_smul hpivot, smul_smul, inv_mul_cancel₀ ha, one_smul]
      rw [hmultiple]
      exact Submodule.smul_mem _ _ hp
    · exact hback row hrow (mem_rows.mpr (Or.inr (mem_rest_adjoin.mpr ⟨row, hrow', rfl⟩)))

/-- Adjoining a multiple of one of the rows that are left keeps the row space. -/
theorem rowSpace_adjoin (ha : a ≠ 0) :
    rowSpace (e.adjoin column pivot others).rows = rowSpace e.rows :=
  le_antisymm (rowSpace_adjoin_le hw hperm hpivot) (le_rowSpace_adjoin hw hperm hpivot ha)

end Adjoin

/-- Adjoining a row that is one at the next column and zero before it reaches one column more. -/
theorem IsReduced.adjoin {w k : ℕ} {e : Echelon F} {pivot : List F} {others : List (List F)}
    (h : e.IsReduced w k) (hothers : ∀ row ∈ others, row ∈ e.rest) (hlength : pivot.length = w)
    (hone : entry pivot k = 1) (hleft : ∀ j < k, entry pivot j = 0) :
    (e.adjoin k pivot others).IsReduced w (k + 1) := by
  -- In rows of one width, clearing subtracts entry by entry.
  have hpivots : ∀ q ∈ e.pivots, q.2.length = w := fun q hq =>
    h.width q.2 (mem_rows.mpr (Or.inl ⟨q, hq, rfl⟩))
  have hrest : ∀ row ∈ others, row.length = w := fun row hrow =>
    h.width row (mem_rows.mpr (Or.inr (hothers row hrow)))
  have hclear : ∀ row : List F, row.length = w → ∀ j,
      entry (clear k pivot row) j = entry row j - entry row k * entry pivot j :=
    fun row hrow j => congrFun (entry_clear (hrow.trans hlength.symm)) j
  constructor
  case width =>
    intro row hrow
    rcases mem_rows.mp hrow with ⟨q, hq, rfl⟩ | hrow
    · rcases mem_pivots_adjoin.mp hq with ⟨a, ha, rfl⟩ | rfl
      · simp [hpivots a ha, hlength]
      · exact hlength
    · obtain ⟨a, ha, rfl⟩ := mem_rest_adjoin.mp hrow
      simp [hrest a ha, hlength]
  case column_lt =>
    intro q hq
    rcases mem_pivots_adjoin.mp hq with ⟨a, ha, rfl⟩ | rfl
    · exact (h.column_lt a ha).trans (Nat.lt_succ_self k)
    · exact Nat.lt_succ_self k
  case ascending =>
    -- The new column comes last, and all others are smaller.
    have hcolumns : (e.adjoin k pivot others).columns = e.columns ++ [k] := by
      simp [columns, Echelon.adjoin, Function.comp_def]
    rw [hcolumns]
    refine List.pairwise_append.mpr ⟨h.ascending, by simp, fun a ha b hb => ?_⟩
    obtain ⟨q, hq, rfl⟩ := List.mem_map.mp ha
    cases List.mem_singleton.mp hb
    exact h.column_lt q hq
  case pivot_one =>
    intro q hq
    rcases mem_pivots_adjoin.mp hq with ⟨a, ha, rfl⟩ | rfl
    · rw [hclear a.2 (hpivots a ha), h.pivot_one a ha, hleft a.1 (h.column_lt a ha)]
      simp
    · exact hone
  case zero_left =>
    intro q hq j hj
    rcases mem_pivots_adjoin.mp hq with ⟨a, ha, rfl⟩ | rfl
    · rw [hclear a.2 (hpivots a ha), h.zero_left a ha j hj,
        hleft j (hj.trans (h.column_lt a ha))]
      simp
    · exact hleft j hj
  case zero_pivot =>
    intro q hq q' hq' hdiffer
    rcases mem_pivots_adjoin.mp hq with ⟨a, ha, rfl⟩ | rfl <;>
      rcases mem_pivots_adjoin.mp hq' with ⟨b, hb, rfl⟩ | rfl
    · rw [hclear a.2 (hpivots a ha), h.zero_pivot a ha b hb hdiffer,
        hleft b.1 (h.column_lt b hb)]
      simp
    · rw [hclear a.2 (hpivots a ha), hone]
      simp
    · exact hleft b.1 (h.column_lt b hb)
    · exact absurd rfl hdiffer
  case rest_zero =>
    intro row hrow j hj
    obtain ⟨a, ha, rfl⟩ := mem_rest_adjoin.mp hrow
    rw [hclear a (hrest a ha)]
    rcases Nat.lt_succ_iff_lt_or_eq.mp hj with hj | rfl
    · rw [hleft j hj, h.rest_zero a (hothers a ha) j hj]
      simp
    · rw [hone]
      simp

variable [DecidableEq F]

theorem sweep_of_none {e : Echelon F} {column : ℕ} (h : takePivot column e.rest = none) :
    e.sweep column = e := by
  simp [sweep, h]

theorem sweep_of_some {e : Echelon F} {column : ℕ} {found : List F} {others : List (List F)}
    (h : takePivot column e.rest = some (found, others)) :
    e.sweep column =
      e.adjoin column (found.map (· * (entry found column)⁻¹)) others := by
  simp [sweep, adjoin, h]

theorem rowSpace_sweep {w : ℕ} {e : Echelon F} (column : ℕ) (hw : ∀ row ∈ e.rows, row.length = w) :
    rowSpace (e.sweep column).rows = rowSpace e.rows := by
  cases h : takePivot column e.rest with
  | none => rw [sweep_of_none h]
  | some taken =>
    obtain ⟨hne, hperm⟩ := takePivot_eq_some h
    rw [sweep_of_some h]
    exact rowSpace_adjoin hw hperm rfl (inv_ne_zero hne)

/-- **One column** of the elimination reaches one column more. -/
theorem IsReduced.sweep {w k : ℕ} {e : Echelon F} (h : e.IsReduced w k) :
    (e.sweep k).IsReduced w (k + 1) := by
  cases hp : takePivot k e.rest with
  | none =>
    -- Nothing changes: the column is zero in all rows that are left.
    have hzero := takePivot_eq_none.mp hp
    rw [sweep_of_none hp]
    refine { h with column_lt := fun q hq => (h.column_lt q hq).trans (Nat.lt_succ_self k),
                    rest_zero := fun row hrow j hj => ?_ }
    rcases Nat.lt_succ_iff_lt_or_eq.mp hj with hj | rfl
    · exact h.rest_zero row hrow j hj
    · exact hzero row hrow
  | some taken =>
    obtain ⟨found, others⟩ := taken
    obtain ⟨hne, hperm⟩ := takePivot_eq_some hp
    -- The row that was found is divided by its entry, and is zero before it.
    have hfound : found ∈ e.rest := hperm.mem_iff.mpr (by simp)
    have hscale : ∀ j, entry (found.map (· * (entry found k)⁻¹)) j =
        (entry found k)⁻¹ * entry found j := fun j => congrFun (entry_scale _ _) j
    rw [sweep_of_some hp]
    refine h.adjoin (fun row hrow => hperm.mem_iff.mpr (List.mem_cons_of_mem _ hrow)) ?_ ?_ ?_
    · rw [List.length_map]
      exact h.width found (mem_rows.mpr (Or.inr hfound))
    · rw [hscale, inv_mul_cancel₀ hne]
    · intro j hj
      rw [hscale, h.rest_zero found hfound j hj, mul_zero]

theorem length_rows_sweep (e : Echelon F) (column : ℕ) :
    (e.sweep column).rows.length = e.rows.length := by
  cases h : takePivot column e.rest with
  | none => rw [sweep_of_none h]
  | some taken =>
    have hlength := (takePivot_eq_some h).2.length_eq
    rw [List.length_cons] at hlength
    simp only [sweep_of_some h, adjoin, rows, List.length_append, List.length_map,
      List.length_cons, List.length_nil, hlength]
    omega

end Echelon

/-! ## The whole elimination -/

section RowReduce

variable [DecidableEq F]

theorem rowReduce_succ (n : ℕ) (rows : List (List F)) :
    rowReduce (n + 1) rows = (rowReduce n rows).sweep n := by
  simp [rowReduce, List.range_succ]

/-- **The first columns end in reduced form.** -/
theorem isReduced_rowReduce {w : ℕ} {rows : List (List F)} (hw : ∀ row ∈ rows, row.length = w)
    (n : ℕ) : (rowReduce n rows).IsReduced w n := by
  induction n with
  | zero => constructor <;> simp_all [rowReduce, Echelon.rows, Echelon.columns]
  | succ n ih =>
    rw [rowReduce_succ]
    exact ih.sweep

/-- **The elimination keeps the row space.** -/
theorem rowSpace_rowReduce {w : ℕ} {rows : List (List F)} (hw : ∀ row ∈ rows, row.length = w)
    (n : ℕ) : rowSpace (rowReduce n rows).rows = rowSpace rows := by
  induction n with
  | zero => simp [rowReduce, Echelon.rows]
  | succ n ih => rw [rowReduce_succ, Echelon.rowSpace_sweep n (isReduced_rowReduce hw n).width, ih]

theorem length_rows_rowReduce (rows : List (List F)) (n : ℕ) :
    (rowReduce n rows).rows.length = rows.length := by
  induction n with
  | zero => simp [rowReduce, Echelon.rows]
  | succ n ih => rw [rowReduce_succ, Echelon.length_rows_sweep, ih]

/-- No row is left when there are as many pivot rows as rows. -/
theorem rest_rowReduce_eq_nil {rows : List (List F)} {n : ℕ}
    (h : (rowReduce n rows).rank = rows.length) : (rowReduce n rows).rest = [] := by
  have hlength := length_rows_rowReduce rows n
  rw [Echelon.rows, List.length_append, List.length_map, ← Echelon.rank, h] at hlength
  exact List.length_eq_zero_iff.mp (by omega)

/-- The elimination is over when no row is left. -/
theorem rowReduce_of_rest_eq_nil {rows : List (List F)} {k n : ℕ} (hk : k ≤ n)
    (hrest : (rowReduce k rows).rest = []) : rowReduce n rows = rowReduce k rows := by
  induction n, hk using Nat.le_induction with
  | base => rfl
  | succ n _ ih =>
    rw [rowReduce_succ, ih]
    exact Echelon.sweep_of_none (by rw [hrest]; rfl)

end RowReduce

/-! ## Reading off solutions -/

/-- The value of the first `n` entries of a row at the unknowns `v`. -/
def valueAt (n : ℕ) (v : ℕ → F) (row : List F) : F :=
  ∑ j ∈ range n, entry row j * v j

/-- The value at some unknowns less a multiple of the next entry, as a linear form. -/
def residual (n : ℕ) (v : ℕ → F) (a : F) : (ℕ → F) →ₗ[F] F where
  toFun x := ∑ j ∈ range n, x j * v j - a * x n
  map_add' x y := by
    simp only [Pi.add_apply, add_mul, mul_add, sum_add_distrib]
    exact add_sub_add_comm _ _ _ _
  map_smul' b x := by
    simp only [Pi.smul_apply, smul_eq_mul, RingHom.id_apply, mul_sub, mul_sum]
    rw [mul_left_comm]
    exact congrArg (· - _) (sum_congr rfl fun j _ => mul_assoc _ _ _)

theorem residual_entry (n : ℕ) (v : ℕ → F) (a : F) (row : List F) :
    residual n v a (entry row) = valueAt n v row - a * entry row n := rfl

/-- Rows of one space have the same solutions, whether their next entry counts or not. -/
theorem forall_valueAt_iff {rows rows' : List (List F)} (h : rowSpace rows = rowSpace rows')
    (n : ℕ) (v : ℕ → F) (a : F) :
    (∀ row ∈ rows, valueAt n v row = a * entry row n) ↔
      ∀ row ∈ rows', valueAt n v row = a * entry row n := by
  have key := forall_eq_zero_of_rowSpace_eq h (residual n v a)
  simpa only [residual_entry, sub_eq_zero] using key

namespace Echelon

variable {w n : ℕ} {e : Echelon F}

theorem IsReduced.nodup_columns (h : e.IsReduced w n) : e.columns.Nodup :=
  h.ascending.imp fun hlt => hlt.ne

theorem IsReduced.lt_of_mem_columns (h : e.IsReduced w n) {j : ℕ} (hj : j ∈ e.columns) : j < n := by
  obtain ⟨q, hq, rfl⟩ := List.mem_map.mp hj
  exact h.column_lt q hq

theorem IsReduced.lookup_eq_some_iff (h : e.IsReduced w n) {j : ℕ} {row : List F} :
    e.pivots.lookup j = some row ↔ (j, row) ∈ e.pivots :=
  lookup_eq_some_iff_mem h.nodup_columns

/-- The unknowns that are one at a free column `j`, and at each pivot column what its row asks
for. -/
def direction (e : Echelon F) (j i : ℕ) : F :=
  if i = j then 1
  else
    match e.pivots.lookup i with
    | some row => -entry row j
    | none => 0

/-- The unknowns that are zero at the free columns, and at each pivot column the entry of its row
in column `n`. -/
def solution (e : Echelon F) (n i : ℕ) : F :=
  match e.pivots.lookup i with
  | some row => entry row n
  | none => 0

/-- The solution is zero at the columns that have not been worked on. -/
theorem IsReduced.solution_eq_zero (h : e.IsReduced w n) {i : ℕ} (hi : n ≤ i) (k : ℕ) :
    e.solution k i = 0 := by
  have hnone : e.pivots.lookup i = none := by
    refine List.lookup_eq_none_iff.mpr fun q hq => ?_
    have hlt : q.1 < i := (h.column_lt q hq).trans_le hi
    simpa using hlt.ne'
  rw [solution, hnone]

/-- The entries of a pivot row at the unknowns that depend on the pivot rows alone. -/
theorem IsReduced.entry_mul_lookup (h : e.IsReduced w n) {q : ℕ × List F} (hq : q ∈ e.pivots)
    (f : List F → F) (i : ℕ) :
    entry q.2 i * (match e.pivots.lookup i with | some row => f row | none => 0) =
      if i = q.1 then f q.2 else 0 := by
  by_cases hi : i = q.1
  · subst hi
    rw [h.lookup_eq_some_iff.mpr hq, h.pivot_one q hq]
    simp
  · rw [if_neg hi]
    split
    · rename_i row hrow
      rw [h.zero_pivot q hq (i, row) (h.lookup_eq_some_iff.mp hrow) (Ne.symm hi), zero_mul]
    · exact mul_zero _

/-- A row that is left says nothing about the unknowns. -/
theorem IsReduced.valueAt_rest (h : e.IsReduced w n) {row : List F} (hrow : row ∈ e.rest)
    (v : ℕ → F) : valueAt n v row = 0 := by
  apply sum_eq_zero
  intro i hi
  rw [h.rest_zero row hrow i (mem_range.mp hi), zero_mul]

/-- The direction of a free column solves the equations of all rows. -/
theorem IsReduced.valueAt_direction (h : e.IsReduced w n) {j : ℕ} (hj : j < n)
    (hfree : j ∉ e.columns) {row : List F} (hrow : row ∈ e.rows) :
    valueAt n (e.direction j) row = 0 := by
  rcases mem_rows.mp hrow with ⟨q, hq, rfl⟩ | hrest
  · -- Two terms are left, that of the free column and that of the pivot column.
    have hterm : ∀ i, entry q.2 i * e.direction j i =
        (if i = j then entry q.2 j else 0) + if i = q.1 then -entry q.2 j else 0 := by
      intro i
      have hne : q.1 ≠ j := fun heq => hfree (heq ▸ List.mem_map_of_mem hq)
      by_cases hij : i = j
      · subst hij
        simp [direction, Ne.symm hne]
      · simp only [direction, if_neg hij, zero_add]
        exact h.entry_mul_lookup hq (fun row => -entry row j) i
    simp only [valueAt, hterm, sum_add_distrib, sum_ite_eq', mem_range, hj, h.column_lt q hq,
      if_true, add_neg_cancel]
  · exact h.valueAt_rest hrest _

/-- The solution of the augmented system, if the rows that are left agree with it. -/
theorem IsReduced.valueAt_solution (h : e.IsReduced w n) (hrest : ∀ row ∈ e.rest, entry row n = 0)
    {row : List F} (hrow : row ∈ e.rows) : valueAt n (e.solution n) row = entry row n := by
  rcases mem_rows.mp hrow with ⟨q, hq, rfl⟩ | hmem
  · -- One term is left, that of the pivot column.
    have hterm : ∀ i, entry q.2 i * e.solution n i = if i = q.1 then entry q.2 n else 0 :=
      h.entry_mul_lookup hq (entry · n)
    simp only [valueAt, hterm, sum_ite_eq', mem_range, h.column_lt q hq, if_true]
  · rw [hrest row hmem, h.valueAt_rest hmem]

/-- A row that is left tells whether the augmented system has a solution at all. -/
theorem IsReduced.rest_eq_zero_of_solves (h : e.IsReduced w n) {v : ℕ → F}
    (hv : ∀ row ∈ e.rows, valueAt n v row = entry row n) {row : List F} (hrow : row ∈ e.rest) :
    entry row n = 0 := by
  rw [← hv row (mem_rows.mpr (Or.inr hrow)), h.valueAt_rest hrow]

/-- As many pivot rows as columns leave no column free. -/
theorem IsReduced.columns_eq_range (h : e.IsReduced w n) (hrank : e.rank = n) :
    e.columns = List.range n := by
  have hlength : e.columns.length = n := by rw [columns, List.length_map, ← rank, hrank]
  -- As many distinct columns as there are, and both lists ascend.
  have hperm : e.columns.Perm (List.range n) :=
    (List.subperm_of_subset h.nodup_columns fun j hj =>
      List.mem_range.mpr (h.lt_of_mem_columns hj)).perm_of_length_le
        (by rw [List.length_range, hlength])
  exact hperm.eq_of_pairwise (fun a b _ _ hab hba => absurd hab hba.asymm) h.ascending
    List.pairwise_lt_range

/-- If no column is free then a pivot row singles out the unknown of its column. -/
theorem IsReduced.valueAt_pivot (h : e.IsReduced w n) (hrank : e.rank = n) (v : ℕ → F)
    {q : ℕ × List F} (hq : q ∈ e.pivots) : valueAt n v q.2 = v q.1 := by
  rw [valueAt, sum_eq_single q.1]
  · rw [h.pivot_one q hq, one_mul]
  · intro i hi hne
    have hi : i ∈ e.columns := by
      rw [h.columns_eq_range hrank]
      exact List.mem_range.mpr (mem_range.mp hi)
    obtain ⟨q', hq', rfl⟩ := List.mem_map.mp hi
    rw [h.zero_pivot q hq q' hq' (Ne.symm hne), zero_mul]
  · exact fun hout => absurd (mem_range.mpr (h.column_lt q hq)) hout

theorem IsReduced.exists_pivot (h : e.IsReduced w n) (hrank : e.rank = n) {j : ℕ} (hj : j < n) :
    ∃ row, (j, row) ∈ e.pivots := by
  have hmem : j ∈ e.columns := by
    rw [h.columns_eq_range hrank]
    exact List.mem_range.mpr hj
  obtain ⟨q, hq, rfl⟩ := List.mem_map.mp hmem
  exact ⟨q.2, hq⟩

/-- If no column is free then the solution is the only one. -/
theorem IsReduced.eq_solution_of_solves (h : e.IsReduced w n) (hrank : e.rank = n) {v : ℕ → F}
    (hv : ∀ row ∈ e.rows, valueAt n v row = entry row n) {j : ℕ} (hj : j < n) :
    v j = e.solution n j := by
  obtain ⟨row, hrow⟩ := h.exists_pivot hrank hj
  have hvalue := hv row (mem_rows.mpr (Or.inl ⟨(j, row), hrow, rfl⟩))
  rw [h.valueAt_pivot hrank v hrow] at hvalue
  rw [hvalue, solution, h.lookup_eq_some_iff.mpr hrow]

theorem IsReduced.map_entry_pivots (h : e.IsReduced w n) (hrank : e.rank = n) :
    e.pivots.map (fun q => entry q.2 n) = (List.range n).map (e.solution n) := by
  rw [← h.columns_eq_range hrank, columns, List.map_map]
  refine List.map_congr_left fun q hq => ?_
  rw [Function.comp_apply, solution, h.lookup_eq_some_iff.mpr hq]

end Echelon

section RowReduce

variable [DecidableEq F] {w : ℕ} {rows : List (List F)}

/-- **The number of pivots** is the number of columns exactly when the columns are independent. -/
theorem rank_rowReduce_eq_iff (hw : ∀ row ∈ rows, row.length = w) (n : ℕ) :
    (rowReduce n rows).rank = n ↔
      ∀ v : ℕ → F, (∀ row ∈ rows, valueAt n v row = 0) → ∀ j < n, v j = 0 := by
  have hred := isReduced_rowReduce hw n
  have hspace := fun v => by
    simpa using forall_valueAt_iff (rowSpace_rowReduce hw n) n v 0
  constructor
  · intro hrank v hv j hj
    -- Every unknown has a pivot row, which singles it out.
    obtain ⟨row, hrow⟩ := hred.exists_pivot hrank hj
    rw [← hred.valueAt_pivot hrank v hrow]
    exact (hspace v).mpr hv row (Echelon.mem_rows.mpr (Or.inl ⟨(j, row), hrow, rfl⟩))
  · intro hindep
    -- A free column would make the columns dependent.
    have hcolumns : ∀ j < n, j ∈ (rowReduce n rows).columns := by
      intro j hj
      by_contra hfree
      have hsolves := (hspace _).mp fun row hrow => hred.valueAt_direction hj hfree hrow
      have hzero := hindep _ hsolves j hj
      simp [Echelon.direction] at hzero
    have hle : n ≤ (rowReduce n rows).rank := by
      have hsub : (List.range n).Subperm (rowReduce n rows).columns :=
        List.subperm_of_subset List.nodup_range fun j hj => hcolumns j (List.mem_range.mp hj)
      simpa [Echelon.rank, Echelon.columns] using hsub.length_le
    have hge : (rowReduce n rows).rank ≤ n := by
      have hsub : (rowReduce n rows).columns.Subperm (List.range n) :=
        List.subperm_of_subset hred.nodup_columns fun j hj =>
          List.mem_range.mpr (hred.lt_of_mem_columns hj)
      simpa [Echelon.rank, Echelon.columns] using hsub.length_le
    exact le_antisymm hge hle

/-- **The augmented system**: the rows that are left agree with it exactly when it has a solution,
and the one that is read off is a solution then. -/
theorem rest_rowReduce_eq_zero_iff (hw : ∀ row ∈ rows, row.length = w) (n : ℕ) :
    (∀ row ∈ (rowReduce n rows).rest, entry row n = 0) ↔
      ∃ v : ℕ → F, ∀ row ∈ rows, valueAt n v row = entry row n := by
  have hred := isReduced_rowReduce hw n
  have hspace := fun v => by
    simpa using forall_valueAt_iff (rowSpace_rowReduce hw n) n v 1
  constructor
  · exact fun hrest => ⟨_, (hspace _).mp fun row hrow => hred.valueAt_solution hrest hrow⟩
  · rintro ⟨v, hv⟩ row hrow
    exact hred.rest_eq_zero_of_solves ((hspace v).mpr hv) hrow

theorem valueAt_solution_rowReduce (hw : ∀ row ∈ rows, row.length = w) {n : ℕ}
    (hrest : ∀ row ∈ (rowReduce n rows).rest, entry row n = 0) {row : List F} (hrow : row ∈ rows) :
    valueAt n ((rowReduce n rows).solution n) row = entry row n := by
  have hspace := forall_valueAt_iff (rowSpace_rowReduce hw n) n ((rowReduce n rows).solution n) 1
  simp only [one_mul] at hspace
  exact hspace.mp (fun row hrow => (isReduced_rowReduce hw n).valueAt_solution hrest hrow) row hrow

theorem eq_solution_rowReduce (hw : ∀ row ∈ rows, row.length = w) {n : ℕ}
    (hrank : (rowReduce n rows).rank = n) {v : ℕ → F}
    (hv : ∀ row ∈ rows, valueAt n v row = entry row n) {j : ℕ} (hj : j < n) :
    v j = (rowReduce n rows).solution n j := by
  have hspace := forall_valueAt_iff (rowSpace_rowReduce hw n) n v 1
  simp only [one_mul] at hspace
  exact (isReduced_rowReduce hw n).eq_solution_of_solves hrank (hspace.mpr hv) hj

end RowReduce

end RankedKeys
