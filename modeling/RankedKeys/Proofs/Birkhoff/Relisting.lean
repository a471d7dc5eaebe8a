import Mathlib.LinearAlgebra.Dimension.Constructions
import RankedKeys.Proofs.Birkhoff.Scheme

/-!
# The order of the positions

The elimination takes the rows as they come, so that its pivot rows, and with them the factors of
the shares, depend on the order of the positions. Whether the positions form a scheme, and which
fault is reported if they do not, is a matter of counting: of coordinates, of ranks and of the
dimension of the row space.

## Main results

* `rank_rowReduce`: the number of pivots is the dimension of the row space
* `checkValid_perm`: the checks of a scheme do not depend on the order of the positions
-/

namespace RankedKeys

variable {F : Type} [Field F]

/-! ## The rank -/

theorem rowSpace_congr {rows rows' : List (List F)} (h : ∀ row, row ∈ rows ↔ row ∈ rows') :
    rowSpace rows = rowSpace rows' := by
  simp only [rowSpace, h]

namespace Echelon

variable {w : ℕ} {e : Echelon F}

theorem IsReduced.column_ne (h : e.IsReduced w w) {i j : Fin e.pivots.length} (hne : i ≠ j) :
    e.pivots[i].1 ≠ e.pivots[j].1 := by
  have hlt := List.pairwise_iff_getElem.mp (List.pairwise_map.mp h.ascending)
  rcases Nat.lt_or_gt_of_ne (Fin.val_ne_of_ne hne) with hij | hji
  · exact (hlt i j i.isLt j.isLt hij).ne
  · exact (hlt j i j.isLt i.isLt hji).ne'

/-- The pivot rows are independent: each is the only one that is not zero in its column. -/
theorem IsReduced.linearIndependent (h : e.IsReduced w w) :
    LinearIndependent F fun i : Fin e.pivots.length => entry e.pivots[i].2 := by
  refine Fintype.linearIndependent_iff.mpr fun factor hsum i => ?_
  have hone := h.pivot_one e.pivots[i] (List.getElem_mem i.isLt)
  have hzero : ∀ j ≠ i, entry e.pivots[j].2 e.pivots[i].1 = 0 := fun j hne =>
    h.zero_pivot e.pivots[j] (List.getElem_mem j.isLt) e.pivots[i] (List.getElem_mem i.isLt)
      (h.column_ne hne)
  -- In the column of one pivot row its factor alone is left of the sum.
  calc factor i
      = ∑ j, factor j * entry e.pivots[j].2 e.pivots[i].1 := by
        rw [Finset.sum_eq_single i (fun j _ hne => by rw [hzero j hne, mul_zero])
          (fun hout => absurd (Finset.mem_univ i) hout), hone, mul_one]
    _ = (∑ j, factor j • entry e.pivots[j].2) e.pivots[i].1 := by
        simp only [Finset.sum_apply, Pi.smul_apply, smul_eq_mul]
    _ = 0 := by rw [hsum, Pi.zero_apply]

/-- A row that is left is zero in every column. -/
theorem IsReduced.entry_rest (h : e.IsReduced w w) {row : List F} (hrow : row ∈ e.rest) :
    entry row = 0 := by
  funext j
  rcases Nat.lt_or_ge j w with hj | hj
  · exact h.rest_zero row hrow j hj
  · have hlength := h.width row (mem_rows.mpr (Or.inr hrow))
    simp [entry, List.getD_eq_getElem?_getD, hlength, hj]

theorem IsReduced.rowSpace_eq (h : e.IsReduced w w) :
    rowSpace e.rows =
      Submodule.span F (Set.range fun i : Fin e.pivots.length => entry e.pivots[i].2) := by
  apply le_antisymm
  · refine rowSpace_le_iff.mpr fun row hrow => ?_
    rcases mem_rows.mp hrow with ⟨q, hq, rfl⟩ | hrest
    · obtain ⟨i, hi, rfl⟩ := List.getElem_of_mem hq
      exact Submodule.subset_span ⟨⟨i, hi⟩, rfl⟩
    · rw [h.entry_rest hrest]
      exact Submodule.zero_mem _
  · refine Submodule.span_le.mpr ?_
    rintro _ ⟨i, rfl⟩
    exact entry_mem_rowSpace (mem_rows.mpr (Or.inl ⟨_, List.getElem_mem _, rfl⟩))

/-- When all columns have been worked on, the pivot rows are a basis of the row space. -/
theorem IsReduced.rank_eq (h : e.IsReduced w w) :
    e.rank = Module.finrank F (rowSpace e.rows) := by
  rw [h.rowSpace_eq, finrank_span_eq_card h.linearIndependent, Fintype.card_fin, rank]

end Echelon

variable [DecidableEq F]

/-- **The number of pivots** is the dimension of the row space. -/
theorem rank_rowReduce {n : ℕ} {rows : List (List F)} (hw : ∀ row ∈ rows, row.length = n) :
    (rowReduce n rows).rank = Module.finrank F (rowSpace rows) := by
  rw [(isReduced_rowReduce hw n).rank_eq, rowSpace_rowReduce hw]

/-! ## The checks -/

variable {threshold : ℕ} {params params' : List (Parameter F)}

theorem rank_birkhoffMatrix_perm (h : params'.Perm params) :
    (rowReduce threshold (birkhoffMatrix threshold params')).rank =
      (rowReduce threshold (birkhoffMatrix threshold params)).rank := by
  have hrows : (birkhoffMatrix threshold params').Perm (birkhoffMatrix threshold params) := h.map _
  rw [rank_rowReduce (length_birkhoffMatrix threshold params'),
    rank_rowReduce (length_birkhoffMatrix threshold params),
    rowSpace_congr fun _ => hrows.mem_iff]

omit [Field F] [DecidableEq F] in
theorem pairwise_sortedRanks (params : List (Parameter F)) :
    (sortedRanks params).Pairwise (· ≤ ·) := by
  have hpairwise : (sortedRanks params).Pairwise (Nat.ble · ·) := by
    refine pairwise_sortBy (fun a b c => ?_) (fun a b => ?_) _
    · simpa only [Nat.ble_eq] using Nat.le_trans
    · simpa only [Nat.ble_eq] using Nat.le_total a b
  exact hpairwise.imp Nat.le_of_ble_eq_true

omit [Field F] [DecidableEq F] in
theorem sortedRanks_perm (h : params'.Perm params) : sortedRanks params' = sortedRanks params := by
  have hperm : (sortedRanks params').Perm (sortedRanks params) :=
    (perm_sortBy _).trans ((h.map _).trans (perm_sortBy _).symm)
  exact hperm.eq_of_pairwise (fun _ _ _ _ hab hba => Nat.le_antisymm hab hba)
    (pairwise_sortedRanks params') (pairwise_sortedRanks params)

omit [DecidableEq F] in
theorem determines_perm (h : params'.Perm params) :
    Determines threshold params' ↔ Determines threshold params := by
  simp only [Determines, h.mem_iff]

/-- **The checks of a scheme** do not depend on the order of the positions, nor does the fault. -/
theorem checkValid_perm (h : params'.Perm params) :
    checkValid threshold params' = checkValid threshold params := by
  simp only [checkValid_eq, h.length_eq, (h.map (·.x)).nodup_iff, sortedRanks_perm h,
    rank_birkhoffMatrix_perm h]

end RankedKeys
