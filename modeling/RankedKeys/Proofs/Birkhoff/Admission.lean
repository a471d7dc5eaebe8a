import Mathlib.LinearAlgebra.Matrix.Rank
import RankedKeys.Proofs.Birkhoff.Relisting
import RankedKeys.Proofs.Curve.Secp256k1

/-!
# Which positions form a scheme

The checks of a scheme count ranks before they reduce a matrix. In sorted order no rank may exceed
its place, whatever the coordinates are. Where a rank can be the threshold or more, the counting
refuses positions whose matrix has full rank; where every rank is below the threshold, it only
anticipates the matrix. The positions of rank `k` or more deal zero for a polynomial of degree less
than `k`, so that those of smaller ranks determine its `k` coefficients, and cannot be fewer.

## Main definitions

* `InPlace ranks`: in sorted order no rank exceeds its place
* `shareMatrix threshold params`: the shares of the powers at some positions

## Main results

* `rank_shareMatrix_eq_iff`: the matrix has full column rank exactly when the positions determine
  the polynomial
* `Determines.le_countP`: how many positions of small rank there have to be
* `checkValid_exact`: the checks of a scheme ask for no more and no less
-/

namespace RankedKeys

open Finset Polynomial

/-! ## Ranks in their places -/

/-- Whether no rank exceeds its place once the ranks are sorted. -/
def InPlace (ranks : List ℕ) : Prop :=
  ∀ place rank : ℕ, ranks.mergeSort[place]? = some rank → rank ≤ place

theorem findExcess_eq_none_iff {place : ℕ} {ranks : List ℕ} :
    findExcess place ranks = none ↔ ∀ i rank, ranks[i]? = some rank → rank ≤ place + i := by
  induction ranks generalizing place with
  | nil => simp [findExcess]
  | cons first ranks ih =>
    rw [findExcess]
    by_cases hfirst : place < first
    · rw [if_pos hfirst]
      refine ⟨fun h => (nomatch h), fun h => ?_⟩
      have := h 0 first rfl
      omega
    · rw [if_neg hfirst, ih]
      constructor
      · rintro h (_ | i) rank hrank
        · cases hrank
          exact Nat.le_of_not_lt hfirst
        · have := h i rank hrank
          omega
      · intro h i rank hrank
        have := h (i + 1) rank hrank
        omega

theorem pairwise_mergeSort_le (ranks : List ℕ) : ranks.mergeSort.Pairwise (· ≤ ·) := by
  have hpairwise : ranks.mergeSort.Pairwise fun a b => decide (a ≤ b) = true := by
    refine List.pairwise_mergeSort (fun a b c => ?_) (fun a b => ?_) ranks
    · simpa using Nat.le_trans
    · simpa using Nat.le_total a b
  exact hpairwise.imp of_decide_eq_true

/-- Ranks are in their places if enough of them are small: before a rank that exceeds its place
there would be too few. -/
theorem inPlace_of_le_countP {ranks : List ℕ} {bound : ℕ} (hlt : ∀ rank ∈ ranks, rank < bound)
    (hcount : ∀ k ≤ bound, k ≤ ranks.countP (· < k)) : InPlace ranks := by
  intro place rank hrank
  by_contra hexceeds
  have hperm : ranks.mergeSort.Perm ranks := List.mergeSort_perm _ _
  have hpairwise := pairwise_mergeSort_le ranks
  generalize ranks.mergeSort = sorted at hrank hperm hpairwise
  obtain ⟨hplace, rfl⟩ := List.getElem?_eq_some_iff.mp hrank
  have hbound : sorted[place] < bound := hlt _ (hperm.mem_iff.mp (List.getElem_mem hplace))
  -- From the place on, no rank is small.
  have hlater : ∀ later ∈ sorted.drop place, sorted[place] ≤ later := by
    have hdrop := hpairwise.sublist (List.drop_sublist place sorted)
    rw [List.drop_eq_getElem_cons hplace] at hdrop ⊢
    exact List.forall_mem_cons.mpr ⟨le_rfl, (List.pairwise_cons.mp hdrop).1⟩
  have hnone : (sorted.drop place).countP (· < place + 1) = 0 := by
    refine List.countP_eq_zero.mpr fun later hmem => ?_
    have := hlater later hmem
    simp only [decide_eq_true_eq]
    omega
  have hfew : ranks.countP (· < place + 1) ≤ place := by
    calc ranks.countP (· < place + 1)
        = (sorted.take place ++ sorted.drop place).countP (· < place + 1) := by
          rw [List.take_append_drop, hperm.countP_eq]
      _ = (sorted.take place).countP (· < place + 1) := by rw [List.countP_append, hnone, add_zero]
      _ ≤ (sorted.take place).length := List.countP_le_length
      _ ≤ place := List.length_take_le place sorted
  have := hcount (place + 1) (by omega)
  omega

variable {F : Type} {threshold : ℕ} {params : List (Parameter F)}

theorem sortedRanks_eq_mergeSort (params : List (Parameter F)) :
    sortedRanks params = (params.map (·.rank.toNat)).mergeSort := by
  have hperm : (sortedRanks params).Perm (params.map (·.rank.toNat)).mergeSort :=
    (perm_sortBy _).trans (List.mergeSort_perm _ _).symm
  exact hperm.eq_of_pairwise (fun _ _ _ _ hab hba => Nat.le_antisymm hab hba)
    (pairwise_sortedRanks params) (pairwise_mergeSort_le _)

theorem findExcess_sortedRanks_eq_none_iff :
    findExcess 0 (sortedRanks params) = none ↔ InPlace (params.map (·.rank.toNat)) := by
  rw [findExcess_eq_none_iff, sortedRanks_eq_mergeSort, InPlace]
  simp only [zero_add]

variable [Field F]

/-! ## Positions of small rank -/

/-- **Positions of small rank** determine the coefficients that the others do not see. -/
theorem Determines.filter_rank_lt (h : Determines threshold params) {k : ℕ} (hk : k ≤ threshold) :
    Determines k (params.filter (·.rank.toNat < k)) := by
  intro f hf hzero
  refine h f (hf.trans_le (by exact_mod_cast hk)) fun p hp => ?_
  by_cases hrank : p.rank.toNat < k
  · exact hzero p (List.mem_filter.mpr ⟨hp, decide_eq_true hrank⟩)
  · exact Parameter.shareOf_eq_zero (hf.trans_le (by exact_mod_cast Nat.le_of_not_lt hrank))

section Counting

variable [DecidableEq F]

/-- A polynomial with more coefficients than shares is not determined by them. -/
theorem Determines.le_length (h : Determines threshold params) : threshold ≤ params.length := by
  have hrank := rank_birkhoffMatrix_eq_iff.mpr h
  have hrows := length_rows_rowReduce (birkhoffMatrix threshold params) threshold
  rw [Echelon.rows, List.length_append, List.length_map, ← Echelon.rank, hrank, birkhoffMatrix,
    List.length_map] at hrows
  omega

/-- **As many positions of rank below `k`** as there are coefficients of a polynomial of degree
less than `k`. -/
theorem Determines.le_countP (h : Determines threshold params) {k : ℕ} (hk : k ≤ threshold) :
    k ≤ (params.map (·.rank.toNat)).countP (· < k) := by
  rw [List.countP_map, List.countP_eq_length_filter]
  exact (h.filter_rank_lt hk).le_length

end Counting

/-! ## The matrix of the positions -/

/-- The matrix of some positions: in each row the shares of the powers below the threshold. -/
noncomputable def shareMatrix (threshold : ℕ) (params : List (Parameter F)) :
    Matrix (Fin params.length) (Fin threshold) F :=
  .of fun i j => params[i].shareOf (X ^ (j : ℕ))

/-- Its rows are those of the positions. -/
theorem shareMatrix_mulVec (v : ℕ → F) : (shareMatrix threshold params).mulVec (fun j => v j) =
    fun i => valueAt threshold v (params[i].row threshold) := by
  funext i
  calc ∑ j : Fin threshold, params[i].shareOf (X ^ (j : ℕ)) * v j
      = ∑ j : Fin threshold, entry (params[i].row threshold) j * v j :=
        sum_congr rfl fun j _ => by rw [params[i].shareOf_X_pow threshold j.isLt]
    _ = valueAt threshold v (params[i].row threshold) :=
        Fin.sum_univ_eq_sum_range (fun j => entry (params[i].row threshold) j * v j) threshold

/-- **Full column rank** is that the shares determine the polynomial. -/
theorem rank_shareMatrix_eq_iff :
    (shareMatrix threshold params).rank = threshold ↔ Determines threshold params := by
  have hrank : (shareMatrix threshold params).rank = threshold ↔
      Function.Injective (shareMatrix threshold params).mulVec := by
    rw [Matrix.mulVec_injective_iff, linearIndependent_iff_card_eq_finrank_span, Fintype.card_fin,
      Matrix.rank_eq_finrank_span_cols, eq_comm]
    rfl
  have hkernel := injective_iff_map_eq_zero (shareMatrix threshold params).mulVecLin
  rw [hrank, ← Matrix.coe_mulVecLin, hkernel, determines_iff]
  simp only [Matrix.mulVecLin_apply]
  constructor
  · intro h v hv j hj
    have hzero := h (fun j => v j) (by
      rw [shareMatrix_mulVec]
      exact funext fun i => hv _ (List.getElem_mem i.isLt))
    exact congrFun hzero ⟨j, hj⟩
  · intro h v hv
    -- The system has unknowns beyond the threshold that no row looks at.
    obtain ⟨w, rfl⟩ : ∃ w : ℕ → F, (fun j : Fin threshold => w j) = v :=
      ⟨fun j => if hj : j < threshold then v ⟨j, hj⟩ else 0, by simp⟩
    rw [shareMatrix_mulVec] at hv
    refine funext fun j => h w (fun p hp => ?_) j j.isLt
    obtain ⟨i, hi, rfl⟩ := List.getElem_of_mem hp
    exact congrFun hv ⟨i, hi⟩

/-! ## The checks -/

/-- **The checks of a scheme are exact**: positions pass them exactly if the threshold fits, no two
coordinates are equal, no rank exceeds its place in sorted order, and no polynomial but zero has
only zero shares, that is, the matrix has full column rank. If every rank is below the threshold
the order of the ranks does not matter: distinct coordinates, enough of them, pass exactly if the
matrix has full column rank. -/
theorem checkValid_exact [DecidableEq F] (threshold : ℕ) (params : List (Parameter F)) :
    (checkValid threshold params = .ok () ↔
      2 ≤ threshold ∧ threshold ≤ params.length ∧ (params.map (·.x)).Nodup ∧
        InPlace (params.map (·.rank.toNat)) ∧
        ∀ f : F[X], f.degree < threshold →
          (∀ p ∈ params, (derivative^[p.rank.toNat] f).eval p.x = 0) → f = 0) ∧
    ((∀ f : F[X], f.degree < threshold →
        (∀ p ∈ params, (derivative^[p.rank.toNat] f).eval p.x = 0) → f = 0) ↔
      (shareMatrix threshold params).rank = threshold) ∧
    (2 ≤ threshold → threshold ≤ params.length → (params.map (·.x)).Nodup →
      (∀ p ∈ params, p.rank.toNat < threshold) →
        (checkValid threshold params = .ok () ↔
          (shareMatrix threshold params).rank = threshold)) := by
  have hvalid : checkValid threshold params = .ok () ↔ _ := checkValid_eq_ok_iff
  rw [findExcess_sortedRanks_eq_none_iff] at hvalid
  refine ⟨hvalid, rank_shareMatrix_eq_iff.symm, fun two_le le distinct hlt => ?_⟩
  rw [hvalid, rank_shareMatrix_eq_iff]
  refine ⟨fun h => h.2.2.2.2, fun h => ⟨two_le, le, distinct, ?_, h⟩⟩
  -- The ranks are in their places because the positions determine the polynomial.
  refine inPlace_of_le_countP (fun rank hrank => ?_) fun k (hk : k ≤ threshold) => h.le_countP hk
  obtain ⟨p, hp, rfl⟩ := List.mem_map.mp hrank
  exact hlt p hp

/-- Two plain shares and one of the derivative, for a threshold of three: they determine the
polynomial unless the derivative is taken half-way between the plain coordinates. -/
theorem checkValid_exact_secp256k1 :
    let between : List (Parameter Curve.secp256k1.Scalar) := [⟨2, 0⟩, ⟨4, 1⟩, ⟨6, 0⟩]
    let beside : List (Parameter Curve.secp256k1.Scalar) := [⟨1, 0⟩, ⟨4, 1⟩, ⟨6, 0⟩]
    (shareMatrix 3 beside).rank = 3 ∧ (shareMatrix 3 between).rank ≠ 3 := by
  intro between beside
  have hbeside : checkValid 3 beside = .ok () := by decide +kernel
  have hbetween : checkValid 3 between ≠ .ok () := by decide +kernel
  refine ⟨((checkValid_exact 3 beside).2.2 (by decide) (by decide) (by decide +kernel)
    (by decide)).mp hbeside, fun h => hbetween ?_⟩
  exact ((checkValid_exact 3 between).2.2 (by decide) (by decide) (by decide +kernel)
    (by decide)).mpr h

end RankedKeys
