/-!
# Sorting

Sorting by insertion, with the order given as a test of two items. Items that may stand either way
keep their places.

## Main definitions

* `insertBy`, `sortBy`

## Main results

* `perm_sortBy`: sorting loses nothing and adds nothing
* `pairwise_sortBy`: a sorted list is in order
-/

namespace RankedKeys

variable {α : Type} {atMost : α → α → Bool}

/-- Puts an item in front of the first one that it may stand before. -/
def insertBy (atMost : α → α → Bool) (a : α) : List α → List α
  | [] => [a]
  | b :: bs => if atMost a b then a :: b :: bs else b :: insertBy atMost a bs

/-- Sorts a list. -/
def sortBy (atMost : α → α → Bool) (as : List α) : List α :=
  as.foldr (insertBy atMost) []

theorem perm_insertBy (a : α) (bs : List α) : (insertBy atMost a bs).Perm (a :: bs) := by
  induction bs with
  | nil => exact .refl _
  | cons b bs ih =>
    simp only [insertBy]
    split
    · exact .refl _
    · exact (ih.cons b).trans (.swap a b bs)

theorem perm_sortBy (as : List α) : (sortBy atMost as).Perm as := by
  induction as with
  | nil => exact .refl _
  | cons a as ih => exact (perm_insertBy a _).trans (ih.cons a)

theorem pairwise_insertBy (trans : ∀ a b c, atMost a b → atMost b c → atMost a c)
    (total : ∀ a b, atMost a b ∨ atMost b a) (a : α) {bs : List α}
    (h : bs.Pairwise (atMost · ·)) : (insertBy atMost a bs).Pairwise (atMost · ·) := by
  induction bs with
  | nil => simp [insertBy]
  | cons b bs ih =>
    obtain ⟨least, tail⟩ := List.pairwise_cons.1 h
    simp only [insertBy]
    split
    · rename_i before
      refine List.pairwise_cons.2 ⟨fun c hc => ?_, h⟩
      rcases List.mem_cons.1 hc with rfl | hc
      · exact before
      · exact trans _ _ _ before (least c hc)
    · rename_i notBefore
      refine List.pairwise_cons.2 ⟨fun c hc => ?_, ih tail⟩
      rcases List.mem_cons.1 ((perm_insertBy a bs).mem_iff.1 hc) with rfl | hc
      · exact (total c b).resolve_left notBefore
      · exact least c hc

theorem pairwise_sortBy (trans : ∀ a b c, atMost a b → atMost b c → atMost a c)
    (total : ∀ a b, atMost a b ∨ atMost b a) (as : List α) :
    (sortBy atMost as).Pairwise (atMost · ·) := by
  induction as with
  | nil => exact .nil
  | cons a as ih => exact pairwise_insertBy trans total a ih

end RankedKeys
