/-!
# The order of texts

Texts are ordered like words in a dictionary, by the code points of their characters. This is also
the order of their UTF-8 bytes.

## Main definitions

* `precedes`, `atMost`: the order of texts

## Main results

* `precedes_irrefl`, `precedes_trans`, `precedes_total`: it is a strict total order
-/

namespace RankedKeys.Text

/-- The strict order of lists of characters. -/
def comesBefore : List Char → List Char → Bool
  | _, [] => false
  | [], _ :: _ => true
  | a :: as, b :: bs => a.toNat < b.toNat || (a == b && comesBefore as bs)

/-- The strict order of texts. -/
def precedes (s t : String) : Bool :=
  comesBefore s.toList t.toList

/-- The order of texts in which a text may stand before an equal one. -/
def atMost (s t : String) : Bool :=
  !precedes t s

theorem comesBefore_irrefl (as : List Char) : comesBefore as as = false := by
  induction as with
  | nil => rfl
  | cons a as ih => simp [comesBefore, ih]

theorem comesBefore_trans {as bs cs : List Char} (h : comesBefore as bs = true)
    (h' : comesBefore bs cs = true) : comesBefore as cs = true := by
  induction as generalizing bs cs with
  | nil =>
    cases bs with
    | nil => simp [comesBefore] at h
    | cons b bs =>
      cases cs with
      | nil => simp [comesBefore] at h'
      | cons c cs => rfl
  | cons a as ih =>
    cases bs with
    | nil => simp [comesBefore] at h
    | cons b bs =>
      cases cs with
      | nil => simp [comesBefore] at h'
      | cons c cs =>
        simp only [comesBefore, Bool.or_eq_true, decide_eq_true_eq, Bool.and_eq_true,
          beq_iff_eq] at h h' ⊢
        rcases h with h | ⟨rfl, h⟩
        · rcases h' with h' | ⟨rfl, _⟩
          · exact .inl (Nat.lt_trans h h')
          · exact .inl h
        · rcases h' with h' | ⟨rfl, h'⟩
          · exact .inl h'
          · exact .inr ⟨rfl, ih h h'⟩

theorem comesBefore_total (as bs : List Char) :
    comesBefore as bs = true ∨ as = bs ∨ comesBefore bs as = true := by
  induction as generalizing bs with
  | nil => cases bs <;> simp [comesBefore]
  | cons a as ih =>
    cases bs with
    | nil => simp [comesBefore]
    | cons b bs =>
      simp only [comesBefore, Bool.or_eq_true, decide_eq_true_eq, Bool.and_eq_true,
        beq_iff_eq, List.cons.injEq]
      rcases Nat.lt_trichotomy a.toNat b.toNat with lt | eq | gt
      · exact .inl (.inl lt)
      · obtain rfl : a = b := Char.toNat_inj.1 eq
        rcases ih bs with h | h | h
        · exact .inl (.inr ⟨rfl, h⟩)
        · exact .inr (.inl ⟨rfl, h⟩)
        · exact .inr (.inr (.inr ⟨rfl, h⟩))
      · exact .inr (.inr (.inl gt))

theorem precedes_irrefl (s : String) : precedes s s = false :=
  comesBefore_irrefl s.toList

theorem precedes_trans {s t u : String} (h : precedes s t = true) (h' : precedes t u = true) :
    precedes s u = true :=
  comesBefore_trans h h'

theorem precedes_total (s t : String) :
    precedes s t = true ∨ s = t ∨ precedes t s = true := by
  rcases comesBefore_total s.toList t.toList with h | h | h
  · exact .inl h
  · exact .inr (.inl (String.toList_inj.1 h))
  · exact .inr (.inr h)

end RankedKeys.Text
