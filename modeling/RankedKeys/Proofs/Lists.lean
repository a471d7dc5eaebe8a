import Mathlib.Algebra.GroupWithZero.Nat
import Mathlib.Data.List.Forall2
import Mathlib.Data.List.Nodup
import Mathlib.Data.List.Perm.Subperm

/-!
# Lists without repetitions and lists of pairs

## Main results

* `lookup_eq_some_iff_mem`: with distinct keys, a look-up finds exactly the pairs of the list
* `filter_eq_singleton`: with distinct keys, a key filters one element out
* `mem_iff_of_subset_of_length_le`, `length_filter_ne`: counting elements that do not repeat
* `forall₂_congr_of_mem`, `map_eq_map_of_forall₂`: lists that are related element by element
* `sum_map_set_lt`: sums that get smaller
* `eq_intercalate`: what is defined part by part with a mark between the parts
-/

namespace RankedKeys

variable {κ α : Type} [BEq κ] [LawfulBEq κ]

theorem mem_of_lookup_eq_some {pairs : List (κ × α)} {k : κ} {a : α}
    (h : pairs.lookup k = some a) : (k, a) ∈ pairs := by
  obtain ⟨before, after, rfl, -⟩ := List.lookup_eq_some_iff.mp h
  simp

theorem lookup_eq_some_iff_mem {pairs : List (κ × α)} (h : (pairs.map (·.1)).Nodup) {k : κ}
    {a : α} : pairs.lookup k = some a ↔ (k, a) ∈ pairs := by
  refine ⟨mem_of_lookup_eq_some, fun hmem => ?_⟩
  obtain ⟨before, after, rfl⟩ := List.append_of_mem hmem
  refine List.lookup_eq_some_iff.mpr ⟨before, after, rfl, fun p hp => ?_⟩
  rw [List.map_append, List.map_cons] at h
  have hdisjoint := (List.nodup_append.mp h).2.2 p.1 (List.mem_map_of_mem hp) k (by simp)
  simpa using Ne.symm hdisjoint

omit [BEq κ] [LawfulBEq κ] in
/-- With distinct keys, a key filters one element out. -/
theorem filter_eq_singleton [DecidableEq κ] {key : α → κ} {list : List α}
    (h : (list.map key).Nodup) {a : α} (ha : a ∈ list) :
    list.filter (fun b => key b = key a) = [a] := by
  obtain ⟨before, after, rfl⟩ := List.append_of_mem ha
  rw [List.map_append, List.map_cons, List.nodup_append, List.nodup_cons] at h
  obtain ⟨-, ⟨hafter, -⟩, hbefore⟩ := h
  have hnone : ∀ rest : List α, (∀ b ∈ rest, key b ≠ key a) →
      rest.filter (fun b => key b = key a) = [] := by
    intro rest hne
    exact List.filter_eq_nil_iff.mpr fun b hb heq => hne b hb (of_decide_eq_true heq)
  rw [List.filter_append, List.filter_cons, if_pos (decide_eq_true rfl), hnone before,
    hnone after, List.nil_append]
  · exact fun b hb heq => hafter (heq ▸ List.mem_map_of_mem hb)
  · exact fun b hb => hbefore _ (List.mem_map_of_mem hb) _ List.mem_cons_self

theorem lookup_filter_ne {k k' : κ} (h : k' ≠ k) (pairs : List (κ × α)) :
    (pairs.filter (·.1 != k)).lookup k' = pairs.lookup k' := by
  induction pairs with
  | nil => rfl
  | cons e pairs ih =>
    rw [List.filter_cons]
    by_cases he : e.1 = k
    · have hne : (k' == e.1) = false := beq_false_of_ne (he ▸ h)
      rw [if_neg (by simp [he]), ih, List.lookup_cons, hne]
    · rw [if_pos (by simpa using he), List.lookup_cons, List.lookup_cons, ih]

theorem lookup_map_snd {β : Type} (f : κ → α → β) (pairs : List (κ × α)) (k : κ) :
    (pairs.map fun e => (e.1, f e.1 e.2)).lookup k = (pairs.lookup k).map (f k) := by
  induction pairs with
  | nil => rfl
  | cons e pairs ih =>
    rcases e with ⟨k', a⟩
    rw [List.map_cons, List.lookup_cons, List.lookup_cons, ih]
    by_cases h : k = k'
    · subst h
      simp
    · rw [beq_false_of_ne h]

section Nodup

variable {list list' : List κ}

omit [BEq κ] [LawfulBEq κ] in
/-- Elements that do not repeat are all the elements of a list that is no longer. -/
theorem mem_iff_of_subset_of_length_le (h : list.Nodup) (sub : list ⊆ list')
    (le : list'.length ≤ list.length) {k : κ} : k ∈ list ↔ k ∈ list' :=
  ((List.subperm_of_subset h sub).perm_of_length_le le).mem_iff

theorem length_filter_ne (h : list.Nodup) {k : κ} (hk : k ∈ list) :
    (list.filter (· != k)).length + 1 = list.length := by
  rw [← h.erase_eq_filter, List.length_erase_of_mem hk]
  exact Nat.sub_add_cancel (List.length_pos_of_mem hk)

end Nodup

theorem exists_mem_of_forall₂ {β γ : Type} {R : β → γ → Prop} {list : List β} {list' : List γ}
    (h : List.Forall₂ R list list') {b : β} (hb : b ∈ list) : ∃ b' ∈ list', R b b' := by
  induction h with
  | nil => exact absurd hb List.not_mem_nil
  | cons hR _ ih =>
    rcases List.mem_cons.mp hb with rfl | hb
    · exact ⟨_, List.mem_cons_self, hR⟩
    · obtain ⟨b', hb', hR'⟩ := ih hb
      exact ⟨b', List.mem_cons_of_mem _ hb', hR'⟩

/-- A relation between two lists looks only at the elements of the first. -/
theorem forall₂_congr_of_mem {β γ : Type} {R S : β → γ → Prop} {list : List β} {list' : List γ}
    (h : ∀ b ∈ list, ∀ b', R b b' ↔ S b b') :
    List.Forall₂ R list list' ↔ List.Forall₂ S list list' := by
  induction list generalizing list' with
  | nil => simp only [List.forall₂_nil_left_iff]
  | cons b list ih =>
    obtain ⟨hb, h⟩ := List.forall_mem_cons.mp h
    simp only [List.forall₂_cons_left_iff, hb, ih h]

theorem map_eq_map_of_forall₂ {β γ δ : Type} {R : β → γ → Prop} {list : List β} {list' : List γ}
    (h : List.Forall₂ R list list') {f : β → δ} {f' : γ → δ}
    (eq : ∀ b ∈ list, ∀ b', R b b' → f' b' = f b) : list'.map f' = list.map f := by
  induction h with
  | nil => rfl
  | cons hb _ ih =>
    rw [List.map_cons, List.map_cons, eq _ List.mem_cons_self _ hb,
      ih fun b hmem => eq b (List.mem_cons_of_mem _ hmem)]

/-- A list with a smaller value in one place has a smaller sum. -/
theorem sum_map_set_lt {α : Type} {f : α → ℕ} {list : List α} {i : ℕ} {a b : α}
    (ha : list[i]? = some a) (hlt : f b < f a) :
    ((list.set i b).map f).sum < (list.map f).sum := by
  induction list generalizing i with
  | nil => cases ha
  | cons a' list ih =>
    cases i with
    | zero =>
      cases ha
      simpa using hlt
    | succ i => simpa using ih ha

/-- What is defined part by part, with a mark between two parts. -/
theorem eq_intercalate {β : Type} {mark : β} {part : α → List β} {whole : List α → List β}
    (nil : whole [] = []) (one : ∀ a, whole [a] = part a)
    (more : ∀ a b list, whole (a :: b :: list) = part a ++ mark :: whole (b :: list))
    (list : List α) : whole list = [mark].intercalate (list.map part) := by
  induction list with
  | nil => exact nil
  | cons a list ih =>
    cases list with
    | nil => rw [one, List.map_singleton, List.intercalate_singleton]
    | cons b list =>
      rw [more, ih]
      simp only [List.map_cons, List.intercalate_cons_cons, List.append_assoc,
        List.singleton_append]

/-- The last part stands behind a mark for each part before it. -/
theorem intercalate_append_singleton (sep : List α) (parts : List (List α)) (last : List α) :
    sep.intercalate (parts ++ [last]) = parts.flatMap (· ++ sep) ++ last := by
  induction parts with
  | nil => simp
  | cons part parts ih =>
    cases parts with
    | nil => simp
    | cons next parts =>
      rw [List.cons_append] at ih ⊢
      rw [List.cons_append, List.intercalate_cons_cons, ih]
      simp only [List.flatMap_cons, List.append_assoc]

end RankedKeys
