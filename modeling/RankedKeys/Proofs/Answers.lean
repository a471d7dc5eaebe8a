import Mathlib.Data.List.Forall2

/-!
# Answers that may be errors

When a chain of calls and checks succeeds, and which of its errors it answers with.

## Main results

* `bind_eq_ok_iff`, `bind_eq_error_iff`, `guard_eq_ok_iff`, `reject_eq_ok_iff`, `pure_eq_ok_iff`:
  one link of a chain
* `mapM_eq_ok_iff`, `mapM_eq_error_iff`, `mapM_eq_some_iff`: the same call on every element of a
  list
-/

namespace RankedKeys

variable {ε α β : Type}

theorem bind_eq_ok_iff {x : Except ε α} {f : α → Except ε β} {b : β} :
    x >>= f = .ok b ↔ ∃ a, x = .ok a ∧ f a = .ok b := by
  cases x with
  | error e => exact ⟨fun h => (nomatch h), fun ⟨a, h, _⟩ => (nomatch h)⟩
  | ok a =>
    refine ⟨fun h => ⟨a, rfl, h⟩, ?_⟩
    rintro ⟨_, ⟨⟩, h⟩
    exact h

theorem bind_eq_error_iff {x : Except ε α} {f : α → Except ε β} {e : ε} :
    x >>= f = .error e ↔ x = .error e ∨ ∃ a, x = .ok a ∧ f a = .error e := by
  cases x with
  | error e' =>
    refine ⟨fun h => .inl (congrArg _ (Except.error.inj h)), ?_⟩
    rintro (h | ⟨a, h, -⟩)
    · exact congrArg _ (Except.error.inj h)
    · cases h
  | ok a =>
    refine ⟨fun h => .inr ⟨a, rfl, h⟩, ?_⟩
    rintro (h | ⟨_, ⟨⟩, h⟩)
    · cases h
    · exact h

theorem guard_eq_ok_iff {p : Prop} [Decidable p] {e : ε} {f : PUnit → Except ε β}
    {x : Except ε β} {b : β} :
    (if p then (throw e : Except ε PUnit) >>= f else x) = .ok b ↔ ¬ p ∧ x = .ok b := by
  split
  · rename_i h
    exact ⟨fun h' => (nomatch h'), fun h' => absurd h h'.1⟩
  · rename_i h
    exact ⟨fun h' => ⟨h, h'⟩, fun h' => h'.2⟩

theorem reject_eq_ok_iff {p : Prop} [Decidable p] {e : ε} {x : Except ε α} {b : α} :
    (if p then (throw e : Except ε α) else x) = .ok b ↔ ¬ p ∧ x = .ok b := by
  split
  · rename_i h
    exact ⟨fun h' => (nomatch h'), fun h' => absurd h h'.1⟩
  · rename_i h
    exact ⟨fun h' => ⟨h, h'⟩, fun h' => h'.2⟩

theorem pure_eq_ok_iff {a b : α} : (pure a : Except ε α) = .ok b ↔ a = b :=
  ⟨fun h => Except.ok.inj h, fun h => congrArg _ h⟩

theorem eq_ok_get {x : Except ε α} (h : x.toOption.isSome = true) :
    x = .ok (x.toOption.get h) := by
  cases x with
  | error e => cases h
  | ok a => rfl

theorem mapError_eq_ok_iff {δ : Type} {f : ε → δ} {x : Except ε α} {a : α} :
    x.mapError f = .ok a ↔ x = .ok a := by
  cases x with
  | error e => exact ⟨fun h => (nomatch h), fun h => (nomatch h)⟩
  | ok a' => exact ⟨fun h => congrArg _ (Except.ok.inj h), fun h => congrArg _ (Except.ok.inj h)⟩

theorem mapError_eq_error_iff {δ : Type} {f : ε → δ} {x : Except ε α} {d : δ} :
    x.mapError f = .error d ↔ ∃ e, x = .error e ∧ f e = d := by
  cases x with
  | error e =>
    refine ⟨fun h => ⟨e, rfl, Except.error.inj h⟩, ?_⟩
    rintro ⟨_, ⟨⟩, rfl⟩
    rfl
  | ok a => exact ⟨fun h => (nomatch h), fun ⟨_, h, _⟩ => (nomatch h)⟩

theorem mapM_eq_ok_iff {f : α → Except ε β} {list : List α} {answers : List β} :
    list.mapM f = .ok answers ↔ List.Forall₂ (fun a b => f a = .ok b) list answers := by
  induction list generalizing answers with
  | nil => rw [List.mapM_nil, pure_eq_ok_iff, List.forall₂_nil_left_iff, eq_comm]
  | cons a list ih =>
    simp only [List.mapM_cons, bind_eq_ok_iff, pure_eq_ok_iff, ih, List.forall₂_cons_left_iff]
    constructor
    · rintro ⟨b, hb, answers, hanswers, rfl⟩
      exact ⟨b, answers, hb, hanswers, rfl⟩
    · rintro ⟨b, answers, hb, hanswers, rfl⟩
      exact ⟨b, hb, answers, hanswers, rfl⟩

/-- The first call that fails decides the error. -/
theorem mapM_eq_error_iff {f : α → Except ε β} {list : List α} {e : ε} :
    list.mapM f = .error e ↔ ∃ before a after, list = before ++ a :: after ∧
      (∀ a ∈ before, ∃ b, f a = .ok b) ∧ f a = .error e := by
  induction list with
  | nil =>
    rw [List.mapM_nil]
    exact ⟨fun h => (nomatch h), fun ⟨_, _, _, h, _⟩ => absurd h (by simp)⟩
  | cons a list ih =>
    rw [List.mapM_cons]
    simp only [bind_eq_error_iff, ih]
    constructor
    · rintro (ha | ⟨b, hb, ⟨before, a', after, rfl, hbefore, ha'⟩ | ⟨bs, -, h⟩⟩)
      · exact ⟨[], a, list, rfl, fun _ h => absurd h List.not_mem_nil, ha⟩
      · exact ⟨a :: before, a', after, rfl, List.forall_mem_cons.mpr ⟨⟨b, hb⟩, hbefore⟩, ha'⟩
      · cases h
    · rintro ⟨before, a', after, hlist, hbefore, ha'⟩
      cases before with
      | nil =>
        obtain ⟨rfl, rfl⟩ := List.cons.inj hlist
        exact .inl ha'
      | cons c before =>
        obtain ⟨rfl, rfl⟩ := List.cons.inj hlist
        obtain ⟨⟨b, hb⟩, hbefore⟩ := List.forall_mem_cons.mp hbefore
        exact .inr ⟨b, hb, .inl ⟨before, a', after, rfl, hbefore, ha'⟩⟩

theorem mapM_eq_some_iff {f : α → Option β} {list : List α} {answers : List β} :
    list.mapM f = some answers ↔ List.Forall₂ (fun a b => f a = some b) list answers := by
  induction list generalizing answers with
  | nil =>
    rw [List.mapM_nil, List.forall₂_nil_left_iff]
    exact Option.some_inj.trans eq_comm
  | cons a list ih =>
    simp only [List.mapM_cons, Option.bind_eq_bind, Option.bind_eq_some_iff, Option.pure_def,
      Option.some_inj, ih, List.forall₂_cons_left_iff]
    constructor
    · rintro ⟨b, hb, answers, hanswers, rfl⟩
      exact ⟨b, answers, hb, hanswers, rfl⟩
    · rintro ⟨b, answers, hb, hanswers, rfl⟩
      exact ⟨b, hb, answers, hanswers, rfl⟩

end RankedKeys
