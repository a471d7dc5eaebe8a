import Mathlib.Data.Nat.Notation
import RankedKeys.Json.Reader
import RankedKeys.Proofs.Json.Token
import RankedKeys.Proofs.Lists

/-!
# The tokens of a JSON value

A value has one sequence of tokens, with commas between the parts of its containers, and this
sequence is read as the value. So every text that spells it is.

## Main definitions

* `Json.tokens`: the tokens of a value
* `Json.Completes v`: the tokens of a value complete it, whatever containers are open

## Main results

* `Json.induction`: what the items and the members of a container carry over to it holds of all
  values
* `Json.ofTokens?_tokens`: the tokens of a value are read as the value
* `Json.read?_of_spells`: a text that spells them is
-/

namespace RankedKeys.Json

/-- **Induction on values**: what holds of all parts of a container has to hold of it. -/
@[elab_as_elim]
theorem induction {p : Json → Prop} (v : Json) (null : p .null) (bool : ∀ b, p (.bool b))
    (natural : ∀ n, p (.natural n)) (decimal : ∀ spelling, p (.decimal spelling))
    (string : ∀ s, p (.string s)) (array : ∀ items, (∀ v ∈ items, p v) → p (.array items))
    (object : ∀ members, (∀ m ∈ members, p m.2) → p (.object members)) : p v := by
  refine Json.rec (motive_1 := p) (motive_2 := fun items => ∀ v ∈ items, p v)
    (motive_3 := fun members => ∀ m ∈ members, p m.2) (motive_4 := fun m => p m.2)
    null bool natural decimal string array object ?_ ?_ ?_ ?_ ?_ v
  · exact fun v hv => absurd hv List.not_mem_nil
  · exact fun v items hv hitems => List.forall_mem_cons.mpr ⟨hv, hitems⟩
  · exact fun m hm => absurd hm List.not_mem_nil
  · exact fun m members hm hmembers => List.forall_mem_cons.mpr ⟨hm, hmembers⟩
  · exact fun _ v hv => hv

mutual

/-- **The tokens of a value**. -/
def tokens : Json → List Token
  | null => [.null]
  | bool b => [.bool b]
  | natural n => [.natural n]
  | decimal spelling => [.decimal spelling]
  | string s => [.string s]
  | array items => .openArray :: (itemTokens items ++ [.closeArray])
  | object members => .openObject :: (memberTokens members ++ [.closeObject])

/-- Items with commas between them. -/
def itemTokens : List Json → List Token
  | [] => []
  | [v] => tokens v
  | v :: w :: items => tokens v ++ .comma :: itemTokens (w :: items)

/-- Members with commas between them. -/
def memberTokens : List (Option String × Json) → List Token
  | [] => []
  | [(name, v)] => .string name :: .colon :: tokens v
  | (name, v) :: m :: members =>
    .string name :: .colon :: (tokens v ++ .comma :: memberTokens (m :: members))

end

theorem itemTokens_eq (items : List Json) :
    itemTokens items = [Token.comma].intercalate (items.map tokens) :=
  eq_intercalate (by rw [itemTokens]) (fun _ => by rw [itemTokens])
    (fun _ _ _ => by rw [itemTokens]) items

theorem memberTokens_eq (members : List (Option String × Json)) :
    memberTokens members = [Token.comma].intercalate
      (members.map fun m => .string m.1 :: .colon :: tokens m.2) :=
  eq_intercalate (by rw [memberTokens]) (fun _ => by rw [memberTokens])
    (fun _ _ _ => by rw [memberTokens]; rfl) members

/-! ## Reading the tokens -/

theorem foldlM_cons_eq {s : State} {t : Token} (s' : State) (h : s.step t = some s')
    (ts : List Token) :
    (t :: ts).foldlM State.step s = ts.foldlM State.step s' := by
  rw [List.foldlM_cons, h]
  rfl

/-- The tokens of a value complete it, whatever containers are open and whatever follows. -/
def Completes (v : Json) : Prop :=
  ∀ (stack : List Frame) (more : List Token),
    (tokens v ++ more).foldlM State.step ⟨stack, .value⟩ =
      more.foldlM State.step ⟨stack, .next v⟩

/-- In an array that has just been opened, an item is read like a later one. -/
theorem foldlM_firstItem (v : Json) (more : List Token) (stack : List Frame) :
    (tokens v ++ more).foldlM State.step ⟨stack, .firstItem⟩ =
      (tokens v ++ more).foldlM State.step ⟨.items [] :: stack, .value⟩ := by
  cases v <;> (rw [tokens]; rfl)

/-- The items of an array complete it. -/
theorem foldlM_items {v : Json} {items : List Json} (h : ∀ w ∈ v :: items, Completes w)
    (before : List Json) (stack : List Frame) (more : List Token) :
    (itemTokens (v :: items) ++ .closeArray :: more).foldlM State.step
        ⟨.items before :: stack, .value⟩ =
      more.foldlM State.step ⟨stack, .next (.array (before.reverse ++ v :: items))⟩ := by
  induction items generalizing v before with
  | nil =>
    rw [itemTokens, h v List.mem_cons_self]
    exact foldlM_cons_eq _ rfl more
  | cons w items ih =>
    rw [List.forall_mem_cons] at h
    rw [itemTokens, List.append_assoc, h.1]
    refine (foldlM_cons_eq ⟨.items (v :: before) :: stack, .value⟩ rfl _).trans ?_
    refine (ih h.2 (v :: before)).trans ?_
    rw [List.reverse_cons, List.append_assoc, List.singleton_append]

/-- The members of an object complete it. -/
theorem foldlM_members {m : Option String × Json} {members : List (Option String × Json)}
    (h : ∀ m' ∈ m :: members, Completes m'.2) (before : List (Option String × Json))
    (stack : List Frame) (more : List Token) :
    (memberTokens (m :: members) ++ .closeObject :: more).foldlM State.step
        ⟨stack, .name before⟩ =
      more.foldlM State.step ⟨stack, .next (.object (before.reverse ++ m :: members))⟩ := by
  induction members generalizing m before with
  | nil =>
    rw [memberTokens]
    refine (foldlM_cons_eq ⟨stack, .colon before m.1⟩ rfl _).trans ?_
    refine (foldlM_cons_eq ⟨.members before m.1 :: stack, .value⟩ rfl _).trans ?_
    refine (h m List.mem_cons_self _ _).trans ?_
    exact foldlM_cons_eq _ rfl more
  | cons m' members ih =>
    rw [List.forall_mem_cons] at h
    rw [memberTokens]
    refine (foldlM_cons_eq ⟨stack, .colon before m.1⟩ rfl _).trans ?_
    refine (foldlM_cons_eq ⟨.members before m.1 :: stack, .value⟩ rfl _).trans ?_
    refine (congrArg (List.foldlM State.step _) (List.append_assoc ..)).trans ?_
    refine (h.1 _ _).trans ?_
    refine (foldlM_cons_eq ⟨stack, .name (m :: before)⟩ rfl _).trans ?_
    refine (ih h.2 (m :: before)).trans ?_
    rw [List.reverse_cons, List.append_assoc, List.singleton_append]

/-- **Every value** is completed by its tokens. -/
theorem completes (v : Json) : Completes v := by
  induction v using induction with
  | null | bool b | natural n | decimal spelling | string s =>
    intro stack more
    rw [tokens]
    exact foldlM_cons_eq _ rfl more
  | array items h =>
    intro stack more
    rw [tokens, List.cons_append, List.append_assoc, List.singleton_append]
    refine (foldlM_cons_eq ⟨stack, .firstItem⟩ rfl _).trans ?_
    cases items with
    | nil =>
      rw [itemTokens]
      exact foldlM_cons_eq _ rfl more
    | cons v items =>
      refine Eq.trans ?_ (foldlM_items h [] stack more)
      cases items with
      | nil => exact foldlM_firstItem v _ stack
      | cons w items =>
        rw [itemTokens, List.append_assoc]
        exact foldlM_firstItem v _ stack
  | object members h =>
    intro stack more
    rw [tokens, List.cons_append, List.append_assoc, List.singleton_append]
    refine (foldlM_cons_eq ⟨stack, .firstName⟩ rfl _).trans ?_
    cases members with
    | nil =>
      rw [memberTokens]
      exact foldlM_cons_eq _ rfl more
    | cons m members =>
      -- The first name is read like that of a later member.
      refine Eq.trans ?_ (foldlM_members h [] stack more)
      cases members <;> rfl

/-- **The tokens of a value** are read as the value. -/
theorem ofTokens?_tokens (v : Json) : ofTokens? (tokens v) = some v := by
  have hread := completes v [] []
  rw [List.append_nil] at hread
  rw [ofTokens?, State.initial, hread]
  rfl

/-- **A text** that spells the tokens of a value is read as the value. -/
theorem read?_of_spells {text : String} {v : Json} (h : Spells text.toList (tokens v)) :
    read? text = some v := by
  rw [read?, tokens?_of_spells h, Option.bind_some, ofTokens?_tokens]

end RankedKeys.Json
