import Mathlib.Data.Nat.Notation
import Mathlib.Logic.Basic
import RankedKeys.Engine.Mailboxes

/-!
# Mailboxes as queues

The mailbox of every registered tag is a queue of its own: a push adds a message at its end, a pop
takes the message at its head, and both leave the other mailboxes alone.

## Main definitions

* `Mailboxes.Pushed q m q'`, `Mailboxes.Popped q tag m q'`: what a push and a pop do

## Main results

* `Mailboxes.pushed_of_room`, `Mailboxes.push_eq_error_iff`: a message is pushed if there is room for
  it, and refused otherwise
* `Mailboxes.pop_eq_ok_iff`, `Mailboxes.pop_eq_error_iff`, `Mailboxes.pop_eq_pending_iff`: what a
  request is answered
* `Mailboxes.popped_of_pop`, `Mailboxes.pop_of_box`: what is popped is the oldest message
-/

namespace RankedKeys.Mailboxes

variable {M : Type} [Tagged M] {q q' : Mailboxes M} {m : M} {tag : MessageType}

/-- One message is added to its mailbox. -/
structure Pushed (q : Mailboxes M) (m : M) (q' : Mailboxes M) : Prop where
  box_self : q'.box (Tagged.tag m) = q.box (Tagged.tag m) ++ [m]
  box_of_ne : ∀ tag, tag ≠ Tagged.tag m → q'.box tag = q.box tag
  capacity : q'.capacity = q.capacity
  types : q'.types = q.types

/-- The oldest message is taken out of the mailbox of a tag. -/
structure Popped (q : Mailboxes M) (tag : MessageType) (m : M) (q' : Mailboxes M) : Prop where
  box_self : q.box tag = m :: q'.box tag
  box_of_ne : ∀ tag', tag' ≠ tag → q'.box tag' = q.box tag'
  capacity : q'.capacity = q.capacity
  types : q'.types = q.types

/-- A push adds the message to its mailbox, and does nothing else. -/
theorem pushed_of_push (h : q.push m = .ok q') : Pushed q m q' := by
  refine ⟨box_push_self h, fun tag ne => box_push_of_ne h ne.symm, ?_, ?_⟩
  all_goals
    unfold push at h
    dsimp only at h
    split at h
    · cases h
    · split at h
      · cases h
      · cases h
        rfl

/-- A message that is pushed waits behind all others. -/
theorem waiting_of_push (h : q.push m = .ok q') : q'.waiting = q.waiting ++ [m] := by
  unfold push at h
  dsimp only at h
  split at h
  · cases h
  · split at h
    · cases h
    · cases h
      rfl

/-- **A push** is refused if the tag of the message is not registered, or if its mailbox is full. -/
theorem push_eq_error_iff {error : Error} :
    q.push m = .error error ↔
      Tagged.tag m ∉ q.types ∧ error = unknownType (Tagged.tag m) ∨
        Tagged.tag m ∈ q.types ∧ q.capacity ≤ (q.box (Tagged.tag m)).length ∧
          error = boxFull (Tagged.tag m) := by
  unfold push
  dsimp only
  split
  · rename_i unregistered
    simp [unregistered, eq_comm]
  · rename_i registered
    rw [not_not] at registered
    split
    · rename_i full
      simp [registered, full, eq_comm]
    · rename_i room
      simp [registered, room]

/-- What has been pushed had room. -/
theorem room_of_push (h : q.push m = .ok q') : (q.box (Tagged.tag m)).length < q.capacity := by
  unfold push at h
  dsimp only at h
  split at h
  · cases h
  · split at h
    · cases h
    · rename_i room
      exact Nat.not_le.mp room

/-- **A message** for which there is room is pushed. -/
theorem pushed_of_room (registered : Tagged.tag m ∈ q.types)
    (room : (q.box (Tagged.tag m)).length < q.capacity) :
    ∃ q', q.push m = .ok q' ∧ Pushed q m q' := by
  have hpush : q.push m = .ok { q with waiting := q.waiting ++ [m] } := by
    simp only [push]
    rw [if_neg fun h => h registered, if_neg (Nat.not_le.mpr room)]
  exact ⟨_, hpush, pushed_of_push hpush⟩

/-- The element that a search finds is the one that an erasure erases. -/
theorem split_of_find? {α : Type} {p : α → Bool} {list : List α} {a : α}
    (h : list.find? p = some a) :
    ∃ before after, (∀ b ∈ before, ¬ p b = true) ∧ p a = true ∧ list = before ++ a :: after ∧
      list.eraseP p = before ++ after := by
  obtain ⟨ha, before, after, rfl, hbefore⟩ := List.find?_eq_some_iff_append.mp h
  have hnone : ∀ b ∈ before, ¬ p b = true := by simpa using hbefore
  refine ⟨before, after, hnone, ha, rfl, ?_⟩
  rw [List.eraseP_append_right _ hnone, List.eraseP_cons_of_pos ha]

/-- **A message is popped** if its tag is registered and nobody has cancelled the request. -/
theorem pop_eq_ok_iff {cancelled : Bool} :
    q.pop tag cancelled = .settled (.ok (m, q')) ↔
      tag ∈ q.types ∧ cancelled = false ∧ q.waiting.find? (Tagged.tag · == tag) = some m ∧
        q' = { q with waiting := q.waiting.eraseP (Tagged.tag · == tag) } := by
  unfold pop
  constructor
  · intro h
    split at h
    · cases h
    · rename_i registered
      split at h
      · cases h
      · rename_i hcancelled
        split at h
        · cases h
        · rename_i hfind
          cases h
          exact ⟨not_not.mp registered, Bool.not_eq_true _ ▸ hcancelled, hfind, rfl⟩
  · rintro ⟨registered, rfl, hfind, rfl⟩
    rw [if_neg (not_not.mpr registered), if_neg Bool.false_ne_true, hfind]

/-- **A request is refused** if its tag is not registered, or if it has been cancelled. -/
theorem pop_eq_error_iff {cancelled : Bool} {error : Error} :
    q.pop tag cancelled = .settled (.error error) ↔
      tag ∉ q.types ∧ error = unknownType tag ∨
        tag ∈ q.types ∧ cancelled = true ∧ error = .cancelled := by
  unfold pop
  split
  · rename_i unregistered
    constructor
    · intro h
      cases h
      exact .inl ⟨unregistered, rfl⟩
    · rintro (⟨-, rfl⟩ | ⟨registered, -⟩)
      · rfl
      · exact absurd registered unregistered
  · rename_i registered
    rw [not_not] at registered
    split
    · rename_i hcancelled
      constructor
      · intro h
        cases h
        exact .inr ⟨registered, hcancelled, rfl⟩
      · rintro (⟨unregistered, -⟩ | ⟨-, -, rfl⟩)
        · exact absurd registered unregistered
        · rfl
    · rename_i hcancelled
      constructor
      · intro h
        split at h <;> cases h
      · rintro (⟨unregistered, -⟩ | ⟨-, h, -⟩)
        · exact absurd registered unregistered
        · exact absurd h hcancelled

/-- **What is popped** is the oldest message of the tag. -/
theorem popped_of_pop {cancelled : Bool} (h : q.pop tag cancelled = .settled (.ok (m, q'))) :
    Popped q tag m q' := by
  obtain ⟨-, -, hfind, rfl⟩ := pop_eq_ok_iff.mp h
  obtain ⟨before, after, hbefore, htag, hwaiting, herase⟩ := split_of_find? hfind
  refine ⟨?_, fun tag' ne => ?_, rfl, rfl⟩
  · -- What stands before the message has other tags, so it is the first of its mailbox.
    have hempty : before.filter (Tagged.tag · == tag) = [] :=
      List.filter_eq_nil_iff.mpr hbefore
    simp only [box, herase]
    rw [hwaiting, List.filter_append, List.filter_append, hempty, List.nil_append,
      List.filter_cons, if_pos htag, List.nil_append]
  · -- The message is in no other mailbox.
    have hother : ¬ (Tagged.tag m == tag') = true := by
      rw [beq_iff_eq] at htag ⊢
      exact fun heq => ne (heq.symm.trans htag)
    simp only [box, herase]
    rw [hwaiting, List.filter_append, List.filter_append, List.filter_cons, if_neg hother]

/-- A pop takes one message out. -/
theorem size_of_pop {cancelled : Bool} (h : q.pop tag cancelled = .settled (.ok (m, q'))) :
    q'.size + 1 = q.size := by
  obtain ⟨-, -, hfind, rfl⟩ := pop_eq_ok_iff.mp h
  obtain ⟨before, after, -, -, hwaiting, herase⟩ := split_of_find? hfind
  simp only [size, herase]
  rw [hwaiting, List.length_append, List.length_append, List.length_cons]
  omega

/-- **The oldest message** of a registered tag is popped. -/
theorem pop_of_box (registered : tag ∈ q.types) {list : List M} (h : q.box tag = m :: list) :
    ∃ q', q.pop tag false = .settled (.ok (m, q')) ∧ Popped q tag m q' := by
  have hfind : q.waiting.find? (Tagged.tag · == tag) = some m := by
    rw [← List.head?_filter]
    exact congrArg List.head? h
  have hpop := pop_eq_ok_iff.mpr ⟨registered, rfl, hfind, rfl⟩
  exact ⟨_, hpop, popped_of_pop hpop⟩

theorem pop_ne_error (registered : tag ∈ q.types) (error : Error) :
    q.pop tag false ≠ .settled (.error error) := by
  intro h
  rcases pop_eq_error_iff.mp h with ⟨unregistered, -⟩ | ⟨-, hcancelled, -⟩
  · exact unregistered registered
  · cases hcancelled

/-- **A request has to wait** if its tag is registered, nobody has cancelled it, and there is no
message. -/
theorem pop_eq_pending_iff {cancelled : Bool} :
    q.pop tag cancelled = .pending ↔ tag ∈ q.types ∧ cancelled = false ∧ q.box tag = [] := by
  have hbox : q.box tag = [] ↔ q.waiting.find? (Tagged.tag · == tag) = none := by
    rw [box, List.filter_eq_nil_iff, List.find?_eq_none]
  rw [hbox]
  unfold pop
  constructor
  · intro h
    split at h
    · cases h
    · rename_i registered
      split at h
      · cases h
      · rename_i hcancelled
        split at h
        · rename_i hfind
          exact ⟨not_not.mp registered, Bool.not_eq_true _ ▸ hcancelled, hfind⟩
        · cases h
  · rintro ⟨registered, rfl, hfind⟩
    rw [if_neg (not_not.mpr registered), if_neg Bool.false_ne_true, hfind]

/-- A pop does not have to wait if there is a message. -/
theorem pop_ne_pending (h : q.box tag ≠ []) (cancelled : Bool) :
    q.pop tag cancelled ≠ .pending :=
  fun hpop => h (pop_eq_pending_iff.mp hpop).2.2

end RankedKeys.Mailboxes
