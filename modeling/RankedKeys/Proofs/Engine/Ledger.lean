import RankedKeys.Proofs.Engine.Mailboxes

/-!
# Mailboxes over a history

Messages are pushed and popped in any order, and the flag under which they are asked for is raised
and lowered in between, or let go of. A ledger records every access with its reply. Each mailbox
turns out to be a bounded queue of its own: what has been popped is what has been pushed, in the same
order and up to what still waits, and the next reply depends on the history of the same tag and on
the flag alone.

## Main definitions

* `Access`, `Reply`: what is done to mailboxes and their flag, and the reply
* `Ledger`: mailboxes and their flag, with the history of what has been done to them
* `Ledger.pushed`, `Ledger.popped`, `Ledger.queued`: what a history says of one tag
* `Ledger.Accounts`: the mailboxes are as the history says

## Main results

* `Ledger.Accounts.enter`: every access is accounted for
* `Ledger.queues_of_play`: the mailboxes are bounded queues after any history
-/

namespace RankedKeys

variable {M : Type}

/-- What is done to mailboxes and to the flag under which they are asked. -/
inductive Access (M : Type) where
  | push (m : M)
  | pop (tag : MessageType)
  | set (raised : Bool)
  | release
  deriving DecidableEq

/-- What an access is answered. -/
inductive Reply (M : Type) where
  | pushed (answer : Except Error Unit)
  | popped (answer : Outcome M)
  | noted

/-- Mailboxes and the flag under which they are asked, with what has been done to them so far. -/
structure Ledger (M : Type) where
  mailboxes : Mailboxes M
  flag : CancelFlag
  history : List (Access M × Reply M)

namespace Ledger

/-! ## Histories -/

section History

variable [Tagged M] (tag : MessageType) (history : List (Access M × Reply M))

/-- The message of a tag that an access has put into its mailbox. -/
def pushed? : Access M × Reply M → Option M
  | (.push m, .pushed (.ok ())) => if Tagged.tag m = tag then some m else none
  | _ => none

/-- The message that an access has taken out of the mailbox of a tag. -/
def popped? : Access M × Reply M → Option M
  | (.pop tag', .popped (.settled (.ok m))) => if tag' = tag then some m else none
  | _ => none

/-- The messages of a tag that have been put into its mailbox. -/
def pushed : List M :=
  history.filterMap (pushed? tag)

/-- The messages that have been taken out of the mailbox of a tag. -/
def popped : List M :=
  history.filterMap (popped? tag)

/-- The messages of a tag that have been pushed and not been popped. -/
def queued : List M :=
  (pushed tag history).drop (popped tag history).length

end History

/-- Where an access has put the flag. -/
def flagged? : Access M × Reply M → Option Bool
  | (.set raised, _) => some raised
  | _ => none

/-- Whether an access has let go of the flag. -/
def releases : Access M × Reply M → Bool
  | (.release, _) => true
  | _ => false

/-- Whether the flag has been raised when it has been put somewhere for the last time. -/
def flagged (history : List (Access M × Reply M)) : Bool :=
  (history.filterMap flagged?).getLast?.getD false

/-- The flag is raised, or somebody has let go of it. -/
def cancelled (history : List (Access M × Reply M)) : Bool :=
  flagged history || history.any releases

/-! ## Entries -/

/-- Nothing has been done to new mailboxes and a new flag. -/
def create (capacity : ℕ) (types : List MessageType) : Ledger M :=
  ⟨.create capacity types, .initial, []⟩

variable [Tagged M]

/-- The reply to an access. A request that has to wait is given up. -/
def reply (l : Ledger M) : Access M → Reply M
  | .push m =>
    match l.mailboxes.push m with
    | .ok _ => .pushed (.ok ())
    | .error error => .pushed (.error error)
  | .pop tag =>
    match l.mailboxes.pop tag l.flag.isCancelled with
    | .pending => .popped .pending
    | .settled (.error error) => .popped (.settled (.error error))
    | .settled (.ok (m, _)) => .popped (.settled (.ok m))
  | .set _ | .release => .noted

/-- The mailboxes after an access. -/
def mailboxesAfter (l : Ledger M) : Access M → Mailboxes M
  | .push m =>
    match l.mailboxes.push m with
    | .ok q => q
    | .error _ => l.mailboxes
  | .pop tag =>
    match l.mailboxes.pop tag l.flag.isCancelled with
    | .settled (.ok (_, q)) => q
    | _ => l.mailboxes
  | .set _ | .release => l.mailboxes

/-- The flag after an access. -/
def flagAfter (l : Ledger M) : Access M → CancelFlag
  | .set raised => l.flag.set raised
  | .release => l.flag.release
  | .push _ | .pop _ => l.flag

/-- An access, with its reply, is recorded. -/
def enter (l : Ledger M) (access : Access M) : Ledger M where
  mailboxes := l.mailboxesAfter access
  flag := l.flagAfter access
  history := l.history ++ [(access, l.reply access)]

/-- One access after the other. -/
def play (l : Ledger M) (accesses : List (Access M)) : Ledger M :=
  accesses.foldl enter l

/-! ## Moves -/

section Entries

variable {tag : MessageType} {history : List (Access M × Reply M)} {entry : Access M × Reply M}

@[simp] theorem pushed_append_singleton :
    pushed tag (history ++ [entry]) = pushed tag history ++ (pushed? tag entry).toList := by
  cases h : pushed? tag entry <;> simp [pushed, h]

omit [Tagged M] in
@[simp] theorem popped_append_singleton :
    popped tag (history ++ [entry]) = popped tag history ++ (popped? tag entry).toList := by
  cases h : popped? tag entry <;> simp [popped, h]

omit [Tagged M] in
@[simp] theorem flagged_append_singleton :
    flagged (history ++ [entry]) = (flagged? entry).getD (flagged history) := by
  cases h : flagged? entry <;> simp [flagged, h]

end Entries

/-- **What one access does** to the mailboxes: it puts a message in, takes one out, or leaves them
as they are. -/
inductive Moves (l : Ledger M) : Access M → Reply M → Mailboxes M → Prop
  | put {m : M} {q : Mailboxes M} (pushed : l.mailboxes.Pushed m q)
    (room : (l.mailboxes.box (Tagged.tag m)).length < l.mailboxes.capacity) :
    Moves l (.push m) (.pushed (.ok ())) q
  | take {tag : MessageType} {m : M} {q : Mailboxes M} (popped : l.mailboxes.Popped tag m q) :
    Moves l (.pop tag) (.popped (.settled (.ok m))) q
  | leave {access : Access M} {reply : Reply M} (pushed : reply ≠ .pushed (.ok ()))
    (popped : ∀ m, reply ≠ .popped (.settled (.ok m))) : Moves l access reply l.mailboxes

theorem moves (l : Ledger M) (access : Access M) :
    l.Moves access (l.reply access) (l.mailboxesAfter access) := by
  cases access with
  | push m =>
    cases hpush : l.mailboxes.push m with
    | error error =>
      simp only [reply, mailboxesAfter, hpush]
      exact .leave nofun nofun
    | ok q =>
      simp only [reply, mailboxesAfter, hpush]
      exact .put (Mailboxes.pushed_of_push hpush) (Mailboxes.room_of_push hpush)
  | pop tag =>
    cases hpop : l.mailboxes.pop tag l.flag.isCancelled with
    | pending =>
      simp only [reply, mailboxesAfter, hpop]
      exact .leave nofun nofun
    | settled answer =>
      cases answer with
      | error error =>
        simp only [reply, mailboxesAfter, hpop]
        exact .leave nofun nofun
      | ok taken =>
        simp only [reply, mailboxesAfter, hpop]
        exact .take (Mailboxes.popped_of_pop hpop)
  | set raised => exact .leave nofun nofun
  | release => exact .leave nofun nofun

namespace Moves

variable {l : Ledger M} {access : Access M} {reply : Reply M} {q : Mailboxes M}
  (h : l.Moves access reply q)

include h

/-- Messages are taken from the head of a mailbox, and put in at its end. -/
theorem box (tag : MessageType) :
    (popped? tag (access, reply)).toList ++ q.box tag =
      l.mailboxes.box tag ++ (pushed? tag (access, reply)).toList := by
  cases h with
  | @put m q pushed room =>
    by_cases htag : Tagged.tag m = tag
    · subst htag
      simp [pushed?, popped?, pushed.box_self]
    · simp [pushed?, popped?, pushed.box_of_ne tag (Ne.symm htag), htag]
  | @take tag' m q popped =>
    by_cases htag : tag' = tag
    · subst htag
      simp [pushed?, popped?, popped.box_self]
    · simp [pushed?, popped?, popped.box_of_ne tag (Ne.symm htag), htag]
  | leave pushed popped =>
    have hpushed : pushed? tag (access, reply) = none := by
      unfold pushed?
      split <;> simp_all
    have hpopped : popped? tag (access, reply) = none := by
      unfold popped?
      split <;> simp_all
    simp [hpushed, hpopped]

/-- The registered tags and the capacity stay. -/
theorem frame : q.types = l.mailboxes.types ∧ q.capacity = l.mailboxes.capacity := by
  cases h with
  | put pushed room => exact ⟨pushed.types, pushed.capacity⟩
  | take popped => exact ⟨popped.types, popped.capacity⟩
  | leave pushed popped => exact ⟨rfl, rfl⟩

/-- No mailbox gets more messages than it may hold. -/
theorem room {tag : MessageType}
    (fits : (l.mailboxes.box tag).length ≤ l.mailboxes.capacity) :
    (q.box tag).length ≤ l.mailboxes.capacity := by
  cases h with
  | @put m q pushed room =>
    by_cases htag : tag = Tagged.tag m
    · subst htag
      rw [pushed.box_self, List.length_append, List.length_singleton]
      exact room
    · rwa [pushed.box_of_ne tag htag]
  | @take tag' m q popped =>
    by_cases htag : tag = tag'
    · subst htag
      rw [popped.box_self, List.length_cons] at fits
      exact Nat.le_of_succ_le fits
    · rwa [popped.box_of_ne tag htag]
  | leave pushed popped => exact fits

theorem eq_of_leave (pushed : reply ≠ .pushed (.ok ()))
    (popped : ∀ m, reply ≠ .popped (.settled (.ok m))) : q = l.mailboxes := by
  cases h with
  | put => exact absurd rfl pushed
  | @take tag m => exact absurd rfl (popped m)
  | leave => rfl

end Moves

/-! ## Accounts -/

omit [Tagged M] in
theorem held_flagAfter (l : Ledger M) (access : Access M) (reply : Reply M) :
    (l.flagAfter access).held = (l.flag.held && !releases (access, reply)) := by
  cases access with
  | set raised => cases h : l.flag.held <;> simp [flagAfter, releases, CancelFlag.set, h]
  | release => simp [flagAfter, releases, CancelFlag.release]
  | _ => simp [flagAfter, releases]

omit [Tagged M] in
theorem raised_flagAfter {l : Ledger M} {access : Access M} (reply : Reply M)
    (held : (l.flagAfter access).held = true) :
    (l.flagAfter access).raised = (flagged? (access, reply)).getD l.flag.raised := by
  cases access with
  | set raised => cases h : l.flag.held <;> simp_all [flagAfter, flagged?, CancelFlag.set]
  | _ => rfl

/-- **The mailboxes and the flag** are as the history says. -/
structure Accounts (capacity : ℕ) (types : List MessageType) (l : Ledger M) : Prop where
  capacity : l.mailboxes.capacity = max 1 capacity
  types : l.mailboxes.types = types
  box : ∀ tag, popped tag l.history ++ l.mailboxes.box tag = pushed tag l.history
  room : ∀ tag, (l.mailboxes.box tag).length ≤ l.mailboxes.capacity
  released : l.history.any releases = !l.flag.held
  /-- Once nobody holds the flag, it does not matter any more whether it is raised. -/
  raised : l.flag.held = true → l.flag.raised = flagged l.history

variable {capacity : ℕ} {types : List MessageType} {l : Ledger M}

theorem accounts_create : (create capacity types : Ledger M).Accounts capacity types where
  capacity := rfl
  types := rfl
  box _ := rfl
  room _ := Nat.zero_le _
  released := rfl
  raised _ := rfl

namespace Accounts

/-- **Every access** is accounted for. -/
theorem enter (h : l.Accounts capacity types) (access : Access M) :
    (l.enter access).Accounts capacity types := by
  have moves := l.moves access
  refine ⟨moves.frame.2.trans h.capacity, moves.frame.1.trans h.types, fun tag => ?_,
    fun tag => moves.frame.2.symm ▸ moves.room (h.room tag), ?_, fun hheld => ?_⟩
  · calc popped tag (l.enter access).history ++ (l.enter access).mailboxes.box tag
        = popped tag l.history ++ ((popped? tag (access, l.reply access)).toList ++
            (l.mailboxesAfter access).box tag) := by simp [Ledger.enter]
      _ = popped tag l.history ++ l.mailboxes.box tag ++
            (pushed? tag (access, l.reply access)).toList := by
          rw [moves.box, List.append_assoc]
      _ = pushed tag (l.enter access).history := by simp [Ledger.enter, h.box]
  · simp [Ledger.enter, l.held_flagAfter access (l.reply access), h.released]
  · have hbefore : l.flag.held = true := by
      rw [Ledger.enter, l.held_flagAfter access (l.reply access), Bool.and_eq_true] at hheld
      exact hheld.1
    simp [Ledger.enter, raised_flagAfter (l.reply access) hheld, h.raised hbefore]

/-- **A whole history** is accounted for. -/
theorem play (h : l.Accounts capacity types) (accesses : List (Access M)) :
    (l.play accesses).Accounts capacity types := by
  induction accesses generalizing l with
  | nil => exact h
  | cons access accesses ih => exact ih (h.enter access)

variable (h : l.Accounts capacity types)

include h

theorem queued_eq (tag : MessageType) : queued tag l.history = l.mailboxes.box tag := by
  rw [queued, ← h.box tag, List.drop_left]

theorem isCancelled : l.flag.isCancelled = cancelled l.history := by
  rw [CancelFlag.isCancelled, cancelled, h.released]
  cases hheld : l.flag.held with
  | false => rw [Bool.not_false, Bool.or_true, Bool.or_true]
  | true => rw [h.raised hheld]

/-- A message is refused if its tag is not registered or if its mailbox is full. -/
theorem reply_push (m : M) :
    l.reply (.push m) = .pushed
      (if Tagged.tag m ∉ types then .error (Mailboxes.unknownType (Tagged.tag m))
      else if (queued (Tagged.tag m) l.history).length = max 1 capacity then
        .error (Mailboxes.boxFull (Tagged.tag m))
      else .ok ()) := by
  have hroom := h.room (Tagged.tag m)
  rw [h.queued_eq, reply, Mailboxes.push, h.types, ← h.capacity]
  by_cases htag : Tagged.tag m ∈ types
  · by_cases hfull : (l.mailboxes.box (Tagged.tag m)).length = l.mailboxes.capacity
    · simp [htag, hfull]
    · simp [htag, hfull, Nat.not_le.mpr (Nat.lt_of_le_of_ne hroom hfull)]
  · simp [htag]

/-- The oldest message is taken out, unless the tag is not registered or nobody may ask. -/
theorem reply_pop (tag : MessageType) :
    l.reply (.pop tag) = .popped
      (if tag ∉ types then .settled (.error (Mailboxes.unknownType tag))
      else if cancelled l.history then .settled (.error .cancelled)
      else
        match queued tag l.history with
        | [] => .pending
        | m :: _ => .settled (.ok m)) := by
  rw [h.queued_eq, reply, h.isCancelled]
  by_cases htag : tag ∈ types
  · have hregistered : tag ∈ l.mailboxes.types := h.types ▸ htag
    cases cancelled l.history with
    | true =>
      have hpop := Mailboxes.pop_eq_error_iff.mpr (.inr ⟨hregistered, rfl, rfl⟩)
      simp [hpop, htag]
    | false =>
      cases hbox : l.mailboxes.box tag with
      | nil =>
        have hpop := Mailboxes.pop_eq_pending_iff.mpr ⟨hregistered, rfl, hbox⟩
        simp [hpop, htag]
      | cons m list =>
        obtain ⟨q, hpop, -⟩ := Mailboxes.pop_of_box hregistered hbox
        simp [hpop, htag]
  · have hunregistered : tag ∉ l.mailboxes.types := h.types.symm ▸ htag
    have hpop (cancelled : Bool) : l.mailboxes.pop tag cancelled =
        .settled (.error (Mailboxes.unknownType tag)) :=
      Mailboxes.pop_eq_error_iff.mpr (.inl ⟨hunregistered, rfl⟩)
    simp [hpop, htag]

end Accounts

/-- **Mailboxes are independent bounded queues**, whatever is done to them and to their flag. Of
every tag the messages that have been popped are those that have been pushed, in the same order, up
to those that still wait, and no more of these wait than there is room for. A message is refused
just if its tag is not registered or its mailbox is full; a request is answered with the oldest
message, unless the tag is not registered, or the flag is raised or has been let go of, or none
waits. What is refused, cancelled or has to wait leaves all messages where they are. -/
theorem queues_of_play (capacity : ℕ) (types : List MessageType) (accesses : List (Access M)) :
    let l := (create capacity types : Ledger M).play accesses
    (∀ tag, popped tag l.history ++ queued tag l.history = pushed tag l.history ∧
      l.mailboxes.box tag = queued tag l.history ∧
      (queued tag l.history).length ≤ max 1 capacity) ∧
    (∀ m, l.reply (.push m) = .pushed
        (if Tagged.tag m ∉ types then .error (Mailboxes.unknownType (Tagged.tag m))
        else if (queued (Tagged.tag m) l.history).length = max 1 capacity then
          .error (Mailboxes.boxFull (Tagged.tag m))
        else .ok ())) ∧
    (∀ tag, l.reply (.pop tag) = .popped
        (if tag ∉ types then .settled (.error (Mailboxes.unknownType tag))
        else if cancelled l.history then .settled (.error .cancelled)
        else
          match queued tag l.history with
          | [] => .pending
          | m :: _ => .settled (.ok m))) ∧
    ∀ access, l.reply access ≠ .pushed (.ok ()) →
      (∀ m, l.reply access ≠ .popped (.settled (.ok m))) →
        (l.enter access).mailboxes = l.mailboxes := by
  intro l
  have accounts : l.Accounts capacity types := accounts_create.play accesses
  refine ⟨fun tag => ⟨?_, (accounts.queued_eq tag).symm, ?_⟩, accounts.reply_push,
    accounts.reply_pop, fun access pushed popped => ?_⟩
  · rw [accounts.queued_eq, accounts.box]
  · rw [accounts.queued_eq, ← accounts.capacity]
    exact accounts.room tag
  · exact (l.moves access).eq_of_leave pushed popped

end Ledger

end RankedKeys
