import RankedKeys.Proofs.Engine.Mailboxes
import RankedKeys.Proofs.Keygen.Closing
import RankedKeys.Proofs.Keygen.Forgery

/-!
# Honest parties and their mailboxes

The parties of a session are known by name. Honest parties agree on the session, so that each takes
what the others send; some of the shares may be forged, and these are refused. In each round a party
has taken some of the messages that its peers have sent to it out of its mailbox, and the others
wait there; since no peer sends a round's message twice, there is always room for one more.

## Main definitions

* `Leg`: the two rounds of messages
* `Lineup`: the parties of a session, and which of their shares are forged
* `Lineup.Honest`: each party takes what the others send, and refuses what is forged
* `Lineup.Inbox`: which messages have been taken and which are waiting

## Main results

* `Lineup.Inbox.push`: a message that has not been sent before is put into its mailbox
* `Lineup.Inbox.pop`: what is taken out is the oldest message of a peer
-/

namespace RankedKeys

open Function (update update_self update_of_ne)

/-- The two rounds of messages. -/
inductive Leg where
  | commits
  | shares
  deriving DecidableEq

/-- The tag of the messages of a round. -/
def Leg.tag : Leg → MessageType
  | commits => commitTag
  | shares => shareTag

theorem Leg.tag_injective {leg leg' : Leg} (h : leg.tag = leg'.tag) : leg = leg' := by
  revert h
  cases leg <;> cases leg' <;> decide

variable {c : Curve}

/-- The parties of a session, and the shares that are forged. -/
structure Lineup (c : Curve) where
  ids : List PartyId
  dealer : PartyId → Dealer c
  threshold : ℕ
  /-- What comes from a sender to a receiver in place of the share, if that is forged. -/
  forged : PartyId → PartyId → Option Bytes := fun _ _ => none

namespace Lineup

variable (l : Lineup c)

/-- The peers of a party. -/
def others (id : PartyId) : List PartyId :=
  l.ids.filter (· != id)

/-- What a party sends to a peer in a round. -/
def letter (leg : Leg) (sender receiver : PartyId) : KeygenMessage :=
  match leg with
  | .commits => (l.dealer sender).commitMessage
  | .shares => (l.dealer sender).shareMessage receiver (l.dealer receiver).position

/-- What a peer gets of it. -/
def arrival (leg : Leg) (sender receiver : PartyId) : KeygenMessage :=
  (l.letter leg sender receiver).forge (l.forged sender receiver)

/-- What a party contributes to the first round. -/
def contribution (id : PartyId) : PeerCommit c :=
  (l.dealer id).ownCommit

/-- The contributions of all parties to the first round. -/
def committed : Roster (PeerCommit c) :=
  .gather l.contribution l.ids

/-- Whether the positions of all parties form a scheme. -/
def scheme : Except Error Unit :=
  checkValid l.threshold (l.committed.map (·.position)).values

/-- The share that a party is dealt by a peer. -/
def shareFor (receiver sender : PartyId) : c.Scalar :=
  (l.dealer receiver).position.evaluate (l.dealer sender).polynomial

/-- The shares that a party is dealt. -/
def dealtTo (id : PartyId) : Roster c.Scalar :=
  .gather (l.shareFor id) (l.others id)

/-- A round of a party that has taken the messages of some peers. -/
def roundAt (id : PartyId) (leg : Leg) (list : List PartyId) : Round c :=
  match leg with
  | .commits => .commits (l.dealer id) (.gather l.contribution list)
  | .shares => .shares (l.dealer id) l.committed (.gather (l.shareFor id) list)

/-- How a run that gets to the end of the second round ends. -/
inductive Closes (id : PartyId) : Except Error (KeyShare c) → Prop
  | fails {e : Error}
    (close : Round.closeShares (l.dealer id) l.committed (l.dealtTo id) = .error e) :
    Closes id (.error (.finalizeFailed e.message))
  | done {k : KeyShare c}
    (close : Round.closeShares (l.dealer id) l.committed (l.dealtTo id) = .ok ⟨[], .done k⟩) :
    Closes id (.ok k)

/-- **Honest parties** agree on the session; each takes what the others send, and refuses what is
forged. -/
structure Honest : Prop where
  nodup : l.ids.Nodup
  two_le : 2 ≤ l.ids.length
  selfId : ∀ id ∈ l.ids, (l.dealer id).config.selfId = id
  threshold : ∀ id ∈ l.ids, (l.dealer id).threshold = l.threshold
  peerCount : ∀ id ∈ l.ids, (l.dealer id).peerCount + 1 = l.ids.length
  takesCommit : ∀ id ∈ l.ids, ∀ x ∈ l.others id, ∀ received,
    (Round.commits (l.dealer id) received).handle (l.letter .commits x id) =
      .ok (.commits (l.dealer id) (received.insert x (l.contribution x)))
  takesShare : ∀ id ∈ l.ids, ∀ x ∈ l.others id, ∀ received,
    (Round.shares (l.dealer id) l.committed received).handle (l.letter .shares x id) =
      .ok (.shares (l.dealer id) l.committed (received.insert x (l.shareFor id x)))
  refusesForged : ∀ id ∈ l.ids, ∀ x ∈ l.others id, ∀ bytes, l.forged x id = some bytes →
    ∀ received, (Round.shares (l.dealer id) l.committed received).handle (l.arrival .shares x id) =
      .error (complaint c x bytes)

variable {l} {id x : PartyId}

theorem mem_others : x ∈ l.others id ↔ x ∈ l.ids ∧ x ≠ id := by
  simp [others]

theorem tag_arrival (leg : Leg) (x id : PartyId) : Tagged.tag (l.arrival leg x id) = leg.tag := by
  rw [arrival, KeygenMessage.tag_forge]
  cases leg <;> rfl

/-- Contributions are not forged. -/
theorem arrival_commits (x id : PartyId) : l.arrival .commits x id = l.letter .commits x id := by
  unfold arrival
  cases l.forged x id <;> rfl

theorem arrival_of_genuine (leg : Leg) (h : l.forged x id = none) :
    l.arrival leg x id = l.letter leg x id := by
  rw [arrival, h, KeygenMessage.forge_none]

namespace Honest

variable (honest : l.Honest) (hid : id ∈ l.ids)

include honest

theorem sender_arrival (hx : x ∈ l.ids) (leg : Leg) (y : PartyId) :
    Tagged.sender (l.arrival leg x y) = x := by
  rw [arrival, KeygenMessage.sender_forge]
  cases leg <;> exact honest.selfId x hx

include hid

theorem length_others : (l.others id).length = (l.dealer id).peerCount := by
  have hlength : (l.others id).length + 1 = l.ids.length := length_filter_ne honest.nodup hid
  have := honest.peerCount id hid
  omega

/-- No more peers send something than there are. -/
theorem length_le {list : List PartyId} (hlist : list.Nodup) (hsub : list ⊆ l.others id) :
    list.length ≤ (l.dealer id).peerCount := by
  rw [← honest.length_others hid]
  exact (List.subperm_of_subset hlist hsub).length_le

theorem mem_iff_of_length_eq {list : List PartyId} (hlist : list.Nodup)
    (hsub : list ⊆ l.others id) (hlength : list.length = (l.dealer id).peerCount) :
    x ∈ list ↔ x ∈ l.others id :=
  mem_iff_of_subset_of_length_le hlist hsub
    (Nat.le_of_eq ((honest.length_others hid).trans hlength.symm))

/-- The contributions of all peers and the own one are those of all parties. -/
theorem insert_gather {list : List PartyId} (hlist : list.Nodup) (hsub : list ⊆ l.others id)
    (hlength : list.length = (l.dealer id).peerCount) :
    (Roster.gather l.contribution list).insert (l.dealer id).config.selfId
      (l.dealer id).ownCommit = l.committed := by
  rw [honest.selfId id hid, ← contribution, ← Roster.gather_append_singleton]
  refine Roster.gather_congr _ fun x => ?_
  rw [List.mem_append, honest.mem_iff_of_length_eq hid hlist hsub hlength, mem_others,
    List.mem_singleton]
  by_cases hx : x = id
  · simp [hx, hid]
  · simp [hx]

theorem gather_shareFor {list : List PartyId} (hlist : list.Nodup) (hsub : list ⊆ l.others id)
    (hlength : list.length = (l.dealer id).peerCount) :
    Roster.gather (l.shareFor id) list = l.dealtTo id :=
  Roster.gather_congr _ fun _ => honest.mem_iff_of_length_eq hid hlist hsub hlength

end Honest

/-! ## The mailboxes of a party -/

/-- One more party has sent its messages of a round. -/
def extend (sent : Leg → PartyId → Prop) (leg : Leg) (x : PartyId) : Leg → PartyId → Prop :=
  fun leg' y => sent leg' y ∨ leg' = leg ∧ y = x

theorem extend_of_ne {sent : Leg → PartyId → Prop} {leg : Leg} (h : id ≠ x) :
    (extend sent leg x · id) = (sent · id) := by
  funext leg'
  simp [extend, h]

theorem extend_self {sent : Leg → PartyId → Prop} {leg leg' : Leg} :
    extend sent leg id leg' id ↔ sent leg' id ∨ leg' = leg := by
  simp [extend]

/-- **The messages of the peers** of a party: in each round it has taken some of those that have
been sent out of its mailbox, and the others wait, oldest first. -/
structure Inbox (l : Lineup c) (sent : Leg → PartyId → Prop) (id : PartyId)
    (taken waiting : Leg → List PartyId) (q : Mailboxes KeygenMessage) : Prop where
  capacity : q.capacity = max 1 (l.dealer id).peerCount
  types : q.types = [commitTag, shareTag]
  box : ∀ leg, q.box leg.tag = (waiting leg).map (l.arrival leg · id)
  nodup : ∀ leg, (taken leg ++ waiting leg).Nodup
  mem : ∀ leg x, x ∈ taken leg ++ waiting leg ↔ x ∈ l.others id ∧ sent leg x

namespace Inbox

variable {sent : Leg → PartyId → Prop} {taken waiting : Leg → List PartyId}
  {q q' : Mailboxes KeygenMessage}

theorem registered (h : l.Inbox sent id taken waiting q) (leg : Leg) : leg.tag ∈ q.types := by
  rw [h.types]
  cases leg <;> decide

theorem subset (h : l.Inbox sent id taken waiting q) (leg : Leg) :
    taken leg ++ waiting leg ⊆ l.others id :=
  fun x hx => ((h.mem leg x).mp hx).1

theorem nodup_taken (h : l.Inbox sent id taken waiting q) (leg : Leg) : (taken leg).Nodup :=
  (List.nodup_append.mp (h.nodup leg)).1

theorem taken_subset (h : l.Inbox sent id taken waiting q) (leg : Leg) :
    taken leg ⊆ l.others id :=
  fun _ hx => h.subset leg (List.mem_append_left _ hx)

theorem nodup_update {leg : Leg} {list : List PartyId}
    (h : l.Inbox sent id (update taken leg list) waiting q) : list.Nodup := by
  have hnodup := h.nodup_taken leg
  rwa [update_self] at hnodup

theorem update_subset {leg : Leg} {list : List PartyId}
    (h : l.Inbox sent id (update taken leg list) waiting q) : list ⊆ l.others id := by
  have hsub := h.taken_subset leg
  rwa [update_self] at hsub

theorem length_le (h : l.Inbox sent id taken waiting q) (honest : l.Honest) (hid : id ∈ l.ids)
    (leg : Leg) : (taken leg ++ waiting leg).length ≤ (l.dealer id).peerCount :=
  honest.length_le hid (h.nodup leg) (h.subset leg)

/-- What a party itself sends is none of its own messages. -/
theorem congr {sent' : Leg → PartyId → Prop} (h : l.Inbox sent id taken waiting q)
    (hsent : ∀ leg x, x ≠ id → (sent' leg x ↔ sent leg x)) :
    l.Inbox sent' id taken waiting q := by
  refine ⟨h.capacity, h.types, h.box, h.nodup, fun leg x => (h.mem leg x).trans ?_⟩
  exact and_congr_right fun hx => (hsent leg x (mem_others.mp hx).2).symm

/-- A peer that has not sent its message of a round yet adds one that does not repeat. -/
theorem nodup_append_singleton (h : l.Inbox sent id taken waiting q) {leg : Leg}
    (fresh : ¬ sent leg x) : (taken leg ++ (waiting leg ++ [x])).Nodup := by
  have hnot : x ∉ taken leg ++ waiting leg := fun hmem => fresh ((h.mem leg x).mp hmem).2
  rw [← List.append_assoc]
  refine List.nodup_append.mpr ⟨h.nodup leg, List.nodup_singleton x, ?_⟩
  rintro y hy _ hyx rfl
  rw [List.mem_singleton.mp hyx] at hy
  exact hnot hy

/-- **There is room** for the message of a peer that has not sent it yet. -/
theorem length_lt (h : l.Inbox sent id taken waiting q) (honest : l.Honest) (hid : id ∈ l.ids)
    {leg : Leg} (hx : x ∈ l.others id) (fresh : ¬ sent leg x) :
    (taken leg ++ waiting leg).length < (l.dealer id).peerCount := by
  have hsub : taken leg ++ (waiting leg ++ [x]) ⊆ l.others id := by
    rw [← List.append_assoc]
    exact List.append_subset.mpr ⟨h.subset leg, List.cons_subset.mpr ⟨hx, List.nil_subset _⟩⟩
  -- One sender more is still no more than there are peers.
  have hle := honest.length_le hid (h.nodup_append_singleton fresh) hsub
  simp only [List.length_append, List.length_singleton] at hle ⊢
  omega

/-- **A message** that is sent for the first time is put into its mailbox. -/
theorem push (h : l.Inbox sent id taken waiting q) (honest : l.Honest) (hid : id ∈ l.ids)
    {leg : Leg} (hx : x ∈ l.others id) (fresh : ¬ sent leg x) :
    ∃ q', q.push (l.arrival leg x id) = .ok q' ∧
      l.Inbox (extend sent leg x) id taken (update waiting leg (waiting leg ++ [x])) q' := by
  have hregistered : Tagged.tag (l.arrival leg x id) ∈ q.types := by
    rw [tag_arrival]
    exact h.registered leg
  have hroom : (q.box (Tagged.tag (l.arrival leg x id))).length < q.capacity := by
    have hlt := h.length_lt honest hid hx fresh
    rw [tag_arrival, h.box leg, List.length_map, h.capacity]
    rw [List.length_append] at hlt
    omega
  obtain ⟨q', hpush, pushed⟩ := Mailboxes.pushed_of_room hregistered hroom
  refine ⟨q', hpush, pushed.capacity.trans h.capacity, pushed.types.trans h.types,
    fun leg' => ?_, fun leg' => ?_, fun leg' y => ?_⟩
  · -- the message is last in its mailbox, and the other mailbox is as it was
    rcases eq_or_ne leg' leg with rfl | hne
    · have hself := pushed.box_self
      rw [tag_arrival] at hself
      rw [hself, h.box, update_self, List.map_append, List.map_singleton]
    · rw [update_of_ne hne, ← h.box]
      refine pushed.box_of_ne _ fun heq => hne ?_
      rw [tag_arrival] at heq
      exact Leg.tag_injective heq
  · -- no peer has sent two messages of a round
    rcases eq_or_ne leg' leg with rfl | hne
    · rw [update_self]
      exact h.nodup_append_singleton fresh
    · rw [update_of_ne hne]
      exact h.nodup leg'
  · -- the messages that were taken or wait are those that have been sent
    rcases eq_or_ne leg' leg with rfl | hne
    · rw [update_self, ← List.append_assoc, List.mem_append, h.mem, List.mem_singleton, extend]
      constructor
      · rintro (⟨hy, hsent⟩ | rfl)
        · exact ⟨hy, .inl hsent⟩
        · exact ⟨hx, .inr ⟨rfl, rfl⟩⟩
      · rintro ⟨hy, hsent | ⟨-, rfl⟩⟩
        · exact .inl ⟨hy, hsent⟩
        · exact .inr rfl
    · rw [update_of_ne hne, h.mem]
      simp [extend, hne]

/-- **The oldest message** of a round is taken out. -/
theorem pop (h : l.Inbox sent id taken waiting q) {leg : Leg} {cancelled : Bool}
    {m : KeygenMessage} (hpop : q.pop leg.tag cancelled = .settled (.ok (m, q'))) :
    ∃ x rest, m = l.arrival leg x id ∧ x ∈ l.others id ∧ x ∉ taken leg ∧
      l.Inbox sent id (update taken leg (taken leg ++ [x])) (update waiting leg rest) q' := by
  have popped := Mailboxes.popped_of_pop hpop
  have hbox := popped.box_self
  rw [h.box leg] at hbox
  obtain ⟨x, rest, hwaiting, rfl, hrest⟩ := List.map_eq_cons_iff.mp hbox
  -- The message moves from those that wait to those that were taken, and nothing else changes.
  have hsplit : ∀ leg', update taken leg (taken leg ++ [x]) leg' ++ update waiting leg rest leg' =
      taken leg' ++ waiting leg' := by
    intro leg'
    rcases eq_or_ne leg' leg with rfl | hne
    · rw [update_self, update_self, hwaiting, List.append_assoc, List.singleton_append]
    · rw [update_of_ne hne, update_of_ne hne]
  have hnodup := h.nodup leg
  rw [hwaiting] at hnodup
  refine ⟨x, rest, rfl, h.subset leg (by simp [hwaiting]), fun hmem => ?_,
    popped.capacity.trans h.capacity, popped.types.trans h.types, fun leg' => ?_,
    fun leg' => ?_, fun leg' y => ?_⟩
  · exact (List.nodup_append.mp hnodup).2.2 x hmem x List.mem_cons_self rfl
  · rcases eq_or_ne leg' leg with rfl | hne
    · rw [update_self, hrest]
    · rw [update_of_ne hne, ← h.box]
      exact popped.box_of_ne _ fun heq => hne (Leg.tag_injective heq)
  · rw [hsplit]
    exact h.nodup leg'
  · rw [hsplit]
    exact h.mem leg' y

end Inbox

end Lineup

end RankedKeys
