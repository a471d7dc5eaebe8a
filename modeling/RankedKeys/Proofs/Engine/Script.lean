import RankedKeys.Engine.Script
import RankedKeys.Proofs.Engine.Completion

/-!
# Tables of rounds that finish

A table of rounds runs to its end if each round that is visited gets the messages that it needs.
The messages may come in whenever they like, as long as the tags of the rounds increase: those of
later rounds wait for their turn, and each round gets its own in the order in which they came in.

## Main definitions

* `Script.Visits s visited`: the rounds on the way to the end of a table
* `Script.Fits round notes`: the messages that a round needs
* `Script.Complete peerCount types visited messages`: the messages that all rounds need

## Main results

* `Script.Visits.course`: the messages of the rounds, one round after the other, lead to the end
* `Script.finished_of_play`: a complete set of messages finishes the run in any order
-/

namespace RankedKeys

open Engine (Event Settles offered)

variable {V : Type}

/-- What a round notes of a message. -/
def Note.entry (m : Note V) : PartyId × V :=
  (m.sender, m.payload)

namespace Script

/-- **The rounds** on the way from the round in progress to the end of a table. -/
inductive Visits : Script V → List ScriptedRound → Prop
  | last {s : Script V} (ends : s.following? = none) : Visits s [s.round]
  | next {s : Script V} {index : ℕ} {round : ScriptedRound} {visited : List ScriptedRound}
    (follows : s.following? = some (index, round))
    (rest : Visits { s with index, round } visited) : Visits s (s.round :: visited)

/-- A round that does not fail with some messages. -/
structure Takes (round : ScriptedRound) (notes : List (Note V)) : Prop where
  crashes : ∀ m ∈ notes, m.sender ∉ round.crashes
  rejects : ∀ m ∈ notes, round.rejects.lookup m.sender = none
  closingCrashes : round.closingCrashes = false
  closingFails : round.closingFails = none

/-- **The messages that a round needs**, as many as it asks for, of different senders, none of
which makes it fail. -/
structure Fits (round : ScriptedRound) (notes : List (Note V)) : Prop where
  takes : Takes round notes
  quota_pos : 1 ≤ round.quota
  length : notes.length = round.quota
  distinct : (notes.map (·.sender)).Nodup

/-- **The messages that all rounds need**, where the tags of the rounds are registered and
increase. -/
structure Complete (peerCount : ℕ) (types : List MessageType) (visited : List ScriptedRound)
    (messages : List (Note V)) : Prop where
  increasing : visited.Pairwise (·.tag < ·.tag)
  registered : ∀ round ∈ visited, round.tag ∈ types
  quota_le : ∀ round ∈ visited, round.quota ≤ max 1 peerCount
  fits : ∀ round ∈ visited, Fits round (tagged messages round.tag)
  nothingElse : ∀ m ∈ messages, ∃ round ∈ visited, round.tag = m.tag

/-! ## One round -/

/-- What the script has noted when its round is closed. -/
def closed (s : Script V) : List (RoundNotes V) :=
  s.log ++ [⟨s.round.tag, s.seen⟩]

/-- The script that has noted one more message. -/
def noting (s : Script V) (m : Note V) : Script V :=
  { s with seen := s.seen ++ [m.entry] }

/-- The messages that lead to the end when a round is closed. -/
inductive Closes (output : List (RoundNotes V)) (s : Script V) : List (Note V) → Prop
  | last (ends : s.following? = none) (output_eq : output = s.closed) : Closes output s []
  | next {index : ℕ} {round : ScriptedRound} {later : List (Note V)}
    (follows : s.following? = some (index, round))
    (course : Course protocol output round.tag { s with index, round, seen := [], log := s.closed }
      0 later) : Closes output s later

theorem Takes.tail {round : ScriptedRound} {m : Note V} {notes : List (Note V)}
    (h : Takes round (m :: notes)) : Takes round notes where
  crashes m' hm' := h.crashes m' (List.mem_cons_of_mem m hm')
  rejects m' hm' := h.rejects m' (List.mem_cons_of_mem m hm')
  closingCrashes := h.closingCrashes
  closingFails := h.closingFails

/-- A round that has not heard of a sender has not handled it. -/
theorem handled_eq_false {s : Script V} {sender : PartyId} (fresh : sender ∉ s.seen.map (·.1)) :
    protocol.handled s sender = false := by
  have hany : s.seen.any (·.1 == sender) = false := by
    rw [List.any_eq_false]
    intro entry hentry heq
    exact fresh (beq_iff_eq.mp heq ▸ List.mem_map_of_mem hentry)
  show (!s.round.forgets && s.seen.any (·.1 == sender)) = false
  rw [hany, Bool.and_false]

/-- A round that can be closed leads to the next one, or to the output. -/
theorem close_eq {s : Script V} {notes : List (Note V)} (takes : Takes s.round notes) :
    protocol.close s = .ok ⟨[], match s.following? with
      | none => .done s.closed
      | some (index, round) => .next { s with index, round, seen := [], log := s.closed }⟩ := by
  show s.close = _
  unfold close
  rw [takes.closingCrashes, if_neg Bool.false_ne_true, takes.closingFails]
  rfl

/-- **What a message does** that its round takes. -/
theorem progress_eq {s : Script V} {m : Note V} {notes : List (Note V)}
    (takes : Takes s.round (m :: notes)) (fresh : m.sender ∉ s.seen.map (·.1))
    (tag : MessageType) (count : ℕ) :
    protocol.progress tag s count m =
      if count + 1 < s.round.quota then .goesOn tag (s.noting m) (count + 1)
      else
        match s.following? with
        | none => .ends (.ok (s.noting m).closed)
        | some (index, round) => .goesOn round.tag
            { s with index, round, seen := [], log := (s.noting m).closed } 0 := by
  have hhandled : protocol.handled s (Tagged.sender m) = false := handled_eq_false fresh
  have hhandle : protocol.handle s m = .ok (s.noting m) := by
    show s.take m = _
    unfold take
    rw [List.contains_eq_mem, decide_eq_false (takes.crashes m List.mem_cons_self),
      if_neg Bool.false_ne_true, takes.rejects m List.mem_cons_self]
    rfl
  have hclose := close_eq (s := s.noting m) takes
  rw [Protocol.progress, hhandled, if_neg Bool.false_ne_true, hhandle]
  dsimp only
  rw [hclose]
  dsimp only
  by_cases short : count + 1 < s.round.quota
  · rw [if_pos short]
    exact if_pos short
  · rw [if_neg short]
    refine (if_neg short).trans ?_
    have hfollowing : (s.noting m).following? = s.following? := rfl
    rw [hfollowing]
    cases s.following? with
    | none => rfl
    | some next => rfl

/-- **The messages of a round**, one after the other, lead to its end. -/
theorem course_of_takes {output : List (RoundNotes V)} {s : Script V} {count : ℕ}
    {notes later : List (Note V)} (takes : Takes s.round notes)
    (own : ∀ m ∈ notes, m.tag = s.round.tag)
    (distinct : (s.seen.map (·.1) ++ notes.map (·.sender)).Nodup)
    (length : count + notes.length = s.round.quota) (short : count < s.round.quota)
    (closes : Closes output { s with seen := s.seen ++ notes.map Note.entry } later) :
    Course protocol output s.round.tag s count (notes ++ later) := by
  induction notes generalizing s count with
  | nil => exact absurd length (Nat.ne_of_lt short)
  | cons m notes ih =>
    have hfresh : m.sender ∉ s.seen.map (·.1) := by
      intro hmem
      exact (List.nodup_append.mp distinct).2.2 _ hmem _ List.mem_cons_self rfl
    have hprogress := progress_eq takes hfresh s.round.tag count
    have hown : Tagged.tag m = s.round.tag := own m List.mem_cons_self
    rw [List.length_cons] at length
    by_cases hlast : count + 1 < s.round.quota
    · rw [if_pos hlast] at hprogress
      refine .more hown hprogress (ih (s := s.noting m) takes.tail ?_ ?_ ?_ hlast ?_)
      · exact fun m' hm' => own m' (List.mem_cons_of_mem m hm')
      · simpa [noting, Note.entry] using distinct
      · show count + 1 + notes.length = s.round.quota
        omega
      · simpa [noting] using closes
    · -- The last message closes the round.
      rw [if_neg hlast] at hprogress
      obtain rfl : notes = [] := List.eq_nil_of_length_eq_zero (by omega)
      cases closes with
      | last ends output_eq =>
        have hfollowing : s.following? = none := ends
        rw [hfollowing] at hprogress
        subst output_eq
        exact .last hown hprogress
      | next follows course =>
        have hfollowing : s.following? = some _ := follows
        rw [hfollowing] at hprogress
        exact .more hown hprogress course

/-! ## All rounds -/

/-- **The messages of all rounds**, one round after the other, lead to the end of the table. -/
theorem Visits.course {s : Script V} {visited : List ScriptedRound} (h : Visits s visited)
    {notes : MessageType → List (Note V)} (own : ∀ tag, ∀ m ∈ notes tag, m.tag = tag)
    (fits : ∀ round ∈ visited, Fits round (notes round.tag)) (log : List (RoundNotes V)) :
    Course protocol
      (log ++ visited.map fun round => ⟨round.tag, (notes round.tag).map Note.entry⟩)
      s.round.tag { s with seen := [], log } 0 (visited.flatMap fun round => notes round.tag) := by
  induction h generalizing log with
  | @last s ends =>
    have hfits := fits s.round List.mem_cons_self
    rw [List.flatMap_singleton]
    rw [← List.append_nil (notes s.round.tag)]
    refine course_of_takes (s := { s with seen := [], log }) hfits.takes (own _) ?_ ?_
      hfits.quota_pos ?_
    · exact hfits.distinct
    · rw [Nat.zero_add]
      exact hfits.length
    · exact .last ends rfl
  | @next s index round visited follows rest ih =>
    have hfits := fits s.round List.mem_cons_self
    rw [List.flatMap_cons]
    refine course_of_takes (s := { s with seen := [], log }) hfits.takes (own _) ?_ ?_
      hfits.quota_pos ?_
    · exact hfits.distinct
    · rw [Nat.zero_add]
      exact hfits.length
    · refine .next follows ?_
      have hrest := ih (fun r hr => fits r (List.mem_cons_of_mem _ hr))
        (log ++ [⟨s.round.tag, (notes s.round.tag).map Note.entry⟩])
      rw [List.append_assoc] at hrest
      exact hrest

/-- **The engine of a table** whose messages are complete is on its course. -/
theorem Complete.underway {peerCount : ℕ} {types : List MessageType} {s : Script V}
    {visited : List ScriptedRound} {messages : List (Note V)} (visits : s.Visits visited)
    (complete : Complete peerCount types visited messages) (selfId : PartyId) :
    Engine.Underway protocol
      (visited.map fun round => ⟨round.tag, (tagged messages round.tag).map Note.entry⟩)
      messages (visited.flatMap fun round => tagged messages round.tag)
      (Engine.create protocol selfId peerCount { s with seen := [], log := [] } types) := by
  have own : ∀ tag, ∀ m ∈ tagged messages tag, Tagged.tag m = tag := fun tag m => tag_of_mem_tagged
  have nodup : (visited.map (·.tag)).Nodup := by
    rw [List.nodup_iff_pairwise_ne, List.pairwise_map]
    exact complete.increasing.imp UInt32.ne_of_lt
  have missing : ∀ tag, (∀ round ∈ visited, round.tag ≠ tag) → tagged messages tag = [] := by
    intro tag hne
    refine tagged_eq_nil fun m hm heq => ?_
    obtain ⟨round, hround, htag⟩ := complete.nothingElse m hm
    exact hne round hround (htag.trans heq)
  have boxes : ∀ tag, tagged (visited.flatMap fun round => tagged messages round.tag) tag =
      tagged messages tag := by
    intro tag
    have hmap : (visited.flatMap fun round => tagged messages round.tag) =
        (visited.map (·.tag)).flatMap (tagged messages) := (List.flatMap_map ..).symm
    rw [hmap, tagged_flatMap_tagged nodup]
    split
    · rfl
    · rename_i hnot
      exact (missing tag fun round hround heq => hnot (List.mem_map.mpr ⟨round, hround, heq⟩)).symm
  refine ⟨rfl, .idle rfl (visits.course own complete.fits []), ?_, ?_, ?_, ?_⟩
  · exact fun tag => (boxes tag).symm
  · -- Within a round all tags are the same, and from round to round they increase.
    refine List.pairwise_flatMap.mpr ⟨fun round _ => ?_, complete.increasing.imp ?_⟩
    · refine List.pairwise_of_forall_mem_list fun m hm m' hm' => ?_
      rw [own _ m hm, own _ m' hm']
      exact UInt32.le_refl _
    · intro round round' hlt m hm m' hm'
      rw [own _ m hm, own _ m' hm']
      exact UInt32.le_of_lt hlt
  · intro m hm
    obtain ⟨round, hround, hm⟩ := List.mem_flatMap.mp hm
    rw [own _ m hm]
    exact complete.registered round hround
  · intro tag
    rw [boxes]
    by_cases htag : ∃ round ∈ visited, round.tag = tag
    · obtain ⟨round, hround, rfl⟩ := htag
      rw [(complete.fits round hround).length]
      exact complete.quota_le round hround
    · rw [missing tag fun round hround heq => htag ⟨round, hround, heq⟩]
      exact Nat.zero_le _

/-- **A complete set of messages** finishes a run, whenever its messages come in: none of them is
refused, and every round gets its own in the order in which they came in. -/
theorem finished_of_play {selfId : PartyId} {peerCount : ℕ} {types : List MessageType}
    {round : ScriptedRound} {rounds visited : List ScriptedRound} {events : List (Event (Note V))}
    (visits : (first round rounds : Script V).Visits visited) (settles : Settles events)
    (senders : ∀ sender m, .add sender m ∈ events → sender = m.sender)
    (complete : Complete peerCount types visited (offered events)) :
    (∀ before sender m after, events = before ++ .add sender m :: after →
      ∃ e, ((Engine.create protocol selfId peerCount (first round rounds) types).play
        protocol before).addMessage sender m = .ok e) ∧
    ((Engine.create protocol selfId peerCount (first round rounds) types).play
      protocol events).Finished (visited.map fun round =>
        ⟨round.tag, (tagged (offered events) round.tag).map fun m => (m.sender, m.payload)⟩) := by
  have hunderway := complete.underway visits selfId
  constructor
  · rintro before sender m after rfl
    exact hunderway.admits settles.proceeds senders
  · exact (Engine.standing_of_play protocol selfId peerCount (first round rounds) types
      events).finished (hunderway.finishes settles senders)

/-- A table of two rounds, each of which takes two messages. -/
def twoRounds : Script ℕ :=
  .first ⟨1, 2, [], [], none, false, false, .nextRow⟩ [⟨2, 2, [], [], none, false, false, .finish⟩]

/-- Messages of the second round arrive before the start and before the first round is over. -/
def outOfOrder : List (Event (Note ℕ)) :=
  [.add "c" ⟨"c", 2, 30⟩, .start, .turn, .add "b" ⟨"b", 1, 10⟩, .add "b" ⟨"b", 2, 31⟩, .turn,
    .add "c" ⟨"c", 1, 11⟩, .turn]

theorem finished_outOfOrder :
    ((Engine.create protocol "a" 2 twoRounds [1, 2]).play protocol outOfOrder).Finished
      [⟨1, [("b", 10), ("c", 11)]⟩, ⟨2, [("c", 30), ("b", 31)]⟩] := by
  have hvisits : twoRounds.Visits twoRounds.table := .next rfl (.last rfl)
  have hsettles : Settles outOfOrder := by
    refine ⟨?_, outOfOrder.dropLast, ?_, rfl⟩
    · simp [outOfOrder, Event.Proceeds]
    · simp [outOfOrder]
  have hsenders : ∀ sender m, .add sender m ∈ outOfOrder → sender = m.sender := by
    intro sender m hadd
    simp only [outOfOrder, List.mem_cons, reduceCtorEq, Event.add.injEq, List.not_mem_nil,
      false_or, or_false] at hadd
    rcases hadd with ⟨rfl, rfl⟩ | ⟨rfl, rfl⟩ | ⟨rfl, rfl⟩ | ⟨rfl, rfl⟩ <;> rfl
  have hcomplete : Complete 2 [1, 2] twoRounds.table (offered outOfOrder) := by
    refine ⟨?_, ?_, ?_, fun round hround => ?_, ?_⟩
    · simp [twoRounds, first]
    · simp [twoRounds, first]
    · simp [twoRounds, first]
    · simp only [twoRounds, first, List.mem_cons, List.not_mem_nil, or_false] at hround
      rcases hround with rfl | rfl
      all_goals
        exact ⟨⟨fun _ _ => List.not_mem_nil, fun _ _ => rfl, rfl, rfl⟩, by decide, rfl, by decide⟩
    · simp [outOfOrder, offered, twoRounds, first]
  exact (finished_of_play hvisits hsettles hsenders hcomplete).2

end Script

end RankedKeys
