import RankedKeys.Keygen.Party
import RankedKeys.Proofs.Engine.Run
import RankedKeys.Proofs.Keygen.Lineup

/-!
# The stages of a party among honest peers

Among honest peers a party fills its first round with their contributions, deals its shares, fills
the second round, and ends; it ends early if the positions form no scheme, and at the first forged
share. Which messages have come in, and in which order, depends on the peers, and shares come in
during the first round as well; where the party gets to does not depend on it.

## Main definitions

* `Lineup.Filling`: a round in progress that is not full
* `Lineup.Settles`: how a run ends that gets to the second round
* `Lineup.Phase`, `Lineup.Stage`: how far a party has come
* `Lineup.Fills`: the moves of a consumer in a round that is not full
* `Lineup.Advances`: where a move leads

## Main results

* `Lineup.Stage.accepts`: a message that has not been sent before is taken in
* `Lineup.Stage.advances`: every move of the consumer leads to a stage
* `Lineup.Stage.rests`: where a party is that has nothing to do
-/

namespace RankedKeys

open Function (update update_self update_of_ne)

variable {c : Curve}

namespace Lineup

variable {l : Lineup c} {id x : PartyId}

/-! ## Stages -/

/-- The engines of key generation. -/
abbrev KeygenEngine (c : Curve) : Type :=
  Engine (Round c) KeygenMessage (KeyShare c)

/-- None of the messages of some peers is a share that is forged. -/
def Genuine (l : Lineup c) (id : PartyId) (leg : Leg) (list : List PartyId) : Prop :=
  leg = .shares → ∀ x ∈ list, l.forged x id = none

/-- **A round in progress** that has taken the messages of some peers, none of them forged, and needs
more. -/
structure Filling (l : Lineup c) (id : PartyId) (leg : Leg) (list : List PartyId)
    (e : KeygenEngine c) : Prop where
  tag : e.tag = leg.tag
  running : e.running = true
  short : list.length < (l.dealer id).peerCount
  genuine : l.Genuine id leg list
  progress : e.inProgress = some (l.roundAt id leg list, list.length)

/-- **How a run ends** that gets to the second round: at the first forged share, or with the end of
the round if there is none. -/
inductive Settles (l : Lineup c) (id : PartyId) : Except Error (KeyShare c) → Prop
  | refuses {x : PartyId} {bytes : Bytes} (hx : x ∈ l.others id)
    (forged : l.forged x id = some bytes) :
    Settles l id (.error (.handlerValidationFailed x (complaint c x bytes).message))
  | closes {r : Except Error (KeyShare c)} (genuine : ∀ x ∈ l.others id, l.forged x id = none)
    (closes : l.Closes id r) : Settles l id r

/-- **How far a party has come** that has taken some messages: which rounds it has sent the messages
of, and how its consumer stands. -/
inductive Phase (l : Lineup c) (id : PartyId) (sent : Leg → Prop) (taken : Leg → List PartyId)
    (e : KeygenEngine c) : Prop
  | idle (commits : taken .commits = []) (shares : taken .shares = []) (unsent : ¬ sent .commits)
    (undealt : ¬ sent .shares) (tag : e.tag = commitTag) (live : e.live = true)
    (consumer : e.consumer = .unstarted (.commits (l.dealer id) .empty))
  | gathering (shares : taken .shares = []) (begun : sent .commits) (undealt : ¬ sent .shares)
    (filling : l.Filling id .commits (taken .commits) e)
  | failed {error : Error} (begun : sent .commits) (undealt : ¬ sent .shares)
    (tag : e.tag = commitTag) (consumer : e.consumer = .ended) (scheme : l.scheme = .error error)
    (outcome : e.outcome = some (.error (.finalizeFailed error.message)))
  | sharing (full : (taken .commits).length = (l.dealer id).peerCount) (begun : sent .commits)
    (dealt : sent .shares) (scheme : l.scheme = .ok ())
    (filling : l.Filling id .shares (taken .shares) e)
  | ended {r : Except Error (KeyShare c)}
    (full : (taken .commits).length = (l.dealer id).peerCount) (begun : sent .commits)
    (dealt : sent .shares) (tag : e.tag = shareTag) (consumer : e.consumer = .ended)
    (scheme : l.scheme = .ok ()) (settles : l.Settles id r) (outcome : e.outcome = some r)

/-- **A stage** of a party: how far it has come, and the messages that wait. -/
inductive Stage (l : Lineup c) (sent : Leg → PartyId → Prop) (id : PartyId)
    (e : KeygenEngine c) : Prop
  | mk {taken waiting : Leg → List PartyId} (inbox : l.Inbox sent id taken waiting e.mailboxes)
    (phase : l.Phase id (sent · id) taken e)

variable {sent : Leg → PartyId → Prop}

theorem Genuine.commits (l : Lineup c) (id : PartyId) (list : List PartyId) :
    l.Genuine id .commits list :=
  fun h => nomatch h

theorem Genuine.nil (l : Lineup c) (id : PartyId) (leg : Leg) : l.Genuine id leg [] :=
  fun _ _ h => nomatch h

theorem Genuine.append {leg : Leg} {list list' : List PartyId} (h : l.Genuine id leg list)
    (h' : l.Genuine id leg list') : l.Genuine id leg (list ++ list') := by
  intro shares x hx
  exact (List.mem_append.mp hx).elim (h shares x) (h' shares x)

namespace Filling

variable {leg : Leg} {list : List PartyId} {e : KeygenEngine c}

theorem live (h : l.Filling id leg list e) : e.live = true := by
  have progress := h.progress
  unfold Engine.inProgress at progress
  split at progress
  · assumption
  · cases progress

theorem withMailboxes (h : l.Filling id leg list e) (mailboxes : Mailboxes KeygenMessage) :
    l.Filling id leg list { e with mailboxes } :=
  ⟨h.tag, h.running, h.short, h.genuine, h.progress⟩

end Filling

namespace Phase

variable {mine : Leg → Prop} {taken : Leg → List PartyId} {e : KeygenEngine c}

/-- How far a party has come does not depend on the messages that wait. -/
theorem withMailboxes (h : l.Phase id mine taken e) (mailboxes : Mailboxes KeygenMessage) :
    l.Phase id mine taken { e with mailboxes } := by
  cases h with
  | idle commits shares unsent undealt tag live consumer =>
    exact .idle commits shares unsent undealt tag live consumer
  | gathering shares begun undealt filling =>
    exact .gathering shares begun undealt (filling.withMailboxes mailboxes)
  | failed begun undealt tag consumer scheme outcome =>
    exact .failed begun undealt tag consumer scheme outcome
  | sharing full begun dealt scheme filling =>
    exact .sharing full begun dealt scheme (filling.withMailboxes mailboxes)
  | ended full begun dealt tag consumer scheme settles outcome =>
    exact .ended full begun dealt tag consumer scheme settles outcome

/-- A round is not over before it has all its messages. -/
theorem not_tag_lt (h : l.Phase id mine taken e) (leg : Leg)
    (short : (taken .commits).length < (l.dealer id).peerCount ∨ leg = .shares) :
    ¬ leg.tag < e.tag := by
  -- In the first round nothing is stale, and in the second only the contributions.
  have first : ∀ leg : Leg, ¬ leg.tag < commitTag := by
    intro leg
    cases leg <;> decide
  have second : (taken .commits).length = (l.dealer id).peerCount → ¬ leg.tag < shareTag := by
    intro full
    obtain rfl := short.resolve_left (Nat.not_lt.mpr (Nat.le_of_eq full.symm))
    decide
  cases h with
  | idle _ _ _ _ tag => exact tag ▸ first leg
  | gathering _ _ _ filling => exact filling.tag ▸ first leg
  | failed _ _ tag => exact tag ▸ first leg
  | sharing full _ _ _ filling => exact filling.tag ▸ second full
  | ended full _ _ tag => exact tag ▸ second full

end Phase

namespace Stage

/-- A party that has not been started, when nobody has sent anything. -/
theorem ofDealer (l : Lineup c) {view : PeerView}
    (peers : view.peers.length = (l.dealer id).peerCount) :
    l.Stage (fun _ _ => False) id (Party.ofDealer (l.dealer id) view).engine := by
  have inbox : l.Inbox (fun _ _ => False) id (fun _ => []) (fun _ => [])
      (Party.ofDealer (l.dealer id) view).engine.mailboxes :=
    ⟨congrArg (max 1) peers, rfl, fun _ => rfl, fun _ => .nil, by simp⟩
  exact ⟨inbox, .idle rfl rfl not_false not_false rfl rfl rfl⟩

variable {e : KeygenEngine c}

/-- **A peer** that sends its message of a round for the first time gets it taken in. -/
theorem accepts (h : l.Stage sent id e) (honest : l.Honest) (hid : id ∈ l.ids) {leg : Leg}
    (hx : x ∈ l.others id) (fresh : ¬ sent leg x) :
    ∃ e', e.addMessage x (l.arrival leg x id) = .ok e' ∧ l.Stage (extend sent leg x) id e' := by
  obtain ⟨inbox, phase⟩ := h
  rename_i taken waiting
  have room := inbox.length_lt honest hid hx fresh
  obtain ⟨q', hpush, hinbox⟩ := inbox.push honest hid hx fresh
  -- A contribution is never stale: the first round is not over while one is missing.
  have hstale : ¬ leg.tag < e.tag := by
    refine phase.not_tag_lt leg ?_
    cases leg with
    | commits =>
      rw [List.length_append] at room
      exact .inl (by omega)
    | shares => exact .inr rfl
  obtain ⟨hmem, hne⟩ := mem_others.mp hx
  refine ⟨{ e with mailboxes := q' }, ?_, hinbox, ?_⟩
  · refine Engine.addMessage_eq_ok_iff.mpr
      ⟨(honest.sender_arrival hmem leg id).symm, ?_, q', hpush, rfl⟩
    rw [tag_arrival]
    exact UInt32.not_lt.mp hstale
  · rw [extend_of_ne hne.symm]
    exact phase.withMailboxes q'

/-- A party that is started is in its first round, whatever waits already. -/
theorem start (h : l.Stage sent id e) (honest : l.Honest) (hid : id ∈ l.ids)
    (fresh : ¬ sent .commits id) : l.Stage (extend sent .commits id) id e.start := by
  obtain ⟨inbox, phase⟩ := h
  cases phase with
  | idle commits shares unsent undealt tag live consumer =>
    have hstart : e.start = { e with
        consumer := .spawned (.commits (l.dealer id) .empty), running := true } := by
      simp [Engine.start, consumer]
    rw [hstart]
    refine ⟨inbox.congr fun leg x hx => by simp [extend, hx], ?_⟩
    refine .gathering shares ?_ ?_ ⟨tag, rfl, ?_, .commits l id _, ?_⟩
    · exact extend_self.mpr (.inr rfl)
    · intro h
      rcases extend_self.mp h with h | h
      · exact undealt h
      · cases h
    · have hcount := honest.peerCount id hid
      have htwo := honest.two_le
      rw [commits, List.length_nil]
      omega
    · rw [commits]
      simp [Engine.inProgress, live, roundAt]
  -- In all other phases the announcement has been sent.
  | gathering _ begun => exact absurd begun fresh
  | failed begun => exact absurd begun fresh
  | sharing _ begun => exact absurd begun fresh
  | ended _ begun => exact absurd begun fresh

end Stage

/-! ## A round that is not full -/

section Fills

variable {taken waiting : Leg → List PartyId} {e : KeygenEngine c} {leg : Leg}

theorem quota_roundAt (id : PartyId) (leg : Leg) (list : List PartyId) :
    (Round.protocol c).quota (l.roundAt id leg list) = (l.dealer id).peerCount := by
  cases leg <;> rfl

theorem handled_roundAt {list : List PartyId} (h : x ∉ list) :
    (Round.protocol c).handled (l.roundAt id leg list) x = false := by
  refine Bool.eq_false_iff.mpr fun h' => h ?_
  cases leg <;> exact (Roster.mem_ids_gather _).mp (Roster.contains_iff.mp h')

/-- **What a peer sends** is taken in, unless it is a share that is forged; that is refused. -/
theorem Honest.handle_arrival (honest : l.Honest) (hid : id ∈ l.ids) (hx : x ∈ l.others id)
    (leg : Leg) (list : List PartyId) :
    (l.Genuine id leg [x] ∧ (Round.protocol c).handle (l.roundAt id leg list) (l.arrival leg x id) =
      .ok (l.roundAt id leg (list ++ [x]))) ∨
    leg = .shares ∧ ∃ bytes, l.forged x id = some bytes ∧
      (Round.protocol c).handle (l.roundAt id leg list) (l.arrival leg x id) =
        .error (.error (complaint c x bytes)) := by
  cases leg with
  | commits =>
    refine .inl ⟨.commits l id _, mapError_eq_ok_iff.mpr ?_⟩
    rw [roundAt, roundAt, arrival_commits, honest.takesCommit id hid x hx,
      Roster.gather_append_singleton]
  | shares =>
    cases hforged : l.forged x id with
    | none =>
      refine .inl ⟨fun _ _ hmem => List.mem_singleton.mp hmem ▸ hforged, mapError_eq_ok_iff.mpr ?_⟩
      rw [roundAt, roundAt, arrival_of_genuine _ hforged, honest.takesShare id hid x hx,
        Roster.gather_append_singleton]
    | some bytes =>
      exact .inr ⟨rfl, bytes, rfl, mapError_eq_error_iff.mpr
        ⟨_, honest.refusesForged id hid x hx bytes hforged _, rfl⟩⟩

/-- The engine of a party whose round has taken the messages of some peers. -/
def filled (l : Lineup c) (id : PartyId) (e : KeygenEngine c) (mailboxes : Mailboxes KeygenMessage)
    (leg : Leg) (list : List PartyId) : KeygenEngine c :=
  { e with mailboxes, consumer := .active (l.roundAt id leg list) list.length }

theorem Filling.filled {list list' : List PartyId} (h : l.Filling id leg list e)
    (mailboxes : Mailboxes KeygenMessage) (short : list'.length < (l.dealer id).peerCount)
    (genuine : l.Genuine id leg list') :
    l.Filling id leg list' (l.filled id e mailboxes leg list') :=
  ⟨h.tag, h.running, short, genuine, by simp [Lineup.filled, Engine.inProgress, h.live]⟩

/-- **The moves** of a consumer in a round that is not full. -/
inductive Fills (l : Lineup c) (sent : Leg → PartyId → Prop) (id : PartyId)
    (taken waiting : Leg → List PartyId) (leg : Leg) (e : KeygenEngine c) :
    Move (Round c) KeygenMessage (KeyShare c) → Prop
  | rest : Fills l sent id taken waiting leg e .rest
  | wakes {e' : KeygenEngine c} (mailboxes : e'.mailboxes = e.mailboxes)
    (filling : l.Filling id leg (taken leg) e') : Fills l sent id taken waiting leg e (.moved e')
  | refuses {x : PartyId} {bytes : Bytes} {rest : List PartyId} {mailboxes : Mailboxes KeygenMessage}
    (inbox : l.Inbox sent id (update taken leg (taken leg ++ [x])) (update waiting leg rest)
      mailboxes)
    (shares : leg = .shares) (hx : x ∈ l.others id) (forged : l.forged x id = some bytes) :
    Fills l sent id taken waiting leg e (.moved (Engine.finish { e with mailboxes }
      (.error (.handlerValidationFailed x (complaint c x bytes).message))))
  | takes {list rest : List PartyId} {mailboxes : Mailboxes KeygenMessage}
    (inbox : l.Inbox sent id (update taken leg list) (update waiting leg rest) mailboxes)
    (genuine : l.Genuine id leg list) (short : list.length < (l.dealer id).peerCount) :
    Fills l sent id taken waiting leg e (.moved (l.filled id e mailboxes leg list))
  | fails {list rest : List PartyId} {mailboxes : Mailboxes KeygenMessage} {error : Error}
    (inbox : l.Inbox sent id (update taken leg list) (update waiting leg rest) mailboxes)
    (genuine : l.Genuine id leg list) (full : list.length = (l.dealer id).peerCount)
    (close : (l.roundAt id leg list).close = .error error) :
    Fills l sent id taken waiting leg e
      (.moved ((l.filled id e mailboxes leg list).finish (.error (.finalizeFailed error.message))))
  | closes {list rest : List PartyId} {mailboxes : Mailboxes KeygenMessage}
    {closing : Closing (Round c) KeygenMessage (KeyShare c)}
    (inbox : l.Inbox sent id (update taken leg list) (update waiting leg rest) mailboxes)
    (genuine : l.Genuine id leg list) (full : list.length = (l.dealer id).peerCount)
    (close : (l.roundAt id leg list).close = .ok closing) :
    Fills l sent id taken waiting leg e (.handOver (l.filled id e mailboxes leg list) closing)

/-- **What a round takes out** of its mailbox is the message of a peer that it has not heard: it takes
it in, or it refuses a share that is forged. -/
theorem Inbox.takes_of_pops (inbox : l.Inbox sent id taken waiting e.mailboxes)
    (honest : l.Honest) (hid : id ∈ l.ids) (filling : l.Filling id leg (taken leg) e)
    {round : Round c} {count : ℕ} {m : KeygenMessage} {mailboxes : Mailboxes KeygenMessage}
    (pops : e.Pops round count m mailboxes) :
    ∃ x rest, x ∈ l.others id ∧ Tagged.sender m = x ∧ count = (taken leg).length ∧
      (Round.protocol c).handled round x = false ∧
      l.Inbox sent id (update taken leg (taken leg ++ [x])) (update waiting leg rest) mailboxes ∧
      ((l.Genuine id leg (taken leg ++ [x]) ∧
        (Round.protocol c).handle round m = .ok (l.roundAt id leg (taken leg ++ [x]))) ∨
      leg = .shares ∧ ∃ bytes, l.forged x id = some bytes ∧
        (Round.protocol c).handle round m = .error (.error (complaint c x bytes))) := by
  have hround := pops.inProgress
  rw [filling.progress] at hround
  cases hround
  -- What is popped is the message of a peer that has not been heard in this round.
  have hpop := pops.pop
  rw [filling.tag] at hpop
  obtain ⟨x, rest, rfl, hx, hnot, hinbox⟩ := inbox.pop hpop
  refine ⟨x, rest, hx, honest.sender_arrival (mem_others.mp hx).1 leg id, rfl,
    handled_roundAt hnot, hinbox, ?_⟩
  rcases honest.handle_arrival hid hx leg (taken leg) with ⟨genuine, hhandle⟩ | hforged
  · exact .inl ⟨filling.genuine.append genuine, hhandle⟩
  · exact .inr hforged

/-- **A round** that is not full takes a message that waits, unless it is forged, and is closed when
it is full. -/
theorem Inbox.fills (inbox : l.Inbox sent id taken waiting e.mailboxes) (honest : l.Honest)
    (hid : id ∈ l.ids) (filling : l.Filling id leg (taken leg) e) :
    l.Fills sent id taken waiting leg e (e.advance (Round.protocol c)) := by
  -- The engine after one more message, and when it has all of them.
  have hfilled : ∀ (mailboxes : Mailboxes KeygenMessage) (x : PartyId),
      { e with
        mailboxes
        consumer := .active (l.roundAt id leg (taken leg ++ [x])) ((taken leg).length + 1) } =
      l.filled id e mailboxes leg (taken leg ++ [x]) := by
    intro mailboxes x
    rw [Lineup.filled, List.length_append]
    rfl
  have hfull : ∀ x, (Round.protocol c).quota (l.roundAt id leg (taken leg ++ [x])) ≤
      (taken leg).length + 1 → (taken leg ++ [x]).length = (l.dealer id).peerCount := by
    intro x enough
    have short := filling.short
    rw [quota_roundAt] at enough
    rw [List.length_append, List.length_singleton]
    omega
  -- What is taken in is not forged.
  have htakes : ∀ {round round' : Round c} {count : ℕ} {m : KeygenMessage}
      {mailboxes : Mailboxes KeygenMessage}, e.Pops round count m mailboxes →
      (Round.protocol c).handle round m = .ok round' → ∃ x rest, count = (taken leg).length ∧
        l.Inbox sent id (update taken leg (taken leg ++ [x])) (update waiting leg rest) mailboxes ∧
        l.Genuine id leg (taken leg ++ [x]) ∧ round' = l.roundAt id leg (taken leg ++ [x]) := by
    intro round round' count m mailboxes pops handle
    obtain ⟨x, rest, -, -, hcount, -, hinbox, ⟨genuine, hhandle⟩ | ⟨-, bytes, -, hhandle⟩⟩ :=
      inbox.takes_of_pops honest hid filling pops
    · exact ⟨x, rest, hcount, hinbox, genuine, Except.ok.inj (handle.symm.trans hhandle)⟩
    · cases handle.symm.trans hhandle
  have moves := Engine.moves_advance (Round.protocol c) e
  generalize e.advance (Round.protocol c) = move at moves ⊢
  cases moves with
  | rest => exact .rest
  | wakes spawned live =>
    refine .wakes rfl ⟨filling.tag, filling.running, filling.short, filling.genuine,
      filling.progress.symm ▸ ?_⟩
    simp [Engine.inProgress, spawned, live]
  | breaksOff _ pop =>
    -- The mailbox is registered and nobody stops the consumer.
    rw [filling.tag, filling.running] at pop
    exact absurd pop (Mailboxes.pop_ne_error (inbox.registered leg) _)
  | repeated pops handled =>
    -- No peer is heard twice.
    obtain ⟨x, rest, -, hsender, -, fresh, -⟩ := inbox.takes_of_pops honest hid filling pops
    rw [hsender, fresh] at handled
    cases handled
  | refuses pops _ handle =>
    -- Nothing is refused but what is forged.
    obtain ⟨x, rest, hx, hsender, -, -, hinbox, ⟨-, hhandle⟩ | ⟨shares, bytes, forged, hhandle⟩⟩ :=
      inbox.takes_of_pops honest hid filling pops
    · rw [hhandle] at handle
      cases handle
    · rw [hhandle] at handle
      cases handle
      rw [hsender]
      exact .refuses hinbox shares hx forged
  | takes pops _ handle more =>
    obtain ⟨x, rest, rfl, hinbox, genuine, rfl⟩ := htakes pops handle
    rw [quota_roundAt] at more
    rw [hfilled]
    exact .takes hinbox genuine (by rwa [List.length_append])
  | failsToClose pops _ handle enough close =>
    obtain ⟨x, rest, rfl, hinbox, genuine, rfl⟩ := htakes pops handle
    obtain ⟨error, hclose, rfl⟩ := mapError_eq_error_iff.mp close
    rw [hfilled]
    exact .fails hinbox genuine (hfull _ enough) hclose
  | closes pops _ handle enough close =>
    obtain ⟨x, rest, rfl, hinbox, genuine, rfl⟩ := htakes pops handle
    rw [hfilled]
    exact .closes hinbox genuine (hfull _ enough) (mapError_eq_ok_iff.mp close)

end Fills

/-! ## Moves -/

/-- **Where a move leads**: to a stage; if the first round is closed, after the shares are dealt. -/
inductive Advances (l : Lineup c) (sent : Leg → PartyId → Prop) (id : PartyId) :
    Move (Round c) KeygenMessage (KeyShare c) → Prop
  | rest : Advances l sent id .rest
  | moved {e : KeygenEngine c} (stage : l.Stage sent id e) : Advances l sent id (.moved e)
  | deals {e : KeygenEngine c} {receivers : List PartyId} {round : Round c}
    (undealt : ¬ sent .shares id) (nodup : receivers.Nodup)
    (mem : ∀ x, x ∈ receivers ↔ x ∈ l.others id)
    (stage : l.Stage (extend sent .shares id) id
      (e.conclude (Round.protocol c) (.ok ()) (.next round))) :
    Advances l sent id
      (.handOver e ⟨receivers.map fun x => (x, l.letter .shares id x), .next round⟩)
  | ends {e : KeygenEngine c} {k : KeyShare c}
    (stage : l.Stage sent id (e.conclude (Round.protocol c) (.ok ()) (.done k))) :
    Advances l sent id (.handOver e ⟨[], .done k⟩)

section Advances

variable {taken waiting : Leg → List PartyId} {e : KeygenEngine c}

/-- The end of the first round. -/
theorem Honest.close_commits (honest : l.Honest) (hid : id ∈ l.ids) {list : List PartyId}
    (hlist : list.Nodup) (hsub : list ⊆ l.others id)
    (hlength : list.length = (l.dealer id).peerCount) :
    (l.roundAt id .commits list).close =
      match l.scheme with
      | .error error => .error error
      | .ok () => .ok ⟨(Roster.gather l.contribution list).ids.map fun x =>
          (x, l.letter .shares id x), .next (l.roundAt id .shares [])⟩ := by
  -- With all contributions, every party makes the same check of the positions.
  have hall := honest.insert_gather hid hlist hsub hlength
  have houtbox : Round.dealt (l.dealer id) (.gather l.contribution list) =
      (Roster.gather l.contribution list).ids.map fun x => (x, l.letter .shares id x) := by
    rw [Round.dealt, Roster.entries_gather, List.map_map]
    rfl
  cases hscheme : l.scheme with
  | error error =>
    refine Round.closeCommits_eq_error ?_
    rwa [hall, honest.threshold id hid]
  | ok u =>
    refine Round.closeCommits_eq_ok_iff.mpr ⟨?_, ?_⟩
    · rwa [hall, honest.threshold id hid]
    · rw [hall, houtbox]
      rfl

/-- The end of the second round. -/
theorem Honest.close_shares (honest : l.Honest) (hid : id ∈ l.ids) {list : List PartyId}
    (hlist : list.Nodup) (hsub : list ⊆ l.others id)
    (hlength : list.length = (l.dealer id).peerCount) :
    (l.roundAt id .shares list).close =
      Round.closeShares (l.dealer id) l.committed (l.dealtTo id) := by
  rw [← honest.gather_shareFor hid hlist hsub hlength]
  rfl

/-- A round that is closed leaves the other round as it was. -/
theorem length_update_shares (taken : Leg → List PartyId) (list : List PartyId) :
    (update taken .shares list .commits).length = (taken .commits).length := by
  rw [update_of_ne (by decide)]

/-- The moves of a consumer in the first round. -/
theorem Inbox.advances_gathering (inbox : l.Inbox sent id taken waiting e.mailboxes)
    (honest : l.Honest) (hid : id ∈ l.ids) (shares : taken .shares = []) (begun : sent .commits id)
    (undealt : ¬ sent .shares id) (filling : l.Filling id .commits (taken .commits) e) :
    l.Advances sent id (e.advance (Round.protocol c)) := by
  have fills := inbox.fills honest hid filling
  generalize e.advance (Round.protocol c) = move at fills ⊢
  cases fills with
  | rest => exact .rest
  | wakes mailboxes filling' =>
    exact .moved ⟨mailboxes ▸ inbox, .gathering shares begun undealt filling'⟩
  | refuses _ hshares => cases hshares
  | takes inbox' genuine short =>
    refine .moved ⟨inbox', .gathering shares begun undealt ?_⟩
    rw [update_self]
    exact filling.filled _ short genuine
  | fails inbox' _ full close =>
    -- The round is full and can only fail for want of a scheme.
    rw [honest.close_commits hid inbox'.nodup_update inbox'.update_subset full] at close
    split at close <;> cases close
    rename_i scheme
    exact .moved ⟨inbox', .failed begun undealt filling.tag rfl scheme rfl⟩
  | closes inbox' _ full close =>
    rw [honest.close_commits hid inbox'.nodup_update inbox'.update_subset full] at close
    split at close <;> cases close
    rename_i list rest mailboxes scheme
    refine .deals undealt (Roster.nodup_ids _) (fun x => ?_) ⟨inbox'.congr fun leg x hx => ?_,
      .sharing ?_ ?_ ?_ scheme ⟨rfl, filling.running, ?_, ?_, ?_⟩⟩
    · rw [Roster.mem_ids_gather, honest.mem_iff_of_length_eq hid inbox'.nodup_update
        inbox'.update_subset full]
    · simp [extend, hx]
    · rwa [update_self]
    · exact extend_self.mpr (.inl begun)
    · exact extend_self.mpr (.inr rfl)
    -- Shares may wait already, but none has been taken.
    · rw [update_of_ne (by decide), shares]
      exact Nat.zero_lt_of_lt filling.short
    · rw [update_of_ne (by decide), shares]
      exact .nil l id .shares
    · rw [update_of_ne (by decide), shares]
      simp [Engine.conclude, Engine.inProgress, filled, filling.live]

/-- The moves of a consumer in the second round. -/
theorem Inbox.advances_sharing (inbox : l.Inbox sent id taken waiting e.mailboxes)
    (honest : l.Honest) (hid : id ∈ l.ids)
    (full : (taken .commits).length = (l.dealer id).peerCount) (begun : sent .commits id)
    (dealt : sent .shares id) (scheme : l.scheme = .ok ())
    (filling : l.Filling id .shares (taken .shares) e) :
    l.Advances sent id (e.advance (Round.protocol c)) := by
  have fills := inbox.fills honest hid filling
  generalize e.advance (Round.protocol c) = move at fills ⊢
  have full' : ∀ list, (update taken .shares list .commits).length = (l.dealer id).peerCount :=
    fun list => (length_update_shares taken list).trans full
  -- A round that is full has heard all peers.
  have hothers : ∀ {list rest : List PartyId} {mailboxes : Mailboxes KeygenMessage},
      l.Inbox sent id (update taken .shares list) (update waiting .shares rest) mailboxes →
      l.Genuine id .shares list → list.length = (l.dealer id).peerCount →
      ∀ x ∈ l.others id, l.forged x id = none := by
    intro list rest mailboxes inbox' genuine length x hx
    exact genuine rfl x ((honest.mem_iff_of_length_eq hid inbox'.nodup_update
      inbox'.update_subset length).mpr hx)
  cases fills with
  | rest => exact .rest
  | wakes mailboxes filling' =>
    exact .moved ⟨mailboxes ▸ inbox, .sharing full begun dealt scheme filling'⟩
  | refuses inbox' _ hx forged =>
    exact .moved ⟨inbox', .ended (full' _) begun dealt filling.tag rfl scheme (.refuses hx forged) rfl⟩
  | takes inbox' genuine short =>
    refine .moved ⟨inbox', .sharing (full' _) begun dealt scheme ?_⟩
    rw [update_self]
    exact filling.filled _ short genuine
  | fails inbox' genuine length close =>
    rw [honest.close_shares hid inbox'.nodup_update inbox'.update_subset length] at close
    exact .moved ⟨inbox', .ended (full' _) begun dealt filling.tag rfl scheme
      (.closes (hothers inbox' genuine length) (.fails close)) rfl⟩
  | closes inbox' genuine length close =>
    rw [honest.close_shares hid inbox'.nodup_update inbox'.update_subset length] at close
    obtain ⟨share, key, points, -, -, rfl⟩ := Round.closeShares_eq_ok_iff.mp close
    exact .ends ⟨inbox', .ended (full' _) begun dealt filling.tag rfl scheme
      (.closes (hothers inbox' genuine length) (.done close)) rfl⟩

/-- **Every move** of a party among honest peers leads to a stage. -/
theorem Stage.advances (h : l.Stage sent id e) (honest : l.Honest) (hid : id ∈ l.ids) :
    l.Advances sent id (e.advance (Round.protocol c)) := by
  obtain ⟨inbox, phase⟩ := h
  -- Before the start and after the end there is nothing to do.
  have rests : e.inProgress = none → l.Advances sent id (e.advance (Round.protocol c)) := by
    intro hnone
    rw [Engine.advance, hnone]
    exact .rest
  cases phase with
  | idle commits shares unsent undealt tag live consumer =>
    exact rests (by simp [Engine.inProgress, consumer])
  | gathering shares begun undealt filling =>
    exact inbox.advances_gathering honest hid shares begun undealt filling
  | failed begun undealt tag consumer => exact rests (by simp [Engine.inProgress, consumer])
  | sharing full begun dealt scheme filling =>
    exact inbox.advances_sharing honest hid full begun dealt scheme filling
  | ended full begun dealt tag consumer => exact rests (by simp [Engine.inProgress, consumer])

end Advances

/-! ## Rest -/

section Rest

variable {taken waiting : Leg → List PartyId} {e : KeygenEngine c} {leg : Leg}

/-- A round that is not full has something to do when all peers have sent their messages. -/
theorem Inbox.isReady (inbox : l.Inbox sent id taken waiting e.mailboxes) (honest : l.Honest)
    (hid : id ∈ l.ids) (filling : l.Filling id leg (taken leg) e)
    (all : ∀ x ∈ l.ids, sent leg x) : e.isReady = true := by
  -- If nothing waited, all peers would be among those whose messages have been taken.
  have hwaiting : waiting leg ≠ [] := by
    intro hnil
    have hothers : l.others id ⊆ taken leg := by
      intro x hx
      have hmem := (inbox.mem leg x).mpr ⟨hx, all x (mem_others.mp hx).1⟩
      rwa [hnil, List.append_nil] at hmem
    have hnodup : (l.others id).Nodup := honest.nodup.filter _
    have hle := (List.subperm_of_subset hnodup hothers).length_le
    have hshort := filling.short
    rw [honest.length_others hid] at hle
    omega
  have hbox : e.mailboxes.box e.tag ≠ [] := by
    rw [filling.tag, inbox.box]
    exact fun h => hwaiting (List.map_eq_nil_iff.mp h)
  rw [Engine.isReady, filling.progress]
  dsimp only
  split
  · rename_i hpop
    exact absurd hpop (Mailboxes.pop_ne_pending hbox _)
  · rfl

/-- **A party at rest**, when all parties have been started: it has failed because the positions
form no scheme, or it has dealt its shares, and if the others have so too it has got to the end. -/
theorem Stage.rests (h : l.Stage sent id e) (honest : l.Honest) (hid : id ∈ l.ids)
    (rest : e.isReady = false) (started : ∀ x ∈ l.ids, sent .commits x) :
    (∃ error, l.scheme = .error error ∧
      e.outcome = some (.error (.finalizeFailed error.message))) ∨
    l.scheme = .ok () ∧ sent .shares id ∧
      ((∀ x ∈ l.ids, sent .shares x) → ∃ r, l.Settles id r ∧ e.outcome = some r) := by
  obtain ⟨inbox, phase⟩ := h
  cases phase with
  -- Every party has been started.
  | idle commits shares unsent => exact absurd (started id hid) unsent
  | gathering shares begun undealt filling =>
    -- All contributions have been sent, so one is waiting.
    rw [inbox.isReady honest hid filling started] at rest
    cases rest
  | failed begun undealt tag consumer scheme outcome => exact .inl ⟨_, scheme, outcome⟩
  | sharing full begun dealt scheme filling =>
    refine .inr ⟨scheme, dealt, fun all => ?_⟩
    -- All shares have been dealt, so one is waiting.
    rw [inbox.isReady honest hid filling all] at rest
    cases rest
  | ended full begun dealt tag consumer scheme settles outcome =>
    exact .inr ⟨scheme, dealt, fun _ => ⟨_, settles, outcome⟩⟩

end Rest

end Lineup

end RankedKeys
