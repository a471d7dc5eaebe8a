import Mathlib.Data.List.Induction
import RankedKeys.Network
import RankedKeys.Proofs.Lists
import RankedKeys.Roster

/-!
# Networks over a history

Receivers are registered and unregistered under names, and messages are delivered, sent and
broadcast in between. An exchange notes every message that a receiver is handed, whatever receivers
do with messages. A delivery turns out to hand the message to the receiver that the name was
registered with last, if it has not been unregistered since, and to nobody else; and a broadcast is
a walk over the peers that ends at the first of them that does not get its copy.

## Main definitions

* `Network.Action`: what is done on a network
* `Exchange`: a network and the world of its receivers, with what these have been handed
* `Exchange.holder`: the receiver that a history leaves under a name
* `Exchange.deliverTo`, `Exchange.Hands`: one delivery, and several that are all accepted

## Main results

* `handEach_induction`: what a task keeps, handing several things out keeps
* `Exchange.find?_play`: names stand for the receivers that the history leaves under them
* `Exchange.exists_of_broadcast`: how far a broadcast gets
* `Exchange.routes_of_play`: deliveries and broadcasts after any history
-/

namespace RankedKeys

/-- What a task keeps, handing several things out keeps. -/
theorem handEach_induction {α σ : Type} {g : α → σ → Except Error Unit × σ} {p : σ → Prop}
    (h : ∀ a s, p s → p (g a s).2) (list : List α) {s : σ} (hs : p s) :
    p (handEach g list s).2 := by
  induction list generalizing s with
  | nil => exact hs
  | cons a list ih =>
    rw [handEach]
    have ha := h a s hs
    generalize g a s = answer at ha ⊢
    rcases answer with ⟨(error | ⟨⟩), s'⟩
    · exact ha
    · exact ih ha

variable {κ M σ : Type}

namespace Network

theorem find?_register (n : Network κ) (id x : PartyId) (sink : κ) :
    (n.register id sink).find? x = if x = id then some sink else n.find? x := by
  rw [Network.find?, Network.register]
  split
  · rename_i h
    subst h
    exact List.lookup_cons_self
  · rename_i h
    rw [Roster.lookup_cons_ne h]
    exact lookup_filter_ne h n.sinks

theorem find?_unregister (n : Network κ) (id x : PartyId) :
    (n.unregister id).find? x = if x = id then none else n.find? x := by
  rw [Network.find?, Network.unregister]
  split
  · rename_i h
    subst h
    refine List.lookup_eq_none_iff.mpr ?_
    intro e he
    have hne := (List.mem_filter.mp he).2
    simpa [bne_comm] using hne
  · rename_i h
    exact lookup_filter_ne h n.sinks

/-- What is done on a network; a party sends and broadcasts under its own name. -/
inductive Action (κ M : Type) where
  | register (id : PartyId) (sink : κ)
  | unregister (id : PartyId)
  | deliver (sender receiver : PartyId) (m : M)
  | send (v : PeerView) (receiver : PartyId) (m : M)
  | broadcast (v : PeerView) (m : M)

/-- Whether an action says who receives the messages to a name. -/
def Action.concerns (id : PartyId) : Action κ M → Bool
  | register id' _ => id' == id
  | unregister id' => id' == id
  | deliver _ _ _ | send _ _ _ | broadcast _ _ => false

end Network

open Network (Action)

/-- A message that a receiver has been handed, with its answer. -/
structure Handover (κ M : Type) where
  sink : κ
  sender : PartyId
  message : M
  answer : Except Error Unit

/-- A network and the world that its receivers act on, with all that they have been handed. -/
structure Exchange (κ M σ : Type) where
  network : Network κ
  world : σ
  handed : List (Handover κ M)

namespace Exchange

/-- **The receiver that a history leaves under a name**: that of the last registration, unless the
name has been unregistered since. -/
def holder (history : List (Action κ M)) (id : PartyId) : Option κ :=
  match (history.filter (·.concerns id)).getLast? with
  | some (.register _ sink) => some sink
  | _ => none

/-- Nobody has registered. -/
def create (world : σ) : Exchange κ M σ :=
  ⟨.empty, world, []⟩

section Actions

variable (accept : κ → PartyId → M → σ → Except Error Unit × σ)

/-- A receiver is handed a message. -/
def hand (sink : κ) (sender : PartyId) (m : M) (x : Exchange κ M σ) :
    Except Error Unit × Exchange κ M σ :=
  let (answer, world) := accept sink sender m x.world
  (answer, { x with world, handed := x.handed ++ [⟨sink, sender, m, answer⟩] })

/-- The network delivers a message. -/
def deliver (sender receiver : PartyId) (m : M) (x : Exchange κ M σ) :
    Except Error Unit × Exchange κ M σ :=
  x.network.deliver (hand accept) sender receiver m x

/-- The answer to an action, and what the action leaves behind. -/
def enter (x : Exchange κ M σ) : Action κ M → Except Error Unit × Exchange κ M σ
  | .register id sink => (.ok (), { x with network := x.network.register id sink })
  | .unregister id => (.ok (), { x with network := x.network.unregister id })
  | .deliver sender receiver m => x.deliver accept sender receiver m
  | .send v receiver m => x.deliver accept v.self receiver m
  | .broadcast v m => v.broadcast (deliver accept v.self) m x

/-- One action after the other. -/
def play (x : Exchange κ M σ) (actions : List (Action κ M)) : Exchange κ M σ :=
  actions.foldl (fun x action => (x.enter accept action).2) x

/-- **A delivery to the receiver of a name**: it is handed the message and answers. Where there is
none, nobody is handed anything. -/
def deliverTo (sink? : Option κ) (sender receiver : PartyId) (m : M) (x : Exchange κ M σ) :
    Except Error Unit × Exchange κ M σ :=
  match sink? with
  | none => (.error (.relay s!"unknown peer {receiver}"), x)
  | some sink => x.hand accept sink sender m

/-- **A message is handed to some receivers**, one after the other, and all of them accept it. -/
inductive Hands (sender : PartyId) (m : M) : List κ → Exchange κ M σ → Exchange κ M σ → Prop
  | nil (x : Exchange κ M σ) : Hands sender m [] x x
  | cons {sink : κ} {sinks : List κ} {x y : Exchange κ M σ} {world : σ}
    (accepted : accept sink sender m x.world = (.ok (), world))
    (rest : Hands sender m sinks
      ⟨x.network, world, x.handed ++ [⟨sink, sender, m, .ok ()⟩]⟩ y) :
    Hands sender m (sink :: sinks) x y

end Actions

variable {accept : κ → PartyId → M → σ → Except Error Unit × σ}

/-! ## Registrations -/

/-- An action that does not concern a name leaves its receiver. -/
theorem holder_append_of_not_concerns {id : PartyId} {action : Action κ M}
    (h : action.concerns id = false) (history : List (Action κ M)) :
    holder (history ++ [action]) id = holder history id := by
  simp [holder, h]

theorem holder_append_register (history : List (Action κ M)) (id x : PartyId) (sink : κ) :
    holder (history ++ [.register id sink]) x = if x = id then some sink else holder history x := by
  split
  · rename_i h
    simp [holder, Action.concerns, h]
  · rename_i h
    exact holder_append_of_not_concerns (by simpa [Action.concerns] using Ne.symm h) history

theorem holder_append_unregister (history : List (Action κ M)) (id x : PartyId) :
    holder (history ++ [.unregister id]) x = if x = id then none else holder history x := by
  split
  · rename_i h
    simp [holder, Action.concerns, h]
  · rename_i h
    exact holder_append_of_not_concerns (by simpa [Action.concerns] using Ne.symm h) history

variable (accept) in
/-- Delivering registers nobody. -/
@[simp] theorem network_deliver (x : Exchange κ M σ) (sender receiver : PartyId) (m : M) :
    (x.deliver accept sender receiver m).2.network = x.network := by
  unfold deliver Network.deliver
  split <;> rfl

/-- Broadcasting registers nobody. -/
@[simp] theorem network_broadcast (x : Exchange κ M σ) (v : PeerView) (m : M) :
    (v.broadcast (deliver accept v.self) m x).2.network = x.network := by
  refine handEach_induction (p := fun y : Exchange κ M σ => y.network = x.network) ?_ v.peers rfl
  intro receiver y hy
  rw [network_deliver, hy]

/-- **One action more** is accounted for in who receives the messages to which name. -/
theorem find?_enter {x : Exchange κ M σ} {history : List (Action κ M)}
    (h : x.network.find? = holder history) (action : Action κ M) :
    (x.enter accept action).2.network.find? = holder (history ++ [action]) := by
  funext id
  cases action with
  | register id' sink =>
    rw [holder_append_register, ← h]
    exact x.network.find?_register id' id sink
  | unregister id' =>
    rw [holder_append_unregister, ← h]
    exact x.network.find?_unregister id' id
  | deliver sender receiver m =>
    rw [holder_append_of_not_concerns rfl, ← h, enter, network_deliver]
  | send v receiver m =>
    rw [holder_append_of_not_concerns rfl, ← h, enter, network_deliver]
  | broadcast v m =>
    rw [holder_append_of_not_concerns rfl, ← h, enter, network_broadcast]

/-- **Names stand for the receivers** that the history leaves under them. -/
theorem find?_play (world : σ) (history : List (Action κ M)) :
    ((create world).play accept history).network.find? = holder history := by
  induction history using List.reverseRecOn with
  | nil => rfl
  | append_singleton history action ih =>
    rw [play, List.foldl_append]
    exact find?_enter ih action

/-! ## Deliveries -/

section Deliveries

variable {holds : PartyId → Option κ} {x : Exchange κ M σ}

variable (accept) in
/-- A delivery is one to the receiver of the name. -/
theorem deliver_eq (h : x.network.find? = holds) (sender receiver : PartyId) (m : M) :
    x.deliver accept sender receiver m = x.deliverTo accept (holds receiver) sender receiver m := by
  unfold deliver Network.deliver deliverTo
  rw [h]
  cases holds receiver <;> rfl

/-- A delivery that is accepted has been handed to the receiver of the name. -/
theorem exists_of_deliverTo {sink? : Option κ} {sender receiver : PartyId} {m : M}
    {y : Exchange κ M σ} (h : x.deliverTo accept sink? sender receiver m = (.ok (), y)) :
    ∃ sink, sink? = some sink ∧ ∃ world, accept sink sender m x.world = (.ok (), world) ∧
      y = ⟨x.network, world, x.handed ++ [⟨sink, sender, m, .ok ()⟩]⟩ := by
  cases sink? with
  | none => cases h
  | some sink =>
    dsimp only [deliverTo, hand] at h
    rcases hanswer : accept sink sender m x.world with ⟨answer, world⟩
    rw [hanswer] at h
    cases h
    exact ⟨sink, rfl, world, hanswer, rfl⟩

/-- What a delivery notes is the one handover, with its answer. -/
theorem handed_of_deliverTo {sink? : Option κ} {sender receiver : PartyId} {m : M}
    {answer : Except Error Unit} {y : Exchange κ M σ}
    (h : x.deliverTo accept sink? sender receiver m = (answer, y)) :
    y.handed = x.handed ++ (sink?.map fun sink => ⟨sink, sender, m, answer⟩).toList := by
  cases sink? with
  | none =>
    cases h
    exact (List.append_nil _).symm
  | some sink =>
    cases h
    rfl

/-- What has been handed over is noted, with the answers. -/
theorem Hands.handed {sender : PartyId} {m : M} {sinks : List κ} {y : Exchange κ M σ}
    (h : Hands accept sender m sinks x y) :
    y.handed = x.handed ++ sinks.map fun sink => ⟨sink, sender, m, .ok ()⟩ := by
  induction h with
  | nil => exact (List.append_nil _).symm
  | cons accepted rest ih => rw [ih, List.append_assoc, List.singleton_append, List.map_cons]

variable (accept) in
/-- **How far a broadcast gets**: every peer before some place is handed its copy and accepts it,
and then either no peer is left, or the delivery to the next one fails and ends the broadcast. -/
theorem exists_of_broadcast (h : x.network.find? = holds) (v : PeerView) (m : M) :
    ∃ before after sinks y, v.peers = before ++ after ∧ before.map holds = sinks.map some ∧
      Hands accept v.self m sinks x y ∧
      ((after = [] ∧ v.broadcast (deliver accept v.self) m x = (.ok (), y)) ∨
        ∃ receiver rest error z, after = receiver :: rest ∧
          y.deliverTo accept (holds receiver) v.self receiver m = (.error error, z) ∧
          v.broadcast (deliver accept v.self) m x = (.error error, z)) := by
  rcases v with ⟨self, peers⟩
  unfold PeerView.broadcast
  dsimp only
  -- Every peer takes the same message; the induction is on the peers that are still to come.
  induction peers generalizing x with
  | nil => exact ⟨[], [], [], x, rfl, rfl, .nil x, .inl ⟨rfl, rfl⟩⟩
  | cons receiver peers ih =>
    have hdeliver := deliver_eq accept h self receiver m
    rw [handEach]
    rcases hanswer : x.deliver accept self receiver m with ⟨error | ⟨⟩, x'⟩
    · rw [hdeliver] at hanswer
      exact ⟨[], receiver :: peers, [], x, rfl, rfl, .nil x,
        .inr ⟨receiver, peers, error, x', rfl, hanswer, rfl⟩⟩
    · have hnetwork : x'.network = x.network := by
        rw [← x.network_deliver accept self receiver m, hanswer]
      obtain ⟨before, after, sinks, y, rfl, hsinks, hands, hend⟩ := ih (hnetwork ▸ h)
      obtain ⟨sink, hsink, world, accepted, rfl⟩ := exists_of_deliverTo (hdeliver ▸ hanswer)
      refine ⟨receiver :: before, after, sink :: sinks, y, rfl, ?_, .cons accepted hands, hend⟩
      rw [List.map_cons, List.map_cons, hsink, hsinks]

end Deliveries

/-- **Deliveries and broadcasts are exact**, after any history of a network whose receivers may do
with messages whatever they like. A message that is delivered or sent to a name is handed to the
receiver that has been registered under it last, once and under the name of the sender, whose answer
it gets; if the name has been unregistered since, or was never registered, nobody is handed
anything. A broadcast by a party walks over the given names without its own, in their order and with
their repetitions: it hands one copy each, under the name of the party, to the receivers of those
before the first one to which the delivery fails, and ends with the error of this delivery; if none
fails, it hands one to every receiver. Registering hands nobody anything. -/
theorem routes_of_play (accept : κ → PartyId → M → σ → Except Error Unit × σ) (world : σ)
    (history : List (Action κ M)) :
    let x := (create world).play accept history
    (∀ sender receiver m, x.enter accept (.deliver sender receiver m) =
      x.deliverTo accept (holder history receiver) sender receiver m) ∧
    (∀ v receiver m, x.enter accept (.send v receiver m) =
      x.deliverTo accept (holder history receiver) v.self receiver m) ∧
    (∀ self ids m, ∃ before after sinks y,
      (before ++ after).Sublist ids ∧
      (∀ id, (before ++ after).count id = if id = self then 0 else ids.count id) ∧
      before.map (holder history) = sinks.map some ∧ Hands accept self m sinks x y ∧
      y.handed = x.handed ++ sinks.map (fun sink => ⟨sink, self, m, .ok ()⟩) ∧
      ((after = [] ∧ x.enter accept (.broadcast (.create self ids) m) = (.ok (), y)) ∨
        ∃ receiver rest error z, after = receiver :: rest ∧
          y.deliverTo accept (holder history receiver) self receiver m = (.error error, z) ∧
          z.handed = y.handed ++ ((holder history receiver).map fun sink =>
            ⟨sink, self, m, .error error⟩).toList ∧
          x.enter accept (.broadcast (.create self ids) m) = (.error error, z))) ∧
    (∀ id sink, (x.enter accept (.register id sink)).2.handed = x.handed ∧
      (x.enter accept (.register id sink)).2.world = x.world) ∧
    ∀ id, (x.enter accept (.unregister id)).2.handed = x.handed ∧
      (x.enter accept (.unregister id)).2.world = x.world := by
  intro x
  have h : x.network.find? = holder history := find?_play world history
  refine ⟨deliver_eq accept h, fun v => deliver_eq accept h v.self, fun self ids m => ?_,
    fun id sink => ⟨rfl, rfl⟩, fun id => ⟨rfl, rfl⟩⟩
  obtain ⟨before, after, sinks, y, hpeers, hsinks, hands, hend⟩ :=
    exists_of_broadcast accept h (.create self ids) m
  refine ⟨before, after, sinks, y, ?_, fun id => ?_, hsinks, hands, hands.handed, ?_⟩
  · rw [← hpeers]
    exact List.filter_sublist
  · rw [← hpeers, PeerView.create]
    split
    · rename_i hself
      exact List.count_eq_zero.mpr fun hmem => by simp [hself] at hmem
    · rename_i hself
      exact List.count_filter (by simpa using hself)
  · rcases hend with hall | ⟨receiver, rest, error, z, hafter, hfails, hbroadcast⟩
    · exact .inl hall
    · exact .inr ⟨receiver, rest, error, z, hafter, hfails, handed_of_deliverTo hfails, hbroadcast⟩

end Exchange

end RankedKeys
