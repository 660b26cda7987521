import Quorum.Reliable
import Quorum.SelfDelivery

/-!
# Recorded — protocols that write down what happens to them

The nodes of `P.recorded` run `P`, and keep a record of the messages that they are handed and of
those that they send.  Nothing reads the record, so it can be left out again: over reliable
channels, too, and if a node's own messages are handed back inside, a node with a record reacts as
one without.

**Main statements.**  `received_input`, `received_receive`: what one event adds to the record.
`Ghost.forget_reliableInput`, `Ghost.forget_reliableReceive`: what nothing reads makes no difference
over reliable channels.  `recording`: the record is such a thing.
-/

namespace Quorum

/-- A node and its record. -/
structure Recorded (P : Protocol) where
  state : P.State
  /-- Every message that the node has been handed, with its sender, oldest first. -/
  received : List (NodeId × P.Msg) := []
  /-- Every message that the node has sent, oldest first. -/
  sent : List (Outgoing P.Msg) := []

/-- The protocol `P` at nodes that keep a record. -/
abbrev Protocol.recorded (P : Protocol) : Protocol where
  State := Recorded P
  Input := P.Input
  Output := P.Output
  Msg := P.Msg
  start me := (P.start me).map ({ state := · })
  input me s i := (P.input me s.state i).map fun r =>
    { r with state := { s with state := r.state, sent := s.sent ++ r.sent } }
  receive me s sender m := (P.receive me s.state sender m).map fun r =>
    { r with
      state :=
        { state := r.state
          received := s.received ++ [(sender, m)]
          sent := s.sent ++ r.sent } }
  output s := P.output s.state
  encode := P.encode
  decode := P.decode
  status me s := P.status me s.state

/-! ### Outcomes -/

theorem map_eq_ok {ε α β : Type} {x : Except ε α} {f : α → β} {b : β} (h : x.map f = .ok b) :
    ∃ a, x = .ok a ∧ f a = b := by
  cases x with
  | error e => cases h
  | ok a =>
    cases h
    exact ⟨a, rfl, rfl⟩

theorem bind_eq_ok {ε α β : Type} {x : Except ε α} {f : α → Except ε β} {b : β}
    (h : x.bind f = .ok b) : ∃ a, x = .ok a ∧ f a = .ok b := by
  cases x with
  | error e => cases h
  | ok a => exact ⟨a, rfl, h⟩

def Reaction.mapState {σ τ μ : Type} (f : σ → τ) (r : Reaction σ μ) : Reaction τ μ :=
  { r with state := f r.state }

/-! ### What is recorded -/

section
variable {P : Protocol} {me sender : NodeId} {s : Recorded P}

theorem recorded_start (h : P.recorded.start me = .ok s) : s.received = [] ∧ s.sent = [] := by
  obtain ⟨s₀, -, rfl⟩ := map_eq_ok h
  exact ⟨rfl, rfl⟩

theorem received_input {i : P.Input} {r : Reaction (Recorded P) P.Msg}
    (h : P.recorded.input me s i = .ok r) :
    r.state.received = s.received ∧ r.state.sent = s.sent ++ r.sent := by
  obtain ⟨r₀, -, rfl⟩ := map_eq_ok h
  exact ⟨rfl, rfl⟩

theorem received_receive {m : P.Msg} {r : Reaction (Recorded P) P.Msg}
    (h : P.recorded.receive me s sender m = .ok r) :
    r.state.received = s.received ++ [(sender, m)] ∧ r.state.sent = s.sent ++ r.sent := by
  obtain ⟨r₀, -, rfl⟩ := map_eq_ok h
  exact ⟨rfl, rfl⟩

end

/-! ### Leaving the record out -/

/-- States for the nodes of `P` that hold more than `P` reads, and what becomes of them.  Whoever
forgets the rest sees `P`. -/
structure Ghost (P : Protocol) where
  State : Type
  forget : State → P.State
  start : NodeId → Except Fault State
  input : NodeId → State → P.Input → Outcome State P.Msg
  receive : NodeId → State → NodeId → P.Msg → Outcome State P.Msg
  forget_start : ∀ me, (start me).map forget = P.start me
  forget_input : ∀ me s i, (input me s i).map (Reaction.mapState forget) = P.input me (forget s) i
  forget_receive : ∀ me s sender m,
    (receive me s sender m).map (Reaction.mapState forget) = P.receive me (forget s) sender m

/-- The protocol `P` at nodes with such states. -/
abbrev Ghost.protocol {P : Protocol} (G : Ghost P) : Protocol where
  State := G.State
  Input := P.Input
  Output := P.Output
  Msg := P.Msg
  start := G.start
  input := G.input
  receive := G.receive
  output s := P.output (G.forget s)
  encode := P.encode
  decode := P.decode
  status me s := P.status me (G.forget s)

/-- The record of a node. -/
def recording (P : Protocol) : Ghost P where
  State := Recorded P
  forget := Recorded.state
  start := P.recorded.start
  input := P.recorded.input
  receive := P.recorded.receive
  forget_start me := by
    change ((P.start me).map _).map _ = _
    cases P.start me with
    | error fault => rfl
    | ok s => rfl
  forget_input me s i := by
    change ((P.input me s.state i).map _).map _ = _
    cases P.input me s.state i with
    | error failure => rfl
    | ok r => rfl
  forget_receive me s sender m := by
    change ((P.receive me s.state sender m).map _).map _ = _
    cases P.receive me s.state sender m with
    | error failure => rfl
    | ok r => rfl

namespace Ghost
variable {P : Protocol} {G : Ghost P}

section
open SelfDelivery

def forgetIn (t : Progress G.protocol) : Progress P :=
  ⟨G.forget t.state, t.own, t.remote, t.warnings⟩

theorem forget_settle (me : NodeId) (limit : Nat) (t : Progress G.protocol) :
    (settle me limit t).map (Reaction.mapState G.forget) = settle me limit (forgetIn t) := by
  induction limit generalizing t with
  | zero =>
    obtain ⟨s, own, remote, warnings⟩ := t
    unfold settle forgetIn
    dsimp only
    cases own.pop? with
    | none => rfl
    | some x => rfl
  | succ limit ih =>
    obtain ⟨s, own, remote, warnings⟩ := t
    unfold settle forgetIn
    dsimp only
    cases own.pop? with
    | none => rfl
    | some x =>
      obtain ⟨m, own⟩ := x
      dsimp only
      rw [← G.forget_receive]
      cases G.receive me s me m with
      | error failure => rfl
      | ok r => exact ih _

theorem forget_finish (me : NodeId) (limit : Nat) (x : Outcome G.State P.Msg) :
    (finish (P := G.protocol) me limit x).map (Reaction.mapState G.forget) =
      finish me limit (x.map (Reaction.mapState G.forget)) := by
  cases x with
  | error failure => rfl
  | ok r => exact forget_settle me limit _

/-- A node that hands its own messages back inside may have such states as well. -/
def selfDelivering (limit : Nat) (G : Ghost P) : Ghost (P.selfDelivering limit) where
  State := G.State
  forget := G.forget
  start := G.start
  input := (G.protocol.selfDelivering limit).input
  receive := (G.protocol.selfDelivering limit).receive
  forget_start := G.forget_start
  forget_input me s i :=
    (forget_finish me limit _).trans (by rw [G.forget_input])
  forget_receive me s sender m :=
    (forget_finish me limit _).trans (by rw [G.forget_receive])

end

/-! #### Over reliable channels -/

section
open Reliable

def forgetNested (G : Ghost P) (s : Reliable.State G.protocol) : Reliable.State P :=
  { nested := G.forget s.nested, links := s.links, dismissed := s.dismissed }

def forgetKind (G : Ghost P) : Reliable.Input G.protocol → Reliable.Input P
  | .nested i => .nested i
  | .tick now => .tick now

theorem forget_sendGroups (owed : NodeId → Option BatchId) (groups : List (NodeId × List P.Msg))
    (s : Reliable.State G.protocol) (sent : Array (Outgoing (Message P.Msg))) :
    (sendGroups (P := G.protocol) owed groups s sent).map (fun x => (G.forgetNested x.1, x.2)) =
      sendGroups owed groups (G.forgetNested s) sent := by
  induction groups generalizing s sent with
  | nil => rfl
  | cons group groups ih =>
    obtain ⟨peer, msgs⟩ := group
    unfold sendGroups
    have hdismissed : (G.forgetNested s).dismissed = s.dismissed := rfl
    have hlink : (G.forgetNested s).link peer = s.link peer := rfl
    rw [hdismissed, hlink]
    split
    · exact ih s sent
    · cases (s.link peer).post msgs (owed peer) with
      | error fault => rfl
      | ok x => exact ih _ _

theorem forget_sendRound (s : Reliable.State G.protocol) (out : List (Outgoing P.Msg))
    (owed : Option (NodeId × BatchId)) :
    (sendRound (P := G.protocol) s out owed).map (Reaction.mapState G.forgetNested) =
      sendRound (G.forgetNested s) out owed := by
  simp only [sendRound, bind, ← forget_sendGroups]
  cases sendGroups (P := G.protocol) _ _ s #[] with
  | error fault => rfl
  | ok x => rfl

theorem forget_sendAfter (s : Reliable.State G.protocol) (owed : Option (NodeId × BatchId))
    (r : Reaction G.State P.Msg) :
    (sendAfter (P := G.protocol) s owed r).map (Reaction.mapState G.forgetNested) =
      sendAfter (G.forgetNested s) owed (r.mapState G.forget) := by
  have hround := forget_sendRound (G := G) { s with nested := r.state } r.sent owed
  unfold sendAfter
  simp only [Reaction.mapState, forgetNested] at hround ⊢
  rw [← hround]
  cases sendRound (P := G.protocol) { s with nested := r.state } r.sent owed with
  | error fault => rfl
  | ok round => rfl

theorem forget_handOver (me sender : NodeId) (msgs : List P.Msg) (t : Handover G.protocol) :
    (handOver (P := G.protocol) me sender msgs t).map (Reaction.mapState G.forget) =
      handOver (P := P) me sender msgs ⟨G.forget t.nested, t.sent, t.warnings⟩ := by
  induction msgs generalizing t with
  | nil => rfl
  | cons m msgs ih =>
    simp only [handOver]
    rw [← G.forget_receive]
    cases G.receive me t.nested sender m with
    | error failure => rfl
    | ok r => exact ih _

/-- An event of the nested automaton, followed by a round of sending. -/
theorem forget_bind_sendAfter (s : Reliable.State G.protocol) (owed : Option (NodeId × BatchId))
    (x : Outcome G.State P.Msg) :
    (x.bind (sendAfter (P := G.protocol) s owed)).map (Reaction.mapState G.forgetNested) =
      (x.map (Reaction.mapState G.forget)).bind (sendAfter (G.forgetNested s) owed) := by
  cases x with
  | error failure => rfl
  | ok r => exact forget_sendAfter s owed r

theorem forget_onBatch (me : NodeId) (s : Reliable.State G.protocol) (sender : NodeId)
    (b : Batch P.Msg) :
    (onBatch (P := G.protocol) me s sender b).map (Reaction.mapState G.forgetNested) =
      onBatch me (G.forgetNested s) sender b := by
  simp only [onBatch]
  have hlink : (G.forgetNested s).link sender = s.link sender := rfl
  rw [hlink]
  cases ((s.link sender).accept b).2 with
  | done => rfl
  | duplicate id => rfl
  | fresh id =>
    have hnested := forget_handOver (G := G) me sender b.msgs { nested := s.nested }
    exact (forget_bind_sendAfter _ _ _).trans (by rw [hnested]; rfl)

theorem forget_onReset (s : Reliable.State G.protocol) (sender : NodeId) (reset : Reset) :
    (onReset (P := G.protocol) s sender reset).map (Reaction.mapState G.forgetNested) =
      onReset (G.forgetNested s) sender reset := by
  simp only [onReset]
  have hlink : (G.forgetNested s).link sender = s.link sender := rfl
  rw [hlink]
  split
  · rfl
  · split
    · rfl
    · cases reset.latest.next? with
      | none => rfl
      | some next =>
        cases h : (s.link sender).settleNumbering next with
        | error fault => simp only [h]; rfl
        | ok x => simp only [h]; rfl

/-- **Over reliable channels, a node reacts to a message in the same way**, whatever else its state
holds. -/
theorem forget_reliableReceive (me : NodeId) (s : Reliable.State G.protocol) (sender : NodeId)
    (m : Message P.Msg) :
    (Reliable.receive (P := G.protocol) me s sender m).map (Reaction.mapState G.forgetNested) =
      Reliable.receive me (G.forgetNested s) sender m := by
  simp only [Reliable.receive]
  have hdismissed : (G.forgetNested s).dismissed = s.dismissed := rfl
  rw [hdismissed]
  split
  · rfl
  · cases m with
    | batch b => exact forget_onBatch me s sender b
    | reset r => exact forget_onReset s sender r

/-- **Over reliable channels, a node reacts to a local event in the same way**, whatever else its
state holds. -/
theorem forget_reliableInput (period : Time) (me : NodeId) (s : Reliable.State G.protocol)
    (i : Reliable.Input G.protocol) :
    (Reliable.input period me s i).map (Reaction.mapState G.forgetNested) =
      Reliable.input period me (G.forgetNested s) (G.forgetKind i) := by
  cases i with
  | nested i => exact (forget_bind_sendAfter s none _).trans (by rw [G.forget_input]; rfl)
  | tick now => rfl

end

end Ghost

end Quorum
