import Quorum.Proofs.Gather.Codec
import Quorum.Proofs.History

/-!
# Product — a gather is its broadcasts, side by side

A call of a gather goes to one of its broadcasts: a message to the one of its index, the input to
the one of the node.  The envelope of the message goes with it.  What the broadcast sends comes out
with its index, in an envelope like its own.  Nothing else happens to any broadcast, so each of them
goes through what it would go through on its own, if it got its own calls only.

**Main statements.**  `react_eq_ok`: one call of a gather is one call of one broadcast.
`product_of_broadcasts`.
-/

namespace Quorum.Gather

variable {c : Committee} {me : NodeId} {s : State c}

abbrev Single := Labelled Envelope Broadcast.Message

abbrev single (c : Committee) (i : Fin c.size) : Protocol :=
  (Protocol.broadcast c (broadcaster c i)).enveloped

/-- A message of broadcast `i` behind its route, in an envelope like its own. -/
def wrap (i : Fin c.size) (m : Single) : (inMemory c).Msg :=
  ⟨m.label, m.label, broadcastSubsystem, UInt16.ofNat i, m.body⟩

/-- The message behind a route, in the envelope that was around both. -/
def unwrap (m : Labelled Envelope (Labelled Envelope Message)) : Single :=
  ⟨m.label, m.body.body.inner⟩

/-- The broadcast to which a call of a gather goes, and what the call is there. -/
def route (c : Committee) (me : NodeId) :
    Stimulus Bytes (Labelled Envelope (Labelled Envelope Message)) →
      Option (Fin c.size × Stimulus Bytes Single)
  | .input v => (c.indexOf? me).map (·, .input v)
  | .message sender m =>
    if h : m.body.body.subsystem = broadcastSubsystem ∧ m.body.body.index.toNat < c.size then
      some (⟨m.body.body.index.toNat, h.2⟩, .message sender (unwrap m))
    else none

/-- What a broadcast of the gather does in one call. -/
structure Plays (me : NodeId) (s : State c) (x : Stimulus Bytes (inMemory c).Msg)
    (r : Reaction (State c) (inMemory c).Msg) (i : Fin c.size) (y : Stimulus Bytes Single)
    (b : Reaction Broadcast.State Single) : Prop where
  route : route c me x = some (i, y)
  react : (single c i).react me (s.broadcasts.get i) y = .ok b
  state : ∀ j, r.state.broadcasts.get j = if i = j then b.state else s.broadcasts.get j
  sent : r.sent = b.sent.map (Outgoing.map (wrap i))

def address {μ : Type} (o : Outgoing μ) : Envelope := .outgoing o.recipient

theorem sent_inMemory (s : State c) (i : Fin c.size)
    (b : Reaction Broadcast.State Broadcast.Message) :
    (((lift s i b).labelled fun _ => address).labelled fun _ => address).sent =
      (b.labelled fun _ => address).sent.map (Outgoing.map (wrap i)) := by
  have halone : (b.labelled fun _ => address).sent.map (Outgoing.map (wrap i)) =
      b.sent.map fun o => ⟨o.recipient, wrap i ⟨address o, o.body⟩⟩ := List.map_map
  rw [halone]
  exact (congrArg (List.map _) List.map_map).trans List.map_map

/-- **One call of a gather is one call of one broadcast.** -/
theorem react_eq_ok {x : Stimulus Bytes (inMemory c).Msg}
    {r : Reaction (State c) (inMemory c).Msg} (h : (inMemory c).react me s x = .ok r) :
    ∃ i y b, Plays me s x r i y b := by
  cases x with
  | input v =>
    obtain ⟨_, hinner, rfl⟩ := map_eq_ok h
    obtain ⟨bare, hbare, rfl⟩ := map_eq_ok hinner
    obtain ⟨-, i, b, hi, hb, rfl⟩ := input_eq_ok (input_of_protocol hbare)
    refine ⟨i, .input v, b.labelled fun _ => address, ?_, ?_, ?_, ?_⟩
    · exact congrArg (Option.map fun j => (j, Stimulus.input v)) hi
    · change ((Broadcast.input c (broadcaster c i) me (s.broadcasts.get i) v).mapError _).map _ = _
      rw [hb]
      rfl
    · exact fun j => broadcasts_lift _ i j b
    · exact sent_inMemory _ i b
  | message sender m =>
    obtain ⟨_, hinner, rfl⟩ := map_eq_ok h
    obtain ⟨bare, hbare, rfl⟩ := map_eq_ok hinner
    obtain ⟨hsubsystem, i, hi, rfl⟩ := receive_eq_ok (receive_of_protocol hbare)
    refine ⟨i, .message sender (unwrap m), _, ?_, rfl, ?_, ?_⟩
    · refine (dif_pos ⟨hsubsystem, hi ▸ i.isLt⟩).trans ?_
      exact congrArg (fun j => some (j, Stimulus.message sender (unwrap m))) (Fin.ext hi.symm)
    · exact fun j => broadcasts_lift _ i j _
    · exact sent_inMemory _ i _

/-- A call as broadcast `i` sees it: the state that the call finds there, the call, and what is then
sent. -/
abbrev Scene (c : Committee) : Type :=
  Broadcast.State × Stimulus Bytes Single × List (Outgoing (inMemory c).Msg)

/-- What broadcast `i` sees of a call of the gather, if the call goes there. -/
def sceneOf (me : NodeId) (i : Fin c.size) (x : Occurrence (inMemory c)) : Option (Scene c) :=
  let s : State c := x.before
  (route c me x.stimulus).bind fun (j, y) =>
    if j = i then some (s.broadcasts.get i, y, x.reaction.sent) else none

/-- What broadcast `i` sees of a call of its own, if it is put behind its route. -/
def sceneAlone (i : Fin c.size) (x : Occurrence (single c i)) : Scene c :=
  (x.before, x.stimulus, x.reaction.sent.map (Outgoing.map (wrap i)))

/-- Broadcast `i` has gone through what it has gone through on its own. -/
def Alone (me : NodeId) (log : List (Occurrence (inMemory c))) (s : State c) (i : Fin c.size) :
    Prop :=
  ∃ alone : List (Occurrence (single c i)), History (single c i) me alone (s.broadcasts.get i) ∧
    log.filterMap (sceneOf me i) = alone.map (sceneAlone i)

/-- A call of one broadcast lets every broadcast go on as on its own. -/
theorem Alone.next {log : List (Occurrence (inMemory c))} {x : Stimulus Bytes (inMemory c).Msg}
    {r : Reaction (State c) (inMemory c).Msg} {i j : Fin c.size} {y : Stimulus Bytes Single}
    {b : Reaction Broadcast.State Single} (h : Alone me log s j) (hplays : Plays me s x r i y b) :
    Alone me (log ++ [⟨s, x, r⟩]) r.state j := by
  obtain ⟨alone, halone, hscenes⟩ := h
  have hscene : sceneOf me j (⟨s, x, r⟩ : Occurrence (inMemory c)) =
      if i = j then some (s.broadcasts.get j, y, r.sent) else none := by
    simp only [sceneOf, hplays.route, Option.bind_some]
  by_cases hij : i = j
  · subst hij
    refine ⟨alone ++ [⟨s.broadcasts.get i, y, b⟩], ?_, ?_⟩
    · rw [hplays.state, if_pos rfl]
      exact halone.next hplays.react
    · rw [List.filterMap_append, hscenes, List.map_append,
        List.filterMap_cons_some (hscene.trans (if_pos rfl)), List.filterMap_nil, hplays.sent]
      rfl
  · refine ⟨alone, ?_, ?_⟩
    · rw [hplays.state, if_neg hij]
      exact halone
    · rw [List.filterMap_append, hscenes, List.filterMap_cons_none (hscene.trans (if_neg hij)),
        List.filterMap_nil, List.append_nil]

theorem Alone.start (h : (inMemory c).start me = .ok s) (i : Fin c.size) : Alone me [] s i := by
  obtain ⟨-, rfl⟩ := start_of_protocol h
  exact ⟨[], .start (congrArg Except.ok (get_initial i).symm), rfl⟩

/-- **A gather is its broadcasts, side by side.**  In every history of a gather each call goes to
one of the broadcasts.  Each broadcast is where it would be on its own after the calls that go to
it, in their order: the messages of its index, without their route and in the envelope that was
around it, and, at the position of the node, the input.  What the node sends in such a call is what
the broadcast on its own sends there, behind the route of the broadcast and in the same envelope. -/
theorem product_of_broadcasts {log : List (Occurrence (inMemory c))}
    (h : History (inMemory c) me log s) :
    (∀ x ∈ log, ∃ i y, route c me x.stimulus = some (i, y)) ∧
      ∀ i : Fin c.size, ∃ alone : List (Occurrence (single c i)),
        History (single c i) me alone (s.broadcasts.get i) ∧
          log.filterMap (sceneOf me i) = alone.map (sceneAlone i) := by
  induction h with
  | start h => exact ⟨fun x hx => absurd hx List.not_mem_nil, Alone.start h⟩
  | @next log s x r _ hr ih =>
    obtain ⟨hroutes, halone⟩ := ih
    obtain ⟨i, y, b, hplays⟩ := react_eq_ok hr
    refine ⟨?_, fun j => Alone.next (halone j) hplays⟩
    intro z hz
    rcases List.mem_append.mp hz with hz | hz
    · exact hroutes z hz
    · rw [List.mem_singleton.mp hz]
      exact ⟨i, y, hplays.route⟩

open Broadcast (four)

/-- A message in the name of a member, behind a route and in an envelope of somebody else. -/
def routed (sender : NodeId) (index : UInt16) (kind : Broadcast.Kind) (value : Bytes) :
    Stimulus Bytes (inMemory four).Msg :=
  .message sender ⟨⟨⟨9⟩, ⟨9⟩⟩, ⟨⟨8⟩, ⟨8⟩⟩, broadcastSubsystem, index, kind, value⟩

/-- The broadcast of member 0 comes to its end, and in between there are calls for the others, one
of which has an equivocating broadcaster. -/
def interleaved : List (Stimulus Bytes (inMemory four).Msg) :=
  [routed ⟨0⟩ 0 .initial [7], .input [8], routed ⟨0⟩ 0 .echo [7], routed ⟨3⟩ 3 .initial [1],
    routed ⟨2⟩ 0 .echo [7], routed ⟨3⟩ 0 .echo [7], routed ⟨3⟩ 3 .initial [2],
    routed ⟨0⟩ 0 .ready [7], routed ⟨2⟩ 0 .ready [7], routed ⟨2⟩ 1 .echo [8],
    routed ⟨3⟩ 0 .ready [7]]

/-- The broadcast of member 0 delivers at member 1 after seven calls of its own, and echoes and is
ready on the way; that of member 3 echoes once. -/
theorem product_of_four_broadcasts : ∃ (log : List (Occurrence (inMemory four))) (s : State four),
    History (inMemory four) ⟨1⟩ log s ∧ log.map (·.stimulus) = interleaved ∧
    (log.filterMap (@sceneOf four ⟨1⟩ (0 : Fin 4))).map (·.2.2.length) = [4, 0, 0, 4, 0, 0, 0] ∧
    (log.filterMap (@sceneOf four ⟨1⟩ (3 : Fin 4))).map (·.2.2.length) = [4, 0] ∧
    (s.broadcasts.get (0 : Fin 4)).delivered = some [7] ∧
    (∀ x ∈ log, ∃ i y, route four ⟨1⟩ x.stimulus = some (i, y)) ∧
    ∀ i : Fin four.size, ∃ alone : List (Occurrence (single four i)),
      History (single four i) ⟨1⟩ alone (s.broadcasts.get i) ∧
        log.filterMap (sceneOf ⟨1⟩ i) = alone.map (sceneAlone i) := by
  obtain ⟨log, s, h, hcalls, htest⟩ :=
    @History.exists (inMemory four) ⟨1⟩ interleaved
      (fun log (s : State four) =>
        (log.filterMap (@sceneOf four ⟨1⟩ (0 : Fin 4))).map (·.2.2.length) = [4, 0, 0, 4, 0, 0, 0] ∧
        (log.filterMap (@sceneOf four ⟨1⟩ (3 : Fin 4))).map (·.2.2.length) = [4, 0] ∧
        (s.broadcasts.get (0 : Fin 4)).delivered = some [7])
      (by decide +kernel)
  obtain ⟨hzero, hthree, hdelivered⟩ := of_decide_eq_true htest
  exact ⟨log, s, h, hcalls, hzero, hthree, hdelivered, product_of_broadcasts h⟩

end Quorum.Gather
