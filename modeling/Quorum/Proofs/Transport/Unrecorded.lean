import Quorum.Proofs.Recorded
import Quorum.Proofs.Transport.History

/-!
# Unrecorded — a record makes no difference behind a transport

What is proved of a node with a record is about the same node without: whatever happens, the two
send the same, warn of the same, publish the same and end alike.  So it is for anything else that
the states of the automaton may hold and nothing reads.

**Main statements.**  `Node.forget_fresh`, `Node.forget_run`: to leave it out first or last comes to
the same.  `Node.exists_twin`: whatever happens at a node happens at one whose states hold
more.
-/

namespace Quorum.Transport

open Signing

variable {S : Scheme} {P : Protocol} {G : Ghost P}

/-- A node without what nothing reads. -/
def Node.forget (G : Ghost P) (node : Node S G.protocol) : Node S P where
  me := node.me
  committee := node.committee
  config := node.config
  state := G.forgetNested node.state
  output := node.output
  now := node.now
  deadline := node.deadline
  stop := node.stop
  sent := node.sent
  notices := node.notices

def Command.forget (G : Ghost P) : Command G.protocol → Command P
  | .input i => .input i
  | .dismiss peer => .dismiss peer
  | .shutdown => .shutdown

def Event.forget (G : Ghost P) : Event S G.protocol → Event S P
  | .frame f => .frame f
  | .command c => .command (c.forget G)
  | .elapse t => .elapse t

theorem Event.forget_surjective (G : Ghost P) :
    Function.Surjective (Event.forget G : Event S G.protocol → Event S P) := by
  rintro (f | c | t)
  · exact ⟨.frame f, rfl⟩
  · cases c with
    | input i => exact ⟨.command (.input i), rfl⟩
    | dismiss peer => exact ⟨.command (.dismiss peer), rfl⟩
    | shutdown => exact ⟨.command .shutdown, rfl⟩
  · exact ⟨.elapse t, rfl⟩

namespace Node

theorem forget_transmit (node : Node S G.protocol) (ms : List (Outgoing (Reliable.Message P.Msg))) :
    (node.transmit ms).forget G = (node.forget G).transmit ms := by
  induction ms generalizing node with
  | nil => rfl
  | cons m ms ih =>
    unfold transmit
    cases Reliable.Message.encode P.encode m.body with
    | error e => rfl
    | ok payload => exact ih _

theorem forget_publish (node : Node S G.protocol) :
    node.publish.forget G = (node.forget G).publish := by
  have hstop : (node.forget G).stop = node.stop := rfl
  unfold publish
  rw [hstop]
  split <;> rfl

theorem forget_settle (node : Node S G.protocol)
    (outcome : Outcome (Reliable.State G.protocol) (Reliable.Message P.Msg)) :
    (node.settle outcome).forget G =
      (node.forget G).settle (outcome.map (Reaction.mapState G.forgetNested)) := by
  cases outcome with
  | error failure => rfl
  | ok r => exact forget_transmit _ _

theorem forget_examine (node : Node S G.protocol) (f : Frame S) :
    (node.forget G).examine f = node.examine f := by
  unfold examine
  cases (Reliable.Message.read P.decode).decode f.payload with
  | error e => rfl
  | ok m => rfl

theorem forget_onFrame (node : Node S G.protocol) (f : Frame S) :
    (node.onFrame f).forget G = (node.forget G).onFrame f := by
  unfold onFrame
  rw [forget_examine]
  cases node.examine f with
  | error why => rfl
  | ok x =>
    cases x with
    | none => rfl
    | some x => exact (forget_settle _ _).trans (by rw [Ghost.forget_reliableReceive]; rfl)

theorem forget_onCommand (node : Node S G.protocol) (c : Command G.protocol) :
    (node.onCommand c).forget G = (node.forget G).onCommand (c.forget G) := by
  cases c with
  | input i => exact (forget_settle _ _).trans (by rw [Ghost.forget_reliableInput]; rfl)
  | dismiss peer => rfl
  | shutdown => rfl

theorem forget_onTick (node : Node S G.protocol) :
    node.onTick.forget G = (node.forget G).onTick :=
  (forget_settle _ _).trans (by rw [Ghost.forget_reliableInput]; rfl)

theorem forget_advance (node : Node S G.protocol) (t : Reliable.Time) :
    (node.advance t).forget G = (node.forget G).advance t := by
  unfold advance
  dsimp only
  have hstop : (node.forget G).stop = node.stop := rfl
  have hnow : (node.forget G).now = node.now := rfl
  have hdeadline : (node.forget G).deadline = node.deadline := rfl
  rw [hstop, hnow, hdeadline]
  split
  · rfl
  · rw [forget_publish, forget_onTick]
    rfl

theorem forget_handle (node : Node S G.protocol) (e : Event S G.protocol) :
    (node.handle e).forget G = (node.forget G).handle (e.forget G) := by
  have hstop : (node.forget G).stop = node.stop := rfl
  cases e with
  | frame f =>
    simp only [handle, takeFrames, Event.forget]
    rw [hstop]
    split
    · rfl
    · rw [forget_publish, forget_onFrame]
  | command c =>
    simp only [handle, command, Event.forget]
    rw [hstop]
    by_cases hended : node.stop.isSome
    · rw [if_pos hended, if_pos hended]
    · rw [if_neg hended, if_neg hended]
      exact (forget_publish _).trans (by rw [forget_onCommand])
  | elapse t => exact forget_advance node t

/-- **A node does the same without what nothing reads.** -/
theorem forget_run (node : Node S G.protocol) (es : List (Event S G.protocol)) :
    (node.run es).forget G = (node.forget G).run (es.map (Event.forget G)) := by
  induction es using List.reverseRecOn with
  | nil => rfl
  | append_singleton es e ih =>
    rw [run_concat, forget_handle, ih, List.map_append, List.map_singleton, run_concat]

theorem forget_create (me : NodeId) (committee : Committee) (config : Config) :
    (create S G.protocol me committee config).map (forget G) = create S P me committee config := by
  have hnested : (G.protocol.start me).map G.forget = P.start me := G.forget_start me
  unfold create
  rw [← hnested]
  cases G.protocol.start me with
  | error fault => rfl
  | ok nested =>
    cases validCapacity config.capacity with
    | false => rfl
    | true =>
      by_cases hinterval : config.tickInterval = 0
      · simp only [hinterval]
        rfl
      · simp only [hinterval]
        rfl

/-- **A node starts as it does without what nothing reads.** -/
theorem forget_fresh (ticked : Bool) (me : NodeId) (committee : Committee) (config : Config) :
    (fresh ticked S G.protocol me committee config).map (forget G) =
      fresh ticked S P me committee config := by
  have hcreate := forget_create (S := S) (G := G) me committee config
  cases ticked with
  | false => exact hcreate
  | true =>
    change ((advance · 0) <$> create S G.protocol me committee config).map (forget G) =
      (advance · 0) <$> create S P me committee config
    rw [← hcreate]
    cases create S G.protocol me committee config with
    | error fault => rfl
    | ok node => exact congrArg Except.ok (forget_advance node 0)

/-- **Whatever happens at a node happens at one whose states hold more**, and to the same effect. -/
theorem exists_twin (G : Ghost P) {ticked : Bool} {node : Node S P} {me : NodeId}
    {committee : Committee} {config : Config}
    (hstart : fresh ticked S P me committee config = .ok node) (es : List (Event S P)) :
    ∃ (twin : Node S G.protocol) (es' : List (Event S G.protocol)),
      fresh ticked S G.protocol me committee config = .ok twin ∧ es'.map (Event.forget G) = es ∧
        (twin.run es').forget G = node.run es := by
  obtain ⟨es', rfl⟩ := (Event.forget_surjective G).list_map es
  rw [← forget_fresh (G := G)] at hstart
  obtain ⟨twin, htwin, rfl⟩ := map_eq_ok hstart
  exact ⟨twin, es', htwin, rfl, forget_run twin es'⟩

end Node

end Quorum.Transport
