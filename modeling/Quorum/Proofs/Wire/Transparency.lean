import Quorum.Proofs.Simulation
import Quorum.Proofs.Wire.Legible

/-!
# Transparency — a simulation does not notice the codec

In a simulation, messages are handed over as they are, or are written and read again, and then have
lost the envelopes and stamps that they carry in memory.  For the protocols here, in any number of
layers, the two simulations go through the same states all the same, as long as what is sent can be
written: no node can tell what it is handed from what was sent, and nothing is unreadable.

**Main statements.**  `Stack.legible`: every stack sends only what is read as something alike.
`step_wired` and `InOrder.step`: one step.  `wire_transparent`: any number of commands.
-/

namespace Quorum

/-! ### Stacks -/

/-- One of the protocols here, with any number of layers above it. -/
inductive Stack where
  | pingPong (expect : Nat)
  | broadcast (c : Committee) (broadcaster : NodeId)
  | gather (c : Committee)
  | selfDelivering (limit : Nat) (nested : Stack)
  | reliable (period : Reliable.Time) (nested : Stack)
  /-- What is nested, with its messages in envelopes. -/
  | enveloped (nested : Stack)
  /-- Reliable channels whose batches carry their stamps. -/
  | stamped (period : Reliable.Time) (nested : Stack)

namespace Stack

/-- The protocol of a stack. -/
def protocol : Stack → Protocol
  | pingPong expect => .pingPong expect
  | broadcast c broadcaster => .broadcast c broadcaster
  | gather c => .gather c
  | selfDelivering limit nested => nested.protocol.selfDelivering limit
  | reliable period nested => nested.protocol.reliable period
  | enveloped nested => nested.protocol.enveloped
  | stamped period nested => nested.protocol.stamped period

/-- The stack with its messages as they are in memory.  What a channel carries for another layer
lies in envelopes, as do the messages of broadcasts in a gather. -/
def inMemory : Stack → Stack
  | pingPong expect => pingPong expect
  | broadcast c broadcaster => broadcast c broadcaster
  | gather c => enveloped (gather c)
  | selfDelivering limit nested => selfDelivering limit nested.inMemory
  | reliable period nested | stamped period nested => stamped period (enveloped nested.inMemory)
  | enveloped nested => enveloped nested.inMemory

/-- The state after a peer has been dismissed, which only an outermost channel can do. -/
def dismiss : (S : Stack) → S.protocol.State → NodeId → S.protocol.State
  | reliable _ nested, s, peer | stamped _ nested, s, peer =>
    Reliable.State.dismiss (P := nested.protocol) s peer
  | enveloped nested, s, peer => nested.dismiss s peer
  | pingPong _, s, _ | broadcast .., s, _ | gather _, s, _ | selfDelivering .., s, _ => s

/-- **Every stack is legible**, and stays so when peers are dismissed; its nodes never fail for want
of a message that can be read. -/
theorem legible (S : Stack) : ∃ normal keeps refuses faults,
    Legible S.protocol normal keeps refuses faults ∧
    (∀ s peer, keeps s → keeps (S.dismiss s peer)) ∧
    ∀ e, ¬ refuses (.undecodable e) ∧ ¬ faults (.undecodable e) := by
  induction S with
  | pingPong expect =>
    exact ⟨_, _, _, _, legible_pingPong expect, fun _ _ hs => hs, fun _ => ⟨id, id⟩⟩
  | broadcast c broadcaster =>
    refine ⟨_, _, _, _, legible_broadcast c broadcaster, fun _ _ hs => hs, fun e => ⟨?_, id⟩⟩
    simp [Broadcast.Refuses]
  | gather c =>
    refine ⟨_, _, _, _, legible_gather c, fun _ _ hs => hs, fun e => ⟨?_, id⟩⟩
    simp [Gather.Refuses]
  | selfDelivering limit nested ih =>
    obtain ⟨normal, keeps, refuses, faults, h, -, hfaults⟩ := ih
    refine ⟨normal, keeps, refuses, _, h.selfDelivering limit, fun _ _ hs => hs, fun e => ?_⟩
    exact ⟨(hfaults e).1, fun he => he.elim nofun (hfaults e).2⟩
  | reliable period nested ih =>
    obtain ⟨normal, keeps, refuses, faults, h, -, hfaults⟩ := ih
    refine ⟨_, _, refuses, _, h.reliable period, fun _ peer hs => hs.dismiss peer, fun e => ?_⟩
    exact ⟨(hfaults e).1, fun he => he.elim nofun (hfaults e).2⟩
  | enveloped nested ih =>
    obtain ⟨normal, keeps, refuses, faults, h, hdismiss, hfaults⟩ := ih
    exact ⟨_, keeps, refuses, faults, h.enveloped, hdismiss, hfaults⟩
  | stamped period nested ih =>
    obtain ⟨normal, keeps, refuses, faults, h, -, hfaults⟩ := ih
    refine ⟨_, _, refuses, _, h.stamped period, fun _ peer hs => hs.dismiss peer, fun e => ?_⟩
    exact ⟨(hfaults e).1, fun he => he.elim nofun (hfaults e).2⟩

end Stack

namespace Simulation

/-! ### One step -/

section
variable {P : Protocol} {normal : P.Msg → Prop} {keeps : P.State → Prop}
  {refuses faults : Fault → Prop} {sim sim' : Simulation P}

def wired (sim : Simulation P) : Simulation P := { sim with wire := true }

@[simp] theorem wired_nodes (sim : Simulation P) : sim.wired.nodes = sim.nodes := rfl
@[simp] theorem wired_inputs (sim : Simulation P) : sim.wired.inputs = sim.inputs := rfl
@[simp] theorem wired_queue (sim : Simulation P) : sim.wired.queue = sim.queue := rfl
@[simp] theorem wired_loss (sim : Simulation P) : sim.wired.loss = sim.loss := rfl

/-- All nodes are in order, and so is all that is in transit. -/
structure InOrder (normal : P.Msg → Prop) (keeps : P.State → Prop) (sim : Simulation P) :
    Prop where
  nodes : ∀ id s, sim.nodes.get? id = some s → keeps s
  queue : ∀ p ∈ sim.queue.toList, normal p.body

def Writable (sim : Simulation P) : Prop :=
  ∀ p ∈ sim.queue.toList, ∃ bytes, P.encode p.body = .ok bytes

theorem enqueue_wired (sim : Simulation P) (p : Packet P.Msg) :
    sim.wired.enqueue p = wired <$> sim.enqueue p := by
  unfold enqueue wired
  dsimp only
  split
  · rfl
  · split <;> rfl

theorem enqueueFrom_wired (sim : Simulation P) (sender : NodeId) (out : List (Outgoing P.Msg)) :
    sim.wired.enqueueFrom sender out = wired <$> sim.enqueueFrom sender out := by
  induction out generalizing sim with
  | nil => rfl
  | cons o out ih =>
    simp only [enqueueFrom, List.foldlM_cons] at ih ⊢
    rw [enqueue_wired]
    cases sim.enqueue (o.sentBy sender) with
    | error fault => rfl
    | ok next => exact ih next

theorem settle_wired (sim : Simulation P) (node : NodeId) (outcome : Outcome P.State P.Msg) :
    sim.wired.settle node outcome = wired <$> sim.settle node outcome := by
  cases outcome with
  | error failure => rfl
  | ok r => exact enqueueFrom_wired { sim with nodes := sim.nodes.insert node r.state } node r.sent

/-- **What arrives of a message in normal form is alike**, with the codec or without, if the message
can be written. -/
theorem transmit_normal (h : Legible P normal keeps refuses faults) (sim : Simulation P)
    {m : P.Msg} (hm : normal m) : (∃ m', sim.transmit m = .ok m' ∧ P.Alike m' m) ∨
      ∃ e, P.encode m = .error e ∧ sim.transmit m = .error (.unencodable e) := by
  unfold transmit
  split
  · cases hencode : P.encode m with
    | ok bytes =>
      obtain ⟨m', hdecode, halike⟩ := h.readable m bytes hm hencode
      exact .inl ⟨m', by simp only [hdecode]; rfl, halike⟩
    | error e => exact .inr ⟨e, rfl, rfl⟩
  · exact .inl ⟨m, rfl, fun _ _ _ => rfl⟩

theorem transmit_alike (h : Legible P normal keeps refuses faults) {m m' : P.Msg} (hm : normal m)
    (hok : sim.transmit m = .ok m') : P.Alike m' m := by
  rcases transmit_normal h sim hm with ⟨_, hsame, halike⟩ | ⟨e, -, herror⟩
  · cases hok.symm.trans hsame
    exact halike
  · cases hok.symm.trans herror

theorem transmit_unwired (hwire : sim.wire = false) (m : P.Msg) : sim.transmit m = .ok m := by
  rw [transmit, hwire]
  rfl

theorem deliver_wired (h : Legible P normal keeps refuses faults) (sim : Simulation P)
    {p : Packet P.Msg} (hwire : sim.wire = false) (hp : normal p.body)
    (hwritable : ∃ bytes, P.encode p.body = .ok bytes) :
    sim.wired.deliver p = wired <$> sim.deliver p := by
  rcases transmit_normal h sim.wired hp with ⟨m, hm, halike⟩ | ⟨e, herror, -⟩
  · unfold deliver
    rw [hm, transmit_unwired hwire, wired_nodes]
    cases sim.nodes.get? p.recipient with
    | none => rfl
    | some s =>
      dsimp only
      rw [halike]
      exact settle_wired { sim with delivered := sim.delivered + 1 } _ _
  · obtain ⟨bytes, hencode⟩ := hwritable
    cases herror.symm.trans hencode

theorem map_some_wired (x : Except Fault (Simulation P)) :
    some <$> wired <$> x = Option.map wired <$> some <$> x := by
  cases x <;> rfl

/-- **A step is the same with the codec**, if what is in transit can be written. -/
theorem step_wired (h : Legible P normal keeps refuses faults) (hsim : sim.InOrder normal keeps)
    (hwritable : sim.Writable) (hwire : sim.wire = false) :
    sim.wired.step = Option.map wired <$> sim.step := by
  unfold step
  simp only [wired_inputs, wired_nodes, wired_queue, wired_loss]
  cases sim.inputs.pop? with
  | some x =>
    obtain ⟨⟨node, i⟩, inputs⟩ := x
    dsimp only
    cases sim.nodes.get? node with
    | none => rfl
    | some s =>
      dsimp only
      rw [← map_some_wired]
      exact congrArg (some <$> ·) (settle_wired { sim with inputs } node (P.input node s i))
  | none =>
    cases hpop : sim.queue.pop? with
    | none => rfl
    | some x =>
      obtain ⟨p, rest⟩ := x
      dsimp only
      have hp : p ∈ sim.queue.toList := by
        rw [Fifo.toList_of_pop? hpop]
        exact List.mem_cons_self ..
      cases sim.loss.draw with
      | error e => rfl
      | ok x =>
        obtain ⟨survives, loss⟩ := x
        cases survives with
        | false => rfl
        | true =>
          dsimp only
          rw [← map_some_wired]
          exact congrArg (some <$> ·)
            (deliver_wired h { sim with queue := rest, loss } hwire (hsim.queue p hp)
              (hwritable p hp))

theorem keeps_insert {nodes : SortedMap NodeId P.State}
    (hnodes : ∀ id s, nodes.get? id = some s → keeps s) {node : NodeId} {s' : P.State}
    (hs' : keeps s') : ∀ id s, (nodes.insert node s').get? id = some s → keeps s := by
  intro id s hs
  rw [SortedMap.get?_insert] at hs
  split at hs
  · cases hs
    exact hs'
  · exact hnodes id s hs

theorem normal_sent {out : List (Outgoing P.Msg)} (hout : ∀ o ∈ out, normal o.body)
    (node : NodeId) : ∀ p ∈ out.map (Outgoing.sentBy node), normal p.body := by
  intro p hp
  obtain ⟨o, ho, rfl⟩ := List.mem_map.mp hp
  exact hout o ho

/-- **A step keeps everything in order.** -/
theorem InOrder.step (h : Legible P normal keeps refuses faults) (hsim : sim.InOrder normal keeps)
    (hstep : sim.step = .ok (some sim')) :
    sim'.InOrder normal keeps := by
  cases step_takes hstep with
  | input hpop hs hr hqueue =>
    obtain ⟨hstate, hout⟩ := (orderly_iff.mp (h.input _ _ _ (hsim.nodes _ _ hs))).1 _ hr
    refine ⟨keeps_insert hsim.nodes hstate, ?_⟩
    rw [hqueue]
    exact List.forall_mem_append.mpr ⟨hsim.queue, normal_sent hout _⟩
  | lost hinputs hpop hdraw =>
    refine ⟨hsim.nodes, fun p hp => hsim.queue p ?_⟩
    rw [Fifo.toList_of_pop? hpop]
    exact List.mem_cons_of_mem _ hp
  | discarded hinputs hpop hdraw hs =>
    refine ⟨hsim.nodes, fun p hp => hsim.queue p ?_⟩
    rw [Fifo.toList_of_pop? hpop]
    exact List.mem_cons_of_mem _ hp
  | @delivered p rest _ _ s m r _ hinputs hpop hdraw hs hm hr hqueue =>
    have hold := hsim.queue
    rw [Fifo.toList_of_pop? hpop, List.forall_mem_cons] at hold
    rw [transmit_alike h hold.1 hm] at hr
    obtain ⟨hstate, hout⟩ :=
      (orderly_iff.mp (h.receive _ _ p.sender _ (hsim.nodes _ _ hs) hold.1)).1 _ hr
    refine ⟨keeps_insert hsim.nodes hstate, ?_⟩
    rw [hqueue]
    exact List.forall_mem_append.mpr ⟨hold.2, normal_sent hout _⟩

theorem chance_draw {loss loss' : Randomness.Loss} {survives : Bool}
    (h : loss.draw = .ok (survives, loss')) : loss'.chance = loss.chance := by
  unfold Randomness.Loss.draw at h
  split at h
  · cases h
    rfl
  · cases h
    rfl
  · cases h

/-- Two simulations are set up in the same way. -/
structure SameSetup (sim sim' : Simulation P) : Prop where
  wire : sim'.wire = sim.wire
  chance : sim'.loss.chance = sim.loss.chance

theorem SameSetup.refl (sim : Simulation P) : sim.SameSetup sim := ⟨rfl, rfl⟩

theorem SameSetup.trans {sim'' : Simulation P} (h : sim.SameSetup sim')
    (h' : sim'.SameSetup sim'') : sim.SameSetup sim'' :=
  ⟨h'.wire.trans h.wire, h'.chance.trans h.chance⟩

theorem sameSetup_step (hstep : sim.step = .ok (some sim')) : sim.SameSetup sim' := by
  cases step_takes hstep with
  | input => exact ⟨rfl, rfl⟩
  | lost _ _ hdraw => exact ⟨rfl, chance_draw hdraw⟩
  | discarded _ _ hdraw => exact ⟨rfl, chance_draw hdraw⟩
  | delivered _ _ hdraw => exact ⟨rfl, chance_draw hdraw⟩

/-- What a step can fail with: a fault of a node; if inputs are given, an input that is refused or
is for nobody; a message that is too long to be written; a chance that is no probability. -/
inductive Meets (refuses faults : Fault → Prop) (given : Prop) (chance : Randomness.Chance) :
    Fault → Prop where
  | node {fault : Fault} (h : faults fault) : Meets refuses faults given chance fault
  | refused {fault : Fault} (hgiven : given) (h : refuses fault) :
      Meets refuses faults given chance fault
  | unknownNode (hgiven : given) (id : NodeId) :
      Meets refuses faults given chance (.unknownNode id)
  | unencodable (e : Wire.EncodeError) : Meets refuses faults given chance (.unencodable e)
  | notAProbability (h : chance = .negative) :
      Meets refuses faults given chance .notAProbability

theorem Meets.mono {given given' : Prop} {chance : Randomness.Chance} {fault : Fault}
    (h : Meets refuses faults given chance fault) (hgiven : given → given') :
    Meets refuses faults given' chance fault := by
  cases h with
  | node h => exact .node h
  | refused hold h => exact .refused (hgiven hold) h
  | unknownNode hold id => exact .unknownNode (hgiven hold) id
  | unencodable e => exact .unencodable e
  | notAProbability h => exact .notAProbability h

theorem enqueueFrom_error {sender : NodeId} {out : List (Outgoing P.Msg)} {fault : Fault}
    (h : sim.enqueueFrom sender out = .error fault) : ∃ e, fault = .unencodable e := by
  induction out generalizing sim with
  | nil => cases h
  | cons o out ih =>
    rw [enqueueFrom, List.foldlM_cons] at h
    rcases Reliable.Link.bind_eq_error h with hfirst | ⟨next, -, h⟩
    · unfold enqueue at hfirst
      split at hfirst
      · cases hfirst
      · split at hfirst
        · cases hfirst
        · cases hfirst
          exact ⟨_, rfl⟩
    · exact ih h

theorem settle_error {node : NodeId} {outcome : Outcome P.State P.Msg} {meets : Fault → Prop}
    (houtcome : Orderly normal keeps meets outcome) {fault : Fault}
    (h : sim.settle node outcome = .error fault) : meets fault ∨ ∃ e, fault = .unencodable e := by
  cases outcome with
  | ok r => exact .inr (enqueueFrom_error h)
  | error failure =>
    cases h
    exact .inl houtcome

theorem map_some_eq_error {ε α : Type} {x : Except ε α} {e : ε}
    (h : some <$> x = .error e) : x = .error e := by
  cases x with
  | error e' =>
    cases h
    rfl
  | ok b => cases h

/-- **Nothing in transit is unreadable**: a step fails for other reasons. -/
theorem InOrder.step_error (h : Legible P normal keeps refuses faults)
    (hsim : sim.InOrder normal keeps) {fault : Fault} (hstep : sim.step = .error fault) :
    Meets refuses faults (sim.inputs.toList ≠ []) sim.loss.chance fault := by
  unfold Simulation.step at hstep
  split at hstep
  · rename_i node i inputs hpop
    have hgiven : sim.inputs.toList ≠ [] := by
      rw [Fifo.toList_of_pop? hpop]
      exact List.cons_ne_nil _ _
    split at hstep
    · cases hstep
      exact .unknownNode hgiven node
    · rename_i s hs
      have hinput := h.input node s i (hsim.nodes node s hs)
      rcases settle_error hinput (map_some_eq_error hstep) with
        (hrefused | hfault) | ⟨e, rfl⟩
      · exact .refused hgiven hrefused
      · exact .node hfault
      · exact .unencodable e
  · split at hstep
    · cases hstep
    · rename_i p rest hpop
      split at hstep
      · rename_i hdraw
        cases hstep
        unfold Randomness.Loss.draw at hdraw
        split at hdraw
        · cases hdraw
        · cases hdraw
        · rename_i hchance
          exact .notAProbability hchance
      · rename_i loss hdraw
        have hp : normal p.body := by
          refine hsim.queue p ?_
          rw [Fifo.toList_of_pop? hpop]
          exact List.mem_cons_self ..
        have hstep := map_some_eq_error hstep
        unfold deliver at hstep
        dsimp only at hstep
        split at hstep
        · cases hstep
        · rename_i s hs
          rcases transmit_normal h { sim with queue := rest, loss } hp with
            ⟨m, hm, halike⟩ | ⟨e, -, hm⟩
          · rw [hm] at hstep
            dsimp only at hstep
            rw [halike] at hstep
            rcases settle_error (h.receive _ s _ _ (hsim.nodes _ s hs) hp) hstep with
              hfault | ⟨e, rfl⟩
            · exact .node hfault
            · exact .unencodable e
          · rw [hm] at hstep
            cases hstep
            exact .unencodable e
      · cases hstep

theorem InOrder.start (h : Legible P normal keeps refuses faults) {ids : List NodeId}
    (hstart : Simulation.start P ids = .ok sim) :
    sim.InOrder normal keeps ∧ sim.queue = {} ∧ sim.wire = false := by
  obtain ⟨nodes, hnodes, hsim⟩ := bind_eq_ok hstart
  cases hsim
  refine ⟨⟨fun id s hs => ?_, fun p hp => absurd hp List.not_mem_nil⟩, rfl, rfl⟩
  rcases Mesh.foldlM_start hnodes id with ⟨-, s', hs', hget⟩ | ⟨-, hget⟩
  · cases hs.symm.trans hget
    exact h.start id s hs'
  · cases hs.symm.trans hget

/-- What comes of a simulation is another one that is set up in the same way and in order, or it is
one of the faults that can be met. -/
def Proceeds (normal : P.Msg → Prop) (keeps : P.State → Prop) (refuses faults : Fault → Prop)
    (sim : Simulation P) : Except Fault (Simulation P) → Prop
  | .ok next => next.InOrder normal keeps ∧ sim.SameSetup next
  | .error fault => Meets refuses faults True sim.loss.chance fault

theorem Proceeds.after {outcome : Except Fault (Simulation P)} (hsetup : sim.SameSetup sim')
    (h : Proceeds normal keeps refuses faults sim' outcome) :
    Proceeds normal keeps refuses faults sim outcome := by
  cases outcome with
  | ok next => exact ⟨h.1, hsetup.trans h.2⟩
  | error fault =>
    rw [Proceeds, ← hsetup.chance]
    exact h

/-- **Steps keep everything in order.** -/
theorem InOrder.runSteps (h : Legible P normal keeps refuses faults) {max : Nat}
    (hsim : sim.InOrder normal keeps) :
    Proceeds normal keeps refuses faults sim ((·.1) <$> sim.runSteps max) := by
  induction max generalizing sim with
  | zero => exact ⟨hsim, .refl sim⟩
  | succ max ih =>
    rw [Simulation.runSteps]
    cases hstep : sim.step with
    | error fault => exact (hsim.step_error h hstep).mono fun _ => trivial
    | ok next =>
      cases next with
      | none => exact ⟨hsim, .refl sim⟩
      | some next => exact (ih (hsim.step h hstep)).after (sameSetup_step hstep)

end

/-! ### Commands -/

section
variable {S : Stack} {normal : S.protocol.Msg → Prop} {keeps : S.protocol.State → Prop}
  {refuses faults : Fault → Prop} {sim sim' : Simulation S.protocol}

/-- What is done to a simulation from outside.  To take steps until nothing is left to do is
`runSteps stepLimit`. -/
inductive Command (S : Stack) where
  | addInputs (inputs : List (NodeId × S.protocol.Input))
  | runSteps (max : Nat)
  | dismiss (node peer : NodeId)

def perform (sim : Simulation S.protocol) : Command S → Except Fault (Simulation S.protocol)
  | .addInputs inputs => .ok (sim.addInputs inputs)
  | .runSteps max => (·.1) <$> sim.runSteps max
  | .dismiss node peer => sim.modify node (S.dismiss · peer)

/-- The simulation after commands, one after the other. -/
def script (sim : Simulation S.protocol) : List (Command S) → Except Fault (Simulation S.protocol)
  | [] => .ok sim
  | c :: cs =>
    match sim.perform c with
    | .ok next => next.script cs
    | .error fault => .error fault

/-- The simulations after each of at most `max` steps. -/
def stages (sim : Simulation S.protocol) : (max : Nat) → List (Simulation S.protocol)
  | 0 => []
  | max + 1 =>
    match sim.step with
    | .ok (some next) => next :: next.stages max
    | .ok none | .error _ => []

/-- The simulations that come about while a command is carried out. -/
def stagesOf (sim : Simulation S.protocol) : Command S → List (Simulation S.protocol)
  | .runSteps max => sim.stages max
  | .addInputs _ | .dismiss .. => []

/-- All simulations that come about in the course of commands: after every step, and after every
command. -/
def history (sim : Simulation S.protocol) : List (Command S) → List (Simulation S.protocol)
  | [] => []
  | c :: cs =>
    sim.stagesOf c ++
      match sim.perform c with
      | .ok next => next :: next.history cs
      | .error _ => []

section
variable (h : Legible S.protocol normal keeps refuses faults)
  (hdismiss : ∀ s peer, keeps s → keeps (S.dismiss s peer))
include h

section
include hdismiss

theorem InOrder.perform (c : Command S) (hsim : sim.InOrder normal keeps) :
    Proceeds normal keeps refuses faults sim (sim.perform c) := by
  cases c with
  | addInputs inputs => exact ⟨⟨hsim.nodes, hsim.queue⟩, rfl, rfl⟩
  | runSteps max => exact hsim.runSteps h
  | dismiss node peer =>
    rw [Simulation.perform, modify]
    cases hs : sim.nodes.get? node with
    | none => exact .unknownNode trivial node
    | some s =>
      have hkeeps := hdismiss s peer (hsim.nodes node s hs)
      exact ⟨⟨keeps_insert hsim.nodes hkeeps, hsim.queue⟩, rfl, rfl⟩

/-- **Commands keep everything in order.** -/
theorem InOrder.script (cs : List (Command S)) (hsim : sim.InOrder normal keeps) :
    Proceeds normal keeps refuses faults sim (sim.script cs) := by
  induction cs generalizing sim with
  | nil => exact ⟨hsim, .refl sim⟩
  | cons c cs ih =>
    have hperform := hsim.perform h hdismiss c
    rw [Simulation.script]
    cases hnext : sim.perform c with
    | error fault =>
      rw [hnext] at hperform
      exact hperform
    | ok next =>
      rw [hnext] at hperform
      exact (ih hperform.1).after hperform.2

end

/-- **Steps are the same with the codec.** -/
theorem runSteps_wired {max : Nat} (hsim : sim.InOrder normal keeps) (hwire : sim.wire = false)
    (hwritable : sim.Writable) (hstages : ∀ next ∈ sim.stages max, next.Writable) :
    sim.wired.runSteps max = (fun x => (x.1.wired, x.2)) <$> sim.runSteps max ∧
      sim.wired.stages max = (sim.stages max).map wired := by
  induction max generalizing sim with
  | zero => exact ⟨rfl, rfl⟩
  | succ max ih =>
    rw [runSteps, runSteps, stages, stages, step_wired h hsim hwritable hwire]
    rw [stages] at hstages
    cases hnext : sim.step with
    | error fault => exact ⟨rfl, rfl⟩
    | ok next =>
      cases next with
      | none => exact ⟨rfl, rfl⟩
      | some next =>
        rw [hnext] at hstages
        obtain ⟨hfirst, hrest⟩ := List.forall_mem_cons.mp hstages
        have hunwired := (sameSetup_step hnext).wire.trans hwire
        obtain ⟨hrun, hsame⟩ := ih (hsim.step h hnext) hunwired hfirst hrest
        exact ⟨hrun, congrArg (next.wired :: ·) hsame⟩

/-- **A command is the same with the codec.** -/
theorem perform_wired (c : Command S) (hsim : sim.InOrder normal keeps)
    (hwire : sim.wire = false) (hwritable : sim.Writable)
    (hstages : ∀ next ∈ sim.stagesOf c, next.Writable) :
    sim.wired.perform c = wired <$> sim.perform c ∧
      sim.wired.stagesOf c = (sim.stagesOf c).map wired := by
  cases c with
  | addInputs inputs => exact ⟨rfl, rfl⟩
  | runSteps max =>
    obtain ⟨hrun, hsame⟩ := runSteps_wired h hsim hwire hwritable hstages
    refine ⟨?_, hsame⟩
    rw [perform, perform, hrun]
    cases sim.runSteps max <;> rfl
  | dismiss node peer =>
    rw [perform, perform, modify, modify, wired_nodes]
    cases sim.nodes.get? node <;> exact ⟨rfl, rfl⟩

include hdismiss

/-- **Commands are the same with the codec**, if everything that is ever in transit can be
written. -/
theorem script_wired (cs : List (Command S)) (hsim : sim.InOrder normal keeps)
    (hwire : sim.wire = false) (hwritable : sim.Writable)
    (hhistory : ∀ next ∈ sim.history cs, next.Writable) :
    sim.wired.script cs = wired <$> sim.script cs ∧
      sim.wired.history cs = (sim.history cs).map wired := by
  induction cs generalizing sim with
  | nil => exact ⟨rfl, rfl⟩
  | cons c cs ih =>
    obtain ⟨hstages, hrest⟩ := List.forall_mem_append.mp hhistory
    obtain ⟨hperform, hsame⟩ := perform_wired h c hsim hwire hwritable hstages
    have hproceeds := hsim.perform h hdismiss c
    rw [script, script, history, history, hperform, hsame, List.map_append]
    cases hnext : sim.perform c with
    | error fault => exact ⟨rfl, rfl⟩
    | ok next =>
      rw [hnext] at hrest hproceeds
      obtain ⟨hfirst, hrest⟩ := List.forall_mem_cons.mp hrest
      have hunwired := hproceeds.2.wire.trans hwire
      obtain ⟨hscript, hhistory'⟩ := ih hproceeds.1 hunwired hfirst hrest
      exact ⟨hscript, congrArg (_ ++ next.wired :: ·) hhistory'⟩

end

/-- **A simulation does not notice the codec.**  Nodes with any stack of layers, also with messages
as they are in memory, start and are put through any commands, with any loss, and with or without a
log.  If everything that is ever in transit can be written, then with the codec the simulation is
after every step and after every command the one without it: nodes, queues, counters and log are
the same, and so is the way it ends.  No message is ever unreadable. -/
theorem wire_transparent (S : Stack) {ids : List NodeId} {fresh : Simulation S.protocol}
    (hfresh : Simulation.start S.protocol ids = .ok fresh) (loss : Randomness.Loss)
    (log : Option (Fifo (Packet Bytes))) (cs : List (Command S))
    (hencode : ∀ sim ∈ Simulation.history { fresh with loss, log } cs, ∀ p ∈ sim.queue.toList,
      ∃ bytes, S.protocol.encode p.body = .ok bytes) :
    Simulation.history { fresh with loss, log, wire := true } cs =
        (Simulation.history { fresh with loss, log } cs).map ({ · with wire := true }) ∧
      Simulation.script { fresh with loss, log, wire := true } cs =
        ({ · with wire := true }) <$> Simulation.script { fresh with loss, log } cs ∧
      ∀ e, Simulation.script { fresh with loss, log, wire := true } cs ≠
        .error (.undecodable e) := by
  obtain ⟨normal, keeps, refuses, faults, h, hdismiss, hfaults⟩ := S.legible
  obtain ⟨hlegible, hqueue, hwire⟩ := InOrder.start h hfresh
  have hsim : ∀ wire, Simulation.InOrder normal keeps
      ({ fresh with loss, log, wire } : Simulation S.protocol) := fun _ =>
    ⟨hlegible.nodes, hlegible.queue⟩
  obtain ⟨hscript, hhistory⟩ := script_wired h hdismiss cs (hsim fresh.wire) hwire
    (fun p hp => absurd (hqueue ▸ hp) List.not_mem_nil) hencode
  refine ⟨hhistory, hscript, fun e he => ?_⟩
  have hproceeds := (hsim true).script h hdismiss cs
  rw [he] at hproceeds
  cases hproceeds with
  | node hfault => exact (hfaults e).2 hfault
  | refused _ hrefused => exact (hfaults e).1 hrefused

end

/-! ### A gather with losses -/

def pairGather : Stack := .selfDelivering 100 (.gather ⟨[⟨1⟩, ⟨2⟩]⟩)

def gatherOfTwo : Stack := .reliable 0 pairGather

/-- Both nodes are given a value, what has been lost is sent again, and one dismisses the other. -/
def lossyGather {S : Stack} (value : Bytes → S.protocol.Input) (tick : Nat → S.protocol.Input) :
    List (Command S) :=
  [.addInputs [(⟨1⟩, value [7]), (⟨2⟩, value [8])], .runSteps 30,
    .addInputs [(⟨1⟩, tick 5), (⟨2⟩, tick 5), (⟨1⟩, tick 6), (⟨2⟩, tick 6)], .runSteps 30,
    .dismiss ⟨1⟩ ⟨2⟩]

def quarterLost : Randomness.Loss := .seeded (.below (3 * 2 ^ 62)) 36

/-- With the codec, three messages are lost.  Batches are sent again with the time of that, which is
not written, and both nodes have an output in the end. -/
theorem wire_transparent_of_two :
    let S := gatherOfTwo.inMemory
    let nested := pairGather.inMemory.protocol.enveloped
    let commands : List (Command S) := lossyGather (Reliable.Input.nested (P := nested))
      (Reliable.Input.tick (P := nested))
    ∃ fresh, start S.protocol [⟨1⟩, ⟨2⟩] = .ok fresh ∧
    (∀ sim ∈ history { fresh with loss := quarterLost, log := some {} } commands,
      ∀ p ∈ sim.queue.toList, ∃ bytes, S.protocol.encode p.body = .ok bytes) ∧
    (∃ sim ∈ history { fresh with loss := quarterLost, log := some {} } commands,
      ∃ p ∈ sim.queue.toList, (p.body : Labelled _ _).label = some 6) ∧
    ∃ last, script { fresh with loss := quarterLost, log := some {}, wire := true } commands =
      .ok last ∧ last.delivered = 13 ∧ last.dropped = 3 ∧ last.outputCount = 2 := by
  intro S nested commands
  have hcheck : (start S.protocol [⟨1⟩, ⟨2⟩]).toOption.any (fun fresh =>
      ((history { fresh with loss := quarterLost, log := some {} } commands).all fun sim =>
        sim.queue.toList.all fun p => (S.protocol.encode p.body).toOption.isSome) &&
      ((history { fresh with loss := quarterLost, log := some {} } commands).any fun sim =>
        sim.queue.toList.any fun p => (p.body : Labelled _ _).label = some 6) &&
      (script { fresh with loss := quarterLost, log := some {} } commands).toOption.any
        fun last => last.delivered = 13 ∧ last.dropped = 3 ∧ last.outputCount = 2) = true := by
    decide +kernel
  obtain ⟨fresh, hfresh, hcheck⟩ := (Option.any_eq_true _ _).mp hcheck
  obtain ⟨hcheck, hlast⟩ := Bool.and_eq_true_iff.mp hcheck
  obtain ⟨hwritable, hstamped⟩ := Bool.and_eq_true_iff.mp hcheck
  obtain ⟨last, hscript, hlast⟩ := (Option.any_eq_true _ _).mp hlast
  have hfresh := Mesh.eq_ok_of_toOption hfresh
  have hencode : ∀ sim ∈ history { fresh with loss := quarterLost, log := some {} } commands,
      ∀ p ∈ sim.queue.toList, ∃ bytes, S.protocol.encode p.body = .ok bytes := by
    intro sim hsim p hp
    have hsome := List.all_eq_true.mp (List.all_eq_true.mp hwritable sim hsim) p hp
    obtain ⟨bytes, hbytes⟩ := Option.isSome_iff_exists.mp hsome
    exact ⟨bytes, Mesh.eq_ok_of_toOption hbytes⟩
  obtain ⟨sim, hsim, hstamped⟩ := List.any_eq_true.mp hstamped
  obtain ⟨p, hp, hstamped⟩ := List.any_eq_true.mp hstamped
  have hsame := (wire_transparent S hfresh quarterLost (some {}) commands hencode).2.1
  rw [Mesh.eq_ok_of_toOption hscript] at hsame
  exact ⟨fresh, hfresh, hencode, ⟨sim, hsim, p, hp, of_decide_eq_true hstamped⟩, _, hsame,
    of_decide_eq_true hlast⟩

end Simulation

end Quorum
