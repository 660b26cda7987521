import Quorum.Proofs.Reliable.Lossless
import Quorum.Proofs.Simulation

/-!
# Drain — a simulation over reliable channels that loses nothing comes to rest

Nodes that run a tame protocol over reliable channels stay joint in every step of a simulation that
loses nothing, and every step lowers the number of inputs to come and of messages that may still be
sent.  So the simulation ends, with all channels drained.

**Main statements.**  `Going.step_input`, `Going.step_deliver`: one step.  `drain`: the whole run.
-/

namespace Quorum.Reliable

open Mesh

variable {P : Protocol} {ids : List NodeId} {fits : P.Input → Prop} {most limit : Nat}
variable {period : Time} {inputs taken todo : List (NodeId × P.Input)}
variable {past past' : List (Moment P)} {mesh mesh' : Mesh P}
variable {sim : Simulation ((P.selfDelivering limit).reliable period)}

/-- The inputs `taken` have been given, and the inputs `todo` are to come; all nodes are joint. -/
structure Going (ids : List NodeId) (fits : P.Input → Prop) (inputs : List (NodeId × P.Input))
    (sim : Simulation ((P.selfDelivering limit).reliable period)) (past : List (Moment P))
    (mesh : Mesh P) (taken todo : List (NodeId × P.Input)) : Prop where
  joint : Joint ids fits sim.nodes sim.queue.toList past mesh
  certain : sim.loss.chance = .certain
  waiting : sim.inputs.toList = todo.map fun x => (x.1, .nested x.2)
  split : inputs = taken ++ todo
  given : ∀ id i, Given past id i ↔ (id, i) ∈ taken

/-- The inputs to come and the messages that may still be sent. -/
def left (ids : List NodeId) (most : Nat)
    (sim : Simulation ((P.selfDelivering limit).reliable period)) (mesh : Mesh P)
    (todo : List (NodeId × P.Input)) : Nat :=
  todo.length + total ids most sim.nodes sim.queue.toList mesh

/-- A simulation that is going, with so much left. -/
def Good (ids : List NodeId) (fits : P.Input → Prop) (most : Nat)
    (inputs : List (NodeId × P.Input))
    (sim : Simulation ((P.selfDelivering limit).reliable period)) (n : Nat) : Prop :=
  ∃ past mesh taken todo, Going ids fits inputs sim past mesh taken todo ∧
    left ids most sim mesh todo = n

theorem Joint.encode_ok {nodes : SortedMap NodeId (State (P.selfDelivering limit))}
    {queue : List (Packet (Message P.Msg))} {me : NodeId}
    {sent : List (Outgoing (Message P.Msg))} (ht : Tame P ids fits most)
    (h : Joint ids fits nodes (queue ++ sent.map (Outgoing.sentBy me)) past mesh) :
    ∀ o ∈ sent, ∃ bytes, Message.encode P.encode o.body = .ok bytes := by
  intro o ho
  have hreadable := h.readable ht (List.mem_append_right _ (List.mem_map_of_mem ho))
  obtain ⟨bytes, hencode, -⟩ := Message.read_encode hreadable
  exact ⟨bytes, hencode⟩

section
variable (ht : Tame P ids fits most) (hlimit : most ≤ limit) (hmost : most + 1 < UInt32.size)
include ht hlimit hmost

/-- **An input is taken, and nothing is added to what may still be sent.** -/
theorem Going.step_input {x : NodeId × P.Input}
    (hids : (inputs.map (·.1)).Nodup) (hmem : ∀ x ∈ inputs, x.1 ∈ ids)
    (hfits : ∀ x ∈ inputs, fits x.2)
    (h : Going ids fits inputs sim past mesh taken (x :: todo)) :
    ∃ sim' past' mesh', sim.step = .ok (some sim') ∧
      Going ids fits inputs sim' past' mesh' (taken ++ [x]) todo ∧
      left ids most sim' mesh' todo < left ids most sim mesh (x :: todo) := by
  obtain ⟨id, i⟩ := x
  have hx : (id, i) ∈ inputs := by
    rw [h.split]
    exact List.mem_append_right _ (List.mem_cons_self ..)
  obtain ⟨s, hs⟩ : ∃ s, sim.nodes.get? id = some s :=
    Option.isSome_iff_exists.mp (h.joint.mem_ids.mp (hmem _ hx))
  have hnew : ∀ j, ¬ Given past id j := by
    intro j hj
    rw [h.split, List.map_append, List.map_cons, List.nodup_append'] at hids
    exact hids.2.2 (List.mem_map_of_mem ((h.given id j).mp hj)) (List.mem_cons_self ..)
  obtain ⟨r, out, past', mesh', hr, hserved⟩ :=
    h.joint.input ht hlimit hmost period hs (hfits _ hx) hnew
  have hjoint' := hserved.joint sim.queue.toList h.joint ht
  have htotal := hserved.total_le sim.queue.toList h.joint ht
  have hencode := hjoint'.encode_ok ht
  cases hpop : sim.inputs.pop? with
  | none =>
    have hwaiting := h.waiting
    rw [Fifo.toList_of_pop?_none hpop] at hwaiting
    cases hwaiting
  | some y =>
    obtain ⟨y, rest⟩ := y
    have hwaiting := h.waiting
    rw [Fifo.toList_of_pop? hpop, List.map_cons] at hwaiting
    obtain ⟨rfl, hrest⟩ := List.cons.inj hwaiting
    obtain ⟨queue, log, hstep, hqueue⟩ := Simulation.step_input hpop hs hr hencode
    refine ⟨_, past', mesh', hstep, ?_, ?_⟩
    · exact
        { joint := by rw [hqueue]; exact hjoint'
          certain := h.certain
          waiting := hrest
          split := by rw [h.split, List.append_assoc]; rfl
          given := fun id' j => by
            rw [hserved.done.given, h.given, List.mem_append, List.mem_singleton, Prod.mk.injEq,
              Option.some.injEq]
            exact or_congr_right (and_congr eq_comm eq_comm) }
    · unfold left
      rw [hqueue]
      change _ + total ids most (sim.nodes.insert id r.state)
        (sim.queue.toList ++ r.sent.map (Outgoing.sentBy id)) mesh' < _
      change _ + 0 ≤ total ids most sim.nodes sim.queue.toList mesh at htotal
      rw [List.length_cons]
      omega

/-- **A message is delivered, and more is used up than added of what may still be sent.** -/
theorem Going.step_deliver (h : Going ids fits inputs sim past mesh taken []) :
    sim.step = .ok none ∨ ∃ sim' past' mesh', sim.step = .ok (some sim') ∧
      Going ids fits inputs sim' past' mesh' taken [] ∧
      left ids most sim' mesh' [] < left ids most sim mesh [] := by
  have hinputs : sim.inputs.pop? = none := by
    cases hpop : sim.inputs.pop? with
    | none => rfl
    | some y =>
      have hwaiting := h.waiting
      rw [Fifo.toList_of_pop? hpop] at hwaiting
      cases hwaiting
  cases hpop : sim.queue.pop? with
  | none =>
    left
    rw [Simulation.step, hinputs]
    simp only [hpop]
  | some y =>
    right
    obtain ⟨p, rest⟩ := y
    have hqueue := Fifo.toList_of_pop? hpop
    have hjoint := h.joint
    rw [hqueue] at hjoint
    obtain ⟨s, r, out, past', mesh', hr, hserved⟩ := hjoint.receive ht hlimit hmost
    have hjoint' := hserved.joint rest.toList hjoint ht
    have htotal := hserved.total_le rest.toList hjoint ht
    have hread := Message.read_encode (hjoint.readable ht (List.mem_cons_self ..))
    have hencode := hjoint'.encode_ok ht
    obtain ⟨queue, log, hstep, hsent⟩ :=
      Simulation.step_deliver hinputs hpop h.certain hserved.node hread hr hencode
    refine ⟨_, past', mesh', hstep, ?_, ?_⟩
    · exact
        { joint := by rw [hsent]; exact hjoint'
          certain := h.certain
          waiting := h.waiting
          split := h.split
          given := fun id j => by
            rw [hserved.done.given, h.given]
            exact or_iff_left fun hnone => by cases hnone.2 }
    · unfold left
      rw [hsent, hqueue]
      change _ + total ids most (sim.nodes.insert p.recipient r.state) _ mesh' < _
      change _ + 1 ≤ total ids most sim.nodes (p :: rest.toList) mesh at htotal
      omega

/-- One step of either kind, if there is one. -/
theorem good_step (hids : (inputs.map (·.1)).Nodup) (hmem : ∀ x ∈ inputs, x.1 ∈ ids)
    (hfits : ∀ x ∈ inputs, fits x.2)
    (sim : Simulation ((P.selfDelivering limit).reliable period)) (n : Nat)
    (h : Good ids fits most inputs sim n) : sim.step = .ok none ∨
      ∃ sim' n', sim.step = .ok (some sim') ∧ Good ids fits most inputs sim' n' ∧ n' < n := by
  obtain ⟨past, mesh, taken, todo, hgoing, rfl⟩ := h
  cases todo with
  | cons x todo =>
    obtain ⟨sim', past', mesh', hstep, hgoing', hlt⟩ :=
      hgoing.step_input ht hlimit hmost hids hmem hfits
    exact .inr ⟨sim', _, hstep, ⟨past', mesh', _, todo, hgoing', rfl⟩, hlt⟩
  | nil =>
    rcases hgoing.step_deliver ht hlimit hmost with hnone | ⟨sim', past', mesh', hstep, h', hlt⟩
    · exact .inl hnone
    · exact .inr ⟨sim', _, hstep, ⟨past', mesh', _, [], h', rfl⟩, hlt⟩

/-- A simulation that is going comes to rest. -/
theorem Going.rest (hids : (inputs.map (·.1)).Nodup) (hmem : ∀ x ∈ inputs, x.1 ∈ ids)
    (hfits : ∀ x ∈ inputs, fits x.2) (h : Going ids fits inputs sim past mesh taken todo)
    (hsteps : left ids most sim mesh todo < Simulation.stepLimit) :
    ∃ last past' mesh', sim.runAll = .ok last ∧ last.inputs.toList = [] ∧
      Joint ids fits last.nodes last.queue.toList past' mesh' ∧ last.queue.toList = [] ∧
      ∀ id i, Given past' id i ↔ (id, i) ∈ inputs := by
  obtain ⟨last, -, hrun, ⟨past', mesh', taken', todo', hgoing, -⟩, hend⟩ :=
    Simulation.runSteps_of_decreasing (good_step ht hlimit hmost hids hmem hfits)
      ⟨past, mesh, taken, todo, h, rfl⟩ hsteps
  obtain ⟨hinputs, hqueue⟩ := Simulation.step_eq_none hend
  have htodo : todo' = [] := by
    have hwaiting := hgoing.waiting
    rw [hinputs] at hwaiting
    exact List.map_eq_nil_iff.mp hwaiting.symm
  refine ⟨last, past', mesh', ?_, hinputs, hgoing.joint, hqueue, fun id i => ?_⟩
  · rw [Simulation.runAll, hrun]
    rfl
  · rw [hgoing.given, hgoing.split, htodo, List.append_nil]

/-- **A simulation that loses nothing starts, and comes to rest**: every input has been given,
nothing is in transit, and all nodes are joint. -/
theorem drain (hids : (inputs.map (·.1)).Nodup) (hmem : ∀ x ∈ inputs, x.1 ∈ ids)
    (hfits : ∀ x ∈ inputs, fits x.2)
    (hsteps : inputs.length + ids.length * (ids.length * (4 * most)) < Simulation.stepLimit)
    (period : Time) (wire : Bool) (log : Option (Fifo (Packet Bytes))) {loss : Randomness.Loss}
    (hchance : loss.chance = .certain) :
    ∃ nodes last past mesh,
      Simulation.start ((P.selfDelivering limit).reliable period) ids = .ok { nodes } ∧
      (Simulation.addInputs { nodes, wire, log, loss }
        (inputs.map fun x => (x.1, .nested x.2))).runAll = .ok last ∧
      last.inputs.toList = [] ∧ last.queue.toList = [] ∧
      Joint ids fits last.nodes [] past mesh ∧ ∀ id i, Given past id i ↔ (id, i) ∈ inputs := by
  have hstart : ∀ id, ((P.selfDelivering limit).reliable period).start id =
      (P.start id).map fun s => { nested := s } := fun _ => rfl
  obtain ⟨mesh, hmesh⟩ := Mesh.start_ok ht.start
  have hspec := (Mesh.start_spec hmesh).2
  obtain ⟨nodes, hnodes, hspec'⟩ :=
    Simulation.start_ok (P := (P.selfDelivering limit).reliable period)
      fun id (hid : id ∈ ids) => by
      obtain ⟨s, hs⟩ := ht.start id hid
      exact ⟨_, by rw [hstart, hs]; rfl⟩
  have hnested : ∀ id, nodes.get? id = (mesh.nodes.get? id).map fun s => { nested := s } := by
    intro id
    rcases hspec id with ⟨hid, s, hs, hget⟩ | ⟨hid, hget⟩
    · rcases hspec' id with ⟨-, s', hs', hget'⟩ | ⟨hnot, -⟩
      · rw [hstart, hs] at hs'
        cases hs'
        rw [hget, hget']
        rfl
      · exact absurd hid hnot
    · rcases hspec' id with ⟨hmem, -⟩ | ⟨-, hget'⟩
      · exact absurd hmem hid
      · rw [hget, hget']
        rfl
  have hjoint : Joint ids fits nodes [] [] mesh := Joint.start hmesh hnested
  have hgoing : Going ids fits inputs (Simulation.addInputs
      ({ nodes, wire, log, loss } : Simulation ((P.selfDelivering limit).reliable period))
      (inputs.map fun x => (x.1, .nested x.2))) [] mesh [] inputs :=
    { joint := hjoint
      certain := hchance
      waiting := Fifo.toList_pushAll _ _
      split := rfl
      given := fun id i => by simp [Given] }
  have hleft : left ids most (Simulation.addInputs
      ({ nodes, wire, log, loss } : Simulation ((P.selfDelivering limit).reliable period))
      (inputs.map fun x => (x.1, .nested x.2))) mesh inputs ≤
      inputs.length + ids.length * (ids.length * (4 * most)) :=
    Nat.add_le_add_left (total_start hmesh hnested) _
  obtain ⟨last, past', mesh', hrun, hinputs, hlast, hqueue, hgiven⟩ :=
    hgoing.rest ht hlimit hmost hids hmem hfits (hleft.trans_lt hsteps)
  rw [hqueue] at hlast
  exact ⟨nodes, last, past', mesh', hnodes, hrun, hinputs, hqueue, hlast, hgiven⟩

end

end Quorum.Reliable
