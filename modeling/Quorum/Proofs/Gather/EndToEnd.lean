import Quorum.Proofs.Gather.Traffic
import Quorum.Proofs.Reliable.Drain

/-!
# EndToEnd — a gather over reliable channels, where nothing is lost

The members of a committee run a gather that hands its own messages back, over reliable channels,
and some of them have an input.  If nothing is lost, the run comes to its end, and the inputs of a
quorum are both needed and enough.

**Main statement.**  `completes_over_channels`.
-/

namespace Quorum.Gather

open Mesh

/-- A gather that hands its own messages back, over reliable channels. -/
@[reducible] def overChannels (period : Reliable.Time) (c : Committee) : Protocol :=
  (Protocol.selfDelivering SelfDelivery.stepLimit (.gather c)).reliable period

/-- The number one, as 64-bit floating-point number. -/
def one : UInt64 := 0x3FF0000000000000

variable {c : Committee} {inputs : List (NodeId × Bytes)} {past : List (Moment (.gather c))}
variable {mesh : Mesh (.gather c)} {id : NodeId} {s : State c}

/-! ### Outputs -/

section
variable (hc : c.members.Nodup)
  (hrun : Run (c.correct ∅) Event.IsAsynchronous past mesh)
  (hgiven : ∀ id (v : Bytes), Given past id v ↔ (id, v) ∈ inputs)
  (hs : mesh.nodes.get? id = some s)
include hc hrun hgiven hs

/-- **Where nobody is faulty, an output has a quorum of entries, all of them inputs.** -/
theorem entries_of_output {out : SortedMap NodeId Bytes} (hout : s.output = some out) :
    out.size = c.quorum ∧ ∀ id v, out.get? id = some v → (id, v) ∈ inputs := by
  have hfrozen := frozen_of_run hc hrun hs
  refine ⟨hfrozen.full out hout, fun id' v hv => (hgiven id' v).mp ?_⟩
  obtain ⟨i, rfl, -⟩ := delivered_of_output hc hrun hs hout hv
  have hcorrect : broadcaster c i ∈ c.correct ∅ := by
    rw [Committee.correct_empty]
    exact List.get_mem c.members i
  exact (input_of_output hc (Nat.zero_le _) hrun hs hout hcorrect hv v).mpr rfl

/-- **Without the inputs of a quorum there is no output.** -/
theorem output_eq_none (hfew : inputs.length < c.quorum) : s.output = none := by
  by_contra hne
  obtain ⟨out, hout⟩ := Option.ne_none_iff_exists'.mp hne
  obtain ⟨hsize, hentries⟩ := entries_of_output hc hrun hgiven hs hout
  have hkeys : out.keys.toFinset ⊆ (inputs.map (·.1)).toFinset := by
    intro id' hid'
    obtain ⟨v, hv⟩ :=
      Option.isSome_iff_exists.mp (SortedMap.mem_keys.mp (List.mem_toFinset.mp hid'))
    exact List.mem_toFinset.mpr (List.mem_map_of_mem (hentries id' v hv))
  have hcard := (Finset.card_le_card hkeys).trans (List.toFinset_card_le _)
  rw [SortedMap.card_keys, hsize, List.length_map] at hcard
  omega

/-- **With the inputs of a quorum there is one**, once everything has arrived. -/
theorem output_of_inputs (hids : (inputs.map (·.1)).Nodup) (hmembers : ∀ x ∈ inputs, x.1 ∈ c)
    (hmany : c.quorum ≤ inputs.length) (harrived : ∀ p ∈ mesh.pool, Arrived past mesh p) :
    ∃ out, s.output = some out := by
  refine output_of_quorum (A := (inputs.map (·.1)).toFinset) hc (Nat.zero_le _) hrun ?_ ?_ ?_
    (fun p hp _ => harrived p hp) hs
  · intro id' hid'
    obtain ⟨x, hx, rfl⟩ := List.mem_map.mp (List.mem_toFinset.mp hid')
    rw [Committee.correct_empty]
    exact hmembers x hx
  · rw [List.toFinset_card_of_nodup hids, List.length_map]
    exact hmany
  · intro id' hid'
    obtain ⟨x, hx, rfl⟩ := List.mem_map.mp (List.mem_toFinset.mp hid')
    exact ⟨x.2, (hgiven x.1 x.2).mpr hx⟩

end

/-! ### The whole run -/

/-- **A gather over channels that lose nothing comes to its end with all channels drained.  Every
member has an output of a quorum of inputs, if as many have been given, and no member has one if
not.** -/
theorem completes_over_channels (hc : c.members.Nodup) (hsize : c.size ≤ UInt16.size)
    (inputs : List (NodeId × Bytes)) (hids : (inputs.map (·.1)).Nodup)
    (hmembers : ∀ x ∈ inputs, x.1 ∈ c) (hshort : ∀ x ∈ inputs, Short x.2)
    (period : Reliable.Time) (wire : Bool) (log : Option (Fifo (Packet Bytes))) (seed : UInt64) :
    ∃ sim₀ sim, Simulation.start (overChannels period c) c.members = .ok sim₀ ∧
      (Simulation.addInputs { sim₀ with wire, log, loss := .seeded (.ofBinary64 one) seed }
        (inputs.map fun x => (x.1, .nested x.2))).runAll = .ok sim ∧
      sim.inputs.toList = [] ∧ sim.queue.toList = [] ∧
      (∀ id, (sim.nodes.get? id).isSome ↔ id ∈ c) ∧
      ∀ id s, sim.nodes.get? id = some s → s.unackedCount = 0 ∧ s.pendingCount = 0 ∧
        (c.quorum ≤ inputs.length → ∃ out, (overChannels period c).output s = some out ∧
          out.size = c.quorum ∧ ∀ id v, out.get? id = some v → (id, v) ∈ inputs) ∧
        (inputs.length < c.quorum → (overChannels period c).output s = none) := by
  have hlimit : 3 * c.size ≤ SelfDelivery.stepLimit :=
    (Nat.mul_le_mul_left 3 hsize).trans (by decide)
  have hmost : 3 * c.size + 1 < UInt32.size :=
    (Nat.add_le_add_right (Nat.mul_le_mul_left 3 hsize) 1).trans_lt (by decide)
  have hfew : inputs.length ≤ c.size := by
    have hsub : (inputs.map (·.1)).toFinset ⊆ c.memberSet := by
      intro id hid
      obtain ⟨x, hx, rfl⟩ := List.mem_map.mp (List.mem_toFinset.mp hid)
      exact Committee.mem_memberSet.mpr (hmembers x hx)
    have hcard := (Finset.card_le_card hsub).trans Committee.card_memberSet_le
    rwa [List.toFinset_card_of_nodup hids, List.length_map] at hcard
  have hsteps : inputs.length + c.size * (c.size * (4 * (3 * c.size))) < Simulation.stepLimit :=
    (Nat.add_le_add (hfew.trans hsize) (Nat.mul_le_mul hsize (Nat.mul_le_mul hsize
      (Nat.mul_le_mul_left 4 (Nat.mul_le_mul_left 3 hsize))))).trans_lt (by decide)
  have hchance : (Randomness.Loss.seeded (.ofBinary64 one) seed).chance = .certain := by
    change Randomness.Chance.ofBinary64 one = .certain
    decide
  obtain ⟨nodes, sim, past, mesh, hstart, hsim, hinputs, hqueue, hjoint, hgiven⟩ :=
    Reliable.drain (tame hc hsize) hlimit hmost hids hmembers hshort hsteps period wire log hchance
  have hrun : Run (c.correct ∅) Event.IsAsynchronous past mesh := by
    rw [Committee.correct_empty]
    exact hjoint.run.mono fun e he => he.isAsynchronous
  obtain ⟨harrived, hdrained⟩ := hjoint.drained
  refine ⟨{ nodes }, sim, hstart, hsim, hinputs, hqueue, fun id => hjoint.mem_ids.symm, ?_⟩
  intro id s hs
  have hmesh : mesh.nodes.get? id = some s.nested := hjoint.get?_mesh hs
  obtain ⟨hunacked, hpending⟩ := hdrained id s hs
  refine ⟨hunacked, hpending, fun hmany => ?_, fun hless => ?_⟩
  · obtain ⟨out, hout⟩ := output_of_inputs hc hrun hgiven hmesh hids hmembers hmany harrived
    exact ⟨out, hout, entries_of_output hc hrun hgiven hmesh hout⟩
  · exact output_eq_none hc hrun hgiven hmesh hless

open Broadcast (four)

def three : List (NodeId × Bytes) := [(⟨2⟩, [12]), (⟨0⟩, [10]), (⟨3⟩, [13])]

theorem three_complete_over_channels :
    four.members.Nodup ∧ four.size ≤ UInt16.size ∧ (three.map (·.1)).Nodup ∧
      (∀ x ∈ three, x.1 ∈ four) ∧ (∀ x ∈ three, Short x.2) ∧
      ∃ sim₀ sim, Simulation.start (overChannels 5 four) four.members = .ok sim₀ ∧
        (Simulation.addInputs
          { sim₀ with wire := true, log := none, loss := .seeded (.ofBinary64 one) 7 }
          (three.map fun x => (x.1, .nested x.2))).runAll = .ok sim ∧
        sim.queue.toList = [] ∧ ∀ id ∈ four.members, ∃ s out, sim.nodes.get? id = some s ∧
          s.unackedCount = 0 ∧ (overChannels 5 four).output s = some out ∧
          ∀ id v, out.get? id = some v → (id, v) ∈ three := by
  have hshort : ∀ x ∈ three, Short x.2 := by simp [three, Short, UInt32.size]
  have hmembers : ∀ x ∈ three, x.1 ∈ four := by decide
  obtain ⟨sim₀, sim, hstart, hsim, -, hqueue, hnodes, hdrained⟩ :=
    completes_over_channels (c := four) (by decide) (by decide) three (by decide) hmembers hshort 5
      true none 7
  refine ⟨by decide, by decide, by decide, hmembers, hshort, sim₀, sim, hstart, hsim, hqueue, ?_⟩
  intro id hid
  obtain ⟨s, hs⟩ := Option.isSome_iff_exists.mp ((hnodes id).mpr hid)
  obtain ⟨hunacked, -, hmany, -⟩ := hdrained id s hs
  obtain ⟨out, hout, -, hentries⟩ := hmany (by decide)
  exact ⟨s, out, hs, hunacked, hout, hentries⟩

end Quorum.Gather
