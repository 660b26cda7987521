import Mathlib.Data.List.Nodup
import Quorum.Proofs.Broadcast.Agreement

/-!
# Traffic — how much a broadcast sends

A node declares itself once in each phase, and sends one message to every member each time.  So
where the members are distinct nothing is sent twice.

**Main statement.**  `nodup_pool`.
-/

namespace Quorum.Broadcast

open Mesh

variable {c : Committee} {broadcaster : NodeId} {faulty : Finset NodeId}
variable {past : List (Moment (.broadcast c broadcaster))}
variable {mesh : Mesh (.broadcast c broadcaster)}

theorem recipient_of_run {ids : List NodeId} (hrun : Run ids Event.IsAsynchronous past mesh)
    {p : Packet Message} (hp : p ∈ mesh.pool) : p.recipient ∈ c := by
  induction hrun with
  | start h =>
    rw [(start_spec h).1] at hp
    exact absurd hp (Array.not_mem_empty p)
  | step hrun hmay h ih =>
    obtain ⟨node, s, s', out, hs, hacts, rfl⟩ := step_spec h
    rcases mem_pool_turned.mp hp with hp | ⟨-, ho⟩
    · exact ih hp
    · cases (reacted hacts hmay).declares with
      | nothing hsent _ =>
        rw [hsent] at ho
        cases ho
      | value k v hsent _ _ _ =>
        rw [hsent] at ho
        exact (mem_toAll.mp ho).1

theorem Declares.nodup {s s' : State} {out : List (Outgoing Message)} (h : Declares c s s' out)
    (hc : c.members.Nodup) : out.Nodup := by
  cases h with
  | nothing hsent _ =>
    rw [hsent]
    exact List.nodup_nil
  | value k v hsent _ _ _ =>
    rw [hsent]
    refine hc.map ?_
    intro a b hab
    exact congrArg Outgoing.recipient hab

/-- **Nothing is sent twice.** -/
theorem nodup_pool (hc : c.members.Nodup) (hf : faulty.card ≤ c.faults)
    (hrun : Run (c.correct faulty) Event.IsAsynchronous past mesh) : mesh.pool.toList.Nodup := by
  induction hrun with
  | start h =>
    rw [(start_spec h).1]
    exact List.nodup_nil
  | @step past mesh e mesh' hrun hmay h ih =>
    obtain ⟨node, s, s', out, hs, hacts, rfl⟩ := step_spec h
    have hr := reacted hacts hmay
    rw [turned, Array.toList_appendList, List.nodup_append]
    refine ⟨ih, (hr.declares.nodup hc).map ?_, ?_⟩
    · intro o o' ho
      cases o
      cases o'
      cases ho
      rfl
    · -- what is sent now is of a phase in which the node had been silent
      rintro p hp q hq rfl
      obtain ⟨o, ho, rfl⟩ := List.mem_map.mp hq
      exact (joint_of_run hf hrun).silent_before hs hr ho (Array.mem_toList_iff.mp hp)

end Quorum.Broadcast
