import Quorum.Proofs.Broadcast.Traffic
import Quorum.Proofs.Gather.Agreement

/-!
# Completion — a gather does not wait for faulty members

No message that is on its way and no input that is still to come can fail.  Once the inputs of a
quorum of correct members have been given and everything between correct nodes has arrived, the
broadcasts of these members have delivered at every correct node, so that it has an output.

**Main statements.**  `routed_of_run`: every message finds its broadcast.  `output_of_quorum`: a
quorum of inputs is enough.  `completes`.
-/

namespace Quorum.Gather

open Mesh

variable {c : Committee} {faulty : Finset NodeId} {past : List (Moment (.gather c))}
variable {mesh : Mesh (.gather c)} {ids : List NodeId}

/-! ### Nothing fails -/

/-- A message leads to a broadcast of the committee. -/
def Routes (c : Committee) (m : Message) : Prop :=
  m.subsystem = broadcastSubsystem ∧ m.index.toNat < c.size

theorem routes_lift {s : State c} {i : Fin c.size} {r : Reaction Broadcast.State Broadcast.Message}
    {o : Outgoing Message} (ho : o ∈ (lift s i r).sent) : Routes c o.body := by
  obtain ⟨m, -, rfl⟩ := List.mem_map.mp ho
  refine ⟨rfl, ?_⟩
  have hmod : (UInt16.ofNat i).toNat ≤ i := by
    rw [UInt16.toNat_ofNat']
    exact Nat.mod_le _ _
  exact lt_of_le_of_lt hmod i.isLt

/-- **Every message that is sent leads to a broadcast.** -/
theorem routed_of_run (hrun : Run ids Event.IsAsynchronous past mesh) {p : Packet Message}
    (hp : p ∈ mesh.pool) : Routes c p.body := by
  induction hrun with
  | start h =>
    rw [(start_spec h).1] at hp
    exact absurd hp (Array.not_mem_empty p)
  | step hrun hmay h ih =>
    obtain ⟨node, s, s', out, hs, hacts, rfl⟩ := step_spec h
    rcases mem_pool_turned.mp hp with hp | ⟨-, ho⟩
    · exact ih hp
    · rcases hacts.asynchronous hmay with ⟨v, r, -, hr, -, rfl⟩ | ⟨q, r, -, -, hr, -, rfl⟩
      · obtain ⟨-, i, b, -, -, rfl⟩ := input_eq_ok (input_of_protocol hr)
        exact routes_lift ho
      · obtain ⟨-, i, -, rfl⟩ := receive_eq_ok (receive_of_protocol hr)
        exact routes_lift ho

/-- A node that has taken an input has been given one. -/
theorem given_of_inputGiven (hrun : Run ids Event.IsAsynchronous past mesh) {id : NodeId}
    {s : State c} (hs : mesh.nodes.get? id = some s) (hgiven : s.inputGiven = true) :
    ∃ v, ∃ x ∈ past, x.event = .input id v := by
  induction hrun generalizing id s with
  | start h =>
    rcases (start_spec h).2 id with ⟨-, t, ht, hget⟩ | ⟨-, hnone⟩
    · cases hs.symm.trans hget
      obtain ⟨-, rfl⟩ := start_of_protocol ht
      cases hgiven
    · rw [hnone] at hs
      cases hs
  | step hrun hmay h ih =>
    obtain ⟨node, t, t', out, ht, hacts, rfl⟩ := step_spec h
    rcases get?_turned_cases hs with ⟨rfl, rfl⟩ | ⟨-, hs⟩
    · rcases hacts.asynchronous hmay with ⟨v, r, rfl, -⟩ | ⟨p, r, -, -, hr, rfl, -⟩
      · exact ⟨v, _, List.mem_cons_self .., rfl⟩
      · obtain ⟨-, i, -, rfl⟩ := receive_eq_ok (receive_of_protocol hr)
        have hgiven : (settle { (t : State c) with broadcasts := _ }).inputGiven = true := hgiven
        rw [inputGiven_settle] at hgiven
        obtain ⟨v, x, hx, hv⟩ := ih ht hgiven
        exact ⟨v, x, List.mem_cons_of_mem _ hx, hv⟩
    · obtain ⟨v, x, hx, hv⟩ := ih hs hgiven
      exact ⟨v, x, List.mem_cons_of_mem _ hx, hv⟩

/-- **A message that has been sent is received without fault.** -/
theorem receive_of_sent (hrun : Run ids Event.IsAsynchronous past mesh) {p : Packet Message}
    (hp : p ∈ mesh.pool) (s : State c) :
    ∃ r, (Protocol.gather c).receive p.recipient s p.sender p.body = .ok r := by
  obtain ⟨hsubsystem, hindex⟩ := routed_of_run hrun hp
  obtain ⟨r, hr⟩ := receive_ok hsubsystem hindex s p.sender
  exact ⟨r, congrArg (Except.mapError _) hr⟩

section
variable (hc : c.members.Nodup) (hf : faulty.card ≤ c.faults)
  (hrun : Run (c.correct faulty) Event.IsAsynchronous past mesh)
include hc hf hrun

/-- **The first input of a node is taken without fault.** -/
theorem input_of_new (hsize : c.size ≤ UInt16.size) {id : NodeId} {s : State c}
    (hs : mesh.nodes.get? id = some s)
    (hnew : ∀ x ∈ past, ∀ w : Bytes, x.event ≠ .input id w) (v : Bytes) :
    ∃ r, (Protocol.gather c).input id s v = .ok r := by
  have hid : id ∈ c :=
    (Committee.mem_correct.mp ((hrun.nodes_isSome id).mp (Option.isSome_of_mem hs))).1
  obtain ⟨i, hi⟩ := Committee.exists_indexOf? hsize hid
  have hbroadcaster : broadcaster c i = id := (Committee.indexOf?_eq_some hi).1
  have hgather : s.inputGiven = false := by
    by_contra hgiven
    obtain ⟨w, x, hx, hw⟩ := given_of_inputGiven hrun hs (by simpa using hgiven)
    exact hnew x hx w hw
  have hbroadcast : (state i s).inputGiven = false := by
    by_contra hgiven
    obtain ⟨past', hseen⟩ := (nth i).seen_of_run hrun
    have hj := Broadcast.joint_of_run hf hseen.run
    obtain ⟨w, hw⟩ := hj.to_all id _ (get?_nth i hs) .initial (eq_true_of_ne_false hgiven)
    obtain ⟨-, hinput⟩ := (Broadcast.sourced_of_run hseen.run).initial id id w (hw id hid)
    obtain ⟨x, hx, hxw⟩ := (input_nth_iff hc hrun hseen).mp hinput
    rw [hbroadcaster] at hxw
    exact hnew x hx w hxw
  obtain ⟨b, hb⟩ : ∃ b, Broadcast.input c id id (state i s) v = .ok b :=
    Broadcast.input_ok hbroadcast v
  have hok : input c id s v = .ok (lift { s with inputGiven := true } i b) :=
    input_ok hgather hi (by rw [hbroadcaster]; exact hb)
  exact ⟨_, congrArg (Except.mapError _) hok⟩

/-! ### Outputs -/

/-- **Once the inputs of a quorum of correct members have been given and everything has arrived,
every correct node has an output.** -/
theorem output_of_quorum {A : Finset NodeId} (hA : ∀ id ∈ A, id ∈ c.correct faulty)
    (hquorum : c.quorum ≤ A.card)
    (hgiven : ∀ id ∈ A, ∃ v, ∃ x ∈ past, x.event = .input id v)
    (harrived : ∀ p ∈ mesh.pool, (mesh.nodes.get? p.recipient).isSome → Arrived past mesh p)
    {b : NodeId} {s : State c} (hs : mesh.nodes.get? b = some s) : ∃ out, s.output = some out := by
  by_contra hnone
  have hwaits := (frozen_of_run hc hrun hs).waits (by
    rw [Option.eq_none_iff_forall_ne_some]
    exact fun out hout => hnone ⟨out, hout⟩)
  have hdelivered : A ⊆ (deliverers s).image (broadcaster c) := by
    intro id hid
    obtain ⟨v, x, hx, hv⟩ := hgiven id hid
    obtain ⟨i, hi⟩ := index_of_input hrun hx hv
    obtain rfl := (Committee.indexOf?_eq_some hi).1
    obtain ⟨past', hseen⟩ := (nth i).seen_of_run hrun
    have hall := hseen.allArrived (Broadcast.nodup_pool hc hf hseen.run) harrived
    have hinput := (input_nth_iff hc hrun hseen).mpr ⟨x, hx, hv⟩
    have hhere :=
      Broadcast.delivered_of_input hf hseen.run (hA _ hid) hinput hall hc (get?_nth i hs)
    refine Finset.mem_image.mpr ⟨i, mem_deliverers.mpr ?_, rfl⟩
    exact Option.isSome_of_mem hhere
  have hcard := (Finset.card_le_card hdelivered).trans Finset.card_image_le
  rw [size_delivered hc] at hwaits
  omega

end

/-- **Completion: whatever has been sent to a node can be delivered, the input of a correct member
can be given, and once all correct members have got theirs and everything between them has arrived,
every one of them has an output.** -/
theorem completes (hc : c.members.Nodup) (hsize : c.size ≤ UInt16.size)
    (hf : faulty.card ≤ c.faults) (hrun : Run (c.correct faulty) Event.IsAsynchronous past mesh) :
    (∀ k p, mesh.pool[k]? = some p → p.recipient ∈ c.correct faulty →
      (mesh.step (.deliver k)).isSome) ∧
    (∀ id ∈ c.correct faulty, (∀ x ∈ past, ∀ w, x.event ≠ .input id w) →
      ∀ v, (mesh.step (.input id v)).isSome) ∧
    ((∀ id ∈ c.correct faulty, ∃ v, ∃ x ∈ past, x.event = .input id v) → AllArrived past mesh →
      ∀ id ∈ c.correct faulty, ∃ s out, mesh.nodes.get? id = some s ∧
        (Protocol.gather c).output s = some out) := by
  have hnode : ∀ id ∈ c.correct faulty, ∃ s, mesh.nodes.get? id = some s := fun id hid =>
    Option.isSome_iff_exists.mp ((hrun.nodes_isSome id).mpr hid)
  refine ⟨?_, ?_, ?_⟩
  · intro k p hp hto
    obtain ⟨s, hs⟩ := hnode p.recipient hto
    obtain ⟨r, hr⟩ := receive_of_sent hrun (Array.mem_of_getElem? hp) s
    rw [step_of_acts hs (.deliver hp rfl hr)]
    rfl
  · intro id hid hnew v
    obtain ⟨s, hs⟩ := hnode id hid
    obtain ⟨r, hr⟩ := input_of_new hc hf hrun hsize hs hnew v
    rw [step_of_acts hs (.input hr)]
    rfl
  · intro hgiven harrived id hid
    obtain ⟨s, hs⟩ := hnode id hid
    have hcorrect : ∀ x ∈ c.memberSet \ faulty, x ∈ c.correct faulty := by
      intro x hx
      obtain ⟨hx, hnot⟩ := Finset.mem_sdiff.mp hx
      exact Committee.mem_correct.mpr ⟨Committee.mem_memberSet.mp hx, hnot⟩
    obtain ⟨out, hout⟩ := output_of_quorum hc hf hrun hcorrect
      (Committee.quorum_le_card_correct hc hf) (fun x hx => hgiven x (hcorrect x hx))
      (fun p hp => harrived.arrived hp) hs
    exact ⟨s, out, hs, hout⟩

open Broadcast (four)

def crossedSettled : List (Event (.gather four)) := crossed ++ [73, 77, 81].map .deliver

theorem completes_without_the_last : ∃ past mesh,
    four.members.Nodup ∧ four.size ≤ UInt16.size ∧ ({⟨3⟩} : Finset NodeId).card ≤ four.faults ∧
      Run (four.correct {⟨3⟩}) Event.IsAsynchronous past mesh ∧
      (∀ id ∈ four.correct {⟨3⟩}, ∃ v, ∃ x ∈ past, x.event = .input id v) ∧
      AllArrived past mesh ∧
      ∃ s out, mesh.nodes.get? ⟨2⟩ = some s ∧ (Protocol.gather four).output s = some out := by
  have hmay : ∀ e ∈ crossedSettled, e.IsAsynchronous := by
    intro e he
    rcases List.mem_append.mp he with he | he
    · exact isAsynchronous_of_mem_crossed he
    · obtain ⟨k, -, rfl⟩ := List.mem_map.mp he
      trivial
  obtain ⟨past, mesh, hrun, hpast, htest⟩ :=
    @Run.exists (.gather four) (four.correct {⟨3⟩}) Event.IsAsynchronous crossedSettled
      (deliversAll crossedSettled) hmay (by decide +kernel)
  have harrived := allArrived_of_deliversAll hpast htest
  have hgiven : ∀ id ∈ four.correct {⟨3⟩}, ∃ v, ∃ x ∈ past, x.event = .input id v := by
    have hcorrect : four.correct {⟨3⟩} = [⟨0⟩, ⟨1⟩, ⟨2⟩] := by decide
    simp only [hcorrect, List.forall_mem_cons, exists_event_iff hpast]
    refine ⟨⟨[10], ?_⟩, ⟨[11], ?_⟩, ⟨[12], ?_⟩, nofun⟩
    all_goals simp [crossedSettled, crossed]
  have hcompletes := completes (by decide) (by decide) (by decide) hrun
  exact ⟨past, mesh, by decide, by decide, by decide, hrun, hgiven, harrived,
    hcompletes.2.2 hgiven harrived ⟨2⟩ (by decide)⟩

end Quorum.Gather
