import Quorum.Proofs.Broadcast.Validity
import Quorum.Proofs.Gather.Instances

/-!
# Agreement — outputs of a gather fit together

What a node has in its output has been delivered there by the broadcasts, which run undisturbed by
one another.  So the values of one broadcaster agree, and are the input of a correct one; and two
outputs are two quorums, which have many members in common.

**Main statements.**  `frozen_of_run`: an output is what the first quorum delivered.
`delivered_of_output`: an entry is a delivery of one broadcast.  `card_common`: two outputs share
many members.  `outputs_agree`.
-/

namespace Quorum.Gather

open Mesh

variable {c : Committee} {faulty : Finset NodeId} {past : List (Moment (.gather c))}
variable {mesh : Mesh (.gather c)} {ids : List NodeId}

/-- **In every run an output is what the first quorum of broadcasts delivered.** -/
theorem frozen_of_run (hc : c.members.Nodup) (hrun : Run ids Event.IsAsynchronous past mesh)
    {a : NodeId} {s : State c} (hs : mesh.nodes.get? a = some s) : Frozen s := by
  refine hrun.node_invariant (Q := fun _ (s : State c) => Frozen s) ?_ ?_ ?_ hs
  · intro id s h
    obtain ⟨hid, rfl⟩ := start_of_protocol h
    exact frozen_initial hc (List.ne_nil_of_mem hid)
  · intro id s v r h hfrozen
    exact frozen_input hc hfrozen (input_of_protocol h)
  · intro id s x m r h hfrozen
    exact frozen_receive hc hfrozen (receive_of_protocol h)

/-- **An entry of an output was delivered by the broadcast of its member.** -/
theorem delivered_of_output (hc : c.members.Nodup) (hrun : Run ids Event.IsAsynchronous past mesh)
    {a : NodeId} {s : State c} (hs : mesh.nodes.get? a = some s) {out : SortedMap NodeId Bytes}
    (hout : s.output = some out) {id : NodeId} {v : Bytes} (hv : out.get? id = some v) :
    ∃ i : Fin c.size, broadcaster c i = id ∧ (state i s).delivered = some v :=
  (get?_delivered hc).mp ((frozen_of_run hc hrun hs).entries out hout id v hv)

/-! ### Entries -/

section
variable (hc : c.members.Nodup) (hf : faulty.card ≤ c.faults)
  (hrun : Run (c.correct faulty) Event.IsAsynchronous past mesh)
include hc hf hrun

theorem entry_unique {a b : NodeId} {s t : State c} (ha : mesh.nodes.get? a = some s)
    (hb : mesh.nodes.get? b = some t) {A B : SortedMap NodeId Bytes} (hA : s.output = some A)
    (hB : t.output = some B) {id : NodeId} {v w : Bytes} (hv : A.get? id = some v)
    (hw : B.get? id = some w) : v = w := by
  obtain ⟨i, rfl, hs⟩ := delivered_of_output hc hrun ha hA hv
  obtain ⟨j, hj, ht⟩ := delivered_of_output hc hrun hb hB hw
  obtain rfl := broadcaster_injective hc hj
  obtain ⟨past', hseen⟩ := (nth j).seen_of_run hrun
  obtain ⟨x, hx⟩ := Broadcast.exists_ready_of_delivered hf hseen.run (get?_nth j ha) hs
  obtain ⟨y, hy⟩ := Broadcast.exists_ready_of_delivered hf hseen.run (get?_nth j hb) ht
  exact Broadcast.ready_unique hf hseen.run hx hy

/-- **The entry of a correct member is the input that it was given.** -/
theorem input_of_output {a : NodeId} {s : State c} (ha : mesh.nodes.get? a = some s)
    {out : SortedMap NodeId Bytes} (hout : s.output = some out) {id : NodeId}
    (hid : id ∈ c.correct faulty) {v : Bytes} (hv : out.get? id = some v) (w : Bytes) :
    (∃ x ∈ past, x.event = .input id w) ↔ w = v := by
  obtain ⟨i, rfl, hs⟩ := delivered_of_output hc hrun ha hout hv
  obtain ⟨past', hseen⟩ := (nth i).seen_of_run hrun
  obtain ⟨x, hx, hxv⟩ := Broadcast.input_of_delivered hf hseen.run hid (get?_nth i ha) hs
  rw [← input_nth_iff hc hrun hseen]
  constructor
  · rintro ⟨y, hy, hyw⟩
    exact Broadcast.input_unique hf hseen.run hy hx hyw hxv
  · rintro rfl
    exact ⟨x, hx, hxv⟩

end

/-! ### Common members -/

/-- Two maps on a committee, each with a quorum of entries, share all but twice the faults. -/
theorem card_common {A B : SortedMap NodeId Bytes} (hA : A.size = c.quorum)
    (hB : B.size = c.quorum) (hAc : ∀ id ∈ A.keys, id ∈ c) (hBc : ∀ id ∈ B.keys, id ∈ c) :
    c.size - 2 * c.faults ≤
      (c.memberSet.filter fun id => A.contains id ∧ B.contains id).card := by
  have hcommon : A.keys.toFinset ∩ B.keys.toFinset ⊆
      c.memberSet.filter fun id => A.contains id ∧ B.contains id := by
    intro id hid
    rw [Finset.mem_inter, List.mem_toFinset, List.mem_toFinset] at hid
    rw [Finset.mem_filter, Committee.mem_memberSet]
    exact ⟨hAc id hid.1, SortedMap.mem_keys.mp hid.1, SortedMap.mem_keys.mp hid.2⟩
  have hunion : A.keys.toFinset ∪ B.keys.toFinset ⊆ c.memberSet := by
    intro id hid
    rw [Finset.mem_union, List.mem_toFinset, List.mem_toFinset] at hid
    exact Committee.mem_memberSet.mpr (hid.elim (hAc id) (hBc id))
  have hcount := Finset.card_union_add_card_inter A.keys.toFinset B.keys.toFinset
  rw [SortedMap.card_keys, SortedMap.card_keys, hA, hB] at hcount
  have hmost := (Finset.card_le_card hunion).trans Committee.card_memberSet_le
  have hleast := Finset.card_le_card hcommon
  unfold Committee.quorum at hcount
  omega

/-- **Agreement and overlap: two outputs give no member different values, they share all but twice
the tolerated faults, which is more than the tolerated faults, and the entry of a correct member is
the input that it was given.** -/
theorem outputs_agree (hc : c.members.Nodup) (hf : faulty.card ≤ c.faults)
    (hrun : Run (c.correct faulty) Event.IsAsynchronous past mesh) {a b : NodeId}
    {s t : (Protocol.gather c).State} (ha : mesh.nodes.get? a = some s)
    (hb : mesh.nodes.get? b = some t) {A B : SortedMap NodeId Bytes}
    (hA : (Protocol.gather c).output s = some A) (hB : (Protocol.gather c).output t = some B) :
    (∀ id v w, A.get? id = some v → B.get? id = some w → v = w) ∧
    (c.faults + 1 ≤ c.size - 2 * c.faults ∧ c.size - 2 * c.faults ≤
      (c.memberSet.filter fun id => A.contains id ∧ B.contains id).card) ∧
    (∀ id ∈ c.correct faulty, ∀ v, A.get? id = some v → ∀ w,
      (∃ x ∈ past, x.event = .input id w) ↔ w = v) := by
  have hmembers : ∀ x (u : State c) out, mesh.nodes.get? x = some u → u.output = some out →
      ∀ id ∈ out.keys, id ∈ c := by
    intro x u out hu hout id hid
    obtain ⟨v, hv⟩ := Option.isSome_iff_exists.mp (SortedMap.mem_keys.mp hid)
    obtain ⟨i, rfl, -⟩ := delivered_of_output hc hrun hu hout hv
    exact List.get_mem c.members i
  have hne : a ∈ c.members :=
    (Committee.mem_correct.mp ((hrun.nodes_isSome a).mp (Option.isSome_of_mem ha))).1
  have hthird := Committee.two_mul_faults_lt_quorum (List.ne_nil_of_mem hne)
  refine ⟨?_, ⟨?_, ?_⟩, ?_⟩
  · intro id v w hv hw
    exact entry_unique hc hf hrun ha hb hA hB hv hw
  · unfold Committee.quorum at hthird
    omega
  · exact card_common ((frozen_of_run hc hrun ha).full A hA) ((frozen_of_run hc hrun hb).full B hB)
      (hmembers a s A ha hA) (hmembers b t B hb hB)
  · intro id hid v hv w
    exact input_of_output hc hf hrun ha hA hid hv w

/-! ### Two nodes that gather different values -/

open Broadcast (four)

/-- A message in the name of the last of the four, for the broadcast of index `i`. -/
def lie (recipient : NodeId) (i : UInt16) (kind : Broadcast.Kind) (v : Bytes) :
    Event (.gather four) :=
  .forge ⟨⟨3⟩, recipient, ⟨broadcastSubsystem, i, ⟨kind, v⟩⟩⟩

/-- The last of the four broadcasts a value of its own and pushes it in another broadcast as well;
what the second node is still to hear of the first broadcast is late. -/
def crossed : List (Event (.gather four)) :=
  [.input ⟨0⟩ [10], .input ⟨1⟩ [11], .input ⟨2⟩ [12],
    lie ⟨0⟩ 3 .initial [13], lie ⟨1⟩ 3 .initial [13], lie ⟨2⟩ 3 .initial [13],
    lie ⟨1⟩ 0 .initial [13], lie ⟨1⟩ 0 .echo [13], lie ⟨1⟩ 0 .ready [13]] ++
  ((List.range 108).filter fun k => k % 4 ≠ 3 ∧ k ∉ [73, 77, 81]).map .deliver

theorem isAsynchronous_of_mem_crossed {e : Event (.gather four)} (he : e ∈ crossed) :
    e.IsAsynchronous := by
  rcases List.mem_append.mp he with he | he
  · have hall : ∀ e ∈ crossed.take 9, e.IsAsynchronous := by
      simp [crossed, lie, Event.IsAsynchronous]
    exact hall e he
  · obtain ⟨k, -, rfl⟩ := List.mem_map.mp he
    trivial

def gathered (mesh : Mesh (.gather c)) (id : NodeId) : Option (List (NodeId × Bytes)) :=
  (mesh.nodes.get? id).bind fun (s : State c) => s.output.map (·.entries)

theorem output_of_gathered {id : NodeId} {entries : List (NodeId × Bytes)}
    (h : gathered mesh id = some entries) : ∃ s out, mesh.nodes.get? id = some s ∧
      (Protocol.gather c).output s = some out ∧ out.entries = entries := by
  obtain ⟨s, hs, hout⟩ := Option.bind_eq_some_iff.mp h
  obtain ⟨out, hout, hentries⟩ := Option.map_eq_some_iff.mp hout
  exact ⟨s, out, hs, hout, hentries⟩

theorem outputs_agree_when_different : ∃ past mesh s t A B,
    four.members.Nodup ∧ ({⟨3⟩} : Finset NodeId).card ≤ four.faults ∧
      Run (four.correct {⟨3⟩}) Event.IsAsynchronous past mesh ∧
      mesh.nodes.get? ⟨0⟩ = some s ∧ mesh.nodes.get? ⟨1⟩ = some t ∧
      (Protocol.gather four).output s = some A ∧ (Protocol.gather four).output t = some B ∧
      A.entries = [(⟨0⟩, [10]), (⟨1⟩, [11]), (⟨3⟩, [13])] ∧
      B.entries = [(⟨1⟩, [11]), (⟨2⟩, [12]), (⟨3⟩, [13])] ∧
      2 ≤ (four.memberSet.filter fun id => A.contains id ∧ B.contains id).card := by
  obtain ⟨past, mesh, hrun, -, htest⟩ :=
    @Run.exists (.gather four) (four.correct {⟨3⟩}) Event.IsAsynchronous crossed
      (fun mesh => gathered mesh ⟨0⟩ = some [(⟨0⟩, [10]), (⟨1⟩, [11]), (⟨3⟩, [13])] ∧
        gathered mesh ⟨1⟩ = some [(⟨1⟩, [11]), (⟨2⟩, [12]), (⟨3⟩, [13])])
      (fun _ => isAsynchronous_of_mem_crossed) (by decide +kernel)
  obtain ⟨h0, h1⟩ := of_decide_eq_true htest
  obtain ⟨s, A, hs, hA, hentriesA⟩ := output_of_gathered h0
  obtain ⟨t, B, ht, hB, hentriesB⟩ := output_of_gathered h1
  have hagree := outputs_agree (by decide) (by decide) hrun hs ht hA hB
  exact ⟨past, mesh, s, t, A, B, by decide, by decide, hrun, hs, ht, hA, hB, hentriesA, hentriesB,
    hagree.2.1.2⟩

end Quorum.Gather
