import Quorum.Proofs.Broadcast.Reaction
import Quorum.Proofs.Run

/-!
# Agreement — correct nodes deliver one value

A broadcast runs at the members of a committee that are not faulty, in an asynchronous network:
what a node sends may arrive at any time, any number of times or never, and anything at all may
arrive in the name of a faulty member or of somebody else.

Every node declares one value in each phase, so two echo quorums, which share a correct member,
are for one value.  The first correct node to be ready for a value has an echo quorum for it, as
the votes of faulty members alone make nobody ready.  Hence all correct nodes that are ready are
ready for one value, and one of them stands behind every delivery.

**Main statements.**  `joint_of_run`: the joint invariant `Joint`.  `ready_unique`: correct nodes
are ready for one value.  `agreement`: correct nodes deliver one value.
-/

namespace Quorum.Broadcast

open Mesh

variable {c : Committee} {broadcaster : NodeId} {faulty : Finset NodeId}
variable {past : List (Moment (.broadcast c broadcaster))}
variable {mesh : Mesh (.broadcast c broadcaster)}

/-! ### One step -/

/-- What an event of an asynchronous network makes of the state `s` of a node. -/
structure Reacted (mesh : Mesh (.broadcast c broadcaster)) (node : NodeId) (s : State)
    (e : Event (.broadcast c broadcaster)) (s' : State) (out : List (Outgoing Message)) : Prop where
  settled : Settled c s → Settled c s'
  declares : Declares c s s' out
  votes_mono : ∀ k vote, vote ∈ (s.tally k).votes → vote ∈ (s'.tally k).votes
  /-- A new vote comes from a member; from a node, only if the node has sent it. -/
  votes : ∀ k x v, (x, v) ∈ (s'.tally k).votes → (x, v) ∈ (s.tally k).votes ∨
    (x ∈ c ∧ ((mesh.nodes.get? x).isSome → (⟨x, node, ⟨k, v⟩⟩ : Packet Message) ∈ mesh.pool))
  backed : ∀ o ∈ out, o.body.kind = .ready → s'.Backs c o.body.value

theorem reacted {node : NodeId} {s s' : State} {e : Event (.broadcast c broadcaster)}
    {out : List (Outgoing Message)} (h : Acts mesh node s e s' out) (he : e.IsAsynchronous) :
    Reacted mesh node s e s' out := by
  rcases h.asynchronous he with ⟨v, r, -, hr, rfl, rfl⟩ | ⟨p, r, hpool, hto, hr, rfl, rfl⟩
  · have hok : input c broadcaster node s v = .ok r := input_of_protocol hr
    obtain ⟨-, -, hstate, hsent⟩ := input_eq_ok hok
    have htally : ∀ k, r.state.tally k = s.tally k := by
      intro k
      rw [hstate]
      cases k <;> rfl
    refine
      { settled := fun hs => settled_input hs hok
        declares := declares_input hok
        votes_mono := ?_
        votes := ?_
        backed := ?_ }
    · intro k vote hvote
      rw [htally]
      exact hvote
    · intro k x w hvote
      rw [htally] at hvote
      exact .inl hvote
    · intro o ho hkind
      rw [hsent] at ho
      rw [kind_of_mem_toAll ho] at hkind
      cases hkind
  · cases hr
    refine
      { settled := settled_receive
        declares := declares_receive
        votes_mono := fun k vote hvote => mem_votes_receive.mpr (.inl hvote)
        votes := ?_
        backed := fun o ho hkind => ready_backed ho hkind }
    · intro k x w hvote
      rcases mem_votes_receive.mp hvote with hvote | ⟨hmember, hkind, -, hxw⟩
      · exact .inl hvote
      · cases hxw
        refine .inr ⟨hmember, fun hsome => ?_⟩
        obtain ⟨sender, recipient, kind, value⟩ := p
        subst hto hkind
        exact hpool hsome

theorem Reacted.echoes_mono {node : NodeId} {s s' : State} {e : Event (.broadcast c broadcaster)}
    {out : List (Outgoing Message)} (hr : Reacted mesh node s e s' out) (hs : Settled c s)
    (v : Bytes) : s.echoes.count v ≤ s'.echoes.count v := by
  rw [← hs.card_echoes]
  exact Tally.card_le_count ((hr.settled hs).nodup .echo) fun x hx =>
    hr.votes_mono .echo _ (Tally.mem_voters.mp hx)

/-! ### The joint invariant -/

/-- What holds of all nodes together.  In a packet, the kind and the value are those of its
message. -/
structure Joint (mesh : Mesh (.broadcast c broadcaster)) : Prop where
  settled : ∀ id (s : State), mesh.nodes.get? id = some s → Settled c s
  /-- A vote recorded in the name of a node is one that the node has sent. -/
  votes : ∀ id (s : State), mesh.nodes.get? id = some s → ∀ k x v, (x, v) ∈ (s.tally k).votes →
    x ∈ c ∧ ((mesh.nodes.get? x).isSome → (⟨x, id, ⟨k, v⟩⟩ : Packet Message) ∈ mesh.pool)
  declared : ∀ id (s : State), mesh.nodes.get? id = some s → ∀ y k v,
    (⟨id, y, ⟨k, v⟩⟩ : Packet Message) ∈ mesh.pool → s.declared k = true
  /-- What a node declares goes to every member. -/
  to_all : ∀ id (s : State), mesh.nodes.get? id = some s → ∀ k, s.declared k = true →
    ∃ v, ∀ y ∈ c, (⟨id, y, ⟨k, v⟩⟩ : Packet Message) ∈ mesh.pool
  /-- In each phase a node declares one value. -/
  unique : ∀ x y z k v w, (⟨x, y, ⟨k, v⟩⟩ : Packet Message) ∈ mesh.pool →
    (⟨x, z, ⟨k, w⟩⟩ : Packet Message) ∈ mesh.pool → v = w
  /-- Behind every `ready` stands an echo quorum, at some node. -/
  backed : ∀ x y v, (⟨x, y, ⟨.ready, v⟩⟩ : Packet Message) ∈ mesh.pool →
    ∃ id, ∃ s : State, mesh.nodes.get? id = some s ∧ c.echoThreshold ≤ s.echoes.count v

theorem joint_start {ids : List NodeId} (h : Mesh.start (.broadcast c broadcaster) ids = .ok mesh) :
    Joint mesh := by
  obtain ⟨hpool, hnodes⟩ := start_spec h
  have hempty : ∀ p : Packet Message, p ∉ mesh.pool := by
    intro p hp
    rw [hpool] at hp
    exact Array.not_mem_empty p hp
  have hfresh : ∀ id (s : State), mesh.nodes.get? id = some s → s = {} := by
    intro id s hs
    rcases hnodes id with ⟨-, s', hs', hget⟩ | ⟨-, hnone⟩
    · rw [hget] at hs
      cases hs
      cases hs'
      rfl
    · rw [hnone] at hs
      cases hs
  refine
    { settled := ?_
      votes := ?_
      declared := fun _ _ _ _ _ _ hp => absurd hp (hempty _)
      to_all := ?_
      unique := fun _ _ _ _ _ _ hp => absurd hp (hempty _)
      backed := fun _ _ _ hp => absurd hp (hempty _) }
  · intro id s hs
    rw [hfresh id s hs]
    exact settled_start
  · intro id s hs k x v hvote
    rw [hfresh id s hs] at hvote
    cases k <;> cases hvote
  · intro id s hs k hk
    rw [hfresh id s hs] at hk
    cases k <;> cases hk

section
variable {node : NodeId} {s s' : State} {e : Event (.broadcast c broadcaster)}
variable {out : List (Outgoing Message)} (hj : Joint mesh)
  (hs : mesh.nodes.get? node = some s) (hr : Reacted mesh node s e s' out)
include hj hs hr

theorem Joint.votes_after {k : Kind} {x : NodeId} {v : Bytes}
    (hvote : (x, v) ∈ (s'.tally k).votes) :
    x ∈ c ∧ ((mesh.nodes.get? x).isSome → (⟨x, node, ⟨k, v⟩⟩ : Packet Message) ∈ mesh.pool) := by
  rcases hr.votes k x v hvote with hold | hnew
  · exact hj.votes node s hs k x v hold
  · exact hnew

/-- A node that is ready has an echo quorum, or else a correct node was ready before it. -/
theorem Joint.backed_after (hf : faulty.card ≤ c.faults)
    (hnodes : ∀ x ∈ c, x ∉ faulty → (mesh.nodes.get? x).isSome) {v : Bytes}
    (hback : s'.Backs c v) :
    c.echoThreshold ≤ s'.echoes.count v ∨
      ∃ id, ∃ t : State, mesh.nodes.get? id = some t ∧ c.echoThreshold ≤ t.echoes.count v := by
  rcases hback with hechoes | hreadies
  · exact .inl hechoes
  · rw [← (hr.settled (hj.settled node s hs)).card_readies] at hreadies
    obtain ⟨x, hx, hcorrect⟩ := Committee.exists_correct hf hreadies
    obtain ⟨hmember, hsent⟩ :=
      hj.votes_after hs hr (k := .ready) (Tally.mem_voters.mp hx)
    exact .inr (hj.backed x node v (hsent (hnodes x hmember hcorrect)))

theorem Joint.settled_after {id : NodeId} {t : State}
    (ht : (mesh.turned node s' out).nodes.get? id = some t) : Settled c t := by
  rcases get?_turned_cases ht with ⟨rfl, rfl⟩ | ⟨-, ht⟩
  · exact hr.settled (hj.settled node s hs)
  · exact hj.settled id t ht

theorem Joint.declared_after {id y : NodeId} {t : State}
    (ht : (mesh.turned node s' out).nodes.get? id = some t) {k : Kind} {v : Bytes}
    (hp : (⟨id, y, ⟨k, v⟩⟩ : Packet Message) ∈ (mesh.turned node s' out).pool) :
    t.declared k = true := by
  rcases get?_turned_cases ht with ⟨rfl, rfl⟩ | ⟨hid, ht⟩
  · rcases mem_pool_turned.mp hp with hp | ⟨-, ho⟩
    · exact hr.declares.mono (hj.declared node s hs y k v hp)
    · exact (hr.declares.of_mem ho).2.1
  · rcases mem_pool_turned.mp hp with hp | ⟨hsender, -⟩
    · exact hj.declared id t ht y k v hp
    · exact absurd hsender.symm hid

/-- What has been declared is in the pool for every member. -/
theorem Joint.to_all_after {id : NodeId} {t : State}
    (ht : (mesh.turned node s' out).nodes.get? id = some t) {k : Kind} (hk : t.declared k = true) :
    ∃ v, ∀ y ∈ c, (⟨id, y, ⟨k, v⟩⟩ : Packet Message) ∈ (mesh.turned node s' out).pool := by
  have hkeep : (∃ v, ∀ y ∈ c, (⟨id, y, ⟨k, v⟩⟩ : Packet Message) ∈ mesh.pool) →
      ∃ v, ∀ y ∈ c, (⟨id, y, ⟨k, v⟩⟩ : Packet Message) ∈ (mesh.turned node s' out).pool := by
    rintro ⟨v, hv⟩
    exact ⟨v, fun y hy => mem_pool_turned.mpr (.inl (hv y hy))⟩
  rcases get?_turned_cases ht with ⟨rfl, rfl⟩ | ⟨-, ht⟩
  · cases hr.declares with
    | nothing _ hdeclared =>
      have hold : s.declared k = true := by rw [← hdeclared k, hk]
      exact hkeep (hj.to_all node s hs k hold)
    | value k' v hsent _ _ hother =>
      by_cases hkk : k = k'
      · subst hkk
        refine ⟨v, fun y hy => mem_pool_turned.mpr (.inr ⟨rfl, ?_⟩)⟩
        rw [hsent]
        exact mem_toAll.mpr ⟨hy, rfl⟩
      · have hold : s.declared k = true := by rw [← hother k hkk, hk]
        exact hkeep (hj.to_all node s hs k hold)
  · exact hkeep (hj.to_all id t ht k hk)

/-- A new message is of a phase in which the node had been silent, so none of that phase is old. -/
theorem Joint.silent_before {y z : NodeId} {k : Kind} {v w : Bytes}
    (ho : (⟨y, ⟨k, v⟩⟩ : Outgoing Message) ∈ out) :
    (⟨node, z, ⟨k, w⟩⟩ : Packet Message) ∉ mesh.pool := by
  intro hp
  have hnew := (hr.declares.of_mem ho).1
  rw [hj.declared node s hs z k w hp] at hnew
  cases hnew

theorem Joint.unique_after {x y z : NodeId} {k : Kind} {v w : Bytes}
    (hp : (⟨x, y, ⟨k, v⟩⟩ : Packet Message) ∈ (mesh.turned node s' out).pool)
    (hq : (⟨x, z, ⟨k, w⟩⟩ : Packet Message) ∈ (mesh.turned node s' out).pool) : v = w := by
  rcases mem_pool_turned.mp hp with hold | ⟨hx, ho⟩ <;>
    rcases mem_pool_turned.mp hq with hold' | ⟨hx', ho'⟩
  · exact hj.unique x y z k v w hold hold'
  · subst hx'
    exact absurd hold (hj.silent_before hs hr ho')
  · subst hx
    exact absurd hold' (hj.silent_before hs hr ho)
  · exact (congrArg Message.value ((hr.declares.of_mem ho).2.2 _ ho')).symm

/-- An echo quorum does not go away. -/
theorem Joint.quorum_mono {v : Bytes} (h : ∃ id, ∃ t : State, mesh.nodes.get? id = some t ∧
    c.echoThreshold ≤ t.echoes.count v) : ∃ id, ∃ t : State,
      (mesh.turned node s' out).nodes.get? id = some t ∧
        c.echoThreshold ≤ t.echoes.count v := by
  obtain ⟨id, t, ht, hcount⟩ := h
  by_cases hid : node = id
  · subst hid
    obtain rfl : s = t := Option.some.inj (hs.symm.trans ht)
    have hmono := hr.echoes_mono (hj.settled node s hs) v
    exact ⟨node, s', get?_turned_self .., hcount.trans hmono⟩
  · exact ⟨id, t, (get?_turned_ne _ _ _ hid).trans ht, hcount⟩

/-- **A step keeps the joint invariant.** -/
theorem Joint.step (hf : faulty.card ≤ c.faults)
    (hnodes : ∀ x ∈ c, x ∉ faulty → (mesh.nodes.get? x).isSome) :
    Joint (mesh.turned node s' out) := by
  refine
    { settled := fun id t ht => hj.settled_after hs hr ht
      votes := ?_
      declared := fun id t ht y k v hp => hj.declared_after hs hr ht hp
      to_all := fun id t ht k hk => hj.to_all_after hs hr ht hk
      unique := fun x y z k v w hp hq => hj.unique_after hs hr hp hq
      backed := ?_ }
  · intro id t ht k x v hvote
    have hold : x ∈ c ∧ ((mesh.nodes.get? x).isSome →
        (⟨x, id, ⟨k, v⟩⟩ : Packet Message) ∈ mesh.pool) := by
      rcases get?_turned_cases ht with ⟨rfl, rfl⟩ | ⟨-, ht⟩
      · exact hj.votes_after hs hr hvote
      · exact hj.votes id t ht k x v hvote
    refine ⟨hold.1, fun hsome => mem_pool_turned.mpr (.inl (hold.2 ?_))⟩
    exact (isSome_get?_turned s' out hs x).symm.trans hsome
  · intro x y v hp
    rcases mem_pool_turned.mp hp with hp | ⟨-, ho⟩
    · exact hj.quorum_mono hs hr (hj.backed x y v hp)
    · have hback := hr.backed _ ho rfl
      rcases hj.backed_after hs hr hf hnodes hback with hcount | hothers
      · exact ⟨node, s', get?_turned_self .., hcount⟩
      · exact hj.quorum_mono hs hr hothers

end

theorem isSome_of_correct {may : Event (.broadcast c broadcaster) → Prop}
    (hrun : Run (c.correct faulty) may past mesh) {x : NodeId} (hx : x ∈ c)
    (hcorrect : x ∉ faulty) :
    (mesh.nodes.get? x).isSome :=
  (hrun.nodes_isSome x).mpr (Committee.mem_correct.mpr ⟨hx, hcorrect⟩)

theorem joint_of_run (hf : faulty.card ≤ c.faults)
    (hrun : Run (c.correct faulty) Event.IsAsynchronous past mesh) : Joint mesh := by
  induction hrun with
  | start h => exact joint_start h
  | step hrun hmay h ih =>
    obtain ⟨node, s, s', out, hs, hacts, rfl⟩ := step_spec h
    exact ih.step hs (reacted hacts hmay) hf fun x => isSome_of_correct hrun

/-! ### Agreement -/

section
variable (hf : faulty.card ≤ c.faults)
  (hrun : Run (c.correct faulty) Event.IsAsynchronous past mesh)
include hf hrun

/-- **Two echo quorums are for one value.** -/
theorem echo_quorum_unique {a b : NodeId} {s t : State} (ha : mesh.nodes.get? a = some s)
    (hb : mesh.nodes.get? b = some t) {v w : Bytes} (hv : c.echoThreshold ≤ s.echoes.count v)
    (hw : c.echoThreshold ≤ t.echoes.count w) : v = w := by
  have hj := joint_of_run hf hrun
  have hmembers : ∀ id (u : State) x, mesh.nodes.get? id = some u →
      u.echoes.voters x ⊆ c.memberSet := fun id u x hu y hy =>
    Committee.mem_memberSet.mpr (hj.votes id u hu .echo y x (Tally.mem_voters.mp hy)).1
  rw [← (hj.settled a s ha).card_echoes] at hv
  rw [← (hj.settled b t hb).card_echoes] at hw
  obtain ⟨x, hxa, hxb, hcorrect⟩ :=
    Committee.exists_correct_inter hf (hmembers a s v ha) (hmembers b t w hb) hv hw
  obtain ⟨hx, hsentA⟩ := hj.votes a s ha .echo x v (Tally.mem_voters.mp hxa)
  obtain ⟨-, hsentB⟩ := hj.votes b t hb .echo x w (Tally.mem_voters.mp hxb)
  have hnode := isSome_of_correct hrun hx hcorrect
  exact hj.unique x a b .echo v w (hsentA hnode) (hsentB hnode)

theorem ready_unique {x y a b : NodeId} {v w : Bytes}
    (hv : (⟨x, a, ⟨.ready, v⟩⟩ : Packet Message) ∈ mesh.pool)
    (hw : (⟨y, b, ⟨.ready, w⟩⟩ : Packet Message) ∈ mesh.pool) : v = w := by
  have hj := joint_of_run hf hrun
  obtain ⟨p, s, hp, hs⟩ := hj.backed x a v hv
  obtain ⟨q, t, hq, ht⟩ := hj.backed y b w hw
  exact echo_quorum_unique hf hrun hp hq hs ht

/-- Behind a value delivered stands a correct node that is ready for it. -/
theorem exists_ready_of_delivered {a : NodeId} {s : State} (ha : mesh.nodes.get? a = some s)
    {v : Bytes} (hv : s.delivered = some v) :
    ∃ x, (⟨x, a, ⟨.ready, v⟩⟩ : Packet Message) ∈ mesh.pool := by
  have hj := joint_of_run hf hrun
  have hcount := (hj.settled a s ha).readies_of_delivered v hv
  rw [← (hj.settled a s ha).card_readies] at hcount
  have hready : c.faults < (s.readies.voters v).card := by omega
  obtain ⟨x, hx, hcorrect⟩ := Committee.exists_correct hf hready
  obtain ⟨hmember, hsent⟩ := hj.votes a s ha .ready x v (Tally.mem_voters.mp hx)
  exact ⟨x, hsent (isSome_of_correct hrun hmember hcorrect)⟩

end

/-- **Agreement: no two correct nodes deliver different values**, whatever the faulty members and
the network do. -/
theorem agreement (hf : faulty.card ≤ c.faults)
    (hrun : Run (c.correct faulty) Event.IsAsynchronous past mesh) {a b : NodeId}
    {s t : (Protocol.broadcast c broadcaster).State} (ha : mesh.nodes.get? a = some s)
    (hb : mesh.nodes.get? b = some t) {v w : Bytes}
    (hv : (Protocol.broadcast c broadcaster).output s = some v)
    (hw : (Protocol.broadcast c broadcaster).output t = some w) : v = w := by
  obtain ⟨x, hx⟩ := exists_ready_of_delivered hf hrun ha hv
  obtain ⟨y, hy⟩ := exists_ready_of_delivered hf hrun hb hw
  exact ready_unique hf hrun hx hy

/-! ### A faulty broadcaster that tells two values -/

/-- A committee of four, which tolerates one faulty member. -/
def four : Committee := ⟨[⟨0⟩, ⟨1⟩, ⟨2⟩, ⟨3⟩]⟩

/-- A message in the name of the last of the four, who is the broadcaster. -/
def lie (recipient : NodeId) (k : Kind) (v : Bytes) : Event (.broadcast four ⟨3⟩) :=
  .forge ⟨⟨3⟩, recipient, ⟨k, v⟩⟩

/-- The broadcaster tells one value to two nodes and another one to the third, and supports the
first value with its votes. -/
def equivocation : List (Event (.broadcast four ⟨3⟩)) :=
  [lie ⟨0⟩ .initial [1], lie ⟨1⟩ .initial [1], lie ⟨2⟩ .initial [2],
    lie ⟨0⟩ .echo [1], .deliver 0, .deliver 4, lie ⟨1⟩ .echo [1], .deliver 1, .deliver 5,
    lie ⟨0⟩ .ready [1], .deliver 12, .deliver 16, lie ⟨1⟩ .ready [1], .deliver 13, .deliver 17]

def hasDelivered (mesh : Mesh (.broadcast c broadcaster)) (id : NodeId) (v : Bytes) : Bool :=
  (mesh.nodes.get? id).any fun (s : State) => s.delivered = some v

theorem eq_some_of_hasDelivered {id : NodeId} {v : Bytes} (h : hasDelivered mesh id v = true) :
    ∃ s, mesh.nodes.get? id = some s ∧ (Protocol.broadcast c broadcaster).output s = some v := by
  obtain ⟨s, hs, hv⟩ := (Option.any_eq_true _ _).mp h
  have hv : (s : State).delivered = some v := of_decide_eq_true hv
  exact ⟨s, hs, hv⟩

theorem agreement_under_equivocation : ∃ past mesh s t v w,
    Run (four.correct {⟨3⟩}) Event.IsAsynchronous past mesh ∧
      mesh.nodes.get? ⟨0⟩ = some s ∧ mesh.nodes.get? ⟨1⟩ = some t ∧
      (Protocol.broadcast four ⟨3⟩).output s = some v ∧
      (Protocol.broadcast four ⟨3⟩).output t = some w ∧ v = w := by
  obtain ⟨past, mesh, hrun, -, htest⟩ :=
    @Run.exists (.broadcast four ⟨3⟩) (four.correct {⟨3⟩}) Event.IsAsynchronous equivocation
      (fun mesh => hasDelivered mesh ⟨0⟩ [1] && hasDelivered mesh ⟨1⟩ [1])
      (by simp [equivocation, lie, Event.IsAsynchronous]) (by decide +kernel)
  rw [Bool.and_eq_true] at htest
  obtain ⟨s, hs, hv⟩ := eq_some_of_hasDelivered htest.1
  obtain ⟨t, ht, hw⟩ := eq_some_of_hasDelivered htest.2
  exact ⟨past, mesh, s, t, [1], [1], hrun, hs, ht, hv, hw, agreement (by decide) hrun hs ht hv hw⟩

end Quorum.Broadcast
