import Quorum.Proofs.Broadcast.Totality

/-!
# Validity — what a correct broadcaster says is what is delivered

When the broadcaster is correct, everything that correct nodes send goes back to its input: an
`initial` message comes from the input, an echo from an `initial` message, and a `ready` from an
echo quorum, in which there is a correct node.  Faulty members are too few to add a value of their
own.  The other way round, correct members alone make up an echo quorum and more than twice the
tolerated faults, so once everything between them has arrived the value is delivered.

**Main statements.**  `sourced_of_run`: why something was sent.  `input_of_sent`: every message
carries the input.  `input_unique`: there is one input.  `delivered_of_input`: it is delivered.
`validity`.
-/

namespace Quorum.Broadcast

open Mesh

variable {c : Committee} {broadcaster : NodeId} {faulty : Finset NodeId}
variable {past : List (Moment (.broadcast c broadcaster))}
variable {mesh : Mesh (.broadcast c broadcaster)}

/-! ### Causes -/

/-- A message makes a node echo it, if it is the broadcaster's, or makes it ready. -/
theorem cause_of_sent {s : State} {sender : NodeId} {m : Message} {o : Outgoing Message}
    (ho : o ∈ (receive c broadcaster s sender m).sent) :
    (o.body.kind = .echo ∧ sender = broadcaster ∧ m = ⟨.initial, o.body.value⟩) ∨
      o.body.kind = .ready := by
  obtain ⟨kind, v⟩ := m
  unfold receive at ho
  split at ho
  · cases kind with
    | initial =>
      left
      simp only [onInitial] at ho
      split at ho
      · simp at ho
      · rename_i hfirst
        have hbody := kind_of_mem_toAll ho
        have hsender : sender = broadcaster := by simpa using (not_or.mp hfirst).1
        rw [hbody]
        exact ⟨rfl, hsender, rfl⟩
    | echo =>
      right
      simp only [onEcho] at ho
      split at ho
      · rw [value_of_mem_sendReady ho]
      · simp at ho
    | ready =>
      right
      simp only [onReady] at ho
      split at ho
      · rw [value_of_mem_sendReady ho]
      · simp at ho
  · simp at ho

theorem echoSent_of_initial (s : State) (v : Bytes) (hb : broadcaster ∈ c) :
    (receive c broadcaster s broadcaster ⟨.initial, v⟩).state.echoSent = true := by
  simp only [receive, if_pos hb, onInitial]
  split
  · rename_i hsent
    simpa using hsent
  · rfl

/-- Where messages come from, and what inputs lead to. -/
structure Sourced (past : List (Moment (.broadcast c broadcaster)))
    (mesh : Mesh (.broadcast c broadcaster)) : Prop where
  initial : ∀ x y v, (⟨x, y, ⟨.initial, v⟩⟩ : Packet Message) ∈ mesh.pool →
    x = broadcaster ∧ ∃ z ∈ past, z.event = .input broadcaster v
  /-- An echo answers an `initial` message; if the broadcaster is a node, it has sent it. -/
  echo : ∀ x y v, (⟨x, y, ⟨.echo, v⟩⟩ : Packet Message) ∈ mesh.pool →
    (mesh.nodes.get? broadcaster).isSome →
      (⟨broadcaster, x, ⟨.initial, v⟩⟩ : Packet Message) ∈ mesh.pool
  input : ∀ z ∈ past, ∀ node v, z.event = .input node v →
    node = broadcaster ∧ (mesh.nodes.get? broadcaster).isSome ∧
      ∀ y ∈ c, (⟨broadcaster, y, ⟨.initial, v⟩⟩ : Packet Message) ∈ mesh.pool

/-- What one event sends has its cause in the event. -/
theorem cause_of_acts {node : NodeId} {s s' : State} {e : Event (.broadcast c broadcaster)}
    {out : List (Outgoing Message)} (h : Acts mesh node s e s' out) (he : e.IsAsynchronous)
    {o : Outgoing Message} (ho : o ∈ out) :
    (o.body.kind = .initial ∧ node = broadcaster ∧ e = .input node o.body.value) ∨
    (o.body.kind = .echo ∧ ((mesh.nodes.get? broadcaster).isSome →
      (⟨broadcaster, node, ⟨.initial, o.body.value⟩⟩ : Packet Message) ∈ mesh.pool)) ∨
    o.body.kind = .ready := by
  rcases h.asynchronous he with ⟨v, r, hinput, hr, rfl, rfl⟩ | ⟨p, r, hpool, hto, hr, rfl, rfl⟩
  · obtain ⟨hme, -, -, hsent⟩ := input_eq_ok (input_of_protocol hr)
    rw [hsent] at ho
    rw [kind_of_mem_toAll ho]
    exact .inl ⟨rfl, hme, hinput⟩
  · cases hr
    right
    rcases cause_of_sent ho with ⟨hkind, hsender, hm⟩ | hready
    · refine .inl ⟨hkind, fun hnode => ?_⟩
      have hp : p = ⟨broadcaster, node, ⟨.initial, o.body.value⟩⟩ := by
        rw [← hsender, ← hto]
        exact congrArg (Packet.mk p.sender p.recipient) hm
      have hsome : (mesh.nodes.get? p.sender).isSome := by
        rw [hsender]
        exact hnode
      exact hp ▸ hpool hsome
    · exact .inr hready

theorem Sourced.step {node : NodeId} {s s' : State} {e : Event (.broadcast c broadcaster)}
    {out : List (Outgoing Message)} (hsource : Sourced past mesh)
    (hs : mesh.nodes.get? node = some s) (h : Acts mesh node s e s' out) (he : e.IsAsynchronous) :
    Sourced (⟨mesh, e, mesh.turned node s' out⟩ :: past) (mesh.turned node s' out) where
  initial x y v hp := by
    rcases mem_pool_turned.mp hp with hp | ⟨hx, ho⟩
    · obtain ⟨hsender, z, hz, hevent⟩ := hsource.initial x y v hp
      exact ⟨hsender, z, List.mem_cons_of_mem _ hz, hevent⟩
    · rcases cause_of_acts h he ho with ⟨-, hnode, hevent⟩ | ⟨hkind, -⟩ | hkind
      · subst hnode
        exact ⟨hx, _, List.mem_cons_self .., hevent⟩
      · cases hkind
      · cases hkind
  echo x y v hp hnode := by
    rw [isSome_get?_turned s' out hs] at hnode
    refine mem_pool_turned.mpr (.inl ?_)
    rcases mem_pool_turned.mp hp with hp | ⟨hx, ho⟩
    · exact hsource.echo x y v hp hnode
    · rcases cause_of_acts h he ho with ⟨hkind, -⟩ | ⟨-, hinitial⟩ | hkind
      · cases hkind
      · subst hx
        exact hinitial hnode
      · cases hkind
  input z hz id v hevent := by
    rcases List.mem_cons.mp hz with rfl | hz
    · cases hevent
      cases h with
      | input hr =>
        obtain ⟨hme, -, -, hsent⟩ := input_eq_ok (input_of_protocol hr)
        subst hme
        refine ⟨rfl, by simp, fun y hy => mem_pool_turned.mpr (.inr ⟨rfl, ?_⟩)⟩
        rw [hsent]
        exact mem_toAll.mpr ⟨hy, rfl⟩
    · obtain ⟨hid, hnode, hall⟩ := hsource.input z hz id v hevent
      rw [isSome_get?_turned s' out hs]
      exact ⟨hid, hnode, fun y hy => mem_pool_turned.mpr (.inl (hall y hy))⟩

theorem sourced_start {ids : List NodeId}
    (h : Mesh.start (.broadcast c broadcaster) ids = .ok mesh) : Sourced [] mesh := by
  have hempty : ∀ p : Packet Message, p ∉ mesh.pool := by
    intro p hp
    rw [(start_spec h).1] at hp
    exact Array.not_mem_empty p hp
  exact
    { initial := fun _ _ _ hp => absurd hp (hempty _)
      echo := fun _ _ _ hp => absurd hp (hempty _)
      input := fun _ hz => absurd hz List.not_mem_nil }

theorem sourced_of_run {ids : List NodeId} (hrun : Run ids Event.IsAsynchronous past mesh) :
    Sourced past mesh := by
  induction hrun with
  | start h => exact sourced_start h
  | step hrun hmay h ih =>
    obtain ⟨node, s, s', out, hs, hacts, rfl⟩ := step_spec h
    exact ih.step hs hacts hmay

/-! ### One value -/

section
variable (hf : faulty.card ≤ c.faults)
  (hrun : Run (c.correct faulty) Event.IsAsynchronous past mesh)
include hf hrun

/-- **Everything that is sent carries the input of a correct broadcaster.** -/
theorem input_of_sent (hb : broadcaster ∈ c.correct faulty) {x y : NodeId} {k : Kind} {v : Bytes}
    (hp : (⟨x, y, ⟨k, v⟩⟩ : Packet Message) ∈ mesh.pool) :
    ∃ z ∈ past, z.event = .input broadcaster v := by
  have hsource := sourced_of_run hrun
  have hnode : (mesh.nodes.get? broadcaster).isSome := (hrun.nodes_isSome broadcaster).mpr hb
  have hecho : ∀ x y, (⟨x, y, ⟨.echo, v⟩⟩ : Packet Message) ∈ mesh.pool →
      ∃ z ∈ past, z.event = .input broadcaster v := by
    intro x y hp
    exact (hsource.initial _ _ _ (hsource.echo x y v hp hnode)).2
  cases k with
  | initial => exact (hsource.initial x y v hp).2
  | echo => exact hecho x y hp
  | ready =>
    -- in the echo quorum behind it there is a correct node
    have hj := joint_of_run hf hrun
    obtain ⟨id, s, hs, hquorum⟩ := hj.backed x y v hp
    rw [← (hj.settled id s hs).card_echoes] at hquorum
    have hmore : c.faults < (s.echoes.voters v).card := by
      unfold Committee.echoThreshold Committee.faults at *
      omega
    obtain ⟨voter, hvoter, hcorrect⟩ := Committee.exists_correct hf hmore
    obtain ⟨hmember, hsent⟩ := hj.votes id s hs .echo voter v (Tally.mem_voters.mp hvoter)
    exact hecho voter id (hsent (isSome_of_correct hrun hmember hcorrect))

theorem input_of_delivered (hb : broadcaster ∈ c.correct faulty) {a : NodeId} {s : State}
    (ha : mesh.nodes.get? a = some s) {v : Bytes} (hv : s.delivered = some v) :
    ∃ z ∈ past, z.event = .input broadcaster v := by
  obtain ⟨x, hx⟩ := exists_ready_of_delivered hf hrun ha hv
  exact input_of_sent hf hrun hb hx

theorem input_unique {x y : Moment (.broadcast c broadcaster)} (hx : x ∈ past) (hy : y ∈ past)
    {node node' : NodeId} {v w : Bytes} (hv : x.event = .input node v)
    (hw : y.event = .input node' w) : v = w := by
  have hsource := sourced_of_run hrun
  obtain ⟨-, hnode, hallv⟩ := hsource.input x hx node v hv
  obtain ⟨-, -, hallw⟩ := hsource.input y hy node' w hw
  have hmember : broadcaster ∈ c := (Committee.mem_correct.mp ((hrun.nodes_isSome _).mp hnode)).1
  exact (joint_of_run hf hrun).unique _ _ _ _ v w (hallv _ hmember) (hallw _ hmember)

/-! ### Delivery -/

/-- What all correct nodes declare has the votes of a quorum at each of them. -/
theorem quorum_le_count (harrived : AllArrived past mesh) (hc : c.members.Nodup) {k : Kind}
    {v : Bytes} (hk : k ≠ .initial)
    (hall : ∀ x (u : State), mesh.nodes.get? x = some u →
      ∃ z, (⟨x, z, ⟨k, v⟩⟩ : Packet Message) ∈ mesh.pool)
    {y : NodeId} {s : State} (hs : mesh.nodes.get? y = some s) :
    c.quorum ≤ (s.tally k).count v := by
  have hmember : y ∈ c :=
    (Committee.mem_correct.mp ((hrun.nodes_isSome y).mp (Option.isSome_of_mem hs))).1
  have hvotes : ∀ x ∈ c.memberSet \ faulty, (x, v) ∈ (s.tally k).votes := by
    intro x hx
    obtain ⟨hx, hcorrect⟩ := Finset.mem_sdiff.mp hx
    have hxc := Committee.mem_memberSet.mp hx
    obtain ⟨u, hu⟩ := Option.isSome_iff_exists.mp (isSome_of_correct hrun hxc hcorrect)
    obtain ⟨z, hz⟩ := hall x u hu
    exact voted_of_declared hf hrun harrived hk hxc hz hmember hs
  have hnodup := ((joint_of_run hf hrun).settled y s hs).nodup k
  exact (Committee.quorum_le_card_correct hc hf).trans (Tally.card_le_count hnodup hvotes)

section
variable (hb : broadcaster ∈ c.correct faulty) {v : Bytes}
  (hv : ∃ z ∈ past, z.event = .input broadcaster v)
include hb hv

theorem sent_of_declared {y : NodeId} {s : State} (hs : mesh.nodes.get? y = some s) {k : Kind}
    (hk : s.declared k = true) : ∃ z, (⟨y, z, ⟨k, v⟩⟩ : Packet Message) ∈ mesh.pool := by
  obtain ⟨w, hw⟩ := (joint_of_run hf hrun).to_all y s hs k hk
  have hmember : y ∈ c :=
    (Committee.mem_correct.mp ((hrun.nodes_isSome y).mp (Option.isSome_of_mem hs))).1
  obtain ⟨z, hz, hevent⟩ := hv
  obtain ⟨z', hz', hevent'⟩ := input_of_sent hf hrun hb (hw y hmember)
  obtain rfl := input_unique hf hrun hz hz' hevent hevent'
  exact ⟨y, hw y hmember⟩

variable (harrived : AllArrived past mesh)
include harrived

/-- Every correct node echoes the input. -/
theorem echoed_of_input {y : NodeId} {s : State} (hs : mesh.nodes.get? y = some s) :
    ∃ z, (⟨y, z, ⟨.echo, v⟩⟩ : Packet Message) ∈ mesh.pool := by
  have hmember : ∀ x ∈ c.correct faulty, x ∈ c := fun x hx => (Committee.mem_correct.mp hx).1
  have hnode := Option.isSome_of_mem hs
  obtain ⟨z, hz, hevent⟩ := hv
  obtain ⟨-, -, hall⟩ := (sourced_of_run hrun).input z hz broadcaster v hevent
  obtain ⟨k, hk⟩ := Array.getElem?_of_mem (hall y (hmember y ((hrun.nodes_isSome y).mp hnode)))
  have hecho : s.declared .echo = true := by
    refine hrun.of_delivered (harrived k _ hk hnode) hk
      (Q := fun s : State => s.declared .echo = true) ?_ ?_ hs
    · intro t r hr
      cases hr
      exact echoSent_of_initial t v (hmember _ hb)
    · intro mesh t e t' out hmay hacts ht
      exact (reacted hacts hmay).declares.mono ht
  exact sent_of_declared hf hrun hb ⟨z, hz, hevent⟩ hs hecho

/-- **Once everything has arrived, every correct node has delivered the input.** -/
theorem delivered_of_input (hc : c.members.Nodup) {y : NodeId} {s : State}
    (hs : mesh.nodes.get? y = some s) : s.delivered = some v := by
  have hj := joint_of_run hf hrun
  have hne : c.members ≠ [] := List.ne_nil_of_mem (Committee.mem_correct.mp hb).1
  have hready : ∀ x (u : State), mesh.nodes.get? x = some u →
      ∃ z, (⟨x, z, ⟨.ready, v⟩⟩ : Packet Message) ∈ mesh.pool := by
    intro x u hu
    have hechoes := quorum_le_count hf hrun harrived hc (k := .echo) (by decide)
      (fun _ _ h => echoed_of_input hf hrun hb hv harrived h) hu
    have hquorum : c.echoThreshold ≤ u.echoes.count v :=
      (Committee.echoThreshold_le_quorum hne).trans hechoes
    have hsent : u.declared .ready = true := (hj.settled x u hu).ready_of_echoes v hquorum
    exact sent_of_declared hf hrun hb hv hu hsent
  have hreadies := quorum_le_count hf hrun harrived hc (k := .ready) (by decide) hready hs
  have hmost : 2 * c.faults < s.readies.count v :=
    lt_of_lt_of_le (Committee.two_mul_faults_lt_quorum hne) hreadies
  obtain ⟨w, hw⟩ := Option.isSome_iff_exists.mp ((hj.settled y s hs).delivered_of_readies v hmost)
  obtain ⟨z, hz, hevent⟩ := hv
  obtain ⟨z', hz', hevent'⟩ := input_of_delivered hf hrun hb hs hw
  rw [hw, input_unique hf hrun hz hz' hevent hevent']

end

end

/-- **Validity: if the broadcaster is correct and its input is `v`, no correct node delivers, or
declares, anything else, and once everything between correct nodes has arrived, all of them have
delivered `v`.** -/
theorem validity (hc : c.members.Nodup) (hf : faulty.card ≤ c.faults)
    (hb : broadcaster ∈ c.correct faulty)
    (hrun : Run (c.correct faulty) Event.IsAsynchronous past mesh) {v : Bytes}
    (hv : ∀ x ∈ past, ∀ node w, x.event = .input node w → w = v) :
    (∀ id s w, mesh.nodes.get? id = some s →
      (Protocol.broadcast c broadcaster).output s = some w → w = v) ∧
    (∀ p : Packet Message, p ∈ mesh.pool → p.body.kind = .echo ∨ p.body.kind = .ready →
      p.body.value = v) ∧
    ((∃ x ∈ past, x.event = .input broadcaster v) → AllArrived past mesh →
      ∀ id ∈ c.correct faulty, ∃ s, mesh.nodes.get? id = some s ∧
        (Protocol.broadcast c broadcaster).output s = some v) := by
  refine ⟨?_, ?_, ?_⟩
  · intro id s w hs hw
    obtain ⟨z, hz, hevent⟩ := input_of_delivered hf hrun hb hs hw
    exact hv z hz broadcaster w hevent
  · intro p hp _
    obtain ⟨z, hz, hevent⟩ := input_of_sent hf hrun hb hp
    exact hv z hz broadcaster _ hevent
  · intro hgiven harrived id hid
    obtain ⟨s, hs⟩ := Option.isSome_iff_exists.mp ((hrun.nodes_isSome id).mpr hid)
    exact ⟨s, hs, delivered_of_input hf hrun hb hgiven harrived hc hs⟩

/-- The last of the four pushes another value: it claims to be the broadcaster, echoes and is ready,
and so does somebody from outside. -/
def noise : List (Event (.broadcast four ⟨0⟩)) :=
  [⟨0⟩, ⟨1⟩, ⟨2⟩].flatMap fun recipient =>
    [⟨⟨3⟩, recipient, ⟨.initial, [2]⟩⟩, ⟨⟨3⟩, recipient, ⟨.echo, [2]⟩⟩,
      ⟨⟨3⟩, recipient, ⟨.ready, [2]⟩⟩, ⟨⟨9⟩, recipient, ⟨.ready, [2]⟩⟩].map .forge

/-- A broadcast in this noise, in which everything between correct nodes arrives. -/
def broadcastInNoise : List (Event (.broadcast four ⟨0⟩)) :=
  noise ++ .input ⟨0⟩ [1] :: ((List.range 28).filter (· % 4 ≠ 3)).map .deliver

theorem mem_broadcastInNoise {e : Event (.broadcast four ⟨0⟩)} (he : e ∈ broadcastInNoise) :
    (∃ p, e = .forge p) ∨ e = .input ⟨0⟩ [1] ∨ ∃ k, e = .deliver k := by
  rcases List.mem_append.mp he with he | he
  · obtain ⟨recipient, -, he⟩ := List.mem_flatMap.mp he
    obtain ⟨p, -, rfl⟩ := List.mem_map.mp he
    exact .inl ⟨p, rfl⟩
  · rcases List.mem_cons.mp he with rfl | he
    · exact .inr (.inl rfl)
    · obtain ⟨k, -, rfl⟩ := List.mem_map.mp he
      exact .inr (.inr ⟨k, rfl⟩)

theorem validity_in_noise : ∃ past mesh,
    four.members.Nodup ∧ ({⟨3⟩} : Finset NodeId).card ≤ four.faults ∧ ⟨0⟩ ∈ four.correct {⟨3⟩} ∧
      Run (four.correct {⟨3⟩}) Event.IsAsynchronous past mesh ∧
      (∀ x ∈ past, ∀ node w, x.event = .input node w → w = [1]) ∧
      (∃ x ∈ past, x.event = .input ⟨0⟩ [1]) ∧ AllArrived past mesh ∧
      ∃ s, mesh.nodes.get? ⟨2⟩ = some s ∧ (Protocol.broadcast four ⟨0⟩).output s = some [1] := by
  have hmay : ∀ e ∈ broadcastInNoise, e.IsAsynchronous := by
    intro e he
    rcases mem_broadcastInNoise he with ⟨p, rfl⟩ | rfl | ⟨k, rfl⟩
    all_goals trivial
  obtain ⟨past, mesh, hrun, hpast, htest⟩ :=
    @Run.exists (.broadcast four ⟨0⟩) (four.correct {⟨3⟩}) Event.IsAsynchronous broadcastInNoise
      (deliversAll broadcastInNoise) hmay (by decide +kernel)
  have harrived := allArrived_of_deliversAll hpast htest
  have hgiven : ∃ x ∈ past, x.event = .input ⟨0⟩ [1] :=
    (exists_event_iff hpast).mpr (by simp [broadcastInNoise])
  have honly : ∀ x ∈ past, ∀ node w, x.event = .input node w → w = [1] := by
    intro x hx node w hw
    have he := (exists_event_iff hpast).mp ⟨x, hx, hw⟩
    rcases mem_broadcastInNoise he with ⟨p, h⟩ | h | ⟨k, h⟩
    all_goals cases h
    rfl
  have hvalid := validity (by decide) (by decide) (by decide) hrun honly
  exact ⟨past, mesh, by decide, by decide, by decide, hrun, honly, hgiven, harrived,
    hvalid.2.2 hgiven harrived ⟨2⟩ (by decide)⟩

end Quorum.Broadcast
