import Mathlib.Data.Prod.Lex
import Mathlib.Data.Set.Card
import Quorum.Proofs.Reliable.Answer
import Quorum.Proofs.Reliable.Lossless
import Quorum.Proofs.Wire.Transparency

/-!
# Rest — a simulation over reliable channels comes to rest

Without ticks, a batch is sent again only when another one has come again.  This could go back and
forth for ever, and no count of the messages in transit decreases.  But a batch that is sent again
acknowledges the one that has come.  So a batch in transit has a price, which counts the batches
that are kept anywhere except those that it acknowledges: the one sent in return is cheaper.

**Main statements.**  `price_answer`: the answer to a message costs less than the message.
`step_descends`: a step takes an input, or takes something off the load of the nodes, or else lowers
the price of what is in transit.  `gather_comes_to_rest`: a gather over reliable channels comes to
rest, whatever has happened to it.
-/

namespace Quorum

namespace Reliable

open SortedMap

/-! ### The price of a message -/

/-- A batch that is kept: by whom, for whom, and under which number. -/
abbrev Holding := NodeId × NodeId × BatchId

section
variable {μ : Type} {link : Link μ} {held later : Set Holding} {p : Packet (Message μ)}

def settledBy (p : Packet (Message μ)) : Set Holding :=
  {h | h.1 = p.recipient ∧ h.2.1 = p.sender ∧ h.2.2 ∈ p.body.acks}

/-- How many messages, at most, come in a row because of this one: if it has a number, twice the
batches that are kept and that it does not acknowledge, less one if it is among them. -/
noncomputable def price (held : Set Holding) (p : Packet (Message μ)) : Nat :=
  match p.body with
  | .reset r => if r.isResponse then 1 else 2
  | .batch b =>
    match b.id with
    | none => 1
    | some i =>
      2 + (held \ settledBy p).ncard +
        ((held \ settledBy p) \ {(p.sender, p.recipient, i)}).ncard

theorem price_pos (held : Set Holding) (p : Packet (Message μ)) : 0 < price held p := by
  unfold price
  split
  · split <;> omega
  · split <;> omega

theorem price_mono (hheld : later ⊆ held) (p : Packet (Message μ)) :
    price later p ≤ price held p := by
  have hleft : later \ settledBy p ⊆ held \ settledBy p := Set.sdiff_subset_sdiff_left hheld
  unfold price
  split
  · exact le_rfl
  · split
    · exact le_rfl
    · exact Nat.add_le_add (Nat.add_le_add_left (Set.ncard_le_ncard hleft) 2)
        (Set.ncard_le_ncard (Set.sdiff_subset_sdiff_left hleft))

/-- A batch that is kept, and acknowledges another one, costs less than that one. -/
theorem price_carrier {me sender : NodeId} {b kept : Batch μ} {i j : BatchId}
    (hid : b.id = some i) (hown : kept.id = some j) (hack : i ∈ kept.acks)
    (hkept : (me, sender, j) ∈ later) (hheld : later ⊆ held \ settledBy ⟨sender, me, .batch b⟩) :
    price later ⟨me, sender, .batch kept⟩ < price held ⟨sender, me, .batch b⟩ := by
  simp only [price, hid, hown]
  -- The answer does not count the batch that it acknowledges, and counts itself once, not twice.
  have hfirst : (later \ settledBy ⟨me, sender, .batch kept⟩).ncard ≤
      ((held \ settledBy ⟨sender, me, .batch b⟩) \ {(sender, me, i)}).ncard := by
    refine Set.ncard_le_ncard fun h hh => ⟨hheld hh.1, ?_⟩
    rintro rfl
    exact hh.2 ⟨rfl, rfl, hack⟩
  have hsecond : ((later \ settledBy ⟨me, sender, .batch kept⟩) \ {(me, sender, j)}).ncard <
      (held \ settledBy ⟨sender, me, .batch b⟩).ncard := by
    refine Set.ncard_lt_ncard ⟨fun h hh => hheld hh.1.1, fun hall => ?_⟩
    exact (hall (hheld hkept)).2 rfl
  omega

/-- **What is sent in return for a message costs less than the message.** -/
theorem price_answer (me : NodeId) {sender : NodeId} {m : Message μ} {ms : List (Message μ)}
    (hanswer : Answer link m ms) (hkept : ∀ j, link.unacked.contains j → (me, sender, j) ∈ later)
    (hheld : later ⊆ held \ settledBy ⟨sender, me, m⟩) :
    (ms.map fun m' => price later ⟨me, sender, m'⟩).sum < price held ⟨sender, me, m⟩ := by
  cases hanswer with
  | nothing => exact price_pos held _
  | latest hr latest => simp [price, hr]
  | alone hid =>
    simp only [List.map_cons, List.map_nil, List.sum_cons, List.sum_nil, price, hid]
    omega
  | carrier hid hown hack hin =>
    exact price_carrier hid hown hack (hkept _ hin) hheld

end

/-! ### The load of all nodes -/

section
variable {P : Protocol} {room : P.State → Nat} {nodes : SortedMap NodeId (State P)}
  {s : State P} {me sender : NodeId} {m : Message P.Msg} {r : Reaction (State P) (Message P.Msg)}

/-- What is kept, by any node for any other. -/
def holdings (nodes : SortedMap NodeId (State P)) : Set Holding :=
  {h | (linkOf nodes h.1 h.2.1).unacked.contains h.2.2}

theorem mem_holdings {a b : NodeId} {i : BatchId} :
    (a, b, i) ∈ holdings nodes ↔ (linkOf nodes a b).unacked.contains i :=
  Iff.rfl

noncomputable def loadAt (room : P.State → Nat) (nodes : SortedMap NodeId (State P))
    (a : NodeId) : Nat :=
  ((nodes.get? a).map (State.load room)).getD 0

noncomputable def burden (room : P.State → Nat) (nodes : SortedMap NodeId (State P)) : Nat :=
  ∑ a, loadAt room nodes a

theorem burden_insert {s' : State P} (spent : Nat) (hs : nodes.get? me = some s)
    (h : s'.load room + spent ≤ s.load room) :
    burden room (nodes.insert me s') + spent ≤ burden room nodes := by
  refine sum_add_le (i := me) ?_ fun a ha => ?_
  · rwa [loadAt, loadAt, get?_insert, if_pos rfl, hs]
  · rw [loadAt, loadAt, get?_insert, if_neg fun hrank => ha (Ranked.rank_inj hrank).symm]

/-- After a message that takes nothing off the load, no more is kept than before, and nothing that
the message acknowledges. -/
theorem holdings_rests (hs : nodes.get? me = some s) (h : Rests room s sender m r) :
    holdings (nodes.insert me r.state) ⊆ holdings nodes \ settledBy ⟨sender, me, m⟩ := by
  rintro ⟨a, b, i⟩ hi
  rw [mem_holdings, linkOf_insert] at hi
  by_cases ha : me = a
  · subst ha
    rw [if_pos rfl] at hi
    by_cases hb : b = sender
    · subst hb
      obtain ⟨hold, hopen⟩ := h.released i hi
      refine ⟨?_, fun hsettled => hopen hsettled.2.2⟩
      rwa [mem_holdings, linkOf_of_get? hs]
    · rw [h.other b hb] at hi
      refine ⟨?_, fun hsettled => hb hsettled.2.1⟩
      rwa [mem_holdings, linkOf_of_get? hs]
  · rw [if_neg ha] at hi
    exact ⟨hi, fun hsettled => ha hsettled.1.symm⟩

/-- The price of all that is in transit. -/
noncomputable def cost (nodes : SortedMap NodeId (State P))
    (queue : List (Packet (Message P.Msg))) : Nat :=
  (queue.map (price (holdings nodes))).sum

theorem cost_lt_cons (nodes : SortedMap NodeId (State P)) (p : Packet (Message P.Msg))
    (rest : List (Packet (Message P.Msg))) : cost nodes rest < cost nodes (p :: rest) :=
  Nat.lt_add_of_pos_left (price_pos (holdings nodes) p)

/-- **A message takes something off the load, or is answered by something cheaper.** -/
theorem cost_receive (hfrugal : Frugal P room) (hs : nodes.get? me = some s)
    (hcoherent : s.Coherent) (h : receive me s sender m = .ok r)
    (rest : List (Packet (Message P.Msg))) :
    burden room (nodes.insert me r.state) < burden room nodes ∨
      burden room (nodes.insert me r.state) ≤ burden room nodes ∧
        cost (nodes.insert me r.state) (rest ++ r.sent.map (Outgoing.sentBy me)) <
          cost nodes (⟨sender, me, m⟩ :: rest) := by
  rcases receive_spends hfrugal hcoherent h with hless | hrests
  · exact .inl (burden_insert 1 hs hless)
  · refine .inr ⟨burden_insert 0 hs hrests.load, ?_⟩
    have hheld := holdings_rests hs hrests
    have hrest : cost (nodes.insert me r.state) rest ≤ cost nodes rest :=
      List.sum_le_sum fun p _ => price_mono (hheld.trans Set.sdiff_subset) p
    obtain ⟨ms, hsent, hanswer⟩ := hrests.sent
    have hanswered := price_answer me hanswer (fun j hj => by
      rwa [mem_holdings, linkOf_insert, if_pos rfl]) hheld
    rw [hsent, toPeer, List.map_map, cost, List.map_append, List.sum_append, List.map_map]
    rw [cost, List.map_cons, List.sum_cons]
    exact Nat.add_lt_add_of_le_of_lt hrest hanswered |>.trans_eq (Nat.add_comm ..)

end

/-! ### Simulations -/

section
variable {P : Protocol} {room : P.State → Nat} {period : Time}
  {normal : Message P.Msg → Prop} {keeps : State P → Prop} {refuses faults : Fault → Prop}
  {sim sim' : Simulation (P.reliable period)}

open Simulation

/-- What is left to do: the inputs, then the load of all nodes, then what is in transit. -/
noncomputable def effort (room : P.State → Nat) (sim : Simulation (P.reliable period)) :
    ℕ ×ₗ ℕ ×ₗ ℕ :=
  toLex (sim.inputs.length, toLex (burden room sim.nodes, cost sim.nodes sim.queue.toList))

theorem effort_lt (hinputs : sim'.inputs = sim.inputs)
    (hburden : burden room sim'.nodes ≤ burden room sim.nodes)
    (hcost : burden room sim'.nodes = burden room sim.nodes →
      cost sim'.nodes sim'.queue.toList < cost sim.nodes sim.queue.toList) :
    effort room sim' < effort room sim := by
  rw [effort, effort, hinputs]
  exact Prod.Lex.toLex_lt_toLex.mpr
    (.inr ⟨rfl, Prod.Lex.toLex_lt_toLex'.mpr ⟨hburden, hcost⟩⟩)

/-- A simulation in order that another one may have led to: it is set up in the same way, and has no
inputs unless the other one had. -/
structure Follows (normal : Message P.Msg → Prop) (keeps : State P → Prop)
    (sim next : Simulation (P.reliable period)) : Prop where
  order : next.InOrder normal keeps
  setup : sim.SameSetup next
  given : next.inputs.toList ≠ [] → sim.inputs.toList ≠ []

section
variable (hfrugal : Frugal P room) (h : Legible (P.reliable period) normal keeps refuses faults)
  (hcoherent : ∀ s, keeps s → s.Coherent)
include hfrugal h hcoherent

/-- **A step leaves less to do.** -/
theorem step_descends (hsim : sim.InOrder normal keeps) (hstep : sim.step = .ok (some sim')) :
    effort room sim' < effort room sim := by
  cases step_takes hstep with
  | input hpop hs hr hqueue =>
    refine Prod.Lex.toLex_lt_toLex.mpr (.inl ?_)
    dsimp only
    rw [← Fifo.length_toList, ← Fifo.length_toList, Fifo.toList_of_pop? hpop, List.length_cons]
    exact Nat.lt_succ_self _
  | lost hinputs hpop hdraw =>
    refine effort_lt rfl le_rfl fun _ => ?_
    rw [Fifo.toList_of_pop? hpop]
    exact cost_lt_cons _ _ _
  | discarded hinputs hpop hdraw hs =>
    refine effort_lt rfl le_rfl fun _ => ?_
    rw [Fifo.toList_of_pop? hpop]
    exact cost_lt_cons _ _ _
  | @delivered p rest _ _ s m r _ hinputs hpop hdraw hs hm hr hqueue =>
    have hp : p ∈ sim.queue.toList := by
      rw [Fifo.toList_of_pop? hpop]
      exact List.mem_cons_self ..
    rw [transmit_alike h (hsim.queue p hp) hm] at hr
    have hgood := hcoherent s (hsim.nodes _ s hs)
    rcases cost_receive hfrugal hs hgood hr rest.toList with hless | ⟨hload, hless⟩
    · exact effort_lt rfl hless.le fun hsame => absurd hsame hless.ne
    · refine effort_lt rfl hload fun _ => ?_
      rw [hqueue, Fifo.toList_of_pop? hpop]
      exact hless

/-- **A simulation comes to rest**, if a fault does not stop it. -/
theorem comes_to_rest (hsim : sim.InOrder normal keeps) :
    ∃ n, (∃ last, sim.runSteps n = .ok (last, false) ∧ last.inputs.toList = [] ∧
        last.queue.toList = []) ∨
      ∃ fault, sim.runSteps n = .error fault ∧
        Meets refuses faults (sim.inputs.toList ≠ []) sim.loss.chance fault := by
  have hdescends : ∀ next next', Follows normal keeps sim next → next.step = .ok (some next') →
      Follows normal keeps sim next' ∧ effort room next' < effort room next :=
    fun next next' hnext hstep =>
      ⟨⟨hnext.order.step h hstep, hnext.setup.trans (sameSetup_step hstep),
        fun hsome => hnext.given (inputs_ne_nil_of_step hstep hsome)⟩,
        step_descends hfrugal h hcoherent hnext.order hstep⟩
  have hstops : ∀ next fault, Follows normal keeps sim next → next.step = .error fault →
      Meets refuses faults (sim.inputs.toList ≠ []) sim.loss.chance fault := by
    intro next fault hnext hstep
    rw [← hnext.setup.chance]
    exact (hnext.order.step_error h hstep).mono hnext.given
  obtain ⟨n, ⟨last, hlast, hend⟩ | herror⟩ :=
    runSteps_ends (effort room) _ _ hdescends hstops ⟨hsim, .refl sim, id⟩
  · exact ⟨n, .inl ⟨last, hlast, step_eq_none hend⟩⟩
  · exact ⟨n, .inr herror⟩

end

end

/-! ### Reachable simulations -/

/-- **Over reliable channels, everything stays in order and all channels stay coherent.** -/
theorem legible_coherent {P : Protocol} {normal : P.Msg → Prop} {keeps : P.State → Prop}
    {refuses faults : Fault → Prop} (h : Legible P normal keeps refuses faults) (period : Time) :
    Legible (P.reliable period) (fun m : Message P.Msg => ∀ n ∈ m.msgs, normal n)
      (fun s => s.Normal normal keeps ∧ s.Coherent) refuses
      fun fault => fault = .batchIdsExhausted ∨ faults fault :=
  (h.reliable period).and
    (fun me s hs => by
      obtain ⟨nested, -, rfl⟩ := map_eq_ok hs
      exact coherent_start nested)
    (fun me s i r hs hr => hs.call (show call period me s (.input i) = _ from hr))
    (fun me s sender m r hs hr => hs.call (show call period me s (.message sender m) = _ from hr))

end Reliable

namespace Simulation

/-- The simulations that come about: the nodes start, loss, codec and log are chosen anew at any
time, commands are carried out, and inputs are given to nodes at once.  Any messages in the form
`normal` may be put in transit from outside, and the state of a node may be changed in any way that
leaves it one that `keeps` allows. -/
inductive Reachable (S : Stack) (ids : List NodeId) (normal : S.protocol.Msg → Prop)
    (keeps : S.protocol.State → Prop) : Simulation S.protocol → Prop where
  | start {fresh : Simulation S.protocol} (h : Simulation.start S.protocol ids = .ok fresh) :
      Reachable S ids normal keeps fresh
  | setUp {sim : Simulation S.protocol} (h : Reachable S ids normal keeps sim)
      (loss : Randomness.Loss) (wire : Bool) (log : Option (Fifo (Packet Bytes))) :
      Reachable S ids normal keeps { sim with loss, wire, log }
  | perform {sim next : Simulation S.protocol} (h : Reachable S ids normal keeps sim)
      {c : Command S} (hc : sim.perform c = .ok next) : Reachable S ids normal keeps next
  | input {sim next : Simulation S.protocol} (h : Reachable S ids normal keeps sim) {node : NodeId}
      {s : S.protocol.State} {i : S.protocol.Input} (hs : sim.nodes.get? node = some s)
      (hnext : sim.settle node (S.protocol.input node s i) = .ok next) :
      Reachable S ids normal keeps next
  | enqueueFrom {sim next : Simulation S.protocol} (h : Reachable S ids normal keeps sim)
      {sender : NodeId} {out : List (Outgoing S.protocol.Msg)} (hout : ∀ o ∈ out, normal o.body)
      (hnext : sim.enqueueFrom sender out = .ok next) : Reachable S ids normal keeps next
  | modify {sim next : Simulation S.protocol} (h : Reachable S ids normal keeps sim) {node : NodeId}
      {f : S.protocol.State → S.protocol.State} (hf : ∀ s, keeps s → keeps (f s))
      (hnext : sim.modify node f = .ok next) : Reachable S ids normal keeps next

section
variable {S : Stack} {ids : List NodeId} {sim : Simulation S.protocol}
  {normal : S.protocol.Msg → Prop} {keeps : S.protocol.State → Prop}
  {refuses faults : Fault → Prop}

/-- **Whatever comes about is in order.** -/
theorem Reachable.inOrder (h : Legible S.protocol normal keeps refuses faults)
    (hdismiss : ∀ s peer, keeps s → keeps (S.dismiss s peer))
    (hsim : Reachable S ids normal keeps sim) : sim.InOrder normal keeps := by
  induction hsim with
  | start hstart => exact (InOrder.start h hstart).1
  | setUp hsim loss wire log ih => exact ⟨ih.nodes, ih.queue⟩
  | @perform sim next hsim c hc ih =>
    have hproceeds := ih.perform h hdismiss c
    rw [hc] at hproceeds
    exact hproceeds.1
  | input hsim hs hnext ih =>
    obtain ⟨r, queue, log, hr, rfl, hqueue⟩ := settle_eq_ok hnext
    obtain ⟨hstate, hout⟩ := (orderly_iff.mp (h.input _ _ _ (ih.nodes _ _ hs))).1 _ hr
    refine ⟨keeps_insert ih.nodes hstate, ?_⟩
    rw [hqueue]
    exact List.forall_mem_append.mpr ⟨ih.queue, normal_sent hout _⟩
  | enqueueFrom hsim hout hnext ih =>
    obtain ⟨queue, log, rfl, hqueue⟩ := enqueueFrom_eq_ok hnext
    refine ⟨ih.nodes, ?_⟩
    rw [hqueue]
    exact List.forall_mem_append.mpr ⟨ih.queue, normal_sent hout _⟩
  | modify hsim hf hnext ih =>
    obtain ⟨s, hs, rfl⟩ := modify_eq_ok hnext
    exact ⟨keeps_insert ih.nodes (hf s (ih.nodes _ s hs)), ih.queue⟩

theorem Reachable.script {cs : List (Command S)} (hsim : Reachable S ids normal keeps sim)
    {last : Simulation S.protocol} (h : sim.script cs = .ok last) :
    Reachable S ids normal keeps last := by
  induction cs generalizing sim with
  | nil =>
    cases h
    exact hsim
  | cons c cs ih =>
    rw [Simulation.script] at h
    split at h
    · rename_i next hnext
      exact ih (hsim.perform hnext) h
    · cases h

end

/-- The faults that stop a gather over reliable channels: a channel has no number left, or a message
is too long to be written; and where inputs are given, a node is given its value twice or has no
index, or an input is for nobody. -/
def StopsGather (given : Prop) (fault : Fault) : Prop :=
  fault = .batchIdsExhausted ∨ (∃ e, fault = .unencodable e) ∨
    given ∧ (fault = .gatherInputTwice ∨ (∃ node, fault = .notAMember node) ∨
      ∃ node, fault = .unknownNode node)

abbrev reliableGather (c : Committee) (period : Reliable.Time) (limit : Nat) : Stack :=
  .reliable period (.selfDelivering limit (.gather c))

section
variable {c : Committee} {period : Reliable.Time} {limit : Nat}

/-- All that a message carries is for broadcasts that there are. -/
def Routed (m : (reliableGather c period limit).protocol.Msg) : Prop :=
  ∀ n ∈ Reliable.Message.msgs m, Gather.Routes c n

/-- The state of a gather over channels, as events leave it: the channels are coherent, and hold
nothing but messages for broadcasts that there are. -/
def Sound (s : (reliableGather c period limit).protocol.State) : Prop :=
  Reliable.State.Normal (P := (Protocol.gather c).selfDelivering limit) (Gather.Routes c)
    Gather.State.InStep s ∧ Reliable.State.Coherent s

end

/-- **A gather over reliable channels comes to rest.**  Whatever its nodes have been given, whatever
has been lost or has come again, whoever has been dismissed, and whatever has been put in transit or
changed from outside: after a number of steps there is neither an input nor a message left, if a
fault does not stop the simulation before. -/
theorem gather_comes_to_rest (c : Committee) {limit : Nat} (hlimit : 3 * c.size * c.size ≤ limit)
    (period : Reliable.Time) (ids : List NodeId)
    {sim : Simulation (reliableGather c period limit).protocol}
    (hsim : Reachable (reliableGather c period limit) ids Routed Sound sim)
    (hloss : sim.loss.chance ≠ .negative) :
    ∃ n, (∃ last, sim.runSteps n = .ok (last, false) ∧ last.inputs.toList = [] ∧
        last.queue.toList = []) ∨
      ∃ fault, sim.runSteps n = .error fault ∧ StopsGather (sim.inputs.toList ≠ []) fault := by
  have hfrugal := (frugal_gather c).selfDelivering limit
  have hnested := (legible_gather c).selfDeliveringWithin (frugal_gather c) fun s _ =>
    (Gather.room_le s).trans hlimit
  have h : Legible (reliableGather c period limit).protocol Routed Sound _ _ :=
    Reliable.legible_coherent hnested period
  have horder := hsim.inOrder h fun s peer hs => ⟨hs.1.dismiss peer, hs.2.dismiss peer⟩
  obtain ⟨n, hrest | ⟨fault, hrun, hfault⟩⟩ :=
    Reliable.comes_to_rest hfrugal h (fun s hs => hs.2) horder
  · exact ⟨n, .inl hrest⟩
  · refine ⟨n, .inr ⟨fault, hrun, ?_⟩⟩
    cases hfault with
    | node hnode => exact .inl (hnode.resolve_right id)
    | unencodable e => exact .inr (.inl ⟨e, rfl⟩)
    | refused hgiven hrefused => exact .inr (.inr ⟨hgiven, hrefused.imp_right .inl⟩)
    | unknownNode hgiven node => exact .inr (.inr ⟨hgiven, .inr (.inr ⟨node, rfl⟩)⟩)
    | notAProbability hnegative => exact absurd hnegative hloss

/-- With four messages in transit, one of them put there from outside, after two have been lost,
batches have been sent again and a node has dismissed the other. -/
theorem gather_comes_to_rest_of_two : ∃ sim : Simulation gatherOfTwo.protocol,
    Reachable (reliableGather ⟨[⟨1⟩, ⟨2⟩]⟩ 0 100) [⟨1⟩, ⟨2⟩] Routed Sound sim ∧
    sim.loss.chance ≠ .negative ∧ sim.dropped = 2 ∧ sim.queue.length = 4 ∧
    ∃ n, (∃ last, sim.runSteps n = .ok (last, false) ∧ last.inputs.toList = [] ∧
        last.queue.toList = []) ∨
      ∃ fault, sim.runSteps n = .error fault ∧ StopsGather (sim.inputs.toList ≠ []) fault := by
  let commands : List (Command gatherOfTwo) :=
    lossyGather (Reliable.Input.nested (P := pairGather.protocol))
      (Reliable.Input.tick (P := pairGather.protocol))
  have hcheck : (start gatherOfTwo.protocol [⟨1⟩, ⟨2⟩]).toOption.any (fun fresh =>
      (script { fresh with loss := quarterLost, wire := true, log := none }
        (commands.take 3 ++ [.runSteps 5, .dismiss ⟨1⟩ ⟨2⟩])).toOption.any fun sim =>
        (sim.enqueueFrom ⟨2⟩ [⟨⟨1⟩, .reset .request⟩]).toOption.any fun next =>
          next.loss.chance ≠ .negative ∧ next.dropped = 2 ∧ next.queue.length = 4) = true := by
    decide +kernel
  obtain ⟨fresh, hfresh, hcheck⟩ := (Option.any_eq_true _ _).mp hcheck
  obtain ⟨sim, hscript, hcheck⟩ := (Option.any_eq_true _ _).mp hcheck
  obtain ⟨next, hsent, hcheck⟩ := (Option.any_eq_true _ _).mp hcheck
  have hscripted : Reachable gatherOfTwo [⟨1⟩, ⟨2⟩] Routed Sound sim :=
    ((Reachable.start (Mesh.eq_ok_of_toOption hfresh)).setUp quarterLost true none).script
      (Mesh.eq_ok_of_toOption hscript)
  have hreachable := hscripted.enqueueFrom (by simp [Routed, Reliable.Message.msgs])
    (Mesh.eq_ok_of_toOption hsent)
  obtain ⟨hloss, hdropped, hqueue⟩ := of_decide_eq_true hcheck
  exact ⟨next, hreachable, hloss, hdropped, hqueue,
    gather_comes_to_rest ⟨[⟨1⟩, ⟨2⟩]⟩ (by decide) 0 _ hreachable hloss⟩

end Simulation

end Quorum
