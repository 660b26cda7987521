import Mathlib.Algebra.BigOperators.Group.Finset.Piecewise
import Mathlib.Algebra.Order.BigOperators.Group.Finset
import Quorum.Proofs.Reliable.Serving

/-!
# Lossless — all nodes over reliable channels, where nothing is lost

Nodes run a tame protocol over reliable channels and hand their own messages back themselves.  As
long as what is queued is handed over in order and nothing is lost, the nested automata go through
an honest run, and every two nodes have a lane in each direction.  A message that is handed over
uses up more of what is still to be sent than it adds.

**Main statements.**  `Joint.input` and `Joint.receive`: inputs, and the messages in the queue, do
not fail.  `Served.joint` and `Served.total_le`: they keep all this.  `Joint.drained`: once the
queue is empty, everything that the nested automata have sent has arrived, and nothing is kept or
waits.
-/

namespace Quorum.Reliable

open SortedMap Link Mesh SelfDelivery

/-! ### The nodes and the queue -/

section
variable {P : Protocol} {nodes : SortedMap NodeId (State P)} {s s' : State P} {me a b : NodeId}

def linkOf (nodes : SortedMap NodeId (State P)) (a b : NodeId) : Link P.Msg :=
  ((nodes.get? a).map fun s => s.link b).getD {}

theorem linkOf_of_get? (h : nodes.get? a = some s) (b : NodeId) : linkOf nodes a b = s.link b := by
  rw [linkOf, h]
  rfl

theorem linkOf_insert (nodes : SortedMap NodeId (State P)) (me : NodeId) (s' : State P)
    (a b : NodeId) :
    linkOf (nodes.insert me s') a b = if me = a then s'.link b else linkOf nodes a b := by
  rw [linkOf, get?_insert]
  simp only [Ranked.rank_eq_iff]
  split <;> rfl

variable {μ : Type} {came : Option (Packet μ)} {rest : List (Packet μ)}

def cameOf (came : Option (Packet μ)) : Option (NodeId × μ) := came.map fun p => (p.sender, p.body)

theorem between_came (hcame : ∀ p ∈ came, p.recipient = me) (a b : NodeId) :
    between a b (came.toList ++ rest) =
      (if me = b then (forPeer (cameOf came) a).toList else []) ++ between a b rest := by
  rw [between_append]
  congr 1
  cases came with
  | none => simp [between, cameOf, forPeer]
  | some p =>
    have hto := hcame p rfl
    rw [Option.toList_some, between_cons, hto]
    by_cases hb : me = b <;> by_cases ha : p.sender = a <;>
      simp [between, cameOf, forPeer, ha, hb]

theorem between_sent (rest : List (Packet μ)) (me : NodeId) (sent : List (Outgoing μ))
    (a b : NodeId) : between a b (rest ++ sent.map (Outgoing.sentBy me)) =
      between a b rest ++ if me = a then addressedTo b sent else [] := by
  rw [between_append, between_sentBy]
  rfl

end

variable {P : Protocol} {ids : List NodeId} {fits : P.Input → Prop} {most limit : Nat}
variable {past past' : List (Moment P)} {mesh mesh' : Mesh P}
variable {nodes : SortedMap NodeId (State (P.selfDelivering limit))} {me a b : NodeId}
variable {queue rest : List (Packet (Message P.Msg))} {taken : Option P.Input}

/-- `Joint ids fits nodes queue past mesh`: the nested automata of `nodes` have gone through the run
`past` to `mesh`, and with the messages of the queue on their way there is a lane from every node to
every other. -/
structure Joint (ids : List NodeId) (fits : P.Input → Prop)
    (nodes : SortedMap NodeId (State (P.selfDelivering limit)))
    (queue : List (Packet (Message P.Msg))) (past : List (Moment P)) (mesh : Mesh P) : Prop where
  run : Run ids (Event.IsHonest fits) past mesh
  nested : ∀ id, mesh.nodes.get? id = (nodes.get? id).map (·.nested)
  stays : ∀ id s, nodes.get? id = some s → s.dismissed = []
  route : ∀ p ∈ queue, p.sender ∈ ids ∧ p.recipient ∈ ids ∧ p.sender ≠ p.recipient
  lane : ∀ a b, Lane (linkOf nodes a b) (linkOf nodes b a) (between a b queue)
    (between b a queue) (between a b mesh.pool.toList) fun m => Arrived past mesh ⟨a, b, m⟩
  waiting : ∀ a b, (linkOf nodes a b).pending.toList ≠ [] → (linkOf nodes a b).resetSent = true

theorem linkOf_start
    (hnodes : ∀ id, nodes.get? id = (mesh.nodes.get? id).map fun s => { nested := s })
    (a b : NodeId) : linkOf nodes a b = {} := by
  rw [linkOf, hnodes]
  cases mesh.nodes.get? a <;> rfl

/-- **The start is joint.** -/
theorem Joint.start (hstart : Mesh.start P ids = .ok mesh)
    (hnodes : ∀ id, nodes.get? id = (mesh.nodes.get? id).map fun s => { nested := s }) :
    Joint ids fits nodes [] [] mesh := by
  have hlink := linkOf_start hnodes
  refine
    { run := .start hstart
      nested := fun id => ?_
      stays := fun id s hs => ?_
      route := fun p hp => absurd hp List.not_mem_nil
      lane := fun a b => ?_
      waiting := fun a b h => ?_ }
  · rw [hnodes]
    cases mesh.nodes.get? id <;> rfl
  · rw [hnodes] at hs
    obtain ⟨nested, -, rfl⟩ := Option.map_eq_some_iff.mp hs
    rfl
  · rw [hlink, hlink, (start_spec hstart).1]
    exact Lane.start
  · rw [hlink] at h
    exact absurd rfl h

theorem Joint.get?_mesh (hjoint : Joint ids fits nodes queue past mesh)
    {s : State (P.selfDelivering limit)} (hs : nodes.get? me = some s) :
    mesh.nodes.get? me = some s.nested := by
  rw [hjoint.nested, hs]
  rfl

theorem Joint.mem_ids (hjoint : Joint ids fits nodes queue past mesh) {id : NodeId} :
    id ∈ ids ↔ (nodes.get? id).isSome := by
  rw [← hjoint.run.nodes_isSome id, hjoint.nested, Option.isSome_map]

/-! ### A node serves -/

theorem addressedTo_toOthers_self (out : List (Outgoing P.Msg)) :
    addressedTo me (toOthers me out) = [] :=
  addressedTo_eq_nil fun _ ho => of_decide_eq_true (List.mem_filter.mp ho).2

theorem addressedTo_toOthers_ne (hb : b ≠ me) (out : List (Outgoing P.Msg)) :
    addressedTo b (toOthers me out) = addressedTo b out := by
  rw [addressedTo, toOthers, List.filter_filter, addressedTo]
  congr 1
  refine List.filter_congr fun o _ => ?_
  by_cases ho : o.recipient = b <;> simp [ho, hb]

/-- What a node sends in a row of steps comes to its peers as news, except what it has handed back
to itself. -/
theorem tells_of_done {s : P.State} {out : List (Outgoing P.Msg)}
    (hdone : Done ids fits me past mesh taken s out past' mesh') (b : NodeId) :
    Tells (between me b mesh.pool.toList) (addressedTo b (toOthers me out))
      (between me b mesh'.pool.toList) fun m => Arrived past' mesh' ⟨me, b, m⟩ := by
  have htold : between me b mesh'.pool.toList =
      between me b mesh.pool.toList ++ addressedTo b out := by
    rw [hdone.between, if_pos rfl]
    rfl
  rw [htold]
  by_cases hb : b = me
  · subst hb
    rw [addressedTo_toOthers_self]
    exact
      { old := fun m hm => List.mem_append_left _ hm
        new := fun _ hm => absurd hm List.not_mem_nil
        other := fun m hm => by
          rcases List.mem_append.mp hm with hm | hm
          · exact .inl hm
          · exact .inr (.inr (hdone.own m (mem_addressedTo.mp hm)))
        length := by simp }
  · rw [addressedTo_toOthers_ne hb]
    exact
      { old := fun m hm => List.mem_append_left _ hm
        new := fun m hm => List.mem_append_right _ hm
        other := fun m hm => (List.mem_append.mp hm).imp_right .inl
        length := by rw [List.length_append] }

theorem between_of_done {s : P.State} {out : List (Outgoing P.Msg)}
    (hdone : Done ids fits me past mesh taken s out past' mesh') (ha : me ≠ a) :
    between a b mesh'.pool.toList = between a b mesh.pool.toList := by
  rw [hdone.between, if_neg ha, List.append_nil]

section
variable {s s' : State (P.selfDelivering limit)} {came : Option (Packet (Message P.Msg))}
  {out : List (Outgoing P.Msg)} {sent : List (Outgoing (Message P.Msg))}

/-- A node takes a packet, if any, that was first in the queue, and sends; its nested automaton has
done its work. -/
structure Served (ids : List NodeId) (fits : P.Input → Prop)
    (nodes : SortedMap NodeId (State (P.selfDelivering limit))) (past : List (Moment P))
    (mesh : Mesh P) (me : NodeId) (came : Option (Packet (Message P.Msg)))
    (taken : Option P.Input) (s s' : State (P.selfDelivering limit)) (out : List (Outgoing P.Msg))
    (sent : List (Outgoing (Message P.Msg))) (past' : List (Moment P)) (mesh' : Mesh P) :
    Prop where
  node : nodes.get? me = some s
  recipient : ∀ p ∈ came, p.recipient = me
  serves : Serves s (cameOf came) (toOthers me out) s' sent
  done : Done ids fits me past mesh taken s'.nested out past' mesh'
  arrived : ∀ p ∈ came, ∀ m ∈ p.body.msgs, Arrived past' mesh' ⟨p.sender, me, m⟩

theorem Served.serve (h : Served ids fits nodes past mesh me came taken s s' out sent past' mesh')
    (q : NodeId) : Serve (μ := P.Msg) (s.link q) (forPeer (cameOf came) q)
      (addressedTo q (toOthers me out)) (s'.link q) (addressedTo q sent) :=
  h.serves.serve q

variable (h : Served ids fits nodes past mesh me came taken s s' out sent past' mesh')
  (hjoint : Joint ids fits nodes (came.toList ++ rest) past mesh)
include h hjoint

theorem Served.forPeer_self : forPeer (cameOf came) me = none := by
  cases came with
  | none => rfl
  | some p =>
    obtain ⟨-, -, hne⟩ := hjoint.route p (List.mem_append_left _ (List.mem_singleton_self p))
    rw [h.recipient p rfl] at hne
    exact if_neg hne

theorem Served.between_came (b : NodeId) :
    between me b (came.toList ++ rest) = between me b rest := by
  rw [Reliable.between_came h.recipient, h.forPeer_self hjoint]
  split <;> rfl

/-- **The lanes from the node that has served.** -/
theorem Served.lane_from (b : NodeId) (hb : me ≠ b) :
    Lane (linkOf (nodes.insert me s') me b) (linkOf (nodes.insert me s') b me)
      (between me b (rest ++ sent.map (Outgoing.sentBy me)))
      (between b me (rest ++ sent.map (Outgoing.sentBy me)))
      (between me b mesh'.pool.toList) fun m => Arrived past' mesh' ⟨me, b, m⟩ := by
  have hlane := hjoint.lane me b
  have hback := hjoint.lane b me
  rw [linkOf_of_get? h.node, h.between_came hjoint, Reliable.between_came h.recipient, if_pos rfl]
    at hlane hback
  rw [linkOf_insert, linkOf_insert, if_pos rfl, if_neg hb, between_sent, between_sent,
    if_pos rfl, if_neg hb, List.append_nil]
  exact hlane.serve hback (h.serve b) (tells_of_done h.done b) fun m => h.done.arrived _

/-- **The lanes to the node that has served.** -/
theorem Served.lane_to (a : NodeId) (ha : me ≠ a) :
    Lane (linkOf (nodes.insert me s') a me) (linkOf (nodes.insert me s') me a)
      (between a me (rest ++ sent.map (Outgoing.sentBy me)))
      (between me a (rest ++ sent.map (Outgoing.sentBy me)))
      (between a me mesh'.pool.toList) fun m => Arrived past' mesh' ⟨a, me, m⟩ := by
  have hlane := hjoint.lane a me
  rw [linkOf_of_get? h.node, h.between_came hjoint, Reliable.between_came h.recipient, if_pos rfl]
    at hlane
  rw [linkOf_insert, linkOf_insert, if_pos rfl, if_neg ha, between_sent, between_sent,
    if_pos rfl, if_neg ha, List.append_nil, between_of_done h.done ha]
  refine hlane.serve_peer (h.serve a) (fun m => h.done.arrived _) fun m hm => ?_
  cases came with
  | none => cases hm
  | some p =>
    by_cases hp : p.sender = a
    · have hbody : forPeer (cameOf (some p)) a = some p.body := if_pos hp
      rw [hbody] at hm
      rw [← hp]
      exact h.arrived p rfl m (by simpa using hm)
    · have hnone : forPeer (cameOf (some p)) a = none := if_neg hp
      rw [hnone] at hm
      cases hm

theorem Served.lane_self :
    Lane (linkOf (nodes.insert me s') me me) (linkOf (nodes.insert me s') me me)
      (between me me (rest ++ sent.map (Outgoing.sentBy me)))
      (between me me (rest ++ sent.map (Outgoing.sentBy me)))
      (between me me mesh'.pool.toList) fun m => Arrived past' mesh' ⟨me, me, m⟩ := by
  have hlane := hjoint.lane me me
  rw [linkOf_of_get? h.node, h.between_came hjoint] at hlane
  have hserve := h.serve me
  rw [h.forPeer_self hjoint, addressedTo_toOthers_self] at hserve
  obtain ⟨hlink, hsent⟩ := hserve.nothing
  have htells := tells_of_done h.done me
  rw [addressedTo_toOthers_self] at htells
  rw [linkOf_insert, if_pos rfl, between_sent, if_pos rfl, hlink, hsent, List.append_nil]
  rw [← append_ackAlone_none (between me me rest)] at hlane
  have hposted := hlane.posted (posted_ackAlone (s.link me) none) htells fun m => h.done.arrived _
  rwa [append_ackAlone_none] at hposted

theorem Served.lane_others (ha : me ≠ a) (hb : me ≠ b) :
    Lane (linkOf (nodes.insert me s') a b) (linkOf (nodes.insert me s') b a)
      (between a b (rest ++ sent.map (Outgoing.sentBy me)))
      (between b a (rest ++ sent.map (Outgoing.sentBy me)))
      (between a b mesh'.pool.toList) fun m => Arrived past' mesh' ⟨a, b, m⟩ := by
  have hlane := hjoint.lane a b
  rw [Reliable.between_came h.recipient, Reliable.between_came h.recipient, if_neg ha, if_neg hb,
    List.nil_append, List.nil_append] at hlane
  rw [linkOf_insert, linkOf_insert, if_neg ha, if_neg hb, between_sent, between_sent, if_neg ha,
    if_neg hb, List.append_nil, List.append_nil, between_of_done h.done ha]
  exact hlane.mono fun m => h.done.arrived _

/-- A node sends only to other nodes. -/
theorem Served.route (ht : Tame P ids fits most) {q : NodeId} {m : Message P.Msg}
    (hm : ⟨q, m⟩ ∈ sent) : me ∈ ids ∧ q ∈ ids ∧ me ≠ q := by
  have hme : me ∈ ids := by
    rw [hjoint.mem_ids, h.node]
    rfl
  have hserve := h.serve q
  refine ⟨hme, ?_⟩
  cases hcame : forPeer (cameOf came) q with
  | some m' =>
    obtain ⟨x, hx, hq⟩ := Option.bind_eq_some_iff.mp hcame
    obtain ⟨p, hp, rfl⟩ := Option.map_eq_some_iff.mp hx
    obtain rfl : p.sender = q := by
      by_contra hne
      rw [if_neg hne] at hq
      cases hq
    have hmem : p ∈ came.toList ++ rest :=
      List.mem_append_left _ (Option.mem_toList.mpr hp)
    obtain ⟨hsender, -, hne⟩ := hjoint.route p hmem
    rw [h.recipient p hp] at hne
    exact ⟨hsender, hne.symm⟩
  | none =>
    rw [hcame] at hserve
    cases hnews : addressedTo q (toOthers me out) with
    | nil =>
      rw [hnews] at hserve
      have hnone := mem_addressedTo.mpr hm
      rw [hserve.nothing.2] at hnone
      cases hnone
    | cons m' news =>
      have hout : ⟨q, m'⟩ ∈ toOthers me out :=
        mem_addressedTo.mp (by rw [hnews]; exact List.mem_cons_self ..)
      obtain ⟨hout, hne⟩ := List.mem_filter.mp hout
      have hpool : (⟨me, q, m'⟩ : Packet P.Msg) ∈ mesh'.pool := by
        rw [h.done.turned]
        exact mem_pool_turned.mpr (.inr ⟨rfl, hout⟩)
      exact ⟨ht.recipient _ _ h.done.run _ hpool, fun heq => of_decide_eq_true hne heq.symm⟩

/-- What a lane gains and loses when a node serves. -/
theorem Served.potential_le (ht : Tame P ids fits most) (a b : NodeId) :
    potential most (linkOf (nodes.insert me s') a b)
        (between a b (rest ++ sent.map (Outgoing.sentBy me))) (between a b mesh'.pool.toList) +
      (if me = a then (forPeer (cameOf came) b).toList.length else 0) +
      (if me = b then weight (forPeer (cameOf came) a).toList else 0) ≤
    potential most (linkOf nodes a b) (between a b (came.toList ++ rest))
        (between a b mesh.pool.toList) +
      (if me = a then weight (forPeer (cameOf came) b).toList else 0) := by
  by_cases ha : me = a
  · subst ha
    have hlast : (if me = b then weight (forPeer (cameOf came) me).toList else 0) = 0 := by
      rw [h.forPeer_self hjoint]
      exact ite_self 0
    rw [hlast, if_pos rfl, if_pos rfl, linkOf_insert, if_pos rfl, linkOf_of_get? h.node,
      between_sent, if_pos rfl, h.between_came hjoint]
    exact (h.serve b).potential_le (tells_of_done h.done b).length
      (ht.traffic past' mesh' h.done.run me b)
  · rw [if_neg ha, if_neg ha, linkOf_insert, if_neg ha, between_sent, if_neg ha, List.append_nil,
      between_of_done h.done ha, Reliable.between_came h.recipient]
    unfold potential
    rw [weight_append]
    by_cases hb : me = b
    · rw [if_pos hb, if_pos hb]
      omega
    · rw [if_neg hb, if_neg hb, weight_nil]
      omega

end

/-- **A node that has served leaves the nodes joint.** -/
theorem Served.joint {s s' : State (P.selfDelivering limit)}
    {came : Option (Packet (Message P.Msg))} {out : List (Outgoing P.Msg)}
    {sent : List (Outgoing (Message P.Msg))}
    (h : Served ids fits nodes past mesh me came taken s s' out sent past' mesh')
    (rest : List (Packet (Message P.Msg)))
    (hjoint : Joint ids fits nodes (came.toList ++ rest) past mesh) (ht : Tame P ids fits most) :
    Joint ids fits (nodes.insert me s') (rest ++ sent.map (Outgoing.sentBy me)) past' mesh' where
  run := h.done.run
  nested id := by
    rw [h.done.turned, get?_turned, get?_insert, hjoint.nested]
    simp only [Ranked.rank_eq_iff]
    split <;> rfl
  stays id t ht := by
    rw [get?_insert] at ht
    split at ht
    · cases ht
      rw [h.serves.dismissed]
      exact hjoint.stays me s h.node
    · exact hjoint.stays id t ht
  route p hp := by
    rcases List.mem_append.mp hp with hp | hp
    · exact hjoint.route p (List.mem_append_right _ hp)
    · obtain ⟨o, ho, rfl⟩ := List.mem_map.mp hp
      exact h.route hjoint ht ho
  lane a b := by
    by_cases ha : me = a
    · subst ha
      by_cases hb : me = b
      · subst hb
        exact h.lane_self hjoint
      · exact h.lane_from hjoint b hb
    · by_cases hb : me = b
      · subst hb
        exact h.lane_to hjoint a ha
      · exact h.lane_others hjoint ha hb
  waiting a b := by
    rw [linkOf_insert]
    split
    · subst a
      refine (h.serve b).waiting ?_
      rw [← linkOf_of_get? h.node]
      exact hjoint.waiting me b
    · exact hjoint.waiting a b

/-! ### What is still to be sent -/

/-- What is still to be sent from any node to any other, at most. -/
def total (ids : List NodeId) (most : Nat)
    (nodes : SortedMap NodeId (State (P.selfDelivering limit)))
    (queue : List (Packet (Message P.Msg))) (mesh : Mesh P) : Nat :=
  ∑ a ∈ ids.toFinset, ∑ b ∈ ids.toFinset, potential most (linkOf nodes a b) (between a b queue)
    (between a b mesh.pool.toList)

theorem total_start (hstart : Mesh.start P ids = .ok mesh)
    (hnodes : ∀ id, nodes.get? id = (mesh.nodes.get? id).map fun s => { nested := s }) :
    total ids most nodes [] mesh ≤ ids.length * (ids.length * (4 * most)) := by
  have hcard := List.toFinset_card_le ids
  have hpotential : ∀ a b, potential most (linkOf nodes a b) (between a b [])
      (between a b mesh.pool.toList) = 4 * most := by
    intro a b
    rw [linkOf_start hnodes, (start_spec hstart).1]
    change 0 + 2 * 0 + 4 * (most - 0) = 4 * most
    omega
  rw [total, Finset.sum_const_nat fun a _ => Finset.sum_const_nat fun b _ => hpotential a b]
  exact Nat.mul_le_mul hcard (Nat.mul_le_mul_right _ hcard)

/-- **A node that takes a packet uses up more than it adds.** -/
theorem Served.total_le {s s' : State (P.selfDelivering limit)}
    {came : Option (Packet (Message P.Msg))} {out : List (Outgoing P.Msg)}
    {sent : List (Outgoing (Message P.Msg))}
    (h : Served ids fits nodes past mesh me came taken s s' out sent past' mesh')
    (rest : List (Packet (Message P.Msg)))
    (hjoint : Joint ids fits nodes (came.toList ++ rest) past mesh) (ht : Tame P ids fits most) :
    total ids most (nodes.insert me s') (rest ++ sent.map (Outgoing.sentBy me)) mesh' +
      came.toList.length ≤ total ids most nodes (came.toList ++ rest) mesh := by
  have hme : me ∈ ids.toFinset := by
    rw [List.mem_toFinset, hjoint.mem_ids, h.node]
    rfl
  have hrow : ∀ f : NodeId → Nat, ∑ a ∈ ids.toFinset, ∑ b ∈ ids.toFinset,
      (if me = a then f b else 0) = ∑ b ∈ ids.toFinset, f b := by
    intro f
    rw [Finset.sum_comm]
    refine Finset.sum_congr rfl fun b _ => ?_
    rw [Finset.sum_ite_eq, if_pos hme]
  have hcolumn : ∀ f : NodeId → Nat, ∑ a ∈ ids.toFinset, ∑ b ∈ ids.toFinset,
      (if me = b then f a else 0) = ∑ a ∈ ids.toFinset, f a := by
    intro f
    rw [Finset.sum_comm, hrow]
  have hcame : came.toList.length =
      ∑ b ∈ ids.toFinset, (forPeer (cameOf came) b).toList.length := by
    cases came with
    | none => simp [cameOf, forPeer]
    | some p =>
      obtain ⟨hsender, -, -⟩ :=
        hjoint.route p (List.mem_append_left _ (List.mem_singleton_self p))
      have hpart : ∀ b, (forPeer (cameOf (some p)) b).toList.length =
          if p.sender = b then 1 else 0 := by
        intro b
        by_cases hb : p.sender = b <;> simp [cameOf, forPeer, hb]
      simp [hpart, hsender]
  have hsum := Finset.sum_le_sum fun a (_ : a ∈ ids.toFinset) =>
    Finset.sum_le_sum fun b (_ : b ∈ ids.toFinset) => h.potential_le hjoint ht a b
  simp only [Finset.sum_add_distrib, hrow, hcolumn, ← hcame] at hsum
  unfold total
  omega

/-! ### Events -/

/-- **An input does not fail.** -/
theorem Joint.input (ht : Tame P ids fits most) (hlimit : most ≤ limit)
    (hmost : most + 1 < UInt32.size) (period : Time)
    (hjoint : Joint ids fits nodes queue past mesh) {s : State (P.selfDelivering limit)}
    (hs : nodes.get? me = some s) {i : P.Input} (hi : fits i) (hnew : ∀ j, ¬ Given past me j) :
    ∃ r out past' mesh', Reliable.input period me s (.nested i) = .ok r ∧
      Served ids fits nodes past mesh me none (some i) s r.state out r.sent past' mesh' := by
  have hmesh := hjoint.get?_mesh hs
  obtain ⟨r, hr⟩ := ht.input past mesh hjoint.run me s.nested i hmesh hi hnew
  obtain ⟨nested, past', mesh', out, hfinish, hdone, hsent, -⟩ :=
    finish_ok ht hlimit hjoint.run hmesh (e := .input me i) hi (.input hr)
  have hnested : (P.selfDelivering limit).input me s.nested i = .ok nested := by
    change finish me limit (P.input me s.nested i) = _
    rw [hr, hfinish]
  obtain ⟨r, hr, hstate, hserves⟩ :=
    input_serves period (hjoint.stays me s hs) hnested fun q => by
      have hlane := hjoint.lane me q
      rw [linkOf_of_get? hs] at hlane
      have hnews := (tells_of_done hdone q).length
      have htraffic := ht.traffic past' mesh' hdone.run me q
      rw [hsent]
      exact hlane.post_ok (by omega) none
  rw [hsent] at hserves
  rw [← hstate] at hdone
  exact ⟨r, out, past', mesh', hr,
    { node := hs
      recipient := nofun
      serves := hserves
      done := hdone
      arrived := nofun }⟩

section
variable {s : State (P.selfDelivering limit)} {m : Message P.Msg}

theorem Joint.lanes_of_next (hjoint : Joint ids fits nodes (⟨a, me, m⟩ :: rest) past mesh)
    (hs : nodes.get? me = some s) :
    Lane (linkOf nodes a me) (s.link a) (m :: between a me rest)
        (between me a (⟨a, me, m⟩ :: rest)) (between a me mesh.pool.toList)
        (fun m => Arrived past mesh ⟨a, me, m⟩) ∧
      Lane (s.link a) (linkOf nodes a me) (between me a (⟨a, me, m⟩ :: rest))
        (m :: between a me rest) (between me a mesh.pool.toList)
        fun m => Arrived past mesh ⟨me, a, m⟩ := by
  have hcame := hjoint.lane a me
  have hback := hjoint.lane me a
  have hfront : between a me (⟨a, me, m⟩ :: rest) = m :: between a me rest := by
    rw [between_cons, if_pos ⟨rfl, rfl⟩]
  rw [linkOf_of_get? hs, hfront] at hcame hback
  exact ⟨hcame, hback⟩

/-- A batch that comes does not fail. -/
theorem Joint.receive_batch (ht : Tame P ids fits most) (hlimit : most ≤ limit)
    (hmost : most + 1 < UInt32.size) {b : Batch P.Msg}
    (hjoint : Joint ids fits nodes (⟨a, me, .batch b⟩ :: rest) past mesh)
    (hs : nodes.get? me = some s) :
    ∃ r out past' mesh', Reliable.receive me s a (.batch b) = .ok r ∧
      Served ids fits nodes past mesh me (some ⟨a, me, .batch b⟩) none s r.state out r.sent
        past' mesh' := by
  obtain ⟨hcame, hback⟩ := hjoint.lanes_of_next hs
  obtain ⟨-, -, hbare⟩ := hcame.light _ (List.mem_cons_self ..)
  have hnew : ∀ id, b.id = some id → ¬ (s.link a).received.contains id := fun id hid =>
    (hcame.ahead id (by
      rw [numbers_cons]
      exact List.mem_append_left _ (Option.mem_toList.mpr hid))).2
  have hmsgs : ∀ m ∈ b.msgs, (⟨a, me, m⟩ : Packet P.Msg) ∈ mesh.pool := fun m hm =>
    Array.mem_toList_iff.mp (mem_between.mp
      (hcame.source m (.inr (List.mem_append_left _ hm))))
  obtain ⟨nested, past', mesh', out, hnested, hdone, hsent, harrived⟩ :=
    handOver_ok ht hlimit (t := { nested := s.nested }) hjoint.run (hjoint.get?_mesh hs) hmsgs
  rw [show (#[] : Array (Outgoing P.Msg)).toList = [] from rfl, List.nil_append] at hsent
  have hroom : ∀ q, (between me q mesh.pool.toList).length +
      (addressedTo q (toOthers me out)).length + 1 < UInt32.size := fun q => by
    have hnews := (tells_of_done hdone q).length
    have htraffic := ht.traffic past' mesh' hdone.run me q
    omega
  obtain ⟨r, hr, hstate, hserves⟩ :=
    batch_serves (hjoint.stays me s hs) hnew hbare hnested
      (by
        rw [hsent]
        exact (hback.accept hcame.answered).post_ok (hroom a) b.id)
      fun q => by
        have hlane := hjoint.lane me q
        rw [linkOf_of_get? hs] at hlane
        rw [hsent]
        exact hlane.post_ok (hroom q) none
  rw [hsent] at hserves
  rw [← hstate] at hdone
  exact ⟨r, out, past', mesh', hr,
    { node := hs
      recipient := fun p hp => by cases hp; rfl
      serves := hserves
      done := hdone
      arrived := fun p hp m hm => by cases hp; exact harrived m hm }⟩

/-- A reset request, or its answer, does not fail, and is nothing to the nested automaton. -/
theorem Joint.receive_reset (ht : Tame P ids fits most) (hmost : most + 1 < UInt32.size)
    {reset : Reset} (hjoint : Joint ids fits nodes (⟨a, me, .reset reset⟩ :: rest) past mesh)
    (hs : nodes.get? me = some s) :
    ∃ r, Reliable.receive me s a (.reset reset) = .ok r ∧
      Served ids fits nodes past mesh me (some ⟨a, me, .reset reset⟩) none s r.state [] r.sent
        past mesh := by
  have hstays := hjoint.stays me s hs
  obtain ⟨-, hback⟩ := hjoint.lanes_of_next hs
  have hserves : ∃ r, Reliable.receive me s a (.reset reset) = .ok r ∧
      r.state.nested = s.nested ∧ Serves s (some (a, .reset reset)) [] r.state r.sent := by
    cases hreset : reset.isResponse with
    | false => exact request_serves hstays hreset
    | true =>
      obtain ⟨hlatest, hid, -⟩ := hback.numbered hreset
      have htraffic := ht.traffic past mesh hjoint.run me a
      obtain ⟨link, ms, hsettle⟩ := hback.settle_ok hreset (by omega)
      exact response_serves hstays hreset hlatest hid hsettle
  obtain ⟨r, hr, hstate, hserves⟩ := hserves
  refine ⟨r, hr,
    { node := hs
      recipient := fun p hp => by cases hp; rfl
      serves := hserves
      done := by rw [hstate]; exact Done.refl hjoint.run (hjoint.get?_mesh hs)
      arrived := fun p hp m hm => ?_ }⟩
  cases hp
  cases hm

end

/-- **A message that comes does not fail.** -/
theorem Joint.receive (ht : Tame P ids fits most) (hlimit : most ≤ limit)
    (hmost : most + 1 < UInt32.size) {p : Packet (Message P.Msg)}
    (hjoint : Joint ids fits nodes (p :: rest) past mesh) :
    ∃ (s : State (P.selfDelivering limit)) (r : Reaction (State (P.selfDelivering limit)) _)
      (out : List (Outgoing P.Msg)) (past' : List (Moment P)) (mesh' : Mesh P),
      Reliable.receive p.recipient s p.sender p.body = .ok r ∧
        Served ids fits nodes past mesh p.recipient (some p) none s r.state out r.sent past'
          mesh' := by
  obtain ⟨a, me, m⟩ := p
  obtain ⟨-, hme, -⟩ := hjoint.route _ (List.mem_cons_self ..)
  obtain ⟨s, hs⟩ : ∃ s, nodes.get? me = some s :=
    Option.isSome_iff_exists.mp (hjoint.mem_ids.mp hme)
  cases m with
  | batch b =>
    obtain ⟨r, out, past', mesh', hr, hserved⟩ := hjoint.receive_batch ht hlimit hmost hs
    exact ⟨s, r, out, past', mesh', hr, hserved⟩
  | reset reset =>
    obtain ⟨r, hr, hserved⟩ := hjoint.receive_reset ht hmost hs
    exact ⟨s, r, [], past, mesh, hr, hserved⟩

/-- **What is queued can be read.** -/
theorem Joint.readable (ht : Tame P ids fits most)
    (hjoint : Joint ids fits nodes queue past mesh) {p : Packet (Message P.Msg)}
    (hp : p ∈ queue) : p.body.Readable P.encode P.decode := by
  obtain ⟨a, b, m⟩ := p
  have hlane := hjoint.lane a b
  have hm : m ∈ between a b queue := mem_between.mpr hp
  cases m with
  | reset r => trivial
  | batch β =>
    obtain ⟨hmsgs, hacks, -⟩ := hlane.light _ hm
    refine ⟨fun m' hm' => ?_, hmsgs.trans_lt (by decide), hacks.trans_lt (by decide)⟩
    have htold := hlane.source m' (.inr (List.mem_flatMap.mpr ⟨_, hm, hm'⟩))
    exact ht.readable past mesh hjoint.run _ (Array.mem_toList_iff.mp (mem_between.mp htold))

/-- **Once nothing is queued, everything has arrived, and nothing is kept or waits.** -/
theorem Joint.drained (hjoint : Joint ids fits nodes [] past mesh) :
    (∀ p ∈ mesh.pool, Arrived past mesh p) ∧
      ∀ id s, nodes.get? id = some s → s.unackedCount = 0 ∧ s.pendingCount = 0 := by
  have hdrained := fun a b => (hjoint.lane a b).drained (hjoint.waiting a b)
  refine ⟨fun p hp => ?_, fun id s hs => ?_⟩
  · obtain ⟨a, b, m⟩ := p
    exact (hdrained a b).2.2 m (mem_between.mpr (Array.mem_toList_iff.mpr hp))
  · have hlink : ∀ e ∈ s.links.entries, s.link e.1 = e.2 := by
      intro e he
      rw [State.link, getD, mem_entries_iff.mp he]
      rfl
    have hempty : ∀ link ∈ s.links.values,
        link.unacked.entries = [] ∧ link.pending.toList = [] := by
      intro link hmem
      obtain ⟨e, he, rfl⟩ := List.mem_map.mp hmem
      obtain ⟨hpending, hkept, -⟩ := hdrained id e.1
      rw [linkOf_of_get? hs, hlink e he] at hpending hkept
      refine ⟨List.eq_nil_iff_forall_not_mem.mpr fun x hx => ?_, hpending⟩
      exact hkept x.1 (contains_of_get? (mem_entries_iff.mp hx))
    refine ⟨?_, ?_⟩
    · rw [State.unackedCount, List.flatMap_eq_nil_iff.mpr fun link hl => (hempty link hl).1]
      rfl
    · rw [State.pendingCount, List.flatMap_eq_nil_iff.mpr fun link hl => (hempty link hl).2]
      rfl

end Quorum.Reliable
