import Mathlib.Logic.Relation
import Quorum.Proofs.Broadcast.Agreement
import Quorum.Proofs.History
import Quorum.Proofs.SelfDelivery

/-!
# Loopback — self-delivery is what a prompt network would do

A node that hands its own messages back at once behaves like one that sends them into the network,
if the network brings them back before anything else, the oldest first.

For one event this is a run of the node alone (`Solo.Step`).  It knows no queue: it keeps all that
has been sent and all that has come back, and the next message is the oldest one of the former that
is not among the latter.  For a committee it is a run of the mesh in which every message of a node
to itself is delivered once, in the order in which they were sent.

**Main statements.**  `finish_eq_ok_iff`: an event with self-delivery, in terms of the plain run.
`Unfolds.event`: one event in a mesh.  `unfolds_of_run`: a run.  `same_as_prompt_network`.
-/

namespace Quorum

namespace SelfDelivery

open Mesh Relation

variable {P : Protocol} {me : NodeId}

/-! ### One node alone -/

/-- A node of `P` after an event, when some of what it has sent to itself has come back. -/
structure Solo (P : Protocol) where
  state : P.State
  /-- All that it has sent since the event, in order. -/
  sent : List (Outgoing P.Msg)
  /-- What has come back, with the senders in whose name it came, in order. -/
  handed : List (NodeId × P.Msg) := []
  /-- The warnings given since the event, in order. -/
  warnings : List Warning := []

namespace Solo

/-- Right after the event nothing has come back. -/
def ofReaction (r : Reaction P.State P.Msg) : Solo P :=
  { state := r.state, sent := r.sent, warnings := r.warnings }

/-- After a further message of the node to itself. -/
def next (x : Solo P) (me : NodeId) (m : P.Msg) (r : Reaction P.State P.Msg) : Solo P where
  state := r.state
  sent := x.sent ++ r.sent
  handed := x.handed ++ [(me, m)]
  warnings := x.warnings ++ r.warnings

/-- **A step of the plain run**: of all that the node has sent to itself, the oldest message that
has not come back is delivered, in the name of the node. -/
inductive Step (me : NodeId) (x : Solo P) : Solo P → Prop where
  | deliver {m : P.Msg} {rest : List P.Msg} {r : Reaction P.State P.Msg}
      (holdest : toSelf me x.sent = x.handed.map (·.2) ++ m :: rest)
      (hr : P.receive me x.state me m = .ok r) : Step me x (x.next me m r)

/-- All that the node has sent to itself has come back, each message once and in order. -/
def Settled (me : NodeId) (x : Solo P) : Prop := x.handed = (toSelf me x.sent).map (me, ·)

def reaction (me : NodeId) (x : Solo P) : Reaction P.State P.Msg where
  state := x.state
  sent := toOthers me x.sent
  warnings := x.warnings

end Solo

theorem toSelf_append (me : NodeId) (out out' : List (Outgoing P.Msg)) :
    toSelf me (out ++ out') = toSelf me out ++ toSelf me out' := by
  simp [toSelf]

theorem toOthers_append (me : NodeId) (out out' : List (Outgoing P.Msg)) :
    toOthers me (out ++ out') = toOthers me out ++ toOthers me out' := by
  simp [toOthers]

/-- What has come back has come in the name of the node, and `own` has not come back. -/
structure Solo.Awaits (me : NodeId) (x : Solo P) (own : List P.Msg) : Prop where
  handed : x.handed = (x.handed.map (·.2)).map (me, ·)
  own : toSelf me x.sent = x.handed.map (·.2) ++ own

namespace Solo.Awaits
variable {x y : Solo P} {own : List P.Msg} {m : P.Msg} {r : Reaction P.State P.Msg}

theorem ofReaction (r : Reaction P.State P.Msg) :
    (Solo.ofReaction r).Awaits me (toSelf me r.sent) :=
  ⟨rfl, rfl⟩

theorem next (h : x.Awaits me (m :: own)) (r : Reaction P.State P.Msg) :
    (x.next me m r).Awaits me (own ++ toSelf me r.sent) where
  handed := by
    have hhanded := h.handed
    simp only [Solo.next, List.map_append, List.map_cons, List.map_nil]
    rw [← hhanded]
  own := by
    have hown := h.own
    simp only [Solo.next, toSelf_append, List.map_append, List.map_cons, List.map_nil]
    rw [hown]
    simp

/-- The plain run goes on with the oldest message that it awaits. -/
theorem step_iff (h : x.Awaits me own) : Solo.Step me x y ↔
    ∃ m rest r, own = m :: rest ∧ P.receive me x.state me m = .ok r ∧ y = x.next me m r := by
  constructor
  · rintro ⟨holdest, hr⟩
    exact ⟨_, _, _, List.append_cancel_left (h.own.symm.trans holdest), hr, rfl⟩
  · rintro ⟨m, rest, r, rfl, hr, rfl⟩
    exact .deliver h.own hr

theorem settled_iff (h : x.Awaits me own) : x.Settled me ↔ own = [] := by
  unfold Solo.Settled
  rw [h.own]
  constructor
  · intro hsettled
    have hlength := congrArg List.length hsettled
    rw [List.length_map, List.length_append, List.length_map] at hlength
    exact List.length_eq_zero_iff.mp (by omega)
  · rintro rfl
    rw [List.append_nil]
    exact h.handed

theorem eq_of_steps (h : x.Awaits me []) (hsteps : ReflTransGen (Solo.Step me) x y) : y = x := by
  rcases hsteps.cases_head with rfl | ⟨z, hstep, -⟩
  · rfl
  · obtain ⟨m, rest, r, hcons, -⟩ := h.step_iff.mp hstep
    cases hcons

theorem exists_step (h : x.Awaits me (m :: own)) (hsteps : ReflTransGen (Solo.Step me) x y)
    (hsettled : y.Settled me) : ∃ r, P.receive me x.state me m = .ok r ∧
      ReflTransGen (Solo.Step me) (x.next me m r) y := by
  rcases hsteps.cases_head with rfl | ⟨z, hstep, hsteps⟩
  · cases h.settled_iff.mp hsettled
  · obtain ⟨m', rest, r, hcons, hr, rfl⟩ := h.step_iff.mp hstep
    cases hcons
    exact ⟨r, hr, hsteps⟩

end Solo.Awaits

theorem Solo.length_handed_le {x y : Solo P} (h : ReflTransGen (Solo.Step me) x y) :
    x.handed.length ≤ y.handed.length := by
  induction h with
  | refl => exact le_rfl
  | tail _ hstep ih =>
    obtain ⟨-, -⟩ := hstep
    exact Nat.le_trans ih (by simp [Solo.next])

/-! ### Working off an event -/

/-- The plain run beside a node that hands its messages back. -/
structure Beside (me : NodeId) (t : Progress P) (x : Solo P) : Prop where
  state : t.state = x.state
  awaits : x.Awaits me t.own.toList
  remote : t.remote.toList = toOthers me x.sent
  warnings : t.warnings.toList = x.warnings

theorem Beside.ofReaction (r : Reaction P.State P.Msg) :
    Beside me (.absorb me {} #[] #[] r) (Solo.ofReaction r) where
  state := rfl
  awaits := by
    rw [(absorb_eq me {} #[] #[] r).2.1]
    exact .ofReaction r
  remote := (absorb_eq me {} #[] #[] r).2.2
  warnings := by simp [Progress.absorb, Solo.ofReaction]

theorem Beside.absorb {t : Progress P} {x : Solo P} (h : Beside me t x) {m : P.Msg}
    {own : Fifo P.Msg} (hpop : t.own.pop? = some (m, own)) (r : Reaction P.State P.Msg) :
    Beside me (.absorb me own t.remote t.warnings r) (x.next me m r) where
  state := rfl
  awaits := by
    have hawaits := h.awaits
    rw [Fifo.toList_of_pop? hpop] at hawaits
    rw [(absorb_eq me own t.remote t.warnings r).2.1]
    exact hawaits.next r
  remote := by
    rw [(absorb_eq me own t.remote t.warnings r).2.2, h.remote]
    exact (toOthers_append me x.sent r.sent).symm
  warnings := by
    simp only [Progress.absorb, Solo.next, Array.toList_appendList, h.warnings]

section
variable {limit : Nat} {t : Progress P} {x : Solo P} {r : Reaction P.State P.Msg}

/-- The plain run from `x` to its end, in which at most `limit` messages come back. -/
def Solo.Ends (me : NodeId) (limit : Nat) (x : Solo P) (r : Reaction P.State P.Msg) : Prop :=
  ∃ y, ReflTransGen (Solo.Step me) x y ∧ y.Settled me ∧
    y.handed.length ≤ x.handed.length + limit ∧ r = y.reaction me

theorem settle_none_iff (h : Beside me t x) (hpop : t.own.pop? = none) :
    settle me limit t = .ok r ↔ x.Ends me limit r := by
  have hawaits := h.awaits
  rw [Fifo.toList_of_pop?_none hpop] at hawaits
  have hreaction : ({ state := t.state, sent := t.remote.toList, warnings := t.warnings.toList } :
      Reaction P.State P.Msg) = x.reaction me := by
    rw [h.state, h.remote, h.warnings]
    rfl
  rw [settle_of_none hpop, hreaction, Except.ok.injEq]
  constructor
  · rintro rfl
    exact ⟨x, .refl, hawaits.settled_iff.mpr rfl, Nat.le_add_right _ _, rfl⟩
  · rintro ⟨y, hsteps, -, -, rfl⟩
    rw [hawaits.eq_of_steps hsteps]

/-- What awaits something comes to its end by way of its oldest message. -/
theorem Solo.Awaits.ends_iff {m : P.Msg} {own : List P.Msg} (h : x.Awaits me (m :: own)) :
    x.Ends me limit r ↔ ∃ left first, limit = left + 1 ∧
      P.receive me x.state me m = .ok first ∧ (x.next me m first).Ends me left r := by
  have hlength : ∀ first, (x.next me m first).handed.length = x.handed.length + 1 := by
    simp [Solo.next]
  constructor
  · rintro ⟨y, hsteps, hsettled, hlimit, rfl⟩
    obtain ⟨first, hfirst, hsteps⟩ := h.exists_step hsteps hsettled
    have hle := Solo.length_handed_le hsteps
    rw [hlength] at hle
    refine ⟨limit - 1, first, by omega, hfirst, y, hsteps, hsettled, ?_, rfl⟩
    rw [hlength]
    omega
  · rintro ⟨left, first, rfl, hfirst, y, hsteps, hsettled, hlimit, rfl⟩
    rw [hlength] at hlimit
    exact ⟨y, hsteps.head (.deliver h.own hfirst), hsettled, by omega, rfl⟩

/-- **Handing messages back is the plain run to its end**, if the limit allows for all of them. -/
theorem settle_eq_ok_iff (h : Beside me t x) :
    settle me limit t = .ok r ↔ x.Ends me limit r := by
  induction limit generalizing t x with
  | zero =>
    cases hpop : t.own.pop? with
    | none => exact settle_none_iff h hpop
    | some first =>
      have hawaits := h.awaits
      rw [Fifo.toList_of_pop? hpop] at hawaits
      rw [hawaits.ends_iff, settle, hpop]
      refine iff_of_false (fun hok => by cases hok) ?_
      rintro ⟨left, next, hleft, -⟩
      cases hleft
  | succ limit ih =>
    cases hpop : t.own.pop? with
    | none => exact settle_none_iff h hpop
    | some first =>
      obtain ⟨m, own⟩ := first
      have hawaits := h.awaits
      rw [Fifo.toList_of_pop? hpop] at hawaits
      rw [hawaits.ends_iff]
      cases hfirst : P.receive me t.state me m with
      | error failure =>
        rw [settle, hpop]
        simp only [hfirst]
        refine iff_of_false (fun hok => by cases hok) ?_
        rintro ⟨left, first, -, hok, -⟩
        rw [← h.state, hfirst] at hok
        cases hok
      | ok first =>
        rw [settle_of_some hpop hfirst, ih (h.absorb hpop first)]
        constructor
        · intro hends
          exact ⟨limit, first, rfl, h.state ▸ hfirst, hends⟩
        · rintro ⟨left, next, hleft, hok, hends⟩
          rw [← h.state, hfirst] at hok
          cases hok
          cases hleft
          exact hends

/-- **An event with self-delivery** goes well exactly if the event does and the plain run after it
comes to an end within the limit. -/
theorem finish_eq_ok_iff {outcome : Outcome P.State P.Msg} :
    finish me limit outcome = .ok r ↔
      ∃ first, outcome = .ok first ∧ (Solo.ofReaction first).Ends me limit r := by
  cases outcome with
  | error failure =>
    refine iff_of_false (fun hok => by cases hok) ?_
    rintro ⟨first, hok, -⟩
    cases hok
  | ok first =>
    refine (settle_eq_ok_iff (Beside.ofReaction first)).trans ?_
    constructor
    · exact fun h => ⟨first, rfl, h⟩
    · rintro ⟨_, hfirst, h⟩
      cases hfirst
      exact h

end

end SelfDelivery

/-! ### A committee -/

def Packet.isOwn {μ : Type} (p : Packet μ) : Bool := p.recipient = p.sender

namespace Mesh

open SelfDelivery Relation

/-- The messages of nodes to themselves, with their places in the pool, in order. -/
def ownPlaces {μ : Type} (pool : Array (Packet μ)) : List (Packet μ × Nat) :=
  pool.toList.zipIdx.filter (·.1.isOwn)

/-- What happens in a step, with a message itself in place of the number that picks it. -/
inductive Deed (σ ι μ : Type) where
  | input (node : NodeId) (i : ι)
  | deliver (p : Option (Packet μ))
  | forge (p : Packet μ)
  | modify (node : NodeId) (f : σ → σ)
  | restart (node : NodeId)

section
variable {P : Protocol}

def Moment.deed (x : Moment P) : Deed P.State P.Input P.Msg :=
  match x.event with
  | .input node i => .input node i
  | .deliver k => .deliver x.before.pool[k]?
  | .forge p => .forge p
  | .modify node f => .modify node f
  | .restart node => .restart node

/-- The message of a node to itself that a step delivers, with its place. -/
def Moment.ownDelivery? (x : Moment P) : Option (Packet P.Msg × Nat) :=
  match x.event with
  | .deliver k => (x.before.pool[k]?.filter (·.isOwn)).map (·, k)
  | _ => none

end

/-- How a history with self-delivery shows as a plain one, in which the messages of nodes to
themselves are among those in the pool. -/
structure Unfolds {P : Protocol} {limit : Nat} (past : List (Moment (P.selfDelivering limit)))
    (mesh : Mesh (P.selfDelivering limit)) (past' : List (Moment P)) (mesh' : Mesh P) : Prop where
  nodes : mesh'.nodes = mesh.nodes
  /-- The same messages have gone from one node to another, in the same order. -/
  remote : mesh'.pool.toList.filter (!·.isOwn) = mesh.pool.toList
  /-- Every message of a node to itself has been delivered once, in the order of sending. -/
  own : past'.reverse.filterMap (·.ownDelivery?) = ownPlaces mesh'.pool
  /-- Everything else has happened at the same states of the nodes. -/
  others : (past'.filter (·.ownDelivery?.isNone)).map (fun y => (y.before.nodes, y.deed)) =
    past.map fun x => (x.before.nodes, x.deed)

section
variable {P : Protocol} {limit : Nat} {ids : List NodeId}
  {past : List (Moment (P.selfDelivering limit))} {mesh next : Mesh (P.selfDelivering limit)}
  {past' : List (Moment P)} {mesh' : Mesh P} {node : NodeId}

@[simp] theorem isOwn_sentBy (o : Outgoing P.Msg) :
    (o.sentBy node).isOwn = decide (o.recipient = node) :=
  rfl

/-- What a node sends takes its places behind what there is. -/
theorem ownPlaces_turned (node : NodeId) (mesh : Mesh P) (s : P.State)
    (out : List (Outgoing P.Msg)) :
    ∃ places, ownPlaces (mesh.turned node s out).pool = ownPlaces mesh.pool ++ places ∧
      places.map (·.1) = (toSelf node out).map fun m => ⟨node, node, m⟩ := by
  refine ⟨((out.map (Outgoing.sentBy node)).zipIdx mesh.pool.size).filter (·.1.isOwn), ?_, ?_⟩
  · simp [ownPlaces, turned, List.zipIdx_append]
  · have hfst : ((out.map (Outgoing.sentBy node)).zipIdx mesh.pool.size).map Prod.fst =
        out.map (Outgoing.sentBy node) := List.zipIdx_map_fst ..
    have hfilter := List.filter_map (f := Prod.fst) (p := Packet.isOwn)
      (l := (out.map (Outgoing.sentBy node)).zipIdx mesh.pool.size)
    rw [hfst, List.filter_map] at hfilter
    refine hfilter.symm.trans ?_
    rw [toSelf, List.map_map]
    refine List.map_congr_left fun o ho => ?_
    have hrecipient : o.recipient = node := of_decide_eq_true (List.mem_filter.mp ho).2
    exact congrArg (Packet.mk node · o.body) hrecipient

theorem remote_turned (mesh : Mesh P) (s : P.State) (out : List (Outgoing P.Msg)) :
    (mesh.turned node s out).pool.toList.filter (!·.isOwn) =
      mesh.pool.toList.filter (!·.isOwn) ++ (toOthers node out).map (Outgoing.sentBy node) := by
  rw [turned, Array.toList_appendList, List.filter_append, List.filter_map, toOthers]
  congr 2
  refine List.filter_congr fun o _ => ?_
  simp

theorem getElem?_of_mem_ownPlaces {mesh : Mesh P} {p : Packet P.Msg} {k : Nat}
    (h : (p, k) ∈ ownPlaces mesh.pool) : mesh.pool[k]? = some p ∧ p.isOwn = true := by
  obtain ⟨hmem, hown⟩ := List.mem_filter.mp h
  rw [← Array.getElem?_toList]
  exact ⟨List.mem_zipIdx_iff_getElem?.mp hmem, hown⟩

/-- The plain mesh between an event of a node, which has turned `start`, and the return of all that
the node has then sent to itself. -/
structure Returning (ids : List NodeId) (node : NodeId) (start : Mesh P)
    (others : List (Moment P)) (x : Solo P) (own : List P.Msg) (past' : List (Moment P))
    (mesh' : Mesh P) : Prop where
  run : Run ids (fun _ => True) past' mesh'
  turned : mesh' = start.turned node x.state x.sent
  awaits : x.Awaits node own
  places : ∃ places, past'.reverse.filterMap (·.ownDelivery?) ++ places = ownPlaces mesh'.pool ∧
    places.map (·.1) = own.map fun m => ⟨node, node, m⟩
  others : past'.filter (·.ownDelivery?.isNone) = others

/-- **A step of the plain run of a node is a delivery in the plain mesh.** -/
theorem Returning.step {start : Mesh P} {others : List (Moment P)} {x y : Solo P}
    {own : List P.Msg} (h : Returning ids node start others x own past' mesh')
    (hstep : Solo.Step node x y) :
    ∃ own' past'' mesh'', Returning ids node start others y own' past'' mesh'' := by
  obtain ⟨m, rest, r, rfl, hr, rfl⟩ := h.awaits.step_iff.mp hstep
  obtain ⟨places, hplaces, hfst⟩ := h.places
  obtain ⟨⟨p, k⟩, places, rfl, hp, hrest⟩ := List.map_eq_cons_iff.mp hfst
  obtain rfl : p = ⟨node, node, m⟩ := hp
  have hmem : ((⟨node, node, m⟩, k) : Packet P.Msg × Nat) ∈ ownPlaces mesh'.pool := by
    rw [← hplaces]
    exact List.mem_append_right _ (List.mem_cons_self ..)
  obtain ⟨hk, hown⟩ := getElem?_of_mem_ownPlaces hmem
  have hnode : mesh'.nodes.get? node = some x.state := by rw [h.turned, get?_turned_self]
  have hacts : Acts mesh' node x.state (.deliver k) r.state r.sent := .deliver hk rfl hr
  have hdelivery : Moment.ownDelivery? ⟨mesh', .deliver k, mesh'.turned node r.state r.sent⟩ =
      some (⟨node, node, m⟩, k) := by
    simp [Moment.ownDelivery?, hk, hown]
  obtain ⟨new, hnew, hnewfst⟩ := ownPlaces_turned node mesh' r.state r.sent
  refine ⟨rest ++ toSelf node r.sent, _, _,
    { run := .step h.run trivial (step_of_acts hnode hacts)
      turned := by
        rw [h.turned, turned_turned]
        rfl
      awaits := h.awaits.next r
      places := ⟨places ++ new, ?_, ?_⟩
      others := ?_ }⟩
  · rw [hnew, ← hplaces, List.reverse_cons, List.filterMap_append,
      List.filterMap_cons_some hdelivery]
    simp
  · rw [List.map_append, List.map_append, hrest, hnewfst]
  · rw [List.filter_cons_of_neg (by simp [hdelivery]), h.others]

/-- **All that a node has sent to itself comes back**, if the plain run of the node comes to its
end. -/
theorem Returning.settle {start : Mesh P} {others : List (Moment P)} {x y : Solo P}
    {own : List P.Msg} (h : Returning ids node start others x own past' mesh')
    (hsteps : ReflTransGen (Solo.Step node) x y) (hsettled : y.Settled node) :
    ∃ past'' mesh'', Returning ids node start others y [] past'' mesh'' := by
  obtain ⟨own', past'', mesh'', hend⟩ :
      ∃ own' past'' mesh'', Returning ids node start others y own' past'' mesh'' := by
    clear hsettled
    induction hsteps with
    | refl => exact ⟨own, past', mesh', h⟩
    | tail _ hstep ih =>
      obtain ⟨own', past'', mesh'', hbefore⟩ := ih
      exact hbefore.step hstep
  obtain rfl := hend.awaits.settled_iff.mp hsettled
  exact ⟨past'', mesh'', hend⟩

/-- **An event with self-delivery is the plain event, and the return of all that the node has then
sent to itself.** -/
theorem Unfolds.event (h : Unfolds past mesh past' mesh')
    (hrun : Run ids (fun _ => True) past' mesh') {e : Event (P.selfDelivering limit)}
    {e' : Event P} {s : P.State} {r : Reaction P.State P.Msg} {y : Solo P}
    (hs : mesh.nodes.get? node = some s) (hacts : Acts mesh' node s e' r.state r.sent)
    (hsteps : ReflTransGen (Solo.Step node) (Solo.ofReaction r) y) (hsettled : y.Settled node)
    (hnext : next = mesh.turned node y.state (toOthers node y.sent))
    (hdeed : Moment.deed ⟨mesh', e', mesh'.turned node r.state r.sent⟩ =
      Moment.deed (P := P.selfDelivering limit) ⟨mesh, e, next⟩)
    (hother : Moment.ownDelivery? ⟨mesh', e', mesh'.turned node r.state r.sent⟩ = none) :
    ∃ past'' mesh'', Run ids (fun _ => True) past'' mesh'' ∧
      Unfolds (⟨mesh, e, next⟩ :: past) next past'' mesh'' := by
  have hnode : mesh'.nodes.get? node = some s := by rw [h.nodes, hs]
  obtain ⟨places, hplaces, hfst⟩ := ownPlaces_turned node mesh' r.state r.sent
  have hbegin : Returning ids node mesh'
      (⟨mesh', e', mesh'.turned node r.state r.sent⟩ :: past'.filter (·.ownDelivery?.isNone))
      (Solo.ofReaction r) (toSelf node r.sent)
      (⟨mesh', e', mesh'.turned node r.state r.sent⟩ :: past')
      (mesh'.turned node r.state r.sent) :=
    { run := .step hrun trivial (step_of_acts hnode hacts)
      turned := rfl
      awaits := .ofReaction r
      places := by
        refine ⟨places, ?_, hfst⟩
        rw [hplaces, ← h.own, List.reverse_cons, List.filterMap_append,
          List.filterMap_cons_none hother, List.filterMap_nil, List.append_nil]
      others := List.filter_cons_of_pos (by rw [hother]; rfl) }
  obtain ⟨past'', mesh'', hend⟩ := hbegin.settle hsteps hsettled
  obtain ⟨places, hplaces, hfst⟩ := hend.places
  obtain rfl := List.map_eq_nil_iff.mp hfst
  refine ⟨past'', mesh'', hend.run, ?_, ?_, ?_, ?_⟩
  · rw [hend.turned, hnext]
    exact congrArg (SortedMap.insert · node y.state) h.nodes
  · rw [hend.turned, remote_turned, h.remote, hnext, turned, Array.toList_appendList]
    rfl
  · rw [← hplaces, List.append_nil]
  · rw [hend.others, List.map_cons, List.map_cons, h.others, h.nodes, hdeed]

/-- **A step with self-delivery is one or more plain steps.** -/
theorem Unfolds.step (h : Unfolds past mesh past' mesh')
    (hrun : Run ids (fun _ => True) past' mesh') {e : Event (P.selfDelivering limit)}
    (hstep : mesh.step e = some next) :
    ∃ past'' mesh'', Run ids (fun _ => True) past'' mesh'' ∧
      Unfolds (⟨mesh, e, next⟩ :: past) next past'' mesh'' := by
  obtain ⟨node, s, s', out, hs, hacts, rfl⟩ := step_spec hstep
  cases hacts with
  | @input i r hr =>
    obtain ⟨first, hfirst, y, hsteps, hsettled, -, rfl⟩ := finish_eq_ok_iff.mp hr
    exact h.event hrun hs (.input hfirst) hsteps hsettled rfl rfl rfl
  | @deliver k p r hp hto hr =>
    obtain ⟨first, hfirst, y, hsteps, hsettled, -, rfl⟩ := finish_eq_ok_iff.mp hr
    have hmem : p ∈ mesh'.pool.toList.filter (!·.isOwn) := by
      rw [h.remote]
      exact Array.mem_toList_iff.mpr (Array.mem_of_getElem? hp)
    obtain ⟨hmem, hother⟩ := List.mem_filter.mp hmem
    obtain ⟨k', hk'⟩ := Array.getElem?_of_mem (Array.mem_toList_iff.mp hmem)
    refine h.event hrun hs (.deliver hk' hto hfirst) hsteps hsettled rfl ?_ ?_
    · exact congrArg Deed.deliver (hk'.trans hp.symm)
    · have hnone : (some p).filter (·.isOwn) = none := by simpa using hother
      simp only [Moment.ownDelivery?, hk', hnone, Option.map_none]
  | @forge p r hp hto hr =>
    obtain ⟨first, hfirst, y, hsteps, hsettled, -, rfl⟩ := finish_eq_ok_iff.mp hr
    have hp' : mesh'.nodes.get? p.sender = none := by rw [h.nodes, hp]
    exact h.event hrun hs (.forge hp' hto hfirst) hsteps hsettled rfl rfl rfl
  | @modify f =>
    exact h.event hrun hs (r := { state := f s }) (y := .ofReaction { state := f s })
      .modify .refl rfl rfl rfl rfl
  | restart hfresh =>
    exact h.event hrun hs (r := { state := s' }) (y := .ofReaction { state := s' })
      (.restart hfresh) .refl rfl rfl rfl rfl

theorem unfolds_start (h : Mesh.start (P.selfDelivering limit) ids = .ok mesh) :
    ∃ mesh', Mesh.start P ids = .ok mesh' ∧ Unfolds [] mesh [] mesh' := by
  unfold Mesh.start at h
  cases hnodes : ids.foldlM (fun nodes id => do return nodes.insert id (← P.start id))
      (∅ : SortedMap NodeId P.State) with
  | error e =>
    rw [hnodes] at h
    cases h
  | ok nodes =>
    rw [hnodes] at h
    cases h
    exact ⟨{ nodes }, by rw [Mesh.start, hnodes]; rfl, rfl, rfl, rfl, rfl⟩

/-- **A run with self-delivery is a plain run.** -/
theorem unfolds_of_run (hrun : Run ids (fun _ => True) past mesh) :
    ∃ past' mesh', Run ids (fun _ => True) past' mesh' ∧ Unfolds past mesh past' mesh' := by
  induction hrun with
  | start h =>
    obtain ⟨mesh', hmesh', hunfolds⟩ := unfolds_start h
    exact ⟨[], mesh', .start hmesh', hunfolds⟩
  | step _ _ hstep ih =>
    obtain ⟨past', mesh', hrun', hunfolds⟩ := ih
    exact hunfolds.step hrun' hstep

end

end Mesh

namespace SelfDelivery

open Mesh Relation

/-- **Self-delivery is what a prompt network would do.**  An event at a node with self-delivery
goes well exactly if it does at a plain node, and if the plain run in which the node then gets back
what it sends to itself, the oldest message first and in its own name, comes to an end within the
limit.  In that plain run every message of the node to itself comes back once, in the order in which
they were sent; the node with self-delivery ends in the same state, gives the same warnings, and
sends what the plain one sends to others, in the same order.

So every run of nodes with self-delivery has a run of plain nodes beside it: with the same nodes,
the same messages from one node to another in the same order, and the same events at the same
states of the nodes; apart from them, each message of a node to itself is delivered once, in the
order in which they were sent. -/
theorem same_as_prompt_network (P : Protocol) (limit : Nat) :
    (∀ me s x r, (P.selfDelivering limit).react me s x = .ok r ↔ ∃ first y,
      P.react me s x = .ok first ∧ ReflTransGen (Solo.Step me) (Solo.ofReaction first) y ∧
        y.handed = (toSelf me y.sent).map (me, ·) ∧ y.handed.length ≤ limit ∧
        r = { state := y.state, sent := toOthers me y.sent, warnings := y.warnings }) ∧
    ∀ ids past mesh, Run (P := P.selfDelivering limit) ids (fun _ => True) past mesh →
      ∃ past' mesh', Run ids (fun _ => True) past' mesh' ∧ Unfolds past mesh past' mesh' := by
  refine ⟨fun me s x r => ?_, fun ids past mesh hrun => unfolds_of_run hrun⟩
  have hreact : (P.selfDelivering limit).react me s x = finish me limit (P.react me s x) := by
    cases x <;> rfl
  rw [hreact, finish_eq_ok_iff]
  constructor
  · rintro ⟨first, hfirst, y, hsteps, hsettled, hlimit, rfl⟩
    exact ⟨first, y, hfirst, hsteps, hsettled, by simpa [Solo.ofReaction] using hlimit, rfl⟩
  · rintro ⟨first, y, hfirst, hsteps, hsettled, hlimit, rfl⟩
    exact ⟨first, hfirst, y, hsteps, hsettled, Nat.le_add_left_of_le hlimit, rfl⟩

/-! ### A broadcast among four -/

open Broadcast (four)

/-- The first of the four broadcasts a value; the second and the third echo it, and the first hears
of both. -/
def echoed : List (Event ((Protocol.broadcast four ⟨0⟩).selfDelivering 4)) :=
  [.input ⟨0⟩ [7], .deliver 0, .deliver 1, .deliver 6, .deliver 9]

/-- In the plain network, too, the first one has become ready: it has got back its own echo. -/
theorem same_as_prompt_network_for_four : ∃ past mesh past' mesh',
    Run (P := (Protocol.broadcast four ⟨0⟩).selfDelivering 4) four.members (fun _ => True)
      past mesh ∧
    past.map (·.event) = echoed.reverse ∧
    Run (P := Protocol.broadcast four ⟨0⟩) four.members (fun _ => True) past' mesh' ∧
    Unfolds past mesh past' mesh' ∧
    (mesh'.nodes.get? ⟨0⟩).any (fun (s : Broadcast.State) =>
      s.readySent ∧ s.echoes.count [7] = 3 ∧ s.readies.count [7] = 1) = true := by
  obtain ⟨past, mesh, hrun, hevents, htest⟩ :=
    @Run.exists ((Protocol.broadcast four ⟨0⟩).selfDelivering 4) four.members (fun _ => True) echoed
      (fun mesh => (mesh.nodes.get? ⟨0⟩).any fun (s : Broadcast.State) =>
        s.readySent ∧ s.echoes.count [7] = 3 ∧ s.readies.count [7] = 1)
      (fun _ _ => trivial) (by decide +kernel)
  obtain ⟨past', mesh', hrun', hunfolds⟩ :=
    (same_as_prompt_network (Protocol.broadcast four ⟨0⟩) 4).2 _ past mesh hrun
  refine ⟨past, mesh, past', mesh', hrun, hevents, hrun', hunfolds, ?_⟩
  rw [hunfolds.nodes]
  exact htest

end SelfDelivery

end Quorum
