import Mathlib.Data.List.Basic
import Quorum.Proofs.Run
import Quorum.Proofs.SortedMap

/-!
# Projection — a part of a protocol, seen on its own

Several protocols may run side by side in the nodes of one protocol and share its messages.
Whoever looks at one of them only, at its state in every node and at its own messages, sees a mesh
that runs this protocol; what belongs to the others does not show.

**Main statement.**  `Projection.seen_of_run`: a run of the whole is a run of the part, in which
the same messages arrive and the same inputs are given.
-/

namespace Quorum

/-- The part of an outcome that belongs to another state and other messages. -/
structure Reaction.Shows {σ τ μ ν : Type} (state : σ → τ) (msg : μ → Option ν)
    (r : Reaction σ μ) (s' : τ) (out : List (Outgoing ν)) : Prop where
  state : state r.state = s'
  sent : (r.sent.filterMap fun o => (msg o.body).map fun m => ⟨o.recipient, m⟩) = out

/-- A protocol `Q` that runs inside `P`: an event of `P` is an event of `Q`, or does not show. -/
structure Projection (P Q : Protocol) where
  state : P.State → Q.State
  msg : P.Msg → Option Q.Msg
  input : NodeId → P.Input → Option Q.Input
  start_ok : ∀ id s, P.start id = .ok s → Q.start id = .ok (state s)
  input_none : ∀ node s i r, P.input node s i = .ok r → input node i = none →
    r.Shows state msg (state s) []
  input_some : ∀ node s i r j, P.input node s i = .ok r → input node i = some j →
    ∃ r', Q.input node (state s) j = .ok r' ∧ r.Shows state msg r'.state r'.sent
  receive_none : ∀ node s x m r, P.receive node s x m = .ok r → msg m = none →
    r.Shows state msg (state s) []
  receive_some : ∀ node s x m r m', P.receive node s x m = .ok r → msg m = some m' →
    ∃ r', Q.receive node (state s) x m' = .ok r' ∧ r.Shows state msg r'.state r'.sent

namespace Projection

open Mesh

variable {P Q : Protocol} (π : Projection P Q)

def packet? (p : Packet P.Msg) : Option (Packet Q.Msg) :=
  (π.msg p.body).map fun m => ⟨p.sender, p.recipient, m⟩

def mesh (mesh : Mesh P) : Mesh Q where
  nodes := mesh.nodes.mapVals π.state
  pool := mesh.pool.filterMap π.packet?

def sent (out : List (Outgoing P.Msg)) : List (Outgoing Q.Msg) :=
  out.filterMap fun o => (π.msg o.body).map fun m => ⟨o.recipient, m⟩

variable {π}

theorem get?_mesh (mesh : Mesh P) (id : NodeId) :
    (π.mesh mesh).nodes.get? id = (mesh.nodes.get? id).map π.state :=
  SortedMap.get?_mapVals _ _ _

theorem isSome_get?_mesh (mesh : Mesh P) (id : NodeId) :
    ((π.mesh mesh).nodes.get? id).isSome = (mesh.nodes.get? id).isSome := by
  rw [get?_mesh, Option.isSome_map]

theorem mem_pool {mesh : Mesh P} {x y : NodeId} {m : Q.Msg} :
    ⟨x, y, m⟩ ∈ (π.mesh mesh).pool ↔ ∃ M, ⟨x, y, M⟩ ∈ mesh.pool ∧ π.msg M = some m := by
  simp only [Projection.mesh, Array.mem_filterMap, packet?, Option.map_eq_some_iff,
    Packet.mk.injEq]
  constructor
  · rintro ⟨⟨_, _, M⟩, hp, m, hm, rfl, rfl, rfl⟩
    exact ⟨M, hp, hm⟩
  · rintro ⟨M, hp, hm⟩
    exact ⟨⟨x, y, M⟩, hp, m, hm, rfl, rfl, rfl⟩

theorem mesh_turned (mesh : Mesh P) (node : NodeId) (s : P.State) (out : List (Outgoing P.Msg)) :
    π.mesh (mesh.turned node s out) = (π.mesh mesh).turned node (π.state s) (π.sent out) := by
  have hpool : (mesh.pool ++ out.map (Outgoing.sentBy node)).filterMap π.packet? =
      mesh.pool.filterMap π.packet? ++ (π.sent out).map (Outgoing.sentBy node) := by
    apply Array.toList_inj.mp
    simp only [Array.toList_filterMap, Array.toList_appendList, List.filterMap_append, sent,
      List.filterMap_map, List.map_filterMap]
    congr 1
    refine List.filterMap_congr fun o _ => ?_
    simp only [packet?, Outgoing.sentBy, Function.comp_apply, Option.map_map]
    rfl
  simp only [Projection.mesh, turned, SortedMap.mapVals_insert, hpool]

theorem foldlM_start_map {ids : List NodeId} {nodes nodes' : SortedMap NodeId P.State}
    (h : ids.foldlM (fun nodes id => do return nodes.insert id (← P.start id)) nodes =
      .ok nodes') :
    ids.foldlM (fun nodes id => do return nodes.insert id (← Q.start id))
      (nodes.mapVals π.state) = .ok (nodes'.mapVals π.state) := by
  induction ids generalizing nodes with
  | nil =>
    cases h
    rfl
  | cons first ids ih =>
    rw [List.foldlM_cons] at h ⊢
    cases hs : P.start first with
    | error e =>
      rw [hs] at h
      cases h
    | ok s =>
      rw [hs] at h
      have hrest := ih h
      rw [SortedMap.mapVals_insert] at hrest
      rw [π.start_ok first s hs]
      exact hrest

theorem start_mesh {ids : List NodeId} {mesh : Mesh P} (h : Mesh.start P ids = .ok mesh) :
    Mesh.start Q ids = .ok (π.mesh mesh) := by
  unfold Mesh.start at h ⊢
  cases hnodes : ids.foldlM (fun nodes id => do return nodes.insert id (← P.start id))
      (∅ : SortedMap NodeId P.State) with
  | error e =>
    rw [hnodes] at h
    cases h
  | ok nodes =>
    rw [hnodes] at h
    cases h
    have hpart := foldlM_start_map (π := π) hnodes
    change ids.foldlM _ (∅ : SortedMap NodeId Q.State) = _ at hpart
    rw [hpart]
    rfl

/-! ### One step -/

/-- What an event of the whole is for the part. -/
inductive Reflects (π : Projection P Q) (mesh : Mesh P) (e : Event P) :
    Option (Event Q) → Prop where
  | input {node i j} (he : e = .input node i) (hj : π.input node i = some j) :
    Reflects π mesh e (some (.input node j))
  | deliver {k k' p m} (he : e = .deliver k) (hp : mesh.pool[k]? = some p)
      (hm : π.msg p.body = some m)
      (hk : (π.mesh mesh).pool[k']? = some ⟨p.sender, p.recipient, m⟩) :
    Reflects π mesh e (some (.deliver k'))
  | forge {p m} (he : e = .forge p) (hm : π.msg p.body = some m) :
    Reflects π mesh e (some (.forge ⟨p.sender, p.recipient, m⟩))
  | nothing (hinput : ∀ node i, e = .input node i → π.input node i = none)
      (hdeliver : ∀ k p, e = .deliver k → mesh.pool[k]? = some p → π.msg p.body = none) :
    Reflects π mesh e none

/-- **What an event makes a node do shows as one event of the part, or not at all.** -/
theorem acts_reflects {mesh : Mesh P} {node : NodeId} {s s' : P.State} {e : Event P}
    {out : List (Outgoing P.Msg)} (h : Acts mesh node s e s' out) (he : e.IsAsynchronous) :
    (Reflects π mesh e none ∧ π.state s' = π.state s ∧ π.sent out = []) ∨
      ∃ e', Reflects π mesh e (some e') ∧ e'.IsAsynchronous ∧
        Acts (π.mesh mesh) node (π.state s) e' (π.state s') (π.sent out) := by
  cases h with
  | @input i r h =>
    cases hj : π.input node i with
    | none =>
      have hshows := π.input_none node s i r h hj
      refine .inl ⟨.nothing ?_ nofun, hshows.state, hshows.sent⟩
      intro _ _ he
      cases he
      exact hj
    | some j =>
      obtain ⟨r', hr', hshows⟩ := π.input_some node s i r j h hj
      refine .inr ⟨_, .input rfl hj, trivial, ?_⟩
      rw [hshows.state, sent, hshows.sent]
      exact .input hr'
  | @deliver k p r hp hto h =>
    cases hm : π.msg p.body with
    | none =>
      have hshows := π.receive_none node s p.sender p.body r h hm
      refine .inl ⟨.nothing nofun ?_, hshows.state, hshows.sent⟩
      intro _ _ he hp'
      cases he
      cases hp.symm.trans hp'
      exact hm
    | some m =>
      obtain ⟨r', hr', hshows⟩ := π.receive_some node s p.sender p.body r m h hm
      have hmem : (⟨p.sender, p.recipient, m⟩ : Packet Q.Msg) ∈ (π.mesh mesh).pool :=
        mem_pool.mpr ⟨p.body, Array.mem_of_getElem? hp, hm⟩
      obtain ⟨k', hk'⟩ := Array.getElem?_of_mem hmem
      refine .inr ⟨_, .deliver rfl hp hm hk', trivial, ?_⟩
      rw [hshows.state, sent, hshows.sent]
      exact .deliver hk' hto hr'
  | @forge p r hp hto h =>
    cases hm : π.msg p.body with
    | none =>
      have hshows := π.receive_none node s p.sender p.body r h hm
      exact .inl ⟨.nothing nofun nofun, hshows.state, hshows.sent⟩
    | some m =>
      obtain ⟨r', hr', hshows⟩ := π.receive_some node s p.sender p.body r m h hm
      refine .inr ⟨_, .forge rfl hm, trivial, ?_⟩
      rw [hshows.state, sent, hshows.sent]
      refine .forge ?_ hto hr'
      rw [get?_mesh, hp]
      rfl
  | modify => cases he
  | restart => cases he

/-! ### Runs -/

/-- How the history of the whole shows as a history of the part. -/
structure Seen (π : Projection P Q) (ids : List NodeId) (past : List (Moment P)) (mesh : Mesh P)
    (past' : List (Moment Q)) : Prop where
  run : Run ids Event.IsAsynchronous past' (π.mesh mesh)
  arrived : ∀ x y M m, Arrived past mesh ⟨x, y, M⟩ → π.msg M = some m →
    Arrived past' (π.mesh mesh) ⟨x, y, m⟩
  input : ∀ node j, (∃ x ∈ past', x.event = .input node j) ↔
    ∃ x ∈ past, ∃ i, x.event = .input node i ∧ π.input node i = some j

variable {ids : List NodeId} {past : List (Moment P)} {mesh mesh' : Mesh P} {e : Event P}
variable {past' : List (Moment Q)}

/-- An event that does not show leaves the history of the part as it is. -/
theorem Seen.nothing (hseen : π.Seen ids past mesh past')
    (hrun : Run ids Event.IsAsynchronous past mesh) (h : mesh.step e = some mesh')
    (he : Reflects π mesh e none) (hsame : π.mesh mesh' = π.mesh mesh) :
    π.Seen ids (⟨mesh, e, mesh'⟩ :: past) mesh' past' := by
  cases he with
  | nothing hinput hdeliver =>
    refine ⟨by rw [hsame]; exact hseen.run, ?_, ?_⟩
    · intro x y M m harrived hm
      rw [hsame]
      rcases (arrived_step hrun h).mp harrived with hearlier | ⟨k, hk, hp⟩
      · exact hseen.arrived x y M m hearlier hm
      · have hnone := hdeliver k _ hk hp
        rw [hm] at hnone
        cases hnone
    · intro node j
      rw [hseen.input, List.exists_mem_cons_iff]
      constructor
      · exact .inr
      · rintro (⟨i, hi, hj⟩ | hearlier)
        · have hnone := hinput node i hi
          rw [hj] at hnone
          cases hnone
        · exact hearlier

/-- An event that shows is the next one in the history of the part. -/
theorem Seen.something {e' : Event Q} (hseen : π.Seen ids past mesh past')
    (hrun : Run ids Event.IsAsynchronous past mesh) (h : mesh.step e = some mesh')
    (he : Reflects π mesh e (some e')) (he' : e'.IsAsynchronous)
    (h' : (π.mesh mesh).step e' = some (π.mesh mesh')) :
    π.Seen ids (⟨mesh, e, mesh'⟩ :: past) mesh' (⟨π.mesh mesh, e', π.mesh mesh'⟩ :: past') := by
  refine ⟨.step hseen.run he' h', ?_, ?_⟩
  · intro x y M m harrived hm
    rw [arrived_step hseen.run h']
    rcases (arrived_step hrun h).mp harrived with hearlier | ⟨k, rfl, hp⟩
    · exact .inl (hseen.arrived x y M m hearlier hm)
    · right
      cases he with
      | input hi => cases hi
      | forge hf => cases hf
      | deliver hk hp' hm' hk' =>
        cases hk
        cases hp.symm.trans hp'
        cases hm.symm.trans hm'
        exact ⟨_, rfl, hk'⟩
  · intro node j
    rw [List.exists_mem_cons_iff, List.exists_mem_cons_iff, hseen.input]
    refine or_congr_left ?_
    constructor
    · intro heq
      cases heq
      cases he with
      | input hi hj => exact ⟨_, hi, hj⟩
    · rintro ⟨i, rfl, hj⟩
      cases he with
      | input hi hj' =>
        cases hi
        cases hj.symm.trans hj'
        rfl
      | deliver hk => cases hk
      | forge hf => cases hf

/-- **A run of the whole is a run of the part.** -/
theorem seen_of_run (π : Projection P Q) (hrun : Run ids Event.IsAsynchronous past mesh) :
    ∃ past', π.Seen ids past mesh past' := by
  induction hrun with
  | start h =>
    refine ⟨[], .start (start_mesh h), ?_, by simp⟩
    rintro x y M m ⟨k, -, z, hz, -⟩
    cases hz
  | @step past mesh e mesh' hrun hmay h ih =>
    obtain ⟨past', hseen⟩ := ih
    obtain ⟨node, s, s', out, hs, hacts, rfl⟩ := step_spec h
    have hshown : (π.mesh mesh).nodes.get? node = some (π.state s) := by rw [get?_mesh, hs]; rfl
    rcases acts_reflects hacts hmay with ⟨hnothing, hstate, hsent⟩ | ⟨e', hreflects, he', hacts'⟩
    · refine ⟨past', hseen.nothing hrun h hnothing ?_⟩
      rw [mesh_turned, hstate, hsent, turned_self hshown]
    · refine ⟨_, hseen.something hrun h hreflects he' ?_⟩
      rw [mesh_turned]
      exact step_of_acts hshown hacts'

/-- Where the part sends nothing twice, all of it has arrived once everything has. -/
theorem Seen.allArrived (hseen : π.Seen ids past mesh past')
    (hnodup : (π.mesh mesh).pool.toList.Nodup)
    (h : ∀ p ∈ mesh.pool, (mesh.nodes.get? p.recipient).isSome → Arrived past mesh p) :
    AllArrived past' (π.mesh mesh) := by
  refine allArrived_of_arrived hnodup ?_
  rintro ⟨x, y, m⟩ hp hnode
  obtain ⟨M, hM, hm⟩ := mem_pool.mp hp
  rw [isSome_get?_mesh] at hnode
  exact hseen.arrived x y M m (h _ hM hnode) hm

end Projection

end Quorum
