import Mathlib.Data.List.Basic
import Quorum.Proofs.Run
import Quorum.Proofs.Wire.Messages

/-!
# Tame — protocols that run without fault where nobody is faulty

In an honest run every node gets its input at most once, and everything that arrives was sent.  A
protocol is tame if in such runs it meets no fault, sends only to nodes and only so much, and what
it sends can be read.  What a node does in several honest steps in a row is one piece of its work
(`Work`), and pieces of work can be put together (`Work.trans`).

**Main statements.**  `Work.start`, `Work.trans`.
-/

namespace Quorum

def between {μ : Type} (a b : NodeId) (l : List (Packet μ)) : List μ :=
  (l.filter fun p => p.sender = a ∧ p.recipient = b).map (·.body)

section
variable {μ : Type} {a b : NodeId} {l : List (Packet μ)}

theorem mem_between {m : μ} : m ∈ between a b l ↔ ⟨a, b, m⟩ ∈ l := by
  simp only [between, List.mem_map, List.mem_filter, decide_eq_true_iff]
  constructor
  · rintro ⟨p, ⟨hp, rfl, rfl⟩, rfl⟩
    exact hp
  · intro h
    exact ⟨_, ⟨h, rfl, rfl⟩, rfl⟩

theorem between_append (l' : List (Packet μ)) :
    between a b (l ++ l') = between a b l ++ between a b l' := by
  rw [between, List.filter_append, List.map_append]
  rfl

theorem between_cons (p : Packet μ) : between a b (p :: l) =
    if p.sender = a ∧ p.recipient = b then p.body :: between a b l else between a b l := by
  unfold between
  rw [List.filter_cons]
  simp only [decide_eq_true_iff]
  split <;> rfl

theorem between_sentBy (node : NodeId) (out : List (Outgoing μ)) :
    between a b (out.map (Outgoing.sentBy node)) =
      if node = a then (out.filter (·.recipient = b)).map (·.body) else [] := by
  rw [between, List.filter_map, List.map_map]
  split
  · rename_i h
    have hfilter : out.filter ((fun p => decide (p.sender = a ∧ p.recipient = b)) ∘
        Outgoing.sentBy node) = out.filter (·.recipient = b) :=
      List.filter_congr fun _ _ => decide_eq_decide.mpr (and_iff_right h)
    rw [hfilter]
    rfl
  · rename_i h
    rw [List.filter_eq_nil_iff.mpr fun o _ => by simp [Outgoing.sentBy, h]]
    rfl

/-- What tells the messages from one node to another apart. -/
theorem nodup_map_between {κ : Type} {key : μ → κ} (h : l.Pairwise fun p q =>
    ∀ x y m m', p = ⟨x, y, m⟩ → q = ⟨x, y, m'⟩ → key m ≠ key m') (a b : NodeId) :
    ((between a b l).map key).Nodup := by
  rw [between, List.Nodup, List.pairwise_map, List.pairwise_map, List.pairwise_filter]
  refine h.imp ?_
  rintro ⟨x, y, m⟩ ⟨x', y', m'⟩ hne hp hq
  obtain ⟨rfl, rfl⟩ := of_decide_eq_true hp
  obtain ⟨rfl, rfl⟩ := of_decide_eq_true hq
  exact hne _ _ m m' rfl rfl

end

namespace Mesh
variable {P : Protocol}

/-! ### Honest runs -/

/-- What happens where nobody is faulty: inputs that fit, and deliveries. -/
def Event.IsHonest (fits : P.Input → Prop) : Event P → Prop
  | .input _ i => fits i
  | .deliver _ => True
  | .forge .. | .modify .. | .restart .. => False

variable {fits : P.Input → Prop} {ids : List NodeId} {past past' past'' : List (Moment P)}
variable {mesh mesh' mesh'' : Mesh P} {me : NodeId}

theorem Event.IsHonest.isAsynchronous {e : Event P} (h : e.IsHonest fits) : e.IsAsynchronous := by
  cases e with
  | input node i => trivial
  | deliver k => trivial
  | _ => cases h

def Given (past : List (Moment P)) (id : NodeId) (i : P.Input) : Prop :=
  ∃ x ∈ past, x.event = .input id i

theorem given_cons {e : Event P} {id : NodeId} {i : P.Input} :
    Given (⟨mesh, e, mesh'⟩ :: past) id i ↔ e = .input id i ∨ Given past id i := by
  simp [Given]

/-- A protocol that in honest runs of the nodes `ids` meets no fault, and sends readable messages
only to nodes, at most `most` from one to another. -/
structure Tame (P : Protocol) (ids : List NodeId) (fits : P.Input → Prop) (most : Nat) :
    Prop where
  start : ∀ id ∈ ids, ∃ s, P.start id = .ok s
  input : ∀ past mesh, Run ids (Event.IsHonest fits) past mesh → ∀ id s i,
    mesh.nodes.get? id = some s → fits i → (∀ j, ¬ Given past id j) → ∃ r, P.input id s i = .ok r
  receive : ∀ past mesh, Run ids (Event.IsHonest fits) past mesh → ∀ p ∈ mesh.pool, ∀ s,
    mesh.nodes.get? p.recipient = some s → ∃ r, P.receive p.recipient s p.sender p.body = .ok r
  recipient : ∀ past mesh, Run ids (Event.IsHonest fits) past mesh → ∀ p ∈ mesh.pool,
    p.recipient ∈ ids
  traffic : ∀ past mesh, Run ids (Event.IsHonest fits) past mesh → ∀ a b,
    (between a b mesh.pool.toList).length ≤ most
  readable : ∀ past mesh, Run ids (Event.IsHonest fits) past mesh → ∀ p ∈ mesh.pool,
    Reliable.Fits P.encode P.decode p.body

/-! ### Work -/

/-- Turning twice is turning once, with everything sent in both turns. -/
theorem turned_turned (mesh : Mesh P) (node : NodeId) (s s' : P.State)
    (out out' : List (Outgoing P.Msg)) :
    (mesh.turned node s out).turned node s' out' = mesh.turned node s' (out ++ out') := by
  have hnodes : (mesh.nodes.insert node s).insert node s' = mesh.nodes.insert node s' := by
    refine SortedMap.ext_get? fun id => ?_
    simp only [SortedMap.get?_insert]
    split <;> rfl
  have hpool : mesh.pool ++ out.map (Outgoing.sentBy node) ++ out'.map (Outgoing.sentBy node) =
      mesh.pool ++ (out ++ out').map (Outgoing.sentBy node) := by
    apply Array.toList_inj.mp
    simp
  simp only [turned, hnodes, hpool]

theorem Arrived.step {may : Event P → Prop} (hrun : Run ids may past mesh) {e : Event P}
    (h : mesh.step e = some mesh') {p : Packet P.Msg} (hp : Arrived past mesh p) :
    Arrived (⟨mesh, e, mesh'⟩ :: past) mesh' p :=
  (arrived_step hrun h).mpr (.inl hp)

def Event.taken : Event P → Option P.Input
  | .input _ i => some i
  | _ => none

/-- Honest steps of the node `me`, which has taken an input, if any, has turned to `s` and has sent
`out`. -/
structure Work (ids : List NodeId) (fits : P.Input → Prop) (me : NodeId) (past : List (Moment P))
    (mesh : Mesh P) (taken : Option P.Input) (s : P.State) (out : List (Outgoing P.Msg))
    (past' : List (Moment P)) (mesh' : Mesh P) : Prop where
  run : Run ids (Event.IsHonest fits) past' mesh'
  turned : mesh' = mesh.turned me s out
  arrived : ∀ p, Arrived past mesh p → Arrived past' mesh' p
  given : ∀ id i, Given past' id i ↔ Given past id i ∨ (me = id ∧ taken = some i)

variable {s s' : P.State} {out out' : List (Outgoing P.Msg)} {taken : Option P.Input}

theorem Work.refl (hrun : Run ids (Event.IsHonest fits) past mesh)
    (hs : mesh.nodes.get? me = some s) : Work ids fits me past mesh none s [] past mesh where
  run := hrun
  turned := (turned_self hs).symm
  arrived _ hp := hp
  given _ _ := by simp

theorem Work.start (hrun : Run ids (Event.IsHonest fits) past mesh)
    (hs : mesh.nodes.get? me = some s) {e : Event P} (he : e.IsHonest fits)
    (h : Acts mesh me s e s' out) :
    Work ids fits me past mesh e.taken s' out (⟨mesh, e, mesh.turned me s' out⟩ :: past)
      (mesh.turned me s' out) where
  run := .step hrun he (step_of_acts hs h)
  turned := rfl
  arrived _ hp := hp.step hrun (step_of_acts hs h)
  given id i := by
    rw [given_cons, or_comm]
    refine or_congr_right ?_
    cases h with
    | input h => simp [Event.taken]
    | _ => simp [Event.taken]

theorem Work.trans (h : Work ids fits me past mesh taken s out past' mesh')
    (h' : Work ids fits me past' mesh' none s' out' past'' mesh'') :
    Work ids fits me past mesh taken s' (out ++ out') past'' mesh'' where
  run := h'.run
  turned := by rw [h'.turned, h.turned, turned_turned]
  arrived p hp := h'.arrived p (h.arrived p hp)
  given id i := by rw [h'.given, h.given]; simp

theorem Work.get? (h : Work ids fits me past mesh taken s out past' mesh') :
    mesh'.nodes.get? me = some s := by
  rw [h.turned, get?_turned_self]

theorem Work.between (h : Work ids fits me past mesh taken s out past' mesh') (a b : NodeId) :
    between a b mesh'.pool.toList = between a b mesh.pool.toList ++
      if me = a then (out.filter (·.recipient = b)).map (·.body) else [] := by
  rw [h.turned, Mesh.turned, Array.toList_appendList, between_append, between_sentBy]

theorem Work.mem_pool (h : Work ids fits me past mesh taken s out past' mesh') {p : Packet P.Msg}
    (hp : p ∈ mesh.pool) : p ∈ mesh'.pool := by
  rw [h.turned]
  exact mem_pool_turned.mpr (.inl hp)

end Mesh

end Quorum
