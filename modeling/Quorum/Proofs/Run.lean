import Quorum.Mesh

/-!
# Run — meshes that come about event by event

A run of a mesh is a sequence of events, each of which makes one node act: inputs, deliveries of
messages that were sent, messages in the name of somebody who is no node of the mesh, changes from
outside, restarts.  A run keeps all its steps, so that a statement about the mesh that has come
about can look back.

**Main statements.**  `step_spec`: what a step does to nodes and pool.  `Run.nodes_isSome` and
`Run.sender_isSome`: the nodes stay those of the start, and everything in the pool is theirs.
-/

namespace Quorum

namespace Mesh
variable {P : Protocol}

/-! ### Events -/

/-- Hands a message to its recipient as it was sent. -/
def hand (mesh : Mesh P) (p : Packet P.Msg) :
    Except Obstacle (Mesh P × List (Outgoing P.Msg)) :=
  match mesh.nodes.get? p.recipient with
  | none => .error (.noNode p.recipient)
  | some s => mesh.settle p.recipient (P.receive p.recipient s p.sender p.body)

/-- What may happen to a mesh. -/
inductive Event (P : Protocol) where
  | input (node : NodeId) (i : P.Input)
  /-- The `k`-th message ever sent is handed to its recipient. -/
  | deliver (k : Nat)
  /-- A message that nobody has sent arrives, in the name of somebody who is no node. -/
  | forge (p : Packet P.Msg)
  /-- The state of a node is changed from outside. -/
  | modify (node : NodeId) (f : P.State → P.State)
  /-- A node is replaced by one before its first event. -/
  | restart (node : NodeId)

/-- The mesh after an event, if the event is possible. -/
def step (mesh : Mesh P) : Event P → Option (Mesh P)
  | .input node i => (mesh.input node i).toOption.map (·.1)
  | .deliver k => mesh.pool[k]?.bind fun p => (mesh.hand p).toOption.map (·.1)
  | .forge p =>
    if (mesh.nodes.get? p.sender).isSome then none else (mesh.hand p).toOption.map (·.1)
  | .modify node f => (mesh.modify node f).toOption
  | .restart node => (mesh.restart node).toOption

/-- How an event makes a node act: the state that it turns to, and what it sends. -/
inductive Acts (mesh : Mesh P) (node : NodeId) (s : P.State) :
    Event P → P.State → List (Outgoing P.Msg) → Prop where
  | input {i r} (h : P.input node s i = .ok r) : Acts mesh node s (.input node i) r.state r.sent
  | deliver {k p r} (hp : mesh.pool[k]? = some p) (hto : p.recipient = node)
      (h : P.receive node s p.sender p.body = .ok r) :
      Acts mesh node s (.deliver k) r.state r.sent
  | forge {p r} (hp : mesh.nodes.get? p.sender = none) (hto : p.recipient = node)
      (h : P.receive node s p.sender p.body = .ok r) :
      Acts mesh node s (.forge p) r.state r.sent
  | modify {f} : Acts mesh node s (.modify node f) (f s) []
  | restart {s'} (h : P.start node = .ok s') : Acts mesh node s (.restart node) s' []

/-- Events of an asynchronous network in which some parties are faulty: nothing but inputs to
nodes, messages of nodes, and messages in the name of others. -/
def Event.IsAsynchronous : Event P → Prop
  | .input .. | .deliver .. | .forge .. => True
  | .modify .. | .restart .. => False

/-- Such an event is an input, or a message; a message in the name of a node is from the pool. -/
theorem Acts.asynchronous {mesh : Mesh P} {node : NodeId} {s s' : P.State} {e : Event P}
    {out : List (Outgoing P.Msg)} (h : Acts mesh node s e s' out) (he : e.IsAsynchronous) :
    (∃ i r, e = .input node i ∧ P.input node s i = .ok r ∧ s' = r.state ∧ out = r.sent) ∨
      ∃ p r, ((mesh.nodes.get? p.sender).isSome → p ∈ mesh.pool) ∧ p.recipient = node ∧
        P.receive node s p.sender p.body = .ok r ∧ s' = r.state ∧ out = r.sent := by
  cases h with
  | input h => exact .inl ⟨_, _, rfl, h, rfl, rfl⟩
  | deliver hp hto h =>
    exact .inr ⟨_, _, fun _ => Array.mem_of_getElem? hp, hto, h, rfl, rfl⟩
  | forge hp hto h =>
    refine .inr ⟨_, _, fun hsome => ?_, hto, h, rfl, rfl⟩
    rw [hp] at hsome
    cases hsome
  | modify => cases he
  | restart => cases he

/-- The mesh in which a node has turned to another state and has sent messages. -/
def turned (mesh : Mesh P) (node : NodeId) (s : P.State) (out : List (Outgoing P.Msg)) : Mesh P :=
  { nodes := mesh.nodes.insert node s, pool := mesh.pool ++ out.map (Outgoing.sentBy node) }

theorem get?_turned (mesh : Mesh P) (node : NodeId) (s : P.State) (out : List (Outgoing P.Msg))
    (id : NodeId) :
    (mesh.turned node s out).nodes.get? id = if node = id then some s else mesh.nodes.get? id := by
  simp only [turned, SortedMap.get?_insert, Ranked.rank_eq_iff]

@[simp] theorem get?_turned_self (mesh : Mesh P) (node : NodeId) (s : P.State)
    (out : List (Outgoing P.Msg)) : (mesh.turned node s out).nodes.get? node = some s := by
  rw [get?_turned, if_pos rfl]

theorem get?_turned_ne (mesh : Mesh P) {node id : NodeId} (s : P.State)
    (out : List (Outgoing P.Msg)) (h : node ≠ id) :
    (mesh.turned node s out).nodes.get? id = mesh.nodes.get? id := by
  rw [get?_turned, if_neg h]

theorem get?_turned_cases {mesh : Mesh P} {node id : NodeId} {s t : P.State}
    {out : List (Outgoing P.Msg)} (h : (mesh.turned node s out).nodes.get? id = some t) :
    (node = id ∧ s = t) ∨ (node ≠ id ∧ mesh.nodes.get? id = some t) := by
  rw [get?_turned] at h
  split at h
  · rename_i hid
    exact .inl ⟨hid, Option.some.inj h⟩
  · rename_i hid
    exact .inr ⟨hid, h⟩

theorem turned_self {mesh : Mesh P} {node : NodeId} {s : P.State}
    (hs : mesh.nodes.get? node = some s) : mesh.turned node s [] = mesh := by
  have hnodes : mesh.nodes.insert node s = mesh.nodes := by
    refine SortedMap.ext_get? fun id => ?_
    rw [SortedMap.get?_insert]
    split
    · rename_i hid
      rw [← hs, Ranked.rank_inj hid]
    · rfl
  simp [turned, hnodes]

theorem isSome_get?_turned {mesh : Mesh P} {node : NodeId} {s : P.State} (s' : P.State)
    (out : List (Outgoing P.Msg)) (hs : mesh.nodes.get? node = some s) (id : NodeId) :
    ((mesh.turned node s' out).nodes.get? id).isSome = (mesh.nodes.get? id).isSome := by
  rw [get?_turned]
  split
  · rename_i hid
    subst hid
    simp [hs]
  · rfl

theorem mem_pool_turned {mesh : Mesh P} {node : NodeId} {s : P.State}
    {out : List (Outgoing P.Msg)} {p : Packet P.Msg} :
    p ∈ (mesh.turned node s out).pool ↔
      p ∈ mesh.pool ∨ (p.sender = node ∧ ⟨p.recipient, p.body⟩ ∈ out) := by
  rw [turned, ← Array.mem_toList_iff, Array.toList_appendList, List.mem_append, List.mem_map,
    Array.mem_toList_iff]
  refine or_congr Iff.rfl ⟨?_, ?_⟩
  · rintro ⟨m, hm, rfl⟩
    exact ⟨rfl, hm⟩
  · rintro ⟨hsender, hm⟩
    exact ⟨_, hm, by rw [← hsender]; rfl⟩

theorem getElem?_pool_turned {mesh : Mesh P} {node : NodeId} {s : P.State}
    {out : List (Outgoing P.Msg)} {k : Nat} (hk : k < mesh.pool.size) :
    (mesh.turned node s out).pool[k]? = mesh.pool[k]? := by
  rw [turned, ← Array.getElem?_toList, Array.toList_appendList,
    List.getElem?_append_left (by simpa using hk), Array.getElem?_toList]

theorem getElem?_pool_turned_iff {mesh : Mesh P} {node : NodeId} {s : P.State}
    {out : List (Outgoing P.Msg)} {k : Nat} {p : Packet P.Msg} :
    (mesh.turned node s out).pool[k]? = some p ↔ mesh.pool[k]? = some p ∨
      (mesh.pool.size ≤ k ∧ p.sender = node ∧
        out[k - mesh.pool.size]? = some ⟨p.recipient, p.body⟩) := by
  rcases Nat.lt_or_ge k mesh.pool.size with hlt | hge
  · rw [getElem?_pool_turned hlt]
    exact ⟨.inl, fun h => h.resolve_right fun hsent => by omega⟩
  · have hnone : mesh.pool[k]? = none := Array.getElem?_eq_none hge
    rw [hnone, turned, ← Array.getElem?_toList, Array.toList_appendList,
      List.getElem?_append_right (by simpa using hge), List.getElem?_map, Array.length_toList]
    constructor
    · intro h
      obtain ⟨m, hm, rfl⟩ := Option.map_eq_some_iff.mp h
      exact .inr ⟨hge, rfl, hm⟩
    · rintro (h | ⟨-, rfl, hm⟩)
      · cases h
      · rw [hm]
        rfl

theorem size_pool_turned (mesh : Mesh P) (node : NodeId) (s : P.State)
    (out : List (Outgoing P.Msg)) :
    (mesh.turned node s out).pool.size = mesh.pool.size + out.length := by
  rw [turned, ← Array.length_toList, Array.toList_appendList]
  simp

theorem settle_eq_ok {mesh mesh' : Mesh P} {node : NodeId} {outcome : Outcome P.State P.Msg}
    {out : List (Outgoing P.Msg)} (h : mesh.settle node outcome = .ok (mesh', out)) :
    ∃ r, outcome = .ok r ∧ mesh' = mesh.turned node r.state r.sent := by
  unfold settle at h
  cases outcome with
  | error failure => cases h
  | ok r =>
    simp only [Except.ok.injEq, Prod.mk.injEq] at h
    exact ⟨r, rfl, h.1.symm⟩

theorem hand_eq_ok {mesh mesh' : Mesh P} {p : Packet P.Msg} {out : List (Outgoing P.Msg)}
    (h : mesh.hand p = .ok (mesh', out)) :
    ∃ s r, mesh.nodes.get? p.recipient = some s ∧ P.receive p.recipient s p.sender p.body = .ok r ∧
      mesh' = mesh.turned p.recipient r.state r.sent := by
  unfold hand at h
  split at h
  · cases h
  · rename_i s hs
    obtain ⟨r, hr, rfl⟩ := settle_eq_ok h
    exact ⟨s, r, hs, hr, rfl⟩

theorem modify_eq_ok {mesh mesh' : Mesh P} {node : NodeId} {f : P.State → P.State}
    (h : mesh.modify node f = .ok mesh') :
    ∃ s, mesh.nodes.get? node = some s ∧ mesh' = mesh.turned node (f s) [] := by
  unfold modify at h
  split at h
  · cases h
  · rename_i s hs
    simp only [Except.ok.injEq] at h
    exact ⟨s, hs, by simp [← h, turned]⟩

theorem toOption_map_fst {ε α β : Type} {x : Except ε (α × β)} {a : α}
    (h : x.toOption.map (·.1) = some a) : ∃ b, x = .ok (a, b) := by
  cases x with
  | error e => cases h
  | ok y =>
    simp only [Except.toOption, Option.map_some, Option.some.injEq] at h
    exact ⟨y.2, by rw [← h]⟩

theorem eq_ok_of_toOption {ε α : Type} {x : Except ε α} {a : α} (h : x.toOption = some a) :
    x = .ok a := by
  cases x with
  | error e => cases h
  | ok y =>
    simp only [Except.toOption, Option.some.injEq] at h
    rw [h]

/-- **A step makes one node act.** -/
theorem step_spec {mesh mesh' : Mesh P} {e : Event P} (h : mesh.step e = some mesh') :
    ∃ node s s' out, mesh.nodes.get? node = some s ∧ Acts mesh node s e s' out ∧
      mesh' = mesh.turned node s' out := by
  cases e with
  | input node i =>
    obtain ⟨out, h⟩ := toOption_map_fst h
    unfold input at h
    split at h
    · cases h
    · rename_i s hs
      obtain ⟨r, hr, rfl⟩ := settle_eq_ok h
      exact ⟨node, s, r.state, r.sent, hs, .input hr, rfl⟩
  | deliver k =>
    obtain ⟨p, hp, h⟩ := Option.bind_eq_some_iff.mp h
    obtain ⟨out, h⟩ := toOption_map_fst h
    obtain ⟨s, r, hs, hr, rfl⟩ := hand_eq_ok h
    exact ⟨p.recipient, s, r.state, r.sent, hs, .deliver hp rfl hr, rfl⟩
  | forge p =>
    simp only [step] at h
    split at h
    · cases h
    · rename_i hsender
      obtain ⟨out, h⟩ := toOption_map_fst h
      obtain ⟨s, r, hs, hr, rfl⟩ := hand_eq_ok h
      exact ⟨p.recipient, s, r.state, r.sent, hs, .forge (by simpa using hsender) rfl hr, rfl⟩
  | modify node f =>
    obtain ⟨s, hs, rfl⟩ := modify_eq_ok (eq_ok_of_toOption h)
    exact ⟨node, s, f s, [], hs, .modify, rfl⟩
  | restart node =>
    have h := eq_ok_of_toOption h
    unfold restart at h
    split at h
    · rename_i fresh hfresh
      obtain ⟨s, hs, rfl⟩ := modify_eq_ok h
      exact ⟨node, s, fresh, [], hs, .restart hfresh, rfl⟩
    · cases h

/-- A node that can act is a step of the mesh. -/
theorem step_of_acts {mesh : Mesh P} {node : NodeId} {s s' : P.State} {e : Event P}
    {out : List (Outgoing P.Msg)} (hs : mesh.nodes.get? node = some s)
    (h : Acts mesh node s e s' out) : mesh.step e = some (mesh.turned node s' out) := by
  cases h with
  | input h =>
    simp only [step, input, hs, h]
    rfl
  | deliver hp hto h =>
    subst hto
    simp only [step, hp, Option.bind_some, hand, hs, h]
    rfl
  | forge hp hto h =>
    subst hto
    simp only [step, hp, hand, hs, h]
    rfl
  | modify => simp [step, modify, hs, turned, Except.toOption]
  | restart h => simp [step, restart, h, modify, hs, turned, Except.toOption]

theorem mem_pool_of_step {mesh mesh' : Mesh P} {e : Event P} (h : mesh.step e = some mesh')
    {p : Packet P.Msg} (hp : p ∈ mesh.pool) : p ∈ mesh'.pool := by
  obtain ⟨node, s, s', out, -, -, rfl⟩ := step_spec h
  exact mem_pool_turned.mpr (.inl hp)

/-! ### The start -/

theorem foldlM_start {ids : List NodeId} {nodes nodes' : SortedMap NodeId P.State}
    (h : ids.foldlM (fun nodes id => do return nodes.insert id (← P.start id)) nodes =
      .ok nodes') (id : NodeId) :
    (id ∈ ids ∧ ∃ s, P.start id = .ok s ∧ nodes'.get? id = some s) ∨
      (id ∉ ids ∧ nodes'.get? id = nodes.get? id) := by
  induction ids generalizing nodes with
  | nil =>
    cases h
    exact .inr ⟨List.not_mem_nil, rfl⟩
  | cons first ids ih =>
    rw [List.foldlM_cons] at h
    cases hs : P.start first with
    | error e =>
      rw [hs] at h
      cases h
    | ok s =>
      rw [hs] at h
      rcases ih h with ⟨hmem, hstart⟩ | ⟨hnot, hget⟩
      · exact .inl ⟨List.mem_cons_of_mem _ hmem, hstart⟩
      · by_cases hid : id = first
        · subst hid
          rw [SortedMap.get?_insert_self] at hget
          exact .inl ⟨List.mem_cons_self .., s, hs, hget⟩
        · rw [SortedMap.get?_insert_ne _ _ (Ne.symm hid)] at hget
          exact .inr ⟨by simp [hid, hnot], hget⟩

theorem foldlM_start_ok {ids : List NodeId} (h : ∀ id ∈ ids, ∃ s, P.start id = .ok s)
    (nodes : SortedMap NodeId P.State) :
    ∃ nodes', ids.foldlM (fun nodes id => do return nodes.insert id (← P.start id)) nodes =
      .ok nodes' := by
  induction ids generalizing nodes with
  | nil => exact ⟨nodes, rfl⟩
  | cons first ids ih =>
    obtain ⟨⟨s, hs⟩, h⟩ := List.forall_mem_cons.mp h
    rw [List.foldlM_cons, hs]
    exact ih h _

theorem start_ok {ids : List NodeId} (h : ∀ id ∈ ids, ∃ s, P.start id = .ok s) :
    ∃ mesh, start P ids = .ok mesh := by
  obtain ⟨nodes, hnodes⟩ := foldlM_start_ok h ∅
  rw [start, hnodes]
  exact ⟨_, rfl⟩

theorem start_spec {ids : List NodeId} {mesh : Mesh P} (h : start P ids = .ok mesh) :
    mesh.pool = #[] ∧ ∀ id, (id ∈ ids ∧ ∃ s, P.start id = .ok s ∧ mesh.nodes.get? id = some s) ∨
      (id ∉ ids ∧ mesh.nodes.get? id = none) := by
  unfold start at h
  cases hnodes : ids.foldlM (fun nodes id => do return nodes.insert id (← P.start id))
      (∅ : SortedMap NodeId P.State) with
  | error e =>
    rw [hnodes] at h
    cases h
  | ok nodes =>
    rw [hnodes] at h
    cases h
    exact ⟨rfl, foldlM_start hnodes⟩

/-! ### Runs -/

structure Moment (P : Protocol) where
  before : Mesh P
  event : Event P
  after : Mesh P

/-- `Run ids may past mesh`: a mesh that started with the nodes `ids` has come to `mesh` by the
steps `past`, the latest one first, all of them events that `may` allows. -/
inductive Run (ids : List NodeId) (may : Event P → Prop) : List (Moment P) → Mesh P → Prop where
  | start {mesh} (h : Mesh.start P ids = .ok mesh) : Run ids may [] mesh
  | step {past mesh e mesh'} (hrun : Run ids may past mesh) (hmay : may e)
      (h : mesh.step e = some mesh') : Run ids may (⟨mesh, e, mesh'⟩ :: past) mesh'

def steps (mesh : Mesh P) : List (Event P) → Option (Mesh P)
  | [] => some mesh
  | e :: es => (mesh.step e).bind fun mesh => mesh.steps es

theorem Run.steps {ids : List NodeId} {may : Event P → Prop} {past : List (Moment P)}
    {mesh mesh' : Mesh P} {es : List (Event P)} (hrun : Run ids may past mesh)
    (hmay : ∀ e ∈ es, may e) (h : mesh.steps es = some mesh') :
    ∃ past', past'.map (·.event) = es.reverse ++ past.map (·.event) ∧ Run ids may past' mesh' := by
  induction es generalizing mesh past with
  | nil =>
    cases h
    exact ⟨past, rfl, hrun⟩
  | cons e es ih =>
    obtain ⟨next, hnext, h⟩ := Option.bind_eq_some_iff.mp h
    obtain ⟨past', hpast', hrun'⟩ :=
      ih (.step hrun (hmay e (List.mem_cons_self ..)) hnext)
        (fun e he => hmay e (List.mem_cons_of_mem _ he)) h
    exact ⟨past', by rw [hpast']; simp, hrun'⟩

theorem Run.exists {ids : List NodeId} {may : Event P → Prop} {es : List (Event P)}
    {test : Mesh P → Bool} (hmay : ∀ e ∈ es, may e)
    (h : ((Mesh.start P ids).toOption.bind (·.steps es)).any test = true) :
    ∃ past mesh, Run ids may past mesh ∧ past.map (·.event) = es.reverse ∧ test mesh = true := by
  obtain ⟨mesh, hmesh, htest⟩ := (Option.any_eq_true _ _).mp h
  obtain ⟨first, hfirst, hsteps⟩ := Option.bind_eq_some_iff.mp hmesh
  obtain ⟨past, hpast, hrun⟩ := (Run.start (eq_ok_of_toOption hfirst)).steps hmay hsteps
  exact ⟨past, mesh, hrun, by simpa using hpast, htest⟩

/-- The steps that a list of events makes, after `past` and like it, and where they lead. -/
def trace (mesh : Mesh P) (past : List (Moment P)) :
    List (Event P) → Option (List (Moment P) × Mesh P)
  | [] => some (past, mesh)
  | e :: es => (mesh.step e).bind fun next => next.trace (⟨mesh, e, next⟩ :: past) es

theorem Run.trace {ids : List NodeId} {may : Event P → Prop} {past past' : List (Moment P)}
    {mesh mesh' : Mesh P} {es : List (Event P)} (hrun : Run ids may past mesh)
    (hmay : ∀ e ∈ es, may e) (h : mesh.trace past es = some (past', mesh')) :
    Run ids may past' mesh' ∧ past'.map (·.event) = es.reverse ++ past.map (·.event) := by
  induction es generalizing mesh past with
  | nil =>
    cases h
    exact ⟨hrun, rfl⟩
  | cons e es ih =>
    obtain ⟨next, hnext, h⟩ := Option.bind_eq_some_iff.mp h
    obtain ⟨hfirst, hmay⟩ := List.forall_mem_cons.mp hmay
    obtain ⟨hrun', hpast'⟩ := ih (.step hrun hfirst hnext) hmay h
    exact ⟨hrun', by rw [hpast']; simp⟩

theorem Run.exists_past {ids : List NodeId} {may : Event P → Prop} {es : List (Event P)}
    {test : List (Moment P) → Bool} (hmay : ∀ e ∈ es, may e)
    (h : ((Mesh.start P ids).toOption.bind (·.trace [] es)).any (fun x => test x.1) = true) :
    ∃ past mesh, Run ids may past mesh ∧ past.map (·.event) = es.reverse ∧ test past = true := by
  obtain ⟨⟨past, mesh⟩, hpast, htest⟩ := (Option.any_eq_true _ _).mp h
  obtain ⟨first, hfirst, hpast⟩ := Option.bind_eq_some_iff.mp hpast
  obtain ⟨hrun, hevents⟩ := (Run.start (eq_ok_of_toOption hfirst)).trace hmay hpast
  exact ⟨past, mesh, hrun, by simpa using hevents, htest⟩

section
variable {ids : List NodeId} {may : Event P → Prop} {past : List (Moment P)} {mesh : Mesh P}

theorem Run.nodes_isSome (hrun : Run ids may past mesh) (id : NodeId) :
    (mesh.nodes.get? id).isSome ↔ id ∈ ids := by
  induction hrun with
  | start h =>
    rcases (start_spec h).2 id with ⟨hmem, s, -, hs⟩ | ⟨hnot, hnone⟩
    · simp [hs, hmem]
    · simp [hnone, hnot]
  | step _ _ h ih =>
    obtain ⟨node, s, s', out, hs, -, rfl⟩ := step_spec h
    rw [isSome_get?_turned s' out hs, ih]

theorem Run.sender_isSome (hrun : Run ids may past mesh) {p : Packet P.Msg} (hp : p ∈ mesh.pool) :
    (mesh.nodes.get? p.sender).isSome := by
  rw [hrun.nodes_isSome]
  induction hrun with
  | start h =>
    rw [(start_spec h).1] at hp
    exact absurd hp (Array.not_mem_empty p)
  | step hrun _ h ih =>
    obtain ⟨node, s, s', out, hs, -, rfl⟩ := step_spec h
    rcases mem_pool_turned.mp hp with hp | ⟨hsender, -⟩
    · exact ih hp
    · rw [← hrun.nodes_isSome, hsender, hs]
      rfl

theorem Run.step_of_mem (hrun : Run ids may past mesh) {x : Moment P} (hx : x ∈ past) :
    x.before.step x.event = some x.after ∧ may x.event := by
  induction hrun with
  | start h => cases hx
  | step hrun hmay h ih =>
    rcases List.mem_cons.mp hx with rfl | hx
    · exact ⟨h, hmay⟩
    · exact ih hx

theorem Run.mono {may' : Event P → Prop} (hrun : Run ids may past mesh)
    (h : ∀ e, may e → may' e) : Run ids may' past mesh := by
  induction hrun with
  | start hstart => exact .start hstart
  | step _ hmay hstep ih => exact ih.step (h _ hmay) hstep

theorem Run.split {later : List (Moment P)} {x : Moment P}
    (hrun : Run ids may (later ++ x :: past) mesh) :
    Run ids may past x.before ∧ x.before.step x.event = some x.after ∧ may x.event ∧
      Run ids may (x :: past) x.after := by
  induction later generalizing mesh with
  | nil =>
    cases hrun with
    | step hrun hmay h => exact ⟨hrun, h, hmay, hrun.step hmay h⟩
  | cons y later ih =>
    cases hrun with
    | step hrun hmay h => exact ih hrun

theorem Run.getElem?_pool (hrun : Run ids may past mesh) {x : Moment P} (hx : x ∈ past) {k : Nat}
    {p : Packet P.Msg} (hp : x.before.pool[k]? = some p) : mesh.pool[k]? = some p := by
  induction hrun with
  | start h => cases hx
  | step hrun _ h ih =>
    obtain ⟨node, s, s', out, -, -, rfl⟩ := step_spec h
    rw [getElem?_pool_turned_iff]
    rcases List.mem_cons.mp hx with rfl | hx
    · exact .inl hp
    · exact .inl (ih hx)

theorem Run.size_pool_le (hrun : Run ids may past mesh) {x : Moment P} (hx : x ∈ past) :
    x.before.pool.size ≤ mesh.pool.size := by
  induction hrun with
  | start h => cases hx
  | step hrun _ h ih =>
    obtain ⟨node, s, s', out, -, -, rfl⟩ := step_spec h
    rw [size_pool_turned]
    rcases List.mem_cons.mp hx with rfl | hx
    · exact Nat.le_add_right _ _
    · exact Nat.le_add_right_of_le (ih hx)

/-- A message that has been delivered is in the pool. -/
theorem Run.delivered_lt (hrun : Run ids may past mesh) {x : Moment P} (hx : x ∈ past) {k : Nat}
    (hk : x.event = .deliver k) : k < mesh.pool.size := by
  induction hrun with
  | start h => cases hx
  | step hrun _ h ih =>
    obtain ⟨node, s, s', out, hs, hacts, rfl⟩ := step_spec h
    rw [size_pool_turned]
    rcases List.mem_cons.mp hx with rfl | hx
    · cases hk
      cases hacts with
      | deliver hp hto _ =>
        have := (Array.getElem?_eq_some_iff.mp hp).1
        omega
    · have := ih hx
      omega

/-- **What a delivery brings about lasts**, if no later event undoes it. -/
theorem Run.of_delivered (hrun : Run ids may past mesh) {k : Nat}
    (harrived : ∃ x ∈ past, x.event = .deliver k) {p : Packet P.Msg} (hp : mesh.pool[k]? = some p)
    {Q : P.State → Prop}
    (hreceive : ∀ s r, P.receive p.recipient s p.sender p.body = .ok r → Q r.state)
    (hkeep : ∀ mesh s e s' out, may e → Acts mesh p.recipient s e s' out → Q s → Q s')
    {s : P.State} (hs : mesh.nodes.get? p.recipient = some s) : Q s := by
  induction hrun generalizing s with
  | start h =>
    obtain ⟨x, hx, -⟩ := harrived
    cases hx
  | @step past mesh e mesh' hrun hmay h ih =>
    obtain ⟨node, t, t', out, ht, hacts, rfl⟩ := step_spec h
    obtain ⟨x, hx, hevent⟩ := harrived
    rcases List.mem_cons.mp hx with rfl | hearlier
    · -- the delivery is the last event, and its node the recipient
      cases hevent
      cases hacts with
      | deliver hq hto hr =>
        have hlt := (Array.getElem?_eq_some_iff.mp hq).1
        have hpq := hp.symm.trans ((getElem?_pool_turned hlt).trans hq)
        cases hpq
        subst hto
        rw [get?_turned_self] at hs
        cases hs
        exact hreceive _ _ hr
    · have hlt := hrun.delivered_lt hearlier hevent
      have hold : mesh.pool[k]? = some p := (getElem?_pool_turned hlt).symm.trans hp
      have hbefore := @ih ⟨x, hearlier, hevent⟩ hold
      rcases get?_turned_cases hs with ⟨rfl, rfl⟩ | ⟨-, hs⟩
      · exact hkeep mesh t e t' out hmay hacts (hbefore ht)
      · exact hbefore hs

end

/-- What every node starts with, and no input or message takes away, holds of every node. -/
theorem Run.node_invariant {ids : List NodeId} {past : List (Moment P)} {mesh : Mesh P}
    (hrun : Run ids Event.IsAsynchronous past mesh) {Q : NodeId → P.State → Prop}
    (hstart : ∀ id s, P.start id = .ok s → Q id s)
    (hinput : ∀ id s i r, P.input id s i = .ok r → Q id s → Q id r.state)
    (hreceive : ∀ id s x m r, P.receive id s x m = .ok r → Q id s → Q id r.state)
    {id : NodeId} {s : P.State} (hs : mesh.nodes.get? id = some s) : Q id s := by
  induction hrun generalizing id s with
  | start h =>
    rcases (start_spec h).2 id with ⟨-, t, ht, hget⟩ | ⟨-, hnone⟩
    · cases hs.symm.trans hget
      exact hstart id s ht
    · rw [hnone] at hs
      cases hs
  | step hrun hmay h ih =>
    obtain ⟨node, t, t', out, ht, hacts, rfl⟩ := step_spec h
    rcases get?_turned_cases hs with ⟨rfl, rfl⟩ | ⟨-, hs⟩
    · rcases hacts.asynchronous hmay with ⟨i, r, -, hr, rfl, -⟩ | ⟨p, r, -, -, hr, rfl, -⟩
      · exact hinput node t i r hr (ih ht)
      · exact hreceive node t p.sender p.body r hr (ih ht)
    · exact ih hs

/-- Everything that nodes have sent to nodes has arrived. -/
def AllArrived (past : List (Moment P)) (mesh : Mesh P) : Prop :=
  ∀ k p, mesh.pool[k]? = some p → (mesh.nodes.get? p.recipient).isSome →
    ∃ x ∈ past, x.event = .deliver k

def Arrived (past : List (Moment P)) (mesh : Mesh P) (p : Packet P.Msg) : Prop :=
  ∃ k, mesh.pool[k]? = some p ∧ ∃ x ∈ past, x.event = .deliver k

theorem AllArrived.arrived {past : List (Moment P)} {mesh : Mesh P} (h : AllArrived past mesh)
    {p : Packet P.Msg} (hp : p ∈ mesh.pool) (hnode : (mesh.nodes.get? p.recipient).isSome) :
    Arrived past mesh p := by
  obtain ⟨k, hk⟩ := Array.getElem?_of_mem hp
  exact ⟨k, hk, h k p hk hnode⟩

/-- What has arrived after a step had arrived before, or was delivered by the step. -/
theorem arrived_step {ids : List NodeId} {may : Event P → Prop} {past : List (Moment P)}
    {mesh mesh' : Mesh P} {e : Event P} (hrun : Run ids may past mesh)
    (h : mesh.step e = some mesh') {p : Packet P.Msg} :
    Arrived (⟨mesh, e, mesh'⟩ :: past) mesh' p ↔
      Arrived past mesh p ∨ ∃ k, e = .deliver k ∧ mesh.pool[k]? = some p := by
  obtain ⟨node, s, s', out, hs, hacts, rfl⟩ := step_spec h
  constructor
  · rintro ⟨k, hk, x, hx, hevent⟩
    rcases List.mem_cons.mp hx with rfl | hx
    · right
      cases hevent
      cases hacts with
      | deliver hq hto hr =>
        have hlt := (Array.getElem?_eq_some_iff.mp hq).1
        exact ⟨k, rfl, (getElem?_pool_turned hlt).symm.trans hk⟩
    · have hlt := hrun.delivered_lt hx hevent
      exact .inl ⟨k, (getElem?_pool_turned hlt).symm.trans hk, x, hx, hevent⟩
  · rintro (⟨k, hk, x, hx, hevent⟩ | ⟨k, rfl, hk⟩)
    · have hlt := (Array.getElem?_eq_some_iff.mp hk).1
      exact ⟨k, (getElem?_pool_turned hlt).trans hk, x, List.mem_cons_of_mem _ hx, hevent⟩
    · have hlt := (Array.getElem?_eq_some_iff.mp hk).1
      exact ⟨k, (getElem?_pool_turned hlt).trans hk, _, List.mem_cons_self .., rfl⟩

theorem allArrived_of_arrived {past : List (Moment P)} {mesh : Mesh P}
    (hnodup : mesh.pool.toList.Nodup)
    (h : ∀ p ∈ mesh.pool, (mesh.nodes.get? p.recipient).isSome → Arrived past mesh p) :
    AllArrived past mesh := by
  intro k p hk hnode
  obtain ⟨k', hk', hdelivered⟩ := h p (Array.mem_of_getElem? hk) hnode
  rw [← Array.getElem?_toList] at hk hk'
  have hlt := (List.getElem?_eq_some_iff.mp hk').1
  rwa [← (List.getElem?_inj hlt hnodup).mp (hk'.trans hk.symm)]

def Event.isDelivery (k : Nat) : Event P → Bool
  | .deliver k' => k' = k
  | _ => false

theorem Event.eq_deliver {k : Nat} {e : Event P} (h : e.isDelivery k = true) : e = .deliver k := by
  cases e with
  | deliver k' => rw [of_decide_eq_true h]
  | _ => cases h

def deliversAll (es : List (Event P)) (mesh : Mesh P) : Bool :=
  (List.range mesh.pool.size).all fun k =>
    mesh.pool[k]?.all fun p => (mesh.nodes.get? p.recipient).isNone || es.any (·.isDelivery k)

theorem exists_event_iff {past : List (Moment P)} {es : List (Event P)}
    (hpast : past.map (·.event) = es.reverse) {e : Event P} :
    (∃ x ∈ past, x.event = e) ↔ e ∈ es := by
  rw [← List.mem_reverse, ← hpast, List.mem_map]

theorem allArrived_of_deliversAll {past : List (Moment P)} {mesh : Mesh P} {es : List (Event P)}
    (hpast : past.map (·.event) = es.reverse) (h : deliversAll es mesh = true) :
    AllArrived past mesh := by
  intro k p hp hnode
  have hk := (Array.getElem?_eq_some_iff.mp hp).1
  have hall := List.all_eq_true.mp h k (List.mem_range.mpr hk)
  rw [hp, Option.all_some, Bool.or_eq_true] at hall
  rcases hall with hnone | hany
  · rw [Option.isNone_iff_eq_none.mp hnone] at hnode
    cases hnode
  · obtain ⟨e, he, hdelivery⟩ := List.any_eq_true.mp hany
    exact (exists_event_iff hpast).mpr (Event.eq_deliver hdelivery ▸ he)

end Mesh

end Quorum
