import Quorum.Proofs.Reliable.Reaction
import Quorum.Proofs.Run

/-!
# Network — reliable channels over a network that loses and reorders

A node of the mesh reacts to an input or to a message of the pool, which may arrive late, again or
never.  Seen from the channel of `a` to `b`, each step of the mesh is a passage: a batch of `b`
may arrive at `a`, and `a` may send to `b`.

**Main statements.**  `passage_of_step`: every step is a passage on every channel.
`heard_of_step`: every step hands over one whole batch, in order, or nothing.
-/

namespace Quorum

namespace Mesh

/-- What a function of the state tells about a node; `default` where there is no node. -/
def view {P : Protocol} {α : Type} (mesh : Mesh P) (f : P.State → α) (default : α) (a : NodeId) :
    α :=
  ((mesh.nodes.get? a).map f).getD default

section
variable {P : Protocol} {α : Type} {mesh : Mesh P} {node : NodeId} {s : P.State}

theorem view_of_get? {f : P.State → α} {default : α} (h : mesh.nodes.get? node = some s) :
    mesh.view f default node = f s := by
  rw [view, h]
  rfl

theorem view_turned_self (mesh : Mesh P) (node : NodeId) (s : P.State)
    (out : List (Outgoing P.Msg)) (f : P.State → α) (default : α) :
    (mesh.turned node s out).view f default node = f s :=
  view_of_get? (get?_turned_self mesh node s out)

theorem view_turned_ne (mesh : Mesh P) {node a : NodeId} (s : P.State)
    (out : List (Outgoing P.Msg)) (f : P.State → α) (default : α) (h : node ≠ a) :
    (mesh.turned node s out).view f default a = mesh.view f default a := by
  rw [view, get?_turned_ne mesh s out h]
  rfl

theorem view_turned_of_eq (hs : mesh.nodes.get? node = some s) {s' : P.State}
    (out : List (Outgoing P.Msg)) {f : P.State → α} (default : α) (hf : f s' = f s) (a : NodeId) :
    (mesh.turned node s' out).view f default a = mesh.view f default a := by
  by_cases ha : node = a
  · subst ha
    rw [view_turned_self, view_of_get? hs, hf]
  · rw [view_turned_ne _ _ _ _ _ ha]

end

section
variable {P : Protocol} {period : Reliable.Time}

def channel (mesh : Mesh (P.recorded.reliable period)) (a b : NodeId) : Reliable.Link P.Msg :=
  mesh.view (Reliable.State.link (P := P.recorded) · b) {} a

def heard (mesh : Mesh (P.recorded.reliable period)) (b : NodeId) : List (NodeId × P.Msg) :=
  mesh.view Reliable.State.heard [] b

def told (mesh : Mesh (P.recorded.reliable period)) (a : NodeId) : List (Outgoing P.Msg) :=
  mesh.view Reliable.State.told [] a

def dismissed (mesh : Mesh (P.recorded.reliable period)) (a : NodeId) : List NodeId :=
  mesh.view Reliable.State.dismissed [] a

end

end Mesh

namespace Reliable

open Mesh

variable {P : Protocol} {period : Time} {mesh mesh' : Mesh (P.recorded.reliable period)}
  {e : Event (P.recorded.reliable period)}

/-- Nothing but inputs and deliveries: the network may lose, reorder and duplicate, and no node
restarts or takes another one for gone. -/
def IsSteady : Event (P.recorded.reliable period) → Prop
  | .input .. | .deliver .. => True
  | .forge .. | .modify .. | .restart .. => False

/-- A batch from `a` arrives at `b`, which listens to `a`. -/
def Arrives (mesh : Mesh (P.recorded.reliable period)) (e : Event (P.recorded.reliable period))
    (a b : NodeId) (β : Batch P.Msg) : Prop :=
  a ∉ mesh.dismissed b ∧ ∃ k, e = .deliver k ∧ mesh.pool[k]? = some ⟨a, b, .batch β⟩

/-- A step is an exchange of one node. -/
theorem exchange_of_step (h : mesh.step e = some mesh') (he : IsSteady e) :
    ∃ node s came news s' sent, mesh.nodes.get? node = some s ∧ Exchange s came news s' sent ∧
      mesh' = mesh.turned node s' sent ∧
      ∀ a b m, (came = some (a, m) ∧ node = b) ↔
        ∃ k, e = .deliver k ∧ mesh.pool[k]? = some ⟨a, b, m⟩ := by
  obtain ⟨node, s, s', sent, hs, hacts, rfl⟩ := step_spec h
  cases hacts with
  | input hinput =>
    obtain ⟨news, hex⟩ := input_exchange hinput
    refine ⟨node, s, none, news, _, _, hs, hex, rfl, fun a b m => ⟨?_, ?_⟩⟩
    · rintro ⟨hcame, -⟩
      cases hcame
    · rintro ⟨k, hk, -⟩
      cases hk
  | @deliver k p r hp hto hreceive =>
    obtain ⟨news, hex⟩ := receive_exchange hreceive
    refine ⟨node, s, some (p.sender, p.body), news, _, _, hs, hex, rfl, fun a b m => ⟨?_, ?_⟩⟩
    · rintro ⟨hcame, hnode⟩
      cases hcame
      exact ⟨k, rfl, by rw [hp, ← hnode, ← hto]⟩
    · rintro ⟨k', hk, hpool⟩
      cases hk
      rw [hp] at hpool
      cases hpool
      exact ⟨rfl, hto.symm⟩
  | forge => cases he
  | modify => cases he
  | restart => cases he

/-- What a step means for the channel of `a` to `b`: the nested automaton of `a` has sent `news`,
of which the part for `b` goes to the channel, and messages `ms` have been sent to `b`. -/
structure Passage (mesh mesh' : Mesh (P.recorded.reliable period))
    (e : Event (P.recorded.reliable period)) (a b : NodeId) (arrived : Option (Batch P.Msg))
    (news : List (Outgoing P.Msg)) (new : List (Batch P.Msg)) (ms : List (Message P.Msg)) :
    Prop where
  told : mesh'.told a = mesh.told a ++ news
  turn : (mesh.channel a b).Turn arrived
    (if b ∈ mesh.dismissed a then [] else addressedTo b news) new (mesh'.channel a b) ms
  pool : ∀ m, ⟨a, b, m⟩ ∈ mesh'.pool ↔ ⟨a, b, m⟩ ∈ mesh.pool ∨ m ∈ ms
  arrived : ∀ β, arrived = some β ↔ Arrives mesh e b a β

theorem not_arrives_of_ne {node : NodeId} {came : Option (NodeId × Message P.Msg)}
    (hcame : ∀ a b m, (came = some (a, m) ∧ node = b) ↔
      ∃ k, e = .deliver k ∧ mesh.pool[k]? = some ⟨a, b, m⟩)
    {a b : NodeId} (hne : node ≠ a) (β : Batch P.Msg) : ¬ Arrives mesh e b a β := by
  rintro ⟨-, hdelivered⟩
  exact hne ((hcame b a (.batch β)).mpr hdelivered).2

/-- **A step is a passage on every channel.** -/
theorem passage_of_step (h : mesh.step e = some mesh') (he : IsSteady e) (a b : NodeId) :
    ∃ arrived news new ms, Passage mesh mesh' e a b arrived news new ms := by
  obtain ⟨node, s, came, news, s', sent, hs, hex, rfl, hcame⟩ := exchange_of_step h he
  by_cases ha : node = a
  · subst ha
    obtain ⟨new, hturn⟩ := hex.turn b
    refine ⟨s.arrival came b, news, new, addressedTo b sent,
      { told := ?_
        turn := ?_
        pool := fun m => ?_
        arrived := fun β => ?_ }⟩
    · rw [Mesh.told, Mesh.told, view_turned_self, view_of_get? hs, hex.told]
    · rw [Mesh.channel, Mesh.channel, Mesh.dismissed, view_turned_self, view_of_get? hs,
        view_of_get? hs]
      exact hturn
    · rw [mem_pool_turned, mem_addressedTo]
      simp only [true_and]
    · rw [arrival_eq_some, Arrives, Mesh.dismissed, view_of_get? hs, ← hcame b node (.batch β)]
      simp only [and_true]
  · refine ⟨none, [], [], [],
      { told := ?_
        turn := ?_
        pool := fun m => ?_
        arrived := fun β => ?_ }⟩
    · rw [Mesh.told, view_turned_ne _ _ _ _ _ ha, List.append_nil]
      rfl
    · rw [Mesh.channel, Mesh.channel, view_turned_ne _ _ _ _ _ ha, addressedTo_nil, ite_self]
      exact Link.Turn.refl _
    · rw [mem_pool_turned]
      simp only [Ne.symm ha, false_and, List.not_mem_nil]
    · exact ⟨nofun, fun harrives => absurd harrives (not_arrives_of_ne hcame ha β)⟩

/-- Every batch with a number that may be on its way from `a` to `b`, or may be sent again, is one
of `bs`. -/
structure Stock (mesh : Mesh (P.recorded.reliable period)) (a b : NodeId)
    (bs : List (Batch P.Msg)) : Prop where
  pooled : ∀ β, ⟨a, b, .batch β⟩ ∈ mesh.pool → β.id ≠ none → β ∈ bs
  kept : ∀ i kept, (mesh.channel a b).unacked.get? i = some kept → kept.batch ∈ bs

/-- What is sent is from the stock, or new. -/
theorem Stock.passage {a b : NodeId} {bs : List (Batch P.Msg)} {arrived : Option (Batch P.Msg)}
    {news : List (Outgoing P.Msg)} {new : List (Batch P.Msg)} {ms : List (Message P.Msg)}
    (hstock : Stock mesh a b bs) (hpassage : Passage mesh mesh' e a b arrived news new ms) :
    Stock mesh' a b (bs ++ new) where
  pooled := fun β hβ hid => by
    rcases (hpassage.pool _).mp hβ with hβ | hβ
    · exact List.mem_append_left _ (hstock.pooled β hβ hid)
    · rcases hpassage.turn.sends β hβ with hnew | ⟨i, kept, hkept, rfl⟩ | ⟨hnone, -⟩
      · exact List.mem_append_right _ hnew
      · exact List.mem_append_left _ (hstock.kept i kept hkept)
      · exact absurd hnone hid
  kept := fun i kept' hkept' => by
    rcases hpassage.turn.keeps i kept' hkept' with hnew | ⟨kept, hkept, hsame⟩
    · exact List.mem_append_right _ hnew
    · exact List.mem_append_left _ (hsame ▸ hstock.kept i kept hkept)

/-- **A step hands over one whole batch of a fresh number, in order, or nothing.** -/
theorem heard_of_step (h : mesh.step e = some mesh') (he : IsSteady e) (b : NodeId) :
    (∃ a β id, Arrives mesh e a b β ∧ β.id = some id ∧
        ¬ (mesh.channel b a).received.contains id ∧
        mesh'.heard b = mesh.heard b ++ β.msgs.map (a, ·)) ∨
      ((∀ a β id, Arrives mesh e a b β → β.id = some id →
        (mesh.channel b a).received.contains id) ∧ mesh'.heard b = mesh.heard b) := by
  obtain ⟨node, s, came, news, s', sent, hs, hex, rfl, hcame⟩ := exchange_of_step h he
  by_cases hb : node = b
  · subst hb
    have hchannel : ∀ a, mesh.channel node a = State.link s a := fun a => view_of_get? hs
    have hdismissed : mesh.dismissed node = State.dismissed s := view_of_get? hs
    rw [Mesh.heard, Mesh.heard, view_turned_self, view_of_get? hs]
    rcases hex.heard with ⟨a, β, hβ, ⟨ha, id, hid, hfresh⟩, hheard⟩ | ⟨hnone, hheard⟩
    · refine .inl ⟨a, β, id, ⟨hdismissed ▸ ha, (hcame a node _).mp ⟨hβ, rfl⟩⟩, hid, ?_, hheard⟩
      rw [hchannel]
      exact hfresh
    · refine .inr ⟨fun a β id ⟨ha, hdelivered⟩ hid => ?_, hheard⟩
      by_contra hfresh
      rw [hchannel] at hfresh
      exact hnone a β ((hcame a node _).mpr hdelivered).1 ⟨hdismissed ▸ ha, id, hid, hfresh⟩
  · rw [Mesh.heard, view_turned_ne _ _ _ _ _ hb]
    exact .inr ⟨fun a β id harrives => absurd harrives (not_arrives_of_ne hcame hb β), rfl⟩

theorem dismissed_of_step (h : mesh.step e = some mesh') (he : IsSteady e) (a : NodeId) :
    mesh'.dismissed a = mesh.dismissed a := by
  obtain ⟨node, s, came, news, s', sent, hs, hex, rfl, -⟩ := exchange_of_step h he
  exact view_turned_of_eq hs sent [] hex.dismissed a

/-! ### The start -/

theorem start_eq_ok {node : NodeId} {s : State P.recorded}
    (h : (P.recorded.reliable period).start node = .ok s) :
    (∀ q, s.link q = {}) ∧ s.heard = [] ∧ s.told = [] ∧ s.dismissed = [] := by
  obtain ⟨nested, hnested, rfl⟩ := map_eq_ok h
  obtain ⟨hreceived, hsent⟩ := recorded_start hnested
  exact ⟨fun _ => rfl, hreceived, hsent, rfl⟩

theorem start_views {ids : List NodeId}
    (h : Mesh.start (P.recorded.reliable period) ids = .ok mesh) :
    mesh.pool = #[] ∧ ∀ a, (∀ b, mesh.channel a b = {}) ∧ mesh.heard a = [] ∧
      mesh.told a = [] ∧ mesh.dismissed a = [] := by
  obtain ⟨hpool, hnodes⟩ := start_spec h
  refine ⟨hpool, fun a => ?_⟩
  unfold Mesh.channel Mesh.heard Mesh.told Mesh.dismissed view
  rcases hnodes a with ⟨-, s, hs, hget⟩ | ⟨-, hnone⟩
  · rw [hget]
    exact start_eq_ok hs
  · rw [hnone]
    exact ⟨fun _ => rfl, rfl, rfl, rfl⟩

theorem stock_start {ids : List NodeId}
    (h : Mesh.start (P.recorded.reliable period) ids = .ok mesh) (a b : NodeId) :
    Stock mesh a b [] := by
  obtain ⟨hpool, hviews⟩ := start_views h
  refine { pooled := fun β hβ => ?_, kept := fun i kept hkept => ?_ }
  · rw [hpool] at hβ
    exact absurd hβ (Array.not_mem_empty _)
  · rw [(hviews a).1] at hkept
    cases hkept

end Reliable

end Quorum
