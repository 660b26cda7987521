import Mathlib.Data.List.Count
import Mathlib.Data.List.Flatten
import Mathlib.Data.List.Perm.Subperm
import Quorum.PingPong
import Quorum.Proofs.Reliable.Network

/-!
# AtMostOnce — reliable channels neither create nor duplicate

The network may lose, reorder and duplicate; nodes may restart, and may take others for gone.  Even
so, a nested message reaches the nested automaton of its recipient no more often than it was sent,
and the messages of a batch reach it together.

Two invariants meet in this.  On the side of the sender, the batches that ever got a number, over
all its incarnations, hold no more than was sent (`Supply`).  On the side of the receiver, what has
been handed over is the contents of some of these batches, and no two of them have the same sender
and number (`Deliveries`).  A number may be used again after a restart of the sender, and one of
the two batches is then lost; that is why the second invariant is about numbers and the first one
is not.

**Main statements.**  `supply_of_run`, `deliveries_of_run`: the invariants.
`neither_creates_nor_duplicates`: what they come to.
-/

namespace Quorum

namespace Mesh

def Event.isRestart {P : Protocol} (node : NodeId) : Event P → Bool
  | .restart node' => node' = node
  | _ => false

theorem Event.isRestart_eq_false {P : Protocol} {node : NodeId} {e : Event P} :
    e.isRestart node = false ↔ e ≠ .restart node := by
  cases e with
  | restart node' => rw [isRestart, decide_eq_false_iff_not, ne_eq, Event.restart.injEq]
  | _ => exact iff_of_true rfl nofun

end Mesh

namespace Reliable

open Mesh

variable {P : Protocol} {period : Time} {mesh mesh' : Mesh (P.recorded.reliable period)}
  {e : Event (P.recorded.reliable period)} {ids : List NodeId}
  {past : List (Moment (P.recorded.reliable period))}

/-- What may happen to nodes that follow the protocol: inputs, deliveries, restarts, and that a
node takes another one for gone. -/
def IsLossy : Event (P.recorded.reliable period) → Prop
  | .input .. | .deliver .. | .restart .. => True
  | .modify _ f => ∃ peer, f = (State.dismiss · peer)
  | .forge .. => False

/-- What the nested automata of a node sent before its last restart. -/
def toldBefore (past : List (Moment (P.recorded.reliable period))) (a : NodeId) :
    List (Outgoing P.Msg) :=
  past.flatMap fun x => if x.event.isRestart a then x.before.told a else []

/-- What the nested automata of a node have sent, over all its incarnations. -/
def toldEver (past : List (Moment (P.recorded.reliable period)))
    (mesh : Mesh (P.recorded.reliable period)) (a : NodeId) : List (Outgoing P.Msg) :=
  toldBefore past a ++ mesh.told a

/-! ### Steps of all kinds -/

/-- Besides steady steps, a node may forget a peer, or everything. -/
theorem lossy_cases (h : mesh.step e = some mesh') (he : IsLossy e) :
    IsSteady e ∨
      (∃ node peer s, e = .modify node (State.dismiss · peer) ∧ mesh.nodes.get? node = some s ∧
        mesh' = mesh.turned node (State.dismiss s peer) []) ∨
      ∃ node s s', e = .restart node ∧ mesh.nodes.get? node = some s ∧
        (P.recorded.reliable period).start node = .ok s' ∧ mesh' = mesh.turned node s' [] := by
  obtain ⟨node, s, s', out, hs, hacts, rfl⟩ := step_spec h
  cases hacts with
  | input => exact .inl trivial
  | deliver => exact .inl trivial
  | forge => cases he
  | modify =>
    obtain ⟨peer, rfl⟩ := he
    exact .inr (.inl ⟨node, peer, s, rfl, hs, rfl⟩)
  | restart hstart => exact .inr (.inr ⟨node, s, s', rfl, hs, hstart, rfl⟩)

theorem mem_pool_turned_nil {node : NodeId} {s : State P.recorded}
    {p : Packet (Message P.Msg)} :
    p ∈ (mesh.turned node s []).pool ↔ p ∈ mesh.pool :=
  mem_pool_turned.trans ⟨fun h => h.resolve_right fun hsent => List.not_mem_nil hsent.2, .inl⟩

theorem channel_dismiss {node peer : NodeId} {s : State P.recorded}
    (hs : mesh.nodes.get? node = some s) (a b : NodeId) :
    (mesh.turned node (s.dismiss peer) []).channel a b = mesh.channel a b ∨
      (mesh.turned node (s.dismiss peer) []).channel a b = {} := by
  by_cases ha : node = a
  · subst ha
    rw [Mesh.channel, Mesh.channel, view_turned_self, view_of_get? hs, link_dismiss]
    split
    · exact .inr rfl
    · exact .inl rfl
  · rw [Mesh.channel, view_turned_ne _ _ _ _ _ ha]
    exact .inl rfl

/-! ### The sender -/

/-- The batches of `a` for `b` that ever got a number, over all incarnations of `a`: all that may
still be on its way is among them, and with what waits they hold no more than was sent. -/
structure Supply (past : List (Moment (P.recorded.reliable period)))
    (mesh : Mesh (P.recorded.reliable period)) (a b : NodeId) (bs : List (Batch P.Msg)) : Prop
    extends Stock mesh a b bs where
  covered : (bs.flatMap (·.msgs) ++ (mesh.channel a b).pending.toList).Subperm
    (addressedTo b (toldEver past mesh a))

/-- A batch got its number from the sender. -/
theorem Supply.passage {a b : NodeId} {bs : List (Batch P.Msg)} (hsupply : Supply past mesh a b bs)
    (h : mesh.step e = some mesh') (he : IsSteady e) :
    ∃ bs', Supply (⟨mesh, e, mesh'⟩ :: past) mesh' a b bs' := by
  obtain ⟨arrived, news, new, ms, hpassage⟩ := passage_of_step h he a b
  have hever : toldEver (⟨mesh, e, mesh'⟩ :: past) mesh' a = toldEver past mesh a ++ news := by
    have hnone : e.isRestart a = false := Event.isRestart_eq_false.mpr fun hrestart => by
      rw [hrestart] at he
      exact he
    rw [toldEver, toldBefore, List.flatMap_cons, if_neg (by simp [hnone]), hpassage.told,
      List.nil_append, ← List.append_assoc]
    rfl
  have hnews : (if b ∈ mesh.dismissed a then [] else addressedTo b news).Subperm
      (addressedTo b news) := by
    split
    · exact List.nil_subperm
    · exact List.Subperm.refl _
  have hconserved := hpassage.turn.conserved.append_left (bs.flatMap (·.msgs))
  rw [← List.append_assoc, ← List.append_assoc, ← List.flatMap_append] at hconserved
  refine ⟨bs ++ new, hsupply.toStock.passage hpassage, ?_⟩
  rw [hever, addressedTo_append]
  exact hconserved.subperm.trans (hsupply.covered.append hnews)

/-- A channel that is lost loses what waited in it, and nothing else. -/
theorem Supply.of_channel {a b : NodeId} {bs : List (Batch P.Msg)}
    {past' : List (Moment (P.recorded.reliable period))} (hsupply : Supply past mesh a b bs)
    (hpool : ∀ p, p ∈ mesh'.pool → p ∈ mesh.pool)
    (hchannel : mesh'.channel a b = mesh.channel a b ∨ mesh'.channel a b = {})
    (hever : (toldEver past mesh a).Perm (toldEver past' mesh' a)) :
    Supply past' mesh' a b bs := by
  have haddressed : (addressedTo b (toldEver past mesh a)).Subperm
      (addressedTo b (toldEver past' mesh' a)) :=
    ((hever.filter _).map _).subperm
  have hcovered := hsupply.covered.trans haddressed
  refine
    { pooled := fun β hβ hid => hsupply.pooled β (hpool _ hβ) hid
      kept := fun i kept hkept => ?_
      covered := ?_ }
  · rcases hchannel with hchannel | hchannel
    · exact hsupply.kept i kept (hchannel ▸ hkept)
    · rw [hchannel] at hkept
      cases hkept
  · rcases hchannel with hchannel | hchannel
    · rw [hchannel]
      exact hcovered
    · rw [hchannel]
      refine (List.Sublist.subperm ?_).trans hcovered
      exact (List.Sublist.refl _).append (List.nil_sublist _)

theorem Supply.dismiss {node peer a b : NodeId} {s : State P.recorded} {bs : List (Batch P.Msg)}
    (hsupply : Supply past mesh a b bs) (hs : mesh.nodes.get? node = some s) :
    Supply (⟨mesh, .modify node (State.dismiss · peer), mesh.turned node (s.dismiss peer) []⟩ ::
      past) (mesh.turned node (s.dismiss peer) []) a b bs := by
  have htold : (mesh.turned node (s.dismiss peer) []).told a = mesh.told a :=
    view_turned_of_eq hs [] [] (show (s.dismiss peer).told = s.told from rfl) a
  refine hsupply.of_channel (fun p => mem_pool_turned_nil.mp) (channel_dismiss hs a b) ?_
  rw [toldEver, toldEver, htold, toldBefore, toldBefore, List.flatMap_cons]
  exact List.Perm.refl _

theorem Supply.restart {node a b : NodeId} {s' : State P.recorded} {bs : List (Batch P.Msg)}
    (hsupply : Supply past mesh a b bs)
    (hstart : (P.recorded.reliable period).start node = .ok s') :
    Supply (⟨mesh, .restart node, mesh.turned node s' []⟩ :: past) (mesh.turned node s' [])
      a b bs := by
  by_cases ha : node = a
  · -- what the last incarnation sent becomes history
    subst ha
    obtain ⟨hlink, -, htold, -⟩ := start_eq_ok hstart
    refine hsupply.of_channel (fun p => mem_pool_turned_nil.mp) (.inr ?_) ?_
    · rw [Mesh.channel, view_turned_self, hlink]
    · rw [toldEver, toldEver, toldBefore, toldBefore, List.flatMap_cons,
        if_pos (by simp [Event.isRestart]), Mesh.told, Mesh.told, view_turned_self, htold,
        List.append_nil]
      exact List.perm_append_comm
  · refine hsupply.of_channel (fun p => mem_pool_turned_nil.mp) (.inl ?_) ?_
    · rw [Mesh.channel, view_turned_ne _ _ _ _ _ ha]
      rfl
    · rw [toldEver, toldEver, toldBefore, toldBefore, List.flatMap_cons,
        if_neg (by simp [Event.isRestart, ha]), Mesh.told, Mesh.told,
        view_turned_ne _ _ _ _ _ ha]
      exact List.Perm.refl _

/-- **What has a number was sent.** -/
theorem supply_of_run (hrun : Run ids IsLossy past mesh) (a b : NodeId) :
    ∃ bs, Supply past mesh a b bs := by
  induction hrun with
  | start h =>
    obtain ⟨-, hviews⟩ := start_views h
    refine ⟨[], stock_start h a b, ?_⟩
    rw [(hviews a).1]
    exact List.nil_subperm
  | step hrun he h ih =>
    obtain ⟨bs, hsupply⟩ := ih
    rcases lossy_cases h he with he | ⟨node, peer, s, rfl, hs, rfl⟩ |
      ⟨node, s, s', rfl, hs, hstart, rfl⟩
    · exact hsupply.passage h he
    · exact ⟨bs, hsupply.dismiss hs⟩
    · exact ⟨bs, hsupply.restart hstart⟩

/-! ### The receiver -/

/-- What node `b` has been handed: whole batches, no two of one sender with one number.  The
numbers count as received, unless their sender has left. -/
structure Deliveries (mesh : Mesh (P.recorded.reliable period)) (b : NodeId)
    (ds : List (NodeId × Batch P.Msg)) : Prop where
  heard : mesh.heard b = ds.flatMap fun d => d.2.msgs.map (d.1, ·)
  pooled : ∀ d ∈ ds, ⟨d.1, b, .batch d.2⟩ ∈ mesh.pool
  numbered : ∀ d ∈ ds, ∃ id, d.2.id = some id ∧
    (d.1 ∈ mesh.dismissed b ∨ (mesh.channel b d.1).received.contains id)
  distinct : (ds.map fun d => (d.1, d.2.id)).Nodup

/-- A step does not open a number again. -/
theorem Deliveries.passage {b : NodeId} {ds : List (NodeId × Batch P.Msg)}
    (hds : Deliveries mesh b ds) (h : mesh.step e = some mesh') (he : IsSteady e) :
    ∃ ds', Deliveries mesh' b ds' := by
  have hnumbered : ∀ d ∈ ds, ∃ id, d.2.id = some id ∧
      (d.1 ∈ mesh'.dismissed b ∨ (mesh'.channel b d.1).received.contains id) := by
    intro d hd
    obtain ⟨id, hid, hreceived⟩ := hds.numbered d hd
    obtain ⟨arrived, news, new, ms, hpassage⟩ := passage_of_step h he b d.1
    rw [dismissed_of_step h he]
    exact ⟨id, hid, hreceived.imp_right hpassage.turn.received_mono⟩
  rcases heard_of_step h he b with ⟨a, β, id, harrives, hid, hfresh, hheard⟩ | ⟨-, hheard⟩
  · obtain ⟨hstays, k, rfl, hk⟩ := harrives
    obtain ⟨arrived, news, new, ms, hpassage⟩ := passage_of_step h he b a
    have harrived : arrived = some β := (hpassage.arrived β).mpr ⟨hstays, k, rfl, hk⟩
    refine ⟨ds ++ [(a, β)],
      { heard := ?_
        pooled := fun d hd => ?_
        numbered := fun d hd => ?_
        distinct := ?_ }⟩
    · rw [hheard, hds.heard, List.flatMap_append, List.flatMap_singleton]
    · rcases List.mem_append.mp hd with hd | hd
      · exact mem_pool_of_step h (hds.pooled d hd)
      · rw [List.mem_singleton.mp hd]
        exact mem_pool_of_step h (Array.mem_of_getElem? hk)
    · rcases List.mem_append.mp hd with hd | hd
      · exact hnumbered d hd
      · rw [List.mem_singleton.mp hd]
        exact ⟨id, hid, .inr ((hpassage.turn.received id).mpr
          (.inr ⟨β, id, harrived, hid, .inl rfl⟩))⟩
    · rw [List.map_append, List.map_singleton, List.nodup_append]
      refine ⟨hds.distinct, List.pairwise_singleton _ _, ?_⟩
      rintro x hx y hy rfl
      -- the number of the batch did not count as received, those of the others do
      rw [List.mem_singleton.mp hy] at hx
      obtain ⟨d, hd, hsame⟩ := List.mem_map.mp hx
      simp only [Prod.mk.injEq] at hsame
      obtain ⟨id', hid', hreceived⟩ := hds.numbered d hd
      rw [hsame.2, hid] at hid'
      cases hid'
      rw [hsame.1] at hreceived
      exact hreceived.elim hstays hfresh
  · exact ⟨ds,
      { heard := hheard.trans hds.heard
        pooled := fun d hd => mem_pool_of_step h (hds.pooled d hd)
        numbered := hnumbered
        distinct := hds.distinct }⟩

/-- What is forgotten about a peer that has left does not open its numbers again. -/
theorem Deliveries.dismiss {node peer b : NodeId} {s : State P.recorded}
    {ds : List (NodeId × Batch P.Msg)} (hds : Deliveries mesh b ds)
    (hs : mesh.nodes.get? node = some s) :
    Deliveries (mesh.turned node (s.dismiss peer) []) b ds := by
  have hheard : (mesh.turned node (s.dismiss peer) []).heard b = mesh.heard b :=
    view_turned_of_eq hs [] [] (show (s.dismiss peer).heard = s.heard from rfl) b
  refine
    { heard := hheard.trans hds.heard
      pooled := fun d hd => mem_pool_turned_nil.mpr (hds.pooled d hd)
      numbered := fun d hd => ?_
      distinct := hds.distinct }
  obtain ⟨id, hid, hreceived⟩ := hds.numbered d hd
  refine ⟨id, hid, ?_⟩
  by_cases hb : node = b
  · subst hb
    rw [Mesh.dismissed, Mesh.channel, view_of_get? hs, view_of_get? hs] at hreceived
    rw [Mesh.dismissed, Mesh.channel, view_turned_self, view_turned_self, link_dismiss]
    by_cases hpeer : peer = d.1
    · exact .inl (hpeer ▸ List.mem_insert_self)
    · rw [if_neg hpeer]
      exact hreceived.imp_left List.mem_insert_of_mem
  · rw [Mesh.dismissed, Mesh.channel, view_turned_ne _ _ _ _ _ hb, view_turned_ne _ _ _ _ _ hb]
    exact hreceived

/-- A node that restarts has been handed nothing yet. -/
theorem Deliveries.restart {node b : NodeId} {s' : State P.recorded}
    {ds : List (NodeId × Batch P.Msg)} (hds : Deliveries mesh b ds)
    (hstart : (P.recorded.reliable period).start node = .ok s') :
    ∃ ds', Deliveries (mesh.turned node s' []) b ds' := by
  by_cases hb : node = b
  · subst hb
    refine ⟨[],
      { heard := ?_
        pooled := fun _ hd => absurd hd List.not_mem_nil
        numbered := fun _ hd => absurd hd List.not_mem_nil
        distinct := List.nodup_nil }⟩
    rw [Mesh.heard, view_turned_self]
    exact (start_eq_ok hstart).2.1
  · refine ⟨ds,
      { heard := ?_
        pooled := fun d hd => mem_pool_turned_nil.mpr (hds.pooled d hd)
        numbered := fun d hd => ?_
        distinct := hds.distinct }⟩
    · rw [Mesh.heard, view_turned_ne _ _ _ _ _ hb]
      exact hds.heard
    · rw [Mesh.dismissed, Mesh.channel, view_turned_ne _ _ _ _ _ hb,
        view_turned_ne _ _ _ _ _ hb]
      exact hds.numbered d hd

/-- **What is handed over are batches with different numbers.** -/
theorem deliveries_of_run (hrun : Run ids IsLossy past mesh) (b : NodeId) :
    ∃ ds, Deliveries mesh b ds := by
  induction hrun with
  | start h =>
    obtain ⟨-, hviews⟩ := start_views h
    exact ⟨[],
      { heard := (hviews b).2.1
        pooled := fun _ hd => absurd hd List.not_mem_nil
        numbered := fun _ hd => absurd hd List.not_mem_nil
        distinct := List.nodup_nil }⟩
  | step hrun he h ih =>
    obtain ⟨ds, hds⟩ := ih
    rcases lossy_cases h he with he | ⟨node, peer, s, rfl, hs, rfl⟩ |
      ⟨node, s, s', rfl, hs, hstart, rfl⟩
    · exact hds.passage h he
    · exact ⟨ds, hds.dismiss hs⟩
    · exact hds.restart hstart

/-! ### Together -/

/-- Of what was handed over, the messages of one sender are those of its batches. -/
theorem count_heard [DecidableEq P.Msg] (ds : List (NodeId × Batch P.Msg)) (a : NodeId)
    (m : P.Msg) :
    (ds.flatMap fun d => d.2.msgs.map (d.1, ·)).count (a, m) =
      (((ds.filter (·.1 = a)).map (·.2)).flatMap (·.msgs)).count m := by
  induction ds with
  | nil => rfl
  | cons d ds ih =>
    rw [List.flatMap_cons, List.count_append, ih, List.filter_cons]
    by_cases ha : d.1 = a
    · have hinj : Function.Injective ((d.1, ·) : P.Msg → NodeId × P.Msg) :=
        fun _ _ h => (Prod.mk.inj h).2
      rw [if_pos (decide_eq_true ha), List.map_cons, List.flatMap_cons, List.count_append, ← ha,
        List.count_map_of_injective _ _ hinj]
    · have hnone : (d.2.msgs.map (d.1, ·)).count (a, m) = 0 := by
        rw [List.count_eq_zero]
        intro hmem
        obtain ⟨m', -, hm'⟩ := List.mem_map.mp hmem
        exact ha (Prod.mk.inj hm').1
      rw [if_neg (by simpa using ha), hnone, Nat.zero_add]

theorem count_addressedTo [DecidableEq P.Msg] (b : NodeId) (out : List (Outgoing P.Msg))
    (m : P.Msg) : (addressedTo b out).count m = out.count ⟨b, m⟩ := by
  induction out with
  | nil => rfl
  | cons x out ih =>
    have hcons : addressedTo b (x :: out) =
        (if x.recipient = b then [x.body] else []) ++ addressedTo b out := by
      unfold addressedTo
      rw [List.filter_cons]
      by_cases hb : x.recipient = b
      · rw [if_pos hb, if_pos (decide_eq_true hb)]
        rfl
      · rw [if_neg hb, if_neg (by simpa using hb)]
        rfl
    rw [hcons, List.count_append, ih, List.count_cons, Nat.add_comm]
    obtain ⟨recipient, body⟩ := x
    congr 1
    by_cases hb : recipient = b
    · subst hb
      simp [List.count_cons]
    · simp [hb]

/-- The batches of one sender that have been handed over are batches of its supply. -/
theorem Deliveries.subperm {a b : NodeId} {ds : List (NodeId × Batch P.Msg)}
    {bs : List (Batch P.Msg)} (hds : Deliveries mesh b ds) (hsupply : Supply past mesh a b bs) :
    ((ds.filter (·.1 = a)).map (·.2)).Subperm bs := by
  refine List.Nodup.subperm ?_ ?_
  · have hdistinct := (List.pairwise_map.mp hds.distinct).sublist
      (List.filter_sublist (p := fun d => decide (d.1 = a)))
    refine List.pairwise_map.mpr (hdistinct.imp_of_mem fun {d d'} hd hd' hne hsame => hne ?_)
    have ha := of_decide_eq_true (List.mem_filter.mp hd).2
    have ha' := of_decide_eq_true (List.mem_filter.mp hd').2
    rw [ha, ha', hsame]
  · intro β hβ
    obtain ⟨d, hd, rfl⟩ := List.mem_map.mp hβ
    obtain ⟨hd, ha⟩ := List.mem_filter.mp hd
    obtain ⟨id, hid, -⟩ := hds.numbered d hd
    refine hsupply.pooled d.2 ?_ (by rw [hid]; exact Option.some_ne_none id)
    rw [← of_decide_eq_true ha]
    exact hds.pooled d hd

theorem heard_of_lossy_step (h : mesh.step e = some mesh') (he : IsLossy e) {b : NodeId}
    (hb : e ≠ .restart b) : mesh'.heard b = mesh.heard b ∨
      ∃ k a β, e = .deliver k ∧ mesh.pool[k]? = some ⟨a, b, .batch β⟩ ∧
        mesh'.heard b = mesh.heard b ++ β.msgs.map (a, ·) := by
  rcases lossy_cases h he with he | ⟨node, peer, s, rfl, hs, rfl⟩ | ⟨node, s, s', rfl, hs, -, rfl⟩
  · rcases heard_of_step h he b with ⟨a, β, id, ⟨-, k, rfl, hk⟩, -, -, hheard⟩ | ⟨-, hheard⟩
    · exact .inr ⟨k, a, β, rfl, hk, hheard⟩
    · exact .inl hheard
  · exact .inl (view_turned_of_eq hs [] []
      (show State.heard (State.dismiss s peer) = State.heard s from rfl) b)
  · have hne : node ≠ b := fun hnode => hb (hnode ▸ rfl)
    exact .inl (view_turned_ne _ _ _ _ _ hne)

/-- **Reliable channels neither create nor duplicate.**  A node has been handed a message in the
name of another one at most as often as the nested automata of that one have sent it, over all its
incarnations.  What it has been handed are the messages of batches that are in the pool, no two of
them with the same sender and number; and each step but a restart hands over nothing, or all the
messages of the batch that is delivered, in their order. -/
theorem neither_creates_nor_duplicates [DecidableEq P.Msg] (hrun : Run ids IsLossy past mesh) :
    (∀ a b m, (mesh.heard b).count (a, m) ≤ (toldEver past mesh a).count ⟨b, m⟩) ∧
      (∀ b, ∃ ds : List (NodeId × Batch P.Msg),
        mesh.heard b = (ds.flatMap fun d => d.2.msgs.map (d.1, ·)) ∧
          (∀ d ∈ ds, ⟨d.1, b, .batch d.2⟩ ∈ mesh.pool ∧ d.2.id ≠ none) ∧
          (ds.map fun d => (d.1, d.2.id)).Nodup) ∧
      ∀ x ∈ past, ∀ b, x.event ≠ .restart b → x.after.heard b = x.before.heard b ∨
        ∃ k a β, x.event = .deliver k ∧ x.before.pool[k]? = some ⟨a, b, .batch β⟩ ∧
          x.after.heard b = x.before.heard b ++ β.msgs.map (a, ·) := by
  refine ⟨fun a b m => ?_, fun b => ?_, fun x hx b hb => ?_⟩
  · obtain ⟨bs, hsupply⟩ := supply_of_run hrun a b
    obtain ⟨ds, hds⟩ := deliveries_of_run hrun b
    obtain ⟨carried, hperm, hsub⟩ := hds.subperm hsupply
    calc (mesh.heard b).count (a, m)
        = (((ds.filter (·.1 = a)).map (·.2)).flatMap (·.msgs)).count m := by
          rw [hds.heard, count_heard]
      _ = (carried.flatMap (·.msgs)).count m := ((hperm.flatMap_right _).count_eq m).symm
      _ ≤ (bs.flatMap (·.msgs)).count m := (hsub.flatMap _).count_le m
      _ ≤ (bs.flatMap (·.msgs) ++ (mesh.channel a b).pending.toList).count m :=
          (List.sublist_append_left _ _).count_le m
      _ ≤ (addressedTo b (toldEver past mesh a)).count m := hsupply.covered.count_le m
      _ = (toldEver past mesh a).count ⟨b, m⟩ := count_addressedTo b _ m
  · obtain ⟨ds, hds⟩ := deliveries_of_run hrun b
    refine ⟨ds, hds.heard, fun d hd => ⟨hds.pooled d hd, ?_⟩, hds.distinct⟩
    obtain ⟨id, hid, -⟩ := hds.numbered d hd
    rw [hid]
    exact Option.some_ne_none id
  · obtain ⟨hstep, he⟩ := hrun.step_of_mem hx
    exact heard_of_lossy_step hstep he hb

/-- A node sends a ping and restarts before it arrives.  The ping that it sends then gets the same
number; it arrives first, and the other one after it. -/
def sameNumber : List (Event ((Protocol.pingPong 0).recorded.reliable 0)) :=
  let ping : Event ((Protocol.pingPong 0).recorded.reliable 0) :=
    .input ⟨0⟩ (.nested (⟨⟨1⟩, 0⟩ : PingPong.Serve))
  [ping, .deliver 0, .deliver 1, .restart ⟨0⟩, ping, .deliver 3, .deliver 4, .deliver 5, .deliver 2]

theorem one_of_same_number : ∃ past mesh, Run [⟨0⟩, ⟨1⟩] IsLossy past mesh ∧
    past.map (·.event) = sameNumber.reverse ∧
    (mesh.heard ⟨1⟩).count (⟨0⟩, (⟨0⟩ : PingPong.Ping)) = 1 ∧
    (mesh.heard ⟨1⟩).count (⟨0⟩, (⟨0⟩ : PingPong.Ping)) ≤
      (toldEver past mesh ⟨0⟩).count ⟨⟨1⟩, (⟨0⟩ : PingPong.Ping)⟩ := by
  obtain ⟨past, mesh, hrun, hpast, htest⟩ :=
    @Run.exists ((Protocol.pingPong 0).recorded.reliable 0) [⟨0⟩, ⟨1⟩] IsLossy sameNumber
      (fun mesh => (mesh.heard ⟨1⟩).count (⟨0⟩, (⟨0⟩ : PingPong.Ping)) = 1)
      (by simp [sameNumber, IsLossy]) (by decide +kernel)
  exact ⟨past, mesh, hrun, hpast, of_decide_eq_true htest,
    (neither_creates_nor_duplicates hrun).1 ⟨0⟩ ⟨1⟩ _⟩

end Reliable

end Quorum
