import Quorum.Proofs.Tame
import Quorum.SelfDelivery

/-!
# SelfDelivery — a node that hands its own messages back is at work

Handing a node's own messages back is a row of honest steps: each of them delivers a message that
the node has sent to itself.  A tame protocol sends no more than so many of them, so the row ends
before a limit that is high enough.

**Main statements.**  `settle_ok`: nothing of the node to itself is left.  `finish_ok`: an event
with everything that the node then sends to itself is one piece of work.
-/

namespace Quorum.SelfDelivery

open Mesh

variable {P : Protocol} {ids : List NodeId} {fits : P.Input → Prop} {most : Nat} {me : NodeId}
variable {past past' past'' : List (Moment P)} {mesh mesh' mesh'' : Mesh P}
variable {s s' : P.State} {out out' : List (Outgoing P.Msg)} {taken : Option P.Input}

/-- Work after which nothing is left of what the node has sent to itself. -/
structure Done (ids : List NodeId) (fits : P.Input → Prop) (me : NodeId) (past : List (Moment P))
    (mesh : Mesh P) (taken : Option P.Input) (s : P.State) (out : List (Outgoing P.Msg))
    (past' : List (Moment P)) (mesh' : Mesh P) : Prop
    extends Work ids fits me past mesh taken s out past' mesh' where
  own : ∀ m, ⟨me, m⟩ ∈ out → Arrived past' mesh' ⟨me, me, m⟩

theorem Done.refl (hrun : Run ids (Event.IsHonest fits) past mesh)
    (hs : mesh.nodes.get? me = some s) : Done ids fits me past mesh none s [] past mesh :=
  ⟨Work.refl hrun hs, fun _ h => absurd h List.not_mem_nil⟩

theorem Done.trans (h : Done ids fits me past mesh taken s out past' mesh')
    (h' : Done ids fits me past' mesh' none s' out' past'' mesh'') :
    Done ids fits me past mesh taken s' (out ++ out') past'' mesh'' where
  toWork := h.toWork.trans h'.toWork
  own m hm := by
    rcases List.mem_append.mp hm with hm | hm
    · exact h'.arrived _ (h.own m hm)
    · exact h'.own m hm

def toSelf (me : NodeId) (out : List (Outgoing P.Msg)) : List P.Msg :=
  (out.filter (·.recipient = me)).map (·.body)

theorem mem_toSelf {m : P.Msg} : m ∈ toSelf me out ↔ ⟨me, m⟩ ∈ out := by
  simp only [toSelf, List.mem_map, List.mem_filter, decide_eq_true_iff]
  constructor
  · rintro ⟨o, ⟨ho, rfl⟩, rfl⟩
    exact ho
  · intro h
    exact ⟨_, ⟨h, rfl⟩, rfl⟩

def toOthers (me : NodeId) (out : List (Outgoing P.Msg)) : List (Outgoing P.Msg) :=
  out.filter (·.recipient ≠ me)

theorem absorb_eq (me : NodeId) (own : Fifo P.Msg) (remote : Array (Outgoing P.Msg))
    (warnings : Array Warning) (r : Reaction P.State P.Msg) :
    (Progress.absorb me own remote warnings r).state = r.state ∧
      (Progress.absorb me own remote warnings r).own.toList = own.toList ++ toSelf me r.sent ∧
      (Progress.absorb me own remote warnings r).remote.toList =
        remote.toList ++ toOthers me r.sent := by
  refine ⟨rfl, ?_, ?_⟩
  · simp [Progress.absorb, toSelf]
  · simp [Progress.absorb, toOthers, Function.comp_def]

theorem settle_of_none {limit : Nat} {t : Progress P} (h : t.own.pop? = none) :
    settle me limit t =
      .ok { state := t.state, sent := t.remote.toList, warnings := t.warnings.toList } := by
  obtain ⟨state, own, remote, warnings⟩ := t
  unfold settle
  rw [h]

theorem settle_of_some {limit : Nat} {t : Progress P} {m : P.Msg} {own : Fifo P.Msg}
    {r : Reaction P.State P.Msg} (h : t.own.pop? = some (m, own))
    (hr : P.receive me t.state me m = .ok r) :
    settle me (limit + 1) t = settle me limit (.absorb me own t.remote t.warnings r) := by
  obtain ⟨state, own', remote, warnings⟩ := t
  rw [settle, h]
  simp only [hr]

/-- How working off an event fails: a message that is to be handed back is one too many, or makes
the node fail. -/
def Fails (me : NodeId) (R : Nat → P.State → List P.Msg → List (Outgoing P.Msg) → Prop)
    (fault : Fault) : Prop :=
  ∃ n s m own remote, R n s (m :: own) remote ∧
    (n = 0 ∧ fault = .selfDeliveryUnending ∨
      ∃ failure, P.receive me s me m = .error failure ∧ fault = failure.fault)

section
variable {R : Nat → P.State → List P.Msg → List (Outgoing P.Msg) → Prop}
  (hstep : ∀ n s m own remote r, R (n + 1) s (m :: own) remote → P.receive me s me m = .ok r →
    R n r.state (own ++ toSelf me r.sent) (remote ++ toOthers me r.sent))
include hstep

/-- **What every message that is handed back keeps true is true in the end**, of the limit that is
left, the state, the messages still to be handed back and those for others. -/
theorem settle_invariant {limit : Nat} {t : Progress P}
    (ht : R limit t.state t.own.toList t.remote.toList) :
    (∀ r, settle me limit t = .ok r → ∃ n, R n r.state [] r.sent) ∧
      ∀ failure, settle me limit t = .error failure → Fails me R failure.fault := by
  induction limit generalizing t with
  | zero =>
    obtain ⟨state, own, remote, warnings⟩ := t
    unfold settle
    split
    · rename_i hpop
      rw [Fifo.toList_of_pop?_none hpop] at ht
      refine ⟨fun r h => ?_, nofun⟩
      cases h
      exact ⟨0, ht⟩
    · rename_i m rest hpop
      rw [Fifo.toList_of_pop? hpop] at ht
      refine ⟨nofun, fun failure h => ?_⟩
      cases h
      exact ⟨0, state, m, _, _, ht, .inl ⟨rfl, rfl⟩⟩
  | succ limit ih =>
    obtain ⟨state, own, remote, warnings⟩ := t
    unfold settle
    split
    · rename_i hpop
      rw [Fifo.toList_of_pop?_none hpop] at ht
      refine ⟨fun r h => ?_, nofun⟩
      cases h
      exact ⟨limit + 1, ht⟩
    · rename_i m rest hpop
      rw [Fifo.toList_of_pop? hpop] at ht
      dsimp only
      split
      · rename_i next hnext
        obtain ⟨hstate, hown, hremote⟩ := absorb_eq me rest remote warnings next
        refine ih ?_
        rw [hstate, hown, hremote]
        exact hstep _ _ _ _ _ _ ht hnext
      · rename_i failure hfailure
        refine ⟨nofun, fun _ h => ?_⟩
        cases h
        exact ⟨_, state, m, _, _, ht, .inr ⟨failure, hfailure, rfl⟩⟩

theorem finish_invariant {limit : Nat} {outcome : Outcome P.State P.Msg}
    (hfirst : ∀ first, outcome = .ok first →
      R limit first.state (toSelf me first.sent) (toOthers me first.sent)) :
    (∀ r, finish me limit outcome = .ok r → ∃ n, R n r.state [] r.sent) ∧
      ∀ failure, finish me limit outcome = .error failure →
        outcome = .error failure ∨ Fails me R failure.fault := by
  cases outcome with
  | error failure => exact ⟨nofun, fun _ h => .inl h⟩
  | ok first =>
    obtain ⟨hstate, hown, hremote⟩ := absorb_eq me {} #[] #[] first
    obtain ⟨hok, herror⟩ := settle_invariant hstep (t := .absorb me {} #[] #[] first) (by
      rw [hstate, hown, hremote]
      exact hfirst first rfl)
    exact ⟨hok, fun failure h => .inr (herror failure h)⟩

end

section
variable (own : Fifo P.Msg) (remote : Array (Outgoing P.Msg)) (warnings : Array Warning)
  {r : Reaction P.State P.Msg} (h : Work ids fits me past mesh taken r.state r.sent past' mesh')
include h

theorem between_self : between me me mesh'.pool.toList =
    between me me mesh.pool.toList ++ toSelf me r.sent := by
  rw [h.between, if_pos rfl]
  rfl

/-- Every message that a node sends to itself is one less that it may still send. -/
theorem length_own_le (ht : Tame P ids fits most) {limit : Nat}
    (hlimit : own.length + (most - (between me me mesh.pool.toList).length) ≤ limit) :
    (Progress.absorb me own remote warnings r).own.length +
      (most - (between me me mesh'.pool.toList).length) ≤ limit := by
  have htraffic := ht.traffic past' mesh' h.run me me
  rw [between_self h, List.length_append] at htraffic ⊢
  rw [← Fifo.length_toList, (absorb_eq me own remote warnings r).2.1, List.length_append,
    Fifo.length_toList]
  omega

theorem mem_pool_of_own (hown : ∀ m ∈ own.toList, (⟨me, me, m⟩ : Packet P.Msg) ∈ mesh.pool) :
    ∀ m ∈ (Progress.absorb me own remote warnings r).own.toList,
      (⟨me, me, m⟩ : Packet P.Msg) ∈ mesh'.pool := by
  intro m hm
  rw [(absorb_eq me own remote warnings r).2.1, List.mem_append] at hm
  rcases hm with hm | hm
  · exact h.mem_pool (hown m hm)
  · rw [h.turned]
    exact mem_pool_turned.mpr (.inr ⟨rfl, mem_toSelf.mp hm⟩)

/-- A node that has nothing for itself has done its work. -/
theorem settle_nothing (limit : Nat)
    (hnone : (Progress.absorb me own remote warnings r).own.toList = []) :
    ∃ r', settle me limit (.absorb me own remote warnings r) = .ok r' ∧
      Done ids fits me past mesh taken r'.state r.sent past' mesh' ∧
      r'.sent = remote.toList ++ toOthers me r.sent ∧ own.toList = [] := by
  obtain ⟨-, hnew, hremote⟩ := absorb_eq me own remote warnings r
  have hpop : (Progress.absorb me own remote warnings r).own.pop? = none := by
    cases hpop : (Progress.absorb me own remote warnings r).own.pop? with
    | none => rfl
    | some x =>
      rw [Fifo.toList_of_pop? hpop] at hnone
      cases hnone
  rw [hnew, List.append_eq_nil_iff] at hnone
  refine ⟨_, settle_of_none hpop, ⟨h, fun m hm => ?_⟩, hremote, hnone.1⟩
  rw [← mem_toSelf, hnone.2] at hm
  cases hm

theorem settle_ok (ht : Tame P ids fits most) (limit : Nat)
    (hown : ∀ m ∈ own.toList, ⟨me, me, m⟩ ∈ mesh.pool)
    (hlimit : own.length + (most - (between me me mesh.pool.toList).length) ≤ limit) :
    ∃ r' past'' mesh'' out, settle me limit (.absorb me own remote warnings r) = .ok r' ∧
      Done ids fits me past mesh taken r'.state out past'' mesh'' ∧
      r'.sent = remote.toList ++ toOthers me out ∧
      (∀ m ∈ own.toList, Arrived past'' mesh'' ⟨me, me, m⟩) ∧
      ∀ p, Arrived past' mesh' p → Arrived past'' mesh'' p := by
  induction limit generalizing past mesh taken past' mesh' own remote warnings r with
  | zero =>
    have hleft := length_own_le own remote warnings h ht hlimit
    have hnone : (Progress.absorb me own remote warnings r).own.toList = [] := by
      refine List.length_eq_zero_iff.mp ?_
      rw [Fifo.length_toList]
      omega
    obtain ⟨r', hsettle, hdone, hsent, hempty⟩ := settle_nothing own remote warnings h 0 hnone
    rw [hempty]
    exact ⟨r', past', mesh', _, hsettle, hdone, hsent, nofun, fun p hp => hp⟩
  | succ limit ih =>
    have hleft := length_own_le own remote warnings h ht hlimit
    cases hpop : (Progress.absorb me own remote warnings r).own.pop? with
    | none =>
      obtain ⟨r', hsettle, hdone, hsent, hempty⟩ :=
        settle_nothing own remote warnings h (limit + 1) (Fifo.toList_of_pop?_none hpop)
      rw [hempty]
      exact ⟨r', past', mesh', _, hsettle, hdone, hsent, nofun, fun p hp => hp⟩
    | some x =>
      obtain ⟨m, rest⟩ := x
      obtain ⟨-, hnew, hremote⟩ := absorb_eq me own remote warnings r
      have hlist := Fifo.toList_of_pop? hpop
      have hpool := mem_pool_of_own own remote warnings h hown
      rw [hlist] at hpool
      obtain ⟨hm, hrest⟩ := List.forall_mem_cons.mp hpool
      obtain ⟨k, hk⟩ := Array.getElem?_of_mem hm
      obtain ⟨next, hnext⟩ := ht.receive past' mesh' h.run _ hm _ h.get?
      have hacts : Acts mesh' me r.state (.deliver k) next.state next.sent := .deliver hk rfl hnext
      have hwork := Work.start h.run h.get? (e := .deliver k) trivial hacts
      have hcount := congrArg List.length hlist
      rw [Fifo.length_toList, List.length_cons, Fifo.length_toList] at hcount
      obtain ⟨r', past'', mesh'', out, hsettle, hdone, hsent, hold, hkeep⟩ :=
        ih rest _ _ hwork hrest (by omega)
      have harrived : ∀ m ∈ (Progress.absorb me own remote warnings r).own.toList,
          Arrived past'' mesh'' ⟨me, me, m⟩ := by
        rw [hlist]
        refine List.forall_mem_cons.mpr ⟨hkeep _ ?_, hold⟩
        exact (arrived_step h.run (step_of_acts h.get? hacts)).mpr (.inr ⟨k, rfl, hk⟩)
      rw [hnew] at harrived
      refine ⟨r', past'', mesh'', r.sent ++ out, ?_, ⟨h.trans hdone.toWork, ?_⟩, ?_, ?_, ?_⟩
      · rw [settle_of_some hpop hnext, hsettle]
      · intro m' hm'
        rcases List.mem_append.mp hm' with hm' | hm'
        · exact harrived m' (List.mem_append_right _ (mem_toSelf.mpr hm'))
        · exact hdone.own m' hm'
      · rw [hsent, hremote, List.append_assoc, toOthers, toOthers, toOthers, List.filter_append]
      · exact fun m' hm' => harrived m' (List.mem_append_left _ hm')
      · exact fun p hp => hdone.arrived p hp

end

/-- **An event, and everything that the node then sends to itself, is work of the node.** -/
theorem finish_ok (ht : Tame P ids fits most) {limit : Nat} (hlimit : most ≤ limit)
    (hrun : Run ids (Event.IsHonest fits) past mesh) (hs : mesh.nodes.get? me = some s)
    {e : Event P} (he : e.IsHonest fits) {r : Reaction P.State P.Msg}
    (h : Acts mesh me s e r.state r.sent) :
    ∃ r' past' mesh' out, finish me limit (.ok r) = .ok r' ∧
      Done ids fits me past mesh e.taken r'.state out past' mesh' ∧ r'.sent = toOthers me out ∧
      ∀ k p, e = .deliver k → mesh.pool[k]? = some p → Arrived past' mesh' p := by
  have hlength : ({} : Fifo P.Msg).length = 0 := rfl
  obtain ⟨r', past', mesh', out, hsettle, hdone, hsent, -, hkeep⟩ :=
    settle_ok {} #[] #[] (Work.start hrun hs he h) ht limit nofun (by omega)
  refine ⟨r', past', mesh', out, hsettle, hdone, hsent, ?_⟩
  rintro k p rfl hp
  exact hkeep p ((arrived_step hrun (step_of_acts hs h)).mpr (.inr ⟨k, rfl, hp⟩))

end Quorum.SelfDelivery
