import Mathlib.Data.List.Nodup
import Quorum.PingPong
import Quorum.Proofs.Reliable.Network

/-!
# Acknowledged — what an acknowledgement is worth

As long as nobody restarts, a batch that is no longer kept by its sender has an acknowledgement,
and its number counts as received.  That is not quite the same as having been handed over.  A
reset request of the sender may arrive late or again, when some numbers but not all have come.  The
answer tells the largest of them, and the next number after it then looks like the first one of a
sender that has restarted: all smaller numbers that are still missing count as received from then
on, although they are on their way.  A batch with such a number is acknowledged when it comes, and
is lost.

**Main statements.**  `ledger_of_run`: a number that is not kept any more counts as received.
`receipts_of_run`: a number that counts as received has been handed over or skipped, and not both.
`handedOver_iff_not_skipped`: a batch that is not kept any more has been handed over if and only if
its number was not skipped.  `acknowledged_not_handedOver`: it may have been skipped.
-/

namespace Quorum.Reliable

open Mesh

variable {P : Protocol} {period : Time} {mesh mesh' : Mesh (P.recorded.reliable period)}
  {e : Event (P.recorded.reliable period)} {ids : List NodeId}
  {past : List (Moment (P.recorded.reliable period))}

/-! ### The books of the sender -/

/-- The batches of `a` for `b`, with the numbers that they got: each number is used once, each
batch holds something, only numbers received are acknowledged, and a number is kept until it
counts as received by `b`. -/
structure Ledger (mesh : Mesh (P.recorded.reliable period)) (a b : NodeId)
    (bs : List (Batch P.Msg)) : Prop extends Stock mesh a b bs where
  one_le_top : 1 ≤ (mesh.channel a b).top
  numbered : ∀ β ∈ bs, ∃ i, β.id = some i ∧ 1 ≤ i.toNat ∧ i.toNat < (mesh.channel a b).top
  distinct : (bs.map (·.id)).Nodup
  filled : ∀ β ∈ bs, β.msgs ≠ []
  acks : ∀ β ∈ bs, ∀ i ∈ β.acks, (mesh.channel a b).received.contains i
  pool_acks : ∀ β, ⟨a, b, .batch β⟩ ∈ mesh.pool → ∀ i ∈ β.acks,
    (mesh.channel a b).received.contains i
  held : ∀ β ∈ bs, ∀ i, β.id = some i →
    (mesh.channel a b).unacked.contains i ∨ (mesh.channel b a).received.contains i

theorem ledger_start (h : Mesh.start (P.recorded.reliable period) ids = .ok mesh) (a b : NodeId) :
    Ledger mesh a b [] := by
  obtain ⟨hpool, hviews⟩ := start_views h
  exact
    { toStock := stock_start h a b
      one_le_top := by
        rw [(hviews a).1]
        exact Nat.le_refl 1
      numbered := fun _ hβ => absurd hβ List.not_mem_nil
      distinct := List.nodup_nil
      filled := fun _ hβ => absurd hβ List.not_mem_nil
      acks := fun _ hβ => absurd hβ List.not_mem_nil
      pool_acks := fun β hβ => by
        rw [hpool] at hβ
        exact absurd hβ (Array.not_mem_empty _)
      held := fun _ hβ => absurd hβ List.not_mem_nil }

/-- A passage in one direction, and one in the other, keep the books. -/
theorem Ledger.passage {a b : NodeId} {bs bs' : List (Batch P.Msg)} (hab : Ledger mesh a b bs)
    (hba : Ledger mesh b a bs') (h : mesh.step e = some mesh') (he : IsSteady e) :
    ∃ bs, Ledger mesh' a b bs := by
  obtain ⟨arrived, news, new, ms, hpassage⟩ := passage_of_step h he a b
  obtain ⟨arrived', news', new', ms', hpassage'⟩ := passage_of_step h he b a
  have hturn := hpassage.turn
  have hacks : ∀ β ∈ bs ++ new, ∀ i ∈ β.acks, (mesh'.channel a b).received.contains i := by
    intro β hβ i hi
    rcases List.mem_append.mp hβ with hβ | hβ
    · exact hturn.received_mono (hab.acks β hβ i hi)
    · exact hturn.new_acks β hβ i hi
  refine ⟨bs ++ new,
    { toStock := hab.toStock.passage hpassage
      one_le_top := Nat.le_trans hab.one_le_top hturn.top_le
      numbered := fun β hβ => ?_
      distinct := ?_
      filled := fun β hβ => ?_
      acks := hacks
      pool_acks := fun β hβ i hi => ?_
      held := fun β hβ i hid => ?_ }⟩
  · rcases List.mem_append.mp hβ with hβ | hβ
    · obtain ⟨i, hid, hpos, hlt⟩ := hab.numbered β hβ
      exact ⟨i, hid, hpos, Nat.lt_of_lt_of_le hlt hturn.top_le⟩
    · obtain ⟨i, hid, hle, hlt⟩ := hturn.numbered β hβ
      exact ⟨i, hid, Nat.le_trans hab.one_le_top hle, hlt⟩
  · rw [List.map_append, List.nodup_append]
    refine ⟨hab.distinct, hturn.distinct, ?_⟩
    rintro x hx y hy rfl
    -- numbers used before lie below the top, new ones do not
    obtain ⟨β, hβ, rfl⟩ := List.mem_map.mp hx
    obtain ⟨β', hβ', hsame⟩ := List.mem_map.mp hy
    obtain ⟨i, hid, -, hlt⟩ := hab.numbered β hβ
    obtain ⟨i', hid', hle, -⟩ := hturn.numbered β' hβ'
    rw [hid, hid'] at hsame
    cases hsame
    omega
  · rcases List.mem_append.mp hβ with hβ | hβ
    · exact hab.filled β hβ
    · exact hturn.filled β hβ
  · rcases (hpassage.pool _).mp hβ with hβ | hβ
    · exact hturn.received_mono (hab.pool_acks β hβ i hi)
    · rcases hturn.sends β hβ with hnew | ⟨k, kept, hkept, rfl⟩ | ⟨-, halone⟩
      · exact hturn.new_acks β hnew i hi
      · exact hturn.received_mono (hab.acks _ (hab.kept k kept hkept) i hi)
      · exact halone i hi
  · rcases List.mem_append.mp hβ with hβ | hβ
    · rcases hab.held β hβ i hid with hkept | hreceived
      · rcases hturn.drops i hkept with hkept | ⟨β', harrived, hack⟩
        · exact .inl hkept
        · -- the other side acknowledges only what it has received
          obtain ⟨-, k, -, hk⟩ := (hpassage.arrived β').mp harrived
          have hreceived := hba.pool_acks β' (Array.mem_of_getElem? hk) i hack
          exact .inr (hpassage'.turn.received_mono hreceived)
      · exact .inr (hpassage'.turn.received_mono hreceived)
    · exact .inl (hturn.new_kept β hβ i hid)

theorem ledger_of_run (hrun : Run ids IsSteady past mesh) (a b : NodeId) :
    ∃ bs, Ledger mesh a b bs := by
  induction hrun generalizing a b with
  | start h => exact ⟨[], ledger_start h a b⟩
  | step hrun he h ih =>
    obtain ⟨bs, hab⟩ := ih a b
    obtain ⟨bs', hba⟩ := ih b a
    exact hab.passage hba h he

theorem Ledger.eq_of_id_eq {a b : NodeId} {bs : List (Batch P.Msg)} (hledger : Ledger mesh a b bs)
    {β β' : Batch P.Msg} {i : BatchId} (hβ : ⟨a, b, .batch β⟩ ∈ mesh.pool)
    (hβ' : ⟨a, b, .batch β'⟩ ∈ mesh.pool) (hid : β.id = some i) (hid' : β'.id = some i) :
    β = β' := by
  have hmem := hledger.pooled β hβ (by rw [hid]; exact Option.some_ne_none i)
  have hmem' := hledger.pooled β' hβ' (by rw [hid']; exact Option.some_ne_none i)
  exact List.inj_on_of_nodup_map hledger.distinct hmem hmem' (hid.trans hid'.symm)

/-! ### The books of the receiver -/

/-- At some moment, node `b` took a batch of `a`: its messages, all of them in order, are what the
nested automaton was handed. -/
def HandedOver (past : List (Moment (P.recorded.reliable period))) (a b : NodeId)
    (β : Batch P.Msg) : Prop :=
  ∃ x ∈ past, Arrives x.before x.event a b β ∧
    x.after.heard b = x.before.heard b ++ β.msgs.map (a, ·)

/-- At some moment, a batch of `a` with a larger number made number `i` count as received at `b`,
although it had not come: `b` had answered a reset request with a number not less than `i`, and the
number of the batch was the next one. -/
def Skipped (past : List (Moment (P.recorded.reliable period))) (a b : NodeId) (i : BatchId) :
    Prop :=
  ∃ x ∈ past, ∃ β j, Arrives x.before x.event a b β ∧ β.id = some j ∧
    (x.before.channel b a).Skips j i

/-- What the numbers that count as received have come from. -/
structure Receipts (past : List (Moment (P.recorded.reliable period)))
    (mesh : Mesh (P.recorded.reliable period)) (a b : NodeId) : Prop where
  pooled : ∀ β, HandedOver past a b β → ⟨a, b, .batch β⟩ ∈ mesh.pool
  of_handedOver : ∀ β i, HandedOver past a b β → β.id = some i →
    (mesh.channel b a).received.contains i
  of_skipped : ∀ i, Skipped past a b i → (mesh.channel b a).received.contains i
  origin : ∀ i, 1 ≤ i.toNat → (mesh.channel b a).received.contains i →
    (∃ β, HandedOver past a b β ∧ β.id = some i) ∨ Skipped past a b i
  disjoint : ∀ β i, HandedOver past a b β → β.id = some i → ¬ Skipped past a b i

theorem handedOver_cons {x : Moment (P.recorded.reliable period)} {a b : NodeId}
    {β : Batch P.Msg} : HandedOver (x :: past) a b β ↔
      (Arrives x.before x.event a b β ∧
        x.after.heard b = x.before.heard b ++ β.msgs.map (a, ·)) ∨ HandedOver past a b β :=
  List.exists_mem_cons_iff ..

theorem skipped_cons {x : Moment (P.recorded.reliable period)} {a b : NodeId} {i : BatchId} :
    Skipped (x :: past) a b i ↔ (∃ β j, Arrives x.before x.event a b β ∧ β.id = some j ∧
      (x.before.channel b a).Skips j i) ∨ Skipped past a b i :=
  List.exists_mem_cons_iff ..

theorem Arrives.unique {a a' b b' : NodeId} {β β' : Batch P.Msg} (h : Arrives mesh e a b β)
    (h' : Arrives mesh e a' b' β') : a = a' ∧ b = b' ∧ β = β' := by
  obtain ⟨-, k, rfl, hk⟩ := h
  obtain ⟨-, k', hsame, hk'⟩ := h'
  cases hsame
  rw [hk] at hk'
  cases hk'
  exact ⟨rfl, rfl, rfl⟩

theorem fresh_of_handedOver (h : mesh.step e = some mesh') (he : IsSteady e) {a b : NodeId}
    {β : Batch P.Msg} {i : BatchId} (harrives : Arrives mesh e a b β) (hid : β.id = some i)
    (hfilled : β.msgs ≠ []) (hheard : mesh'.heard b = mesh.heard b ++ β.msgs.map (a, ·)) :
    ¬ (mesh.channel b a).received.contains i := by
  rcases heard_of_step h he b with ⟨a', β', i', harrives', hid', hfresh, -⟩ | ⟨-, hquiet⟩
  · obtain ⟨rfl, -, rfl⟩ := harrives.unique harrives'
    rw [hid] at hid'
    cases hid'
    exact hfresh
  · rw [hquiet] at hheard
    have hnil : β.msgs.map ((a, ·) : P.Msg → NodeId × P.Msg) = [] :=
      List.self_eq_append_right.mp hheard
    exact absurd (List.map_eq_nil_iff.mp hnil) hfilled

theorem received_of_step (h : mesh.step e = some mesh') (he : IsSteady e) (a b : NodeId)
    (i : BatchId) : (mesh'.channel b a).received.contains i ↔
      (mesh.channel b a).received.contains i ∨ ∃ β j, Arrives mesh e a b β ∧ β.id = some j ∧
        (i = j ∨ (mesh.channel b a).Skips j i) := by
  obtain ⟨arrived, news, new, ms, hpassage⟩ := passage_of_step h he b a
  rw [hpassage.turn.received i]
  simp only [hpassage.arrived]

/-- A step keeps the books of the receiver. -/
theorem Receipts.passage {a b : NodeId} {bs : List (Batch P.Msg)} (hledger : Ledger mesh a b bs)
    (hreceipts : Receipts past mesh a b) (h : mesh.step e = some mesh') (he : IsSteady e) :
    Receipts (⟨mesh, e, mesh'⟩ :: past) mesh' a b := by
  have hreceived := received_of_step h he a b
  have hpool : ∀ {β}, Arrives mesh e a b β → ⟨a, b, .batch β⟩ ∈ mesh.pool :=
    fun ⟨_, _, _, hk⟩ => Array.mem_of_getElem? hk
  have hfresh : ∀ {β i}, Arrives mesh e a b β → β.id = some i →
      mesh'.heard b = mesh.heard b ++ β.msgs.map (a, ·) →
      ¬ (mesh.channel b a).received.contains i := by
    intro β i harrives hid hheard
    have hmem := hledger.pooled β (hpool harrives) (by rw [hid]; exact Option.some_ne_none i)
    exact fresh_of_handedOver h he harrives hid (hledger.filled β hmem) hheard
  refine
    { pooled := fun β hβ => ?_
      of_handedOver := fun β i hβ hid => ?_
      of_skipped := fun i hi => ?_
      origin := fun i hpos hi => ?_
      disjoint := fun β i hβ hid hi => ?_ }
  · rcases handedOver_cons.mp hβ with ⟨harrives, -⟩ | hβ
    · exact mem_pool_of_step h (hpool harrives)
    · exact mem_pool_of_step h (hreceipts.pooled β hβ)
  · rcases handedOver_cons.mp hβ with ⟨harrives, -⟩ | hβ
    · exact (hreceived i).mpr (.inr ⟨β, i, harrives, hid, .inl rfl⟩)
    · exact (hreceived i).mpr (.inl (hreceipts.of_handedOver β i hβ hid))
  · rcases skipped_cons.mp hi with ⟨β, j, harrives, hid, hskips⟩ | hi
    · exact (hreceived i).mpr (.inr ⟨β, j, harrives, hid, .inr hskips⟩)
    · exact (hreceived i).mpr (.inl (hreceipts.of_skipped i hi))
  · by_cases hbefore : (mesh.channel b a).received.contains i
    · rcases hreceipts.origin i hpos hbefore with ⟨β, hβ, hid⟩ | hskipped
      · exact .inl ⟨β, handedOver_cons.mpr (.inr hβ), hid⟩
      · exact .inr (skipped_cons.mpr (.inr hskipped))
    · obtain ⟨β, j, harrives, hid, hj⟩ := ((hreceived i).mp hi).resolve_left hbefore
      rcases hj with rfl | hskips
      · left
        rcases heard_of_step h he b with ⟨a', β', i', harrives', -, -, hheard⟩ | ⟨hnone, -⟩
        · obtain ⟨rfl, -, rfl⟩ := harrives.unique harrives'
          exact ⟨β, handedOver_cons.mpr (.inl ⟨harrives, hheard⟩), hid⟩
        · exact absurd (hnone a β i harrives hid) hbefore
      · exact .inr (skipped_cons.mpr (.inl ⟨β, j, harrives, hid, hskips⟩))
  · -- what is skipped had not counted as received, and neither had what is handed over
    rcases handedOver_cons.mp hβ with ⟨harrives, hheard⟩ | hβ
    · rcases skipped_cons.mp hi with ⟨β', j, harrives', hid', hskips⟩ | hi
      · obtain ⟨-, -, rfl⟩ := harrives.unique harrives'
        rw [hid] at hid'
        cases hid'
        exact Link.not_skips_self i hskips
      · exact hfresh harrives hid hheard (hreceipts.of_skipped i hi)
    · rcases skipped_cons.mp hi with ⟨β', j, -, -, hskips⟩ | hi
      · exact hskips.2.1 (hreceipts.of_handedOver β i hβ hid)
      · exact hreceipts.disjoint β i hβ hid hi

/-- **A number that counts as received has been handed over or skipped, and not both.** -/
theorem receipts_of_run (hrun : Run ids IsSteady past mesh) (a b : NodeId) :
    Receipts past mesh a b := by
  induction hrun with
  | start h =>
    obtain ⟨-, hviews⟩ := start_views h
    have hnone : ∀ β, ¬ HandedOver ([] : List (Moment (P.recorded.reliable period))) a b β := by
      rintro β ⟨x, hx, -⟩
      exact List.not_mem_nil hx
    refine
      { pooled := fun β hβ => absurd hβ (hnone β)
        of_handedOver := fun β _ hβ => absurd hβ (hnone β)
        of_skipped := fun i ⟨_, hx, _⟩ => absurd hx List.not_mem_nil
        origin := fun i hpos hi => ?_
        disjoint := fun β _ hβ => absurd hβ (hnone β) }
    rw [(hviews b).1, ReceivedIds.contains_empty] at hi
    · cases hi
    · rintro rfl
      exact absurd hpos (by decide)
  | step hrun he h ih =>
    obtain ⟨bs, hledger⟩ := ledger_of_run hrun a b
    exact ih.passage hledger h he

/-- **An acknowledged batch has been handed over if and only if its number was not skipped.**  Here
nobody restarts or takes another node for gone, and the batch has a number that its sender does not
keep any more. -/
theorem handedOver_iff_not_skipped (hrun : Run ids IsSteady past mesh) {a b : NodeId}
    {β : Batch P.Msg} {i : BatchId} (hβ : ⟨a, b, .batch β⟩ ∈ mesh.pool) (hid : β.id = some i)
    (hacked : ¬ (mesh.channel a b).unacked.contains i) :
    HandedOver past a b β ↔ ¬ Skipped past a b i := by
  obtain ⟨bs, hledger⟩ := ledger_of_run hrun a b
  have hreceipts := receipts_of_run hrun a b
  refine ⟨fun hhanded => hreceipts.disjoint β i hhanded hid, fun hskipped => ?_⟩
  have hmem := hledger.pooled β hβ (by rw [hid]; exact Option.some_ne_none i)
  have hreceived := (hledger.held β hmem i hid).resolve_left hacked
  obtain ⟨i', hid', hpos, -⟩ := hledger.numbered β hmem
  rw [hid] at hid'
  cases hid'
  obtain ⟨β', hβ', hid'⟩ := (hreceipts.origin i hpos hreceived).resolve_right hskipped
  rwa [hledger.eq_of_id_eq hβ (hreceipts.pooled β' hβ') hid hid']

/-! ### A batch that is lost -/

/-- What has been handed over stays on record. -/
theorem HandedOver.mem_heard (hrun : Run ids IsSteady past mesh) {a b : NodeId} {β : Batch P.Msg}
    (hβ : HandedOver past a b β) {m : P.Msg} (hm : m ∈ β.msgs) : (a, m) ∈ mesh.heard b := by
  induction hrun with
  | start h =>
    obtain ⟨x, hx, -⟩ := hβ
    exact absurd hx List.not_mem_nil
  | step hrun he h ih =>
    rcases handedOver_cons.mp hβ with ⟨-, hheard⟩ | hβ
    · rw [hheard]
      exact List.mem_append_right _ (List.mem_map_of_mem hm)
    · rcases heard_of_step h he b with ⟨a', β', i', -, -, -, hheard⟩ | ⟨-, hheard⟩
      · rw [hheard]
        exact List.mem_append_left _ (ih hβ)
      · rw [hheard]
        exact ih hβ

/-- The first of three batches is late, and between the other two the reset request of the sender
comes again. -/
def lateReset : List (Event ((Protocol.pingPong 0).recorded.reliable 0)) :=
  let ping (ttl : UInt8) : Event ((Protocol.pingPong 0).recorded.reliable 0) :=
    .input ⟨0⟩ (.nested (⟨⟨1⟩, ttl⟩ : PingPong.Serve))
  [ping 0, .deliver 0, .deliver 1, ping 1, .deliver 3, .deliver 0, ping 1, .deliver 7, .deliver 2,
    .deliver 9]

def latePing : (Protocol.pingPong 0).Msg := (⟨0⟩ : PingPong.Ping)

def lateBatch : Batch (Protocol.pingPong 0).Msg := { id := some 1, msgs := [latePing] }

/-- Whether the late batch is acknowledged without having been handed over. -/
def isLost (mesh : Mesh ((Protocol.pingPong 0).recorded.reliable 0)) : Bool :=
  mesh.pool[2]? = some ⟨⟨0⟩, ⟨1⟩, .batch lateBatch⟩ ∧
    ¬ (mesh.channel ⟨0⟩ ⟨1⟩).unacked.contains 1 ∧
    (⟨0⟩, latePing) ∉ mesh.heard ⟨1⟩

theorem run_lateReset : ∃ past mesh, Run [⟨0⟩, ⟨1⟩] IsSteady past mesh ∧
    past.map (·.event) = lateReset.reverse ∧ isLost mesh = true :=
  @Run.exists ((Protocol.pingPong 0).recorded.reliable 0) [⟨0⟩, ⟨1⟩] IsSteady lateReset isLost
    (by simp [lateReset, IsSteady]) (by decide +kernel)

/-- What is lost is not on record, so it was not handed over. -/
theorem isLost_spec {past : List (Moment ((Protocol.pingPong 0).recorded.reliable 0))}
    {mesh : Mesh ((Protocol.pingPong 0).recorded.reliable 0)} (hrun : Run ids IsSteady past mesh)
    (hlost : isLost mesh = true) : ⟨⟨0⟩, ⟨1⟩, .batch lateBatch⟩ ∈ mesh.pool ∧
      ¬ (mesh.channel ⟨0⟩ ⟨1⟩).unacked.contains 1 ∧ ¬ HandedOver past ⟨0⟩ ⟨1⟩ lateBatch := by
  obtain ⟨hpool, hacked, hunheard⟩ := of_decide_eq_true hlost
  refine ⟨Array.mem_of_getElem? hpool, hacked, fun hhanded => hunheard ?_⟩
  exact hhanded.mem_heard hrun (List.mem_singleton_self latePing)

/-- **An acknowledged batch may never have been handed over.** -/
theorem acknowledged_not_handedOver : ∃ past mesh, Run [⟨0⟩, ⟨1⟩] IsSteady past mesh ∧
    past.map (·.event) = lateReset.reverse ∧ ⟨⟨0⟩, ⟨1⟩, .batch lateBatch⟩ ∈ mesh.pool ∧
    lateBatch.id = some 1 ∧ ¬ (mesh.channel ⟨0⟩ ⟨1⟩).unacked.contains 1 ∧
    ¬ HandedOver past ⟨0⟩ ⟨1⟩ lateBatch := by
  obtain ⟨past, mesh, hrun, hpast, hlost⟩ := run_lateReset
  obtain ⟨hpool, hacked, hnot⟩ := isLost_spec hrun hlost
  exact ⟨past, mesh, hrun, hpast, hpool, rfl, hacked, hnot⟩

/-- The number of the batch was skipped. -/
theorem skipped_of_lateReset : ∃ past mesh, Run [⟨0⟩, ⟨1⟩] IsSteady past mesh ∧
    past.map (·.event) = lateReset.reverse ∧ Skipped past ⟨0⟩ ⟨1⟩ 1 := by
  obtain ⟨past, mesh, hrun, hpast, hlost⟩ := run_lateReset
  obtain ⟨hpool, hacked, hnot⟩ := isLost_spec hrun hlost
  refine ⟨past, mesh, hrun, hpast, ?_⟩
  by_contra hskipped
  exact hnot ((handedOver_iff_not_skipped hrun hpool rfl hacked).mpr hskipped)

end Quorum.Reliable
