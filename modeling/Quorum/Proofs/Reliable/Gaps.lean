import Quorum.Proofs.Reliable.Incarnation
import Quorum.Proofs.Reliable.Kept

/-!
# Gaps — what a receiver that restarts waits for in vain

A receiver remembers the numbers that have come as a watermark and a sparse set above it.  As gaps
fill, the set shrinks, and one would expect it to be empty once the sender has had everything
acknowledged.  But a number may have come to an earlier incarnation of the receiver.  The sender has
had it acknowledged and never sends it again, the present incarnation has not got it, and the
watermark never gets past it: from then on, all that comes stays in the sparse set.

Here the sender does not restart, and its reset requests come before its first batch.  So its
numbers begin with one, and the receiver never gives up on any of them.  Three things make up the
argument: what counts as received by the present incarnation is what has come to it (`Intake`),
only what has come to some incarnation is ever acknowledged (`Truthful`), and a number that has been
given out is kept until it has come to one (`Outlay`).

**Main statements.**  `intake_of_run`, `truthful_of_run`, `outlay_of_run`: the three invariants.
`no_gaps_iff_nothing_forgotten`: when the sparse set is empty.  `gap_after_restart`: it need not be.
-/

namespace Quorum.Reliable

open SortedMap Mesh

variable {P : Protocol} {period : Time} {mesh mesh' : Mesh (P.recorded.reliable period)}
  {e : Event (P.recorded.reliable period)} {ids : List NodeId}
  {past : List (Moment (P.recorded.reliable period))}
  {x y : Moment (P.recorded.reliable period)} {a b : NodeId} {i : BatchId}

/-- What may happen as long as `a` does not restart, and neither of `a` and `b` takes the other one
for gone. -/
def Undisturbed (a b : NodeId) (e : Event (P.recorded.reliable period)) : Prop :=
  Spares b a e ∧ e ≠ .modify b (State.dismiss · a)

def handedIn (x : Moment (P.recorded.reliable period)) : Option (Packet (Message P.Msg)) :=
  match x.event with
  | .deliver k => x.before.pool[k]?
  | _ => none

/-- In the step `x`, a batch of `a` with number `i` comes to `b`. -/
def Brings (x : Moment (P.recorded.reliable period)) (a b : NodeId) (i : BatchId) : Prop :=
  ∃ β, handedIn x = some ⟨a, b, .batch β⟩ ∧ β.id = some i

/-- Number `i` of `a` has come to `b`, whichever incarnation of `b` it was. -/
def HasCome (past : List (Moment (P.recorded.reliable period))) (a b : NodeId) (i : BatchId) :
    Prop :=
  ∃ x ∈ past, Brings x a b i

/-- Number `i` of `a` has come to the present incarnation of `b`. -/
def HasComeSince (past : List (Moment (P.recorded.reliable period))) (a b : NodeId)
    (i : BatchId) : Prop :=
  ∃ x, Since past b x ∧ Brings x a b i

/-- In the step `x`, a reset request of `a` comes to `b`. -/
def asksIn (x : Moment (P.recorded.reliable period)) (a b : NodeId) : Bool :=
  (handedIn x).any fun p => p.sender = a ∧ p.recipient = b ∧ p.body.asks

/-- Reset requests of `a` come to `b` only before `a` has sent a batch with a number to `b`. -/
def AsksFirst (past : List (Moment (P.recorded.reliable period))) (a b : NodeId) : Prop :=
  ∀ x ∈ past, asksIn x a b → ∀ k < x.before.pool.size, numberAt x.before a b k = none

instance : Decidable (AsksFirst past a b) := inferInstanceAs (Decidable (∀ x ∈ past, _))

/-! ### What has come -/

theorem handedIn_eq_some {p : Packet (Message P.Msg)} :
    handedIn x = some p ↔ ∃ k, x.event = .deliver k ∧ x.before.pool[k]? = some p := by
  unfold handedIn
  split
  · rename_i k hk
    rw [hk]
    exact ⟨fun hp => ⟨k, rfl, hp⟩, fun ⟨_, hk', hp⟩ => by cases hk'; exact hp⟩
  · rename_i hnone
    exact ⟨nofun, fun ⟨k, hk, _⟩ => absurd hk (hnone k)⟩

theorem asksIn_of_handedIn {r : Reset} (h : handedIn x = some ⟨a, b, .reset r⟩)
    (hr : r.isResponse = false) : asksIn x a b := by
  rw [asksIn, h, Option.any_some, decide_eq_true_iff]
  exact ⟨rfl, rfl, by rw [Message.asks, hr]; rfl⟩

theorem since_cons : Since (x :: past) b y ↔
    y = x ∨ (x.event.isRestart b = false ∧ Since past b y) := by
  constructor
  · rintro ⟨newer, older, heq, hnewer⟩
    cases newer with
    | nil =>
      cases heq
      exact .inl rfl
    | cons z newer =>
      cases heq
      obtain ⟨hx, hnewer⟩ := List.forall_mem_cons.mp hnewer
      exact .inr ⟨hx, newer, older, rfl, hnewer⟩
  · rintro (rfl | ⟨hx, hy⟩)
    · exact .self
    · exact hy.cons hx

theorem hasComeSince_cons : HasComeSince (x :: past) a b i ↔
    Brings x a b i ∨ (x.event.isRestart b = false ∧ HasComeSince past a b i) := by
  unfold HasComeSince
  simp only [since_cons]
  constructor
  · rintro ⟨y, rfl | ⟨hx, hy⟩, hbrings⟩
    · exact .inl hbrings
    · exact .inr ⟨hx, y, hy, hbrings⟩
  · rintro (hbrings | ⟨hx, y, hy, hbrings⟩)
    · exact ⟨x, .inl rfl, hbrings⟩
    · exact ⟨y, .inr ⟨hx, hy⟩, hbrings⟩

theorem HasComeSince.hasCome (h : HasComeSince past a b i) : HasCome past a b i := by
  obtain ⟨x, hx, hbrings⟩ := h
  exact ⟨x, hx.mem, hbrings⟩

theorem HasCome.cons (h : HasCome past a b i) : HasCome (x :: past) a b i := by
  obtain ⟨y, hy, hbrings⟩ := h
  exact ⟨y, List.mem_cons_of_mem _ hy, hbrings⟩

/-- What has come has been sent. -/
theorem HasCome.numberAt {may : Event (P.recorded.reliable period) → Prop}
    (hrun : Run ids may past mesh) (h : HasCome past a b i) :
    ∃ k < mesh.pool.size, numberAt mesh a b k = some i := by
  obtain ⟨x, hx, β, hβ, hid⟩ := h
  obtain ⟨k, -, hk⟩ := handedIn_eq_some.mp hβ
  have hpool := hrun.getElem?_pool hx hk
  exact ⟨k, (Array.getElem?_eq_some_iff.mp hpool).1, numberAt_eq_some.mpr ⟨β, hpool, hid⟩⟩

theorem restart_of_step (h : mesh.step (.restart b) = some mesh') :
    mesh'.channel b a = {} ∧ mesh'.dismissed b = [] ∧
      ∀ (k : Nat) p, mesh'.pool[k]? = some p → mesh.pool[k]? = some p := by
  obtain ⟨node, s, s', out, hs, hacts, rfl⟩ := step_spec h
  cases hacts with
  | restart hstart =>
    obtain ⟨hlink, -, -, hdismissed⟩ := start_eq_ok hstart
    refine ⟨?_, ?_, fun k p hk => ?_⟩
    · rw [Mesh.channel, view_turned_self, hlink]
    · rw [Mesh.dismissed, view_turned_self, hdismissed]
    · refine (getElem?_pool_turned_iff.mp hk).resolve_right fun hsent => ?_
      cases hsent.2.2

/-! ### What counts as received -/

/-- What counts as received by the present incarnation of `b` is what has come to it from `a`; no
answer of `b`, whichever incarnation gave it, tells `a` anything but zero. -/
structure Intake (past : List (Moment (P.recorded.reliable period)))
    (mesh : Mesh (P.recorded.reliable period)) (a b : NodeId) : Prop where
  wellFormed : (mesh.channel b a).received.WellFormed
  stays : a ∉ mesh.dismissed b
  contains : ∀ i, (mesh.channel b a).received.contains i ↔ i = 0 ∨ HasComeSince past a b i
  answered : ∀ n, (mesh.channel b a).answeredReset = some n → n = 0
  told : ∀ (k : Nat) n, mesh.pool[k]? = some ⟨b, a, .reset ⟨true, n⟩⟩ → n = 0

/-- A node that has just started has received nothing. -/
theorem Intake.fresh (hchannel : mesh.channel b a = {}) (hdismissed : mesh.dismissed b = [])
    (hnone : ∀ i, ¬ HasComeSince past a b i)
    (htold : ∀ (k : Nat) n, mesh.pool[k]? = some ⟨b, a, .reset ⟨true, n⟩⟩ → n = 0) :
    Intake past mesh a b where
  wellFormed := by
    rw [hchannel]
    exact ReceivedIds.wellFormed_empty
  stays := by
    rw [hdismissed]
    exact List.not_mem_nil
  contains i := by
    rw [hchannel, or_iff_left (hnone i)]
    constructor
    · intro hi
      by_contra hne
      exact Bool.eq_false_iff.mp (ReceivedIds.contains_empty hne) hi
    · rintro rfl
      exact ReceivedIds.contains_zero _
  answered n hn := by
    rw [hchannel] at hn
    cases hn
  told := htold

/-- When a reset request comes, nothing has come before it. -/
theorem Intake.latest (hintake : Intake past mesh a b)
    {may : Event (P.recorded.reliable period) → Prop} (hrun : Run ids may past mesh)
    (hearly : ∀ k < mesh.pool.size, numberAt mesh a b k = none) :
    (mesh.channel b a).received.latest = 0 := by
  rcases (hintake.contains _).mp (ReceivedIds.contains_latest _) with hzero | hcome
  · exact hzero
  · obtain ⟨k, hk, hnumber⟩ := hcome.hasCome.numberAt hrun
    rw [hearly k hk] at hnumber
    cases hnumber

theorem Intake.restart (hintake : Intake past mesh a b)
    (h : mesh.step (.restart b) = some mesh') :
    Intake (⟨mesh, .restart b, mesh'⟩ :: past) mesh' a b := by
  obtain ⟨hchannel, hdismissed, hpool⟩ := restart_of_step h
  refine .fresh hchannel hdismissed (fun i hi => ?_) fun k n hk => hintake.told k n (hpool k _ hk)
  rcases hasComeSince_cons.mp hi with ⟨β, hβ, -⟩ | ⟨hnot, -⟩
  · cases hβ
  · simp [Event.isRestart] at hnot

/-- In a step of the present incarnation, what comes is received; since the reset requests come
first, nothing is given up. -/
theorem Intake.step (hintake : Intake past mesh a b)
    {may : Event (P.recorded.reliable period) → Prop} (hrun : Run ids may past mesh)
    (h : mesh.step e = some mesh') (hspares : Spares a b e)
    (hasks : AsksFirst (⟨mesh, e, mesh'⟩ :: past) a b) :
    Intake (⟨mesh, e, mesh'⟩ :: past) mesh' a b := by
  obtain ⟨hstays, came, news, ms, hact, hcame, hpool⟩ := act_of_step h hspares hintake.stays
  have hbrings : ∀ i, Brings ⟨mesh, e, mesh'⟩ a b i ↔
      ∃ β, came = some (.batch β) ∧ β.id = some i := fun i => by
    simp only [Brings, handedIn_eq_some, hcame]
  have hzero : ∀ n, .reset ⟨true, n⟩ ∈ ms → n = 0 := by
    intro n hn
    obtain ⟨rfl, -, r, hr, hresponse⟩ := hact.answer hn
    have hhanded := handedIn_eq_some (x := ⟨mesh, e, mesh'⟩).mpr ((hcame _).mp hr)
    exact hintake.latest hrun
      (hasks _ (List.mem_cons_self ..) (asksIn_of_handedIn hhanded hresponse))
  refine
    { wellFormed := hact.wellFormed hintake.wellFormed
      stays := hstays
      contains := fun i => ?_
      answered := fun n hn => (hact.answered hn).elim (hintake.answered n) (hzero n)
      told := fun k n hk => (hpool k _ hk).elim (hintake.told k n) fun hn => hzero n hn.2 }
  rw [hact.received i, hintake.contains i, hasComeSince_cons, hbrings,
    Event.isRestart_eq_false.mpr hspares.2.1]
  constructor
  · rintro ((hi | hi) | ⟨β, id, hβ, hid, rfl | ⟨-, hnot, n, hn, hle⟩⟩)
    · exact .inl hi
    · exact .inr (.inr ⟨rfl, hi⟩)
    · exact .inr (.inl ⟨β, hβ, hid⟩)
    · -- nothing but zero could be given up
      rw [hintake.answered n hn, UInt32.le_iff_toNat_le] at hle
      have hi : i = 0 := UInt32.toNat_inj.mp (Nat.le_zero.mp hle)
      exact .inl hi
  · rintro (hi | ⟨β, hβ, hid⟩ | ⟨-, hi⟩)
    · exact .inl (.inl hi)
    · exact .inr ⟨β, i, hβ, hid, .inl rfl⟩
    · exact .inl (.inr hi)

/-- **What counts as received is what has come since the last restart.** -/
theorem intake_of_run (hrun : Run ids (Undisturbed a b) past mesh) (hasks : AsksFirst past a b) :
    Intake past mesh a b := by
  induction hrun with
  | start h =>
    obtain ⟨hpool, hviews⟩ := start_views h
    obtain ⟨hchannel, -, -, hdismissed⟩ := hviews b
    refine .fresh (hchannel a) hdismissed (fun i hi => ?_) fun k n hk => ?_
    · obtain ⟨x, hx, -⟩ := hi
      exact absurd hx.mem List.not_mem_nil
    · rw [hpool] at hk
      cases hk
  | @step past mesh e mesh' hrun he h ih =>
    have ih := ih (List.forall_mem_cons.mp hasks).2
    by_cases hrestart : e = .restart b
    · subst hrestart
      exact ih.restart h
    · exact ih.step hrun h ⟨he.1.1, hrestart, he.2⟩ hasks

/-! ### What is acknowledged -/

/-- Only what has come from `a` is acknowledged by `b`, in what is on its way and in what may be
sent again. -/
structure Truthful (past : List (Moment (P.recorded.reliable period)))
    (mesh : Mesh (P.recorded.reliable period)) (a b : NodeId) : Prop where
  pooled : ∀ (k : Nat) β, mesh.pool[k]? = some ⟨b, a, .batch β⟩ →
    ∀ i ∈ β.acks, i = 0 ∨ HasCome past a b i
  kept : ∀ j kept, (mesh.channel b a).unacked.get? j = some kept →
    ∀ i ∈ kept.batch.acks, i = 0 ∨ HasCome past a b i

theorem Truthful.restart (htruthful : Truthful past mesh a b)
    (h : mesh.step (.restart b) = some mesh') :
    Truthful (⟨mesh, .restart b, mesh'⟩ :: past) mesh' a b := by
  obtain ⟨hchannel, -, hpool⟩ := restart_of_step h
  refine
    { pooled := fun k β hk i hi => (htruthful.pooled k β (hpool k _ hk) i hi).imp_right .cons
      kept := fun j kept hkept => ?_ }
  rw [hchannel] at hkept
  cases hkept

/-- What is acknowledged anew has been received, so it has come. -/
theorem Truthful.step (htruthful : Truthful past mesh a b) (h : mesh.step e = some mesh')
    (hspares : Spares a b e) (hbefore : Intake past mesh a b)
    (hafter : Intake (⟨mesh, e, mesh'⟩ :: past) mesh' a b) :
    Truthful (⟨mesh, e, mesh'⟩ :: past) mesh' a b := by
  obtain ⟨-, came, news, ms, hact, -, hpool⟩ := act_of_step h hspares hbefore.stays
  obtain ⟨new, hturn⟩ := hact.turn
  have hcome : ∀ i, (mesh'.channel b a).received.contains i →
      i = 0 ∨ HasCome (⟨mesh, e, mesh'⟩ :: past) a b i := fun i hi =>
    ((hafter.contains i).mp hi).imp_right HasComeSince.hasCome
  refine { pooled := fun k β hk i hi => ?_, kept := fun j kept' hkept' i hi => ?_ }
  · rcases hpool k _ hk with hold | ⟨-, hsent⟩
    · exact (htruthful.pooled k β hold i hi).imp_right .cons
    · rcases hturn.sends β hsent with hnew | ⟨j, kept, hkept, rfl⟩ | ⟨-, hacks⟩
      · exact hcome i (hturn.new_acks β hnew i hi)
      · exact (htruthful.kept j kept hkept i hi).imp_right .cons
      · exact hcome i (hacks i hi)
  · rcases hturn.keeps j kept' hkept' with hnew | ⟨kept, hkept, hsame⟩
    · exact hcome i (hturn.new_acks _ hnew i hi)
    · exact (htruthful.kept j kept hkept i (hsame ▸ hi)).imp_right .cons

/-- **Only what has come is acknowledged.** -/
theorem truthful_of_run (hrun : Run ids (Undisturbed a b) past mesh) (hasks : AsksFirst past a b) :
    Truthful past mesh a b := by
  induction hrun with
  | start h =>
    obtain ⟨hpool, hviews⟩ := start_views h
    refine { pooled := fun k β hk => ?_, kept := fun j kept hkept => ?_ }
    · rw [hpool] at hk
      cases hk
    · rw [(hviews b).1 a] at hkept
      cases hkept
  | @step past mesh e mesh' hrun he h ih =>
    have hbefore := (List.forall_mem_cons.mp hasks).2
    have ih := ih hbefore
    by_cases hrestart : e = .restart b
    · subst hrestart
      exact ih.restart h
    · exact ih.step h ⟨he.1.1, hrestart, he.2⟩ (intake_of_run hrun hbefore)
        (intake_of_run (.step hrun he h) hasks)

/-! ### What is kept -/

/-- The channel from `a` to `b` has given out the numbers from one on to the batches `bs`, which are
all that may be on its way; each of them is kept until it has come to `b`. -/
structure Outlay (past : List (Moment (P.recorded.reliable period)))
    (mesh : Mesh (P.recorded.reliable period)) (a b : NodeId) (base : Nat)
    (bs : List (Batch P.Msg)) : Prop where
  stays : b ∉ mesh.dismissed a
  register : Register base bs (mesh.channel a b)
  coherent : (mesh.channel a b).Coherent
  first : (mesh.channel a b).nextId ≠ none → base = 1
  pooled : ∀ (k : Nat) β, mesh.pool[k]? = some ⟨a, b, .batch β⟩ → β.id ≠ none → β ∈ bs
  held : ∀ β ∈ bs, ∀ i, β.id = some i →
    (mesh.channel a b).unacked.contains i ∨ HasCome past a b i

/-- The numbers given out begin with one. -/
theorem Outlay.mem_iff {base : Nat} {bs : List (Batch P.Msg)}
    (houtlay : Outlay past mesh a b base bs) :
    (∃ β ∈ bs, β.id = some i) ↔ 1 ≤ i.toNat ∧ i.toNat ≤ bs.length := by
  have hbase : bs ≠ [] → base = 1 := fun hne =>
    houtlay.first fun hnone => hne (houtlay.register.unsettled hnone)
  constructor
  · rintro ⟨β, hβ, hid⟩
    obtain ⟨j, hj, hle, hlt⟩ := houtlay.register.consecutive.id_of_mem hβ
    rw [hid] at hj
    cases hj
    have hone := hbase (List.ne_nil_of_mem hβ)
    omega
  · rintro ⟨hpos, hle⟩
    have hlt : i.toNat - 1 < bs.length := by omega
    obtain ⟨j, hid, hj⟩ :=
      houtlay.register.consecutive (i.toNat - 1) _ (List.getElem?_eq_getElem hlt)
    have hone := hbase (List.ne_nil_of_length_pos (by omega))
    have hsame : j = i := UInt32.toNat_inj.mp (by omega)
    exact ⟨_, List.getElem_mem hlt, hsame ▸ hid⟩

theorem Outlay.of_hasCome {base : Nat} {bs : List (Batch P.Msg)}
    (houtlay : Outlay past mesh a b base bs)
    {may : Event (P.recorded.reliable period) → Prop} (hrun : Run ids may past mesh)
    (h : HasCome past a b i) : ∃ β ∈ bs, β.id = some i := by
  obtain ⟨k, -, hnumber⟩ := h.numberAt hrun
  obtain ⟨β, hpool, hid⟩ := numberAt_eq_some.mp hnumber
  exact ⟨β, houtlay.pooled k β hpool (by rw [hid]; exact Option.some_ne_none i), hid⟩

theorem Outlay.start (h : Mesh.start (P.recorded.reliable period) ids = .ok mesh) :
    Outlay [] mesh a b 1 [] := by
  obtain ⟨hpool, hviews⟩ := start_views h
  obtain ⟨hchannel, -, -, hdismissed⟩ := hviews a
  refine
    { stays := ?_
      register := ?_
      coherent := ?_
      first := fun _ => rfl
      pooled := fun k β hk => ?_
      held := fun β hβ => absurd hβ List.not_mem_nil }
  · rw [hdismissed]
    exact List.not_mem_nil
  · rw [hchannel]
    exact .start 1
  · rw [hchannel]
    exact Link.coherent_empty
  · rw [hpool] at hk
    cases hk

/-- What a step gives out is kept, and what it gives up has been acknowledged. -/
theorem Outlay.step {base : Nat} {bs : List (Batch P.Msg)} (houtlay : Outlay past mesh a b base bs)
    (h : mesh.step e = some mesh') (hspares : Spares b a e)
    (hintake : Intake past mesh a b) (htruthful : Truthful past mesh a b) :
    ∃ base' bs', Outlay (⟨mesh, e, mesh'⟩ :: past) mesh' a b base' bs' := by
  obtain ⟨hstays, came, news, ms, hact, hcame, hpool⟩ := act_of_step h hspares houtlay.stays
  obtain ⟨base', new, hgrows⟩ := houtlay.register.act hact
  refine ⟨base', bs ++ new,
    { stays := hstays
      register := hgrows.register
      coherent := houtlay.coherent.act hact
      first := fun hsettled => ?_
      pooled := fun k β hk hid => ?_
      held := fun β hβ i hid => ?_ }⟩
  · by_cases hnone : (mesh.channel a b).nextId = none
    · obtain ⟨latest, hlatest, hbase⟩ := hgrows.settles hnone hsettled
      obtain ⟨k, -, hk⟩ := (hcame _).mp hlatest
      rw [hbase, hintake.told k latest hk]
      rfl
    · rw [(hgrows.settled hnone).1]
      exact houtlay.first hnone
  · rcases hpool k _ hk with hold | ⟨-, hsent⟩
    · exact List.mem_append_left _ (houtlay.pooled k β hold hid)
    · have hnumbered : β ∈ numbered ms := mem_numbered.mpr ⟨hsent, hid⟩
      rcases hgrows.advance.sends with hnew | ⟨-, hkept⟩
      · exact List.mem_append_right _ (hnew ▸ hnumbered)
      · obtain ⟨j, kept, hkept, rfl⟩ := hkept β hnumbered
        exact (hgrows.register.kept j kept hkept).1
  · rcases List.mem_append.mp hβ with hold | hnew
    · rcases houtlay.held β hold i hid with hkept | hcome
      · by_cases hacked : ∃ m ∈ came, i ∈ m.acks
        · obtain ⟨m, hm, hi⟩ := hacked
          obtain ⟨k, -, hk⟩ := (hcame m).mp hm
          cases m with
          | batch β' =>
            -- what is acknowledged has come, unless it is zero, which is never given out
            right
            refine ((htruthful.pooled k β' hk i hi).resolve_left ?_).cons
            rintro rfl
            exact absurd (houtlay.mem_iff.mp ⟨β, hold, hid⟩).1 (by decide)
          | reset r => cases hi
        · exact .inl (hact.keeps houtlay.coherent hkept fun m hm hi => hacked ⟨m, hm, hi⟩)
      · exact .inr hcome.cons
    · left
      rcases hgrows.advance.sends with hsent | ⟨hnone, -⟩
      · refine hact.keeps_sent houtlay.coherent ?_
        rw [numbers_eq, hsent]
        exact List.mem_filterMap.mpr ⟨β, hnew, hid⟩
      · rw [hnone] at hnew
        cases hnew

theorem outlay_of_run (hrun : Run ids (Undisturbed a b) past mesh) (hasks : AsksFirst past a b) :
    ∃ base bs, Outlay past mesh a b base bs := by
  induction hrun with
  | start h => exact ⟨1, [], .start h⟩
  | @step past mesh e mesh' hrun he h ih =>
    have hbefore := (List.forall_mem_cons.mp hasks).2
    obtain ⟨base, bs, ih⟩ := ih hbefore
    exact ih.step h he.1 (intake_of_run hrun hbefore) (truthful_of_run hrun hbefore)

/-! ### Gaps -/

/-- **When nothing is waited for in vain.**  Node `a` does not restart, `b` may restart at any time,
and neither takes the other one for gone; messages may be lost, reordered and doubled, but reset
requests of `a` come to `b` only before `a` has sent it a batch with a number.  When `a` keeps
nothing for `b` any more, the sparse set of `b` is empty if and only if no number that has come to
an earlier incarnation of `b` only lies below one that has come to the present incarnation. -/
theorem no_gaps_iff_nothing_forgotten (hrun : Run ids (Undisturbed a b) past mesh)
    (hasks : AsksFirst past a b) (hdone : (mesh.channel a b).unacked = ∅) :
    (mesh.channel b a).received.above = [] ↔
      ∀ i j, i < j → HasComeSince past a b j → HasCome past a b i → HasComeSince past a b i := by
  have hintake := intake_of_run hrun hasks
  obtain ⟨base, bs, houtlay⟩ := outlay_of_run hrun hasks
  rw [hintake.wellFormed.above_eq_nil_iff]
  constructor
  · intro hclosed i j hlt hj hi
    refine ((hintake.contains i).mp (hclosed i j hlt ?_)).resolve_left ?_
    · exact (hintake.contains j).mpr (.inr hj)
    · rintro rfl
      exact absurd (houtlay.mem_iff.mp (houtlay.of_hasCome hrun hi)).1 (by decide)
  · intro hall i j hlt hj
    rw [UInt32.lt_iff_toNat_lt] at hlt
    by_cases hi : i = 0
    · exact (hintake.contains i).mpr (.inl hi)
    · have hpos : i.toNat ≠ 0 := fun hzero => hi (UInt32.toNat_inj.mp hzero)
      have hj : HasComeSince past a b j := by
        refine ((hintake.contains j).mp hj).resolve_left ?_
        rintro rfl
        exact Nat.not_lt_zero _ hlt
      -- the number below has been given out, so it has come to some incarnation
      have hle := (houtlay.mem_iff.mp (houtlay.of_hasCome hrun hj.hasCome)).2
      obtain ⟨β, hβ, hid⟩ := (houtlay.mem_iff (i := i)).mpr ⟨by omega, by omega⟩
      have hcome : HasCome past a b i := by
        refine (houtlay.held β hβ i hid).resolve_left fun hkept => ?_
        rw [hdone] at hkept
        exact Bool.false_ne_true hkept
      exact (hintake.contains i).mpr
        (.inr (hall i j (UInt32.lt_iff_toNat_lt.mpr hlt) hj hcome))

/-- Node 1 restarts when the first batch has come to it, and the batch comes again. -/
def cameAgain : List (Event ((Protocol.pingPong 0).recorded.reliable 0)) :=
  [pingEvent, .deliver 0, .deliver 1, .deliver 2, .deliver 3, .restart ⟨1⟩, .deliver 2]

theorem no_gaps_of_cameAgain : ∃ past mesh, Run [⟨0⟩, ⟨1⟩] (Undisturbed ⟨0⟩ ⟨1⟩) past mesh ∧
    past.map (·.event) = cameAgain.reverse ∧ AsksFirst past ⟨0⟩ ⟨1⟩ ∧
    (mesh.channel ⟨0⟩ ⟨1⟩).unacked = ∅ ∧ ∀ i j, i < j → HasComeSince past ⟨0⟩ ⟨1⟩ j →
      HasCome past ⟨0⟩ ⟨1⟩ i → HasComeSince past ⟨0⟩ ⟨1⟩ i := by
  obtain ⟨past, mesh, hrun, hevents, htest⟩ :=
    @Run.exists_past ((Protocol.pingPong 0).recorded.reliable 0) [⟨0⟩, ⟨1⟩]
      (Undisturbed ⟨0⟩ ⟨1⟩) cameAgain
      (fun
        | [] => false
        | x :: earlier => AsksFirst (P := Protocol.pingPong 0) (x :: earlier) ⟨0⟩ ⟨1⟩ ∧
            (x.after.channel ⟨0⟩ ⟨1⟩).unacked = ∅ ∧
            (x.after.channel ⟨1⟩ ⟨0⟩).received.above = [])
      (by simp [cameAgain, pingEvent, Undisturbed, Spares, IsLossy]) (by decide +kernel)
  cases hrun with
  | start => cases htest
  | step hrun hmay h =>
    obtain ⟨hasks, hdone, habove⟩ := of_decide_eq_true htest
    exact ⟨_, _, .step hrun hmay h, hevents, hasks, hdone,
      (no_gaps_iff_nothing_forgotten (.step hrun hmay h) hasks hdone).mp habove⟩

/-- Node 1 restarts when the first batch has come to it, and a second one comes after that. -/
def cameBefore : List (Event ((Protocol.pingPong 0).recorded.reliable 0)) :=
  [pingEvent, .deliver 0, .deliver 1, .deliver 2, .deliver 3, .restart ⟨1⟩, pingEvent, .deliver 4,
    .deliver 5]

/-- **Everything may be acknowledged and the sparse set not empty.** -/
theorem gap_after_restart : ∃ past mesh, Run [⟨0⟩, ⟨1⟩] (Undisturbed ⟨0⟩ ⟨1⟩) past mesh ∧
    past.map (·.event) = cameBefore.reverse ∧ AsksFirst past ⟨0⟩ ⟨1⟩ ∧
    (mesh.channel ⟨0⟩ ⟨1⟩).unacked = ∅ ∧ (mesh.channel ⟨1⟩ ⟨0⟩).received.above = [2] := by
  obtain ⟨past, mesh, hrun, hevents, htest⟩ :=
    @Run.exists_past ((Protocol.pingPong 0).recorded.reliable 0) [⟨0⟩, ⟨1⟩]
      (Undisturbed ⟨0⟩ ⟨1⟩) cameBefore
      (fun
        | [] => false
        | x :: earlier => AsksFirst (P := Protocol.pingPong 0) (x :: earlier) ⟨0⟩ ⟨1⟩ ∧
            (x.after.channel ⟨0⟩ ⟨1⟩).unacked = ∅ ∧
            (x.after.channel ⟨1⟩ ⟨0⟩).received.above = [2])
      (by simp [cameBefore, pingEvent, Undisturbed, Spares, IsLossy]) (by decide +kernel)
  cases hrun with
  | start => cases htest
  | step hrun hmay h =>
    obtain ⟨hasks, hdone, habove⟩ := of_decide_eq_true htest
    exact ⟨_, _, .step hrun hmay h, hevents, hasks, hdone, habove⟩

end Quorum.Reliable
