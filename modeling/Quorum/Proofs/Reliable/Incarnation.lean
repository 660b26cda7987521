import Quorum.Proofs.Reliable.AtMostOnce
import Quorum.Proofs.Reliable.Life

/-!
# Incarnation — numbers across restarts

A node that restarts has forgotten its numbers, and asks its peer for the last one that it has
seen.  What the earlier incarnations of the node have sent is still on its way then, and so are the
answers to their reset requests.  Nothing in an answer tells to which incarnation it was given, so a
node may take up one that is out of date.

The numbers of an incarnation are new to the peer as of the moment when the peer gave the answer.
If a batch of an earlier incarnation gets through to the peer after that moment, the numbers that
come to count as received by it are used a second time.

**Main statements.**  `lives_of_run`: each incarnation of a node is a life.  `vouched_of_run`: an
answer bounds all that counted as received when it was given.
`number_new_iff_nothing_stale`: what the numbers of an incarnation being new comes to.
`number_used_again`: they need not be.
-/

namespace Quorum.Reliable

open Mesh

variable {P : Protocol} {period : Time} {mesh mesh' : Mesh (P.recorded.reliable period)}
  {e : Event (P.recorded.reliable period)} {ids : List NodeId}
  {past earlier later : List (Moment (P.recorded.reliable period))}
  {x : Moment (P.recorded.reliable period)} {a b : NodeId} {i latest : BatchId} {k : Nat}

/-- What may happen as long as node `b` neither restarts nor takes `a` for gone. -/
def Spares (a b : NodeId) (e : Event (P.recorded.reliable period)) : Prop :=
  IsLossy e ∧ e ≠ .restart b ∧ e ≠ .modify b (State.dismiss · a)

/-- The number of the `k`-th message ever sent, if that is a batch of `a` for `b` with a number. -/
def numberAt (mesh : Mesh (P.recorded.reliable period)) (a b : NodeId) (k : Nat) :
    Option BatchId :=
  match mesh.pool[k]? with
  | some ⟨sender, recipient, .batch β⟩ => if sender = a ∧ recipient = b then β.id else none
  | _ => none

/-- The `k`-th message ever sent was sent before `a` last restarted. -/
def Stale (past : List (Moment (P.recorded.reliable period))) (a : NodeId) (k : Nat) : Prop :=
  ∃ y ∈ past, y.event.isRestart a = true ∧ k < y.before.pool.size

instance : Decidable (Stale past a k) := inferInstanceAs (Decidable (∃ y ∈ past, _))

/-- Node `a` has not restarted since the step `y`. -/
def Since (past : List (Moment (P.recorded.reliable period))) (a : NodeId)
    (y : Moment (P.recorded.reliable period)) : Prop :=
  ∃ newer older, past = newer ++ y :: older ∧ ∀ z ∈ newer, z.event.isRestart a = false

/-- In the step `x`, the present incarnation of `a` sends a batch with number `i` to `b` for the
first time: whatever there was with this number is of earlier incarnations. -/
def FirstSends (x : Moment (P.recorded.reliable period))
    (earlier : List (Moment (P.recorded.reliable period))) (a b : NodeId) (i : BatchId) : Prop :=
  (∃ k < x.after.pool.size, x.before.pool.size ≤ k ∧ numberAt x.after a b k = some i) ∧
    ∀ k < x.before.pool.size, numberAt x.before a b k = some i → Stale earlier a k

instance : Decidable (FirstSends x earlier a b i) :=
  inferInstanceAs (Decidable ((∃ k < _, _) ∧ ∀ k < _, _ → Stale earlier a k))

/-- The numbering of the present incarnation of `a` towards `b` has been settled by the `k`-th
message ever sent, an answer of `b` that tells `latest`. -/
def SettledBy (past : List (Moment (P.recorded.reliable period))) (a b : NodeId) (k : Nat)
    (latest : BatchId) : Prop :=
  ∃ y, Since past a y ∧ y.event = .deliver k ∧
    y.before.pool[k]? = some ⟨b, a, .reset ⟨true, latest⟩⟩ ∧
    ¬ (y.before.channel a b).isInitialized ∧ (y.after.channel a b).isInitialized

/-- In the step `z`, number `i` of `a` comes to count as received at `b`, by the `k`-th message ever
sent, a batch of `a`. -/
def Records (z : Moment (P.recorded.reliable period)) (a b : NodeId) (i : BatchId) (k : Nat) :
    Prop :=
  z.event = .deliver k ∧ numberAt z.before a b k ≠ none ∧
    ¬ (z.before.channel b a).received.contains i ∧ (z.after.channel b a).received.contains i

theorem numberAt_eq_some : numberAt mesh a b k = some i ↔
    ∃ β, mesh.pool[k]? = some ⟨a, b, .batch β⟩ ∧ β.id = some i := by
  unfold numberAt
  split
  · rename_i sender recipient β hp
    rw [Option.ite_none_right_eq_some, hp]
    constructor
    · rintro ⟨⟨rfl, rfl⟩, hid⟩
      exact ⟨β, rfl, hid⟩
    · rintro ⟨β', hβ', hid⟩
      cases hβ'
      exact ⟨⟨rfl, rfl⟩, hid⟩
  · rename_i hnone
    exact ⟨nofun, fun ⟨β, hβ, _⟩ => absurd hβ (hnone a b β)⟩

theorem stale_cons : Stale (x :: past) a k ↔
    (x.event.isRestart a = true ∧ k < x.before.pool.size) ∨ Stale past a k :=
  List.exists_mem_cons_iff ..

/-! ### Incarnations -/

/-- An event of a node that does not restart is a call. -/
theorem call_of_acts {node : NodeId} {s s' : State P.recorded}
    {out : List (Outgoing (Message P.Msg))} (h : Acts mesh node s e s' out) (he : IsLossy e)
    (hstays : e.isRestart node = false) :
    ∃ c r, call (P := P.recorded) period node s c = .ok r ∧ s' = r.state ∧ out = r.sent ∧
      (∀ q m, c = .message q m ↔ ∃ k, e = .deliver k ∧ mesh.pool[k]? = some ⟨q, node, m⟩) ∧
      ∀ q, c = .dismiss q → e = .modify node (State.dismiss · q) := by
  cases h with
  | @input i r h =>
    exact ⟨.input i, r, h, rfl, rfl, fun q m => ⟨nofun, fun ⟨_, hk, _⟩ => by cases hk⟩, nofun⟩
  | @deliver k p r hp hto h =>
    refine ⟨.message p.sender p.body, r, h, rfl, rfl, fun q m => ⟨fun hm => ?_, ?_⟩, nofun⟩
    · cases hm
      exact ⟨k, rfl, by rw [hp, ← hto]⟩
    · rintro ⟨k', hk, hpool⟩
      cases hk
      rw [hp] at hpool
      cases hpool
      rfl
  | forge => cases he
  | modify =>
    obtain ⟨peer, rfl⟩ := he
    refine ⟨.dismiss peer, { state := State.dismiss s peer }, rfl, rfl, rfl, fun q m =>
      ⟨nofun, fun ⟨_, hk, _⟩ => by cases hk⟩, fun q hq => ?_⟩
    cases hq
    rfl
  | restart =>
    exact absurd rfl (Event.isRestart_eq_false.mp hstays)

/-- The present incarnation of node `a` has lived as the log says: what it has sent is what is not
stale in the pool, and what it has got are deliveries. -/
structure Lives (past : List (Moment (P.recorded.reliable period)))
    (mesh : Mesh (P.recorded.reliable period)) (a : NodeId) (log : List (Episode P.recorded)) :
    Prop where
  life : ∀ s, mesh.nodes.get? a = some s → Life (P := P.recorded) period a log s
  sent : ∀ q m, m ∈ sentTo q log ↔
    ∃ k, mesh.pool[k]? = some ⟨a, q, m⟩ ∧ ¬ Stale past a k
  origin : ∀ y ∈ log, ∀ q m, y.call = .message q m → ∃ z k, Since past a z ∧
    z.event = .deliver k ∧ z.before.pool[k]? = some ⟨q, a, m⟩ ∧
    z.before.nodes.get? a = some y.before ∧ z.after.nodes.get? a = some y.reaction.state

theorem Since.cons {y : Moment (P.recorded.reliable period)} (h : Since past a y)
    (hx : x.event.isRestart a = false) : Since (x :: past) a y := by
  obtain ⟨newer, older, rfl, hnewer⟩ := h
  exact ⟨x :: newer, older, rfl, List.forall_mem_cons.mpr ⟨hx, hnewer⟩⟩

theorem Since.self : Since (x :: past) a x :=
  ⟨[], past, rfl, fun _ hz => absurd hz List.not_mem_nil⟩

theorem Since.mem {y : Moment (P.recorded.reliable period)} (h : Since past a y) : y ∈ past := by
  obtain ⟨newer, older, rfl, -⟩ := h
  exact List.mem_append_right _ (List.mem_cons_self ..)

theorem Stale.lt_size (hrun : Run ids IsLossy past mesh) (h : Stale past a k) :
    k < mesh.pool.size := by
  obtain ⟨y, hy, -, hk⟩ := h
  exact Nat.lt_of_lt_of_le hk (hrun.size_pool_le hy)

theorem not_stale_of_sent (hrun : Run ids IsLossy past x.before)
    (hrestart : x.event.isRestart a = false) (hk : x.before.pool.size ≤ k) :
    ¬ Stale (x :: past) a k := by
  rw [stale_cons, hrestart]
  rintro (h | h)
  · exact Bool.false_ne_true h.1
  · exact Nat.not_le.mpr (h.lt_size hrun) hk

theorem Lives.nil
    (hstart : ∀ s, mesh.nodes.get? a = some s → (P.recorded.reliable period).start a = .ok s)
    (hstale : ∀ k q m, mesh.pool[k]? = some ⟨a, q, m⟩ → Stale past a k) :
    Lives past mesh a [] where
  life := fun s hs => ⟨s, hstart s hs, .nil⟩
  sent := fun q m =>
    ⟨fun hm => absurd hm List.not_mem_nil, fun ⟨k, hk, hfresh⟩ => absurd (hstale k q m hk) hfresh⟩
  origin := fun _ hy => absurd hy List.not_mem_nil

/-- What happens at another node adds nothing to the log. -/
theorem Lives.other {log : List (Episode P.recorded)} (hlives : Lives past mesh a log)
    {node : NodeId} {s' : State P.recorded} {out : List (Outgoing (Message P.Msg))}
    (hnode : node ≠ a) (hrestart : e.isRestart a = false) :
    Lives (⟨mesh, e, mesh.turned node s' out⟩ :: past) (mesh.turned node s' out) a log where
  life := fun s hs => by
    rw [get?_turned_ne _ _ _ hnode] at hs
    exact hlives.life s hs
  sent := fun q m => by
    rw [hlives.sent]
    refine exists_congr fun k => ?_
    rw [getElem?_pool_turned_iff, stale_cons, hrestart]
    simp only [Bool.false_eq_true, false_and, false_or, Ne.symm hnode, and_false, or_false]
  origin := fun y hy q m hm => by
    obtain ⟨z, k, hsince, hz⟩ := hlives.origin y hy q m hm
    exact ⟨z, k, hsince.cons hrestart, hz⟩

/-- A call of the node is added to the log. -/
theorem Lives.call {log : List (Episode P.recorded)} (hrun : Run ids IsLossy past mesh)
    (hlives : Lives past mesh a log) {s s' : State P.recorded}
    {out : List (Outgoing (Message P.Msg))} (hs : mesh.nodes.get? a = some s)
    (hacts : Acts mesh a s e s' out) (he : IsLossy e) (hrestart : e.isRestart a = false) :
    ∃ y, Lives (⟨mesh, e, mesh.turned a s' out⟩ :: past) (mesh.turned a s' out) a
      (log ++ [y]) := by
  obtain ⟨c, r, hcall, rfl, rfl, hmessage, -⟩ := call_of_acts hacts he hrestart
  refine ⟨⟨s, c, r⟩,
    { life := fun t ht => ?_
      sent := fun q m => ?_
      origin := fun y hy q m hm => ?_ }⟩
  · rw [get?_turned_self] at ht
    cases ht
    obtain ⟨first, hstart, hcalls⟩ := hlives.life s hs
    exact ⟨first, hstart, hcalls.snoc hcall⟩
  · rw [sentTo_append, sentTo_singleton, List.mem_append, hlives.sent, mem_addressedTo]
    constructor
    · rintro (⟨k, hk, hfresh⟩ | hm)
      · refine ⟨k, getElem?_pool_turned_iff.mpr (.inl hk), ?_⟩
        rw [stale_cons, hrestart]
        exact fun h => hfresh (h.resolve_left fun h => Bool.false_ne_true h.1)
      · obtain ⟨j, hj⟩ := List.getElem?_of_mem hm
        refine ⟨mesh.pool.size + j, getElem?_pool_turned_iff.mpr (.inr
          ⟨Nat.le_add_right _ _, rfl, by rw [Nat.add_sub_cancel_left]; exact hj⟩), ?_⟩
        exact not_stale_of_sent hrun hrestart (Nat.le_add_right _ _)
    · rintro ⟨k, hk, hfresh⟩
      rw [stale_cons, not_or] at hfresh
      rcases getElem?_pool_turned_iff.mp hk with hk | ⟨-, -, hm⟩
      · exact .inl ⟨k, hk, hfresh.2⟩
      · exact .inr (List.mem_of_getElem? hm)
  · rcases List.mem_append.mp hy with hy | hy
    · obtain ⟨z, k, hsince, hz⟩ := hlives.origin y hy q m hm
      exact ⟨z, k, hsince.cons hrestart, hz⟩
    · cases List.mem_singleton.mp hy
      obtain ⟨k, hk, hpool⟩ := (hmessage q m).mp hm
      exact ⟨_, k, .self, hk, hpool, hs, get?_turned_self ..⟩

/-- **An incarnation lives on**, as long as its node does not restart. -/
theorem Lives.step {log : List (Episode P.recorded)} (hrun : Run ids IsLossy past mesh)
    (hlives : Lives past mesh a log) (h : mesh.step e = some mesh') (he : IsLossy e)
    (hrestart : e.isRestart a = false) :
    ∃ new, Lives (⟨mesh, e, mesh'⟩ :: past) mesh' a (log ++ new) := by
  obtain ⟨node, s, s', out, hs, hacts, rfl⟩ := step_spec h
  by_cases hnode : node = a
  · subst hnode
    obtain ⟨y, hlives'⟩ := hlives.call hrun hs hacts he hrestart
    exact ⟨[y], hlives'⟩
  · refine ⟨[], ?_⟩
    rw [List.append_nil]
    exact hlives.other hnode hrestart

/-- **Each incarnation of a node is a life.** -/
theorem lives_of_run (hrun : Run ids IsLossy past mesh) (a : NodeId) :
    ∃ log, Lives past mesh a log := by
  induction hrun with
  | start h =>
    obtain ⟨hpool, hnodes⟩ := start_spec h
    refine ⟨[], .nil (fun s hs => ?_) fun k q m hk => ?_⟩
    · rcases hnodes a with ⟨-, t, ht, hget⟩ | ⟨-, hnone⟩
      · rw [hget] at hs
        cases hs
        exact ht
      · rw [hnone] at hs
        cases hs
    · rw [hpool] at hk
      cases hk
  | @step past mesh e mesh' hrun he h ih =>
    obtain ⟨log, hlives⟩ := ih
    by_cases hrestart : e.isRestart a = true
    · obtain ⟨node, s, s', out, hs, hacts, rfl⟩ := step_spec h
      cases hacts with
      | restart hstart =>
        obtain rfl : node = a := of_decide_eq_true hrestart
        refine ⟨[], .nil (fun t ht => ?_) fun k q m hk => ?_⟩
        · rw [get?_turned_self] at ht
          cases ht
          exact hstart
        · -- everything that is in the pool is stale now
          have hold : mesh.pool[k]? = some ⟨node, q, m⟩ :=
            (getElem?_pool_turned_iff.mp hk).resolve_right fun hsent => by cases hsent.2.2
          exact stale_cons.mpr (.inl ⟨hrestart, (Array.getElem?_eq_some_iff.mp hold).1⟩)
      | _ => cases hrestart
    · obtain ⟨new, hlives'⟩ := hlives.step hrun h he (by simpa using hrestart)
      exact ⟨_, hlives'⟩

/-- A number that has been sent by the present incarnation of `a` is larger than the answer that
settled the numbering. -/
theorem Lives.settledBy {log : List (Episode P.recorded)} (hlives : Lives past mesh a log)
    {s : State P.recorded} (hs : mesh.nodes.get? a = some s)
    (hi : i ∈ numbers (sentTo b log)) :
    ∃ k latest, SettledBy past a b k latest ∧ latest < i := by
  obtain ⟨y, hy, ⟨hbefore, hafter⟩, latest, hanswer, hlt⟩ := (hlives.life s hs).settled_lt hi
  obtain ⟨z, k, hsince, hdelivery, hpool, hold, hnew⟩ := hlives.origin y hy b _ hanswer
  refine ⟨k, latest, ⟨z, hsince, hdelivery, hpool, ?_, ?_⟩, hlt⟩
  · rw [Mesh.channel, view_of_get? hold]
    exact hbefore
  · rw [Mesh.channel, view_of_get? hnew]
    exact hafter

theorem Lives.mem_numbers {log : List (Episode P.recorded)} (hlives : Lives past mesh a log) :
    i ∈ numbers (sentTo b log) ↔ ∃ k, numberAt mesh a b k = some i ∧ ¬ Stale past a k := by
  simp only [Reliable.mem_numbers, hlives.sent, numberAt_eq_some]
  constructor
  · rintro ⟨β, ⟨k, hk, hfresh⟩, hid⟩
    exact ⟨k, ⟨β, hk, hid⟩, hfresh⟩
  · rintro ⟨k, ⟨β, hk, hid⟩, hfresh⟩
    exact ⟨β, ⟨k, hk, hfresh⟩, hid⟩

/-- **A number that an incarnation of `a` sends for the first time** is larger than the answer that
settled its numbering, and than all numbers that it has sent before. -/
theorem first_spec (hrun : Run ids IsLossy (later ++ x :: earlier) mesh)
    (hfirst : FirstSends x earlier a b i) :
    (∃ k latest, SettledBy (x :: earlier) a b k latest ∧ latest < i) ∧
      ∀ k i', numberAt x.before a b k = some i' → ¬ Stale earlier a k → i' < i := by
  obtain ⟨hbefore, hstep, he, hafter⟩ := hrun.split
  obtain ⟨⟨k, -, hk, hnumber⟩, hstale⟩ := hfirst
  obtain ⟨log, hlives⟩ := lives_of_run hbefore a
  obtain ⟨node, s, s', out, hs, hacts, hmesh⟩ := step_spec hstep
  -- the batch has been sent in this step, so it is a step of `a` that is no restart
  obtain ⟨β, hpool, hid⟩ := numberAt_eq_some.mp hnumber
  rw [hmesh] at hpool
  obtain ⟨-, hnode, hout⟩ := (getElem?_pool_turned_iff.mp hpool).resolve_left fun hold =>
    Nat.not_lt.mpr hk (Array.getElem?_eq_some_iff.mp hold).1
  obtain rfl : a = node := hnode
  have hrestart : x.event.isRestart a = false := Event.isRestart_eq_false.mpr fun hevent => by
    rw [hevent] at hacts
    cases hacts
    cases hout
  obtain ⟨new, hlives'⟩ := hlives.step hbefore hstep he hrestart
  have hget : x.after.nodes.get? a = some s' := by rw [hmesh, get?_turned_self]
  have hi : i ∈ numbers (sentTo b (log ++ new)) :=
    hlives'.mem_numbers.mpr ⟨k, hnumber, not_stale_of_sent hbefore hrestart hk⟩
  refine ⟨hlives'.settledBy hget hi, fun k' i' hk' hfresh => ?_⟩
  have hi' : i' ∈ numbers (sentTo b log) := hlives.mem_numbers.mpr ⟨k', hk', hfresh⟩
  refine (hlives'.life s' hget).lt_of_first hi' hi fun hold => ?_
  obtain ⟨k'', hk'', hfresh''⟩ := hlives.mem_numbers.mp hold
  obtain ⟨β'', hpool'', -⟩ := numberAt_eq_some.mp hk''
  exact hfresh'' (hstale k'' (Array.getElem?_eq_some_iff.mp hpool'').1 hk'')

/-! ### What counts as received -/

/-- As long as `b` neither restarts nor takes `a` for gone, its channel to `a` acts in each step. -/
theorem act_of_step (h : mesh.step e = some mesh') (he : Spares a b e)
    (hstays : a ∉ mesh.dismissed b) :
    a ∉ mesh'.dismissed b ∧ ∃ came news ms,
      (mesh.channel b a).Act period came news (mesh'.channel b a) ms ∧
      (∀ m, came = some m ↔ ∃ k, e = .deliver k ∧ mesh.pool[k]? = some ⟨a, b, m⟩) ∧
      ∀ k m, mesh'.pool[k]? = some ⟨b, a, m⟩ →
        mesh.pool[k]? = some ⟨b, a, m⟩ ∨ (mesh.pool.size ≤ k ∧ m ∈ ms) := by
  obtain ⟨hlossy, hrestart, hdismiss⟩ := he
  obtain ⟨node, s, s', out, hs, hacts, rfl⟩ := step_spec h
  by_cases hnode : node = b
  · subst hnode
    obtain ⟨c, r, hcall, rfl, rfl, hmessage, hleave⟩ :=
      call_of_acts hacts hlossy (Event.isRestart_eq_false.mpr hrestart)
    rw [Mesh.dismissed, view_of_get? hs] at hstays
    have hstays' : a ∉ r.state.dismissed := by
      rw [mem_dismissed_call hcall]
      exact fun h => h.elim (fun hc => hdismiss (hleave a hc)) hstays
    obtain ⟨-, inner, -, -, hact⟩ := call_act hcall hstays'
    rw [Mesh.dismissed, view_turned_self, Mesh.channel, Mesh.channel, view_turned_self,
      view_of_get? hs]
    refine ⟨hstays', _, _, _, hact, fun m => ?_, fun k m hk => ?_⟩
    · rw [came_eq_some, and_iff_left hstays]
      exact hmessage a m
    · refine (getElem?_pool_turned_iff.mp hk).imp_right fun hsent => ⟨hsent.1, ?_⟩
      exact mem_addressedTo.mpr (List.mem_of_getElem? hsent.2.2)
  · rw [Mesh.dismissed, view_turned_ne _ _ _ _ _ hnode, Mesh.channel, Mesh.channel,
      view_turned_ne _ _ _ _ _ hnode]
    refine ⟨hstays, none, [], [], .send (Link.post_nil _), fun m => ⟨fun hm => ?_, ?_⟩,
      fun k m hk => .inl ?_⟩
    · cases hm
    · -- what is delivered to `b` makes `b` act
      rintro ⟨k, rfl, hk⟩
      cases hacts with
      | deliver hp hto _ =>
        rw [hp] at hk
        cases hk
        exact absurd hto.symm hnode
    · exact (getElem?_pool_turned_iff.mp hk).resolve_right fun h => hnode h.2.1.symm

/-- In a step, number `i` comes to count as received because a batch of `a` comes, whose number is
not smaller. -/
theorem records_of_received (h : mesh.step e = some mesh') (he : Spares a b e)
    (hstays : a ∉ mesh.dismissed b) (hbefore : ¬ (mesh.channel b a).received.contains i)
    (hafter : (mesh'.channel b a).received.contains i) :
    ∃ k, Records ⟨mesh, e, mesh'⟩ a b i k ∧ ∃ j, numberAt mesh a b k = some j ∧ i ≤ j := by
  obtain ⟨-, came, news, ms, hact, hcame, -⟩ := act_of_step h he hstays
  obtain ⟨β, j, hβ, hid, hj⟩ := ((hact.received i).mp hafter).resolve_left hbefore
  obtain ⟨k, hk, hpool⟩ := (hcame _).mp hβ
  have hnumber : numberAt mesh a b k = some j := numberAt_eq_some.mpr ⟨β, hpool, hid⟩
  refine ⟨k, ⟨hk, by rw [hnumber]; exact Option.some_ne_none j, hbefore, hafter⟩, j, hnumber, ?_⟩
  rcases hj with rfl | ⟨hrun, -, answered, hanswered, hle⟩
  · exact UInt32.le_refl _
  · -- a number that is skipped lies below the last answer, and the batch above it
    rw [Link.startsNewRun, hanswered, decide_eq_true_iff, Option.bind_some,
      BatchId.next?_eq_some] at hrun
    rw [UInt32.le_iff_toNat_le] at hle ⊢
    omega

/-- What the answers of `b` to `a` tell is what counted as received when they were given: a number
above it has come to count as received since. -/
structure Vouched (past : List (Moment (P.recorded.reliable period)))
    (mesh : Mesh (P.recorded.reliable period)) (a b : NodeId) : Prop where
  wellFormed : (mesh.channel b a).received.WellFormed
  stays : a ∉ mesh.dismissed b
  bounded : ∀ k latest i, mesh.pool[k]? = some ⟨b, a, .reset ⟨true, latest⟩⟩ →
    (mesh.channel b a).received.contains i →
    i ≤ latest ∨ ∃ z ∈ past, ∃ k', k < z.before.pool.size ∧ Records z a b i k'

/-- **An answer bounds all that counted as received when it was given.** -/
theorem vouched_of_run (hrun : Run ids (Spares a b) past mesh) : Vouched past mesh a b := by
  induction hrun with
  | start h =>
    obtain ⟨hpool, hviews⟩ := start_views h
    obtain ⟨hchannel, -, -, hdismissed⟩ := hviews b
    refine
      { wellFormed := by rw [hchannel]; exact ReceivedIds.wellFormed_empty
        stays := by rw [hdismissed]; exact List.not_mem_nil
        bounded := fun k latest i hk => ?_ }
    rw [hpool] at hk
    cases hk
  | @step past mesh e mesh' hrun he h ih =>
    obtain ⟨hstays, came, news, ms, hact, hcame, hpool⟩ := act_of_step h he ih.stays
    refine
      { wellFormed := hact.wellFormed ih.wellFormed
        stays := hstays
        bounded := fun k latest i hk hi => ?_ }
    rcases hpool k _ hk with hold | ⟨-, hnew⟩
    · by_cases hbefore : (mesh.channel b a).received.contains i
      · rcases ih.bounded k latest i hold hbefore with hle | ⟨z, hz, hrecords⟩
        · exact .inl hle
        · exact .inr ⟨z, List.mem_cons_of_mem _ hz, hrecords⟩
      · obtain ⟨k', hrecords, -⟩ := records_of_received h he ih.stays hbefore hi
        exact .inr ⟨_, List.mem_cons_self .., k', (Array.getElem?_eq_some_iff.mp hold).1, hrecords⟩
    · obtain ⟨rfl, hsame, -⟩ := hact.answer hnew
      rw [hsame] at hi
      exact .inl (ih.wellFormed.le_latest hi)

theorem received_of_mem (hrun : Run ids (Spares a b) past mesh) (hx : x ∈ past)
    (hi : (x.after.channel b a).received.contains i) :
    (mesh.channel b a).received.contains i := by
  induction hrun with
  | start h => cases hx
  | step hrun he h ih =>
    obtain ⟨-, came, news, ms, hact, -, -⟩ := act_of_step h he (vouched_of_run hrun).stays
    rcases List.mem_cons.mp hx with rfl | hx
    · exact hi
    · exact (hact.received i).mpr (.inl (ih hx))

/-! ### Numbers that are new -/

/-- A number that has come to count as received did so by a batch with a number not smaller. -/
theorem records_spec (hrun : Run ids (Spares a b) past mesh) (hx : x ∈ past)
    (hrecords : Records x a b i k) : ∃ j, numberAt mesh a b k = some j ∧ i ≤ j := by
  obtain ⟨later, earlier, rfl⟩ := List.append_of_mem hx
  obtain ⟨hbefore, hstep, he, -⟩ := hrun.split
  obtain ⟨hdelivery, -, hnot, hafter⟩ := hrecords
  obtain ⟨k', hrecords', j, hj, hle⟩ :=
    records_of_received hstep he (vouched_of_run hbefore).stays hnot hafter
  have hsame := hrecords'.1
  rw [hdelivery, Event.deliver.injEq] at hsame
  rw [← hsame] at hj
  obtain ⟨β, hβ, hid⟩ := numberAt_eq_some.mp hj
  exact ⟨j, numberAt_eq_some.mpr ⟨β, hrun.getElem?_pool hx hβ, hid⟩, hle⟩

/-- **When the numbers of an incarnation are new.**  Node `b` neither restarts nor takes `a` for
gone; `a` may restart at any time, and its present incarnation sends number `i` to `b` for the first
time in the step `x`.  Then its numbering has been settled by an answer that tells a smaller
number.  The number has not come to count as received at `b` before, and does not come to count so
by a batch of an earlier incarnation after that, if and only if it never did by a batch of an
earlier incarnation once `b` had given that answer. -/
theorem number_new_iff_nothing_stale (hrun : Run ids (Spares a b) (later ++ x :: earlier) mesh)
    (hfirst : FirstSends x earlier a b i) :
    ∃ k latest, SettledBy (x :: earlier) a b k latest ∧ latest < i ∧
      ((¬ (x.before.channel b a).received.contains i ∧
          ∀ z ∈ later ++ [x], ∀ k', Records z a b i k' → ¬ Stale earlier a k') ↔
        ∀ z ∈ later ++ x :: earlier, ∀ k', k < z.before.pool.size → Records z a b i k' →
          ¬ Stale earlier a k') := by
  obtain ⟨hbefore, hstep, he, hafter⟩ := hrun.split
  obtain ⟨⟨k, latest, hsettled, hlt⟩, hsmaller⟩ := first_spec (hrun.mono fun _ h => h.1) hfirst
  refine ⟨k, latest, hsettled, hlt, ?_⟩
  obtain ⟨y, hsince, hdelivery, hanswer, -, -⟩ := hsettled
  have hpool : x.before.pool[k]? = some ⟨b, a, .reset ⟨true, latest⟩⟩ := by
    rcases List.mem_cons.mp hsince.mem with rfl | hy
    · exact hanswer
    · exact hbefore.getElem?_pool hy hanswer
  -- from the step on, the answer has been given
  have hgiven : ∀ z ∈ later ++ [x], k < z.before.pool.size := by
    intro z hz
    rcases List.mem_append.mp hz with hz | hz
    · obtain ⟨newer, older, rfl⟩ := List.append_of_mem hz
      rw [List.append_assoc, List.cons_append] at hrun
      exact hrun.split.1.delivered_lt (List.mem_append_right _ hsince.mem) hdelivery
    · rw [List.mem_singleton.mp hz]
      exact (Array.getElem?_eq_some_iff.mp hpool).1
  constructor
  · rintro ⟨hnew, hnone⟩ z hz k' - hrecords
    rw [List.append_cons later x earlier, List.mem_append] at hz
    rcases hz with hz | hz
    · exact hnone z hz k' hrecords
    · exact absurd (received_of_mem hbefore hz hrecords.2.2.2) hnew
  · intro hnone
    refine ⟨fun hi => ?_, fun z hz k' hrecords => ?_⟩
    · rcases (vouched_of_run hbefore).bounded k latest i hpool hi with
        hle | ⟨z, hz, k', hk', hrecords⟩
      · exact UInt32.not_le.mpr hlt hle
      · -- the batch is of this incarnation, which has sent only smaller numbers
        have hfresh := hnone z (List.mem_append_right _ (List.mem_cons_of_mem _ hz)) k' hk' hrecords
        obtain ⟨j, hj, hle⟩ := records_spec hbefore hz hrecords
        exact UInt32.not_le.mpr (hsmaller k' j hj hfresh) hle
    · refine hnone z ?_ k' (hgiven z hz) hrecords
      rw [List.append_cons later x earlier]
      exact List.mem_append_left _ hz

def pingEvent : Event ((Protocol.pingPong 0).recorded.reliable 0) :=
  .input ⟨0⟩ (.nested (⟨⟨1⟩, 0⟩ : PingPong.Serve))

/-- Node 0 restarts when its first batch has arrived, and sends a second one. -/
def arrivedBefore : List (Event ((Protocol.pingPong 0).recorded.reliable 0)) :=
  [pingEvent, .deliver 0, .deliver 1, .deliver 2, .restart ⟨0⟩, pingEvent, .deliver 4, .deliver 5]

theorem number_new_of_arrivedBefore : ∃ x earlier mesh,
    Run [⟨0⟩, ⟨1⟩] (Spares ⟨0⟩ ⟨1⟩) (x :: earlier) mesh ∧
    (x :: earlier).map (·.event) = arrivedBefore.reverse ∧
    FirstSends (P := Protocol.pingPong 0) x earlier ⟨0⟩ ⟨1⟩ 2 ∧
    ∃ k latest, SettledBy (x :: earlier) ⟨0⟩ ⟨1⟩ k latest ∧ latest < 2 ∧
      ∀ z ∈ x :: earlier, ∀ k', k < z.before.pool.size → Records z ⟨0⟩ ⟨1⟩ 2 k' →
        ¬ Stale earlier ⟨0⟩ k' := by
  obtain ⟨past, mesh, hrun, hevents, htest⟩ :=
    @Run.exists_past ((Protocol.pingPong 0).recorded.reliable 0) [⟨0⟩, ⟨1⟩] (Spares ⟨0⟩ ⟨1⟩)
      arrivedBefore
      (fun
        | [] => false
        | x :: earlier => FirstSends (P := Protocol.pingPong 0) x earlier ⟨0⟩ ⟨1⟩ 2 ∧
            ¬ (x.before.channel ⟨1⟩ ⟨0⟩).received.contains 2 ∧
            ¬ (x.after.channel ⟨1⟩ ⟨0⟩).received.contains 2)
      (by simp [arrivedBefore, pingEvent, Spares, IsLossy]) (by decide +kernel)
  cases past with
  | nil => cases htest
  | cons x earlier =>
    obtain ⟨hfirst, hbefore, hafter⟩ := of_decide_eq_true htest
    have hwhole : Run [⟨0⟩, ⟨1⟩] (Spares ⟨0⟩ ⟨1⟩) ([] ++ x :: earlier) mesh := hrun
    obtain ⟨k, latest, hsettled, hlt, hiff⟩ := number_new_iff_nothing_stale hwhole hfirst
    refine ⟨x, earlier, mesh, hrun, hevents, hfirst, k, latest, hsettled, hlt,
      hiff.mp ⟨hbefore, fun z hz k' hrecords => ?_⟩⟩
    cases List.mem_singleton.mp hz
    exact absurd hrecords.2.2.2 hafter

/-- Node 0 restarts while its first batch is on its way.  The batch arrives when the other node has
answered the reset request of the new incarnation, which then takes up the answer. -/
def arrivedAfter : List (Event ((Protocol.pingPong 0).recorded.reliable 0)) :=
  [pingEvent, .deliver 0, .deliver 1, .restart ⟨0⟩, pingEvent, .deliver 3, .deliver 2, .deliver 4]

/-- **A number may be used again.** -/
theorem number_used_again : ∃ x earlier mesh,
    Run [⟨0⟩, ⟨1⟩] (Spares ⟨0⟩ ⟨1⟩) (x :: earlier) mesh ∧
    (x :: earlier).map (·.event) = arrivedAfter.reverse ∧
    FirstSends (P := Protocol.pingPong 0) x earlier ⟨0⟩ ⟨1⟩ 1 ∧
    (x.before.channel ⟨1⟩ ⟨0⟩).received.contains 1 := by
  obtain ⟨past, mesh, hrun, hevents, htest⟩ :=
    @Run.exists_past ((Protocol.pingPong 0).recorded.reliable 0) [⟨0⟩, ⟨1⟩] (Spares ⟨0⟩ ⟨1⟩)
      arrivedAfter
      (fun
        | [] => false
        | x :: earlier => FirstSends (P := Protocol.pingPong 0) x earlier ⟨0⟩ ⟨1⟩ 1 ∧
            (x.before.channel ⟨1⟩ ⟨0⟩).received.contains 1)
      (by simp [arrivedAfter, pingEvent, Spares, IsLossy]) (by decide +kernel)
  cases past with
  | nil => cases htest
  | cons x earlier =>
    obtain ⟨hfirst, hreceived⟩ := of_decide_eq_true htest
    exact ⟨x, earlier, mesh, hrun, hevents, hfirst, hreceived⟩

end Quorum.Reliable
