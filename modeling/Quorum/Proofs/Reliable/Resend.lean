import Quorum.Proofs.Reliable.Bookkeeping

/-!
# Resend — what a tick sends, told from the calls before it

A stamp is put on a batch by a tick, taken off when the batch answers a duplicate, and not there to
begin with.  Seen from the log of a node, this comes to one law.  The stamp of a batch is the time
of the first tick from the call on in which it was last sent: if that call was a tick itself, its
own time, and otherwise the time of the first tick that has come since.  Ticks need not be in the
order of their times.

**Main statements.**  `Life.kept`: which batches are kept, and with which stamps, told from the log.
`resends_of_life`: what a tick sends, and that it changes nothing but stamps.
-/

namespace Quorum.Reliable

open SortedMap Link

section
variable {P : Protocol} {period now : Time} {me q : NodeId} {i : BatchId} {s : State P}
  {log earlier later : List (Episode P)} {x : Episode P} {c : Call P}
  {r : Reaction (State P) (Message P.Msg)}

/-! ### The log of a number -/

def Call.tick? : Call P → Option Time
  | .input (.tick now) => some now
  | _ => none

theorem Call.tick?_eq_some : c.tick? = some now ↔ c = .input (.tick now) := by
  unfold tick?
  split
  · rename_i t
    rw [Option.some.injEq, Call.input.injEq, Input.tick.injEq]
  · rename_i hnone
    exact ⟨nofun, fun h => absurd h (hnone now)⟩

/-- Whether a call ends the matter of a number that has been sent to a peer: the peer acknowledges
it, or is dismissed. -/
def Call.Ends (q : NodeId) (i : BatchId) (c : Call P) : Prop :=
  c = .dismiss q ∨ ∃ m, c = .message q m ∧ i ∈ m.acks

/-- The part of a log from the call on in which a number was last sent to a peer. -/
def sinceSent (q : NodeId) (i : BatchId) : List (Episode P) → List (Episode P)
  | [] => []
  | x :: log =>
    if i ∈ numbers (sentTo q log) then sinceSent q i log
    else if i ∈ numbers (addressedTo q x.reaction.sent) then x :: log
    else []

/-- The time of the first tick from the call on in which a number was last sent to a peer. -/
def stampOf (q : NodeId) (i : BatchId) (log : List (Episode P)) : Option Time :=
  (sinceSent q i log).findSome? (·.call.tick?)

/-- A number has been sent to a peer, and no call since then has ended the matter. -/
def Waits (q : NodeId) (i : BatchId) (log : List (Episode P)) : Prop :=
  i ∈ numbers (sentTo q log) ∧ ∀ y ∈ (sinceSent q i log).tail, ¬ y.call.Ends q i

theorem mem_numbers_sentTo_snoc : i ∈ numbers (sentTo q (log ++ [x])) ↔
    i ∈ numbers (sentTo q log) ∨ i ∈ numbers (addressedTo q x.reaction.sent) := by
  rw [sentTo_append, sentTo_singleton, numbers_append, List.mem_append]

theorem mem_numbers_sentTo_cons : i ∈ numbers (sentTo q (x :: log)) ↔
    i ∈ numbers (addressedTo q x.reaction.sent) ∨ i ∈ numbers (sentTo q log) := by
  rw [← List.singleton_append, sentTo_append, sentTo_singleton, numbers_append, List.mem_append]

theorem sinceSent_ne_nil (h : i ∈ numbers (sentTo q log)) : sinceSent q i log ≠ [] := by
  induction log with
  | nil => exact absurd h List.not_mem_nil
  | cons x log ih =>
    unfold sinceSent
    by_cases hlater : i ∈ numbers (sentTo q log)
    · rw [if_pos hlater]
      exact ih hlater
    · rw [if_neg hlater, if_pos ((mem_numbers_sentTo_cons.mp h).resolve_right hlater)]
      exact List.cons_ne_nil _ _

/-- A call that sends the number is where the log starts anew. -/
theorem sinceSent_of_sent (hx : i ∈ numbers (addressedTo q x.reaction.sent)) :
    sinceSent q i (log ++ [x]) = [x] := by
  induction log with
  | nil => exact (if_neg List.not_mem_nil).trans (if_pos hx)
  | cons y log ih =>
    rw [List.cons_append, sinceSent, if_pos (mem_numbers_sentTo_snoc.mpr (.inr hx))]
    exact ih

/-- Any other call is added to the log. -/
theorem sinceSent_snoc (hx : i ∉ numbers (addressedTo q x.reaction.sent))
    (hlog : i ∈ numbers (sentTo q log)) :
    sinceSent q i (log ++ [x]) = sinceSent q i log ++ [x] := by
  induction log with
  | nil => exact absurd hlog List.not_mem_nil
  | cons y log ih =>
    have hsame : i ∈ numbers (sentTo q (log ++ [x])) ↔ i ∈ numbers (sentTo q log) :=
      mem_numbers_sentTo_snoc.trans (or_iff_left hx)
    rw [List.cons_append, sinceSent, sinceSent]
    by_cases hlater : i ∈ numbers (sentTo q log)
    · rw [if_pos (hsame.mpr hlater), if_pos hlater]
      exact ih hlater
    · have hy := (mem_numbers_sentTo_cons.mp hlog).resolve_right hlater
      rw [if_neg fun h => hlater (hsame.mp h), if_neg hlater, if_pos hy, if_pos hy]
      rfl

theorem stampOf_of_sent (hx : i ∈ numbers (addressedTo q x.reaction.sent)) :
    stampOf q i (log ++ [x]) = x.call.tick? := by
  rw [stampOf, sinceSent_of_sent hx, List.findSome?_singleton]

theorem stampOf_snoc (hx : i ∉ numbers (addressedTo q x.reaction.sent))
    (hlog : i ∈ numbers (sentTo q log)) :
    stampOf q i (log ++ [x]) = (stampOf q i log).or x.call.tick? := by
  rw [stampOf, sinceSent_snoc hx hlog, List.findSome?_append, List.findSome?_singleton]
  rfl

theorem waits_of_sent (hx : i ∈ numbers (addressedTo q x.reaction.sent)) :
    Waits q i (log ++ [x]) := by
  refine ⟨mem_numbers_sentTo_snoc.mpr (.inr hx), fun y hy => ?_⟩
  rw [sinceSent_of_sent hx] at hy
  exact absurd hy List.not_mem_nil

theorem waits_snoc (hx : i ∉ numbers (addressedTo q x.reaction.sent)) :
    Waits q i (log ++ [x]) ↔ Waits q i log ∧ ¬ x.call.Ends q i := by
  unfold Waits
  rw [mem_numbers_sentTo_snoc, or_iff_left hx]
  by_cases hlog : i ∈ numbers (sentTo q log)
  · rw [sinceSent_snoc hx hlog, List.tail_append_of_ne_nil (sinceSent_ne_nil hlog),
      List.forall_mem_append, List.forall_mem_singleton, and_assoc]
  · exact iff_of_false (fun h => hlog h.1) fun h => hlog h.1.1

/-! ### One call -/

/-- **What a call other than a tick makes of what is kept.**  An act does not tell whether it is a
tick; but a tick that makes no stamp makes no difference. -/
theorem restocks_of_call (hs : s.Coherent) (h : call period me s c = .ok r)
    (hc : c.tick? = none) (hq : q ∉ r.state.dismissed) :
    (s.link q).Restocks (c.came s q) (r.state.link q) (addressedTo q r.sent) := by
  obtain ⟨-, inner, -, -, hact⟩ := call_act h hq
  rcases hact.restocks (hs.links q) with hrestocks | ⟨now, hcame, hlink, hms⟩
  · exact hrestocks
  have hstill : ∀ i kept, (s.link q).unacked.get? i = some kept →
      Unacked.tick period now kept = (kept, false) := by
    intro i kept hkept
    have hget : (r.state.link q).unacked.get? i = some (Unacked.tick period now kept).1 := by
      rw [hlink, get?_unacked_tick, hkept]
      rfl
    have hold : ∀ t, (Unacked.tick period now kept).1.stamp = some t → kept.stamp = some t := by
      intro t ht
      rcases stamp_of_call h hget ht with rfl | ⟨old, hold, ht⟩
      · cases hc
      · cases hkept.symm.trans hold
        exact ht
    unfold Unacked.tick at hold ⊢
    split
    · rename_i hnone
      rw [hnone] at hold
      cases hold now rfl
    · rename_i t ht
      simp only [ht] at hold
      split
      · rename_i hlt
        rw [if_pos hlt] at hold
        cases hold now rfl
        exact absurd hlt (Nat.not_lt.mpr (Nat.le_add_right _ _))
      · rfl
  have hnone : numbers (addressedTo q r.sent) = [] := by
    refine List.eq_nil_iff_forall_not_mem.mpr fun i hi => ?_
    rw [hms] at hi
    obtain ⟨kept, hkept, hwaited⟩ := (mem_numbers_resent (hs.links q)).mp hi
    rw [hstill i kept hkept] at hwaited
    cases hwaited
  rw [hcame]
  refine .still hnone (ext_get? fun i => ?_)
  rw [hlink, get?_unacked_tick]
  cases hkept : (s.link q).unacked.get? i with
  | none => rfl
  | some kept => rw [Option.map_some, hstill i kept hkept]

theorem ends_iff (hq : q ∉ r.state.dismissed) (h : call period me s c = .ok r) :
    c.Ends q i ↔ ∃ m ∈ c.came s q, i ∈ m.acks := by
  rw [mem_dismissed_call h, not_or] at hq
  constructor
  · rintro (hdismiss | ⟨m, hm, hi⟩)
    · exact absurd hdismiss hq.1
    · exact ⟨m, came_eq_some.mpr ⟨hm, hq.2⟩, hi⟩
  · rintro ⟨m, hm, hi⟩
    exact .inr ⟨m, (came_eq_some.mp hm).1, hi⟩

/-! ### The law of stamps -/

/-- A tick stamps a batch that it sends again, and one that has no stamp. -/
theorem stamp_after_tick {μ : Type} (period now : Time) (kept : Unacked μ) :
    (Unacked.tick period now kept).1.stamp =
      if (Unacked.tick period now kept).2 then some now else kept.stamp.or (some now) := by
  unfold Unacked.tick
  split
  · rename_i hnone
    rw [hnone]
    rfl
  · rename_i t ht
    split
    · rfl
    · rw [ht]
      rfl

/-- What is kept for a peer is what the log says, with the stamps that the log says. -/
structure KeptAs (log : List (Episode P)) (link : Link P.Msg) (q : NodeId) : Prop where
  waits : ∀ i, Waits q i log →
    ∃ kept, link.unacked.get? i = some kept ∧ kept.stamp = stampOf q i log
  gone : ∀ i, ¬ Waits q i log → link.unacked.get? i = none

/-- A tick keeps to the law. -/
theorem KeptAs.tick (h : KeptAs log (x.before.link q) q) (hs : x.before.Coherent)
    (hx : x.call = .input (.tick now)) (hreaction : x.reaction = onTick period x.before now) :
    KeptAs (log ++ [x]) (x.reaction.state.link q) q := by
  obtain ⟨hlink, hsent⟩ := onTick_link period now x.before q
  rw [← hreaction] at hlink hsent
  have htick : x.call.tick? = some now := by
    rw [hx]
    rfl
  have hends : ∀ i, ¬ x.call.Ends q i := by
    intro i
    rw [hx]
    rintro (hdismiss | ⟨m, hm, -⟩)
    · cases hdismiss
    · cases hm
  have hwaited : ∀ i, i ∈ numbers (addressedTo q x.reaction.sent) ↔
      ∃ kept, (x.before.link q).unacked.get? i = some kept ∧
        (Unacked.tick period now kept).2 = true := by
    intro i
    rw [hsent]
    exact mem_numbers_resent (hs.links q)
  refine ⟨fun i hwaits => ?_, fun i hnot => ?_⟩
  · rw [hlink, get?_unacked_tick]
    by_cases hi : i ∈ numbers (addressedTo q x.reaction.sent)
    · obtain ⟨kept, hkept, hdue⟩ := (hwaited i).mp hi
      refine ⟨(Unacked.tick period now kept).1, by rw [hkept, Option.map_some], ?_⟩
      rw [stamp_after_tick, if_pos hdue, stampOf_of_sent hi, htick]
    · have hbefore := ((waits_snoc hi).mp hwaits).1
      obtain ⟨kept, hkept, hstamp⟩ := h.waits i hbefore
      have hrecent : ¬ (Unacked.tick period now kept).2 = true := fun hdue =>
        hi ((hwaited i).mpr ⟨kept, hkept, hdue⟩)
      refine ⟨(Unacked.tick period now kept).1, by rw [hkept, Option.map_some], ?_⟩
      rw [stamp_after_tick, if_neg hrecent, stampOf_snoc hi hbefore.1, htick, hstamp]
  · have hi : i ∉ numbers (addressedTo q x.reaction.sent) := fun hi => hnot (waits_of_sent hi)
    rw [waits_snoc hi] at hnot
    rw [hlink, get?_unacked_tick, h.gone i fun hwaits => hnot ⟨hwaits, hends i⟩, Option.map_none]

/-- A call other than a tick keeps to the law, for a peer that stays. -/
theorem KeptAs.call (h : KeptAs log (x.before.link q) q) (hs : x.before.Coherent)
    (hx : Reliable.call period me x.before x.call = .ok x.reaction) (hc : x.call.tick? = none)
    (hq : q ∉ x.reaction.state.dismissed) :
    KeptAs (log ++ [x]) (x.reaction.state.link q) q := by
  have hrestocks := restocks_of_call hs hx hc hq
  have hends := fun i => ends_iff (i := i) hq hx
  refine ⟨fun i hwaits => ?_, fun i hnot => ?_⟩
  · by_cases hi : i ∈ numbers (addressedTo q x.reaction.sent)
    · obtain ⟨b, -, -, hkept⟩ := hrestocks.sent i hi
      exact ⟨_, hkept, by rw [stampOf_of_sent hi, hc]⟩
    · obtain ⟨hbefore, hlasts⟩ := (waits_snoc hi).mp hwaits
      obtain ⟨kept, hkept, hstamp⟩ := h.waits i hbefore
      rw [hrestocks.same i hi fun m hm hack => hlasts ((hends i).mpr ⟨m, hm, hack⟩)]
      exact ⟨kept, hkept, by rw [stampOf_snoc hi hbefore.1, hc, Option.or_none, hstamp]⟩
  · have hi : i ∉ numbers (addressedTo q x.reaction.sent) := fun hi => hnot (waits_of_sent hi)
    by_cases hover : x.call.Ends q i
    · exact hrestocks.gone i hi ((hends i).mp hover)
    · rw [hrestocks.same i hi fun m hm hack => hover ((hends i).mpr ⟨m, hm, hack⟩)]
      exact h.gone i fun hwaits => hnot ((waits_snoc hi).mpr ⟨hwaits, hover⟩)

/-- A peer that has been dismissed has nothing to wait for. -/
theorem KeptAs.ends (h : KeptAs log (x.before.link q) q) (hs : x.before.Coherent)
    (hx : Reliable.call period me x.before x.call = .ok x.reaction)
    (hgone : q ∈ x.reaction.state.dismissed) :
    KeptAs (log ++ [x]) (x.reaction.state.link q) q := by
  obtain ⟨hlink, hnone⟩ := call_dismissed hx hgone (hs.gone q)
  have hi : ∀ i, i ∉ numbers (addressedTo q x.reaction.sent) := fun i => by
    rw [hnone]
    exact List.not_mem_nil
  rw [hlink]
  refine ⟨fun i hwaits => ?_, fun i _ => rfl⟩
  obtain ⟨hbefore, hlasts⟩ := (waits_snoc (hi i)).mp hwaits
  rcases (mem_dismissed_call hx).mp hgone with hdismiss | hgone
  · exact absurd (.inl hdismiss) hlasts
  · obtain ⟨kept, hkept, -⟩ := h.waits i hbefore
    rw [hs.gone q hgone] at hkept
    cases hkept

/-- **What a node keeps for a peer**: the batches whose numbers have been sent to it and neither
acknowledged since then nor been given up with the peer, stamped with the time of the first tick
from their last sending on. -/
theorem Life.kept (hlife : Life period me log s) (q : NodeId) : KeptAs log (s.link q) q := by
  obtain ⟨first, hstart, hcalls⟩ := hlife
  induction hcalls with
  | nil =>
    obtain ⟨nested, -, rfl⟩ := map_eq_ok hstart
    exact ⟨fun i hwaits => absurd hwaits.1 List.not_mem_nil, fun _ _ => rfl⟩
  | @snoc log t c r hcalls hcall ih =>
    have hs : t.Coherent := Life.coherent ⟨first, hstart, hcalls⟩
    by_cases hgone : q ∈ r.state.dismissed
    · exact ih.ends (x := ⟨t, c, r⟩) hs hcall hgone
    · cases htick : c.tick? with
      | none => exact ih.call (x := ⟨t, c, r⟩) hs hcall htick hgone
      | some now =>
        obtain rfl := Call.tick?_eq_some.mp htick
        exact ih.tick (x := ⟨t, _, r⟩) hs rfl (Except.ok.inj hcall).symm

/-- The batches that are kept for a peer are those that wait, and each waits under its number. -/
theorem Life.keeps_iff (hlife : Life period me log s) {q : NodeId} {i : BatchId}
    {b : Batch P.Msg} :
    (∃ kept, (s.link q).unacked.get? i = some kept ∧ kept.batch = b) ↔
      Waits q i log ∧ .batch b ∈ sentTo q log ∧ b.id = some i := by
  obtain ⟨base, bs, hacc⟩ := hlife.account q
  constructor
  · rintro ⟨kept, hkept, rfl⟩
    have hwaits : Waits q i log := by
      by_contra hnot
      rw [(hlife.kept q).gone i hnot] at hkept
      cases hkept
    obtain ⟨hmem, hid⟩ := hacc.mem_of_kept hkept
    exact ⟨hwaits, (mem_numbered.mp ((hacc.sent _).mpr hmem)).1, hid⟩
  · rintro ⟨hwaits, hsent, hid⟩
    obtain ⟨kept, hkept, -⟩ := (hlife.kept q).waits i hwaits
    obtain ⟨hmem, hid'⟩ := hacc.mem_of_kept hkept
    have hsome : b.id ≠ none := by
      rw [hid]
      exact Option.some_ne_none i
    have hmem' := (hacc.sent b).mp (mem_numbered.mpr ⟨hsent, hsome⟩)
    exact ⟨kept, hkept, hacc.consecutive.eq_of_id_eq hmem hmem' (hid'.trans hid.symm)⟩

/-! ### Ticks -/

/-- What is due for a peer at a time: of the batches that are kept, in the order of their numbers,
those whose stamp is further back than `period`, and a reset request if messages are buffered. -/
def dueAt (period now : Time) (log : List (Episode P)) (q : NodeId) (link : Link P.Msg) :
    List (Message P.Msg) :=
  (link.unacked.entries.filter fun e => (stampOf q e.1 log).any (· + period < now)).map
    (fun e => .batch e.2.batch) ++
  if link.pending.toList.isEmpty then [] else [.reset .request]

def stampedAs (log : List (Episode P)) (q : NodeId) (link : Link P.Msg) : Link P.Msg :=
  { link with unacked := link.unacked.mapKeyed fun i kept =>
      { kept with stamp := stampOf q i log } }

theorem resent_again_iff {μ : Type} (period now : Time) (kept : Unacked μ) :
    (Unacked.tick period now kept).2 = kept.stamp.any (· + period < now) := by
  unfold Unacked.tick
  split
  · rename_i hnone
    rw [hnone]
    rfl
  · rename_i t ht
    rw [ht, Option.any_some]
    split
    · rename_i hlt
      exact (decide_eq_true hlt).symm
    · rename_i hle
      exact (decide_eq_false hle).symm

/-- A tick asks for the handshake where messages are buffered, and nowhere else. -/
theorem needsReset_eq {μ : Type} {link : Link μ} {sent : List (Message μ)}
    (h : link.Consistent sent) : link.needsReset = !link.pending.toList.isEmpty := by
  have hlength : link.pending.length = link.pending.toList.length := (Fifo.length_toList _).symm
  rw [needsReset, hlength]
  cases hsettled : link.isInitialized with
  | true => rw [(h.settled hsettled).1]; rfl
  | false =>
    have hasked := (h.unsettled hsettled).2.2
    cases hpending : link.pending.toList with
    | nil =>
      have hquiet : link.resetSent = false :=
        Bool.eq_false_iff.mpr fun hsent => hasked.mp hsent hpending
      rw [hquiet]
      rfl
    | cons m ms => simp

theorem resent_eq_dueAt {link : Link P.Msg} (hkept : KeptAs log link q)
    {sent : List (Message P.Msg)} (hlink : link.Consistent sent) :
    link.resent period now = dueAt period now log q link := by
  have hdue : link.unacked.entries.filter (fun e => (Unacked.tick period now e.2).2) =
      link.unacked.entries.filter fun e => (stampOf q e.1 log).any (· + period < now) := by
    refine List.filter_congr fun e he => ?_
    have hget : link.unacked.get? e.1 = some e.2 := mem_entries_iff.mp he
    have hwaits : Waits q e.1 log := by
      by_contra hnot
      rw [hkept.gone e.1 hnot] at hget
      cases hget
    obtain ⟨kept, hkept, hstamp⟩ := hkept.waits e.1 hwaits
    cases hget.symm.trans hkept
    rw [resent_again_iff, hstamp]
  rw [resent, dueAt, needsReset_eq hlink, ← hdue, SortedMap.values, List.filter_map, List.map_map]
  cases link.pending.toList.isEmpty <;> rfl

/-- What a tick leaves is what was there, with the stamps of the log that ends with the tick. -/
theorem tick_eq_stampedAs {link : Link P.Msg} (hlink : link.Balanced)
    (hkept : KeptAs log (link.tick period now) q) :
    link.tick period now = stampedAs log q link := by
  have hunacked : (link.tick period now).unacked = (stampedAs log q link).unacked := by
    refine ext_get? fun i => ?_
    change _ = (link.unacked.mapKeyed _).get? i
    rw [get?_mapKeyed, get?_unacked_tick]
    cases hget : link.unacked.get? i with
    | none => rfl
    | some kept =>
      have htick : (link.tick period now).unacked.get? i =
          some (Unacked.tick period now kept).1 := by
        rw [get?_unacked_tick, hget, Option.map_some]
      have hwaits : Waits q i log := by
        by_contra hnot
        rw [hkept.gone i hnot] at htick
        cases htick
      obtain ⟨kept', hkept', hstamp⟩ := hkept.waits i hwaits
      cases htick.symm.trans hkept'
      rw [Option.map_some, Option.map_some, ← hstamp, ← batch_tick period now kept]
  have hasked := (hlink.tick period now).1
  calc link.tick period now
      = { link with unacked := (link.tick period now).unacked
                    resetSent := (link.tick period now).resetSent } := rfl
    _ = stampedAs log q link := by rw [hunacked, hasked]; rfl

theorem Life.onTick_sent (hlife : Life period me log s) :
    (onTick period s now).sent =
      s.links.entries.flatMap fun e => toPeer e.1 (dueAt period now log e.1 e.2) := by
  refine List.flatMap_congr fun e he => ?_
  have hget : s.links.get? e.1 = some e.2 := mem_entries_iff.mp he
  have hlink : s.link e.1 = e.2 := by rw [State.link, getD, hget, Option.getD_some]
  have hkept := hlife.kept e.1
  rw [hlink] at hkept
  exact congrArg (toPeer e.1) (resent_eq_dueAt hkept (hlife.consistent hget).2)

theorem Life.onTick_links (hlife : Life period me log s)
    (hafter : Life period me (log ++ [x]) (onTick period s now).state) :
    s.links.mapVals (Link.tick period now) = s.links.mapKeyed (stampedAs (log ++ [x])) := by
  refine ext_get? fun q => ?_
  rw [get?_mapVals, get?_mapKeyed]
  cases hget : s.links.get? q with
  | none => rfl
  | some link =>
    have hlink : s.link q = link := by rw [State.link, getD, hget, Option.getD_some]
    have hkept := hafter.kept q
    rw [(onTick_link period now s q).1, hlink] at hkept
    have hbalanced := (hlife.balanced q).1
    rw [hlink] at hbalanced
    exact congrArg some (tick_eq_stampedAs hbalanced hkept)

/-- **What a tick sends, told from all the calls before it.**  Ticks may come in any order of their
times.  To each peer in turn, a tick sends one copy of every batch that still waits and whose stamp
is further back than the period, in the order of the numbers, and one reset request if messages for
the peer are buffered.  The stamp is the time of the first tick from the call on in which the batch
was last sent; a batch without one is not sent.  A batch waits for its acknowledgement if it has
been sent to the peer and since then neither acknowledged nor given up with the peer.  The tick
changes nothing but stamps, and it leaves them as the log that ends with it says. -/
theorem resends_of_life (hlife : Life period me (earlier ++ x :: later) s)
    (hx : x.call = .input (.tick now)) :
    x.reaction.sent = x.before.links.entries.flatMap
      (fun e => toPeer e.1 (dueAt period now earlier e.1 e.2)) ∧
    x.reaction.state =
      { x.before with links := x.before.links.mapKeyed (stampedAs (earlier ++ [x])) } ∧
    ∀ q i b, (∃ kept, (x.before.link q).unacked.get? i = some kept ∧ kept.batch = b) ↔
      Waits q i earlier ∧ .batch b ∈ sentTo q earlier ∧ b.id = some i := by
  obtain ⟨first, hstart, hcalls⟩ := hlife
  obtain ⟨hearlier, hcall, -⟩ := hcalls.split
  have hbefore : Life period me earlier x.before := ⟨first, hstart, hearlier⟩
  have hafter : Life period me (earlier ++ [x]) x.reaction.state :=
    ⟨first, hstart, hearlier.snoc hcall⟩
  have hreaction : x.reaction = onTick period x.before now := by
    rw [hx] at hcall
    exact (Except.ok.inj hcall).symm
  refine ⟨?_, ?_, fun q i b => hbefore.keeps_iff⟩
  · rw [hreaction]
    exact hbefore.onTick_sent
  · rw [hreaction] at hafter
    rw [hreaction, onTick, hbefore.onTick_links hafter]

/-- The batch 6 is sent in a round, and 7 with the acknowledgement of a ping.  A copy of the ping
has 7 sent again, so that its stamp is the time of the tick after that. -/
def restampedCarrier : List (Call (Protocol.pingPong 0)) :=
  let ping : Call (Protocol.pingPong 0) :=
    .message ⟨1⟩ (.batch { id := some 3, msgs := [(⟨1⟩ : PingPong.Ping)] })
  [.input (.nested (⟨⟨1⟩, 0⟩ : PingPong.Serve)), .message ⟨1⟩ (.reset ⟨true, 5⟩),
    .input (.tick 1), ping, .input (.tick 10), ping, .input (.tick 12), .input (.tick 16),
    .input (.tick 18)]

theorem resends_of_restampedCarrier : ∃ earlier x s,
    Life (P := Protocol.pingPong 0) 5 ⟨0⟩ (earlier ++ x :: []) s ∧
    x.call = .input (.tick 18) ∧ stampOf ⟨1⟩ 6 earlier = some 16 ∧
    stampOf ⟨1⟩ 7 earlier = some 12 ∧ numbers (addressedTo ⟨1⟩ x.reaction.sent) = [7] ∧
    x.reaction.sent = x.before.links.entries.flatMap
      (fun e => toPeer e.1 (dueAt 5 18 earlier e.1 e.2)) := by
  obtain ⟨log, s, hlife, htest⟩ :=
    @Life.exists (Protocol.pingPong 0) 5 ⟨0⟩ restampedCarrier
      (fun log _ => log.getLast?.any fun x => x.call.tick? = some 18 ∧
        stampOf ⟨1⟩ 6 log.dropLast = some 16 ∧ stampOf ⟨1⟩ 7 log.dropLast = some 12 ∧
        numbers (addressedTo ⟨1⟩ x.reaction.sent) = [7]) (by decide +kernel)
  obtain ⟨x, hlast, htest⟩ := (Option.any_eq_true _ _).mp htest
  obtain ⟨htick, hround, hcarrier, hsent⟩ := of_decide_eq_true htest
  have hx := Call.tick?_eq_some.mp htick
  rw [← List.dropLast_append_getLast? x hlast] at hlife
  exact ⟨log.dropLast, x, s, hlife, hx, hround, hcarrier, hsent, (resends_of_life hlife hx).1⟩

end

end Quorum.Reliable
