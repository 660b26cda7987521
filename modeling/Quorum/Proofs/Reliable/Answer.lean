import Mathlib.Data.FinEnum
import Quorum.Proofs.Frugal
import Quorum.Proofs.Reliable.Coherent

/-!
# Answer — what a node sends in return

A message takes something off the load of a node, which is what the node may still have to send of
its own; or else the node sends at most one message in return, to the sender.  This may be a batch
that is kept, in which case it carries an acknowledgement of the batch that has come.  So no batch
comes about without one having been kept or having been new.

**Main statements.**  `receive_spends`: what a message takes off the load, or what is sent in
return.
-/

namespace Quorum

noncomputable instance : Fintype NodeId :=
  have : Finite NodeId := Finite.of_injective NodeId.num fun _ _ h => by
    rwa [NodeId.mk.injEq]
  Fintype.ofFinite NodeId

namespace Reliable

open SortedMap

section
variable {μ : Type} {link link' : Link μ}

/-! ### Channels -/

/-- What is kept after an event was kept before, and has not been acknowledged in it. -/
def Link.Releases (acks : List BatchId) (link link' : Link μ) : Prop :=
  ∀ i, link'.unacked.contains i → link.unacked.contains i ∧ i ∉ acks

/-- What is sent in return for a message when nothing else is sent: nothing, the answer to a reset
request, an acknowledgement alone, or the batch that carries the acknowledgement and is kept. -/
inductive Answer (link' : Link μ) : Message μ → List (Message μ) → Prop where
  | nothing (m : Message μ) : Answer link' m []
  | latest {r : Reset} (hr : r.isResponse = false) (latest : BatchId) :
      Answer link' (.reset r) [.reset ⟨true, latest⟩]
  | alone {b : Batch μ} {i : BatchId} (hid : b.id = some i) :
      Answer link' (.batch b) [.batch { acks := [i] }]
  | carrier {b kept : Batch μ} {i j : BatchId} (hid : b.id = some i) (hown : kept.id = some j)
      (hack : i ∈ kept.acks) (hkept : link'.unacked.contains j) :
      Answer link' (.batch b) [.batch kept]

namespace Link

theorem pending_accept (link : Link μ) (b : Batch μ) :
    (link.accept b).1.pending = link.pending := by
  obtain ⟨unacked, received, ackedIn, answeredReset, haccept, -⟩ := accept_eq link b
  rw [haccept]

theorem releases_accept (link : Link μ) (b : Batch μ) :
    link.Releases b.acks (link.accept b).1 := by
  obtain ⟨unacked, received, ackedIn, answeredReset, haccept, hold, -⟩ := accept_eq link b
  rw [haccept]
  intro i hi
  obtain ⟨kept, hkept⟩ := get?_of_contains hi
  exact ⟨contains_of_get? (hold i kept hkept).1, (hold i kept hkept).2⟩

/-- **A batch that comes again is acknowledged by the batch that did so before, or alone.** -/
theorem answer_reacknowledge (hlink : link.Coherent) {b : Batch μ} {id : BatchId}
    (hid : b.id = some id) : (link.reacknowledge id).1.pending = link.pending ∧
      (∀ i, (link.reacknowledge id).1.unacked.contains i → link.unacked.contains i) ∧
      Answer (link.reacknowledge id).1 (.batch b) [(link.reacknowledge id).2] := by
  rcases reacknowledge_cases link id with ⟨j, kept, hj, hkept, heq⟩ | heq
  · rw [heq]
    refine ⟨rfl, fun i hi => ?_, ?_⟩
    · rcases contains_insert.mp hi with rfl | hi
      · exact contains_of_get? hkept
      · exact hi
    · exact .carrier hid (hlink.own j kept hkept) (hlink.carries id j kept hj hkept)
        (contains_insert.mpr (.inl rfl))
  · rw [heq]
    exact ⟨rfl, fun _ hi => hi, .alone hid⟩

end Link

end

/-! ### Nodes -/

section
variable {P : Protocol} {room : P.State → Nat} {s s' : State P} {me sender : NodeId}
  {m : Message P.Msg} {r : Reaction (State P) (Message P.Msg)}

/-- What a node may still have to send: each nested message counts once until it waits, and once
until it is sent. -/
noncomputable def State.load (room : P.State → Nat) (s : State P) : Nat :=
  2 * room s.nested + ∑ q, (s.link q).pending.length

theorem load_setLink (room : P.State → Nat) {peer : NodeId} {link : Link P.Msg} (spent : Nat)
    (h : link.pending.length + spent ≤ (s.link peer).pending.length) :
    (s.setLink peer link).load room + spent ≤ s.load room := by
  rw [State.load, State.load, Nat.add_assoc]
  refine Nat.add_le_add_left (sum_add_le (i := peer) ?_ fun q hq => ?_) _
  · rwa [link_setLink, if_pos rfl]
  · rw [link_setLink, if_neg hq.symm]

theorem sum_addressedTo {μ : Type} (out : List (Outgoing μ)) :
    ∑ q, (addressedTo q out).length = out.length := by
  induction out with
  | nil => simp
  | cons o out ih =>
    have hsplit : ∀ q, (addressedTo q (o :: out)).length =
        (if o.recipient = q then 1 else 0) + (addressedTo q out).length := by
      intro q
      by_cases hq : o.recipient = q <;> simp [addressedTo, hq, Nat.add_comm]
    simp only [hsplit, Finset.sum_add_distrib, ih, Finset.sum_ite_eq, Finset.mem_univ, if_true,
      List.length_cons, Nat.add_comm]

theorem eq_toPeer {out : List (Outgoing (Message P.Msg))} {peer : NodeId}
    (h : ∀ q, q ≠ peer → addressedTo q out = []) : out = toPeer peer (addressedTo peer out) := by
  have hpeer : ∀ o ∈ out, o.recipient = peer := by
    intro o ho
    by_contra hne
    have hmem : o.body ∈ addressedTo o.recipient out := mem_addressedTo.mpr ho
    rw [h _ hne] at hmem
    cases hmem
  have hsame : out.map (fun o => (⟨peer, o.body⟩ : Outgoing (Message P.Msg))) = out.map id :=
    List.map_congr_left fun o ho => by
      rw [← hpeer o ho]
      rfl
  rw [addressedTo, List.filter_eq_self.mpr fun o ho => decide_eq_true (hpeer o ho), toPeer,
    List.map_map]
  exact (hsame.trans (List.map_id out)).symm

/-- What comes of a message that takes nothing off the load. -/
structure Rests (room : P.State → Nat) (s : State P) (sender : NodeId) (m : Message P.Msg)
    (r : Reaction (State P) (Message P.Msg)) : Prop where
  load : r.state.load room ≤ s.load room
  sent : ∃ ms, r.sent = toPeer sender ms ∧ Answer (r.state.link sender) m ms
  released : (s.link sender).Releases m.acks (r.state.link sender)
  other : ∀ q, q ≠ sender → r.state.link q = s.link q

theorem rests_setLink {link : Link P.Msg} {ms : List (Message P.Msg)}
    (hstate : r.state = s.setLink sender link) (hsent : r.sent = toPeer sender ms)
    (hpending : link.pending.length ≤ (s.link sender).pending.length)
    (hreleases : (s.link sender).Releases m.acks link) (hanswer : Answer link m ms) :
    Rests room s sender m r where
  load := by
    rw [hstate]
    exact load_setLink room 0 hpending
  sent := ⟨ms, hsent, by rwa [hstate, link_setLink, if_pos rfl]⟩
  released := by rwa [hstate, link_setLink, if_pos rfl]
  other q hq := by rw [hstate, link_setLink, if_neg hq.symm]

/-- News takes more room than it takes to wait. -/
theorem load_sendAfter {owed : Option (NodeId × BatchId)} {nested : Reaction P.State P.Msg}
    (h : sendAfter s owed nested = .ok r) (howed : ∀ q ∈ s.dismissed, forPeer owed q = none)
    {before : Nat} (hroom : room nested.state + nested.sent.length ≤ before) :
    r.state.load room + nested.sent.length ≤ 2 * before + ∑ q, (s.link q).pending.length := by
  obtain ⟨hstate, -, hposts⟩ := sendAfter_post h howed
  have hterm : ∀ q, (r.state.link q).pending.length ≤
      (s.link q).pending.length + (addressedTo q nested.sent).length := by
    intro q
    have hposted := Link.post_posted (hposts q)
    have htop := hposted.top_le
    have hwaiting := hposted.room
    split at hwaiting
    · rw [List.length_nil] at hwaiting
      omega
    · omega
  have hsum := Finset.sum_le_sum fun q (_ : q ∈ Finset.univ) => hterm q
  rw [Finset.sum_add_distrib, sum_addressedTo] at hsum
  rw [State.load, hstate]
  omega

/-- A new batch that makes the nested automaton send nothing is acknowledged. -/
theorem rests_fresh {b : Batch P.Msg} {id : BatchId} {nested : Reaction P.State P.Msg}
    (hid : b.id = some id) (hsender : sender ∉ s.dismissed)
    (h : sendAfter (s.setLink sender ((s.link sender).accept b).1) (some (sender, id)) nested =
      .ok r) (hnone : nested.sent = []) (hload : r.state.load room ≤ s.load room) :
    Rests room s sender (.batch b) r := by
  obtain ⟨-, -, hposts⟩ := sendAfter_post h (forPeer_of_dismissed hsender id)
  have hlinks : ∀ q, (s.setLink sender ((s.link sender).accept b).1).link q = r.state.link q ∧
      Link.ackAlone (forPeer (some (sender, id)) q) = addressedTo q r.sent := by
    intro q
    have hpost := hposts q
    rw [hnone, addressedTo_nil, ite_self] at hpost
    have hsame := Except.ok.inj hpost
    exact ⟨congrArg Prod.fst hsame, congrArg Prod.snd hsame⟩
  obtain ⟨hlink, hack⟩ := hlinks sender
  rw [link_setLink, if_pos rfl] at hlink
  rw [forPeer_self] at hack
  refine ⟨hload, ⟨_, eq_toPeer fun q hq => ?_, ?_⟩, ?_, fun q hq => ?_⟩
  · rw [← (hlinks q).2, forPeer_ne hq.symm]
    rfl
  · rw [← hack]
    exact .alone hid
  · rw [← hlink]
    exact Link.releases_accept _ b
  · rw [← (hlinks q).1, link_setLink, if_neg hq.symm]

/-- A batch takes something off the load, or is answered at most. -/
theorem onBatch_spends (hfrugal : Frugal P room) (hs : s.Coherent) {b : Batch P.Msg}
    (hsender : sender ∉ s.dismissed) (h : onBatch me s sender b = .ok r) :
    r.state.load room < s.load room ∨ Rests room s sender (.batch b) r := by
  have hreleases := Link.releases_accept (s.link sender) b
  have hpending := Link.pending_accept (s.link sender) b
  rcases onBatch_cases h with
    ⟨hid, rfl⟩ | ⟨id, hid, -, rfl⟩ | ⟨id, nested, hid, -, hnested, h⟩
  · exact .inr (rests_setLink rfl rfl (by rw [hpending]) hreleases (.nothing _))
  · obtain ⟨hsame, hkept, hanswer⟩ := Link.answer_reacknowledge
      ((hs.links sender).forgets (Link.forgets_accept _ b)) hid
    refine .inr (rests_setLink rfl rfl (by rw [hsame, hpending]) (fun i hi => ?_) hanswer)
    exact hreleases i (hkept i hi)
  · obtain ⟨hok, -⟩ : (∀ r, handOver me sender b.msgs { nested := s.nested } = .ok r → _) ∧ _ :=
      handOver_invariant (R := fun t out => room t + out.length ≤ room s.nested)
        (fun m _ t out next hroom hnext => by
          have hspent := hfrugal.receive hnext
          rw [List.length_append]
          omega) le_rfl
    have hload := load_sendAfter h (forPeer_of_dismissed hsender id) (hok nested hnested)
    have hbefore : (s.setLink sender ((s.link sender).accept b).1).load room + 0 ≤ s.load room :=
      load_setLink room 0 (by rw [hpending]; rfl)
    have hafter : r.state.load room + nested.sent.length ≤ s.load room := hload.trans hbefore
    rcases Nat.eq_zero_or_pos nested.sent.length with hnone | hsome
    · exact .inr (rests_fresh hid hsender h (List.length_eq_zero_iff.mp hnone) (by omega))
    · exact .inl (by omega)

/-- The answer to a reset request takes what waits off the load; a request is answered. -/
theorem onReset_spends {reset : Reset} (h : onReset s sender reset = .ok r) :
    r.state.load room < s.load room ∨ Rests room s sender (.reset reset) r := by
  rcases onReset_cases h with
    ⟨hr, hstate, hsent⟩ | ⟨-, -, hstate, hsent⟩ |
    ⟨next, link, ms, -, -, -, hsettle, hstate, hsent⟩
  · exact .inr (rests_setLink hstate hsent le_rfl (fun i hi => ⟨hi, List.not_mem_nil⟩)
      (.latest hr _))
  · have hnothing : r.sent = toPeer sender [] := hsent
    exact .inr (rests_setLink hstate hnothing le_rfl (fun i hi => ⟨hi, List.not_mem_nil⟩)
      (.nothing _))
  · have hempty : link.pending.length = 0 := by
      rw [← Fifo.length_toList, (Link.settle_posted hsettle).2, List.length_nil]
    rcases Nat.eq_zero_or_pos (s.link sender).pending.length with hnone | hsome
    · rw [← Fifo.length_toList, List.length_eq_zero_iff] at hnone
      rw [Link.settleNumbering, hnone] at hsettle
      cases hsettle
      exact .inr (rests_setLink hstate hsent (Nat.zero_le _) (fun i hi => ⟨hi, List.not_mem_nil⟩)
        (.nothing _))
    · have hload := load_setLink room (s.link sender).pending.length
        (show link.pending.length + _ ≤ _ by rw [hempty, Nat.zero_add])
      rw [hstate]
      exact .inl (by omega)

/-- **A message takes something off the load of a node, or makes it send an answer at most.** -/
theorem receive_spends (hfrugal : Frugal P room) (hs : s.Coherent)
    (h : receive me s sender m = .ok r) :
    r.state.load room < s.load room ∨ Rests room s sender m r := by
  unfold receive at h
  split at h
  · rename_i hsender
    cases h
    refine .inr ⟨le_rfl, ⟨[], rfl, .nothing m⟩, fun i hi => ?_, fun _ _ => rfl⟩
    rw [hs.gone sender hsender] at hi
    cases hi
  · rename_i hsender
    cases m with
    | batch b => exact onBatch_spends hfrugal hs hsender h
    | reset reset => exact onReset_spends h

end

end Reliable

end Quorum
