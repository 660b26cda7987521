import Quorum.Proofs.Broadcast.Agreement

/-!
# Totality — one delivery brings about all

Once everything that correct nodes have sent to correct nodes has arrived, a delivery anywhere is
a delivery everywhere.  The votes behind the first delivery contain more correct ones than there
may be faulty members; these make every correct node ready, and all correct nodes together are
enough to deliver.

**Main statements.**  `heard_of_run`: what has arrived counts.  `ready_of_delivered`: a delivery
makes every correct node ready for the value.  `totality`.
-/

namespace Quorum.Broadcast

open Mesh

variable {c : Committee} {broadcaster : NodeId} {faulty : Finset NodeId}
variable {past : List (Moment (.broadcast c broadcaster))}
variable {mesh : Mesh (.broadcast c broadcaster)}

theorem heard_of_run {ids : List NodeId} (hrun : Run ids Event.IsAsynchronous past mesh) {i : Nat}
    (harrived : ∃ x ∈ past, x.event = .deliver i) {p : Packet Message}
    (hp : mesh.pool[i]? = some p) {s : State} (hs : mesh.nodes.get? p.recipient = some s)
    (hmember : p.sender ∈ c) (hkind : p.body.kind ≠ .initial) :
    (p.sender, p.body.value) ∈ (s.tally p.body.kind).votes := by
  refine hrun.of_delivered harrived hp
    (Q := fun s : State => (p.sender, p.body.value) ∈ (s.tally p.body.kind).votes) ?_ ?_ hs
  · intro t r hr
    cases hr
    exact mem_votes_receive.mpr (.inr ⟨hmember, rfl, hkind, rfl⟩)
  · intro mesh t e t' out hmay hacts ht
    exact (reacted hacts hmay).votes_mono _ _ ht

section
variable (hf : faulty.card ≤ c.faults)
  (hrun : Run (c.correct faulty) Event.IsAsynchronous past mesh)
  (harrived : AllArrived past mesh)
include hf hrun harrived

theorem voted_of_declared {x y : NodeId} {k : Kind} (hk : k ≠ .initial) (hx : x ∈ c) {v : Bytes}
    (hv : (⟨x, y, ⟨k, v⟩⟩ : Packet Message) ∈ mesh.pool) {b : NodeId} {t : State} (hbc : b ∈ c)
    (hb : mesh.nodes.get? b = some t) : (x, v) ∈ (t.tally k).votes := by
  have hj := joint_of_run hf hrun
  obtain ⟨s, hs⟩ := Option.isSome_iff_exists.mp (hrun.sender_isSome hv)
  obtain ⟨w, hw⟩ := hj.to_all x s hs k (hj.declared x s hs y k v hv)
  obtain rfl : v = w := hj.unique x y b k v w hv (hw b hbc)
  obtain ⟨i, hi⟩ := Array.getElem?_of_mem (hw b hbc)
  exact heard_of_run hrun (harrived i _ hi (Option.isSome_of_mem hb)) hi hb hx hk

/-- A delivery makes every correct node ready for the value delivered. -/
theorem ready_of_delivered {a b : NodeId} {s t : State} (ha : mesh.nodes.get? a = some s)
    (hb : mesh.nodes.get? b = some t) (hbc : b ∈ c) {v : Bytes} (hv : s.delivered = some v) :
    ∃ y, (⟨b, y, ⟨.ready, v⟩⟩ : Packet Message) ∈ mesh.pool := by
  have hj := joint_of_run hf hrun
  have hsettled := hj.settled a s ha
  -- the correct ones among the votes at `a` are more than may be faulty
  have hcount := hsettled.readies_of_delivered v hv
  rw [← hsettled.card_readies] at hcount
  have hcorrect : c.faults < (s.readies.voters v \ faulty).card := by
    have := Finset.le_card_sdiff faulty (s.readies.voters v)
    omega
  have hvotes : ∀ x ∈ s.readies.voters v \ faulty, (x, v) ∈ t.readies.votes := fun x hx => by
    obtain ⟨hx, hnot⟩ := Finset.mem_sdiff.mp hx
    obtain ⟨hmember, hsent⟩ := hj.votes a s ha .ready x v (Tally.mem_voters.mp hx)
    exact voted_of_declared hf hrun harrived (by decide) hmember
      (hsent (isSome_of_correct hrun hmember hnot)) hbc hb
  have henough : c.faults < t.readies.count v :=
    lt_of_lt_of_le hcorrect (Tally.card_le_count ((hj.settled b t hb).nodup .ready) hvotes)
  have hready : t.declared .ready = true := (hj.settled b t hb).ready_of_readies v henough
  obtain ⟨w, hw⟩ := hj.to_all b t hb .ready hready
  obtain ⟨x, hx⟩ := exists_ready_of_delivered hf hrun ha hv
  obtain rfl : v = w := ready_unique hf hrun hx (hw b hbc)
  exact ⟨b, hw b hbc⟩

end

/-- **Totality: when everything between correct nodes has arrived and one of them has delivered a
value, all of them have delivered it.** -/
theorem totality (hc : c.members.Nodup) (hf : faulty.card ≤ c.faults)
    (hrun : Run (c.correct faulty) Event.IsAsynchronous past mesh)
    (harrived : AllArrived past mesh) {a b : NodeId}
    {s t : (Protocol.broadcast c broadcaster).State} (ha : mesh.nodes.get? a = some s)
    (hb : mesh.nodes.get? b = some t) {v : Bytes}
    (hv : (Protocol.broadcast c broadcaster).output s = some v) :
    (Protocol.broadcast c broadcaster).output t = some v := by
  have hj := joint_of_run hf hrun
  have hmember : ∀ id (u : State), mesh.nodes.get? id = some u → id ∈ c ∧ id ∉ faulty :=
    fun id u hu => Committee.mem_correct.mp ((hrun.nodes_isSome id).mp (Option.isSome_of_mem hu))
  have hbc := (hmember b t hb).1
  have hvotes : ∀ x ∈ c.memberSet \ faulty, (x, v) ∈ (t : State).readies.votes := fun x hx => by
    obtain ⟨hx, hnot⟩ := Finset.mem_sdiff.mp hx
    have hxc := Committee.mem_memberSet.mp hx
    obtain ⟨u, hu⟩ := Option.isSome_iff_exists.mp (isSome_of_correct hrun hxc hnot)
    obtain ⟨y, hy⟩ := ready_of_delivered hf hrun harrived ha hu hxc hv
    exact voted_of_declared hf hrun harrived (by decide) hxc hy hbc hb
  have hmost := Committee.two_mul_faults_lt_card_correct hc (List.ne_nil_of_mem hbc) hf
  have henough : 2 * c.faults < (t : State).readies.count v :=
    lt_of_lt_of_le hmost (Tally.card_le_count ((hj.settled b t hb).nodup .ready) hvotes)
  obtain ⟨w, hw⟩ :=
    Option.isSome_iff_exists.mp ((hj.settled b t hb).delivered_of_readies v henough)
  obtain ⟨x, hx⟩ := exists_ready_of_delivered hf hrun ha hv
  obtain ⟨y, hy⟩ := exists_ready_of_delivered hf hrun hb hw
  rw [ready_unique hf hrun hx hy]
  exact hw

/-- After the broadcaster has told two values, everything arrives that is still on its way. -/
def equivocationSettled : List (Event (.broadcast four ⟨3⟩)) :=
  equivocation ++ [2, 6, 8, 9, 10, 14, 18, 20, 21, 22].map .deliver

/-- The node that was told another value delivers the one that the others deliver. -/
theorem totality_under_equivocation : ∃ past mesh s t,
    four.members.Nodup ∧ ({⟨3⟩} : Finset NodeId).card ≤ four.faults ∧
      Run (four.correct {⟨3⟩}) Event.IsAsynchronous past mesh ∧ AllArrived past mesh ∧
      mesh.nodes.get? ⟨0⟩ = some s ∧ mesh.nodes.get? ⟨2⟩ = some t ∧
      (Protocol.broadcast four ⟨3⟩).output s = some [1] ∧
      (Protocol.broadcast four ⟨3⟩).output t = some [1] := by
  obtain ⟨past, mesh, hrun, hpast, htest⟩ :=
    @Run.exists (.broadcast four ⟨3⟩) (four.correct {⟨3⟩}) Event.IsAsynchronous equivocationSettled
      (fun mesh => hasDelivered mesh ⟨0⟩ [1] && hasDelivered mesh ⟨2⟩ [1] &&
        deliversAll equivocationSettled mesh)
      (by simp [equivocationSettled, equivocation, lie, Event.IsAsynchronous]) (by decide +kernel)
  simp only [Bool.and_eq_true] at htest
  obtain ⟨s, hs, hv⟩ := eq_some_of_hasDelivered htest.1.1
  obtain ⟨t, ht, -⟩ := eq_some_of_hasDelivered htest.1.2
  have harrived := allArrived_of_deliversAll hpast htest.2
  exact ⟨past, mesh, s, t, by decide, by decide, hrun, harrived, hs, ht, hv,
    totality (by decide) (by decide) hrun harrived hs ht hv⟩

end Quorum.Broadcast
