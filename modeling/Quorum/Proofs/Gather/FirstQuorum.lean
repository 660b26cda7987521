import Quorum.Proofs.Gather.Agreement
import Quorum.Proofs.History

/-!
# FirstQuorum — when a gather has its output, and which one

A node looks after every call whether enough broadcasts have delivered.  In one call one of them
delivers, at most, so the output comes with the call in which a quorum is full, and has an entry for
each of the broadcasts that have delivered by then.  A broadcast that has delivered never changes
its value, so later calls leave the output as it is and as the broadcasts have it.

**Main statements.**  `Frozen.output_eq_none_iff`: how long a node waits.  `card_deliverers_react`
and `output_react`: what a call adds to the deliveries, and that it keeps an output.
`frozen_of_history`: an output is what the first quorum delivered.  `output_of_first_quorum`.
-/

namespace Quorum.Gather

variable {c : Committee} {me : NodeId} {s : State c} {out : SortedMap NodeId Bytes}

/-! ### The output and the deliveries -/

theorem Frozen.keys_subset (hs : Frozen s) (hout : s.output = some out) :
    out.keys.toFinset ⊆ (delivered s).keys.toFinset := by
  intro id hid
  rw [List.mem_toFinset, SortedMap.mem_keys, Option.isSome_iff_exists] at hid ⊢
  obtain ⟨v, hv⟩ := hid
  exact ⟨v, hs.entries out hout id v hv⟩

/-- **A node waits as long as fewer than a quorum have delivered.** -/
theorem Frozen.output_eq_none_iff (hc : c.members.Nodup) (hs : Frozen s) :
    s.output = none ↔ (deliverers s).card < c.quorum := by
  rw [← size_delivered hc]
  refine ⟨hs.waits, fun hfew => ?_⟩
  by_contra hsome
  obtain ⟨out, hout⟩ := Option.ne_none_iff_exists'.mp hsome
  -- every entry of an output is a delivery, so there is a quorum of them
  have hcard := Finset.card_le_card (hs.keys_subset hout)
  rw [SortedMap.card_keys, SortedMap.card_keys, hs.full out hout] at hcard
  omega

theorem Frozen.get?_output (hc : c.members.Nodup) (hs : Frozen s) (hout : s.output = some out)
    (hcard : (deliverers s).card = c.quorum) {id : NodeId} {v : Bytes} :
    out.get? id = some v ↔ (delivered s).get? id = some v := by
  refine ⟨hs.entries out hout id v, fun hv => ?_⟩
  have hkeys : out.keys.toFinset = (delivered s).keys.toFinset := by
    refine Finset.eq_of_subset_of_card_le (hs.keys_subset hout) ?_
    rw [SortedMap.card_keys, SortedMap.card_keys, hs.full out hout, size_delivered hc, hcard]
  have hid : id ∈ out.keys := by
    rw [← List.mem_toFinset, hkeys, List.mem_toFinset, SortedMap.mem_keys, hv]
    rfl
  rw [SortedMap.mem_keys, Option.isSome_iff_exists] at hid
  obtain ⟨w, hw⟩ := hid
  rw [hw, ← hs.entries out hout id w hw, hv]

/-! ### One call -/

section
variable {x : Stimulus Bytes Message} {r : Reaction (State c) Message}

theorem frozen_react (hc : c.members.Nodup) (hs : Frozen s)
    (h : (Protocol.gather c).react me s x = .ok r) : Frozen r.state := by
  cases x with
  | input v => exact frozen_input hc hs (input_of_protocol h)
  | message sender m => exact frozen_receive hc hs (receive_of_protocol h)

/-- **In one call one broadcast delivers, at most.** -/
theorem card_deliverers_react (h : (Protocol.gather c).react me s x = .ok r) :
    (deliverers r.state).card ≤ (deliverers s).card + 1 := by
  obtain ⟨given, i, b, -, -, rfl⟩ := react_eq_lift h
  exact card_deliverers_lift { s with inputGiven := given } i b

theorem output_react (h : (Protocol.gather c).react me s x = .ok r)
    (hout : s.output = some out) : r.state.output = some out := by
  obtain ⟨given, i, b, -, -, rfl⟩ := react_eq_lift h
  have hsettled : ∀ t : State c, t.output = some out → (settle t).output = some out := by
    intro t ht
    rw [settle, if_neg (by simp [ht])]
    exact ht
  exact hsettled _ hout

end

/-! ### A history -/

section
variable {log : List (Occurrence (Protocol.gather c))}

theorem frozen_of_history (hc : c.members.Nodup) (h : History (Protocol.gather c) me log s) :
    Frozen s := by
  induction h with
  | start h =>
    obtain ⟨hme, rfl⟩ := start_of_protocol h
    exact frozen_initial hc (List.ne_nil_of_mem hme)
  | next _ hr ih => exact frozen_react hc ih hr

/-- Between `s` and `t` a quorum of broadcasts has been filled, and `t` has the output for it: the
value that each of these broadcasts has delivered. -/
structure Fills (s t : State c) (out : SortedMap NodeId Bytes) : Prop where
  before : (deliverers s).card < c.quorum
  after : (deliverers t).card = c.quorum
  output : (Protocol.gather c).output t = some out
  size : out.size = c.quorum
  entries : ∀ id v, out.get? id = some v ↔
    ∃ i : Fin c.size, broadcaster c i = id ∧ (t.broadcasts.get i).delivered = some v

/-- The call in which a quorum is reached gives the output. -/
theorem fills_of_react (hc : c.members.Nodup) (hs : Frozen s) {x : Stimulus Bytes Message}
    {r : Reaction (State c) Message} (hr : (Protocol.gather c).react me s x = .ok r)
    (hbefore : (deliverers s).card < c.quorum) (hafter : c.quorum ≤ (deliverers r.state).card) :
    ∃ out, Fills s r.state out := by
  have hfrozen := frozen_react hc hs hr
  have hmore := card_deliverers_react hr
  have hcard : (deliverers r.state).card = c.quorum := by omega
  have hsome : r.state.output ≠ none := by
    rw [Ne, hfrozen.output_eq_none_iff hc]
    omega
  obtain ⟨out, hout⟩ := Option.ne_none_iff_exists'.mp hsome
  exact ⟨out,
    { before := hbefore
      after := hcard
      output := hout
      size := hfrozen.full out hout
      entries := fun id v => (hfrozen.get?_output hc hout hcard).trans (get?_delivered hc) }⟩

/-- Every output has come in a call in which a quorum was reached. -/
theorem fills_of_output (hc : c.members.Nodup) (h : History (Protocol.gather c) me log s)
    (hout : (Protocol.gather c).output s = some out) :
    ∃ x ∈ log, Fills x.before x.reaction.state out := by
  induction h with
  | start h =>
    obtain ⟨-, rfl⟩ := start_of_protocol h
    cases hout
  | @next log s x r h hr ih =>
    cases hbefore : (Protocol.gather c).output s with
    | some old =>
      obtain rfl : old = out := Option.some.inj ((output_react hr hbefore).symm.trans hout)
      obtain ⟨y, hy, hfills⟩ := ih hbefore
      exact ⟨y, List.mem_append_left _ hy, hfills⟩
    | none =>
      have hs := frozen_of_history hc h
      have hafter : ¬(deliverers r.state).card < c.quorum := by
        rw [← (frozen_react hc hs hr).output_eq_none_iff hc]
        exact fun hnone => Option.some_ne_none out (hout.symm.trans hnone)
      obtain ⟨new, hnew⟩ := fills_of_react hc hs hr ((hs.output_eq_none_iff hc).mp hbefore)
        (Nat.le_of_not_lt hafter)
      obtain rfl : new = out := Option.some.inj (hnew.output.symm.trans hout)
      exact ⟨_, List.mem_append_right _ List.mem_cons_self, hnew⟩

/-- **The output of a gather is its first quorum.**  In every history a node has no output as long
as fewer than a quorum of the broadcasts have delivered.  The call in which a quorum is reached
gives it an output, with the values that they have delivered then; every output comes so.  No later
call changes it, and each of its entries stays what the broadcast of its member has delivered. -/
theorem output_of_first_quorum (hc : c.members.Nodup)
    (h : History (Protocol.gather c) me log s) :
    ((Protocol.gather c).output s = none ↔ (deliverers s).card < c.quorum) ∧
    (∀ x ∈ log, (deliverers x.before).card < c.quorum →
      c.quorum ≤ (deliverers x.reaction.state).card →
        ∃ out, Fills x.before x.reaction.state out) ∧
    (∀ out, (Protocol.gather c).output s = some out →
      ∃ x ∈ log, Fills x.before x.reaction.state out) ∧
    ∀ x ∈ log, ∀ out, (Protocol.gather c).output x.reaction.state = some out →
      (Protocol.gather c).output s = some out ∧
        ∀ id v, out.get? id = some v →
          ∃ i : Fin c.size, broadcaster c i = id ∧ (s.broadcasts.get i).delivered = some v := by
  have hfrozen := frozen_of_history hc h
  refine ⟨hfrozen.output_eq_none_iff hc, ?_, fun out => fills_of_output hc h, ?_⟩
  · intro x hx hbefore hafter
    obtain ⟨n, hn⟩ := List.mem_iff_getElem?.mp hx
    obtain ⟨hhistory, hr, -⟩ := h.nth hn
    exact fills_of_react hc (frozen_of_history hc hhistory) hr hbefore hafter
  · intro x hx out hout
    have hlast : (Protocol.gather c).output s = some out :=
      h.lasting (Q := fun s => (Protocol.gather c).output s = some out)
        (fun _ _ _ hr => output_react hr) hx hout
    exact ⟨hlast, fun id v hv => (get?_delivered hc).mp (hfrozen.entries out hlast id v hv)⟩

open Broadcast (four)

def readyForAll (index : UInt16) (v : Bytes) : List (Stimulus Bytes Message) :=
  [⟨1⟩, ⟨2⟩, ⟨3⟩].map fun id => .message id ⟨broadcastSubsystem, index, .ready, v⟩

/-- The broadcasts of members 2, 0 and 1 deliver, the last of them in spite of a vote for another
value; then that of member 3 delivers, and the other value of member 1 gets its votes. -/
def fourDeliveries : List (Stimulus Bytes Message) :=
  readyForAll 2 [7] ++ readyForAll 0 [5] ++
    .message ⟨1⟩ ⟨broadcastSubsystem, 1, .ready, [9]⟩ :: readyForAll 1 [6] ++
    readyForAll 3 [8] ++ readyForAll 1 [9]

/-- All four broadcasts have delivered in the end, and the output has the first three. -/
theorem output_of_first_three : four.members.Nodup ∧
    ∃ (log : List (Occurrence (Protocol.gather four))) (s : State four)
      (out : SortedMap NodeId Bytes), History (Protocol.gather four) ⟨0⟩ log s ∧
      log.map (·.stimulus) = fourDeliveries ∧
      (deliverers s).card = 4 ∧ (Protocol.gather four).output s = some out ∧
      out.entries = [(⟨0⟩, [5]), (⟨1⟩, [6]), (⟨2⟩, [7])] ∧
      ∃ x ∈ log, Fills x.before x.reaction.state out := by
  have hc : four.members.Nodup := by decide
  obtain ⟨log, s, h, hcalls, htest⟩ :=
    @History.exists (Protocol.gather four) ⟨0⟩ fourDeliveries
      (fun _ (s : State four) => (deliverers s).card = 4 ∧
        s.output.map (·.entries) = some [(⟨0⟩, [5]), (⟨1⟩, [6]), (⟨2⟩, [7])])
      (by decide +kernel)
  obtain ⟨hcard, hentries⟩ := of_decide_eq_true htest
  obtain ⟨out, hout, hentries⟩ := Option.map_eq_some_iff.mp hentries
  exact ⟨hc, log, s, out, h, hcalls, hcard, hout, hentries,
    (output_of_first_quorum hc h).2.2.1 out hout⟩

end

end Quorum.Gather
