import Quorum.Proofs.Gather.Reaction
import Quorum.Proofs.History
import Quorum.Proofs.Projection

/-!
# Instances — the broadcasts of a gather, one by one

Each broadcast of a gather is a part of it: looking at one index only, at the state of this
broadcast in every node and at the messages with this index, one sees a mesh that runs a broadcast.

**Main statements.**  `react_eq_lift`: a call of a gather is one of a broadcast.  `nth`: a broadcast
is a part of its gather.  `input_nth_iff`: its inputs are those of its member.
-/

namespace Quorum.Gather

open Mesh

variable {c : Committee} {me sender : NodeId} {s : State c}

theorem eq_ok_of_mapError {ε δ α : Type} {f : ε → δ} {x : Except ε α} {a : α}
    (h : x.mapError f = .ok a) : x = .ok a := by
  cases x with
  | error e => cases h
  | ok b =>
    cases h
    rfl

theorem input_of_protocol {v : Bytes} {r : Reaction (State c) Message}
    (h : (Protocol.gather c).input me s v = .ok r) : input c me s v = .ok r :=
  eq_ok_of_mapError h

theorem receive_of_protocol {m : Message} {r : Reaction (State c) Message}
    (h : (Protocol.gather c).receive me s sender m = .ok r) : receive c s sender m = .ok r :=
  eq_ok_of_mapError h

theorem start_of_protocol (h : (Protocol.gather c).start me = .ok s) :
    me ∈ c ∧ s = State.initial c := by
  by_cases hme : me ∈ c
  · rw [show (Protocol.gather c).start me = .ok (State.initial c) from if_pos hme] at h
    exact ⟨hme, (Except.ok.inj h).symm⟩
  · rw [show (Protocol.gather c).start me = .error (.notAMember me) from if_neg hme] at h
    cases h

/-- **In a call one broadcast goes on**, and what it sends is declared. -/
theorem react_eq_lift {x : Stimulus Bytes Message} {r : Reaction (State c) Message}
    (h : (Protocol.gather c).react me s x = .ok r) : ∃ given i b, i.val < UInt16.size ∧
      Broadcast.Declares c (s.broadcasts.get i) b.state b.sent ∧
      r = lift { s with inputGiven := given } i b := by
  cases x with
  | input v =>
    obtain ⟨-, i, b, hi, hb, rfl⟩ := input_eq_ok (input_of_protocol h)
    exact ⟨true, i, b, (Committee.indexOf?_eq_some hi).2, Broadcast.declares_input hb, rfl⟩
  | message sender m =>
    obtain ⟨-, i, hi, rfl⟩ := receive_eq_ok (receive_of_protocol h)
    exact ⟨s.inputGiven, i, _, hi ▸ m.index.toNat_lt, Broadcast.declares_receive, rfl⟩

/-! ### What an event shows in one broadcast -/

section
variable {i j : Fin c.size} {r : Reaction (State c) Message}

def state (i : Fin c.size) (s : State c) : Broadcast.State := s.broadcasts.get i

theorem shows_lift_self (s : State c) (hi : i.val < UInt16.size)
    (b : Reaction Broadcast.State Broadcast.Message) :
    (lift s i b).Shows (state i) (inner? i) b.state b.sent := by
  refine ⟨(broadcasts_lift s i i b).trans (if_pos rfl), ?_⟩
  exact (part_lift s i i hi b).trans (if_pos rfl)

theorem shows_lift_ne (s : State c) (hi : i.val < UInt16.size) (hij : i ≠ j)
    (b : Reaction Broadcast.State Broadcast.Message) :
    (lift s i b).Shows (state j) (inner? j) (state j s) [] := by
  refine ⟨(broadcasts_lift s i j b).trans (if_neg hij), ?_⟩
  exact (part_lift s i j hi b).trans (if_neg hij)

theorem shows_receive_none {m : Message} (h : receive c s sender m = .ok r)
    (hm : inner? i m = none) : r.Shows (state i) (inner? i) (state i s) [] := by
  obtain ⟨hsubsystem, j, hj, rfl⟩ := receive_eq_ok h
  have hlt : j.val < UInt16.size := hj ▸ m.index.toNat_lt
  have hne : j ≠ i := by
    rintro rfl
    simp [inner?, hj, hsubsystem] at hm
  exact shows_lift_ne s hlt hne _

theorem shows_receive_some {m : Message} {b : Broadcast.Message}
    (h : receive c s sender m = .ok r) (hm : inner? i m = some b) :
    let r' := Broadcast.receive c (broadcaster c i) (state i s) sender b
    r.Shows (state i) (inner? i) r'.state r'.sent := by
  obtain ⟨-, j, hj, rfl⟩ := receive_eq_ok h
  have hlt : j.val < UInt16.size := hj ▸ m.index.toNat_lt
  unfold inner? at hm
  split at hm
  · rename_i hroute
    obtain rfl : j = i := Fin.ext (hj.trans hroute.2)
    obtain rfl := Option.some.inj hm
    exact shows_lift_self s hlt _
  · cases hm

theorem shows_input_none {v : Bytes} (h : input c me s v = .ok r) (hi : c.indexOf? me ≠ some i) :
    r.Shows (state i) (inner? i) (state i s) [] := by
  obtain ⟨-, j, b, hj, -, rfl⟩ := input_eq_ok h
  have hne : j ≠ i := by
    rintro rfl
    exact hi hj
  exact shows_lift_ne { s with inputGiven := true } (Committee.indexOf?_eq_some hj).2 hne b

theorem shows_input_some {v : Bytes} (h : input c me s v = .ok r) (hi : c.indexOf? me = some i) :
    ∃ r', Broadcast.input c (broadcaster c i) me (state i s) v = .ok r' ∧
      r.Shows (state i) (inner? i) r'.state r'.sent := by
  obtain ⟨-, j, b, hj, hb, rfl⟩ := input_eq_ok h
  obtain rfl := Option.some.inj (hj.symm.trans hi)
  exact ⟨b, hb, shows_lift_self { s with inputGiven := true } (Committee.indexOf?_eq_some hj).2 b⟩

end

/-- **A broadcast is a part of its gather.** -/
def nth (i : Fin c.size) : Projection (.gather c) (.broadcast c (broadcaster c i)) where
  state := state i
  msg := inner? i
  input node v := if c.indexOf? node = some i then some v else none
  start_ok me s h := by
    obtain ⟨-, rfl⟩ := start_of_protocol h
    have hfresh : state i (State.initial c) = {} := get_initial i
    exact congrArg Except.ok hfresh.symm
  input_none me s v r h hnone := by
    refine shows_input_none (input_of_protocol h) ?_
    intro hi
    rw [if_pos hi] at hnone
    cases hnone
  input_some me s v r w h hsome := by
    split at hsome
    · rename_i hi
      obtain rfl := Option.some.inj hsome
      obtain ⟨r', hr', hshows⟩ := shows_input_some (input_of_protocol h) hi
      exact ⟨r', congrArg (Except.mapError _) hr', hshows⟩
    · cases hsome
  receive_none me s x m r h hnone := shows_receive_none (receive_of_protocol h) hnone
  receive_some me s x m r b h hsome :=
    ⟨_, rfl, shows_receive_some (receive_of_protocol h) hsome⟩

/-! ### Runs -/

section
variable {past : List (Moment (.gather c))} {mesh : Mesh (.gather c)} {ids : List NodeId}

theorem get?_nth (i : Fin c.size) {a : NodeId} (hs : mesh.nodes.get? a = some s) :
    ((nth i).mesh mesh).nodes.get? a = some (state i s) := by
  rw [Projection.get?_mesh, hs]
  rfl

theorem index_of_input (hrun : Run ids Event.IsAsynchronous past mesh)
    {x : Moment (.gather c)} (hx : x ∈ past) {id : NodeId} {v : Bytes}
    (hv : x.event = .input id v) : ∃ i, c.indexOf? id = some i := by
  obtain ⟨hstep, -⟩ := hrun.step_of_mem hx
  rw [hv] at hstep
  obtain ⟨node, s, s', out, -, hacts, -⟩ := step_spec hstep
  cases hacts with
  | input h =>
    obtain ⟨-, i, -, hi, -⟩ := input_eq_ok (input_of_protocol h)
    exact ⟨i, hi⟩

/-- **The inputs of a broadcast are those of its member.** -/
theorem input_nth_iff (hc : c.members.Nodup) (hrun : Run ids Event.IsAsynchronous past mesh)
    {i : Fin c.size} {past' : List (Moment (.broadcast c (broadcaster c i)))}
    (hseen : (nth i).Seen ids past mesh past') {v : Bytes} :
    (∃ x ∈ past', x.event = .input (broadcaster c i) v) ↔
      ∃ x ∈ past, x.event = .input (broadcaster c i) v := by
  refine (hseen.input (broadcaster c i) v).trans ⟨?_, ?_⟩
  · rintro ⟨x, hx, w, hw, hsome⟩
    have hvw : (if c.indexOf? (broadcaster c i) = some i then some w else none) = some v := hsome
    split at hvw
    · obtain rfl := Option.some.inj hvw
      exact ⟨x, hx, hw⟩
    · cases hvw
  · rintro ⟨x, hx, hv⟩
    obtain ⟨j, hj⟩ := index_of_input hrun hx hv
    obtain rfl := broadcaster_injective hc (Committee.indexOf?_eq_some hj).1
    exact ⟨x, hx, v, hv, if_pos hj⟩

end

end Quorum.Gather
