import Quorum.Proofs.Run

/-!
# History — what one node goes through

A node is called again and again: with inputs, and with messages in the name of anybody.  A history
has every call that it has got since its start, the first one first, the state that the call found
and what the node did.  It says nothing about where the messages come from, so what is proved of
all histories holds in every network.

**Main statements.**  `History.nth`: a history can be looked at from any of its calls.
`History.lasting`: what no call takes away stays.
-/

namespace Quorum

/-- A call of a node: an input, or a message in the name of somebody. -/
inductive Stimulus (ι μ : Type) where
  | input (i : ι)
  | message (sender : NodeId) (m : μ)
  deriving DecidableEq, Repr

def Protocol.react (P : Protocol) (me : NodeId) (s : P.State) :
    Stimulus P.Input P.Msg → Outcome P.State P.Msg
  | .input i => P.input me s i
  | .message sender m => P.receive me s sender m

/-- One call of a node: the state before it, and what came of it. -/
structure Occurrence (P : Protocol) where
  before : P.State
  stimulus : Stimulus P.Input P.Msg
  reaction : Reaction P.State P.Msg

/-- `History P me log s`: the calls of the log, the first one first, have taken the node `me` from
its start to `s`, and none of them has failed. -/
inductive History (P : Protocol) (me : NodeId) : List (Occurrence P) → P.State → Prop where
  | start {s : P.State} (h : P.start me = .ok s) : History P me [] s
  | next {log : List (Occurrence P)} {s : P.State} {x : Stimulus P.Input P.Msg}
      {r : Reaction P.State P.Msg} (h : History P me log s) (hr : P.react me s x = .ok r) :
      History P me (log ++ [⟨s, x, r⟩]) r.state

section
variable {P : Protocol} {me : NodeId} {s s' : P.State} {log log' : List (Occurrence P)}
  {x : Occurrence P} {xs : List (Stimulus P.Input P.Msg)} {k : Nat}

/-- **A history can be looked at from any of its calls.** -/
theorem History.nth (h : History P me log s) (hx : log[k]? = some x) :
    History P me (log.take k) x.before ∧ P.react me x.before x.stimulus = .ok x.reaction ∧
      History P me (log.take (k + 1)) x.reaction.state := by
  induction h with
  | start => cases hx
  | @next log s y r h hr ih =>
    rcases Nat.lt_or_ge k log.length with hlt | hge
    · rw [List.getElem?_append_left hlt] at hx
      rw [List.take_append_of_le_length (Nat.le_of_lt hlt), List.take_append_of_le_length hlt]
      exact ih hx
    · obtain rfl : k = log.length := by
        have hk := (List.getElem?_eq_some_iff.mp hx).1
        rw [List.length_append, List.length_singleton] at hk
        omega
      rw [List.getElem?_append_right (Nat.le_refl _), Nat.sub_self] at hx
      cases hx
      rw [List.take_left, List.take_of_length_le (by simp)]
      exact ⟨h, hr, h.next hr⟩

/-- **What no call takes away stays**: it holds after the call that it was true before, and in the
end. -/
theorem History.lasting {Q : P.State → Prop} (h : History P me log s)
    (hkeep : ∀ s x r, P.react me s x = .ok r → Q s → Q r.state) (hx : x ∈ log)
    (hQ : Q x.reaction.state) : Q s := by
  induction h with
  | start => cases hx
  | next _ hr ih =>
    rcases List.mem_append.mp hx with hx | hx
    · exact hkeep _ _ _ hr (ih hx)
    · rw [List.mem_singleton.mp hx] at hQ
      exact hQ

/-! ### Histories of given calls -/

/-- The log of further calls, if none of them fails, and the state after them. -/
def Protocol.live (P : Protocol) (me : NodeId) (log : List (Occurrence P)) (s : P.State) :
    List (Stimulus P.Input P.Msg) → Option (List (Occurrence P) × P.State)
  | [] => some (log, s)
  | x :: xs => do
    let r ← (P.react me s x).toOption
    P.live me (log ++ [⟨s, x, r⟩]) r.state xs

theorem History.live (h : History P me log s) (hlive : P.live me log s xs = some (log', s')) :
    History P me log' s' ∧ log'.map (·.stimulus) = log.map (·.stimulus) ++ xs := by
  induction xs generalizing log s with
  | nil =>
    cases hlive
    exact ⟨h, (List.append_nil _).symm⟩
  | cons x xs ih =>
    obtain ⟨r, hr, hlive⟩ := Option.bind_eq_some_iff.mp hlive
    obtain ⟨hhistory, hcalls⟩ := ih (h.next (Mesh.eq_ok_of_toOption hr)) hlive
    exact ⟨hhistory, by rw [hcalls]; simp⟩

theorem History.exists {test : List (Occurrence P) → P.State → Bool}
    (h : ((P.start me).toOption.bind (P.live me [] · xs)).any (fun x => test x.1 x.2) = true) :
    ∃ log s, History P me log s ∧ log.map (·.stimulus) = xs ∧ test log s = true := by
  obtain ⟨⟨log, s⟩, hlive, htest⟩ := (Option.any_eq_true _ _).mp h
  obtain ⟨first, hfirst, hlive⟩ := Option.bind_eq_some_iff.mp hlive
  obtain ⟨hhistory, hcalls⟩ := (History.start (Mesh.eq_ok_of_toOption hfirst)).live hlive
  exact ⟨log, s, hhistory, hcalls, htest⟩

end

end Quorum
