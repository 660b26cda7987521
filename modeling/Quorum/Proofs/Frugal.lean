import Mathlib.Algebra.Order.BigOperators.Group.Finset
import Mathlib.Data.Fintype.BigOperators
import Quorum.Proofs.Gather.Instances
import Quorum.Proofs.Wire.Legible

/-!
# Frugal — protocols whose nodes send only so many messages

A node of a frugal protocol has room for a number of messages that it may still send, whatever
comes and whatever is lost.  Every event makes use of the room for what it sends.  A node of a
gather sends at most one message of each kind to every member in each broadcast.

**Main statements.**  `Broadcast.Declares.silent`: what an event of a broadcast takes up.
`frugal_gather`: the room of a gather.  `Frugal.selfDelivering`: handing a node's messages back
takes no more room.  `Legible.selfDeliveringWithin`: with room for no more than the limit, the limit
is not met.
-/

namespace Quorum

/-- Whatever happens to a node, there is room for what it sends, and the rest of it is left. -/
structure Frugal (P : Protocol) (room : P.State → Nat) : Prop where
  input : ∀ {me s i r}, P.input me s i = .ok r → room r.state + r.sent.length ≤ room s
  receive : ∀ {me s sender m r}, P.receive me s sender m = .ok r →
    room r.state + r.sent.length ≤ room s

theorem sum_add_le {ι : Type} [Fintype ι] [DecidableEq ι] {f f' : ι → Nat} {i : ι} {spent : Nat}
    (hi : f' i + spent ≤ f i) (hother : ∀ j, j ≠ i → f' j ≤ f j) :
    ∑ j, f' j + spent ≤ ∑ j, f j := by
  have hrest : ∑ j ∈ Finset.univ.erase i, f' j ≤ ∑ j ∈ Finset.univ.erase i, f j :=
    Finset.sum_le_sum fun j hj => hother j (Finset.ne_of_mem_erase hj)
  rw [← Finset.add_sum_erase _ f' (Finset.mem_univ i),
    ← Finset.add_sum_erase _ f (Finset.mem_univ i)]
  omega

/-! ### Broadcast -/

namespace Broadcast

variable {c : Committee} {broadcaster : NodeId} {s s' : State} {out : List (Outgoing Message)}

/-- The number of kinds of messages that a node has not sent. -/
def State.silent (s : State) : Nat :=
  (!s.inputGiven).toNat + (!s.echoSent).toNat + (!s.readySent).toNat

theorem State.silent_le (s : State) : s.silent ≤ 3 := by
  have hinput := Bool.toNat_le (!s.inputGiven)
  have hecho := Bool.toNat_le (!s.echoSent)
  have hready := Bool.toNat_le (!s.readySent)
  unfold silent
  omega

/-- **What is declared goes to every entry of the member list, and is one kind less that is not
sent.** -/
theorem Declares.silent_cases (h : Declares c s s' out) :
    (out = [] ∧ s'.silent = s.silent) ∨
      ∃ k v, out = toAll c k v ∧ s.silent = s'.silent + 1 := by
  cases h with
  | nothing hsent hdeclared =>
    refine .inl ⟨hsent, ?_⟩
    simp only [State.silent, show s'.inputGiven = s.inputGiven from hdeclared .initial,
      show s'.echoSent = s.echoSent from hdeclared .echo,
      show s'.readySent = s.readySent from hdeclared .ready]
  | value k v hsent hnew hself hother =>
    refine .inr ⟨k, v, hsent, ?_⟩
    have hinitial := hother .initial
    have hecho := hother .echo
    have hready := hother .ready
    simp only [State.silent]
    cases k <;> simp_all [State.declared] <;> omega

/-- What is declared takes a kind of message from those not sent. -/
theorem Declares.silent (h : Declares c s s' out) :
    c.size * s'.silent + out.length ≤ c.size * s.silent := by
  rcases h.silent_cases with ⟨rfl, hsame⟩ | ⟨k, v, rfl, hless⟩
  · rw [hsame]
    rfl
  · have hlength : (toAll c k v).length = c.size := List.length_map ..
    rw [hless, hlength, Nat.mul_succ]

end Broadcast

/-! ### Gather -/

namespace Gather

variable {c : Committee}

/-- The room for messages in all broadcasts. -/
def room (s : State c) : Nat := ∑ i : Fin c.size, c.size * (s.broadcasts.get i).silent

theorem room_le (s : State c) : room s ≤ 3 * c.size * c.size := by
  calc room s ≤ ∑ _i : Fin c.size, c.size * 3 :=
        Finset.sum_le_sum fun i _ => Nat.mul_le_mul_left _ (Broadcast.State.silent_le _)
    _ = 3 * c.size * c.size := by
        rw [Finset.sum_const_nat fun _ _ => rfl, Finset.card_univ, Fintype.card_fin,
          Nat.mul_comm c.size 3, Nat.mul_comm]

/-- What one broadcast declares takes room from this broadcast only. -/
theorem room_lift (s : State c) (i : Fin c.size) {r : Reaction Broadcast.State Broadcast.Message}
    (h : Broadcast.Declares c (s.broadcasts.get i) r.state r.sent) :
    room (lift s i r).state + (lift s i r).sent.length ≤ room s := by
  have hlength : (lift s i r).sent.length = r.sent.length := List.length_map ..
  rw [hlength]
  refine sum_add_le (i := i) ?_ fun j hj => ?_
  · rw [broadcasts_lift, if_pos rfl]
    exact h.silent
  · rw [broadcasts_lift, if_neg hj.symm]

theorem room_react {me : NodeId} {s : State c} {x : Stimulus Bytes Message}
    {r : Reaction (State c) Message} (h : (Protocol.gather c).react me s x = .ok r) :
    room r.state + r.sent.length ≤ room s := by
  obtain ⟨given, i, b, -, hdeclares, rfl⟩ := react_eq_lift h
  exact room_lift { s with inputGiven := given } i hdeclares

end Gather

/-- **A node of a gather sends every kind of message once in each broadcast.** -/
theorem frugal_gather (c : Committee) : Frugal (.gather c) Gather.room where
  input h := Gather.room_react (x := .input _) h
  receive h := Gather.room_react (x := .message _ _) h

/-! ### Self-delivery -/

section
variable {P : Protocol} {room : P.State → Nat} {normal : P.Msg → Prop} {keeps : P.State → Prop}
  {refuses faults : Fault → Prop}

namespace SelfDelivery

theorem length_toSelf_add (me : NodeId) (out : List (Outgoing P.Msg)) :
    (toSelf me out).length + (toOthers me out).length = out.length := by
  have hsplit := out.length_eq_length_filter_add (·.recipient = me)
  simpa [toSelf, toOthers] using hsplit.symm

/-- Handing messages back takes no room but that of the first reaction. -/
theorem finish_frugal (h : Frugal P room) {me : NodeId} {limit n : Nat}
    {outcome : Outcome P.State P.Msg}
    (hfirst : ∀ first, outcome = .ok first → room first.state + first.sent.length ≤ n)
    {r : Reaction P.State P.Msg} (hr : finish me limit outcome = .ok r) :
    room r.state + r.sent.length ≤ n := by
  obtain ⟨hok, -⟩ : (∀ r, finish me limit outcome = .ok r → _) ∧ _ := finish_invariant
    (R := fun _ s own remote => room s + own.length + remote.length ≤ n)
    (fun _ s m own remote next hroom hnext => by
      have hspent := h.receive hnext
      have hsplit := length_toSelf_add me next.sent
      simp only [List.length_append, List.length_cons] at hroom ⊢
      omega)
    (fun first hfirst' => by
      have hspent := hfirst first hfirst'
      have hsplit := length_toSelf_add me first.sent
      omega)
  obtain ⟨-, hroom⟩ := hok r hr
  exact hroom

/-- **A row of messages handed back ends before the limit**, if the limit is not below the room. -/
theorem finish_within (h : Legible P normal keeps refuses faults) (hfrugal : Frugal P room)
    {me : NodeId} {limit : Nat} {meets : Fault → Prop}
    (hmeets : ∀ fault, faults fault → meets fault)
    {outcome : Outcome P.State P.Msg} (hfirst : Orderly normal keeps meets outcome)
    (hlimit : ∀ first, outcome = .ok first → room first.state + first.sent.length ≤ limit) :
    Orderly normal keeps meets (finish me limit outcome) := by
  obtain ⟨hfirst, hfaults⟩ := orderly_iff.mp hfirst
  obtain ⟨hok, herror⟩ : (∀ r, finish me limit outcome = .ok r → _) ∧ _ := finish_invariant
    (R := fun n s own remote => Clean normal keeps s own remote ∧ room s + own.length ≤ n)
    (fun _ s m own remote next ⟨hclean, hroom⟩ hnext => by
      refine ⟨hclean.step h hnext, ?_⟩
      have hspent := hfrugal.receive hnext
      have hsplit := length_toSelf_add me next.sent
      simp only [List.length_append, List.length_cons] at hroom ⊢
      omega)
    (fun first hfirst' => by
      refine ⟨.first (hfirst first hfirst'), ?_⟩
      have hspent := hlimit first hfirst'
      have hsplit := length_toSelf_add me first.sent
      omega)
  refine orderly_iff.mpr ⟨fun r hr => ?_, fun failure hfailure => ?_⟩
  · obtain ⟨-, hclean, -⟩ := hok r hr
    exact ⟨hclean.state, hclean.remote⟩
  · rcases herror failure hfailure with
      hfirst' | ⟨_, s, m, own, _, ⟨hclean, hroom⟩, ⟨rfl, -⟩ | ⟨failure', hfails, hsame⟩⟩
    · exact hfaults failure hfirst'
    · cases hroom
    · rw [hsame]
      exact hmeets _ (hclean.fault h hfails)

end SelfDelivery

/-- **Handing a node's messages back takes no more room.** -/
theorem Frugal.selfDelivering (h : Frugal P room) (limit : Nat) :
    Frugal (P.selfDelivering limit) room where
  input := SelfDelivery.finish_frugal h fun _ => h.input
  receive := SelfDelivery.finish_frugal h fun _ => h.receive

/-- **A frugal protocol whose nodes hand their messages back meets no further fault**, if the limit
is not below the room. -/
theorem Legible.selfDeliveringWithin (h : Legible P normal keeps refuses faults)
    (hfrugal : Frugal P room) {limit : Nat} (hlimit : ∀ s, keeps s → room s ≤ limit) :
    Legible (P.selfDelivering limit) normal keeps refuses faults where
  readable := h.readable.selfDelivering limit
  start := h.start
  input me s i hs :=
    SelfDelivery.finish_within h hfrugal (fun _ => .inr) (h.input me s i hs) fun _ hfirst =>
      (hfrugal.input hfirst).trans (hlimit s hs)
  receive me s sender m hs hm :=
    SelfDelivery.finish_within h hfrugal (fun _ => id) (h.receive me s sender m hs hm)
      fun _ hfirst => (hfrugal.receive hfirst).trans (hlimit s hs)

end

end Quorum
