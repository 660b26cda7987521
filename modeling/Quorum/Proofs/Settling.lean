import Quorum.Proofs.Frugal
import Quorum.Proofs.Loopback
import Quorum.Proofs.Recorded

/-!
# Settling — handing messages back comes to an end

Nothing in the self-delivering layer keeps a node from sending itself one message after the other.
What ends the row is the protocol: a broadcast sends its own node three kinds of messages, each of
them once for every entry of the node in the member list, and this in every state, however it came
about.  The messages of one event of a gather all belong to one broadcast.

**Main statements.**  `settles_of_spends`: a row of messages for which there is only so much room
ends.  `self_delivery_ends`: the bound for a broadcast and for a gather.
-/

namespace Quorum

namespace SelfDelivery

variable {P : Protocol} {me : NodeId} {mine : P.Msg → Prop} {room : P.State → Nat} {most : Nat}

/-! ### The limit -/

theorem finish_mono {limit limit' : Nat} (hle : limit ≤ limit') {outcome : Outcome P.State P.Msg}
    {r : Reaction P.State P.Msg} (h : finish me limit outcome = .ok r) :
    finish me limit' outcome = .ok r := by
  obtain ⟨first, hfirst, y, hsteps, hsettled, hlength, hr⟩ := finish_eq_ok_iff.mp h
  exact finish_eq_ok_iff.mpr ⟨first, hfirst, y, hsteps, hsettled, by omega, hr⟩

/-- How the calls of a node end that hands its own messages back.  What the nested automaton
refuses is refused.  Anything else ends, with the same reaction under every limit from `most` on,
and with at most `most` messages handed to the nested automaton after the call itself. -/
structure Settles (P : Protocol) (me : NodeId) (most : Nat) : Prop where
  refused : ∀ (s : Recorded P) x failure, P.react me s.state x = .error failure →
    ∀ limit, (P.recorded.selfDelivering limit).react me s x = .error failure
  taken : ∀ (s : Recorded P) x first, P.react me s.state x = .ok first →
    ∃ r : Reaction (Recorded P) P.Msg,
      (∀ limit, most ≤ limit → (P.recorded.selfDelivering limit).react me s x = .ok r ∧
        (P.selfDelivering limit).react me s.state x =
          .ok (r.mapState fun s : Recorded P => s.state)) ∧
      r.state.received.length ≤ s.received.length + (most + 1)

/-! ### Room for a row of messages -/

/-- What a node sends itself in one event is of the kind `mine`, and there was room for it. -/
structure Spends (me : NodeId) (mine : P.Msg → Prop) (room : P.State → Nat) (s : P.State)
    (r : Reaction P.State P.Msg) : Prop where
  mine : ∀ m ∈ toSelf me r.sent, mine m
  room : room r.state + (toSelf me r.sent).length ≤ room s

/-- Messages of the kind `mine` are taken in every state, and lead to further ones only while there
is room. -/
def Thrifty (P : Protocol) (me : NodeId) (mine : P.Msg → Prop) (room : P.State → Nat) : Prop :=
  ∀ s m, mine m → ∃ r, P.receive me s me m = .ok r ∧ Spends me mine room s r

/-- The messages to be handed back are of the kind `mine`, there is room for what comes of them, and
with those that have been handed back the limit `n` that is left makes up `total`. -/
structure Allotted (mine : P.Msg → Prop) (room : P.State → Nat) (total n : Nat) (s : Recorded P)
    (own : List P.Msg) : Prop where
  mine : ∀ m ∈ own, mine m
  room : room s.state + own.length ≤ n
  total : s.received.length + n = total

/-- A message that is handed back leaves room for what comes of it. -/
theorem Allotted.step (h : Thrifty P me mine room) {total n : Nat} {s : Recorded P} {m : P.Msg}
    {own : List P.Msg} (hs : Allotted mine room total (n + 1) s (m :: own))
    {next : Reaction (Recorded P) P.Msg} (hnext : P.recorded.receive me s me m = .ok next) :
    Allotted mine room total n next.state (own ++ toSelf me next.sent) := by
  obtain ⟨hm, hown⟩ := List.forall_mem_cons.mp hs.mine
  obtain ⟨plain, hplain, hspends⟩ := h s.state m hm
  obtain ⟨plain', hplain', rfl⟩ := map_eq_ok hnext
  cases hplain.symm.trans hplain'
  have hspent := hspends.room
  have hroom := hs.room
  have htotal := hs.total
  rw [List.length_cons] at hroom
  refine ⟨fun m' hm' => ?_, ?_, ?_⟩
  · rcases List.mem_append.mp hm' with hm' | hm'
    · exact hown m' hm'
    · exact hspends.mine m' hm'
  · rw [List.length_append]
    change room plain.state + (own.length + (toSelf me plain.sent).length) ≤ n
    omega
  · rw [List.length_append, List.length_singleton]
    omega

/-- **A row of messages for which there is room comes to an end**, and no more of them are handed
back than there was room for. -/
theorem finish_thrifty (h : Thrifty P me mine room) {first : Reaction (Recorded P) P.Msg}
    (hmine : ∀ m ∈ toSelf me first.sent, mine m)
    (hroom : room first.state.state + (toSelf me first.sent).length ≤ most) :
    ∃ r, finish (P := P.recorded) me most (.ok first) = .ok r ∧
      r.state.received.length ≤ first.state.received.length + most := by
  obtain ⟨hok, herror⟩ :
      (∀ r, finish (P := P.recorded) me most (.ok first) = .ok r → _) ∧ _ :=
    finish_invariant (P := P.recorded)
      (R := fun n s own _ =>
        Allotted mine room (first.state.received.length + most) n s own)
      (fun n s m own remote next hs hnext => hs.step h hnext)
      (fun _ hfirst => by
        cases hfirst
        exact ⟨hmine, hroom, rfl⟩)
  cases hfinish : finish (P := P.recorded) me most (.ok first) with
  | ok r =>
    obtain ⟨n, hs⟩ := hok r hfinish
    have htotal := hs.total
    exact ⟨r, rfl, by omega⟩
  | error failure =>
    rcases herror failure hfinish with
      hfirst | ⟨n, s, m, own, -, hs, ⟨rfl, -⟩ | ⟨failure', hfails, -⟩⟩
    · cases hfirst
    · cases hs.room
    · obtain ⟨plain, hplain, -⟩ := h s.state m (hs.mine m List.mem_cons_self)
      change (P.receive me s.state me m).map _ = _ at hfails
      rw [hplain] at hfails
      cases hfails

theorem react_selfDelivering (limit : Nat) (s : P.State) (x : Stimulus P.Input P.Msg) :
    (P.selfDelivering limit).react me s x = finish me limit (P.react me s x) := by
  cases x with
  | input i => rfl
  | message sender m => rfl

theorem react_recorded {s : Recorded P} {x : Stimulus P.Input P.Msg}
    {first : Reaction P.State P.Msg} (h : P.react me s.state x = .ok first) :
    ∃ r : Reaction (Recorded P) P.Msg, P.recorded.react me s x = .ok r ∧
      r.state.state = first.state ∧ r.sent = first.sent ∧
      r.state.received.length ≤ s.received.length + 1 := by
  cases x with
  | input i => exact ⟨_, congrArg (Except.map _) h, rfl, rfl, Nat.le_succ _⟩
  | message sender m =>
    refine ⟨_, congrArg (Except.map _) h, rfl, rfl, ?_⟩
    simp

theorem react_recorded_refused {s : Recorded P} {x : Stimulus P.Input P.Msg} {failure : Failure}
    (h : P.react me s.state x = .error failure) : P.recorded.react me s x = .error failure := by
  cases x with
  | input i => exact congrArg (Except.map _) h
  | message sender m => exact congrArg (Except.map _) h

theorem forget_react (limit : Nat) (s : Recorded P) (x : Stimulus P.Input P.Msg) :
    ((P.recorded.selfDelivering limit).react me s x).map
        (Reaction.mapState fun s : Recorded P => s.state) =
      (P.selfDelivering limit).react me s.state x := by
  cases x with
  | input i => exact ((recording P).selfDelivering limit).forget_input me s i
  | message sender m => exact ((recording P).selfDelivering limit).forget_receive me s sender m

/-- **If every call is taken with room for what it makes the node send itself, the calls end.** -/
theorem settles_of_spends (h : ∀ s x first, P.react me s x = .ok first → ∃ mine room,
    Thrifty P me mine room ∧ Spends me mine room s first ∧ room s ≤ most) :
    Settles P me most where
  refused s x failure hx limit := by
    rw [react_selfDelivering (P := P.recorded), react_recorded_refused hx]
    rfl
  taken s x first hx := by
    obtain ⟨mine, room, hthrifty, hspends, hmost⟩ := h s.state x first hx
    obtain ⟨begun, hbegun, hstate, hsent, hone⟩ := react_recorded hx
    have hspent := hspends.room
    rw [← hstate] at hspent
    have hmine := hspends.mine
    rw [← hsent] at hspent hmine
    obtain ⟨r, hr, hcalls⟩ := finish_thrifty hthrifty hmine (hspent.trans hmost)
    refine ⟨r, fun limit hle => ?_, by omega⟩
    have hrecorded : (P.recorded.selfDelivering limit).react me s x = .ok r := by
      rw [react_selfDelivering (P := P.recorded), hbegun]
      exact finish_mono hle hr
    refine ⟨hrecorded, ?_⟩
    rw [← forget_react, hrecorded]
    rfl

end SelfDelivery

open SelfDelivery

/-! ### Broadcast -/

namespace Broadcast
variable {c : Committee} {broadcaster me : NodeId} {s : State}

/-- The room for the messages of a node to itself: one copy for every entry of the node in the
member list, of every kind not sent. -/
def State.selfRoom (c : Committee) (me : NodeId) (s : State) : Nat :=
  c.members.count me * s.silent

theorem State.selfRoom_le (c : Committee) (me : NodeId) (s : State) :
    s.selfRoom c me ≤ 3 * c.members.count me := by
  rw [Nat.mul_comm 3]
  exact Nat.mul_le_mul_left _ s.silent_le

theorem count_toAll (c : Committee) (me : NodeId) (k : Kind) (v : Bytes) :
    ((toAll c k v).filter (·.recipient = me)).length = c.members.count me := by
  rw [toAll, List.filter_map, List.length_map, List.count_eq_length_filter]
  exact congrArg List.length (List.filter_congr fun id _ => (beq_eq_decide id me).symm)

theorem length_toSelf_toAll (k : Kind) (v : Bytes) :
    (toSelf (P := .broadcast c broadcaster) me (toAll c k v)).length = c.members.count me :=
  (List.length_map ..).trans (count_toAll c me k v)

theorem Declares.spends {r : Reaction State Message} (h : Declares c s r.state r.sent) :
    Spends (P := .broadcast c broadcaster) me (fun _ => True) (State.selfRoom c me) s r where
  mine _ _ := trivial
  room := by
    unfold State.selfRoom
    rcases h.silent_cases with ⟨hsent, hsame⟩ | ⟨k, v, hsent, hless⟩
    · rw [hsent, hsame]
      exact Nat.le_refl _
    · rw [hsent, length_toSelf_toAll, hless, Nat.mul_succ]

theorem thrifty (c : Committee) (broadcaster me : NodeId) :
    Thrifty (.broadcast c broadcaster) me (fun _ => True) (State.selfRoom c me) :=
  fun _ _ _ => ⟨_, rfl, declares_receive.spends⟩

theorem declares_react {x : Stimulus Bytes Message} {r : Reaction State Message}
    (h : (Protocol.broadcast c broadcaster).react me s x = .ok r) :
    Declares c s r.state r.sent := by
  cases x with
  | input v => exact declares_input (input_of_protocol h)
  | message sender m =>
    cases h
    exact declares_receive

end Broadcast

/-! ### Gather -/

namespace Gather
variable {c : Committee} {me : NodeId} {i : Fin c.size} {s : State c}

def Concerns (i : Fin c.size) (m : Message) : Prop :=
  m.subsystem = broadcastSubsystem ∧ m.index.toNat = i.val

theorem filter_map_bodies {μ ν : Type} (me : NodeId) (f : μ → ν) (out : List (Outgoing μ)) :
    ((out.map (Outgoing.map f)).filter (·.recipient = me)).map (·.body) =
      ((out.filter (·.recipient = me)).map (·.body)).map f := by
  rw [List.filter_map, List.map_map, List.map_map]
  rfl

theorem toSelf_lift (s : State c) (i : Fin c.size)
    (r : Reaction Broadcast.State Broadcast.Message) :
    toSelf (P := .gather c) me (lift s i r).sent =
      (toSelf (P := .broadcast c me) me r.sent).map
        fun m => (⟨broadcastSubsystem, UInt16.ofNat i, m⟩ : Message) :=
  filter_map_bodies me _ r.sent

/-- What one broadcast declares has room at the node itself, and concerns this broadcast. -/
theorem spends_lift (hi : i.val < UInt16.size) {r : Reaction Broadcast.State Broadcast.Message}
    (h : Broadcast.Declares c (s.broadcasts.get i) r.state r.sent) :
    Spends (P := .gather c) me (Concerns i) (fun s => (s.broadcasts.get i).selfRoom c me) s
      (lift s i r) where
  mine m hm := by
    rw [toSelf_lift] at hm
    obtain ⟨inner, -, rfl⟩ := List.mem_map.mp hm
    refine ⟨rfl, ?_⟩
    rw [UInt16.toNat_ofNat']
    exact Nat.mod_eq_of_lt hi
  room := by
    have hlength : (toSelf (P := .gather c) me (lift s i r).sent).length =
        (toSelf (P := .broadcast c me) me r.sent).length :=
      (congrArg List.length (toSelf_lift s i r)).trans (List.length_map _)
    rw [hlength, broadcasts_lift, if_pos rfl]
    exact h.spends.room

theorem thrifty (hi : i.val < UInt16.size) :
    Thrifty (.gather c) me (Concerns i) fun s => (s.broadcasts.get i).selfRoom c me := by
  rintro s m ⟨hsubsystem, hindex⟩
  obtain ⟨r, hr⟩ := receive_ok hsubsystem (hindex ▸ i.isLt) s me
  obtain ⟨-, j, hj, rfl⟩ := receive_eq_ok hr
  obtain rfl : j = i := Fin.ext (hj.trans hindex)
  exact ⟨_, congrArg (Except.mapError _) hr, spends_lift hi Broadcast.declares_receive⟩

theorem spends_react {x : Stimulus Bytes Message} {r : Reaction (State c) Message}
    (h : (Protocol.gather c).react me s x = .ok r) :
    ∃ i : Fin c.size, i.val < UInt16.size ∧
      Spends (P := .gather c) me (Concerns i) (fun s => (s.broadcasts.get i).selfRoom c me) s
        r := by
  obtain ⟨given, i, b, hi, hdeclares, rfl⟩ := react_eq_lift h
  obtain ⟨hmine, hroom⟩ : Spends (P := .gather c) me (Concerns i)
      (fun s => (s.broadcasts.get i).selfRoom c me) { s with inputGiven := given } _ :=
    spends_lift hi hdeclares
  exact ⟨i, hi, hmine, hroom⟩

end Gather

/-- **Self-delivery ends.**  Whatever the state of a node, of a broadcast or of a gather, any call
that is not refused at once ends, and three messages for every entry of the node in the member list
are handed back at most. -/
theorem self_delivery_ends (c : Committee) (me : NodeId) :
    (∀ broadcaster, Settles (.broadcast c broadcaster) me (3 * c.members.count me)) ∧
      Settles (.gather c) me (3 * c.members.count me) := by
  refine ⟨fun broadcaster => settles_of_spends fun s x first hx => ?_,
    settles_of_spends fun s x first hx => ?_⟩
  · exact ⟨_, _, Broadcast.thrifty c broadcaster me, (Broadcast.declares_react hx).spends,
      s.selfRoom_le c me⟩
  · obtain ⟨i, hi, hspends⟩ := Gather.spends_react hx
    exact ⟨_, _, Gather.thrifty hi, hspends, Broadcast.State.selfRoom_le c me _⟩

/-- A lone member that broadcasts a value hands back three messages, and not fewer. -/
example :
    let alone limit := (Protocol.broadcast ⟨[⟨0⟩]⟩ ⟨0⟩).selfDelivering limit
    (((alone 3).input ⟨0⟩ {} [10]).toOption.bind (·.state.delivered)) = some [10] ∧
      ((alone 2).input ⟨0⟩ {} [10]).toOption.isNone := by
  decide +kernel

end Quorum
