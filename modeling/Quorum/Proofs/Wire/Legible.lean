import Quorum.Labelled
import Quorum.Proofs.Gather.Codec
import Quorum.Proofs.Reliable.Exhaustion
import Quorum.Proofs.SelfDelivery

/-!
# Legible — protocols whose messages are read as they are sent

A protocol is legible if what it writes of a message in normal form can be read, if no node can tell
what is read from what was sent, and if in the course of events nodes send nothing but messages in
normal form.  What a channel stores it may send much later, so the states of nodes are part of this.
Layers around a legible protocol are legible, and add one fault each to those that it meets.  Labels
do no harm: they are not written, but nobody looks at them before they are overwritten.

**Main statements.**  `Legible.labelled`, `Legible.selfDelivering` and `Legible.reliable`: the
layers.
-/

namespace Quorum

open Wire

/-- An event has kept a node in a state that `keeps` allows and has made it send messages in the
normal form `normal` only, or it has ended with one of the faults `faults`. -/
def Orderly {σ μ : Type} (normal : μ → Prop) (keeps : σ → Prop) (faults : Fault → Prop) :
    Outcome σ μ → Prop
  | .ok r => keeps r.state ∧ ∀ o ∈ r.sent, normal o.body
  | .error failure => faults failure.fault

/-- No node can tell two messages apart. -/
def Protocol.Alike (P : Protocol) (m' m : P.Msg) : Prop :=
  ∀ me s sender, P.receive me s sender m' = P.receive me s sender m

/-- What is written of messages in the normal form `normal` is read as messages that are alike. -/
def Protocol.Readable (P : Protocol) (normal : P.Msg → Prop) : Prop :=
  ∀ m bytes, normal m → P.encode m = .ok bytes → ∃ m', P.decode bytes = .ok m' ∧ P.Alike m' m

/-- Messages in the normal form `normal` are readable, and nodes in states that `keeps` allows send
no others.  They meet no faults but `faults`, except that an input may be refused with one of the
faults `refuses`. -/
structure Legible (P : Protocol) (normal : P.Msg → Prop) (keeps : P.State → Prop)
    (refuses faults : Fault → Prop) : Prop where
  readable : P.Readable normal
  start : ∀ me s, P.start me = .ok s → keeps s
  input : ∀ me s i, keeps s →
    Orderly normal keeps (fun fault => refuses fault ∨ faults fault) (P.input me s i)
  receive : ∀ me s sender m, keeps s → normal m →
    Orderly normal keeps faults (P.receive me s sender m)

section
variable {P : Protocol} {normal : P.Msg → Prop} {keeps : P.State → Prop}
  {refuses faults : Fault → Prop}

theorem readable_of_exact
    (h : ∀ bytes m, P.decode bytes = .ok m ↔ normal m ∧ P.encode m = .ok bytes) :
    P.Readable normal := fun m bytes hm hencode =>
  ⟨m, (h bytes m).mpr ⟨hm, hencode⟩, fun _ _ _ => rfl⟩

theorem orderly_iff {outcome : Outcome P.State P.Msg} : Orderly normal keeps faults outcome ↔
    (∀ r, outcome = .ok r → keeps r.state ∧ ∀ o ∈ r.sent, normal o.body) ∧
      ∀ failure, outcome = .error failure → faults failure.fault := by
  cases outcome with
  | ok r => exact ⟨fun h => ⟨fun _ hr => Except.ok.inj hr ▸ h, nofun⟩, fun h => h.1 r rfl⟩
  | error failure =>
    exact ⟨fun h => ⟨nofun, fun _ hf => Except.error.inj hf ▸ h⟩, fun h => h.2 failure rfl⟩

theorem Orderly.mono {outcome : Outcome P.State P.Msg} {meets : Fault → Prop}
    (h : Orderly normal keeps faults outcome) (hmeets : ∀ fault, faults fault → meets fault) :
    Orderly normal keeps meets outcome :=
  orderly_iff.mpr ⟨(orderly_iff.mp h).1,
    fun failure hf => hmeets _ ((orderly_iff.mp h).2 failure hf)⟩

/-- What every event keeps true of a node can be asked of its state. -/
theorem Legible.and (h : Legible P normal keeps refuses faults) {holds : P.State → Prop}
    (hstart : ∀ me s, P.start me = .ok s → holds s)
    (hinput : ∀ me s i r, holds s → P.input me s i = .ok r → holds r.state)
    (hreceive : ∀ me s sender m r, holds s → P.receive me s sender m = .ok r → holds r.state) :
    Legible P normal (fun s => keeps s ∧ holds s) refuses faults where
  readable := h.readable
  start me s hs := ⟨h.start me s hs, hstart me s hs⟩
  input me s i hs := by
    obtain ⟨hok, herror⟩ := orderly_iff.mp (h.input me s i hs.1)
    refine orderly_iff.mpr ⟨fun r hr => ?_, herror⟩
    exact ⟨⟨(hok r hr).1, hinput me s i r hs.2 hr⟩, (hok r hr).2⟩
  receive me s sender m hs hm := by
    obtain ⟨hok, herror⟩ := orderly_iff.mp (h.receive me s sender m hs.1 hm)
    refine orderly_iff.mpr ⟨fun r hr => ?_, herror⟩
    exact ⟨⟨(hok r hr).1, hreceive me s sender m r hs.2 hr⟩, (hok r hr).2⟩

end

/-! ### Protocols without layers -/

theorem mapError_eq_error {ε δ α : Type} {f : ε → δ} {x : Except ε α} {d : δ}
    (h : x.mapError f = .error d) : ∃ e, x = .error e ∧ f e = d := by
  cases x with
  | ok a => cases h
  | error e =>
    cases h
    exact ⟨e, rfl, rfl⟩

theorem legible_pingPong (expect : Nat) :
    Legible (Protocol.pingPong expect) (fun _ => True) (fun _ => True) (fun _ => False)
      fun _ => False where
  readable := readable_of_exact fun _ _ => Reliable.decode_ping
  start _ _ _ := trivial
  input _ _ _ _ := ⟨trivial, fun _ _ => trivial⟩
  receive _ _ _ _ _ _ := ⟨trivial, fun _ _ => trivial⟩

/-- The faults with which an input for a broadcast is refused. -/
def Broadcast.Refuses (fault : Fault) : Prop :=
  fault = .broadcastInputTwice ∨ ∃ node, fault = .notTheBroadcaster node

theorem Broadcast.input_error {c : Committee} {broadcaster me : NodeId} {s : Broadcast.State}
    {value : Bytes} {fault : Fault} (h : Broadcast.input c broadcaster me s value = .error fault) :
    Broadcast.Refuses fault := by
  unfold Broadcast.input at h
  split at h
  · cases h
    exact .inr ⟨_, rfl⟩
  · split at h
    · cases h
      exact .inl rfl
    · cases h

theorem legible_broadcast (c : Committee) (broadcaster : NodeId) :
    Legible (Protocol.broadcast c broadcaster) (fun _ => True) (fun _ => True)
      Broadcast.Refuses fun _ => False where
  readable := readable_of_exact fun _ _ =>
    Broadcast.decode_broadcast.trans (and_iff_right trivial).symm
  start _ _ _ := trivial
  input me s i _ := by
    refine orderly_iff.mpr ⟨fun _ _ => ⟨trivial, fun _ _ => trivial⟩, fun failure h => ?_⟩
    obtain ⟨fault, hfault, rfl⟩ := mapError_eq_error h
    exact .inl (Broadcast.input_error hfault)
  receive _ _ _ _ _ _ := ⟨trivial, fun _ _ => trivial⟩

namespace Gather

/-- The faults with which an input for a gather is refused. -/
def Refuses (fault : Fault) : Prop :=
  fault = .gatherInputTwice ∨ ∃ node, fault = .notAMember node

variable {c : Committee} {me : NodeId} {s : State c}

/-- A node that has not been given its value has not given one to any broadcast. -/
def State.InStep (s : State c) : Prop :=
  s.inputGiven = false → ∀ i, (s.broadcasts.get i).inputGiven = false

theorem inStep_initial (c : Committee) : (State.initial c).InStep := fun _ i => by
  rw [get_initial]

theorem InStep.receive {sender : NodeId} {m : Message} {r : Reaction (State c) Message}
    (hs : s.InStep) (h : receive c s sender m = .ok r) : r.state.InStep := by
  obtain ⟨-, j, -, rfl⟩ := receive_eq_ok h
  intro hgiven i
  have hold := hs ((inputGiven_lift s j _).symm.trans hgiven)
  rw [broadcasts_lift]
  split
  · rw [Broadcast.inputGiven_receive]
    exact hold j
  · exact hold i

theorem InStep.input {value : Bytes} {r : Reaction (State c) Message}
    (h : input c me s value = .ok r) : r.state.InStep := by
  obtain ⟨-, j, b, -, -, rfl⟩ := input_eq_ok h
  intro hgiven
  cases (inputGiven_lift _ j b).symm.trans hgiven

/-- **A member takes its first value.** -/
theorem input_error {value : Bytes} {fault : Fault} (hs : s.InStep)
    (h : input c me s value = .error fault) : Refuses fault := by
  by_cases hgiven : s.inputGiven
  · rw [input, if_pos hgiven] at h
    cases h
    exact .inl rfl
  · have hopen : s.inputGiven = false := by simpa using hgiven
    cases hi : c.indexOf? me with
    | none =>
      rw [input, if_neg hgiven, hi] at h
      cases h
      exact .inr ⟨me, rfl⟩
    | some i =>
      obtain ⟨b, hb⟩ : ∃ b, Broadcast.input c (broadcaster c i) me (s.broadcasts.get i) value =
          .ok b := by
        rw [← show broadcaster c i = me from (Committee.indexOf?_eq_some hi).1]
        exact Broadcast.input_ok (hs hopen i) value
      rw [input_ok hopen hi hb] at h
      cases h

end Gather

theorem legible_gather (c : Committee) :
    Legible (Protocol.gather c) (Gather.Routes c) Gather.State.InStep Gather.Refuses
      fun _ => False where
  readable := readable_of_exact fun _ _ => Gather.decode_gather
  start me s h := by
    obtain ⟨-, rfl⟩ := Gather.start_of_protocol h
    exact Gather.inStep_initial c
  input me s i hs := by
    refine orderly_iff.mpr ⟨fun r h => ⟨?_, Gather.routes_sent (.inl ⟨i, h⟩)⟩, fun failure h => ?_⟩
    · exact Gather.InStep.input (Gather.input_of_protocol h)
    · obtain ⟨fault, hfault, rfl⟩ := mapError_eq_error h
      exact .inl (Gather.input_error hs hfault)
  receive me s sender m hs hm := by
    refine orderly_iff.mpr
      ⟨fun r h => ⟨?_, Gather.routes_sent (.inr ⟨sender, m, h⟩)⟩, fun failure h => ?_⟩
    · exact Gather.InStep.receive hs (Gather.receive_of_protocol h)
    · obtain ⟨fault, hfault, -⟩ := mapError_eq_error h
      obtain ⟨r, hr⟩ := Gather.receive_ok hm.1 hm.2 s sender
      rw [hr] at hfault
      cases hfault

/-! ### Labels -/

theorem Orderly.labelled {σ μ α : Type} {normal : μ → Prop} {keeps : σ → Prop}
    {faults : Fault → Prop} {outcome : Outcome σ μ} (h : Orderly normal keeps faults outcome)
    (label : σ → Outgoing μ → α) : Orderly (fun m : Labelled α μ => normal m.body) keeps faults
      (outcome.map (Reaction.labelled label)) := by
  cases outcome with
  | error failure => exact h
  | ok r =>
    refine ⟨h.1, fun o ho => ?_⟩
    obtain ⟨bare, hbare, rfl⟩ := List.mem_map.mp ho
    exact h.2 bare hbare

/-- **A legible protocol is so with labels on its messages**, if no label decides whom a node takes
for the sender. -/
theorem Legible.labelled {P : Protocol} {normal : P.Msg → Prop} {keeps : P.State → Prop}
    {refuses faults : Fault → Prop} (h : Legible P normal keeps refuses faults) {α : Type}
    (unwritten : α) (label : P.State → Outgoing P.Msg → α) {taken : NodeId → NodeId → α → NodeId}
    (htaken : ∀ me sender a b, taken me sender a = taken me sender b) :
    Legible (P.labelled unwritten label taken) (fun m => normal m.body) keeps refuses faults where
  readable m bytes hm hencode := by
    obtain ⟨body, hdecode, halike⟩ := h.readable m.body bytes hm hencode
    refine ⟨⟨unwritten, body⟩, congrArg (Except.map _) hdecode, fun me s sender => ?_⟩
    have hsame : P.receive me s (taken me sender unwritten) body =
        P.receive me s (taken me sender m.label) m.body := by
      rw [halike, htaken me sender unwritten m.label]
    exact congrArg (Except.map _) hsame
  start := h.start
  input me s i hs := (h.input me s i hs).labelled label
  receive me s sender m hs hm := (h.receive me s _ m.body hs hm).labelled label

/-- **An envelope is overwritten before anybody looks at it.** -/
theorem Legible.enveloped {P : Protocol} {normal : P.Msg → Prop} {keeps : P.State → Prop}
    {refuses faults : Fault → Prop} (h : Legible P normal keeps refuses faults) :
    Legible P.enveloped (fun m => normal m.body) keeps refuses faults :=
  h.labelled _ _ fun _ _ _ _ => rfl

/-! ### Self-delivery -/

namespace SelfDelivery

variable {P : Protocol} {normal : P.Msg → Prop} {keeps : P.State → Prop}
  {refuses faults : Fault → Prop} {me : NodeId}

/-- A node that is handing its messages back is in order, and so is what it still has for itself and
what it has for others. -/
structure Clean (normal : P.Msg → Prop) (keeps : P.State → Prop) (s : P.State) (own : List P.Msg)
    (remote : List (Outgoing P.Msg)) : Prop where
  state : keeps s
  own : ∀ m ∈ own, normal m
  remote : ∀ o ∈ remote, normal o.body

section
variable {s : P.State} {own : List P.Msg} {remote : List (Outgoing P.Msg)}
  {r : Reaction P.State P.Msg}

theorem Clean.first (hfirst : keeps r.state ∧ ∀ o ∈ r.sent, normal o.body) :
    Clean normal keeps r.state (toSelf me r.sent) (toOthers me r.sent) where
  state := hfirst.1
  own := fun _ hm => hfirst.2 _ (mem_toSelf.mp hm)
  remote := fun o ho => hfirst.2 o (List.mem_filter.mp ho).1

/-- **A message that is handed back leaves a node in order.** -/
theorem Clean.step (h : Legible P normal keeps refuses faults) {m : P.Msg}
    (hclean : Clean normal keeps s (m :: own) remote) (hr : P.receive me s me m = .ok r) :
    Clean normal keeps r.state (own ++ toSelf me r.sent) (remote ++ toOthers me r.sent) := by
  obtain ⟨hm, hown⟩ := List.forall_mem_cons.mp hclean.own
  have hnew : Clean normal keeps r.state (toSelf me r.sent) (toOthers me r.sent) :=
    .first ((orderly_iff.mp (h.receive me s me m hclean.state hm)).1 r hr)
  exact ⟨hnew.state, List.forall_mem_append.mpr ⟨hown, hnew.own⟩,
    List.forall_mem_append.mpr ⟨hclean.remote, hnew.remote⟩⟩

theorem Clean.fault (h : Legible P normal keeps refuses faults) {m : P.Msg}
    (hclean : Clean normal keeps s (m :: own) remote) {failure : Failure}
    (hr : P.receive me s me m = .error failure) : faults failure.fault :=
  (orderly_iff.mp (h.receive me s me m hclean.state (hclean.own m (List.mem_cons_self ..)))).2
    failure hr

end

/-- Handing messages in normal form back keeps the state of a node in order, and makes it send
messages in normal form. -/
theorem finish_orderly (h : Legible P normal keeps refuses faults) (limit : Nat)
    {meets : Fault → Prop} (hmeets : ∀ fault, faults fault → meets fault)
    {outcome : Outcome P.State P.Msg} (hfirst : Orderly normal keeps meets outcome) :
    Orderly normal keeps (fun fault => fault = .selfDeliveryUnending ∨ meets fault)
      (finish me limit outcome) := by
  obtain ⟨hfirst, hfaults⟩ := orderly_iff.mp hfirst
  obtain ⟨hok, herror⟩ : (∀ r, finish me limit outcome = .ok r → _) ∧ _ := finish_invariant
    (R := fun _ => Clean normal keeps) (fun _ _ _ _ _ _ hclean hnext => hclean.step h hnext)
    (fun first hfirst' => .first (hfirst first hfirst'))
  refine orderly_iff.mpr ⟨fun r hr => ?_, fun failure hfailure => ?_⟩
  · obtain ⟨-, hclean⟩ := hok r hr
    exact ⟨hclean.state, hclean.remote⟩
  · rcases herror failure hfailure with
      hfirst' | ⟨_, s, m, own, _, hclean, ⟨-, hunending⟩ | ⟨failure', hfails, hsame⟩⟩
    · exact .inr (hfaults failure hfirst')
    · exact .inl hunending
    · rw [hsame]
      exact .inr (hmeets _ (hclean.fault h hfails))

end SelfDelivery

theorem Protocol.Readable.selfDelivering {P : Protocol} {normal : P.Msg → Prop}
    (h : P.Readable normal) (limit : Nat) : (P.selfDelivering limit).Readable normal := by
  intro m bytes hm hencode
  obtain ⟨m', hdecode, halike⟩ := h m bytes hm hencode
  exact ⟨m', hdecode, fun me s sender =>
    congrArg (SelfDelivery.finish me limit) (halike me s sender)⟩

/-- **A legible protocol is so when nodes hand their own messages back.** -/
theorem Legible.selfDelivering {P : Protocol} {normal : P.Msg → Prop} {keeps : P.State → Prop}
    {refuses faults : Fault → Prop} (h : Legible P normal keeps refuses faults) (limit : Nat) :
    Legible (P.selfDelivering limit) normal keeps refuses
      fun fault => fault = .selfDeliveryUnending ∨ faults fault where
  readable := h.readable.selfDelivering limit
  start := h.start
  input me s i hs :=
    (SelfDelivery.finish_orderly h limit (fun _ => .inr) (h.input me s i hs)).mono
      fun _ => or_left_comm.mp
  receive me s sender m hs hm :=
    SelfDelivery.finish_orderly h limit (fun _ => id) (h.receive me s sender m hs hm)

/-! ### Reliable channels -/

namespace Reliable

section
variable {μ : Type} {normal : μ → Prop} {link link' : Link μ} {news : List μ}
  {owed : Option BatchId} {came : Option (Message μ)} {ms : List (Message μ)}

/-- What waits on a channel, and what is kept, is in normal form. -/
structure Link.Normal (normal : μ → Prop) (link : Link μ) : Prop where
  waiting : ∀ m ∈ link.pending.toList, normal m
  kept : ∀ i kept, link.unacked.get? i = some kept → ∀ m ∈ kept.batch.msgs, normal m

theorem Link.Normal.post (hlink : link.Normal normal) (hnews : ∀ m ∈ news, normal m)
    (howed : ∀ i ∈ owed, link.received.contains i) (h : link.post news owed = .ok (link', ms)) :
    link'.Normal normal ∧ ∀ m ∈ carried ms, normal m := by
  obtain ⟨new, hturn⟩ := Link.post_turn h howed
  have hsupplied := (Link.post_posted h).supplied
  have hold : ∀ m, m ∈ link.pending.toList ∨ m ∈ news → normal m := fun m hm =>
    hm.elim (hlink.waiting m) (hnews m)
  refine ⟨⟨fun m hm => hold m ((hsupplied m).mp (.inl hm)), fun i kept' hkept' m hm => ?_⟩,
    fun m hm => hold m ((hsupplied m).mp (.inr hm))⟩
  rcases hturn.keeps i kept' hkept' with hnew | ⟨kept, hkept, hsame⟩
  · have hmem := List.mem_append_left link'.pending.toList (List.mem_flatMap.mpr ⟨_, hnew, hm⟩)
    exact hold m (List.mem_append.mp (hturn.conserved.subset hmem))
  · exact hlink.kept i kept hkept m (hsame ▸ hm)

theorem Link.Normal.accept (hlink : link.Normal normal) (b : Batch μ) :
    (link.accept b).1.Normal normal := by
  obtain ⟨unacked, received, ackedIn, answeredReset, haccept, hold, -⟩ := Link.accept_eq link b
  rw [haccept]
  exact ⟨hlink.waiting, fun i kept hkept => hlink.kept i kept (hold i kept hkept).1⟩

theorem Link.Normal.reacknowledge (hlink : link.Normal normal) (id : BatchId) :
    (link.reacknowledge id).1.Normal normal ∧
      ∀ m ∈ carried [(link.reacknowledge id).2], normal m := by
  unfold Link.reacknowledge
  dsimp only
  split
  · rename_i carrier kept hcarrier
    obtain ⟨i, -, hcarrier⟩ := Option.bind_eq_some_iff.mp hcarrier
    obtain ⟨kept', hkept, hcarrier⟩ := Option.bind_eq_some_iff.mp hcarrier
    cases hcarrier
    have hmsgs := hlink.kept carrier kept hkept
    refine ⟨⟨hlink.waiting, fun i kept' hkept' => ?_⟩, by simpa [Message.msgs] using hmsgs⟩
    rw [SortedMap.get?_insert] at hkept'
    split at hkept'
    · cases hkept'
      exact hmsgs
    · exact hlink.kept i kept' hkept'
  · exact ⟨hlink, by simp [Message.msgs]⟩

theorem Link.Normal.tick (hlink : link.Normal normal) (period now : Time) :
    (link.tick period now).Normal normal ∧ ∀ m ∈ carried (link.resent period now), normal m := by
  refine ⟨⟨hlink.waiting, fun i kept' hkept' => ?_⟩, fun m hm => ?_⟩
  · change (link.unacked.mapVals _).get? i = some kept' at hkept'
    rw [SortedMap.get?_mapVals] at hkept'
    obtain ⟨kept, hkept, rfl⟩ := Option.map_eq_some_iff.mp hkept'
    rw [Link.batch_tick]
    exact hlink.kept i kept hkept
  · obtain ⟨sent, hsent, hm⟩ := List.mem_flatMap.mp hm
    rcases List.mem_append.mp hsent with hsent | hsent
    · obtain ⟨kept, hkept, rfl⟩ := List.mem_map.mp hsent
      obtain ⟨⟨i, kept⟩, hentry, rfl⟩ := List.mem_map.mp (List.mem_filter.mp hkept).1
      exact hlink.kept i kept (SortedMap.mem_entries_iff.mp hentry) m hm
    · split at hsent
      · cases List.mem_singleton.mp hsent
        cases hm
      · cases hsent

/-- **An act on a channel sends messages in normal form**, if what waits and is kept is in normal
form and so is the news; whatever has come. -/
theorem Link.Normal.act (hlink : link.Normal normal) (hnews : ∀ m ∈ news, normal m)
    {period : Time} (h : link.Act period came news link' ms) :
    link'.Normal normal ∧ ∀ m ∈ carried ms, normal m := by
  cases h with
  | send h => exact hlink.post hnews (fun _ hi => absurd hi (Option.not_mem_none _)) h
  | @acks b hid => exact ⟨hlink.accept b, fun _ hm => absurd hm List.not_mem_nil⟩
  | @again b id hid hreceived => exact (hlink.accept b).reacknowledge id
  | @fresh b id _ _ _ hid hfresh h =>
    refine (hlink.accept b).post hnews (fun i hi => ?_) h
    cases hi
    exact (Link.accept_turn link b).received id |>.mpr (.inr ⟨b, id, rfl, hid, .inl rfl⟩)
  | request hr => exact ⟨⟨hlink.waiting, hlink.kept⟩, by simp [Link.answerReset, Message.msgs]⟩
  | ignore hr h => exact ⟨hlink, fun _ hm => absurd hm List.not_mem_nil⟩
  | @settle r next _ _ hr hid hnext h =>
    have hsettled : Link.Normal normal
        { link with nextId := some next, resetSent := false, pending := {} } :=
      ⟨fun _ hm => absurd hm List.not_mem_nil, hlink.kept⟩
    exact hsettled.post hlink.waiting (fun _ hi => absurd hi (Option.not_mem_none _)) h
  | tick now => exact hlink.tick period now

end

variable {P : Protocol} {normal : P.Msg → Prop} {keeps : P.State → Prop}
  {refuses faults : Fault → Prop} {period : Time} {me : NodeId} {s : State P} {c : Call P}

/-- The nested automaton is in order, and so are all channels. -/
structure State.Normal (normal : P.Msg → Prop) (keeps : P.State → Prop) (s : State P) : Prop where
  nested : keeps s.nested
  links : ∀ q, (s.link q).Normal normal

theorem normal_empty : ({} : Link P.Msg).Normal normal :=
  ⟨fun _ hm => absurd hm List.not_mem_nil, nofun⟩

theorem State.Normal.dismiss (hs : s.Normal normal keeps) (peer : NodeId) :
    (s.dismiss peer).Normal normal keeps where
  nested := hs.nested
  links q := by
    rw [link_dismiss]
    split
    · exact normal_empty
    · exact hs.links q

/-! ### Reading a batch -/

theorem handOver_alike {sender : NodeId} {msgs' msgs : List P.Msg}
    (h : List.Forall₂ P.Alike msgs' msgs) (t : Handover P) :
    handOver me sender msgs' t = handOver me sender msgs t := by
  induction h generalizing t with
  | nil => rfl
  | cons hfirst _ ih =>
    rw [handOver, handOver, hfirst]
    split
    · exact ih _
    · rfl

theorem receive_alike {b : Batch P.Msg} {msgs : List P.Msg}
    (h : List.Forall₂ P.Alike msgs b.msgs) :
    (P.reliable period).Alike (.batch { b with msgs }) (.batch b) := by
  intro me (s : State P) sender
  have haccept : (s.link sender).accept { b with msgs } = (s.link sender).accept b := rfl
  change receive me s sender (.batch { b with msgs }) = receive me s sender (.batch b)
  simp only [receive, onBatch, haccept, handOver_alike h]

theorem each_readable (h : P.Readable normal) {msgs : List P.Msg}
    (hmsgs : ∀ m ∈ msgs, normal m) {bs : Bytes} (hbs : Reader.Each (Enclosed P.encode) msgs bs) :
    ∃ msgs', Reader.Each (fun m bs => ∃ bytes, P.decode bytes = .ok m ∧ putBytes bytes = .ok bs)
      msgs' bs ∧ List.Forall₂ P.Alike msgs' msgs := by
  induction msgs generalizing bs with
  | nil => exact ⟨[], hbs, .nil⟩
  | cons m msgs ih =>
    obtain ⟨hm, hmsgs⟩ := List.forall_mem_cons.mp hmsgs
    obtain ⟨first, rest, ⟨bytes, hencode, hput⟩, hrest, rfl⟩ := hbs
    obtain ⟨m', hdecode, halike⟩ := h m bytes hm hencode
    obtain ⟨msgs', hread, hsame⟩ := ih hmsgs hrest
    exact ⟨m' :: msgs', ⟨first, rest, ⟨bytes, hdecode, hput⟩, hread, rfl⟩, .cons halike hsame⟩

/-- **Messages between channels are readable if nested messages are.** -/
theorem readable (h : P.Readable normal) (period : Time) :
    (P.reliable period).Readable fun m => ∀ n ∈ m.msgs, normal n := by
  intro m bytes hm hencode
  have hwritten := encode_eq_ok.mp hencode
  cases m with
  | reset r => exact ⟨.reset r, decode_eq_ok.mpr hwritten, fun _ _ _ => rfl⟩
  | batch b =>
    obtain ⟨body, ⟨hcount, hacks, bs, hbs, rfl⟩, rfl⟩ := hwritten
    obtain ⟨msgs, hread, halike⟩ := each_readable h hm hbs
    have hlength : msgs.length = b.msgs.length := halike.length_eq
    refine ⟨.batch { b with msgs }, decode_eq_ok.mpr ⟨_, ⟨?_, hacks, bs, hread, ?_⟩, rfl⟩,
      receive_alike halike⟩
    · rwa [hlength]
    · rw [hlength]

/-! ### Events -/

/-- Messages in normal form are handed over in an orderly way. -/
theorem handOver_orderly (h : Legible P normal keeps refuses faults) {sender : NodeId}
    {msgs : List P.Msg} (hmsgs : ∀ m ∈ msgs, normal m) {t : P.State} (ht : keeps t) :
    Orderly normal keeps faults (handOver me sender msgs { nested := t }) := by
  have hreceive := fun t ht m hm => orderly_iff.mp (h.receive me t sender m ht hm)
  obtain ⟨hok, herror⟩ :
      (∀ r, handOver me sender msgs { nested := t } = .ok r → _) ∧ _ := handOver_invariant
    (R := fun t out => keeps t ∧ ∀ o ∈ out, normal o.body)
    (fun m hm t out next ⟨ht, hout⟩ hnext => by
      obtain ⟨hstate, hsent⟩ := (hreceive t ht m (hmsgs m hm)).1 next hnext
      exact ⟨hstate, List.forall_mem_append.mpr ⟨hout, hsent⟩⟩)
    ⟨ht, fun _ ho => absurd ho List.not_mem_nil⟩
  refine orderly_iff.mpr ⟨hok, fun failure hfailure => ?_⟩
  obtain ⟨m, hm, t, out, failure', ⟨ht, -⟩, hfails, hsame⟩ := herror failure hfailure
  rw [hsame]
  exact (hreceive t ht m (hmsgs m hm)).2 failure' hfails

theorem Involves.orderly (h : Legible P normal keeps refuses faults) {t : P.State} (ht : keeps t)
    (hc : ∀ sender m, c = .message sender m → ∀ n ∈ m.msgs, normal n)
    {nested : Reaction P.State P.Msg} (hinvolves : Involves me t c nested) :
    keeps nested.state ∧ ∀ o ∈ nested.sent, normal o.body := by
  cases hinvolves with
  | input hinput => exact (orderly_iff.mp (h.input _ _ _ ht)).1 _ hinput
  | batch hover => exact (orderly_iff.mp (handOver_orderly h (hc _ _ rfl) ht)).1 _ hover
  | nothing => exact ⟨ht, fun _ ho => absurd ho List.not_mem_nil⟩

/-- A call fails because an input is refused, because the nested automaton fails otherwise, or for
want of numbers. -/
theorem call_error (h : Legible P normal keeps refuses faults) (hs : keeps s.nested)
    (hc : ∀ sender m, c = .message sender m → ∀ n ∈ m.msgs, normal n) {failure : Failure}
    (hr : call period me s c = .error failure) : (∃ i, c = .input i) ∧ refuses failure.fault ∨
      failure.fault = .batchIdsExhausted ∨ faults failure.fault := by
  match c with
  | .input (.nested i) =>
    rcases Link.bind_eq_error hr with hnested | ⟨nested, -, hround⟩
    · rcases (orderly_iff.mp (h.input me _ i hs)).2 _ hnested with hrefused | hfault
      · exact .inl ⟨⟨_, rfl⟩, hrefused⟩
      · exact .inr (.inr hfault)
    · exact .inr (.inl (sendAfter_error hround))
  | .input (.tick now) => cases hr
  | .dismiss peer => cases hr
  | .message sender m =>
    change receive me s sender m = _ at hr
    unfold receive at hr
    split at hr
    · cases hr
    · cases m with
      | batch b =>
        simp only [onBatch] at hr
        split at hr
        · cases hr
        · cases hr
        · rcases Link.bind_eq_error hr with hnested | ⟨nested, -, hround⟩
          · exact .inr (.inr ((orderly_iff.mp (handOver_orderly h (hc _ _ rfl) hs)).2 _ hnested))
          · exact .inr (.inl (sendAfter_error hround))
      | reset reset =>
        simp only [onReset] at hr
        split at hr
        · cases hr
        · split at hr
          · cases hr
          · split at hr
            · cases hr
            · split at hr
              · cases hr
              · rename_i fault hsettle
                cases hr
                exact .inr (.inl (Link.post_error hsettle))

/-- **A call keeps a node in order and makes it send messages in normal form.** -/
theorem call_orderly (h : Legible P normal keeps refuses faults) (hs : s.Normal normal keeps)
    (hdismiss : ∀ peer, c ≠ .dismiss peer)
    (hc : ∀ sender m, c = .message sender m → ∀ n ∈ m.msgs, normal n) :
    Orderly (fun m : Message P.Msg => ∀ n ∈ m.msgs, normal n) (State.Normal normal keeps)
      (fun fault => (∃ i, c = .input i) ∧ refuses fault ∨
        fault = .batchIdsExhausted ∨ faults fault) (call period me s c) := by
  cases hr : call period me s c with
  | error failure => exact call_error h hs.nested hc hr
  | ok r =>
    obtain ⟨nested, hconduct⟩ := call_conduct hr hdismiss
    obtain ⟨hnested, hsent⟩ := hconduct.involves.orderly h hs.nested hc
    have hact : ∀ q, (r.state.link q).Normal normal ∧
        ∀ m ∈ carried (addressedTo q r.sent), normal m := by
      intro q
      refine (hs.links q).act (fun m hm => ?_) (hconduct.act q)
      split at hm
      · cases hm
      · exact hsent _ (mem_addressedTo.mp hm)
    refine ⟨⟨by rwa [hconduct.state], fun q => (hact q).1⟩, fun o ho n hn => ?_⟩
    exact (hact o.recipient).2 n (List.mem_flatMap.mpr ⟨o.body, mem_addressedTo.mpr ho, hn⟩)

end Reliable

/-- **A legible protocol is so over reliable channels.** -/
theorem Legible.reliable {P : Protocol} {normal : P.Msg → Prop} {keeps : P.State → Prop}
    {refuses faults : Fault → Prop} (h : Legible P normal keeps refuses faults)
    (period : Reliable.Time) :
    Legible (P.reliable period) (fun m => ∀ n ∈ m.msgs, normal n)
      (Reliable.State.Normal normal keeps) refuses
      fun fault => fault = .batchIdsExhausted ∨ faults fault where
  readable := Reliable.readable h.readable period
  start me s hs := by
    obtain ⟨nested, hnested, rfl⟩ := map_eq_ok hs
    exact ⟨h.start me nested hnested, fun _ => Reliable.normal_empty⟩
  input _ _ i hs :=
    (Reliable.call_orderly (c := .input i) h hs nofun nofun).mono fun _ => Or.imp_left And.right
  receive me s sender m hs hm := by
    have hcall : Orderly _ _ _ (Reliable.call period me s (.message sender m)) :=
      Reliable.call_orderly h hs (fun _ hc => by cases hc) fun _ _ hc => by
        cases hc
        exact hm
    refine Orderly.mono hcall fun fault hfault => hfault.resolve_left ?_
    rintro ⟨⟨i, hi⟩, -⟩
    cases hi

/-- **No channel looks at the stamp of a batch that has come.** -/
theorem Legible.stamped {P : Protocol} {normal : P.Msg → Prop} {keeps : P.State → Prop}
    {refuses faults : Fault → Prop} (h : Legible P normal keeps refuses faults)
    (period : Reliable.Time) :
    Legible (P.stamped period) (fun m => ∀ n ∈ m.body.msgs, normal n)
      (Reliable.State.Normal normal keeps) refuses
      fun fault => fault = .batchIdsExhausted ∨ faults fault :=
  (h.reliable period).labelled _ _ fun _ _ _ _ => rfl

end Quorum
