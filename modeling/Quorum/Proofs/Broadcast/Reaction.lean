import Quorum.Broadcast
import Quorum.Proofs.Quorums

/-!
# Reaction — what one event does to one node of a broadcast

The three phases of a broadcast are treated alike: for each kind of message a node has a tally of
votes (`State.tally`) and a flag that it has declared itself (`State.declared`).  One event casts
at most one vote and makes at most one declaration, which goes to every member.

**Main statements.**  `tally_receive`, `declares_receive`, `declares_input`: what becomes of votes
and flags.  `ready_backed`: a `ready` has enough votes behind it.  `Settled`: the thresholds that
have been reached have had their effect; `settled_receive` and `settled_input` keep it.
-/

namespace Quorum.Broadcast

variable {c : Committee} {broadcaster me sender : NodeId} {s : State} {m : Message}

/-- The votes behind a kind of message; an `initial` message is no vote. -/
def State.tally (s : State) : Kind → Tally
  | .initial => {}
  | .echo => s.echoes
  | .ready => s.readies

/-- Whether the node has sent messages of a kind. -/
def State.declared (s : State) : Kind → Bool
  | .initial => s.inputGiven
  | .echo => s.echoSent
  | .ready => s.readySent

/-- What a reaction declares: nothing, or one value to every member, in a phase in which the node
had been silent. -/
inductive Declares (c : Committee) (s s' : State) (out : List (Outgoing Message)) : Prop where
  | nothing (hsent : out = []) (hdeclared : ∀ k, s'.declared k = s.declared k)
  | value (k : Kind) (v : Bytes) (hsent : out = toAll c k v) (hnew : s.declared k = false)
      (hself : s'.declared k = true) (hother : ∀ k', k' ≠ k → s'.declared k' = s.declared k')

theorem mem_toAll {k : Kind} {v : Bytes} {o : Outgoing Message} :
    o ∈ toAll c k v ↔ o.recipient ∈ c ∧ o.body = ⟨k, v⟩ := by
  simp only [toAll, List.mem_map]
  constructor
  · rintro ⟨id, hid, rfl⟩
    exact ⟨hid, rfl⟩
  · rintro ⟨hid, hbody⟩
    exact ⟨o.recipient, hid, by rw [← hbody]⟩

/-! ### Votes -/

@[simp] theorem tally_sendReady (v : Bytes) (k : Kind) :
    (sendReady c s v).state.tally k = s.tally k := by
  unfold sendReady
  split <;> cases k <;> rfl

@[simp] theorem tally_deliver (v : Bytes) (k : Kind) : (deliver c s v).tally k = s.tally k := by
  unfold deliver
  split <;> cases k <;> rfl

@[simp] theorem tally_onInitial (v : Bytes) (k : Kind) :
    (onInitial c broadcaster s sender v).state.tally k = s.tally k := by
  unfold onInitial
  split <;> cases k <;> rfl

theorem tally_onEcho (v : Bytes) (k : Kind) : (onEcho c s sender v).state.tally k =
    if k = .echo then s.echoes.cast sender v else s.tally k := by
  unfold onEcho
  dsimp only
  split
  · rw [tally_sendReady]
    cases k <;> rfl
  · cases k <;> rfl

theorem tally_onReady (v : Bytes) (k : Kind) : (onReady c s sender v).state.tally k =
    if k = .ready then s.readies.cast sender v else s.tally k := by
  unfold onReady
  dsimp only
  rw [tally_deliver]
  split
  · rw [tally_sendReady]
    cases k <;> rfl
  · cases k <;> rfl

/-- **A message of a member is a vote of its kind.** -/
theorem tally_receive (k : Kind) : (receive c broadcaster s sender m).state.tally k =
    if sender ∈ c ∧ m.kind = k ∧ k ≠ .initial then (s.tally k).cast sender m.value
    else s.tally k := by
  obtain ⟨kind, v⟩ := m
  unfold receive
  by_cases hsender : sender ∈ c
  · rw [if_pos hsender]
    cases kind
    · cases k <;> simp
    · rw [tally_onEcho]
      cases k <;> simp [hsender, State.tally]
    · rw [tally_onReady]
      cases k <;> simp [hsender, State.tally]
  · rw [if_neg hsender, if_neg fun h => hsender h.1]

theorem mem_votes_receive {k : Kind} {vote : NodeId × Bytes} :
    vote ∈ ((receive c broadcaster s sender m).state.tally k).votes ↔
      vote ∈ (s.tally k).votes ∨
        (sender ∈ c ∧ m.kind = k ∧ k ≠ .initial ∧ vote = (sender, m.value)) := by
  rw [tally_receive]
  split
  · rename_i h
    rw [Tally.mem_votes_cast, or_comm]
    simp [h]
  · rename_i h
    constructor
    · exact .inl
    · rintro (hvote | ⟨h1, h2, h3, -⟩)
      · exact hvote
      · exact absurd ⟨h1, h2, h3⟩ h

theorem nodup_votes_receive {k : Kind} (h : (s.tally k).votes.Nodup) :
    ((receive c broadcaster s sender m).state.tally k).votes.Nodup := by
  rw [tally_receive]
  split
  · exact Tally.nodup_votes_cast h _ _
  · exact h

/-! ### Declarations -/

theorem declared_deliver (v : Bytes) (k : Kind) : (deliver c s v).declared k = s.declared k := by
  unfold deliver
  split <;> cases k <;> rfl

theorem Declares.mono {s' : State} {out : List (Outgoing Message)} (h : Declares c s s' out)
    {k : Kind} (hk : s.declared k = true) : s'.declared k = true := by
  cases h with
  | nothing _ hdeclared => rw [hdeclared, hk]
  | value k' v _ _ hself hother =>
    by_cases hkk : k = k'
    · rw [hkk, hself]
    · rw [hother k hkk, hk]

/-- All that is sent in one event is one message, of a phase in which the node had been silent. -/
theorem Declares.of_mem {s' : State} {out : List (Outgoing Message)} (h : Declares c s s' out)
    {o : Outgoing Message} (ho : o ∈ out) : s.declared o.body.kind = false ∧
      s'.declared o.body.kind = true ∧ ∀ o' ∈ out, o'.body = o.body := by
  cases h with
  | nothing hsent _ =>
    rw [hsent] at ho
    cases ho
  | value k v hsent hnew hself _ =>
    rw [hsent] at ho
    have hbody := (mem_toAll.mp ho).2
    rw [hbody]
    refine ⟨hnew, hself, fun o' ho' => ?_⟩
    rw [hsent] at ho'
    exact (mem_toAll.mp ho').2

theorem declares_sendReady (v : Bytes) :
    Declares c s (sendReady c s v).state (sendReady c s v).sent := by
  unfold sendReady
  split
  · exact .nothing rfl fun _ => rfl
  · rename_i hready
    have hnew : s.readySent = false := by simpa using hready
    refine .value .ready v rfl hnew rfl fun k' hk' => ?_
    cases k' <;> first | rfl | exact absurd rfl hk'

theorem declares_onInitial (v : Bytes) :
    Declares c s (onInitial c broadcaster s sender v).state
      (onInitial c broadcaster s sender v).sent := by
  unfold onInitial
  split
  · exact .nothing rfl fun _ => rfl
  · rename_i hsend
    have hnew : s.echoSent = false := by simpa using (not_or.mp hsend).2
    refine .value .echo v rfl hnew rfl fun k' hk' => ?_
    cases k' <;> first | rfl | exact absurd rfl hk'

theorem Declares.congr {s₀ s₁ s' : State} {out : List (Outgoing Message)}
    (h : Declares c s₀ s₁ out) (hs : ∀ k, s.declared k = s₀.declared k)
    (hs' : ∀ k, s'.declared k = s₁.declared k) : Declares c s s' out := by
  cases h with
  | nothing hsent hdeclared =>
    exact .nothing hsent fun k => (hs' k).trans ((hdeclared k).trans (hs k).symm)
  | value k v hsent hnew hself hother =>
    exact .value k v hsent ((hs k).trans hnew) ((hs' k).trans hself) fun k' hk' =>
      (hs' k').trans ((hother k' hk').trans (hs k').symm)

theorem declares_onEcho (v : Bytes) :
    Declares c s (onEcho c s sender v).state (onEcho c s sender v).sent := by
  unfold onEcho
  dsimp only
  split
  · exact (declares_sendReady v).congr (fun k => by cases k <;> rfl) fun _ => rfl
  · exact .nothing rfl fun k => by cases k <;> rfl

theorem declares_onReady (v : Bytes) :
    Declares c s (onReady c s sender v).state (onReady c s sender v).sent := by
  unfold onReady
  dsimp only
  split
  · exact (declares_sendReady v).congr (fun k => by cases k <;> rfl) (declared_deliver v)
  · exact .nothing rfl fun k => (declared_deliver v k).trans (by cases k <;> rfl)

/-- **A message makes a node declare at most one value.** -/
theorem declares_receive : Declares c s (receive c broadcaster s sender m).state
    (receive c broadcaster s sender m).sent := by
  unfold receive
  split
  · cases m.kind with
    | initial => exact declares_onInitial m.value
    | echo => exact declares_onEcho m.value
    | ready => exact declares_onReady m.value
  · exact .nothing rfl fun _ => rfl

theorem inputGiven_sendReady (v : Bytes) :
    (sendReady c s v).state.inputGiven = s.inputGiven := by
  unfold sendReady
  split <;> rfl

theorem inputGiven_receive :
    (receive c broadcaster s sender m).state.inputGiven = s.inputGiven := by
  unfold receive
  split
  · cases m.kind with
    | initial =>
      dsimp only [onInitial]
      split <;> rfl
    | echo =>
      dsimp only [onEcho]
      split
      · exact inputGiven_sendReady m.value
      · rfl
    | ready =>
      dsimp only [onReady]
      refine (declared_deliver m.value .initial).trans ?_
      split
      · exact inputGiven_sendReady m.value
      · rfl
  · rfl

theorem input_of_protocol {v : Bytes} {r : Reaction State Message}
    (h : (Protocol.broadcast c broadcaster).input me s v = .ok r) :
    input c broadcaster me s v = .ok r := by
  change (input c broadcaster me s v).mapError _ = _ at h
  cases hin : input c broadcaster me s v with
  | error fault =>
    rw [hin] at h
    cases h
  | ok r' =>
    rw [hin] at h
    cases h
    rfl

theorem input_eq_ok {v : Bytes} {r : Reaction State Message}
    (h : input c broadcaster me s v = .ok r) : me = broadcaster ∧ s.inputGiven = false ∧
      r.state = { s with inputGiven := true } ∧ r.sent = toAll c .initial v := by
  unfold input at h
  split at h
  · cases h
  · rename_i hme
    split at h
    · cases h
    · rename_i hgiven
      cases h
      exact ⟨by simpa using hme, by simpa using hgiven, rfl, rfl⟩

theorem input_ok (hgiven : s.inputGiven = false) (v : Bytes) :
    ∃ r, input c broadcaster broadcaster s v = .ok r := by
  rw [input, if_neg (by simp), if_neg (by simp [hgiven])]
  exact ⟨_, rfl⟩

theorem declares_input {v : Bytes} {r : Reaction State Message}
    (h : input c broadcaster me s v = .ok r) : Declares c s r.state r.sent := by
  obtain ⟨-, hgiven, hstate, hsent⟩ := input_eq_ok h
  refine .value .initial v hsent hgiven (by rw [hstate]; rfl) fun k' hk' => ?_
  rw [hstate]
  cases k' <;> first | rfl | exact absurd rfl hk'

/-! ### Why a node declares itself ready -/

def State.Backs (c : Committee) (s : State) (v : Bytes) : Prop :=
  c.echoThreshold ≤ s.echoes.count v ∨ c.faults < s.readies.count v

theorem kind_of_mem_toAll {k : Kind} {v : Bytes} {o : Outgoing Message} (h : o ∈ toAll c k v) :
    o.body = ⟨k, v⟩ := (mem_toAll.mp h).2

theorem value_of_mem_sendReady {v : Bytes} {o : Outgoing Message}
    (h : o ∈ (sendReady c s v).sent) : o.body = ⟨.ready, v⟩ := by
  unfold sendReady at h
  split at h
  · cases h
  · exact kind_of_mem_toAll h

/-- **A node sends `ready` only for a value with enough votes.** -/
theorem ready_backed {o : Outgoing Message} (ho : o ∈ (receive c broadcaster s sender m).sent)
    (hkind : o.body.kind = .ready) :
    (receive c broadcaster s sender m).state.Backs c o.body.value := by
  obtain ⟨kind, v⟩ := m
  have hechoes := @tally_receive c broadcaster sender s ⟨kind, v⟩ .echo
  have hreadies := @tally_receive c broadcaster sender s ⟨kind, v⟩ .ready
  simp only [State.tally] at hechoes hreadies
  unfold State.Backs
  rw [hechoes, hreadies]
  unfold receive at ho
  split at ho
  · rename_i hsender
    cases kind with
    | initial =>
      simp only [onInitial] at ho
      split at ho
      · cases ho
      · rw [kind_of_mem_toAll ho] at hkind
        cases hkind
    | echo =>
      simp only [onEcho] at ho
      split at ho
      · rename_i hcount
        rw [value_of_mem_sendReady ho]
        simp only [hsender, true_and, ne_eq, reduceCtorEq, not_false_eq_true, and_self, if_true]
        exact .inl hcount
      · cases ho
    | ready =>
      simp only [onReady] at ho
      split at ho
      · rename_i hcount
        rw [value_of_mem_sendReady ho]
        simp only [hsender, true_and, ne_eq, reduceCtorEq, not_false_eq_true, and_self, if_true]
        exact .inr hcount
      · cases ho
  · cases ho

/-! ### Thresholds -/

theorem readySent_sendReady (v : Bytes) : (sendReady c s v).state.readySent = true := by
  unfold sendReady
  split
  · assumption
  · rfl

theorem delivered_sendReady (v : Bytes) :
    (sendReady c s v).state.delivered = s.delivered := by
  unfold sendReady
  split <;> rfl

theorem readySent_onEcho {v : Bytes}
    (h : c.echoThreshold ≤ (s.echoes.cast sender v).count v) :
    (onEcho c s sender v).state.readySent = true := by
  unfold onEcho
  dsimp only
  rw [if_pos h]
  exact readySent_sendReady v

theorem readySent_onReady {v : Bytes} (h : c.faults < (s.readies.cast sender v).count v) :
    (onReady c s sender v).state.readySent = true := by
  unfold onReady
  dsimp only
  have hdeclared := declared_deliver (c := c)
    (s := (sendReady c { s with readies := s.readies.cast sender v } v).state) v .ready
  rw [if_pos h]
  exact hdeclared.trans (readySent_sendReady v)

theorem delivered_deliver (v : Bytes) : (deliver c s v).delivered =
    if 2 * c.faults < s.readies.count v ∧ s.delivered = none then some v else s.delivered := by
  unfold deliver
  simp only [Option.isNone_iff_eq_none]
  split <;> rfl

theorem delivered_onReady (v : Bytes) : (onReady c s sender v).state.delivered =
    if 2 * c.faults < (s.readies.cast sender v).count v ∧ s.delivered = none then some v
    else s.delivered := by
  unfold onReady
  dsimp only
  rw [delivered_deliver]
  split
  · rw [delivered_sendReady]
    exact congrArg (fun t : Tally => if 2 * c.faults < t.count v ∧ s.delivered = none then some v
      else s.delivered) (tally_sendReady v .ready)
  · rfl

/-- **A value is delivered by the vote that makes its readies more than twice the faults.** -/
theorem delivered_receive : (receive c broadcaster s sender m).state.delivered =
    if sender ∈ c ∧ m.kind = .ready ∧
      2 * c.faults < (s.readies.cast sender m.value).count m.value ∧ s.delivered = none
    then some m.value else s.delivered := by
  obtain ⟨kind, v⟩ := m
  unfold receive
  by_cases hsender : sender ∈ c
  · rw [if_pos hsender]
    cases kind with
    | initial =>
      simp only [onInitial, reduceCtorEq, false_and, and_false, if_false]
      split <;> rfl
    | echo =>
      simp only [onEcho, reduceCtorEq, false_and, and_false, if_false]
      split
      · exact delivered_sendReady v
      · rfl
    | ready =>
      rw [delivered_onReady]
      simp [hsender]
  · rw [if_neg hsender, if_neg fun h => hsender h.1]

theorem delivered_receive_of_some {v : Bytes} (hv : s.delivered = some v) :
    (receive c broadcaster s sender m).state.delivered = some v := by
  have hnot : ¬s.delivered = none := by simp [hv]
  rw [delivered_receive, if_neg fun h => hnot h.2.2.2, hv]

/-- No vote counts twice, every threshold that has been reached has had its effect, and a value
delivered has the votes for it. -/
structure Settled (c : Committee) (s : State) : Prop where
  nodup : ∀ k, (s.tally k).votes.Nodup
  ready_of_echoes : ∀ v, c.echoThreshold ≤ s.echoes.count v → s.readySent = true
  ready_of_readies : ∀ v, c.faults < s.readies.count v → s.readySent = true
  delivered_of_readies : ∀ v, 2 * c.faults < s.readies.count v → s.delivered.isSome = true
  readies_of_delivered : ∀ v, s.delivered = some v → 2 * c.faults < s.readies.count v

theorem Settled.card_echoes (hs : Settled c s) (v : Bytes) :
    (s.echoes.voters v).card = s.echoes.count v := Tally.card_voters (hs.nodup .echo)

theorem Settled.card_readies (hs : Settled c s) (v : Bytes) :
    (s.readies.voters v).card = s.readies.count v := Tally.card_voters (hs.nodup .ready)

theorem settled_start : Settled c {} where
  nodup k := by cases k <;> exact List.nodup_nil
  ready_of_echoes v h := by
    have hzero : ({} : Tally).count v = 0 := rfl
    simp only [Committee.echoThreshold, hzero] at h
    omega
  ready_of_readies v h := absurd h (Nat.not_lt_zero _)
  delivered_of_readies v h := absurd h (Nat.not_lt_zero _)
  readies_of_delivered v h := by cases h

theorem settled_input {v : Bytes} {r : Reaction State Message} (hs : Settled c s)
    (h : input c broadcaster me s v = .ok r) : Settled c r.state := by
  obtain ⟨-, -, hstate, -⟩ := input_eq_ok h
  rw [hstate]
  refine ⟨fun k => ?_, hs.ready_of_echoes, hs.ready_of_readies, hs.delivered_of_readies,
    hs.readies_of_delivered⟩
  have hk := hs.nodup k
  cases k <;> exact hk

theorem count_receive_cases (k : Kind) (v : Bytes) :
    ((receive c broadcaster s sender m).state.tally k).count v = (s.tally k).count v ∨
      (sender ∈ c ∧ m.kind = k ∧ m.value = v ∧
        (receive c broadcaster s sender m).state.tally k = (s.tally k).cast sender v) := by
  rw [tally_receive]
  split
  · rename_i h
    by_cases hvalue : m.value = v
    · exact .inr ⟨h.1, h.2.1, hvalue, by rw [hvalue]⟩
    · exact .inl (Tally.count_cast_of_ne hvalue)
  · exact .inl rfl

theorem count_le_count_receive (k : Kind) (v : Bytes) :
    (s.tally k).count v ≤ ((receive c broadcaster s sender m).state.tally k).count v := by
  rcases count_receive_cases k v with hsame | ⟨-, -, -, hcast⟩
  · exact hsame.ge
  · rw [hcast]
    exact Tally.count_le_count_cast _ sender v v

/-- **A message leaves no threshold reached without its effect.** -/
theorem settled_receive (hs : Settled c s) :
    Settled c (receive c broadcaster s sender m).state := by
  have hmono : s.readySent = true →
      (receive c broadcaster s sender m).state.readySent = true :=
    (declares_receive (c := c) (s := s)).mono (k := .ready)
  have hechoes := @count_receive_cases c broadcaster sender s m .echo
  have hreadies := @count_receive_cases c broadcaster sender s m .ready
  refine
    { nodup := fun k => nodup_votes_receive (hs.nodup k)
      ready_of_echoes := ?_
      ready_of_readies := ?_
      delivered_of_readies := ?_
      readies_of_delivered := ?_ }
  · intro v hv
    rcases hechoes v with hsame | ⟨hsender, hkind, rfl, hcast⟩
    · have hbefore : c.echoThreshold ≤ s.echoes.count v := hv.trans_eq hsame
      exact hmono (hs.ready_of_echoes v hbefore)
    · have hnow : c.echoThreshold ≤ (s.echoes.cast sender m.value).count m.value :=
        hv.trans_eq (congrArg (Tally.count · m.value) hcast)
      simp only [receive, if_pos hsender, hkind]
      exact readySent_onEcho hnow
  · intro v hv
    rcases hreadies v with hsame | ⟨hsender, hkind, rfl, hcast⟩
    · have hbefore : c.faults < s.readies.count v := hv.trans_eq hsame
      exact hmono (hs.ready_of_readies v hbefore)
    · have hnow : c.faults < (s.readies.cast sender m.value).count m.value :=
        hv.trans_eq (congrArg (Tally.count · m.value) hcast)
      simp only [receive, if_pos hsender, hkind]
      exact readySent_onReady hnow
  · intro v hv
    rw [delivered_receive]
    split
    · rfl
    · rename_i hnot
      rcases hreadies v with hsame | ⟨hsender, hkind, rfl, hcast⟩
      · have hbefore : 2 * c.faults < s.readies.count v := hv.trans_eq hsame
        exact hs.delivered_of_readies v hbefore
      · -- the vote is enough, so only an earlier delivery can have kept the value back
        have hnow : 2 * c.faults < (s.readies.cast sender m.value).count m.value :=
          hv.trans_eq (congrArg (Tally.count · m.value) hcast)
        by_contra hnone
        exact hnot ⟨hsender, hkind, hnow, by simpa using hnone⟩
  · intro v hv
    rw [delivered_receive] at hv
    split at hv
    · rename_i h
      obtain rfl : m.value = v := Option.some.inj hv
      have hcast := @tally_receive c broadcaster sender s m .ready
      rw [if_pos ⟨h.1, h.2.1, by decide⟩] at hcast
      exact h.2.2.1.trans_eq (congrArg (Tally.count · m.value) hcast).symm
    · have hbefore := hs.readies_of_delivered v hv
      exact hbefore.trans_le (count_le_count_receive .ready v)

end Quorum.Broadcast
