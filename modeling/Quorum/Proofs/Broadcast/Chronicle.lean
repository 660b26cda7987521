import Mathlib.Algebra.Order.Floor.Div
import Quorum.Proofs.Broadcast.Validity
import Quorum.Proofs.History

/-!
# Chronicle — what a node of a broadcast does, read off its calls

A node of a broadcast keeps tallies and flags.  What it does in a call is told without them, by the
list of its calls up to this one: which members have sent which messages, and whether some value has
got enough of them for the first time.  Who sends many values is a voter for each of them, and
who sends one value many times is one voter for it.

**Main statements.**  `Remembers`: what tallies and flags say about the calls; `remembers_receive`
and `remembers_input` keep it.  `obeys_receive`: what a message does.  `chronicle`.
-/

namespace Quorum

/-! ### What is true for the first time -/

section
variable {α β : Type} {p : List α → β → Prop} {calls : List α} {x : α} {v : β}

/-- What stays true of a value when there are more calls. -/
def Lasts (p : List α → β → Prop) : Prop :=
  ∀ ⦃earlier calls : List α⦄, earlier <+: calls → ∀ v, p earlier v → p calls v

/-- With these calls some value has property `p` for the first time, and `v` has it. -/
def First (p : List α → β → Prop) (calls : List α) (v : β) : Prop :=
  p calls v ∧ ∀ earlier, earlier <+: calls → earlier ≠ calls → ∀ w, ¬p earlier w

/-- The last call makes the difference. -/
theorem first_append (hlasts : Lasts p) :
    First p (calls ++ [x]) v ↔ p (calls ++ [x]) v ∧ ∀ w, ¬p calls w := by
  refine and_congr_right fun _ => ⟨fun h => h calls (List.prefix_append _ _) (by simp), ?_⟩
  intro h earlier hprefix hne w hw
  rcases List.prefix_concat_iff.mp hprefix with heq | hshort
  · exact hne heq
  · exact h w (hlasts hshort w hw)

theorem not_first_append (hlasts : Lasts p) (hsame : p (calls ++ [x]) v → p calls v) :
    ¬First p (calls ++ [x]) v := by
  rw [first_append hlasts]
  rintro ⟨hv, hnone⟩
  exact hnone v (hsame hv)

theorem exists_first_append : (∃ first, first <+: calls ++ [x] ∧ First p first v) ↔
    (∃ first, first <+: calls ∧ First p first v) ∨ First p (calls ++ [x]) v := by
  constructor
  · rintro ⟨first, hprefix, hfirst⟩
    rcases List.prefix_concat_iff.mp hprefix with rfl | hshort
    · exact .inr hfirst
    · exact .inl ⟨first, hshort, hfirst⟩
  · rintro (⟨first, hshort, hfirst⟩ | hfirst)
    · exact ⟨first, hshort.trans (List.prefix_append _ _), hfirst⟩
    · exact ⟨_, List.prefix_rfl, hfirst⟩

/-- Among given calls, the first ones are found by their number. -/
theorem first_take {k : Nat} (hk : k < calls.length) : First p (calls.take (k + 1)) v ↔
    p (calls.take (k + 1)) v ∧ ∀ n ≤ k, ∀ w, ¬p (calls.take n) w := by
  refine and_congr_right fun _ => ⟨?_, ?_⟩
  · intro h n hn
    refine h _ (List.take_prefix_take_left (by omega)) fun heq => ?_
    have hlength := congrArg List.length heq
    simp only [List.length_take] at hlength
    omega
  · intro h earlier hprefix hne w hw
    obtain ⟨hshort, hle⟩ := List.prefix_take_iff.mp hprefix
    have htake : earlier = calls.take earlier.length := List.prefix_iff_eq_take.mp hshort
    have hlt : earlier.length ≠ k + 1 := by
      intro hlength
      rw [hlength] at htake
      exact hne htake
    rw [htake] at hw
    exact h earlier.length (by omega) w hw

/-- What no value has before any call and some value has after all of them comes with one call. -/
theorem existsUnique_first (hnil : ∀ w, ¬p [] w) (h : ∃ w, p calls w) :
    ∃! k, k < calls.length ∧ ∃ w, First p (calls.take (k + 1)) w := by
  classical
  have hsome : ∃ n, ∃ w, p (calls.take n) w := ⟨calls.length, by rwa [List.take_length]⟩
  obtain ⟨w, hw⟩ := Nat.find_spec hsome
  have hleast : ∀ n < Nat.find hsome, ∀ w, ¬p (calls.take n) w := fun n hn w hw =>
    Nat.find_min hsome hn ⟨w, hw⟩
  have hle : Nat.find hsome ≤ calls.length := Nat.find_le (by rwa [List.take_length])
  -- the least number of calls with the property is not zero, so there is a last one among them
  cases hfind : Nat.find hsome with
  | zero =>
    rw [hfind] at hw
    exact absurd hw (hnil w)
  | succ k =>
    rw [hfind] at hw hleast hle
    refine ⟨k, ⟨hle, w, (first_take hle).mpr ⟨hw, fun n hn => hleast n (by omega)⟩⟩, ?_⟩
    rintro j ⟨hj, u, hfirst⟩
    obtain ⟨hu, hnone⟩ := (first_take hj).mp hfirst
    rcases Nat.lt_trichotomy j k with hlt | heq | hgt
    · exact absurd hu (hleast (j + 1) (by omega) u)
    · exact heq
    · exact absurd hw (hnone (k + 1) hgt w)

end

namespace Broadcast

variable {c : Committee} {broadcaster me sender : NodeId} {s : State} {m : Message} {k : Kind}
  {v w : Bytes} {calls past : List (Stimulus Bytes Message)}

/-! ### What the calls say -/

def inputs (calls : List (Stimulus Bytes Message)) : List Bytes :=
  calls.filterMap fun
    | .input v => some v
    | .message .. => none

/-- The members in whose name a message has come. -/
def senders (c : Committee) (calls : List (Stimulus Bytes Message)) (k : Kind) (v : Bytes) :
    Finset NodeId :=
  c.memberSet.filter fun id => .message id ⟨k, v⟩ ∈ calls

/-- The broadcaster, if it is a member, has told its value. -/
def Told (c : Committee) (broadcaster : NodeId) (calls : List (Stimulus Bytes Message))
    (v : Bytes) : Prop :=
  broadcaster ∈ senders c calls .initial v

/-- A value has enough echoes for a `ready`, or enough nodes are ready for it. -/
def Backed (c : Committee) (calls : List (Stimulus Bytes Message)) (v : Bytes) : Prop :=
  (c.size + c.faults + 1) ⌈/⌉ 2 ≤ (senders c calls .echo v).card ∨
    c.faults + 1 ≤ (senders c calls .ready v).card

/-- What a node waits for before it sends messages of a kind. -/
def Cause (c : Committee) (broadcaster : NodeId) :
    Kind → List (Stimulus Bytes Message) → Bytes → Prop
  | .initial => fun calls v => .input v ∈ calls
  | .echo => Told c broadcaster
  | .ready => Backed c

/-- Enough nodes are ready for a value to deliver it. -/
def Accepted (c : Committee) (calls : List (Stimulus Bytes Message)) (v : Bytes) : Prop :=
  2 * c.faults + 1 ≤ (senders c calls .ready v).card

theorem mem_inputs : v ∈ inputs calls ↔ .input v ∈ calls := by
  rw [inputs, List.mem_filterMap]
  constructor
  · rintro ⟨x, hx, heq⟩
    cases x with
    | input w =>
      cases heq
      exact hx
    | message => cases heq
  · intro h
    exact ⟨_, h, rfl⟩

@[simp] theorem mem_senders {id : NodeId} :
    id ∈ senders c calls k v ↔ id ∈ c ∧ .message id ⟨k, v⟩ ∈ calls := by
  rw [senders, Finset.mem_filter, Committee.mem_memberSet]

theorem senders_mono (h : past <+: calls) (k : Kind) (v : Bytes) :
    senders c past k v ⊆ senders c calls k v := by
  intro id hid
  rw [mem_senders] at hid ⊢
  exact ⟨hid.1, h.subset hid.2⟩

theorem lasts_cause : ∀ k, Lasts (Cause c broadcaster k)
  | .initial, _, _, hprefix, _, hv => hprefix.subset hv
  | .echo, _, _, hprefix, v, hv => senders_mono hprefix .initial v hv
  | .ready, _, _, hprefix, v, hv =>
    hv.imp (fun h => h.trans (Finset.card_le_card (senders_mono hprefix .echo v)))
      fun h => h.trans (Finset.card_le_card (senders_mono hprefix .ready v))

theorem lasts_accepted : Lasts (Accepted c) := fun _ _ hprefix v hv =>
  hv.trans (Finset.card_le_card (senders_mono hprefix .ready v))

theorem senders_nil : senders c [] k v = ∅ := by
  ext id
  simp

theorem senders_input : senders c (past ++ [.input w]) k v = senders c past k v := by
  ext id
  simp

theorem not_cause_nil : ∀ k v, ¬Cause c broadcaster k [] v
  | .initial, _ => List.not_mem_nil
  | .echo, v => by
    rw [Cause, Told, senders_nil]
    exact Finset.notMem_empty _
  | .ready, v => by
    rw [Cause, Backed, senders_nil, senders_nil, Finset.card_empty, Nat.ceilDiv_eq_add_pred_div]
    omega

theorem cause_input (hk : k ≠ .initial) :
    Cause c broadcaster k (past ++ [.input w]) v ↔ Cause c broadcaster k past v := by
  cases k with
  | initial => exact absurd rfl hk
  | echo => simp only [Cause, Told, senders_input]
  | ready => simp only [Cause, Backed, senders_input]

theorem not_accepted_nil : ¬Accepted c [] v := by
  rw [Accepted, senders_nil, Finset.card_empty]
  omega

/-! ### What goes out -/

/-- The message that goes to every member, if there is one. -/
def announced (out : List (Outgoing Message)) : Option Message := out.head?.map (·.body)

theorem Declares.copies {s' : State} {out : List (Outgoing Message)} (h : Declares c s s' out) :
    out = (announced out).elim [] fun m => toAll c m.kind m.value := by
  cases h with
  | nothing hsent => rw [hsent]; rfl
  | value k v hsent =>
    rw [hsent]
    rcases hmembers : c.members with _ | ⟨id, rest⟩
    · simp [toAll, hmembers, announced]
    · simp [toAll, hmembers, announced]

theorem Declares.announced_eq {s' : State} {out : List (Outgoing Message)}
    (h : Declares c s s' out) : announced out = some m ↔ ∃ o ∈ out, o.body = m := by
  constructor
  · intro hm
    obtain ⟨o, ho, hbody⟩ := Option.map_eq_some_iff.mp hm
    exact ⟨o, List.mem_of_head? ho, hbody⟩
  · rintro ⟨o, ho, rfl⟩
    obtain ⟨first, rest, rfl⟩ := List.exists_cons_of_ne_nil (List.ne_nil_of_mem ho)
    exact congrArg some ((h.of_mem ho).2.2 first List.mem_cons_self)

theorem receive_of_not_mem (h : sender ∉ c) :
    receive c broadcaster s sender m = { state := s } := if_neg h

/-- A node that becomes ready, or echoes, by a message says so. -/
theorem exists_sent_of_declared (hbefore : s.declared k = false)
    (hafter : (receive c broadcaster s sender m).state.declared k = true) :
    ∃ o ∈ (receive c broadcaster s sender m).sent, o.body.kind = k := by
  have hsender : sender ∈ c := by
    by_contra hout
    rw [receive_of_not_mem hout, hbefore] at hafter
    cases hafter
  have hdeclares : Declares c s (receive c broadcaster s sender m).state
      (receive c broadcaster s sender m).sent := declares_receive
  rcases hdeclares with ⟨-, hsame⟩ | ⟨k', v, hsent, -, -, hother⟩
  · rw [hsame, hbefore] at hafter
    cases hafter
  · obtain rfl : k = k' := by
      by_contra hne
      rw [hother k hne, hbefore] at hafter
      cases hafter
    rw [hsent]
    exact ⟨⟨sender, ⟨k, v⟩⟩, mem_toAll.mpr ⟨hsender, rfl⟩, rfl⟩

/-! ### What a node remembers -/

/-- The tallies are the votes among the calls. -/
structure Counts (c : Committee) (calls : List (Stimulus Bytes Message)) (s : State) : Prop where
  settled : Settled c s
  votes : ∀ k, k ≠ .initial → ∀ id v, (id, v) ∈ (s.tally k).votes ↔ id ∈ senders c calls k v

theorem Counts.count (h : Counts c calls s) (hk : k ≠ .initial) (v : Bytes) :
    (s.tally k).count v = (senders c calls k v).card := by
  rw [← Tally.card_voters (h.settled.nodup k)]
  congr 1
  ext id
  rw [Tally.mem_voters, h.votes k hk]

theorem Counts.backs (h : Counts c calls s) (v : Bytes) : s.Backs c v ↔ Backed c calls v := by
  have hechoes := h.count (k := .echo) (by decide) v
  have hreadies := h.count (k := .ready) (by decide) v
  rw [State.Backs, Backed, Nat.ceilDiv_eq_add_pred_div, ← hechoes, ← hreadies]
  exact Iff.rfl

theorem Counts.accepts (h : Counts c calls s) (v : Bytes) :
    2 * c.faults < s.readies.count v ↔ Accepted c calls v := by
  rw [Accepted, ← h.count (k := .ready) (by decide) v]
  exact Iff.rfl

theorem counts_start : Counts c [] {} where
  settled := settled_start
  votes k _ id v := by
    rw [senders_nil]
    cases k <;> simp [State.tally]

theorem counts_input {r : Reaction State Message} (h : Counts c past s)
    (hr : input c broadcaster me s v = .ok r) : Counts c (past ++ [.input v]) r.state where
  settled := settled_input h.settled hr
  votes k hk id w := by
    obtain ⟨-, -, hstate, -⟩ := input_eq_ok hr
    rw [senders_input, ← h.votes k hk, hstate]
    cases k <;> rfl

theorem counts_receive (h : Counts c past s) :
    Counts c (past ++ [.message sender m]) (receive c broadcaster s sender m).state where
  settled := settled_receive h.settled
  votes k hk id v := by
    rw [mem_votes_receive, h.votes k hk]
    simp only [mem_senders, List.mem_append, List.mem_singleton, Stimulus.message.injEq,
      Prod.mk.injEq]
    obtain ⟨kind, value⟩ := m
    simp only [Message.mk.injEq]
    constructor
    · rintro (⟨hid, hcall⟩ | ⟨hsender, rfl, -, rfl, rfl⟩)
      · exact ⟨hid, .inl hcall⟩
      · exact ⟨hsender, .inr ⟨rfl, rfl, rfl⟩⟩
    · rintro ⟨hid, hcall | ⟨rfl, rfl, rfl⟩⟩
      · exact .inl ⟨hid, hcall⟩
      · exact .inr ⟨hid, rfl, hk, rfl, rfl⟩

/-- What flags, tallies and output say about the calls. -/
structure Remembers (c : Committee) (broadcaster : NodeId)
    (calls : List (Stimulus Bytes Message)) (s : State) : Prop extends Counts c calls s where
  declared : ∀ k, s.declared k = true ↔ ∃ v, Cause c broadcaster k calls v
  delivered : ∀ v, s.delivered = some v ↔
    ∃ first, first <+: calls ∧ First (Accepted c) first v

theorem Remembers.silent (h : Remembers c broadcaster calls s) :
    s.declared k = false ↔ ∀ v, ¬Cause c broadcaster k calls v := by
  rw [← Bool.not_eq_true, h.declared k, not_exists]

theorem Remembers.delivered_eq_none (h : Remembers c broadcaster calls s) :
    s.delivered = none ↔ ∀ v, ¬Accepted c calls v := by
  constructor
  · intro hnone v hv
    have hsome := h.settled.delivered_of_readies v ((h.accepts v).mpr hv)
    rw [hnone] at hsome
    cases hsome
  · intro hnot
    rw [Option.eq_none_iff_forall_ne_some]
    intro v hv
    exact hnot v ((h.accepts v).mp (h.settled.readies_of_delivered v hv))

theorem remembers_start : Remembers c broadcaster [] {} where
  toCounts := counts_start
  declared k := by
    simp only [not_cause_nil, exists_false, iff_false]
    cases k <;> decide
  delivered v := by
    constructor
    · intro h
      cases h
    · rintro ⟨first, hprefix, hfirst, -⟩
      rw [List.prefix_nil.mp hprefix] at hfirst
      exact absurd hfirst not_accepted_nil

/-- An input makes the broadcaster declare its value, and nothing else. -/
theorem remembers_input {r : Reaction State Message} (h : Remembers c broadcaster past s)
    (hr : input c broadcaster me s v = .ok r) :
    Remembers c broadcaster (past ++ [.input v]) r.state := by
  have hcounts := counts_input h.toCounts hr
  obtain ⟨-, -, hstate, -⟩ := input_eq_ok hr
  rw [hstate] at hcounts ⊢
  refine { toCounts := hcounts, declared := fun k => ?_, delivered := fun w => ?_ }
  · cases k with
    | initial => exact ⟨fun _ => ⟨v, List.mem_append_right _ List.mem_cons_self⟩, fun _ => rfl⟩
    | echo =>
      simp only [cause_input (k := .echo) (by decide)]
      exact h.declared .echo
    | ready =>
      simp only [cause_input (k := .ready) (by decide)]
      exact h.declared .ready
  · have hnot : ¬First (Accepted c) (past ++ [.input v]) w :=
      not_first_append lasts_accepted (by simp only [Accepted, senders_input]; exact id)
    rw [exists_first_append, or_iff_left hnot]
    exact h.delivered w

/-! ### A message -/

section
variable (h : Remembers c broadcaster past s)
include h

theorem Remembers.counts_after (sender : NodeId) (m : Message) :
    Counts c (past ++ [.message sender m]) (receive c broadcaster s sender m).state :=
  counts_receive h.toCounts

/-- **What goes out has its cause.** -/
theorem Remembers.cause_of_mem {o : Outgoing Message}
    (ho : o ∈ (receive c broadcaster s sender m).sent) :
    Cause c broadcaster o.body.kind (past ++ [.message sender m]) o.body.value := by
  rcases cause_of_sent ho with ⟨hkind, rfl, rfl⟩ | hkind
  · have hsender : sender ∈ c := by
      by_contra hout
      rw [receive_of_not_mem hout] at ho
      cases ho
    rw [hkind]
    exact mem_senders.mpr ⟨hsender, List.mem_append_right _ List.mem_cons_self⟩
  · rw [hkind]
    exact ((h.counts_after sender m).backs _).mp (ready_backed ho hkind)

/-- A message is a cause for its own value only. -/
theorem Remembers.value_of_cause (hnow : Cause c broadcaster k (past ++ [.message sender m]) v)
    (hpast : ¬Cause c broadcaster k past v) : m.value = v := by
  cases k with
  | initial =>
    rcases List.mem_append.mp hnow with hold | hnew
    · exact absurd hold hpast
    · cases List.mem_singleton.mp hnew
  | echo =>
    obtain ⟨hb, hcall⟩ := mem_senders.mp hnow
    rcases List.mem_append.mp hcall with hold | hnew
    · exact absurd (mem_senders.mpr ⟨hb, hold⟩) hpast
    · cases List.mem_singleton.mp hnew
      rfl
  | ready =>
    have hcounts := h.counts_after sender m
    have hafter := (hcounts.backs v).mpr hnow
    have hbefore := mt (h.backs v).mp hpast
    by_contra hne
    rcases @count_receive_cases c broadcaster sender s m .echo v with hechoes | ⟨-, -, heq, -⟩
    · rcases @count_receive_cases c broadcaster sender s m .ready v with hreadies | ⟨-, -, heq, -⟩
      · exact hbefore (hafter.imp (fun h => h.trans_eq hechoes) fun h => h.trans_eq hreadies)
      · exact hne heq
    · exact hne heq

/-- **A cause has its effect.** -/
theorem Remembers.declared_of_cause
    (hnow : Cause c broadcaster k (past ++ [.message sender m]) v) :
    (receive c broadcaster s sender m).state.declared k = true := by
  have hlasting : Cause c broadcaster k past v →
      (receive c broadcaster s sender m).state.declared k = true := fun hpast =>
    (declares_receive (c := c) (s := s)).mono ((h.declared k).mpr ⟨v, hpast⟩)
  cases k with
  | initial =>
    rcases List.mem_append.mp hnow with hold | hnew
    · exact hlasting hold
    · cases List.mem_singleton.mp hnew
  | echo =>
    obtain ⟨hb, hcall⟩ := mem_senders.mp hnow
    rcases List.mem_append.mp hcall with hold | hnew
    · exact hlasting (mem_senders.mpr ⟨hb, hold⟩)
    · cases List.mem_singleton.mp hnew
      exact echoSent_of_initial s v hb
  | ready =>
    have hcounts := h.counts_after sender m
    rcases (hcounts.backs v).mpr hnow with hechoes | hreadies
    · exact hcounts.settled.ready_of_echoes v hechoes
    · exact hcounts.settled.ready_of_readies v hreadies

/-- **A message is sent to all in the call in which its cause comes up.** -/
theorem Remembers.announced_iff :
    announced (receive c broadcaster s sender m).sent = some ⟨k, v⟩ ↔
      First (Cause c broadcaster k) (past ++ [.message sender m]) v := by
  rw [declares_receive.announced_eq, first_append (lasts_cause k), ← h.silent]
  constructor
  · rintro ⟨o, ho, hbody⟩
    have hcause := h.cause_of_mem ho
    have hnew := (declares_receive.of_mem ho).1
    rw [hbody] at hcause hnew
    exact ⟨hcause, hnew⟩
  · rintro ⟨hnow, hnew⟩
    obtain ⟨o, ho, rfl⟩ := exists_sent_of_declared hnew (h.declared_of_cause hnow)
    have hnone := h.silent.mp hnew
    refine ⟨o, ho, congrArg (Message.mk o.body.kind) ?_⟩
    rw [← h.value_of_cause (h.cause_of_mem ho) (hnone _), h.value_of_cause hnow (hnone v)]

/-- The last ready that a value needs delivers it, if nothing is delivered yet. -/
theorem Remembers.delivered_receive_iff :
    (receive c broadcaster s sender m).state.delivered = some v ↔
      s.delivered = some v ∨ First (Accepted c) (past ++ [.message sender m]) v := by
  have hcounts := h.counts_after sender m
  rw [first_append lasts_accepted, ← h.delivered_eq_none, ← hcounts.accepts]
  cases hbefore : s.delivered with
  | some u =>
    rw [delivered_receive_of_some hbefore]
    simp
  | none =>
    simp only [reduceCtorEq, false_or, and_true]
    refine ⟨hcounts.settled.readies_of_delivered v, fun henough => ?_⟩
    rcases @count_receive_cases c broadcaster sender s m .ready v with
      hsame | ⟨hsender, hkind, rfl, hcast⟩
    · have hearlier := h.settled.delivered_of_readies v (henough.trans_eq hsame)
      rw [hbefore] at hearlier
      cases hearlier
    · have hvote : 2 * c.faults < (s.readies.cast sender m.value).count m.value :=
        henough.trans_eq (congrArg (Tally.count · m.value) hcast)
      rw [delivered_receive, if_pos ⟨hsender, hkind, hvote, hbefore⟩]

theorem remembers_receive : Remembers c broadcaster (past ++ [.message sender m])
    (receive c broadcaster s sender m).state where
  toCounts := h.counts_after sender m
  declared k := by
    constructor
    · intro hafter
      cases hbefore : s.declared k with
      | true =>
        obtain ⟨v, hv⟩ := (h.declared k).mp hbefore
        exact ⟨v, lasts_cause k (List.prefix_append _ _) v hv⟩
      | false =>
        obtain ⟨o, ho, rfl⟩ := exists_sent_of_declared hbefore hafter
        exact ⟨o.body.value, h.cause_of_mem ho⟩
    · rintro ⟨v, hv⟩
      exact h.declared_of_cause hv
  delivered v := by
    rw [h.delivered_receive_iff, exists_first_append, h.delivered]

/-- **A message that has come before does nothing.** -/
theorem Remembers.receive_of_mem (hm : .message sender m ∈ past) :
    receive c broadcaster s sender m = { state := s } := by
  by_cases hsender : sender ∈ c
  · have hvote : m.kind ≠ .initial → (sender, m.value) ∈ (s.tally m.kind).votes := fun hk =>
      (h.votes m.kind hk sender m.value).mpr (mem_senders.mpr ⟨hsender, hm⟩)
    obtain ⟨kind, v⟩ := m
    rw [receive, if_pos hsender]
    cases kind with
    | initial =>
      refine if_pos (or_iff_not_imp_left.mpr fun heq => (h.declared .echo).mpr ⟨v, ?_⟩)
      rw [not_not.mp heq] at hm hsender
      exact mem_senders.mpr ⟨hsender, hm⟩
    | echo =>
      have hcast : s.echoes.cast sender v = s.echoes := Tally.cast_of_mem (hvote (by simp))
      simp only [onEcho, hcast]
      split
      · rename_i henough
        exact if_pos (h.settled.ready_of_echoes v henough)
      · rfl
    | ready =>
      have hcast : s.readies.cast sender v = s.readies := Tally.cast_of_mem (hvote (by simp))
      have hquiet : (if c.faults < s.readies.count v then sendReady c s v else { state := s }) =
          { state := s } := by
        split
        · rename_i henough
          exact if_pos (h.settled.ready_of_readies v henough)
        · rfl
      have hdelivered : ¬(2 * c.faults < s.readies.count v ∧ s.delivered.isNone) := by
        rintro ⟨henough, hnone⟩
        have hsome := h.settled.delivered_of_readies v henough
        rw [Option.isNone_iff_eq_none.mp hnone] at hsome
        cases hsome
      simp only [onReady, hcast, hquiet, deliver, if_neg hdelivered]
  · exact receive_of_not_mem hsender

end

/-! ### A history -/

/-- What a node does in a call, told by the calls before it and this one. -/
structure Obeys (c : Committee) (broadcaster : NodeId) (past : List (Stimulus Bytes Message))
    (s : State) (x : Stimulus Bytes Message) (r : Reaction State Message) : Prop where
  /-- One copy for every entry of the list of members, in its order, or nothing. -/
  copies : r.sent = (announced r.sent).elim [] fun m => toAll c m.kind m.value
  input : ∀ v, x = .input v → r.sent = toAll c .initial v
  /-- An echo goes out for the first `initial` message of the broadcaster. -/
  echo : ∀ v, announced r.sent = some ⟨.echo, v⟩ ↔ First (Told c broadcaster) (past ++ [x]) v
  /-- A `ready` goes out for the first value that has enough votes. -/
  ready : ∀ v, announced r.sent = some ⟨.ready, v⟩ ↔ First (Backed c) (past ++ [x]) v
  /-- The output is the first value that enough nodes are ready for. -/
  output : ∀ v, (Protocol.broadcast c broadcaster).output r.state = some v ↔
    ∃ first, first <+: past ++ [x] ∧ First (Accepted c) first v
  /-- A stranger's message and a repeated one change nothing and send nothing. -/
  silent : ∀ sender m, x = .message sender m → sender ∉ c ∨ x ∈ past → r = { state := s }

theorem Obeys.announced_iff {x : Stimulus Bytes Message} {r : Reaction State Message}
    (h : Obeys c broadcaster past s x r) (hk : k ≠ .initial) :
    announced r.sent = some ⟨k, v⟩ ↔ First (Cause c broadcaster k) (past ++ [x]) v := by
  cases k with
  | initial => exact absurd rfl hk
  | echo => exact h.echo v
  | ready => exact h.ready v

theorem obeys_receive (h : Remembers c broadcaster past s) :
    Obeys c broadcaster past s (.message sender m) (receive c broadcaster s sender m) where
  copies := declares_receive.copies
  input _ hv := by cases hv
  echo _ := h.announced_iff
  ready _ := h.announced_iff
  output v := (remembers_receive h).delivered v
  silent id m' heq := by
    cases heq
    rintro (hout | hrepeated)
    · exact receive_of_not_mem hout
    · exact h.receive_of_mem hrepeated

theorem obeys_input {r : Reaction State Message} (h : Remembers c broadcaster past s)
    (hr : input c broadcaster me s v = .ok r) :
    Obeys c broadcaster past s (.input v) r := by
  have hnothing : ∀ k w, k ≠ .initial → (announced r.sent = some ⟨k, w⟩ ↔
      First (Cause c broadcaster k) (past ++ [.input v]) w) := by
    intro k w hk
    have hnot : ¬First (Cause c broadcaster k) (past ++ [.input v]) w :=
      not_first_append (lasts_cause k) (cause_input hk).mp
    rw [iff_false_right hnot, (declares_input hr).announced_eq]
    rintro ⟨o, ho, hbody⟩
    rw [(input_eq_ok hr).2.2.2] at ho
    rw [kind_of_mem_toAll ho, Message.mk.injEq] at hbody
    exact hk hbody.1.symm
  exact
    { copies := (declares_input hr).copies
      input := fun w hw => by
        cases hw
        exact (input_eq_ok hr).2.2.2
      echo := fun w => hnothing .echo w (by decide)
      ready := fun w => hnothing .ready w (by decide)
      output := (remembers_input h hr).delivered
      silent := fun _ _ hm => by cases hm }

section
variable {log : List (Occurrence (Protocol.broadcast c broadcaster))}

def callsOf (log : List (Occurrence (Protocol.broadcast c broadcaster))) :
    List (Stimulus Bytes Message) :=
  log.map (·.stimulus)

theorem callsOf_append (s : State) (x : Stimulus Bytes Message) (r : Reaction State Message) :
    callsOf (log ++ [⟨s, x, r⟩]) = callsOf log ++ [x] := List.map_append

theorem callsOf_take (n : Nat) : callsOf (log.take n) = (callsOf log).take n := List.map_take

theorem take_callsOf {n : Nat} {x : Stimulus Bytes Message} {r : Reaction State Message}
    (hx : log[n]? = some ⟨s, x, r⟩) :
    (callsOf log).take (n + 1) = (callsOf log).take n ++ [x] := by
  rw [← callsOf_take, ← callsOf_take, List.take_add_one, hx]
  exact callsOf_append s x r

/-- A message goes to everybody in a call of the log. -/
def AnnouncedIn (log : List (Occurrence (Protocol.broadcast c broadcaster))) (n : Nat)
    (m : Message) : Prop :=
  ∃ x, log[n]? = some x ∧ announced x.reaction.sent = some m

theorem remembers_of_history (h : History (Protocol.broadcast c broadcaster) me log s) :
    Remembers c broadcaster (callsOf log) s := by
  induction h with
  | start h =>
    cases h
    exact remembers_start
  | @next log s x r _ hr ih =>
    refine (congrArg (Remembers c broadcaster · r.state) (callsOf_append s x r)).mpr ?_
    cases x with
    | input v => exact remembers_input ih (input_of_protocol hr)
    | message sender m =>
      cases hr
      exact remembers_receive ih

/-- In a history every call does what the calls before it and this one tell. -/
theorem obeys_of_history (h : History (Protocol.broadcast c broadcaster) me log s) {n : Nat}
    {x : Occurrence (Protocol.broadcast c broadcaster)} (hx : log[n]? = some x) :
    Obeys c broadcaster ((callsOf log).take n) x.before x.stimulus x.reaction := by
  obtain ⟨hbefore, hreact, -⟩ := h.nth hx
  have hremembers := remembers_of_history hbefore
  rw [callsOf_take] at hremembers
  obtain ⟨before, stimulus, reaction⟩ := x
  cases stimulus with
  | input v => exact obeys_input hremembers (input_of_protocol hreact)
  | message sender m =>
    have hreaction : receive c broadcaster before sender m = reaction := Except.ok.inj hreact
    rw [← hreaction]
    exact obeys_receive hremembers

theorem output_of_history (h : History (Protocol.broadcast c broadcaster) me log s)
    {x : Occurrence (Protocol.broadcast c broadcaster)} (hx : x ∈ log)
    (hv : (Protocol.broadcast c broadcaster).output x.reaction.state = some v) :
    (Protocol.broadcast c broadcaster).output s = some v := by
  refine h.lasting (Q := fun s => (Protocol.broadcast c broadcaster).output s = some v) ?_ hx hv
  intro s y r hr hs
  cases y with
  | input w =>
    obtain ⟨-, -, hstate, -⟩ := input_eq_ok (input_of_protocol hr)
    rw [hstate]
    exact hs
  | message sender m =>
    cases hr
    exact delivered_receive_of_some hs

/-- What there is a cause for goes out in one call of the history, and in no other. -/
theorem announced_once (h : History (Protocol.broadcast c broadcaster) me log s)
    (hk : k ≠ .initial) (hcause : ∃ v, Cause c broadcaster k (callsOf log) v) :
    ∃! n, ∃ v, AnnouncedIn log n ⟨k, v⟩ := by
  refine (existsUnique_congr fun n => ?_).mpr
    (existsUnique_first (not_cause_nil (c := c) k) hcause)
  have hlength : (callsOf log).length = log.length := List.length_map ..
  constructor
  · rintro ⟨v, x, hx, hsent⟩
    refine ⟨?_, v, ?_⟩
    · rw [hlength]
      exact (List.getElem?_eq_some_iff.mp hx).1
    · rw [take_callsOf hx]
      exact ((obeys_of_history h hx).announced_iff hk).mp hsent
  · rintro ⟨hlt, v, hfirst⟩
    rw [hlength] at hlt
    have hx := List.getElem?_eq_getElem hlt
    rw [take_callsOf hx] at hfirst
    exact ⟨v, log[n], hx, ((obeys_of_history h hx).announced_iff hk).mpr hfirst⟩

/-- No message makes a node fail, nor does the only input of the broadcaster. -/
theorem exists_history (hme : inputs calls ≠ [] → me = broadcaster)
    (honce : (inputs calls).length ≤ 1) :
    ∃ log s, History (Protocol.broadcast c broadcaster) me log s ∧ callsOf log = calls := by
  induction calls using List.reverseRecOn with
  | nil => exact ⟨[], _, .start rfl, rfl⟩
  | append_singleton past x ih =>
    have hsplit : inputs (past ++ [x]) = inputs past ++ inputs [x] := List.filterMap_append
    rw [hsplit] at hme honce
    rw [List.length_append] at honce
    obtain ⟨log, s, h, rfl⟩ := ih (fun hne => hme (by simp [hne])) (by omega)
    cases x with
    | input v =>
      obtain rfl : me = broadcaster := hme (by simp [inputs])
      have hone : (inputs [.input v]).length = 1 := rfl
      have hnone : inputs (callsOf log) = [] := List.eq_nil_of_length_eq_zero (by omega)
      have hgiven : State.declared s .initial = false := by
        rw [(remembers_of_history h).silent]
        intro w hw
        rw [Cause, ← mem_inputs, hnone] at hw
        cases hw
      obtain ⟨r, hr⟩ := input_ok hgiven v
      have hreact : (Protocol.broadcast c me).react me s (.input v) = .ok r :=
        congrArg (Except.mapError _) hr
      exact ⟨_, _, h.next hreact, callsOf_append _ _ _⟩
    | message sender m =>
      exact ⟨_, _, h.next (x := .message sender m) rfl, callsOf_append _ _ _⟩

/-- **What a node of a broadcast does is told by its calls.**  Whatever messages a node gets, and if
it is the broadcaster at most one input, no call fails.  In each call the node does what the calls
up to it tell: an echo, a `ready` and the output come with the first calls that are a cause for
them.  There is one call with an echo if the broadcaster has told a value, one with a `ready` if
some value has ever had enough votes, and the output never changes. -/
theorem chronicle (hme : inputs calls ≠ [] → me = broadcaster)
    (honce : (inputs calls).length ≤ 1) :
    ∃ log s, History (Protocol.broadcast c broadcaster) me log s ∧ callsOf log = calls ∧
      (∀ n x, log[n]? = some x →
        Obeys c broadcaster (calls.take n) x.before x.stimulus x.reaction ∧
        ∀ v, (Protocol.broadcast c broadcaster).output x.reaction.state = some v →
          (Protocol.broadcast c broadcaster).output s = some v) ∧
      ((∃ v, Told c broadcaster calls v) →
        ∃! n, ∃ v, AnnouncedIn log n ⟨.echo, v⟩) ∧
      ((∃ v, Backed c calls v) →
        ∃! n, ∃ v, AnnouncedIn log n ⟨.ready, v⟩) := by
  obtain ⟨log, s, h, rfl⟩ := exists_history (c := c) hme honce
  refine ⟨log, s, h, rfl, ?_, announced_once h (k := .echo) (by decide),
    announced_once h (k := .ready) (by decide)⟩
  intro n x hx
  exact ⟨obeys_of_history h hx, fun v hv => output_of_history h (List.mem_of_getElem? hx) hv⟩

/-- The broadcaster tells one value and two others make it ready for another one; there are a
stranger, a voter for both values and a vote that comes twice. -/
def dispute : List (Stimulus Bytes Message) :=
  [.message ⟨9⟩ ⟨.echo, [7]⟩, .input [7], .message ⟨1⟩ ⟨.echo, [7]⟩, .message ⟨0⟩ ⟨.initial, [7]⟩,
    .message ⟨1⟩ ⟨.echo, [8]⟩, .message ⟨2⟩ ⟨.ready, [8]⟩, .message ⟨2⟩ ⟨.ready, [8]⟩,
    .message ⟨0⟩ ⟨.initial, [8]⟩, .message ⟨3⟩ ⟨.ready, [8]⟩, .message ⟨1⟩ ⟨.ready, [8]⟩]

theorem chronicle_of_dispute :
    (inputs dispute ≠ [] → (⟨0⟩ : NodeId) = ⟨0⟩) ∧ (inputs dispute).length ≤ 1 ∧
    ∃ log s, History (Protocol.broadcast four ⟨0⟩) ⟨0⟩ log s ∧ callsOf log = dispute ∧
      (∀ n x, log[n]? = some x →
        Obeys four ⟨0⟩ (dispute.take n) x.before x.stimulus x.reaction ∧
        ∀ v, (Protocol.broadcast four ⟨0⟩).output x.reaction.state = some v →
          (Protocol.broadcast four ⟨0⟩).output s = some v) ∧
      (∃! n, ∃ v, AnnouncedIn log n ⟨.echo, v⟩) ∧ ∃! n, ∃ v, AnnouncedIn log n ⟨.ready, v⟩ := by
  have honce : (inputs dispute).length ≤ 1 := by decide
  have htold : Told four ⟨0⟩ dispute [7] := mem_senders.mpr ⟨by decide, by decide⟩
  have hbacked : Backed four dispute [8] := .inr (by decide +kernel)
  obtain ⟨log, s, h, hcalls, hobeys, hecho, hready⟩ :=
    chronicle (c := four) (fun _ => rfl : inputs dispute ≠ [] → (⟨0⟩ : NodeId) = ⟨0⟩) honce
  exact ⟨fun _ => rfl, honce, log, s, h, hcalls, hobeys, hecho ⟨_, htold⟩, hready ⟨_, hbacked⟩⟩

end

end Broadcast

end Quorum
