import Quorum.PingPong
import Quorum.Proofs.Reliable.Register
import Quorum.Proofs.Run
import Quorum.Proofs.Wire.Reader

/-!
# Life — all the calls of a node, from its start

A node with reliable channels is called again and again: with inputs, with messages of any content
in the name of anybody, and to dismiss peers.  The log of its life has every call, and what the
node sent.  An `Account` of what it sent to one peer lists the batches that have got a number, in
order; every call adds to it, and nothing else with a number is ever sent.

**Main statements.**  `Account.grows` and `Account.calls`: what one call, and any number of them,
add to the account.  `numbering_of_life`: numbers are consecutive from the handshake on, a number
stands for one batch, and it is not used again once it is acknowledged.  `conservation_of_life`:
what the nested automaton sends is in the batches, or waits, in the order in which it was sent.
-/

namespace Quorum.Reliable

open SortedMap Link

/-- One call in the life of a node: the state before it, and what came of it. -/
structure Episode (P : Protocol) where
  before : State P
  call : Call P
  reaction : Reaction (State P) (Message P.Msg)

section
variable {P : Protocol} {period : Time} {me p : NodeId} {s s' : State P}
  {log earlier later : List (Episode P)} {x : Episode P} {base : Nat} {bs : List (Batch P.Msg)}

/-- `Calls period me s log s'`: the calls of the log, the first one first, take a node from `s` to
`s'`, and none of them fails. -/
inductive Calls (period : Time) (me : NodeId) (s : State P) :
    List (Episode P) → State P → Prop where
  | nil : Calls period me s [] s
  | snoc {log : List (Episode P)} {s' : State P} {c : Call P}
      {r : Reaction (State P) (Message P.Msg)} (h : Calls period me s log s')
      (hcall : call period me s' c = .ok r) : Calls period me s (log ++ [⟨s', c, r⟩]) r.state

/-- `Life period me log s`: the calls of the log have taken a node from its start to `s`. -/
def Life (period : Time) (me : NodeId) (log : List (Episode P)) (s : State P) : Prop :=
  ∃ first, (P.reliable period).start me = .ok first ∧ Calls period me first log s

def sentTo (q : NodeId) (log : List (Episode P)) : List (Message P.Msg) :=
  log.flatMap fun x => addressedTo q x.reaction.sent

theorem sentTo_append (q : NodeId) (log log' : List (Episode P)) :
    sentTo q (log ++ log') = sentTo q log ++ sentTo q log' :=
  List.flatMap_append

theorem sentTo_singleton (q : NodeId) (x : Episode P) :
    sentTo q [x] = addressedTo q x.reaction.sent :=
  List.flatMap_singleton _ _

/-- A log can be looked at from any of its calls. -/
theorem Calls.split (h : Calls period me s (earlier ++ x :: later) s') :
    Calls period me s earlier x.before ∧ call period me x.before x.call = .ok x.reaction ∧
      Calls period me x.reaction.state later s' := by
  generalize hlog : earlier ++ x :: later = log at h
  induction h generalizing later with
  | nil => exact absurd hlog (List.append_ne_nil_of_right_ne_nil _ (List.cons_ne_nil _ _))
  | snoc h hcall ih =>
    rcases List.eq_nil_or_concat later with rfl | ⟨later, y, rfl⟩
    · obtain ⟨rfl, hx⟩ := List.append_inj' hlog rfl
      cases hx
      exact ⟨h, hcall, .nil⟩
    · rw [List.concat_eq_append, ← List.cons_append, ← List.append_assoc] at hlog
      obtain ⟨hinit, hy⟩ := List.append_inj' hlog rfl
      cases hy
      obtain ⟨hearlier, hx, hlater⟩ := ih hinit
      rw [List.concat_eq_append]
      exact ⟨hearlier, hx, hlater.snoc hcall⟩

theorem Calls.cons {c : Call P} {r : Reaction (State P) (Message P.Msg)}
    (hcall : call period me s c = .ok r) (h : Calls period me r.state log s') :
    Calls period me s (⟨s, c, r⟩ :: log) s' := by
  induction h with
  | nil => exact Calls.nil.snoc hcall
  | snoc _ hlast ih => exact ih.snoc hlast

/-- The log of a list of calls, if none of them fails, and the state after them. -/
def logOf (period : Time) (me : NodeId) (s : State P) :
    List (Call P) → Option (List (Episode P) × State P)
  | [] => some ([], s)
  | c :: cs => do
    let r ← (call period me s c).toOption
    let (log, s') ← logOf period me r.state cs
    return (⟨s, c, r⟩ :: log, s')

theorem calls_of_logOf {cs : List (Call P)} (h : logOf period me s cs = some (log, s')) :
    Calls period me s log s' := by
  induction cs generalizing s log with
  | nil =>
    cases h
    exact .nil
  | cons c cs ih =>
    obtain ⟨r, hr, h⟩ := Option.bind_eq_some_iff.mp h
    obtain ⟨⟨rest, last⟩, hrest, h⟩ := Option.bind_eq_some_iff.mp h
    cases h
    exact (ih hrest).cons (Mesh.eq_ok_of_toOption hr)

theorem Life.exists {cs : List (Call P)} {test : List (Episode P) → State P → Bool}
    (h : (((P.reliable period).start me).toOption.bind (logOf period me · cs)).any
      (fun x => test x.1 x.2) = true) :
    ∃ log s, Life period me log s ∧ test log s = true := by
  obtain ⟨⟨log, s⟩, hlog, htest⟩ := (Option.any_eq_true _ _).mp h
  obtain ⟨first, hfirst, hlog⟩ := Option.bind_eq_some_iff.mp hlog
  exact ⟨log, s, ⟨first, Mesh.eq_ok_of_toOption hfirst, calls_of_logOf hlog⟩, htest⟩

/-! ### Accounts -/

/-- What a node has sent to the peer `p`: with a number, the batches `bs`, their numbers counted
from `base`. -/
structure Account (log : List (Episode P)) (s : State P) (p : NodeId) (base : Nat)
    (bs : List (Batch P.Msg)) : Prop where
  consecutive : Consecutive base bs
  sized : ∀ b ∈ bs, b.WellSized
  sent : ∀ b, b ∈ numbered (sentTo p log) ↔ b ∈ bs
  /-- They were sent in this order for the first time. -/
  firsts : (numbers (sentTo p log)).eraseDups = bs.filterMap (·.id)
  register : p ∉ s.dismissed → Register base bs (s.link p)
  gone : p ∈ s.dismissed → s.link p = {}

theorem Account.mem_numbers (hacc : Account log s p base bs) {i : BatchId} :
    i ∈ numbers (sentTo p log) ↔ ∃ b ∈ bs, b.id = some i := by
  rw [numbers_eq, List.mem_filterMap]
  exact exists_congr fun b => and_congr_left fun _ => hacc.sent b

theorem Account.mem_of_kept (hacc : Account log s p base bs) {i : BatchId} {kept : Unacked P.Msg}
    (hkept : (s.link p).unacked.get? i = some kept) :
    kept.batch ∈ bs ∧ kept.batch.id = some i := by
  have hstays : p ∉ s.dismissed := fun hgone => by
    rw [hacc.gone hgone] at hkept
    cases hkept
  exact (hacc.register hstays).kept i kept hkept

theorem eraseDups_of_nodup {α : Type} [BEq α] [LawfulBEq α] {l : List α} (h : l.Nodup) :
    l.eraseDups = l := by
  induction l with
  | nil => rfl
  | cons a l ih =>
    obtain ⟨ha, hl⟩ := List.nodup_cons.mp h
    have hfilter : l.filter (fun b => !b == a) = l := by
      refine List.filter_eq_self.mpr fun b hb => ?_
      rw [Bool.not_eq_true', beq_eq_false_iff_ne]
      rintro rfl
      exact ha hb
    rw [List.eraseDups_cons, hfilter, ih hl]

theorem Consecutive.nodup_ids {μ : Type} {base : Nat} {bs : List (Batch μ)}
    (h : Consecutive base bs) : (bs.filterMap (·.id)).Nodup :=
  .of_map UInt32.toNat (h.numbers ▸ List.nodup_range')

theorem Consecutive.id_ne_of_append {μ : Type} {base : Nat} {bs new : List (Batch μ)}
    (h : Consecutive base (bs ++ new)) {b b' : Batch μ} {i : BatchId} (hb : b ∈ bs)
    (hb' : b' ∈ new) (hid : b.id = some i) : b'.id ≠ some i := by
  intro hid'
  have hnodup := h.nodup_ids
  rw [List.filterMap_append, List.nodup_append] at hnodup
  exact hnodup.2.2 i (List.mem_filterMap.mpr ⟨b, hb, hid⟩) i
    (List.mem_filterMap.mpr ⟨b', hb', hid'⟩) rfl

/-- What is sent for the first time is new. -/
theorem Account.firsts_append (hacc : Account log s p base bs) {base' : Nat}
    {new : List (Batch P.Msg)} {ms : List (Message P.Msg)} (hcons : Consecutive base' (bs ++ new))
    (hms : numbered ms = new ∨ (new = [] ∧ ∀ b ∈ numbered ms, b ∈ bs)) :
    (numbers (sentTo p log ++ ms)).eraseDups = (bs ++ new).filterMap (·.id) := by
  have hold : ∀ i, i ∈ numbers (sentTo p log) ↔ i ∈ bs.filterMap (·.id) := fun i =>
    hacc.mem_numbers.trans List.mem_filterMap.symm
  rw [numbers_append, List.eraseDups_append, hacc.firsts, List.filterMap_append]
  congr 1
  rcases hms with rfl | ⟨rfl, hkept⟩
  · have hnodup := hcons.nodup_ids
    rw [List.filterMap_append, List.nodup_append] at hnodup
    have hfresh : (numbers ms).removeAll (numbers (sentTo p log)) = numbers ms := by
      refine List.filter_eq_self.mpr fun i hi => ?_
      rw [Bool.not_eq_true', List.elem_eq_mem, decide_eq_false_iff_not, hold]
      rw [numbers_eq] at hi
      exact fun h => hnodup.2.2 i h i hi rfl
    rw [hfresh, numbers_eq, eraseDups_of_nodup hnodup.2.1]
  · have hstale : (numbers ms).removeAll (numbers (sentTo p log)) = [] := by
      refine List.filter_eq_nil_iff.mpr fun i hi => ?_
      rw [numbers_eq, List.mem_filterMap] at hi
      obtain ⟨b, hb, hid⟩ := hi
      simpa using (hold i).mpr (List.mem_filterMap.mpr ⟨b, hkept b hb, hid⟩)
    rw [hstale]
    rfl

theorem Account.start (hstart : (P.reliable period).start me = .ok s) (p : NodeId) :
    Account [] s p 0 [] := by
  obtain ⟨first, -, rfl⟩ := map_eq_ok hstart
  exact
    { consecutive := .nil 0
      sized := fun _ hb => absurd hb List.not_mem_nil
      sent := fun b => Iff.rfl
      firsts := rfl
      register := fun _ => .start 0
      gone := fun _ => rfl }

/-- What a call adds to the account of a peer that is not dismissed, with the nested automaton
reacting as `inner`: the batches `new`. -/
structure Account.Grows (log : List (Episode P)) (x : Episode P) (p : NodeId) (base : Nat)
    (bs : List (Batch P.Msg)) (inner : Reaction P.State P.Msg) (base' : Nat)
    (new : List (Batch P.Msg)) : Prop where
  account : Account (log ++ [x]) x.reaction.state p base' (bs ++ new)
  advance : Advance (x.before.link p) (x.call.came x.before p) (addressedTo p inner.sent) new
    (x.reaction.state.link p) (addressedTo p x.reaction.sent)
  settled : x.before.isInitialized p → base' = base ∧ x.reaction.state.isInitialized p
  settles : ¬ x.before.isInitialized p → x.reaction.state.isInitialized p →
    ∃ latest, x.call = .message p (.reset ⟨true, latest⟩) ∧ base' = latest.toNat + 1

theorem isInitialized_iff {s : State P} {p : NodeId} :
    s.isInitialized p ↔ (s.link p).nextId ≠ none :=
  Option.isSome_iff_ne_none

/-- **A call adds to the account of a peer that is not dismissed.** -/
theorem Account.grows (hacc : Account log x.before p base bs)
    (hx : call period me x.before x.call = .ok x.reaction)
    (hstays : p ∉ x.reaction.state.dismissed) :
    ∃ inner base' new, Involves me x.before.nested x.call inner ∧
      x.reaction.state.nested = inner.state ∧ Account.Grows log x p base bs inner base' new := by
  obtain ⟨hbefore, inner, hinvolves, hnested, hact⟩ := call_act hx hstays
  obtain ⟨base', new, hregister, hadvance, hsettled, hsettles⟩ := (hacc.register hbefore).act hact
  -- what is sent again is kept, so it is in the register
  have hms : numbered (addressedTo p x.reaction.sent) = new ∨
      (new = [] ∧ ∀ b ∈ numbered (addressedTo p x.reaction.sent), b ∈ bs) := by
    refine hadvance.sends.imp_right fun ⟨hnew, hkept⟩ => ⟨hnew, fun b hb => ?_⟩
    obtain ⟨i, kept, hkept, rfl⟩ := hkept b hb
    rw [hnew, List.append_nil] at hregister
    exact (hregister.kept i kept hkept).1
  refine ⟨inner, base', new, hinvolves, hnested,
    { account :=
        { consecutive := hregister.consecutive
          sized := hregister.sized
          sent := fun b => ?_
          firsts := ?_
          register := fun _ => hregister
          gone := fun h => absurd h hstays }
      advance := hadvance
      settled := fun h => ?_
      settles := fun h h' => ?_ }⟩
  · rw [sentTo_append, sentTo_singleton, numbered_append, List.mem_append, List.mem_append,
      hacc.sent b]
    rcases hms with hms | ⟨rfl, hms⟩
    · rw [hms]
    · exact ⟨fun h => .inl (h.elim id (hms b)), fun h => .inl (h.resolve_right List.not_mem_nil)⟩
  · rw [sentTo_append, sentTo_singleton]
    exact hacc.firsts_append hregister.consecutive hms
  · exact (hsettled (isInitialized_iff.mp h)).imp_right isInitialized_iff.mpr
  · rw [isInitialized_iff, not_not] at h
    obtain ⟨latest, hcame, hbase⟩ := hsettles h (isInitialized_iff.mp h')
    exact ⟨latest, (came_eq_some.mp hcame).1, hbase⟩

theorem Account.ends (hacc : Account log x.before p base bs)
    (hx : call period me x.before x.call = .ok x.reaction)
    (hgone : p ∈ x.reaction.state.dismissed) :
    Account (log ++ [x]) x.reaction.state p base bs ∧ x.reaction.state.link p = {} ∧
      addressedTo p x.reaction.sent = [] := by
  obtain ⟨hlink, hnone⟩ := call_dismissed hx hgone hacc.gone
  refine ⟨{ hacc with
    sent := fun b => ?_
    firsts := ?_
    register := fun hstays => absurd hgone hstays
    gone := fun _ => hlink }, hlink, hnone⟩
  · rw [sentTo_append, sentTo_singleton, hnone, List.append_nil]
    exact hacc.sent b
  · rw [sentTo_append, sentTo_singleton, hnone, List.append_nil]
    exact hacc.firsts

/-- The numbering towards a peer has been settled, or will never be. -/
def State.Fixed (s : State P) (p : NodeId) : Prop := s.isInitialized p ∨ p ∈ s.dismissed

/-- A number that has been given out is sent only while its batch is kept, and it is kept until it
is acknowledged. -/
theorem Account.next (hacc : Account log x.before p base bs)
    (hx : call period me x.before x.call = .ok x.reaction) :
    ∃ base' new, Account (log ++ [x]) x.reaction.state p base' (bs ++ new) ∧
      (x.before.Fixed p → base' = base ∧ x.reaction.state.Fixed p) ∧
      ∀ b ∈ bs, ∀ i, b.id = some i →
        (i ∈ numbers (addressedTo p x.reaction.sent) →
          (x.reaction.state.link p).unacked.contains i) ∧
        ((x.reaction.state.link p).unacked.contains i → (x.before.link p).unacked.contains i ∧
          ∀ m, x.call = .message p m → i ∉ m.acks) := by
  by_cases hgone : p ∈ x.reaction.state.dismissed
  · obtain ⟨hacc', hlink, hnone⟩ := hacc.ends hx hgone
    refine ⟨base, [], by rwa [List.append_nil], fun _ => ⟨rfl, .inr hgone⟩, fun b hb i hid => ?_⟩
    rw [hnone, hlink]
    exact ⟨fun h => absurd h List.not_mem_nil, fun h => absurd h Bool.false_ne_true⟩
  · obtain ⟨inner, base', new, -, -, hgrows⟩ := hacc.grows hx hgone
    have hbefore := (call_act hx hgone).1
    refine ⟨base', new, hgrows.account, fun h => ?_, fun b hb i hid => ?_⟩
    · exact (hgrows.settled (h.resolve_right hbefore)).imp_right .inl
    have hother : ∀ b' ∈ new, b'.id ≠ some i := fun b' hb' =>
      hgrows.account.consecutive.id_ne_of_append hb hb' hid
    refine ⟨fun hi => ?_, fun hi => ?_⟩
    · rw [numbers_eq, List.mem_filterMap] at hi
      obtain ⟨b', hb', hid'⟩ := hi
      rcases hgrows.advance.sends with hnew | ⟨-, hkept⟩
      · exact absurd hid' (hother b' (hnew ▸ hb'))
      · obtain ⟨j, kept, hkept, rfl⟩ := hkept b' hb'
        obtain ⟨-, hj⟩ := (hgrows.account.register hgone).kept j kept hkept
        rw [hid'] at hj
        cases hj
        exact contains_of_get? hkept
    · rcases hgrows.advance.keeps i hi with ⟨b', hb', hid'⟩ | ⟨hkept, hacks⟩
      · exact absurd hid' (hother b' hb')
      · exact ⟨hkept, fun m hm => hacks m (came_eq_some.mpr ⟨hm, hbefore⟩)⟩

/-- **Calls add to the account.**  A number that is not kept any more is not sent again. -/
theorem Account.calls (hacc : Account log s p base bs) (hcalls : Calls period me s later s') :
    ∃ base' new, Account (log ++ later) s' p base' (bs ++ new) ∧
      (s.Fixed p → base' = base ∧ s'.Fixed p) ∧
      ∀ b ∈ bs, ∀ i, b.id = some i → ¬ (s.link p).unacked.contains i →
        ¬ (s'.link p).unacked.contains i ∧ i ∉ numbers (sentTo p later) := by
  induction hcalls with
  | nil =>
    refine ⟨base, [], by rwa [List.append_nil, List.append_nil], fun h => ⟨rfl, h⟩,
      fun b hb i hid hgone => ⟨hgone, List.not_mem_nil⟩⟩
  | @snoc later t c r _ hcall ih =>
    obtain ⟨base', new, hacc', hfixed, hretired⟩ := ih
    obtain ⟨base'', new', hacc'', hfixed', hlast⟩ :=
      Account.next (x := ⟨t, c, r⟩) hacc' hcall
    rw [List.append_assoc, List.append_assoc] at hacc''
    refine ⟨base'', new ++ new', hacc'', fun h => ?_, fun b hb i hid hgone => ?_⟩
    · obtain ⟨rfl, hlater⟩ := hfixed h
      exact hfixed' hlater
    · obtain ⟨hgone, hnever⟩ := hretired b hb i hid hgone
      obtain ⟨hsent, hkept⟩ := hlast b (List.mem_append_left _ hb) i hid
      have hgone' := fun h => hgone (hkept h).1
      rw [sentTo_append, sentTo_singleton, Reliable.numbers_append, List.mem_append]
      exact ⟨hgone', fun h => h.elim hnever fun h => hgone' (hsent h)⟩

/-- **A node that has been called has an account of what it sent to a peer.** -/
theorem Life.account (hlife : Life period me log s) (p : NodeId) :
    ∃ base bs, Account log s p base bs := by
  obtain ⟨first, hstart, hcalls⟩ := hlife
  obtain ⟨base, bs, hacc, -⟩ := (Account.start hstart p).calls hcalls
  exact ⟨base, bs, hacc⟩

/-! ### Numbers -/

/-- A call after which the numbering towards a peer is settled, and was not before. -/
def Episode.Settles (x : Episode P) (p : NodeId) : Prop :=
  ¬ x.before.isInitialized p ∧ x.reaction.state.isInitialized p

theorem Account.unsettled (hacc : Account log s p base bs) (hstays : p ∉ s.dismissed)
    (hs : ¬ s.isInitialized p) : bs = [] ∧ numbers (sentTo p log) = [] := by
  rw [isInitialized_iff, not_not] at hs
  have hnone := (hacc.register hstays).unsettled hs
  refine ⟨hnone, List.eq_nil_iff_forall_not_mem.mpr fun i hi => ?_⟩
  obtain ⟨b, hb, -⟩ := hacc.mem_numbers.mp hi
  rw [hnone] at hb
  exact List.not_mem_nil hb

theorem Life.never_settled (hlife : Life period me log s) (hnone : ∀ x ∈ log, ¬ x.Settles p) :
    ¬ s.isInitialized p ∧ numbers (sentTo p log) = [] := by
  obtain ⟨first, hstart, hcalls⟩ := hlife
  induction hcalls with
  | nil =>
    obtain ⟨_, -, rfl⟩ := map_eq_ok hstart
    exact ⟨Bool.false_ne_true, rfl⟩
  | @snoc log t c r hcalls hcall ih =>
    obtain ⟨hlog, hlast⟩ := List.forall_mem_append.mp hnone
    obtain ⟨ht, hsent⟩ := ih hlog
    have hr : ¬ r.state.isInitialized p := fun h => hlast _ (List.mem_singleton_self _) ⟨ht, h⟩
    refine ⟨hr, ?_⟩
    obtain ⟨base, bs, hacc⟩ := Life.account ⟨first, hstart, hcalls⟩ p
    by_cases hgone : p ∈ r.state.dismissed
    · obtain ⟨-, -, hnothing⟩ := Account.ends (x := ⟨t, c, r⟩) hacc hcall hgone
      rw [sentTo_append, sentTo_singleton, hnothing, List.append_nil]
      exact hsent
    · obtain ⟨base', bs', hacc'⟩ := Life.account ⟨first, hstart, hcalls.snoc hcall⟩ p
      exact (hacc'.unsettled hgone hr).2

/-- A call that settles the numbering is an answer, and the numbers go on from what it tells. -/
theorem Life.settled (hlife : Life period me (earlier ++ x :: later) s) (hx : x.Settles p) :
    ∃ latest new, x.call = .message p (.reset ⟨true, latest⟩) ∧
      numbers (sentTo p earlier) = [] ∧
      Account (earlier ++ x :: later) s p (latest.toNat + 1) new := by
  obtain ⟨first, hstart, hcalls⟩ := hlife
  obtain ⟨hearlier, hcall, hlater⟩ := hcalls.split
  obtain ⟨base, bs, hacc⟩ := Life.account ⟨first, hstart, hearlier⟩ p
  -- a peer that is dismissed has no channel any more
  have hstays : p ∉ x.reaction.state.dismissed := by
    intro hgone
    have hlink := (hacc.ends hcall hgone).2.1
    have hsettled := isInitialized_iff.mp hx.2
    rw [hlink] at hsettled
    exact hsettled rfl
  obtain ⟨hbs, hnone⟩ := hacc.unsettled (call_act hcall hstays).1 hx.1
  obtain ⟨inner, base', new, -, -, hgrows⟩ := hacc.grows hcall hstays
  obtain ⟨latest, hanswer, rfl⟩ := hgrows.settles hx.1 hx.2
  obtain ⟨base'', new', hacc', hfixed, -⟩ := hgrows.account.calls hlater
  obtain ⟨rfl, -⟩ := hfixed (.inl hx.2)
  rw [List.append_assoc, List.singleton_append] at hacc'
  exact ⟨latest, _, hanswer, hnone, hacc'⟩

/-- Numbers are given out in the course of a life that has had a settling answer, and they are
larger than what it tells. -/
theorem Life.settled_lt (hlife : Life period me log s) {i : BatchId}
    (hi : i ∈ numbers (sentTo p log)) : ∃ x ∈ log, x.Settles p ∧
      ∃ latest, x.call = .message p (.reset ⟨true, latest⟩) ∧ latest < i := by
  obtain ⟨x, hx, hsettles⟩ : ∃ x ∈ log, x.Settles p := by
    by_contra hnone
    have hnothing := (hlife.never_settled fun x hx h => hnone ⟨x, hx, h⟩).2
    rw [hnothing] at hi
    exact List.not_mem_nil hi
  refine ⟨x, hx, hsettles, ?_⟩
  obtain ⟨earlier, later, rfl⟩ := List.append_of_mem hx
  obtain ⟨latest, new, hanswer, -, hacc⟩ := hlife.settled hsettles
  obtain ⟨b, hb, hid⟩ := hacc.mem_numbers.mp hi
  obtain ⟨i', hid', hle, -⟩ := hacc.consecutive.id_of_mem hb
  rw [hid] at hid'
  cases hid'
  exact ⟨latest, hanswer, UInt32.lt_iff_toNat_lt.mpr hle⟩

/-- A number is larger than those that were sent before it was sent for the first time. -/
theorem Life.lt_of_first (hlife : Life period me (log ++ later) s) {i i' : BatchId}
    (hi' : i' ∈ numbers (sentTo p log)) (hi : i ∈ numbers (sentTo p (log ++ later)))
    (hfirst : i ∉ numbers (sentTo p log)) : i' < i := by
  obtain ⟨base, bs, hacc⟩ := hlife.account p
  have hsorted : ((numbers (sentTo p (log ++ later))).eraseDups.map UInt32.toNat).Pairwise
      (· < ·) := by
    rw [hacc.firsts, hacc.consecutive.numbers]
    exact List.pairwise_lt_range'
  rw [sentTo_append, Reliable.numbers_append, List.mem_append] at hi
  rw [sentTo_append, Reliable.numbers_append, List.eraseDups_append, List.pairwise_map,
    List.pairwise_append] at hsorted
  have hnew : i ∈ (numbers (sentTo p later)).removeAll (numbers (sentTo p log)) :=
    List.mem_filter.mpr ⟨hi.resolve_left hfirst, by simpa using hfirst⟩
  exact UInt32.lt_iff_toNat_lt.mpr
    (hsorted.2.2 i' (List.mem_eraseDups.mpr hi') i (List.mem_eraseDups.mpr hnew))

/-- **Numbering and resending.**  Of all that a node sends to a peer in its life: nothing has a
number as long as no answer to a reset request has settled the numbering.  When one has, the
numbers that are sent for the first time are those above the number it tells, one after the other.
Whatever is sent with a number is the same batch each time.  When a batch has been sent and the
peer acknowledges it, or the peer is dismissed, it is not sent from that call on. -/
theorem numbering_of_life (hlife : Life period me log s) (p : NodeId) :
    ((∀ x ∈ log, ¬ x.Settles p) → numbers (sentTo p log) = []) ∧
    (∀ earlier x later, log = earlier ++ x :: later → x.Settles p →
      ∃ latest n, x.call = .message p (.reset ⟨true, latest⟩) ∧
        numbers (sentTo p earlier) = [] ∧
        (numbers (sentTo p log)).eraseDups.map UInt32.toNat =
          List.range' (latest.toNat + 1) n) ∧
    (∀ b b', .batch b ∈ sentTo p log → .batch b' ∈ sentTo p log → b.id ≠ none → b.id = b'.id →
      b = b') ∧
    ∀ earlier x later i, log = earlier ++ x :: later → i ∈ numbers (sentTo p earlier) →
      (x.call = .dismiss p ∨ ∃ b, x.call = .message p (.batch b) ∧ i ∈ b.acks) →
      i ∉ numbers (sentTo p (x :: later)) := by
  refine ⟨fun hnone => (hlife.never_settled hnone).2, fun earlier x later hlog hx => ?_,
    fun b b' hb hb' hid hsame => ?_, fun earlier x later i hlog hi hx => ?_⟩
  · subst hlog
    obtain ⟨latest, new, hanswer, hnone, hacc⟩ := hlife.settled hx
    exact ⟨latest, _, hanswer, hnone, by rw [hacc.firsts, hacc.consecutive.numbers]⟩
  · obtain ⟨base, bs, hacc⟩ := hlife.account p
    have hmem := (hacc.sent b).mp (mem_numbered.mpr ⟨hb, hid⟩)
    have hmem' := (hacc.sent b').mp (mem_numbered.mpr ⟨hb', hsame ▸ hid⟩)
    exact hacc.consecutive.eq_of_id_eq hmem hmem' hsame
  · subst hlog
    obtain ⟨first, hstart, hcalls⟩ := hlife
    obtain ⟨hearlier, hcall, hlater⟩ := hcalls.split
    obtain ⟨base, bs, hacc⟩ := Life.account ⟨first, hstart, hearlier⟩ p
    obtain ⟨b, hb, hid⟩ := hacc.mem_numbers.mp hi
    obtain ⟨base', new, hacc', -, hlast⟩ := hacc.next hcall
    obtain ⟨hsent, hkept⟩ := hlast b hb i hid
    have hgone : ¬ (x.reaction.state.link p).unacked.contains i := by
      rcases hx with hx | ⟨β, hx, hack⟩
      · have hdismissed : p ∈ x.reaction.state.dismissed := by
          rw [hx] at hcall
          rw [← Except.ok.inj hcall]
          exact List.mem_insert_self
        rw [(hacc.ends hcall hdismissed).2.1]
        exact Bool.false_ne_true
      · exact fun h => (hkept h).2 _ hx hack
    obtain ⟨-, -, -, -, hretired⟩ := hacc'.calls hlater
    rw [← List.singleton_append, sentTo_append, sentTo_singleton, Reliable.numbers_append,
      List.mem_append]
    exact fun h => h.elim (fun h => hgone (hsent h))
      (hretired b (List.mem_append_left _ hb) i hid hgone).2

/-- A node has two pings for another one, which answers the reset request with 5.  The first batch
is acknowledged by a batch without a number, and a third ping is sent. -/
def threePings : List (Call (Protocol.pingPong 0)) :=
  let ping : Call (Protocol.pingPong 0) := .input (.nested (⟨⟨1⟩, 0⟩ : PingPong.Serve))
  [ping, ping, .message ⟨1⟩ (.reset ⟨true, 5⟩), .input (.tick 1), .input (.tick 2),
    .message ⟨1⟩ (.batch { acks := [6] }), ping, .input (.tick 3), .input (.tick 4)]

theorem numbering_of_threePings : ∃ log s, Life (P := Protocol.pingPong 0) 0 ⟨0⟩ log s ∧
    numbers (sentTo ⟨1⟩ log) = [6, 6, 7, 7] ∧
    ∀ b b', .batch b ∈ sentTo ⟨1⟩ log → .batch b' ∈ sentTo ⟨1⟩ log → b.id ≠ none →
      b.id = b'.id → b = b' := by
  obtain ⟨log, s, hlife, htest⟩ :=
    @Life.exists (Protocol.pingPong 0) 0 ⟨0⟩ threePings
      (fun log _ => numbers (sentTo ⟨1⟩ log) = [6, 6, 7, 7]) (by decide +kernel)
  exact ⟨log, s, hlife, of_decide_eq_true htest, (numbering_of_life hlife ⟨1⟩).2.2.1⟩

end

/-! ### Nested messages -/

section
variable {P : Protocol} {period : Time} {me p : NodeId} {s : State P.recorded} {base : Nat}
  {bs : List (Batch P.Msg)} {log : List (Episode P.recorded)} {x : Episode P.recorded}

theorem Involves.told {c : Call P.recorded} {inner : Reaction (Recorded P) P.Msg}
    (h : Involves (P := P.recorded) me s.nested c inner) :
    Recorded.sent inner.state = s.told ++ inner.sent := by
  cases h with
  | input h => exact (received_input h).2
  | batch h =>
    obtain ⟨news, hout, -, hsent⟩ := handOver_recorded (P := P) h
    rw [hsent, hout, List.nil_append]
    rfl
  | nothing => exact (List.append_nil _).symm

/-- The batches of an account, and what waits, hold what the nested automaton has sent. -/
def Account.Conserves (s : State P.recorded) (p : NodeId) (bs : List (Batch P.Msg)) : Prop :=
  p ∉ s.dismissed →
    bs.flatMap (·.msgs) ++ (s.link p).pending.toList = addressedTo p s.told

theorem Account.conserves_next (hacc : Account log x.before p base bs)
    (hconserves : Account.Conserves x.before p bs)
    (hx : call period me x.before x.call = .ok x.reaction) :
    ∃ base' bs', Account (log ++ [x]) x.reaction.state p base' bs' ∧
      Account.Conserves x.reaction.state p bs' := by
  by_cases hgone : p ∈ x.reaction.state.dismissed
  · exact ⟨base, bs, (hacc.ends hx hgone).1, fun hstays => absurd hgone hstays⟩
  · obtain ⟨inner, base', new, hinvolves, hnested, hgrows⟩ := hacc.grows hx hgone
    refine ⟨base', bs ++ new, hgrows.account, fun _ => ?_⟩
    have hbefore := hconserves (call_act hx hgone).1
    have htold : x.reaction.state.told = x.before.told ++ inner.sent := by
      rw [← hinvolves.told, ← hnested]
      rfl
    calc (bs ++ new).flatMap (·.msgs) ++ (x.reaction.state.link p).pending.toList
        = bs.flatMap (·.msgs) ++
            (new.flatMap (·.msgs) ++ (x.reaction.state.link p).pending.toList) := by
          rw [List.flatMap_append, List.append_assoc]
      _ = bs.flatMap (·.msgs) ++ (x.before.link p).pending.toList ++ addressedTo p inner.sent := by
          rw [hgrows.advance.conserved, List.append_assoc]
      _ = addressedTo p x.reaction.state.told := by
          rw [hbefore, htold, addressedTo_append]

/-- **Nothing is lost, doubled or reordered on the way out.**  For a peer that is not dismissed,
the nested messages in the batches that got a number, in the order of their numbers, and then what
waits for the handshake, are what the nested automaton has sent to it, in this order.  To any
peer, a batch with a number carries at least one message, no more than fit, and at most one
acknowledgement, so that it can be encoded. -/
theorem conservation_of_life (hlife : Life period me log s) (p : NodeId) :
    (p ∉ s.dismissed → ∃ base bs, Consecutive base bs ∧
      (∀ b, b ∈ bs ↔ .batch b ∈ sentTo p log ∧ b.id ≠ none) ∧
      bs.flatMap (·.msgs) ++ (s.link p).pending.toList = addressedTo p s.told) ∧
    ∀ b, .batch b ∈ sentTo p log → b.id ≠ none →
      1 ≤ b.msgs.length ∧ b.msgs.length ≤ maxBatch ∧ b.acks.length ≤ 1 ∧
        (∃ bytes, Wire.putCount b.msgs.length = .ok bytes) ∧
        ∃ bytes, Wire.putCount b.acks.length = .ok bytes := by
  obtain ⟨base, bs, hacc, hconserves⟩ : ∃ base bs, Account log s p base bs ∧
      Account.Conserves s p bs := by
    obtain ⟨first, hstart, hcalls⟩ := hlife
    induction hcalls with
    | nil =>
      refine ⟨0, [], .start hstart p, fun _ => ?_⟩
      obtain ⟨_, hnested, rfl⟩ := map_eq_ok hstart
      obtain ⟨-, hsent⟩ := recorded_start hnested
      change _ = addressedTo p (Recorded.sent _)
      rw [hsent]
      rfl
    | @snoc log t c r _ hcall ih =>
      obtain ⟨base, bs, hacc, hconserves⟩ := ih
      exact Account.conserves_next (x := ⟨t, c, r⟩) hacc hconserves hcall
  have hsent : ∀ b, b ∈ bs ↔ .batch b ∈ sentTo p log ∧ b.id ≠ none := fun b =>
    (hacc.sent b).symm.trans mem_numbered
  refine ⟨fun hstays => ⟨base, bs, hacc.consecutive, hsent, hconserves hstays⟩,
    fun b hb hid => ?_⟩
  obtain ⟨hone, hmax, hacks⟩ := hacc.sized b ((hsent b).mpr ⟨hb, hid⟩)
  have hfits : maxBatch < UInt16.size := by decide
  exact ⟨hone, hmax, hacks, ⟨_, Wire.Reader.putCount_ok (by omega)⟩,
    ⟨_, Wire.Reader.putCount_ok (Nat.lt_of_le_of_lt hacks (by decide))⟩⟩

/-- Two pings wait for the handshake and go out in one batch; a third one follows, and one for
another peer still waits. -/
def fourPings : List (Call (Protocol.pingPong 0).recorded) :=
  let ping (peer : NodeId) (ttl : UInt8) : Call (Protocol.pingPong 0).recorded :=
    .input (.nested (⟨peer, ttl⟩ : PingPong.Serve))
  [ping ⟨1⟩ 0, ping ⟨1⟩ 1, .message ⟨1⟩ (.reset ⟨true, 5⟩), ping ⟨2⟩ 2, ping ⟨1⟩ 3]

theorem conservation_of_fourPings : ∃ log s,
    Life (P := (Protocol.pingPong 0).recorded) 0 ⟨0⟩ log s ∧
    numbers (sentTo ⟨1⟩ log) = [6, 7] ∧ ∃ base bs, Consecutive base bs ∧
      (∀ b, b ∈ bs ↔ .batch b ∈ sentTo ⟨1⟩ log ∧ b.id ≠ none) ∧
      bs.flatMap (·.msgs) ++ (s.link ⟨1⟩).pending.toList = addressedTo ⟨1⟩ s.told := by
  obtain ⟨log, s, hlife, htest⟩ :=
    @Life.exists (Protocol.pingPong 0).recorded 0 ⟨0⟩ fourPings
      (fun log s => numbers (sentTo ⟨1⟩ log) = [6, 7] ∧ ⟨1⟩ ∉ s.dismissed)
      (by decide +kernel)
  obtain ⟨hnumbers, hstays⟩ := of_decide_eq_true htest
  exact ⟨log, s, hlife, hnumbers, (conservation_of_life hlife ⟨1⟩).1 hstays⟩

end

end Quorum.Reliable
