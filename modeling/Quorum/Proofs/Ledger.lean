import Mathlib.Data.List.Forall2
import Quorum.PingPong
import Quorum.Proofs.Randomness.Loss
import Quorum.Proofs.Simulation

/-!
# Ledger — what the log of a simulation tells

A simulation that keeps a log is put through operations: inputs are added, messages are put in
transit from outside, nodes are changed, and steps are taken until one thing or another holds.  Its
log is then cut in two.  The first messages have been taken out of the queue, in order and each of
them once; the others are in the queue.  What became of a message that was taken follows from its
place in the log and from its recipient.

**Main statements.**  `OnRecord.enqueueFrom` and `OnRecord.take`: the log and the queue.
`Balanced.step`: what one step does to the accounts.  `log_accounts_for_everything`: any operations.
-/

namespace Quorum

/-- A message is on record with its sender, its recipient and its encoding. -/
structure Protocol.Records (P : Protocol) (e : Packet Bytes) (p : Packet P.Msg) : Prop where
  sender : e.sender = p.sender
  recipient : e.recipient = p.recipient
  body : P.encode p.body = .ok e.body

namespace Simulation

open Randomness

/-! ### Operations -/

/-- What may be done to a simulation from outside. -/
inductive Operation (P : Protocol) where
  | addInputs (inputs : List (NodeId × P.Input))
  /-- A node puts messages in transit that are no answer to anything. -/
  | enqueueFrom (sender : NodeId) (out : List (Outgoing P.Msg))
  | modify (node : NodeId) (f : P.State → P.State)
  /-- From now on, messages pass through their encoding or do not. -/
  | setWire (wire : Bool)
  | runAll
  | runSteps (max : Nat)
  /-- A test that remembers what it has seen comes to a number of steps. -/
  | runUntil (done : Simulation P → Bool) (limit : Nat)

/-- A step that was taken. -/
structure Transition (P : Protocol) where
  before : Simulation P
  after : Simulation P

section
variable {P : Protocol} {start sim next last : Simulation P} {past : List (Transition P)}
  {done : List (Packet Bytes)} {e : Packet Bytes}

/-- The simulation after an operation. -/
def operate (sim : Simulation P) : Operation P → Except Fault (Simulation P)
  | .addInputs inputs => .ok (sim.addInputs inputs)
  | .enqueueFrom sender out => sim.enqueueFrom sender out
  | .modify node f => sim.modify node f
  | .setWire wire => .ok { sim with wire }
  | .runAll => sim.runAll
  | .runSteps max => (·.1) <$> sim.runSteps max
  | .runUntil done limit => (·.1) <$> sim.runUntil done limit

/-- The steps that are taken until `done` holds or nothing is left to do, at most `limit` of
them. -/
def stepsUntil (sim : Simulation P) (done : Simulation P → Bool) :
    (limit : Nat) → List (Transition P)
  | 0 => []
  | limit + 1 =>
    if done sim then []
    else
      match sim.step with
      | .ok (some next) => ⟨sim, next⟩ :: next.stepsUntil done limit
      | .ok none | .error _ => []

/-- The steps that are taken in the course of an operation. -/
def stepsOf (sim : Simulation P) : Operation P → List (Transition P)
  | .addInputs _ | .enqueueFrom .. | .modify .. | .setWire _ => []
  | .runAll => sim.stepsUntil (fun _ => false) stepLimit
  | .runSteps max => sim.stepsUntil (fun _ => false) max
  | .runUntil done limit => sim.stepsUntil done limit

/-- The steps that are taken in the course of operations, if none of them fails, and the simulation
after them. -/
def follow (sim : Simulation P) :
    List (Operation P) → Except Fault (List (Transition P) × Simulation P)
  | [] => .ok ([], sim)
  | o :: os => do
    let next ← sim.operate o
    let (later, last) ← next.follow os
    return (sim.stepsOf o ++ later, last)

theorem fst_runSteps (max : Nat) :
    (·.1) <$> sim.runSteps max = (·.1) <$> sim.runUntil (fun _ => false) max := by
  induction max generalizing sim with
  | zero => rfl
  | succ max ih =>
    rw [runSteps, runUntil, if_neg Bool.false_ne_true]
    cases sim.step with
    | error fault => rfl
    | ok next =>
      cases next with
      | none => rfl
      | some next => exact ih

/-! ### Fates -/

/-- What becomes of a message that is taken out of the queue. -/
inductive Fate where
  | delivered
  | lost
  | discarded
  deriving DecidableEq, Repr

/-- The fate of message `k`: chance decides first, and then whether its recipient is a node. -/
def fate (start : Simulation P) (k : Nat) (recipient : NodeId) : Fate :=
  if start.loss.chance.survives start.loss.key k then
    if start.nodes.contains recipient then .delivered else .discarded
  else .lost

theorem fate_eq_lost_iff {k : Nat} {recipient : NodeId} : start.fate k recipient = .lost ↔
    start.loss.chance.survives start.loss.key k = false := by
  unfold fate
  split
  · rename_i halive
    rw [halive]
    split <;> simp
  · rename_i hdead
    simpa using hdead

def fates (start : Simulation P) (done : List (Packet Bytes)) : List Fate :=
  done.mapIdx fun k e => start.fate k e.recipient

theorem fates_concat : start.fates (done ++ [e]) =
    start.fates done ++ [start.fate done.length e.recipient] := List.mapIdx_concat

theorem length_eq_count (l : List Fate) :
    l.length = l.count .delivered + l.count .lost + l.count .discarded := by
  induction l with
  | nil => rfl
  | cons f l ih => cases f <;> simp [ih] <;> omega

/-! ### The log and the queue -/

/-- A log is kept; it begins with what has been taken out of the queue and goes on with what is
there. -/
def OnRecord (sim : Simulation P) (done : List (Packet Bytes)) : Prop :=
  ∃ log waiting, sim.log = some log ∧ log.toList = done ++ waiting ∧
    List.Forall₂ P.Records waiting sim.queue.toList

theorem OnRecord.enqueue {p : Packet P.Msg} (h : sim.OnRecord done)
    (hnext : sim.enqueue p = .ok next) : next.OnRecord done := by
  obtain ⟨log, waiting, hlog, hlist, hwaiting⟩ := h
  unfold Simulation.enqueue at hnext
  rw [hlog] at hnext
  dsimp only at hnext
  split at hnext
  · rename_i bytes hencode
    cases hnext
    refine ⟨_, waiting ++ [p.map fun _ => bytes], rfl, ?_, ?_⟩
    · rw [Fifo.toList_push, hlist, List.append_assoc]
    · rw [Fifo.toList_push]
      exact List.rel_append hwaiting (.cons ⟨rfl, rfl, hencode⟩ .nil)
  · cases hnext

/-- **What is put in transit is put on record.** -/
theorem OnRecord.enqueueFrom {sender : NodeId} {out : List (Outgoing P.Msg)}
    (h : sim.OnRecord done) (hnext : sim.enqueueFrom sender out = .ok next) :
    next.OnRecord done := by
  induction out generalizing sim with
  | nil =>
    cases hnext
    exact h
  | cons o out ih =>
    rw [Simulation.enqueueFrom, List.foldlM_cons] at hnext
    obtain ⟨mid, hfirst, hnext⟩ := bind_eq_ok hnext
    exact ih (h.enqueue hfirst) hnext

/-- **The oldest message is the first on record that has not been taken.** -/
theorem OnRecord.take {p : Packet P.Msg} {rest : Fifo (Packet P.Msg)} (h : sim.OnRecord done)
    (hpop : sim.queue.pop? = some (p, rest)) :
    ∃ e, P.Records e p ∧ OnRecord { sim with queue := rest } (done ++ [e]) := by
  obtain ⟨log, waiting, hlog, hlist, hwaiting⟩ := h
  rw [Fifo.toList_of_pop? hpop, List.forall₂_cons_right_iff] at hwaiting
  obtain ⟨e, waiting, he, hwaiting, rfl⟩ := hwaiting
  exact ⟨e, he, log, waiting, hlog, by rw [hlist, List.append_cons], hwaiting⟩

/-! ### What a step does -/

/-- A step takes the oldest input, and takes no message. -/
def Transition.TakesInput (x : Transition P) : Prop :=
  ∃ node i inputs s r queue log, x.before.inputs.pop? = some ((node, i), inputs) ∧
    x.before.nodes.get? node = some s ∧ P.input node s i = .ok r ∧
    queue.toList = x.before.queue.toList ++ r.sent.map (Outgoing.sentBy node) ∧
    x.after = { x.before with nodes := x.before.nodes.insert node r.state, inputs, queue, log }

/-- What a step does with the oldest message, which is on record as `e`, given its fate. -/
inductive Transition.Handles (x : Transition P) (e : Packet Bytes) : Fate → Prop where
  /-- The node on record as the recipient is given the message, or what is read from its encoding,
  as one from the node on record as the sender. -/
  | delivered {p : Packet P.Msg} {rest queue : Fifo (Packet P.Msg)} {s : P.State} {m : P.Msg}
      {r : Reaction P.State P.Msg} {loss : Loss} {log : Option (Fifo (Packet Bytes))}
      (hpop : x.before.queue.pop? = some (p, rest)) (he : P.Records e p)
      (hs : x.before.nodes.get? e.recipient = some s)
      (hm : if x.before.wire then P.decode e.body = .ok m else m = p.body)
      (hr : P.receive e.recipient s e.sender m = .ok r)
      (hqueue : queue.toList = rest.toList ++ r.sent.map (Outgoing.sentBy e.recipient))
      (hafter : x.after =
        { x.before with
          nodes := x.before.nodes.insert e.recipient r.state, queue, loss, log,
          delivered := x.before.delivered + 1 }) :
      Handles x e .delivered
  | lost {p : Packet P.Msg} {rest : Fifo (Packet P.Msg)} {loss : Loss}
      (hpop : x.before.queue.pop? = some (p, rest)) (he : P.Records e p)
      (hafter : x.after =
        { x.before with queue := rest, loss, dropped := x.before.dropped + 1 }) :
      Handles x e .lost
  | discarded {p : Packet P.Msg} {rest : Fifo (Packet P.Msg)} {loss : Loss}
      (hpop : x.before.queue.pop? = some (p, rest)) (he : P.Records e p)
      (hafter : x.after = { x.before with queue := rest, loss }) :
      Handles x e .discarded

/-- A message that passes through its encoding is what is read from the record. -/
theorem transmit_records {p : Packet P.Msg} {m : P.Msg} (he : P.Records e p)
    (hm : sim.transmit p.body = .ok m) :
    if sim.wire then P.decode e.body = .ok m else m = p.body := by
  unfold transmit at hm
  split at hm
  · rename_i hwire
    rw [if_pos hwire]
    rw [he.body] at hm
    cases hdecode : P.decode e.body with
    | error error =>
      simp only [hdecode] at hm
      cases hm
    | ok m' =>
      simp only [hdecode] at hm
      cases hm
      rfl
  · rename_i hwire
    rw [if_neg hwire]
    cases hm
    rfl

theorem contains_insert_of_get? {nodes : SortedMap NodeId P.State} {node : NodeId} {s s' : P.State}
    (hs : nodes.get? node = some s) (id : NodeId) :
    (nodes.insert node s').contains id = nodes.contains id := by
  rw [SortedMap.contains, SortedMap.contains, SortedMap.get?_insert]
  split
  · rename_i hid
    rw [← Ranked.rank_eq_iff.mp hid, hs]
    rfl
  · rfl

/-- The accounts of a simulation, from its start on, balance: the log, the losses and the counters
agree on what has been taken out of the queue. -/
structure Balanced (start : Simulation P) (done : List (Packet Bytes)) (sim : Simulation P) :
    Prop where
  onRecord : sim.OnRecord done
  loss : sim.loss = Loss.after start.loss.chance start.loss.key done.length
  nodes : ∀ id, sim.nodes.contains id = start.nodes.contains id
  delivered : sim.delivered = (start.fates done).count .delivered
  dropped : sim.dropped = (start.fates done).count .lost

theorem Balanced.concat (h : start.Balanced done sim) {f : Fate}
    (hf : start.fate done.length e.recipient = f) (honRecord : next.OnRecord (done ++ [e]))
    (hloss : next.loss = Loss.after start.loss.chance start.loss.key (done.length + 1))
    (hnodes : ∀ id, next.nodes.contains id = sim.nodes.contains id)
    (hdelivered : next.delivered = sim.delivered + [f].count .delivered)
    (hdropped : next.dropped = sim.dropped + [f].count .lost) :
    start.Balanced (done ++ [e]) next where
  onRecord := honRecord
  loss := by rw [hloss, List.length_append, List.length_singleton]
  nodes id := (hnodes id).trans (h.nodes id)
  delivered := by rw [hdelivered, h.delivered, fates_concat, hf, List.count_append]
  dropped := by rw [hdropped, h.dropped, fates_concat, hf, List.count_append]

theorem Balanced.draw (h : start.Balanced done sim) {survives : Bool} {loss : Loss}
    (hdraw : sim.loss.draw = .ok (survives, loss)) :
    survives = start.loss.chance.survives start.loss.key done.length ∧
      loss = Loss.after start.loss.chance start.loss.key (done.length + 1) := by
  rw [h.loss, Loss.draw_after] at hdraw
  exact hdraw.2

/-- **A step takes an input, or else the next message on record**, and deals with it according to
its fate. -/
theorem Balanced.step (h : start.Balanced done sim) (hstep : sim.step = .ok (some next)) :
    (Transition.TakesInput ⟨sim, next⟩ ∧ start.Balanced done next) ∨
      (sim.inputs.toList = [] ∧ ∃ e,
        Transition.Handles ⟨sim, next⟩ e (start.fate done.length e.recipient) ∧
        start.Balanced (done ++ [e]) next) := by
  have hknown : ∀ id, start.nodes.contains id = (sim.nodes.get? id).isSome := fun id =>
    (h.nodes id).symm
  cases step_takes hstep with
  | input hpop hs hr hqueue hsent =>
    refine .inl ⟨⟨_, _, _, _, _, _, _, hpop, hs, hr, hqueue, rfl⟩, ?_, h.loss, fun id => ?_,
      h.delivered, h.dropped⟩
    · refine OnRecord.enqueueFrom ?_ hsent
      exact h.onRecord
    · exact (contains_insert_of_get? hs id).trans (h.nodes id)
  | lost hinputs hpop hdraw =>
    obtain ⟨hdead, rfl⟩ := h.draw hdraw
    obtain ⟨e, he, honRecord⟩ := h.onRecord.take hpop
    have hf : start.fate done.length e.recipient = .lost := fate_eq_lost_iff.mpr hdead.symm
    refine .inr ⟨Fifo.toList_of_pop?_none hinputs, e, ?_, ?_⟩
    · rw [hf]
      exact .lost hpop he rfl
    · exact h.concat hf honRecord rfl (fun _ => rfl) rfl rfl
  | discarded hinputs hpop hdraw hs =>
    obtain ⟨halive, rfl⟩ := h.draw hdraw
    obtain ⟨e, he, honRecord⟩ := h.onRecord.take hpop
    have hf : start.fate done.length e.recipient = .discarded := by
      simp [fate, ← halive, hknown, he.recipient, hs]
    refine .inr ⟨Fifo.toList_of_pop?_none hinputs, e, ?_, ?_⟩
    · rw [hf]
      exact .discarded hpop he rfl
    · exact h.concat hf honRecord rfl (fun _ => rfl) rfl rfl
  | @delivered p _ _ _ _ _ _ _ hinputs hpop hdraw hs hm hr hqueue hsent =>
    obtain ⟨halive, rfl⟩ := h.draw hdraw
    obtain ⟨⟨sender, recipient, bytes⟩, he, honRecord⟩ := h.onRecord.take hpop
    obtain rfl : sender = p.sender := he.sender
    obtain rfl : recipient = p.recipient := he.recipient
    have hf : start.fate done.length p.recipient = .delivered := by
      simp [fate, ← halive, hknown, hs]
    refine .inr ⟨Fifo.toList_of_pop?_none hinputs, ⟨p.sender, p.recipient, bytes⟩, ?_, ?_⟩
    · rw [hf]
      exact .delivered hpop he hs (transmit_records he hm) hr hqueue rfl
    · refine h.concat hf (OnRecord.enqueueFrom ?_ hsent) rfl (contains_insert_of_get? hs) rfl rfl
      exact honRecord

/-! ### Any operations -/

/-- How many of some steps have taken a message: those before which no input was waiting. -/
def processed (past : List (Transition P)) : Nat :=
  past.countP fun x => x.before.inputs.toList.isEmpty

theorem processed_concat (x : Transition P) : processed (past ++ [x]) =
    processed past + if x.before.inputs.toList.isEmpty then 1 else 0 := by
  simp [processed, List.countP_append, List.countP_singleton]

/-- What one of the steps since the start has done, given the steps before it and all the messages
on record that have been taken: it took an input, or the first of them that was left. -/
def Accords (start : Simulation P) (done : List (Packet Bytes)) (earlier : List (Transition P))
    (x : Transition P) : Prop :=
  x.TakesInput ∨ x.before.inputs.toList = [] ∧ ∃ e, done[processed earlier]? = some e ∧
    x.Handles e (start.fate (processed earlier) e.recipient)

/-- What is known of a simulation after some steps and other operations. -/
structure Ledger (start : Simulation P) (past : List (Transition P)) (done : List (Packet Bytes))
    (sim : Simulation P) : Prop where
  balanced : start.Balanced done sim
  processed : done.length = processed past
  steps : ∀ earlier x later, past = earlier ++ x :: later → start.Accords done earlier x

theorem Accords.append {earlier : List (Transition P)} {x : Transition P}
    (h : start.Accords done earlier x) (new : List (Packet Bytes)) :
    start.Accords (done ++ new) earlier x := by
  obtain hinput | ⟨hinputs, e, he, hhandles⟩ := h
  · exact .inl hinput
  · refine .inr ⟨hinputs, e, ?_, hhandles⟩
    rw [List.getElem?_append_left (List.getElem?_eq_some_iff.mp he).1, he]

/-- One more step goes into the ledger, with the messages that it took. -/
theorem Ledger.concat {x : Transition P} {new : List (Packet Bytes)}
    (h : Ledger start past done sim) (hbalanced : start.Balanced (done ++ new) next)
    (hnew : new.length = if x.before.inputs.toList.isEmpty then 1 else 0)
    (hx : start.Accords (done ++ new) past x) :
    Ledger start (past ++ [x]) (done ++ new) next where
  balanced := hbalanced
  processed := by rw [List.length_append, h.processed, hnew, processed_concat]
  steps earlier y later hpast := by
    -- either the step is the new one, or it stands in the ledger already
    rcases List.eq_nil_or_concat later with rfl | ⟨init, last, rfl⟩
    · obtain ⟨rfl, hy⟩ := List.append_inj' hpast rfl
      cases hy
      exact hx
    · rw [List.concat_eq_append, ← List.cons_append, ← List.append_assoc] at hpast
      exact (h.steps earlier y init (List.append_inj' hpast rfl).1).append new

/-- **What a step puts in the ledger.** -/
theorem Ledger.step (h : Ledger start past done sim) (hstep : sim.step = .ok (some next)) :
    ∃ new, Ledger start (past ++ [⟨sim, next⟩]) (done ++ new) next := by
  rcases h.balanced.step hstep with ⟨hinput, hbalanced⟩ | ⟨hinputs, e, hhandles, hbalanced⟩
  · refine ⟨[], h.concat (by rwa [List.append_nil]) ?_ (.inl hinput)⟩
    obtain ⟨_, _, _, _, _, _, _, hpop, -⟩ := hinput
    rw [Fifo.toList_of_pop? hpop]
    rfl
  · refine ⟨[e], h.concat hbalanced (by simp [hinputs]) (.inr ⟨hinputs, e, ?_, ?_⟩)⟩
    · rw [← h.processed, List.getElem?_concat_length]
    · rwa [← h.processed]

theorem Ledger.fresh (hlog : start.log = some {}) (hqueue : start.queue = {})
    (hloss : start.loss.drawn = 0) (hdelivered : start.delivered = 0)
    (hdropped : start.dropped = 0) : Ledger start [] [] start where
  balanced :=
    { onRecord := ⟨{}, [], hlog, rfl, by rw [hqueue]; exact .nil⟩
      loss := by
        rw [Loss.after, List.length_nil, Nat.mul_zero, ← hloss]
      nodes := fun _ => rfl
      delivered := hdelivered
      dropped := hdropped }
  processed := rfl
  steps _ _ _ hpast := by simp at hpast

/-- What takes no message and counts nothing puts nothing in the ledger. -/
theorem Ledger.untouched (h : Ledger start past done sim) (honRecord : next.OnRecord done)
    (hloss : next.loss = sim.loss)
    (hnodes : ∀ id, next.nodes.contains id = sim.nodes.contains id)
    (hdelivered : next.delivered = sim.delivered) (hdropped : next.dropped = sim.dropped) :
    ∃ new, Ledger start (past ++ []) (done ++ new) next := by
  refine ⟨[], ?_⟩
  rw [List.append_nil, List.append_nil]
  exact
    { balanced :=
        { onRecord := honRecord
          loss := hloss.trans h.balanced.loss
          nodes := fun id => (hnodes id).trans (h.balanced.nodes id)
          delivered := hdelivered.trans h.balanced.delivered
          dropped := hdropped.trans h.balanced.dropped }
      processed := h.processed
      steps := h.steps }

/-- **What steps put in the ledger**, taken until something holds or nothing is left to do. -/
theorem Ledger.runUntil {f : Simulation P → Bool} {limit : Nat} (h : Ledger start past done sim)
    (hrun : (·.1) <$> sim.runUntil f limit = .ok last) :
    ∃ new, Ledger start (past ++ sim.stepsUntil f limit) (done ++ new) last := by
  induction limit generalizing sim past done with
  | zero =>
    cases hrun
    exact ⟨[], by simpa [stepsUntil] using h⟩
  | succ limit ih =>
    rw [Simulation.runUntil] at hrun
    rw [stepsUntil]
    split at hrun
    · rename_i hdone
      cases hrun
      exact ⟨[], by simpa [hdone] using h⟩
    · rename_i hdone
      rw [if_neg hdone]
      cases hnext : sim.step with
      | error fault =>
        rw [hnext] at hrun
        cases hrun
      | ok next =>
        rw [hnext] at hrun
        cases next with
        | none =>
          cases hrun
          exact ⟨[], by simpa using h⟩
        | some next =>
          obtain ⟨new, hledger⟩ := h.step hnext
          obtain ⟨more, hledger⟩ := ih hledger hrun
          refine ⟨new ++ more, ?_⟩
          rwa [List.append_assoc, List.append_assoc] at hledger

/-- **What an operation puts in the ledger.** -/
theorem Ledger.operate (h : Ledger start past done sim) {o : Operation P}
    (hnext : sim.operate o = .ok next) :
    ∃ new, Ledger start (past ++ sim.stepsOf o) (done ++ new) next := by
  cases o with
  | addInputs inputs =>
    cases hnext
    exact h.untouched h.balanced.onRecord rfl (fun _ => rfl) rfl rfl
  | enqueueFrom sender out =>
    have honRecord := h.balanced.onRecord.enqueueFrom hnext
    obtain ⟨queue, log, rfl, -⟩ := enqueueFrom_eq_ok hnext
    exact h.untouched honRecord rfl (fun _ => rfl) rfl rfl
  | modify node f =>
    obtain ⟨s, hs, rfl⟩ := modify_eq_ok hnext
    exact h.untouched h.balanced.onRecord rfl (contains_insert_of_get? hs) rfl rfl
  | setWire wire =>
    cases hnext
    exact h.untouched h.balanced.onRecord rfl (fun _ => rfl) rfl rfl
  | runAll =>
    refine h.runUntil ?_
    rw [← fst_runSteps]
    exact hnext
  | runSteps max =>
    refine h.runUntil ?_
    rw [← fst_runSteps]
    exact hnext
  | runUntil f limit => exact h.runUntil hnext

/-- **What operations put in the ledger.** -/
theorem Ledger.follow {os : List (Operation P)} {later : List (Transition P)}
    (h : Ledger start past done sim) (hos : sim.follow os = .ok (later, last)) :
    ∃ new, Ledger start (past ++ later) (done ++ new) last := by
  induction os generalizing sim past done later with
  | nil =>
    cases hos
    exact ⟨[], by simpa using h⟩
  | cons o os ih =>
    rw [Simulation.follow] at hos
    obtain ⟨next, hnext, hos⟩ := bind_eq_ok hos
    obtain ⟨⟨rest, last'⟩, hrest, hos⟩ := bind_eq_ok hos
    cases hos
    obtain ⟨new, hledger⟩ := h.operate hnext
    obtain ⟨more, hledger⟩ := ih hledger hrest
    refine ⟨new ++ more, ?_⟩
    rwa [List.append_assoc, List.append_assoc] at hledger

/-- **The log accounts for everything.**  A simulation starts with any nodes and inputs, with an
empty log, and with messages that survive with a probability `p`, given by its bits.  After any
operations that do not fail, the log has as many entries as messages were delivered, were lost, were
discarded for want of a recipient, and are in the queue.  The queue holds what comes last in the
log, in the same order.  A step takes an input if one is waiting.  Otherwise it takes message `k` of
the log, where `k` is the number of steps before it that have taken a message.  This message is
lost, or discarded as its recipient is no node, or delivered to the recipient on record in the name
of the sender on record.  Whether it is lost follows from `p`, the seed and `k`.  One random word
has been used for every message taken if `p` is below one, and none at all otherwise. -/
theorem log_accounts_for_everything {nodes : SortedMap NodeId P.State}
    {inputs : Fifo (NodeId × P.Input)} {wire : Bool} {p seed : UInt64} {os : List (Operation P)}
    (hstart : start =
      { nodes, inputs, wire, loss := .seeded (.ofBinary64 p) seed, log := some {} })
    (hos : start.follow os = .ok (past, last)) :
    ∃ log, last.log = some log ∧
      log.length = last.delivered + last.dropped +
        (start.fates (log.toList.take (processed past))).count .discarded + last.queue.length ∧
      last.delivered = (start.fates (log.toList.take (processed past))).count .delivered ∧
      last.dropped = (start.fates (log.toList.take (processed past))).count .lost ∧
      List.Forall₂ P.Records (log.toList.drop (processed past)) last.queue.toList ∧
      (∀ earlier x later, past = earlier ++ x :: later →
        x.TakesInput ∨ x.before.inputs.toList = [] ∧
          ∃ e, log.toList[processed earlier]? = some e ∧
            x.Handles e (start.fate (processed earlier) e.recipient)) ∧
      (∀ k recipient, start.fate k recipient = .lost ↔
        (Chance.ofBinary64 p).survives (Key.ofSeed seed) k = false) ∧
      last.loss.drawn = if Chance.IsBelowOne p then processed past else 0 := by
  subst hstart
  obtain ⟨done, h⟩ := (Ledger.fresh rfl rfl rfl rfl rfl).follow hos
  rw [List.nil_append, List.nil_append] at h
  obtain ⟨log, waiting, hlog, hlist, hwaiting⟩ := h.balanced.onRecord
  have htake : log.toList.take (processed past) = done := by
    rw [hlist, ← h.processed, List.take_left]
  have hdrop : log.toList.drop (processed past) = waiting := by
    rw [hlist, ← h.processed, List.drop_left]
  refine ⟨log, hlog, ?_, ?_, ?_, by rwa [hdrop], fun earlier x later hpast => ?_,
    fun k recipient => fate_eq_lost_iff, ?_⟩
  · rw [htake, h.balanced.delivered, h.balanced.dropped, ← length_eq_count, fates,
      List.length_mapIdx, ← Fifo.length_toList, ← Fifo.length_toList, hlist, List.length_append,
      hwaiting.length_eq]
  · rw [htake, h.balanced.delivered]
  · rw [htake, h.balanced.dropped]
  · obtain hinput | ⟨hinputs, e, he, hhandles⟩ := h.steps earlier x later hpast
    · exact .inl hinput
    · refine .inr ⟨hinputs, e, ?_, hhandles⟩
      rw [hlist, List.getElem?_append_left (List.getElem?_eq_some_iff.mp he).1, he]
  · rw [h.balanced.loss, ← h.processed]
    change (Chance.ofBinary64 p).cost * done.length = _
    rw [Chance.cost_ofBinary64]
    split <;> simp

end

/-! ### Pings with losses -/

/-- Two nodes, the first of which is to send a ping.  A quarter of the messages is lost. -/
def lossyPings : Simulation (.pingPong 1) where
  nodes := .ofList [(⟨1⟩, PingPong.State.initial 1), (⟨2⟩, PingPong.State.initial 1)]
  inputs := .ofList [(⟨1⟩, ⟨⟨2⟩, 3⟩)]
  loss := .seeded (.ofBinary64 0x3FE8000000000000) 36
  log := some {}

/-- The ping arrives; another node then sends two more, one of them to nobody, and is asked for a
third. -/
def morePings : List (Operation (.pingPong 1)) :=
  [.runUntil (fun sim => sim.delivered = 1) 10, .enqueueFrom ⟨2⟩ [⟨⟨9⟩, ⟨0⟩⟩, ⟨⟨1⟩, ⟨2⟩⟩],
    .modify ⟨1⟩ fun s => { s with output := none }, .setWire true, .addInputs [(⟨2⟩, ⟨⟨1⟩, 1⟩)],
    .runSteps 5]

/-- Of seven messages three are delivered, one is lost and one discarded; two are in the queue. -/
theorem log_accounts_for_seven_pings : ∃ past last log,
    lossyPings.follow morePings = .ok (past, last) ∧ last.log = some log ∧ log.length = 7 ∧
    last.delivered = 3 ∧ last.dropped = 1 ∧ last.queue.length = 2 ∧ last.loss.drawn = 5 ∧
    (lossyPings.fates (log.toList.take 5)).count .discarded = 1 := by
  have hcheck : (lossyPings.follow morePings).toOption.any (fun x => processed x.1 = 5 ∧
      x.2.log.any (·.length = 7) ∧ x.2.delivered = 3 ∧ x.2.dropped = 1 ∧ x.2.queue.length = 2) =
      true := by
    decide +kernel
  obtain ⟨⟨past, last⟩, hfollow, hcheck⟩ := (Option.any_eq_true _ _).mp hcheck
  obtain ⟨hprocessed, hlength, hdelivered, hdropped, hqueue⟩ := of_decide_eq_true hcheck
  have hfollow := Mesh.eq_ok_of_toOption hfollow
  obtain ⟨log, hlog, haccounts, -, -, -, -, -, hdrawn⟩ :=
    log_accounts_for_everything (Eq.refl lossyPings) hfollow
  dsimp only at hprocessed hlength hdelivered hdropped hqueue
  rw [hlog] at hlength
  have hlength : log.length = 7 := of_decide_eq_true hlength
  rw [hprocessed, hlength, hdelivered, hdropped, hqueue] at haccounts
  rw [hprocessed, if_pos (by decide)] at hdrawn
  refine ⟨past, last, log, hfollow, hlog, hlength, hdelivered, hdropped, hqueue, hdrawn, ?_⟩
  omega

end Simulation

end Quorum
