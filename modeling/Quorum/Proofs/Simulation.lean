import Quorum.Proofs.Recorded
import Quorum.Proofs.Run
import Quorum.Proofs.SortedMap
import Quorum.Simulation

/-!
# Simulation — steps that are taken, and runs that end

A step of a simulation takes the oldest input, or else the oldest message.  It fails only where the
node fails, or where a message is to be encoded and cannot be.  A run in which every step lowers a
number ends before that many steps.

**Main statements.**  `start_ok`, `step_input`, `step_deliver`: how a simulation starts and goes on.
`step_takes`: what a step has done.  `runSteps_of_decreasing` and `runSteps_ends`: the end of a run.
-/

namespace Quorum.Simulation

variable {P : Protocol} {sim : Simulation P}

/-- **A simulation starts, whatever the order of the ids, if every node does.** -/
theorem start_ok {ids : List NodeId} (h : ∀ id ∈ ids, ∃ s, P.start id = .ok s) :
    ∃ nodes, start P ids = .ok { nodes } ∧ ∀ id,
      (id ∈ ids ∧ ∃ s, P.start id = .ok s ∧ nodes.get? id = some s) ∨
        (id ∉ ids ∧ nodes.get? id = none) := by
  have hkeys : ∀ id, id ∈ (SortedMap.ofList (ids.map (·, ()))).keys ↔ id ∈ ids := by
    intro id
    rw [SortedMap.mem_keys]
    change (SortedMap.ofList _).contains id ↔ _
    simp [SortedMap.contains_ofList]
  obtain ⟨nodes, hnodes⟩ := Mesh.foldlM_start_ok (fun id hid => h id ((hkeys id).mp hid)) ∅
  refine ⟨nodes, ?_, fun id => ?_⟩
  · rw [start, hnodes]
    rfl
  · have hspec := Mesh.foldlM_start hnodes id
    rwa [hkeys] at hspec

/-- A message that can be read arrives as it was sent. -/
theorem transmit_ok {m : P.Msg} (h : ∃ bytes, P.encode m = .ok bytes ∧ P.decode bytes = .ok m) :
    sim.transmit m = .ok m := by
  obtain ⟨bytes, hencode, hdecode⟩ := h
  unfold transmit
  split
  · simp only [hencode, hdecode]
    rfl
  · rfl

theorem enqueueFrom_ok (sim : Simulation P) (sender : NodeId) {out : List (Outgoing P.Msg)}
    (h : ∀ o ∈ out, ∃ bytes, P.encode o.body = .ok bytes) :
    ∃ queue log, sim.enqueueFrom sender out = .ok { sim with queue, log } ∧
      queue.toList = sim.queue.toList ++ out.map (Outgoing.sentBy sender) := by
  induction out generalizing sim with
  | nil => exact ⟨sim.queue, sim.log, rfl, (List.append_nil _).symm⟩
  | cons o out ih =>
    obtain ⟨⟨bytes, hencode⟩, h⟩ := List.forall_mem_cons.mp h
    obtain ⟨log, hfirst⟩ : ∃ log, sim.enqueue (o.sentBy sender) =
        .ok { sim with queue := sim.queue.push (o.sentBy sender), log } := by
      unfold enqueue
      split
      · rename_i hlog
        exact ⟨none, by rw [← hlog]⟩
      · rw [show (o.sentBy sender).body = o.body from rfl, hencode]
        exact ⟨_, rfl⟩
    obtain ⟨queue, log', hrest, hqueue⟩ :=
      ih { sim with queue := sim.queue.push (o.sentBy sender), log } h
    refine ⟨queue, log', ?_, ?_⟩
    · rw [enqueueFrom, List.foldlM_cons, hfirst]
      exact hrest
    · rw [hqueue, Fifo.toList_push, List.append_assoc]
      rfl

/-- **An input is taken.** -/
theorem step_input {node : NodeId} {i : P.Input} {inputs : Fifo (NodeId × P.Input)} {s : P.State}
    {r : Reaction P.State P.Msg} (hpop : sim.inputs.pop? = some ((node, i), inputs))
    (hs : sim.nodes.get? node = some s) (hr : P.input node s i = .ok r)
    (hencode : ∀ o ∈ r.sent, ∃ bytes, P.encode o.body = .ok bytes) :
    ∃ queue log, sim.step = .ok (some
        { sim with nodes := sim.nodes.insert node r.state, inputs, queue, log }) ∧
      queue.toList = sim.queue.toList ++ r.sent.map (Outgoing.sentBy node) := by
  obtain ⟨queue, log, hsent, hqueue⟩ :=
    enqueueFrom_ok { sim with nodes := sim.nodes.insert node r.state, inputs } node hencode
  refine ⟨queue, log, ?_, hqueue⟩
  rw [step, hpop]
  simp only [hs, hr, settle, hsent]
  rfl

/-- **A message is delivered**, if nothing is lost. -/
theorem step_deliver {p : Packet P.Msg} {rest : Fifo (Packet P.Msg)} {s : P.State}
    {r : Reaction P.State P.Msg} (hinputs : sim.inputs.pop? = none)
    (hpop : sim.queue.pop? = some (p, rest)) (hchance : sim.loss.chance = .certain)
    (hs : sim.nodes.get? p.recipient = some s)
    (hread : ∃ bytes, P.encode p.body = .ok bytes ∧ P.decode bytes = .ok p.body)
    (hr : P.receive p.recipient s p.sender p.body = .ok r)
    (hencode : ∀ o ∈ r.sent, ∃ bytes, P.encode o.body = .ok bytes) :
    ∃ queue log, sim.step = .ok (some { sim with
        nodes := sim.nodes.insert p.recipient r.state, queue, log,
        delivered := sim.delivered + 1 }) ∧
      queue.toList = rest.toList ++ r.sent.map (Outgoing.sentBy p.recipient) := by
  have hdraw : sim.loss.draw = .ok (true, sim.loss) := by
    rw [Randomness.Loss.draw, hchance]
  obtain ⟨queue, log, hsent, hqueue⟩ :=
    enqueueFrom_ok
      { sim with
        nodes := sim.nodes.insert p.recipient r.state, queue := rest,
        delivered := sim.delivered + 1 } p.recipient hencode
  refine ⟨queue, log, ?_, hqueue⟩
  rw [step, hinputs]
  simp only [hpop, hdraw, deliver, hs, transmit_ok hread, hr, settle, hsent]
  rfl

/-! ### What a step does -/

theorem enqueue_eq_ok {p : Packet P.Msg} {sim' : Simulation P} (h : sim.enqueue p = .ok sim') :
    ∃ log, sim' = { sim with queue := sim.queue.push p, log } := by
  unfold enqueue at h
  split at h
  · cases h
    exact ⟨_, rfl⟩
  · split at h
    · cases h
      exact ⟨_, rfl⟩
    · cases h

theorem enqueueFrom_eq_ok {sender : NodeId} {out : List (Outgoing P.Msg)} {sim' : Simulation P}
    (h : sim.enqueueFrom sender out = .ok sim') :
    ∃ queue log, sim' = { sim with queue, log } ∧
      queue.toList = sim.queue.toList ++ out.map (Outgoing.sentBy sender) := by
  induction out generalizing sim with
  | nil =>
    cases h
    exact ⟨_, _, rfl, (List.append_nil _).symm⟩
  | cons o out ih =>
    rw [enqueueFrom, List.foldlM_cons] at h
    obtain ⟨next, hfirst, h⟩ := bind_eq_ok h
    obtain ⟨log, rfl⟩ := enqueue_eq_ok hfirst
    obtain ⟨queue, log', rfl, hqueue⟩ := ih h
    refine ⟨queue, log', rfl, ?_⟩
    rw [hqueue, Fifo.toList_push, List.append_assoc]
    rfl

theorem modify_eq_ok {node : NodeId} {f : P.State → P.State} {sim' : Simulation P}
    (h : sim.modify node f = .ok sim') : ∃ s, sim.nodes.get? node = some s ∧
      sim' = { sim with nodes := sim.nodes.insert node (f s) } := by
  unfold modify at h
  split at h
  · cases h
  · rename_i s hs
    cases h
    exact ⟨s, hs, rfl⟩

/-- What one step makes of a simulation. -/
inductive Takes (sim : Simulation P) : Simulation P → Prop where
  | input {node : NodeId} {i : P.Input} {inputs : Fifo (NodeId × P.Input)} {s : P.State}
      {r : Reaction P.State P.Msg} {queue : Fifo (Packet P.Msg)}
      {log : Option (Fifo (Packet Bytes))}
      (hpop : sim.inputs.pop? = some ((node, i), inputs)) (hs : sim.nodes.get? node = some s)
      (hr : P.input node s i = .ok r)
      (hqueue : queue.toList = sim.queue.toList ++ r.sent.map (Outgoing.sentBy node))
      (hsent : enqueueFrom { sim with nodes := sim.nodes.insert node r.state, inputs } node r.sent =
        .ok { sim with nodes := sim.nodes.insert node r.state, inputs, queue, log }) :
      Takes sim { sim with nodes := sim.nodes.insert node r.state, inputs, queue, log }
  | lost {p : Packet P.Msg} {rest : Fifo (Packet P.Msg)} {loss : Randomness.Loss}
      (hinputs : sim.inputs.pop? = none) (hpop : sim.queue.pop? = some (p, rest))
      (hdraw : sim.loss.draw = .ok (false, loss)) :
      Takes sim { sim with queue := rest, loss, dropped := sim.dropped + 1 }
  /-- The message is for nobody. -/
  | discarded {p : Packet P.Msg} {rest : Fifo (Packet P.Msg)} {loss : Randomness.Loss}
      (hinputs : sim.inputs.pop? = none) (hpop : sim.queue.pop? = some (p, rest))
      (hdraw : sim.loss.draw = .ok (true, loss)) (hs : sim.nodes.get? p.recipient = none) :
      Takes sim { sim with queue := rest, loss }
  | delivered {p : Packet P.Msg} {rest queue : Fifo (Packet P.Msg)} {loss : Randomness.Loss}
      {s : P.State} {m : P.Msg} {r : Reaction P.State P.Msg} {log : Option (Fifo (Packet Bytes))}
      (hinputs : sim.inputs.pop? = none) (hpop : sim.queue.pop? = some (p, rest))
      (hdraw : sim.loss.draw = .ok (true, loss)) (hs : sim.nodes.get? p.recipient = some s)
      (hm : sim.transmit p.body = .ok m) (hr : P.receive p.recipient s p.sender m = .ok r)
      (hqueue : queue.toList = rest.toList ++ r.sent.map (Outgoing.sentBy p.recipient))
      (hsent : enqueueFrom
        { sim with
          nodes := sim.nodes.insert p.recipient r.state, queue := rest, loss,
          delivered := sim.delivered + 1 } p.recipient r.sent =
        .ok { sim with
          nodes := sim.nodes.insert p.recipient r.state, queue, loss, log,
          delivered := sim.delivered + 1 }) :
      Takes sim
        { sim with
          nodes := sim.nodes.insert p.recipient r.state, queue, loss, log
          delivered := sim.delivered + 1 }

theorem settle_eq_ok {node : NodeId} {outcome : Outcome P.State P.Msg} {sim' : Simulation P}
    (h : sim.settle node outcome = .ok sim') : ∃ r queue log, outcome = .ok r ∧
      sim' = { sim with nodes := sim.nodes.insert node r.state, queue, log } ∧
      queue.toList = sim.queue.toList ++ r.sent.map (Outgoing.sentBy node) := by
  unfold settle at h
  split at h
  · rename_i r
    obtain ⟨queue, log, rfl, hqueue⟩ := enqueueFrom_eq_ok h
    exact ⟨r, queue, log, rfl, rfl, hqueue⟩
  · cases h

theorem map_some_eq_ok {ε α : Type} {x : Except ε α} {a : α} (h : some <$> x = .ok (some a)) :
    x = .ok a := by
  cases x with
  | error e => cases h
  | ok b =>
    cases h
    rfl

/-- **A step takes an input, or else a message, which is lost, discarded or delivered.** -/
theorem step_takes {sim' : Simulation P} (h : sim.step = .ok (some sim')) : sim.Takes sim' := by
  unfold step at h
  split at h
  · rename_i node i inputs hpop
    split at h
    · cases h
    · rename_i s hs
      have h := map_some_eq_ok h
      obtain ⟨r, queue, log, hr, rfl, hqueue⟩ := settle_eq_ok h
      rw [hr] at h
      exact .input hpop hs hr hqueue h
  · rename_i hinputs
    split at h
    · cases h
    · rename_i p rest hpop
      split at h
      · cases h
      · rename_i loss hdraw
        have h := map_some_eq_ok h
        unfold deliver at h
        dsimp only at h
        split at h
        · rename_i hs
          cases h
          exact .discarded hinputs hpop hdraw hs
        · rename_i s hs
          split at h
          · cases h
          · rename_i m hm
            obtain ⟨r, queue, log, hr, rfl, hqueue⟩ := settle_eq_ok h
            rw [hr] at h
            exact .delivered hinputs hpop hdraw hs hm hr hqueue h
      · rename_i loss hdraw
        cases h
        exact .lost hinputs hpop hdraw

theorem inputs_ne_nil_of_step {sim' : Simulation P} (h : sim.step = .ok (some sim'))
    (hsome : sim'.inputs.toList ≠ []) : sim.inputs.toList ≠ [] := by
  cases step_takes h with
  | input hpop =>
    rw [Fifo.toList_of_pop? hpop]
    exact List.cons_ne_nil _ _
  | lost => exact hsome
  | discarded => exact hsome
  | delivered => exact hsome

/-! ### Runs -/

theorem map_some_ne_none {ε α : Type} (x : Except ε α) : some <$> x ≠ .ok none := by
  cases x <;> nofun

theorem step_eq_none (h : sim.step = .ok none) :
    sim.inputs.toList = [] ∧ sim.queue.toList = [] := by
  unfold step at h
  cases hinputs : sim.inputs.pop? with
  | some x =>
    rw [hinputs] at h
    dsimp only at h
    split at h
    · cases h
    · exact absurd h (map_some_ne_none _)
  | none =>
    rw [hinputs] at h
    cases hqueue : sim.queue.pop? with
    | none => exact ⟨Fifo.toList_of_pop?_none hinputs, Fifo.toList_of_pop?_none hqueue⟩
    | some x =>
      rw [hqueue] at h
      dsimp only at h
      split at h
      · cases h
      · exact absurd h (map_some_ne_none _)
      · cases h

/-- **A run in which every step lowers a number comes to its end.** -/
theorem runSteps_of_decreasing {good : Simulation P → Nat → Prop}
    (hstep : ∀ sim n, good sim n → sim.step = .ok none ∨
      ∃ sim' n', sim.step = .ok (some sim') ∧ good sim' n' ∧ n' < n)
    {n max : Nat} (h : good sim n) (hmax : n < max) :
    ∃ sim' n', sim.runSteps max = .ok (sim', false) ∧ good sim' n' ∧ sim'.step = .ok none := by
  induction max generalizing sim n with
  | zero => omega
  | succ max ih =>
    rcases hstep sim n h with hnone | ⟨sim', n', hsome, h', hlt⟩
    · exact ⟨sim, n, by rw [runSteps, hnone], h, hnone⟩
    · obtain ⟨last, n'', hrun, hlast⟩ := ih h' (by omega)
      exact ⟨last, n'', by rw [runSteps, hsome]; exact hrun, hlast⟩

/-- **A run in which every step leads further down comes to its end**, or stops at a fault. -/
theorem runSteps_ends {α : Type} [LT α] [WellFoundedLT α] (measure : Simulation P → α)
    (good : Simulation P → Prop) (bad : Fault → Prop)
    (hstep : ∀ sim next, good sim → sim.step = .ok (some next) →
      good next ∧ measure next < measure sim)
    (herror : ∀ sim fault, good sim → sim.step = .error fault → bad fault) (h : good sim) :
    ∃ n, (∃ last, sim.runSteps n = .ok (last, false) ∧ last.step = .ok none) ∨
      ∃ fault, sim.runSteps n = .error fault ∧ bad fault := by
  induction hmeasure : measure sim using WellFoundedLT.induction generalizing sim with
  | ind a ih =>
    subst hmeasure
    cases hnext : sim.step with
    | error fault =>
      exact ⟨1, .inr ⟨fault, by rw [runSteps, hnext], herror sim fault h hnext⟩⟩
    | ok next =>
      cases next with
      | none => exact ⟨1, .inl ⟨sim, by rw [runSteps, hnext], hnext⟩⟩
      | some next =>
        obtain ⟨hgood, hlt⟩ := hstep sim next h hnext
        obtain ⟨n, hend⟩ := ih (measure next) hlt hgood rfl
        refine ⟨n + 1, ?_⟩
        rw [runSteps, hnext]
        exact hend

end Quorum.Simulation
