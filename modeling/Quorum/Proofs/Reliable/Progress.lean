import Quorum.Proofs.Reliable.Exhaustion
import Quorum.Proofs.Reliable.Stamps

/-!
# Progress — no batch and no handshake gets stuck

Nothing is promised about when messages arrive, and so nothing about when a channel has done its
work.  But at any moment what is left to do can be done by what has to happen once: a tick sends
what is kept, its arrival makes the peer acknowledge it, and the arrival of the acknowledgement
ends the matter; and the same goes for the handshake that buffered messages wait for.

An acknowledgement may have travelled on a batch of the peer that is kept or forgotten, that has
been sent again since or belongs to an earlier incarnation.  What carries the acknowledgement for
a duplicate is looked up, and a coherent channel finds nothing else than what carries it.

**Main statements.**  `Link.Act.acknowledges`: a batch makes its recipient send one
acknowledgement.  `Life.purges`: the acknowledgement ends the matter.  `receive_settles`: an answer
sends what was buffered.  `nothing_gets_stuck`: all of this in any state that nodes can come to.
-/

namespace Quorum.Reliable

open SortedMap Link Mesh

/-! ### Acknowledgements -/

section
variable {μ : Type} {period : Time} {link link' : Link μ} {b : Batch μ} {i : BatchId}
  {news : List μ} {ms : List (Message μ)}

/-- Where a number is acknowledged once, one message does it. -/
theorem filter_acks_of_acksIn (h : acksIn ms = [i]) : ∃ m, ms.filter (i ∈ ·.acks) = [m] := by
  induction ms with
  | nil => cases h
  | cons m ms ih =>
    rcases List.append_eq_singleton_iff.mp h with ⟨hm, hms⟩ | ⟨hm, hms⟩
    · obtain ⟨m', hm'⟩ := ih hms
      refine ⟨m', ?_⟩
      rw [List.filter_cons_of_neg, hm']
      rw [hm]
      exact of_decide_eq_false rfl
    · refine ⟨m, ?_⟩
      rw [List.filter_cons_of_pos, List.filter_eq_nil_iff.mpr]
      · intro m' hm' hi
        have hnone := List.flatMap_eq_nil_iff.mp hms m' hm'
        rw [hnone] at hi
        exact absurd (of_decide_eq_true hi) List.not_mem_nil
      · rw [hm]
        exact decide_eq_true (List.mem_singleton_self i)

/-- **A batch makes its recipient acknowledge it in one message**, whether it is new to it or
not. -/
theorem Link.Act.acknowledges (hlink : link.Coherent)
    (h : link.Act period (some (.batch b)) news link' ms) (hid : b.id = some i) :
    ∃ m, ms.filter (i ∈ ·.acks) = [m] := by
  cases h with
  | acks hnone =>
    rw [hid] at hnone
    cases hnone
  | @again b id hid' _ =>
    cases hid.symm.trans hid'
    refine ⟨_, List.filter_eq_self.mpr fun m hm => decide_eq_true ?_⟩
    rw [List.mem_singleton.mp hm]
    -- the carrier that is found is a batch that carries the acknowledgement
    rcases reacknowledge_cases (link.accept b).1 i with ⟨j, kept, hj, hkept, heq⟩ | heq
    · rw [heq]
      exact (hlink.forgets (forgets_accept link b)).carries i j kept hj hkept
    · rw [heq]
      exact List.mem_singleton_self i
  | @fresh b id _ _ _ hid' _ hpost =>
    cases hid.symm.trans hid'
    exact filter_acks_of_acksIn (post_posted hpost).acks

/-! ### What a tick asks for -/

/-- Of all that a tick sends, a reset request is one thing at most. -/
theorem filter_asks_resent (period now : Time) (link : Link μ) :
    (link.resent period now).filter Message.asks =
      if link.needsReset then [.reset .request] else [] := by
  have hbatches : ∀ kepts : List (Unacked μ),
      (kepts.map fun kept => Message.batch kept.batch).filter Message.asks = [] := fun kepts =>
    List.filter_eq_nil_iff.mpr fun m hm => by
      obtain ⟨kept, -, rfl⟩ := List.mem_map.mp hm
      exact Bool.false_ne_true
  rw [resent, List.filter_append, hbatches, List.nil_append]
  split <;> rfl

/-! ### What was buffered -/

/-- Every message is a batch that is kept under its number. -/
def Link.Keeps (link : Link μ) (ms : List (Message μ)) : Prop :=
  ∀ m ∈ ms, ∃ j kept, link.unacked.get? j = some kept ∧ kept.batch.id = some j ∧
    m = .batch kept.batch

/-- Pieces that are sent are kept, and so is what was kept with smaller numbers. -/
theorem sendBatches_keeps {id : BatchId} {owed : Option BatchId} {chunks : List (List μ)}
    (h : link.sendBatches id owed chunks = .ok (link', ms)) :
    (∀ j kept, j.toNat < id.toNat → link.unacked.get? j = some kept →
      link'.unacked.get? j = some kept) ∧ link'.Keeps ms := by
  induction chunks generalizing link id owed ms with
  | nil =>
    cases h
    exact ⟨fun _ _ _ hkept => hkept, fun _ hm => absurd hm List.not_mem_nil⟩
  | cons chunk chunks ih =>
    obtain ⟨⟨next, m⟩, hbatch, h⟩ := bind_eq_ok h
    obtain ⟨⟨last, ms⟩, hrest, h⟩ := bind_eq_ok h
    cases h
    obtain ⟨hsucc, rfl, ackedIn, rfl⟩ := sendBatch_eq_ok hbatch
    obtain ⟨hold, hkeeps⟩ := ih hrest
    refine ⟨fun j kept hlt hkept => hold j kept (by omega) ?_, fun m hm => ?_⟩
    · change (link.unacked.insert id _).get? j = some kept
      rw [get?_insert_ne _ _ fun hid => Nat.lt_irrefl _ (hid ▸ hlt)]
      exact hkept
    · rcases List.mem_cons.mp hm with rfl | hm
      · exact ⟨id, _, hold id _ (by omega) (get?_insert_self ..), rfl, rfl⟩
      · exact hkeeps m hm

/-- **When the numbering is settled, all that was buffered goes out in batches that are kept.** -/
theorem settleNumbering_keeps {next : BatchId} (h : link.settleNumbering next = .ok (link', ms)) :
    link'.pending.toList = [] ∧ link'.Keeps ms ∧ carried ms = link.pending.toList := by
  refine ⟨(settle_posted h).2, ?_⟩
  unfold settleNumbering post at h
  split at h
  · rename_i hnil
    cases h
    exact ⟨fun _ hm => absurd hm List.not_mem_nil, (List.isEmpty_iff.mp hnil).symm⟩
  · refine ⟨(sendBatches_keeps h).2, ?_⟩
    rw [(sendBatches_numbered h rfl).carried, flatten_pieces (by decide) le_rfl]

end

/-! ### Nodes -/

section
variable {P : Protocol} {period : Time} {me sender q : NodeId} {s : State P}
  {log : List (Episode P)} {r : Reaction (State P) (Message P.Msg)} {i : BatchId}

theorem Life.coherent (hlife : Life period me log s) : s.Coherent := by
  obtain ⟨first, hstart, hcalls⟩ := hlife
  induction hcalls with
  | nil =>
    obtain ⟨nested, -, rfl⟩ := map_eq_ok hstart
    exact coherent_start nested
  | snoc _ hcall ih => exact ih.call hcall

theorem Life.snoc (hlife : Life period me log s) {c : Call P} (h : call period me s c = .ok r) :
    Life period me (log ++ [⟨s, c, r⟩]) r.state := by
  obtain ⟨first, hstart, hcalls⟩ := hlife
  exact ⟨first, hstart, hcalls.snoc h⟩

theorem Life.purges (hlife : Life period me log s) {kept : Unacked P.Msg}
    (hkept : (s.link sender).unacked.get? i = some kept) {m : Message P.Msg}
    (h : receive me s sender m = .ok r) (hi : i ∈ m.acks) :
    ¬ (r.state.link sender).unacked.contains i := by
  have hcall : call period me s (.message sender m) = .ok r := h
  obtain ⟨base, bs, hacc⟩ := hlife.account sender
  obtain ⟨hmem, hid⟩ := hacc.mem_of_kept hkept
  obtain ⟨-, -, -, -, hlast⟩ :=
    Account.next (x := ⟨s, .message sender m, r⟩) hacc hcall
  exact fun hcontains => ((hlast kept.batch hmem i hid).2 hcontains).2 m rfl hi

/-- A batch with a number that is accepted is acknowledged in one message. -/
theorem receive_acknowledges (hs : s.Coherent) (hsender : sender ∉ s.dismissed)
    {b : Batch P.Msg} (hid : b.id = some i) (h : receive me s sender (.batch b) = .ok r) :
    ∃ m, (addressedTo sender r.sent).filter (i ∈ ·.acks) = [m] := by
  have hcall : call 0 me s (.message sender (.batch b)) = .ok r := h
  have hstays : sender ∉ r.state.dismissed := by
    rw [mem_dismissed_call hcall, not_or]
    exact ⟨nofun, hsender⟩
  obtain ⟨-, nested, -, -, hact⟩ := call_act hcall hstays
  rw [came_eq_some.mpr ⟨rfl, hsender⟩] at hact
  exact hact.acknowledges (hs.links sender) hid

theorem receive_request (hsender : sender ∉ s.dismissed) :
    receive me s sender (.reset .request) =
      .ok { state := s.setLink sender (s.link sender).answerReset.1
            sent := [⟨sender, .reset ⟨true, (s.link sender).received.latest⟩⟩] } := by
  rw [receive, if_neg hsender]
  rfl

/-- **An answer with room for what was buffered settles the numbering**, and all of that goes out
in batches that are kept. -/
theorem receive_settles (hsender : sender ∉ s.dismissed) (hopen : (s.link sender).nextId = none)
    {latest : BatchId}
    (hroom : latest.toNat + 1 + batchCount (s.link sender).pending.toList.length < UInt32.size) :
    ∃ r, receive me s sender (.reset ⟨true, latest⟩) = .ok r ∧
      (r.state.link sender).pending.toList = [] ∧
      (r.state.link sender).Keeps (addressedTo sender r.sent) ∧
      carried (addressedTo sender r.sent) = (s.link sender).pending.toList := by
  have hroom : s.HasRoomFor me sender (.reset ⟨true, latest⟩) := fun _ _ _ => hroom
  obtain ⟨r, hr⟩ := onReset_ok_iff.mpr hroom
  refine ⟨r, by rw [receive, if_neg hsender]; exact hr, ?_⟩
  rcases onReset_cases hr with
    ⟨hrequest, -⟩ | ⟨-, hignored, -⟩ | ⟨next, link, ms, -, -, hnext, hsettle, hstate, hsent⟩
  · cases hrequest
  · rcases hignored with hinitialized | hlast
    · rw [isInitialized, hopen] at hinitialized
      cases hinitialized
    · have hlast := BatchId.next?_eq_none.mp hlast
      dsimp only at hlast
      omega
  · have hlink : r.state.link sender = link := by rw [hstate, link_setLink, if_pos rfl]
    rw [hlink, hsent, addressedTo_toPeer, if_pos rfl]
    exact settleNumbering_keeps hsettle

theorem onTick_asks (hopen : (s.link q).nextId = none)
    (hwaiting : (s.link q).pending.toList ≠ []) (now : Time) :
    (addressedTo q (onTick period s now).sent).filter Message.asks = [.reset .request] ∧
      ((onTick period s now).state.link q).nextId = none ∧
      ((onTick period s now).state.link q).pending = (s.link q).pending := by
  obtain ⟨hlink, hsent⟩ := onTick_link period now s q
  have hlength : (s.link q).pending.length ≠ 0 := by
    rw [← Fifo.length_toList]
    exact fun hzero => hwaiting (List.length_eq_zero_iff.mp hzero)
  have hneeds : (s.link q).needsReset = true := by
    simp [needsReset, isInitialized, hopen, hlength]
  rw [hlink, hsent, filter_asks_resent, if_pos hneeds]
  exact ⟨rfl, hopen, rfl⟩

end

/-! ### Meshes -/

section
variable {P : Protocol} {period : Time} {mesh : Mesh (P.recorded.reliable period)}
  {ids : List NodeId} {past : List (Moment (P.recorded.reliable period))} {a b : NodeId}
  {s t : State P.recorded}

/-- **No batch and no handshake gets stuck.**  Let two nodes be in any states that they can come to
while the network loses, duplicates and reorders messages and nodes restart, neither of them having
dismissed the other.  Of two ticks of the first node that are further apart than the period and not
earlier than its ticks before, one sends any given batch that is kept for the second.  As long as
there are numbers, the second takes the batch, acknowledges it in one message, and the first does
not keep it any more when that has arrived.  If messages of the first wait for the handshake, every
tick sends one reset request; the second answers it, and the answer makes the first send all that
waited, in order, in batches that are kept. -/
theorem nothing_gets_stuck (hrun : Run ids IsLossy past mesh)
    (hnested : ∀ me u x m, ∃ r, P.receive me u x m = .ok r)
    (hs : mesh.nodes.get? a = some s) (ht : mesh.nodes.get? b = some t)
    (hab : b ∉ s.dismissed) (hba : a ∉ t.dismissed) :
    (∀ i kept, (s.link b).unacked.get? i = some kept →
      (∀ t₁ t₂, (∀ x, Since past a x → ∀ now, x.event = .input a (.tick now) → now ≤ t₁) →
        t₁ + period < t₂ →
        .batch kept.batch ∈ addressedTo b (onTick period s t₁).sent ∨
          .batch kept.batch ∈
            addressedTo b (onTick period (onTick period s t₁).state t₂).sent) ∧
      (t.HasRoomFor b a (.batch kept.batch) →
        ∃ r m, receive b t a (.batch kept.batch) = .ok r ∧
          (addressedTo a r.sent).filter (i ∈ ·.acks) = [m] ∧
          (s.HasRoomFor a b m →
            ∃ r', receive a s b m = .ok r' ∧ ¬ (r'.state.link b).unacked.contains i))) ∧
    ((s.link b).pending.toList ≠ [] → ∀ now,
      (addressedTo b (onTick period s now).sent).filter Message.asks = [.reset .request] ∧
      ∃ r latest, receive b t a (.reset .request) = .ok r ∧
        r.sent = [⟨a, .reset ⟨true, latest⟩⟩] ∧
        (latest.toNat + 1 + batchCount (s.link b).pending.toList.length < UInt32.size →
          ∃ r', receive a (onTick period s now).state b (.reset ⟨true, latest⟩) = .ok r' ∧
            (r'.state.link b).pending.toList = [] ∧
            (r'.state.link b).Keeps (addressedTo b r'.sent) ∧
            carried (addressedTo b r'.sent) = (s.link b).pending.toList)) := by
  have hrecorded : ∀ me u x m, ∃ r, P.recorded.receive me u x m = .ok r := by
    intro me u x m
    obtain ⟨r, hr⟩ := hnested me (Recorded.state u) x m
    exact ⟨_, congrArg (Except.map _) hr⟩
  obtain ⟨logA, hlivesA⟩ := lives_of_run hrun a
  obtain ⟨logB, hlivesB⟩ := lives_of_run hrun b
  have hlifeA := hlivesA.life s hs
  have hlifeB := hlivesB.life t ht
  obtain ⟨base, bs, hacc⟩ := hlifeA.account b
  have hregister := hacc.register hab
  refine ⟨fun i kept hkept => ⟨fun t₁ t₂ hticks hlt => ?_, fun hroom => ?_⟩, fun hwaiting now => ?_⟩
  · obtain ⟨hlink, hsent⟩ := onTick_link period t₁ s b
    rw [hsent, (onTick_link period t₂ _ b).2, hlink]
    refine resent_of_ticks hkept (fun now hnow => ?_) hlt
    have hchannel : mesh.channel a b = s.link b := view_of_get? hs
    obtain ⟨x, hsince, hx⟩ := stamp_of_run hrun (hchannel ▸ hkept) hnow
    exact hticks x hsince now hx
  · have hid := (hregister.kept i kept hkept).2
    obtain ⟨r, hr⟩ := (receive_ok_iff (hrecorded b)).mpr (.inr hroom)
    obtain ⟨m, hm⟩ := receive_acknowledges hlifeB.coherent hba hid hr
    refine ⟨r, m, hr, hm, fun hroom' => ?_⟩
    obtain ⟨r', hr'⟩ := (receive_ok_iff (hrecorded a)).mpr (.inr hroom')
    have hmem : m ∈ (addressedTo a r.sent).filter (i ∈ ·.acks) := by
      rw [hm]
      exact List.mem_singleton_self m
    exact ⟨r', hr', hlifeA.purges hkept hr' (of_decide_eq_true (List.mem_filter.mp hmem).2)⟩
  · have hopen : (s.link b).nextId = none := by
      by_contra hsettled
      exact hwaiting (hregister.flushed hsettled)
    obtain ⟨hasks, hopen', hpending⟩ := onTick_asks hopen hwaiting now
    refine ⟨hasks, _, _, receive_request hba, rfl, fun hroom => ?_⟩
    rw [← hpending] at hroom ⊢
    exact receive_settles (s := (onTick period s now).state) hab hopen' hroom

/-- A batch for one peer has arrived there, but its acknowledgement is lost; a ping for another peer
waits for the handshake. -/
def halfDone : List (Event ((Protocol.pingPong 0).recorded.reliable 0)) :=
  let ping (peer : NodeId) : Event ((Protocol.pingPong 0).recorded.reliable 0) :=
    .input ⟨0⟩ (.nested (⟨peer, 0⟩ : PingPong.Serve))
  [ping ⟨1⟩, ping ⟨2⟩, .deliver 0, .deliver 2, .deliver 3, .input ⟨0⟩ (.tick 5)]

theorem halfDone_goes_on : ∃ past mesh s t kept, Run [⟨0⟩, ⟨1⟩, ⟨2⟩] IsLossy past mesh ∧
    past.map (·.event) = halfDone.reverse ∧
    mesh.nodes.get? ⟨0⟩ = some s ∧ mesh.nodes.get? ⟨1⟩ = some t ∧
    (State.link (P := (Protocol.pingPong 0).recorded) s ⟨1⟩).unacked.get? 1 = some kept ∧
    (.batch kept.batch ∈ addressedTo ⟨1⟩ (onTick 0 s 5).sent ∨
      .batch kept.batch ∈ addressedTo ⟨1⟩ (onTick 0 (onTick 0 s 5).state 6).sent) ∧
    (∃ r m, receive ⟨1⟩ t ⟨0⟩ (.batch kept.batch) = .ok r ∧
      (addressedTo ⟨0⟩ r.sent).filter (1 ∈ ·.acks) = [m]) ∧
    (addressedTo ⟨2⟩ (onTick 0 s 6).sent).filter Message.asks = [.reset .request] := by
  obtain ⟨past, mesh, hrun, hpast, htest⟩ :=
    @Run.exists ((Protocol.pingPong 0).recorded.reliable 0) [⟨0⟩, ⟨1⟩, ⟨2⟩] IsLossy halfDone
      (fun mesh => (mesh.nodes.get? ⟨0⟩).any fun s => (mesh.nodes.get? ⟨1⟩).any fun t =>
        (mesh.nodes.get? ⟨2⟩).any fun u =>
          ((s.link ⟨1⟩).unacked.get? 1).any (fun kept => kept.batch.id = some 1) ∧
          (t.link ⟨0⟩).received.contains 1 ∧ (s.link ⟨2⟩).pending.toList ≠ [] ∧
          s.dismissed = [] ∧ t.dismissed = [] ∧ u.dismissed = [])
      (by simp [halfDone, IsLossy]) (by decide +kernel)
  obtain ⟨s, hs, htest⟩ := (Option.any_eq_true _ _).mp htest
  obtain ⟨t, ht, htest⟩ := (Option.any_eq_true _ _).mp htest
  obtain ⟨u, hu, htest⟩ := (Option.any_eq_true _ _).mp htest
  obtain ⟨hkept, hreceived, hwaiting, hnone, hnone', hnone''⟩ := of_decide_eq_true htest
  obtain ⟨kept, hkept, hid⟩ := (Option.any_eq_true _ _).mp hkept
  have hstays : ∀ {v : State (Protocol.pingPong 0).recorded} (q : NodeId), v.dismissed = [] →
      q ∉ v.dismissed := fun q hv => hv ▸ List.not_mem_nil
  have hticks : ∀ x, Since past ⟨0⟩ x → ∀ now, x.event = .input ⟨0⟩ (.tick now) → now ≤ 5 := by
    intro x hx now hnow
    have hmem : x.event ∈ halfDone.reverse := hpast ▸ List.mem_map_of_mem hx.mem
    rw [hnow] at hmem
    simp [halfDone] at hmem
    exact Nat.le_of_eq hmem
  have hbatch := (nothing_gets_stuck hrun (fun _ _ _ _ => ⟨_, rfl⟩) hs ht (hstays _ hnone)
    (hstays _ hnone')).1 1 kept hkept
  have hask := (nothing_gets_stuck hrun (fun _ _ _ _ => ⟨_, rfl⟩) hs hu (hstays _ hnone)
    (hstays _ hnone'')).2 hwaiting 6
  obtain ⟨r, m, hr, hm, -⟩ := hbatch.2 fun id inner h hfresh => by
    cases h.symm.trans (of_decide_eq_true hid)
    exact absurd hreceived hfresh
  exact ⟨past, mesh, s, t, kept, hrun, hpast, hs, ht, hkept, hbatch.1 5 6 hticks (by decide),
    ⟨r, m, hr, hm⟩, hask.1⟩

end

end Quorum.Reliable
