import Quorum.Proofs.Reliable.Life

/-!
# Exhaustion — channels that run out of numbers

No number is used twice, and so a channel comes to an end: a node that has to send more batches
than there are numbers left fails.  It never fails on a message for another reason, as long as the
nested automaton does not.  How many numbers there are to begin with is up to the peer, which tells
where they start.  An answer that leaves no number at all is ignored; but the largest number cannot
be used either, and an answer that leaves only that one makes the node fail if anything waits.

**Main statements.**  `post_ok_iff` and `settleNumbering_ok_iff`: a channel fails if and only if it
runs out of numbers.  `fails_only_without_numbers`: so does a node on a message.
`answer_makes_node_fail`: one answer is enough for that.
-/

namespace Quorum.Reliable

open SortedMap Link

/-! ### Channels -/

def batchCount (n : Nat) : Nat := (n + (maxBatch - 1)) / maxBatch

namespace Link
variable {μ : Type} {link : Link μ}

theorem length_pieces {size : Nat} (hsize : 0 < size) {fuel : Nat} {l : List μ}
    (hfuel : l.length ≤ fuel) : (pieces size fuel l).length = (l.length + (size - 1)) / size := by
  induction fuel generalizing l with
  | zero =>
    obtain rfl := List.length_eq_zero_iff.mp (Nat.le_zero.mp hfuel)
    exact (Nat.div_eq_of_lt (by rw [List.length_nil]; omega)).symm
  | succ fuel ih =>
    cases l with
    | nil => exact (Nat.div_eq_of_lt (by rw [List.length_nil]; omega)).symm
    | cons a l =>
      rw [List.length_cons] at hfuel
      have hdrop : ((a :: l).drop size).length = l.length + 1 - size := List.length_drop
      rw [pieces, List.length_cons, ih (by omega), hdrop, List.length_cons]
      · -- the first piece takes `size` elements, or all of them
        by_cases hle : size ≤ l.length + 1
        · rw [← Nat.add_div_right _ hsize]
          congr 1
          omega
        · rw [Nat.div_eq_of_lt (by omega)]
          exact (Nat.div_eq_of_lt_le (by omega) (by omega)).symm
      · exact List.cons_ne_nil a l

/-- There are numbers for what is to be sent, or the numbering is not settled. -/
def HasRoom (link : Link μ) (msgs : List μ) : Prop :=
  ∀ id, link.nextId = some id → id.toNat + batchCount msgs.length < UInt32.size

/-- **A channel can send as long as there are numbers, and no longer.** -/
theorem post_ok_iff {news : List μ} {owed : Option BatchId} :
    (∃ x, link.post news owed = .ok x) ↔ link.HasRoom news := by
  unfold post HasRoom
  split
  · rename_i hnil
    refine ⟨fun _ id _ => ?_, fun _ => ⟨_, rfl⟩⟩
    have hzero : batchCount 0 = 0 := by decide
    rw [List.isEmpty_iff.mp hnil, List.length_nil, hzero]
    exact id.toNat_lt
  · cases hid : link.nextId with
    | none => exact ⟨fun _ id h => absurd h nofun, fun _ => ⟨_, rfl⟩⟩
    | some id =>
      simp only [Option.some.injEq, forall_eq']
      have hlength : (pieces maxBatch news.length news).length = batchCount news.length :=
        length_pieces (by decide) (Nat.le_refl _)
      rw [← hlength]
      constructor
      · rintro ⟨⟨link', ms⟩, h⟩
        have hnumbered := sendBatches_numbered h hid
        obtain ⟨last, hlast⟩ := Option.isSome_iff_exists.mp hnumbered.isSome
        have htop := hnumbered.top
        rw [Link.top, Link.top, hlast, hid] at htop
        rw [← htop]
        exact last.toNat_lt
      · intro hroom
        obtain ⟨link', ms, h⟩ := sendBatches_ok hroom
        exact ⟨_, h⟩

theorem settleNumbering_ok_iff {next : BatchId} :
    (∃ x, link.settleNumbering next = .ok x) ↔
      next.toNat + batchCount link.pending.toList.length < UInt32.size := by
  rw [settleNumbering, post_ok_iff, HasRoom]
  exact ⟨fun h => h next rfl, fun h id hid => by cases hid; exact h⟩

theorem bind_eq_error {ε α β : Type} {x : Except ε α} {f : α → Except ε β} {e : ε}
    (h : x.bind f = .error e) : x = .error e ∨ ∃ a, x = .ok a ∧ f a = .error e := by
  cases x with
  | error e' =>
    cases h
    exact .inl rfl
  | ok a => exact .inr ⟨a, rfl, h⟩

theorem sendBatches_error {id : BatchId} {owed : Option BatchId} {chunks : List (List μ)}
    {fault : Fault} (h : link.sendBatches id owed chunks = .error fault) :
    fault = .batchIdsExhausted := by
  induction chunks generalizing link id owed with
  | nil => cases h
  | cons chunk chunks ih =>
    rcases bind_eq_error h with h | ⟨⟨next, m⟩, -, h⟩
    · unfold sendBatch at h
      split at h
      · cases h
        rfl
      · cases h
    · rcases bind_eq_error h with h | ⟨⟨last, ms⟩, -, h⟩
      · exact ih h
      · cases h

/-- A channel fails for want of numbers only. -/
theorem post_error {news : List μ} {owed : Option BatchId} {fault : Fault}
    (h : link.post news owed = .error fault) : fault = .batchIdsExhausted := by
  unfold post at h
  split at h
  · cases h
  · split at h
    · cases h
    · exact sendBatches_error h

end Link

/-! ### Nodes -/

section
variable {P : Protocol} {period : Time} {me sender : NodeId} {s : State P} {m : Message P.Msg}
  {log : List (Episode P)}

/-- In a round of sending, a node fails if and only if a channel runs out of numbers. -/
theorem sendAfter_ok_iff {owed : Option (NodeId × BatchId)} {inner : Reaction P.State P.Msg} :
    (∃ r, sendAfter s owed inner = .ok r) ↔
      ∀ q ∉ s.dismissed, (s.link q).HasRoom (addressedTo q inner.sent) := by
  unfold sendAfter
  constructor
  · rintro ⟨r, h⟩ q hq
    split at h
    · rename_i round hround
      rcases (sendRound_post hround).2.2 q with ⟨-, hpost⟩ | ⟨hgone, -⟩
      · exact post_ok_iff.mp ⟨_, hpost⟩
      · exact absurd hgone hq
    · cases h
  · intro hroom
    obtain ⟨round, hround⟩ :
        ∃ round, sendRound { s with nested := inner.state } inner.sent owed = .ok round := by
      refine sendRound_ok fun q hq => ?_
      obtain ⟨⟨link, ms⟩, hpost⟩ := post_ok_iff.mpr (hroom q hq)
      exact ⟨link, ms, hpost⟩
    rw [hround]
    exact ⟨_, rfl⟩

theorem sendGroups_error {owed : NodeId → Option BatchId} {groups : List (NodeId × List P.Msg)}
    {sent : Array (Outgoing (Message P.Msg))} {fault : Fault}
    (h : sendGroups owed groups s sent = .error fault) : fault = .batchIdsExhausted := by
  induction groups generalizing s sent with
  | nil => cases h
  | cons group groups ih =>
    unfold sendGroups at h
    split at h
    · exact ih h
    · split at h
      · rename_i hpost
        cases h
        exact post_error hpost
      · exact ih h

theorem sendAfter_error {owed : Option (NodeId × BatchId)} {inner : Reaction P.State P.Msg}
    {failure : Failure} (h : sendAfter s owed inner = .error failure) :
    failure.fault = .batchIdsExhausted := by
  unfold sendAfter at h
  split at h
  · cases h
  · rename_i fault hround
    cases h
    rcases bind_eq_error hround with hround | ⟨x, -, hround⟩
    · exact sendGroups_error hround
    · cases hround

theorem exists_handOver (hnested : ∀ t x m, ∃ r, P.receive me t x m = .ok r)
    (sender : NodeId) (msgs : List P.Msg) (t : Handover P) :
    ∃ r, handOver me sender msgs t = .ok r := by
  induction msgs generalizing t with
  | nil => exact ⟨_, rfl⟩
  | cons m msgs ih =>
    obtain ⟨r, hr⟩ := hnested t.nested sender m
    simp only [handOver, hr]
    exact ih _

/-- There are numbers for all that a message makes a node send: for what the nested automaton
sends when it is handed the messages of a batch, or for what waits when the numbering is settled. -/
def State.HasRoomFor (me : NodeId) (s : State P) (sender : NodeId) : Message P.Msg → Prop
  | .batch b => ∀ id inner, b.id = some id → ¬ (s.link sender).received.contains id →
      handOver me sender b.msgs { nested := s.nested } = .ok inner →
      ∀ q ∉ s.dismissed, (s.link q).HasRoom (addressedTo q inner.sent)
  | .reset r => r.isResponse = true → ¬ s.isInitialized sender →
      r.latest.toNat + 1 < UInt32.size →
      r.latest.toNat + 1 + batchCount (s.link sender).pending.toList.length < UInt32.size

theorem onBatch_ok_iff (hnested : ∀ t x m, ∃ r, P.receive me t x m = .ok r) {b : Batch P.Msg} :
    (∃ r, onBatch me s sender b = .ok r) ↔ s.HasRoomFor me sender (.batch b) := by
  simp only [onBatch, State.HasRoomFor]
  rcases accept_cases (s.link sender) b with
    ⟨hid, hverdict⟩ | ⟨id, hid, hreceived, hverdict⟩ | ⟨id, hid, hfresh, hverdict⟩
  · rw [hverdict, hid]
    refine ⟨fun _ id _ h => ?_, fun _ => ⟨_, rfl⟩⟩
    cases h
  · rw [hverdict, hid]
    refine ⟨fun _ id' _ h hfresh => ?_, fun _ => ⟨_, rfl⟩⟩
    cases h
    exact absurd hreceived hfresh
  · obtain ⟨inner, hinner⟩ := exists_handOver hnested sender b.msgs { nested := s.nested }
    -- taking note of the batch does not change how many numbers are left
    have hroom : ∀ q, ((s.setLink sender ((s.link sender).accept b).1).link q).HasRoom
        (addressedTo q inner.sent) ↔ (s.link q).HasRoom (addressedTo q inner.sent) := by
      intro q
      rw [link_setLink]
      split
      · rename_i hq
        obtain ⟨_, _, _, _, haccept, -, -⟩ := accept_eq (s.link sender) b
        rw [haccept, hq]
        exact Iff.rfl
      · exact Iff.rfl
    rw [hverdict, hinner, hid]
    change (∃ r, sendAfter _ _ inner = .ok r) ↔ _
    rw [sendAfter_ok_iff]
    refine ⟨fun h id' inner' _ _ hinner' q hq => ?_, fun h q hq => ?_⟩
    · cases hinner'
      exact (hroom q).mp (h q hq)
    · exact (hroom q).mpr (h id inner rfl hfresh rfl q hq)

theorem onReset_ok_iff {r : Reset} :
    (∃ x, onReset s sender r = .ok x) ↔ s.HasRoomFor me sender (.reset r) := by
  unfold onReset State.HasRoomFor
  dsimp only
  split
  · rename_i hr
    refine ⟨fun _ h => ?_, fun _ => ⟨_, rfl⟩⟩
    rw [h] at hr
    cases hr
  · rename_i hr
    have hr : r.isResponse = true := by simpa using hr
    split
    · rename_i hinitialized
      exact ⟨fun _ _ h => absurd hinitialized h, fun _ => ⟨_, rfl⟩⟩
    · rename_i hinitialized
      cases hnext : r.latest.next? with
      | none =>
        exact ⟨fun _ _ _ hlt => absurd (BatchId.next?_eq_none.mp hnext) hlt.ne, fun _ => ⟨_, rfl⟩⟩
      | some next =>
        have hnumber := BatchId.next?_eq_some.mp hnext
        have hsettle : (∃ x, (s.link sender).settleNumbering next = .ok x) ↔ _ :=
          settleNumbering_ok_iff
        rw [hnumber] at hsettle
        have hlt : r.latest.toNat + 1 < UInt32.size := hnumber ▸ next.toNat_lt
        dsimp only
        constructor
        · rintro ⟨x, hx⟩ - - -
          split at hx
          · rename_i link ms h
            exact hsettle.mp ⟨_, h⟩
          · cases hx
        · intro hroom
          obtain ⟨⟨link, ms⟩, h⟩ := hsettle.mpr (hroom hr hinitialized hlt)
          rw [h]
          exact ⟨_, rfl⟩

/-- **A node accepts a message if and only if there are numbers for what it makes it send.** -/
theorem receive_ok_iff (hnested : ∀ t x m, ∃ r, P.receive me t x m = .ok r) :
    (∃ r, receive me s sender m = .ok r) ↔ sender ∈ s.dismissed ∨ s.HasRoomFor me sender m := by
  unfold receive
  split
  · rename_i hgone
    exact ⟨fun _ => .inl hgone, fun _ => ⟨_, rfl⟩⟩
  · rename_i hstays
    rw [or_iff_right hstays]
    cases m with
    | batch b => exact onBatch_ok_iff hnested
    | reset r => exact onReset_ok_iff

/-- A node fails on a message for want of numbers only. -/
theorem receive_error (hnested : ∀ t x m, ∃ r, P.receive me t x m = .ok r) {failure : Failure}
    (h : receive me s sender m = .error failure) : failure.fault = .batchIdsExhausted := by
  unfold receive at h
  split at h
  · cases h
  · cases m with
    | batch b =>
      simp only [onBatch] at h
      obtain ⟨inner, hinner⟩ := exists_handOver hnested sender b.msgs { nested := s.nested }
      split at h
      · cases h
      · cases h
      · rw [hinner] at h
        exact sendAfter_error h
    | reset r =>
      simp only [onReset] at h
      split at h
      · cases h
      · split at h
        · cases h
        · split at h
          · cases h
          · split at h
            · cases h
            · rename_i hsettle
              cases h
              exact post_error hsettle

/-- An answer that is accepted in the course of a life is ignored, when the peer has left or the
answer leaves no number, or else the numbering is settled afterwards and what waited is sent. -/
theorem Life.answered (hlife : Life period me log s) {latest : BatchId}
    {r : Reaction (State P) (Message P.Msg)}
    (h : receive me s sender (.reset ⟨true, latest⟩) = .ok r) :
    ((sender ∈ s.dismissed ∨ ¬ s.isInitialized sender ∧ latest.toNat + 1 = UInt32.size) ∧
      r.sent = [] ∧ ∀ q, r.state.link q = s.link q) ∨
    (r.state.isInitialized sender ∧ (r.state.link sender).pending.toList = [] ∧
      (numbered (addressedTo sender r.sent)).flatMap (·.msgs) =
        (s.link sender).pending.toList) := by
  obtain ⟨base, bs, hacc⟩ := hlife.account sender
  unfold receive at h
  split at h
  · rename_i hgone
    cases h
    exact .inl ⟨.inl hgone, rfl, fun q => rfl⟩
  · rename_i hstays
    have hreg := hacc.register hstays
    rcases onReset_cases h with
      ⟨hr, -, -⟩ | ⟨-, hignored, hstate, hsent⟩ |
      ⟨next, link, ms, -, hid, hnext, hsettle, hstate, hsent⟩
    · cases hr
    · have hlink : ∀ q, r.state.link q = s.link q := fun q => by
        rw [hstate, link_setLink_link]
      by_cases hinitialized : s.isInitialized sender
      · have hflushed := hreg.flushed (isInitialized_iff.mp hinitialized)
        refine .inr ⟨?_, ?_, ?_⟩
        · rw [State.isInitialized, hlink]
          exact hinitialized
        · rw [hlink]
          exact hflushed
        · rw [hsent, hflushed]
          rfl
      · have hnext := BatchId.next?_eq_none.mp (hignored.resolve_left hinitialized)
        exact .inl ⟨.inr ⟨hinitialized, hnext⟩, hsent, hlink⟩
    · obtain ⟨hreg', hadvance, hsettled⟩ := hreg.settleNumbering hid hnext hsettle
      have hflushed := hreg'.flushed hsettled
      have hconserved := hadvance.conserved
      rw [hflushed, List.append_nil, List.append_nil] at hconserved
      have hlink : r.state.link sender = link := by rw [hstate, link_setLink, if_pos rfl]
      refine .inr ⟨?_, ?_, ?_⟩
      · rw [isInitialized_iff, hlink]
        exact hsettled
      · rw [hlink]
        exact hflushed
      · rw [hsent, addressedTo_toPeer, if_pos rfl]
        exact hconserved

/-- **A node fails on a message only for want of numbers.**  If the nested automaton does not fail
on messages, then in the course of a life a node accepts a message from anybody if and only if the
sender has left, or there are numbers for all that the message makes it send; otherwise it has run
out of numbers.  An answer to a reset request that is accepted is ignored, when the sender has left
or it leaves no number, or settles the numbering, and all that waited is sent. -/
theorem fails_only_without_numbers (hlife : Life period me log s)
    (hnested : ∀ t x m, ∃ r, P.receive me t x m = .ok r) (sender : NodeId)
    (m : Message P.Msg) :
    ((∃ r, receive me s sender m = .ok r) ↔ sender ∈ s.dismissed ∨ s.HasRoomFor me sender m) ∧
    (∀ failure, receive me s sender m = .error failure → failure.fault = .batchIdsExhausted) ∧
    ∀ latest r, m = .reset ⟨true, latest⟩ → receive me s sender m = .ok r →
      ((sender ∈ s.dismissed ∨ ¬ s.isInitialized sender ∧ latest.toNat + 1 = UInt32.size) ∧
        r.sent = [] ∧ ∀ q, r.state.link q = s.link q) ∨
      (r.state.isInitialized sender ∧ (r.state.link sender).pending.toList = [] ∧
        (numbered (addressedTo sender r.sent)).flatMap (·.msgs) =
          (s.link sender).pending.toList) := by
  refine ⟨receive_ok_iff hnested, fun failure h => receive_error hnested h, ?_⟩
  rintro latest r rfl h
  exact hlife.answered h

def waitingPing : List (Call (Protocol.pingPong 0)) :=
  [.input (.nested (⟨⟨2⟩, 0⟩ : PingPong.Serve))]

/-- An answer that leaves two numbers, one of which can be used, is accepted. -/
theorem accepts_answer_with_room : ∃ log s, Life (P := Protocol.pingPong 0) 0 ⟨1⟩ log s ∧
    (s.link ⟨2⟩).pending.toList.length = 1 ∧
    ∃ r, receive ⟨1⟩ s ⟨2⟩ (.reset ⟨true, 0xfffffffd⟩) = .ok r := by
  obtain ⟨log, s, hlife, htest⟩ :=
    @Life.exists (Protocol.pingPong 0) 0 ⟨1⟩ waitingPing
      (fun _ s => (s.link ⟨2⟩).pending.toList.length = 1) (by decide +kernel)
  have hwaiting := of_decide_eq_true htest
  refine ⟨log, s, hlife, hwaiting, ?_⟩
  refine (fails_only_without_numbers hlife (fun _ _ _ => ⟨_, rfl⟩) ⟨2⟩ _).1.mpr (.inr ?_)
  intro _ _ _
  rw [hwaiting]
  decide

/-- **An answer that can be read makes a node fail**: it leaves the largest number, which is not
ignored and cannot be used. -/
theorem answer_makes_node_fail : ∃ log s m, Life (P := Protocol.pingPong 0) 0 ⟨1⟩ log s ∧
    (∀ t x m, ∃ r, (Protocol.pingPong 0).receive ⟨1⟩ t x m = .ok r) ∧
    ((Protocol.pingPong 0).reliable 0).decode [2, 1, 0xff, 0xff, 0xff, 0xfe] = .ok m ∧
    receive ⟨1⟩ s ⟨2⟩ m = .error { fault := .batchIdsExhausted } := by
  obtain ⟨log, s, hlife, htest⟩ :=
    @Life.exists (Protocol.pingPong 0) 0 ⟨1⟩ waitingPing
      (fun _ s =>
        match receive ⟨1⟩ s ⟨2⟩ (.reset ⟨true, 0xfffffffe⟩) with
        | .ok _ => false
        | .error failure => failure = { fault := .batchIdsExhausted })
      (by decide +kernel)
  refine ⟨log, s, .reset ⟨true, 0xfffffffe⟩, hlife, fun _ _ _ => ⟨_, rfl⟩, by rfl, ?_⟩
  split at htest
  · cases htest
  · rename_i failure hfails
    rw [hfails, of_decide_eq_true htest]

end

end Quorum.Reliable
