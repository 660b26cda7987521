import Mathlib.Data.List.Perm.Basic
import Quorum.Proofs.Recorded
import Quorum.Proofs.Reliable.ReceivedIds

/-!
# Channel — what one event does to the channel to a peer

Whatever happens at a node, the channel to a peer takes a turn: a batch may have arrived from the
peer, the nested automaton may have news for the peer, batches may get a number, and messages are
sent.  `Turn` says what all turns have in common: no nested message is lost or doubled on its way
into a batch, numbers are used once, a batch is kept until the peer acknowledges it, and only
numbers that count as received are acknowledged.

**Main statements.**  Every operation on a channel is a turn: `post_turn`, `settleNumbering_turn`,
`tick_turn`, `reacknowledge_turn`, `answerReset_turn`, `accept_turn`.  `Turn.trans`: turns in a row
are a turn.
-/

namespace Quorum.Reliable

open SortedMap

namespace Link
variable {μ : Type} {link link' link'' : Link μ}

/-! ### Turns -/

/-- The least number that the channel has not used. -/
def top (link : Link μ) : Nat :=
  match link.nextId with
  | none => 1
  | some id => id.toNat

/-- With a batch of number `id`, number `i` counts as received without having come: it is one of
those that are given up when the peer seems to have restarted. -/
def Skips (link : Link μ) (id i : BatchId) : Prop :=
  link.startsNewRun id ∧ ¬ link.received.contains i ∧
    ∃ answered, link.answeredReset = some answered ∧ i ≤ answered

/-- `Turn link arrived news new link' sent`: after the arrival of a batch, if any, and with nested
messages `news` for the peer, the channel `link` has become `link'`, has given numbers to the
batches `new`, and has sent the messages `sent`. -/
structure Turn (link : Link μ) (arrived : Option (Batch μ)) (news : List μ)
    (new : List (Batch μ)) (link' : Link μ) (sent : List (Message μ)) : Prop where
  /-- Nested messages go into batches with a number, or wait. -/
  conserved : (new.flatMap (·.msgs) ++ link'.pending.toList).Perm (link.pending.toList ++ news)
  top_le : link.top ≤ link'.top
  /-- The numbers of new batches are those not used before. -/
  numbered : ∀ b ∈ new, ∃ i, b.id = some i ∧ link.top ≤ i.toNat ∧ i.toNat < link'.top
  distinct : (new.map (·.id)).Nodup
  filled : ∀ b ∈ new, b.msgs ≠ []
  new_acks : ∀ b ∈ new, ∀ i ∈ b.acks, link'.received.contains i
  /-- A batch that is sent is new, or kept, or has no number. -/
  sends : ∀ b, .batch b ∈ sent → b ∈ new ∨ (∃ i kept, link.unacked.get? i = some kept ∧
    kept.batch = b) ∨ (b.id = none ∧ ∀ i ∈ b.acks, link'.received.contains i)
  /-- A batch that is kept is new, or was kept before. -/
  keeps : ∀ i kept', link'.unacked.get? i = some kept' →
    kept'.batch ∈ new ∨ ∃ kept, link.unacked.get? i = some kept ∧ kept.batch = kept'.batch
  /-- A number is kept until a batch arrives that acknowledges it. -/
  drops : ∀ i, link.unacked.contains i →
    link'.unacked.contains i ∨ ∃ b, arrived = some b ∧ i ∈ b.acks
  new_kept : ∀ b ∈ new, ∀ i, b.id = some i → link'.unacked.contains i
  /-- What counts as received: what did before, what arrives, and what is given up. -/
  received : ∀ i, link'.received.contains i ↔
    link.received.contains i ∨ ∃ b id, arrived = some b ∧ b.id = some id ∧
      (i = id ∨ link.Skips id i)

theorem contains_of_get? {κ α : Type} [Ranked κ] {m : SortedMap κ α} {k : κ} {a : α}
    (h : m.get? k = some a) : m.contains k := by
  rw [SortedMap.contains, h]
  rfl

theorem get?_of_contains {κ α : Type} [Ranked κ] {m : SortedMap κ α} {k : κ}
    (h : m.contains k) : ∃ a, m.get? k = some a :=
  Option.isSome_iff_exists.mp h

theorem Turn.refl (link : Link μ) : Turn link none [] [] link [] where
  conserved := by simp
  top_le := Nat.le_refl _
  numbered := fun _ h => absurd h List.not_mem_nil
  distinct := List.nodup_nil
  filled := fun _ h => absurd h List.not_mem_nil
  new_acks := fun _ h => absurd h List.not_mem_nil
  sends := fun _ h => absurd h List.not_mem_nil
  keeps := fun _ kept' h => .inr ⟨kept', h, rfl⟩
  drops := fun _ h => .inl h
  new_kept := fun _ h => absurd h List.not_mem_nil
  received := fun i => ⟨.inl, fun h => by
    rcases h with h | ⟨b, id, hb, -⟩
    · exact h
    · cases hb⟩

theorem Turn.received_mono {arrived : Option (Batch μ)} {news : List μ} {new : List (Batch μ)}
    {sent : List (Message μ)} (h : Turn link arrived news new link' sent) {i : BatchId}
    (hi : link.received.contains i) : link'.received.contains i :=
  (h.received i).mpr (.inl hi)

/-- **A turn, and another one without an arrival, are a turn.** -/
theorem Turn.trans {arrived : Option (Batch μ)} {news news' : List μ} {new new' : List (Batch μ)}
    {sent sent' : List (Message μ)} (h : Turn link arrived news new link' sent)
    (h' : Turn link' none news' new' link'' sent') :
    Turn link arrived (news ++ news') (new ++ new') link'' (sent ++ sent') where
  conserved := by
    have hfirst := h.conserved.append_right news'
    have hsecond := h'.conserved.append_left (new.flatMap (·.msgs))
    rw [← List.append_assoc] at hsecond
    rw [List.append_assoc] at hfirst hsecond
    rw [List.flatMap_append, List.append_assoc, ← List.append_assoc link.pending.toList]
    exact hsecond.trans hfirst
  top_le := Nat.le_trans h.top_le h'.top_le
  numbered := fun b hb => by
    rcases List.mem_append.mp hb with hb | hb
    · obtain ⟨i, hid, hle, hlt⟩ := h.numbered b hb
      exact ⟨i, hid, hle, Nat.lt_of_lt_of_le hlt h'.top_le⟩
    · obtain ⟨i, hid, hle, hlt⟩ := h'.numbered b hb
      exact ⟨i, hid, Nat.le_trans h.top_le hle, hlt⟩
  distinct := by
    rw [List.map_append, List.nodup_append]
    refine ⟨h.distinct, h'.distinct, ?_⟩
    rintro a ha a' ha' rfl
    -- one number lies below the top in between, the other one does not
    obtain ⟨b, hb, rfl⟩ := List.mem_map.mp ha
    obtain ⟨b', hb', hsame⟩ := List.mem_map.mp ha'
    obtain ⟨i, hid, -, hlt⟩ := h.numbered b hb
    obtain ⟨i', hid', hle, -⟩ := h'.numbered b' hb'
    rw [hid, hid'] at hsame
    cases hsame
    omega
  filled := fun b hb => by
    rcases List.mem_append.mp hb with hb | hb
    · exact h.filled b hb
    · exact h'.filled b hb
  new_acks := fun b hb i hi => by
    rcases List.mem_append.mp hb with hb | hb
    · exact h'.received_mono (h.new_acks b hb i hi)
    · exact h'.new_acks b hb i hi
  sends := fun b hb => by
    rcases List.mem_append.mp hb with hb | hb
    · rcases h.sends b hb with hnew | hkept | ⟨hid, hacks⟩
      · exact .inl (List.mem_append_left _ hnew)
      · exact .inr (.inl hkept)
      · exact .inr (.inr ⟨hid, fun i hi => h'.received_mono (hacks i hi)⟩)
    · rcases h'.sends b hb with hnew | ⟨i, kept', hkept', rfl⟩ | hack
      · exact .inl (List.mem_append_right _ hnew)
      · rcases h.keeps i kept' hkept' with hnew | ⟨kept, hkept, hsame⟩
        · exact .inl (List.mem_append_left _ hnew)
        · exact .inr (.inl ⟨i, kept, hkept, hsame⟩)
      · exact .inr (.inr hack)
  keeps := fun i kept'' hkept'' => by
    rcases h'.keeps i kept'' hkept'' with hnew | ⟨kept', hkept', hsame'⟩
    · exact .inl (List.mem_append_right _ hnew)
    · rcases h.keeps i kept' hkept' with hnew | ⟨kept, hkept, hsame⟩
      · exact .inl (List.mem_append_left _ (hsame' ▸ hnew))
      · exact .inr ⟨kept, hkept, hsame.trans hsame'⟩
  drops := fun i hi => by
    rcases h.drops i hi with hi | hacked
    · rcases h'.drops i hi with hi | ⟨b, hb, -⟩
      · exact .inl hi
      · cases hb
    · exact .inr hacked
  new_kept := fun b hb i hid => by
    rcases List.mem_append.mp hb with hb | hb
    · rcases h'.drops i (h.new_kept b hb i hid) with hi | ⟨b, hb, -⟩
      · exact hi
      · cases hb
    · exact h'.new_kept b hb i hid
  received := fun i => by
    rw [← h.received i, h'.received i]
    refine ⟨fun hi => ?_, .inl⟩
    rcases hi with hi | ⟨b, id, hb, -⟩
    · exact hi
    · cases hb

/-! ### Sending -/

theorem flatten_pieces {size : Nat} (hsize : 0 < size) {fuel : Nat} {l : List μ}
    (hfuel : l.length ≤ fuel) : (pieces size fuel l).flatten = l := by
  induction fuel generalizing l with
  | zero =>
    obtain rfl := List.length_eq_zero_iff.mp (Nat.le_zero.mp hfuel)
    rfl
  | succ fuel ih =>
    cases l with
    | nil => rfl
    | cons a l =>
      have hdrop : ((a :: l).drop size).length ≤ fuel := by
        rw [List.length_drop]
        omega
      rw [pieces, List.flatten_cons, ih hdrop, List.take_append_drop]
      exact List.cons_ne_nil a l

theorem ne_nil_of_mem_pieces {size : Nat} (hsize : 0 < size) {fuel : Nat} {l piece : List μ}
    (h : piece ∈ pieces size fuel l) : piece ≠ [] := by
  induction fuel generalizing l with
  | zero => cases h
  | succ fuel ih =>
    cases l with
    | nil => cases h
    | cons a l =>
      rw [pieces] at h
      · rcases List.mem_cons.mp h with rfl | h
        · intro hnil
          rcases List.take_eq_nil_iff.mp hnil with hzero | hnil
          · omega
          · cases hnil
        · exact ih h
      · exact List.cons_ne_nil a l

/-- What a batch that is sent is, and what it leaves behind. -/
theorem sendBatch_eq_ok {id : BatchId} {msgs : List μ} {owed : Option BatchId} {m : Message μ}
    (h : link.sendBatch id msgs owed = .ok (link', m)) :
    (id + 1).toNat = id.toNat + 1 ∧ m = .batch ⟨some id, msgs, owed.toList⟩ ∧
      ∃ ackedIn, link' =
        { link with
          nextId := some (id + 1)
          unacked := link.unacked.insert id { batch := ⟨some id, msgs, owed.toList⟩ }
          ackedIn } := by
  unfold sendBatch at h
  split at h
  · cases h
  · rename_i next hnext
    have hsucc : next = id + 1 := by
      unfold BatchId.next? at hnext
      split at hnext
      · exact (Option.some.inj hnext).symm
      · cases hnext
    subst hsucc
    cases h
    exact ⟨BatchId.next?_eq_some.mp hnext, rfl, _, rfl⟩

theorem sendBatch_turn {id : BatchId} {msgs : List μ} {owed : Option BatchId} {m : Message μ}
    (h : link.sendBatch id msgs owed = .ok (link', m)) (hid : link.nextId = some id)
    (hmsgs : msgs ≠ []) (howed : ∀ i ∈ owed, link.received.contains i) :
    (∃ new, Turn link none msgs new link' [m]) ∧ link'.nextId = some (id + 1) ∧
      link'.received = link.received := by
  obtain ⟨hnext, rfl, ackedIn, rfl⟩ := sendBatch_eq_ok h
  refine ⟨⟨[⟨some id, msgs, owed.toList⟩], ?_⟩, rfl, rfl⟩
  have htop : link.top = id.toNat := by rw [top, hid]
  exact
    { conserved := by
        rw [List.flatMap_singleton]
        exact List.perm_append_comm
      top_le := by
        rw [htop]
        exact (by omega : id.toNat ≤ (id + 1).toNat)
      numbered := fun b hb => by
        rw [List.mem_singleton.mp hb]
        exact ⟨id, rfl, Nat.le_of_eq htop, (by omega : id.toNat < (id + 1).toNat)⟩
      distinct := List.pairwise_singleton _ _
      filled := fun b hb => by
        rw [List.mem_singleton.mp hb]
        exact hmsgs
      new_acks := fun b hb i hi => by
        rw [List.mem_singleton.mp hb] at hi
        exact howed i (Option.mem_toList.mp hi)
      sends := fun b hb => by
        cases List.mem_singleton.mp hb
        exact .inl (List.mem_singleton_self _)
      keeps := fun i kept' hkept' => by
        change (link.unacked.insert id _).get? i = some kept' at hkept'
        rw [get?_insert] at hkept'
        split at hkept'
        · cases hkept'
          exact .inl (List.mem_singleton_self _)
        · exact .inr ⟨kept', hkept', rfl⟩
      drops := fun i hi => by
        obtain ⟨kept, hkept⟩ := get?_of_contains hi
        left
        change ((link.unacked.insert id _).get? i).isSome
        rw [get?_insert]
        split
        · rfl
        · exact hi
      new_kept := fun b hb i hi => by
        rw [List.mem_singleton.mp hb] at hi
        cases hi
        exact contains_of_get? (get?_insert_self _ _ _)
      received := (Turn.refl link).received }

theorem sendBatches_turn {id : BatchId} {owed : Option BatchId} {chunks : List (List μ)}
    {ms : List (Message μ)} (h : link.sendBatches id owed chunks = .ok (link', ms))
    (hid : link.nextId = some id) (hchunks : ∀ chunk ∈ chunks, chunk ≠ [])
    (howed : ∀ i ∈ owed, link.received.contains i) :
    ∃ new, Turn link none chunks.flatten new link' ms := by
  induction chunks generalizing link id owed ms with
  | nil =>
    cases h
    exact ⟨[], Turn.refl _⟩
  | cons chunk chunks ih =>
    obtain ⟨⟨next, m⟩, hbatch, h⟩ := bind_eq_ok h
    obtain ⟨⟨last, ms⟩, hrest, h⟩ := bind_eq_ok h
    cases h
    obtain ⟨⟨new, hturn⟩, hnext, hreceived⟩ :=
      sendBatch_turn hbatch hid (hchunks chunk (List.mem_cons_self ..)) howed
    obtain ⟨new', hturn'⟩ := ih hrest hnext
      (fun chunk hchunk => hchunks chunk (List.mem_cons_of_mem _ hchunk))
      (fun i hi => absurd hi (Option.not_mem_none i))
    exact ⟨new ++ new', hturn.trans hturn'⟩

theorem ackAlone_turn {owed : Option BatchId} (howed : ∀ i ∈ owed, link.received.contains i) :
    Turn link none [] [] link (ackAlone owed) :=
  { Turn.refl link with
    sends := fun b hb => by
      right
      right
      cases owed with
      | none => cases hb
      | some id =>
        cases List.mem_singleton.mp hb
        refine ⟨rfl, fun i hi => ?_⟩
        rw [List.mem_singleton.mp hi]
        exact howed id rfl }

theorem buffer_turn (hid : link.nextId = none) (msgs : List μ) :
    Turn link none msgs [] (link.buffer msgs).1 (link.buffer msgs).2 :=
  { Turn.refl link with
    conserved := by
      rw [buffer, List.flatMap_nil, List.nil_append, Fifo.toList_pushAll]
    top_le := by
      rw [top, hid]
      exact Nat.le_of_eq (by rw [top, buffer, hid])
    numbered := fun _ h => absurd h List.not_mem_nil
    sends := fun b hb => by
      simp only [buffer] at hb
      split at hb
      · cases hb
      · cases List.mem_singleton.mp hb
    received := (Turn.refl link).received }

theorem post_nil (link : Link μ) : link.post [] none = .ok (link, []) := rfl

/-- **Sending is a turn with what is sent as its news.** -/
theorem post_turn {msgs : List μ} {owed : Option BatchId} {ms : List (Message μ)}
    (h : link.post msgs owed = .ok (link', ms)) (howed : ∀ i ∈ owed, link.received.contains i) :
    ∃ new, Turn link none msgs new link' ms := by
  unfold post at h
  split at h
  · rename_i hnil
    cases h
    rw [List.isEmpty_iff.mp hnil]
    exact ⟨[], ackAlone_turn howed⟩
  · split at h
    · rename_i hid
      cases h
      have hack : Turn (link.buffer msgs).1 none [] [] (link.buffer msgs).1 (ackAlone owed) :=
        ackAlone_turn howed
      have hturn := (buffer_turn hid msgs).trans hack
      rw [List.append_nil] at hturn
      exact ⟨_, hturn⟩
    · rename_i id hid
      have hturn := sendBatches_turn h hid
        (fun _ hchunk => ne_nil_of_mem_pieces (by decide) hchunk) howed
      rwa [flatten_pieces (by decide) (Nat.le_refl _)] at hturn

/-- **When the numbering is settled, what was waiting is sent.** -/
theorem settleNumbering_turn {latest next : BatchId} {ms : List (Message μ)}
    (h : link.settleNumbering next = .ok (link', ms)) (hid : link.nextId = none)
    (hnext : latest.next? = some next) : ∃ new, Turn link none [] new link' ms := by
  obtain ⟨new, hturn⟩ := post_turn h fun i hi => absurd hi (Option.not_mem_none i)
  rw [BatchId.next?_eq_some] at hnext
  have htop : link.top ≤ next.toNat := by
    rw [top, hid]
    exact (by omega : 1 ≤ next.toNat)
  exact ⟨new,
    { hturn with
      conserved := by simpa using hturn.conserved
      top_le := Nat.le_trans htop hturn.top_le
      numbered := fun b hb => by
        obtain ⟨i, hi, hle, hlt⟩ := hturn.numbered b hb
        exact ⟨i, hi, Nat.le_trans htop hle, hlt⟩
      received := hturn.received }⟩

/-! ### Sending again -/

theorem batch_tick (period now : Time) (kept : Unacked μ) :
    (Unacked.tick period now kept).1.batch = kept.batch := by
  unfold Unacked.tick
  split
  · rfl
  · split
    · rfl
    · rfl

/-- **A tick sends what is kept.** -/
theorem tick_turn (period now : Time) (link : Link μ) :
    Turn link none [] [] (link.tick period now) (link.resent period now) :=
  { Turn.refl link with
    sends := fun b hb => by
      right
      left
      rcases List.mem_append.mp hb with hb | hb
      · obtain ⟨kept, hkept, hsame⟩ := List.mem_map.mp hb
        obtain ⟨⟨i, kept⟩, hentry, rfl⟩ := List.mem_map.mp (List.mem_filter.mp hkept).1
        cases hsame
        exact ⟨i, kept, mem_entries_iff.mp hentry, rfl⟩
      · split at hb
        · cases List.mem_singleton.mp hb
        · cases hb
    keeps := fun i kept' hkept' => by
      right
      change (link.unacked.mapVals _).get? i = some kept' at hkept'
      rw [get?_mapVals] at hkept'
      obtain ⟨kept, hkept, rfl⟩ := Option.map_eq_some_iff.mp hkept'
      exact ⟨kept, hkept, (batch_tick period now kept).symm⟩
    drops := fun i hi => by
      left
      change ((link.unacked.mapVals _).get? i).isSome
      rw [get?_mapVals, Option.isSome_map]
      exact hi
    new_kept := fun _ h => absurd h List.not_mem_nil
    received := (Turn.refl link).received }

/-- **A number received is acknowledged again by a batch that is kept, or alone.** -/
theorem reacknowledge_turn {id : BatchId} (hid : link.received.contains id) :
    Turn link none [] [] (link.reacknowledge id).1 [(link.reacknowledge id).2] := by
  simp only [reacknowledge]
  split
  · rename_i carrier kept hcarrier
    obtain ⟨i, -, hcarrier⟩ := Option.bind_eq_some_iff.mp hcarrier
    obtain ⟨kept', hkept, hcarrier⟩ := Option.bind_eq_some_iff.mp hcarrier
    cases hcarrier
    exact
      { Turn.refl link with
        sends := fun b hb => by
          cases List.mem_singleton.mp hb
          exact .inr (.inl ⟨carrier, kept, hkept, rfl⟩)
        keeps := fun i kept' hkept' => by
          right
          change (link.unacked.insert carrier _).get? i = some kept' at hkept'
          rw [get?_insert] at hkept'
          split at hkept'
          · rename_i hi
            cases hkept'
            exact ⟨kept, Ranked.rank_inj hi ▸ hkept, rfl⟩
          · exact ⟨kept', hkept', rfl⟩
        drops := fun i hi => by
          left
          change ((link.unacked.insert carrier _).get? i).isSome
          rw [get?_insert]
          split
          · rfl
          · exact hi
        new_kept := fun _ h => absurd h List.not_mem_nil
        received := (Turn.refl link).received }
  · have howed : ∀ i ∈ some id, link.received.contains i := fun i hi => by
      cases hi
      exact hid
    exact ackAlone_turn howed

theorem answerReset_turn (link : Link μ) :
    Turn link none [] [] link.answerReset.1 [link.answerReset.2] :=
  { Turn.refl link with
    sends := fun b hb => by cases List.mem_singleton.mp hb
    received := (Turn.refl link).received }

/-! ### Receiving -/

theorem foldl_acked (link : Link μ) (acks : List BatchId) :
    ∃ unacked ackedIn, acks.foldl acked link = { link with unacked, ackedIn } ∧
      (∀ i kept, unacked.get? i = some kept → link.unacked.get? i = some kept) ∧
      ∀ i, link.unacked.contains i → unacked.contains i ∨ i ∈ acks := by
  induction acks generalizing link with
  | nil => exact ⟨link.unacked, link.ackedIn, rfl, fun _ _ h => h, fun _ h => .inl h⟩
  | cons ack acks ih =>
    obtain ⟨unacked, ackedIn, heq, hold, hdrops⟩ := ih (link.acked ack)
    rw [List.foldl_cons, heq]
    unfold acked at hold hdrops ⊢
    split at hold
    · rename_i hack
      rw [if_pos hack] at hdrops ⊢
      refine ⟨unacked, ackedIn, rfl, fun i kept hkept => ?_, fun i hi => ?_⟩
      · have herased := hold i kept hkept
        rw [get?_erase] at herased
        split at herased
        · cases herased
        · exact herased
      · by_cases hsame : i = ack
        · exact .inr (hsame ▸ List.mem_cons_self ..)
        · have hrest : (link.unacked.erase ack).contains i := by
            rw [SortedMap.contains, get?_erase, if_neg fun hr => hsame (Ranked.rank_inj hr)]
            exact hi
          exact (hdrops i hrest).imp id (List.mem_cons_of_mem _)
    · rename_i hack
      rw [if_neg hack] at hdrops ⊢
      exact ⟨unacked, ackedIn, rfl, hold, fun i hi =>
        (hdrops i hi).imp id (List.mem_cons_of_mem _)⟩

theorem not_contains_foldl_acked (link : Link μ) {acks : List BatchId} {i : BatchId}
    (hi : i ∈ acks) : ¬ (acks.foldl acked link).unacked.contains i := by
  induction acks generalizing link with
  | nil => cases hi
  | cons ack acks ih =>
    rw [List.foldl_cons]
    rcases List.mem_cons.mp hi with rfl | hi
    · have hgone : ¬ (link.acked i).unacked.contains i := by
        unfold acked
        split
        · rw [SortedMap.contains, get?_erase, if_pos rfl]
          exact Bool.false_ne_true
        · assumption
      obtain ⟨unacked, ackedIn, heq, hold, -⟩ := foldl_acked (link.acked i) acks
      rw [heq]
      intro hkept
      obtain ⟨kept, hkept⟩ := get?_of_contains hkept
      exact hgone (contains_of_get? (hold i kept hkept))
    · exact ih _ hi

theorem not_skips_self (id : BatchId) : ¬ link.Skips id id := by
  rintro ⟨hrun, -, answered, hanswered, hle⟩
  rw [startsNewRun, hanswered, decide_eq_true_iff, Option.bind_some, BatchId.next?_eq_some] at hrun
  rw [UInt32.le_iff_toNat_le] at hle
  omega

/-- When the peer seems to have restarted, the numbers that it is not going to use any more count
as received. -/
theorem contains_forgetPrevious (link : Link μ) (id i : BatchId) :
    (if link.startsNewRun id then link.forgetPrevious else link).received.contains i ↔
      link.received.contains i ∨ link.Skips id i := by
  split
  · rename_i hrun
    unfold forgetPrevious
    split
    · rename_i hanswered
      rw [startsNewRun, hanswered, decide_eq_true_iff] at hrun
      cases hrun
    · rename_i answered hanswered
      rw [ReceivedIds.contains_forgetThrough]
      by_cases hi : link.received.contains i
      · exact ⟨fun _ => .inl hi, fun _ => .inr hi⟩
      · refine ⟨fun h => .inr ⟨hrun, hi, answered, hanswered, h.resolve_right hi⟩, fun h => ?_⟩
        obtain ⟨-, -, answered', hanswered', hle⟩ := h.resolve_left hi
        rw [hanswered] at hanswered'
        cases hanswered'
        exact .inl hle
  · rename_i hrun
    exact ⟨.inl, fun h => h.resolve_right fun hskips => hrun hskips.1⟩

/-- **A batch is fresh if its number does not count as received.** -/
theorem accept_cases (link : Link μ) (b : Batch μ) :
    (b.id = none ∧ (link.accept b).2 = .done) ∨
      (∃ id, b.id = some id ∧ link.received.contains id ∧ (link.accept b).2 = .duplicate id) ∨
      ∃ id, b.id = some id ∧ ¬ link.received.contains id ∧ (link.accept b).2 = .fresh id := by
  obtain ⟨unacked, ackedIn, heq, -, -⟩ := foldl_acked link b.acks
  simp only [accept, heq]
  cases b.id with
  | none => exact .inl ⟨rfl, rfl⟩
  | some id =>
    right
    have hcontains := contains_forgetPrevious { link with unacked, ackedIn } id id
    rw [or_iff_left (not_skips_self id)] at hcontains
    simp only [Option.some.injEq, exists_eq_left']
    generalize (if startsNewRun { link with unacked, ackedIn } id then
      forgetPrevious { link with unacked, ackedIn } else { link with unacked, ackedIn }) = next
      at hcontains ⊢
    split
    · rename_i hnew
      rw [ReceivedIds.record_fst, Bool.eq_false_iff, Ne, hcontains] at hnew
      exact .inr ⟨hnew, rfl⟩
    · rename_i hold
      rw [ReceivedIds.record_fst, Bool.not_eq_false, hcontains] at hold
      exact .inl ⟨hold, rfl⟩

theorem forgetPrevious_eq (link : Link μ) : ∃ received ackedIn answeredReset,
    link.forgetPrevious = { link with received, ackedIn, answeredReset } := by
  unfold forgetPrevious
  split
  · exact ⟨_, _, _, rfl⟩
  · exact ⟨_, _, _, rfl⟩

/-- The number of a batch counts as received after the batch. -/
theorem accept_received (link : Link μ) (b : Batch μ) :
    ∃ received ackedIn answeredReset, (link.accept b).1 =
        { b.acks.foldl acked link with received, ackedIn, answeredReset } ∧
      ∀ i, received.contains i ↔ link.received.contains i ∨
        ∃ id, b.id = some id ∧ (i = id ∨ link.Skips id i) := by
  obtain ⟨unacked, ackedIn, heq, -, -⟩ := foldl_acked link b.acks
  simp only [accept, heq]
  cases b.id with
  | none => exact ⟨_, _, _, rfl, by simp⟩
  | some id =>
    simp only [Option.some.injEq, exists_eq_left']
    have hcontains := contains_forgetPrevious { link with unacked, ackedIn } id
    obtain ⟨received, ackedIn', answeredReset, hforget⟩ :
        ∃ received ackedIn' answeredReset,
          (if startsNewRun { link with unacked, ackedIn } id then
            forgetPrevious { link with unacked, ackedIn } else { link with unacked, ackedIn }) =
          { link with unacked, received, ackedIn := ackedIn', answeredReset } := by
      split
      · exact forgetPrevious_eq _
      · exact ⟨_, _, _, rfl⟩
    rw [hforget] at hcontains ⊢
    have hskips : ∀ i, Skips { link with unacked, ackedIn } id i ↔ link.Skips id i :=
      fun i => Iff.rfl
    refine ⟨_, _, _, rfl, fun i => ?_⟩
    rw [ReceivedIds.record_snd, ReceivedIds.contains_insert, hcontains, hskips]
    exact or_left_comm

/-- **What a batch changes**: what it acknowledges is not kept any more, and its number counts as
received. -/
theorem accept_eq (link : Link μ) (b : Batch μ) : ∃ unacked received ackedIn answeredReset,
    (link.accept b).1 = { link with unacked, received, ackedIn, answeredReset } ∧
      (∀ i kept, unacked.get? i = some kept → link.unacked.get? i = some kept ∧ i ∉ b.acks) ∧
      ∀ i, received.contains i ↔ link.received.contains i ∨
        ∃ id, b.id = some id ∧ (i = id ∨ link.Skips id i) := by
  have hgone := fun i (hi : i ∈ b.acks) => not_contains_foldl_acked link hi
  obtain ⟨unacked, ackedIn, heq, hold, -⟩ := foldl_acked link b.acks
  obtain ⟨received, ackedIn', answeredReset, haccept, hreceived⟩ := accept_received link b
  rw [heq] at haccept hgone
  refine ⟨unacked, received, ackedIn', answeredReset, haccept, fun i kept hkept => ?_, hreceived⟩
  exact ⟨hold i kept hkept, fun hi => hgone i hi (contains_of_get? hkept)⟩

/-- The last answer to a reset is remembered until it has served its purpose. -/
theorem answeredReset_accept (link : Link μ) (b : Batch μ) :
    (link.accept b).1.answeredReset = link.answeredReset ∨
      (link.accept b).1.answeredReset = none := by
  have hforget : ∀ l : Link μ, l.forgetPrevious.answeredReset = l.answeredReset ∨
      l.forgetPrevious.answeredReset = none := by
    intro l
    unfold forgetPrevious
    split
    · exact .inl rfl
    · exact .inr rfl
  obtain ⟨unacked, ackedIn, heq, -, -⟩ := foldl_acked link b.acks
  simp only [accept, heq]
  cases b.id with
  | none => exact .inl rfl
  | some id =>
    dsimp only
    by_cases hrun : startsNewRun { link with unacked, ackedIn } id
    · simp only [if_pos hrun]
      exact hforget { link with unacked, ackedIn }
    · rw [if_neg hrun]
      exact .inl rfl

/-- **Taking note of a batch is a turn in which it arrives.** -/
theorem accept_turn (link : Link μ) (b : Batch μ) :
    Turn link (some b) [] [] (link.accept b).1 [] := by
  obtain ⟨unacked, ackedIn, heq, hold, hdrops⟩ := foldl_acked link b.acks
  obtain ⟨received, ackedIn', answeredReset, haccept, hreceived⟩ := accept_received link b
  rw [heq] at haccept
  rw [haccept]
  exact
    { conserved := by simp
      top_le := Nat.le_refl _
      numbered := fun _ h => absurd h List.not_mem_nil
      distinct := List.nodup_nil
      filled := fun _ h => absurd h List.not_mem_nil
      new_acks := fun _ h => absurd h List.not_mem_nil
      sends := fun _ h => absurd h List.not_mem_nil
      keeps := fun i kept hkept => .inr ⟨kept, hold i kept hkept, rfl⟩
      drops := fun i hi => (hdrops i hi).imp id fun hack => ⟨b, rfl, hack⟩
      new_kept := fun _ h => absurd h List.not_mem_nil
      received := fun i => by
        rw [hreceived i]
        refine or_congr_right ⟨?_, ?_⟩
        · rintro ⟨id, hid, hi⟩
          exact ⟨b, id, rfl, hid, hi⟩
        · rintro ⟨b', id, hb, hid, hi⟩
          cases hb
          exact ⟨id, hid, hi⟩ }

end Link

end Quorum.Reliable
