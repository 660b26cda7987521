import Quorum.Proofs.Reliable.Stamps

/-!
# Kept — what an act makes of the batches that wait for an acknowledgement

Whatever is sent with a number is kept under it, and it is kept without a stamp unless a tick has
sent it.  Everything else is left alone, except that an acknowledgement of the peer removes what it
acknowledges.  A tick sends and stamps what is kept, and makes no other difference.

**Main statements.**  `Link.Act.restocks`: what an act other than a tick makes of what is kept.
`Link.Act.keeps_sent` and `Link.Act.keeps`: after any act, what it has sent with a number is kept,
and so is what was kept and is not acknowledged.
-/

namespace Quorum.Reliable

open SortedMap

section
variable {μ : Type} {period : Time} {link link' : Link μ} {came : Option (Message μ)}
  {news : List μ} {ms : List (Message μ)} {i : BatchId}

/-- With `came` having come from the peer, and `ms` sent to it, what the channel `link` kept has
become what `link'` keeps. -/
structure Link.Restocks (link : Link μ) (came : Option (Message μ)) (link' : Link μ)
    (ms : List (Message μ)) : Prop where
  /-- What is sent with a number is kept, without a stamp. -/
  sent : ∀ i ∈ numbers ms, ∃ b : Batch μ, .batch b ∈ ms ∧ b.id = some i ∧
    link'.unacked.get? i = some { batch := b }
  same : ∀ i ∉ numbers ms, (∀ m ∈ came, i ∉ m.acks) →
    link'.unacked.get? i = link.unacked.get? i
  gone : ∀ i ∉ numbers ms, (∃ m ∈ came, i ∈ m.acks) → link'.unacked.get? i = none

namespace Link

/-! ### Sending -/

theorem Restocks.quiet (hms : numbers ms = []) (hkept : link'.unacked = link.unacked)
    (hcame : ∀ m ∈ came, m.acks = []) : link.Restocks came link' ms where
  sent i hi := by
    rw [hms] at hi
    exact absurd hi List.not_mem_nil
  same i _ _ := by rw [hkept]
  gone i _ hi := by
    obtain ⟨m, hm, hi⟩ := hi
    rw [hcame m hm] at hi
    exact absurd hi List.not_mem_nil

theorem Restocks.still (hms : numbers ms = []) (hkept : link'.unacked = link.unacked) :
    link.Restocks none link' ms :=
  .quiet hms hkept fun m hm => absurd hm (Option.not_mem_none m)

theorem not_mem_acks_none : ∀ m ∈ (none : Option (Message μ)), i ∉ m.acks :=
  fun m hm => absurd hm (Option.not_mem_none m)

theorem no_acks_none : ¬ ∃ m ∈ (none : Option (Message μ)), i ∈ m.acks := by
  rintro ⟨m, hm, hi⟩
  exact not_mem_acks_none m hm hi

/-- Batches are kept under their numbers, which go up from `id`. -/
theorem restocks_sendBatches {id : BatchId} {owed : Option BatchId} {chunks : List (List μ)}
    (h : link.sendBatches id owed chunks = .ok (link', ms)) :
    link.Restocks none link' ms ∧ ∀ i ∈ numbers ms, id.toNat ≤ i.toNat := by
  induction chunks generalizing link id owed ms with
  | nil =>
    cases h
    exact ⟨.still rfl rfl, fun i hi => absurd hi List.not_mem_nil⟩
  | cons chunk chunks ih =>
    obtain ⟨⟨next, m⟩, hbatch, h⟩ := bind_eq_ok h
    obtain ⟨⟨last, ms⟩, hrest, h⟩ := bind_eq_ok h
    cases h
    obtain ⟨hsucc, rfl, ackedIn, rfl⟩ := sendBatch_eq_ok hbatch
    obtain ⟨hrest, hle⟩ := ih hrest
    -- the numbers of the other batches are larger than this one
    have hid : id ∉ numbers ms := fun hi => by
      have hlt := hle id hi
      omega
    have hnumbers : ∀ i, i ∈ numbers (.batch ⟨some id, chunk, owed.toList⟩ :: ms) ↔
        i = id ∨ i ∈ numbers ms := fun i => by simp [Message.number?]
    refine ⟨⟨fun i hi => ?_, fun i hi _ => ?_, fun _ _ hi => absurd hi no_acks_none⟩,
      fun i hi => ?_⟩
    · rcases (hnumbers i).mp hi with rfl | hi
      · refine ⟨_, List.mem_cons_self .., rfl, ?_⟩
        rw [hrest.same i hid not_mem_acks_none]
        exact get?_insert_self ..
      · obtain ⟨b, hb, hkept⟩ := hrest.sent i hi
        exact ⟨b, List.mem_cons_of_mem _ hb, hkept⟩
    · rw [hnumbers, not_or] at hi
      rw [hrest.same i hi.2 not_mem_acks_none]
      exact get?_insert_ne _ _ (Ne.symm hi.1)
    · rcases (hnumbers i).mp hi with rfl | hi
      · exact le_rfl
      · have hlt := hle i hi
        omega

theorem restocks_post {owed : Option BatchId} (h : link.post news owed = .ok (link', ms)) :
    link.Restocks none link' ms := by
  unfold post at h
  split at h
  · cases h
    exact .still (numbers_ackAlone owed) rfl
  · split at h
    · cases h
      have hnone : numbers ((link.buffer news).2 ++ ackAlone owed) = [] := by
        rw [numbers_eq, numbered_append, numbered_buffer, numbered_ackAlone]
        rfl
      exact .still hnone rfl
    · exact (restocks_sendBatches h).1

/-! ### Receiving -/

theorem get?_foldl_acked (link : Link μ) (acks : List BatchId) (i : BatchId) :
    (acks.foldl acked link).unacked.get? i = if i ∈ acks then none else link.unacked.get? i := by
  induction acks generalizing link with
  | nil => rfl
  | cons ack acks ih =>
    have hacked : (link.acked ack).unacked.get? i =
        if i = ack then none else link.unacked.get? i := by
      unfold acked
      split
      · exact (get?_erase ..).trans (if_congr Ranked.rank_eq_iff rfl rfl)
      · rename_i hnone
        split
        · rename_i hi
          rw [hi]
          exact Option.not_isSome_iff_eq_none.mp hnone
        · rfl
    rw [List.foldl_cons, ih, hacked]
    by_cases hi : i = ack <;> simp [hi]

theorem get?_unacked_accept (link : Link μ) (b : Batch μ) (i : BatchId) :
    (link.accept b).1.unacked.get? i = if i ∈ b.acks then none else link.unacked.get? i := by
  obtain ⟨received, ackedIn, answeredReset, haccept, -⟩ := accept_received link b
  rw [haccept]
  exact get?_foldl_acked link b.acks i

theorem Restocks.of_accept {b : Batch μ} (h : (link.accept b).1.Restocks none link' ms) :
    link.Restocks (some (.batch b)) link' ms where
  sent := h.sent
  same i hi hacks := by
    have hack : i ∉ b.acks := hacks _ rfl
    rw [h.same i hi not_mem_acks_none, get?_unacked_accept, if_neg hack]
  gone i hi hacks := by
    obtain ⟨m, hm, hack⟩ := hacks
    cases hm
    have hack : i ∈ b.acks := hack
    rw [h.same i hi not_mem_acks_none, get?_unacked_accept, if_pos hack]

/-- A batch that is sent again as an answer loses its stamp. -/
theorem restocks_reacknowledge (hlink : link.Coherent) (id : BatchId) :
    link.Restocks none (link.reacknowledge id).1 [(link.reacknowledge id).2] := by
  rcases reacknowledge_cases link id with ⟨j, kept, -, hkept, heq⟩ | heq
  · rw [heq]
    have hid := hlink.own j kept hkept
    have hnumbers : numbers [Message.batch kept.batch] = [j] := by
      simp [Message.number?, hid]
    refine ⟨fun i hi => ?_, fun i hi _ => ?_, fun _ _ hi => absurd hi no_acks_none⟩
    · rw [hnumbers] at hi
      obtain rfl := List.mem_singleton.mp hi
      exact ⟨kept.batch, List.mem_singleton_self _, hid, get?_insert_self ..⟩
    · rw [hnumbers, List.mem_singleton] at hi
      exact get?_insert_ne _ _ (Ne.symm hi)
  · rw [heq]
    exact .still rfl rfl

/-! ### Acts -/

/-- **What an act other than a tick makes of what is kept**: what it sends with a number is kept
without a stamp, what the peer acknowledges is not kept any more, and all else stays as it was. -/
theorem Act.restocks (hlink : link.Coherent) (h : link.Act period came news link' ms) :
    link.Restocks came link' ms ∨
      ∃ now, came = none ∧ link' = link.tick period now ∧ ms = link.resent period now := by
  cases h with
  | send h => exact .inl (restocks_post h)
  | acks hid => exact .inl (.of_accept (.still rfl rfl))
  | @again b id hid hreceived =>
    exact .inl (.of_accept (restocks_reacknowledge (hlink.forgets (forgets_accept link b)) id))
  | fresh hid hfresh h => exact .inl (.of_accept (restocks_post h))
  | request hr =>
    refine .inl (.quiet rfl rfl fun m hm => ?_)
    cases hm
    rfl
  | ignore hr h =>
    refine .inl (.quiet rfl rfl fun m hm => ?_)
    cases hm
    rfl
  | @settle r next _ _ hr hid hnext h =>
    have hposted := restocks_post h
    refine .inl ⟨hposted.sent, fun i hi _ => hposted.same i hi not_mem_acks_none, fun i _ hi => ?_⟩
    obtain ⟨m, hm, hi⟩ := hi
    cases hm
    exact absurd hi List.not_mem_nil
  | tick now => exact .inr ⟨now, rfl, rfl, rfl⟩

/-- What a tick sends again is kept and has waited too long. -/
theorem mem_numbers_resent (hlink : link.Coherent) {now : Time} :
    i ∈ numbers (link.resent period now) ↔ ∃ kept, link.unacked.get? i = some kept ∧
      (Unacked.tick period now kept).2 = true := by
  simp only [mem_numbers, batch_mem_resent]
  constructor
  · rintro ⟨b, ⟨j, kept, hkept, hwaited, rfl⟩, hid⟩
    cases (hlink.own j kept hkept).symm.trans hid
    exact ⟨kept, hkept, hwaited⟩
  · rintro ⟨kept, hkept, hwaited⟩
    exact ⟨_, ⟨i, kept, hkept, hwaited, rfl⟩, hlink.own i kept hkept⟩

/-- **What an act sends with a number is kept afterwards.** -/
theorem Act.keeps_sent (hlink : link.Coherent) (h : link.Act period came news link' ms)
    (hi : i ∈ numbers ms) : link'.unacked.contains i := by
  rcases h.restocks hlink with hrestocks | ⟨now, -, rfl, rfl⟩
  · obtain ⟨b, -, -, hkept⟩ := hrestocks.sent i hi
    exact contains_of_get? hkept
  · obtain ⟨kept, hkept, -⟩ := (mem_numbers_resent hlink).mp hi
    rw [SortedMap.contains, get?_unacked_tick, hkept]
    rfl

/-- **What is kept stays until the peer acknowledges it.** -/
theorem Act.keeps (hlink : link.Coherent) (h : link.Act period came news link' ms)
    (hi : link.unacked.contains i) (hcame : ∀ m ∈ came, i ∉ m.acks) :
    link'.unacked.contains i := by
  by_cases hsent : i ∈ numbers ms
  · exact h.keeps_sent hlink hsent
  · rcases h.restocks hlink with hrestocks | ⟨now, -, rfl, -⟩
    · rw [SortedMap.contains, hrestocks.same i hsent hcame]
      exact hi
    · rw [SortedMap.contains, get?_unacked_tick, Option.isSome_map]
      exact hi

end Link

end

end Quorum.Reliable
